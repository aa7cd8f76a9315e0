import NovaChat.Protocol

/-!
# Responses

The lifecycle status of a response, what its caller asked for, the record that persists
both, and the object rendered from it.
-/

namespace NovaChat

inductive ResponseStatus
  | queued | inProgress | completed | failed | incomplete | cancelled
  deriving DecidableEq, Repr

namespace ResponseStatus

def isTerminal : ResponseStatus → Bool
  | completed | failed | incomplete | cancelled => true
  | queued | inProgress => false

def text : ResponseStatus → String
  | queued => "queued"
  | inProgress => "in_progress"
  | completed => "completed"
  | failed => "failed"
  | incomplete => "incomplete"
  | cancelled => "cancelled"

end ResponseStatus

/-- Where a response inherits its context from. -/
inductive ContextAnchor
  | root
  | previous (id : ResponseId)
  | conversation (id : ConversationId)
  deriving DecidableEq

namespace ContextAnchor

def conversationId : ContextAnchor → Option ConversationId
  | conversation id => some id
  | _ => none

def previousResponseId : ContextAnchor → Option ResponseId
  | previous id => some id
  | _ => none

@[simp] theorem conversationId_eq_some {a : ContextAnchor} {c : ConversationId} :
    a.conversationId = some c ↔ a = conversation c := by
  cases a <;> simp [conversationId]

end ContextAnchor

/-- Metadata entries in key order. -/
abbrev Metadata := List (String × MetadataValue)

/-- The parameters of one model call. -/
structure ModelParams where
  model : String
  instructions : Option String := none
  tools : List Tool := []
  toolChoice : Option ToolChoice := none
  metadata : Metadata := []

/-- What the caller asked for, for one generation. -/
structure TurnSpec where
  params : ModelParams
  inputItems : List ResponseItem
  store : Bool
  anchor : ContextAnchor

/-- A content integrity tag together with the algorithm that produced it. -/
structure IntegrityTag where
  alg : String
  tag : String
  deriving DecidableEq, Repr

/-- Ledger metadata for one generation. -/
structure ResponseRecord where
  responseId : ResponseId
  tenantId : TenantId
  spec : TurnSpec
  status : ResponseStatus
  usage : Usage
  reasoning : Option String
  createdAtMs : ℕ
  completedAtMs : Option ℕ
  expiresAtMs : Option ℕ
  integrity : Option IntegrityTag
  idempotencyKey : Option IdempotencyKey
  owner : Option AgentId
  attempt : Attempt

namespace ResponseRecord

/-- A freshly created record.  It expires exactly when its spec asks for storage. -/
def queued (responseId : ResponseId) (tenantId : TenantId) (spec : TurnSpec)
    (idempotencyKey : IdempotencyKey) (nowMs contentRetentionMs : ℕ) : ResponseRecord where
  responseId := responseId
  tenantId := tenantId
  spec := spec
  status := .queued
  usage := {}
  reasoning := none
  createdAtMs := nowMs
  completedAtMs := none
  expiresAtMs := if spec.store then some (satAdd nowMs contentRetentionMs) else none
  integrity := none
  idempotencyKey := some idempotencyKey
  owner := none
  attempt := Attempt.unclaimed

def anchor (r : ResponseRecord) : ContextAnchor := r.spec.anchor

def conversationId (r : ResponseRecord) : Option ConversationId := r.spec.anchor.conversationId

def previousResponseId (r : ResponseRecord) : Option ResponseId :=
  r.spec.anchor.previousResponseId

def isStored (r : ResponseRecord) : Bool := r.spec.store

/-- Whether this record may be used as a previous response by `tenant`. -/
def isReferencableBy (r : ResponseRecord) (tenant : TenantId) : Bool :=
  r.isStored && decide (r.tenantId = tenant)

end ResponseRecord

/-- The response object returned to callers and embedded in lifecycle events. -/
structure ResponseObject where
  id : String
  createdAt : ℕ
  status : ResponseStatus
  model : String
  previousResponseId : Option String
  conversation : Option ConversationRef
  instructions : Option String
  store : Bool
  input : List ResponseItem
  output : List ResponseItem
  reasoning : Option String
  tools : List Tool
  toolChoice : Option ToolChoice
  metadata : Metadata
  usage : Usage

namespace ResponseObject

/-- Render a record whose output is known.  Seconds, as the protocol reports them. -/
def new (record : ResponseRecord) (output : List ResponseItem) : ResponseObject where
  id := record.responseId.text
  createdAt := record.createdAtMs / 1000
  status := record.status
  model := record.spec.params.model
  previousResponseId := record.previousResponseId.map ResponseId.text
  conversation := record.conversationId.map fun id ↦ .object id.text
  instructions := record.spec.params.instructions
  store := record.spec.store
  input := record.spec.inputItems
  output := output
  reasoning := record.reasoning
  tools := record.spec.params.tools
  toolChoice := record.spec.params.toolChoice
  metadata := record.spec.params.metadata
  usage := record.usage

def withoutOutput (record : ResponseRecord) : ResponseObject := new record []

/-- The minimum an event needs to end a stream when the record is not in hand. -/
def terminalStub (id : ResponseId) (status : ResponseStatus) : ResponseObject where
  id := id.text
  createdAt := 0
  status := status
  model := ""
  previousResponseId := none
  conversation := none
  instructions := none
  store := false
  input := []
  output := []
  reasoning := none
  tools := []
  toolChoice := none
  metadata := []
  usage := {}

end ResponseObject

end NovaChat
