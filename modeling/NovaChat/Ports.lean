import NovaChat.Conversation
import NovaChat.Events
import NovaChat.Interact.Prog

/-!
# Ports

The errors and outcomes of the storage ports, and the calls that cross them.  A service is a
program over these calls; what a call does is said by the store that answers it.
-/

namespace NovaChat

open Interact

/-! ## Failures -/

/-- Failures of the storage layer itself. -/
inductive StoreError
  | readOnly
  | unavailable
  | internal (message : String)
  deriving DecidableEq, Repr

def StoreError.text : StoreError → String
  | readOnly => "read only"
  | unavailable => "unavailable"
  | internal message => "internal: " ++ message

inductive ConversationError
  | notFound
  | busy (holder : ResponseId)
  | capacityExceeded
  | store (e : StoreError)
  deriving DecidableEq

def ConversationError.text : ConversationError → String
  | notFound => "not found"
  | busy holder => "conversation is busy with " ++ holder.text
  | capacityExceeded => "capacity exceeded"
  | store e => e.text

inductive LedgerError
  | notFound
  | staleAttempt
  | invalidTransition (message : String)
  | store (e : StoreError)
  deriving DecidableEq

def LedgerError.text : LedgerError → String
  | notFound => "not found"
  | staleAttempt => "stale attempt"
  | invalidTransition message => "invalid transition: " ++ message
  | store e => e.text

inductive EventLogError
  | unknown
  | expired
  | staleAttempt
  | capacityExceeded
  | store (e : StoreError)
  deriving DecidableEq

def EventLogError.text : EventLogError → String
  | unknown => "unknown response"
  | expired => "cursor expired"
  | staleAttempt => "stale attempt"
  | capacityExceeded => "capacity exceeded"
  | store e => e.text

inductive IntegrityError
  | keyUnavailable (message : String)
  | mismatch
  | internal (message : String)
  deriving DecidableEq

def IntegrityError.text : IntegrityError → String
  | keyUnavailable message => "integrity key unavailable: " ++ message
  | mismatch => "integrity mismatch"
  | internal message => "internal: " ++ message

/-- Why the context a turn asked to inherit could not be assembled. -/
inductive ContextError
  | chainBroken (id : ResponseId)
  | notStored
  | crossTenant
  | tooDeep (limit : ℕ)
  | tooManyItems (limit : ℕ)
  | tooLarge (limit : ℕ)
  deriving DecidableEq

/-- The union of what the orchestration can hit. -/
inductive ServiceError
  | ledger (e : LedgerError)
  | eventLog (e : EventLogError)
  | conversation (e : ConversationError)
  | context (e : ContextError)
  deriving DecidableEq

/-! ## Outcomes -/

/-- What happened to a create.  `readOnly` and `overloaded` are refusals, not errors. -/
inductive CreateOutcome
  | accepted (record : ResponseRecord)
  | duplicate (record : ResponseRecord)
  | readOnly
  | overloaded

/-- Where one execution attempt came from. -/
structure RequestProvenance where
  responseId : ResponseId
  attempt : Attempt
  execDeadlineMs : ℕ

/-- A response taken for execution; the fence is on the record. -/
structure ClaimedResponse where
  record : ResponseRecord
  execDeadlineMs : ℕ

def ClaimedResponse.provenance (c : ClaimedResponse) : RequestProvenance :=
  ⟨c.record.responseId, c.record.attempt, c.execDeadlineMs⟩

/-- A claim the reap path took away from a holder that stopped reporting. -/
structure AbortedClaim where
  responseId : ResponseId
  previousAttempt : Attempt
  tenantId : TenantId
  conversationId : Option ConversationId
  inputItems : List ResponseItem
  store : Bool

/-! ## Calls -/

inductive LedgerCall
  | create (record : ResponseRecord) (idempotencyKey : IdempotencyKey) (nowMs : ℕ)
  | claim (agentId : AgentId) (nowMs execTtlMs : ℕ)
  | heartbeat (agentId : AgentId) (nowMs : ℕ)
  | complete (responseId : ResponseId) (expectedAttempt : Attempt) (status : ResponseStatus)
      (usage : Usage) (nowMs : ℕ)
  | cancel (tenant : TenantId) (responseId : ResponseId) (nowMs : ℕ)
  | reap (nowMs heartbeatTtlMs : ℕ)
  | recordPartialUsage (responseId : ResponseId) (attempt : Attempt) (usage : Usage)
  | get (responseId : ResponseId)
  | delete (responseId : ResponseId)
  | deleteByTenant (tenant : TenantId)
  | checkAttempt (responseId : ResponseId) (attempt : Attempt)
  | inFlight

@[reducible] def LedgerCall.Reply : LedgerCall → Type
  | create .. => Except LedgerError CreateOutcome
  | claim .. => Except LedgerError (Option ClaimedResponse)
  | heartbeat .. => Except LedgerError Unit
  | complete .. => Except LedgerError Unit
  | cancel .. => Except LedgerError Unit
  | reap .. => Except LedgerError (List AbortedClaim)
  | recordPartialUsage .. => Except LedgerError Unit
  | get .. => Except LedgerError (Option ResponseRecord)
  | delete .. => Except LedgerError Bool
  | deleteByTenant .. => Except LedgerError ℕ
  | checkAttempt .. => Except LedgerError Unit
  | inFlight => Except LedgerError ℕ

/-- `fenceCheck` and `insert` are the two halves of `append`, each under its own lock. -/
inductive EventLogCall
  | append (event : AppendEvent)
  | fenceCheck (event : AppendEvent)
  | insert (event : AppendEvent)
  | readAfter (responseId : ResponseId) (startingAfter : Option ℕ) (limit : ℕ)
  | close (responseId : ResponseId) (nowMs retainMs : ℕ)
  | sweepExpired (nowMs : ℕ)
  | remove (responseId : ResponseId)

@[reducible] def EventLogCall.Reply : EventLogCall → Type
  | append .. => Except EventLogError ℕ
  | fenceCheck .. => Except EventLogError Unit
  | insert .. => Except EventLogError ℕ
  | readAfter .. => Except EventLogError (List ResponseEvent)
  | close .. => Except EventLogError Unit
  | sweepExpired .. => Except EventLogError ℕ
  | remove .. => Except EventLogError Unit

inductive ConversationCall
  | create (conversation : Conversation)
  | get (tenant : TenantId) (id : ConversationId)
  | updateMetadata (tenant : TenantId) (id : ConversationId) (metadata : Metadata)
  | delete (tenant : TenantId) (id : ConversationId)
  | deleteByTenant (tenant : TenantId)
  | list (tenant : TenantId)
  | readSnapshot (tenant : TenantId) (id : ConversationId)
  | appendTurn (tenant : TenantId) (id : ConversationId) (responseId : ResponseId)
      (commit : TurnCommit) (nowMs : ℕ)
  | advance (tenant : TenantId) (id : ConversationId) (last : ResponseId)
  | acquireActive (tenant : TenantId) (id : ConversationId) (responseId : ResponseId)
      (nowMs : ℕ)
  | releaseActive (tenant : TenantId) (id : ConversationId) (responseId : ResponseId)
      (status : ResponseStatus) (nowMs : ℕ)
  | releaseStaleActive (tenant : TenantId) (id : ConversationId) (holder : ResponseId)
  | appendEvent (tenant : TenantId) (id : ConversationId) (kind : ConversationEventKind)
      (nowMs : ℕ)
  | readAfter (tenant : TenantId) (id : ConversationId) (startingAfter : Option ℕ)
      (limit : ℕ)

@[reducible] def ConversationCall.Reply : ConversationCall → Type
  | create .. => Except ConversationError Conversation
  | get .. => Except ConversationError (Option Conversation)
  | updateMetadata .. => Except ConversationError Conversation
  | delete .. => Except ConversationError Bool
  | deleteByTenant .. => Except ConversationError ℕ
  | list .. => Except ConversationError (List Conversation)
  | readSnapshot .. => Except ConversationError ResolvedContext
  | appendTurn .. => Except ConversationError ℕ
  | advance .. => Except ConversationError Unit
  | acquireActive .. => Except ConversationError ℕ
  | releaseActive .. => Except ConversationError ℕ
  | releaseStaleActive .. => Except ConversationError Bool
  | appendEvent .. => Except ConversationError ℕ
  | readAfter .. => Except ConversationError (List ConversationEvent)

/-- Reads of the admission switches a carrier client keeps for its own node. -/
inductive NodeCall
  | isReadOnly (node : ℕ)
  | pendingLimit (node : ℕ)

@[reducible] def NodeCall.Reply : NodeCall → Type
  | isReadOnly _ => Bool
  | pendingLimit _ => ℕ

/-- The switches and bounds of the store and of the nodes, set from outside the services. -/
inductive ModeCall
  | setReadOnly (enabled : Bool)
  | setUnavailable (enabled : Bool)
  | setPendingLimit (limit : ℕ)
  | setMaxRecords (limit : ℕ)
  | setMaxConversations (limit : ℕ)
  | setMaxEventsPerConversation (limit : ℕ)
  | setNodeReadOnly (node : ℕ) (enabled : Bool)
  | setNodePendingLimit (node limit : ℕ)
  | setClock (ms : ℕ)

inductive Call
  | nowMs
  | ledger (c : LedgerCall)
  | eventLog (c : EventLogCall)
  | conversations (c : ConversationCall)
  | node (c : NodeCall)
  | mode (c : ModeCall)

@[reducible] def Call.Reply : Call → Type
  | nowMs => ℕ
  | ledger c => c.Reply
  | eventLog c => c.Reply
  | conversations c => c.Reply
  | node c => c.Reply
  | mode _ => Unit

/-- A program over the ports. -/
abbrev Service (α : Type) := Prog Call Call.Reply α

open Prog (perform)

@[simp] def nowMs : Service ℕ := perform Call.nowMs

namespace Ledger

@[simp] def create (record : ResponseRecord) (key : IdempotencyKey) (nowMs : ℕ) :
    Service (Except LedgerError CreateOutcome) :=
  perform (Call.ledger (.create record key nowMs))

@[simp] def claim (agentId : AgentId) (nowMs execTtlMs : ℕ) :
    Service (Except LedgerError (Option ClaimedResponse)) :=
  perform (Call.ledger (.claim agentId nowMs execTtlMs))

@[simp] def heartbeat (agentId : AgentId) (nowMs : ℕ) : Service (Except LedgerError Unit) :=
  perform (Call.ledger (.heartbeat agentId nowMs))

@[simp] def complete (responseId : ResponseId) (expectedAttempt : Attempt)
    (status : ResponseStatus) (usage : Usage) (nowMs : ℕ) : Service (Except LedgerError Unit) :=
  perform (Call.ledger (.complete responseId expectedAttempt status usage nowMs))

@[simp] def cancel (tenant : TenantId) (responseId : ResponseId) (nowMs : ℕ) :
    Service (Except LedgerError Unit) :=
  perform (Call.ledger (.cancel tenant responseId nowMs))

@[simp] def reap (nowMs heartbeatTtlMs : ℕ) : Service (Except LedgerError (List AbortedClaim)) :=
  perform (Call.ledger (.reap nowMs heartbeatTtlMs))

@[simp] def get (responseId : ResponseId) :
    Service (Except LedgerError (Option ResponseRecord)) :=
  perform (Call.ledger (.get responseId))

@[simp] def delete (responseId : ResponseId) : Service (Except LedgerError Bool) :=
  perform (Call.ledger (.delete responseId))

@[simp] def deleteByTenant (tenant : TenantId) : Service (Except LedgerError ℕ) :=
  perform (Call.ledger (.deleteByTenant tenant))

@[simp] def checkAttempt (responseId : ResponseId) (attempt : Attempt) :
    Service (Except LedgerError Unit) :=
  perform (Call.ledger (.checkAttempt responseId attempt))

@[simp] def inFlight : Service (Except LedgerError ℕ) := perform (Call.ledger .inFlight)

end Ledger

namespace EventLog

@[simp] def append (event : AppendEvent) : Service (Except EventLogError ℕ) :=
  perform (Call.eventLog (.append event))

@[simp] def fenceCheck (event : AppendEvent) : Service (Except EventLogError Unit) :=
  perform (Call.eventLog (.fenceCheck event))

@[simp] def insert (event : AppendEvent) : Service (Except EventLogError ℕ) :=
  perform (Call.eventLog (.insert event))

@[simp] def readAfter (responseId : ResponseId) (startingAfter : Option ℕ) (limit : ℕ) :
    Service (Except EventLogError (List ResponseEvent)) :=
  perform (Call.eventLog (.readAfter responseId startingAfter limit))

@[simp] def close (responseId : ResponseId) (nowMs retainMs : ℕ) :
    Service (Except EventLogError Unit) :=
  perform (Call.eventLog (.close responseId nowMs retainMs))

@[simp] def sweepExpired (nowMs : ℕ) : Service (Except EventLogError ℕ) :=
  perform (Call.eventLog (.sweepExpired nowMs))

@[simp] def remove (responseId : ResponseId) : Service (Except EventLogError Unit) :=
  perform (Call.eventLog (.remove responseId))

end EventLog

namespace Conversations

@[simp] def create (conversation : Conversation) :
    Service (Except ConversationError Conversation) :=
  perform (Call.conversations (.create conversation))

@[simp] def delete (tenant : TenantId) (id : ConversationId) :
    Service (Except ConversationError Bool) :=
  perform (Call.conversations (.delete tenant id))

@[simp] def deleteByTenant (tenant : TenantId) : Service (Except ConversationError ℕ) :=
  perform (Call.conversations (.deleteByTenant tenant))

@[simp] def readSnapshot (tenant : TenantId) (id : ConversationId) :
    Service (Except ConversationError ResolvedContext) :=
  perform (Call.conversations (.readSnapshot tenant id))

@[simp] def appendTurn (tenant : TenantId) (id : ConversationId) (responseId : ResponseId)
    (commit : TurnCommit) (nowMs : ℕ) : Service (Except ConversationError ℕ) :=
  perform (Call.conversations (.appendTurn tenant id responseId commit nowMs))

@[simp] def advance (tenant : TenantId) (id : ConversationId) (last : ResponseId) :
    Service (Except ConversationError Unit) :=
  perform (Call.conversations (.advance tenant id last))

@[simp] def acquireActive (tenant : TenantId) (id : ConversationId) (responseId : ResponseId)
    (nowMs : ℕ) : Service (Except ConversationError ℕ) :=
  perform (Call.conversations (.acquireActive tenant id responseId nowMs))

@[simp] def releaseActive (tenant : TenantId) (id : ConversationId) (responseId : ResponseId)
    (status : ResponseStatus) (nowMs : ℕ) : Service (Except ConversationError ℕ) :=
  perform (Call.conversations (.releaseActive tenant id responseId status nowMs))

@[simp] def releaseStaleActive (tenant : TenantId) (id : ConversationId) (holder : ResponseId) :
    Service (Except ConversationError Bool) :=
  perform (Call.conversations (.releaseStaleActive tenant id holder))

@[simp] def appendEvent (tenant : TenantId) (id : ConversationId)
    (kind : ConversationEventKind) (nowMs : ℕ) : Service (Except ConversationError ℕ) :=
  perform (Call.conversations (.appendEvent tenant id kind nowMs))

end Conversations

end NovaChat
