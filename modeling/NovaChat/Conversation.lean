import NovaChat.Response

/-!
# Conversations

A conversation points at the tail of its response chain and holds the marker of the turn in
flight.  Its history lives in a snapshot of context entries, its announcements in an event
stream with contiguous sequence numbers.
-/

namespace NovaChat

structure Conversation where
  id : ConversationId
  tenantId : TenantId
  lastResponseId : Option ResponseId
  activeResponseId : Option ResponseId
  metadata : Metadata
  createdAtMs : ℕ

/-- A fresh conversation with no chain behind it yet. -/
def Conversation.new (id : ConversationId) (tenantId : TenantId) (metadata : Metadata)
    (createdAtMs : ℕ) : Conversation :=
  ⟨id, tenantId, none, none, metadata, createdAtMs⟩

/-- The durable content one turn commits to a conversation snapshot. -/
structure TurnCommit where
  inputItems : List ResponseItem
  outputItems : List ResponseItem
  reasoning : Option String
  usage : Usage
  status : ResponseStatus
  deriving DecidableEq

inductive ConversationEventKind
  | turnStarted (responseId : ResponseId)
  | turnCompleted (responseId : ResponseId) (status : ResponseStatus)
  | responseDeleted (responseId : ResponseId)
  | business (kind : String) (payload : Value)

structure ConversationEvent where
  conversationId : ConversationId
  seq : ℕ
  kind : ConversationEventKind
  tsMs : ℕ

/-! ## Inherited context -/

/-- One position in a conversation's history, with the reasoning that precedes it. -/
structure ContextEntry where
  item : ResponseItem
  reasoning : Option String := none
  deriving DecidableEq

/-- Resolved history, oldest first, and the number of turns behind it. -/
structure ResolvedContext where
  entries : List ContextEntry := []
  turns : ℕ := 0
  deriving DecidableEq

namespace ResolvedContext

def fromItems (items : List ResponseItem) (turns : ℕ) : ResolvedContext :=
  ⟨items.map fun item ↦ ⟨item, none⟩, turns⟩

def intoItems (c : ResolvedContext) : List ResponseItem := c.entries.map ContextEntry.item

def itemCount (c : ResolvedContext) : ℕ := c.entries.length

def bytes (c : ResolvedContext) : ℕ :=
  c.entries.foldl (fun acc e ↦ satAdd acc e.item.byteLen) 0

end ResolvedContext

end NovaChat
