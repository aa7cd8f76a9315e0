import NovaChat.Ports

/-!
# Configuration and the conversations service

The bounds the services read, and the part of the conversations service that adds something
to its port: the clock.
-/

namespace NovaChat

/-- Bounds for chain resolution.  Exceeding any of them is an error. -/
structure ChainLimits where
  maxDepth : ℕ := 50
  maxItems : ℕ := 1000
  maxBytes : ℕ := 1024 * 1024

structure Config where
  nodeTag : NodeTag
  retainAfterTerminalMs : ℕ := 60000
  heartbeatTtlMs : ℕ := 90000
  contentRetentionMs : ℕ := 30 * 24 * 60 * 60 * 1000
  /-- How many response events one internal read may return. -/
  eventPage : ℕ := 256
  chain : ChainLimits := {}

namespace ConversationsService

/-- Create a conversation under a freshly minted id. -/
def create (uuid : Uuid) (tenant : TenantId) (metadata : Metadata) :
    Service (Except ConversationError Conversation) := do
  let now ← nowMs
  Conversations.create (.new ⟨uuid⟩ tenant metadata now)

def acquireActive (tenant : TenantId) (id : ConversationId) (responseId : ResponseId) :
    Service (Except ConversationError ℕ) := do
  let now ← nowMs
  Conversations.acquireActive tenant id responseId now

def releaseActive (tenant : TenantId) (id : ConversationId) (responseId : ResponseId)
    (status : ResponseStatus) : Service (Except ConversationError ℕ) := do
  let now ← nowMs
  Conversations.releaseActive tenant id responseId status now

def appendEvent (tenant : TenantId) (id : ConversationId) (kind : ConversationEventKind) :
    Service (Except ConversationError ℕ) := do
  let now ← nowMs
  Conversations.appendEvent tenant id kind now

end ConversationsService

end NovaChat
