import NovaChat.Ports
import NovaChat.Wire.Fields

/-!
# Answers of the gateway

What the gateway answers over HTTP, and the translation of every failure of a port into a status, a
code and a message.  An id that belongs to another tenant reads as one that does not exist.
-/

namespace NovaChat

namespace Gateway

/-! ## Answers -/

inductive StatusCode
  | ok
  | accepted
  | badRequest
  | unauthorized
  | notFound
  | conflict
  | gone
  | tooManyRequests
  | internalServerError
  | serviceUnavailable
  deriving DecidableEq, Repr

/-- The protocol shape of a conversation.  Only the list shape tells of its activity. -/
structure ConversationObject where
  id : String
  object : String := "conversation"
  createdAt : ℕ
  metadata : Metadata
  status : Option String := none
  activeResponseId : Option String := none

namespace ConversationObject

def new (conversation : Conversation) : ConversationObject where
  id := conversation.id.text
  createdAt := conversation.createdAtMs / 1000
  metadata := conversation.metadata

def withActivity (conversation : Conversation) : ConversationObject :=
  { new conversation with
    status := some (if conversation.activeResponseId.isSome then "busy" else "idle")
    activeResponseId := conversation.activeResponseId.map ResponseId.text }

end ConversationObject

structure DeletedObject where
  id : String
  object : String
  deleted : Bool := true
  deriving DecidableEq

structure AppendedEvent where
  object : String := "conversation.event"
  conversationId : String
  seq : ℕ
  deriving DecidableEq

inductive TranscriptEntry
  | reasoning (kind text : String)
  | item (item : ResponseItem)
  deriving DecidableEq

structure TranscriptObject where
  object : String := "list"
  conversationId : String
  data : List TranscriptEntry
  deriving DecidableEq

/-- One server-sent event. -/
structure Frame where
  event : String
  id : Option String := none
  data : String
  deriving DecidableEq

inductive Body
  | error (type message : String)
  | conversation (object : ConversationObject)
  | list (object : String) (data : List ConversationObject)
  | deleted (object : DeletedObject)
  | appended (object : AppendedEvent)
  | transcript (object : TranscriptObject)
  | response (object : ResponseObject)
  | stream (frames : List Frame)

structure HttpResponse where
  status : StatusCode
  body : Body

/-- The headers the handlers look at, where they hold text.  `idempotencyKey` tells a missing header
from one that holds none. -/
structure Headers where
  authorization : Option String := none
  lastEventId : Option String := none
  idempotencyKey : Option (Option String) := none
  deriving DecidableEq

/-! ## Failures -/

def apiError (status : StatusCode) (code message : String) : HttpResponse :=
  ⟨status, .error code message⟩

def badRequest (code message : String) : HttpResponse := apiError .badRequest code message

def notFound : HttpResponse := apiError .notFound "not_found" "no such response"

def notFoundKind (kind : String) : HttpResponse :=
  apiError .notFound "not_found" ("no such " ++ kind)

def draining : HttpResponse :=
  apiError .serviceUnavailable "draining" "node is shutting down; retry against the service"

/-- A port error in its HTTP form. -/
abbrev StreamFailure := StatusCode × String × String

def StreamFailure.response (failure : StreamFailure) : HttpResponse :=
  apiError failure.1 failure.2.1 failure.2.2

def mapLedgerError : LedgerError → HttpResponse
  | .notFound => notFound
  | .staleAttempt => apiError .conflict "stale_attempt" "attempt superseded by a newer one"
  | .invalidTransition msg => apiError .conflict "invalid_transition" msg
  | .store .readOnly => apiError .serviceUnavailable "read_only" "service is read-only"
  | .store .unavailable => apiError .serviceUnavailable "unavailable" "ledger is unavailable"
  | .store (.internal msg) => apiError .internalServerError "internal" msg

def mapContextError : ContextError → HttpResponse
  | .chainBroken id => apiError .badRequest "chain_broken"
      s!"chain link {id.text} is missing or expired; resend the history explicitly"
  | .notStored => apiError .badRequest "previous_not_stored"
      "the referenced response was created with store=false and cannot be chained"
  | .tooDeep limit => apiError .badRequest "chain_too_long"
      s!"chain exceeds the {limit} link limit; start a new chain"
  | .tooManyItems limit => apiError .badRequest "chain_too_long"
      s!"chain exceeds {limit} items; start a new chain"
  | .tooLarge limit => apiError .badRequest "chain_too_large"
      s!"chain exceeds {limit} bytes; start a new chain"
  | .crossTenant => apiError .notFound "not_found" "no such response"

def mapConversationStreamError : ConversationError → StreamFailure
  | .notFound => (.notFound, "not_found", "no such conversation")
  | .busy holder => (.conflict, "conversation_busy",
      s!"a turn is already in flight for this conversation: {holder.text}")
  | .capacityExceeded =>
    (.serviceUnavailable, "capacity_exceeded", "conversation event capacity exceeded")
  | .store .unavailable => (.serviceUnavailable, "store_unavailable",
      "conversation store is unavailable; the request was not stored")
  | .store .readOnly => (.serviceUnavailable, "read_only", "service is read-only")
  | .store (.internal msg) => (.internalServerError, "internal", msg)

def mapConversationError (e : ConversationError) : HttpResponse :=
  (mapConversationStreamError e).response

def mapEventLogError : EventLogError → StreamFailure
  | .unknown => (.notFound, "not_found", "no such response")
  | .expired => (.gone, "cursor_expired",
      "requested position is no longer buffered; there is no recovery path")
  | .staleAttempt => (.conflict, "stale_attempt", "attempt superseded")
  | .store .readOnly => (.serviceUnavailable, "read_only", "service is read-only")
  | .store .unavailable => (.serviceUnavailable, "unavailable", "event buffer is unavailable")
  | .capacityExceeded =>
    (.serviceUnavailable, "capacity_exceeded", "event buffer capacity exceeded")
  | .store (.internal msg) => (.internalServerError, "internal", msg)

def mapServiceError : ServiceError → HttpResponse
  | .ledger e => mapLedgerError e
  | .eventLog e => (mapEventLogError e).response
  | .conversation e => mapConversationError e
  | .context e => mapContextError e

end Gateway

end NovaChat
