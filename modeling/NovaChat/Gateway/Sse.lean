import NovaChat.Gateway.Auth

/-!
# Server-sent events

Probe first, then stream: an unknown id or an expired cursor is still answered with a status.  Both
streams of the gateway, of a response and of a conversation, are read by one loop and differ only in
what they read, how an event is named, and whether the stream can end.
-/

namespace NovaChat

open Interact Prog

/-- The events of a conversation, as far as they are not read through a service. -/
@[simp] def Conversations.readAfter (tenant : TenantId) (id : ConversationId)
    (startingAfter : Option ℕ) (limit : ℕ) :
    Service (Except ConversationError (List ConversationEvent)) :=
  perform (Call.conversations (.readAfter tenant id startingAfter limit))

namespace ConversationEventKind

/-- The wire name. -/
def asStr : ConversationEventKind → String
  | turnStarted _ => "conversation.turn_started"
  | turnCompleted .. => "conversation.turn_completed"
  | responseDeleted _ => "conversation.response_deleted"
  | business .. => "conversation.business"

def toValue (kind : ConversationEventKind) : Value :=
  .object <| ("type", .string kind.asStr) ::
    match kind with
    | turnStarted r => [("response_id", .string r.text)]
    | turnCompleted r status => [("response_id", .string r.text), ("status", .string status.text)]
    | responseDeleted r => [("response_id", .string r.text)]
    | business kind payload => [("kind", .string kind), ("payload", payload)]

end ConversationEventKind

def ConversationEvent.toValue (e : ConversationEvent) : Value :=
  .object [("conversation_id", .string e.conversationId.text), ("seq", .ofNat e.seq),
    ("kind", e.kind.toValue), ("ts_ms", .ofNat e.tsMs)]

/-- The id of a response and its fence have no place on the wire. -/
def ResponseEvent.toValue (e : ResponseEvent) : Value :=
  .object <| ("type", .string e.kind.asStr) :: ("sequence_number", .ofNat e.sequenceNumber) ::
    e.body.entries

namespace Gateway

/-- One readable, resumable event stream. -/
structure SseSource (Event : Type) where
  read : Option ℕ → ℕ → Service (Except StreamFailure (List Event))
  seq : Event → ℕ
  name : Event → String
  data : Event → String
  isTerminal : Event → Bool

namespace SseSource

variable {Event : Type} (source : SseSource Event)

/-- The sequence number is the id, so that a client resumes without counting. -/
def frame (e : Event) : Frame :=
  ⟨source.name e, some (toString (source.seq e)), source.data e⟩

/-- A failure in the middle of a stream is reported in band. -/
def errorFrame (failure : StreamFailure) : Frame :=
  ⟨"error", none, String.ofList <| compact <| .object
    [("error", .object [("code", .string failure.2.1), ("message", .string failure.2.2)]),
      ("type", .string "error")]⟩

/-- The frames of an open stream, until its end or until the client leaves after some reads. -/
def listen (batch : ℕ) : ℕ → Option ℕ → Service (List Frame)
  | 0, _ => return []
  | reads + 1, cursor => do
    match ← source.read cursor batch with
    | .error failure => return [errorFrame failure]
    | .ok events =>
      if events.any source.isTerminal then return events.map source.frame
      else
        let rest ← listen batch reads ((events.getLast?.map source.seq).or cursor)
        return events.map source.frame ++ rest

def openSse (batch reads : ℕ) (startingAfter : Option ℕ) : Service HttpResponse := do
  match ← source.read startingAfter 1 with
  | .error failure => return failure.response
  | .ok _ =>
    let frames ← source.listen (max batch 1) reads startingAfter
    return ⟨.ok, .stream frames⟩

end SseSource

/-- The token stream of one response. -/
def responseSource (id : ResponseId) : SseSource ResponseEvent where
  read cursor limit := do
    let reply ← EventLog.readAfter id cursor limit
    return reply.mapError mapEventLogError
  seq := ResponseEvent.sequenceNumber
  name e := e.kind.asStr
  data e := String.ofList (compact e.toValue)
  isTerminal e := e.kind.isTerminal

/-- The event stream of one conversation.  It has no last event. -/
def conversationSource (tenant : TenantId) (id : ConversationId) :
    SseSource ConversationEvent where
  read cursor limit := do
    let reply ← Conversations.readAfter tenant id cursor limit
    return reply.mapError mapConversationStreamError
  seq := ConversationEvent.seq
  name e := e.kind.asStr
  data e := String.ofList (compact e.toValue)
  isTerminal _ := false

/-! ## Cursors -/

def withoutPlus : List Char → List Char
  | '+' :: rest => rest
  | text => text

/-- `str::parse` of a `u64`: an optional plus, then decimal digits that fit. -/
def parseU64 (text : List Char) : Option ℕ :=
  let digits := withoutPlus text
  if digits.isEmpty || !digits.all Char.isDigit then none
  else
    let n := digits.foldl (fun n c ↦ 10 * n + (c.toNat - '0'.toNat)) 0
    if n ≤ u64Max then some n else none

/-- The header wins over the query: it says what the client actually received. -/
def resolveCursor (query : Option ℕ) (lastEventId : Option String) : Option ℕ :=
  (lastEventId.bind fun v ↦ parseU64 (trim v).toList).or query

end Gateway

end NovaChat
