import NovaChat.Response

/-!
# Stream events

What a producer appends to the log of a response, and the stored form with the sequence
number the log assigned.  A fenced event carries the attempt it was produced under.
-/

namespace NovaChat

inductive ResponseEventKind
  | created | inProgress
  | outputTextDelta | reasoningTextDelta
  | outputItemAdded | outputItemDone
  | functionCallArgumentsDelta | functionCallArgumentsDone
  | contentPartAdded | contentPartDone | outputTextDone
  | completed | failed | incomplete
  deriving DecidableEq, Repr

/-- Terminal events start the retention window. -/
def ResponseEventKind.isTerminal : ResponseEventKind → Bool
  | completed | failed | incomplete => true
  | _ => false

/-- The fields of an event that depend on its kind. -/
inductive EventBody
  | delta (itemId : String) (outputIndex : ℕ) (contentIndex : Option ℕ) (delta : String)
  | item (outputIndex : ℕ) (item : ResponseItem)
  | arguments (outputIndex : ℕ) (itemId arguments : String)
  | text (itemId : String) (outputIndex contentIndex : ℕ) (text : String)
  | part (itemId : String) (outputIndex contentIndex : ℕ) (part : ContentPart)
  | response (response : ResponseObject)

/-- An event before it has a sequence number. -/
structure AppendEvent where
  responseId : ResponseId
  kind : ResponseEventKind
  attempt : Option Attempt
  body : EventBody

namespace AppendEvent

/-- Lifecycle envelope.  No attempt: the ledger has already validated the transition. -/
def lifecycle (responseId : ResponseId) (kind : ResponseEventKind)
    (response : ResponseObject) : AppendEvent :=
  ⟨responseId, kind, none, .response response⟩

/-- A lifecycle envelope that still carries the fence. -/
def lifecycleWithAttempt (responseId : ResponseId) (kind : ResponseEventKind)
    (attempt : Attempt) (response : ResponseObject) : AppendEvent :=
  ⟨responseId, kind, some attempt, .response response⟩

def textDelta (responseId : ResponseId) (attempt : Attempt) (itemId : String)
    (outputIndex contentIndex : ℕ) (delta : String) : AppendEvent :=
  ⟨responseId, .outputTextDelta, some attempt, .delta itemId outputIndex (some contentIndex) delta⟩

def argumentsDelta (responseId : ResponseId) (attempt : Attempt) (itemId : String)
    (outputIndex : ℕ) (delta : String) : AppendEvent :=
  ⟨responseId, .functionCallArgumentsDelta, some attempt, .delta itemId outputIndex none delta⟩

def reasoningTextDelta (responseId : ResponseId) (attempt : Attempt) (delta : String) :
    AppendEvent :=
  ⟨responseId, .reasoningTextDelta, some attempt, .delta "" 0 none delta⟩

def outputTextDone (responseId : ResponseId) (attempt : Attempt) (itemId : String)
    (outputIndex contentIndex : ℕ) (text : String) : AppendEvent :=
  ⟨responseId, .outputTextDone, some attempt, .text itemId outputIndex contentIndex text⟩

def contentPart (responseId : ResponseId) (attempt : Attempt) (done : Bool) (itemId : String)
    (outputIndex contentIndex : ℕ) (part : ContentPart) : AppendEvent :=
  ⟨responseId, if done then .contentPartDone else .contentPartAdded, some attempt,
    .part itemId outputIndex contentIndex part⟩

def item (responseId : ResponseId) (attempt : Attempt) (done : Bool) (outputIndex : ℕ)
    (item : ResponseItem) : AppendEvent :=
  ⟨responseId, if done then .outputItemDone else .outputItemAdded, some attempt,
    .item outputIndex item⟩

def arguments (responseId : ResponseId) (attempt : Attempt) (outputIndex : ℕ)
    (itemId arguments : String) : AppendEvent :=
  ⟨responseId, .functionCallArgumentsDone, some attempt, .arguments outputIndex itemId arguments⟩

end AppendEvent

/-- A stored event. -/
structure ResponseEvent where
  sequenceNumber : ℕ
  event : AppendEvent

namespace ResponseEvent

def kind (e : ResponseEvent) : ResponseEventKind := e.event.kind

def body (e : ResponseEvent) : EventBody := e.event.body

/-- The response object a lifecycle event carries, if this is one. -/
def responseObject (e : ResponseEvent) : Option ResponseObject :=
  match e.body with
  | .response response => some response
  | _ => none

end ResponseEvent

end NovaChat
