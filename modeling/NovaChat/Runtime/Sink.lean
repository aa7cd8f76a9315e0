import NovaChat.Ports

/-!
# The runner's side of an execution

A runner is a program over sink calls and polls of its cancellation probe.  The event sink
turns each sink call into at most one append under the attempt's fence, and keeps what an
unfinished turn will archive.
-/

namespace NovaChat

open Interact

/-! ## The runner -/

/-- One agent execution task. -/
structure AgentTask where
  params : ModelParams
  items : List ResponseItem
  provenance : RequestProvenance
  maxToolRounds : ℕ

structure AgentOutcome where
  items : List ResponseItem
  usage : Usage
  status : ResponseStatus

inductive AgentError
  | superseded
  | failed (message : String) (usage : Usage)

/-- Whether the stream should continue. -/
inductive SinkVerdict
  | continue | stop
  deriving DecidableEq, Repr

inductive SinkError
  | transport (message : String)
  | other (message : String)
  deriving DecidableEq, Repr

/-- What a runner may do besides computing.  `cancelled` is one poll of the probe. -/
inductive SinkCall
  | textDelta (text : String)
  | reasoningTextDelta (text : String)
  | outputItemAdded (item : ResponseItem)
  | outputItemDone (item : ResponseItem)
  | functionCallArgumentsDelta (itemId delta : String)
  | functionCallArgumentsDone (itemId arguments : String)
  | contentPartAdded (itemId : String) (contentIndex : ℕ)
  | outputTextDone (text : String)
  | contentPartDone (itemId : String) (contentIndex : ℕ) (text : String)
  | cancelled

@[reducible] def SinkCall.Reply : SinkCall → Type
  | cancelled => Bool
  | _ => Except SinkError SinkVerdict

/-- A runner's whole behaviour on a task. -/
abbrev AgentRunner := AgentTask → Prog SinkCall SinkCall.Reply (Except AgentError AgentOutcome)

/-! ## The sink -/

structure EventSink where
  responseId : ResponseId
  attempt : Attempt
  stopped : Bool := false
  outputIndex : ℕ := 0
  currentItemId : Option String := none
  currentContentIndex : Option ℕ := none
  reasoning : String := ""
  /-- Output items that reached a `done` boundary, in order. -/
  completed : List ResponseItem := []
  openItem : Option ResponseItem := none
  openText : String := ""

namespace EventSink

/-- The item still being streamed, as an incomplete message, when it carries any text. -/
def partialItem (s : EventSink) : Option ResponseItem :=
  match s.openItem with
  | some (.message role _ id _) =>
    if s.openText.isEmpty then none
    else some (.message role [.outputText s.openText] id (some .incomplete))
  | _ => none

/-- The index of the open item: one less than the number of items added. -/
def currentOutputIndex (s : EventSink) : ℕ := s.outputIndex - 1

def currentItem (s : EventSink) : String := s.currentItemId.getD ""

/-- Append one event, unless the fence has already moved. -/
def push (s : EventSink) (event : AppendEvent) :
    Service (Except SinkError SinkVerdict × EventSink) := do
  if s.stopped then return (.ok .stop, s)
  else
    match ← EventLog.append event with
    | .ok _ => return (.ok .continue, s)
    | .error .staleAttempt => return (.ok .stop, { s with stopped := true })
    | .error e => return (.error (.transport e.text), s)

/-- What a sink call records and the event it appends. -/
def answer : (c : SinkCall) → EventSink → Service (c.Reply × EventSink)
  | .textDelta text, s =>
    push { s with openText := s.openText ++ text }
      (.textDelta s.responseId s.attempt s.currentItem s.currentOutputIndex
        (s.currentContentIndex.getD 0) text)
  | .reasoningTextDelta text, s =>
    push { s with reasoning := s.reasoning ++ text }
      (.reasoningTextDelta s.responseId s.attempt text)
  | .outputItemAdded item, s =>
    push
      { s with
        outputIndex := (s.outputIndex + 1) % 2 ^ 32
        currentItemId := some item.streamItemId, openItem := some item, openText := "" }
      (.item s.responseId s.attempt false s.outputIndex item)
  | .outputItemDone item, s =>
    push { s with completed := s.completed ++ [item], openItem := none, openText := "" }
      (.item s.responseId s.attempt true s.currentOutputIndex item)
  | .functionCallArgumentsDelta itemId delta, s =>
    push s (.argumentsDelta s.responseId s.attempt itemId s.currentOutputIndex delta)
  | .functionCallArgumentsDone itemId arguments, s =>
    push s (.arguments s.responseId s.attempt s.currentOutputIndex itemId arguments)
  | .contentPartAdded itemId contentIndex, s =>
    push { s with currentContentIndex := some contentIndex }
      (.contentPart s.responseId s.attempt false itemId s.currentOutputIndex contentIndex
        (.outputText ""))
  | .outputTextDone text, s =>
    push s (.outputTextDone s.responseId s.attempt s.currentItem s.currentOutputIndex
      (s.currentContentIndex.getD 0) text)
  | .contentPartDone itemId contentIndex text, s =>
    push s (.contentPart s.responseId s.attempt true itemId s.currentOutputIndex contentIndex
      (.outputText text))
  | .cancelled, s => do
    let reply ← Ledger.checkAttempt s.responseId s.attempt
    return (decide (reply = .error .staleAttempt), s)

/-- What the sink keeps for an unfinished turn: finished items, then the open message. -/
def produced (s : EventSink) : List ResponseItem := s.completed ++ s.partialItem.toList

end EventSink

end NovaChat
