import NovaChat.Agentd.Runner
import Mathlib.Data.List.DropRight

/-!
# The chat-completions scheduler

It posts a request to a provider and turns the answer into an outcome.  A streamed answer is read
line by line as its chunks come in, and the pieces of text and reasoning in it go to the sink at
once; tool calls are collected, and announced when the stream has ended.

What the provider answers is an input, and so is the decoder of the JSON in its events.
-/

namespace NovaChat

open Interact Prog

/-! ## Bytes -/

/-- How long a character is whose first byte is `b`; nothing starts with the other bytes. -/
def utf8CharWidth (b : ℕ) : ℕ :=
  if b < 0x80 then 1
  else if 0xc2 ≤ b ∧ b ≤ 0xdf then 2
  else if 0xe0 ≤ b ∧ b ≤ 0xef then 3
  else if 0xf0 ≤ b ∧ b ≤ 0xf4 then 4
  else 0

def isContinuation (b : ℕ) : Bool := 0x80 ≤ b && b ≤ 0xbf

/-- Overlong forms, surrogates and what is past the last character are told by the second byte. -/
def followsFirst (first second : ℕ) : Bool :=
  match first with
  | 0xe0 => 0xa0 ≤ second && second ≤ 0xbf
  | 0xed => 0x80 ≤ second && second ≤ 0x9f
  | 0xf0 => 0x90 ≤ second && second ≤ 0xbf
  | 0xf4 => 0x80 ≤ second && second ≤ 0x8f
  | _ => isContinuation second

/-- Read so many more continuation bytes into a code point. -/
def readContinuations : ℕ → ℕ → List UInt8 → Option ℕ × List UInt8
  | 0, code, bytes => (some code, bytes)
  | _ + 1, _, [] => (none, [])
  | n + 1, code, b :: bytes =>
    if isContinuation b.toNat then
      readContinuations n (code * 64 + (b.toNat - 0x80)) bytes
    else (none, b :: bytes)

/-- The first character, or the replacement character for the longest beginning of one. -/
def readChar (b : UInt8) (bytes : List UInt8) : Char × List UInt8 :=
  match utf8CharWidth b.toNat, bytes with
  | 0, bytes => (Char.ofNat 0xfffd, bytes)
  | 1, bytes => (Char.ofNat b.toNat, bytes)
  | _, [] => (Char.ofNat 0xfffd, [])
  | width, second :: rest =>
    if followsFirst b.toNat second.toNat then
      match readContinuations (width - 2)
          (b.toNat % 2 ^ (7 - width) * 64 + (second.toNat - 0x80)) rest with
      | (some code, rest) => (Char.ofNat code, rest)
      | (none, rest) => (Char.ofNat 0xfffd, rest)
    else (Char.ofNat 0xfffd, second :: rest)

def decodeLossy : ℕ → List UInt8 → List Char
  | 0, _ => []
  | _ + 1, [] => []
  | n + 1, b :: bytes => (readChar b bytes).1 :: decodeLossy n (readChar b bytes).2

/-- `String::from_utf8_lossy`. -/
def fromUtf8Lossy (bytes : List UInt8) : List Char := decodeLossy bytes.length bytes

example : fromUtf8Lossy [0xc3, 0xa9, 0xe2, 0x82, 0x41, 0xff] =
    ['é', Char.ofNat 0xfffd, 'A', Char.ofNat 0xfffd] := by decide

/-! ## JSON values -/

namespace Value

def get (v : Value) (key : String) : Option Value :=
  match v with
  | .object map => map.lookup key
  | _ => none

/-- The value under a key, or null. -/
def index (v : Value) (key : String) : Value := (v.get key).getD .null

/-- The element at a position, or null. -/
def item (v : Value) (position : ℕ) : Value :=
  match v with
  | .array items => items.getD position .null
  | _ => .null

def asStr : Value → Option String
  | .string s => some s
  | _ => none

def asU64 : Value → Option ℕ
  | .number (.int n) => if 0 ≤ n ∧ n ≤ u64Max then some n.toNat else none
  | _ => none

def asArray : Value → Option (List Value)
  | .array items => some items
  | _ => none

/-- A string with something in it. -/
def asText (v : Value) : Option String := v.asStr.filter fun s ↦ !s.isEmpty

end Value

/-! ## Outcomes -/

/-- A tool call announced mid-stream. -/
structure ToolCall where
  id : String := ""
  name : String := ""
  arguments : String := ""
  deriving DecidableEq, Repr

/-- A content-derived id, stable across runs. -/
def stableId (text : String) : UInt64 :=
  text.toUTF8.toList.foldl (fun hash b ↦ (hash ^^^ b.toUInt64) * 0x100000001b3)
    0xcbf29ce484222325

def messageId (text : String) : String :=
  "msg_" ++ String.ofList (Nat.toDigits 16 (stableId text).toNat)

/-- An assistant text message with its item id. -/
def assistantTextMessage (text : String) : ResponseItem :=
  .message .assistant [.outputText text] (some (messageId text)) none

namespace CompletionsOutcome

def text (text : String) (usage : Usage) : CompletionsOutcome :=
  ⟨[assistantTextMessage text], usage, .stop⟩

def refusal (reason : String) (usage : Usage) : CompletionsOutcome :=
  ⟨[.message .assistant [.refusal reason] (some (messageId reason)) none], usage, .refusal⟩

def toolCalls (calls : List ToolCall) (usage : Usage) : CompletionsOutcome :=
  ⟨calls.map fun c ↦ .functionCall c.id c.name c.arguments none none, usage, .toolCalls⟩

end CompletionsOutcome

def CompletionsContent.approxChars : CompletionsContent → ℕ
  | text content => content.utf8ByteSize
  | imageUrl url => url.utf8ByteSize
  | fileRef id => id.utf8ByteSize

def CompletionsMessage.approxChars : CompletionsMessage → ℕ
  | system content | tool _ content => content.utf8ByteSize
  | user content => (content.map CompletionsContent.approxChars).sum
  | assistant content _ toolCalls => optLen content +
    (toolCalls.map fun c ↦ c.name.utf8ByteSize + c.arguments.utf8ByteSize).sum

/-- Total characters across all message text, for rough budgeting. -/
def CompletionsRequest.approxInputChars (request : CompletionsRequest) : ℕ :=
  (request.messages.map CompletionsMessage.approxChars).sum

/-! ## The scheduler -/

/-- What comes back from the provider.  A stream that does not end hangs after its last chunk. -/
inductive HttpReply
  | unreachable (message : String)
  | refused (isServerError : Bool) (text : String)
  | json (body : Except String Value)
  | stream (chunks : List (Except String (List UInt8))) (ends : Bool)

structure HttpChatCompletionsScheduler where
  provider : ℕ → CompletionsRequest → HttpReply
  fromStr : String → Option Value

namespace HttpChatCompletionsScheduler

def estimatedUsage (request : CompletionsRequest) (output : String) : Usage :=
  ⟨max (request.approxInputChars / 4) 1, max (output.utf8ByteSize / 4) 1⟩

/-! ### One event -/

def deltaText (choice : Value) : Option String := do
  let delta ← choice.get "delta"
  match delta with
  | .string s => if s.isEmpty then none else some s
  | _ => (delta.index "content").asText <|> ((delta.index "content").index "text").asText <|>
    (delta.index "text").asText

def reasoningText (choice : Value) : Option String := do
  let delta ← choice.get "delta"
  ["reasoning_content", "reasoning", "thinking"].findSome? fun key ↦ (delta.index key).asText

def refusalText (choice : Value) : Option String := do
  let delta ← choice.get "delta"
  (delta.index "refusal").asText <|> ((delta.index "refusal").index "text").asText

/-- Merge one fragment of a tool call into the call at its index. -/
def mergeToolCall (calls : List ToolCall) (fragment : Value) : List ToolCall :=
  let index := (fragment.index "index").asU64.getD 0
  let function := fragment.index "function"
  (calls ++ List.replicate (index + 1 - calls.length) ({} : ToolCall)).modify index fun entry ↦
    { id := (fragment.index "id").asText.getD entry.id
      name := (function.index "name").asText.getD entry.name
      arguments := entry.arguments ++ (function.index "arguments").asStr.getD "" }

def accumulateToolCalls (choice : Value) (calls : List ToolCall) : List ToolCall :=
  match choice.get "delta" with
  | none => calls
  | some delta => ((delta.index "tool_calls").asArray.getD []).foldl mergeToolCall calls

/-- What has been read off a stream. -/
structure Reading where
  text : String := ""
  refusal : Option String := none
  finish : FinishReason := .stop
  toolCalls : List ToolCall := []

/-- A sink that stops supersedes the attempt. -/
def verdict : Except SinkError SinkVerdict → Except SchedulerError Unit
  | .error e => .error (.sink e)
  | .ok .stop => .error .superseded
  | .ok .continue => .ok ()

def sendText : Option String → SinkProg (Except SchedulerError Unit)
  | none => return .ok ()
  | some piece => do
    let reply : Except SinkError SinkVerdict ← Prog.perform (SinkCall.textDelta piece)
    return verdict reply

def sendReasoning : Option String → SinkProg (Except SchedulerError Unit)
  | none => return .ok ()
  | some piece => do
    let reply : Except SinkError SinkVerdict ← Prog.perform (SinkCall.reasoningTextDelta piece)
    return verdict reply

def finishReason (choice : Value) (finish : FinishReason) : FinishReason :=
  match (choice.index "finish_reason").asStr with
  | none => finish
  | some "length" => .length
  | some "tool_calls" => .toolCalls
  | some _ => .stop

def consume (event : Value) (s : Reading) : SinkProg (Except SchedulerError Reading) := do
  let choice := (event.index "choices").item 0
  match ← sendText (deltaText choice) with
  | .error e => return .error e
  | .ok () =>
    match ← sendReasoning (reasoningText choice) with
    | .error e => return .error e
    | .ok () =>
      return .ok
        { text := s.text ++ (deltaText choice).getD ""
          refusal := match refusalText choice with
            | some reason => some (s.refusal.getD "" ++ reason)
            | none => s.refusal
          finish := finishReason choice s.finish
          toolCalls := accumulateToolCalls choice s.toolCalls }

/-! ### The stream -/

def trim (line : List Char) : List Char := (line.dropWhile isWhitespace).rdropWhile isWhitespace

/-- The payload of a data line. -/
def dataOf (line : List Char) : Option (List Char) :=
  let line := trim (line.rdropWhile fun c ↦ c = '\n' || c = '\r')
  if "data:".toList.isPrefixOf line then some (trim (line.drop 5)) else none

variable (scheduler : HttpChatCompletionsScheduler)

/-- Read the whole lines off the buffer, up to the end mark.  What is left stays there. -/
def readLines : ℕ → List Char → Reading →
    SinkProg (Except SchedulerError (List Char × Reading))
  | 0, buffer, s => return .ok (buffer, s)
  | n + 1, buffer, s =>
    if buffer.contains '\n' then
      let line := buffer.takeWhile fun c ↦ c ≠ '\n'
      let rest := (buffer.dropWhile fun c ↦ c ≠ '\n').drop 1
      match dataOf line with
      | none => readLines n rest s
      | some data =>
        if data = "[DONE]".toList then return .ok (rest, s)
        else
          match scheduler.fromStr (String.ofList data) with
          | none => readLines n rest s
          | some event => do
            match ← consume event s with
            | .error e => return .error e
            | .ok s => readLines n rest s
    else return .ok (buffer, s)

def readChunks : List (Except String (List UInt8)) → List Char → Reading →
    SinkProg (Except SchedulerError Reading)
  | [], _, s => return .ok s
  | .error message :: _, _, _ => return .error (.unavailable message)
  | .ok chunk :: chunks, buffer, s => do
    let buffer := buffer ++ fromUtf8Lossy chunk
    match ← scheduler.readLines buffer.length buffer s with
    | .error e => return .error e
    | .ok (buffer, s) => readChunks chunks buffer s

/-- Announce a whole tool call in one shot: added, then done. -/
def toolCall (c : ToolCall) : SinkProg (Except SchedulerError Unit) := do
  let item : ResponseItem := .functionCall c.id c.name c.arguments none none
  let added : Except SinkError SinkVerdict ← Prog.perform (SinkCall.outputItemAdded item)
  match verdict added with
  | .error e => return .error e
  | .ok () =>
    let done : Except SinkError SinkVerdict ← Prog.perform (SinkCall.outputItemDone item)
    return verdict done

def announceCalls : List ToolCall → SinkProg (Except SchedulerError Unit)
  | [] => return .ok ()
  | c :: calls => do
    match ← toolCall c with
    | .error e => return .error e
    | .ok () => announceCalls calls

/-- The outcome of a stream that has ended. -/
def outcomeOf (request : CompletionsRequest) (s : Reading) :
    SinkProg (Except SchedulerError CompletionsOutcome) :=
  match s.refusal with
  | some reason => return .ok (.refusal reason (estimatedUsage request reason))
  | none =>
    if s.toolCalls.isEmpty then
      if s.text.isEmpty then return .error .emptyOutcome
      else
        return .ok ⟨[assistantTextMessage s.text], estimatedUsage request s.text, s.finish⟩
    else do
      match ← announceCalls s.toolCalls with
      | .error e => return .error e
      | .ok () =>
        let args := String.join (s.toolCalls.map ToolCall.arguments)
        return .ok (.toolCalls s.toolCalls (estimatedUsage request args))

def parseStream (chunks : List (Except String (List UInt8))) (ends : Bool)
    (request : CompletionsRequest) : SinkProg (Except SchedulerError CompletionsOutcome) := do
  match ← scheduler.readChunks chunks [] {} with
  | .error e => return .error e
  | .ok s => if ends then outcomeOf request s else Prog.stall

def parseJson (body : Except String Value) (request : CompletionsRequest) :
    Except SchedulerError CompletionsOutcome :=
  match body with
  | .error e => .error (.unavailable s!"decode json body: {e}")
  | .ok body =>
    let message := ((body.index "choices").item 0).index "message"
    let content := (message.index "content").asStr.getD ""
    if content.isEmpty then .error .emptyOutcome
    else .ok (.text content (estimatedUsage request content))

/-- One completions request, as the runner asks for it. -/
def schedule (round : ℕ) (request : CompletionsRequest) :
    SinkProg (Except SchedulerError CompletionsOutcome) :=
  match scheduler.provider round request with
  | .unreachable message => return .error (.unavailable message)
  | .refused true text => return .error (.unavailable text)
  | .refused false text => return .error (.rejected text)
  | .json body => return parseJson body request
  | .stream chunks ends => scheduler.parseStream chunks ends request

/-! ## What it sends -/

end HttpChatCompletionsScheduler

def ResponseItem.isMessage : ResponseItem → Bool
  | message .. => true
  | functionCall .. | functionCallOutput .. => false

/-- Text goes out in pieces that are not empty, and no message is ever announced. -/
def SinkCall.Unannounced : SinkCall → Prop
  | textDelta text => text ≠ ""
  | outputItemAdded item | outputItemDone item => item.isMessage = false
  | _ => True

/-- Text goes out in pieces that are not empty, and all that is announced are tool calls. -/
def SinkCall.Calling : SinkCall → Prop
  | textDelta text => text ≠ ""
  | outputItemAdded item | outputItemDone item => item.announced ≠ []
  | _ => True

theorem ResponseItem.isMessage_of_announced {item : ResponseItem} (h : item.announced ≠ []) :
    item.isMessage = false := by
  cases item with
  | message => exact absurd rfl h
  | functionCall => rfl
  | functionCallOutput => rfl

theorem SinkCall.Calling.unannounced {c : SinkCall} (hc : c.Calling) : c.Unannounced := by
  cases c with
  | textDelta => exact hc
  | outputItemAdded => exact ResponseItem.isMessage_of_announced hc
  | outputItemDone => exact ResponseItem.isMessage_of_announced hc
  | _ => trivial

theorem Value.ne_empty_of_asText {v : Value} {s : String} (h : v.asText = some s) : s ≠ "" := by
  simpa using (Option.filter_eq_some_iff.mp h).2

section Unannounced

variable {α : Type} {p : SinkProg α}

theorem unannounced_probe (n : ℕ) : (probe n).OnlyCalls SinkCall.Unannounced := by
  refine (polls_probe n).mono ?_
  rintro _ rfl
  trivial

theorem unannounced_race (polls : ℕ → ℕ) (hp : p.OnlyCalls SinkCall.Unannounced) (step : ℕ) :
    (race polls step p).OnlyCalls SinkCall.Unannounced := by
  induction p generalizing step with
  | ret a =>
      refine (unannounced_probe _).bind fun cancelled ↦ ?_
      cases cancelled <;> trivial
  | call c k ih =>
      refine (unannounced_probe _).bind fun cancelled ↦ ?_
      cases cancelled
      · exact ⟨hp.1, fun r ↦ ih r (hp.2 r) _⟩
      · trivial
  | stall =>
      refine (unannounced_probe _).bind fun cancelled ↦ ?_
      cases cancelled <;> trivial

end Unannounced

namespace HttpChatCompletionsScheduler

theorem deltaText_ne {choice : Value} {piece : String} (h : deltaText choice = some piece) :
    piece ≠ "" := by
  obtain ⟨delta, -, h⟩ := Option.bind_eq_some_iff.mp h
  split at h
  · split_ifs at h with hempty
    obtain rfl := Option.some.inj h
    simpa using hempty
  · simp only [Option.orElse_eq_orElse, Option.orElse_eq_or, Option.or_eq_some_iff] at h
    rcases h with h | ⟨-, h | ⟨-, h⟩⟩ <;> exact Value.ne_empty_of_asText h

theorem calling_consume (event : Value) (s : Reading) :
    (consume event s).OnlyCalls SinkCall.Calling := by
  have htext : (sendText (deltaText ((event.index "choices").item 0))).OnlyCalls
      SinkCall.Calling := by
    cases hpiece : deltaText ((event.index "choices").item 0) with
    | none => trivial
    | some piece => exact ⟨deltaText_ne hpiece, fun _ ↦ trivial⟩
  refine htext.bind fun sent ↦ ?_
  rcases sent with e | ⟨⟩
  · trivial
  have hreasoning : (sendReasoning (reasoningText ((event.index "choices").item 0))).OnlyCalls
      SinkCall.Calling := by
    cases reasoningText ((event.index "choices").item 0) with
    | none => trivial
    | some piece => exact ⟨trivial, fun _ ↦ trivial⟩
  refine hreasoning.bind fun sent ↦ ?_
  rcases sent with e | ⟨⟩ <;> trivial

variable (scheduler : HttpChatCompletionsScheduler)

theorem calling_readLines (n : ℕ) : ∀ (buffer : List Char) (s : Reading),
    (scheduler.readLines n buffer s).OnlyCalls SinkCall.Calling := by
  induction n with
  | zero => exact fun _ _ ↦ trivial
  | succ n ih =>
      intro buffer s
      unfold readLines
      split
      · dsimp only
        split
        · exact ih _ _
        · split
          · trivial
          · split
            · exact ih _ _
            · refine (calling_consume _ s).bind fun r ↦ ?_
              rcases r with e | s
              · trivial
              · exact ih _ s
      · trivial

theorem calling_readChunks : ∀ (chunks : List (Except String (List UInt8)))
    (buffer : List Char) (s : Reading),
    (scheduler.readChunks chunks buffer s).OnlyCalls SinkCall.Calling
  | [], _, _ => trivial
  | .error _ :: _, _, _ => trivial
  | .ok _ :: chunks, _, s =>
      (calling_readLines scheduler _ _ s).bind fun r ↦ by
        rcases r with e | ⟨buffer, s⟩
        · trivial
        · exact calling_readChunks chunks buffer s

theorem calling_announceCalls : ∀ calls : List ToolCall,
    (announceCalls calls).OnlyCalls SinkCall.Calling
  | [] => trivial
  | c :: calls => by
      refine OnlyCalls.bind ⟨List.cons_ne_nil _ _, fun added ↦ ?_⟩ fun r ↦ ?_
      · rcases added with e | (_ | _)
        · trivial
        · exact ⟨List.cons_ne_nil _ _, fun _ ↦ trivial⟩
        · trivial
      · rcases r with e | ⟨⟩
        · trivial
        · exact calling_announceCalls calls

/-- No answer of a provider makes the scheduler announce anything but tool calls. -/
theorem calling_schedule (round : ℕ) (request : CompletionsRequest) :
    (scheduler.schedule round request).OnlyCalls SinkCall.Calling := by
  unfold schedule
  split
  · trivial
  · trivial
  · trivial
  · trivial
  · refine (calling_readChunks scheduler _ _ _).bind fun r ↦ ?_
    rcases r with e | s
    · trivial
    show OnlyCalls _ (ite _ _ _)
    split
    · unfold outcomeOf
      split
      · trivial
      · split
        · split <;> trivial
        · refine (calling_announceCalls _).bind fun r ↦ ?_
          rcases r with e | ⟨⟩ <;> trivial
    · trivial

/-- No answer of a provider makes the scheduler announce a message. -/
theorem unannounced_schedule (round : ℕ) (request : CompletionsRequest) :
    (scheduler.schedule round request).OnlyCalls SinkCall.Unannounced :=
  (scheduler.calling_schedule round request).mono fun _ ↦ SinkCall.Calling.unannounced

end HttpChatCompletionsScheduler

namespace MockAgentRunner

variable {m : MockAgentRunner}

theorem unannounced_callTools (round : ℕ) (usage : Usage) :
    ∀ (calls : List ((String × String × String) × ℕ)) (conversation : List ResponseItem),
      (m.callTools round usage calls conversation).OnlyCalls SinkCall.Unannounced
  | [], _ => trivial
  | ((callId, name, arguments), position) :: calls, conversation => by
      rw [callTools]
      refine (unannounced_probe _).bind fun cancelled ↦ ?_
      cases cancelled
      · simp only [Bool.false_eq_true, if_false]
        split
        · trivial
        · refine OnlyCalls.bind ⟨rfl, fun added ↦ ?_⟩ fun r ↦ ?_
          · rcases added with e | (_ | _)
            · trivial
            · refine ⟨rfl, fun done ↦ ?_⟩
              rcases done with e | (_ | _) <;> trivial
            · trivial
          · rcases r with e | ⟨⟩
            · trivial
            · exact unannounced_callTools round usage calls _
      · trivial

/-- Neither does the runner, if its scheduler does not. -/
theorem unannounced_run
    (h : ∀ n request, (m.schedule n request).OnlyCalls SinkCall.Unannounced) (task : AgentTask) :
    (m.run task).OnlyCalls SinkCall.Unannounced := by
  refine OnlyCalls.iterate (fun s ↦ ?_) _ _
  unfold round
  split
  · trivial
  refine (unannounced_race _ (h _ _) 0).bind fun answer ↦ ?_
  rcases answer with _ | (e | outcome)
  · trivial
  · cases e <;> trivial
  · dsimp only
    split
    · trivial
    unfold settle
    split
    · trivial
    · trivial
    · trivial
    · split
      · trivial
      · split
        · trivial
        · refine (unannounced_callTools _ _ _ _).bind fun r ↦ ?_
          rcases r with e | conversation <;> trivial

theorem settle_status {task : AgentTask} {s : Loop} {outcome : CompletionsOutcome}
    {xs : List (Exchange SinkCall SinkCall.Reply)} {result : AgentOutcome}
    (h : Path (m.settle task s outcome) xs (.inr (.ok result))) :
    result.status = .completed ∨ result.status = .incomplete := by
  unfold settle at h
  split at h
  · exact Or.inl (by rw [Except.ok.inj (Sum.inr.inj (path_ret.mp h).2)])
  · exact Or.inl (by rw [Except.ok.inj (Sum.inr.inj (path_ret.mp h).2)])
  · exact Or.inr (by rw [Except.ok.inj (Sum.inr.inj (path_ret.mp h).2)])
  · split at h
    · exact Or.inr (by rw [Except.ok.inj (Sum.inr.inj (path_ret.mp h).2)])
    · split at h
      · cases (path_ret.mp h).2
      · obtain ⟨answer, _, _, -, -, h⟩ := path_bind.mp h
        cases answer <;> cases (path_ret.mp h).2

theorem outcome_status {task : AgentTask} {xs : List (Exchange SinkCall SinkCall.Reply)}
    {result : AgentOutcome} (h : Path (m.run task) xs (.ok result)) :
    result.status = .completed ∨ result.status = .incomplete := by
  refine Path.iterate_inv (fun _ ↦ True) (fun r ↦ ∀ result, r = .ok result →
    result.status = .completed ∨ result.status = .incomplete) (fun _ _ _ _ _ ↦ trivial) ?_ _ _ _ _
    trivial h result rfl
  rintro s xs r - hround result rfl
  rcases path_round_outcome hround with ⟨e, heq⟩ | ⟨_, _, outcome, _, zs, -, hsettle⟩
  · cases heq
  · exact settle_status hsettle

end MockAgentRunner

end NovaChat
