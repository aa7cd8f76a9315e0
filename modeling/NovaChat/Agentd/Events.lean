import NovaChat.Agentd.Http

/-!
# The events of a stream

The scheduler reads its buffer line by line.  Which events it comes across does not depend on what
the sink answers: a parse is the events of its chunks, consumed one after the other, and then the
outcome of what they add up to.
-/

namespace NovaChat

open Interact Prog

/-! ## Lines -/

/-- Put a character before the first line. -/
def extendLine (c : Char) : List (List Char) × List Char → List (List Char) × List Char
  | ([], rest) => ([], c :: rest)
  | (line :: lines, rest) => ((c :: line) :: lines, rest)

/-- The lines that have ended, and what follows them. -/
def splitLines : List Char → List (List Char) × List Char
  | [] => ([], [])
  | c :: text =>
    if c = '\n' then ([] :: (splitLines text).1, (splitLines text).2)
    else extendLine c (splitLines text)

/-- Put lines together again. -/
def joinLines (lines : List (List Char)) (rest : List Char) : List Char :=
  lines.flatMap (fun line ↦ line ++ ['\n']) ++ rest

section Lines

variable {line rest text : List Char}

@[simp] theorem joinLines_nil : joinLines [] rest = rest := rfl

@[simp] theorem joinLines_cons {lines : List (List Char)} :
    joinLines (line :: lines) rest = line ++ '\n' :: joinLines lines rest := by
  simp [joinLines]

theorem splitLines_cons_of_ne {c : Char} (hc : c ≠ '\n') (text : List Char) :
    splitLines (c :: text) = extendLine c (splitLines text) := if_neg hc

theorem splitLines_newline (text : List Char) :
    splitLines ('\n' :: text) = ([] :: (splitLines text).1, (splitLines text).2) := if_pos rfl

theorem joinLines_splitLines (text : List Char) :
    joinLines (splitLines text).1 (splitLines text).2 = text := by
  induction text with
  | nil => rfl
  | cons c text ih =>
      by_cases hc : c = '\n'
      · rw [hc, splitLines_newline, joinLines_cons, ih]
        rfl
      · rw [splitLines_cons_of_ne hc]
        rcases hsplit : splitLines text with ⟨_ | ⟨line, lines⟩, rest⟩ <;> rw [hsplit] at ih <;>
          simpa [extendLine] using ih

theorem splitLines_of_no_newline (h : '\n' ∉ text) : splitLines text = ([], text) := by
  induction text with
  | nil => rfl
  | cons c text ih =>
      obtain ⟨hc, htext⟩ := not_or.mp (mt List.mem_cons.mpr h)
      rw [splitLines_cons_of_ne (Ne.symm hc), ih htext, extendLine]

theorem splitLines_cons_line (h : '\n' ∉ line) :
    splitLines (line ++ '\n' :: rest) = (line :: (splitLines rest).1, (splitLines rest).2) := by
  induction line with
  | nil => exact splitLines_newline rest
  | cons c line ih =>
      obtain ⟨hc, hline⟩ := not_or.mp (mt List.mem_cons.mpr h)
      rw [List.cons_append, splitLines_cons_of_ne (Ne.symm hc), ih hline, extendLine]

/-- Lines that have ended stay as they are when more text comes. -/
theorem splitLines_append (text more : List Char) : splitLines (text ++ more) =
    ((splitLines text).1 ++ (splitLines ((splitLines text).2 ++ more)).1,
      (splitLines ((splitLines text).2 ++ more)).2) := by
  induction text with
  | nil => simp [splitLines]
  | cons c text ih =>
      by_cases hc : c = '\n'
      · rw [hc, List.cons_append, splitLines_newline, splitLines_newline, ih]
        rfl
      · rw [List.cons_append, splitLines_cons_of_ne hc, splitLines_cons_of_ne hc, ih]
        rcases splitLines text with ⟨_ | ⟨line, lines⟩, rest⟩
        · rw [extendLine, List.cons_append, splitLines_cons_of_ne hc]
          rfl
        · rfl

end Lines

namespace HttpChatCompletionsScheduler

variable (scheduler : HttpChatCompletionsScheduler)

/-! ## Events -/

def isDone (line : List Char) : Bool := dataOf line = some "[DONE]".toList

/-- The event of a line that has one. -/
def eventOf (line : List Char) : Option Value :=
  if isDone line then none else (dataOf line).bind fun data ↦ scheduler.fromStr (String.ofList data)

/-- The events of some lines, up to the end mark. -/
def eventsIn (lines : List (List Char)) : List Value :=
  (lines.takeWhile fun line ↦ !isDone line).filterMap scheduler.eventOf

/-- What is left in the buffer when some lines have been read. -/
def leftOver (lines : List (List Char)) (rest : List Char) : List Char :=
  joinLines (lines.dropWhile fun line ↦ !isDone line).tail rest

/-- The events that are read off chunks as they come in. -/
def eventsOf : List (Except String (List UInt8)) → List Char → List Value
  | [], _ => []
  | .error _ :: _, _ => []
  | .ok chunk :: chunks, buffer =>
    let (lines, rest) := splitLines (buffer ++ fromUtf8Lossy chunk)
    scheduler.eventsIn lines ++ eventsOf chunks (leftOver lines rest)

/-- A transport failure ends the stream. -/
def transport : List (Except String (List UInt8)) → Except SchedulerError Unit
  | [] => .ok ()
  | .error message :: _ => .error (.unavailable message)
  | .ok _ :: chunks => transport chunks

/-- What is read off one event. -/
def absorb (event : Value) (s : Reading) : Reading :=
  let choice := (event.index "choices").item 0
  { text := s.text ++ (deltaText choice).getD ""
    refusal := match refusalText choice with
      | some reason => some (s.refusal.getD "" ++ reason)
      | none => s.refusal
    finish := finishReason choice s.finish
    toolCalls := accumulateToolCalls choice s.toolCalls }

def consumeAll : List Value → Reading → SinkProg (Except SchedulerError Reading)
  | [], s => return .ok s
  | event :: events, s => do
    match ← consume event s with
    | .error e => return .error e
    | .ok s => consumeAll events s

theorem consumeAll_append (events later : List Value) (s : Reading) :
    consumeAll (events ++ later) s = consumeAll events s >>= fun r ↦
      match r with
      | .error e => .ret (.error e)
      | .ok s => consumeAll later s := by
  induction events generalizing s with
  | nil => rfl
  | cons event events ih =>
      simp only [List.cons_append, consumeAll, Prog.bind_assoc]
      congr 1
      funext r
      rcases r with e | s
      · rfl
      · exact ih s

variable {scheduler}

theorem eventsIn_cons (line : List Char) (lines : List (List Char)) :
    scheduler.eventsIn (line :: lines) = if isDone line then [] else
      (scheduler.eventOf line).toList ++ scheduler.eventsIn lines := by
  unfold eventsIn
  rw [List.takeWhile_cons]
  by_cases hdone : isDone line = true
  · simp [hdone]
  · simp only [hdone, Bool.not_false, if_true, List.filterMap_cons, Bool.false_eq_true, if_false]
    cases scheduler.eventOf line <;> rfl

theorem leftOver_cons (line : List Char) (lines : List (List Char)) (rest : List Char) :
    leftOver (line :: lines) rest = if isDone line then joinLines lines rest
      else leftOver lines rest := by
  unfold leftOver
  rw [List.dropWhile_cons]
  by_cases hdone : isDone line = true <;> simp [hdone]

theorem takeWhile_newline {line rest : List Char} (h : '\n' ∉ line) :
    (line ++ '\n' :: rest).takeWhile (fun c ↦ c ≠ '\n') = line := by
  rw [List.takeWhile_append_of_pos fun c hc ↦ by simpa using ne_of_mem_of_not_mem hc h]
  simp

theorem dropWhile_newline {line rest : List Char} (h : '\n' ∉ line) :
    ((line ++ '\n' :: rest).dropWhile (fun c ↦ c ≠ '\n')).drop 1 = rest := by
  rw [List.dropWhile_append_of_pos fun c hc ↦ by simpa using ne_of_mem_of_not_mem hc h]
  simp

/-- Reading a buffer is consuming the events of its lines. -/
theorem readLines_eq (n : ℕ) : ∀ (buffer : List Char) (s : Reading), buffer.length ≤ n →
    scheduler.readLines n buffer s =
      consumeAll (scheduler.eventsIn (splitLines buffer).1) s >>= fun r ↦
        .ret (r.map fun s ↦ (leftOver (splitLines buffer).1 (splitLines buffer).2, s)) := by
  induction n with
  | zero =>
      intro buffer s hn
      obtain rfl := List.length_eq_zero_iff.mp (Nat.le_zero.mp hn)
      rfl
  | succ n ih =>
      intro buffer s hn
      unfold readLines
      by_cases hnewline : buffer.contains '\n' = true
      · obtain ⟨line, rest, rfl, hline⟩ :=
          List.eq_append_cons_of_mem (List.contains_iff_mem.mp hnewline)
        have hrest : rest.length ≤ n := by
          simp only [List.length_append, List.length_cons] at hn
          omega
        rw [if_pos hnewline, takeWhile_newline hline, dropWhile_newline hline,
          splitLines_cons_line hline, eventsIn_cons, leftOver_cons]
        dsimp only
        unfold eventOf
        cases hdata : dataOf line with
        | none =>
            have hdone : isDone line = false := by simp [isDone, hdata]
            simp only [hdone, Bool.false_eq_true, if_false, Option.bind_none, Option.toList_none,
              List.nil_append]
            exact ih rest s hrest
        | some data =>
            by_cases hend : data = "[DONE]".toList
            · have hdone : isDone line = true := by simp [isDone, hdata, hend]
              simp only [hdone, if_true, hend, joinLines_splitLines]
              rfl
            · have hdone : isDone line = false := by
                rw [isDone, hdata]
                simpa using hend
              simp only [hdone, Bool.false_eq_true, if_false, hend, Option.bind_some]
              cases hevent : scheduler.fromStr (String.ofList data) with
              | none => exact ih rest s hrest
              | some event =>
                  simp only [Option.toList_some, List.cons_append, List.nil_append, consumeAll,
                    Prog.bind_assoc]
                  congr 1
                  funext r
                  rcases r with e | s'
                  · rfl
                  · exact ih rest s' hrest
      · rw [if_neg hnewline,
          splitLines_of_no_newline fun hmem ↦ hnewline (List.contains_iff_mem.mpr hmem)]
        rfl

theorem readChunks_eq : ∀ (chunks : List (Except String (List UInt8))) (buffer : List Char)
    (s : Reading), scheduler.readChunks chunks buffer s =
      consumeAll (scheduler.eventsOf chunks buffer) s >>= fun r ↦
        .ret (r.bind fun s ↦ (transport chunks).map fun _ ↦ s)
  | [], _, s => rfl
  | .error _ :: _, _, s => rfl
  | .ok chunk :: chunks, buffer, s => by
      rw [readChunks, readLines_eq _ _ _ le_rfl, eventsOf, consumeAll_append]
      simp only [Prog.bind_assoc]
      congr 1
      funext r
      rcases r with e | s'
      · rfl
      · exact readChunks_eq chunks _ s'

theorem parseStream_eq (chunks : List (Except String (List UInt8))) (ends : Bool)
    (request : CompletionsRequest) : scheduler.parseStream chunks ends request =
      consumeAll (scheduler.eventsOf chunks []) {} >>= fun r ↦
        match r.bind fun s ↦ (transport chunks).map fun _ ↦ s with
        | .error e => .ret (.error e)
        | .ok s => if ends then outcomeOf request s else Prog.stall := by
  rw [parseStream, readChunks_eq, Prog.bind_assoc]
  rfl

/-! ## What events add up to -/

def choiceOf (event : Value) : Value := (event.index "choices").item 0

/-- The fragments of tool calls in a choice. -/
def fragmentsOf (choice : Value) : List Value :=
  match choice.get "delta" with
  | none => []
  | some delta => (delta.index "tool_calls").asArray.getD []

theorem accumulateToolCalls_eq (choice : Value) (calls : List ToolCall) :
    accumulateToolCalls choice calls = (fragmentsOf choice).foldl mergeToolCall calls := by
  unfold accumulateToolCalls fragmentsOf
  cases choice.get "delta" <;> rfl

/-- The pieces of text in some events. -/
def textsOf (events : List Value) : List String := events.filterMap fun e ↦ deltaText (choiceOf e)

def refusalsOf (events : List Value) : List String :=
  events.filterMap fun e ↦ refusalText (choiceOf e)

def callFragments (events : List Value) : List Value :=
    events.flatMap fun e ↦ fragmentsOf (choiceOf e)

def finishesOf (events : List Value) : List String :=
  events.filterMap fun e ↦ ((choiceOf e).index "finish_reason").asStr

/-- What has been read when some events have been consumed. -/
def reading (events : List Value) : Reading := events.foldl (fun s e ↦ absorb e s) {}

theorem reading_snoc (events : List Value) (event : Value) :
    reading (events ++ [event]) = absorb event (reading events) := by
  simp [reading]

section Reading

variable (events : List Value)

theorem reading_text : (reading events).text = String.join (textsOf events) := by
  induction events using List.reverseRecOn with
  | nil => rfl
  | append_singleton events event ih =>
      rw [reading_snoc, textsOf, List.filterMap_append, ← textsOf, absorb, ih]
      cases hpiece : deltaText (choiceOf event) <;> simp [choiceOf] at hpiece <;>
        simp [choiceOf, hpiece, String.join_append]

theorem reading_refusal : (reading events).refusal.isSome = !(refusalsOf events).isEmpty := by
  induction events using List.reverseRecOn with
  | nil => rfl
  | append_singleton events event ih =>
      rw [reading_snoc, refusalsOf, List.filterMap_append, ← refusalsOf, absorb]
      cases hreason : refusalText (choiceOf event) <;> simp [choiceOf] at hreason <;>
        simp [choiceOf, hreason, ih]

theorem reading_toolCalls :
    (reading events).toolCalls = (callFragments events).foldl mergeToolCall [] := by
  induction events using List.reverseRecOn with
  | nil => rfl
  | append_singleton events event ih =>
      rw [reading_snoc, absorb, ih, accumulateToolCalls_eq, callFragments, callFragments,
        List.flatMap_append, List.foldl_append, List.flatMap_singleton]
      rfl

theorem finishReason_eq_length {choice : Value} {reason : String} (finish : FinishReason)
    (h : (choice.index "finish_reason").asStr = some reason) :
    finishReason choice finish = .length ↔ reason = "length" := by
  unfold finishReason
  rw [h]
  split <;> simp_all

theorem reading_finish : (reading events).finish = .length ↔
    (finishesOf events).getLast? = some "length" := by
  induction events using List.reverseRecOn with
  | nil => simp [reading, finishesOf]
  | append_singleton events event ih =>
      rw [reading_snoc, absorb, finishesOf, List.filterMap_append, ← finishesOf]
      cases hreason : ((choiceOf event).index "finish_reason").asStr with
      | none =>
          have hsame : finishReason (choiceOf event) (reading events).finish =
              (reading events).finish := by
            rw [finishReason, hreason]
          change finishReason (choiceOf event) _ = _ ↔ _
          rw [hsame, ih]
          simp [hreason]
      | some reason =>
          change finishReason (choiceOf event) _ = _ ↔ _
          rw [finishReason_eq_length _ hreason]
          simp [hreason]

end Reading

end HttpChatCompletionsScheduler

end NovaChat
