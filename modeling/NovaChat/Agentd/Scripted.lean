import NovaChat.Agentd.Assembly
import NovaChat.Interact.Fallible

/-!
# Schedulers without a model

One scheduler echoes the last user message, one answers from declared rules.  Both stream a text in
pieces and submit it as one item.  Whatever the sink answers, a run of the runner over them returns
what it has streamed.
-/

namespace NovaChat

open Interact Prog HttpChatCompletionsScheduler

/-! ## Texts in pieces -/

/-- Cut a list into pieces of a size, for at most so many rounds. -/
def chunks {α : Type} (size : ℕ) : ℕ → List α → List (List α)
  | 0, _ => []
  | _ + 1, [] => []
  | rounds + 1, a :: l => (a :: l).take size :: chunks size rounds ((a :: l).drop size)

/-- Split text into roughly `n` pieces. -/
def chunkText (text : String) (n : ℕ) : List String :=
  if n ≤ 1 ∨ text = "" then [text]
  else
    let chars := text.toList
    let size := max ((chars.length + n - 1) / n) 1
    (chunks size chars.length chars).map String.ofList

/-! ## Streaming one message -/

/-- A sink call whose verdict is not looked at. -/
def deliver (p : SinkProg (Except SinkError SinkVerdict)) :
    SinkProg (Except SchedulerError Unit) :=
  p >>= fun
    | .error e => .ret (.error (.sink e))
    | .ok _ => .ret (.ok ())

/-- Send the pieces of a text, until the sink stops. -/
def sendPieces : List String → SinkProg (Except SchedulerError Unit)
  | [] => .ret (.ok ())
  | piece :: pieces => (sendText (some piece)).andThen fun _ ↦ sendPieces pieces

/-- Stream a text in pieces as one message. -/
def streamMessage (text : String) (chunks : ℕ) : SinkProg (Except SchedulerError ResponseItem) :=
  let message := assistantTextMessage text
  let itemId := messageId text
  (deliver (perform (SinkCall.outputItemAdded message))).andThen fun _ ↦
  (deliver (perform (SinkCall.contentPartAdded itemId 0))).andThen fun _ ↦
  (sendPieces (chunkText text chunks)).andThen fun _ ↦
  (deliver (perform (SinkCall.outputTextDone text))).andThen fun _ ↦
  (deliver (perform (SinkCall.contentPartDone itemId 0 text))).andThen fun _ ↦
  (deliver (perform (SinkCall.outputItemDone message))).andThen fun _ ↦
  .ret (.ok message)

/-! ## The schedulers -/

/-- The text parts of a user message. -/
def CompletionsMessage.userTexts : CompletionsMessage → List String
  | user content => content.filterMap fun
      | .text text => some text
      | _ => none
  | _ => []

/-- The most recent user text, or nothing. -/
def CompletionsRequest.lastUserText (request : CompletionsRequest) : String :=
  (request.messages.flatMap CompletionsMessage.userTexts).getLast?.getD ""

/-- Streams the last user text back, in so many pieces. -/
structure EchoScheduler where
  chunks : ℕ := 8

namespace EchoScheduler

def new (chunks : ℕ) : EchoScheduler := ⟨max chunks 1⟩

def answer (request : CompletionsRequest) : String :=
  let last := request.lastUserText
  if last = "" then "echo: (no user text)" else s!"echo: {last}"

def schedule (scheduler : EchoScheduler) (request : CompletionsRequest) :
    SinkProg (Except SchedulerError CompletionsOutcome) :=
  (streamMessage (answer request) scheduler.chunks).andThen fun message ↦
  .ret (.ok ⟨[message], ⟨request.approxInputChars / 4, (answer request).utf8ByteSize / 4⟩, .stop⟩)

end EchoScheduler

/-- How a rule matches the incoming task. -/
inductive Match
  | exactly (s : String)
  | contains (s : String)
  | prefixed (s : String)
  | any
  deriving DecidableEq, Repr

def Match.matches (m : Match) (request : CompletionsRequest) : Bool :=
  let last := request.lastUserText
  match m with
  | exactly s => last == s
  | contains s => last.toList.tails.any s.toList.isPrefixOf
  | prefixed s => s.toList.isPrefixOf last.toList
  | any => true

/-- What to do when a rule matches. -/
inductive Script
  | text (text : String) (chunks : ℕ := 1)
  | truncated (text : String) (chunks : ℕ := 1)
  | refuse (reason : String)
  | toolCall (name arguments : String) (callId : String := "call_scripted_1")
  | fail (message : String)
  | reject (message : String)
  | stall (before : String := "")
  | empty
  | hang
  deriving DecidableEq, Repr

structure ScriptRule where
  when : Match
  script : Script
  deriving DecidableEq, Repr

structure ScriptedScheduler where
  rules : List ScriptRule := []
  default : Option Script := none

namespace ScriptedScheduler

/-- The script of the first rule that matches. -/
def select (scheduler : ScriptedScheduler) (request : CompletionsRequest) : Option Script :=
  ((scheduler.rules.find? fun r ↦ r.when.matches request).map ScriptRule.script).or
    scheduler.default

def usage (request : CompletionsRequest) (output : String) : Usage :=
  ⟨max (request.approxInputChars / 4) 1, max (output.utf8ByteSize / 4) 1⟩

/-- Play a script. -/
def play (request : CompletionsRequest) :
    Script → SinkProg (Except SchedulerError CompletionsOutcome)
  | .text text chunks => (streamMessage text chunks).andThen fun message ↦
    .ret (.ok ⟨[message], usage request text, .stop⟩)
  | .truncated text chunks => (streamMessage text chunks).andThen fun message ↦
    .ret (.ok ⟨[message], usage request text, .length⟩)
  | .refuse reason => .ret (.ok (.refusal reason (usage request reason)))
  | .toolCall name arguments callId =>
    (HttpChatCompletionsScheduler.toolCall ⟨callId, name, arguments⟩).andThen fun _ ↦
    .ret (.ok (.toolCalls [⟨callId, name, arguments⟩] (usage request arguments)))
  | .fail message => .ret (.error (.unavailable message))
  | .reject message => .ret (.error (.rejected message))
  | .stall before =>
    if before = "" then .ret (.error .deadlineExceeded)
    else (streamMessage before 1).andThen fun _ ↦ .ret (.error .deadlineExceeded)
  | .hang => .stall
  | .empty => .ret (.ok ⟨[], {}, .stop⟩)

def schedule (scheduler : ScriptedScheduler) (request : CompletionsRequest) :
    SinkProg (Except SchedulerError CompletionsOutcome) :=
  match scheduler.select request with
  | none =>
    let last := repr request.lastUserText
    .ret (.error (.other
      s!"no scripted rule matched, and no default was set. Last user text: {last}"))
  | some script => play request script

end ScriptedScheduler

/-! ## Pieces -/

theorem flatten_chunks {α : Type} {size : ℕ} (hsize : 1 ≤ size) : ∀ {rounds : ℕ} {l : List α},
    l.length ≤ rounds → (chunks size rounds l).flatten = l := by
  intro rounds
  induction rounds with
  | zero =>
      intro l hl
      obtain rfl := List.length_eq_zero_iff.mp (Nat.le_zero.mp hl)
      rfl
  | succ rounds ih =>
      intro l hl
      cases l with
      | nil => rfl
      | cons a l =>
          rw [chunks, List.flatten_cons, ih, List.take_append_drop]
          rw [List.length_drop]
          omega

/-- As many pieces as the list has room for, and no more. -/
theorem length_chunks_le {α : Type} {size : ℕ} : ∀ {rounds n : ℕ} {l : List α},
    l.length ≤ n * size → (chunks size rounds l).length ≤ n := by
  intro rounds
  induction rounds with
  | zero => exact fun _ ↦ Nat.zero_le _
  | succ rounds ih =>
      intro n l hl
      cases l with
      | nil => exact Nat.zero_le _
      | cons a l =>
          obtain ⟨n, rfl⟩ : ∃ m, n = m + 1 := by
            refine Nat.exists_eq_succ_of_ne_zero ?_
            rintro rfl
            simp at hl
          rw [chunks, List.length_cons]
          have hrest : (chunks size rounds ((a :: l).drop size)).length ≤ n := ih (by
            rw [List.length_drop]
            rw [Nat.succ_mul] at hl
            omega)
          omega

theorem join_ofList (ls : List (List Char)) :
    String.join (ls.map String.ofList) = String.ofList ls.flatten := by
  induction ls with
  | nil => rfl
  | cons l ls ih =>
      rw [List.map_cons, String.join_cons, ih, List.flatten_cons, String.ofList_append]

/-- Cutting a text loses nothing. -/
theorem join_chunkText (text : String) (n : ℕ) : String.join (chunkText text n) = text := by
  unfold chunkText
  split
  · simp [String.join]
  · rw [join_ofList, flatten_chunks (Nat.le_max_right _ _) le_rfl, String.ofList_toList]

theorem length_chunkText_le (text : String) (n : ℕ) : (chunkText text n).length ≤ max n 1 := by
  unfold chunkText
  split
  · exact Nat.le_max_right _ _
  · next h =>
      obtain ⟨hn, -⟩ := not_or.mp h
      refine Nat.le_trans ?_ (Nat.le_max_left _ _)
      rw [List.length_map]
      apply length_chunks_le
      calc text.toList.length
          ≤ n * ((text.toList.length + n - 1) / n) := by
            have hdiv := Nat.div_add_mod (text.toList.length + n - 1) n
            have hmod := Nat.mod_lt (text.toList.length + n - 1) (show 0 < n by omega)
            omega
        _ ≤ n * max ((text.toList.length + n - 1) / n) 1 :=
            Nat.mul_le_mul_left _ (Nat.le_max_left _ _)

/-! ## What is delivered -/

/-- The finished items that went to the sink. -/
def itemsDone (xs : List (Exchange SinkCall SinkCall.Reply)) : List ResponseItem :=
  xs.filterMap fun x ↦
    match x.call with
    | .outputItemDone item => some item
    | _ => none

/-- The sink was given exactly these items, and exactly their text. -/
structure Delivers (xs : List (Exchange SinkCall SinkCall.Reply)) (items : List ResponseItem) :
    Prop where
  text : String.join (piecesSent xs) = String.join (items.map textOfItem)
  items : itemsDone xs = items

section Delivers

variable {xs ys : List (Exchange SinkCall SinkCall.Reply)} {items items' : List ResponseItem}

theorem join_append (l l' : List String) :
    String.join (l ++ l') = String.join l ++ String.join l' := by
  induction l with
  | nil => simp [String.join]
  | cons s l ih =>
      rw [List.cons_append, String.join_cons, String.join_cons, ih, String.append_assoc]

@[simp] theorem itemsDone_append :
    itemsDone (xs ++ ys) = itemsDone xs ++ itemsDone ys := List.filterMap_append

theorem delivers_nil : Delivers [] [] := ⟨rfl, rfl⟩

theorem Delivers.append (h : Delivers xs items) (h' : Delivers ys items') :
    Delivers (xs ++ ys) (items ++ items') where
  text := by rw [piecesSent_append, join_append, h.text, h'.text, List.map_append, join_append]
  items := by rw [itemsDone_append, h.items, h'.items]

/-- Nothing is delivered by calls that send neither text nor finished items. -/
theorem Delivers.append_silent (h : Delivers xs items) (hpieces : piecesSent ys = [])
    (hitems : itemsDone ys = []) : Delivers (xs ++ ys) items where
  text := by rw [piecesSent_append, hpieces, List.append_nil, h.text]
  items := by rw [itemsDone_append, hitems, List.append_nil, h.items]

theorem path_deliver {p : SinkProg (Except SinkError SinkVerdict)}
    (h : Path (deliver p) xs (.ok ())) : ∃ r, Path p xs r := by
  obtain ⟨r, ys, zs, rfl, hp, hrest⟩ := path_bind.mp h
  cases r with
  | error e => cases (path_ret.mp hrest).2
  | ok v =>
      obtain ⟨rfl, -⟩ := path_ret.mp hrest
      exact ⟨_, by rwa [List.append_nil]⟩

/-- A sink call on its own. -/
theorem path_perform {c : SinkCall} {r : c.Reply} (h : Path (perform c) xs r) :
    xs = [⟨c, r⟩] := by
  obtain ⟨r', ys, rfl, hret⟩ := path_call.mp h
  obtain ⟨rfl, rfl⟩ := path_ret.mp hret
  rfl

theorem path_sendPieces {pieces : List String} : ∀ {xs : List (Exchange SinkCall SinkCall.Reply)},
    Path (sendPieces pieces) xs (.ok ()) → piecesSent xs = pieces ∧ itemsDone xs = [] := by
  induction pieces with
  | nil =>
      intro xs h
      obtain ⟨rfl, -⟩ := path_ret.mp h
      exact ⟨rfl, rfl⟩
  | cons piece pieces ih =>
      intro xs h
      obtain ⟨⟨⟩, ys, zs, rfl, hsend, hrest⟩ := path_andThen_ok.mp h
      obtain ⟨hpieces, hitems⟩ := ih hrest
      have hdone : itemsDone ys = [] := by
        obtain ⟨reply, us, rfl, hreply⟩ := path_call.mp hsend
        obtain ⟨rfl, -⟩ := path_ret.mp hreply
        rfl
      rw [piecesSent_append, path_sendText hsend, hpieces, itemsDone_append, hdone, hitems]
      exact ⟨rfl, rfl⟩

/-- A message that was streamed was delivered, in no more pieces than asked for. -/
theorem path_streamMessage {text : String} {n : ℕ} {message : ResponseItem}
    (h : Path (streamMessage text n) xs (.ok message)) :
    message = assistantTextMessage text ∧ Delivers xs [message] ∧
      (piecesSent xs).length ≤ max n 1 := by
  obtain ⟨⟨⟩, x₁, xs, rfl, h₁, h⟩ := path_andThen_ok.mp h
  obtain ⟨⟨⟩, x₂, xs, rfl, h₂, h⟩ := path_andThen_ok.mp h
  obtain ⟨⟨⟩, x₃, xs, rfl, h₃, h⟩ := path_andThen_ok.mp h
  obtain ⟨⟨⟩, x₄, xs, rfl, h₄, h⟩ := path_andThen_ok.mp h
  obtain ⟨⟨⟩, x₅, xs, rfl, h₅, h⟩ := path_andThen_ok.mp h
  obtain ⟨⟨⟩, x₆, xs, rfl, h₆, h⟩ := path_andThen_ok.mp h
  obtain ⟨rfl, hmessage⟩ := path_ret.mp h
  obtain rfl := Except.ok.inj hmessage
  obtain ⟨r₁, hr₁⟩ := path_deliver h₁
  obtain ⟨r₂, hr₂⟩ := path_deliver h₂
  obtain ⟨r₄, hr₄⟩ := path_deliver h₄
  obtain ⟨r₅, hr₅⟩ := path_deliver h₅
  obtain ⟨r₆, hr₆⟩ := path_deliver h₆
  obtain rfl := path_perform hr₁
  obtain rfl := path_perform hr₂
  obtain rfl := path_perform hr₄
  obtain rfl := path_perform hr₅
  obtain rfl := path_perform hr₆
  obtain ⟨hpieces, hitems⟩ := path_sendPieces h₃
  have hall : piecesSent ([⟨.outputItemAdded (assistantTextMessage text), r₁⟩] ++
      ([⟨.contentPartAdded (messageId text) 0, r₂⟩] ++ (x₃ ++ ([⟨.outputTextDone text, r₄⟩] ++
        ([⟨.contentPartDone (messageId text) 0 text, r₅⟩] ++
          ([⟨.outputItemDone (assistantTextMessage text), r₆⟩] ++ [])))))) =
      chunkText text n := by
    rw [piecesSent_append, piecesSent_append, piecesSent_append, hpieces]
    exact List.append_nil _
  refine ⟨rfl, ⟨?_, ?_⟩, ?_⟩
  · rw [hall, join_chunkText, List.map_singleton, textOfItem_message]
    simp [String.join]
  · rw [itemsDone_append, itemsDone_append, itemsDone_append, hitems]
    rfl
  · rw [hall]
    exact length_chunkText_le text n

/-- A tool call that was announced was delivered. -/
theorem path_toolCall {call : ToolCall} (h : Path (toolCall call) xs (.ok ())) :
    Delivers xs [.functionCall call.id call.name call.arguments none none] := by
  obtain ⟨added, ys, rfl, hadded⟩ := path_call.mp h
  rcases added with e | (_ | _)
  · cases (path_ret.mp hadded).2
  · obtain ⟨done, zs, rfl, hdone⟩ := path_call.mp hadded
    obtain ⟨rfl, -⟩ := path_ret.mp hdone
    exact ⟨rfl, rfl⟩
  · cases (path_ret.mp hadded).2

end Delivers

/-! ## Outcomes of the schedulers -/

/-- The item of a refusal. -/
def refusalItem (reason : String) : ResponseItem :=
  .message .assistant [.refusal reason] (some (messageId reason)) none

/-- An outcome is what was delivered; only a refusal is not streamed. -/
structure DeliversOutcome (xs : List (Exchange SinkCall SinkCall.Reply))
    (outcome : CompletionsOutcome) : Prop where
  whole : outcome.finish ≠ .refusal → Delivers xs outcome.items
  refused : outcome.finish = .refusal →
    Delivers xs [] ∧ ∃ reason, outcome.items = [refusalItem reason]
  calls : outcome.finish = .toolCalls → outcome.items ≠ [] ∧
    ∀ item ∈ outcome.items, ∃ callId name arguments,
      item = .functionCall callId name arguments none none

section Schedulers

variable {xs : List (Exchange SinkCall SinkCall.Reply)} {request : CompletionsRequest}
  {outcome : CompletionsOutcome}

theorem EchoScheduler.path_schedule {scheduler : EchoScheduler}
    (h : Path (scheduler.schedule request) xs (.ok outcome)) : DeliversOutcome xs outcome := by
  obtain ⟨message, ys, zs, rfl, hmessage, h⟩ := path_andThen_ok.mp h
  obtain ⟨rfl, houtcome⟩ := path_ret.mp h
  obtain rfl := Except.ok.inj houtcome
  obtain ⟨-, hdelivers, -⟩ := path_streamMessage hmessage
  rw [List.append_nil]
  exact ⟨fun _ ↦ hdelivers, nofun, nofun⟩

theorem ScriptedScheduler.path_play {script : Script}
    (h : Path (play request script) xs (.ok outcome)) : DeliversOutcome xs outcome := by
  cases script with
  | text text chunks =>
      obtain ⟨message, ys, zs, rfl, hmessage, h⟩ := path_andThen_ok.mp h
      obtain ⟨rfl, houtcome⟩ := path_ret.mp h
      obtain rfl := Except.ok.inj houtcome
      rw [List.append_nil]
      exact ⟨fun _ ↦ (path_streamMessage hmessage).2.1, nofun, nofun⟩
  | truncated text chunks =>
      obtain ⟨message, ys, zs, rfl, hmessage, h⟩ := path_andThen_ok.mp h
      obtain ⟨rfl, houtcome⟩ := path_ret.mp h
      obtain rfl := Except.ok.inj houtcome
      rw [List.append_nil]
      exact ⟨fun _ ↦ (path_streamMessage hmessage).2.1, nofun, nofun⟩
  | refuse reason =>
      obtain ⟨rfl, houtcome⟩ := path_ret.mp h
      obtain rfl := Except.ok.inj houtcome
      exact ⟨fun hne ↦ absurd rfl hne, fun _ ↦ ⟨delivers_nil, reason, rfl⟩, nofun⟩
  | toolCall name arguments callId =>
      obtain ⟨⟨⟩, ys, zs, rfl, hcall, h⟩ := path_andThen_ok.mp h
      obtain ⟨rfl, houtcome⟩ := path_ret.mp h
      obtain rfl := Except.ok.inj houtcome
      rw [List.append_nil]
      refine ⟨fun _ ↦ path_toolCall hcall, nofun, fun _ ↦ ⟨nofun, fun item hitem ↦ ?_⟩⟩
      obtain rfl := List.mem_singleton.mp hitem
      exact ⟨_, _, _, rfl⟩
  | fail message => cases (path_ret.mp h).2
  | reject message => cases (path_ret.mp h).2
  | stall before =>
      rw [play] at h
      split at h
      · cases (path_ret.mp h).2
      · obtain ⟨_, _, _, -, -, h⟩ := path_andThen_ok.mp h
        cases (path_ret.mp h).2
  | hang => exact (path_stall h).elim
  | empty =>
      obtain ⟨rfl, houtcome⟩ := path_ret.mp h
      obtain rfl := Except.ok.inj houtcome
      exact ⟨fun _ ↦ delivers_nil, nofun, nofun⟩

theorem ScriptedScheduler.path_schedule {scheduler : ScriptedScheduler}
    (h : Path (scheduler.schedule request) xs (.ok outcome)) : DeliversOutcome xs outcome := by
  unfold schedule at h
  split at h
  · cases (path_ret.mp h).2
  · exact path_play h

end Schedulers

/-! ## Runs of the runner -/

namespace MockAgentRunner

/-- The schedulers an execution daemon can be started with, short of a provider. -/
inductive Local (m : MockAgentRunner) (n : ℕ) : Prop
  | echo (scheduler : EchoScheduler) (h : m.schedule n = scheduler.schedule)
  | scripted (scheduler : ScriptedScheduler) (h : m.schedule n = scheduler.schedule)

section Runs

variable {m : MockAgentRunner} {task : AgentTask}
  {xs ys : List (Exchange SinkCall SinkCall.Reply)}

theorem Local.path_schedule {n : ℕ} (h : m.Local n) {request : CompletionsRequest}
    {outcome : CompletionsOutcome} (hpath : Path (m.schedule n request) xs (.ok outcome)) :
    DeliversOutcome xs outcome := by
  cases h with
  | echo scheduler h =>
      rw [h] at hpath
      exact EchoScheduler.path_schedule hpath
  | scripted scheduler h =>
      rw [h] at hpath
      exact ScriptedScheduler.path_schedule hpath

/-- An output that was announced was delivered. -/
theorem path_announce {callId output : String} {usage : Usage}
    (h : Path (announce (.functionCallOutput callId output none none) usage) xs (.ok ())) :
    Delivers xs [.functionCallOutput callId output none none] := by
  obtain ⟨added, ys, rfl, hadded⟩ := path_call.mp h
  rcases added with e | (_ | _)
  · cases (path_ret.mp hadded).2
  · obtain ⟨done, zs, rfl, hdone⟩ := path_call.mp hadded
    rcases done with e | (_ | _)
    · cases (path_ret.mp hdone).2
    · obtain ⟨rfl, -⟩ := path_ret.mp hdone
      exact ⟨rfl, rfl⟩
    · cases (path_ret.mp hdone).2
  · cases (path_ret.mp hadded).2

/-- The outputs of a round's calls were delivered. -/
theorem path_callTools_delivers {round : ℕ} {usage : Usage} {conversation' : List ResponseItem}
    {calls : List ((String × String × String) × ℕ)} : ∀ {conversation : List ResponseItem}
    {xs : List (Exchange SinkCall SinkCall.Reply)},
    Path (m.callTools round usage calls conversation) xs (.ok conversation') →
      ∃ outputs, conversation' = conversation ++ outputs ∧ Delivers xs outputs := by
  induction calls with
  | nil =>
      intro conversation xs h
      obtain ⟨rfl, hret⟩ := path_ret.mp h
      exact ⟨[], by rw [List.append_nil, Except.ok.inj hret], delivers_nil⟩
  | cons call calls ih =>
      intro conversation xs h
      obtain ⟨⟨callId, name, arguments⟩, position⟩ := call
      rw [callTools] at h
      obtain ⟨cancelled, us, vs, rfl, hprobe, h⟩ := path_bind.mp h
      have hpieces : piecesSent us = [] := path_probe (fun _ ↦ rfl) hprobe
      have hitems : itemsDone us = [] := path_probe (fun _ ↦ rfl) hprobe
      cases cancelled with
      | true => cases (path_ret.mp h).2
      | false =>
          simp only [Bool.false_eq_true, if_false] at h
          split at h
          · cases (path_ret.mp h).2
          · next output _ =>
              obtain ⟨announced, ys, zs, rfl, hannounce, h⟩ := path_bind.mp h
              cases announced with
              | error e => cases (path_ret.mp h).2
              | ok _ =>
                  obtain ⟨outputs, rfl, hrest⟩ := ih h
                  have hus : Delivers us [] := delivers_nil.append_silent hpieces hitems
                  refine ⟨.functionCallOutput callId output none none :: outputs, ?_, ?_⟩
                  · rw [List.append_assoc]
                    rfl
                  · exact hus.append ((path_announce hannounce).append hrest)

/-- What a run that went well has delivered: all it returns, but for a refusal at its end, and but
for the calls that came when the rounds were used up. -/
inductive Gives (xs : List (Exchange SinkCall SinkCall.Reply)) (items : List ResponseItem) :
    ResponseStatus → Prop
  | all {status} (h : Delivers xs items) : Gives xs items status
  | refused (reason : String) (before : List ResponseItem) (h : Delivers xs before)
      (hitems : items = before ++ [refusalItem reason]) : Gives xs items .completed
  | cut (calls : List ResponseItem) (h : Delivers xs (items ++ calls)) (hne : calls ≠ [])
      (hcalls : ∀ item ∈ calls, ∃ callId name arguments,
        item = .functionCall callId name arguments none none) : Gives xs items .incomplete

/-- The loop has delivered what it has added to the task's items. -/
def Loop.Delivered (task : AgentTask) (xs : List (Exchange SinkCall SinkCall.Reply)) (s : Loop) :
    Prop :=
  ∃ produced, s.conversation = task.items ++ produced ∧ Delivers xs produced

theorem outcomeOf_items (produced : List ResponseItem) (usage : Usage) (status : ResponseStatus) :
    outcomeOf task (task.items ++ produced) usage status = .ok ⟨produced, usage, status⟩ := by
  rw [outcomeOf, List.drop_left]

/-- Going on from a completion delivers what it adds. -/
theorem path_settle_delivers {s : Loop} {zs : List (Exchange SinkCall SinkCall.Reply)}
    {outcome : CompletionsOutcome} (hs : s.Delivered task ys) (hout : DeliversOutcome xs outcome)
    {r : Loop ⊕ Except AgentError AgentOutcome} (h : Path (m.settle task s outcome) zs r) :
    (∀ s', r = .inl s' → s'.Delivered task (ys ++ (xs ++ zs))) ∧
      ∀ result, r = .inr (.ok result) → Gives (ys ++ (xs ++ zs)) result.items result.status := by
  obtain ⟨produced, hconversation, hproduced⟩ := hs
  unfold settle at h
  rw [hconversation] at h
  cases hfinish : outcome.finish with
  | stop =>
      rw [hfinish] at h
      obtain ⟨rfl, rfl⟩ := path_ret.mp h
      refine ⟨nofun, fun result heq ↦ ?_⟩
      rw [List.append_assoc, outcomeOf_items] at heq
      obtain rfl := Except.ok.inj (Sum.inr.inj heq)
      rw [List.append_nil]
      exact .all (hproduced.append (hout.whole (by rw [hfinish]; nofun)))
  | length =>
      rw [hfinish] at h
      obtain ⟨rfl, rfl⟩ := path_ret.mp h
      refine ⟨nofun, fun result heq ↦ ?_⟩
      rw [List.append_assoc, outcomeOf_items] at heq
      obtain rfl := Except.ok.inj (Sum.inr.inj heq)
      rw [List.append_nil]
      exact .all (hproduced.append (hout.whole (by rw [hfinish]; nofun)))
  | refusal =>
      rw [hfinish] at h
      obtain ⟨rfl, rfl⟩ := path_ret.mp h
      obtain ⟨hsilent, reason, hitems⟩ := hout.refused hfinish
      refine ⟨nofun, fun result heq ↦ ?_⟩
      rw [List.append_assoc, outcomeOf_items] at heq
      obtain rfl := Except.ok.inj (Sum.inr.inj heq)
      rw [List.append_nil]
      refine .refused reason produced ?_ (by rw [hitems])
      simpa using hproduced.append hsilent
  | toolCalls =>
      have hwhole : Delivers xs outcome.items := hout.whole (by rw [hfinish]; nofun)
      rw [hfinish] at h
      dsimp only at h
      split at h
      · obtain ⟨rfl, rfl⟩ := path_ret.mp h
        refine ⟨nofun, fun result heq ↦ ?_⟩
        rw [outcomeOf_items] at heq
        obtain rfl := Except.ok.inj (Sum.inr.inj heq)
        rw [List.append_nil]
        obtain ⟨hne, hcalls⟩ := hout.calls hfinish
        exact .cut outcome.items (hproduced.append hwhole) hne hcalls
      · split at h
        · obtain ⟨-, rfl⟩ := path_ret.mp h
          exact ⟨nofun, nofun⟩
        · obtain ⟨answer, us, vs, rfl, htools, hrest⟩ := path_bind.mp h
          cases answer with
          | error e =>
              obtain ⟨-, rfl⟩ := path_ret.mp hrest
              exact ⟨nofun, nofun⟩
          | ok conversation =>
              obtain ⟨rfl, rfl⟩ := path_ret.mp hrest
              refine ⟨fun s' heq ↦ ?_, nofun⟩
              obtain rfl := Sum.inl.inj heq
              obtain ⟨outputs, rfl, houtputs⟩ := path_callTools_delivers htools
              refine ⟨produced ++ (outcome.items ++ outputs), by simp, ?_⟩
              rw [List.append_nil]
              exact hproduced.append (hwhole.append houtputs)

/-- A round delivers what it adds. -/
theorem path_round_delivers (hm : ∀ n, m.Local n) {s : Loop} (hs : s.Delivered task ys)
    {r : Loop ⊕ Except AgentError AgentOutcome} (h : Path (m.round task s) xs r) :
    (∀ s', r = .inl s' → s'.Delivered task (ys ++ xs)) ∧
      ∀ result, r = .inr (.ok result) → Gives (ys ++ xs) result.items result.status := by
  unfold round at h
  split at h
  · obtain ⟨-, rfl⟩ := path_ret.mp h
    exact ⟨nofun, nofun⟩
  · obtain ⟨answer, us, vs, rfl, hrace, h⟩ := path_bind.mp h
    rcases answer with _ | (e | outcome)
    · obtain ⟨-, rfl⟩ := path_ret.mp h
      exact ⟨nofun, nofun⟩
    · cases e <;> obtain ⟨-, rfl⟩ := path_ret.mp h <;> exact ⟨nofun, nofun⟩
    · dsimp only at h
      split at h
      · obtain ⟨-, rfl⟩ := path_ret.mp h
        exact ⟨nofun, nofun⟩
      · obtain ⟨ws, hschedule, hsame⟩ := path_race hrace
        have hpieces : piecesSent us = piecesSent ws := hsame _ fun _ ↦ rfl
        have hitems : itemsDone us = itemsDone ws := hsame _ fun _ ↦ rfl
        have hout := (hm _).path_schedule hschedule
        have hsent : ∀ {items : List ResponseItem}, Delivers ws items → Delivers us items :=
          fun h ↦ ⟨by rw [hpieces, h.text], by rw [hitems, h.items]⟩
        exact path_settle_delivers hs ⟨fun hne ↦ hsent (hout.whole hne),
          fun hrefusal ↦ ⟨hsent (hout.refused hrefusal).1, (hout.refused hrefusal).2⟩,
          hout.calls⟩ h

/-- A run over local schedulers that goes well returns what it has delivered. -/
theorem path_run_gives (hm : ∀ n, m.Local n) {result : AgentOutcome}
    (h : Path (m.run task) xs (.ok result)) : Gives xs result.items result.status := by
  have hrun := Path.iterate_along (fun ys s ↦ s.Delivered task ys)
    (fun ys r ↦ ∀ result, r = .ok result → Gives ys result.items result.status)
    (fun ys s zs s' hs hround ↦ (path_round_delivers hm hs hround).1 s' rfl)
    (fun ys s zs r hs hround result heq ↦
      (path_round_delivers hm hs hround).2 result (by rw [heq])) (task.maxToolRounds + 1)
    ⟨[], (List.append_nil _).symm, delivers_nil⟩ h
  exact hrun result rfl

/-- Whatever was returned, its text is what was streamed. -/
theorem Gives.text {items : List ResponseItem} {status : ResponseStatus}
    (h : Gives xs items status) :
    String.join (piecesSent xs) = String.join (items.map textOfItem) := by
  cases h with
  | all h => exact h.text
  | refused reason before h hitems =>
      rw [h.text, hitems, List.map_append, join_append]
      simp [refusalItem, textOfItem, String.join]
  | cut calls h hne hcalls =>
      have hsilent : String.join (calls.map textOfItem) = "" := join_eq_empty fun item hitem ↦ by
        obtain ⟨_, _, _, rfl⟩ := hcalls item hitem
        rfl
      rw [h.text, List.map_append, join_append, hsilent, String.append_empty]

/-- With the echo and the scripted scheduler, whatever the rules, the tools, the probe and the sink
do: a run that goes well has streamed exactly the text it returns, and has finished in the stream
exactly the items it returns, in order, but for a refusal at its end, and but for the calls that
came when its rounds were used up. -/
theorem local_run_delivered (hm : ∀ n, m.Local n) {result : AgentOutcome}
    (h : Path (m.run task) xs (.ok result)) :
    String.join (piecesSent xs) = String.join (result.items.map textOfItem) ∧
      (itemsDone xs = result.items ∨
        (result.status = .completed ∧ ∃ reason,
          result.items = itemsDone xs ++ [refusalItem reason]) ∨
        result.status = .incomplete ∧ ∃ calls, calls ≠ [] ∧ itemsDone xs = result.items ++ calls ∧
          ∀ item ∈ calls, ∃ callId name arguments,
            item = .functionCall callId name arguments none none) := by
  have hgives := path_run_gives hm h
  refine ⟨hgives.text, ?_⟩
  obtain ⟨items, usage, status⟩ := result
  cases hgives with
  | all hall => exact Or.inl hall.items
  | refused reason before hbefore hitems =>
      refine Or.inr (Or.inl ⟨rfl, reason, ?_⟩)
      rw [hbefore.items]
      exact hitems
  | cut calls hcut hne hcalls => exact Or.inr (Or.inr ⟨rfl, calls, hne, hcut.items, hcalls⟩)

end Runs

end MockAgentRunner

namespace Sample

/-- Greets whoever says hello, in three pieces, and refuses everybody else. -/
def manners : ScriptedScheduler where
  rules := [⟨.prefixed "hello", .text "good morning" 3⟩]
  default := some (.refuse "no")

def rehearsed : MockAgentRunner where
  schedule _ := manners.schedule
  callTool _ _ _ _ := .ok ""
  guard _ _ := .ok ()

def greeted : AgentTask where
  params := { model := "model" }
  items := [.message .user [.inputText "hello there"] none none]
  provenance := ⟨⟨node, ⟨0⟩⟩, Attempt.unclaimed.next, 0⟩
  maxToolRounds := 2

end Sample

theorem MockAgentRunner.local_run_delivered_greeting : ∃ xs result,
    Path (Sample.rehearsed.run Sample.greeted) xs (.ok result) ∧
      piecesSent xs = ["good", " mor", "ning"] ∧
      String.join (piecesSent xs) = String.join (result.items.map textOfItem) := by
  have hrun : ((Sample.rehearsed.run Sample.greeted).run Sample.eager ()).any
      (fun r ↦ r.1.isOk) = true := by decide +kernel
  obtain ⟨⟨answer, ⟨⟩⟩, hrun, hok⟩ := (Option.any_eq_true _ _).mp hrun
  cases answer with
  | error e => cases hok
  | ok result =>
      have hpath := Path.of_run hrun
      exact ⟨_, result, hpath, by decide +kernel,
        (MockAgentRunner.local_run_delivered (fun n ↦ .scripted Sample.manners rfl) hpath).1⟩

end NovaChat
