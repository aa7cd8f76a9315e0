import NovaChat.Agentd.Completions
import NovaChat.Interact.Path
import NovaChat.Runtime.Sink

/-!
# The mock agent runner

A loop over a scheduler and a tool executor: schedule one completion, carry out the tool calls it
asks for, and go on until the model stops, truncates, refuses or the rounds are used up.  Whatever
blocks is raced against the cancellation probe.
-/

namespace NovaChat

open Interact Prog

/-! ## Outcomes of one completion -/

/-- Why generation ended. -/
inductive FinishReason
  | stop | length | toolCalls | refusal
  deriving DecidableEq, Repr

/-- The result of one completions request. -/
structure CompletionsOutcome where
  items : List ResponseItem
  usage : Usage
  finish : FinishReason

def SinkError.text : SinkError → String
  | transport message => s!"transport failure while streaming: {message}"
  | other message => message

inductive SchedulerError
  | superseded
  | deadlineExceeded
  | unavailable (message : String)
  | rejected (message : String)
  | quotaExhausted
  | refused (message : String)
  | emptyOutcome
  | unusableOutput (itemType : String)
  | invalidOutput (message : String)
  | sink (e : SinkError)
  | other (message : String)
  deriving DecidableEq, Repr

def SchedulerError.text : SchedulerError → String
  | superseded => "attempt superseded"
  | deadlineExceeded => "execution deadline exceeded"
  | unavailable message => s!"provider unavailable: {message}"
  | rejected message => s!"provider rejected the request: {message}"
  | quotaExhausted => "provider quota exhausted"
  | refused message => s!"scheduler refused the request: {message}"
  | emptyOutcome => "scheduler produced no output items"
  | unusableOutput itemType =>
    s!"scheduler produced a `{itemType}` item, which cannot be fed back as input"
  | invalidOutput message => s!"scheduler produced an invalid item: {message}"
  | sink e => s!"could not deliver incremental output: {e.text}"
  | other message => message

/-- Reject an outcome that cannot be stored, before it is submitted. -/
def validateOutcome (guard : UrlGuard) (limits : ProtocolLimits) (outcome : CompletionsOutcome) :
    Except SchedulerError Unit :=
  if outcome.items.isEmpty then .error .emptyOutcome
  else outcome.items.forM fun item ↦
    if item.isAcceptableAsInput then
      (item.validate guard limits).mapError fun e ↦ .invalidOutput e.text
    else .error (.unusableOutput item.itemType)

inductive ToolError
  | unknownTool (name : String)
  | execution (name message : String)
  deriving DecidableEq, Repr

def ToolError.text : ToolError → String
  | unknownTool name => s!"no tool named `{name}` is available"
  | execution name message => s!"tool `{name}` failed: {message}"

/-! ## Races against the probe -/

/-- What a runner and its parts do: sink calls and polls of the probe. -/
abbrev SinkProg := Prog SinkCall SinkCall.Reply

/-- Poll the probe so often, or until it reports a cancellation. -/
def probe : ℕ → SinkProg Bool
  | 0 => .ret false
  | n + 1 => .call .cancelled fun cancelled ↦ if cancelled then .ret true else probe n

theorem polls_probe (n : ℕ) : (probe n).OnlyCalls (· = .cancelled) := by
  induction n with
  | zero => trivial
  | succ n ih =>
      refine ⟨rfl, fun cancelled ↦ ?_⟩
      cases cancelled
      · exact ih
      · trivial

/-- Run a program against the probe, which is polled so often before each of its steps. -/
def race {α : Type} (polls : ℕ → ℕ) : ℕ → SinkProg α → SinkProg (Option α)
  | step, .ret a => probe (polls step) >>= fun cancelled ↦
    if cancelled then .ret none else .ret (some a)
  | step, .call c k => probe (polls step) >>= fun cancelled ↦
    if cancelled then .ret none else .call c fun r ↦ race polls (step + 1) (k r)
  | step, .stall => probe (polls step) >>= fun cancelled ↦
    if cancelled then .ret none else .stall

/-! ## The runner -/

/-- A scheduler and a tool executor may answer otherwise every time they are asked, so they are told
which round it is, and which of its calls.  How often the probe is polled meanwhile is theirs to
say too. -/
structure MockAgentRunner where
  schedule : ℕ → CompletionsRequest → SinkProg (Except SchedulerError CompletionsOutcome)
  callTool : ℕ → ℕ → String → String → Except ToolError String
  schedulePolls : ℕ → ℕ → ℕ := fun _ _ ↦ 0
  toolPolls : ℕ → ℕ → ℕ := fun _ _ ↦ 0
  guard : UrlGuard
  limits : ProtocolLimits := {}

namespace MockAgentRunner

/-- The local variables of the loop. -/
structure Loop where
  conversation : List ResponseItem
  usage : Usage := {}
  toolRounds : ℕ := 0

variable (m : MockAgentRunner)

/-- The request for the conversation as it is. -/
def request (task : AgentTask) (conversation : List ResponseItem) :
    Except TranslationError CompletionsRequest := do
  let request ← CompletionsRequest.fromContext task.params.model task.params.instructions
    conversation task.provenance
  return { request with
    tools := task.params.tools.map ToolSpec.from
    toolChoice := task.params.toolChoice.map CompletionsToolChoice.from
    metadata := task.params.metadata }

/-- The tool calls among some items: id, name and arguments. -/
def toolCalls (items : List ResponseItem) : List (String × String × String) :=
  items.filterMap fun
    | .functionCall callId name arguments _ _ => some (callId, name, arguments)
    | _ => none

/-- Stream a tool output: added, then done. -/
def announce (item : ResponseItem) (usage : Usage) : SinkProg (Except AgentError Unit) := do
  let added : Except SinkError SinkVerdict ← Prog.perform (SinkCall.outputItemAdded item)
  match added with
  | .ok .stop => return .error .superseded
  | .error e => return .error (.failed e.text usage)
  | .ok .continue =>
    let done : Except SinkError SinkVerdict ← Prog.perform (SinkCall.outputItemDone item)
    match done with
    | .ok .stop => return .error .superseded
    | .error e => return .error (.failed e.text usage)
    | .ok .continue => return .ok ()

/-- Carry out the calls of one round; the conversation with their outputs. -/
def callTools (round : ℕ) (usage : Usage) : List ((String × String × String) × ℕ) →
    List ResponseItem → SinkProg (Except AgentError (List ResponseItem))
  | [], conversation => return .ok conversation
  | ((callId, name, arguments), position) :: calls, conversation => do
    if ← probe (m.toolPolls round position) then return .error .superseded
    else
      match m.callTool round position name arguments with
      | .error e => return .error (.failed e.text usage)
      | .ok output =>
        match ← announce (.functionCallOutput callId output none none) usage with
        | .error e => return .error e
        | .ok () =>
          callTools round usage calls
            (conversation ++ [.functionCallOutput callId output none none])

/-- What the run returns when it ends with such a conversation. -/
def outcomeOf (task : AgentTask) (conversation : List ResponseItem) (usage : Usage)
    (status : ResponseStatus) : Except AgentError AgentOutcome :=
  .ok ⟨conversation.drop task.items.length, usage, status⟩

/-- Go on from a completion that was accepted. -/
def settle (task : AgentTask) (s : Loop) (outcome : CompletionsOutcome) :
    SinkProg (Loop ⊕ Except AgentError AgentOutcome) :=
  let usage := s.usage.accumulate outcome.usage
  match outcome.finish with
  | .stop | .refusal =>
    return .inr (outcomeOf task (s.conversation ++ outcome.items) usage .completed)
  | .length => return .inr (outcomeOf task (s.conversation ++ outcome.items) usage .incomplete)
  | .toolCalls =>
    if task.maxToolRounds ≤ s.toolRounds then
      return .inr (outcomeOf task s.conversation usage .incomplete)
    else if (toolCalls outcome.items).isEmpty then
      return .inr (.error (.failed "finish=ToolCalls but no tool calls were produced" s.usage))
    else do
      match ← m.callTools s.toolRounds usage (toolCalls outcome.items).zipIdx
          (s.conversation ++ outcome.items) with
      | .error e => return .inr (.error e)
      | .ok conversation => return .inl ⟨conversation, usage, s.toolRounds + 1⟩

/-- One turn of the loop. -/
def round (task : AgentTask) (s : Loop) : SinkProg (Loop ⊕ Except AgentError AgentOutcome) :=
  match request task s.conversation with
  | .error e => return .inr (.error (.failed s!"context: {e.text}" s.usage))
  | .ok request => do
    match ← race (m.schedulePolls s.toolRounds) 0 (m.schedule s.toolRounds request) with
    | none => return .inr (.error .superseded)
    | some (.error .superseded) => return .inr (.error .superseded)
    | some (.error e) => return .inr (.error (.failed e.text s.usage))
    | some (.ok outcome) =>
      match validateOutcome m.guard m.limits outcome with
      | .error e => return .inr (.error (.failed e.text s.usage))
      | .ok () => m.settle task s outcome

/-- Run a task to its end.  No run takes more rounds than tool rounds and one. -/
def run : AgentRunner := fun task ↦
  Prog.iterate (m.round task) (task.maxToolRounds + 1) { conversation := task.items }

/-! ## What a run returns -/

section Outcomes

variable {m} {task : AgentTask} {xs : List (Exchange SinkCall SinkCall.Reply)}

/-- A task that cannot be translated is refused before anything is scheduled. -/
theorem run_of_unpaired (h : ¬ Paired [] task.items) :
    ∃ message, m.run task = .ret (.error (.failed message {})) := by
  obtain ⟨e, he⟩ : ∃ e, itemsToMessages task.items = .error e := by
    cases hitems : itemsToMessages task.items with
    | error e => exact ⟨e, rfl⟩
    | ok messages => exact absurd (itemsToMessages_isOk.mp (by rw [hitems]; rfl)) h
  have hrequest : request task task.items = .error e := by
    simp only [request, CompletionsRequest.fromContext, he]
    rfl
  refine ⟨s!"context: {e.text}", ?_⟩
  simp only [run, Prog.iterate, round, hrequest]
  rfl

/-- What is looked for among the calls that are not polls is not found among the polls. -/
theorem path_probe {β : Type} {f : Exchange SinkCall SinkCall.Reply → Option β}
    (hf : ∀ b, f ⟨.cancelled, b⟩ = none) {n : ℕ} {b : Bool} (h : Path (probe n) xs b) :
    xs.filterMap f = [] := by
  apply List.filterMap_eq_nil_iff.mpr
  rintro ⟨c, reply⟩ hx
  obtain rfl := h.onlyCalls (polls_probe n) hx
  exact hf reply

/-- What wins a race was returned by the program, which has done the same but for the polls. -/
theorem path_race {α : Type} {polls : ℕ → ℕ} {p : SinkProg α} {a : α} {step : ℕ}
    (h : Path (race polls step p) xs (some a)) : ∃ ys, Path p ys a ∧
      ∀ {β : Type} (f : Exchange SinkCall SinkCall.Reply → Option β),
        (∀ b, f ⟨.cancelled, b⟩ = none) → xs.filterMap f = ys.filterMap f := by
  induction p generalizing step xs with
  | ret b =>
      obtain ⟨cancelled, us, vs, rfl, hprobe, hrest⟩ := path_bind.mp h
      cases cancelled with
      | false =>
          obtain ⟨rfl, heq⟩ := path_ret.mp hrest
          refine ⟨[], by rw [Option.some.inj heq]; exact .ret b, fun f hf ↦ ?_⟩
          rw [List.append_nil, path_probe hf hprobe]
          rfl
      | true => cases (path_ret.mp hrest).2
  | call c k ih =>
      obtain ⟨cancelled, us, vs, rfl, hprobe, hrest⟩ := path_bind.mp h
      cases cancelled with
      | false =>
          obtain ⟨reply, ws, rfl, hk⟩ := path_call.mp hrest
          obtain ⟨ys, hpath, hsame⟩ := ih reply hk
          refine ⟨⟨c, reply⟩ :: ys, .call c reply hpath, fun f hf ↦ ?_⟩
          rw [List.filterMap_append, path_probe hf hprobe, List.nil_append, List.filterMap_cons,
            List.filterMap_cons, hsame f hf]
      | true => cases (path_ret.mp hrest).2
  | stall =>
      obtain ⟨cancelled, us, vs, rfl, -, hrest⟩ := path_bind.mp h
      cases cancelled with
      | false => exact (path_stall hrest).elim
      | true => cases (path_ret.mp hrest).2

theorem callsOf_toolCalls (items : List ResponseItem) :
    (toolCalls items).map Prod.fst = callsOf items := by
  induction items with
  | nil => rfl
  | cons item items ih =>
      cases item <;> simpa [toolCalls, callsOf, ResponseItem.announced] using ih

/-- The first call ends the round, by itself or when its output is announced, or its output is
added and the others follow. -/
theorem path_callTools_cons {round position : ℕ} {usage : Usage} {callId name arguments : String}
    {calls : List ((String × String × String) × ℕ)} {conversation : List ResponseItem}
    {xs : List (Exchange SinkCall SinkCall.Reply)} {result : Except AgentError (List ResponseItem)}
    (h : Path (m.callTools round usage (((callId, name, arguments), position) :: calls)
      conversation) xs result) :
    result = .error .superseded ∨ (∃ message, result = .error (.failed message usage)) ∨
      ∃ output announced ys zs,
        Path (announce (.functionCallOutput callId output none none) usage) ys announced ∧
          ((∃ e, announced = .error e ∧ result = .error e) ∨
            announced = .ok () ∧ Path (m.callTools round usage calls
              (conversation ++ [.functionCallOutput callId output none none])) zs result) := by
  rw [callTools] at h
  obtain ⟨cancelled, -, zs, -, -, h⟩ := path_bind.mp h
  cases cancelled
  · simp only [Bool.false_eq_true, if_false] at h
    split at h
    · exact Or.inr (Or.inl ⟨_, (path_ret.mp h).2⟩)
    · next output _ =>
        obtain ⟨announced, ys, zs, -, hannounce, h⟩ := path_bind.mp h
        refine Or.inr (Or.inr ⟨output, announced, ys, zs, hannounce, ?_⟩)
        cases announced with
        | error e => exact Or.inl ⟨e, rfl, (path_ret.mp h).2⟩
        | ok _ => exact Or.inr ⟨rfl, h⟩
  · exact Or.inl (path_ret.mp h).2

/-- Tools add outputs for the calls they were given, and nothing else. -/
theorem path_callTools {round : ℕ} {usage : Usage} {conversation' : List ResponseItem}
    {calls : List ((String × String × String) × ℕ)} : ∀ {conversation : List ResponseItem}
    {xs : List (Exchange SinkCall SinkCall.Reply)},
    Path (m.callTools round usage calls conversation) xs (.ok conversation') →
      ∃ outputs, conversation' = conversation ++ outputs ∧
        answersOf outputs = calls.map (fun x ↦ x.1.1) ∧ callsOf outputs = [] := by
  induction calls with
  | nil =>
      intro conversation xs h
      exact ⟨[], by rw [List.append_nil, Except.ok.inj (path_ret.mp h).2], rfl, rfl⟩
  | cons call calls ih =>
      intro conversation xs h
      obtain ⟨⟨callId, name, arguments⟩, position⟩ := call
      obtain h | ⟨_, h⟩ | ⟨output, _, _, zs, -, ⟨_, -, h⟩ | ⟨-, h⟩⟩ :=
        path_callTools_cons h
      · cases h
      · cases h
      · cases h
      · obtain ⟨outputs, rfl, hanswers, hcalls⟩ := ih h
        refine ⟨.functionCallOutput callId output none none :: outputs,
          by rw [List.append_assoc]; rfl, ?_, hcalls⟩
        rw [List.map_cons, ← hanswers]
        rfl

theorem path_round_outcome {s : Loop} {r : Loop ⊕ Except AgentError AgentOutcome}
    (h : Path (m.round task s) xs r) :
    (∃ e, r = .inr (.error e)) ∨ ∃ n request outcome ys zs,
      Path (m.schedule n request) ys (.ok outcome) ∧ Path (m.settle task s outcome) zs r := by
  unfold round at h
  split at h
  · exact Or.inl ⟨_, (path_ret.mp h).2⟩
  · next request _ =>
      obtain ⟨answer, ys, zs, rfl, hrace, h⟩ := path_bind.mp h
      rcases answer with _ | (e | outcome)
      · exact Or.inl ⟨_, (path_ret.mp h).2⟩
      · refine Or.inl ?_
        cases e <;> exact ⟨_, (path_ret.mp h).2⟩
      · simp only at h
        split at h
        · exact Or.inl ⟨_, (path_ret.mp h).2⟩
        · obtain ⟨us, hschedule, -⟩ := path_race hrace
          exact Or.inr ⟨_, request, outcome, us, zs, hschedule, h⟩

end Outcomes

end MockAgentRunner

/-- The node of the sample tasks. -/
def Sample.node : NodeTag := ⟨"node", by decide⟩

end NovaChat
