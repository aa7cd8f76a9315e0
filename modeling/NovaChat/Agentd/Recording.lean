import NovaChat.Agentd.Metering
import Mathlib.Data.List.Nodup

/-!
# The record of a run

The recorded runner is the same runner, which also returns which completions it has asked for, which
it has received, and which rounds the conversation has taken up.  The usage that a run reports is
compared with all that was received, and its result with the rounds.
-/

namespace NovaChat

open Interact Prog

/-! ## Rounds whose calls are answered -/

/-- Each call is followed by exactly one output with its id. -/
def EachAnswered : List ResponseItem → Prop
  | [] => True
  | item :: items => (∀ callId ∈ item.announced, (answersOf items).count callId = 1) ∧
    EachAnswered items

instance decidableEachAnswered : ∀ items : List ResponseItem, Decidable (EachAnswered items)
  | [] => isTrue trivial
  | _ :: items => have := decidableEachAnswered items; inferInstanceAs (Decidable (_ ∧ _))

/-- Calls and outputs match within a round. -/
def RoundFormed (items : List ResponseItem) : Prop := Paired [] items ∧ EachAnswered items

instance (items : List ResponseItem) : Decidable (RoundFormed items) :=
  inferInstanceAs (Decidable (_ ∧ _))

section Rounds

variable {xs ys : List ResponseItem}

theorem eachAnswered_of_no_calls (h : callsOf xs = []) : EachAnswered xs := by
  induction xs with
  | nil => trivial
  | cons item xs ih =>
      rw [callsOf, List.flatMap_cons, List.append_eq_nil_iff] at h
      obtain ⟨hitem, hrest⟩ := h
      exact ⟨fun callId hcall ↦ absurd (hitem ▸ hcall) List.not_mem_nil, ih hrest⟩

theorem EachAnswered.count_le (h : EachAnswered (xs ++ ys)) {callId : String}
    (hcall : callId ∈ callsOf xs) : (answersOf ys).count callId ≤ 1 := by
  induction xs with
  | nil => cases hcall
  | cons item xs ih =>
      rw [List.cons_append, EachAnswered] at h
      rcases List.mem_append.mp hcall with hcall | hcall
      · have hone := h.1 callId hcall
        rw [answersOf_append, List.count_append] at hone
        omega
      · exact ih h.2 hcall

theorem eachAnswered_append (hno : answersOf xs = [])
    (honce : ∀ callId ∈ callsOf xs, (answersOf ys).count callId = 1) (hys : EachAnswered ys) :
    EachAnswered (xs ++ ys) := by
  induction xs with
  | nil => exact hys
  | cons item xs ih =>
      have hrest : answersOf xs = [] := by
        simp only [answersOf, List.filterMap_eq_nil_iff] at hno ⊢
        exact fun x hx ↦ hno x (List.mem_cons_of_mem _ hx)
      rw [List.cons_append, EachAnswered]
      refine ⟨fun callId hcall ↦ ?_, ih hrest fun callId hcall ↦
        honce callId (List.mem_append_right _ hcall)⟩
      rw [answersOf_append, hrest]
      exact honce callId (List.mem_append_left _ hcall)

/-- An output among the items of a round would be the second answer to its call. -/
theorem RoundFormed.answersOf_eq_nil (h : RoundFormed (xs ++ ys))
    (hanswers : answersOf ys = callsOf xs) : answersOf xs = [] := by
  refine List.filterMap_eq_nil_iff.mpr fun item hitem ↦ Option.eq_none_iff_forall_ne_some.mpr ?_
  intro callId hcall
  obtain ⟨before, after, rfl⟩ := List.append_of_mem hitem
  have hknown : callId ∈ callsOf before := by
    have hpaired := h.1 before item (after ++ ys) (by simp) callId hcall
    rwa [List.nil_append] at hpaired
  have hformed : EachAnswered (before ++ ([item] ++ (after ++ ys))) := by
    simpa using h.2
  have hcount := hformed.count_le hknown
  have hitem : 0 < (answersOf [item]).count callId :=
    List.count_pos_iff.mpr (mem_answersOf List.mem_cons_self hcall)
  have hys : 0 < (answersOf ys).count callId := by
    rw [hanswers, callsOf_append]
    exact List.count_pos_iff.mpr (List.mem_append_left _ hknown)
  simp only [answersOf_append, List.count_append] at hcount
  omega

/-- A round whose calls are carried out is well formed if its calls differ and it brings no outputs
of its own. -/
theorem roundFormed_iff (hanswers : answersOf ys = callsOf xs) (hcalls : callsOf ys = []) :
    RoundFormed (xs ++ ys) ↔ (callsOf xs).Nodup ∧ answersOf xs = [] := by
  constructor
  · intro h
    refine ⟨List.nodup_iff_count_le_one.mpr fun callId ↦ ?_, h.answersOf_eq_nil hanswers⟩
    by_cases hcall : callId ∈ callsOf xs
    · rw [← hanswers]
      exact h.2.count_le hcall
    · rw [List.count_eq_zero_of_not_mem hcall]
      exact Nat.zero_le _
  · rintro ⟨hnodup, hno⟩
    constructor
    · refine paired_append.mpr ⟨paired_of_known fun item hitem callId hcall ↦ ?_,
        paired_of_known fun item hitem callId hcall ↦ ?_⟩
      · have hmem := mem_answersOf hitem hcall
        rw [hno] at hmem
        cases hmem
      · rw [List.nil_append, ← hanswers]
        exact mem_answersOf hitem hcall
    · refine eachAnswered_append hno (fun callId hcall ↦ ?_) (eachAnswered_of_no_calls hcalls)
      rw [hanswers]
      exact List.count_eq_one_of_mem hnodup hcall

end Rounds

/-- A completion that ends for its tool calls has different ones and no outputs.  Another one
answers its calls itself. -/
def CompletionsOutcome.Orderly (outcome : CompletionsOutcome) : Prop :=
  if outcome.finish = .toolCalls then
    (callsOf outcome.items).Nodup ∧ answersOf outcome.items = []
  else RoundFormed outcome.items

instance (outcome : CompletionsOutcome) : Decidable outcome.Orderly := by
  unfold CompletionsOutcome.Orderly
  infer_instance

/-! ## The recorded runner -/

/-- How many completions were asked for, the ones received, and those that the conversation has
taken up, with the outputs of their tools. -/
structure RunLog where
  scheduled : ℕ := 0
  received : List CompletionsOutcome := []
  rounds : List (CompletionsOutcome × List ResponseItem) := []

namespace RunLog

variable (log : RunLog)

def schedule : RunLog := { log with scheduled := log.scheduled + 1 }

def receive (outcome : CompletionsOutcome) : RunLog :=
  { log with received := log.received ++ [outcome] }

def takeUp (outcome : CompletionsOutcome) (outputs : List ResponseItem) : RunLog :=
  { log with rounds := log.rounds ++ [(outcome, outputs)] }

/-- The items of all rounds in their order. -/
def items : List ResponseItem := log.rounds.flatMap fun r ↦ r.1.items ++ r.2

/-- What everything received has spent. -/
def spent : Usage := Usage.total (log.received.map CompletionsOutcome.usage)

end RunLog

namespace MockAgentRunner

variable (m : MockAgentRunner)

/-- One round up to the point where its completion is accepted. -/
def consult (task : AgentTask) (s : Loop) (log : RunLog) :
    SinkProg (RunLog × Except AgentError CompletionsOutcome) :=
  match request task s.conversation with
  | .error e => return (log, .error (.failed s!"context: {e.text}" s.usage))
  | .ok request => do
    match ← race (m.schedulePolls s.toolRounds) 0 (m.schedule s.toolRounds request) with
    | none => return (log.schedule, .error .superseded)
    | some (.error .superseded) => return (log.schedule, .error .superseded)
    | some (.error e) => return (log.schedule, .error (.failed e.text s.usage))
    | some (.ok outcome) =>
      match validateOutcome m.guard m.limits outcome with
      | .error e => return (log.schedule.receive outcome, .error (.failed e.text s.usage))
      | .ok () => return (log.schedule.receive outcome, .ok outcome)

/-- One turn of the loop, with the record before it. -/
def recordedRound (task : AgentTask) (s : Loop × RunLog) :
    SinkProg ((Loop × RunLog) ⊕ (RunLog × Except AgentError AgentOutcome)) := do
  match ← m.consult task s.1 s.2 with
  | (log, .error e) => return .inr (log, .error e)
  | (log, .ok outcome) =>
    match ← m.settle task s.1 outcome with
    | .inl s' =>
      let before := s.1.conversation ++ outcome.items
      return .inl (s', log.takeUp outcome (s'.conversation.drop before.length))
    | .inr result =>
      return .inr (if outcome.finish = .toolCalls then log else log.takeUp outcome [], result)

/-- Run a task for so many rounds at most; the record, and the result. -/
def recorded (task : AgentTask) (rounds : ℕ) : SinkProg (RunLog × Except AgentError AgentOutcome) :=
  Prog.iterate (m.recordedRound task) rounds ({ conversation := task.items }, {})

section Recorded

variable {m} {task : AgentTask}

/-- A run is the recorded run without its record. -/
theorem run_eq_recorded :
    m.run task = m.recorded task (task.maxToolRounds + 1) >>= fun r ↦ .ret r.2 := by
  refine Prog.iterate_map (f := Prod.fst) (g := Prod.snd) (fun s ↦ ?_) _
    (({ conversation := task.items } : Loop), ({} : RunLog))
  unfold round recordedRound consult
  cases request task s.1.conversation with
  | error e => rfl
  | ok request =>
      simp only [Prog.bind_assoc]
      congr 1
      funext answer
      rcases answer with _ | (e | outcome)
      · rfl
      · cases e <;> rfl
      dsimp only
      cases validateOutcome m.guard m.limits outcome with
      | error e => rfl
      | ok _ =>
          refine (bind_ret (m.settle task s.1 outcome)).symm.trans ?_
          simp only [pure_eq, Prog.ret_bind, Prog.bind_assoc]
          congr 1
          funext r
          cases r <;> rfl

/-! ## What holds before every round -/

/-- A completion that is received and not accepted, after so many rounds. -/
def Wasted (m : MockAgentRunner) (task : AgentTask) (rounds : ℕ) (outcome : CompletionsOutcome) :
    Prop :=
  (∃ e, validateOutcome m.guard m.limits outcome = .error e) ∨
    outcome.finish = .toolCalls ∧ rounds < task.maxToolRounds ∧ toolCalls outcome.items = []

theorem wasted_of_unusable {s : Loop} {outcome : CompletionsOutcome}
    (h : unusable task s outcome = true) : m.Wasted task s.toolRounds outcome := by
  simp only [unusable, Bool.and_eq_true, decide_eq_true_eq, List.isEmpty_iff] at h
  exact .inr h

/-- The record agrees with the variables of the loop. -/
structure Recorded (m : MockAgentRunner) (task : AgentTask) (s : Loop) (log : RunLog) : Prop where
  usage : s.usage = log.spent
  received : log.received = log.rounds.map Prod.fst
  toolRounds : s.toolRounds = log.received.length
  scheduled : log.scheduled = s.toolRounds
  allowed : s.toolRounds ≤ task.maxToolRounds
  conversation : s.conversation = task.items ++ log.items
  carriedOut : ∀ r ∈ log.rounds, r.1.finish = .toolCalls ∧ answersOf r.2 = callsOf r.1.items ∧
    callsOf r.2 = []
  accepted : ∀ earlier last, log.received = earlier ++ [last] → ¬ m.Wasted task earlier.length last

theorem recorded_start : m.Recorded task { conversation := task.items } {} where
  usage := rfl
  received := rfl
  toolRounds := rfl
  scheduled := rfl
  allowed := Nat.zero_le _
  conversation := (List.append_nil _).symm
  carriedOut := nofun
  accepted := by simp

variable {xs : List (Exchange SinkCall SinkCall.Reply)} {log : RunLog}

/-- A completion is not received, or received and refused, or received and accepted. -/
theorem path_consult {s : Loop} {log' : RunLog} {r : Except AgentError CompletionsOutcome}
    (h : Path (m.consult task s log) xs (log', r)) :
    (∃ e, r = .error e ∧ Charges s.usage e ∧ (log' = log ∨ log' = log.schedule)) ∨
      ∃ outcome, log' = log.schedule.receive outcome ∧
        ((∃ e, r = .error e ∧ Charges s.usage e ∧ m.Wasted task s.toolRounds outcome) ∨
          r = .ok outcome ∧ validateOutcome m.guard m.limits outcome = .ok ()) := by
  unfold consult at h
  split at h
  · obtain ⟨rfl, rfl⟩ := Prod.mk.inj (path_ret.mp h).2
    exact .inl ⟨_, rfl, charges_failed _ _, .inl rfl⟩
  obtain ⟨answer, ys, zs, rfl, -, h⟩ := path_bind.mp h
  rcases answer with _ | (e | outcome)
  · obtain ⟨rfl, rfl⟩ := Prod.mk.inj (path_ret.mp h).2
    exact .inl ⟨_, rfl, charges_superseded _, .inr rfl⟩
  · refine .inl ?_
    cases e <;> obtain ⟨rfl, rfl⟩ := Prod.mk.inj (path_ret.mp h).2 <;> first
      | exact ⟨_, rfl, charges_superseded _, .inr rfl⟩
      | exact ⟨_, rfl, charges_failed _ _, .inr rfl⟩
  · simp only at h
    split at h
    · next e hinvalid =>
        obtain ⟨rfl, rfl⟩ := Prod.mk.inj (path_ret.mp h).2
        exact .inr ⟨outcome, rfl, .inl ⟨_, rfl, charges_failed _ _, .inl ⟨e, hinvalid⟩⟩⟩
    · next hvalid =>
        obtain ⟨rfl, rfl⟩ := Prod.mk.inj (path_ret.mp h).2
        exact .inr ⟨outcome, rfl, .inr ⟨rfl, hvalid⟩⟩

/-- The loop goes on when the calls of a completion have been carried out. -/
theorem settle_goes_on {s s' : Loop} {outcome : CompletionsOutcome}
    (h : Path (m.settle task s outcome) xs (.inl s')) :
    outcome.finish = .toolCalls ∧ s.toolRounds < task.maxToolRounds ∧
      toolCalls outcome.items ≠ [] ∧ s'.toolRounds = s.toolRounds + 1 ∧
        ∃ outputs, s'.conversation = s.conversation ++ outcome.items ++ outputs ∧
          answersOf outputs = callsOf outcome.items ∧ callsOf outputs = [] := by
  unfold settle at h
  split at h
  · cases (path_ret.mp h).2
  · cases (path_ret.mp h).2
  · cases (path_ret.mp h).2
  next hfinish =>
    split at h
    · cases (path_ret.mp h).2
    next hrounds =>
      split at h
      · cases (path_ret.mp h).2
      next hcalls =>
        obtain ⟨answer, ys, zs, rfl, htools, hrest⟩ := path_bind.mp h
        cases answer with
        | error e => cases (path_ret.mp hrest).2
        | ok conversation =>
            obtain rfl := Sum.inl.inj (path_ret.mp hrest).2
            obtain ⟨outputs, rfl, hanswers, hno⟩ := path_callTools htools
            refine ⟨hfinish, not_le.mp hrounds, by simpa using hcalls, rfl, outputs, rfl, ?_, hno⟩
            rw [hanswers, ← callsOf_toolCalls]
            conv_rhs => rw [← List.zipIdx_map_fst 0 (toolCalls outcome.items)]
            rw [List.map_map]
            rfl

/-- The run ends well with the items of its last completion, or without them at the ceiling. -/
theorem settle_ends {s : Loop} {outcome : CompletionsOutcome} {result : AgentOutcome}
    (h : Path (m.settle task s outcome) xs (.inr (.ok result))) :
    (outcome.finish ≠ .toolCalls ∧
        result.items = (s.conversation ++ outcome.items).drop task.items.length) ∨
      outcome.finish = .toolCalls ∧ task.maxToolRounds ≤ s.toolRounds ∧
        result.items = s.conversation.drop task.items.length := by
  unfold settle at h
  split at h
  next hfinish =>
    obtain rfl := Except.ok.inj (Sum.inr.inj (path_ret.mp h).2)
    exact .inl ⟨by simp [hfinish], rfl⟩
  next hfinish =>
    obtain rfl := Except.ok.inj (Sum.inr.inj (path_ret.mp h).2)
    exact .inl ⟨by simp [hfinish], rfl⟩
  next hfinish =>
    obtain rfl := Except.ok.inj (Sum.inr.inj (path_ret.mp h).2)
    exact .inl ⟨by simp [hfinish], rfl⟩
  next hfinish =>
    split at h
    next hrounds =>
      obtain rfl := Except.ok.inj (Sum.inr.inj (path_ret.mp h).2)
      exact .inr ⟨hfinish, hrounds, rfl⟩
    · split at h
      · cases (path_ret.mp h).2
      · obtain ⟨answer, ys, zs, rfl, -, hrest⟩ := path_bind.mp h
        cases answer <;> cases (path_ret.mp hrest).2

/-- Completions that are received and accepted are settled. -/
theorem path_recordedRound {s : Loop}
    {r : (Loop × RunLog) ⊕ (RunLog × Except AgentError AgentOutcome)}
    (h : Path (m.recordedRound task (s, log)) xs r) :
    (∃ e log', r = .inr (log', .error e) ∧ Charges s.usage e ∧
        (log' = log ∨ log' = log.schedule)) ∨
      (∃ e outcome, r = .inr (log.schedule.receive outcome, .error e) ∧ Charges s.usage e ∧
        m.Wasted task s.toolRounds outcome) ∨
      ∃ outcome ys settled, validateOutcome m.guard m.limits outcome = .ok () ∧
        Path (m.settle task s outcome) ys settled ∧ r = settled.map
          (fun s' ↦ (s', (log.schedule.receive outcome).takeUp outcome
            (s'.conversation.drop (s.conversation ++ outcome.items).length)))
          (fun result ↦ (if outcome.finish = .toolCalls then log.schedule.receive outcome
            else (log.schedule.receive outcome).takeUp outcome [], result)) := by
  obtain ⟨⟨log', answer⟩, ys, zs, rfl, hconsult, hrest⟩ := path_bind.mp h
  rcases path_consult hconsult with
    ⟨e, rfl, hcharges, hlog⟩ | ⟨outcome, rfl, ⟨e, rfl, hcharges, hwasted⟩ | ⟨rfl, hvalid⟩⟩
  · exact .inl ⟨e, log', (path_ret.mp hrest).2, hcharges, hlog⟩
  · exact .inr (.inl ⟨e, outcome, (path_ret.mp hrest).2, hcharges, hwasted⟩)
  · obtain ⟨settled, us, vs, rfl, hsettle, hrest⟩ := path_bind.mp hrest
    refine .inr (.inr ⟨outcome, us, settled, hvalid, hsettle, ?_⟩)
    rcases settled with s' | result <;> exact (path_ret.mp hrest).2

theorem spent_receive (outcome : CompletionsOutcome) :
    (log.receive outcome).spent = log.spent.accumulate outcome.usage := by
  simp [RunLog.spent, RunLog.receive, Usage.total_snoc]

theorem items_takeUp (outcome : CompletionsOutcome) (outputs : List ResponseItem) :
    (log.takeUp outcome outputs).items = log.items ++ (outcome.items ++ outputs) := by
  simp [RunLog.items, RunLog.takeUp]

theorem not_wasted_of_usable {s : Loop} {outcome : CompletionsOutcome}
    (hvalid : validateOutcome m.guard m.limits outcome = .ok ())
    (husable : unusable task s outcome = false) : ¬ m.Wasted task s.toolRounds outcome := by
  rintro (⟨e, hinvalid⟩ | ⟨hfinish, hrounds, hno⟩)
  · rw [hvalid] at hinvalid
    cases hinvalid
  · simp [unusable, hfinish, hrounds, hno] at husable

theorem toolRounds_next {s s' : Loop} {log' : RunLog}
    (h : Path (m.recordedRound task (s, log)) xs (.inl (s', log'))) :
    s'.toolRounds = s.toolRounds + 1 := by
  rcases path_recordedRound h with
    ⟨e, _, heq, -⟩ | ⟨e, outcome, heq, -⟩ | ⟨outcome, ys, settled, -, hsettle, heq⟩
  · cases heq
  · cases heq
  rcases settled with s'' | result
  · obtain ⟨rfl, -⟩ := Prod.mk.inj (Sum.inl.inj heq)
    exact (settle_goes_on hsettle).2.2.2.1
  · cases heq

/-- Every round but the last keeps the record in agreement. -/
theorem Recorded.next {s s' : Loop} {log' : RunLog} (hs : m.Recorded task s log)
    (h : Path (m.recordedRound task (s, log)) xs (.inl (s', log'))) : m.Recorded task s' log' := by
  rcases path_recordedRound h with
    ⟨e, _, heq, -⟩ | ⟨e, outcome, heq, -⟩ | ⟨outcome, ys, settled, hvalid, hsettle, heq⟩
  · cases heq
  · cases heq
  rcases settled with s'' | result
  · obtain ⟨rfl, rfl⟩ := Prod.mk.inj (Sum.inl.inj heq)
    obtain ⟨hfinish, hrounds, hcalls, htoolRounds, outputs, hconversation, hanswers, hno⟩ :=
      settle_goes_on hsettle
    have husable : unusable task s outcome = false := by
      simp [unusable, hcalls]
    have hdrop : s'.conversation.drop (s.conversation ++ outcome.items).length = outputs := by
      rw [hconversation, List.drop_left]
    rw [hdrop]
    constructor
    · rw [(settle_counts husable hsettle).1 s' rfl, hs.usage]
      exact (spent_receive outcome).symm
    · simp [RunLog.takeUp, RunLog.receive, RunLog.schedule, hs.received]
    · simp [RunLog.takeUp, RunLog.receive, RunLog.schedule, htoolRounds, hs.toolRounds]
    · simp [RunLog.takeUp, RunLog.receive, RunLog.schedule, htoolRounds, hs.scheduled]
    · exact htoolRounds ▸ hrounds
    · rw [items_takeUp, hconversation, hs.conversation]
      simp [RunLog.receive, RunLog.schedule, RunLog.items]
    · intro r hr
      rcases List.mem_append.mp hr with hr | hr
      · exact hs.carriedOut r hr
      · obtain rfl := List.mem_singleton.mp hr
        exact ⟨hfinish, hanswers, hno⟩
    · intro earlier last hlast
      obtain ⟨hearlier, hone⟩ := List.append_inj' hlast rfl
      obtain rfl := List.singleton_inj.mp hone
      rw [← hearlier]
      exact hs.toolRounds ▸ not_wasted_of_usable hvalid husable
  · cases heq

/-! ## What holds at the end -/

/-- What is reported is all that was received, but for a last completion that was wasted. -/
def Reports (m : MockAgentRunner) (task : AgentTask) (received : List CompletionsOutcome)
    (u : Usage) : Prop :=
  (u = Usage.total (received.map CompletionsOutcome.usage) ∧
      ∀ earlier last, received = earlier ++ [last] → ¬ m.Wasted task earlier.length last) ∨
    ∃ earlier last, received = earlier ++ [last] ∧ m.Wasted task earlier.length last ∧
      u = Usage.total (earlier.map CompletionsOutcome.usage)

/-- What a run returns is made of its rounds.  Only the last completion may be left out, when the
rounds are used up. -/
structure Returns (task : AgentTask) (log : RunLog) (outcome : AgentOutcome) : Prop where
  items : outcome.items = log.items
  received : log.received = log.rounds.map Prod.fst ∨
    ∃ last, log.received = log.rounds.map Prod.fst ++ [last] ∧ last.finish = .toolCalls ∧
      task.maxToolRounds ≤ log.rounds.length
  rounds : ∀ r ∈ log.rounds,
    if r.1.finish = .toolCalls then answersOf r.2 = callsOf r.1.items ∧ callsOf r.2 = []
    else r.2 = []

theorem Recorded.scheduled_le {s : Loop} {log' : RunLog}
    {result : Except AgentError AgentOutcome} (hs : m.Recorded task s log)
    (h : Path (m.recordedRound task (s, log)) xs (.inr (log', result))) :
    log'.scheduled ≤ task.maxToolRounds + 1 := by
  have hallowed := hs.allowed
  have hscheduled := hs.scheduled
  have hone : log.schedule.scheduled = log.scheduled + 1 := rfl
  rcases path_recordedRound h with
    ⟨e, _, heq, -, rfl | rfl⟩ | ⟨e, outcome, heq, -⟩ | ⟨outcome, ys, settled, -, -, heq⟩
  · obtain ⟨rfl, -⟩ := Prod.mk.inj (Sum.inr.inj heq)
    omega
  · obtain ⟨rfl, -⟩ := Prod.mk.inj (Sum.inr.inj heq)
    omega
  · obtain ⟨rfl, -⟩ := Prod.mk.inj (Sum.inr.inj heq)
    change log.scheduled + 1 ≤ _
    omega
  · rcases settled with s' | result'
    · cases heq
    · obtain ⟨rfl, -⟩ := Prod.mk.inj (Sum.inr.inj heq)
      split_ifs <;> change log.scheduled + 1 ≤ _ <;> omega

theorem Recorded.reports {s : Loop} {log' : RunLog} {result : Except AgentError AgentOutcome}
    {u : Usage} (hs : m.Recorded task s log)
    (h : Path (m.recordedRound task (s, log)) xs (.inr (log', result)))
    (hu : reported result = some u) : m.Reports task log'.received u := by
  have hreceived : ∀ outcome, (log.schedule.receive outcome).received = log.received ++ [outcome] :=
    fun _ ↦ rfl
  rcases path_recordedRound h with
    ⟨e, _, heq, hcharges, hlog⟩ | ⟨e, outcome, heq, hcharges, hwasted⟩ |
      ⟨outcome, ys, settled, hvalid, hsettle, heq⟩
  · obtain ⟨rfl, rfl⟩ := Prod.mk.inj (Sum.inr.inj heq)
    have hsame : log'.received = log.received := by
      rcases hlog with rfl | rfl <;> rfl
    rw [hsame]
    exact .inl ⟨(hcharges u hu).trans hs.usage, hs.accepted⟩
  · obtain ⟨rfl, rfl⟩ := Prod.mk.inj (Sum.inr.inj heq)
    exact .inr ⟨log.received, outcome, hreceived outcome, hs.toolRounds ▸ hwasted,
      (hcharges u hu).trans hs.usage⟩
  · rcases settled with s' | result'
    · cases heq
    obtain ⟨rfl, rfl⟩ := Prod.mk.inj (Sum.inr.inj heq)
    have hsame : (if outcome.finish = .toolCalls then log.schedule.receive outcome
        else (log.schedule.receive outcome).takeUp outcome []).received =
          log.received ++ [outcome] := by
      split_ifs <;> rfl
    rw [hsame]
    by_cases hunusable : unusable task s outcome = true
    · refine .inr ⟨_, _, rfl, hs.toolRounds ▸ wasted_of_unusable hunusable, ?_⟩
      rw [settle_of_unusable hunusable] at hsettle
      obtain rfl := Sum.inr.inj (path_ret.mp hsettle).2
      exact (charges_failed _ _ u hu).trans hs.usage
    · rw [Bool.not_eq_true] at hunusable
      refine .inl ⟨?_, fun earlier last hlast ↦ ?_⟩
      · rw [(settle_counts hunusable hsettle).2 result u rfl hu, hs.usage]
        exact (spent_receive outcome).symm
      · obtain ⟨rfl, hone⟩ := List.append_inj' hlast rfl
        obtain rfl := List.singleton_inj.mp hone
        exact hs.toolRounds ▸ not_wasted_of_usable hvalid hunusable

theorem Recorded.returns {s : Loop} {log' : RunLog} {outcome : AgentOutcome}
    (hs : m.Recorded task s log)
    (h : Path (m.recordedRound task (s, log)) xs (.inr (log', .ok outcome))) :
    Returns task log' outcome := by
  have hcarried : ∀ r ∈ log.rounds,
      if r.1.finish = .toolCalls then answersOf r.2 = callsOf r.1.items ∧ callsOf r.2 = []
      else r.2 = [] := by
    intro r hr
    rw [if_pos (hs.carriedOut r hr).1]
    exact (hs.carriedOut r hr).2
  rcases path_recordedRound h with
    ⟨e, _, heq, -⟩ | ⟨e, _, heq, -⟩ | ⟨completion, ys, settled, -, hsettle, heq⟩
  · cases (Prod.mk.inj (Sum.inr.inj heq)).2
  · cases (Prod.mk.inj (Sum.inr.inj heq)).2
  rcases settled with s' | result'
  · cases heq
  obtain ⟨rfl, rfl⟩ := Prod.mk.inj (Sum.inr.inj heq)
  rcases settle_ends hsettle with ⟨hfinish, hitems⟩ | ⟨hfinish, hrounds, hitems⟩
  · rw [if_neg hfinish]
    constructor
    · rw [hitems, hs.conversation, items_takeUp, List.append_nil, List.append_assoc, List.drop_left]
      rfl
    · left
      simp [RunLog.takeUp, RunLog.receive, RunLog.schedule, hs.received]
    · intro r hr
      rcases List.mem_append.mp hr with hr | hr
      · exact hcarried r hr
      · obtain rfl := List.mem_singleton.mp hr
        rw [if_neg hfinish]
  · rw [if_pos hfinish]
    constructor
    · rw [hitems, hs.conversation, List.drop_left]
      rfl
    · refine .inr ⟨completion, ?_, hfinish, ?_⟩
      · simp [RunLog.receive, RunLog.schedule, hs.received]
      · rw [hs.toolRounds, hs.received, List.length_map] at hrounds
        exact hrounds
    · exact hcarried

/-! ## Whole runs -/

variable {rounds : ℕ} {result : Except AgentError AgentOutcome}

theorem path_run_iff : Path (m.run task) xs result ↔
    ∃ log, Path (m.recorded task (task.maxToolRounds + 1)) xs (log, result) := by
  rw [run_eq_recorded]
  constructor
  · intro h
    obtain ⟨⟨log, result'⟩, ys, zs, rfl, hrecorded, hrest⟩ := path_bind.mp h
    obtain ⟨rfl, rfl⟩ := path_ret.mp hrest
    exact ⟨log, by rwa [List.append_nil]⟩
  · rintro ⟨log, h⟩
    exact path_bind.mpr ⟨_, xs, [], (List.append_nil _).symm, h, path_ret.mpr ⟨rfl, rfl⟩⟩

/-- However many rounds it is given, a run takes no more than its tool rounds and one. -/
theorem path_recorded_le (h : Path (m.recorded task rounds) xs (log, result)) :
    Path (m.recorded task (task.maxToolRounds + 1)) xs (log, result) := by
  have hloop : ∀ (n : ℕ) (s : Loop) (log₀ : RunLog) xs, m.Recorded task s log₀ →
      Path (Prog.iterate (m.recordedRound task) n (s, log₀)) xs (log, result) →
        Path (Prog.iterate (m.recordedRound task) (task.maxToolRounds - s.toolRounds + 1) (s, log₀))
          xs (log, result) := by
    intro n
    induction n with
    | zero => exact fun s log₀ xs _ h ↦ (path_stall h).elim
    | succ n ih =>
        intro s log₀ xs hs h
        obtain ⟨r, ys, zs, rfl, hround, hrest⟩ := path_bind.mp h
        refine path_bind.mpr ⟨r, ys, zs, rfl, hround, ?_⟩
        rcases r with ⟨s', log'⟩ | r
        · have hs' := hs.next hround
          have hlater := ih s' log' zs hs' hrest
          have hrounds : task.maxToolRounds - s.toolRounds =
              task.maxToolRounds - s'.toolRounds + 1 := by
            have hone := toolRounds_next hround
            have hallowed := hs'.allowed
            omega
          rwa [hrounds]
        · exact hrest
  exact hloop rounds _ _ xs recorded_start h

theorem scheduled_le (h : Path (m.recorded task rounds) xs (log, result)) :
    log.scheduled ≤ task.maxToolRounds + 1 :=
  Path.iterate_inv (fun s : Loop × RunLog ↦ m.Recorded task s.1 s.2)
    (fun r ↦ r.1.scheduled ≤ task.maxToolRounds + 1) (fun _ _ _ hs h ↦ hs.next h)
    (fun _ _ _ hs h ↦ hs.scheduled_le h) _ _ _ _ recorded_start h

theorem reports_of_recorded (h : Path (m.recorded task rounds) xs (log, result)) {u : Usage}
    (hu : reported result = some u) : m.Reports task log.received u :=
  Path.iterate_inv (fun s : Loop × RunLog ↦ m.Recorded task s.1 s.2)
    (fun r ↦ ∀ u, reported r.2 = some u → m.Reports task r.1.received u)
    (fun _ _ _ hs h ↦ hs.next h) (fun _ _ _ hs h _ hu ↦ hs.reports h hu) _ _ _ _ recorded_start h
    u hu

theorem returns_of_recorded {outcome : AgentOutcome}
    (h : Path (m.recorded task rounds) xs (log, .ok outcome)) : Returns task log outcome := by
  refine Path.iterate_inv (fun s : Loop × RunLog ↦ m.Recorded task s.1 s.2)
    (fun r ↦ ∀ outcome, r.2 = .ok outcome → Returns task r.1 outcome)
    (fun _ _ _ hs h ↦ hs.next h) ?_ _ _ _ _ recorded_start h outcome rfl
  rintro s ys ⟨log', result⟩ hs hpath out rfl
  exact hs.returns hpath

/-- The calls of every round are answered in it, and the rounds are few enough. -/
structure LoopFormed (task : AgentTask) (log : RunLog) (result : Except AgentError AgentOutcome) :
    Prop where
  scheduled : log.scheduled ≤ task.maxToolRounds + 1
  returned : ∀ outcome, result = .ok outcome →
    Returns task log outcome ∧ ∀ r ∈ log.rounds, RoundFormed (r.1.items ++ r.2)

theorem Returns.roundFormed_iff {outcome : AgentOutcome} (h : Returns task log outcome)
    {r : CompletionsOutcome × List ResponseItem} (hr : r ∈ log.rounds) :
    RoundFormed (r.1.items ++ r.2) ↔ r.1.Orderly := by
  have hround := h.rounds r hr
  rw [CompletionsOutcome.Orderly]
  split_ifs at hround ⊢
  · exact NovaChat.roundFormed_iff hround.1 hround.2
  · rw [hround, List.append_nil]

/-- A run is well formed if the completions it has taken up are orderly. -/
theorem loopFormed_iff (h : Path (m.recorded task rounds) xs (log, result)) :
    LoopFormed task log result ↔
      ∀ outcome, result = .ok outcome → ∀ r ∈ log.rounds, r.1.Orderly := by
  constructor
  · rintro ⟨-, hreturned⟩ outcome rfl r hr
    obtain ⟨hreturns, hformed⟩ := hreturned outcome rfl
    exact (hreturns.roundFormed_iff hr).mp (hformed r hr)
  · intro horderly
    refine ⟨scheduled_le h, fun outcome heq ↦ ?_⟩
    have hreturns := returns_of_recorded (heq ▸ h)
    exact ⟨hreturns, fun r hr ↦ (hreturns.roundFormed_iff hr).mpr (horderly outcome heq r hr)⟩

/-- What a run reports is all that was spent, unless it has wasted a completion that costs. -/
theorem reported_eq_spent_iff (h : Path (m.recorded task rounds) xs (log, result)) {u : Usage}
    (hu : reported result = some u) : u = log.spent ↔
      ∀ earlier last, log.received = earlier ++ [last] → m.Wasted task earlier.length last →
        (Usage.total (earlier.map CompletionsOutcome.usage)).accumulate last.usage =
          Usage.total (earlier.map CompletionsOutcome.usage) := by
  rcases reports_of_recorded h hu with ⟨hspent, hused⟩ | ⟨earlier, last, heq, hwasted, hu⟩
  · exact ⟨fun _ earlier last heq hwasted ↦ absurd hwasted (hused earlier last heq),
      fun _ ↦ hspent⟩
  · have hspent : log.spent =
        (Usage.total (earlier.map CompletionsOutcome.usage)).accumulate last.usage := by
      rw [RunLog.spent, heq, List.map_append, List.map_singleton, Usage.total_snoc]
    rw [hspent, hu]
    constructor
    · intro hsame earlier' last' heq' _
      obtain ⟨rfl, hone⟩ := List.append_inj' (heq.symm.trans heq') rfl
      obtain rfl := List.singleton_inj.mp hone
      exact hsame.symm
    · exact fun hnothing ↦ (hnothing earlier last heq hwasted).symm

end Recorded

end MockAgentRunner

/-! ## Two schedulers -/

namespace Sample

def asked : AgentTask where
  params := { model := "model" }
  items := [ResponseItem.userText "hi"]
  provenance := ⟨⟨node, ⟨0⟩⟩, Attempt.unclaimed.next, 0⟩
  maxToolRounds := 1

/-- A scheduler whose completions all are the same. -/
def always (outcome : CompletionsOutcome) : MockAgentRunner where
  schedule _ _ := .ret (.ok outcome)
  callTool _ _ _ _ := .ok "42"
  guard _ _ := .ok ()

/-- An output for a call that nobody made. -/
def unasked : CompletionsOutcome :=
  ⟨[.functionCallOutput "call-1" "42" none none], ⟨7, 3⟩, .stop⟩

def fortyTwo : CompletionsOutcome :=
  ⟨[.message .assistant [.outputText "42"] none none], ⟨7, 3⟩, .stop⟩

/-- A message without content. -/
def hollow : CompletionsOutcome := ⟨[.message .assistant [] none none], ⟨7, 3⟩, .stop⟩

def logOf (outcome : CompletionsOutcome) : RunLog where
  scheduled := 1
  received := [outcome]
  rounds := [(outcome, [])]

theorem recorded_unasked : Path ((always unasked).recorded asked 2) []
    (logOf unasked, .ok ⟨unasked.items, ⟨7, 3⟩, .completed⟩) :=
  path_ret.mpr ⟨rfl, rfl⟩

theorem recorded_fortyTwo : Path ((always fortyTwo).recorded asked 2) []
    (logOf fortyTwo, .ok ⟨fortyTwo.items, ⟨7, 3⟩, .completed⟩) :=
  path_ret.mpr ⟨rfl, rfl⟩

theorem recorded_hollow : Path ((always hollow).recorded asked 2) []
    ({ scheduled := 1, received := [hollow] }, .error (.failed
      "scheduler produced an invalid item: message content must not be empty" {})) :=
  path_ret.mpr ⟨rfl, rfl⟩

end Sample

theorem loopFormed_iff_fortyTwo :
    MockAgentRunner.LoopFormed Sample.asked (Sample.logOf Sample.fortyTwo)
    (.ok ⟨Sample.fortyTwo.items, ⟨7, 3⟩, .completed⟩) :=
  (MockAgentRunner.loopFormed_iff Sample.recorded_fortyTwo).mpr fun _ _ ↦ by decide

/-- An output without a call is returned. -/
theorem unasked_returned : ¬ ∀ (m : MockAgentRunner) (task : AgentTask) (rounds : ℕ)
    (xs : List (Exchange SinkCall SinkCall.Reply)) (log : RunLog)
    (result : Except AgentError AgentOutcome), Path (m.recorded task rounds) xs (log, result) →
      MockAgentRunner.LoopFormed task log result := by
  intro hclaim
  have hformed := ((hclaim _ _ _ _ _ _ Sample.recorded_unasked).returned _ rfl).2
  exact absurd hformed (by decide)

theorem reported_eq_spent_iff_fortyTwo : (⟨7, 3⟩ : Usage) = (Sample.logOf Sample.fortyTwo).spent :=
  (MockAgentRunner.reported_eq_spent_iff Sample.recorded_fortyTwo rfl).mpr (by
    intro earlier last heq hwasted
    replace heq : [] ++ [Sample.fortyTwo] = earlier ++ [last] := heq
    obtain ⟨rfl, hone⟩ := List.append_inj' heq rfl
    obtain rfl := List.singleton_inj.mp hone
    rcases hwasted with ⟨e, hinvalid⟩ | ⟨hfinish, -⟩
    · cases hinvalid
    · cases hfinish)

/-- Ten tokens for a completion that is refused are not reported. -/
theorem hollow_unreported : ¬ ∀ (m : MockAgentRunner) (task : AgentTask) (rounds : ℕ)
    (xs : List (Exchange SinkCall SinkCall.Reply)) (log : RunLog)
    (result : Except AgentError AgentOutcome) (u : Usage),
      Path (m.recorded task rounds) xs (log, result) → reported result = some u →
        u = log.spent := by
  intro hclaim
  exact absurd (hclaim _ _ _ _ _ _ {} Sample.recorded_hollow rfl) (by decide)

end NovaChat
