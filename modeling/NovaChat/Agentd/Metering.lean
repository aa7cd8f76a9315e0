import NovaChat.Agentd.Runner
import Mathlib.Data.List.Induction

/-!
# What a run spends

The runner counts the usage of every completion it accepts in a local variable, and reports it with
its result.  The metered runner is the same runner, which also returns what it has counted, whatever
becomes of the run.
-/

namespace NovaChat

open Interact Prog

/-! ## Sums of usage -/

namespace Usage

/-- What several completions spent. -/
def total (us : List Usage) : Usage := us.foldl accumulate {}

/-- No more than another usage, in either count. -/
def Within (u v : Usage) : Prop :=
  u.inputTokens ≤ v.inputTokens ∧ u.outputTokens ≤ v.outputTokens

instance (u v : Usage) : Decidable (u.Within v) :=
  inferInstanceAs (Decidable (_ ∧ _))

theorem total_snoc (us : List Usage) (u : Usage) :
    total (us ++ [u]) = (total us).accumulate u := by
  simp [total]

theorem within_zero {u : Usage} : u.Within {} ↔ u = {} := by
  constructor
  · rintro ⟨hinput, houtput⟩
    cases u
    simp_all
  · rintro rfl
    exact ⟨le_rfl, le_rfl⟩

theorem isZero_zero : ({} : Usage).isZero = true := rfl

theorem accumulate_eq_zero {u v : Usage} : u.accumulate v = {} ↔ u = {} ∧ v = {} := by
  have hadd : ∀ a b : ℕ, satAdd a b = 0 ↔ a = 0 ∧ b = 0 := by
    intro a b
    simp only [satAdd, u64Max]
    omega
  cases u
  cases v
  simp only [accumulate, Usage.mk.injEq, hadd]
  tauto

theorem total_eq_zero {us : List Usage} : total us = {} ↔ ∀ u ∈ us, u = {} := by
  induction us using List.reverseRecOn with
  | nil => simp [total]
  | append_singleton us u ih =>
      rw [total_snoc, accumulate_eq_zero, ih]
      simp [or_imp, forall_and]

end Usage

/-- What a run says it has spent.  A superseded one says nothing. -/
def reported : Except AgentError AgentOutcome → Option Usage
  | .ok outcome => some outcome.usage
  | .error (.failed _ usage) => some usage
  | .error .superseded => none

namespace MockAgentRunner

variable (m : MockAgentRunner)

/-! ## The metered runner -/

/-- A completion that ends for its tool calls and has none. -/
def unusable (task : AgentTask) (s : Loop) (outcome : CompletionsOutcome) : Bool :=
  outcome.finish = .toolCalls && (s.toolRounds < task.maxToolRounds &&
    (toolCalls outcome.items).isEmpty)

/-- One round up to the point where its usage is counted. -/
def completion (task : AgentTask) (s : Loop) : SinkProg (Except AgentError CompletionsOutcome) :=
  match request task s.conversation with
  | .error e => return .error (.failed s!"context: {e.text}" s.usage)
  | .ok request => do
    match ← race (m.schedulePolls s.toolRounds) 0 (m.schedule s.toolRounds request) with
    | none => return .error .superseded
    | some (.error .superseded) => return .error .superseded
    | some (.error e) => return .error (.failed e.text s.usage)
    | some (.ok outcome) =>
      match validateOutcome m.guard m.limits outcome with
      | .error e => return .error (.failed e.text s.usage)
      | .ok () =>
        if unusable task s outcome then
          return .error (.failed "finish=ToolCalls but no tool calls were produced" s.usage)
        else return .ok outcome

/-- Go on after a completion, or end with the error it ended with. -/
def proceed (task : AgentTask) (s : Loop) :
    Except AgentError CompletionsOutcome → SinkProg (Loop ⊕ Except AgentError AgentOutcome)
  | .error e => return .inr (.error e)
  | .ok outcome => m.settle task s outcome

/-- One turn of the loop, with the usages counted before it. -/
def meteredRound (task : AgentTask) (s : Loop × List Usage) :
    SinkProg ((Loop × List Usage) ⊕ (List Usage × Except AgentError AgentOutcome)) := do
  match ← m.completion task s.1 with
  | .error e => return .inr (s.2, .error e)
  | .ok outcome =>
    let counted := s.2 ++ [outcome.usage]
    match ← m.settle task s.1 outcome with
    | .inl s' => return .inl (s', counted)
    | .inr result => return .inr (counted, result)

/-- Run a task to its end; the usages counted on the way, and the result. -/
def metered (task : AgentTask) : SinkProg (List Usage × Except AgentError AgentOutcome) :=
  Prog.iterate (m.meteredRound task) (task.maxToolRounds + 1) ({ conversation := task.items }, [])

section Metered

variable {m} {task : AgentTask}

theorem settle_of_unusable {s : Loop} {outcome : CompletionsOutcome}
    (h : unusable task s outcome = true) : m.settle task s outcome =
      .ret (.inr (.error
        (.failed "finish=ToolCalls but no tool calls were produced" s.usage))) := by
  simp only [unusable, Bool.and_eq_true, decide_eq_true_eq] at h
  obtain ⟨hfinish, hrounds, hcalls⟩ := h
  rw [settle, hfinish]
  simp only [if_neg (not_le.mpr hrounds), hcalls, if_true]
  rfl

theorem round_eq (s : Loop) :
    m.round task s = m.completion task s >>= m.proceed task s := by
  unfold round completion
  cases request task s.conversation with
  | error e => rfl
  | ok request =>
      simp only [Prog.bind_assoc]
      congr 1
      funext answer
      rcases answer with _ | (e | outcome)
      · rfl
      · cases e <;> rfl
      dsimp only
      cases validateOutcome m.guard m.limits outcome with
      | error e => rfl
      | ok _ =>
          by_cases h : unusable task s outcome = true
          · simp only [h, if_true]
            exact settle_of_unusable h
          · simp only [h]
            rfl

/-- A run is the metered run without its meter. -/
theorem run_eq_metered : m.run task = m.metered task >>= fun r ↦ .ret r.2 := by
  refine Prog.iterate_map (f := Prod.fst) (g := Prod.snd) (fun s ↦ ?_) _
    (({ conversation := task.items } : Loop), ([] : List Usage))
  rw [round_eq, meteredRound, Prog.bind_assoc]
  congr 1
  funext answer
  cases answer with
  | error e => rfl
  | ok outcome =>
      simp only [proceed, Prog.bind_assoc]
      refine (bind_ret (m.settle task s.1 outcome)).symm.trans ?_
      congr 1
      funext r
      cases r <;> rfl

/-! ## What a run reports -/

variable {xs : List (Exchange SinkCall SinkCall.Reply)}

/-- An error that reports usage reports this one. -/
def Charges (usage : Usage) (e : AgentError) : Prop :=
  ∀ u, reported (.error e) = some u → u = usage

theorem charges_failed (message : String) (usage : Usage) :
    Charges usage (.failed message usage) :=
  fun _ h ↦ (Option.some.inj h).symm

theorem charges_superseded (usage : Usage) : Charges usage .superseded := nofun

theorem charges_announce {item : ResponseItem} {usage : Usage} {e : AgentError}
    (h : Path (announce item usage) xs (.error e)) : Charges usage e := by
  obtain ⟨added, ys, -, hadded⟩ := path_call.mp h
  rcases added with e | (_ | _)
  · obtain ⟨-, heq⟩ := path_ret.mp hadded
    exact Except.error.inj heq ▸ charges_failed _ usage
  · obtain ⟨done, zs, -, hdone⟩ := path_call.mp hadded
    rcases done with e | (_ | _)
    · obtain ⟨-, heq⟩ := path_ret.mp hdone
      exact Except.error.inj heq ▸ charges_failed _ usage
    · cases (path_ret.mp hdone).2
    · obtain ⟨-, heq⟩ := path_ret.mp hdone
      exact Except.error.inj heq ▸ charges_superseded usage
  · obtain ⟨-, heq⟩ := path_ret.mp hadded
    exact Except.error.inj heq ▸ charges_superseded usage

theorem charges_callTools {round : ℕ} {usage : Usage} {e : AgentError}
    {calls : List ((String × String × String) × ℕ)} : ∀ {conversation : List ResponseItem}
    {xs : List (Exchange SinkCall SinkCall.Reply)},
    Path (m.callTools round usage calls conversation) xs (.error e) → Charges usage e := by
  induction calls with
  | nil => exact fun h ↦ by cases (path_ret.mp h).2
  | cons call calls ih =>
      intro conversation xs h
      obtain ⟨⟨callId, name, arguments⟩, position⟩ := call
      obtain heq | ⟨_, heq⟩ | ⟨output, _, ys, zs, hannounce, ⟨e', rfl, heq⟩ | ⟨-, h⟩⟩ :=
        path_callTools_cons h
      · exact Except.error.inj heq ▸ charges_superseded usage
      · exact Except.error.inj heq ▸ charges_failed _ usage
      · exact Except.error.inj heq ▸ charges_announce hannounce
      · exact ih h

/-- What a completion spent is counted when the loop goes on, and when it ends. -/
theorem settle_counts {s : Loop} {outcome : CompletionsOutcome}
    (husable : unusable task s outcome = false) {r : Loop ⊕ Except AgentError AgentOutcome}
    (h : Path (m.settle task s outcome) xs r) :
    (∀ s', r = .inl s' → s'.usage = s.usage.accumulate outcome.usage) ∧
      ∀ result u, r = .inr result → reported result = some u →
        u = s.usage.accumulate outcome.usage := by
  have hdone : ∀ {conversation status}, r = .inr
      (outcomeOf task conversation (s.usage.accumulate outcome.usage) status) →
      (∀ s', r = .inl s' → s'.usage = s.usage.accumulate outcome.usage) ∧
        ∀ result u, r = .inr result → reported result = some u →
          u = s.usage.accumulate outcome.usage := by
    rintro conversation status rfl
    refine ⟨nofun, fun result u heq hu ↦ ?_⟩
    rw [← Sum.inr.inj heq] at hu
    exact (Option.some.inj hu).symm
  unfold settle at h
  split at h
  · exact hdone (path_ret.mp h).2
  · exact hdone (path_ret.mp h).2
  · exact hdone (path_ret.mp h).2
  next hfinish =>
    split at h
    · exact hdone (path_ret.mp h).2
    next hrounds =>
      split at h
      · next hcalls =>
          simp [unusable, hfinish, not_le.mp hrounds, hcalls] at husable
      · obtain ⟨answer, ys, zs, rfl, htools, hrest⟩ := path_bind.mp h
        cases answer with
        | error e =>
            obtain ⟨-, rfl⟩ := path_ret.mp hrest
            refine ⟨nofun, fun result u heq hu ↦ ?_⟩
            rw [← Sum.inr.inj heq] at hu
            exact charges_callTools htools u hu
        | ok conversation =>
            obtain ⟨-, rfl⟩ := path_ret.mp hrest
            exact ⟨fun s' heq ↦ by rw [← Sum.inl.inj heq], nofun⟩

/-- A completion is refused with what was spent before it, and is usable when it is accepted. -/
theorem path_completion {s : Loop} {r : Except AgentError CompletionsOutcome}
    (h : Path (m.completion task s) xs r) :
    (∃ e, r = .error e ∧ Charges s.usage e) ∨
      ∃ outcome, r = .ok outcome ∧ unusable task s outcome = false := by
  unfold completion at h
  split at h
  · exact Or.inl ⟨_, (path_ret.mp h).2, charges_failed _ _⟩
  obtain ⟨answer, ys, zs, rfl, -, h⟩ := path_bind.mp h
  rcases answer with _ | (e | outcome)
  · exact Or.inl ⟨_, (path_ret.mp h).2, charges_superseded _⟩
  · refine Or.inl ?_
    cases e <;> first
      | exact ⟨_, (path_ret.mp h).2, charges_superseded _⟩
      | exact ⟨_, (path_ret.mp h).2, charges_failed _ _⟩
  · simp only at h
    split at h
    · exact Or.inl ⟨_, (path_ret.mp h).2, charges_failed _ _⟩
    · split at h
      · exact Or.inl ⟨_, (path_ret.mp h).2, charges_failed _ _⟩
      · next husable => exact Or.inr ⟨_, (path_ret.mp h).2, by simpa using husable⟩

/-- A run that reports its usage reports what it has counted. -/
theorem reported_eq_total {us : List Usage} {result : Except AgentError AgentOutcome} {u : Usage}
    (h : Path (m.metered task) xs (us, result)) (hu : reported result = some u) :
    u = Usage.total us := by
  refine Path.iterate_inv (fun s : Loop × List Usage ↦ s.1.usage = Usage.total s.2)
    (fun r ↦ ∀ u, reported r.2 = some u → u = Usage.total r.1) ?_ ?_ _ _ _ _ rfl h u hu
  · rintro ⟨s, us⟩ xs ⟨s', us'⟩ hs hround
    obtain ⟨answer, ys, zs, rfl, hcompletion, h⟩ := path_bind.mp hround
    rcases path_completion hcompletion with ⟨e, rfl, -⟩ | ⟨outcome, rfl, husable⟩
    · cases (path_ret.mp h).2
    obtain ⟨r, vs, ws, rfl, hsettle, h⟩ := path_bind.mp h
    rcases r with s'' | result
    · obtain ⟨rfl, rfl⟩ := Prod.mk.inj (Sum.inl.inj (path_ret.mp h).2)
      simp only [Usage.total_snoc]
      rw [(settle_counts husable hsettle).1 s' rfl, hs]
    · cases (path_ret.mp h).2
  · rintro ⟨s, us⟩ xs ⟨us', result⟩ hs hround u hu
    obtain ⟨answer, ys, zs, rfl, hcompletion, h⟩ := path_bind.mp hround
    rcases path_completion hcompletion with ⟨e, rfl, hcharges⟩ | ⟨outcome, rfl, husable⟩
    · obtain ⟨rfl, rfl⟩ := Prod.mk.inj (Sum.inr.inj (path_ret.mp h).2)
      exact (hcharges u hu).trans hs
    obtain ⟨r, vs, ws, rfl, hsettle, h⟩ := path_bind.mp h
    rcases r with s'' | result'
    · cases (path_ret.mp h).2
    · obtain ⟨rfl, rfl⟩ := Prod.mk.inj (Sum.inr.inj (path_ret.mp h).2)
      simp only [Usage.total_snoc]
      rw [(settle_counts husable hsettle).2 result u rfl hu, hs]

/-- What has been counted stays counted. -/
theorem counted_of_path {s : Loop × List Usage} {n : ℕ} {us : List Usage}
    {result : Except AgentError AgentOutcome}
    (h : Path (Prog.iterate (m.meteredRound task) n s) xs (us, result)) : s.2 <+: us := by
  refine Path.iterate_inv (fun s' : Loop × List Usage ↦ s.2 <+: s'.2) (fun r ↦ s.2 <+: r.1)
    ?_ ?_ _ _ _ _ (List.prefix_refl _) h
  · rintro ⟨s₁, us₁⟩ xs ⟨s₂, us₂⟩ hs hround
    obtain ⟨answer, ys, zs, rfl, -, h⟩ := path_bind.mp hround
    rcases answer with e | outcome
    · cases (path_ret.mp h).2
    obtain ⟨r, vs, ws, rfl, -, h⟩ := path_bind.mp h
    rcases r with s' | result
    · obtain ⟨-, rfl⟩ := Prod.mk.inj (Sum.inl.inj (path_ret.mp h).2)
      exact hs.trans (List.prefix_append _ _)
    · cases (path_ret.mp h).2
  · rintro ⟨s₁, us₁⟩ xs ⟨us₂, result'⟩ hs hround
    obtain ⟨answer, ys, zs, rfl, -, h⟩ := path_bind.mp hround
    rcases answer with e | outcome
    · obtain ⟨rfl, -⟩ := Prod.mk.inj (Sum.inr.inj (path_ret.mp h).2)
      exact hs
    obtain ⟨r, vs, ws, rfl, -, h⟩ := path_bind.mp h
    rcases r with s' | result
    · cases (path_ret.mp h).2
    · obtain ⟨rfl, -⟩ := Prod.mk.inj (Sum.inr.inj (path_ret.mp h).2)
      exact hs.trans (List.prefix_append _ _)

/-- Once the first completion is accepted, its usage is counted. -/
theorem counted_first {outcome : CompletionsOutcome} {us : List Usage}
    {result : Except AgentError AgentOutcome}
    (hfirst : m.completion task { conversation := task.items } = .ret (.ok outcome))
    (h : Path (m.metered task) xs (us, result)) : outcome.usage ∈ us := by
  obtain ⟨r, ys, zs, rfl, hround, hrest⟩ := path_bind.mp h
  simp only [meteredRound, hfirst, ret_bind, List.nil_append] at hround
  obtain ⟨settled, vs, ws, rfl, -, hround⟩ := path_bind.mp hround
  rcases settled with s' | result'
  · obtain ⟨-, rfl⟩ := path_ret.mp hround
    exact (counted_of_path hrest).subset (List.mem_singleton_self _)
  · obtain ⟨-, rfl⟩ := path_ret.mp hround
    obtain ⟨rfl, -⟩ := Prod.mk.inj (path_ret.mp hrest).2
    exact List.mem_singleton_self _

end Metered

end MockAgentRunner

end NovaChat
