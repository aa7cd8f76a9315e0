import NovaChat.Interact.Guard
import NovaChat.Turn.Calls
import NovaChat.Turn.Snapshots

/-!
# The tail of a conversation

The tail moves when the turn that completes has found its home in the snapshot, whatever it is that
was archived.  So it points at an answered turn as long as every attempt that finishes a stored turn
of a conversation finishes it with an item.
-/

namespace NovaChat

open Interact Prog MemConversationStore

/-! ## What moves a tail -/

/-- The job is an execution that has claimed a response, and its attempt has come to a verdict. -/
def Job.Attempted (claimed : ClaimedResponse) (verdict : Verdict) : Job → Exchanges → Prop
  | .execute rt rounds agent, xs => ∃ ys, rt.Serving agent claimed ys xs ∧
    Path (rt.attempt rounds claimed) ys verdict
  | _, _ => False

/-- A turn of a conversation whose output is to be kept. -/
def ResponseRecord.Kept (record : ResponseRecord) : Prop :=
  record.isStored = true ∧ record.conversationId.isSome = true

/-- What a job has exchanged when it moves a tail, and how it creates a conversation: it finished
a kept turn and archived its output; a new conversation has no tail. -/
def Job.Moves (j : Job) (xs : Exchanges) : Call → Prop
  | .conversations (.create x) => x.lastResponseId = none
  | .conversations (.advance tenant c r) =>
    ∃ claimed output ys attempt status usage now commit n, claimed.record.Kept ∧
      j.Attempted claimed (.finished output) ys ∧ commit.outputItems = output.produced ∧
      xs = ys ++ [⟨.ledger (.complete r attempt status usage now), .ok ()⟩,
        ⟨.conversations (.appendTurn tenant c r commit now), .ok n⟩]
  | _ => True

/-- Calls that move no tail, and create conversations without one. -/
def Call.Unmoving : Call → Prop
  | .conversations (.create x) => x.lastResponseId = none
  | .conversations (.advance ..) => False
  | _ => True

theorem Call.Unmoving.moves {c : Call} (hc : c.Unmoving) (j : Job) (xs : Exchanges) :
    j.Moves xs c := by
  rcases c with _ | c | c | c | c | c <;> try trivial
  cases c <;> first | exact hc | trivial

theorem unmoving_of_reads {c : Call} (hc : c.Reads) : c.Unmoving := by
  rcases c with _ | c | c | c | c | c <;> try trivial
  cases c <;> first | exact hc.elim | trivial

theorem unmoving_of_locking {c : Call} (hc : c.Locking) : c.Unmoving := by
  unfold Call.Locking at hc
  split at hc <;> first | trivial | exact unmoving_of_reads hc

theorem unmoving_of_archiving {c : Call} (hc : c.Archiving) : c.Unmoving := by
  rcases hc with hc | ⟨tenant, c, id, commit, now, rfl⟩
  · exact unmoving_of_reads hc
  · trivial

theorem unmoving_of_reports {c : Call} (hc : c.Reports) : c.Unmoving := by
  unfold Call.Reports at hc
  split at hc
  · trivial
  · trivial
  · exact unmoving_of_reads hc

theorem unmoving_of_beside {c : Call} (hc : c.Beside) : c.Unmoving := by
  rcases c with _ | c | c | c | c | c <;> try trivial
  cases c <;> first | exact hc.2 | exact hc.elim | trivial

theorem unmoving_of_makes {j : Job} {c : Call}
    (hj : ∀ rt rounds agent, j ≠ .execute rt rounds agent)
    (hc : j.Makes c) : c.Unmoving := by
  rcases hc with hc | hc | ⟨-, hc⟩
  · exact unmoving_of_locking hc
  · rcases c with _ | c | c | c | c | c <;> try trivial
    cases c <;> try trivial
    · cases j <;> exact hc.elim
    · cases j <;> first | exact hc.elim | exact absurd rfl (hj _ _ _)
  · exact unmoving_of_beside hc

section Funnels

variable {rt : AgentRuntime} {record : ResponseRecord} {now : ℕ}

theorem unmoving_settle (status : ResponseStatus) :
    (rt.settle record status false now).OnlyCalls Call.Unmoving :=
  (resolves_settle ..).mono fun _ hc ↦ by cases hc; trivial

theorem unmoving_closing {kind : ResponseEventKind} {done : Executed}
    {object : Except LedgerError (Option ResponseRecord) → ResponseObject} :
    (Ledger.get record.responseId >>= fun reply ↦
      rt.closeStream record.responseId kind (object reply) now >>=
        fun _ ↦ (.ret done : Service Executed)).OnlyCalls Call.Unmoving :=
  ⟨trivial, fun _ ↦ ⟨trivial, fun _ ↦ ⟨trivial, fun _ ↦ trivial⟩⟩⟩

theorem unmoving_fail (attempt : Attempt) (usage : Usage) (produced : List ResponseItem) :
    (rt.fail record attempt usage produced now).OnlyCalls Call.Unmoving := by
  refine ⟨trivial, fun r ↦ ?_⟩
  rcases r with e | ⟨⟩
  · trivial
  · exact ((archiving_archiveFailed ..).mono fun _ ↦ unmoving_of_archiving).bind fun _ ↦
      (unmoving_settle .failed).bind fun _ ↦ unmoving_closing

/-- The funnel of a finished attempt moves a tail only behind an archived turn. -/
theorem moves_complete {j : Job} {claimed : ClaimedResponse} {output : TerminalOutput}
    {xs : Exchanges} (h : j.Attempted claimed (.finished output) xs) :
    (rt.complete claimed.record claimed.record.attempt output now).Guarded j.Moves xs := by
  refine ⟨trivial, fun r ↦ ?_⟩
  rcases r with e | ⟨⟩
  · trivial
  have hrest : ∀ (lost : Bool) ys, (if lost then (.ret .failed : Service Executed) else
      Ledger.get claimed.record.responseId >>= fun reply ↦
        rt.closeStream claimed.record.responseId (AgentRuntime.completedKind output.status)
          (.new ((found reply).getD claimed.record) output.produced) now >>=
            fun _ ↦ .ret .completed).Guarded j.Moves ys := by
    intro lost ys
    split
    · trivial
    · exact .of_onlyCalls (unmoving_closing.mono fun c hc ys ↦ hc.moves j ys)
  have hidle : ∀ ys, (rt.settle claimed.record output.status false now).Guarded j.Moves ys :=
    fun ys ↦ .of_onlyCalls ((unmoving_settle output.status).mono fun c hc ys ↦ hc.moves j ys)
  show Prog.Guarded _ _ (rt.storeOutput claimed.record output now >>= fun stored ↦
    rt.settle claimed.record output.status stored now >>= fun _ ↦ _)
  unfold AgentRuntime.storeOutput
  split
  · next hstored =>
      split
      · next hnone =>
          have hsettle : rt.settle claimed.record output.status true now = .ret () := by
            unfold AgentRuntime.settle
            rw [hnone]
            split
            · next heq => cases heq
            · rfl
          rw [pure_eq, ret_bind, hsettle, ret_bind]
          exact hrest _ _
      · next c hconv =>
          unfold AgentRuntime.appendTurn
          split
          · next c' hport hc =>
              obtain rfl : c' = c := Option.some.inj (hc.symm.trans hconv)
              refine ⟨trivial, fun r ↦ ?_⟩
              rcases r with e | n
              · exact (hidle _).bind fun ys _ _ ↦ hrest _ _
              · have hsettle : rt.settle claimed.record output.status true now =
                    Conversations.advance claimed.record.tenantId c' claimed.record.responseId >>=
                      fun _ ↦ Conversations.releaseActive claimed.record.tenantId c'
                        claimed.record.responseId output.status now >>= fun _ ↦ .ret () := by
                  simp only [AgentRuntime.settle, hport, hconv, if_true]
                  rfl
                show Prog.Guarded _ _
                  (rt.settle claimed.record output.status true now >>= fun _ ↦ _)
                rw [hsettle]
                refine ⟨⟨claimed, output, xs, claimed.record.attempt, output.status,
                  output.usage, now,
                  ⟨claimed.record.spec.inputItems, output.produced, AgentRuntime.reasoningOf output,
                    output.usage, output.status⟩, n, ⟨hstored, by simp [hconv]⟩, h, rfl, by simp⟩,
                  fun _ ↦ ⟨trivial, fun _ ↦ hrest _ _⟩⟩
          · exact (hidle _).bind fun ys _ _ ↦ hrest _ _
  · exact (hidle _).bind fun ys _ _ ↦ hrest _ _

end Funnels

theorem moves_execute (rt : AgentRuntime) (rounds : ℕ) (agent : AgentId) :
    (Job.execute rt rounds agent).prog.Guarded (Job.execute rt rounds agent).Moves [] := by
  refine guarded_execute trivial (fun _ ↦ trivial) fun now claimed ↦ ?_
  rw [AgentRuntime.serve_eq]
  refine (Prog.Guarded.of_onlyCalls ((reports_attempt rt rounds claimed).mono fun c hc ys ↦
    (unmoving_of_reports hc).moves _ ys)).bind fun ys verdict hpath ↦ ?_
  cases verdict with
  | superseded => trivial
  | failed usage produced =>
      exact .of_onlyCalls ((unmoving_fail _ usage produced).mono fun c hc ys ↦ hc.moves _ ys)
  | finished output => exact moves_complete ⟨ys, ⟨now, rfl⟩, hpath⟩

theorem moves_job (j : Job) : j.prog.Guarded j.Moves [] := by
  by_cases hj : ∃ rt rounds agent, j = .execute rt rounds agent
  · obtain ⟨rt, rounds, agent, rfl⟩ := hj
    exact moves_execute rt rounds agent
  · push Not at hj
    exact .of_onlyCalls ((makes_job j).mono fun c hc xs ↦ (unmoving_of_makes hj hc).moves j xs)

/-! ## Runs -/

/-- No execution of a kept turn finishes it without an item. -/
def AnsweringStep (tr : Trace) (q : State) : Event Call Call.Reply Job → Prop
  | .call i (.ledger (.complete ..)) (.ok _) => ∀ j claimed output, q.jobAt i = some j →
    claimed.record.Kept → j.Attempted claimed (.finished output) (exchangesOf i tr) →
      output.produced ≠ []
  | _ => True

def TailStep (tr : Trace) (q : State) (e : Event Call Call.Reply Job) : Prop :=
  MintStep tr q e ∧ UnusedStep tr q e ∧ AnsweringStep tr q e

/-- Every tail points at a turn that was archived with an output item. -/
def Tailed (tr : Trace) (s : MemStore) : Prop :=
  ∀ c x r, s.conversation c = some x → x.lastResponseId = some r →
    ∃ commit, (r, commit) ∈ history c tr ∧ commit.outputItems ≠ []

/-- A process that moves a tail has archived an answer. -/
theorem answer_of_moves {w : World} {tr : Trace} {q : State} {i : ℕ} {j : Job} {tenant : TenantId}
    {c : ConversationId} {r : ResponseId} (h : Run system TailStep (Pool.init w) tr q)
    (hj : q.jobAt i = some j)
    (hmoves : j.Moves (exchangesOf i tr) (.conversations (.advance tenant c r))) :
    ∃ commit, (r, commit) ∈ history c tr ∧ commit.outputItems ≠ [] := by
  obtain ⟨claimed, output, ys, attempt, status, usage, now, commit, n, hkept, hattempted, hcommit,
    heq⟩ := hmoves
  obtain ⟨tr₁, tr₂, htr, hys, hzs⟩ := exchangesOf_eq_append heq
  obtain ⟨q₁, -, ⟨-, -, hanswering⟩, hjobs, hcall⟩ := h.split htr
  obtain ⟨⟨j₁, k, hi⟩, -⟩ := hcall i _ _ rfl
  have hjob := Pool.jobAt_of_procs hi
  obtain rfl : j₁ = j := Option.some.inj ((hjobs i j₁ hjob).symm.trans hj)
  refine ⟨commit, ?_, hcommit ▸ hanswering j₁ claimed output hjob hkept (hys ▸ hattempted)⟩
  have happend : Event.call i (.conversations (.appendTurn tenant c r commit now)) (.ok n) ∈ tr :=
    mem_exchangesOf.mp (by rw [heq]; simp)
  exact List.mem_filterMap.mpr ⟨_, happend, by simp [Call.adds]⟩

theorem Tailed.step {tr : Trace} {w : World} {call : Call} (h : Tailed tr w.store)
    (hk : w.store.Keyed) (i : ℕ)
    (hfresh : ∀ x, call = .conversations (.create x) → x.lastResponseId = none)
    (hmoves : ∀ tenant c r, call = .conversations (.advance tenant c r) →
      ∃ commit, (r, commit) ∈ history c tr ∧ commit.outputItems ≠ []) :
    Tailed (tr ++ [.call i call (exec call w).1]) (exec call w).2.store := by
  have hmono : ∀ {c r commit}, (r, commit) ∈ history c tr →
      (r, commit) ∈ history c (tr ++ [.call i call (exec call w).1]) := by
    intro c r commit hmem
    rw [history_call]
    exact List.mem_append_left _ hmem
  intro c y r hy hlast
  rcases conversation_back hk hy with ⟨x, hx, hsame | ⟨tenant, r', rfl, hlast'⟩⟩ | ⟨rfl, rfl⟩
  · obtain ⟨commit, hmem, hout⟩ := h c x r hx (hsame.symm.trans hlast)
    exact ⟨commit, hmono hmem, hout⟩
  · obtain rfl : r' = r := Option.some.inj (hlast'.symm.trans hlast)
    obtain ⟨commit, hmem, hout⟩ := hmoves tenant c r' rfl
    exact ⟨commit, hmono hmem, hout⟩
  · rw [hfresh y rfl] at hlast
    cases hlast

/-- A store without records, snapshots or tails. -/
structure MemStore.Untailed (s : MemStore) : Prop where
  unfiled : s.Unfiled
  snapshot : ∀ c, s.snapshot c = {}
  tail : ∀ {c x}, s.conversation c = some x → x.lastResponseId = none

theorem tailed_run {w : World} {tr : Trace} {q : State} (hw : w.store.Untailed)
    (h : Run system TailStep (Pool.init w) tr q) : Tailed tr q.world.store := by
  induction h with
  | nil =>
      intro c x r hx hlast
      rw [hw.tail hx] at hlast
      cases hlast
  | @start tr q j _ _ ih =>
      intro c x r hx hlast
      rw [history_start]
      exact ih c x r hx hlast
  | @turn tr q i j call k hrun hi hok ih =>
      obtain ⟨j', hj', hmoves⟩ := (hrun.turn hi hok).guarded rfl moves_job
      rw [Pool.jobAt_turn hi] at hj'
      have hk := (recorded_run (fun _ _ _ hok ↦ hok.2.1) hw.unfiled.keyed hw.snapshot hrun).keyed
      refine ih.step hk i (fun x hx ↦ ?_) fun tenant c r hx ↦ ?_
      · subst hx
        exact hmoves
      · subst hx
        exact answer_of_moves hrun hj' hmoves

/-- The turn of `r` is in the snapshot of `c`, and it has an output item. -/
def Answered (tr : Trace) (s : MemStore) (c : ConversationId) (r : ResponseId) : Prop :=
  s.Archived c r ∧ ∃ commit, submitted r tr = [commit] ∧ commit.outputItems ≠ [] ∧
    turnEntries commit <:+: (s.snapshot c).entries

/-- In every run in which no execution finishes a stored turn of a conversation without an item,
every tail points at an answered turn. -/
theorem tail_answered {w : World} {tr : Trace} {q : State} (hw : w.store.Untailed)
    (h : Run system TailStep (Pool.init w) tr q) {c : ConversationId} {x : Conversation}
    {r : ResponseId} (hx : q.world.store.conversation c = some x)
    (hlast : x.lastResponseId = some r) : Answered tr q.world.store c r := by
  obtain ⟨commit, hmem, hout⟩ := tailed_run hw h c x r hx hlast
  have hsnap := (recorded_run (fun _ _ _ hok ↦ hok.2.1) hw.unfiled.keyed hw.snapshot h).replayed
    (Or.inl (by rw [hx]; rfl))
  have hsole := (sole_run (fun _ _ _ hok ↦ hok.1) hw.unfiled h r).1
  have honly : ∀ commit', (r, commit') ∈ history c tr → submitted r tr = [commit'] := by
    intro commit' hmem'
    have hsub := submitted_of_history hmem'
    obtain ⟨commit₀, hone⟩ := List.length_eq_one_iff.mp
      (le_antisymm hsole.single (List.length_pos_of_mem hsub))
    rw [hone, List.mem_singleton] at hsub
    rw [hone, hsub]
  refine ⟨?_, commit, honly commit hmem, hout, ?_⟩
  · rw [MemStore.Archived, hsnap, appended_replay]
    exact Or.inr ⟨commit, hmem⟩
  · rw [hsnap]
    refine turnEntries_replay _ _ rfl hmem fun commit' hmem' ↦ ?_
    simpa using (honly commit' hmem').symm.trans (honly commit hmem)

/-! ## An answer, and a turn without one -/

/-- An attempt that finishes hands on what its runner returned. -/
theorem finished_outcome {rt : AgentRuntime} {rounds : ℕ} {claimed : ClaimedResponse}
    {output : TerminalOutput} {xs : Exchanges}
    (h : Path (rt.attempt rounds claimed) xs (.finished output)) :
    ∃ snapshot ys outcome sink, Path (rt.execute claimed snapshot) ys (.ok outcome, sink) ∧
      output.produced = outcome.items := by
  unfold AgentRuntime.attempt at h
  obtain ⟨_, _, _, -, -, h⟩ := path_bind.mp h
  obtain ⟨resolved, _, _, -, -, h⟩ := path_bind.mp h
  rcases resolved with e | snapshot
  · cases (path_ret.mp h).2
  obtain ⟨⟨result, sink⟩, ys, _, -, hys, h⟩ := path_bind.mp h
  rcases result with e | outcome
  · cases e <;> cases (path_ret.mp h).2
  · refine ⟨snapshot, ys, outcome, sink, hys, ?_⟩
    dsimp only at h
    split at h
    · cases (path_ret.mp h).2
    · obtain rfl := Verdict.finished.inj (path_ret.mp h).2
      rfl

namespace Sample

theorem world_untailed : world.store.Untailed where
  unfiled := world_unfiled
  snapshot _ := rfl
  tail {c x} hx := by
    have hlookup : world.store.conversation c =
        if c = talk then some (Conversation.new talk tenant [] 0) else none :=
      conversation_insert {} (Conversation.new talk tenant [] 0) c
    rw [hlookup] at hx
    split_ifs at hx
    obtain rfl := Option.some.inj hx
    rfl

/-- A create, or an execution by the sample runtime. -/
def Plain (j : Job) : Prop :=
  (∃ rounds agent, j = .execute runtime rounds agent) ∨ j.mints.isSome = true

theorem answering_plain {tr : Trace} {q : State} (hq : ∀ i j, q.jobAt i = some j → Plain j)
    (e : Event Call Call.Reply Job) : AnsweringStep tr q e := by
  unfold AnsweringStep
  split
  · intro j claimed output hj _ hattempted
    rcases hq _ j hj with ⟨rounds, agent, rfl⟩ | hmints
    · obtain ⟨ys, -, hpath⟩ := hattempted
      obtain ⟨snapshot, zs, outcome, sink, hexecute, heq⟩ := finished_outcome hpath
      obtain ⟨-, hret⟩ := path_ret.mp (show Path (.ret _) zs _ from hexecute)
      obtain rfl := Except.ok.inj (Prod.mk.inj hret).1
      rw [heq]
      simp
    · cases j <;> first | exact hattempted.elim | cases hmints
  · trivial

/-- A runtime whose runner stops at its first tool round, without an item. -/
def silent : AgentRuntime where
  runner _ := .ret (.ok ⟨[], {}, .incomplete⟩)

end Sample

/-- A turn that ran to its end is the tail of its conversation. -/
theorem tail_answered_turn : ∃ tr q x, Run system TailStep (Pool.init Sample.world) tr q ∧
    q.world.store.conversation Sample.talk = some x ∧ x.lastResponseId = some (Sample.id 1) ∧
      Answered tr q.world.store Sample.talk (Sample.id 1) := by
  obtain ⟨tr, q, h, htest⟩ := @Run.exists_of_schedule_jobs _ _ _ _ TailStep system Sample.world
    Sample.Plain (fun tr q e ↦ decide (MintStep tr q e) && unusedCheck tr e)
    (fun _ q ↦ decide ((q.world.store.conversation Sample.talk).bind Conversation.lastResponseId =
      some (Sample.id 1)))
    (fun tr q e hq _ he ↦ by
      obtain ⟨hmint, hunused⟩ := Bool.and_eq_true_iff.mp he
      exact ⟨of_decide_eq_true hmint, unusedStep_of_check hunused, Sample.answering_plain hq e⟩)
    (Sample.post 1 :: Sample.steps 0 6 ++ Sample.work :: Sample.steps 1 11)
    (fun j hj ↦ by
      simp only [Sample.post, Sample.work, Sample.steps, List.cons_append, List.mem_cons,
        List.mem_append, List.mem_replicate, Action.start.injEq, reduceCtorEq, and_false,
        or_false, false_or] at hj
      rcases hj with rfl | rfl
      · exact Or.inr rfl
      · exact Or.inl ⟨_, _, rfl⟩)
    (by decide +kernel)
  obtain ⟨x, hx, hlast⟩ := Option.bind_eq_some_iff.mp (of_decide_eq_true htest)
  exact ⟨tr, q, x, h, hx, hlast, tail_answered Sample.world_untailed h hx hlast⟩

/-- A runner that finishes without an item leaves a tail without an answer. -/
theorem unanswered_tail : ¬ ∀ (w : World) (tr : Trace) (q : State), w.store.Untailed →
    Run system (fun tr q e ↦ MintStep tr q e ∧ UnusedStep tr q e) (Pool.init w) tr q →
      ∀ c x r, q.world.store.conversation c = some x → x.lastResponseId = some r →
        Answered tr q.world.store c r := by
  intro hclaim
  obtain ⟨tr, q, h, htest⟩ := @Run.exists_of_schedule _ _ _ _
    (fun tr q e ↦ MintStep tr q e ∧ UnusedStep tr q e) system (Pool.init Sample.world)
    (fun tr q e ↦ decide (MintStep tr q e) && unusedCheck tr e)
    (fun tr q ↦ decide ((q.world.store.conversation Sample.talk).bind
      Conversation.lastResponseId = some (Sample.id 1)) &&
        (submitted (Sample.id 1) tr).all fun commit ↦ commit.outputItems.isEmpty)
    (fun tr q e he ↦ by
      obtain ⟨hmint, hunused⟩ := Bool.and_eq_true_iff.mp he
      exact ⟨of_decide_eq_true hmint, unusedStep_of_check hunused⟩)
    (Sample.post 1 :: Sample.steps 0 6 ++ .start (.execute Sample.silent 4 Sample.agent) ::
      Sample.steps 1 11) (by decide +kernel)
  obtain ⟨hlast, hsilent⟩ := Bool.and_eq_true_iff.mp htest
  obtain ⟨x, hx, hlast⟩ := Option.bind_eq_some_iff.mp (of_decide_eq_true hlast)
  obtain ⟨-, commit, hsub, hout, -⟩ := hclaim _ tr q Sample.world_untailed h _ x _ hx hlast
  rw [hsub] at hsilent
  exact hout (by simpa using hsilent)

end NovaChat
