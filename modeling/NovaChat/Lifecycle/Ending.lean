import NovaChat.Agentd.Steadfast
import NovaChat.Lifecycle.Draining

/-!
# Executions that come to an end

An execution returns in one of three ways: it has failed or completed its response, or it has found
its attempt superseded.  Whoever else is at work meanwhile, its response has ended then, unless the
store refused the transition.
-/

namespace NovaChat

open Interact Prog

/-! ## What an execution is told -/

/-- The answer says that attempt `a` of `r` is not the current one. -/
def Outdated (r : ResponseId) (a : Attempt) : Exchange Call Call.Reply → Prop
  | ⟨.ledger (.checkAttempt id attempt), reply⟩ =>
    id = r ∧ attempt = a ∧ reply = .error .staleAttempt
  | ⟨.eventLog (.append event), reply⟩ =>
    event.responseId = r ∧ event.attempt = some a ∧ reply = .error .staleAttempt
  | _ => False

/-- The final transition of attempt `a` of `r`, whatever the ledger answers. -/
def Concludes (r : ResponseId) (a : Attempt) : Exchange Call Call.Reply → Prop
  | ⟨.ledger (.complete id attempt status _ _), _⟩ =>
    id = r ∧ attempt = a ∧ status.isTerminal = true
  | _ => False

/-- The store has refused to finish `r`. -/
def StoreRefuses (r : ResponseId) : Exchange Call Call.Reply → Prop
  | ⟨.ledger (.complete id _ _ _ _), .error (.store _)⟩ => id = r
  | _ => False

/-- A sink that reports for attempt `a` of `r`, and was not stopped. -/
structure EventSink.Reporting (r : ResponseId) (a : Attempt) (s : EventSink) : Prop where
  response : s.responseId = r
  attempt : s.attempt = a
  going : s.stopped = false

section Told

variable {r : ResponseId} {a : Attempt} {xs : Exchanges}

theorem path_push_told {s : EventSink} {event : AppendEvent}
    {reply : Except SinkError SinkVerdict × EventSink} (hs : s.Reporting r a)
    (hid : event.responseId = r) (hattempt : event.attempt = some a)
    (h : Path (s.push event) xs reply) :
    (∃ x ∈ xs, Outdated r a x) ∨ reply.2.Reporting r a ∧ reply.1 ≠ .ok .stop := by
  simp only [EventSink.push, hs.going, Bool.false_eq_true, if_false, EventLog.append,
    perform_bind, path_call] at h
  obtain ⟨answer, ys, rfl, h⟩ := h
  split at h
  · obtain ⟨-, rfl⟩ := path_ret.mp h
    exact Or.inr ⟨hs, fun heq ↦ by cases heq⟩
  · exact Or.inl ⟨_, List.mem_cons_self, hid, hattempt, rfl⟩
  · obtain ⟨-, rfl⟩ := path_ret.mp h
    exact Or.inr ⟨hs, fun heq ↦ by cases heq⟩

/-- A sink tells a runner that its attempt is over only where it was told so itself. -/
theorem path_answer_told {c : SinkCall} {s : EventSink} {reply : c.Reply × EventSink}
    (hs : s.Reporting r a) (h : Path (EventSink.answer c s) xs reply) :
    (∃ x ∈ xs, Outdated r a x) ∨ reply.2.Reporting r a ∧ ¬ c.Ends reply.1 := by
  cases c with
  | cancelled =>
      simp only [EventSink.answer, Ledger.checkAttempt, perform_bind, path_call] at h
      obtain ⟨answer, ys, rfl, h⟩ := h
      obtain ⟨-, rfl⟩ := path_ret.mp h
      by_cases hstale : answer = .error .staleAttempt
      · exact Or.inl ⟨_, List.mem_cons_self, hs.response, hs.attempt, hstale⟩
      · exact Or.inr ⟨hs, fun hends ↦ hstale (of_decide_eq_true hends)⟩
  | _ =>
      unfold EventSink.answer at h
      refine path_push_told ?_ ?_ ?_ h
      · exact ⟨hs.response, hs.attempt, hs.going⟩
      · exact hs.response
      · exact congrArg some hs.attempt

end Told

/-- An attempt of a steadfast runner gives up only where it was told to. -/
theorem path_attempt_told {rt : AgentRuntime} (hrunner : AgentRunner.Steadfast rt.runner)
    {rounds : ℕ} {claimed : ClaimedResponse} {verdict : Verdict} {xs : Exchanges}
    (h : Path (rt.attempt rounds claimed) xs verdict) :
    (verdict = .superseded →
      ∃ x ∈ xs, Outdated claimed.record.responseId claimed.record.attempt x) ∧
    ∀ output, verdict = .finished output → output.status.isTerminal = true := by
  unfold AgentRuntime.attempt at h
  simp only [EventLog.append, perform_bind, path_call, path_bind] at h
  obtain ⟨_, ys, rfl, resolved, us, vs, rfl, -, h⟩ := h
  rcases resolved with e | snapshot
  · obtain ⟨-, rfl⟩ := path_ret.mp h
    exact ⟨fun heq ↦ (by cases heq), fun _ heq ↦ (by cases heq)⟩
  obtain ⟨⟨result, sink⟩, ss, ts, rfl, hexecute, h⟩ := path_bind.mp h
  unfold AgentRuntime.execute at hexecute
  have hrun := path_handleWith_or
    (B := Outdated claimed.record.responseId claimed.record.attempt)
    (S := EventSink.Reporting claimed.record.responseId claimed.record.attempt)
    (G := fun x : Exchange SinkCall SinkCall.Reply ↦ ¬ x.call.Ends x.reply)
    (fun _ _ _ _ hs hanswer ↦ path_answer_told hs hanswer) ⟨rfl, rfl, rfl⟩ hexecute
  refine ⟨fun hsuperseded ↦ ?_, fun output hfinished ↦ ?_⟩
  · rcases hrun with ⟨x, hx, hold⟩ | ⟨hsink, zs, hpath, hgoing⟩
    · exact ⟨x, List.mem_cons_of_mem _
        (List.mem_append_right _ (List.mem_append_left _ hx)), hold⟩
    -- The sink was not stopped, so nobody has told the runner either.
    rcases result with e | outcome
    · cases e with
      | superseded =>
          obtain ⟨x, hx, hends⟩ := hrunner.told hpath
          exact absurd hends (hgoing x hx)
      | failed =>
          obtain ⟨-, rfl⟩ := path_ret.mp h
          cases hsuperseded
    · have hstopped : sink.stopped = false := hsink.going
      simp only [hstopped, Bool.false_eq_true, if_false] at h
      obtain ⟨-, rfl⟩ := path_ret.mp h
      cases hsuperseded
  · obtain ⟨zs, hpath⟩ := path_of_handleWith hexecute
    rcases result with e | outcome
    · cases e <;> (obtain ⟨-, rfl⟩ := path_ret.mp h; cases hfinished)
    · dsimp only at h
      split at h
      · obtain ⟨-, rfl⟩ := path_ret.mp h
        cases hfinished
      · obtain ⟨-, rfl⟩ := path_ret.mp h
        obtain rfl := Verdict.finished.inj hfinished
        exact hrunner.final hpath

/-- An execution of a steadfast runner that has a claim is told that it is outdated, or makes the
final transition. -/
theorem path_serve_ends {rt : AgentRuntime} (hrunner : AgentRunner.Steadfast rt.runner)
    {rounds : ℕ} {claimed : ClaimedResponse} {now : ℕ} {out : Executed} {xs : Exchanges}
    (h : Path (rt.serve rounds claimed now) xs out) :
    ∃ x ∈ xs, Outdated claimed.record.responseId claimed.record.attempt x ∨
      Concludes claimed.record.responseId claimed.record.attempt x := by
  rw [rt.serve_eq, path_bind] at h
  obtain ⟨verdict, ys, zs, rfl, hattempt, hconclude⟩ := h
  obtain ⟨htold, hfinal⟩ := path_attempt_told hrunner hattempt
  cases verdict with
  | superseded =>
      obtain ⟨x, hx, hold⟩ := htold rfl
      exact ⟨x, List.mem_append_left _ hx, Or.inl hold⟩
  | failed usage produced =>
      obtain ⟨reply, us, rfl, -⟩ := path_call.mp hconclude
      exact ⟨_, List.mem_append_right _ List.mem_cons_self, Or.inr ⟨rfl, rfl, rfl⟩⟩
  | finished output =>
      obtain ⟨reply, us, rfl, -⟩ := path_call.mp hconclude
      exact ⟨_, List.mem_append_right _ List.mem_cons_self, Or.inr ⟨rfl, rfl, hfinal output rfl⟩⟩

/-! ## What the answers mean -/

section Answers

variable {w : World} {r : ResponseId} {a : Attempt} {c : Call}

theorem checkAttempt_of_append {event : AppendEvent} (hattempt : event.attempt = some a)
    (h : (exec (.eventLog (.append event)) w).1 = .error .staleAttempt) :
    MemResponseLedger.checkAttempt w.store event.responseId a = .error .staleAttempt := by
  have hfence : MemResponseEventLog.fenceCheck w.store event = .error .staleAttempt := by
    simp only [exec, execEventLog, MemResponseEventLog.append] at h
    split at h
    · next e he => rw [he, Except.error.inj h]
    · unfold MemResponseEventLog.insert at h
      split at h <;> split_ifs at h <;> cases h
  simp only [MemResponseEventLog.fenceCheck, hattempt] at hfence
  split_ifs at hfence
  · cases hfence
  split at hfence
  · cases hfence
  · next hstale => exact hstale
  all_goals cases hfence

theorem checkAttempt_of_outdated (h : Outdated r a ⟨c, (exec c w).1⟩) :
    MemResponseLedger.checkAttempt w.store r a = .error .staleAttempt := by
  unfold Outdated at h
  split at h
  · next heq =>
      obtain ⟨rfl, hreply⟩ := Exchange.mk.inj heq
      obtain ⟨rfl, rfl, hstale⟩ := h
      exact (eq_of_heq hreply).trans hstale
  · next heq =>
      obtain ⟨rfl, hreply⟩ := Exchange.mk.inj heq
      obtain ⟨rfl, hattempt, hstale⟩ := h
      exact checkAttempt_of_append hattempt ((eq_of_heq hreply).trans hstale)
  · exact h.elim

/-- An outdated attempt has been passed, or its response has ended or waits again. -/
theorem spent_of_outdated
    (hcurrent : ∀ x, w.store.record r = some x → x.Sound ∧ a.val ≤ x.attempt.val)
    (h : Outdated r a ⟨c, (exec c w).1⟩) : Spent r a w := by
  apply spent_of_stale (c := .ledger (.checkAttempt r a)) hcurrent
  show (if r = r ∧ a = a then some (MemResponseLedger.checkAttempt w.store r a) else none) = _
  rw [if_pos ⟨rfl, rfl⟩, checkAttempt_of_outdated h]

/-- After its final transition an attempt is spent, unless the store has refused it. -/
theorem spent_of_concludes
    (hcurrent : ∀ x, w.store.record r = some x → x.Sound ∧ a.val ≤ x.attempt.val)
    (h : Concludes r a ⟨c, (exec c w).1⟩) :
    StoreRefuses r ⟨c, (exec c w).1⟩ ∨ Spent r a w ∨ Spent r a (exec c w).2 := by
  unfold Concludes at h
  split at h
  · next id attempt status usage now reply heq =>
      obtain ⟨rfl, -⟩ := Exchange.mk.inj heq
      obtain ⟨rfl, rfl, hterm⟩ := h
      have hverdict : verdict id attempt ⟨.ledger (.complete id attempt status usage now),
          (exec (.ledger (.complete id attempt status usage now)) w).1⟩ =
          some (MemResponseLedger.complete w.store id attempt status usage now).1 :=
        if_pos ⟨rfl, rfl⟩
      rcases MemResponseLedger.complete_cases w.store id attempt status usage now with
        ⟨e, hrefused⟩ | ⟨x, -, -, -, -, -, hdone⟩
      · rw [hrefused] at hverdict
        cases e with
        | store e =>
            refine Or.inl ?_
            have hreply : (exec (.ledger (.complete id attempt status usage now)) w).1 =
                .error (.store e) := congrArg Prod.fst hrefused
            rw [hreply]
            rfl
        | staleAttempt => exact Or.inr (Or.inl (spent_of_stale hcurrent hverdict))
        | notFound => exact Or.inr (Or.inl (spent_of_notFound hverdict))
        | invalidTransition message =>
            unfold MemResponseLedger.complete MemResponseLedger.guardWritable at hrefused
            by_cases hro : w.store.readOnly = true
            · simp [hro] at hrefused
            · simp only [hro, hterm, Bool.false_eq_true, Bool.true_eq_false, if_false] at hrefused
              split at hrefused
              · cases hrefused
              · split_ifs at hrefused <;> cases hrefused
      · refine Or.inr (Or.inr fun y hy ↦ Or.inr (Or.inl ?_))
        have hput : (exec (.ledger (.complete id attempt status usage now)) w).2.store =
            _ := congrArg Prod.snd hdone
        rw [hput, MemResponseLedger.record_putRecord, if_pos rfl] at hy
        exact Option.some.inj hy ▸ hterm
  · exact h.elim

end Answers

/-! ## Whoever else is at work -/

/-- A claim starts an attempt of the response it returns. -/
theorem claimed_current {w₀ w : World} {xs : Exchanges} (hempty : w₀.store.inner = {})
    (h : Served w₀ xs w) {agent : AgentId} {now ttl : ℕ} {claimed : ClaimedResponse}
    (hreply : (exec (.ledger (.claim agent now ttl)) w).1 = .ok (some claimed)) :
    (exec (.ledger (.claim agent now ttl)) w).2.store.record claimed.record.responseId =
      some claimed.record ∧ claimed.record.attempt.val = 1 := by
  have ho := Served.orderly hempty h
  obtain ⟨-, ⟨hnone, -⟩ | ⟨id, x, hx, hstatus, hsome, hrecord⟩⟩ :=
    MemResponseLedger.claim_cases w.store agent now ttl
  · exact absurd hreply (hnone claimed)
  · obtain rfl : ⟨MemResponseLedger.claimed x agent, satAdd now (asU64 ttl)⟩ = claimed :=
      Option.some.inj (Except.ok.inj (hsome.symm.trans hreply))
    refine ⟨(hrecord _).trans (if_pos (ho.keyed.record hx)), ?_⟩
    exact (ResponseRecord.Stage.claim (r := id) agent now ttl hstatus).sound (ho.sound hx)
      |>.running rfl

/-- A spent first attempt leaves nothing to do for its response. -/
theorem Spent.ended {r : ResponseId} {a : Attempt} {w : World} (h : Spent r a w) (ha : a.val = 1)
    {x : ResponseRecord} (hx : w.store.record r = some x) (hsound : x.Sound) :
    x.status.isTerminal = true := by
  rcases h x hx with hlt | hterm | ⟨-, hzero⟩
  · cases hstatus : x.status with
    | queued =>
        rw [hsound.queued hstatus] at hlt
        omega
    | inProgress =>
        rw [hsound.running hstatus] at hlt
        omega
    | _ => rfl
  · exact hterm
  · omega

/-- An attempt that is spent stays so. -/
theorem Served.spent_after {w₀ w w' : World} {xs ys : Exchanges} (hempty : w₀.store.inner = {})
    (h : Served w₀ xs w) (h' : ServedAfter xs w ys w') {r : ResponseId} {a : Attempt}
    (hr : r ∈ created xs) (hspent : Spent r a w) : Spent r a w' :=
  h.continued (J := fun _ v ↦ Spent r a v) (Served.orderly hempty)
    (fun zs _ _ ho hv hc ↦ hv.step ho hc (mem_created_append hr zs)) h' hspent

/-- What an execution was told after its claim, in a history of whatever else happened. -/
theorem Served.told_ends {w₀ w : World} {xs ys : Exchanges} (hempty : w₀.store.inner = {})
    {agent : AgentId} {now ttl : ℕ} {claimed : ClaimedResponse} {y : Exchange Call Call.Reply}
    (h : Served w₀ (xs ++ ⟨.ledger (.claim agent now ttl), .ok (some claimed)⟩ :: ys) w)
    (hy : y ∈ ys) (htold : Outdated claimed.record.responseId claimed.record.attempt y ∨
      Concludes claimed.record.responseId claimed.record.attempt y) :
    StoreRefuses claimed.record.responseId y ∨
      ∀ x, w.store.record claimed.record.responseId = some x → x.status.isTerminal = true := by
  obtain ⟨v, hv, hfresh, hreply, hafter⟩ := h.split
  obtain ⟨hrecord, hone⟩ :=
    claimed_current hempty hv (eq_of_heq (Exchange.mk.inj hreply).2).symm
  have hv' := hv.snoc _ hfresh
  rw [← hreply] at hv'
  obtain ⟨before, after, rfl⟩ := List.append_of_mem hy
  obtain ⟨u, hbefore, hfresh', hreply', hafter'⟩ := hafter.split
  have hu := hv'.append hbefore
  have hcreated := mem_created_append ((Served.orderly hempty hv').created hrecord) before
  have hcurrent : ∀ x, u.store.record claimed.record.responseId = some x →
      x.Sound ∧ claimed.record.attempt.val ≤ x.attempt.val := fun x hx ↦
    ⟨(Served.orderly hempty hu).sound hx, (Served.evolves hempty hv' hbefore hrecord hx).attempt⟩
  have hnext := hu.snoc _ hfresh'
  rw [← hreply'] at hnext
  have hspent : StoreRefuses claimed.record.responseId y ∨
      Spent claimed.record.responseId claimed.record.attempt (exec y.call u).2 := by
    have hstep : Spent claimed.record.responseId claimed.record.attempt u →
        Spent claimed.record.responseId claimed.record.attempt (exec y.call u).2 := fun hspent ↦
      hspent.step (Served.orderly hempty hu) hfresh' hcreated
    rw [hreply'] at htold
    rcases htold with hold | hdone
    · exact Or.inr (hstep (spent_of_outdated hcurrent hold))
    · rcases spent_of_concludes hcurrent hdone with hrefused | hspent | hspent
      · rw [← hreply'] at hrefused
        exact Or.inl hrefused
      · exact Or.inr (hstep hspent)
      · exact Or.inr hspent
  refine hspent.imp_right fun hspent x hx ↦ ?_
  have hrest : ServedAfter (xs ++ [⟨.ledger (.claim agent now ttl), .ok (some claimed)⟩] ++
      before ++ [y]) (exec y.call u).2 after w := by
    unfold ServedAfter
    simpa only [List.append_assoc] using hafter'
  exact (Served.spent_after hempty hnext hrest (mem_created_append hcreated _) hspent).ended hone hx
    ((Served.orderly hempty h).sound hx)

theorem Served.steadfast_ends {w₀ w : World} {xs ys : Exchanges} (hempty : w₀.store.inner = {})
    (h : Served w₀ xs w) {rt : AgentRuntime} (hrunner : AgentRunner.Steadfast rt.runner)
    {rounds : ℕ} {agent : AgentId} {now : ℕ} {out : Executed} (hys : ys.Sublist xs)
    (hpath : Path (rt.runOnce rounds agent now) ys out) {r : ResponseId}
    (hr : r ∈ claimedIds ys) :
    (∃ x ∈ ys, StoreRefuses r x) ∨
      ∀ x, w.store.record r = some x → x.status.isTerminal = true := by
  simp only [AgentRuntime.runOnce, Ledger.claim, perform_bind, path_call] at hpath
  obtain ⟨reply, zs, rfl, hpath⟩ := hpath
  rcases reply with e | _ | claimed
  · obtain ⟨rfl, -⟩ := path_ret.mp hpath
    cases hr
  · obtain ⟨rfl, -⟩ := path_ret.mp hpath
    cases hr
  have hnone : claimedIds zs = [] := by
    refine List.filterMap_eq_nil_iff.mpr fun x hx ↦ ?_
    have hc := hpath.onlyCalls (executes_serve rt rounds claimed now) hx
    unfold claimedId
    split
    · exact hc.elim
    · rfl
  obtain rfl : r = claimed.record.responseId := by
    have hids : claimedIds (⟨.ledger (.claim agent now rt.execTtlMs), .ok (some claimed)⟩ :: zs) =
        claimed.record.responseId :: claimedIds zs := rfl
    rw [hids, hnone] at hr
    exact List.mem_singleton.mp hr
  obtain ⟨us, vs, rfl, hmem, hsub⟩ := List.cons_sublist_iff.mp hys
  obtain ⟨before, after, rfl⟩ := List.append_of_mem hmem
  obtain ⟨y, hy, htold⟩ := path_serve_ends hrunner hpath
  rw [List.append_assoc, List.cons_append] at h
  have hlater : y ∈ after ++ vs := List.mem_append_right _ (hsub.subset hy)
  exact (Served.told_ends hempty h hlater htold).imp_left
    fun hrefused ↦ ⟨y, List.mem_cons_of_mem _ hy, hrefused⟩

/-- Whatever else happens meanwhile and afterwards: the response of an execution by the mock agent
runner that has come to its end has ended, or is deleted, or the store has refused to finish it. -/
theorem MockAgentRunner.execution_ends {m : MockAgentRunner} (hm : ∀ n, m.Stocked n)
    {w₀ w : World} {xs ys : Exchanges} (hempty : w₀.store.inner = {}) (h : Served w₀ xs w)
    {rt : AgentRuntime} (hrt : rt.runner = m.run) {rounds : ℕ} {agent : AgentId} {now : ℕ}
    {out : Executed} (hys : ys.Sublist xs) (hpath : Path (rt.runOnce rounds agent now) ys out)
    {r : ResponseId} (hr : r ∈ claimedIds ys) :
    (∃ x ∈ ys, StoreRefuses r x) ∨
      ∀ x, w.store.record r = some x → x.status.isTerminal = true :=
  Served.steadfast_ends hempty h (hrt ▸ MockAgentRunner.steadfast hm) hys hpath hr

def Sample.rehearsing : AgentRuntime := { runner := rehearsed.run }

theorem MockAgentRunner.execution_ends_rehearsed : ∃ xs ys w,
    Served {} xs w ∧ Path (Sample.rehearsing.runOnce 4 Sample.agent 5) ys .completed ∧
    ys.Sublist xs ∧ claimedIds ys = [Sample.id 1] ∧
    ((∃ x ∈ ys, StoreRefuses (Sample.id 1) x) ∨
      ∀ x, w.store.record (Sample.id 1) = some x → x.status.isTerminal = true) := by
  have hserved : Served {} (Sample.served [Sample.file 1 0]).1
      (Sample.served [Sample.file 1 0]).2 := Sample.served_spec (by decide +kernel)
  have hsome : ((Sample.rehearsing.runOnce 4 Sample.agent 5).run exec
      (Sample.served [Sample.file 1 0]).2).map Prod.fst = some .completed := by decide +kernel
  obtain ⟨⟨out, w⟩, hrun, rfl⟩ := Option.map_eq_some_iff.mp hsome
  have hclaimed : claimedIds ((Sample.rehearsing.runOnce 4 Sample.agent 5).exchanges exec
      (Sample.served [Sample.file 1 0]).2) = [Sample.id 1] := by decide +kernel
  have hafter := (run_runOnce rfl hserved (by decide +kernel) hrun).1
  refine ⟨_, _, w, hafter, .of_run hrun, List.sublist_append_right _ _, hclaimed, ?_⟩
  exact MockAgentRunner.execution_ends (fun _ ↦ .scripted Sample.manners rfl) rfl hafter rfl
    (List.sublist_append_right _ _) (.of_run hrun) (hclaimed ▸ List.mem_singleton_self _)

end NovaChat
