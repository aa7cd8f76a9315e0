import NovaChat.Admission.Solo
import NovaChat.Agentd.Steadfast
import NovaChat.Lifecycle.Ending
import NovaChat.Lifecycle.Sweeping
import NovaChat.Turn.Calls

/-!
# Recovery

Whatever has happened to a deployment, and wherever its executions were cut off: once its dead
holders have been silent for long enough, one tick and one drain finish every response, and no
conversation stays barred by a turn that will not end.
-/

namespace NovaChat

open Interact Prog

/-! ## An attempt that nobody interferes with -/

theorem exec_reports_store {c : Call} (hc : c.Reports) (w : World) :
    (exec c w).2.store = w.store := by
  unfold Call.Reports at hc
  split at hc
  · exact exec_eventLog_store _ _
  · rfl
  · rcases c with _ | c | c | c | c | c
    · rfl
    · cases c <;> first | exact hc.elim | rfl
    · exact exec_eventLog_store _ _
    · cases c <;> first | exact hc.elim | rfl
    · exact hc.elim
    · exact hc.elim

/-- An attempt in force is not outdated. -/
theorem not_outdated_of_inForce {w : World} {r : ResponseId} {a : Attempt} (h : w.InForce r a)
    (c : Call) : ¬ Outdated r a ⟨c, (exec c w).1⟩ := by
  intro hold
  obtain ⟨x, hx, hstatus, hattempt⟩ := h
  rcases (judges_checkAttempt w.store r a).stale (checkAttempt_of_outdated hold) x hx with hne | hne
  · exact hne hattempt
  · exact hne hstatus

/-- Left alone, a steadfast runner brings its attempt to an end. -/
theorem attempt_inForce {rt : AgentRuntime} (hrunner : AgentRunner.Steadfast rt.runner)
    {rounds : ℕ} {claimed : ClaimedResponse} {verdict : Verdict} {w w' : World}
    (h : w.InForce claimed.record.responseId claimed.record.attempt)
    (hrun : (rt.attempt rounds claimed).run exec w = some (verdict, w')) :
    w'.store = w.store ∧ verdict ≠ .superseded ∧
      ∀ output, verdict = .finished output → output.status.isTerminal = true := by
  have hkept : ∀ c v, c.Reports → v.store = w.store → (exec c v).2.store = w.store :=
    fun c v hc hv ↦ (exec_reports_store hc v).trans hv
  have hreports := reports_attempt rt rounds claimed
  obtain ⟨htold, hfinal⟩ := path_attempt_told hrunner (Path.of_run hrun)
  refine ⟨run_invariant (J := fun v ↦ v.store = w.store) hkept hreports rfl hrun, ?_, hfinal⟩
  intro hsuperseded
  obtain ⟨x, hx, hold⟩ := htold hsuperseded
  obtain ⟨v, hv, heq⟩ :=
    exchanges_invariant (J := fun v ↦ v.store = w.store) hkept hreports rfl hx
  rw [heq] at hold
  refine not_outdated_of_inForce ?_ x.call hold
  simpa only [World.InForce, hv] using h

/-! ## A claim that is carried through -/

section Conclude

variable {rt : AgentRuntime} {w w' : World} {record : ResponseRecord} {e : Executed} {now : ℕ}

/-- A transition that the ledger takes, with whatever follows it. -/
theorem finished_of_complete {r : ResponseId} {a : Attempt} {status : ResponseStatus}
    {usage : Usage} {k : Except LedgerError Unit → Service Executed} (h : w.InForce r a)
    (hwritable : w.store.readOnly = false) (hterm : status.isTerminal = true)
    (hk : (k (.ok ())).OnlyCalls Call.Executes)
    (hrun : (Ledger.complete r a status usage now >>= k).run exec w = some (e, w')) :
    w'.store.Finished r := by
  obtain ⟨x, hx, hstatus, rfl⟩ := h
  have hguard : MemResponseLedger.guardWritable w.store = .ok () := by
    simp [MemResponseLedger.guardWritable, hwritable]
  have hcomplete : exec (.ledger (.complete r x.attempt status usage now)) w =
      w.withStore (.ok (), MemResponseLedger.putRecord w.store r
        { x with
          status := status, owner := none, usage := usage, completedAtMs := some now }) := by
    simp [exec, execLedger, MemResponseLedger.complete, hguard, hterm, hx, hstatus]
  simp only [Ledger.complete, perform_bind, run_call] at hrun
  rw [hcomplete] at hrun
  refine (run_tended hk hrun).finish ?_
  unfold MemStore.Finished
  rw [World.withStore_snd, MemResponseLedger.record_putRecord, if_pos rfl]
  exact ⟨_, rfl, hterm⟩

/-- A claim in force, carried through alone, is finished. -/
theorem serve_inForce (hrunner : AgentRunner.Steadfast rt.runner) {rounds : ℕ}
    {claimed : ClaimedResponse} (hwritable : w.store.readOnly = false)
    (h : w.InForce claimed.record.responseId claimed.record.attempt)
    (hrun : (rt.serve rounds claimed now).run exec w = some (e, w')) :
    w'.store.Finished claimed.record.responseId := by
  rw [rt.serve_eq, run_bind] at hrun
  obtain ⟨⟨verdict, v⟩, hattempt, hconclude⟩ := Option.bind_eq_some_iff.mp hrun
  obtain ⟨hstore, hnot, hfinal⟩ := attempt_inForce hrunner h hattempt
  have hforce : v.InForce claimed.record.responseId claimed.record.attempt := by
    simpa only [World.InForce, hstore] using h
  have hro : v.store.readOnly = false := by rw [hstore, hwritable]
  cases verdict with
  | superseded => exact absurd rfl hnot
  | failed usage produced =>
      exact finished_of_complete hforce hro rfl
        (((concludes_fail claimed.record.attempt usage produced).mono fun _ ↦
          Call.Concludes.executes).2 (.ok ())) hconclude
  | finished output =>
      exact finished_of_complete hforce hro (hfinal output rfl)
        (((concludes_complete claimed.record.attempt output).mono fun _ ↦
          Call.Concludes.executes).2 (.ok ())) hconclude

end Conclude

/-! ## What runs meanwhile -/

def MemStore.Running (s : MemStore) (r : ResponseId) : Prop :=
  ∃ x, s.record r = some x ∧ x.status = .inProgress

/-- Calls that start nothing: they accept no response, take no claim and leave the modes alone. -/
def Call.Resting : Call → Prop
  | .ledger (.create ..) | .ledger (.claim ..) | .mode _ => False
  | _ => True

theorem Call.Resting.freshIn {c : Call} (hc : c.Resting) (xs : Exchanges) : c.FreshIn xs := by
  unfold Call.FreshIn
  split
  · exact hc.elim
  · trivial

theorem Call.Executes.resting {c : Call} (hc : c.Executes) : c.Resting := by
  unfold Call.Resting
  split
  · exact hc.elim
  · exact hc.elim
  · exact hc.elim
  · trivial

theorem Call.Reads.resting {c : Call} (hc : c.Reads) : c.Resting := hc.executes.resting

theorem resting_tick (cfg : Config) (rounds : ℕ) : (tick cfg rounds).OnlyCalls Call.Resting := by
  refine (makes_tick cfg rounds).mono fun c hc ↦ ?_
  rcases hc with hlocking | hown | ⟨hturn, -⟩
  · unfold Call.Locking at hlocking
    split at hlocking
    · trivial
    · trivial
    · trivial
    · exact hlocking.resting
  · unfold Call.Resting
    split
    · exact hown.elim
    · exact hown.elim
    · exact hown.elim
    · trivial
  · exact absurd trivial hturn

section Resting

variable {c : Call} {w w' : World} {r : ResponseId}

theorem exec_resting_running (hc : c.Resting) (h : (exec c w).2.store.Running r) :
    w.store.Running r := by
  have hwrites : c.writes ≠ some r := by
    unfold Call.writes
    split
    · exact hc.elim
    · exact (Option.some_ne_none r).symm
  obtain ⟨y, hy, hstatus⟩ := h
  obtain ⟨x, hx, hstage⟩ := record_stage hwrites hy
  refine ⟨x, hx, ?_⟩
  cases hstage with
  | stay => exact hstatus
  | claim => exact hc.elim
  | complete usage now hrun hterm => exact hrun
  | cancel => cases hstatus
  | reap now ttl hrun => exact hrun

theorem exec_resting_readOnly (hc : c.Resting) :
    (exec c w).2.store.readOnly = w.store.readOnly := by
  rcases c with _ | c | c | c | c | c
  · rfl
  · exact (exec_ledgerOnly c w).readOnly
  · rw [exec_eventLog_store]
  · exact (exec_conversationOnly c w).readOnly
  · cases c <;> rfl
  · exact hc.elim

theorem run_resting {α : Type} {p : Service α} (hp : p.OnlyCalls Call.Resting) {a : α}
    (h : p.run exec w = some (a, w')) :
    w'.store.readOnly = w.store.readOnly ∧ ∀ r, w'.store.Running r → w.store.Running r :=
  run_invariant
    (J := fun v ↦ v.store.readOnly = w.store.readOnly ∧ ∀ r, v.store.Running r → w.store.Running r)
    (fun _ _ hc hv ↦ ⟨(exec_resting_readOnly hc).trans hv.1,
      fun r hr ↦ hv.2 r (exec_resting_running hc hr)⟩) hp ⟨rfl, fun _ hr ↦ hr⟩ h

theorem MemStore.Finished.not_running {s : MemStore} (h : s.Finished r) : ¬ s.Running r := by
  obtain ⟨x, hx, hterm⟩ := h
  rintro ⟨y, hy, hstatus⟩
  obtain rfl := Option.some.inj (hx.symm.trans hy)
  rw [hstatus] at hterm
  cases hterm

end Resting

/-- An attempt at a time when nothing runs leaves nothing running. -/
theorem runOnce_rests {w₀ w w' : World} {xs : Exchanges} (hempty : w₀.store.inner = {})
    (h : Served w₀ xs w) (hwritable : w.store.readOnly = false)
    (hrest : ∀ r, ¬ w.store.Running r) {rt : AgentRuntime}
    (hrunner : AgentRunner.Steadfast rt.runner) {rounds : ℕ} {agent : AgentId} {now : ℕ}
    {e : Executed} (hrun : (rt.runOnce rounds agent now).run exec w = some (e, w'))
    (r : ResponseId) : ¬ w'.store.Running r := by
  have hro : (exec (.ledger (.claim agent now rt.execTtlMs)) w).2.store.readOnly = false :=
    (exec_ledgerOnly _ w).readOnly.trans hwritable
  obtain ⟨-, hcases⟩ := MemResponseLedger.claim_cases w.store agent now rt.execTtlMs
  simp only [AgentRuntime.runOnce, Ledger.claim, perform_bind, run_call] at hrun
  rcases hcases with ⟨hnone, hrecord⟩ | ⟨id, x, hx, -, hreply, hrecord⟩
  · have hidle : w' = (exec (.ledger (.claim agent now rt.execTtlMs)) w).2 := by
      split at hrun
      · next claimed heq => exact absurd heq (hnone claimed)
      · exact (Prod.mk.inj (Option.some.inj hrun)).2.symm
      · exact (Prod.mk.inj (Option.some.inj hrun)).2.symm
    rintro ⟨y, hy, hstatus⟩
    rw [hidle] at hy
    exact hrest r ⟨y, (hrecord r).symm.trans hy, hstatus⟩
  · have hid : x.responseId = id := (Served.orderly hempty h).keyed.record hx
    have hreply' : (exec (.ledger (.claim agent now rt.execTtlMs)) w).1 =
        .ok (some ⟨MemResponseLedger.claimed x agent, satAdd now (asU64 rt.execTtlMs)⟩) := hreply
    rw [hreply'] at hrun
    have hfinished := serve_inForce hrunner hro
      ⟨_, (hrecord _).trans (if_pos hid), rfl, rfl⟩ hrun
    have hback := (run_resting ((executes_serve rt rounds _ now).mono fun _ ↦
      Call.Executes.resting) hrun).2
    by_cases hr : r = id
    · rw [hr, ← hid]
      exact hfinished.not_running
    · intro hrunning
      obtain ⟨y, hy, hstatus⟩ := hback r hrunning
      exact hrest r ⟨y, ((hrecord r).trans (if_neg hr)).symm.trans hy, hstatus⟩

/-- A drain at a time when nothing runs takes the head of the line, and leaves nothing running. -/
theorem drain_rests {w₀ w w' : World} {xs : Exchanges} (hempty : w₀.store.inner = {})
    (h : Served w₀ xs w) (hwritable : w.store.readOnly = false)
    (hrest : ∀ r, ¬ w.store.Running r) {rt : AgentRuntime}
    (hrunner : AgentRunner.Steadfast rt.runner) {rounds now : ℕ} {agents : List AgentId}
    {out : List Executed} (hrun : (rt.drain rounds now agents).run exec w = some (out, w')) :
    Served w₀ (xs ++ (rt.drain rounds now agents).exchanges exec w) w' ∧
      (∀ r, ¬ w'.store.Running r) ∧
      line (xs ++ (rt.drain rounds now agents).exchanges exec w) w' =
        (line xs w).drop agents.length ∧
      ∀ r, w.store.Finished r → w'.store.Finished r := by
  induction agents generalizing xs w out with
  | nil =>
      obtain ⟨rfl, rfl⟩ := Prod.mk.inj (Option.some.inj hrun)
      rw [AgentRuntime.drain, exchanges_ret, List.append_nil]
      exact ⟨h, hrest, rfl, fun _ hr ↦ hr⟩
  | cons agent agents ih =>
      rw [AgentRuntime.drain, run_bind] at hrun
      obtain ⟨⟨e, v⟩, honce, hlater⟩ := Option.bind_eq_some_iff.mp hrun
      rw [AgentRuntime.drain, exchanges_bind_of_eq honce]
      have hv := runOnce_rests hempty h hwritable hrest hrunner honce
      obtain ⟨hserved, hkept, ⟨hnil, rfl, -, hleft⟩ | ⟨r, rest, hline, hcarried, -, hleft, hro⟩⟩ :=
        run_runOnce hempty h hwritable honce
      · obtain ⟨rfl, rfl⟩ := Prod.mk.inj (Option.some.inj hlater)
        rw [if_pos rfl, exchanges_ret, List.append_nil]
        exact ⟨hserved, hv, by rw [hleft, hnil, List.drop_nil], hkept⟩
      · rw [if_neg hcarried.busy, run_bind] at hlater
        obtain ⟨⟨out', v'⟩, hdrain, hout⟩ := Option.bind_eq_some_iff.mp hlater
        obtain ⟨rfl, rfl⟩ := Prod.mk.inj (Option.some.inj hout)
        obtain ⟨hserved', hv', hleft', hkept'⟩ := ih hserved hro hv hdrain
        rw [if_neg hcarried.busy, exchanges_bind_of_eq hdrain, exchanges_ret, List.append_nil,
          ← List.append_assoc]
        exact ⟨hserved', hv', by rw [hleft', hleft, hline, List.length_cons, List.drop_succ_cons],
          fun r' hr' ↦ hkept' r' (hkept r' hr')⟩

/-! ## After a crash -/

/-- Nobody has reported for longer than `ttlMs`. -/
def World.Silent (w : World) (ttlMs : ℕ) : Prop :=
  ∀ agent beat, w.store.inner.heartbeats.lookup agent = some beat →
    asU64 ttlMs < w.clock - beat

/-- A tick in silence takes what runs, and neither starts nor keeps anything else. -/
theorem tick_rests {w₀ w w' : World} {xs : Exchanges} (hempty : w₀.store.inner = {})
    (h : Served w₀ xs w) {cfg : Config} {rounds : ℕ} (hsilent : w.Silent cfg.heartbeatTtlMs)
    (hrun : (tick cfg rounds).run exec w = some ((), w')) :
    Served w₀ (xs ++ (tick cfg rounds).exchanges exec w) w' ∧
      w'.store.readOnly = w.store.readOnly ∧ (∀ r, ¬ w'.store.Running r) ∧
      line (xs ++ (tick cfg rounds).exchanges exec w) w' = line xs w ∧
      ∀ r, w.store.Finished r → w'.store.Finished r := by
  have hkeyed := (Served.orderly hempty h).keyed
  obtain ⟨aborted, v, v', hids, hclaims, hrec, hkv, -, -, hsettle, rfl⟩ :=
    run_tick_parts hkeyed hrun
  have hrecord : ∀ r, v'.store.record r = if r ∈ aborted.map AbortedClaim.responseId then
      (w.store.record r).map (MemResponseLedger.superseded · .failed w.clock)
      else w.store.record r := fun r ↦
    ((run_settleAll_beside hkv hsettle).1 r).trans (hrec r)
  have htaken : ∀ r ∈ aborted.map AbortedClaim.responseId, w.store.Running r := fun r hr ↦ by
    obtain ⟨a, ha, rfl⟩ := List.mem_map.mp hr
    obtain ⟨x, hx, hstatus, -⟩ := hclaims a ha
    exact ⟨x, hx, hstatus⟩
  have hcreated : created ((tick cfg rounds).exchanges exec w) = [] := by
    refine List.filterMap_eq_nil_iff.mpr fun x hx ↦ ?_
    have hc := exchanges_of_onlyCalls (resting_tick cfg rounds) hx
    unfold createdId
    split
    · exact hc.elim
    · rfl
  have hserved := History.of_run (fun zs c hc ↦ Call.Resting.freshIn hc zs)
    (resting_tick cfg rounds) h hrun
  refine ⟨hserved, (run_resting (resting_tick cfg rounds) hrun).1, fun r hrunning ↦ ?_, ?_,
    fun r hfinished ↦ ?_⟩
  · -- What ran before was silent, so the tick has taken it.
    obtain ⟨x, hx, hstatus⟩ := (run_resting (resting_tick cfg rounds) hrun).2 r hrunning
    obtain ⟨agent, howner, hbeat⟩ := Served.reported hempty h r x hx hstatus
    obtain ⟨beat, hbeat⟩ := Option.isSome_iff_exists.mp hbeat
    have hsilence : w.store.silence x w.clock = some (w.clock - beat) := by
      simp [MemStore.silence, howner, hbeat]
    have hmem : r ∈ aborted.map AbortedClaim.responseId := by
      rw [hids]
      exact (mem_toFail_iff (Served.reported hempty h)).mpr
        ⟨x, _, hx, hstatus, hsilence, hsilent agent beat hbeat⟩
    obtain ⟨y, hy, hrunning⟩ := hrunning
    have hy := (hrecord r).symm.trans hy
    rw [if_pos hmem, hx] at hy
    obtain rfl := Option.some.inj hy
    cases hrunning
  · unfold line
    rw [created_append, hcreated, List.append_nil]
    refine List.filter_congr fun r _ ↦ ?_
    show v'.store.waits r = w.store.waits r
    unfold MemStore.waits
    rw [hrecord]
    split_ifs with hmem
    · obtain ⟨x, hx, hstatus⟩ := htaken r hmem
      simp [hx, hstatus, MemResponseLedger.superseded]
    · rfl
  · obtain ⟨x, hx, hterm⟩ := hfinished
    refine ⟨x, (hrecord r).trans ?_, hterm⟩
    rw [if_neg fun hmem ↦ MemStore.Finished.not_running ⟨x, hx, hterm⟩ (htaken r hmem), hx]

/-- Nothing is left to do, and nothing stands in the way of the next turn. -/
structure Recovered (w w' : World) : Prop where
  ended : ∀ r x, w'.store.record r = some x → x.status.isTerminal = true
  kept : ∀ r, w.store.Finished r → w'.store.Finished r
  unbarred : ∀ tenant c id, MemConversationStore.guardWritable w'.store = .ok () →
    (MemConversationStore.owned w'.store tenant c).isSome = true →
    MemConversationStore.ensureEventCapacity w'.store c = .ok () →
    ∃ v, (ResponsesService.acquireFor tenant (some c) id).run exec w' = some (.ok (), v)

theorem recovered_of_steadfast {w₀ w v w' : World} {xs : Exchanges} (hempty : w₀.store.inner = {})
    (h : Served w₀ xs w) (hwritable : w.store.readOnly = false) {cfg : Config} {rounds : ℕ}
    (hsilent : w.Silent cfg.heartbeatTtlMs)
    (htick : (tick cfg rounds).run exec w = some ((), v)) {rt : AgentRuntime}
    (hrunner : AgentRunner.Steadfast rt.runner) {rounds' now : ℕ} {agents : List AgentId}
    (hagents : (line xs w).length ≤ agents.length) {out : List Executed}
    (hdrain : (rt.drain rounds' now agents).run exec v = some (out, w')) : Recovered w w' := by
  obtain ⟨hserved, hro, hrest, hline, hkept⟩ := tick_rests hempty h hsilent htick
  obtain ⟨hserved', hrest', hleft, hkept'⟩ :=
    drain_rests hempty hserved (hro.trans hwritable) hrest hrunner hdrain
  have hnil : line _ w' = [] := hleft.trans (List.drop_eq_nil_of_le (hline ▸ hagents))
  have hended : ∀ r x, w'.store.record r = some x → x.status.isTerminal = true := by
    intro r x hx
    cases hstatus : x.status with
    | queued =>
        have hmem : r ∈ line _ w' := List.mem_filter.mpr
          ⟨(Served.orderly hempty hserved').created hx,
            (MemStore.waits_eq_true _).mpr ⟨x, hx, hstatus⟩⟩
        rw [hnil] at hmem
        cases hmem
    | inProgress => exact absurd ⟨x, hx, hstatus⟩ (hrest' r)
    | _ => rfl
  refine ⟨hended, fun r hr ↦ hkept' r (hkept r hr), fun tenant c id hguard howned hroom ↦ ?_⟩
  obtain ⟨x, hx⟩ := Option.isSome_iff_exists.mp howned
  obtain ⟨reply, u, hrun, -, hend⟩ :=
    run_acquireFor (Served.orderly hempty hserved').keyed tenant (.conversation c) id
  have hlockable : w'.store.Lockable tenant c id :=
    ⟨hguard, x, hx, Or.inr ⟨hroom, fun holder _ ↦ hended holder⟩⟩
  have hok : reply = .ok () := hend.mpr fun c' hc' ↦ by
    obtain rfl : c = c' := Option.some.inj hc'
    exact hlockable
  exact ⟨u, hok ▸ hrun⟩

/-- Wherever the executions of a deployment were cut off, a tick in silence and a drain of the line
by the mock agent runner finish every response, and no conversation stays barred. -/
theorem recovery {m : MockAgentRunner} (hm : ∀ n, m.Stocked n) {w₀ w v w' : World} {xs : Exchanges}
    (hempty : w₀.store.inner = {}) (h : Served w₀ xs w) (hwritable : w.store.readOnly = false)
    {cfg : Config} {rounds : ℕ} (hsilent : w.Silent cfg.heartbeatTtlMs)
    (htick : (tick cfg rounds).run exec w = some ((), v)) {rt : AgentRuntime}
    (hrt : rt.runner = m.run) {rounds' now : ℕ} {agents : List AgentId}
    (hagents : (line xs w).length ≤ agents.length) {out : List Executed}
    (hdrain : (rt.drain rounds' now agents).run exec v = some (out, w')) : Recovered w w' :=
  recovered_of_steadfast hempty h hwritable hsilent htick (hrt ▸ MockAgentRunner.steadfast hm)
    hagents hdrain

namespace Sample

/-- The turn of a conversation is claimed, its agent is not heard of again, and another response
waits. -/
def crashed : Exchanges × World :=
  served [.conversations (.create (.new talk tenant [] 0)),
    .conversations (.acquireActive tenant talk (id 1) 0),
    .ledger (.create (.queued (id 1) tenant spec (.forResponse (id 1)) 0 1000)
      (.forResponse (id 1)) 0),
    file 2 1, .ledger (.claim agent 5 60), .mode (.setClock 100000)]

end Sample

theorem recovery_crashed : ∃ v out w',
    (tick Sample.cfg 4).run exec Sample.crashed.2 = some ((), v) ∧
    (Sample.rehearsing.drain 4 100001 [Sample.agent, Sample.agent]).run exec v = some (out, w') ∧
    out = [.completed, .idle] ∧ Recovered Sample.crashed.2 w' := by
  have hserved : Served {} Sample.crashed.1 Sample.crashed.2 :=
    Sample.served_spec (by decide +kernel)
  have hsome : (((tick Sample.cfg 4).run exec Sample.crashed.2).bind fun v ↦
      (Sample.rehearsing.drain 4 100001 [Sample.agent, Sample.agent]).run exec v.2).map Prod.fst =
        some [.completed, .idle] := by decide +kernel
  obtain ⟨⟨out, w'⟩, hrun, hout⟩ := Option.map_eq_some_iff.mp hsome
  obtain ⟨⟨⟨⟩, v⟩, htick, hdrain⟩ := Option.bind_eq_some_iff.mp hrun
  refine ⟨v, out, w', htick, hdrain, hout, recovery
    (fun _ ↦ .scripted Sample.manners rfl) rfl hserved (by decide +kernel) ?_ htick rfl
    (by decide +kernel) hdrain⟩
  intro agent beat hbeat
  have hold : ∀ e ∈ Sample.crashed.2.store.inner.heartbeats.entries,
      asU64 Sample.cfg.heartbeatTtlMs < Sample.crashed.2.clock - e.2 := by decide +kernel
  exact hold ⟨agent, beat⟩ ((HashMap.mem_entries_iff _ _ _).mpr hbeat)

end NovaChat
