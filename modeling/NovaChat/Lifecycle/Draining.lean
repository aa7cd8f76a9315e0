import NovaChat.Lifecycle.Queue
import NovaChat.Turn.Endings

/-!
# Draining

A runtime that is left alone works off the line: each attempt claims the response at its head and
carries it through, and the first attempt that finds nothing ends the drain.
-/

namespace NovaChat

open Interact Prog

/-- Drain everything currently queued, with one holder for each attempt. -/
def AgentRuntime.drain (rt : AgentRuntime) (rounds : ℕ) (now : ℕ) :
    List AgentId → Service (List Executed)
  | [] => .ret []
  | agent :: agents =>
    rt.runOnce rounds agent now >>= fun r ↦
      if r = .idle then .ret [r]
      else rt.drain rounds now agents >>= fun out ↦ .ret (r :: out)

/-! ## Carrying a claim through -/

/-- The calls of an execution once it has its claim. -/
def Call.Executes : Call → Prop
  | .nowMs | .eventLog _ | .conversations _ => True
  | .ledger (.complete ..) | .ledger (.get ..) | .ledger (.checkAttempt ..) => True
  | _ => False

theorem Call.Executes.freshIn {c : Call} (hc : c.Executes) (xs : Exchanges) : c.FreshIn xs := by
  unfold Call.FreshIn
  split
  · exact hc.elim
  · trivial

theorem Call.Reads.executes {c : Call} (hc : c.Reads) : c.Executes := by
  rcases c with _ | c | c | c | c | c
  · trivial
  · cases c <;> first | exact hc.elim | trivial
  · trivial
  · trivial
  · exact hc.elim
  · exact hc.elim

theorem Call.Reports.executes {c : Call} (hc : c.Reports) : c.Executes := by
  unfold Call.Reports at hc
  split at hc
  · trivial
  · trivial
  · exact hc.executes

theorem Call.Concludes.executes {record : ResponseRecord} {now : ℕ} {commit : TurnCommit} {c : Call}
    (hc : c.Concludes record now commit) : c.Executes := by
  cases hc with
  | settle h => cases h <;> trivial
  | _ => trivial

section Programs

variable (rt : AgentRuntime) (record : ResponseRecord)

theorem executes_serve (rounds : ℕ) (claimed : ClaimedResponse) (now : ℕ) :
    (rt.serve rounds claimed now).OnlyCalls Call.Executes := by
  rw [rt.serve_eq]
  exact ((reports_attempt rt rounds claimed).mono fun _ ↦ Call.Reports.executes).bind
    fun verdict ↦ (concludes_conclude claimed verdict).mono fun _ hc ↦ hc.choose_spec.2.executes

/-- What the funnel of a finished run reports. -/
theorem path_complete {attempt : Attempt} {output : TerminalOutput} {now : ℕ} {xs : Exchanges}
    {out : Executed} (h : Path (rt.complete record attempt output now) xs out) :
    out = .failed ∨ out = .completed := by
  unfold AgentRuntime.complete at h
  simp only [Ledger.complete, perform_bind, path_call] at h
  obtain ⟨r, ys, -, h⟩ := h
  rcases r with e | ⟨⟩
  · exact Or.inl (path_ret.mp h).2
  simp only [path_bind (p := rt.storeOutput _ _ _), path_bind (p := rt.settle _ _ _ _)] at h
  obtain ⟨stored, us, vs, -, -, ⟨⟩, ss, zs, -, -, h⟩ := h
  split at h
  · exact Or.inl (path_ret.mp h).2
  · simp only [Ledger.get, perform_bind, path_call, path_bind] at h
    obtain ⟨reply, ts, -, -, _, _, -, -, h⟩ := h
    exact Or.inr (path_ret.mp h).2

/-- What the funnel of a failed run reports. -/
theorem path_fail {attempt : Attempt} {usage : Usage} {produced : List ResponseItem} {now : ℕ}
    {xs : Exchanges} {out : Executed}
    (h : Path (rt.fail record attempt usage produced now) xs out) : out = .failed := by
  unfold AgentRuntime.fail at h
  simp only [Ledger.complete, perform_bind, path_call] at h
  obtain ⟨r, ys, -, h⟩ := h
  rcases r with e | ⟨⟩
  · exact (path_ret.mp h).2
  simp only [path_bind, Ledger.get, perform_bind, path_call] at h
  obtain ⟨_, us, vs, -, -, _, ss, zs, -, -, reply, ts, -, _, as, bs, -, -, h⟩ := h
  exact (path_ret.mp h).2

end Programs

/-! ## What stays meanwhile -/

/-- An execution leaves the queue, the waiting responses and the finished ones alone. -/
structure MemStore.Tended (s s' : MemStore) : Prop where
  readOnly : s'.readOnly = s.readOnly
  queued : s'.inner.queued = s.inner.queued
  waits : ∀ r, s'.waits r = s.waits r
  finished : ∀ {r x}, s.record r = some x → x.status.isTerminal = true → s'.record r = some x

theorem MemStore.Tended.refl (s : MemStore) : s.Tended s := ⟨rfl, rfl, fun _ ↦ rfl, fun h _ ↦ h⟩

theorem MemStore.Tended.trans {s s' s'' : MemStore} (h : s.Tended s') (h' : s'.Tended s'') :
    s.Tended s'' where
  readOnly := h'.readOnly.trans h.readOnly
  queued := h'.queued.trans h.queued
  waits := fun r ↦ (h'.waits r).trans (h.waits r)
  finished := fun hx hterm ↦ h'.finished (h.finished hx hterm) hterm

theorem MemStore.Tended.of_records {s s' : MemStore} (hro : s'.readOnly = s.readOnly)
    (hqueued : s'.inner.queued = s.inner.queued) (hrecord : ∀ r, s'.record r = s.record r) :
    s.Tended s' where
  readOnly := hro
  queued := hqueued
  waits := fun r ↦ by simp only [MemStore.waits, hrecord]
  finished := fun hx _ ↦ by rw [hrecord, hx]

theorem exec_tended {c : Call} (hc : c.Executes) (w : World) :
    w.store.Tended (exec c w).2.store := by
  rcases c with _ | c | c | c | c | c
  · exact .refl _
  · cases c with
    | complete id attempt status usage now =>
        rcases MemResponseLedger.complete_cases w.store id attempt status usage now with
          ⟨e, heq⟩ | ⟨x, -, hx, -, hstatus, hterm, heq⟩ <;> simp only [exec, execLedger, heq]
        · exact .refl _
        · refine ⟨rfl, rfl, fun r ↦ ?_, fun {r y} hy hdone ↦ ?_⟩
          · simp only [World.withStore_snd, MemStore.waits, MemResponseLedger.record_putRecord]
            split
            · next hr =>
                have hopen : decide (status = .queued) = false :=
                  decide_eq_false fun heq ↦ by rw [heq] at hterm; cases hterm
                simp [hr, hx, hstatus, hopen]
            · rfl
          · have hne : r ≠ id := by
              rintro rfl
              obtain rfl := Option.some.inj (hx.symm.trans hy)
              rw [hstatus] at hdone
              cases hdone
            rwa [World.withStore_snd, MemResponseLedger.record_putRecord, if_neg hne]
    | get => exact .refl _
    | checkAttempt => exact .refl _
    | _ => exact hc.elim
  · rw [exec_eventLog_store]
    exact .refl _
  · exact .of_records (exec_conversationOnly c w).readOnly (exec_conversationOnly c w).queued
      (exec_conversations_record c w)
  · exact hc.elim
  · exact hc.elim

theorem run_tended {α : Type} {p : Service α} (hp : p.OnlyCalls Call.Executes) {a : α}
    {w w' : World} (h : p.run exec w = some (a, w')) : w.store.Tended w'.store :=
  run_invariant (J := fun v ↦ w.store.Tended v.store)
    (fun _ v hc hv ↦ hv.trans (exec_tended hc v)) hp (.refl _) h

/-- The response is finished. -/
def MemStore.Finished (s : MemStore) (r : ResponseId) : Prop :=
  ∃ x, s.record r = some x ∧ x.status.isTerminal = true

theorem MemStore.Tended.finish {s s' : MemStore} (h : s.Tended s') {r : ResponseId}
    (hr : s.Finished r) : s'.Finished r := by
  obtain ⟨x, hx, hterm⟩ := hr
  exact ⟨x, h.finished hx hterm, hterm⟩

/-- What an attempt on `r` has come to. -/
structure Carried (s : MemStore) (r : ResponseId) (e : Executed) : Prop where
  busy : e ≠ .idle
  finished : e = .completed → s.Finished r

section Serve

variable {rt : AgentRuntime} {w w' : World} {e : Executed}

/-- A completed run has finished its response. -/
theorem run_complete {record : ResponseRecord} {attempt : Attempt} {output : TerminalOutput}
    {now : ℕ} (h : (rt.complete record attempt output now).run exec w = some (e, w')) :
    Carried w'.store record.responseId e := by
  have hresult := path_complete rt record (Path.of_run h)
  refine ⟨?_, fun hdone ↦ ?_⟩
  · rintro rfl
    rcases hresult with h | h <;> cases h
  · have hprogram : (rt.complete record attempt output now).OnlyCalls Call.Executes :=
      (concludes_complete attempt output).mono fun _ ↦ Call.Concludes.executes
    unfold AgentRuntime.complete at h hprogram
    simp only [Ledger.complete, perform_bind, run_call, onlyCalls_call] at h hprogram
    have hexec : exec (.ledger (.complete record.responseId attempt output.status output.usage now))
        w = w.withStore (MemResponseLedger.complete w.store record.responseId attempt output.status
          output.usage now) := rfl
    rw [hexec] at h
    rcases MemResponseLedger.complete_cases w.store record.responseId attempt output.status
      output.usage now with ⟨x, heq⟩ | ⟨x, -, -, -, -, hterm, heq⟩
    · rw [heq] at h
      obtain ⟨rfl, -⟩ := Prod.mk.inj (Option.some.inj h)
      cases hdone
    · rw [heq] at h
      refine (run_tended (hprogram.2 (.ok ())) h).finish ?_
      unfold MemStore.Finished
      rw [World.withStore_snd, MemResponseLedger.record_putRecord, if_pos rfl]
      exact ⟨_, rfl, hterm⟩

/-- A claim that is carried through. -/
theorem run_serve {rounds : ℕ} {claimed : ClaimedResponse} {now : ℕ}
    (h : (rt.serve rounds claimed now).run exec w = some (e, w')) :
    Carried w'.store claimed.record.responseId e := by
  rw [rt.serve_eq, run_bind] at h
  obtain ⟨⟨verdict, v⟩, -, h⟩ := Option.bind_eq_some_iff.mp h
  cases verdict with
  | superseded =>
      obtain ⟨rfl, -⟩ := Prod.mk.inj (Option.some.inj h)
      exact ⟨nofun, nofun⟩
  | failed usage produced =>
      obtain rfl := path_fail rt claimed.record (Path.of_run h)
      exact ⟨nofun, nofun⟩
  | finished output => exact run_complete h

end Serve

/-! ## Working off the line -/

theorem claimedIds_append (xs ys : Exchanges) :
    claimedIds (xs ++ ys) = claimedIds xs ++ claimedIds ys := List.filterMap_append

theorem claimedIds_of_executes {p : Service Executed} (hp : p.OnlyCalls Call.Executes) (w : World) :
    claimedIds (p.exchanges exec w) = [] := by
  refine List.filterMap_eq_nil_iff.mpr fun x hx ↦ ?_
  have hc := exchanges_of_onlyCalls hp hx
  unfold claimedId
  split
  · exact hc.elim
  · rfl

theorem created_of_executes {p : Service Executed} (hp : p.OnlyCalls Call.Executes) (w : World) :
    created (p.exchanges exec w) = [] := by
  refine List.filterMap_eq_nil_iff.mpr fun x hx ↦ ?_
  have hc := exchanges_of_onlyCalls hp hx
  unfold createdId
  split
  · exact hc.elim
  · rfl

theorem created_append (xs ys : Exchanges) : created (xs ++ ys) = created xs ++ created ys :=
  List.filterMap_append

theorem line_of_tended {xs ys : Exchanges} {w w' : World} (h : w.store.Tended w'.store)
    (hcreated : created ys = created xs) : line ys w' = line xs w := by
  unfold line
  rw [hcreated]
  exact List.filter_congr fun r _ ↦ h.waits r

theorem Served.created_nodup {w₀ w : World} {xs : Exchanges} (h : Served w₀ xs w) :
    (created xs).Nodup := by
  refine h.invariant (J := fun ys _ ↦ (created ys).Nodup) (fun ys v c hJ hc ↦ ?_) List.nodup_nil
  rw [created_snoc]
  cases hid : createdId ⟨c, (exec c v).1⟩ with
  | none => simpa using hJ
  | some r =>
      obtain ⟨record, key, now, x, rfl, hr, -⟩ := createdId_exec hid
      obtain ⟨-, hfresh⟩ : record.Unstarted ∧ record.responseId ∉ created ys := hc
      rw [hr] at hfresh
      exact List.nodup_append.mpr ⟨hJ, List.nodup_singleton r, fun a ha b hb ↦ by
        rw [List.mem_singleton.mp hb]
        rintro rfl
        exact hfresh ha⟩

/-- A claim takes the head off the line and leaves the rest of it as it is. -/
theorem Lined.claim_line {xs : Exchanges} {w : World} (h : Lined xs w)
    (hnodup : (created xs).Nodup) (agent : AgentId) (now ttl : ℕ)
    (hwritable : w.store.readOnly = false) {r : ResponseId} {rest : List ResponseId}
    (hline : line xs w = r :: rest) :
    ∃ x, w.store.record r = some x ∧
      (exec (.ledger (.claim agent now ttl)) w).1 =
        .ok (some ⟨MemResponseLedger.claimed x agent, satAdd now (asU64 ttl)⟩) ∧
      (exec (.ledger (.claim agent now ttl)) w).2.store.readOnly = false ∧
      (∀ r', w.store.Finished r' →
        (exec (.ledger (.claim agent now ttl)) w).2.store.Finished r') ∧
      line (xs ++ [⟨.ledger (.claim agent now ttl), (exec (.ledger (.claim agent now ttl)) w).1⟩])
        (exec (.ledger (.claim agent now ttl)) w).2 = rest := by
  have hfresh : (Call.ledger (.claim agent now ttl)).FreshIn xs := trivial
  have hback : ∀ r, (exec (.ledger (.claim agent now ttl)) w).2.store.waits r = true →
      w.store.waits r = true := fun r ↦ waits_back_of_not_create hfresh rfl
  rcases h.claim_reply agent now ttl hwritable with
    ⟨hnil, -⟩ | ⟨r', x, stale, rest', hline', -, hx, hstatus, hreply, heq⟩
  · rw [hline] at hnil
    cases hnil
  obtain ⟨rfl, -⟩ := List.cons.inj (hline.symm.trans hline')
  have hrecord : ∀ r', (exec (.ledger (.claim agent now ttl)) w).2.store.record r' =
      if r' = r then some (MemResponseLedger.claimed x agent) else w.store.record r' := fun r' ↦ by
    rw [heq]
    exact MemResponseLedger.record_take ..
  have hlinenodup : (r :: rest).Nodup := hline ▸ hnodup.filter _
  refine ⟨x, hx, hreply, by rw [heq]; exact hwritable, fun r' ⟨y, hy, hterm⟩ ↦ ⟨y, ?_, hterm⟩, ?_⟩
  · have hne : r' ≠ r := by
      rintro rfl
      obtain rfl := Option.some.inj (hx.symm.trans hy)
      rw [hstatus] at hterm
      cases hterm
    rw [hrecord, if_neg hne, hy]
  · -- What waits now waited before, so the line is what is left of it.
    have hgone : (exec (.ledger (.claim agent now ttl)) w).2.store.waits r = false := by
      rw [MemStore.waits, hrecord, if_pos rfl]
      rfl
    unfold line at hline ⊢
    rw [created_snoc_of_not_create rfl, ← filter_filter_of_imp hback (created xs), hline,
      List.filter_cons, hgone, if_neg (by simp)]
    refine List.filter_eq_self.mpr fun r' hr' ↦ ?_
    have hne : r' ≠ r := fun heq' ↦ (List.nodup_cons.mp hlinenodup).1 (heq' ▸ hr')
    have hwaits : w.store.waits r' = true :=
      List.of_mem_filter (hline ▸ List.mem_cons_of_mem r hr')
    rwa [MemStore.waits, hrecord, if_neg hne]

/-- One attempt serves the head of the line, or finds the line empty. -/
theorem run_runOnce {w₀ w w' : World} {xs : Exchanges} (hempty : w₀.store.inner = {})
    (h : Served w₀ xs w) (hwritable : w.store.readOnly = false) {rt : AgentRuntime} {rounds : ℕ}
    {agent : AgentId} {now : ℕ} {e : Executed}
    (hrun : (rt.runOnce rounds agent now).run exec w = some (e, w')) :
    Served w₀ (xs ++ (rt.runOnce rounds agent now).exchanges exec w) w' ∧
    (∀ r, w.store.Finished r → w'.store.Finished r) ∧
    (line xs w = [] ∧ e = .idle ∧
        claimedIds ((rt.runOnce rounds agent now).exchanges exec w) = [] ∧
        line (xs ++ (rt.runOnce rounds agent now).exchanges exec w) w' = [] ∨
      ∃ r rest, line xs w = r :: rest ∧ Carried w'.store r e ∧
        claimedIds ((rt.runOnce rounds agent now).exchanges exec w) = [r] ∧
        line (xs ++ (rt.runOnce rounds agent now).exchanges exec w) w' = rest ∧
        w'.store.readOnly = false) := by
  have hlined := Served.lined hempty h
  have hclaimed : Served w₀ (xs ++ [⟨.ledger (.claim agent now rt.execTtlMs),
      (exec (.ledger (.claim agent now rt.execTtlMs)) w).1⟩])
      (exec (.ledger (.claim agent now rt.execTtlMs)) w).2 := h.snoc _ trivial
  simp only [AgentRuntime.runOnce, Ledger.claim, perform_bind, run_call, exchanges_call]
    at hrun ⊢
  cases hline : line xs w with
  | nil =>
      rcases hlined.claim_reply agent now rt.execTtlMs hwritable with
        ⟨-, hreply, heq⟩ | ⟨r, x, stale, rest, hline', -⟩
      · have hgone := (Served.lined hempty hclaimed).waiting
        rw [hreply] at hrun hclaimed hgone ⊢
        obtain ⟨rfl, rfl⟩ := Prod.mk.inj (Option.some.inj hrun)
        refine ⟨hclaimed, fun r hr ↦ by rw [heq]; exact hr, Or.inl ⟨rfl, rfl, rfl, ?_⟩⟩
        exact hgone.symm.trans (by rw [heq]; rfl)
      · rw [hline] at hline'
        cases hline'
  | cons r rest =>
      obtain ⟨x, hx, hreply, hro, hkept, hrest⟩ :=
        hlined.claim_line h.created_nodup agent now rt.execTtlMs hwritable hline
      rw [hreply] at hrun hclaimed hrest ⊢
      -- The claim has taken `r` off the line; what follows it only tends to the claim.
      have hid : x.responseId = r := (Served.orderly hempty h).keyed.record hx
      have hserves := executes_serve rt rounds
        ⟨MemResponseLedger.claimed x agent, satAdd now (asU64 rt.execTtlMs)⟩ now
      have htended := run_tended hserves hrun
      have hserved := History.of_run (fun zs c hc ↦ hc.freshIn zs) hserves hclaimed hrun
      have hcreated := created_of_executes hserves
        (exec (.ledger (.claim agent now rt.execTtlMs)) w).2
      rw [List.append_assoc] at hserved
      refine ⟨hserved, fun r' hr' ↦ htended.finish (hkept r' hr'),
        Or.inr ⟨r, rest, rfl, ?_, ?_, ?_, ?_⟩⟩
      · exact hid ▸ run_serve hrun
      · show x.responseId :: claimedIds ((rt.serve rounds _ now).exchanges exec _) = [r]
        rw [claimedIds_of_executes hserves, hid]
      · rw [line_of_tended htended, hrest]
        rw [← List.singleton_append, ← List.append_assoc, created_append, hcreated, List.append_nil]
      · exact htended.readOnly.trans hro

/-- What a drain has come to: the first of the line are claimed, one for each attempt, and the
others still wait in their order. -/
structure Drained (xs : Exchanges) (w : World) (attempts : ℕ) (ys : Exchanges)
    (out : List Executed) (w' : World) : Prop where
  claimed : claimedIds ys = (line xs w).take attempts
  left : line (xs ++ ys) w' = (line xs w).drop attempts
  results : ∃ results, List.Forall₂ (Carried w'.store) ((line xs w).take attempts) results ∧
    out = results ++ if (line xs w).length < attempts then [.idle] else []
  kept : ∀ r, w.store.Finished r → w'.store.Finished r

/-- Left alone, a runtime serves the line from its head, one response for each attempt, and reports
idle where the line ends. -/
theorem drain_serves {w₀ w w' : World} {xs : Exchanges} (hempty : w₀.store.inner = {})
    (h : Served w₀ xs w) (hwritable : w.store.readOnly = false) {rt : AgentRuntime}
    {rounds now : ℕ} {agents : List AgentId} {out : List Executed}
    (hrun : (rt.drain rounds now agents).run exec w = some (out, w')) :
    Drained xs w agents.length ((rt.drain rounds now agents).exchanges exec w) out w' := by
  induction agents generalizing xs w out with
  | nil =>
      obtain ⟨rfl, rfl⟩ := Prod.mk.inj (Option.some.inj hrun)
      exact ⟨rfl, by simp [AgentRuntime.drain], ⟨[], .nil, rfl⟩, fun _ hr ↦ hr⟩
  | cons agent agents ih =>
      rw [AgentRuntime.drain, run_bind] at hrun
      obtain ⟨⟨e, v⟩, honce, hrest⟩ := Option.bind_eq_some_iff.mp hrun
      rw [AgentRuntime.drain, exchanges_bind_of_eq honce]
      obtain ⟨hserved, hkept, ⟨hnil, rfl, hclaimed, hleft⟩ |
        ⟨r, rest, hline, hcarried, hclaimed, hleft, hro⟩⟩ :=
        run_runOnce hempty h hwritable honce
      · obtain ⟨rfl, rfl⟩ := Prod.mk.inj (Option.some.inj hrest)
        refine ⟨?_, ?_, ⟨[], ?_, ?_⟩, hkept⟩ <;> rw [hnil]
        · simpa using hclaimed
        · simpa using hleft
        · exact .nil
        · simp
      · rw [if_neg hcarried.busy, run_bind] at hrest
        obtain ⟨⟨out', v'⟩, hdrain, hout⟩ := Option.bind_eq_some_iff.mp hrest
        obtain ⟨rfl, rfl⟩ := Prod.mk.inj (Option.some.inj hout)
        have hlater := ih hserved hro hdrain
        obtain ⟨results, hresults, hout'⟩ := hlater.results
        rw [if_neg hcarried.busy, exchanges_bind_of_eq hdrain, exchanges_ret, List.append_nil]
        refine ⟨?_, ?_, ⟨e :: results, ?_, ?_⟩, fun r' hr' ↦ hlater.kept r' (hkept r' hr')⟩
        · rw [claimedIds_append, hclaimed, hlater.claimed, hleft, hline]
          rfl
        · rw [← List.append_assoc, hlater.left, hleft, hline]
          rfl
        · rw [hline]
          exact .cons ⟨hcarried.busy, fun hdone ↦ hlater.kept r (hcarried.finished hdone)⟩
            (hleft ▸ hresults)
        · rw [hout', hleft, hline]
          simp

/-- A cancelled response and two that wait, for a runtime with three attempts. -/
def Sample.queue : Exchanges × World :=
  Sample.served [Sample.file 1 0, Sample.file 2 1, Sample.file 3 2,
    .ledger (.cancel Sample.tenant (Sample.id 1) 3)]

theorem drain_serves_queue : ∃ out w',
    (Sample.runtime.drain 4 5 [Sample.agent, Sample.agent, Sample.agent]).run exec
      Sample.queue.2 = some (out, w') ∧ out = [.completed, .completed, .idle] ∧
    Drained Sample.queue.1 Sample.queue.2 3
      ((Sample.runtime.drain 4 5 [Sample.agent, Sample.agent, Sample.agent]).exchanges exec
        Sample.queue.2) out w' := by
  have hserved : Served {} Sample.queue.1 Sample.queue.2 := Sample.served_spec (by decide +kernel)
  have hsome : ((Sample.runtime.drain 4 5 [Sample.agent, Sample.agent, Sample.agent]).run exec
      Sample.queue.2).map Prod.fst = some [.completed, .completed, .idle] := by decide +kernel
  obtain ⟨⟨out, w'⟩, hrun, hout⟩ := Option.map_eq_some_iff.mp hsome
  exact ⟨out, w', hrun, hout, drain_serves rfl hserved (by decide +kernel) hrun⟩

end NovaChat
