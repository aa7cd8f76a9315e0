import NovaChat.Lifecycle.Queue

/-!
# Reaping

A claim is given up in two ways: its holder falls silent, or its deadline passes.  Reaping looks at
the heartbeats only, so it finds the lost executions where no running record is overdue while its
holder still reports.
-/

namespace NovaChat

open Interact

/-- The deadline a claim handed out. -/
def deadline : Exchange Call Call.Reply → Option (ResponseId × ℕ)
  | ⟨.ledger (.claim ..), .ok (some claimed)⟩ =>
    some (claimed.record.responseId, claimed.execDeadlineMs)
  | _ => none

/-- A deadline handed out for `r` has passed. -/
def Overdue (xs : Exchanges) (r : ResponseId) (nowMs : ℕ) : Prop :=
  ∃ x ∈ xs, ∃ d, deadline x = some (r, d) ∧ d < nowMs

instance (xs : Exchanges) (r : ResponseId) (nowMs : ℕ) : Decidable (Overdue xs r nowMs) :=
  decidable_of_iff (∃ x ∈ xs, ∃ p ∈ deadline x, p.1 = r ∧ p.2 < nowMs)
    ⟨fun ⟨x, hx, ⟨_, d⟩, hp, hr, hd⟩ ↦ ⟨x, hx, d, hr ▸ hp, hd⟩,
      fun ⟨x, hx, d, hp, hd⟩ ↦ ⟨x, hx, (r, d), hp, rfl, hd⟩⟩

/-- How long the owner of a record has been silent. -/
def MemStore.silence (s : MemStore) (x : ResponseRecord) (nowMs : ℕ) : Option ℕ :=
  (x.owner.bind fun a ↦ s.inner.heartbeats.lookup a).map (nowMs - ·)

/-- The execution of `r` is lost: its owner is silent for longer than `ttlMs`, or it is overdue. -/
def Due (xs : Exchanges) (w : World) (nowMs ttlMs : ℕ) (r : ResponseId) : Prop :=
  ∃ x, w.store.record r = some x ∧ x.status = .inProgress ∧
    ((∃ age, w.store.silence x nowMs = some age ∧ ttlMs < age) ∨ Overdue xs r nowMs)

/-- A reap takes exactly the lost executions, once each, and a second one takes nothing. -/
structure ReapsDue (xs : Exchanges) (w : World) (nowMs ttlMs : ℕ) (aborted : List AbortedClaim)
    (w' : World) : Prop where
  nodup : (aborted.map AbortedClaim.responseId).Nodup
  due : ∀ r, r ∈ aborted.map AbortedClaim.responseId ↔ Due xs w nowMs ttlMs r
  failed : ∀ a ∈ aborted, ∃ x y, w.store.record a.responseId = some x ∧
    w'.store.record a.responseId = some y ∧ a.previousAttempt = x.attempt ∧
    y.status = .failed ∧ x.attempt.val < y.attempt.val
  kept : ∀ r, ¬ Due xs w nowMs ttlMs r → w'.store.record r = w.store.record r
  again : exec (.ledger (.reap nowMs ttlMs)) w' = (.ok [], w')

/-- Heartbeats decide: no running record is overdue while its owner reports within the span that
is compared, and a span that the conversion to 64 bits shortens changes no verdict. -/
structure Timely (xs : Exchanges) (w : World) (nowMs ttlMs : ℕ) : Prop where
  overdue : ∀ r x age, w.store.record r = some x → x.status = .inProgress →
    w.store.silence x nowMs = some age → Overdue xs r nowMs → asU64 ttlMs < age
  shortened : ∀ r x age, w.store.record r = some x → x.status = .inProgress →
    w.store.silence x nowMs = some age → asU64 ttlMs < age → age ≤ ttlMs → Overdue xs r nowMs

/-! ## Heartbeats -/

/-- A holder that has reported has reported ever after. -/
theorem exec_heartbeats {c : Call} {w : World} {agent : AgentId}
    (h : (w.store.inner.heartbeats.lookup agent).isSome = true) :
    ((exec c w).2.store.inner.heartbeats.lookup agent).isSome = true := by
  have hinsert : ∀ (m : HashMap AgentId ℕ) (a : AgentId) (now : ℕ),
      (m.lookup agent).isSome = true → ((m.insert a now).lookup agent).isSome = true := by
    intro m a now hm
    rw [HashMap.lookup_insert']
    split_ifs <;> simp [hm]
  by_cases hc : c.Attends
  · unfold Call.Attends at hc
    split at hc
    · next record key now =>
        rcases exec_create record key now w with ⟨-, heq⟩ | ⟨x, -, -, -, heq⟩
        · rwa [heq]
        · rw [heq]
          exact h
    · next agent' now ttl =>
        simp only [exec, execLedger, MemResponseLedger.claim, World.withStore_snd]
        split
        · exact h
        · rcases MemResponseLedger.claimLoop_cases w.store agent' now ttl w.store.inner.queued with
            ⟨heq, -⟩ | ⟨stale, id, rest, x, -, -, -, -, heq⟩
          · rw [heq]
            exact h
          · rw [heq]
            exact hinsert _ _ _ h
    · exact hinsert _ _ _ h
    · exact hc.elim
  · rwa [(exec_recordsOnly hc w).heartbeats]

/-- The owner of every running record has reported. -/
def Reported (w : World) : Prop :=
  ∀ r x, w.store.record r = some x → x.status = .inProgress →
    ∃ agent, x.owner = some agent ∧ (w.store.inner.heartbeats.lookup agent).isSome = true

/-- A claim that takes a record takes a heartbeat with it. -/
theorem exec_claim_heartbeats {w : World} {agent : AgentId} {now ttl : ℕ} {r : ResponseId}
    {x : ResponseRecord} (hx : w.store.record r = some x) (hqueued : x.status = .queued)
    (hy : (exec (.ledger (.claim agent now ttl)) w).2.store.record r =
      some (MemResponseLedger.claimed x agent)) :
    ((exec (.ledger (.claim agent now ttl)) w).2.store.inner.heartbeats.lookup agent).isSome =
      true := by
  have hmoved : w.store.record r ≠ some (MemResponseLedger.claimed x agent) := by
    rw [hx]
    intro heq
    have hstatus := congrArg ResponseRecord.status (Option.some.inj heq)
    rw [hqueued] at hstatus
    cases hstatus
  simp only [exec, execLedger, MemResponseLedger.claim, World.withStore_snd] at hy ⊢
  split at hy
  · exact absurd hy hmoved
  · rcases MemResponseLedger.claimLoop_cases w.store agent now ttl w.store.inner.queued with
      ⟨heq, -⟩ | ⟨stale, id, rest, x', -, -, -, -, heq⟩
    · rw [heq] at hy
      exact absurd hy hmoved
    · rw [heq]
      simp [MemResponseLedger.take]

theorem Reported.step {xs : Exchanges} {w : World} {c : Call} (h : Reported w)
    (hc : c.FreshIn xs) : Reported (exec c w).2 := by
  intro r y hy hstatus
  rcases record_cases hc hy with ⟨x, hx, hstage⟩ | ⟨-, hstart, -⟩
  · cases hstage with
    | stay =>
        obtain ⟨agent, howner, hbeat⟩ := h r _ hx hstatus
        exact ⟨agent, howner, exec_heartbeats hbeat⟩
    | claim agent now ttl hqueued => exact ⟨agent, rfl, exec_claim_heartbeats hx hqueued hy⟩
    | complete usage now hrun hterm =>
        simp only at hstatus
        subst hstatus
        cases hterm
    | cancel now hopen => cases hstatus
    | reap now ttl hrun => cases hstatus
  · rw [hstart.status] at hstatus
    cases hstatus

theorem Served.reported {w₀ w : World} {xs : Exchanges} (hempty : w₀.store.inner = {})
    (h : Served w₀ xs w) : Reported w := by
  refine h.invariant (J := fun (_ : Exchanges) (v : World) ↦ Reported v)
    (fun ys v (c : Call) hJ hc ↦ Reported.step hJ hc) ?_
  intro r x hx
  simp [MemStore.record, hempty] at hx

theorem Reported.silence {w : World} (h : Reported w) {r : ResponseId} {x : ResponseRecord}
    (hx : w.store.record r = some x) (hstatus : x.status = .inProgress) (now : ℕ) :
    ∃ age, w.store.silence x now = some age := by
  obtain ⟨agent, howner, hbeat⟩ := h r x hx hstatus
  obtain ⟨hb, hhb⟩ := Option.isSome_iff_exists.mp hbeat
  exact ⟨now - hb, by simp [MemStore.silence, howner, hhb]⟩

theorem lost_eq (s : MemStore) (x : ResponseRecord) (now ttl : ℕ) :
    MemResponseLedger.lost s x now ttl = (s.silence x now).all (fun age ↦ decide (ttl < age)) := by
  unfold MemResponseLedger.lost MemStore.silence
  cases x.owner.bind fun a ↦ s.inner.heartbeats.lookup a <;> simp

/-! ## The reap -/

theorem mem_toFail_iff {w : World} (h : Reported w) {r : ResponseId} {now ttl : ℕ} :
    r ∈ MemResponseLedger.toFail w.store now ttl ↔
      ∃ x age, w.store.record r = some x ∧ x.status = .inProgress ∧
        w.store.silence x now = some age ∧ ttl < age := by
  rw [MemResponseLedger.mem_toFail]
  constructor
  · rintro ⟨x, hx, hstatus, hlost⟩
    obtain ⟨age, hage⟩ := h.silence hx hstatus now
    rw [lost_eq, hage] at hlost
    exact ⟨x, age, hx, hstatus, hage, of_decide_eq_true hlost⟩
  · rintro ⟨x, age, hx, hstatus, hage, hlt⟩
    refine ⟨x, hx, hstatus, ?_⟩
    rw [lost_eq, hage]
    exact decide_eq_true hlt

/-- A reap supersedes the records it takes and leaves the others alone. -/
theorem exec_reap_toFail (w : World) (now ttl : ℕ) :
    ∃ aborted, (exec (.ledger (.reap now ttl)) w).1 = .ok aborted ∧
      aborted.map AbortedClaim.responseId =
        MemResponseLedger.toFail w.store now (asU64 ttl) ∧
      (∀ a ∈ aborted, ∃ x, w.store.record a.responseId = some x ∧ x.status = .inProgress ∧
        a = MemResponseLedger.abortedClaim a.responseId x) ∧
      ∀ r, (exec (.ledger (.reap now ttl)) w).2.store.record r =
        if r ∈ MemResponseLedger.toFail w.store now (asU64 ttl) then
          (w.store.record r).map (MemResponseLedger.superseded · .failed now)
        else w.store.record r := by
  obtain ⟨-, hids, hclaims, hrec⟩ := MemResponseLedger.reapAll_spec now
    (MemResponseLedger.toFail w.store now (asU64 ttl)) w.store
    (MemResponseLedger.nodup_toFail _ _ _) fun id hid ↦ by
      obtain ⟨x, hx, -⟩ := (MemResponseLedger.mem_toFail _ _ _ _).mp hid
      exact ⟨x, hx⟩
  refine ⟨_, rfl, hids, fun a ha ↦ ?_, hrec⟩
  obtain ⟨x, hx, heq⟩ := hclaims a ha
  obtain ⟨y, hy, hstatus, -⟩ := (MemResponseLedger.mem_toFail _ _ _ _).mp
    (hids ▸ List.mem_map_of_mem ha)
  obtain rfl : x = y := Option.some.inj (hx.symm.trans hy)
  exact ⟨x, hx, hstatus, heq⟩

theorem toFail_after_reap (w : World) (now ttl : ℕ) :
    MemResponseLedger.toFail (exec (.ledger (.reap now ttl)) w).2.store now (asU64 ttl) = [] := by
  obtain ⟨-, -, -, -, hrec⟩ := exec_reap_toFail w now ttl
  refine List.eq_nil_iff_forall_not_mem.mpr fun r hr ↦ ?_
  obtain ⟨y, hy, hstatus, hlost⟩ := (MemResponseLedger.mem_toFail _ _ _ _).mp hr
  rw [hrec] at hy
  split_ifs at hy with hmem
  · obtain ⟨x, -, rfl⟩ := Option.map_eq_some_iff.mp hy
    cases hstatus
  · refine hmem ((MemResponseLedger.mem_toFail _ _ _ _).mpr ⟨y, hy, hstatus, ?_⟩)
    have hbeats := (exec_recordsOnly (c := .ledger (.reap now ttl)) (by rintro ⟨⟩) w).heartbeats
    unfold MemResponseLedger.lost at hlost ⊢
    rwa [hbeats] at hlost

theorem exec_reap_of_toFail {w : World} {now ttl : ℕ}
    (h : MemResponseLedger.toFail w.store now (asU64 ttl) = []) :
    exec (.ledger (.reap now ttl)) w = (.ok [], w) := by
  simp [exec, execLedger, MemResponseLedger.reap, h, MemResponseLedger.reapAll]

/-- Where heartbeats decide, what a reap takes is what is lost; and nowhere else. -/
theorem mem_toFail_iff_due {xs : Exchanges} {w : World} (h : Reported w) {now ttl : ℕ} :
    (∀ r, r ∈ MemResponseLedger.toFail w.store now (asU64 ttl) ↔ Due xs w now ttl r) ↔
      Timely xs w now ttl := by
  have hle : asU64 ttl ≤ ttl := Nat.mod_le _ _
  constructor
  · intro hiff
    refine ⟨fun r x age hx hstatus hage hover ↦ ?_, fun r x age hx hstatus hage hlt hle' ↦ ?_⟩
    · obtain ⟨y, age', hy, -, hage', hlt⟩ := (mem_toFail_iff h).mp
        ((hiff r).mpr ⟨x, hx, hstatus, Or.inr hover⟩)
      obtain rfl : x = y := Option.some.inj (hx.symm.trans hy)
      obtain rfl : age = age' := Option.some.inj (hage.symm.trans hage')
      exact hlt
    · obtain ⟨y, hy, -, ⟨age', hage', hlt'⟩ | hover⟩ :=
        (hiff r).mp ((mem_toFail_iff h).mpr ⟨x, age, hx, hstatus, hage, hlt⟩)
      · obtain rfl : x = y := Option.some.inj (hx.symm.trans hy)
        obtain rfl : age = age' := Option.some.inj (hage.symm.trans hage')
        exact absurd hlt' (not_lt.mpr hle')
      · exact hover
  · intro htimely r
    rw [mem_toFail_iff h]
    constructor
    · rintro ⟨x, age, hx, hstatus, hage, hlt⟩
      refine ⟨x, hx, hstatus, ?_⟩
      rcases Nat.lt_or_ge ttl age with hlt' | hge
      · exact Or.inl ⟨age, hage, hlt'⟩
      · exact Or.inr (htimely.shortened r x age hx hstatus hage hlt hge)
    · rintro ⟨x, hx, hstatus, ⟨age, hage, hlt⟩ | hover⟩
      · exact ⟨x, age, hx, hstatus, hage, hle.trans_lt hlt⟩
      · obtain ⟨age, hage⟩ := h.silence hx hstatus now
        exact ⟨x, age, hx, hstatus, hage, htimely.overdue r x age hx hstatus hage hover⟩

/-- In every state of every history, a reap takes exactly the lost executions if and only if
heartbeats decide. -/
theorem reapsDue_iff {w₀ w : World} {xs : Exchanges} (hempty : w₀.store.inner = {})
    (h : Served w₀ xs w) (now ttl : ℕ) :
    (∃ aborted, (exec (.ledger (.reap now ttl)) w).1 = .ok aborted ∧
      ReapsDue xs w now ttl aborted (exec (.ledger (.reap now ttl)) w).2) ↔
    Timely xs w now ttl := by
  have ho := Served.orderly hempty h
  have hreported := Served.reported hempty h
  obtain ⟨aborted, hreply, hids, hclaims, hrec⟩ := exec_reap_toFail w now ttl
  rw [← mem_toFail_iff_due hreported]
  constructor
  · rintro ⟨aborted', hreply', hdue⟩ r
    obtain rfl : aborted = aborted' := Except.ok.inj (hreply.symm.trans hreply')
    rw [← hids]
    exact hdue.due r
  · intro hiff
    refine ⟨aborted, hreply, ?_, fun r ↦ by rw [hids]; exact hiff r, fun a ha ↦ ?_, fun r hr ↦ ?_,
      exec_reap_of_toFail (toFail_after_reap w now ttl)⟩
    · rw [hids]
      exact MemResponseLedger.nodup_toFail _ _ _
    · obtain ⟨x, hx, hstatus, hclaim⟩ := hclaims a ha
      have hattempt : a.previousAttempt = x.attempt := by
        rw [hclaim]
        rfl
      have hmem : a.responseId ∈ MemResponseLedger.toFail w.store now (asU64 ttl) :=
        hids ▸ List.mem_map_of_mem ha
      refine ⟨x, MemResponseLedger.superseded x .failed now, hx, ?_, hattempt, rfl, ?_⟩
      · rw [hrec, if_pos hmem, hx]
        rfl
      · have hnext := ((ho.sound hx).next (by rw [hstatus]; rfl)).2
        exact (Nat.lt_succ_self _).trans_eq hnext.symm
    · rw [hrec, if_neg fun hmem ↦ hr ((hiff r).mp hmem)]

/-! ## A hung execution -/

namespace Sample

/-- A response is claimed for 10 ms, and its holder still reports long after. -/
def hung : Exchanges × World :=
  served [file 1 0, .ledger (.claim agent 5 10), .ledger (.heartbeat agent 1000)]

theorem hung_served : Served {} hung.1 hung.2 :=
  served_spec (by decide +kernel)

end Sample

/-- A holder that reports keeps its claim past the deadline. -/
theorem reap_overdue :
    Served {} Sample.hung.1 Sample.hung.2 ∧ Due Sample.hung.1 Sample.hung.2 1000 60 (Sample.id 1) ∧
      exec (.ledger (.reap 1000 60)) Sample.hung.2 = (.ok [], Sample.hung.2) ∧
      ¬ ∃ aborted, (exec (.ledger (.reap 1000 60)) Sample.hung.2).1 = .ok aborted ∧
        ReapsDue Sample.hung.1 Sample.hung.2 1000 60 aborted
          (exec (.ledger (.reap 1000 60)) Sample.hung.2).2 := by
  have hreap : exec (.ledger (.reap 1000 60)) Sample.hung.2 = (.ok [], Sample.hung.2) :=
    exec_reap_of_toFail (by decide +kernel)
  have hdue : Due Sample.hung.1 Sample.hung.2 1000 60 (Sample.id 1) := by
    obtain ⟨x, hx, hstatus⟩ := (Option.any_eq_true _ _).mp (show (Sample.hung.2.store.record
      (Sample.id 1)).any (·.status = .inProgress) = true by decide +kernel)
    exact ⟨x, hx, of_decide_eq_true hstatus, Or.inr (by decide +kernel)⟩
  refine ⟨Sample.hung_served, hdue, hreap, ?_⟩
  rintro ⟨aborted, hreply, hreaps⟩
  obtain rfl : [] = aborted := Except.ok.inj ((congrArg Prod.fst hreap).symm.trans hreply)
  exact absurd ((hreaps.due _).mpr hdue) (by simp)

/-- Once the holder has been silent for longer than the span, the overdue claim is taken. -/
theorem reapsDue_hung :
    ∃ aborted, (exec (.ledger (.reap 1061 60)) Sample.hung.2).1 = .ok aborted ∧
      Sample.id 1 ∈ aborted.map AbortedClaim.responseId ∧
        ReapsDue Sample.hung.1 Sample.hung.2 1061 60 aborted
          (exec (.ledger (.reap 1061 60)) Sample.hung.2).2 := by
  have hbeats : ∀ e ∈ Sample.hung.2.store.inner.heartbeats.entries, e.2 ≤ 1000 := by
    decide +kernel
  have htimely : Timely Sample.hung.1 Sample.hung.2 1061 60 := by
    refine ⟨fun r x age hx hstatus hage hover ↦ ?_,
      fun r x age hx hstatus hage hlt hle ↦ absurd hlt (not_lt.mpr hle)⟩
    obtain ⟨beat, hbeat, rfl⟩ := Option.map_eq_some_iff.mp hage
    obtain ⟨agent, -, hlookup⟩ := Option.bind_eq_some_iff.mp hbeat
    have hle : beat ≤ 1000 := hbeats ⟨agent, beat⟩ ((HashMap.mem_entries_iff _ _ _).mpr hlookup)
    have hspan : asU64 60 = 60 := rfl
    omega
  have hdue : Due Sample.hung.1 Sample.hung.2 1061 60 (Sample.id 1) := by
    obtain ⟨x, hx, hstatus⟩ := (Option.any_eq_true _ _).mp (show (Sample.hung.2.store.record
      (Sample.id 1)).any (·.status = .inProgress) = true by decide +kernel)
    exact ⟨x, hx, of_decide_eq_true hstatus, Or.inr (by decide +kernel)⟩
  obtain ⟨aborted, hreply, hreaps⟩ := (reapsDue_iff rfl Sample.hung_served 1061 60).mpr htimely
  exact ⟨aborted, hreply, (hreaps.due _).mpr hdue, hreaps⟩

end NovaChat
