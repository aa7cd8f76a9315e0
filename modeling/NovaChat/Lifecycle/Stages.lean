import NovaChat.Effects
import NovaChat.Interact.History
import NovaChat.System

/-!
# The life of a record

The ledger is one of several users of the store, and its callers are many.  Whatever calls they
make in whatever order, a record only moves forward: through its statuses, and up its fence.

The statements are about histories of calls of every port.  A history starts from a store that
holds nothing, and creates bring records that have not started, under ids of their own.
-/

namespace NovaChat

open Interact

abbrev Exchanges := List (Exchange Call Call.Reply)

/-- The response a create was accepted for. -/
def createdId : Exchange Call Call.Reply → Option ResponseId
  | ⟨.ledger (.create ..), .ok (.accepted x)⟩ => some x.responseId
  | _ => none

/-- The accepted responses, oldest first. -/
def created (xs : Exchanges) : List ResponseId := xs.filterMap createdId

/-- A record as its service creates it. -/
structure ResponseRecord.Unstarted (x : ResponseRecord) : Prop where
  status : x.status = .queued
  owner : x.owner = none
  attempt : x.attempt = .unclaimed

instance (x : ResponseRecord) : Decidable x.Unstarted :=
  decidable_of_iff (x.status = .queued ∧ x.owner = none ∧ x.attempt = .unclaimed)
    ⟨fun ⟨h₁, h₂, h₃⟩ ↦ ⟨h₁, h₂, h₃⟩, fun ⟨h₁, h₂, h₃⟩ ↦ ⟨h₁, h₂, h₃⟩⟩

/-- A create brings an unstarted record under an id that was not accepted before. -/
def Call.FreshIn (xs : Exchanges) : Call → Prop
  | .ledger (.create record _ _) => record.Unstarted ∧ record.responseId ∉ created xs
  | _ => True

instance (xs : Exchanges) (c : Call) : Decidable (c.FreshIn xs) := by
  unfold Call.FreshIn
  split <;> infer_instance

/-- The calls the store has answered since it was empty. -/
abbrev Served (w₀ : World) (xs : Exchanges) (w : World) : Prop :=
  History exec (fun zs c ↦ c.FreshIn zs) w₀ xs w

section created

variable {xs : Exchanges} {c : Call} {w : World} {r : ResponseId}

@[simp] theorem created_snoc (xs : Exchanges) (x : Exchange Call Call.Reply) :
    created (xs ++ [x]) = created xs ++ (createdId x).toList := by
  cases h : createdId x <;> simp [created, h]

theorem mem_created_snoc {x : Exchange Call Call.Reply} (h : r ∈ created xs) :
    r ∈ created (xs ++ [x]) := by
  rw [created_snoc]
  exact List.mem_append_left _ h

/-- A create is accepted for the id it brings. -/
theorem createdId_exec (h : createdId ⟨c, (exec c w).1⟩ = some r) :
    ∃ record key now x, c = .ledger (.create record key now) ∧ record.responseId = r ∧
      x.responseId = r ∧ x = { record with integrity := x.integrity } ∧
      (exec c w).2 = { w with store := MemResponseLedger.enqueue w.store x key } := by
  unfold createdId at h
  split at h
  · next record key now x heq =>
      obtain ⟨rfl, hreply⟩ := Exchange.mk.inj heq
      obtain rfl := Option.some.inj h
      rcases exec_create record key now w with ⟨hnot, -⟩ | ⟨y, hy, hsign, -, hstore⟩
      · exact absurd (eq_of_heq hreply) (hnot x)
      · obtain rfl : y = x := by simpa [hy] using eq_of_heq hreply
        have hxy := MemResponseLedger.sign_spec hsign
        have hid : y.responseId = record.responseId := by rw [hxy]
        exact ⟨record, key, now, y, rfl, hid.symm, rfl, hxy, hstore⟩
  · cases h

/-- A record that a call did not write, or that was accepted before, was there before. -/
theorem record_cases {y : ResponseRecord} (hc : c.FreshIn xs)
    (h : (exec c w).2.store.record r = some y) :
    (∃ x, w.store.record r = some x ∧ x.Stage r c y) ∨
      createdId ⟨c, (exec c w).1⟩ = some r ∧ y.Unstarted ∧ r ∉ created xs := by
  by_cases hwrites : c.writes = some r
  · obtain ⟨record, key, now, rfl, rfl⟩ : ∃ record key now,
        c = .ledger (.create record key now) ∧ record.responseId = r := by
      unfold Call.writes at hwrites
      split at hwrites
      · exact ⟨_, _, _, rfl, Option.some.inj hwrites⟩
      · cases hwrites
    obtain ⟨hunstarted, hfresh⟩ : record.Unstarted ∧ record.responseId ∉ created xs := hc
    rcases exec_create record key now w with ⟨-, heq⟩ | ⟨x, hx, hsign, -, heq⟩
    · rw [heq] at h
      exact Or.inl ⟨y, h, .stay _ y⟩
    · have hxr := MemResponseLedger.sign_spec hsign
      have hid : x.responseId = record.responseId := by rw [hxr]
      rw [heq] at h
      obtain rfl : x = y := by
        simpa [hid] using (MemResponseLedger.record_enqueue w.store x key _).symm.trans h
      refine Or.inr ⟨?_, ?_, hfresh⟩
      · rw [hx]
        exact congrArg some hid
      · rw [hxr]
        exact ⟨hunstarted.status, hunstarted.owner, hunstarted.attempt⟩
  · exact Or.inl (record_stage hwrites h)

end created

/-! ## One step -/

namespace ResponseRecord

/-- How far a record has come agrees with its owner and its fence. -/
structure Sound (x : ResponseRecord) : Prop where
  owner : x.owner.isSome = true ↔ x.status = .inProgress
  queued : x.status = .queued → x.attempt.val = 0
  running : x.status = .inProgress → x.attempt.val = 1
  attempt : x.attempt.val ≤ 2

theorem Unstarted.sound {x : ResponseRecord} (h : x.Unstarted) : x.Sound where
  owner := by simp [h.owner, h.status]
  queued _ := by rw [h.attempt]; rfl
  running hx := by rw [h.status] at hx; cases hx
  attempt := by rw [h.attempt]; exact Nat.zero_le _

theorem Sound.of_terminal {x : ResponseRecord} (hterm : x.status.isTerminal = true)
    (howner : x.owner = none) (hattempt : x.attempt.val ≤ 2) : x.Sound where
  owner := by
    rw [howner]
    exact ⟨fun h ↦ absurd h (by simp), fun h ↦ by rw [h] at hterm; cases hterm⟩
  queued h := by rw [h] at hterm; cases hterm
  running h := by rw [h] at hterm; cases hterm
  attempt := hattempt

/-- An open record has been claimed at most once, so its fence can still rise. -/
theorem Sound.next {x : ResponseRecord} (hx : x.Sound) (hopen : x.status.isTerminal = false) :
    x.attempt.val ≤ 1 ∧ x.attempt.next.val = x.attempt.val + 1 := by
  have hle : x.attempt.val ≤ 1 := by
    cases hstatus : x.status with
    | queued => exact (hx.queued hstatus).trans_le (Nat.zero_le 1)
    | inProgress => exact (hx.running hstatus).le
    | _ => simp [hstatus, ResponseStatus.isTerminal] at hopen
  have hbound : x.attempt.val + 1 ≤ u64Max := by
    unfold u64Max
    omega
  exact ⟨hle, Nat.min_eq_left hbound⟩

theorem Sound.superseded {x : ResponseRecord} (hx : x.Sound) (hopen : x.status.isTerminal = false)
    {status : ResponseStatus} (hterm : status.isTerminal = true) (nowMs : ℕ) :
    (MemResponseLedger.superseded x status nowMs).Sound := by
  obtain ⟨hle, hnext⟩ := hx.next hopen
  exact .of_terminal hterm rfl (hnext.trans_le (Nat.succ_le_succ hle))

theorem Stage.sound {r : ResponseId} {c : Call} {x y : ResponseRecord} (h : x.Stage r c y)
    (hx : x.Sound) : y.Sound := by
  cases h with
  | stay => exact hx
  | claim agent now ttl hstatus =>
      have hnext : x.attempt.next.val = 1 := by
        rw [(hx.next (by rw [hstatus]; rfl)).2, hx.queued hstatus]
      exact ⟨by simp [MemResponseLedger.claimed], by rintro ⟨⟩, fun _ ↦ hnext,
        hnext.trans_le (Nat.le_succ 1)⟩
  | complete usage now hstatus hterm => exact .of_terminal hterm rfl hx.attempt
  | cancel now hopen => exact hx.superseded hopen rfl now
  | reap now ttl hstatus => exact hx.superseded (by rw [hstatus]; rfl) rfl now

/-- What later calls leave of a record: nothing moves once it is terminal, and the fence
never falls. -/
structure Evolves (x y : ResponseRecord) : Prop where
  settled : x.status.isTerminal = true → y.status = x.status ∧ y.usage = x.usage ∧
    y.attempt = x.attempt ∧ y.completedAtMs = x.completedAtMs
  attempt : x.attempt.val ≤ y.attempt.val

theorem Evolves.refl (x : ResponseRecord) : x.Evolves x := ⟨fun _ ↦ ⟨rfl, rfl, rfl, rfl⟩, le_rfl⟩

theorem Evolves.trans {x y z : ResponseRecord} (h : x.Evolves y) (h' : y.Evolves z) :
    x.Evolves z where
  settled hx := by
    obtain ⟨hstatus, husage, hattempt, hdone⟩ := h.settled hx
    obtain ⟨hstatus', husage', hattempt', hdone'⟩ := h'.settled (by rw [hstatus, hx])
    exact ⟨hstatus'.trans hstatus, husage'.trans husage, hattempt'.trans hattempt,
      hdone'.trans hdone⟩
  attempt := h.attempt.trans h'.attempt

theorem Stage.evolves {r : ResponseId} {c : Call} {x y : ResponseRecord} (h : x.Stage r c y)
    (hx : x.Sound) : x.Evolves y where
  settled hterm := by
    rw [h.advances.terminal hterm]
    exact ⟨rfl, rfl, rfl, rfl⟩
  attempt := by
    cases h with
    | stay => exact le_rfl
    | claim agent now ttl hstatus =>
        exact (Nat.le_succ _).trans_eq (hx.next (by rw [hstatus]; rfl)).2.symm
    | complete usage now hstatus hterm => exact le_rfl
    | cancel now hopen => exact (Nat.le_succ _).trans_eq (hx.next hopen).2.symm
    | reap now ttl hstatus => exact (Nat.le_succ _).trans_eq (hx.next (by rw [hstatus]; rfl)).2.symm

end ResponseRecord

/-- The moves of a status: queued, in progress, terminal, or from queued to cancelled. -/
inductive ResponseStatus.Leads : ResponseStatus → ResponseStatus → Prop
  | stay (s) : Leads s s
  | claim : Leads .queued .inProgress
  | finish {s} : s.isTerminal = true → Leads .inProgress s
  | cancel : Leads .queued .cancelled

theorem ResponseRecord.Stage.leads {r : ResponseId} {c : Call} {x y : ResponseRecord}
    (h : x.Stage r c y) : x.status.Leads y.status := by
  cases h with
  | stay => exact .stay _
  | claim agent now ttl hstatus => rw [hstatus]; exact .claim
  | complete usage now hstatus hterm => rw [hstatus]; exact .finish hterm
  | cancel now hopen =>
      cases hstatus : x.status with
      | queued => exact .cancel
      | inProgress => exact .finish rfl
      | _ => simp [hstatus, ResponseStatus.isTerminal] at hopen
  | reap now ttl hstatus => rw [hstatus]; exact .finish rfl

/-! ## Whole histories -/

/-- Every record was accepted under the id it carries, and is sound. -/
structure Orderly (xs : Exchanges) (w : World) : Prop where
  keyed : w.store.Keyed
  created : ∀ {r x}, w.store.record r = some x → r ∈ created xs
  sound : ∀ {r x}, w.store.record r = some x → x.Sound

theorem Orderly.step {xs : Exchanges} {w : World} {c : Call} (h : Orderly xs w)
    (hc : c.FreshIn xs) : Orderly (xs ++ [⟨c, (exec c w).1⟩]) (exec c w).2 where
  keyed := exec_keyed c h.keyed
  created := by
    intro r y hy
    rcases record_cases hc hy with ⟨x, hx, -⟩ | ⟨hnew, -, -⟩
    · exact mem_created_snoc (h.created hx)
    · simp [hnew]
  sound := by
    intro r y hy
    rcases record_cases hc hy with ⟨x, hx, hstage⟩ | ⟨-, hstart, -⟩
    · exact hstage.sound (h.sound hx)
    · exact hstart.sound

theorem Served.orderly {w₀ w : World} {xs : Exchanges} (hempty : w₀.store.inner = {})
    (h : Served w₀ xs w) : Orderly xs w := by
  refine h.invariant (fun ys v c hJ hc ↦ hJ.step hc) ?_
  have hnone : ∀ r, w₀.store.record r = none := fun r ↦ by simp [MemStore.record, hempty]
  exact ⟨⟨fun hx ↦ by simp [hnone] at hx, fun hx ↦ by simp [MemStore.conversation, hempty] at hx⟩,
    fun hx ↦ by simp [hnone] at hx, fun hx ↦ by simp [hnone] at hx⟩

/-- A record that is there at the end of a stretch, and was accepted before it, was there at its
start. -/
theorem Orderly.evolves {xs : Exchanges} {w : World} {c : Call} {r : ResponseId}
    {y : ResponseRecord} (h : Orderly xs w) (hc : c.FreshIn xs) (hr : r ∈ NovaChat.created xs)
    (hy : (exec c w).2.store.record r = some y) :
    ∃ x, w.store.record r = some x ∧ x.Sound ∧ x.Stage r c y := by
  rcases record_cases hc hy with ⟨x, hx, hstage⟩ | ⟨-, -, hfresh⟩
  · exact ⟨x, hx, h.sound hx, hstage⟩
  · exact absurd hr hfresh

/-- A history that goes on from `w`, which `xs` led to. -/
abbrev ServedAfter (xs : Exchanges) (w : World) (ys : Exchanges) (w' : World) : Prop :=
  History exec (fun zs c ↦ c.FreshIn (xs ++ zs)) w ys w'

theorem mem_created_append {xs : Exchanges} {r : ResponseId} (h : r ∈ created xs) (ys : Exchanges) :
    r ∈ created (xs ++ ys) := by
  simp only [created, List.filterMap_append, List.mem_append] at h ⊢
  exact Or.inl h

theorem Served.evolves {w₀ w w' : World} {xs ys : Exchanges} (hempty : w₀.store.inner = {})
    (h : Served w₀ xs w) (h' : ServedAfter xs w ys w') {r : ResponseId} {x y : ResponseRecord}
    (hx : w.store.record r = some x) (hy : w'.store.record r = some y) : x.Evolves y := by
  have hr := (Served.orderly hempty h).created hx
  refine h.continued (J := fun _ v ↦ ∀ y, v.store.record r = some y → x.Evolves y)
    (Served.orderly hempty) (fun zs v c hI hJ hc y hy ↦ ?_) h' (fun y hy ↦ ?_) y hy
  · obtain ⟨x', hx', hsound, hstage⟩ := hI.evolves hc (mem_created_append hr zs) hy
    exact (hJ x' hx').trans (hstage.evolves hsound)
  · obtain rfl : x = y := Option.some.inj (hx.symm.trans hy)
    exact .refl x

/-! ## Takings -/

/-- Whether a call has just taken `r`: claimed it, cancelled it, or reaped it. -/
def Call.takes (r : ResponseId) : (c : Call) → c.Reply → Bool
  | .ledger (.claim ..), .ok (some claimed) => decide (claimed.record.responseId = r)
  | .ledger (.cancel _ id _), reply => reply.isOk && decide (id = r)
  | .ledger (.reap _ _), .ok aborted => decide (r ∈ aborted.map AbortedClaim.responseId)
  | _, _ => false

/-- Taking a record raises its fence. -/
theorem exec_takes {c : Call} {w : World} (hk : w.store.Keyed) {r : ResponseId}
    (h : c.takes r (exec c w).1 = true) :
    ∃ x y, w.store.record r = some x ∧ (exec c w).2.store.record r = some y ∧
      x.status.isTerminal = false ∧ y.attempt = x.attempt.next := by
  rcases c with _ | c | c | c | c | c
  · cases h
  · cases c with
    | claim agent now ttl =>
        obtain ⟨cl, hcl, hid⟩ : ∃ cl, (MemResponseLedger.claim w.store agent now ttl).1 =
            .ok (some cl) ∧ cl.record.responseId = r := by
          simp only [exec, execLedger, World.withStore_fst] at h
          generalize (MemResponseLedger.claim w.store agent now ttl).1 = reply at h
          rcases reply with e | _ | cl
          · cases h
          · cases h
          · exact ⟨cl, rfl, of_decide_eq_true h⟩
        obtain ⟨-, ⟨hnone, -⟩ | ⟨id, x, hx, hstatus, hsome, hrec⟩⟩ :=
          MemResponseLedger.claim_cases w.store agent now ttl
        · exact absurd hcl (hnone cl)
        · obtain rfl : _ = cl := by simpa [hcl] using hsome.symm
          obtain rfl : id = r := (hk.record hx).symm.trans hid
          exact ⟨x, MemResponseLedger.claimed x agent, hx, (hrec id).trans (if_pos rfl),
            by rw [hstatus]; rfl, rfl⟩
    | cancel tenant id now =>
        rcases MemResponseLedger.cancel_cases w.store tenant id now with
          ⟨e, heq⟩ | ⟨x, -, hx, -, hopen, heq⟩
        · simp [Call.takes, exec, execLedger, heq, Except.isOk, Except.toBool] at h
        · obtain rfl : id = r := by
            simpa [Call.takes, exec, execLedger, heq, Except.isOk, Except.toBool] using h
          refine ⟨x, MemResponseLedger.superseded x .cancelled now, hx, ?_, hopen, rfl⟩
          simp only [exec, execLedger, heq, World.withStore_snd]
          rw [MemResponseLedger.record_bookPartial, MemResponseLedger.record_putRecord, if_pos rfl]
    | reap now ttl =>
        obtain ⟨aborted, hab, -, -, hclaims, hrec⟩ := MemResponseLedger.reap_spec w.store now ttl
        have hmem : r ∈ aborted.map AbortedClaim.responseId := by
          simpa [Call.takes, exec, execLedger, hab] using h
        obtain ⟨a, ha, rfl⟩ := List.mem_map.mp hmem
        obtain ⟨x, hx, hstatus, -⟩ := hclaims a ha
        refine ⟨x, MemResponseLedger.superseded x .failed now, hx, ?_, by rw [hstatus]; rfl, rfl⟩
        show (MemResponseLedger.reap w.store now ttl).2.record a.responseId = _
        rw [hrec, if_pos hmem, hx]
        rfl
    | _ => cases h
  all_goals cases c <;> cases h

/-! ## The fence -/

/-- What an exchange says of attempt `a` of `r`, when it is about it. -/
def verdict (r : ResponseId) (a : Attempt) :
    Exchange Call Call.Reply → Option (Except LedgerError Unit)
  | ⟨.ledger (.checkAttempt id attempt), reply⟩ =>
    if id = r ∧ attempt = a then some reply else none
  | ⟨.ledger (.complete id attempt _ _ _), reply⟩ =>
    if id = r ∧ attempt = a then some reply else none
  | _ => none

/-- A verdict agrees with the record it is about. -/
structure Judges (s : MemStore) (r : ResponseId) (a : Attempt) (v : Except LedgerError Unit) :
    Prop where
  ok : v = .ok () → ∃ x, s.record r = some x ∧ x.attempt = a ∧ x.status = .inProgress
  stale : v = .error .staleAttempt → ∀ x, s.record r = some x →
    x.attempt ≠ a ∨ x.status ≠ .inProgress
  notFound : v = .error .notFound → s.record r = none

namespace Judges

variable {s : MemStore} {r : ResponseId} {a : Attempt} {x : ResponseRecord}

theorem current (hx : s.record r = some x) (h : x.attempt = a ∧ x.status = .inProgress) :
    Judges s r a (.ok ()) :=
  ⟨fun _ ↦ ⟨x, hx, h⟩, nofun, nofun⟩

theorem superseded (hx : s.record r = some x) (h : x.attempt ≠ a ∨ x.status ≠ .inProgress) :
    Judges s r a (.error .staleAttempt) := by
  refine ⟨nofun, fun _ y hy ↦ ?_, nofun⟩
  obtain rfl : x = y := Option.some.inj (hx.symm.trans hy)
  exact h

theorem missing (hx : s.record r = none) : Judges s r a (.error .notFound) :=
  ⟨nofun, nofun, fun _ ↦ hx⟩

theorem refused (e : StoreError) : Judges s r a (.error (.store e)) :=
  ⟨nofun, nofun, nofun⟩

end Judges

theorem judges_checkAttempt (s : MemStore) (r : ResponseId) (a : Attempt) :
    Judges s r a (MemResponseLedger.checkAttempt s r a) := by
  unfold MemResponseLedger.checkAttempt
  split_ifs
  · exact .refused _
  · split
    · next hx => exact .missing hx
    · next x hx =>
        split_ifs with hstale
        · exact .superseded hx hstale
        · push Not at hstale
          exact .current hx hstale

theorem judges_complete (s : MemStore) (r : ResponseId) (a : Attempt) (status : ResponseStatus)
    (usage : Usage) (now : ℕ) :
    Judges s r a (MemResponseLedger.complete s r a status usage now).1 := by
  unfold MemResponseLedger.complete
  split
  · next e he =>
      have he : e = .store .readOnly := by
        unfold MemResponseLedger.guardWritable at he
        split_ifs at he
        exact (Except.error.inj he).symm
      subst he
      exact .refused _
  · split_ifs
    · exact ⟨nofun, nofun, nofun⟩
    · split
      · next hx => exact .missing hx
      · next x hx =>
          split_ifs with hstale
          · exact .superseded hx hstale
          · push Not at hstale
            exact .current hx hstale

theorem judges_verdict {c : Call} {w : World} {r : ResponseId} {a : Attempt}
    {v : Except LedgerError Unit} (h : verdict r a ⟨c, (exec c w).1⟩ = some v) :
    Judges w.store r a v := by
  rcases c with _ | c | c | c | c | c
  · cases h
  · cases c with
    | checkAttempt id attempt =>
        simp only [verdict] at h
        split_ifs at h with hid
        obtain ⟨rfl, rfl⟩ := hid
        obtain rfl := Option.some.inj h
        exact judges_checkAttempt _ _ _
    | complete id attempt status usage now =>
        simp only [verdict] at h
        split_ifs at h with hid
        obtain ⟨rfl, rfl⟩ := hid
        obtain rfl := Option.some.inj h
        exact judges_complete _ _ _ _ _ _
    | _ => cases h
  all_goals cases c <;> cases h

/-- Attempt `a` of `r` will not be the running one again. -/
def Spent (r : ResponseId) (a : Attempt) (w : World) : Prop :=
  ∀ x, w.store.record r = some x →
    a.val < x.attempt.val ∨ x.status.isTerminal = true ∨ x.status = .queued ∧ a.val = 0

theorem Spent.step {xs : Exchanges} {w : World} {c : Call} {r : ResponseId} {a : Attempt}
    (h : Spent r a w) (ho : Orderly xs w) (hc : c.FreshIn xs) (hr : r ∈ created xs) :
    Spent r a (exec c w).2 := by
  intro y hy
  obtain ⟨x, hx, hsound, hstage⟩ := ho.evolves hc hr hy
  rcases h x hx with hlt | hterm | ⟨hqueued, hzero⟩
  · exact Or.inl (hlt.trans_le (hstage.evolves hsound).attempt)
  · rw [hstage.advances.terminal hterm]
    exact Or.inr (Or.inl hterm)
  · cases hstage with
    | stay => exact Or.inr (Or.inr ⟨hqueued, hzero⟩)
    | claim agent now ttl _ =>
        have hone : (MemResponseLedger.claimed x agent).attempt.val = 1 :=
          (ResponseRecord.Stage.claim (r := r) agent now ttl hqueued).sound hsound |>.running rfl
        exact Or.inl (by omega)
    | complete usage now hstatus hterm => exact Or.inr (Or.inl hterm)
    | cancel now hopen => exact Or.inr (Or.inl rfl)
    | reap now ttl hstatus => exact Or.inr (Or.inl rfl)

theorem Spent.not_ok {w : World} {r : ResponseId} {a : Attempt} (h : Spent r a w) {c : Call} :
    verdict r a ⟨c, (exec c w).1⟩ ≠ some (.ok ()) := by
  intro hok
  obtain ⟨x, hx, rfl, hstatus⟩ := (judges_verdict hok).ok rfl
  rcases h x hx with hlt | hterm | ⟨hqueued, -⟩
  · exact lt_irrefl _ hlt
  · rw [hstatus] at hterm
    cases hterm
  · rw [hstatus] at hqueued
    cases hqueued

/-- An attempt that was current and is stale is spent. -/
theorem spent_of_stale {w : World} {r : ResponseId} {a : Attempt} {c : Call}
    (hcurrent : ∀ x, w.store.record r = some x → x.Sound ∧ a.val ≤ x.attempt.val)
    (h : verdict r a ⟨c, (exec c w).1⟩ = some (.error .staleAttempt)) : Spent r a w := by
  intro x hx
  obtain ⟨hsound, hle⟩ := hcurrent x hx
  rcases hle.lt_or_eq with hlt | heq
  · exact Or.inl hlt
  · have hattempt : x.attempt = a := by
      cases a
      cases hxa : x.attempt
      simp_all
    have hstopped := ((judges_verdict h).stale rfl x hx).resolve_left (not_not_intro hattempt)
    cases hstatus : x.status with
    | inProgress => exact absurd hstatus hstopped
    | queued => exact Or.inr (Or.inr ⟨rfl, heq ▸ hsound.queued hstatus⟩)
    | _ => exact Or.inr (Or.inl rfl)

theorem spent_of_notFound {w : World} {r : ResponseId} {a : Attempt} {c : Call}
    (h : verdict r a ⟨c, (exec c w).1⟩ = some (.error .notFound)) : Spent r a w := by
  intro x hx
  rw [(judges_verdict h).notFound rfl] at hx
  cases hx

/-- The rule for refusals: where `refusal` finds an attempt spent, the fence never lets that attempt
pass after one. -/
theorem Served.never_ok {w₀ w w' : World} {xs ys : Exchanges} (hempty : w₀.store.inner = {})
    (h : Served w₀ xs w) (h' : ServedAfter xs w ys w') {r : ResponseId} {a : Attempt}
    {refusal : Except LedgerError Unit} (hr : r ∈ created xs) {K : World → Prop} (hK : K w)
    (hkeep : ∀ zs v c, Orderly (xs ++ zs) v → c.FreshIn (xs ++ zs) → K v → K (exec c v).2)
    (hspent : ∀ zs v c, Orderly (xs ++ zs) v → K v →
      verdict r a ⟨c, (exec c v).1⟩ = some refusal → Spent r a v) :
    ys.Pairwise fun e f ↦ verdict r a e = some refusal → verdict r a f ≠ some (.ok ()) := by
  let J (zs : Exchanges) (v : World) : Prop :=
    K v ∧ (zs.Pairwise fun e f ↦ verdict r a e = some refusal → verdict r a f ≠ some (.ok ())) ∧
      ((∃ e ∈ zs, verdict r a e = some refusal) → Spent r a v)
  have hstep : ∀ zs v c, Orderly (xs ++ zs) v → J zs v → c.FreshIn (xs ++ zs) →
      J (zs ++ [⟨c, (exec c v).1⟩]) (exec c v).2 := by
    rintro zs v c hI ⟨hKv, hpair, hseen⟩ hc
    refine ⟨hkeep zs v c hI hc hKv, ?_, ?_⟩
    · refine List.pairwise_append.mpr
        ⟨hpair, List.pairwise_singleton _ _, fun e he f hf hrefused ↦ ?_⟩
      obtain rfl := List.mem_singleton.mp hf
      exact (hseen ⟨e, he, hrefused⟩).not_ok
    · rintro ⟨e, he, hrefused⟩
      refine Spent.step ?_ hI hc (mem_created_append hr zs)
      rcases List.mem_append.mp he with he | he
      · exact hseen ⟨e, he, hrefused⟩
      · obtain rfl := List.mem_singleton.mp he
        exact hspent zs v c hI hKv hrefused
  have hrun : J ys w' := h.continued (Served.orderly hempty) hstep h'
    ⟨hK, List.Pairwise.nil, fun ⟨_, he, _⟩ ↦ absurd he (by simp)⟩
  exact hrun.2.1

/-- The life of every record, at every point of every history and in whatever follows it. -/
theorem ledger_lifecycle {w₀ w w' : World} {xs ys : Exchanges} (hempty : w₀.store.inner = {})
    (h : Served w₀ xs w) (h' : ServedAfter xs w ys w') :
    (∀ c, c.FreshIn xs → ∀ r x y, w.store.record r = some x →
      (exec c w).2.store.record r = some y → x.status.Leads y.status) ∧
    (∀ r x y, w.store.record r = some x → w'.store.record r = some y →
      (x.status.isTerminal = true → y.status = x.status ∧ y.usage = x.usage ∧
        y.attempt = x.attempt ∧ y.completedAtMs = x.completedAtMs) ∧
      x.attempt.val ≤ y.attempt.val) ∧
    (∀ c r, c.takes r (exec c w).1 = true → ∃ x y, w.store.record r = some x ∧
      (exec c w).2.store.record r = some y ∧ x.attempt.val < y.attempt.val) ∧
    (∀ r x, w.store.record r = some x → (x.owner.isSome = true ↔ x.status = .inProgress)) ∧
    (∀ r x, w.store.record r = some x → ys.Pairwise fun e f ↦
      verdict r x.attempt e = some (.error .staleAttempt) →
        verdict r x.attempt f ≠ some (.ok ())) ∧
    (∀ r a, r ∈ created xs → ys.Pairwise fun e f ↦
      verdict r a e = some (.error .notFound) → verdict r a f ≠ some (.ok ())) := by
  have ho := Served.orderly hempty h
  refine ⟨?_, ?_, ?_, ?_, ?_, ?_⟩
  · intro c hc r x y hx hy
    obtain ⟨x', hx', -, hstage⟩ := ho.evolves hc (ho.created hx) hy
    obtain rfl : x = x' := Option.some.inj (hx.symm.trans hx')
    exact hstage.leads
  · intro r x y hx hy
    have hevolves := Served.evolves hempty h h' hx hy
    exact ⟨hevolves.settled, hevolves.attempt⟩
  · intro c r htakes
    obtain ⟨x, y, hx, hy, hopen, hnext⟩ := exec_takes ho.keyed htakes
    refine ⟨x, y, hx, hy, ?_⟩
    rw [hnext, ((ho.sound hx).next hopen).2]
    exact Nat.lt_succ_self _
  · exact fun r x hx ↦ (ho.sound hx).owner
  · intro r x hx
    have hr := ho.created hx
    refine Served.never_ok hempty h h' hr
      (K := fun v ↦ ∀ y, v.store.record r = some y → x.attempt.val ≤ y.attempt.val) ?_ ?_ ?_
    · intro y hy
      obtain rfl : x = y := Option.some.inj (hx.symm.trans hy)
      exact le_rfl
    · intro zs v c hI hc hK y hy
      obtain ⟨x', hx', hsound, hstage⟩ := hI.evolves hc (mem_created_append hr zs) hy
      exact (hK x' hx').trans (hstage.evolves hsound).attempt
    · exact fun zs v c hI hK hv ↦ spent_of_stale (fun y hy ↦ ⟨hI.sound hy, hK y hy⟩) hv
  · intro r a hr
    exact Served.never_ok hempty h h' hr (K := fun _ ↦ True) trivial (fun _ _ _ _ _ _ ↦ trivial)
      (fun zs v c hI _ hv ↦ spent_of_notFound hv)

/-! ## A sample -/

namespace Sample

/-- Create a response that belongs to no conversation. -/
def file (n : BitVec 128) (nowMs : ℕ) : Call :=
  .ledger (.create (.queued (id n) tenant rootSpec (.forResponse (id n)) nowMs 1000)
    (.forResponse (id n)) nowMs)

/-- Carry out some calls on an empty store. -/
def served (cs : List Call) : Exchanges × World := History.answered exec cs [] {}

theorem served_spec {cs : List Call}
    (h : History.permitted exec (fun xs c ↦ decide (c.FreshIn xs)) cs [] {} = true) :
    Served {} (served cs).1 (served cs).2 :=
  History.of_permitted (fun _ _ ↦ of_decide_eq_true) cs .nil h

/-- A response is created and claimed. -/
def claimedOnce : Exchanges × World := served [file 1 0, .ledger (.claim agent 5 60)]

/-- The claim completes, a cancellation comes too late, and the attempt is checked once more. -/
def finishing : Exchanges × World :=
  History.answered exec [.ledger (.complete (id 1) Attempt.unclaimed.next .completed ⟨7, 3⟩ 9),
    .ledger (.cancel tenant (id 1) 10),
    .ledger (.checkAttempt (id 1) Attempt.unclaimed.next)] [] claimedOnce.2

end Sample

/-- A claim is completed: its attempt does not go back, and once it is stale it stays so. -/
theorem ledger_lifecycle_finished : ∃ x y,
    Sample.claimedOnce.2.store.record (Sample.id 1) = some x ∧
      Sample.finishing.2.store.record (Sample.id 1) = some y ∧
        x.status = .inProgress ∧ y.status = .completed ∧ x.attempt.val ≤ y.attempt.val ∧
          (x.owner.isSome = true ↔ x.status = .inProgress) ∧
            Sample.finishing.1.Pairwise fun e f ↦
              verdict (Sample.id 1) x.attempt e = some (.error .staleAttempt) →
                verdict (Sample.id 1) x.attempt f ≠ some (.ok ()) := by
  have hserved : Served {} Sample.claimedOnce.1 Sample.claimedOnce.2 :=
    Sample.served_spec (by decide +kernel)
  have hafter : ServedAfter Sample.claimedOnce.1 Sample.claimedOnce.2 Sample.finishing.1
      Sample.finishing.2 :=
    @History.of_permitted _ _ _ exec (fun zs c ↦ c.FreshIn (Sample.claimedOnce.1 ++ zs)) _
      (fun zs c ↦ decide (c.FreshIn (Sample.claimedOnce.1 ++ zs)))
      (fun _ _ ↦ of_decide_eq_true) _ _ _ .nil (by decide +kernel)
  obtain ⟨x, hx, hrunning⟩ := (Option.any_eq_true _ _).mp
    (show (Sample.claimedOnce.2.store.record (Sample.id 1)).any (·.status = .inProgress) = true by
      decide +kernel)
  obtain ⟨y, hy, hdone⟩ := (Option.any_eq_true _ _).mp
    (show (Sample.finishing.2.store.record (Sample.id 1)).any (·.status = .completed) = true by
      decide +kernel)
  obtain ⟨-, hkept, -, howner, hstale, -⟩ := ledger_lifecycle rfl hserved hafter
  exact ⟨x, y, hx, hy, of_decide_eq_true hrunning, of_decide_eq_true hdone, (hkept _ x y hx hy).2,
    howner _ x hx, hstale _ x hx⟩

end NovaChat
