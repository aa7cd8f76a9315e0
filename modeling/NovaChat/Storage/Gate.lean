import NovaChat.Storage.Purge

/-!
# What the idempotency gate leads to

The gate keeps every key for good, and the record behind a key may be deleted.  From the first
deletion on there is a key that leads nowhere, and a create that brings it is told that nothing was
found; without a deletion every key leads to its record.
-/

namespace NovaChat

open Interact

/-- An exchange in which records were removed. -/
def Removes : Exchange Call Call.Reply → Prop
  | ⟨.ledger (.delete _), .ok removed⟩ => removed = true
  | ⟨.ledger (.deleteByTenant _), .ok n⟩ => 0 < n
  | _ => False

/-- Every key of the gate leads to a record. -/
def MemStore.Leads (s : MemStore) : Prop :=
  ∀ key r, s.inner.idem.lookup key = some r → ∃ x, s.record r = some x

/-- Whatever key it brings, a record that can be signed is accepted or is a duplicate, if the store
takes writes and has room. -/
def Admits (w : World) : Prop :=
  ∀ record key now x, MemResponseLedger.sign w.nfc w.integrity record = .ok x →
    w.store.readOnly = false → w.store.inner.inFlightCount < w.store.pendingLimit →
    HashMap.size w.store.inner.records < w.store.maxRecords →
      (∃ y, (exec (.ledger (.create record key now)) w).1 = .ok (.accepted y)) ∨
        ∃ y, (exec (.ledger (.create record key now)) w).1 = .ok (.duplicate y)

theorem MemStore.Leads.admits {w : World} (h : w.store.Leads) : Admits w := by
  intro record key now x hsign hwritable hpending hroom
  simp only [exec, execLedger, World.withStore_fst]
  cases hidem : w.store.inner.idem.lookup key with
  | none =>
      left
      rw [MemResponseLedger.create_of_room hsign hidem hwritable hpending hroom]
      exact ⟨x, rfl⟩
  | some r =>
      right
      obtain ⟨y, hy⟩ := h key r hidem
      rw [MemResponseLedger.create_of_hit hsign hidem hy]
      exact ⟨y, rfl⟩

/-! ## Removals -/

section Removals

variable {xs : Exchanges} {w : World} {c : Call} {r : ResponseId} {x : ResponseRecord}

theorem removes_of_lost (h : RecordsIndexed w.store.inner) (hx : w.store.record r = some x)
    (hgone : (exec c w).2.store.record r = none) : Removes ⟨c, (exec c w).1⟩ := by
  rcases record_kept (c := c) hx with ⟨y, hy⟩ | ⟨rfl, hguard⟩ | ⟨tenant, rfl, hguard, hmem⟩
  · cases hy.symm.trans hgone
  · have hx' : w.store.inner.records.lookup r = some x := hx
    have hreply : (exec (.ledger (.delete r)) w).1 = .ok true := by
      simp [exec, execLedger, MemResponseLedger.delete, hguard, Inner.removeRecord, hx']
    rw [hreply]
    rfl
  · obtain ⟨hreply, -⟩ := deleteByTenant_records h hguard tenant
    have hreply' : (exec (.ledger (.deleteByTenant tenant)) w).1 = _ := hreply
    rw [hreply', ← h.byTenant.length_eq]
    exact List.length_pos_of_mem hmem

/-- A call that removes records removes one that was there. -/
theorem lost_of_removes (h : RecordsIndexed w.store.inner) (hc : Removes ⟨c, (exec c w).1⟩) :
    ∃ r x, w.store.record r = some x ∧ (exec c w).2.store.record r = none := by
  rcases c with _ | c | c | c | c | c
  · exact hc.elim
  · cases c with
    | delete id =>
        simp only [exec, execLedger, World.withStore_fst, World.withStore_snd,
          MemResponseLedger.delete] at hc ⊢
        cases hguard : MemResponseLedger.guardWritable w.store with
        | error e =>
            rw [hguard] at hc
            exact hc.elim
        | ok u =>
            simp only [hguard] at hc ⊢
            cases hx : w.store.inner.records.lookup id with
            | none =>
                simp only [Inner.removeRecord, hx] at hc
                cases hc
            | some x =>
                refine ⟨id, x, hx, ?_⟩
                exact (MemResponseLedger.lookup_removeRecord _ _ _).trans (if_pos rfl)
    | deleteByTenant tenant =>
        cases hguard : MemResponseLedger.guardWritable w.store with
        | error e =>
            simp only [exec, execLedger, World.withStore_fst, MemResponseLedger.deleteByTenant,
              hguard] at hc
            exact hc.elim
        | ok u =>
            obtain ⟨hreply, hpurged⟩ := deleteByTenant_records h hguard tenant
            have hreply' : (exec (.ledger (.deleteByTenant tenant)) w).1 = _ := hreply
            rw [hreply', ← h.byTenant.length_eq] at hc
            obtain ⟨id, hid⟩ := List.exists_mem_of_length_pos hc
            obtain ⟨x, hx, htenant⟩ := (h.byTenant.exact tenant id).mp hid
            have hx' : w.store.record id = some x := hx
            refine ⟨id, x, hx, (hpurged.record id).trans ?_⟩
            simp [hx', htenant]
    | _ => exact hc.elim
  · cases c <;> exact hc.elim
  · cases c <;> exact hc.elim
  · cases c <;> exact hc.elim
  · cases c <;> exact hc.elim

end Removals

/-! ## Every run -/

theorem createdId_eq_accepts (c : Call) (reply : c.Reply) :
    createdId ⟨c, reply⟩ = (c.accepts reply).map fun p ↦ p.2.responseId := by
  rcases c with _ | c | c | c | c | c
  · rfl
  · cases c with
    | create record key now =>
        rcases reply with e | outcome
        · rfl
        · cases outcome <;> rfl
    | _ => rfl
  all_goals rfl

/-- The keys of the gate and the accepted responses belong together, and records have been lost
exactly if some were removed. -/
structure Gated (xs : Exchanges) (w : World) : Prop where
  filed : Filed xs w
  accepted : ∀ key r, w.store.inner.idem.lookup key = some r → r ∈ created xs
  keyed : ∀ r ∈ created xs, ∃ key, w.store.inner.idem.lookup key = some r
  kept : (∀ x ∈ xs, ¬ Removes x) → ∀ r ∈ created xs, ∃ x, w.store.record r = some x
  lost : ∀ x ∈ xs, Removes x → ∃ r ∈ created xs, w.store.record r = none

section Runs

variable {w₀ w : World} {xs : Exchanges} {call : Call}

theorem gated_empty (hempty : w.store.inner = {}) : Gated [] w := by
  constructor
  · exact filed_empty hempty
  · intro key r h
    simp [hempty] at h
  · intro r hr
    cases hr
  · intro _ r hr
    cases hr
  · intro x hx
    cases hx

/-- A call under new ids keeps the gate and the records together. -/
theorem Gated.step (h : Gated xs w) (hcall : call.NewIn xs) :
    Gated (xs ++ [⟨call, (exec call w).1⟩]) (exec call w).2 := by
  have hfiled := h.filed.step hcall
  constructor
  · exact hfiled
  · intro key r hkey
    rw [created_snoc, createdId_eq_accepts]
    cases hacc : call.accepts (exec call w).1 with
    | none =>
        rw [exec_idem hacc] at hkey
        exact List.mem_append_left _ (h.accepted key r hkey)
    | some entry =>
        obtain ⟨key', x⟩ := entry
        obtain ⟨record, now, -, -, -, -, -, heq⟩ := exec_accepts hacc
        rw [heq] at hkey
        have hkey := (HashMap.lookup_insert' _ _ _ _).symm.trans hkey
        split_ifs at hkey
        · apply List.mem_append_right
          rw [← Option.some.inj hkey]
          simp
        · exact List.mem_append_left _ (h.accepted key r hkey)
  · intro r hr
    rw [created_snoc, List.mem_append] at hr
    rcases hr with hr | hr
    · obtain ⟨key, hkey⟩ := h.keyed r hr
      exact ⟨key, idem_persists call hkey⟩
    · rw [createdId_eq_accepts, Option.mem_toList, Option.map_eq_some_iff] at hr
      obtain ⟨⟨key, x⟩, hacc, rfl⟩ := hr
      obtain ⟨record, now, -, -, -, -, -, heq⟩ := exec_accepts hacc
      refine ⟨key, ?_⟩
      rw [heq]
      exact (HashMap.lookup_insert' _ _ _ _).trans (if_pos rfl)
  · intro hnone r hr
    have hbefore : ∀ x ∈ xs, ¬ Removes x := fun x hx ↦ hnone x (List.mem_append_left _ hx)
    have hnow : ¬ Removes ⟨call, (exec call w).1⟩ :=
      hnone _ (List.mem_append_right _ List.mem_cons_self)
    rw [created_snoc, List.mem_append] at hr
    rcases hr with hr | hr
    · obtain ⟨x, hx⟩ := h.kept hbefore r hr
      cases hafter : (exec call w).2.store.record r with
      | none => exact absurd (removes_of_lost h.filed.records hx hafter) hnow
      | some y => exact ⟨y, rfl⟩
    · rw [Option.mem_toList] at hr
      obtain ⟨record, key, now, x, -, -, hid, -, heq⟩ := createdId_exec hr
      refine ⟨x, ?_⟩
      rw [heq]
      exact (MemResponseLedger.record_enqueue w.store x key r).trans (if_pos hid.symm)
  · intro x hx hremoves
    rw [created_snoc]
    rcases List.mem_append.mp hx with hx | hx
    · obtain ⟨r, hr, hnone⟩ := h.lost x hx hremoves
      refine ⟨r, List.mem_append_left _ hr, ?_⟩
      -- Its id is used up, so nothing brings the record back.
      cases hafter : (exec call w).2.store.record r with
      | none => rfl
      | some y =>
          have hwrites : call.writes ≠ some r := by
            intro hwrites
            unfold Call.writes at hwrites
            split at hwrites
            · exact hcall ((Option.some.inj hwrites).symm ▸ hr)
            · cases hwrites
          obtain ⟨z, hz, -⟩ := record_back hwrites hafter
          cases hnone.symm.trans hz
    · obtain rfl := List.mem_singleton.mp hx
      obtain ⟨r, y, hy, hnone⟩ := lost_of_removes h.filed.records hremoves
      exact ⟨r, List.mem_append_left _ (h.filed.created hy), hnone⟩

theorem gated_of_history (hempty : w₀.store.inner = {})
    (h : History exec (fun zs c ↦ c.NewIn zs) w₀ xs w) : Gated xs w := by
  apply h.invariant (J := Gated)
  · intro zs v call hv hcall
    exact hv.step hcall
  · exact gated_empty hempty

/-- After every history with new ids, every key of the gate leads to a record, and every create
that finds room is accepted or a duplicate, exactly if no record was ever removed. -/
theorem gate_sound_iff (hempty : w₀.store.inner = {})
    (h : History exec (fun zs c ↦ c.NewIn zs) w₀ xs w) :
    w.store.Leads ∧ Admits w ↔ ∀ x ∈ xs, ¬ Removes x := by
  have hgated := gated_of_history hempty h
  constructor
  · rintro ⟨hleads, -⟩ x hx hremoves
    obtain ⟨r, hr, hnone⟩ := hgated.lost x hx hremoves
    obtain ⟨key, hkey⟩ := hgated.keyed r hr
    obtain ⟨y, hy⟩ := hleads key r hkey
    cases hnone.symm.trans hy
  · intro hkept
    have hleads : w.store.Leads := by
      intro key r hkey
      exact hgated.kept hkept r (hgated.accepted key r hkey)
    exact ⟨hleads, hleads.admits⟩

end Runs

def Sample.isDelete : Call → Bool
  | .ledger (.delete _) | .ledger (.deleteByTenant _) => true
  | _ => false

theorem gate_sound_iff_claimedOnce :
    Sample.claimedOnce.2.store.Leads ∧ Admits Sample.claimedOnce.2 := by
  have hhistory : History exec (fun zs c ↦ c.NewIn zs) {} Sample.claimedOnce.1
      Sample.claimedOnce.2 :=
    @History.of_permitted _ _ _ exec _ _ (fun zs c ↦ decide (c.NewIn zs))
      (fun _ _ ↦ of_decide_eq_true) _ _ _ .nil (by decide +kernel)
  refine (gate_sound_iff rfl hhistory).mpr ?_
  intro x hx
  have hkinds : ∀ x ∈ Sample.claimedOnce.1, Sample.isDelete x.call = false := by decide +kernel
  have hkind := hkinds x hx
  obtain ⟨call, reply⟩ := x
  unfold Removes
  split <;> simp_all [Sample.isDelete]

namespace Sample

/-- A response is created and deleted, and its key comes again. -/
def forgotten : Exchanges × World := served [file 1 0, .ledger (.delete (id 1))]

end Sample

/-- The key of a deleted response leads nowhere, and a create that brings it is told that nothing
was found. -/
theorem gate_dangles : ¬ ∀ (w₀ w : World) (xs : Exchanges), w₀.store.inner = {} →
    History exec (fun zs c ↦ c.NewIn zs) w₀ xs w → w.store.Leads ∧ Admits w := by
  intro h
  have hhistory : History exec (fun zs c ↦ c.NewIn zs) {} Sample.forgotten.1 Sample.forgotten.2 :=
    @History.of_permitted _ _ _ exec _ _ (fun zs c ↦ decide (c.NewIn zs))
      (fun _ _ ↦ of_decide_eq_true) _ _ _ .nil (by decide +kernel)
  have hadmits := (h {} _ _ rfl hhistory).2
    (.queued (Sample.id 2) Sample.tenant Sample.rootSpec (.forResponse (Sample.id 1)) 0 1000)
    (.forResponse (Sample.id 1)) 0 _ rfl (by decide +kernel) (by decide +kernel) (by decide +kernel)
  have hrefused : Except.isOk (MemResponseLedger.create Sample.forgotten.2.nfc
      Sample.forgotten.2.integrity Sample.forgotten.2.store
      (.queued (Sample.id 2) Sample.tenant Sample.rootSpec (.forResponse (Sample.id 1)) 0 1000)
      (.forResponse (Sample.id 1))).1 = false := by decide +kernel
  simp only [exec, execLedger, World.withStore_fst] at hadmits
  rcases hadmits with ⟨y, hy⟩ | ⟨y, hy⟩ <;> (rw [hy] at hrefused; cases hrefused)

end NovaChat
