import NovaChat.Admission.Solo

/-!
# Histories

The port calls made so far, whoever made them, and what the idempotency gate remembers of them.
An entry of the gate is never taken back, and the record it names keeps its tenant and its spec
for as long as it is there.
-/

namespace NovaChat

open Interact

/-! ## Worlds after calls -/

/-- The world after a history of calls. -/
def World.after (w : World) : List Call → World
  | [] => w
  | c :: calls => (exec c w).2.after calls

theorem World.after_append (w : World) (calls calls' : List Call) :
    w.after (calls ++ calls') = (w.after calls).after calls' := by
  induction calls generalizing w with
  | nil => rfl
  | cons c calls ih => exact ih _

/-- The calls of a trace. -/
def calls (tr : Trace) : List Call :=
  tr.filterMap fun
    | .start _ => none
    | .call _ c _ => some c

/-- Whatever the services do together, the world is the one their calls lead to. -/
theorem world_of_run {ok : Trace → State → Event Call Call.Reply Job → Prop} {w : World}
    {tr : Trace} {q : State} (h : Run system ok (Pool.init w) tr q) :
    q.world = w.after (calls tr) := by
  induction h with
  | nil => rfl
  | @start tr q j _ _ ih =>
      have hcalls : calls (tr ++ [.start j]) = calls tr := by simp [calls]
      rw [hcalls]
      exact ih
  | @turn tr q i j c k _ _ _ ih =>
      have hcalls : calls (tr ++ [.call i c (system.exec c q.world).1]) = calls tr ++ [c] := by
        simp [calls]
      rw [hcalls, World.after_append, ← ih]
      rfl

theorem World.after_invariant {J : World → Prop} (hstep : ∀ c w, J w → J (exec c w).2) {w : World}
    (hw : J w) (calls : List Call) : J (w.after calls) := by
  induction calls generalizing w with
  | nil => exact hw
  | cons c calls ih => exact ih (hstep c w hw)

theorem exec_integrity (c : Call) (w : World) :
    (exec c w).2.integrity = w.integrity ∧ (exec c w).2.nfc = w.nfc := by
  rcases c with _ | c | c | c | c | c
  · exact ⟨rfl, rfl⟩
  all_goals cases c <;> exact ⟨rfl, rfl⟩

theorem integrity_after (w : World) (calls : List Call) :
    (w.after calls).integrity = w.integrity ∧ (w.after calls).nfc = w.nfc :=
  World.after_invariant (J := fun w' ↦ w'.integrity = w.integrity ∧ w'.nfc = w.nfc)
    (fun c w' h ↦ ⟨(exec_integrity c w').1.trans h.1, (exec_integrity c w').2.trans h.2⟩)
    ⟨rfl, rfl⟩ calls

theorem keyed_after {w : World} (hk : w.store.Keyed) (calls : List Call) :
    (w.after calls).store.Keyed :=
  World.after_invariant (J := fun w ↦ w.store.Keyed) (fun c _ h ↦ exec_keyed c h) hk calls

/-! ## The gate -/

namespace MemResponseLedger

theorem idem_claimLoop (s : MemStore) (agentId : AgentId) (nowMs execTtlMs : ℕ) :
    ∀ queue, (claimLoop s agentId nowMs execTtlMs queue).2.inner.idem = s.inner.idem := by
  intro queue
  induction queue with
  | nil => rfl
  | cons id rest ih =>
      unfold claimLoop
      split
      · exact ih
      · split_ifs
        · rfl
        · exact ih

@[simp] theorem idem_bookPartial (s : MemStore) (id : ResponseId) (x : ResponseRecord) :
    (bookPartial s id x).inner.idem = s.inner.idem := by
  unfold bookPartial
  split <;> rfl

theorem idem_reapAll (nowMs : ℕ) : ∀ (ids : List ResponseId) (s : MemStore),
    (reapAll nowMs ids s).2.inner.idem = s.inner.idem := by
  intro ids
  induction ids with
  | nil => exact fun s ↦ rfl
  | cons id ids ih =>
      intro s
      have hone : (reapOne s id nowMs).2.inner.idem = s.inner.idem := by
        unfold reapOne
        split
        · rfl
        · rw [idem_bookPartial]
          rfl
      exact (ih _).trans hone

theorem idem_removeRecord (g : Inner) (id : ResponseId) :
    (g.removeRecord id).2.idem = g.idem := by
  unfold Inner.removeRecord
  split <;> rfl

theorem idem_removeAll : ∀ (ids : List ResponseId) (g : Inner),
    (removeAll ids g).2.idem = g.idem := by
  intro ids
  induction ids with
  | nil => exact fun g ↦ rfl
  | cons id ids ih => exact fun g ↦ (ih _).trans (idem_removeRecord g id)

end MemResponseLedger

open MemResponseLedger

/-- What a call has accepted: the key it came with and the record written for it. -/
def Call.accepts : (c : Call) → c.Reply → Option (IdempotencyKey × ResponseRecord)
  | .ledger (.create _ key _), .ok (.accepted x) => some (key, x)
  | _, _ => none

/-- A call that accepts nothing leaves the gate as it was. -/
theorem exec_idem {c : Call} {w : World} (h : c.accepts (exec c w).1 = none) :
    (exec c w).2.store.inner.idem = w.store.inner.idem := by
  rcases c with _ | c | c | c | c | c
  · rfl
  · cases c with
    | create record key now =>
        rcases exec_create record key now w with ⟨-, heq⟩ | ⟨x, hx, -⟩
        · rw [heq]
        · rw [hx] at h
          cases h
    | claim agent now ttl =>
        simp only [exec, execLedger, World.withStore_snd, MemResponseLedger.claim]
        split
        · rfl
        · exact idem_claimLoop _ _ _ _ _
    | complete id attempt status usage now =>
        rcases complete_cases w.store id attempt status usage now with
          ⟨e, heq⟩ | ⟨x, -, -, -, -, -, heq⟩ <;> simp [exec, execLedger, heq, putRecord]
    | cancel tenant id now =>
        rcases cancel_cases w.store tenant id now with ⟨e, heq⟩ | ⟨x, -, -, -, -, heq⟩ <;>
          simp [exec, execLedger, heq, putRecord]
    | reap now ttl => exact idem_reapAll _ _ _
    | recordPartialUsage id attempt usage =>
        simp only [exec, execLedger, World.withStore_snd, MemResponseLedger.recordPartialUsage]
        split <;> rfl
    | delete id =>
        simp only [exec, execLedger, World.withStore_snd, MemResponseLedger.delete]
        split
        · rfl
        · exact idem_removeRecord _ _
    | deleteByTenant tenant =>
        simp only [exec, execLedger, World.withStore_snd, MemResponseLedger.deleteByTenant]
        split
        · rfl
        · exact idem_removeAll _ _
    | _ => rfl
  · rw [exec_eventLog_store]
  · exact (exec_conversationOnly c w).idem
  · cases c <;> rfl
  · exact congrArg Inner.idem (execMode_inner w c)

/-- What an accepting call finds and leaves. -/
theorem exec_accepts {c : Call} {w : World} {key : IdempotencyKey} {x : ResponseRecord}
    (h : c.accepts (exec c w).1 = some (key, x)) :
    ∃ record now, c = .ledger (.create record key now) ∧ x.responseId = record.responseId ∧
      x.tenantId = record.tenantId ∧ x.spec = record.spec ∧
      w.store.inner.idem.lookup key = none ∧
      (exec c w).2 = { w with store := enqueue w.store x key } := by
  rcases c with _ | c | c | c | c | c
  · cases h
  · cases c with
    | create record key' now =>
        rcases exec_create record key' now w with ⟨hnot, -⟩ | ⟨y, hy, hsign, hidem, heq⟩
        · unfold Call.accepts at h
          split at h
          · next heq => exact absurd (by assumption) (hnot _)
          · cases h
        · rw [hy] at h
          obtain ⟨rfl, rfl⟩ : key' = key ∧ y = x := by simpa [Call.accepts] using h
          have hspec := sign_spec hsign
          refine ⟨record, now, rfl, ?_, ?_, ?_, hidem, heq⟩ <;> rw [hspec]
    | _ => cases h
  all_goals cases c <;> cases h

/-- An entry of the gate stays. -/
theorem idem_persists (c : Call) {w : World} {key : IdempotencyKey} {r : ResponseId}
    (h : w.store.inner.idem.lookup key = some r) :
    (exec c w).2.store.inner.idem.lookup key = some r := by
  cases hacc : c.accepts (exec c w).1 with
  | none => rw [exec_idem hacc, h]
  | some kx =>
      obtain ⟨key', x⟩ := kx
      obtain ⟨record, now, rfl, -, -, -, hnone, heq⟩ := exec_accepts hacc
      have hne : key ≠ key' := by
        rintro rfl
        rw [h] at hnone
        cases hnone
      rw [heq]
      exact (HashMap.lookup_insert' _ _ _ _).trans ((if_neg hne).trans h)

/-! ## What was accepted -/

/-- The keys and records accepted in a history. -/
def World.accepted (w : World) : List Call → List (IdempotencyKey × ResponseRecord)
  | [] => []
  | c :: calls => (c.accepts (exec c w).1).toList ++ (exec c w).2.accepted calls

/-- The ids of the records a history may write. -/
def written (calls : List Call) : List ResponseId := calls.filterMap Call.writes

section Accepted

variable {w : World} {key : IdempotencyKey} {r : ResponseId} {x y : ResponseRecord}
  {calls : List Call}

theorem idem_after (h : w.store.inner.idem.lookup key = some r) (calls : List Call) :
    (w.after calls).store.inner.idem.lookup key = some r :=
  World.after_invariant (J := fun w ↦ w.store.inner.idem.lookup key = some r)
    (fun c _ ↦ idem_persists c) h calls

/-- An accepted key leads to the record it was accepted with. -/
theorem idem_of_accepted (h : (key, x) ∈ w.accepted calls) :
    (w.after calls).store.inner.idem.lookup key = some x.responseId := by
  induction calls generalizing w with
  | nil => cases h
  | cons c calls ih =>
      rcases List.mem_append.mp h with h | h
      · obtain ⟨record, now, -, -, -, -, -, heq⟩ := exec_accepts (Option.mem_toList.mp h)
        have hnow : (exec c w).2.store.inner.idem.lookup key = some x.responseId := by
          rw [heq]
          exact (HashMap.lookup_insert' _ _ _ _).trans (if_pos rfl)
        exact idem_after hnow calls
      · exact ih h

/-- An entry of the gate was there from the start or was accepted. -/
theorem accepted_of_idem (h : (w.after calls).store.inner.idem.lookup key = some r) :
    w.store.inner.idem.lookup key = some r ∨
      ∃ x, (key, x) ∈ w.accepted calls ∧ x.responseId = r := by
  induction calls generalizing w with
  | nil => exact Or.inl h
  | cons c calls ih =>
      rcases ih h with hidem | ⟨x, hx, hid⟩
      · cases hacc : c.accepts (exec c w).1 with
        | none =>
            rw [exec_idem hacc] at hidem
            exact Or.inl hidem
        | some kx =>
            obtain ⟨key', x⟩ := kx
            obtain ⟨record, now, -, -, -, -, -, heq⟩ := exec_accepts hacc
            rw [heq] at hidem
            have hlook := (HashMap.lookup_insert' _ _ _ _).symm.trans hidem
            split_ifs at hlook with hkey
            · subst hkey
              exact Or.inr ⟨x, by simp [World.accepted, hacc], by simpa using hlook⟩
            · exact Or.inl hlook
      · exact Or.inr ⟨x, List.mem_append_right _ hx, hid⟩

theorem record_back_after (hwritten : r ∉ written calls)
    (h : (w.after calls).store.record r = some y) :
    ∃ x, w.store.record r = some x ∧ x.Advances y := by
  induction calls generalizing w with
  | nil => exact ⟨y, h, .refl y⟩
  | cons c calls ih =>
      have hhead : c.writes ≠ some r := fun hc ↦ hwritten (by simp [written, hc])
      have htail : r ∉ written calls := fun hc ↦ hwritten (by
        cases hw : c.writes <;> simp_all [written])
      obtain ⟨x, hx, hxy⟩ := ih htail h
      obtain ⟨x₀, hx₀, hx₀x⟩ := record_back hhead hx
      exact ⟨x₀, hx₀, hx₀x.trans hxy⟩

/-- Where every id is written once, an accepted record keeps its tenant and its spec while it is
there. -/
theorem record_of_accepted (hfresh : (written calls).Nodup) (h : (key, x) ∈ w.accepted calls)
    (hy : (w.after calls).store.record x.responseId = some y) :
    y.tenantId = x.tenantId ∧ y.spec = x.spec := by
  induction calls generalizing w with
  | nil => cases h
  | cons c calls ih =>
      have htail : (written calls).Nodup := by
        cases hw : c.writes with
        | none => simpa [written, hw] using hfresh
        | some id => exact (List.nodup_cons.mp (by simpa [written, hw] using hfresh)).2
      rcases List.mem_append.mp h with h | h
      · obtain ⟨record, now, rfl, hid, -, -, -, heq⟩ := exec_accepts (Option.mem_toList.mp h)
        have hnew : x.responseId ∉ written calls := by
          rw [hid]
          exact (List.nodup_cons.mp (by simpa [written, Call.writes] using hfresh)).1
        obtain ⟨x₀, hx₀, hadv⟩ := record_back_after hnew hy
        rw [heq] at hx₀
        have hwrote := (record_enqueue w.store x key x.responseId).symm.trans hx₀
        obtain rfl : x = x₀ := by simpa using hwrote
        exact ⟨hadv.tenantId, hadv.spec⟩
      · exact ih htail h hy

end Accepted

/-! ## A sample history -/

namespace Sample

def otherTenant : TenantId := ⟨"tenant-b", by decide⟩

def key : IdempotencyKey := ⟨"retry-1", by decide⟩

/-- The calls a create makes by itself. -/
def createCalls (tenant : TenantId) (spec : TurnSpec) (n : BitVec 128) : List Call :=
  ((ResponsesService.create cfg 4 tenant spec (some key) ⟨n⟩).exchanges exec world).map
    Exchange.call

/-- The record such a create writes. -/
def record (tenant : TenantId) (spec : TurnSpec) (n : BitVec 128) : ResponseRecord :=
  ResponsesService.proposed cfg tenant spec (some key) (id n) 0

end Sample

end NovaChat
