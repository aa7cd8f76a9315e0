import NovaChat.Admission.History

/-!
# Deletion by another tenant

`delete` reads whose response it is about only to find the conversation to tell.  The ledger
removes a record by its id alone, so a tenant that names another's response deletes it.
-/

namespace NovaChat

open Interact Prog MemResponseLedger

/-- The answer a tenant should get for a response of another: that of an id that never existed,
with nothing changed. -/
def DeleteScoped (tenant : TenantId) (id : ResponseId) (w : World) : Prop :=
  ∃ w', (ResponsesService.delete tenant id).run exec w = some (.ok false, w') ∧
    w'.store = w.store ∧ w'.log = w.log

section Delete

variable {w : World} {tenant : TenantId} {id : ResponseId} {x : ResponseRecord}

/-- An id without a record is not there to be deleted. -/
theorem run_delete_missing (hx : w.store.record id = none) (hwritable : w.store.readOnly = false) :
    ∃ w', (ResponsesService.delete tenant id).run exec w = some (.ok false, w') ∧
      w'.store = w.store := by
  have hremoved : w.store.inner.removeRecord id = (none, w.store.inner) := by
    have hlook : w.store.inner.records.lookup id = none := hx
    simp [Inner.removeRecord, hlook]
  have hledger : MemResponseLedger.delete w.store id = (.ok false, w.store) := by
    have hguard : guardWritable w.store = .ok () := by simp [guardWritable, hwritable]
    simp only [MemResponseLedger.delete, hguard, hremoved]
    rfl
  have hdelete : exec (.ledger (.delete id)) w = (.ok false, w) := by
    simp only [exec, execLedger, hledger, World.withStore_self]
  simp only [ResponsesService.delete, Ledger.get, Ledger.delete, EventLog.remove, perform_bind,
    run_call]
  have hget : exec (.ledger (.get id)) w = (.ok none, w) := by
    simp only [exec, execLedger, MemResponseLedger.get, hx]
  rw [hget, hdelete]
  exact ⟨_, rfl, exec_eventLog_store _ _⟩

theorem run_delete_refused (hwritable : w.store.readOnly = true) :
    (ResponsesService.delete tenant id).run exec w =
      some (.error (.ledger (.store .readOnly)), w) := by
  have hdelete : exec (.ledger (.delete id)) w = (.error (.store .readOnly), w) := by
    simp [exec, execLedger, MemResponseLedger.delete, guardWritable, hwritable]
  simp only [ResponsesService.delete, Ledger.get, Ledger.delete, perform_bind, run_call]
  have hget : exec (.ledger (.get id)) w = (.ok (w.store.record id), w) := rfl
  rw [hget, hdelete]
  rfl

/-- Otherwise the record goes, and its log with it, whoever asks. -/
theorem run_delete_present (hx : w.store.record id = some x)
    (hwritable : w.store.readOnly = false) (tenant : TenantId) :
    ∃ w', (ResponsesService.delete tenant id).run exec w = some (.ok true, w') ∧
      w'.store.record id = none ∧ w'.log.logs.lookup id = none := by
  set inner := (w.store.inner.removeRecord id).2 with hinner
  have hremoved : w.store.inner.removeRecord id = (some x, inner) := by
    have hlook : w.store.inner.records.lookup id = some x := hx
    simp [hinner, Inner.removeRecord, hlook]
  set w₁ : World := { w with store := { w.store with inner := inner } } with hw₁
  have hdelete : exec (.ledger (.delete id)) w = (.ok true, w₁) := by
    simp [exec, execLedger, MemResponseLedger.delete, guardWritable, hwritable, hremoved, hw₁,
      World.withStore]
  have hgone : w₁.store.record id = none := by
    rw [hw₁, MemStore.record, hinner, lookup_removeRecord, if_pos rfl]
  set w₂ := (exec (.eventLog (.remove id)) w₁).2 with hw₂
  have hlog : w₂.log.logs.lookup id = none := by
    simp only [hw₂, exec, execEventLog, World.withLog_snd, MemResponseEventLog.remove]
    cases hlook : w₁.log.logs.lookup id with
    | none => exact hlook
    | some log => exact (HashMap.lookup_erase' _ _ _).trans (if_pos rfl)
  have hstore : w₂.store = w₁.store := exec_eventLog_store _ _
  simp only [ResponsesService.delete, Ledger.get, Ledger.delete, EventLog.remove, perform_bind,
    run_call]
  have hget : exec (.ledger (.get id)) w = (.ok (some x), w) := by
    simp only [exec, execLedger, MemResponseLedger.get, hx]
  rw [hget, hdelete]
  simp only [found, Option.bind_some]
  cases x.conversationId with
  | none => exact ⟨w₂, rfl, hstore ▸ hgone, hlog⟩
  | some c =>
      refine ⟨_, rfl, ?_, ?_⟩
      · show (exec (.conversations _) w₂).2.store.record id = none
        rw [exec_conversations_record, hstore, hgone]
      · show (exec (.conversations _) w₂).2.log.logs.lookup id = none
        rw [(exec_converses _ w₂).log, hlog]

/-- No deletion of another tenant's response is scoped: a writable store lets it go, and a read-only
one refuses every deletion, also of an id that never existed. -/
theorem not_deleteScoped (hx : w.store.record id = some x) (_hother : x.tenantId ≠ tenant) :
    ¬ DeleteScoped tenant id w := by
  rintro ⟨w', hrun, -⟩
  cases hwritable : w.store.readOnly with
  | true =>
      rw [run_delete_refused hwritable] at hrun
      cases hrun
  | false =>
      obtain ⟨w₁, hdeleted, -⟩ := run_delete_present hx hwritable tenant
      rw [hdeleted] at hrun
      cases hrun

end Delete

/-- A world where the sample tenant has started one response. -/
def Sample.started : World := world.after (createCalls tenant rootSpec 1)

/-- Another tenant deletes it. -/
theorem foreign_delete : ¬ ∀ (w₀ : World) (history : List Call) (tenant : TenantId)
    (id : ResponseId) (x : ResponseRecord), w₀.store.Keyed →
    (w₀.after history).store.record id = some x → x.tenantId ≠ tenant →
    DeleteScoped tenant id (w₀.after history) := by
  intro hclaim
  obtain ⟨w', hrun, -⟩ := hclaim Sample.world (Sample.createCalls Sample.tenant Sample.rootSpec 1)
    Sample.otherTenant (Sample.id 1) (Sample.record Sample.tenant Sample.rootSpec 1)
    Sample.world_keyed rfl (by decide)
  have hdeleted : ((ResponsesService.delete Sample.otherTenant (Sample.id 1)).run exec
      Sample.started).map (fun out ↦ out.1.toOption) = some (some true) := by decide +kernel
  rw [Sample.started, hrun] at hdeleted
  cases hdeleted

theorem not_deleteScoped_started : ¬ DeleteScoped Sample.otherTenant (Sample.id 1) Sample.started :=
  not_deleteScoped (x := Sample.record Sample.tenant Sample.rootSpec 1) rfl (by decide)

end NovaChat
