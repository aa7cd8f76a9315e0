import NovaChat.Admission.History
import NovaChat.Storage.Indexes
import NovaChat.Stream.Paging

/-!
# Purging a tenant

A purge walks the tenant's set in an index and removes what it names.  Since the index is exact it
removes what belongs to the tenant, all of it, and counts it; since removals reach no further than
the entry they remove, everybody else keeps what they had.
-/

namespace NovaChat

open Interact MemConversationStore

theorem HashMap.lookup_retain {K V : Type} [DecidableEq K] (m : HashMap K V) (p : K → Bool)
    (k : K) : (HashMap.retain m p).lookup k = if p k then m.lookup k else none := by
  have hiff : ∀ v, (HashMap.retain m p).lookup k = some v ↔ m.lookup k = some v ∧ p k = true := by
    intro v
    rw [← HashMap.mem_entries_iff, ← HashMap.mem_entries_iff]
    exact List.mem_filter
  apply Option.ext
  intro v
  rw [hiff]
  by_cases hp : p k = true <;> simp [hp]

/-! ## Records -/

/-- The records of a tenant are gone, and what was booked on them; nothing else is. -/
structure RecordsPurged (tenant : TenantId) (s s' : MemStore) : Prop where
  record : ∀ id, s'.record id = (s.record id).filter fun x ↦ x.tenantId ≠ tenant
  partialUsage : ∀ id attempt, s'.inner.partialUsage.lookup (id, attempt) =
    if (s.record id).any fun x ↦ x.tenantId = tenant then none
    else s.inner.partialUsage.lookup (id, attempt)
  others : MemResponseLedger.LedgerOnly s s'

section Records

variable {g : Inner} {s : MemStore} {tenant : TenantId}

theorem partialUsage_removeRecord {id : ResponseId} (hid : (g.records.lookup id).isSome = true)
    (id' : ResponseId) (attempt : Attempt) :
    (g.removeRecord id).2.partialUsage.lookup (id', attempt) =
      if id' = id then none else g.partialUsage.lookup (id', attempt) := by
  obtain ⟨x, hx⟩ := Option.isSome_iff_exists.mp hid
  simp only [Inner.removeRecord, hx, HashMap.lookup_retain, bne_iff_ne, ne_eq]
  split_ifs <;> rfl

/-- Removing distinct records that exist removes and counts them, with what was booked on them. -/
theorem removeAll_exact (ids : List ResponseId) (hnodup : ids.Nodup)
    (hthere : ∀ id ∈ ids, (g.records.lookup id).isSome = true) :
    (MemResponseLedger.removeAll ids g).1 = ids.length ∧ ∀ id attempt,
      (MemResponseLedger.removeAll ids g).2.partialUsage.lookup (id, attempt) =
        if id ∈ ids then none else g.partialUsage.lookup (id, attempt) := by
  induction ids generalizing g with
  | nil => simp [MemResponseLedger.removeAll]
  | cons id ids ih =>
      obtain ⟨hid, hnodup⟩ := List.nodup_cons.mp hnodup
      have hfirst := hthere id List.mem_cons_self
      have hrest : ∀ id' ∈ ids, ((g.removeRecord id).2.records.lookup id').isSome = true := by
        intro id' hid'
        have hne : id' ≠ id := by
          rintro rfl
          exact hid hid'
        rw [MemResponseLedger.lookup_removeRecord, if_neg hne]
        exact hthere id' (List.mem_cons_of_mem _ hid')
      obtain ⟨hcount, hbooked⟩ := ih hnodup hrest
      have hremoved : (g.removeRecord id).1.isSome = true := by
        obtain ⟨x, hx⟩ := Option.isSome_iff_exists.mp hfirst
        simp [Inner.removeRecord, hx]
      constructor
      · simp [MemResponseLedger.removeAll, hcount, hremoved]
      · intro id' attempt
        have hstep : (MemResponseLedger.removeAll (id :: ids) g).2.partialUsage.lookup
            (id', attempt) = (MemResponseLedger.removeAll ids
              (g.removeRecord id).2).2.partialUsage.lookup (id', attempt) := rfl
        rw [hstep, hbooked, partialUsage_removeRecord hfirst]
        by_cases hid' : id' = id <;> simp [hid']

/-- A purge of the ledger removes the tenant's records and returns their number. -/
theorem deleteByTenant_records (h : RecordsIndexed s.inner)
    (hwritable : MemResponseLedger.guardWritable s = .ok ()) (tenant : TenantId) :
    (MemResponseLedger.deleteByTenant s tenant).1 =
        .ok ((HashMap.values s.inner.records).filter fun x ↦ x.tenantId = tenant).length ∧
      RecordsPurged tenant s (MemResponseLedger.deleteByTenant s tenant).2 := by
  have hmem : ∀ id, id ∈ (s.inner.byTenant.lookup tenant).getD [] ↔
      (s.record id).any (fun x ↦ x.tenantId = tenant) = true := by
    intro id
    rw [h.byTenant.exact, Option.any_eq_true]
    simp [MemStore.record]
  have hthere : ∀ id ∈ (s.inner.byTenant.lookup tenant).getD [],
      (s.inner.records.lookup id).isSome = true := by
    intro id hid
    obtain ⟨x, hx, -⟩ := (h.byTenant.exact tenant id).mp hid
    exact Option.isSome_iff_exists.mpr ⟨x, hx⟩
  obtain ⟨hcount, hbooked⟩ := removeAll_exact _ (h.byTenant.nodup tenant) hthere
  have hdelete : MemResponseLedger.deleteByTenant s tenant =
      (.ok (MemResponseLedger.removeAll ((s.inner.byTenant.lookup tenant).getD []) s.inner).1,
        { s with inner := (MemResponseLedger.removeAll
          ((s.inner.byTenant.lookup tenant).getD []) s.inner).2 }) := by
    simp only [MemResponseLedger.deleteByTenant, hwritable]
  have hothers := ledgerOnly_deleteByTenant s tenant
  rw [hdelete] at hothers ⊢
  constructor
  · rw [hcount, h.byTenant.length_eq]
  · constructor
    · intro id
      have hlook := MemResponseLedger.lookup_removeAll id
        ((s.inner.byTenant.lookup tenant).getD []) s.inner
      refine hlook.trans ?_
      simp only [hmem]
      cases hx : s.record id with
      | none => simpa [MemStore.record] using hx
      | some x =>
          have hx' : s.inner.records.lookup id = some x := hx
          by_cases ht : x.tenantId = tenant <;> simp [ht, hx', Option.filter]
    · intro id attempt
      refine (hbooked id attempt).trans ?_
      simp only [hmem]
    · exact hothers

end Records

/-! ## Conversations -/

/-- The conversations of a tenant are gone, with their streams and snapshots; nothing else is. -/
structure ConversationsPurged (tenant : TenantId) (s s' : MemStore) : Prop where
  conversation : ∀ c, s'.conversation c = (s.conversation c).filter fun x ↦ x.tenantId ≠ tenant
  conversationEvents : ∀ c, s'.inner.conversationEvents.lookup c =
    if (s.conversation c).any fun x ↦ x.tenantId = tenant then none
    else s.inner.conversationEvents.lookup c
  snapshots : ∀ c, s'.inner.snapshots.lookup c =
    if (s.conversation c).any fun x ↦ x.tenantId = tenant then none
    else s.inner.snapshots.lookup c
  others : ConversationOnly s s'

section Conversations

variable {g : Inner} {s : MemStore} {tenant : TenantId}

theorem removeConversation_exact {c : ConversationId}
    (hc : (g.conversations.lookup c).isSome = true) (c' : ConversationId) :
    (g.removeConversation c).1.isSome = true ∧
      (g.removeConversation c).2.conversations.lookup c' =
        (if c' = c then none else g.conversations.lookup c') ∧
      (g.removeConversation c).2.conversationEvents.lookup c' =
        (if c' = c then none else g.conversationEvents.lookup c') ∧
      (g.removeConversation c).2.snapshots.lookup c' =
        if c' = c then none else g.snapshots.lookup c' := by
  obtain ⟨x, hx⟩ := Option.isSome_iff_exists.mp hc
  simp only [Inner.removeConversation, hx]
  exact ⟨rfl, HashMap.lookup_erase' _ _ _, HashMap.lookup_erase' _ _ _,
    HashMap.lookup_erase' _ _ _⟩

/-- Removing distinct conversations that exist removes and counts them, with what hangs on them. -/
theorem removeAll_conversations_exact (ids : List ConversationId) (hnodup : ids.Nodup)
    (hthere : ∀ c ∈ ids, (g.conversations.lookup c).isSome = true) :
    (removeAll ids g).1 = ids.length ∧ ∀ c,
      (removeAll ids g).2.conversations.lookup c =
        (if c ∈ ids then none else g.conversations.lookup c) ∧
      (removeAll ids g).2.conversationEvents.lookup c =
        (if c ∈ ids then none else g.conversationEvents.lookup c) ∧
      (removeAll ids g).2.snapshots.lookup c =
        if c ∈ ids then none else g.snapshots.lookup c := by
  induction ids generalizing g with
  | nil => simp [removeAll]
  | cons c ids ih =>
      obtain ⟨hc, hnodup⟩ := List.nodup_cons.mp hnodup
      have hfirst := removeConversation_exact (hthere c List.mem_cons_self)
      have hrest : ∀ c' ∈ ids,
          ((g.removeConversation c).2.conversations.lookup c').isSome = true := by
        intro c' hc'
        have hne : c' ≠ c := by
          rintro rfl
          exact hc hc'
        rw [(hfirst c').2.1, if_neg hne]
        exact hthere c' (List.mem_cons_of_mem _ hc')
      obtain ⟨hcount, htables⟩ := ih hnodup hrest
      constructor
      · simp [removeAll, hcount, (hfirst c).1]
      · intro c'
        obtain ⟨hconversations, hevents, hsnapshots⟩ := htables c'
        obtain ⟨-, hconversations', hevents', hsnapshots'⟩ := hfirst c'
        rw [hconversations'] at hconversations
        rw [hevents'] at hevents
        rw [hsnapshots'] at hsnapshots
        refine ⟨hconversations.trans ?_, hevents.trans ?_, hsnapshots.trans ?_⟩
        all_goals by_cases hc' : c' = c <;> simp [hc']

/-- A purge of the conversations removes the tenant's and returns their number. -/
theorem deleteByTenant_conversations (h : ConversationsIndexed s.inner)
    (hwritable : guardWritable s = .ok ()) (tenant : TenantId)
    (hothers : ConversationOnly s (deleteByTenant s tenant).2) :
    (deleteByTenant s tenant).1 = .ok ((HashMap.values s.inner.conversations).filter
        fun x ↦ x.tenantId = tenant).length ∧
      ConversationsPurged tenant s (deleteByTenant s tenant).2 := by
  have hmem : ∀ c, c ∈ (s.inner.conversationsByTenant.lookup tenant).getD [] ↔
      (s.conversation c).any (fun x ↦ x.tenantId = tenant) = true := by
    intro c
    rw [h.byTenant.exact, Option.any_eq_true]
    simp [MemStore.conversation]
  have hthere : ∀ c ∈ (s.inner.conversationsByTenant.lookup tenant).getD [],
      (s.inner.conversations.lookup c).isSome = true := by
    intro c hc
    obtain ⟨x, hx, -⟩ := (h.byTenant.exact tenant c).mp hc
    exact Option.isSome_iff_exists.mpr ⟨x, hx⟩
  obtain ⟨hcount, htables⟩ := removeAll_conversations_exact _ (h.byTenant.nodup tenant) hthere
  have hdelete : deleteByTenant s tenant =
      (.ok (removeAll ((s.inner.conversationsByTenant.lookup tenant).getD []) s.inner).1,
        { s with inner :=
          (removeAll ((s.inner.conversationsByTenant.lookup tenant).getD []) s.inner).2 }) := by
    simp only [deleteByTenant, hwritable]
  rw [hdelete] at hothers ⊢
  constructor
  · rw [hcount, h.byTenant.length_eq]
  · constructor
    · intro c
      refine (htables c).1.trans ?_
      simp only [hmem]
      cases hx : s.conversation c with
      | none => simpa [MemStore.conversation] using hx
      | some x =>
          have hx' : s.inner.conversations.lookup c = some x := hx
          by_cases ht : x.tenantId = tenant <;> simp [ht, hx', Option.filter]
    · intro c
      refine (htables c).2.1.trans ?_
      simp only [hmem]
    · intro c
      refine (htables c).2.2.trans ?_
      simp only [hmem]
    · exact hothers

end Conversations

/-! ## Every run -/

/-- After every history with new ids the tables say what the records and the conversations say,
and a purge on either side removes exactly the tenant's entries and returns their number. -/
theorem indexes_exact {w₀ w : World} {xs : Exchanges} (hempty : w₀.store.inner = {})
    (h : History exec (fun zs c ↦ c.NewIn zs) w₀ xs w) :
    (RecordsIndexed w.store.inner ∧ ConversationsIndexed w.store.inner) ∧ ∀ tenant,
      (MemResponseLedger.guardWritable w.store = .ok () →
        (exec (.ledger (.deleteByTenant tenant)) w).1 = .ok ((HashMap.values
            w.store.inner.records).filter fun x ↦ x.tenantId = tenant).length ∧
          RecordsPurged tenant w.store (exec (.ledger (.deleteByTenant tenant)) w).2.store) ∧
      (guardWritable w.store = .ok () →
        (exec (.conversations (.deleteByTenant tenant)) w).1 = .ok ((HashMap.values
            w.store.inner.conversations).filter fun x ↦ x.tenantId = tenant).length ∧
          ConversationsPurged tenant w.store
            (exec (.conversations (.deleteByTenant tenant)) w).2.store) := by
  have hfiled := filed_of_history hempty h
  constructor
  · exact ⟨hfiled.records, hfiled.conversations⟩
  · intro tenant
    constructor
    · intro hwritable
      exact deleteByTenant_records hfiled.records hwritable tenant
    · intro hwritable
      exact deleteByTenant_conversations hfiled.conversations hwritable tenant
        (exec_conversationOnly (.deleteByTenant tenant) w)

namespace Sample

/-- Two tenants, each with a response and a conversation on which something happened. -/
def shared : List Call :=
  [file 1 0, .conversations (.create (.new talk tenant [] 0)), say "mine",
    .ledger (.create (.queued (id 2) otherTenant rootSpec (.forResponse (id 2)) 0 1000)
      (.forResponse (id 2)) 0),
    .conversations (.create (.new ⟨⟨1⟩⟩ otherTenant [] 0)),
    .conversations (.appendTurn otherTenant ⟨⟨1⟩⟩ (id 2)
      ⟨spec.inputItems, [], none, {}, .completed⟩ 0)]

theorem shared_history : History exec (fun zs c ↦ c.NewIn zs) {}
    (served shared).1 (served shared).2 :=
  @History.of_permitted _ _ _ exec _ _ (fun zs c ↦ decide (c.NewIn zs))
    (fun _ _ ↦ of_decide_eq_true) _ _ _ .nil (by decide +kernel)

end Sample

/-- A tenant of two is purged, and the other keeps its conversation. -/
theorem indexes_exact_shared :
    (exec (.conversations (.deleteByTenant Sample.tenant)) (Sample.served Sample.shared).2).1 =
        .ok 1 ∧
      ((exec (.conversations (.deleteByTenant Sample.tenant))
        (Sample.served Sample.shared).2).2.store.conversation ⟨⟨1⟩⟩).isSome = true := by
  obtain ⟨hcount, hpurged⟩ := ((indexes_exact rfl Sample.shared_history).2 Sample.tenant).2 rfl
  constructor
  · rw [hcount]
    decide +kernel
  · rw [hpurged.conversation]
    decide +kernel

end NovaChat
