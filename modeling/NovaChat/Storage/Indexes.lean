import NovaChat.Lifecycle.Stages
import NovaChat.Storage.Inverted
import NovaChat.Stream.Talk

/-!
# The indexes of the store

Seven tables stand beside the records and the conversations: the two tenant indexes, the
deadlines, the usage booked on lost attempts, the event streams and the snapshots.  Each operation
touches some of them, and none may be left behind by any.
-/

namespace NovaChat

open Interact MemConversationStore

/-! ## What the tables say -/

/-- The tables beside the records agree with them. -/
structure RecordsIndexed (g : Inner) : Prop where
  byTenant : Inverts ResponseRecord.tenantId g.records g.byTenant
  expiry : ∀ deadline id, (deadline, id) ∈ g.expiry ↔
    ∃ x, g.records.lookup id = some x ∧ x.expiresAtMs = some deadline
  expiry_nodup : g.expiry.Nodup
  partialUsage : ∀ id attempt, (g.partialUsage.lookup (id, attempt)).isSome = true →
    (g.records.lookup id).isSome = true

/-- The tables beside the conversations agree with them. -/
structure ConversationsIndexed (g : Inner) : Prop where
  byTenant : Inverts Conversation.tenantId g.conversations g.conversationsByTenant
  conversationEvents : ∀ c, (g.conversationEvents.lookup c).isSome = true →
    (g.conversations.lookup c).isSome = true
  snapshots : ∀ c, (g.snapshots.lookup c).isSome = true →
    (g.conversations.lookup c).isSome = true

theorem recordsIndexed_empty : RecordsIndexed {} := by
  constructor
  · exact Inverts.empty
  · intro deadline id
    simp
  · exact List.nodup_nil
  · intro id attempt h
    simp at h

theorem conversationsIndexed_empty : ConversationsIndexed {} := by
  constructor
  · exact Inverts.empty
  · intro c h
    simp at h
  · intro c h
    simp at h

/-! ## Records -/

/-- What the tables hold of a record. -/
def ResponseRecord.filing (x : ResponseRecord) : TenantId × Option ℕ := (x.tenantId, x.expiresAtMs)

/-- Records may have moved on, but not to other tenants or deadlines, and usage was booked on
existing ones only. -/
structure Refiled (g g' : Inner) : Prop where
  records : ∀ id, (g'.records.lookup id).map ResponseRecord.filing =
    (g.records.lookup id).map ResponseRecord.filing
  byTenant : g'.byTenant = g.byTenant
  expiry : g'.expiry = g.expiry
  partialUsage : ∀ id attempt, (g'.partialUsage.lookup (id, attempt)).isSome = true →
    (g.partialUsage.lookup (id, attempt)).isSome = true ∨ (g.records.lookup id).isSome = true
  conversationsByTenant : g'.conversationsByTenant = g.conversationsByTenant

section Records

variable {g g' g'' : Inner} {id : ResponseId} {x y : ResponseRecord}

theorem Refiled.refl (g : Inner) : Refiled g g :=
  ⟨fun _ ↦ rfl, rfl, rfl, fun _ _ ↦ Or.inl, rfl⟩

theorem Refiled.isSome (h : Refiled g g') (id : ResponseId) :
    (g'.records.lookup id).isSome = (g.records.lookup id).isSome := by
  simpa using congrArg Option.isSome (h.records id)

theorem Refiled.trans (h : Refiled g g') (h' : Refiled g' g'') : Refiled g g'' where
  records id := (h'.records id).trans (h.records id)
  byTenant := h'.byTenant.trans h.byTenant
  expiry := h'.expiry.trans h.expiry
  partialUsage id attempt hsome := by
    rcases h'.partialUsage id attempt hsome with hsome' | hrecord
    · exact h.partialUsage id attempt hsome'
    · rw [h.isSome] at hrecord
      exact Or.inr hrecord
  conversationsByTenant := h'.conversationsByTenant.trans h.conversationsByTenant

/-- A record was written back. -/
theorem Refiled.of_put (hx : g.records.lookup id = some x) (hfiling : y.filing = x.filing)
    (hrecords : g'.records = g.records.insert id y) (hbyTenant : g'.byTenant = g.byTenant)
    (hexpiry : g'.expiry = g.expiry) (hbooked : g'.partialUsage = g.partialUsage)
    (hconv : g'.conversationsByTenant = g.conversationsByTenant) : Refiled g g' where
  records id' := by
    rw [hrecords, HashMap.lookup_insert']
    split_ifs with hid
    · rw [hid, hx]
      exact congrArg some hfiling
    · rfl
  byTenant := hbyTenant
  expiry := hexpiry
  partialUsage id attempt h := by
    rw [hbooked] at h
    exact Or.inl h
  conversationsByTenant := hconv

/-- Usage was booked on a record. -/
theorem Refiled.of_book (hx : (g.records.lookup id).isSome = true) {attempt : Attempt}
    {usage : Usage} (hbooked : g'.partialUsage = g.partialUsage.insert (id, attempt) usage)
    (hrecords : g'.records = g.records) (hbyTenant : g'.byTenant = g.byTenant)
    (hexpiry : g'.expiry = g.expiry)
    (hconv : g'.conversationsByTenant = g.conversationsByTenant) : Refiled g g' where
  records id' := by rw [hrecords]
  byTenant := hbyTenant
  expiry := hexpiry
  partialUsage id' attempt' h := by
    rw [hbooked, HashMap.lookup_insert'] at h
    split_ifs at h with heq
    · rw [(Prod.mk.inj heq).1]
      exact Or.inr hx
    · exact Or.inl h
  conversationsByTenant := hconv

theorem refiled_supersede {s : MemStore} (hx : s.record id = some x) (status : ResponseStatus)
    (now : ℕ) : Refiled s.inner (MemResponseLedger.bookPartial (MemResponseLedger.putRecord s id
      (MemResponseLedger.superseded x status now)) id x).inner := by
  have hput : Refiled s.inner (MemResponseLedger.putRecord s id
      (MemResponseLedger.superseded x status now)).inner :=
    .of_put hx (y := MemResponseLedger.superseded x status now) rfl rfl rfl rfl rfl rfl
  unfold MemResponseLedger.bookPartial
  split
  · exact hput
  · have hsome : ((MemResponseLedger.putRecord s id
        (MemResponseLedger.superseded x status now)).inner.records.lookup id).isSome = true := by
      rw [hput.isSome]
      exact Option.isSome_iff_exists.mpr ⟨x, hx⟩
    exact hput.trans (Refiled.of_book hsome rfl rfl rfl rfl rfl)

theorem refiled_reapAll (now : ℕ) (ids : List ResponseId) (s : MemStore) :
    Refiled s.inner (MemResponseLedger.reapAll now ids s).2.inner := by
  induction ids generalizing s with
  | nil => exact .refl _
  | cons id ids ih =>
      have hone : Refiled s.inner (MemResponseLedger.reapOne s id now).2.inner := by
        unfold MemResponseLedger.reapOne
        cases hx : s.record id with
        | none => exact .refl _
        | some x => exact refiled_supersede hx .failed now
      exact hone.trans (ih _)

/-- The calls that neither write a new record nor remove one refile at most. -/
theorem exec_ledger_refiled {c : LedgerCall} (hc : c.Settled) (w : World) :
    Refiled w.store.inner (exec (.ledger c) w).2.store.inner := by
  cases c with
  | create => exact hc.elim
  | delete => exact hc.elim
  | deleteByTenant => exact hc.elim
  | claim agent now ttl =>
      simp only [exec, execLedger, World.withStore_snd, MemResponseLedger.claim]
      split
      · exact .refl _
      · rcases MemResponseLedger.claimLoop_cases w.store agent now ttl w.store.inner.queued with
          ⟨heq, -⟩ | ⟨stale, id, rest, x, -, -, hx, -, heq⟩ <;> simp only [heq]
        · exact ⟨fun _ ↦ rfl, rfl, rfl, fun _ _ ↦ Or.inl, rfl⟩
        · exact .of_put hx (y := MemResponseLedger.claimed x agent) rfl rfl rfl rfl rfl rfl
  | heartbeat agent now => exact ⟨fun _ ↦ rfl, rfl, rfl, fun _ _ ↦ Or.inl, rfl⟩
  | complete id attempt status usage now =>
      rcases MemResponseLedger.complete_cases w.store id attempt status usage now with
        ⟨e, heq⟩ | ⟨x, -, hx, -, -, -, heq⟩ <;>
        simp only [exec, execLedger, heq, World.withStore_snd]
      · exact .refl _
      · exact .of_put hx (y := { x with
          status := status, owner := none, usage := usage, completedAtMs := some now })
          rfl rfl rfl rfl rfl rfl
  | cancel tenant id now =>
      rcases MemResponseLedger.cancel_cases w.store tenant id now with
        ⟨e, heq⟩ | ⟨x, -, hx, -, -, heq⟩ <;>
        simp only [exec, execLedger, heq, World.withStore_snd]
      · exact .refl _
      · exact refiled_supersede hx .cancelled now
  | reap now ttl => exact refiled_reapAll now _ w.store
  | recordPartialUsage id attempt usage =>
      simp only [exec, execLedger, World.withStore_snd, MemResponseLedger.recordPartialUsage]
      split
      · exact .refl _
      · next x hx =>
          have hsome : (w.store.inner.records.lookup id).isSome = true :=
            Option.isSome_iff_exists.mpr ⟨x, hx⟩
          exact .of_book hsome rfl rfl rfl rfl rfl
  | get => exact .refl _
  | checkAttempt => exact .refl _
  | inFlight => exact .refl _

namespace RecordsIndexed

theorem refiled (h : RecordsIndexed g) (hg : Refiled g g') : RecordsIndexed g' := by
  constructor
  · rw [hg.byTenant]
    apply h.byTenant.congr
    intro id
    simpa [Option.map_map, Function.comp_def, ResponseRecord.filing] using
      congrArg (Option.map Prod.fst) (hg.records id)
  · intro deadline id
    have hdeadline : (g'.records.lookup id).map ResponseRecord.expiresAtMs =
        (g.records.lookup id).map ResponseRecord.expiresAtMs := by
      simpa [Option.map_map, Function.comp_def, ResponseRecord.filing] using
        congrArg (Option.map Prod.snd) (hg.records id)
    have hiff := h.expiry deadline id
    simp only [← Option.map_eq_some_iff] at hiff ⊢
    rw [hg.expiry, hdeadline]
    exact hiff
  · rw [hg.expiry]
    exact h.expiry_nodup
  · intro id attempt hsome
    rw [hg.isSome]
    rcases hg.partialUsage id attempt hsome with hbooked | hrecord
    · exact h.partialUsage id attempt hbooked
    · exact hrecord

theorem of_eq (h : RecordsIndexed g) (hrecords : g'.records = g.records)
    (hbyTenant : g'.byTenant = g.byTenant) (hexpiry : g'.expiry = g.expiry)
    (hbooked : g'.partialUsage = g.partialUsage) : RecordsIndexed g' := by
  constructor
  · rw [hrecords, hbyTenant]
    exact h.byTenant
  · rw [hrecords, hexpiry]
    exact h.expiry
  · rw [hexpiry]
    exact h.expiry_nodup
  · rw [hrecords, hbooked]
    exact h.partialUsage

theorem expiry_insertRecord : (g.insertRecord x).expiry =
    x.expiresAtMs.elim g.expiry fun d ↦ g.expiry.insert (d, x.responseId) := by
  unfold Inner.insertRecord
  cases x.expiresAtMs <;> rfl

theorem expiry_removeRecord {id : ResponseId} (hx : g.records.lookup id = some x) :
    (g.removeRecord id).2.expiry =
      x.expiresAtMs.elim g.expiry fun d ↦ g.expiry.erase (d, id) := by
  unfold Inner.removeRecord
  rw [hx]
  cases hdeadline : x.expiresAtMs <;> simp [hdeadline]

/-- A record is filed under an id of its own. -/
theorem insertRecord (h : RecordsIndexed g) (hx : g.records.lookup x.responseId = none) :
    RecordsIndexed (g.insertRecord x) := by
  constructor
  · apply h.byTenant.insert
    intro y hy
    rw [hx] at hy
    cases hy
  · intro deadline id
    have hothers := h.expiry deadline id
    have hgone : ∀ deadline, (deadline, x.responseId) ∉ g.expiry := by
      intro d hd
      obtain ⟨y, hy, -⟩ := (h.expiry d x.responseId).mp hd
      rw [hx] at hy
      cases hy
    rw [expiry_insertRecord]
    show _ ↔ ∃ y, (g.records.insert x.responseId x).lookup id = some y ∧ _
    rw [HashMap.lookup_insert']
    split_ifs with hid
    · subst hid
      cases hdeadline : x.expiresAtMs with
      | none => simp [hgone, hdeadline]
      | some d => simp [hgone, hdeadline, eq_comm]
    · rw [← hothers]
      cases x.expiresAtMs with
      | none => exact Iff.rfl
      | some d => simp [List.mem_insert_iff, hid]
  · rw [expiry_insertRecord]
    cases x.expiresAtMs with
    | none => exact h.expiry_nodup
    | some d => exact h.expiry_nodup.insert
  · intro id attempt hsome
    have hrecord := h.partialUsage id attempt hsome
    show ((g.records.insert x.responseId x).lookup id).isSome = true
    rw [HashMap.lookup_insert']
    split_ifs
    · rfl
    · exact hrecord

/-- A record goes with everything filed for it. -/
theorem removeRecord (h : RecordsIndexed g) (id : ResponseId) :
    RecordsIndexed (g.removeRecord id).2 := by
  cases hx : g.records.lookup id with
  | none =>
      unfold Inner.removeRecord
      rw [hx]
      exact h
  | some x =>
      have hexpiry : ∀ deadline id',
          (deadline, id') ∈ x.expiresAtMs.elim g.expiry (fun d ↦ g.expiry.erase (d, id)) ↔
            id' ≠ id ∧ (deadline, id') ∈ g.expiry := by
        intro deadline id'
        have hown : (deadline, id) ∈ g.expiry ↔ x.expiresAtMs = some deadline := by
          rw [h.expiry, hx]
          simp
        cases hdeadline : x.expiresAtMs with
        | none =>
            constructor
            · intro hmem
              refine ⟨?_, hmem⟩
              rintro rfl
              rw [hdeadline] at hown
              cases hown.mp hmem
            · exact And.right
        | some d =>
            rw [Option.elim_some, h.expiry_nodup.mem_erase_iff]
            constructor
            · rintro ⟨hne, hmem⟩
              refine ⟨?_, hmem⟩
              rintro rfl
              rw [hdeadline] at hown
              exact hne (by rw [Option.some.inj (hown.mp hmem)])
            · rintro ⟨hne, hmem⟩
              exact ⟨fun heq ↦ hne (Prod.mk.inj heq).2, hmem⟩
      have hremoved := expiry_removeRecord hx
      unfold Inner.removeRecord at hremoved ⊢
      rw [hx] at hremoved ⊢
      constructor
      · exact h.byTenant.erase hx
      · intro deadline id'
        rw [hremoved, hexpiry]
        show _ ↔ ∃ y, (g.records.erase id).lookup id' = some y ∧ _
        rw [HashMap.lookup_erase', h.expiry]
        split_ifs with hid <;> simp [hid]
      · rw [hremoved]
        cases x.expiresAtMs with
        | none => exact h.expiry_nodup
        | some d => exact h.expiry_nodup.erase _
      · intro id' attempt hsome
        have hkept : id' ≠ id ∧ (g.partialUsage.lookup (id', attempt)).isSome = true := by
          obtain ⟨usage, husage⟩ := Option.isSome_iff_exists.mp hsome
          obtain ⟨hmem, hne⟩ := List.mem_filter.mp ((HashMap.mem_entries_iff _ _ _).mpr husage)
          exact ⟨by simpa using hne,
            Option.isSome_iff_exists.mpr ⟨usage, (HashMap.mem_entries_iff _ _ _).mp hmem⟩⟩
        show ((g.records.erase id).lookup id').isSome = true
        rw [HashMap.lookup_erase', if_neg hkept.1]
        exact h.partialUsage id' attempt hkept.2

theorem removeAll (ids : List ResponseId) (h : RecordsIndexed g) :
    RecordsIndexed (MemResponseLedger.removeAll ids g).2 := by
  induction ids generalizing g with
  | nil => exact h
  | cons id ids ih => exact ih (h.removeRecord id)

end RecordsIndexed

end Records

/-! ## Conversations -/

namespace ConversationsIndexed

variable {g : Inner} {c : ConversationId} {x : Conversation}

/-- A conversation is written under an id of its own, or back where it was. -/
theorem insertConversation (h : ConversationsIndexed g)
    (hx : ∀ y, g.conversations.lookup x.id = some y → y.tenantId = x.tenantId) :
    ConversationsIndexed (g.insertConversation x) := by
  have hkept : ∀ c, (g.conversations.lookup c).isSome = true →
      ((g.conversations.insert x.id x).lookup c).isSome = true := by
    intro c hc
    rw [HashMap.lookup_insert']
    split_ifs
    · rfl
    · exact hc
  constructor
  · exact h.byTenant.insert hx
  · intro c hc
    exact hkept c (h.conversationEvents c hc)
  · intro c hc
    exact hkept c (h.snapshots c hc)

theorem pushConversationEvent (h : ConversationsIndexed g)
    (hc : (g.conversations.lookup c).isSome = true) (kind : ConversationEventKind) (now : ℕ) :
    ConversationsIndexed (g.pushConversationEvent c kind now).2 := by
  constructor
  · exact h.byTenant
  · intro c' hc'
    simp only [Inner.pushConversationEvent, HashMap.lookup_insert'] at hc' ⊢
    split_ifs at hc' with heq
    · rw [heq]
      exact hc
    · exact h.conversationEvents c' hc'
  · exact h.snapshots

theorem modifyEvents (h : ConversationsIndexed g) (c : ConversationId)
    (f : ConversationEventStream → ConversationEventStream) :
    ConversationsIndexed { g with
      conversationEvents := HashMap.modify g.conversationEvents c f } := by
  constructor
  · exact h.byTenant
  · intro c' hc'
    apply h.conversationEvents c'
    simp only [HashMap.lookup_modify] at hc'
    split_ifs at hc' with heq
    · rw [heq]
      simpa using hc'
    · exact hc'
  · exact h.snapshots

theorem insertSnapshot (h : ConversationsIndexed g)
    (hc : (g.conversations.lookup c).isSome = true) (snap : Snapshot) :
    ConversationsIndexed { g with snapshots := g.snapshots.insert c snap } := by
  constructor
  · exact h.byTenant
  · exact h.conversationEvents
  · intro c' hc'
    simp only [HashMap.lookup_insert'] at hc'
    split_ifs at hc' with heq
    · rw [heq]
      exact hc
    · exact h.snapshots c' hc'

/-- A conversation goes with its stream and its snapshot. -/
theorem removeConversation (h : ConversationsIndexed g) (c : ConversationId) :
    ConversationsIndexed (g.removeConversation c).2 := by
  unfold Inner.removeConversation
  cases hx : g.conversations.lookup c with
  | none => exact h
  | some x =>
      have hkept : ∀ {V : Type} {m : HashMap ConversationId V},
          (∀ c', (m.lookup c').isSome = true → (g.conversations.lookup c').isSome = true) →
          ∀ c', ((m.erase c).lookup c').isSome = true →
            ((g.conversations.erase c).lookup c').isSome = true := by
        intro V m hm c' hc'
        rw [HashMap.lookup_erase'] at hc' ⊢
        split_ifs at hc' ⊢
        · exact hc'
        · exact hm c' hc'
      constructor
      · exact h.byTenant.erase hx
      · exact hkept h.conversationEvents
      · exact hkept h.snapshots

theorem removeAll (ids : List ConversationId) (h : ConversationsIndexed g) :
    ConversationsIndexed (MemConversationStore.removeAll ids g).2 := by
  induction ids generalizing g with
  | nil => exact h
  | cons c ids ih => exact ih (h.removeConversation c)

end ConversationsIndexed

/-! ## Calls -/

section Calls

variable {w : World}

theorem conversationsByTenant_removeRecord (g : Inner) (id : ResponseId) :
    (g.removeRecord id).2.conversationsByTenant = g.conversationsByTenant := by
  unfold Inner.removeRecord
  split <;> rfl

theorem conversationsByTenant_removeAll (ids : List ResponseId) (g : Inner) :
    (MemResponseLedger.removeAll ids g).2.conversationsByTenant = g.conversationsByTenant := by
  induction ids generalizing g with
  | nil => rfl
  | cons id ids ih => exact (ih _).trans (conversationsByTenant_removeRecord g id)

/-- A ledger call leaves the index of the conversations alone. -/
theorem exec_ledger_conversationsByTenant (c : LedgerCall) (w : World) :
    (exec (.ledger c) w).2.store.inner.conversationsByTenant =
      w.store.inner.conversationsByTenant := by
  cases c with
  | create record key now =>
      rcases exec_create record key now w with ⟨-, heq⟩ | ⟨x, -, -, -, heq⟩ <;> rw [heq]
      rfl
  | delete id =>
      simp only [exec, execLedger, World.withStore_snd, MemResponseLedger.delete]
      split
      · rfl
      · exact conversationsByTenant_removeRecord _ _
  | deleteByTenant tenant =>
      simp only [exec, execLedger, World.withStore_snd, MemResponseLedger.deleteByTenant]
      split
      · rfl
      · exact conversationsByTenant_removeAll _ _
  | _ => exact (exec_ledger_refiled (by trivial) w).conversationsByTenant

theorem filing_removeAll (ids : List ConversationId) (g : Inner) :
    (MemConversationStore.removeAll ids g).2.byTenant = g.byTenant ∧
      (MemConversationStore.removeAll ids g).2.expiry = g.expiry := by
  induction ids generalizing g with
  | nil => exact ⟨rfl, rfl⟩
  | cons c ids ih =>
      have hone : (g.removeConversation c).2.byTenant = g.byTenant ∧
          (g.removeConversation c).2.expiry = g.expiry := by
        unfold Inner.removeConversation
        split <;> exact ⟨rfl, rfl⟩
      exact ⟨(ih _).1.trans hone.1, (ih _).2.trans hone.2⟩

/-- A conversation call leaves the tables beside the records alone. -/
theorem exec_conversations_filing (c : ConversationCall) (w : World) :
    (exec (.conversations c) w).2.store.inner.byTenant = w.store.inner.byTenant ∧
      (exec (.conversations c) w).2.store.inner.expiry = w.store.inner.expiry := by
  cases c with
  | create x =>
      simp only [exec, execConversations, World.withStore_snd, MemConversationStore.create]
      repeat' split
      all_goals exact ⟨rfl, rfl⟩
  | updateMetadata tenant id metadata =>
      simp only [exec, execConversations, World.withStore_snd, MemConversationStore.updateMetadata]
      repeat' split
      all_goals exact ⟨rfl, rfl⟩
  | delete tenant id =>
      simp only [exec, execConversations, World.withStore_snd, MemConversationStore.delete,
        Inner.removeConversation]
      repeat' split
      all_goals exact ⟨rfl, rfl⟩
  | deleteByTenant tenant =>
      simp only [exec, execConversations, World.withStore_snd, MemConversationStore.deleteByTenant]
      split
      · exact ⟨rfl, rfl⟩
      · exact filing_removeAll _ _
  | appendTurn tenant id r commit now =>
      rcases appendTurn_cases w.store tenant id r commit with ⟨e, heq⟩ | ⟨x, index, -, heq⟩ <;>
        simp only [exec, execConversations, heq] <;> exact ⟨rfl, rfl⟩
  | advance tenant id last =>
      rcases advance_cases w.store tenant id last with ⟨e, heq⟩ | ⟨x, -, heq⟩ <;>
        simp only [exec, execConversations, heq] <;> exact ⟨rfl, rfl⟩
  | acquireActive tenant id r now =>
      rcases acquireActive_cases w.store tenant id r now with
        ⟨e, heq, -⟩ | ⟨x, seq, -, -, heq⟩ | ⟨x, -, -, -, -, heq⟩ <;>
        simp only [exec, execConversations, heq] <;> exact ⟨rfl, rfl⟩
  | releaseActive tenant id r status now =>
      rcases releaseActive_cases w.store tenant id r status now with
        ⟨reply, heq⟩ | ⟨x, -, -, -, -, heq⟩ <;>
        simp only [exec, execConversations, heq] <;> exact ⟨rfl, rfl⟩
  | releaseStaleActive tenant id holder =>
      rcases releaseStaleActive_cases w.store tenant id holder with
        ⟨reply, heq⟩ | ⟨x, -, -, -, heq⟩ <;>
        simp only [exec, execConversations, heq] <;> exact ⟨rfl, rfl⟩
  | appendEvent tenant id kind now =>
      simp only [exec, execConversations, World.withStore_snd, MemConversationStore.appendEvent,
        Inner.pushConversationEvent]
      repeat' split
      all_goals exact ⟨rfl, rfl⟩
  | get => exact ⟨rfl, rfl⟩
  | list => exact ⟨rfl, rfl⟩
  | readSnapshot => exact ⟨rfl, rfl⟩
  | readAfter => exact ⟨rfl, rfl⟩

/-- A ledger call keeps the tables beside the records in step, if a create files its record under
a new id. -/
theorem exec_ledger_recordsIndexed {c : LedgerCall}
    (hnew : ∀ record key now, c = .create record key now →
      w.store.record record.responseId = none)
    (h : RecordsIndexed w.store.inner) : RecordsIndexed (exec (.ledger c) w).2.store.inner := by
  cases c with
  | create record key now =>
      rcases exec_create record key now w with ⟨-, heq⟩ | ⟨x, -, hsign, -, heq⟩ <;> rw [heq]
      · exact h
      · have hid : x.responseId = record.responseId := by rw [MemResponseLedger.sign_spec hsign]
        have hfiled : RecordsIndexed { w.store.inner with
            queued := w.store.inner.queued ++ [x.responseId]
            idem := w.store.inner.idem.insert key x.responseId } :=
          h.of_eq rfl rfl rfl rfl
        apply hfiled.insertRecord
        rw [hid]
        exact hnew record key now rfl
  | delete id =>
      simp only [exec, execLedger, World.withStore_snd, MemResponseLedger.delete]
      split
      · exact h
      · exact h.removeRecord id
  | deleteByTenant tenant =>
      simp only [exec, execLedger, World.withStore_snd, MemResponseLedger.deleteByTenant]
      split
      · exact h
      · exact h.removeAll _
  | _ => exact h.refiled (exec_ledger_refiled (by trivial) w)

/-- A conversation call keeps the tables beside the conversations in step, if a create brings a
new id. -/
theorem exec_conversations_conversationsIndexed {c : ConversationCall} (hk : w.store.Keyed)
    (hnew : ∀ x, c = .create x → w.store.conversation x.id = none)
    (h : ConversationsIndexed w.store.inner) :
    ConversationsIndexed (exec (.conversations c) w).2.store.inner := by
  -- Writing a conversation back changes neither its id nor its tenant.
  have hback : ∀ {tenant id x} (y : Conversation), owned w.store tenant id = some x →
      y.id = x.id → y.tenantId = x.tenantId →
      ConversationsIndexed (w.store.inner.insertConversation y) ∧
        ((w.store.inner.insertConversation y).conversations.lookup id).isSome = true := by
    intro tenant id x y hx hid htenant
    obtain rfl := id_of_owned hk hx
    constructor
    · apply h.insertConversation
      intro z hz
      rw [hid] at hz
      rw [htenant, Option.some.inj (hz.symm.trans (owned_eq_some.mp hx).1)]
    · show ((w.store.inner.conversations.insert y.id y).lookup x.id).isSome = true
      rw [hid, AList.lookup_insert]
      rfl
  cases c with
  | create x =>
      simp only [exec, execConversations, World.withStore_snd, MemConversationStore.create]
      repeat' split
      · exact h
      · exact h
      · apply h.insertConversation
        intro y hy
        cases (hnew x rfl).symm.trans hy
  | updateMetadata tenant id metadata =>
      simp only [exec, execConversations, World.withStore_snd, MemConversationStore.updateMetadata]
      split
      · exact h
      · split
        · exact h
        · next x hx => exact (hback { x with metadata := metadata } hx rfl rfl).1
  | delete tenant id =>
      simp only [exec, execConversations, World.withStore_snd, MemConversationStore.delete]
      repeat' split
      · exact h
      · exact h
      · exact h.removeConversation id
  | deleteByTenant tenant =>
      simp only [exec, execConversations, World.withStore_snd, MemConversationStore.deleteByTenant]
      split
      · exact h
      · exact h.removeAll _
  | appendTurn tenant id r commit now =>
      rcases appendTurn_cases w.store tenant id r commit with ⟨e, heq⟩ | ⟨x, index, hx, heq⟩ <;>
        simp only [exec, execConversations, heq, World.withStore_snd]
      · exact h
      · apply h.insertSnapshot
        exact Option.isSome_iff_exists.mpr ⟨x, (owned_eq_some.mp hx).1⟩
  | advance tenant id last =>
      rcases advance_cases w.store tenant id last with ⟨e, heq⟩ | ⟨x, hx, heq⟩ <;>
        simp only [exec, execConversations, heq, World.withStore_snd]
      · exact h
      · exact (hback { x with lastResponseId := some last } hx rfl rfl).1
  | acquireActive tenant id r now =>
      rcases acquireActive_cases w.store tenant id r now with
        ⟨e, heq, -⟩ | ⟨x, seq, -, -, heq⟩ | ⟨x, -, hx, -, -, heq⟩ <;>
        simp only [exec, execConversations, heq, World.withStore_snd]
      · exact h
      · exact h
      · obtain ⟨hwritten, hthere⟩ := hback { x with activeResponseId := some r } hx rfl rfl
        exact (hwritten.pushConversationEvent hthere _ _).modifyEvents id _
  | releaseActive tenant id r status now =>
      rcases releaseActive_cases w.store tenant id r status now with
        ⟨reply, heq⟩ | ⟨x, hx, -, -, -, heq⟩ <;>
        simp only [exec, execConversations, heq, World.withStore_snd]
      · exact h
      · obtain ⟨hwritten, hthere⟩ := hback { x with activeResponseId := none } hx rfl rfl
        exact (hwritten.pushConversationEvent hthere _ _).modifyEvents id _
  | releaseStaleActive tenant id holder =>
      rcases releaseStaleActive_cases w.store tenant id holder with
        ⟨reply, heq⟩ | ⟨x, hx, -, -, heq⟩ <;>
        simp only [exec, execConversations, heq, World.withStore_snd]
      · exact h
      · exact (hback { x with activeResponseId := none } hx rfl rfl).1
  | appendEvent tenant id kind now =>
      simp only [exec, execConversations, World.withStore_snd, MemConversationStore.appendEvent]
      split
      · exact h
      · split
        · exact h
        · next x hx =>
            split
            · exact h
            · apply h.pushConversationEvent
              exact Option.isSome_iff_exists.mpr ⟨x, (owned_eq_some.mp hx).1⟩
  | get => exact h
  | list => exact h
  | readSnapshot => exact h
  | readAfter => exact h

end Calls

/-! ## Runs -/

/-- The conversation a create brought. -/
def openedId : Exchange Call Call.Reply → Option ConversationId
  | ⟨.conversations (.create _), .ok x⟩ => some x.id
  | _ => none

/-- The conversations that were brought, oldest first. -/
def opened (xs : Exchanges) : List ConversationId := xs.filterMap openedId

@[simp] theorem opened_snoc (xs : Exchanges) (x : Exchange Call Call.Reply) :
    opened (xs ++ [x]) = opened xs ++ (openedId x).toList := by
  cases h : openedId x <;> simp [opened, h]

/-- A create brings an id that none was accepted with before. -/
def Call.NewIn (xs : Exchanges) : Call → Prop
  | .ledger (.create record _ _) => record.responseId ∉ created xs
  | .conversations (.create x) => x.id ∉ opened xs
  | _ => True

def Call.newIn (xs : Exchanges) : Call → Bool
  | .ledger (.create record _ _) => decide (record.responseId ∉ created xs)
  | .conversations (.create x) => decide (x.id ∉ opened xs)
  | _ => true

theorem Call.newIn_iff {xs : Exchanges} {c : Call} : c.newIn xs = true ↔ c.NewIn xs := by
  unfold Call.newIn Call.NewIn
  split
  · exact decide_eq_true_iff
  · exact decide_eq_true_iff
  · exact iff_of_true rfl trivial

instance (xs : Exchanges) (c : Call) : Decidable (c.NewIn xs) := decidable_of_iff _ Call.newIn_iff

/-- What was written was brought, and the tables agree with it. -/
structure Filed (xs : Exchanges) (w : World) : Prop where
  keyed : w.store.Keyed
  created : ∀ {r x}, w.store.record r = some x → r ∈ created xs
  opened : ∀ {c x}, w.store.conversation c = some x → c ∈ opened xs
  records : RecordsIndexed w.store.inner
  conversations : ConversationsIndexed w.store.inner

section Runs

variable {w₀ w : World} {xs : Exchanges} {call : Call}

/-- A conversation that is there after a call was there before, or has just been brought. -/
theorem opened_back (hk : w.store.Keyed) {c : ConversationId} {y : Conversation}
    (h : (exec call w).2.store.conversation c = some y) :
    (∃ x, w.store.conversation c = some x) ∨ openedId ⟨call, (exec call w).1⟩ = some c := by
  have hstep := exec_talkStep call hk c
  have hafter : ((exec call w).2.store.talk c).conversation = some y := h
  by_cases hbefore : ∃ x, w.store.conversation c = some x
  · exact Or.inl hbefore
  · have hnone : (w.store.talk c).conversation = none := by
      cases hx : (w.store.talk c).conversation with
      | none => rfl
      | some x => exact absurd ⟨x, hx⟩ hbefore
    generalize ht : w.store.talk c = t at hstep hnone
    generalize ht' : (exec call w).2.store.talk c = t' at hstep hafter
    cases hstep with
    | stay => cases hnone.symm.trans hafter
    | @create x hid =>
        refine Or.inr ?_
        simp only [exec, execConversations, World.withStore_fst, World.withStore_snd,
          MemConversationStore.create] at ht' ⊢
        cases hguard : guardWritable w.store with
        | error e =>
            simp only [hguard] at ht'
            rw [ht] at ht'
            cases hnone.symm.trans (congrArg Talk.conversation ht')
        | ok u =>
            simp only [hguard] at ht' ⊢
            split_ifs at ht' ⊢
            · rw [ht] at ht'
              cases hnone.symm.trans (congrArg Talk.conversation ht')
            · exact congrArg some hid
    | describe => cases hnone
    | advance => cases hnone
    | remove => cases hafter
    | occupy => cases hnone
    | vacate => cases hnone
    | takeOver => cases hnone
    | note => cases hnone

theorem filed_empty (hempty : w.store.inner = {}) : Filed [] w := by
  constructor
  · constructor
    · intro r x hx
      simp [MemStore.record, hempty] at hx
    · intro c x hx
      simp [MemStore.conversation, hempty] at hx
  · intro r x hx
    simp [MemStore.record, hempty] at hx
  · intro c x hx
    simp [MemStore.conversation, hempty] at hx
  · rw [hempty]
    exact recordsIndexed_empty
  · rw [hempty]
    exact conversationsIndexed_empty

/-- Every call with new ids keeps the tables in step. -/
theorem Filed.step (h : Filed xs w) (hcall : call.NewIn xs) :
    Filed (xs ++ [⟨call, (exec call w).1⟩]) (exec call w).2 := by
  constructor
  · exact exec_keyed call h.keyed
  · intro r x hx
    rw [created_snoc]
    by_cases hwrites : call.writes = some r
    · obtain ⟨record, key, now, rfl, rfl⟩ : ∃ record key now,
          call = .ledger (.create record key now) ∧ record.responseId = r := by
        unfold Call.writes at hwrites
        split at hwrites
        · exact ⟨_, _, _, rfl, Option.some.inj hwrites⟩
        · cases hwrites
      rcases exec_create record key now w with ⟨-, heq⟩ | ⟨y, hy, hsign, -, -⟩
      · rw [heq] at hx
        exact List.mem_append_left _ (h.created hx)
      · apply List.mem_append_right
        rw [hy]
        have hid : y.responseId = record.responseId := by rw [MemResponseLedger.sign_spec hsign]
        simp [createdId, hid]
    · obtain ⟨y, hy, -⟩ := record_back hwrites hx
      exact List.mem_append_left _ (h.created hy)
  · intro c x hx
    rw [opened_snoc]
    rcases opened_back h.keyed hx with ⟨y, hy⟩ | hopened
    · exact List.mem_append_left _ (h.opened hy)
    · apply List.mem_append_right
      rw [hopened]
      simp
  · rcases call with _ | call | call | call | call | call
    · exact h.records
    · apply exec_ledger_recordsIndexed ?_ h.records
      rintro record key now rfl
      cases hx : w.store.record record.responseId with
      | none => rfl
      | some x => exact absurd (h.created hx) hcall
    · rw [exec_eventLog_store]
      exact h.records
    · have hframe := exec_conversationOnly call w
      obtain ⟨hbyTenant, hexpiry⟩ := exec_conversations_filing call w
      exact h.records.of_eq hframe.records hbyTenant hexpiry hframe.partialUsage
    · cases call <;> exact h.records
    · rw [exec, execMode_inner]
      exact h.records
  · rcases call with _ | call | call | call | call | call
    · exact h.conversations
    · have hframe := exec_ledgerOnly call w
      have hindex := exec_ledger_conversationsByTenant call w
      constructor
      · rw [hframe.conversations, hindex]
        exact h.conversations.byTenant
      · rw [hframe.conversations, hframe.conversationEvents]
        exact h.conversations.conversationEvents
      · rw [hframe.conversations, hframe.snapshots]
        exact h.conversations.snapshots
    · rw [exec_eventLog_store]
      exact h.conversations
    · apply exec_conversations_conversationsIndexed h.keyed ?_ h.conversations
      rintro x rfl
      cases hx : w.store.conversation x.id with
      | none => rfl
      | some y => exact absurd (h.opened hx) hcall
    · cases call <;> exact h.conversations
    · rw [exec, execMode_inner]
      exact h.conversations

theorem filed_of_history (hempty : w₀.store.inner = {})
    (h : History exec (fun zs c ↦ c.NewIn zs) w₀ xs w) : Filed xs w := by
  apply h.invariant (J := Filed)
  · intro zs v call hv hcall
    exact hv.step hcall
  · exact filed_empty hempty

end Runs

end NovaChat
