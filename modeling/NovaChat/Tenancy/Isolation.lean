import NovaChat.Admission.History
import NovaChat.Storage.Indexes

/-!
# Tenants do not see each other

Two runs of the conversation store, one with the calls of a tenant and one without them, answer
everybody else alike.  Throughout, the second store is the first with the tenant's conversations
taken out; the tenant's own calls keep it so because they touch nothing else, and the calls of
others because what they look at is the same in both.
-/

namespace NovaChat

open Interact MemConversationStore

/-! ## A store without a tenant -/

/-- Whether a conversation is the tenant's. -/
def Inner.owns (g : Inner) (tenant : TenantId) (c : ConversationId) : Bool :=
  (g.conversations.lookup c).any fun x ↦ x.tenantId = tenant

/-- `g'` is `g` without the conversations of a tenant, and what hangs on them. -/
structure Without (tenant : TenantId) (g g' : Inner) : Prop where
  conversations : ∀ c, g'.conversations.lookup c =
    if g.owns tenant c then none else g.conversations.lookup c
  conversationEvents : ∀ c, g'.conversationEvents.lookup c =
    if g.owns tenant c then none else g.conversationEvents.lookup c
  snapshots : ∀ c, g'.snapshots.lookup c =
    if g.owns tenant c then none else g.snapshots.lookup c
  index : ∀ other, other ≠ tenant →
    g'.conversationsByTenant.lookup other = g.conversationsByTenant.lookup other

section Tables

variable {tenant : TenantId} {g g' g₂ : Inner} {c : ConversationId} {x : Conversation}

theorem owns_of_lookup (hx : g.conversations.lookup c = some x) :
    g.owns tenant c = decide (x.tenantId = tenant) := by
  simp [Inner.owns, hx]

theorem owns_of_none (hx : g.conversations.lookup c = none) : g.owns tenant c = false := by
  simp [Inner.owns, hx]

theorem owns_insertConversation (g : Inner) (x : Conversation) (c : ConversationId) :
    (g.insertConversation x).owns tenant c =
      if c = x.id then decide (x.tenantId = tenant) else g.owns tenant c := by
  unfold Inner.owns Inner.insertConversation
  simp only [HashMap.lookup_insert']
  split_ifs <;> simp

theorem without_self (h : g.conversations = ∅) (hevents : g.conversationEvents = ∅)
    (hsnapshots : g.snapshots = ∅) : Without tenant g g := by
  constructor
  · simp [h]
  · simp [hevents]
  · simp [hsnapshots]
  · exact fun _ _ ↦ rfl

namespace Without

/-- Both stores write a conversation of somebody else. -/
theorem insertConversation (h : Without tenant g g') (hx : x.tenantId ≠ tenant)
    (hold : g.owns tenant x.id = false) :
    Without tenant (g.insertConversation x) (g'.insertConversation x) := by
  have howns : ∀ c, (g.insertConversation x).owns tenant c = g.owns tenant c := by
    intro c
    rw [owns_insertConversation]
    split_ifs with hc
    · rw [hc, hold]
      exact decide_eq_false hx
    · rfl
  constructor
  · intro c
    rw [howns]
    simp only [Inner.insertConversation, HashMap.lookup_insert', h.conversations]
    by_cases hc : c = x.id
    · subst hc
      simp [hold]
    · simp [hc]
  · intro c
    rw [howns]
    exact h.conversationEvents c
  · intro c
    rw [howns]
    exact h.snapshots c
  · intro other hother
    simp only [Inner.insertConversation, lookup_index, h.index other hother]
    split_ifs with hsame
    · rw [← hsame, h.index other hother]
    · rfl

theorem lookup_conversations (h : Without tenant g g') (hc : g.owns tenant c = false) :
    g'.conversations.lookup c = g.conversations.lookup c := by
  rw [h.conversations, hc]
  rfl

theorem lookup_events (h : Without tenant g g') (hc : g.owns tenant c = false) :
    g'.conversationEvents.lookup c = g.conversationEvents.lookup c := by
  rw [h.conversationEvents, hc]
  rfl

theorem lookup_snapshots (h : Without tenant g g') (hc : g.owns tenant c = false) :
    g'.snapshots.lookup c = g.snapshots.lookup c := by
  rw [h.snapshots, hc]
  rfl

/-- Both stores write the stream of somebody else's conversation. -/
theorem insertEvents (h : Without tenant g g') (hc : g.owns tenant c = false)
    (stream : ConversationEventStream) :
    Without tenant { g with conversationEvents := g.conversationEvents.insert c stream }
      { g' with conversationEvents := g'.conversationEvents.insert c stream } := by
  constructor
  · exact h.conversations
  · intro c'
    have hbefore := h.conversationEvents c'
    show (g'.conversationEvents.insert c stream).lookup c' =
      if g.owns tenant c' then none else (g.conversationEvents.insert c stream).lookup c'
    rw [HashMap.lookup_insert', HashMap.lookup_insert', hbefore]
    by_cases heq : c' = c
    · subst heq
      simp [hc]
    · simp [heq]
  · exact h.snapshots
  · exact h.index

theorem pushConversationEvent (h : Without tenant g g') (hc : g.owns tenant c = false)
    (kind : ConversationEventKind) (now : ℕ) :
    (g'.pushConversationEvent c kind now).1 = (g.pushConversationEvent c kind now).1 ∧
      Without tenant (g.pushConversationEvent c kind now).2
        (g'.pushConversationEvent c kind now).2 := by
  unfold Inner.pushConversationEvent
  rw [h.lookup_events hc]
  exact ⟨rfl, h.insertEvents hc _⟩

theorem modifyEvents (h : Without tenant g g') (hc : g.owns tenant c = false)
    (f : ConversationEventStream → ConversationEventStream) :
    Without tenant { g with conversationEvents := HashMap.modify g.conversationEvents c f }
      { g' with conversationEvents := HashMap.modify g'.conversationEvents c f } := by
  unfold HashMap.modify
  rw [h.lookup_events hc]
  cases g.conversationEvents.lookup c with
  | none => exact h
  | some stream => exact h.insertEvents hc _

/-- Both stores write the snapshot of somebody else's conversation. -/
theorem insertSnapshot (h : Without tenant g g') (hc : g.owns tenant c = false)
    (snap : Snapshot) :
    Without tenant { g with snapshots := g.snapshots.insert c snap }
      { g' with snapshots := g'.snapshots.insert c snap } := by
  constructor
  · exact h.conversations
  · exact h.conversationEvents
  · intro c'
    have hbefore := h.snapshots c'
    show (g'.snapshots.insert c snap).lookup c' =
      if g.owns tenant c' then none else (g.snapshots.insert c snap).lookup c'
    rw [HashMap.lookup_insert', HashMap.lookup_insert', hbefore]
    by_cases heq : c' = c
    · subst heq
      simp [hc]
    · simp [heq]
  · exact h.index

theorem removeConversation_of_none (hx : g.conversations.lookup c = none) :
    g.removeConversation c = (none, g) := by
  simp [Inner.removeConversation, hx]

/-- Both stores remove a conversation that is not the tenant's. -/
theorem removeConversation (h : Without tenant g g') (hc : g.owns tenant c = false) :
    (g'.removeConversation c).1 = (g.removeConversation c).1 ∧
      Without tenant (g.removeConversation c).2 (g'.removeConversation c).2 := by
  have hlook := h.lookup_conversations hc
  cases hx : g.conversations.lookup c with
  | none =>
      rw [removeConversation_of_none hx, removeConversation_of_none (hlook.trans hx)]
      exact ⟨rfl, h⟩
  | some x =>
      have hx' := hlook.trans hx
      have hne : x.tenantId ≠ tenant := by
        rw [owns_of_lookup hx] at hc
        exact of_decide_eq_false hc
      have howns : ∀ c', (g.removeConversation c).2.owns tenant c' =
          if c' = c then false else g.owns tenant c' := by
        intro c'
        simp only [Inner.removeConversation, hx, Inner.owns, HashMap.lookup_erase']
        split_ifs <;> rfl
      constructor
      · simp only [Inner.removeConversation, hx, hx']
      · constructor
        · intro c'
          rw [howns]
          simp only [Inner.removeConversation, hx, hx', HashMap.lookup_erase', h.conversations]
          split_ifs <;> rfl
        · intro c'
          rw [howns]
          simp only [Inner.removeConversation, hx, hx', HashMap.lookup_erase',
            h.conversationEvents]
          split_ifs <;> rfl
        · intro c'
          rw [howns]
          simp only [Inner.removeConversation, hx, hx', HashMap.lookup_erase', h.snapshots]
          split_ifs <;> rfl
        · intro other hother
          simp only [Inner.removeConversation, hx, hx', lookup_unindex, h.index other hother,
            h.index x.tenantId hne]

theorem removeAll (ids : List ConversationId) (h : Without tenant g g')
    (hids : ∀ c ∈ ids, g.owns tenant c = false) :
    (removeAll ids g').1 = (removeAll ids g).1 ∧
      Without tenant (removeAll ids g).2 (removeAll ids g').2 := by
  induction ids generalizing g g' with
  | nil => exact ⟨rfl, h⟩
  | cons c ids ih =>
      obtain ⟨hfirst, hrest⟩ := h.removeConversation (hids c List.mem_cons_self)
      have hids' : ∀ c' ∈ ids, (g.removeConversation c).2.owns tenant c' = false := by
        intro c' hc'
        have hbefore := hids c' (List.mem_cons_of_mem _ hc')
        unfold Inner.owns at hbefore ⊢
        cases hx : (g.removeConversation c).2.conversations.lookup c' with
        | none => rfl
        | some x =>
            have hx' := lookup_removeAll_conversations c' [c] g x hx
            rwa [hx'] at hbefore
      obtain ⟨hcount, hwithout⟩ := ih hrest hids'
      constructor
      · simp only [MemConversationStore.removeAll, hfirst, hcount]
      · exact hwithout

/-! ### What only one of them does -/

/-- The first store writes a conversation of the tenant's, under an id the second knows nothing
of. -/
theorem insertConversation_left (h : Without tenant g g') (hx : x.tenantId = tenant)
    (hconversations : g'.conversations.lookup x.id = none)
    (hevents : g'.conversationEvents.lookup x.id = none)
    (hsnapshots : g'.snapshots.lookup x.id = none) :
    Without tenant (g.insertConversation x) g' := by
  have howns : ∀ c, (g.insertConversation x).owns tenant c =
      if c = x.id then true else g.owns tenant c := by
    intro c
    rw [owns_insertConversation, decide_eq_true hx]
  constructor
  · intro c
    rw [howns]
    simp only [Inner.insertConversation, HashMap.lookup_insert']
    by_cases hc : c = x.id
    · subst hc
      simp [hconversations]
    · simp [hc, h.conversations]
  · intro c
    rw [howns]
    by_cases hc : c = x.id
    · subst hc
      simp [hevents]
    · simp [Inner.insertConversation, hc, h.conversationEvents]
  · intro c
    rw [howns]
    by_cases hc : c = x.id
    · subst hc
      simp [hsnapshots]
    · simp [Inner.insertConversation, hc, h.snapshots]
  · intro other hother
    rw [h.index other hother]
    simp only [Inner.insertConversation, lookup_index, hx, if_neg hother]

/-- The first store writes to what hangs on the tenant's conversations. -/
theorem left (h : Without tenant g g') (hconversations : g₂.conversations = g.conversations)
    (hindex : g₂.conversationsByTenant = g.conversationsByTenant)
    (hevents : ∀ c, g.owns tenant c = false →
      g₂.conversationEvents.lookup c = g.conversationEvents.lookup c)
    (hsnapshots : ∀ c, g.owns tenant c = false → g₂.snapshots.lookup c = g.snapshots.lookup c) :
    Without tenant g₂ g' := by
  have howns : ∀ c, g₂.owns tenant c = g.owns tenant c := by
    intro c
    unfold Inner.owns
    rw [hconversations]
  constructor
  · intro c
    rw [howns, hconversations]
    exact h.conversations c
  · intro c
    rw [howns, h.conversationEvents]
    cases hc : g.owns tenant c with
    | true => rfl
    | false => exact (hevents c hc).symm
  · intro c
    rw [howns, h.snapshots]
    cases hc : g.owns tenant c with
    | true => rfl
    | false => exact (hsnapshots c hc).symm
  · intro other hother
    rw [hindex]
    exact h.index other hother

theorem pushConversationEvent_left (h : Without tenant g g') (hc : g.owns tenant c = true)
    (kind : ConversationEventKind) (now : ℕ) :
    Without tenant (g.pushConversationEvent c kind now).2 g' := by
  refine h.left rfl rfl ?_ ?_
  · intro c' hc'
    have hne : c' ≠ c := by
      rintro rfl
      cases hc.symm.trans hc'
    simp [Inner.pushConversationEvent, hne]
  · exact fun _ _ ↦ rfl

theorem modifyEvents_left (h : Without tenant g g') (hc : g.owns tenant c = true)
    (f : ConversationEventStream → ConversationEventStream) :
    Without tenant { g with conversationEvents := HashMap.modify g.conversationEvents c f } g' := by
  refine h.left rfl rfl ?_ ?_
  · intro c' hc'
    have hne : c' ≠ c := by
      rintro rfl
      cases hc.symm.trans hc'
    simp [HashMap.lookup_modify, hne]
  · exact fun _ _ ↦ rfl

theorem insertSnapshot_left (h : Without tenant g g') (hc : g.owns tenant c = true)
    (snap : Snapshot) : Without tenant { g with snapshots := g.snapshots.insert c snap } g' := by
  refine h.left rfl rfl ?_ ?_
  · exact fun _ _ ↦ rfl
  · intro c' hc'
    have hne : c' ≠ c := by
      rintro rfl
      cases hc.symm.trans hc'
    simp [hne]

/-- The first store removes a conversation of the tenant's. -/
theorem removeConversation_left (h : Without tenant g g')
    (hc : ∀ x, g.conversations.lookup c = some x → x.tenantId = tenant) :
    Without tenant (g.removeConversation c).2 g' := by
  cases hx : g.conversations.lookup c with
  | none =>
      rw [removeConversation_of_none hx]
      exact h
  | some x =>
      have htheirs := hc x hx
      have howns : g.owns tenant c = true := by
        rw [owns_of_lookup hx]
        exact decide_eq_true htheirs
      have howns' : ∀ c', (g.removeConversation c).2.owns tenant c' =
          if c' = c then false else g.owns tenant c' := by
        intro c'
        simp only [Inner.removeConversation, hx, Inner.owns, HashMap.lookup_erase']
        split_ifs <;> rfl
      have hgone : ∀ {α : Type} (o : Option α) (c' : ConversationId),
          (if g.owns tenant c' = true then none else o) =
            if (if c' = c then false else g.owns tenant c') = true then none
              else if c' = c then none else o := by
        intro α o c'
        by_cases heq : c' = c
        · subst heq
          simp [howns]
        · simp [heq]
      constructor
      · intro c'
        rw [howns', h.conversations, hgone]
        simp only [Inner.removeConversation, hx, HashMap.lookup_erase']
      · intro c'
        rw [howns', h.conversationEvents, hgone]
        simp only [Inner.removeConversation, hx, HashMap.lookup_erase']
      · intro c'
        rw [howns', h.snapshots, hgone]
        simp only [Inner.removeConversation, hx, HashMap.lookup_erase']
      · intro other hother
        rw [h.index other hother]
        simp only [Inner.removeConversation, hx, lookup_unindex, htheirs, if_neg hother]

theorem removeAll_left (ids : List ConversationId) (h : Without tenant g g')
    (hids : ∀ c ∈ ids, ∀ x, g.conversations.lookup c = some x → x.tenantId = tenant) :
    Without tenant (MemConversationStore.removeAll ids g).2 g' := by
  induction ids generalizing g with
  | nil => exact h
  | cons c ids ih =>
      apply ih (h.removeConversation_left (hids c List.mem_cons_self))
      intro c' hc' x hx
      exact hids c' (List.mem_cons_of_mem _ hc') x
        (lookup_removeAll_conversations c' [c] g x hx)

end Without

end Tables

/-! ## Calls -/

/-- The tenant a call is made for. -/
def ConversationCall.tenant : ConversationCall → TenantId
  | .create x => x.tenantId
  | .get tenant _ | .updateMetadata tenant _ _ | .delete tenant _ | .deleteByTenant tenant
  | .list tenant | .readSnapshot tenant _ | .appendTurn tenant _ _ _ _ | .advance tenant _ _
  | .acquireActive tenant _ _ _ | .releaseActive tenant _ _ _ _ | .releaseStaleActive tenant _ _
  | .appendEvent tenant _ _ _ | .readAfter tenant _ _ _ => tenant

/-- `s'` is `s` without the conversations of a tenant, under the same switches and bounds. -/
structure Unseen (tenant : TenantId) (s s' : MemStore) : Prop where
  inner : Without tenant s.inner s'.inner
  readOnly : s'.readOnly = s.readOnly
  unavailable : s'.unavailable = s.unavailable
  maxConversations : s'.maxConversations = s.maxConversations
  maxEvents : s'.maxEventsPerConversation = s.maxEventsPerConversation

theorem HashMap.size_le {K V : Type} [DecidableEq K] {m m' : HashMap K V}
    (h : ∀ k, (m'.lookup k).isSome = true → (m.lookup k).isSome = true) :
    HashMap.size m' ≤ HashMap.size m := by
  have hsize : ∀ m : HashMap K V, HashMap.size m = m.keys.length := by
    intro m
    simp [HashMap.size, AList.keys, List.keys]
  have hsubset : m'.keys ⊆ m.keys := by
    intro k hk
    apply AList.mem_keys.mp
    apply AList.lookup_isSome.mp
    apply h
    exact AList.lookup_isSome.mpr (AList.mem_keys.mpr hk)
  rw [hsize, hsize]
  exact (List.subperm_of_subset m'.keys_nodup hsubset).length_le

section Stores

variable {tenant other : TenantId} {s s' : MemStore} {c : ConversationId} {x : Conversation}

namespace Unseen

theorem guardWritable (h : Unseen tenant s s') :
    MemConversationStore.guardWritable s' = MemConversationStore.guardWritable s := by
  simp only [MemConversationStore.guardWritable, h.readOnly, h.unavailable]

theorem guardAvailable (h : Unseen tenant s s') :
    MemConversationStore.guardAvailable s' = MemConversationStore.guardAvailable s := by
  simp only [MemConversationStore.guardAvailable, h.unavailable]

/-- Anybody else owns the same conversations in both stores. -/
theorem owned (h : Unseen tenant s s') (hother : other ≠ tenant) (c : ConversationId) :
    MemConversationStore.owned s' other c = MemConversationStore.owned s other c := by
  have hlook := h.inner.conversations c
  simp only [MemConversationStore.owned, MemStore.conversation]
  rw [hlook]
  cases hx : s.inner.conversations.lookup c with
  | none => simp [Inner.owns, hx]
  | some x =>
      rw [owns_of_lookup hx]
      by_cases htheirs : x.tenantId = tenant
      · simp [Option.filter, htheirs, Ne.symm hother]
      · simp [htheirs]

theorem of_inner (h : Unseen tenant s s') {g g' : Inner} (hg : Without tenant g g') :
    Unseen tenant { s with inner := g } { s' with inner := g' } where
  inner := hg
  readOnly := h.readOnly
  unavailable := h.unavailable
  maxConversations := h.maxConversations
  maxEvents := h.maxEvents

theorem of_left (h : Unseen tenant s s') {g : Inner} (hg : Without tenant g s'.inner) :
    Unseen tenant { s with inner := g } s' where
  inner := hg
  readOnly := h.readOnly
  unavailable := h.unavailable
  maxConversations := h.maxConversations
  maxEvents := h.maxEvents

end Unseen

theorem owns_of_owned (hx : owned s other c = some x) :
    s.inner.owns tenant c = decide (other = tenant) := by
  obtain ⟨hlook, hother⟩ := owned_eq_some.mp hx
  rw [owns_of_lookup hlook, hother]

theorem owns_of_index (h : ConversationsIndexed s.inner)
    (hc : c ∈ (s.inner.conversationsByTenant.lookup other).getD []) :
    s.inner.owns tenant c = decide (other = tenant) := by
  obtain ⟨x, hx, hother⟩ := (h.byTenant.exact other c).mp hc
  rw [owns_of_lookup hx, hother]

end Stores

section Calls

variable {tenant : TenantId} {w w' : World} {call : ConversationCall}

/-- A conversation is written back and the event that says so appended, with a note of where. -/
def announcedOn (g : Inner) (y : Conversation) (c : ConversationId) (kind : ConversationEventKind)
    (now : ℕ) (f : ℕ → ConversationEventStream → ConversationEventStream) : Inner :=
  let pushed := (g.insertConversation y).pushConversationEvent c kind now
  { pushed.2 with
    conversationEvents := HashMap.modify pushed.2.conversationEvents c (f pushed.1) }

/-- Anybody else is answered the same in both stores, and neither learns of the tenant. -/
theorem exec_unseen (hother : call.tenant ≠ tenant) (h : Unseen tenant w.store w'.store)
    (hk : w.store.Keyed) (hindexed : ConversationsIndexed w.store.inner)
    (hnew : ∀ x, call = .create x → w.store.conversation x.id = none)
    (hroom : ∀ x, call = .create x →
      HashMap.size w.store.inner.conversations < w.store.maxConversations) :
    (exec (.conversations call) w').1 = (exec (.conversations call) w).1 ∧
      Unseen tenant (exec (.conversations call) w).2.store
        (exec (.conversations call) w').2.store := by
  -- What a call of somebody else may look at.
  have hwritable := h.guardWritable
  have havailable := h.guardAvailable
  have howned := h.owned hother
  have hmine : ∀ {c x}, owned w.store call.tenant c = some x →
      w.store.inner.owns tenant c = false := by
    intro c x hx
    rw [owns_of_owned hx]
    exact decide_eq_false hother
  have hevents : ∀ {c x}, owned w.store call.tenant c = some x →
      w'.store.inner.conversationEvents.lookup c = w.store.inner.conversationEvents.lookup c :=
    fun hx ↦ h.inner.lookup_events (hmine hx)
  -- Writing one of its conversations back.
  have hback : ∀ {c x} (y : Conversation), owned w.store call.tenant c = some x → y.id = x.id →
      y.tenantId = x.tenantId →
      Without tenant (w.store.inner.insertConversation y) (w'.store.inner.insertConversation y) ∧
        (w.store.inner.insertConversation y).owns tenant c = false := by
    intro c x y hx hid htenant
    have hne : y.tenantId ≠ tenant := by
      rw [htenant, (owned_eq_some.mp hx).2]
      exact hother
    have hold : w.store.inner.owns tenant y.id = false := by
      rw [hid, id_of_owned hk hx]
      exact hmine hx
    constructor
    · exact h.inner.insertConversation hne hold
    · rw [owns_insertConversation, hid, id_of_owned hk hx, if_pos rfl]
      exact decide_eq_false hne
  have hcapacity : ∀ {c x}, owned w.store call.tenant c = some x →
      ensureEventCapacity w'.store c = ensureEventCapacity w.store c := by
    intro c x hx
    simp only [ensureEventCapacity, h.maxEvents, hevents hx]
  -- Moving the marker of one of them, and announcing it.
  have hmoved : ∀ {c x} (y : Conversation) (kind : ConversationEventKind) (now : ℕ)
      (f : ℕ → ConversationEventStream → ConversationEventStream),
      owned w.store call.tenant c = some x → y.id = x.id → y.tenantId = x.tenantId →
      ((w'.store.inner.insertConversation y).pushConversationEvent c kind now).1 =
          ((w.store.inner.insertConversation y).pushConversationEvent c kind now).1 ∧
        Without tenant (announcedOn w.store.inner y c kind now f)
          (announcedOn w'.store.inner y c kind now f) := by
    intro c x y kind now f hx hid htenant
    obtain ⟨hwritten, hfree⟩ := hback y hx hid htenant
    obtain ⟨hseq, hpushed⟩ := hwritten.pushConversationEvent hfree kind now
    refine ⟨hseq, ?_⟩
    simp only [announcedOn, hseq]
    exact hpushed.modifyEvents hfree _
  cases call with
  | create x =>
      have hne : x.tenantId ≠ tenant := hother
      have hold : w.store.inner.owns tenant x.id = false := owns_of_none (hnew x rfl)
      have hfits : HashMap.size w'.store.inner.conversations < w'.store.maxConversations := by
        rw [h.maxConversations]
        refine lt_of_le_of_lt (HashMap.size_le fun c hc ↦ ?_) (hroom x rfl)
        rw [h.inner.conversations] at hc
        split_ifs at hc
        · cases hc
        · exact hc
      simp only [exec, execConversations, World.withStore_fst, World.withStore_snd,
        MemConversationStore.create, hwritable]
      cases guardWritable w.store with
      | error e => exact ⟨rfl, h⟩
      | ok u =>
          simp only [Nat.not_le.mpr hfits, Nat.not_le.mpr (hroom x rfl), if_false]
          exact ⟨trivial, h.of_inner (h.inner.insertConversation hne hold)⟩
  | get other c =>
      refine ⟨?_, h⟩
      simp only [exec, execConversations, MemConversationStore.get, havailable]
      cases guardAvailable w.store with
      | error e => rfl
      | ok u => exact congrArg Except.ok (howned c)
  | updateMetadata other c metadata =>
      have hown : owned w'.store other c = owned w.store other c := howned c
      simp only [exec, execConversations, World.withStore_fst, World.withStore_snd,
        MemConversationStore.updateMetadata, hwritable, hown]
      cases guardWritable w.store with
      | error e => exact ⟨rfl, h⟩
      | ok u =>
          cases hx : owned w.store other c with
          | none => exact ⟨rfl, h⟩
          | some x => exact ⟨rfl, h.of_inner (hback { x with metadata := metadata } hx rfl rfl).1⟩
  | delete other c =>
      have hown : owned w'.store other c = owned w.store other c := howned c
      simp only [exec, execConversations, World.withStore_fst, World.withStore_snd,
        MemConversationStore.delete, hwritable, hown]
      cases guardWritable w.store with
      | error e => exact ⟨rfl, h⟩
      | ok u =>
          cases hx : owned w.store other c with
          | none => exact ⟨rfl, h⟩
          | some x =>
              obtain ⟨hremoved, hleft⟩ := h.inner.removeConversation (hmine hx)
              exact ⟨by simp only [hremoved], h.of_inner hleft⟩
  | deleteByTenant other =>
      simp only [exec, execConversations, World.withStore_fst, World.withStore_snd,
        MemConversationStore.deleteByTenant, hwritable, h.inner.index other hother]
      cases guardWritable w.store with
      | error e => exact ⟨rfl, h⟩
      | ok u =>
          obtain ⟨hcount, hleft⟩ := h.inner.removeAll
            ((w.store.inner.conversationsByTenant.lookup other).getD []) fun c hc ↦ by
              rw [owns_of_index hindexed hc]
              exact decide_eq_false hother
          exact ⟨by simp only [hcount], h.of_inner hleft⟩
  | list other =>
      refine ⟨?_, h⟩
      have hsame : ∀ c ∈ ((w.store.inner.conversationsByTenant.lookup other).getD []).mergeSort
          (fun a b ↦ decide (a.uuid.bits ≤ b.uuid.bits)),
          w'.store.conversation c = w.store.conversation c := by
        intro c hc
        have howns : w.store.inner.owns tenant c = decide (other = tenant) :=
          owns_of_index hindexed (List.mem_mergeSort.mp hc)
        refine (h.inner.conversations c).trans ?_
        rw [howns, decide_eq_false (show other ≠ tenant from hother)]
        rfl
      simp only [exec, execConversations, MemConversationStore.list, havailable,
        h.inner.index other hother, List.filterMap_congr hsame]
  | readSnapshot other c =>
      refine ⟨?_, h⟩
      have hown : owned w'.store other c = owned w.store other c := howned c
      simp only [exec, execConversations, MemConversationStore.readSnapshot, havailable, hown]
      cases guardAvailable w.store with
      | error e => rfl
      | ok u =>
          cases hx : owned w.store other c with
          | none => rfl
          | some x => simp only [MemStore.snapshot, h.inner.lookup_snapshots (hmine hx)]
  | appendTurn other c r commit now =>
      have hown : owned w'.store other c = owned w.store other c := howned c
      simp only [exec, execConversations, World.withStore_fst, World.withStore_snd,
        MemConversationStore.appendTurn, hwritable, hown]
      cases guardWritable w.store with
      | error e => exact ⟨rfl, h⟩
      | ok u =>
          cases hx : owned w.store other c with
          | none => exact ⟨rfl, h⟩
          | some x =>
              have hsnap : w'.store.snapshot c = w.store.snapshot c := by
                simp only [MemStore.snapshot, h.inner.lookup_snapshots (hmine hx)]
              simp only [hsnap]
              exact ⟨trivial, h.of_inner (h.inner.insertSnapshot (hmine hx) _)⟩
  | advance other c last =>
      have hown : owned w'.store other c = owned w.store other c := howned c
      simp only [exec, execConversations, World.withStore_fst, World.withStore_snd,
        MemConversationStore.advance, hwritable, hown]
      cases guardWritable w.store with
      | error e => exact ⟨rfl, h⟩
      | ok u =>
          cases hx : owned w.store other c with
          | none => exact ⟨rfl, h⟩
          | some x =>
              exact ⟨rfl, h.of_inner (hback { x with lastResponseId := some last } hx rfl rfl).1⟩
  | acquireActive other c r now =>
      have hown : owned w'.store other c = owned w.store other c := howned c
      simp only [exec, execConversations, World.withStore_fst, World.withStore_snd,
        MemConversationStore.acquireActive, hwritable, hown]
      cases guardWritable w.store with
      | error e => exact ⟨rfl, h⟩
      | ok u =>
          cases hx : owned w.store other c with
          | none => exact ⟨rfl, h⟩
          | some x =>
              cases hholder : x.activeResponseId with
              | none =>
                  simp only [hholder, hcapacity hx]
                  cases ensureEventCapacity w.store c with
                  | error e => exact ⟨rfl, h⟩
                  | ok u =>
                      obtain ⟨hseq, hleft⟩ := hmoved { x with activeResponseId := some r }
                        (.turnStarted r) now
                        (fun seq stream ↦ { stream with lockSeq := some seq }) hx rfl rfl
                      exact ⟨congrArg Except.ok hseq, h.of_inner hleft⟩
              | some holder =>
                  simp only [hholder, hevents hx]
                  split_ifs
                  · exact ⟨rfl, h⟩
                  · exact ⟨rfl, h⟩
  | releaseActive other c r status now =>
      have hown : owned w'.store other c = owned w.store other c := howned c
      have hfinish : ∀ {x}, owned w.store other c = some x →
          (releaseActive.finish w'.store c r status now x).1 =
              (releaseActive.finish w.store c r status now x).1 ∧
            Unseen tenant (releaseActive.finish w.store c r status now x).2
              (releaseActive.finish w'.store c r status now x).2 := by
        intro x hx
        simp only [releaseActive.finish, hcapacity hx]
        cases ensureEventCapacity w.store c with
        | error e => exact ⟨rfl, h⟩
        | ok u =>
            obtain ⟨hseq, hleft⟩ := hmoved { x with activeResponseId := none }
              (.turnCompleted r status) now
              (fun seq stream ↦ { stream with lastCompleted := some (r, seq) }) hx rfl rfl
            exact ⟨congrArg Except.ok hseq, h.of_inner hleft⟩
      simp only [exec, execConversations, World.withStore_fst, World.withStore_snd,
        MemConversationStore.releaseActive, hwritable, hown]
      cases guardWritable w.store with
      | error e => exact ⟨rfl, h⟩
      | ok u =>
          cases hx : owned w.store other c with
          | none => exact ⟨rfl, h⟩
          | some x =>
              simp only [hevents hx]
              split_ifs
              · exact ⟨rfl, h⟩
              · cases (w.store.inner.conversationEvents.lookup c).bind
                    ConversationEventStream.lastCompleted with
                | none => exact hfinish hx
                | some entry =>
                    simp only
                    split_ifs
                    · exact ⟨rfl, h⟩
                    · exact hfinish hx
  | releaseStaleActive other c holder =>
      have hown : owned w'.store other c = owned w.store other c := howned c
      simp only [exec, execConversations, World.withStore_fst, World.withStore_snd,
        MemConversationStore.releaseStaleActive, hwritable, hown]
      cases guardWritable w.store with
      | error e => exact ⟨rfl, h⟩
      | ok u =>
          cases hx : owned w.store other c with
          | none => exact ⟨rfl, h⟩
          | some x =>
              simp only
              split_ifs
              · exact ⟨rfl, h⟩
              · exact ⟨rfl, h.of_inner (hback { x with activeResponseId := none } hx rfl rfl).1⟩
  | appendEvent other c kind now =>
      have hown : owned w'.store other c = owned w.store other c := howned c
      simp only [exec, execConversations, World.withStore_fst, World.withStore_snd,
        MemConversationStore.appendEvent, hwritable, hown]
      cases guardWritable w.store with
      | error e => exact ⟨rfl, h⟩
      | ok u =>
          cases hx : owned w.store other c with
          | none => exact ⟨rfl, h⟩
          | some x =>
              simp only [hcapacity hx]
              cases ensureEventCapacity w.store c with
              | error e => exact ⟨rfl, h⟩
              | ok u =>
                  obtain ⟨hseq, hleft⟩ := h.inner.pushConversationEvent (hmine hx) kind now
                  exact ⟨congrArg Except.ok hseq, h.of_inner hleft⟩
  | readAfter other c cursor limit =>
      refine ⟨?_, h⟩
      have hown : owned w'.store other c = owned w.store other c := howned c
      simp only [exec, execConversations, MemConversationStore.readAfter, havailable, hown]
      cases guardAvailable w.store with
      | error e => rfl
      | ok u =>
          cases hx : owned w.store other c with
          | none => rfl
          | some x => simp only [hevents hx]

/-- A tenant's own call changes nothing of what is left without it. -/
theorem exec_left (htenant : call.tenant = tenant) (h : Unseen tenant w.store w'.store)
    (hk : w.store.Keyed) (hindexed : ConversationsIndexed w.store.inner)
    (hnew : ∀ x, call = .create x → w.store.conversation x.id = none) :
    Unseen tenant (exec (.conversations call) w).2.store w'.store := by
  have hmine : ∀ {c x}, owned w.store tenant c = some x → w.store.inner.owns tenant c = true := by
    intro c x hx
    rw [owns_of_owned hx]
    exact decide_eq_true rfl
  -- Writing one of the tenant's conversations back.
  have hback : ∀ {c x} (y : Conversation), owned w.store tenant c = some x → y.id = x.id →
      y.tenantId = x.tenantId →
      Without tenant (w.store.inner.insertConversation y) w'.store.inner ∧
        (w.store.inner.insertConversation y).owns tenant c = true := by
    intro c x y hx hid hsame
    have htheirs : y.tenantId = tenant := hsame.trans (owned_eq_some.mp hx).2
    have howns : w.store.inner.owns tenant y.id = true := by
      rw [hid, id_of_owned hk hx]
      exact hmine hx
    constructor
    · apply h.inner.insertConversation_left htheirs
      · rw [h.inner.conversations, if_pos howns]
      · rw [h.inner.conversationEvents, if_pos howns]
      · rw [h.inner.snapshots, if_pos howns]
    · rw [owns_insertConversation, hid, id_of_owned hk hx, if_pos rfl]
      exact decide_eq_true htheirs
  subst htenant
  cases call with
  | create x =>
      have hnone : w.store.inner.conversations.lookup x.id = none := hnew x rfl
      have howns : w.store.inner.owns x.tenantId x.id = false := owns_of_none hnone
      have hblank : w.store.inner.conversationEvents.lookup x.id = none ∧
          w.store.inner.snapshots.lookup x.id = none := by
        constructor
        · cases hevents : w.store.inner.conversationEvents.lookup x.id with
          | none => rfl
          | some stream =>
              have := hindexed.conversationEvents x.id (by rw [hevents]; rfl)
              rw [hnone] at this
              cases this
        · cases hsnapshots : w.store.inner.snapshots.lookup x.id with
          | none => rfl
          | some snap =>
              have := hindexed.snapshots x.id (by rw [hsnapshots]; rfl)
              rw [hnone] at this
              cases this
      simp only [exec, execConversations, World.withStore_snd, MemConversationStore.create]
      repeat' split
      · exact h
      · exact h
      · apply h.of_left
        apply h.inner.insertConversation_left rfl
        · exact (h.inner.lookup_conversations howns).trans hnone
        · exact (h.inner.lookup_events howns).trans hblank.1
        · exact (h.inner.lookup_snapshots howns).trans hblank.2
  | updateMetadata tenant c metadata =>
      simp only [exec, execConversations, World.withStore_snd, MemConversationStore.updateMetadata]
      split
      · exact h
      · split
        · exact h
        · next x hx => exact h.of_left (hback { x with metadata := metadata } hx rfl rfl).1
  | delete tenant c =>
      simp only [exec, execConversations, World.withStore_snd, MemConversationStore.delete]
      split
      · exact h
      · split
        · exact h
        · next x hx =>
            apply h.of_left
            apply h.inner.removeConversation_left
            intro y hy
            have hxy := Option.some.inj ((owned_eq_some.mp hx).1.symm.trans hy)
            rw [← hxy]
            exact (owned_eq_some.mp hx).2
  | deleteByTenant tenant =>
      simp only [exec, execConversations, World.withStore_snd, MemConversationStore.deleteByTenant]
      split
      · exact h
      · apply h.of_left
        apply h.inner.removeAll_left
        intro c hc x hx
        obtain ⟨y, hy, htheirs⟩ := (hindexed.byTenant.exact tenant c).mp hc
        rw [Option.some.inj (hx.symm.trans hy)]
        exact htheirs
  | appendTurn tenant c r commit now =>
      rcases appendTurn_cases w.store tenant c r commit with ⟨e, heq⟩ | ⟨x, index, hx, heq⟩ <;>
        simp only [exec, execConversations, heq, World.withStore_snd]
      · exact h
      · exact h.of_left (h.inner.insertSnapshot_left (hmine hx) _)
  | advance tenant c last =>
      rcases advance_cases w.store tenant c last with ⟨e, heq⟩ | ⟨x, hx, heq⟩ <;>
        simp only [exec, execConversations, heq, World.withStore_snd]
      · exact h
      · exact h.of_left (hback { x with lastResponseId := some last } hx rfl rfl).1
  | acquireActive tenant c r now =>
      rcases acquireActive_cases w.store tenant c r now with
        ⟨e, heq, -⟩ | ⟨x, seq, -, -, heq⟩ | ⟨x, -, hx, -, -, heq⟩ <;>
        simp only [exec, execConversations, heq, World.withStore_snd]
      · exact h
      · exact h
      · obtain ⟨hleft, howns⟩ := hback { x with activeResponseId := some r } hx rfl rfl
        exact h.of_left ((hleft.pushConversationEvent_left howns _ _).modifyEvents_left howns _)
  | releaseActive tenant c r status now =>
      rcases releaseActive_cases w.store tenant c r status now with
        ⟨reply, heq⟩ | ⟨x, hx, -, -, -, heq⟩ <;>
        simp only [exec, execConversations, heq, World.withStore_snd]
      · exact h
      · obtain ⟨hleft, howns⟩ := hback { x with activeResponseId := none } hx rfl rfl
        exact h.of_left ((hleft.pushConversationEvent_left howns _ _).modifyEvents_left howns _)
  | releaseStaleActive tenant c holder =>
      rcases releaseStaleActive_cases w.store tenant c holder with
        ⟨reply, heq⟩ | ⟨x, hx, -, -, heq⟩ <;>
        simp only [exec, execConversations, heq, World.withStore_snd]
      · exact h
      · exact h.of_left (hback { x with activeResponseId := none } hx rfl rfl).1
  | appendEvent tenant c kind now =>
      simp only [exec, execConversations, World.withStore_snd, MemConversationStore.appendEvent]
      split
      · exact h
      · split
        · exact h
        · next x hx =>
            split
            · exact h
            · exact h.of_left (h.inner.pushConversationEvent_left (hmine hx) _ _)
  | get => exact h
  | list => exact h
  | readSnapshot => exact h
  | readAfter => exact h

end Calls

/-! ## Runs -/

/-- What some calls are answered, one after another. -/
def results : World → List ConversationCall →
    List (Exchange ConversationCall ConversationCall.Reply)
  | _, [] => []
  | w, c :: cs => ⟨c, (exec (.conversations c) w).1⟩ :: results (exec (.conversations c) w).2 cs

/-- The conversation a call would bring. -/
def ConversationCall.brings : ConversationCall → Option ConversationId
  | .create x => some x.id
  | _ => none

/-- Where a conversation is created there is room for one more. -/
def Roomy : World → List ConversationCall → Prop
  | _, [] => True
  | w, c :: cs =>
    (c.brings.isSome = true →
      HashMap.size w.store.inner.conversations < w.store.maxConversations) ∧
      Roomy (exec (.conversations c) w).2 cs

instance decidableRoomy : (w : World) → (cs : List ConversationCall) → Decidable (Roomy w cs)
  | _, [] => .isTrue trivial
  | w, c :: cs =>
    have := decidableRoomy (exec (.conversations c) w).2 cs
    inferInstanceAs (Decidable (_ ∧ _))

/-- Nobody else is answered anything different when a tenant's calls are left out. -/
theorem results_unseen {tenant : TenantId} (cs : List ConversationCall) {xs : Exchanges}
    {w w' : World} (hfiled : Filed xs w) (h : Unseen tenant w.store w'.store)
    (hfresh : (opened xs ++ cs.filterMap ConversationCall.brings).Nodup) (hroom : Roomy w cs) :
    (results w cs).filter (fun x ↦ x.call.tenant ≠ tenant) =
      results w' (cs.filter fun c ↦ c.tenant ≠ tenant) := by
  induction cs generalizing xs w w' with
  | nil => rfl
  | cons c cs ih =>
      have hnewIn : (Call.conversations c).NewIn xs := by
        cases c with
        | create x =>
            have hdisjoint := List.disjoint_of_nodup_append hfresh
            intro hmem
            exact hdisjoint hmem (by simp [ConversationCall.brings])
        | _ => trivial
      have hnew : ∀ x, c = .create x → w.store.conversation x.id = none := by
        rintro x rfl
        cases hx : w.store.conversation x.id with
        | none => rfl
        | some y => exact absurd (hfiled.opened hx) hnewIn
      have hfresh' : (opened (xs ++ [⟨.conversations c, (exec (.conversations c) w).1⟩]) ++
          cs.filterMap ConversationCall.brings).Nodup := by
        rw [opened_snoc]
        refine hfresh.sublist ?_
        rw [List.append_assoc]
        apply List.Sublist.append_left
        cases c with
        | create x =>
            simp only [List.filterMap_cons, ConversationCall.brings]
            cases hreply : (exec (.conversations (.create x)) w).1 with
            | error e => exact List.sublist_cons_self _ _
            | ok y =>
                have hxy : y = x := by
                  simp only [exec, execConversations, World.withStore_fst,
                    MemConversationStore.create] at hreply
                  repeat' split at hreply
                  · cases hreply
                  · cases hreply
                  · exact (Except.ok.inj hreply).symm
                rw [hxy]
                exact List.Sublist.refl _
        | _ => exact List.Sublist.refl _
      have hfiled' := hfiled.step hnewIn
      by_cases hc : c.tenant = tenant
      · have hleft := exec_left hc h hfiled.keyed hfiled.conversations hnew
        have hrest := ih hfiled' hleft hfresh' hroom.2
        simpa [results, hc] using hrest
      · obtain ⟨hreply, hboth⟩ := exec_unseen hc h hfiled.keyed hfiled.conversations hnew
          fun x hx ↦ hroom.1 (by rw [hx]; rfl)
        have hrest := ih hfiled' hboth hfresh' hroom.2
        simp only [results, List.filter_cons, hc, ne_eq, not_false_eq_true, decide_true, if_true,
          hreply]
        exact congrArg _ hrest

/-- Leaving out one tenant's calls changes no result anybody else's calls return, whatever ids
they name, if conversations are created under ids of their own and none is refused for want of
room. -/
theorem conversations_noninterference {w : World} (hempty : w.store.inner = {})
    (cs : List ConversationCall) (hfresh : (cs.filterMap ConversationCall.brings).Nodup)
    (hroom : Roomy w cs) (tenant : TenantId) :
    (results w cs).filter (fun x ↦ x.call.tenant ≠ tenant) =
      results w (cs.filter fun c ↦ c.tenant ≠ tenant) := by
  apply results_unseen cs (filed_empty hempty) ?_ hfresh hroom
  constructor
  · apply without_self <;> rw [hempty]
  · rfl
  · rfl
  · rfl
  · rfl

namespace Sample

/-- A tenant uses its conversation, while another tries to take its turn lock and to delete it. -/
def meddling : List ConversationCall :=
  [.create (.new talk tenant [] 0), .acquireActive otherTenant talk (id 1) 0,
    .acquireActive tenant talk (id 1) 0, .releaseActive otherTenant talk (id 1) .completed 0,
    .delete otherTenant talk, .create (.new ⟨⟨1⟩⟩ otherTenant [] 0), .list tenant]

end Sample

theorem conversations_noninterference_meddling :
    (results {} Sample.meddling).filter (fun x ↦ x.call.tenant ≠ Sample.otherTenant) =
      results {} (Sample.meddling.filter fun c ↦ c.tenant ≠ Sample.otherTenant) :=
  conversations_noninterference rfl Sample.meddling (by decide +kernel) (by decide +kernel)
    Sample.otherTenant

end NovaChat
