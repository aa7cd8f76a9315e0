import NovaChat.Admission.Faults
import NovaChat.Interact.Local
import NovaChat.Turn.Duties

/-!
# Turn markers at rest

Every marker of a response is somebody's business: it was just taken, it is about to be given
back, or the record of an open response stands for it.  A record that is deleted while its response
is running takes this knowledge with it, and then nobody is left who would give the marker back.
-/

namespace NovaChat

open Interact Prog MemConversationStore

/-! ## What a call does to a marker -/

section Effects

variable {w : World} {r : ResponseId} {c : ConversationId}

/-- Conversation `c` of `tenant` waits for `r`. -/
def MemStore.Marked (s : MemStore) (tenant : TenantId) (c : ConversationId) (r : ResponseId) :
    Prop :=
  ∃ x, s.conversation c = some x ∧ x.tenantId = tenant ∧ x.activeResponseId = some r

theorem MemStore.Marked.marker {s : MemStore} {tenant : TenantId} (h : s.Marked tenant c r) :
    s.marker c = some r := by
  obtain ⟨x, hx, -, hr⟩ := h
  simp [MemStore.marker, hx, hr]

theorem MemStore.marked_of_marker {s : MemStore} (h : s.marker c = some r) :
    ∃ tenant, s.Marked tenant c r := by
  obtain ⟨x, hx, hr⟩ := Option.bind_eq_some_iff.mp h
  exact ⟨x.tenantId, x, hx, rfl, hr⟩

theorem marked_update {s s' : MemStore} {tenant : TenantId} {id : ConversationId}
    {x x' : Conversation} (hx : s.conversation id = some x)
    (h : ∀ c, s'.conversation c = if c = id then some x' else s.conversation c)
    (htenant : x'.tenantId = x.tenantId)
    (hactive : x'.activeResponseId = some r → x.activeResponseId = some r)
    (hmarked : s'.Marked tenant c r) : s.Marked tenant c r := by
  obtain ⟨y, hy, hyt, hyr⟩ := hmarked
  rw [h] at hy
  split_ifs at hy with hid
  · obtain rfl := Option.some.inj hy
    exact ⟨x, hid ▸ hx, htenant ▸ hyt, hactive hyr⟩
  · exact ⟨y, hy, hyt, hyr⟩

/-- A marker that is there after a call was there before it, or has just been taken. -/
theorem marked_back {call : Call} (hcall : call.Unmarked) (hk : w.store.Keyed) {tenant : TenantId}
    (h : (exec call w).2.store.Marked tenant c r) :
    w.store.Marked tenant c r ∨ ∃ now seq,
      call = .conversations (.acquireActive tenant c r now) ∧
      (exec (.conversations (.acquireActive tenant c r now)) w).1 = .ok seq := by
  have hsame : (∀ y,
      (exec call w).2.store.conversation c = some y → w.store.conversation c = some y) →
      w.store.Marked tenant c r := by
    intro hkept
    obtain ⟨y, hy, hyt, hyr⟩ := h
    exact ⟨y, hkept y hy, hyt, hyr⟩
  rcases call with _ | call | call | call | call | call
  · exact Or.inl h
  · refine Or.inl (hsame fun y hy ↦ ?_)
    simpa only [MemStore.conversation, (exec_ledgerOnly call w).conversations] using hy
  · rw [exec_eventLog_store] at h
    exact Or.inl h
  · cases call with
    | create x =>
        have hnone : x.activeResponseId = none := hcall
        simp only [exec, execConversations, World.withStore_snd, MemConversationStore.create] at h
        split at h
        · exact Or.inl h
        · split_ifs at h
          · exact Or.inl h
          · obtain ⟨y, hy, hyt, hyr⟩ := h
            rw [conversation_insert] at hy
            split_ifs at hy
            · obtain rfl := Option.some.inj hy
              rw [hnone] at hyr
              cases hyr
            · exact Or.inl ⟨y, hy, hyt, hyr⟩
    | updateMetadata tenant' id metadata =>
        simp only [exec, execConversations, World.withStore_snd,
          MemConversationStore.updateMetadata] at h
        split at h
        · exact Or.inl h
        · split at h
          · exact Or.inl h
          · next x hx =>
              obtain rfl := id_of_owned hk hx
              exact Or.inl (marked_update (owned_eq_some.mp hx).1
                (conversation_insert w.store { x with metadata := metadata }) rfl (fun h ↦ h) h)
    | delete tenant' id =>
        refine Or.inl (hsame fun y hy ↦ ?_)
        simp only [exec, execConversations, World.withStore_snd, MemConversationStore.delete,
          Inner.removeConversation] at hy
        split at hy
        · exact hy
        · split at hy
          · exact hy
          · split at hy
            · exact hy
            · have hy := (HashMap.lookup_erase' _ _ _).symm.trans hy
              split_ifs at hy
              exact hy
    | deleteByTenant tenant' =>
        refine Or.inl (hsame fun y hy ↦ ?_)
        simp only [exec, execConversations, World.withStore_snd,
          MemConversationStore.deleteByTenant] at hy
        split at hy
        · exact hy
        · exact lookup_removeAll_conversations c _ _ y hy
    | appendTurn tenant' id r' commit now =>
        rcases appendTurn_cases w.store tenant' id r' commit with ⟨e, heq⟩ | ⟨y, index, -, heq⟩ <;>
          (simp only [exec, execConversations, heq] at h; exact Or.inl h)
    | advance tenant' id last =>
        rcases advance_cases w.store tenant' id last with ⟨e, heq⟩ | ⟨x, hx, heq⟩ <;>
          simp only [exec, execConversations, heq, World.withStore_snd] at h
        · exact Or.inl h
        · obtain rfl := id_of_owned hk hx
          exact Or.inl (marked_update (owned_eq_some.mp hx).1
            (conversation_insert w.store { x with lastResponseId := some last }) rfl (fun h ↦ h) h)
    | acquireActive tenant' id r' now =>
        rcases acquireActive_cases w.store tenant' id r' now with
          ⟨e, heq, -⟩ | ⟨x, seq, -, -, heq⟩ | ⟨x, -, hx, hfree, -, heq⟩
        · simp only [exec, execConversations, heq, World.withStore_snd] at h
          exact Or.inl h
        · simp only [exec, execConversations, heq, World.withStore_snd] at h
          exact Or.inl h
        · obtain ⟨y, hy, hyt, hyr⟩ := h
          simp only [exec, execConversations, heq, World.withStore_snd, conversation_occupy] at hy
          obtain rfl := id_of_owned hk hx
          split_ifs at hy with hid
          · obtain rfl := Option.some.inj hy
            obtain rfl : r' = r := Option.some.inj hyr
            obtain rfl : x.tenantId = tenant' := (owned_eq_some.mp hx).2
            obtain rfl : x.tenantId = tenant := hyt
            subst hid
            exact Or.inr ⟨now, _, rfl, by
              simp only [exec, execConversations, heq, World.withStore_fst]; rfl⟩
          · exact Or.inl ⟨y, hy, hyt, hyr⟩
    | releaseActive tenant' id r' status now =>
        rcases releaseActive_cases w.store tenant' id r' status now with
          ⟨reply, heq⟩ | ⟨x, hx, -, -, -, heq⟩ <;>
          simp only [exec, execConversations, heq, World.withStore_snd] at h
        · exact Or.inl h
        · obtain rfl := id_of_owned hk hx
          exact Or.inl (marked_update (owned_eq_some.mp hx).1
            (conversation_vacate w.store x.id x r' status now) rfl (fun h ↦ by cases h) h)
    | releaseStaleActive tenant' id holder =>
        rcases releaseStaleActive_cases w.store tenant' id holder with
          ⟨reply, heq⟩ | ⟨x, hx, -, -, heq⟩ <;>
          simp only [exec, execConversations, heq, World.withStore_snd] at h
        · exact Or.inl h
        · obtain rfl := id_of_owned hk hx
          exact Or.inl (marked_update (owned_eq_some.mp hx).1
            (conversation_insert w.store { x with activeResponseId := none }) rfl
            (fun h ↦ by cases h) h)
    | appendEvent tenant' id kind now =>
        refine Or.inl (hsame fun y hy ↦ ?_)
        simp only [exec, execConversations, World.withStore_snd, MemConversationStore.appendEvent,
          Inner.pushConversationEvent] at hy
        repeat' split at hy
        all_goals exact hy
    | get => exact Or.inl h
    | list => exact Or.inl h
    | readSnapshot => exact Or.inl h
    | readAfter => exact Or.inl h
  · cases call <;> exact Or.inl h
  · refine Or.inl (hsame fun y hy ↦ ?_)
    simpa only [MemStore.conversation, exec, execMode_inner] using hy

theorem completed_vacate (s : MemStore) (c c' : ConversationId) (x : Conversation)
    (id : ResponseId) (status : ResponseStatus) (now : ℕ) :
    (vacate s c x id status now).2.completed c' = if c' = c then some id else s.completed c' := by
  by_cases h : c' = c
  · subst h
    simp [vacate, Inner.pushConversationEvent, Inner.insertConversation, MemStore.completed,
      MemStore.stream, HashMap.lookup_modify]
  · simp [vacate, Inner.pushConversationEvent, Inner.insertConversation, MemStore.completed,
      MemStore.stream, HashMap.lookup_modify, h]

theorem completed_push (s : MemStore) (id c : ConversationId) (kind : ConversationEventKind)
    (now : ℕ) :
    MemStore.completed { s with inner := (s.inner.pushConversationEvent id kind now).2 } c =
      s.completed c := by
  by_cases h : c = id
  · subst h
    simp [Inner.pushConversationEvent, MemStore.completed, MemStore.stream]
  · simp [Inner.pushConversationEvent, MemStore.completed, MemStore.stream, h]

theorem lookup_removeConversation_events {g : Inner} {id : ConversationId}
    {stream : ConversationEventStream}
    (h : (g.removeConversation id).2.conversationEvents.lookup c = some stream) :
    g.conversationEvents.lookup c = some stream := by
  unfold Inner.removeConversation at h
  split at h
  · exact h
  · have h := (HashMap.lookup_erase' _ _ _).symm.trans h
    split_ifs at h
    exact h

theorem lookup_removeAll_events : ∀ (ids : List ConversationId) (g : Inner)
    {stream : ConversationEventStream},
    (removeAll ids g).2.conversationEvents.lookup c = some stream →
      g.conversationEvents.lookup c = some stream := by
  intro ids
  induction ids with
  | nil => exact fun g stream h ↦ h
  | cons id ids ih => exact fun g stream h ↦ lookup_removeConversation_events (ih _ h)

/-- A turn that is the last completed one after a call was so before it, or has just given its
marker back. -/
theorem completed_back {call : Call} (hk : w.store.Keyed)
    (h : (exec call w).2.store.completed c = some r) :
    w.store.completed c = some r ∨
      w.store.marker c = some r ∧ (exec call w).2.store.marker c = none := by
  have hsame : (exec call w).2.store.inner.conversationEvents =
      w.store.inner.conversationEvents → w.store.completed c = some r := by
    intro heq
    simpa only [MemStore.completed, MemStore.stream, heq] using h
  have hfewer : (∀ stream, (exec call w).2.store.inner.conversationEvents.lookup c = some stream →
      w.store.inner.conversationEvents.lookup c = some stream) → w.store.completed c = some r := by
    intro hback
    simp only [MemStore.completed, MemStore.stream] at h ⊢
    cases hlook : (exec call w).2.store.inner.conversationEvents.lookup c with
    | none => simp [hlook] at h
    | some stream => simpa [hlook, hback stream hlook] using h
  rcases call with _ | call | call | call | call | call
  · exact Or.inl h
  · exact Or.inl (hsame (exec_ledgerOnly call w).conversationEvents)
  · rw [exec_eventLog_store] at h
    exact Or.inl h
  · cases call with
    | create x =>
        refine Or.inl (hsame ?_)
        simp only [exec, execConversations, World.withStore_snd, MemConversationStore.create]
        repeat' split
        all_goals rfl
    | updateMetadata tenant' id metadata =>
        refine Or.inl (hsame ?_)
        simp only [exec, execConversations, World.withStore_snd,
          MemConversationStore.updateMetadata]
        repeat' split
        all_goals rfl
    | delete tenant' id =>
        refine Or.inl (hfewer fun stream hlook ↦ ?_)
        simp only [exec, execConversations, World.withStore_snd, MemConversationStore.delete]
          at hlook
        repeat' split at hlook
        all_goals first | exact hlook | exact lookup_removeConversation_events hlook
    | deleteByTenant tenant' =>
        refine Or.inl (hfewer fun stream hlook ↦ ?_)
        simp only [exec, execConversations, World.withStore_snd,
          MemConversationStore.deleteByTenant] at hlook
        split at hlook
        · exact hlook
        · exact lookup_removeAll_events _ _ hlook
    | appendTurn tenant' id r' commit now =>
        refine Or.inl (hsame ?_)
        rcases appendTurn_cases w.store tenant' id r' commit with ⟨e, heq⟩ | ⟨y, index, -, heq⟩ <;>
          (simp only [exec, execConversations, heq]; rfl)
    | advance tenant' id last =>
        refine Or.inl (hsame ?_)
        rcases advance_cases w.store tenant' id last with ⟨e, heq⟩ | ⟨x, hx, heq⟩
        · simp only [exec, execConversations, heq, World.withStore_snd]
        · simp only [exec, execConversations, heq, World.withStore_snd]
          rfl
    | acquireActive tenant' id r' now =>
        rcases acquireActive_cases w.store tenant' id r' now with
          ⟨e, heq, -⟩ | ⟨x, seq, -, -, heq⟩ | ⟨x, -, hx, hfree, -, heq⟩ <;>
          simp only [exec, execConversations, heq, World.withStore_snd] at h
        · exact Or.inl h
        · exact Or.inl h
        · rw [lastCompleted_occupy] at h
          exact Or.inl h
    | releaseActive tenant' id r' status now =>
        rcases releaseActive_cases w.store tenant' id r' status now with
          ⟨reply, heq⟩ | ⟨x, hx, hheld, -, -, heq⟩
        · simp only [exec, execConversations, heq, World.withStore_snd] at h
          exact Or.inl h
        · obtain rfl := id_of_owned hk hx
          simp only [exec, execConversations, heq, World.withStore_snd] at h ⊢
          rw [completed_vacate] at h
          split_ifs at h with hid
          · obtain rfl := Option.some.inj h
            subst hid
            refine Or.inr ⟨(marker_of_owned hx).trans hheld, ?_⟩
            rw [MemStore.marker, conversation_vacate, if_pos rfl]
            rfl
          · exact Or.inl h
    | releaseStaleActive tenant' id holder =>
        refine Or.inl (hsame ?_)
        rcases releaseStaleActive_cases w.store tenant' id holder with
          ⟨reply, heq⟩ | ⟨x, hx, -, -, heq⟩
        · simp only [exec, execConversations, heq, World.withStore_snd]
        · simp only [exec, execConversations, heq, World.withStore_snd]
          rfl
    | appendEvent tenant' id kind now =>
        simp only [exec, execConversations, World.withStore_snd,
          MemConversationStore.appendEvent] at h
        repeat' split at h
        all_goals first | exact Or.inl h | exact Or.inl (completed_push w.store id c kind now ▸ h)
    | get => exact Or.inl h
    | list => exact Or.inl h
    | readSnapshot => exact Or.inl h
    | readAfter => exact Or.inl h
  · cases call <;> exact Or.inl h
  · exact Or.inl (hsame (by simp only [exec, execMode_inner]))

/-- Who finds an open record and leaves it terminal has won the transition. -/
theorem wins_of_end {call : Call} {x y : ResponseRecord} (hx : w.store.record r = some x)
    (hopen : x.status.isTerminal = false) (hstage : x.Stage r call y)
    (hy : (exec call w).2.store.record r = some y) (hterm : y.status.isTerminal = true) :
    call.wins r (exec call w).1 = true := by
  -- A call that is refused leaves the record open.
  have hrefused : (exec call w).2.store.record r = w.store.record r → call.wins r (exec call w).1 =
      true := by
    intro hsame
    obtain rfl : x = y := Option.some.inj (hx.symm.trans (hsame.symm.trans hy))
    rw [hopen] at hterm
    cases hterm
  cases hstage with
  | stay => exact hrefused (hy.trans hx.symm)
  | claim => cases hterm
  | @complete _ status usage now _ _ =>
      rcases MemResponseLedger.complete_cases w.store r x.attempt status usage now with
        ⟨e, heq⟩ | ⟨z, -, -, -, -, -, heq⟩
      · exact hrefused (by simp only [exec, execLedger, heq, World.withStore_snd])
      · simp [Call.wins, exec, execLedger, heq, Except.isOk, Except.toBool]
  | cancel now =>
      rcases MemResponseLedger.cancel_cases w.store x.tenantId r now with
        ⟨e, heq⟩ | ⟨z, -, -, -, -, heq⟩
      · exact hrefused (by simp only [exec, execLedger, heq, World.withStore_snd])
      · simp [Call.wins, exec, execLedger, heq, Except.isOk, Except.toBool]
  | reap now ttl =>
      obtain ⟨aborted, hreply, -, -, -, hrec⟩ := MemResponseLedger.reap_spec w.store now ttl
      have hreply : (exec (.ledger (.reap now ttl)) w).1 = .ok aborted := hreply
      by_cases hmem : r ∈ aborted.map AbortedClaim.responseId
      · rw [hreply]
        exact decide_eq_true hmem
      · exact hrefused ((hrec r).trans (if_neg hmem))

theorem Duty.free_of_engages {d : Duty} {call : Call} (hallowed : d.Allowed r call)
    (hengages : call.Engages) (hwrites : call.writes = none) : d = free := by
  cases d with
  | free => rfl
  | held tenant c' =>
      obtain ⟨record, key, now, rfl, -⟩ := hallowed
      cases hwrites
  | running tenant c' => exact absurd hengages hallowed.2
  | seeking tenant =>
      obtain rfl : call = .ledger (.get r) := hallowed
      exact hengages.elim
  | due tenant c' => exact absurd hengages hallowed.2.2

theorem Duty.running_of_completes {d : Duty} {call : Call} (hallowed : d.Allowed r call)
    (hcompletes : call.Completes r) : ∃ tenant conversation, d = running tenant conversation := by
  cases d with
  | running tenant conversation => exact ⟨tenant, conversation, rfl⟩
  | free => exact absurd hcompletes hallowed.2
  | held tenant c' =>
      obtain ⟨record, key, now, rfl, -⟩ := hallowed
      exact hcompletes.elim
  | seeking tenant =>
      obtain rfl : call = .ledger (.get r) := hallowed
      exact hcompletes.elim
  | due tenant c' => exact absurd hcompletes hallowed.2.1

/-- Whoever ends a response with a conversation has its marker to give back, or is about to look
the conversation up. -/
theorem next_end {d : Duty} {call : Call} {x y : ResponseRecord} (hallowed : d.Allowed r call)
    (hrunning : ∀ tenant conversation, d = .running tenant conversation →
      tenant = x.tenantId ∧ conversation = x.conversationId)
    (hx : w.store.record r = some x) (hopen : x.status.isTerminal = false)
    (hstage : x.Stage r call y) (hy : (exec call w).2.store.record r = some y)
    (hterm : y.status.isTerminal = true) (hconv : x.conversationId = some c) :
    Duty.next r d call (exec call w).1 = .due x.tenantId c ∨
      Duty.next r d call (exec call w).1 = .seeking x.tenantId := by
  have hwins := wins_of_end hx hopen hstage hy hterm
  cases hstage with
  | stay =>
      rw [hopen] at hterm
      cases hterm
  | claim => cases hterm
  | @complete _ status usage now _ _ =>
      obtain ⟨tenant, conversation, rfl⟩ := Duty.running_of_completes hallowed rfl
      obtain ⟨rfl, rfl⟩ := hrunning tenant conversation rfl
      cases hreply : (exec (.ledger (.complete r x.attempt status usage now)) w).1 with
      | error e =>
          rw [hreply] at hwins
          cases hwins
      | ok u =>
          refine Or.inl ((if_pos rfl).trans ?_)
          rw [hconv]
          rfl
  | cancel now =>
      obtain rfl := Duty.free_of_engages hallowed trivial rfl
      cases hreply : (exec (.ledger (.cancel x.tenantId r now)) w).1 with
      | error e =>
          rw [hreply] at hwins
          cases hwins
      | ok u => exact Or.inr (if_pos rfl)
  | reap now ttl =>
      obtain rfl := Duty.free_of_engages hallowed trivial rfl
      obtain ⟨aborted, hreply, -, -, hclaims, -⟩ := MemResponseLedger.reap_spec w.store now ttl
      have hreply : (exec (.ledger (.reap now ttl)) w).1 = .ok aborted := hreply
      rw [hreply] at hwins ⊢
      obtain ⟨a, ha, hid⟩ := List.mem_map.mp (of_decide_eq_true hwins)
      refine Or.inl (show Duty.ofAborted r aborted = _ from ?_)
      cases hfind : aborted.find? fun a ↦ decide (a.responseId = r) with
      | none => exact absurd hid (by simpa using List.find?_eq_none.mp hfind a ha)
      | some b =>
          have hb : b.responseId = r := by simpa using List.find?_some hfind
          obtain ⟨z, hz, -, heq⟩ := hclaims b (List.mem_of_find?_eq_some hfind)
          obtain rfl : x = z := Option.some.inj (hx.symm.trans (hb ▸ hz))
          have hbt : b.tenantId = x.tenantId := by rw [heq]; rfl
          have hbc : b.conversationId = x.conversationId := by rw [heq]; rfl
          simp only [Duty.ofAborted, hfind, hbt, hbc, hconv, Duty.owed]

end Effects

/-! ## Attended markers -/

/-- Somebody sees to the marker of `r` in conversation `c`: it was just taken, it is about to be
given back, or the record of `r` stands for it. -/
def Backed (r : ResponseId) (w : World) (ds : List Duty) (tenant : TenantId) (c : ConversationId) :
    Prop :=
  Duty.held tenant c ∈ ds ∨ Duty.due tenant c ∈ ds ∨
    ∃ x, w.store.record r = some x ∧ x.tenantId = tenant ∧ x.conversationId = some c ∧
      (x.status.isTerminal = false ∨ Duty.seeking tenant ∈ ds)

/-- The stage of every process, and what it has to do with the marker of `r`. -/
abbrev keeping (r : ResponseId) : Session Call Call.Reply := jobs.prod (duties r)

structure Attended (r : ResponseId) (tr : Trace) (w : World) (ss : List (Stage × Duty)) :
    Prop where
  provenance : Provenance tr w (ss.map Prod.fst)
  backed : ∀ {tenant c}, w.store.Marked tenant c r → Backed r w (ss.map Prod.snd) tenant c
  /-- A turn whose marker was given back does not get it again. -/
  uncompleted : ∀ {c}, w.store.marker c = some r → w.store.completed c ≠ some r
  used : ∀ {c}, w.store.marker c = some r ∨ w.store.completed c = some r → r ∈ minted tr ∧
    ∀ {i : ℕ} {s : Stage} {d : Duty}, ss[i]? = some (s, d) → s.waiting ≠ some r
  running : ∀ {tenant conversation}, Duty.running tenant conversation ∈ ss.map Prod.snd →
    ∃ o ∈ filings tr, o.id = r ∧ o.tenant = tenant ∧ o.turn.conversation = conversation

theorem waiting_of_acquires {s : Stage} {tenant : TenantId} {c : ConversationId} {r : ResponseId}
    {now : ℕ} (h : jobs.allowed s (.conversations (.acquireActive tenant c r now))) :
    s = .minted r c := by
  rcases h with h | ⟨-, hapart⟩
  · cases h with
    | acquire => rfl
    | quiet _ hc => exact hc.elim
  · exact hapart.elim

theorem Duty.Allowed.unmarked {r : ResponseId} {d : Duty} {c : Call} (h : d.Allowed r c) :
    c.Unmarked := by
  cases d with
  | free => exact h.1
  | held tenant c' =>
      obtain ⟨record, key, now, rfl, -⟩ := h
      trivial
  | running tenant c' => exact h.1
  | seeking tenant =>
      obtain rfl : c = .ledger (.get r) := h
      trivial
  | due tenant c' => exact h.1

/-- Only a claim on the response starts running it. -/
theorem Duty.next_running {r : ResponseId} {d : Duty} {c : Call} {reply : c.Reply}
    {tenant : TenantId} {conversation : Option ConversationId}
    (h : Duty.next r d c reply = running tenant conversation) :
    d = running tenant conversation ∨
      ∃ o ∈ c.tells reply, o.id = r ∧ o.tenant = tenant ∧ o.turn.conversation = conversation := by
  unfold Duty.next at h
  split at h
  · split_ifs at h
  · next claimed =>
      unfold ofClaim at h
      split_ifs at h with hid
      obtain ⟨rfl, rfl⟩ := Duty.running.inj h
      exact Or.inr ⟨_, List.mem_singleton_self _, hid, rfl, rfl⟩
  · split_ifs at h
  · unfold ofAborted owed at h
    repeat' split at h
    all_goals cases h
  · cases h
  · cases h
  · split_ifs at h
    · unfold owed at h
      split at h <;> cases h
    · exact Or.inl h
  · unfold owed at h
    split at h <;> cases h
  · split_ifs at h
  · exact Or.inl h

/-- What is due stays due until it is done. -/
theorem Duty.next_due {r : ResponseId} {tenant : TenantId} {c : ConversationId} {call : Call}
    {reply : call.Reply} : Duty.next r (due tenant c) call reply = due tenant c ∨
      ∃ status now, call = .conversations (.releaseActive tenant c r status now) := by
  rcases call with _ | call | call | call | call | call
  · exact Or.inl rfl
  · cases call <;> exact Or.inl rfl
  · exact Or.inl rfl
  · cases call with
    | releaseActive tenant' c' id status now =>
        by_cases hmine : tenant' = tenant ∧ c' = c ∧ id = r
        · obtain ⟨rfl, rfl, rfl⟩ := hmine
          exact Or.inr ⟨status, now, rfl⟩
        · exact Or.inl (if_neg hmine)
    | _ => exact Or.inl rfl
  · exact Or.inl rfl
  · exact Or.inl rfl

/-- A release of a marker that is held clears it, unless it fails. -/
theorem unmarked_release {w : World} {r : ResponseId} {tenant : TenantId} {c : ConversationId}
    {status : ResponseStatus} {now : ℕ} (hk : w.store.Keyed) (hmarked : w.store.Marked tenant c r)
    (hcompleted : w.store.completed c ≠ some r)
    (hok : Released ⟨.conversations (.releaseActive tenant c r status now),
      (exec (.conversations (.releaseActive tenant c r status now)) w).1⟩) :
    (exec (.conversations (.releaseActive tenant c r status now)) w).2.store.marker c = none := by
  obtain ⟨x, hx, rfl, hactive⟩ := hmarked
  have howned : owned w.store x.tenantId c = some x := owned_eq_some.mpr ⟨hx, rfl⟩
  have hok : (releaseActive w.store x.tenantId c r status now).1.isOk = true := hok
  cases hreply : (releaseActive w.store x.tenantId c r status now).1 with
  | error e =>
      rw [hreply] at hok
      cases hok
  | ok seq =>
      have hstore := releaseActive_ok howned hactive hcompleted hreply
      show (releaseActive w.store x.tenantId c r status now).2.marker c = none
      rw [hstore, MemStore.marker, conversation_vacate, if_pos (hk.conversation hx).symm]
      rfl

namespace Attended

variable {r : ResponseId} {tr : Trace} {w : World} {ss : List (Stage × Duty)} {i : ℕ} {s : Stage}
  {d : Duty} {c : Call}

theorem start {q : State} {j : Job} (h : Attended r tr w ss) (hj : MintStep tr q (.start j)) :
    Attended r (tr ++ [.start j]) w (ss ++ [(Stage.first j, .free)]) := by
  have hmem : ∀ {d : Duty}, d ∈ ss.map Prod.snd →
      d ∈ (ss ++ [(Stage.first j, Duty.free)]).map Prod.snd := by
    intro d hd
    rw [List.map_append]
    exact List.mem_append_left _ hd
  refine ⟨?_, fun hmarked ↦ ?_, h.uncompleted, fun hused ↦ ?_, fun hrun ↦ ?_⟩
  · rw [List.map_append]
    exact h.provenance.start hj
  · rcases h.backed hmarked with hd | hd | ⟨x, hx, ht, hc, hx'⟩
    · exact Or.inl (hmem hd)
    · exact Or.inr (Or.inl (hmem hd))
    · exact Or.inr (Or.inr ⟨x, hx, ht, hc, hx'.imp_right hmem⟩)
  · obtain ⟨hminted, hwait⟩ := h.used hused
    refine ⟨by simp [hminted], fun {i s d} hs ↦ ?_⟩
    have hold : ss[i]? = some (s, d) ∨ i = ss.length ∧ (s, d) = (Stage.first j, Duty.free) :=
      Session.getElem?_advance_start (S := keeping r) hs
    rcases hold with hold | ⟨-, heq⟩
    · exact hwait hold
    · obtain ⟨rfl, rfl⟩ := Prod.mk.inj heq
      intro hwaits
      have hmints := (Stage.unwritten_first j).symm.trans (Stage.unwritten_of_waiting hwaits)
      exact hj r hmints hminted
  · rw [filings_start]
    rw [List.map_append] at hrun
    rcases List.mem_append.mp hrun with hrun | hrun
    · exact h.running hrun
    · cases List.mem_singleton.mp hrun

/-- The stages and duties after process `i` has made call `c`. -/
def after (r : ResponseId) (ss : List (Stage × Duty)) (i : ℕ) (c : Call) (reply : c.Reply) :
    List (Stage × Duty) :=
  ss.modify i fun x ↦ (x.1.next c reply, Duty.next r x.2 c reply)

theorem getElem?_after (hs : ss[i]? = some (s, d)) (c : Call) (reply : c.Reply) (j : ℕ) :
    (after r ss i c reply)[j]? =
      if i = j then some (s.next c reply, Duty.next r d c reply) else ss[j]? :=
  @Session.getElem?_advance_call _ _ Job (keeping r) (fun j ↦ (Stage.first j, .free)) ss i j
    (s, d) c reply hs

theorem next_mem_after (hs : ss[i]? = some (s, d)) (c : Call) (reply : c.Reply) :
    Duty.next r d c reply ∈ (after r ss i c reply).map Prod.snd :=
  List.mem_map_of_mem (f := Prod.snd)
    (List.mem_of_getElem? ((getElem?_after hs c reply i).trans (if_pos rfl)))

theorem mem_after (hs : ss[i]? = some (s, d)) (c : Call) (reply : c.Reply) {d₀ : Duty}
    (hd₀ : d₀ ∈ ss.map Prod.snd) : d₀ ∈ (after r ss i c reply).map Prod.snd ∨ d₀ = d := by
  obtain ⟨⟨s₀, _⟩, hmem, rfl⟩ := List.mem_map.mp hd₀
  obtain ⟨j, hj⟩ := List.mem_iff_getElem?.mp hmem
  by_cases hij : i = j
  · subst hij
    exact Or.inr (Prod.mk.inj (Option.some.inj (hj.symm.trans hs))).2
  · exact Or.inl (List.mem_map_of_mem (f := Prod.snd)
      (List.mem_of_getElem? (((getElem?_after hs c reply j).trans (if_neg hij)).trans hj)))

theorem mem_of_after (hs : ss[i]? = some (s, d)) {c : Call} {reply : c.Reply} {d₀ : Duty}
    (hd₀ : d₀ ∈ (after r ss i c reply).map Prod.snd) :
    d₀ ∈ ss.map Prod.snd ∨ d₀ = Duty.next r d c reply := by
  obtain ⟨⟨s₀, _⟩, hmem, rfl⟩ := List.mem_map.mp hd₀
  obtain ⟨j, hj⟩ := List.mem_iff_getElem?.mp hmem
  rw [getElem?_after hs] at hj
  split_ifs at hj
  · exact Or.inr (Prod.mk.inj (Option.some.inj hj)).2.symm
  · exact Or.inl (List.mem_map_of_mem (f := Prod.snd) (List.mem_of_getElem? hj))

theorem due_after (h : Attended r tr w ss) (hs : ss[i]? = some (s, d))
    (hreleased : Released ⟨c, (exec c w).1⟩) {tenant : TenantId} {c₀ : ConversationId}
    (hdue : Duty.due tenant c₀ ∈ ss.map Prod.snd) (hmarked : w.store.Marked tenant c₀ r)
    (hmarked' : (exec c w).2.store.Marked tenant c₀ r) :
    Duty.due tenant c₀ ∈ (after r ss i c (exec c w).1).map Prod.snd := by
  rcases mem_after hs c (exec c w).1 hdue with hmem | rfl
  · exact hmem
  · rcases @Duty.next_due r tenant c₀ c (exec c w).1 with hnext | ⟨status, now, rfl⟩
    · rw [← hnext]
      exact next_mem_after hs c (exec c w).1
    · have hnone := unmarked_release h.provenance.keyed hmarked (h.uncompleted hmarked.marker)
        hreleased
      rw [hmarked'.marker] at hnone
      cases hnone

theorem not_writes (h : Attended r tr w ss) (hs : ss[i]? = some (s, d))
    (hallowed : jobs.allowed s c)
    {x : ResponseRecord} (hx : w.store.record r = some x) : c.writes ≠ some r := by
  intro hwrites
  have hstage : (ss.map Prod.fst)[i]? = some s := by simp [hs]
  exact (h.provenance.unwritten hstage (unwritten_of_jobs hallowed hwrites)).2 _
    (h.provenance.record hx) (h.provenance.keyed.record hx)

/-- The record that stands for a marker still does, or has handed it over. -/
theorem record_after (h : Attended r tr w ss) (hs : ss[i]? = some (s, d))
    (hallowed : jobs.allowed s c) (hduty : Duty.Allowed r d c)
    (hreleased : Released ⟨c, (exec c w).1⟩) {tenant : TenantId} {c₀ : ConversationId}
    (hmarked : w.store.Marked tenant c₀ r) (hmarked' : (exec c w).2.store.Marked tenant c₀ r)
    {x : ResponseRecord} (hx : w.store.record r = some x) (htenant : x.tenantId = tenant)
    (hconv : x.conversationId = some c₀)
    (hx' : x.status.isTerminal = false ∨ Duty.seeking tenant ∈ ss.map Prod.snd)
    (hkept : (exec c w).2.store.record r = none → Duty.due tenant c₀ ∈ ss.map Prod.snd) :
    Backed r (exec c w).2 ((after r ss i c (exec c w).1).map Prod.snd) tenant c₀ := by
  cases hy : (exec c w).2.store.record r with
  | none => exact Or.inr (Or.inl (h.due_after hs hreleased (hkept hy) hmarked hmarked'))
  | some y =>
      obtain ⟨x₀, hx₀, hstage⟩ := record_stage (h.not_writes hs hallowed hx) hy
      obtain rfl : x = x₀ := Option.some.inj (hx.symm.trans hx₀)
      have hadv := hstage.advances
      have hyt : y.tenantId = tenant := hadv.tenantId.trans htenant
      have hyc : y.conversationId = some c₀ := by
        rw [← hconv, ResponseRecord.conversationId, ResponseRecord.conversationId,
          hadv.spec]
      rcases hx' with hopen | hseeking
      · by_cases hterm : y.status.isTerminal = true
        · have hnext := next_end hduty (fun tenant conversation hd ↦ ?_) hx hopen hstage hy hterm
            hconv
          · rw [htenant] at hnext
            rcases hnext with hnext | hnext
            · exact Or.inr (Or.inl (hnext ▸ next_mem_after hs c (exec c w).1))
            · exact Or.inr (Or.inr ⟨y, hy, hyt, hyc,
                Or.inr (hnext ▸ next_mem_after hs c (exec c w).1)⟩)
          · -- What is run is what was claimed, and a response is filed once.
            obtain ⟨o, ho, hid, rfl, rfl⟩ := h.running (List.mem_map_of_mem (f := Prod.snd)
              (List.mem_of_getElem? (hd ▸ hs)))
            obtain rfl := h.provenance.unique ho (h.provenance.record hx)
              (hid.trans (h.provenance.keyed.record hx).symm)
            exact ⟨rfl, rfl⟩
        · exact Or.inr (Or.inr ⟨y, hy, hyt, hyc, Or.inl (by simpa using hterm)⟩)
      · rcases mem_after hs c (exec c w).1 hseeking with hmem | rfl
        · exact Or.inr (Or.inr ⟨y, hy, hyt, hyc, Or.inr hmem⟩)
        · obtain rfl : c = .ledger (.get r) := hduty
          have hnext : Duty.next r (.seeking tenant) (.ledger (.get r))
              (exec (.ledger (.get r)) w).1 = .due tenant c₀ := by
            have hreply : (exec (.ledger (.get r)) w).1 = .ok (some x) := congrArg Except.ok hx
            rw [hreply]
            show Duty.owed tenant x.conversationId = _
            rw [hconv]
            rfl
          exact Or.inr (Or.inl (hnext ▸ next_mem_after hs _ _))

/-- A marker that was just taken is taken still, is due, or has got its record. -/
theorem held_after (hs : ss[i]? = some (s, d)) (hduty : Duty.Allowed r d c) {tenant : TenantId}
    {c₀ : ConversationId} (hheld : Duty.held tenant c₀ ∈ ss.map Prod.snd) :
    Backed r (exec c w).2 ((after r ss i c (exec c w).1).map Prod.snd) tenant c₀ := by
  rcases mem_after hs c (exec c w).1 hheld with hmem | rfl
  · exact Or.inl hmem
  · obtain ⟨record, key, now, rfl, rfl, rfl, hconv, hstatus⟩ := hduty
    rcases exec_create record key now w with ⟨hnot, -⟩ | ⟨x, -, hsign, -, heq⟩
    · have hnext : Duty.next record.responseId (.held record.tenantId c₀)
          (.ledger (.create record key now)) (exec (.ledger (.create record key now)) w).1 =
            .due record.tenantId c₀ := by
        generalize (exec (.ledger (.create record key now)) w).1 = reply at hnot
        rcases reply with e | (x | x | _ | _)
        · rfl
        · exact absurd rfl (hnot x)
        all_goals rfl
      exact Or.inr (Or.inl (hnext ▸ next_mem_after hs _ _))
    · have hx : x = { record with integrity := x.integrity } := MemResponseLedger.sign_spec hsign
      refine Or.inr (Or.inr ⟨x, ?_, by rw [hx], by rw [hx]; exact hconv, Or.inl ?_⟩)
      · rw [heq]
        exact (MemResponseLedger.record_enqueue w.store x key record.responseId).trans
          (if_pos (by rw [hx]))
      · have hqueued : x.status = .queued := by rw [hx]; exact hstatus
        rw [hqueued]
        rfl

theorem call (h : Attended r tr w ss) (hs : ss[i]? = some (s, d)) (hallowed : jobs.allowed s c)
    (hduty : Duty.Allowed r d c) (hreleased : Released ⟨c, (exec c w).1⟩)
    (hkept : ∀ tenant c₀, w.store.Marked tenant c₀ r → w.store.record r ≠ none →
      (exec c w).2.store.record r = none → Duty.due tenant c₀ ∈ ss.map Prod.snd) :
    Attended r (tr ++ [.call i c (exec c w).1]) (exec c w).2 (after r ss i c (exec c w).1) := by
  have hk := h.provenance.keyed
  have hstage : (ss.map Prod.fst)[i]? = some s := by simp [hs]
  -- Whoever takes the marker of `r` has waited for it.
  have hback : ∀ {tenant : TenantId} {c₀ : ConversationId},
      (exec c w).2.store.Marked tenant c₀ r → w.store.Marked tenant c₀ r ∨
        (s = .minted r c₀ ∧ s.next c (exec c w).1 = .admitting r c₀) ∧
          Duty.next r d c (exec c w).1 = .held tenant c₀ := by
    intro tenant c₀ hmarked'
    rcases marked_back hduty.unmarked hk hmarked' with hold | ⟨now, seq, rfl, hreply⟩
    · exact Or.inl hold
    · obtain rfl := waiting_of_acquires hallowed
      obtain rfl := Duty.free_of_engages hduty trivial rfl
      refine Or.inr ⟨⟨rfl, ?_⟩, ?_⟩
      · rw [hreply]
        rfl
      · rw [hreply]
        exact if_pos rfl
  have hmarker : ∀ {c₀ : ConversationId}, (exec c w).2.store.marker c₀ = some r →
      w.store.marker c₀ = some r ∨
        s = .minted r c₀ ∧ s.next c (exec c w).1 = .admitting r c₀ := by
    intro c₀ hc
    obtain ⟨tenant, hmarked'⟩ := MemStore.marked_of_marker hc
    exact (hback hmarked').imp MemStore.Marked.marker And.left
  refine ⟨?_, fun {tenant c₀} hmarked' ↦ ?_, fun {c₀} hc hcompleted ↦ ?_, fun {c₀} hused ↦ ?_,
    fun hrun ↦ ?_⟩
  · exact (Session.map_fst_advance_prod jobs (duties r) Stage.first (fun _ ↦ .free) ss
      (.call i c (exec c w).1)).symm ▸ h.provenance.call hstage hallowed
  · rcases hback hmarked' with hmarked | ⟨-, hheld⟩
    · rcases h.backed hmarked with hheld | hdue | ⟨x, hx, htenant, hconv, hx'⟩
      · exact held_after hs hduty hheld
      · exact Or.inr (Or.inl (h.due_after hs hreleased hdue hmarked hmarked'))
      · exact h.record_after hs hallowed hduty hreleased hmarked hmarked' hx htenant hconv hx'
          (hkept tenant c₀ hmarked (by simp [hx]))
    · exact Or.inl (hheld ▸ next_mem_after hs c (exec c w).1)
  · rcases completed_back hk hcompleted with hold | ⟨-, hnone⟩
    · rcases hmarker hc with hc | ⟨rfl, -⟩
      · exact h.uncompleted hc hold
      · exact (h.used (Or.inr hold)).2 hs rfl
    · rw [hc] at hnone
      cases hnone
  · have hwas : (w.store.marker c₀ = some r ∨ w.store.completed c₀ = some r) ∨
        s = .minted r c₀ ∧ s.next c (exec c w).1 = .admitting r c₀ := by
      rcases hused with hc | hcompleted
      · exact (hmarker hc).imp_left Or.inl
      · exact Or.inl ((completed_back hk hcompleted).elim Or.inr fun hc ↦ Or.inl hc.1)
    rw [minted_call]
    rcases hwas with hwas | ⟨rfl, hnext⟩
    · obtain ⟨hminted, hwait⟩ := h.used hwas
      refine ⟨hminted, fun {j t d'} ht hwaits ↦ ?_⟩
      rw [getElem?_after hs] at ht
      split_ifs at ht
      · obtain ⟨rfl, -⟩ := Prod.mk.inj (Option.some.inj ht)
        exact hwait hs (Stage.waiting_next hwaits)
      · exact hwait ht hwaits
    · refine ⟨(h.provenance.unwritten hstage rfl).1, fun {j t d'} ht hwaits ↦ ?_⟩
      rw [getElem?_after hs] at ht
      split_ifs at ht with hij
      · obtain ⟨rfl, -⟩ := Prod.mk.inj (Option.some.inj ht)
        rw [hnext] at hwaits
        cases hwaits
      · have hstage' : (ss.map Prod.fst)[j]? = some t := by simp [ht]
        exact hij (h.provenance.sole hstage hstage' rfl (Stage.unwritten_of_waiting hwaits))
  · rcases mem_of_after hs hrun with hold | hnext
    · obtain ⟨o, ho, hrest⟩ := h.running hold
      refine ⟨o, ?_, hrest⟩
      rw [filings_call]
      exact List.mem_append_left _ ho
    · rcases Duty.next_running hnext.symm with rfl | ⟨o, ho, hrest⟩
      · obtain ⟨o, ho, hrest⟩ := h.running (List.mem_map_of_mem (f := Prod.snd)
          (List.mem_of_getElem? hs))
        refine ⟨o, ?_, hrest⟩
        rw [filings_call]
        exact List.mem_append_left _ ho
      · refine ⟨o, ?_, hrest⟩
        rw [filings_call]
        exact List.mem_append_left _ (exec_tells hk h.provenance.record ho)

end Attended

/-! ## Runs -/

/-- Executions are started with the conversations at hand, and no release fails. -/
def Working : Event Call Call.Reply Job → Prop
  | .start j => j.Mounted
  | .call _ c reply => Released ⟨c, reply⟩

/-- A record is removed under its marker only when somebody is about to give the marker back. -/
def Discarding (tr : Trace) (q : State) : Event Call Call.Reply Job → Prop
  | .start _ => True
  | .call _ c _ => ∀ r tenant conversation, q.world.store.Marked tenant conversation r →
      q.world.store.record r ≠ none → (exec c q.world).2.store.record r = none →
        Duty.due tenant conversation ∈ (duties r).track (fun _ ↦ Duty.free) tr

structure DiscardStep (tr : Trace) (q : State) (e : Event Call Call.Reply Job) : Prop where
  mint : MintStep tr q e
  working : Working e
  discarding : Discarding tr q e

/-- A store without responses, and without traces of them in its conversations. -/
structure MemStore.Untouched (s : MemStore) : Prop where
  unfiled : s.Unfiled
  marker : ∀ c, s.marker c = none
  completed : ∀ c, s.completed c = none

theorem attended_init (r : ResponseId) {w : World} (hw : w.store.Untouched) :
    Attended r [] w [] where
  provenance :=
    { keyed := hw.unfiled.keyed
      record := fun {r x} hx ↦ by
        rw [hw.unfiled.record r] at hx
        cases hx
      known := fun ho ↦ by cases ho
      unique := fun ho ↦ by cases ho
      unwritten := fun hs ↦ by cases hs
      sole := fun hs ↦ by cases hs
      told := fun he ↦ by cases he
      knows := fun hs ↦ by cases hs }
  backed hmarked := by
    have hc := hmarked.marker
    rw [hw.marker] at hc
    cases hc
  uncompleted {c} hc := by
    rw [hw.marker] at hc
    cases hc
  used {c} hused := by
    rw [hw.marker, hw.completed] at hused
    rcases hused with h | h <;> cases h
  running hrun := by cases hrun

theorem track_duties {r : ResponseId} {tr : Trace} {ss : List (Stage × Duty)}
    (e : Event Call Call.Reply Job)
    (htrack : ss.map Prod.snd = (duties r).track (fun _ ↦ Duty.free) tr) :
    ((keeping r).advance (fun j ↦ (Stage.first j, Duty.free)) ss e).map Prod.snd =
      (duties r).track (fun _ ↦ Duty.free) (tr ++ [e]) :=
  (Session.map_snd_advance_prod jobs (duties r) Stage.first (fun _ ↦ .free) ss e).trans
    ((congrArg (fun ds ↦ (duties r).advance (fun _ ↦ Duty.free) ds e) htrack).trans
      (Session.track_snoc _ _ _ _).symm)

theorem attended_run (r : ResponseId) {w : World} {tr : Trace} {q : State}
    (hw : w.store.Untouched) (h : Run system DiscardStep (Pool.init w) tr q) :
    ∃ ss, Attended r tr q.world ss ∧
      (keeping r).Keeps (fun x _ ↦ x.1.Restful ∧ x.2.Discharged) q ss := by
  have hinv := Run.invariant (keeping r) (fun j ↦ (Stage.first j, Duty.free))
    (fun x _ ↦ x.1.Restful ∧ x.2.Discharged)
    (I := fun tr q ss ↦ Attended r tr q.world ss ∧
      ss.map Prod.snd = (duties r).track (fun _ ↦ Duty.free) tr)
    (fun tr q j hj ↦ (follows_jobs j).prod (duties_job hj.working)) ?_ ?_ ?_
    ⟨attended_init r hw, rfl⟩ h
  · exact ⟨_, hinv.1.1, hinv.2⟩
  · exact fun {tr q ss} c _ ↦ ⟨exec_answers c q.world, exec_answers c q.world⟩
  · intro tr q ss j ⟨hatt, htrack⟩ _ hj
    exact ⟨hatt.start (q := q) hj.mint, track_duties _ htrack⟩
  · intro tr q ss i j c k x ⟨hatt, htrack⟩ _ _ hs hallowed hstep
    obtain ⟨s, d⟩ := x
    exact ⟨hatt.call hs hallowed.1 hallowed.2 hstep.working fun tenant c₀ hmarked hx hnone ↦
      htrack.symm ▸ hstep.discarding r tenant c₀ hmarked hx hnone, track_duties _ htrack⟩

theorem discharged_of_returned {r : ResponseId} {q : State} {ss : List (Stage × Duty)}
    (hkeeps : (keeping r).Keeps (fun x _ ↦ x.1.Restful ∧ x.2.Discharged) q ss)
    (hrest : ∀ i < q.procs.length, q.returned i = true) {d : Duty} (hd : d ∈ ss.map Prod.snd) :
    d.Discharged := by
  obtain ⟨⟨s, _⟩, hmem, rfl⟩ := List.mem_map.mp hd
  obtain ⟨i, hi⟩ := List.mem_iff_getElem?.mp hmem
  obtain ⟨x, hx, hfollows⟩ := hkeeps.proc hi
  have hdone := hrest i (List.getElem?_eq_some_iff.mp hx).1
  obtain ⟨j, prog⟩ := x
  cases prog with
  | ret a => exact hfollows.2
  | call c k => simp [Pool.returned, hx] at hdone
  | stall => simp [Pool.returned, hx] at hdone

/-- At rest, a conversation waits for a response only if its record is there and still open. -/
theorem markers_settled {w : World} {tr : Trace} {q : State} (hw : w.store.Untouched)
    (h : Run system DiscardStep (Pool.init w) tr q)
    (hrest : ∀ i < q.procs.length, q.returned i = true) {c : ConversationId} {r : ResponseId}
    (hmarker : q.world.store.marker c = some r) :
    ∃ x, q.world.store.record r = some x ∧ x.status.isTerminal = false := by
  obtain ⟨ss, hatt, hkeeps⟩ := attended_run r hw h
  obtain ⟨tenant, hmarked⟩ := MemStore.marked_of_marker hmarker
  rcases hatt.backed hmarked with hheld | hdue | ⟨x, hx, -, -, hopen | hseeking⟩
  · exact (discharged_of_returned hkeeps hrest hheld).elim
  · exact (discharged_of_returned hkeeps hrest hdue).elim
  · exact ⟨x, hx, hopen⟩
  · exact (discharged_of_returned hkeeps hrest hseeking).elim

/-! ## A queued turn, and its deletion -/

instance : DecidablePred Job.Mounted
  | .execute rt _ _ => inferInstanceAs (Decidable (rt.conversations = true))
  | .create .. | .heartbeat _ | .cancel .. | .tick .. | .delete .. | .stream .. | .purge _
  | .createConversation .. | .mode _ => .isTrue trivial

instance : DecidablePred Working
  | .start j => inferInstanceAs (Decidable j.Mounted)
  | .call _ c reply => inferInstanceAs (Decidable (Released ⟨c, reply⟩))

/-- Calls that remove no record. -/
def keepsRecords : Event Call Call.Reply Job → Bool
  | .call _ (.ledger (.delete _)) _ | .call _ (.ledger (.deleteByTenant _)) _ => false
  | _ => true

theorem discarding_of_keepsRecords {tr : Trace} {q : State} {e : Event Call Call.Reply Job}
    (h : keepsRecords e = true) : Discarding tr q e := by
  cases e with
  | start j => trivial
  | call i c reply =>
      intro r tenant conversation _ hx hnone
      obtain ⟨x, hx⟩ := Option.ne_none_iff_exists'.mp hx
      rcases record_kept (c := c) hx with ⟨y, hy⟩ | ⟨rfl, -⟩ | ⟨tenant, rfl, -⟩
      · rw [hnone] at hy
        cases hy
      · cases h
      · cases h

theorem Sample.world_untouched : Sample.world.store.Untouched where
  unfiled := world_unfiled
  marker := world_quiescent.marker
  completed _ := rfl

/-- A turn waits to be claimed, and its conversation for it. -/
theorem markers_settled_queued : ∃ tr q, Run system DiscardStep (Pool.init Sample.world) tr q ∧
    q.world.store.marker Sample.talk = some (Sample.id 1) ∧
      ∃ x, q.world.store.record (Sample.id 1) = some x ∧ x.status.isTerminal = false := by
  obtain ⟨tr, q, h, htest⟩ := @Run.exists_of_schedule _ _ _ _ DiscardStep system
    (Pool.init Sample.world)
      (fun tr q e ↦ decide (MintStep tr q e) && decide (Working e) && keepsRecords e)
    (fun _ q ↦ decide (∀ i < q.procs.length, q.returned i = true) &&
      decide (q.world.store.marker Sample.talk = some (Sample.id 1)))
    (fun tr q e he ↦ by
      simp only [Bool.and_eq_true, decide_eq_true_eq] at he
      exact ⟨he.1.1, he.1.2, discarding_of_keepsRecords he.2⟩)
    (Sample.post 1 :: Sample.steps 0 6) (by decide +kernel)
  obtain ⟨hrest, hmarker⟩ := Bool.and_eq_true_iff.mp htest
  have hmarker := of_decide_eq_true hmarker
  exact ⟨tr, q, h, hmarker,
    markers_settled Sample.world_untouched h (of_decide_eq_true hrest) hmarker⟩

/-- No port call fails. -/
def Flawless : Event Call Call.Reply Job → Bool
  | .start j => decide j.Mounted
  | .call _ c reply => c.succeeds reply

/-- A queued response is deleted, and its conversation waits for it for good. -/
theorem deleted_holder : ¬ ∀ (w : World) (tr : Trace) (q : State), w.store.Untouched →
    Run system (fun tr q e ↦ MintStep tr q e ∧ Flawless e = true) (Pool.init w) tr q →
    (∀ i < q.procs.length, q.returned i = true) → ∀ c r, q.world.store.marker c = some r →
      ∃ x, q.world.store.record r = some x ∧ x.status.isTerminal = false := by
  intro hclaim
  obtain ⟨tr, q, h, htest⟩ := @Run.exists_of_schedule _ _ _ _
    (fun tr q e ↦ MintStep tr q e ∧ Flawless e = true) system (Pool.init Sample.world)
    (fun tr q e ↦ decide (MintStep tr q e) && Flawless e)
    (fun _ q ↦ decide (∀ i < q.procs.length, q.returned i = true) &&
      (decide (q.world.store.marker Sample.talk = some (Sample.id 1)) &&
        (q.world.store.record (Sample.id 1)).isNone))
    (fun tr q e he ↦ by
      simp only [Bool.and_eq_true, decide_eq_true_eq] at he
      exact he)
    (Sample.post 1 :: Sample.steps 0 6 ++
      .start (.delete Sample.tenant (Sample.id 1)) :: Sample.steps 1 5) (by decide +kernel)
  obtain ⟨hrest, hleft⟩ := Bool.and_eq_true_iff.mp htest
  obtain ⟨hmarker, hnone⟩ := Bool.and_eq_true_iff.mp hleft
  obtain ⟨x, hx, -⟩ := hclaim _ tr q Sample.world_untouched h (of_decide_eq_true hrest) _ _
    (of_decide_eq_true hmarker)
  rw [hx] at hnone
  cases hnone

end NovaChat
