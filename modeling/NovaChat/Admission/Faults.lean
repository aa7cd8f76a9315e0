import NovaChat.Admission.Refusal
import NovaChat.Turn.Exclusion

/-!
# Creates whose calls fail

Any port call inside `create` may fail.  One compensation is shared by all ways out: it gives
the marker back.  A record that was written before the failure stays.
-/

namespace NovaChat

open Interact Prog MemConversationStore

/-! ## Failing calls -/

/-- What each call is answered instead of being carried out, by the number of calls before it. -/
abbrev Plan := ℕ → (c : Call) → Option c.Reply

/-- The calls of a create that may fail, and what they then answer. -/
def Call.Failure : (c : Call) → c.Reply → Prop
  | .ledger (.create ..), r => ∃ e, r = .error e
  | .ledger (.get _), r => ∃ e, r = .error e
  | .eventLog (.append _), r => ∃ e, r = .error e
  | .eventLog (.readAfter ..), r => ∃ e, r = .error e
  | .conversations (.readSnapshot ..), r => ∃ e, r = .error e
  | .conversations (.acquireActive ..), r => ∃ e, r = .error e
  | .conversations (.releaseStaleActive ..), r => ∃ e, r = .error e
  | _, _ => False

/-- The store under a plan of failures: a call that fails has no effect. -/
def faulty (plan : Plan) (c : Call) (s : ℕ × World) : c.Reply × (ℕ × World) :=
  match plan s.1 c with
  | some r => (r, s.1 + 1, s.2)
  | none => ((exec c s.2).1, s.1 + 1, (exec c s.2).2)

theorem faulty_cases {plan : Plan} (hplan : ∀ n c r, plan n c = some r → c.Failure r) (c : Call)
    (s : ℕ × World) :
    (c.Failure (faulty plan c s).1 ∧ (faulty plan c s).2.2 = s.2) ∨
      (faulty plan c s).1 = (exec c s.2).1 ∧ (faulty plan c s).2.2 = (exec c s.2).2 := by
  unfold faulty
  cases hr : plan s.1 c with
  | some r => exact Or.inl ⟨hplan _ _ _ hr, rfl⟩
  | none => exact Or.inr ⟨rfl, rfl⟩

/-! ## What may be left behind -/

/-- The ledger knows nothing of `id`. -/
structure World.Unrecorded (w : World) (id : ResponseId) : Prop where
  record : w.store.record id = none
  queue : id ∉ w.store.inner.queued
  idem : ∀ key, w.store.inner.idem.lookup key ≠ some id

/-- Nothing of `id` is runnable, and no conversation waits for it. -/
structure World.Clean (w : World) (id : ResponseId) : Prop where
  unrecorded : w.Unrecorded id
  marker : ∀ c, w.store.marker c ≠ some id

/-- The last turn a conversation completed. -/
def MemStore.completed (s : MemStore) (c : ConversationId) : Option ResponseId :=
  (s.stream c).lastCompleted.map Prod.fst

/-- An id nobody has used. -/
structure World.Fresh (w : World) (id : ResponseId) : Prop where
  clean : w.Clean id
  completed : ∀ c, w.store.completed c ≠ some id

/-- Where a create stands before its ledger call: nothing is recorded, and the marker, if there
is one to take, is taken. -/
structure Holding (tenant : TenantId) (conversationId : Option ConversationId) (id : ResponseId)
    (w : World) : Prop where
  keyed : w.store.Keyed
  unrecorded : w.Unrecorded id
  completed : ∀ c, w.store.completed c ≠ some id
  marker : ∀ c, w.store.marker c = some id → conversationId = some c ∧
    (owned w.store tenant c).isSome = true

theorem unrecorded_converses {w w' : World} (h : w.Converses w') {id : ResponseId}
    (hw : w.Unrecorded id) : w'.Unrecorded id where
  record := (h.store.record id).trans hw.record
  queue := by rw [h.store.queued]; exact hw.queue
  idem := by rw [h.store.idem]; exact hw.idem

theorem lastCompleted_occupy (s : MemStore) (c c' : ConversationId) (x : Conversation)
    (id : ResponseId) (now : ℕ) : (occupy s c x id now).2.completed c' = s.completed c' := by
  by_cases h : c' = c
  · subst h
    simp [occupy, Inner.pushConversationEvent, Inner.insertConversation, MemStore.completed,
      MemStore.stream, HashMap.lookup_modify]
  · simp [occupy, Inner.pushConversationEvent, Inner.insertConversation, MemStore.completed,
      MemStore.stream, HashMap.lookup_modify, h]

/-- A release by the holder that succeeds clears the marker, unless the turn is recorded as
completed already. -/
theorem releaseActive_ok {s : MemStore} {tenant : TenantId} {c : ConversationId} {x : Conversation}
    {id : ResponseId} {status : ResponseStatus} {now seq : ℕ} (hx : owned s tenant c = some x)
    (hactive : x.activeResponseId = some id) (hcompleted : s.completed c ≠ some id)
    (hok : (releaseActive s tenant c id status now).1 = .ok seq) :
    (releaseActive s tenant c id status now).2 = (vacate s c x id status now).2 := by
  have hfinish : (releaseActive.finish s c id status now x).1 = .ok seq →
      (releaseActive.finish s c id status now x).2 = (vacate s c x id status now).2 := by
    unfold releaseActive.finish
    split
    · exact fun h ↦ by cases h
    · exact fun _ ↦ rfl
  unfold releaseActive at hok ⊢
  split at hok
  · cases hok
  · simp only [hx, hactive, ne_eq, not_true_eq_false, if_false] at hok ⊢
    split at hok
    · next last seq' hlast =>
        have hne : last ≠ id := by
          rintro rfl
          refine hcompleted ?_
          unfold MemStore.completed MemStore.stream
          cases hlook : s.inner.conversationEvents.lookup c with
          | none => simp [hlook] at hlast
          | some stream =>
              have : stream.lastCompleted = some (last, seq') := by simpa [hlook] using hlast
              simp [this]
        simp only [hne, if_false] at hok ⊢
        exact hfinish hok
    · exact hfinish hok

namespace Holding

variable {tenant : TenantId} {conversationId : Option ConversationId} {c : ConversationId}
  {id holder : ResponseId} {w : World}

/-- Taking the marker succeeds and it is held, or fails and nothing has happened. -/
theorem acquire (h : Holding tenant none id w) (now : ℕ) :
    (∃ e, exec (.conversations (.acquireActive tenant c id now)) w = (.error e, w)) ∨
      (∃ seq, (exec (.conversations (.acquireActive tenant c id now)) w).1 = .ok seq) ∧
        Holding tenant (some c) id
          (exec (.conversations (.acquireActive tenant c id now)) w).2 := by
  rcases acquireActive_cases w.store tenant c id now with
    ⟨e, heq, -⟩ | ⟨x, seq, hx, hheld, -⟩ | ⟨x, -, hx, -, -, heq⟩
  · exact Or.inl ⟨e, by simp [exec, execConversations, heq]⟩
  · have hmarker := (marker_of_owned hx).trans hheld
    cases (h.marker c hmarker).1
  · refine Or.inr ⟨⟨_, by simp only [exec, execConversations, heq, World.withStore_fst]; rfl⟩, ?_⟩
    have hid : x.id = c := id_of_owned h.keyed hx
    have hconv := conversation_occupy w.store c x id now
    have hnext : (exec (.conversations (.acquireActive tenant c id now)) w).2 =
        { w with store := (occupy w.store c x id now).2 } := by
      simp only [exec, execConversations, heq, World.withStore_snd]
    refine ⟨exec_keyed _ h.keyed, unrecorded_converses (exec_converses _ w) h.unrecorded, ?_, ?_⟩
    · intro c'
      rw [hnext]
      exact (lastCompleted_occupy w.store c c' x id now).symm ▸ h.completed c'
    · intro c' hc'
      rw [hnext] at hc' ⊢
      by_cases hcc : c' = c
      · subst hcc
        refine ⟨rfl, Option.isSome_iff_exists.mpr ⟨{ x with activeResponseId := some id }, ?_⟩⟩
        refine owned_eq_some.mpr ⟨?_, (owned_eq_some.mp hx).2⟩
        rw [hconv, if_pos hid.symm]
      · have hold : w.store.marker c' = some id := by
          rw [MemStore.marker, hconv, hid, if_neg hcc] at hc'
          exact hc'
        cases (h.marker c' hold).1

/-- Clearing what somebody else left changes nothing about us. -/
theorem steal (h : Holding tenant none id w) :
    Holding tenant none id (exec (.conversations (.releaseStaleActive tenant c holder)) w).2 := by
  refine ⟨exec_keyed _ h.keyed, unrecorded_converses (exec_converses _ w) h.unrecorded, ?_, ?_⟩
  · intro c'
    have hsame :
        (exec (.conversations (.releaseStaleActive tenant c holder)) w).2.store.completed c' =
        w.store.completed c' := by
      rcases releaseStaleActive_cases w.store tenant c holder with ⟨reply, heq⟩ | ⟨x, -, -, -, heq⟩
      · simp only [exec, execConversations, heq, World.withStore_snd]
      · simp only [exec, execConversations, heq, World.withStore_snd]
        rfl
    rw [hsame]
    exact h.completed c'
  · intro c' hc'
    rcases exec_releaseStaleActive h.keyed tenant c holder with heq | ⟨-, hmarker⟩
    · rw [heq] at hc'
      cases (h.marker c' hc').1
    · rw [hmarker] at hc'
      split_ifs at hc'
      cases (h.marker c' hc').1

/-- A release that succeeds leaves nothing behind. -/
theorem release (h : Holding tenant (some c) id w) {status : ResponseStatus} {now seq : ℕ}
    (hok : (exec (.conversations (.releaseActive tenant c id status now)) w).1 = .ok seq) :
    (exec (.conversations (.releaseActive tenant c id status now)) w).2.Clean id := by
  refine ⟨unrecorded_converses (exec_converses _ w) h.unrecorded, fun c' hc' ↦ ?_⟩
  have hback : w.store.marker c' = some id := by
    rcases exec_releaseActive h.keyed tenant c id status now with heq | ⟨-, hmarker⟩
    · rwa [heq] at hc'
    · rw [hmarker] at hc'
      split_ifs at hc'
      exact hc'
  obtain ⟨hcc, howned⟩ := h.marker c' hback
  obtain rfl : c = c' := Option.some.inj hcc
  obtain ⟨x, hx⟩ := Option.isSome_iff_exists.mp howned
  have hactive : x.activeResponseId = some id := (marker_of_owned hx).symm.trans hback
  have hnext : (exec (.conversations (.releaseActive tenant c id status now)) w).2.store =
      (vacate w.store c x id status now).2 :=
    releaseActive_ok hx hactive (h.completed c) hok
  rw [hnext, MemStore.marker, conversation_vacate, if_pos (id_of_owned h.keyed hx).symm] at hc'
  cases hc'

end Holding

/-- A release that was made did not fail. -/
def Released : Exchange Call Call.Reply → Prop
  | ⟨.conversations (.releaseActive ..), r⟩ => r.isOk = true
  | _ => True

/-- An announcement that was made did not fail. -/
def Announced : Exchange Call Call.Reply → Prop
  | ⟨.eventLog (.append _), r⟩ => r.isOk = true
  | _ => True

instance : DecidablePred Released
  | ⟨.conversations (.releaseActive ..), r⟩ => inferInstanceAs (Decidable (r.isOk = true))
  | ⟨.nowMs, _⟩ | ⟨.ledger _, _⟩ | ⟨.eventLog _, _⟩ | ⟨.node _, _⟩ | ⟨.mode _, _⟩ => .isTrue trivial
  | ⟨.conversations (.create _), _⟩ | ⟨.conversations (.get ..), _⟩
  | ⟨.conversations (.updateMetadata ..), _⟩ | ⟨.conversations (.delete ..), _⟩
  | ⟨.conversations (.deleteByTenant _), _⟩ | ⟨.conversations (.list _), _⟩
  | ⟨.conversations (.readSnapshot ..), _⟩ | ⟨.conversations (.appendTurn ..), _⟩
  | ⟨.conversations (.advance ..), _⟩ | ⟨.conversations (.acquireActive ..), _⟩
  | ⟨.conversations (.releaseStaleActive ..), _⟩ | ⟨.conversations (.appendEvent ..), _⟩
  | ⟨.conversations (.readAfter ..), _⟩ => .isTrue trivial

theorem announced_of_conversing {x : Exchange Call Call.Reply} (h : x.call.Conversing) :
    Announced x := by
  obtain ⟨c, r⟩ := x
  rcases h with hc | ⟨call, hcall⟩
  · rcases c with _ | c | c | c | c | c <;> first | trivial | skip
    cases c <;> trivial
  · obtain rfl : c = _ := hcall
    trivial

/-! ## The parts of a create under failures -/

section Faulty

variable {plan : Plan} (hplan : ∀ n c r, plan n c = some r → c.Failure r)
  {tenant : TenantId} {conversationId : Option ConversationId} {c : ConversationId}
  {id : ResponseId} {s s' : ℕ × World}

include hplan

theorem faulty_reads {c : Call} (hc : c.Reads) (s : ℕ × World) :
    (faulty plan c s).2.2 = s.2 := by
  rcases faulty_cases hplan c s with ⟨-, h⟩ | ⟨-, h⟩
  · exact h
  · rw [h, exec_reads hc]

theorem faulty_acquire (h : Holding tenant none id s.2) (now : ℕ) :
    (∃ e, (faulty plan (.conversations (.acquireActive tenant c id now)) s).1 = .error e) ∧
        Holding tenant none id
          (faulty plan (.conversations (.acquireActive tenant c id now)) s).2.2 ∨
      (∃ seq, (faulty plan (.conversations (.acquireActive tenant c id now)) s).1 = .ok seq) ∧
        Holding tenant (some c) id
          (faulty plan (.conversations (.acquireActive tenant c id now)) s).2.2 := by
  rcases faulty_cases hplan (.conversations (.acquireActive tenant c id now)) s with
    ⟨hfail, hw⟩ | ⟨hreply, hw⟩
  · rw [hw]
    exact Or.inl ⟨hfail, h⟩
  · rw [hreply, hw]
    rcases h.acquire (c := c) now with ⟨e, heq⟩ | hheld
    · rw [heq]
      exact Or.inl ⟨⟨e, rfl⟩, h⟩
    · exact Or.inr hheld

theorem faulty_steal (h : Holding tenant none id s.2) (holder : ResponseId) :
    Holding tenant none id
      (faulty plan (.conversations (.releaseStaleActive tenant c holder)) s).2.2 := by
  rcases faulty_cases hplan (.conversations (.releaseStaleActive tenant c holder)) s with
    ⟨-, hw⟩ | ⟨-, hw⟩
  · rw [hw]
    exact h
  · rw [hw]
    exact h.steal

/-- The marker is taken, or the create ends here with nothing left behind. -/
theorem run_acquireFor_faulty (h : Holding tenant none id s.2) {r : Except ServiceError Unit}
    (hrun : (ResponsesService.acquireFor tenant conversationId id).run (faulty plan) s =
      some (r, s')) :
    (r = .ok () ∧ Holding tenant conversationId id s'.2) ∨
      (∃ e, r = .error e) ∧ Holding tenant none id s'.2 := by
  cases conversationId with
  | none =>
      obtain ⟨rfl, rfl⟩ := Prod.mk.inj (Option.some.inj hrun)
      exact Or.inl ⟨rfl, h⟩
  | some c =>
  have hret : ∀ {a : Except ServiceError Unit} {t : ℕ × World},
      (Prog.ret a : Service (Except ServiceError Unit)).run (faulty plan) t = some (r, s') →
      r = a ∧ s' = t := by
    intro a t hat
    obtain ⟨rfl, rfl⟩ := Prod.mk.inj (Option.some.inj hat)
    exact ⟨rfl, rfl⟩
  simp only [ResponsesService.acquireFor, ResponsesService.acquireTurn,
    ConversationsService.acquireActive, nowMs, perform_bind, call_bind, run_call] at hrun
  set s₁ := (faulty plan .nowMs s).2 with hs₁
  have h₁ : Holding tenant none id s₁.2 := by
    rw [hs₁, faulty_reads hplan (c := .nowMs) trivial]
    exact h
  set now := (faulty plan .nowMs s).1
  simp only [Conversations.acquireActive, perform_bind, run_call] at hrun
  have htry := faulty_acquire hplan (c := c) h₁ now
  generalize faulty plan (.conversations (.acquireActive tenant c id now)) s₁ = out at hrun htry
  obtain ⟨reply, s₂⟩ := out
  rcases htry with ⟨⟨e, rfl⟩, h₂⟩ | ⟨⟨seq, rfl⟩, h₂⟩
  swap
  · obtain ⟨rfl, rfl⟩ := hret hrun
    exact Or.inl ⟨rfl, h₂⟩
  cases e with
  | busy holder =>
      simp only [Ledger.get, perform_bind, run_call] at hrun
      set s₃ := (faulty plan (.ledger (.get holder)) s₂).2 with hs₃
      have h₃ : Holding tenant none id s₃.2 := by
        rw [hs₃, faulty_reads hplan (c := .ledger (.get holder)) trivial]
        exact h₂
      split at hrun
      swap
      · obtain ⟨rfl, rfl⟩ := hret hrun
        exact Or.inr ⟨⟨_, rfl⟩, h₃⟩
      simp only [Conversations.releaseStaleActive, perform_bind, run_call] at hrun
      have h₄ := faulty_steal hplan (c := c) h₃ holder
      generalize faulty plan (.conversations (.releaseStaleActive tenant c holder)) s₃ = out
        at hrun h₄
      obtain ⟨reply, s₄⟩ := out
      rcases reply with e | released
      · obtain ⟨rfl, rfl⟩ := hret hrun
        exact Or.inr ⟨⟨_, rfl⟩, h₄⟩
      simp only [run_call] at hrun
      set s₅ := (faulty plan .nowMs s₄).2 with hs₅
      have h₅ : Holding tenant none id s₅.2 := by
        rw [hs₅, faulty_reads hplan (c := .nowMs) trivial]
        exact h₄
      set later := (faulty plan .nowMs s₄).1
      have htry := faulty_acquire hplan (c := c) h₅ later
      generalize faulty plan (.conversations (.acquireActive tenant c id later)) s₅ = out
        at hrun htry
      obtain ⟨reply, s₆⟩ := out
      rcases htry with ⟨⟨e, rfl⟩, h₆⟩ | ⟨⟨seq, rfl⟩, h₆⟩
      · obtain ⟨rfl, rfl⟩ := hret hrun
        exact Or.inr ⟨⟨_, rfl⟩, h₆⟩
      · obtain ⟨rfl, rfl⟩ := hret hrun
        exact Or.inl ⟨rfl, h₆⟩
  | _ =>
      obtain ⟨rfl, rfl⟩ := hret hrun
      exact Or.inr ⟨⟨_, rfl⟩, h₂⟩

/-- The compensation, which does not fail, leaves nothing behind. -/
theorem run_release_faulty (h : Holding tenant conversationId id s.2)
    {outcome out : Except ServiceError CreateOutcome}
    (hrun : (ResponsesService.releaseAfterFailedAdmission tenant conversationId id >>= fun _ ↦
      (.ret outcome : Service _)).run (faulty plan) s = some (out, s'))
    (hrelease : ∀ x ∈ (ResponsesService.releaseAfterFailedAdmission tenant conversationId id >>=
      fun _ ↦ (.ret outcome : Service _)).exchanges (faulty plan) s, Released x) :
    out = outcome ∧ s'.2.Clean id := by
  cases conversationId with
  | none =>
      obtain ⟨rfl, rfl⟩ := Prod.mk.inj (Option.some.inj hrun)
      exact ⟨rfl, h.unrecorded, fun c hc ↦ by cases (h.marker c hc).1⟩
  | some c =>
      set s₁ := (faulty plan .nowMs s).2 with hs₁
      have h₁ : Holding tenant (some c) id s₁.2 := by
        rw [hs₁, faulty_reads hplan (c := .nowMs) trivial]
        exact h
      set call : Call := .conversations
        (.releaseActive tenant c id .failed (faulty plan .nowMs s).1)
      obtain ⟨rfl, rfl⟩ : outcome = out ∧ (faulty plan call s₁).2 = s' :=
        Prod.mk.inj (Option.some.inj hrun)
      refine ⟨rfl, ?_⟩
      have hok : (faulty plan call s₁).1.isOk = true :=
        hrelease ⟨call, (faulty plan call s₁).1⟩ (List.mem_cons_of_mem _ (List.mem_cons_self ..))
      rcases faulty_cases hplan call s₁ with ⟨hfail, -⟩ | ⟨hreply, hw⟩
      · exact hfail.elim
      · rw [hreply] at hok
        rw [hw]
        cases hr : (exec call s₁.2).1 with
        | error e =>
            rw [hr] at hok
            cases hok
        | ok seq => exact h₁.release hr

theorem faulty_record {c : Call} (hc : c.Conversing) {s : ℕ × World}
    (h : s.2.store.record id ≠ none) : (faulty plan c s).2.2.store.record id ≠ none := by
  rcases hc with hc | ⟨call, rfl⟩
  · rwa [faulty_reads hplan hc]
  · rcases faulty_cases hplan (.conversations call) s with ⟨-, hw⟩ | ⟨-, hw⟩
    · rwa [hw]
    · rwa [hw, exec_conversations_record]

/-- The ledger's answer, whether it failed or not: a record is written or nothing happened. -/
theorem faulty_create (record : ResponseRecord) (key : IdempotencyKey) (now : ℕ)
    (s : ℕ × World) :
    ((∀ x, (faulty plan (.ledger (.create record key now)) s).1 ≠ .ok (.accepted x)) ∧
      (faulty plan (.ledger (.create record key now)) s).2.2 = s.2) ∨
    ∃ x, (faulty plan (.ledger (.create record key now)) s).1 = .ok (.accepted x) ∧
      x.responseId = record.responseId ∧
      (faulty plan (.ledger (.create record key now)) s).2.2.store.record record.responseId ≠
        none := by
  rcases faulty_cases hplan (.ledger (.create record key now)) s with ⟨⟨e, he⟩, hw⟩ | ⟨hreply, hw⟩
  · exact Or.inl ⟨fun x ↦ by simp [he], hw⟩
  · rw [hreply, hw]
    rcases exec_create record key now s.2 with hrefused | ⟨x, hx, hsign, -, heq⟩
    · exact Or.inl hrefused
    · have hid : x.responseId = record.responseId := by
        rw [MemResponseLedger.sign_spec hsign]
      refine Or.inr ⟨x, hx, hid, ?_⟩
      rw [heq]
      have hlook := (MemResponseLedger.record_enqueue s.2.store x key record.responseId).trans
        (if_pos hid.symm)
      rw [hlook]
      simp

/-- A failed announcement is the one way out that leaves something behind. -/
theorem run_admitOrRelease_faulty {record : ResponseRecord} {key : IdempotencyKey} {now : ℕ}
    (h : Holding tenant conversationId record.responseId s.2)
    {out : Except ServiceError CreateOutcome}
    (hrun : (ResponsesService.admitOrRelease tenant conversationId record key now).run
      (faulty plan) s = some (out, s'))
    (hrelease : ∀ x ∈
      (ResponsesService.admitOrRelease tenant conversationId record key now).exchanges
      (faulty plan) s, Released x) :
    ((∀ x, out ≠ .ok (.accepted x)) → s'.2.Clean record.responseId) ↔
      ∀ x ∈ (ResponsesService.admitOrRelease tenant conversationId record key now).exchanges
        (faulty plan) s, Announced x := by
  have hsilent : ∀ (outcome : Except ServiceError CreateOutcome) (t : ℕ × World),
      ∀ x ∈
        (ResponsesService.releaseAfterFailedAdmission tenant conversationId record.responseId >>=
        fun _ ↦ (.ret outcome : Service _)).exchanges (faulty plan) t, Announced x := by
    intro outcome t x hx
    exact announced_of_conversing (exchanges_of_onlyCalls
      ((conversing_release tenant conversationId record.responseId).bind
        fun _ ↦ onlyCalls_ret outcome) hx)
  simp only [ResponsesService.admitOrRelease, ResponsesService.admitRecord, Ledger.create,
    perform_bind, call_bind, run_call, exchanges_call] at hrun hrelease ⊢
  simp only [List.forall_mem_cons] at hrelease ⊢
  have hcreate := faulty_create hplan record key now s
  generalize faulty plan (.ledger (.create record key now)) s = out₁ at hrun hrelease hcreate ⊢
  obtain ⟨reply, s₁⟩ := out₁
  have hrefused : ∀ outcome : Except ServiceError CreateOutcome, s₁.2 = s.2 →
      (ResponsesService.releaseAfterFailedAdmission tenant conversationId record.responseId >>=
        fun _ ↦ (.ret outcome : Service _)).run (faulty plan) s₁ = some (out, s') →
      (∀ x ∈
        (ResponsesService.releaseAfterFailedAdmission tenant conversationId record.responseId >>=
        fun _ ↦ (.ret outcome : Service _)).exchanges (faulty plan) s₁, Released x) →
      s'.2.Clean record.responseId := fun outcome hw hrun hrelease ↦
    (run_release_faulty hplan (hw ▸ h) hrun hrelease).2
  rcases hcreate with ⟨hnot, hw⟩ | ⟨x, rfl, hid, hrecord⟩
  · rcases reply with e | (x | x | _ | _)
    · exact iff_of_true (fun _ ↦ hrefused _ hw hrun hrelease.2) ⟨trivial, hsilent _ _⟩
    · exact absurd rfl (hnot x)
    · exact iff_of_true (fun _ ↦ hrefused _ hw hrun hrelease.2) ⟨trivial, hsilent _ _⟩
    · exact iff_of_true (fun _ ↦ hrefused _ hw hrun hrelease.2) ⟨trivial, hsilent _ _⟩
    · exact iff_of_true (fun _ ↦ hrefused _ hw hrun hrelease.2) ⟨trivial, hsilent _ _⟩
  · simp only [EventLog.append, perform_bind, call_bind, run_call, exchanges_call,
      List.forall_mem_cons] at hrun hrelease ⊢
    set event := AppendEvent.lifecycle x.responseId .created (.withoutOutput x) with hevent
    have hstays : (faulty plan (.eventLog (.append event)) s₁).2.2.store.record
        record.responseId ≠ none := by
      rcases faulty_cases hplan (.eventLog (.append event)) s₁ with ⟨-, hw⟩ | ⟨-, hw⟩
      · rwa [hw]
      · rwa [hw, exec_eventLog_store]
    generalize faulty plan (.eventLog (.append event)) s₁ = out₂ at hrun hrelease hstays ⊢
    obtain ⟨reply, s₂⟩ := out₂
    rcases reply with e | seq
    · -- The announcement failed: the marker goes back, and the record stays.
      refine iff_of_false (fun hclean ↦ ?_) fun hann ↦ by cases hann.2.1
      have hback : (ResponsesService.releaseAfterFailedAdmission tenant conversationId
          record.responseId >>= fun _ ↦ (.ret (.error (.eventLog e)) : Service _)).run
            (faulty plan) s₂ = some (out, s') := hrun
      have hkept := run_invariant (J := fun t : ℕ × World ↦
          t.2.store.record record.responseId ≠ none)
        (fun c t hc ht ↦ faulty_record hplan hc ht)
        ((conversing_release tenant conversationId record.responseId).bind
          fun _ ↦ onlyCalls_ret _) hstays hback
      rw [run_bind] at hback
      obtain ⟨⟨⟨⟩, t⟩, -, hret⟩ := Option.bind_eq_some_iff.mp hback
      obtain ⟨rfl, -⟩ := Prod.mk.inj (Option.some.inj hret)
      exact hkept (hclean (by simp)).unrecorded.record
    · obtain ⟨rfl, rfl⟩ : out = .ok (.accepted x) ∧ s' = s₂ := by
        obtain ⟨rfl, rfl⟩ := Prod.mk.inj (Option.some.inj hrun)
        exact ⟨rfl, rfl⟩
      refine iff_of_true (fun hnot ↦ absurd rfl (hnot x)) ⟨trivial, rfl, ?_⟩
      intro y hy
      cases hy

end Faulty

/-- A create, whatever fails in it but the compensation, leaves nothing runnable behind when it
is not accepted, exactly if the announcement of a record it has written does not fail. -/
theorem leaves_nothing_iff {plan : Plan} (hplan : ∀ n c r, plan n c = some r → c.Failure r)
    {n n' : ℕ} {w w' : World} {cfg : Config} {rounds : ℕ} {tenant : TenantId} {spec : TurnSpec}
    {key : Option IdempotencyKey} {uuid : Uuid} {out : Except ServiceError CreateOutcome}
    (hk : w.store.Keyed) (hfresh : w.Fresh ⟨cfg.nodeTag, uuid⟩)
    (hrun : (ResponsesService.create cfg rounds tenant spec key uuid).run (faulty plan) (n, w) =
      some (out, n', w'))
    (hrelease : ∀ x ∈ (ResponsesService.create cfg rounds tenant spec key uuid).exchanges
      (faulty plan) (n, w), Released x) :
    ((∀ x, out ≠ .ok (.accepted x)) → w'.Clean ⟨cfg.nodeTag, uuid⟩) ↔
      ∀ x ∈ (ResponsesService.create cfg rounds tenant spec key uuid).exchanges
        (faulty plan) (n, w), Announced x := by
  set id : ResponseId := ⟨cfg.nodeTag, uuid⟩ with hid
  have hstart : Holding tenant none id w :=
    ⟨hk, hfresh.clean.unrecorded, hfresh.completed, fun c hc ↦ absurd hc (hfresh.clean.marker c)⟩
  have hclean : ∀ {t : ℕ × World}, Holding tenant none id t.2 → t.2.Clean id := fun h ↦
    ⟨h.unrecorded, fun c hc ↦ by cases (h.marker c hc).1⟩
  unfold ResponsesService.create at hrun hrelease ⊢
  simp only [nowMs, perform_bind, run_call, exchanges_call, List.forall_mem_cons] at hrun hrelease ⊢
  set s₁ := (faulty plan .nowMs (n, w)).2 with hs₁
  have h₁ : Holding tenant none id s₁.2 := by
    rw [hs₁, faulty_reads hplan (c := .nowMs) trivial]
    exact hstart
  set now := (faulty plan .nowMs (n, w)).1
  rw [and_iff_right (show Announced ⟨.nowMs, now⟩ from trivial)]
  replace hrelease := hrelease.2
  have hreads := reads_resolveContext cfg rounds tenant spec.anchor
  rw [run_bind] at hrun
  obtain ⟨⟨resolved, s₂⟩, hresolve, hrun⟩ := Option.bind_eq_some_iff.mp hrun
  have hw₂ : s₂.2 = s₁.2 := run_invariant (J := fun t : ℕ × World ↦ t.2 = s₁.2)
    (fun c t hc ht ↦ (faulty_reads hplan hc t).trans ht) hreads rfl hresolve
  have h₂ : Holding tenant none id s₂.2 := hw₂ ▸ h₁
  rw [exchanges_bind_of_eq hresolve] at hrelease ⊢
  simp only [List.forall_mem_append] at hrelease ⊢
  rw [and_iff_right fun x hx ↦
    announced_of_conversing (Or.inl (exchanges_of_onlyCalls hreads hx))]
  replace hrelease := hrelease.2
  rcases resolved with e | resolved
  · obtain ⟨rfl, rfl⟩ := Prod.mk.inj (Option.some.inj hrun)
    exact iff_of_true (fun _ ↦ hclean h₂) fun x hx ↦ by cases hx
  have hconv := conversing_acquireFor tenant spec.anchor.conversationId id
  simp only at hrun hrelease ⊢
  rw [run_bind] at hrun
  obtain ⟨⟨locked, s₃⟩, hlock, hrun⟩ := Option.bind_eq_some_iff.mp hrun
  rw [exchanges_bind_of_eq hlock] at hrelease ⊢
  simp only [List.forall_mem_append] at hrelease ⊢
  rw [and_iff_right fun x hx ↦ announced_of_conversing (exchanges_of_onlyCalls hconv hx)]
  replace hrelease := hrelease.2
  rcases run_acquireFor_faulty hplan h₂ hlock with ⟨rfl, h₃⟩ | ⟨⟨e, rfl⟩, h₃⟩
  · exact run_admitOrRelease_faulty hplan h₃ hrun hrelease
  · obtain ⟨rfl, rfl⟩ := Prod.mk.inj (Option.some.inj hrun)
    exact iff_of_true (fun _ ↦ hclean h₃) fun x hx ↦ by cases hx

/-- A plan in which nothing fails. -/
def smooth : Plan := fun _ _ ↦ none

/-- A plan in which the ledger refuses every record. -/
def Sample.refusing : Plan
  | _, .ledger (.create ..) => some (.error (.store .unavailable))
  | _, _ => none

theorem Sample.world_fresh (r : ResponseId) : world.Fresh r where
  clean :=
    { unrecorded := ⟨rfl, List.not_mem_nil, fun key h ↦ by
        cases (show (none : Option ResponseId) = some r from h)⟩
      marker := fun c h ↦ by
        rw [world_quiescent.marker c] at h
        cases h }
  completed c h := by cases (show (none : Option ResponseId) = some r from h)

/-- With the ledger down the marker goes back and nothing is left. -/
theorem leaves_nothing_refused : ∃ out n' w',
    (ResponsesService.create Sample.cfg 4 Sample.tenant Sample.spec none ⟨1⟩).run
      (faulty Sample.refusing) (0, Sample.world) = some (out, n', w') ∧
    (((∀ x, out ≠ .ok (.accepted x)) → w'.Clean (Sample.id 1)) ↔
      ∀ x ∈ (ResponsesService.create Sample.cfg 4 Sample.tenant Sample.spec none ⟨1⟩).exchanges
        (faulty Sample.refusing) (0, Sample.world), Announced x) := by
  have hplan : ∀ n c r, Sample.refusing n c = some r → c.Failure r := by
    intro n c r h
    unfold Sample.refusing at h
    split at h
    · obtain rfl := Option.some.inj h
      exact ⟨_, rfl⟩
    · cases h
  refine ⟨_, _, _, rfl, leaves_nothing_iff hplan Sample.world_keyed
    (Sample.world_fresh (Sample.id 1)) rfl ?_⟩
  decide +kernel

/-- A world whose event log has room for one response, and has the log of another. -/
def Sample.fullLog : World :=
  (exec (.eventLog (.append (.lifecycle (id 2) .created (.terminalStub (id 2) .queued))))
    { world with log := { maxLogs := 1 } }).2

/-- With the event log full the record stays behind, queued, and the caller is told of a
failure. -/
theorem runnable_leftover : ¬ ∀ (plan : Plan) (n : ℕ) (w : World) (cfg : Config) (rounds : ℕ)
    (tenant : TenantId) (spec : TurnSpec) (key : Option IdempotencyKey) (uuid : Uuid)
    (out : Except ServiceError CreateOutcome) (n' : ℕ) (w' : World),
    (∀ n c r, plan n c = some r → c.Failure r) → w.store.Keyed → w.Fresh ⟨cfg.nodeTag, uuid⟩ →
    (ResponsesService.create cfg rounds tenant spec key uuid).run (faulty plan) (n, w) =
      some (out, n', w') →
    (∀ x ∈ (ResponsesService.create cfg rounds tenant spec key uuid).exchanges
      (faulty plan) (n, w), Released x) →
    (∀ x, out ≠ .ok (.accepted x)) → w'.Clean ⟨cfg.nodeTag, uuid⟩ := by
  intro hclaim
  have hrun : ((ResponsesService.create Sample.cfg 4 Sample.tenant Sample.spec none ⟨1⟩).run
      (faulty smooth) (0, Sample.fullLog)).map (fun out ↦
        (accepted out.1, (out.2.2.store.record (Sample.id 1)).isSome)) = some (false, true) := by
    decide +kernel
  obtain ⟨⟨out, n', w'⟩, hout, hpair⟩ := Option.map_eq_some_iff.mp hrun
  obtain ⟨hrefused, hrecord⟩ := Prod.mk.inj hpair
  have hfresh := Sample.world_fresh (Sample.id 1)
  have hclean := hclaim smooth 0 Sample.fullLog Sample.cfg 4 Sample.tenant Sample.spec none ⟨1⟩
    out n' w' (fun _ _ _ h ↦ by cases h) Sample.world_keyed
    ⟨⟨⟨hfresh.clean.unrecorded.record, hfresh.clean.unrecorded.queue,
      hfresh.clean.unrecorded.idem⟩, hfresh.clean.marker⟩, hfresh.completed⟩ hout
    (by decide +kernel) (by rintro x rfl; cases hrefused)
  have hnone : w'.store.record (Sample.id 1) = none := hclean.unrecorded.record
  rw [hnone] at hrecord
  cases hrecord

end NovaChat
