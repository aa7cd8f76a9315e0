import NovaChat.Effects

/-!
# What a call does to one conversation

A conversation and its event stream change together.  The turn lock moves the marker and
announces it in one step, except for a takeover, which clears the marker and says nothing; an
event without a marker is appended by a step of its own; a removal takes both away.
-/

namespace NovaChat

open Interact MemConversationStore

/-- A conversation and its event stream. -/
structure Talk where
  conversation : Option Conversation
  stream : ConversationEventStream

def MemStore.talk (s : MemStore) (c : ConversationId) : Talk := ⟨s.conversation c, s.stream c⟩

/-- A stream with one event more. -/
def ConversationEventStream.push (stream : ConversationEventStream) (c : ConversationId)
    (kind : ConversationEventKind) (nowMs : ℕ) : ConversationEventStream :=
  { stream with
    nextSeq := stream.nextSeq + 1
    events := stream.events ++ [⟨c, stream.nextSeq, kind, nowMs⟩] }

/-- How a call may change conversation `c` and its stream, which `bound` bounds. -/
inductive TalkStep (bound : ℕ) (c : ConversationId) : Call → Talk → Talk → Prop
  | stay (call : Call) (t : Talk) : TalkStep bound c call t t
  | create {x : Conversation} (hid : x.id = c) (t : Talk) :
      TalkStep bound c (.conversations (.create x)) t ⟨some x, t.stream⟩
  | describe {tenant : TenantId} {metadata : Metadata} (x : Conversation)
      (stream : ConversationEventStream) :
      TalkStep bound c (.conversations (.updateMetadata tenant c metadata)) ⟨some x, stream⟩
        ⟨some { x with metadata := metadata }, stream⟩
  | advance {tenant : TenantId} {last : ResponseId} (x : Conversation)
      (stream : ConversationEventStream) :
      TalkStep bound c (.conversations (.advance tenant c last)) ⟨some x, stream⟩
        ⟨some { x with lastResponseId := some last }, stream⟩
  | remove {call : Call} (hcall : call.Erases) (x : Conversation)
      (stream : ConversationEventStream) : TalkStep bound c call ⟨some x, stream⟩ ⟨none, {}⟩
  | occupy {tenant : TenantId} {r : ResponseId} {now : ℕ} {x : Conversation}
      {stream : ConversationEventStream} (hfree : x.activeResponseId = none)
      (hroom : stream.nextSeq < bound) :
      TalkStep bound c (.conversations (.acquireActive tenant c r now)) ⟨some x, stream⟩
        ⟨some { x with activeResponseId := some r },
          { stream.push c (.turnStarted r) now with lockSeq := some stream.nextSeq }⟩
  | vacate {tenant : TenantId} {r : ResponseId} {status : ResponseStatus} {now : ℕ}
      {x : Conversation} {stream : ConversationEventStream} (hheld : x.activeResponseId = some r)
      (hroom : stream.nextSeq < bound) :
      TalkStep bound c (.conversations (.releaseActive tenant c r status now)) ⟨some x, stream⟩
        ⟨some { x with activeResponseId := none },
          { stream.push c (.turnCompleted r status) now with
            lastCompleted := some (r, stream.nextSeq) }⟩
  | takeOver {tenant : TenantId} {holder : ResponseId} {x : Conversation}
      {stream : ConversationEventStream} (hheld : x.activeResponseId = some holder) :
      TalkStep bound c (.conversations (.releaseStaleActive tenant c holder)) ⟨some x, stream⟩
        ⟨some { x with activeResponseId := none }, stream⟩
  | note {tenant : TenantId} {kind : ConversationEventKind} {now : ℕ} {x : Conversation}
      {stream : ConversationEventStream} (hroom : stream.nextSeq < bound) :
      TalkStep bound c (.conversations (.appendEvent tenant c kind now)) ⟨some x, stream⟩
        ⟨some x, stream.push c kind now⟩

section Talk

variable {s s' : MemStore} {w : World} {c id : ConversationId} {call : Call}

theorem talk_of_eq (hconversations : s'.inner.conversations = s.inner.conversations)
    (hevents : s'.inner.conversationEvents = s.inner.conversationEvents) (c : ConversationId) :
    s'.talk c = s.talk c := by
  simp only [MemStore.talk, MemStore.conversation, MemStore.stream, hconversations, hevents]

theorem TalkStep.of_eq {bound : ℕ} (h : s'.talk c = s.talk c) :
    TalkStep bound c call (s.talk c) (s'.talk c) := by
  rw [h]
  exact .stay _ _

theorem talk_of_owned {tenant : TenantId} {x : Conversation} (hx : owned s tenant c = some x) :
    s.talk c = ⟨some x, s.stream c⟩ := by
  simp only [MemStore.talk, (owned_eq_some.mp hx).1]

theorem talk_insert (s : MemStore) (x : Conversation) (c : ConversationId) :
    ({ s with inner := s.inner.insertConversation x } : MemStore).talk c =
      if c = x.id then ⟨some x, s.stream c⟩ else s.talk c := by
  simp only [MemStore.talk, conversation_insert]
  split_ifs <;> rfl

theorem talk_occupy (s : MemStore) (x : Conversation) (r : ResponseId) (now : ℕ)
    (c : ConversationId) :
    (occupy s x.id x r now).2.talk c =
      if c = x.id then
        ⟨some { x with activeResponseId := some r },
          { (s.stream c).push c (.turnStarted r) now with lockSeq := some (s.stream c).nextSeq }⟩
      else s.talk c := by
  have hstream : (occupy s x.id x r now).2.stream c =
      if c = x.id then
        { (s.stream c).push c (.turnStarted r) now with lockSeq := some (s.stream c).nextSeq }
      else s.stream c := by
    by_cases h : c = x.id
    · subst h
      simp [MemStore.stream, ConversationEventStream.push, occupy, Inner.pushConversationEvent,
        Inner.insertConversation, HashMap.lookup_modify]
    · simp [MemStore.stream, occupy, Inner.pushConversationEvent, Inner.insertConversation,
        HashMap.lookup_modify, h]
  rw [MemStore.talk, conversation_occupy, hstream]
  split_ifs <;> rfl

theorem talk_vacate (s : MemStore) (x : Conversation) (r : ResponseId) (status : ResponseStatus)
    (now : ℕ) (c : ConversationId) :
    (vacate s x.id x r status now).2.talk c =
      if c = x.id then
        ⟨some { x with activeResponseId := none },
          { (s.stream c).push c (.turnCompleted r status) now with
            lastCompleted := some (r, (s.stream c).nextSeq) }⟩
      else s.talk c := by
  have hstream : (vacate s x.id x r status now).2.stream c =
      if c = x.id then
        { (s.stream c).push c (.turnCompleted r status) now with
          lastCompleted := some (r, (s.stream c).nextSeq) }
      else s.stream c := by
    by_cases h : c = x.id
    · subst h
      simp [MemStore.stream, ConversationEventStream.push, vacate, Inner.pushConversationEvent,
        Inner.insertConversation, HashMap.lookup_modify]
    · simp [MemStore.stream, vacate, Inner.pushConversationEvent, Inner.insertConversation,
        HashMap.lookup_modify, h]
  rw [MemStore.talk, conversation_vacate, hstream]
  split_ifs <;> rfl

theorem talk_push (s : MemStore) (id c : ConversationId) (kind : ConversationEventKind)
    (now : ℕ) :
    ({ s with inner := (s.inner.pushConversationEvent id kind now).2 } : MemStore).talk c =
      if c = id then ⟨s.conversation c, (s.stream c).push c kind now⟩ else s.talk c := by
  by_cases h : c = id
  · subst h
    simp [MemStore.talk, MemStore.stream, MemStore.conversation, ConversationEventStream.push,
      Inner.pushConversationEvent]
  · simp [MemStore.talk, MemStore.stream, MemStore.conversation, Inner.pushConversationEvent, h]

theorem talk_removeConversation (g : Inner) (id c : ConversationId) :
    ({ s with inner := (g.removeConversation id).2 } : MemStore).talk c =
        ({ s with inner := g } : MemStore).talk c ∨
      (∃ x, g.conversations.lookup c = some x) ∧
        ({ s with inner := (g.removeConversation id).2 } : MemStore).talk c = ⟨none, {}⟩ := by
  unfold Inner.removeConversation
  cases hx : g.conversations.lookup id with
  | none => exact Or.inl rfl
  | some x =>
      by_cases h : c = id
      · subst h
        exact Or.inr ⟨⟨x, hx⟩, by simp [MemStore.talk, MemStore.conversation, MemStore.stream]⟩
      · exact Or.inl (by simp [MemStore.talk, MemStore.conversation, MemStore.stream, h])

theorem talk_removeAll (c : ConversationId) : ∀ (ids : List ConversationId) (g : Inner),
    ({ s with inner := (removeAll ids g).2 } : MemStore).talk c =
        ({ s with inner := g } : MemStore).talk c ∨
      (∃ x, g.conversations.lookup c = some x) ∧
        ({ s with inner := (removeAll ids g).2 } : MemStore).talk c = ⟨none, {}⟩ := by
  intro ids
  induction ids with
  | nil => exact fun g ↦ Or.inl rfl
  | cons id ids ih =>
      intro g
      have hgone :
          ({ s with inner := (g.removeConversation id).2 } : MemStore).talk c = ⟨none, {}⟩ →
          ¬ ∃ x, (g.removeConversation id).2.conversations.lookup c = some x := by
        rintro hnone ⟨x, hx⟩
        have hconv := congrArg Talk.conversation hnone
        exact absurd (hx.symm.trans hconv) (by simp)
      rcases talk_removeConversation (s := s) g id c with hsame | ⟨hx, hnone⟩
      · rcases ih (g.removeConversation id).2 with h | ⟨⟨x, hx⟩, h⟩
        · exact Or.inl (h.trans hsame)
        · exact Or.inr ⟨⟨x, lookup_removeAll_conversations c [id] g x hx⟩, h⟩
      · rcases ih (g.removeConversation id).2 with h | ⟨hsome, -⟩
        · exact Or.inr ⟨hx, h.trans hnone⟩
        · exact absurd hsome (hgone hnone)

theorem nextSeq_stream (s : MemStore) (c : ConversationId) :
    ((s.inner.conversationEvents.lookup c).map ConversationEventStream.nextSeq).getD 0 =
      (s.stream c).nextSeq := by
  unfold MemStore.stream
  cases s.inner.conversationEvents.lookup c <;> rfl

theorem nextSeq_lt_of_ensureEventCapacity (h : ensureEventCapacity s c = .ok ()) :
    (s.stream c).nextSeq < s.maxEventsPerConversation := by
  unfold ensureEventCapacity at h
  rw [nextSeq_stream] at h
  split_ifs at h
  omega

theorem talkStep_insert {bound : ℕ} {tenant : TenantId} {x y : Conversation}
    (hx : owned s tenant id = some x) (hx' : x.id = id)
    (hid : y.id = x.id)
    (hstep : TalkStep bound id call ⟨some x, s.stream id⟩ ⟨some y, s.stream id⟩) :
    TalkStep bound c call (s.talk c)
      (({ s with inner := s.inner.insertConversation y } : MemStore).talk c) := by
  rw [talk_insert, hid, hx']
  split_ifs with hc
  · subst hc
    rw [talk_of_owned hx]
    exact hstep
  · exact .stay _ _

/-- Every call of the conversation store moves every conversation by one of these steps. -/
theorem exec_conversations_talkStep (call : ConversationCall) (hk : w.store.Keyed)
    (c : ConversationId) :
    TalkStep w.store.maxEventsPerConversation c (.conversations call) (w.store.talk c)
      ((exec (.conversations call) w).2.store.talk c) := by
  cases call with
  | create x =>
      simp only [exec, execConversations, World.withStore_snd, MemConversationStore.create]
      repeat' split
      · exact .stay _ _
      · exact .stay _ _
      · rw [talk_insert]
        split_ifs with hc
        · exact .create hc.symm _
        · exact .stay _ _
  | updateMetadata tenant id metadata =>
      simp only [exec, execConversations, World.withStore_snd, MemConversationStore.updateMetadata]
      split
      · exact .stay _ _
      · split
        · exact .stay _ _
        · next x hx => exact talkStep_insert hx (id_of_owned hk hx) rfl (.describe x _)
  | advance tenant id last =>
      rcases advance_cases w.store tenant id last with ⟨e, heq⟩ | ⟨x, hx, heq⟩ <;>
        simp only [exec, execConversations, heq, World.withStore_snd]
      · exact .stay _ _
      · exact talkStep_insert hx (id_of_owned hk hx) rfl (.advance x _)
  | delete tenant id =>
      simp only [exec, execConversations, World.withStore_snd, MemConversationStore.delete]
      repeat' split
      · exact .stay _ _
      · exact .stay _ _
      · rcases talk_removeConversation (s := w.store) w.store.inner id c with h | ⟨⟨x, hx⟩, h⟩
        · exact .of_eq h
        · rw [h, show w.store.talk c = ⟨some x, w.store.stream c⟩ from congrArg (Talk.mk · _) hx]
          exact .remove (show Call.Erases (.conversations (.delete tenant id)) from trivial) x _
  | deleteByTenant tenant =>
      simp only [exec, execConversations, World.withStore_snd, MemConversationStore.deleteByTenant]
      split
      · exact .stay _ _
      · rcases talk_removeAll (s := w.store) c _ w.store.inner with h | ⟨⟨x, hx⟩, h⟩
        · exact .of_eq h
        · rw [h, show w.store.talk c = ⟨some x, w.store.stream c⟩ from congrArg (Talk.mk · _) hx]
          exact .remove
            (show Call.Erases (.conversations (.deleteByTenant tenant)) from trivial) x _
  | appendTurn tenant id r commit now =>
      rcases appendTurn_cases w.store tenant id r commit with ⟨e, heq⟩ | ⟨x, index, -, heq⟩ <;>
        (simp only [exec, execConversations, heq]; exact .stay _ _)
  | acquireActive tenant id r now =>
      rcases acquireActive_cases w.store tenant id r now with
        ⟨e, heq, -⟩ | ⟨x, seq, -, -, heq⟩ | ⟨x, -, hx, hfree, hcap, heq⟩ <;>
        simp only [exec, execConversations, heq, World.withStore_snd]
      · exact .stay _ _
      · exact .stay _ _
      · obtain rfl := id_of_owned hk hx
        rw [talk_occupy]
        split_ifs with hc
        · subst hc
          rw [talk_of_owned hx]
          exact .occupy hfree (nextSeq_lt_of_ensureEventCapacity hcap)
        · exact .stay _ _
  | releaseActive tenant id r status now =>
      rcases releaseActive_cases w.store tenant id r status now with
        ⟨reply, heq⟩ | ⟨x, hx, hheld, -, hcap, heq⟩ <;>
        simp only [exec, execConversations, heq, World.withStore_snd]
      · exact .stay _ _
      · obtain rfl := id_of_owned hk hx
        rw [talk_vacate]
        split_ifs with hc
        · subst hc
          rw [talk_of_owned hx]
          exact .vacate hheld (nextSeq_lt_of_ensureEventCapacity hcap)
        · exact .stay _ _
  | releaseStaleActive tenant id holder =>
      rcases releaseStaleActive_cases w.store tenant id holder with
        ⟨reply, heq⟩ | ⟨x, hx, hheld, -, heq⟩ <;>
        simp only [exec, execConversations, heq, World.withStore_snd]
      · exact .stay _ _
      · exact talkStep_insert hx (id_of_owned hk hx) rfl (.takeOver hheld)
  | appendEvent tenant id kind now =>
      simp only [exec, execConversations, World.withStore_snd, MemConversationStore.appendEvent]
      split
      · exact .stay _ _
      · split
        · exact .stay _ _
        · next x hx =>
            split
            · exact .stay _ _
            · next hcap =>
                rw [talk_push]
                split_ifs with hc
                · subst hc
                  rw [talk_of_owned hx, (owned_eq_some.mp hx).1]
                  exact .note (nextSeq_lt_of_ensureEventCapacity hcap)
                · exact .stay _ _
  | get => exact .stay _ _
  | list => exact .stay _ _
  | readSnapshot => exact .stay _ _
  | readAfter => exact .stay _ _

/-- Every call moves every conversation by one of these steps. -/
theorem exec_talkStep (call : Call) (hk : w.store.Keyed) (c : ConversationId) :
    TalkStep w.store.maxEventsPerConversation c call (w.store.talk c)
      ((exec call w).2.store.talk c) := by
  rcases call with _ | call | call | call | call | call
  · exact .stay _ _
  · have h := exec_ledgerOnly call w
    exact .of_eq (talk_of_eq h.conversations h.conversationEvents c)
  · rw [exec_eventLog_store]
    exact .stay _ _
  · exact exec_conversations_talkStep call hk c
  · cases call <;> exact .stay _ _
  · have h := execMode_inner w call
    exact .of_eq (talk_of_eq (congrArg Inner.conversations h)
      (congrArg Inner.conversationEvents h) c)

end Talk

end NovaChat
