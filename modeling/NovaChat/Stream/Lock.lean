import NovaChat.Interact.History
import NovaChat.Stream.Paging
import NovaChat.Turn.Duties

/-!
# The turn lock

A response that holds a conversation can always be told where its turn was announced.  The
position is kept beside the marker, and neither a release nor a takeover clears it; it is right
whenever somebody may ask, because an acquire writes both.

Letting go is less certain.  A release appends an event, so a full stream refuses it, and it takes
the holder's earlier completion for its own.
-/

namespace NovaChat

open Interact MemConversationStore

/-! ## What the lock knows -/

/-- The turn of `r` is announced at `seq`, and the lock knows it. -/
def ConversationEventStream.Announces (stream : ConversationEventStream) (r : ResponseId)
    (seq : ℕ) : Prop :=
  stream.lockSeq = some seq ∧
    ∃ e, stream.events[seq]? = some e ∧ e.seq = seq ∧ e.kind = .turnStarted r

/-- Events are counted, and whoever holds the marker was announced. -/
structure Talk.Locked (t : Talk) : Prop where
  counted : t.stream.events.length = t.stream.nextSeq
  announced : ∀ {x r}, t.conversation = some x → x.activeResponseId = some r →
    ∃ seq, t.stream.Announces r seq

section Push

variable {stream : ConversationEventStream} {c : ConversationId} {kind : ConversationEventKind}
  {now : ℕ}

theorem length_push (h : stream.events.length = stream.nextSeq) :
    (stream.push c kind now).events.length = (stream.push c kind now).nextSeq := by
  simp [ConversationEventStream.push, h]

theorem ConversationEventStream.Announces.push {r : ResponseId} {seq : ℕ}
    (h : stream.Announces r seq) : (stream.push c kind now).Announces r seq := by
  obtain ⟨hlock, e, he, hseq, hkind⟩ := h
  refine ⟨hlock, e, ?_, hseq, hkind⟩
  have hlt : seq < stream.events.length := (List.getElem?_eq_some_iff.mp he).1
  apply (List.getElem?_append_left hlt).trans he

theorem announces_push (h : stream.events.length = stream.nextSeq) (r : ResponseId) :
    { stream.push c (.turnStarted r) now with lockSeq := some stream.nextSeq }.Announces r
      stream.nextSeq := by
  refine ⟨rfl, ⟨c, stream.nextSeq, .turnStarted r, now⟩, ?_, rfl, rfl⟩
  simp [ConversationEventStream.push, ← h]

end Push

/-- Every step keeps the lock informed. -/
theorem locked_talkStep {bound : ℕ} {c : ConversationId} {call : Call} {t t' : Talk}
    (hcall : call.Unmarked) (h : TalkStep bound c call t t') (ht : t.Locked) : t'.Locked := by
  cases h with
  | stay => exact ht
  | @create x hid =>
      constructor
      · exact ht.counted
      · intro y r hy hr
        obtain rfl := Option.some.inj hy
        have hfree : x.activeResponseId = none := hcall
        rw [hfree] at hr
        cases hr
  | describe x =>
      constructor
      · exact ht.counted
      · intro y r hy hr
        obtain rfl := Option.some.inj hy
        exact ht.announced (x := x) rfl hr
  | advance x =>
      constructor
      · exact ht.counted
      · intro y r hy hr
        obtain rfl := Option.some.inj hy
        exact ht.announced (x := x) rfl hr
  | remove =>
      constructor
      · rfl
      · intro y r hy
        cases hy
  | occupy hfree hroom =>
      constructor
      · exact length_push ht.counted
      · intro y r hy hr
        obtain rfl := Option.some.inj hy
        obtain rfl := Option.some.inj hr
        exact ⟨_, announces_push ht.counted _⟩
  | vacate hheld hroom =>
      constructor
      · exact length_push ht.counted
      · intro y r hy hr
        obtain rfl := Option.some.inj hy
        cases hr
  | takeOver hheld =>
      constructor
      · exact ht.counted
      · intro y r hy hr
        obtain rfl := Option.some.inj hy
        cases hr
  | note hroom =>
      constructor
      · exact length_push ht.counted
      · intro y r hy hr
        obtain ⟨seq, hseq⟩ := ht.announced hy hr
        exact ⟨seq, hseq.push⟩

/-- The holder is `r`, and the lock says it was announced at `seq`. -/
def Talk.HeldAt (t : Talk) (r : ResponseId) (seq : ℕ) : Prop :=
  (∃ x, t.conversation = some x ∧ x.activeResponseId = some r) ∧ t.stream.lockSeq = some seq

/-- Only an acquire of a free marker gives a conversation a holder. -/
theorem heldAt_back {bound : ℕ} {c : ConversationId} {call : Call} {t t' : Talk} {r : ResponseId}
    {seq : ℕ} (hcall : call.Unmarked) (h : TalkStep bound c call t t') (ht : t'.HeldAt r seq) :
    t.HeldAt r seq ∨ ∃ tenant now x, call = .conversations (.acquireActive tenant c r now) ∧
      t.conversation = some x ∧ x.activeResponseId = none ∧ t.stream.nextSeq = seq := by
  obtain ⟨⟨y, hy, hr⟩, hseq⟩ := ht
  cases h with
  | stay => exact Or.inl ⟨⟨y, hy, hr⟩, hseq⟩
  | @create x hid =>
      obtain rfl := Option.some.inj hy
      have hfree : x.activeResponseId = none := hcall
      rw [hfree] at hr
      cases hr
  | describe x =>
      obtain rfl := Option.some.inj hy
      exact Or.inl ⟨⟨x, rfl, hr⟩, hseq⟩
  | advance x =>
      obtain rfl := Option.some.inj hy
      exact Or.inl ⟨⟨x, rfl, hr⟩, hseq⟩
  | remove => cases hy
  | @occupy tenant r' now x stream hfree hroom =>
      obtain rfl := Option.some.inj hy
      obtain rfl := Option.some.inj hr
      exact Or.inr ⟨tenant, now, x, rfl, rfl, hfree, Option.some.inj hseq⟩
  | vacate =>
      obtain rfl := Option.some.inj hy
      cases hr
  | takeOver =>
      obtain rfl := Option.some.inj hy
      cases hr
  | note => exact Or.inl ⟨⟨y, hy, hr⟩, hseq⟩

section Acquire

variable {w₀ w : World} {xs : List (Exchange Call Call.Reply)} {tenant : TenantId}
  {c : ConversationId} {r : ResponseId} {now : ℕ}

/-- An acquire that gives a conversation its holder replies with the number of its event. -/
theorem acquire_reply {x : Conversation} {seq : ℕ} (hx : w.store.conversation c = some x)
    (hfree : x.activeResponseId = none)
    (h : ((exec (.conversations (.acquireActive tenant c r now)) w).2.store.talk c).HeldAt r seq) :
    (exec (.conversations (.acquireActive tenant c r now)) w).1 =
      .ok (w.store.stream c).nextSeq := by
  have hsame : (w.store.talk c).HeldAt r seq → False := by
    rintro ⟨⟨y, hy, hr⟩, -⟩
    obtain rfl : x = y := Option.some.inj (hx.symm.trans hy)
    rw [hfree] at hr
    cases hr
  rcases acquireActive_cases w.store tenant c r now with
    ⟨e, heq, -⟩ | ⟨y, seq', -, -, heq⟩ | ⟨y, -, -, -, -, heq⟩ <;>
    simp only [exec, execConversations, heq, World.withStore_fst, World.withStore_snd] at h ⊢
  · exact (hsame h).elim
  · exact (hsame h).elim
  · rfl

/-- After every history the lock is informed, by what an acquire of the holder was told. -/
theorem locked_of_history (hempty : w₀.store.inner = {})
    (h : History exec (fun _ ↦ Call.Unmarked) w₀ xs w) (c : ConversationId) :
    w.store.Keyed ∧ (w.store.talk c).Locked ∧ ∀ r seq, (w.store.talk c).HeldAt r seq →
      ∃ tenant now, ⟨.conversations (.acquireActive tenant c r now), .ok seq⟩ ∈ xs := by
  refine h.invariant (J := fun xs w ↦ w.store.Keyed ∧ (w.store.talk c).Locked ∧
    ∀ r seq, (w.store.talk c).HeldAt r seq →
      ∃ tenant now, ⟨.conversations (.acquireActive tenant c r now), .ok seq⟩ ∈ xs) ?_ ?_
  · rintro xs w call ⟨hk, hlocked, htold⟩ hcall
    have hstep := exec_talkStep call hk c
    refine ⟨exec_keyed call hk, locked_talkStep hcall hstep hlocked, fun r seq hheld ↦ ?_⟩
    rcases heldAt_back hcall hstep hheld with hbefore | ⟨tenant, now, x, rfl, hx, hfree, rfl⟩
    · obtain ⟨tenant, now, hmem⟩ := htold r seq hbefore
      exact ⟨tenant, now, List.mem_append_left _ hmem⟩
    · refine ⟨tenant, now, List.mem_append_right _ ?_⟩
      apply List.mem_singleton.mpr
      rw [acquire_reply hx hfree hheld]
      rfl
  · have hnone : w₀.store.conversation c = none := by simp [MemStore.conversation, hempty]
    refine ⟨⟨fun hx ↦ ?_, fun hx ↦ ?_⟩, ⟨?_, fun hx ↦ ?_⟩, ?_⟩
    · simp [MemStore.record, hempty] at hx
    · simp [MemStore.conversation, hempty] at hx
    · simp [MemStore.talk, MemStore.stream, hempty]
    · cases hnone.symm.trans hx
    · rintro r seq ⟨⟨x, hx, -⟩, -⟩
      cases hnone.symm.trans hx

/-- Whoever holds the marker and acquires it again is told what the lock knows. -/
theorem acquire_again {x : Conversation} {seq : ℕ} (hwritable : guardWritable w.store = .ok ())
    (hx : owned w.store tenant c = some x) (hheld : x.activeResponseId = some r)
    (hseq : (w.store.stream c).lockSeq = some seq) :
    exec (.conversations (.acquireActive tenant c r now)) w = (.ok seq, w) := by
  have hlock : (w.store.inner.conversationEvents.lookup c).bind
      ConversationEventStream.lockSeq = some seq := by
    unfold MemStore.stream at hseq
    cases hstream : w.store.inner.conversationEvents.lookup c with
    | none =>
        rw [hstream] at hseq
        cases hseq
    | some stream =>
        rw [hstream] at hseq
        exact hseq
  have hacquire : acquireActive w.store tenant c r now = (.ok seq, w.store) := by
    simp [acquireActive, hwritable, hx, hheld, hlock]
  simp only [exec, execConversations, hacquire]
  rfl

/-- A refused acquire leaves no trace.  Whoever holds the marker was announced where the lock
says, was told so when it acquired, and is told so again however often it asks. -/
theorem acquireActive_traceless_reentrant (hempty : w₀.store.inner = {})
    (h : History exec (fun _ ↦ Call.Unmarked) w₀ xs w) (c : ConversationId) (r : ResponseId) :
    (∀ tenant now e, (exec (.conversations (.acquireActive tenant c r now)) w).1 = .error e →
      (exec (.conversations (.acquireActive tenant c r now)) w).2 = w) ∧
    (w.store.marker c = some r → ∃ seq, (w.store.stream c).Announces r seq ∧
      (∃ tenant now, ⟨.conversations (.acquireActive tenant c r now), .ok seq⟩ ∈ xs) ∧
      ∀ tenant now, guardWritable w.store = .ok () → (owned w.store tenant c).isSome = true →
        exec (.conversations (.acquireActive tenant c r now)) w = (.ok seq, w)) := by
  constructor
  · intro tenant now e he
    rcases acquireActive_cases w.store tenant c r now with
      ⟨e', heq, -⟩ | ⟨x, seq, -, -, heq⟩ | ⟨x, -, -, -, -, heq⟩ <;>
      simp only [exec, execConversations, heq, World.withStore_fst, World.withStore_snd] at he ⊢
    cases he
  · intro hmarker
    obtain ⟨x, hx, hheld⟩ := Option.bind_eq_some_iff.mp hmarker
    obtain ⟨-, hlocked, htold⟩ := locked_of_history hempty h c
    obtain ⟨seq, hseq⟩ := hlocked.announced hx hheld
    refine ⟨seq, hseq, htold r seq ⟨⟨x, hx, hheld⟩, hseq.1⟩, fun tenant now hwritable howned ↦ ?_⟩
    obtain ⟨y, hy⟩ := Option.isSome_iff_exists.mp howned
    obtain rfl : x = y := Option.some.inj (hx.symm.trans (owned_eq_some.mp hy).1)
    exact acquire_again hwritable hy hheld hseq.1

end Acquire

namespace Sample

def acquire (r : ResponseId) : Call := .conversations (.acquireActive tenant talk r 0)

def release (r : ResponseId) : Call := .conversations (.releaseActive tenant talk r .completed 0)

/-- What some calls make of a new conversation, where streams have the given bound. -/
def locked (bound : ℕ) (calls : List Call) : List (Exchange Call Call.Reply) × World :=
  History.answered exec (.conversations (.create (.new talk tenant [] 0)) :: calls) []
    { store := { maxEventsPerConversation := bound } }

def unmarkedCheck (_ : List (Exchange Call Call.Reply)) : Call → Bool
  | .conversations (.create x) => x.activeResponseId.isNone
  | _ => true

theorem locked_history (bound : ℕ) (calls : List Call)
    (h : History.permitted exec unmarkedCheck
      (.conversations (.create (.new talk tenant [] 0)) :: calls) []
        { store := { maxEventsPerConversation := bound } } = true) :
    History exec (fun _ ↦ Call.Unmarked) { store := { maxEventsPerConversation := bound } }
      (locked bound calls).1 (locked bound calls).2 := by
  refine @History.of_permitted _ _ _ exec _ _ unmarkedCheck (fun _ call hcall ↦ ?_) _ _ _ .nil h
  rcases call with _ | call | call | call | call | call
  all_goals try trivial
  cases call with
  | create x => exact Option.isNone_iff_eq_none.mp hcall
  | _ => trivial

/-- A conversation that `id 1` holds, where something was said before and since. -/
def occupied : List (Exchange Call Call.Reply) × World :=
  locked 10 [say "before", acquire (id 1), say "after"]

theorem occupied_history : History exec (fun _ ↦ Call.Unmarked)
    { store := { maxEventsPerConversation := 10 } } occupied.1 occupied.2 :=
  locked_history 10 _ (by decide +kernel)

end Sample

/-- The holder of a conversation was announced behind what was said before it came, and finds its
place however much is said later. -/
theorem acquireActive_traceless_reentrant_occupied :
    ∃ seq, (Sample.occupied.2.store.stream Sample.talk).Announces (Sample.id 1) seq ∧
      exec (Sample.acquire (Sample.id 1)) Sample.occupied.2 = (.ok seq, Sample.occupied.2) := by
  obtain ⟨seq, hseq, -, hagain⟩ := (acquireActive_traceless_reentrant rfl Sample.occupied_history
    Sample.talk (Sample.id 1)).2 (by decide +kernel)
  exact ⟨seq, hseq, hagain Sample.tenant 0 rfl (by decide +kernel)⟩

/-! ## Letting go -/

/-- A release closes the turn: it clears the marker and appends the event that says so. -/
def Closes (w : World) (tenant : TenantId) (c : ConversationId) (r : ResponseId)
    (status : ResponseStatus) (now : ℕ) : Prop :=
  ∃ seq w', exec (.conversations (.releaseActive tenant c r status now)) w = (.ok seq, w') ∧
    w'.store.marker c = none ∧ (w'.store.stream c).events =
      (w.store.stream c).events ++ [⟨c, seq, .turnCompleted r status, now⟩]

/-- The stream has room, and the last turn to end on it was not this one. -/
def Closable (s : MemStore) (c : ConversationId) (r : ResponseId) : Prop :=
  (s.stream c).events.length < s.maxEventsPerConversation ∧
    ∀ seq, (s.stream c).lastCompleted ≠ some (r, seq)

section Release

variable {w₀ w : World} {xs : List (Exchange Call Call.Reply)} {tenant : TenantId}
  {c : ConversationId} {r : ResponseId} {status : ResponseStatus} {now : ℕ}

theorem lastCompleted_stream (s : MemStore) (c : ConversationId) :
    (s.inner.conversationEvents.lookup c).bind ConversationEventStream.lastCompleted =
      (s.stream c).lastCompleted := by
  unfold MemStore.stream
  cases s.inner.conversationEvents.lookup c <;> rfl

theorem ensureEventCapacity_of_lt {s : MemStore}
    (h : (s.stream c).nextSeq < s.maxEventsPerConversation) : ensureEventCapacity s c = .ok () := by
  unfold ensureEventCapacity
  rw [nextSeq_stream, if_neg (Nat.not_le.mpr h)]

/-- The release of a holder whose turn did not end last. -/
theorem releaseActive_of_other {s : MemStore} {x : Conversation}
    (hwritable : guardWritable s = .ok ()) (hx : owned s tenant c = some x)
    (hheld : x.activeResponseId = some r)
    (hlast : ∀ seq, (s.stream c).lastCompleted ≠ some (r, seq)) :
    releaseActive s tenant c r status now = releaseActive.finish s c r status now x := by
  unfold releaseActive
  simp only [hwritable, hx, hheld, ne_eq, not_true_eq_false, if_false, lastCompleted_stream]
  cases hcompleted : (s.stream c).lastCompleted with
  | none => rfl
  | some entry =>
      obtain ⟨last, seq⟩ := entry
      have hne : last ≠ r := by
        rintro rfl
        exact hlast seq hcompleted
      simp [hne]

theorem releaseActive_of_last {s : MemStore} {x : Conversation} {seq : ℕ}
    (hwritable : guardWritable s = .ok ()) (hx : owned s tenant c = some x)
    (hheld : x.activeResponseId = some r) (hlast : (s.stream c).lastCompleted = some (r, seq)) :
    releaseActive s tenant c r status now = (.ok seq, s) := by
  unfold releaseActive
  simp only [hwritable, hx, hheld, ne_eq, not_true_eq_false, if_false, lastCompleted_stream, hlast,
    if_true]

/-- In every state a history leads to, the holder's release closes its turn exactly if the stream
has room for one more event and the turn that last ended on it was another's. -/
theorem releaseActive_closes_iff (hempty : w₀.store.inner = {})
    (h : History exec (fun _ ↦ Call.Unmarked) w₀ xs w) (hwritable : guardWritable w.store = .ok ())
    (howned : (owned w.store tenant c).isSome = true) (hmarker : w.store.marker c = some r)
    (status : ResponseStatus) (now : ℕ) :
    Closes w tenant c r status now ↔ Closable w.store c r := by
  obtain ⟨hk, hlocked, -⟩ := locked_of_history hempty h c
  obtain ⟨x, hx⟩ := Option.isSome_iff_exists.mp howned
  have hheld : x.activeResponseId = some r := by
    rwa [MemStore.marker, (owned_eq_some.mp hx).1] at hmarker
  have hcount : (w.store.stream c).events.length = (w.store.stream c).nextSeq := hlocked.counted
  unfold Closes Closable
  rw [hcount]
  simp only [exec, execConversations]
  constructor
  · rintro ⟨seq, w', heq, hnone, -⟩
    have hother : ∀ seq, (w.store.stream c).lastCompleted ≠ some (r, seq) := by
      intro seq' hlast
      rw [releaseActive_of_last hwritable hx hheld hlast] at heq
      obtain ⟨-, rfl⟩ := Prod.mk.inj heq
      cases hmarker.symm.trans hnone
    refine ⟨?_, hother⟩
    rw [releaseActive_of_other hwritable hx hheld hother, releaseActive.finish] at heq
    cases hcap : ensureEventCapacity w.store c with
    | error e =>
        simp only [hcap] at heq
        cases heq
    | ok u => exact nextSeq_lt_of_ensureEventCapacity hcap
  · rintro ⟨hroom, hother⟩
    have hid := id_of_owned hk hx
    subst hid
    have htalk := talk_vacate w.store x r status now x.id
    rw [if_pos rfl] at htalk
    refine ⟨(w.store.stream x.id).nextSeq,
      { w with store := (vacate w.store x.id x r status now).2 }, ?_, ?_, ?_⟩
    · rw [releaseActive_of_other hwritable hx hheld hother, releaseActive.finish,
        ensureEventCapacity_of_lt hroom]
      rfl
    · exact congrArg (Option.bind · Conversation.activeResponseId)
        (congrArg Talk.conversation htalk)
    · exact congrArg (fun t ↦ t.stream.events) htalk

end Release

/-- Between what was said before and what is said later, a holder lets go. -/
theorem releaseActive_closes_iff_occupied :
    Closes Sample.occupied.2 Sample.tenant Sample.talk (Sample.id 1) .completed 5 :=
  (releaseActive_closes_iff rfl Sample.occupied_history rfl (by decide +kernel) (by decide +kernel)
    .completed 5).mpr ⟨by decide +kernel, fun seq hlast ↦ by
      have hnone : (Sample.occupied.2.store.stream Sample.talk).lastCompleted.isNone = true := by
        decide +kernel
      rw [hlast] at hnone
      cases hnone⟩

/-- The last place on a stream is taken by something that was said, and the turn that was admitted
before it cannot end. -/
theorem releaseActive_refused : ¬ ∀ (w₀ w : World) (xs : List (Exchange Call Call.Reply)),
    w₀.store.inner = {} → History exec (fun _ ↦ Call.Unmarked) w₀ xs w →
    ∀ tenant c r status now, guardWritable w.store = .ok () →
      (owned w.store tenant c).isSome = true → w.store.marker c = some r →
        Closes w tenant c r status now := by
  intro h
  have hhistory := Sample.locked_history 2 [Sample.acquire (Sample.id 1), Sample.say "late"]
    (by decide +kernel)
  obtain ⟨seq, w', heq, -⟩ := h _ _ _ rfl hhistory Sample.tenant Sample.talk (Sample.id 1)
    .completed 0 rfl (by decide +kernel) (by decide +kernel)
  have hrefused : Except.isOk (releaseActive (Sample.locked 2 [Sample.acquire (Sample.id 1),
      Sample.say "late"]).2.store Sample.tenant Sample.talk (Sample.id 1) .completed 0).1 =
        false := by
    decide +kernel
  have hreply := congrArg Prod.fst heq
  simp only [exec, execConversations, World.withStore_fst] at hreply
  rw [hreply] at hrefused
  cases hrefused

end NovaChat
