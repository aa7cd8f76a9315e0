import NovaChat.Interact.History
import NovaChat.Stream.Ring
import NovaChat.Stream.Talk

/-!
# Paging through a conversation

The events of a conversation are numbered from zero without a gap, and a reader turns its cursor
into a position among them by one machine addition.  The addition does not saturate, as the one
for response streams does: past the largest word it wraps around in a build without overflow
checks, and panics in a build with them.
-/

namespace NovaChat

open Interact Numbering MemConversationStore

/-! ## The numbers -/

/-- The events of a conversation are numbered by position, and counted by a machine word. -/
structure MemStore.Contiguous (s : MemStore) (c : ConversationId) : Prop where
  numbered : From ConversationEvent.seq 0 (s.stream c).events
  counted : (s.stream c).nextSeq = (s.stream c).events.length
  word : (s.stream c).nextSeq ≤ u64Max

/-- A bound set on the streams is a machine word. -/
def Call.Bounds : Call → Prop
  | .mode (.setMaxEventsPerConversation limit) => limit ≤ u64Max
  | _ => True

theorem contiguous_push {stream : ConversationEventStream} {c : ConversationId}
    {kind : ConversationEventKind} {now bound : ℕ}
    (h : From ConversationEvent.seq 0 stream.events ∧ stream.nextSeq = stream.events.length)
    (hroom : stream.nextSeq < bound) (hbound : bound ≤ u64Max) :
    From ConversationEvent.seq 0 (stream.push c kind now).events ∧
      (stream.push c kind now).nextSeq = (stream.push c kind now).events.length ∧
      (stream.push c kind now).nextSeq ≤ u64Max := by
  simp only [ConversationEventStream.push]
  refine ⟨from_snoc.mpr ⟨h.1, ?_⟩, ?_, by omega⟩
  · rw [h.2, Nat.zero_add]
  · simp [h.2]

theorem contiguous_talkStep {bound : ℕ} {c : ConversationId} {call : Call} {t t' : Talk}
    (h : TalkStep bound c call t t') (hbound : bound ≤ u64Max)
    (ht : From ConversationEvent.seq 0 t.stream.events ∧
      t.stream.nextSeq = t.stream.events.length ∧ t.stream.nextSeq ≤ u64Max) :
    From ConversationEvent.seq 0 t'.stream.events ∧
      t'.stream.nextSeq = t'.stream.events.length ∧ t'.stream.nextSeq ≤ u64Max := by
  cases h with
  | stay => exact ht
  | create => exact ht
  | describe => exact ht
  | advance => exact ht
  | remove => exact ⟨from_nil, rfl, Nat.zero_le _⟩
  | occupy hfree hroom => exact contiguous_push ⟨ht.1, ht.2.1⟩ hroom hbound
  | vacate hheld hroom => exact contiguous_push ⟨ht.1, ht.2.1⟩ hroom hbound
  | takeOver => exact ht
  | note hroom => exact contiguous_push ⟨ht.1, ht.2.1⟩ hroom hbound

/-- After every history each conversation is contiguous. -/
theorem contiguous_of_history {w₀ w : World} {xs : List (Exchange Call Call.Reply)}
    (hempty : w₀.store = {}) (h : History exec (fun _ ↦ Call.Bounds) w₀ xs w)
    (c : ConversationId) : w.store.Contiguous c := by
  have hinv : w.store.Keyed ∧ w.store.maxEventsPerConversation ≤ u64Max ∧ w.store.Contiguous c := by
    refine h.invariant (J := fun _ w ↦ w.store.Keyed ∧
      w.store.maxEventsPerConversation ≤ u64Max ∧ w.store.Contiguous c) ?_ ?_
    · rintro xs t call ⟨hk, hbound, hcont⟩ hcall
      have hnew : (exec call t).2.store.maxEventsPerConversation ≤ u64Max := by
        rw [exec_maxEvents]
        split
        · next limit => exact max_le hcall (by decide)
        · exact hbound
      obtain ⟨h1, h2, h3⟩ := contiguous_talkStep (exec_talkStep call hk c) hbound
        ⟨hcont.numbered, hcont.counted, hcont.word⟩
      exact ⟨exec_keyed call hk, hnew, h1, h2, h3⟩
    · rw [hempty]
      exact ⟨MemStore.keyed_empty, by decide, rfl, rfl, Nat.zero_le _⟩
  exact hinv.2.2

/-! ## Refusals -/

/-- Whether a call that appends to a stream was refused. -/
def refused : (call : ConversationCall) → call.Reply → Bool
  | .acquireActive .., .error _ => true
  | .releaseActive .., .error _ => true
  | .appendEvent .., .error _ => true
  | _, _ => false

/-- A refused append changes nothing. -/
theorem exec_refused {call : ConversationCall} {w : World}
    (h : refused call (exec (.conversations call) w).1 = true) :
    (exec (.conversations call) w).2 = w := by
  cases call with
  | acquireActive tenant id r now =>
      rcases acquireActive_cases w.store tenant id r now with
        ⟨e, heq, -⟩ | ⟨x, seq, -, -, heq⟩ | ⟨x, -, -, -, -, heq⟩ <;>
        simp only [exec, execConversations, heq, World.withStore_fst, World.withStore_snd] at h ⊢
      cases h
  | releaseActive tenant id r status now =>
      rcases releaseActive_cases w.store tenant id r status now with
        ⟨reply, heq⟩ | ⟨x, -, -, -, -, heq⟩ <;>
        simp only [exec, execConversations, heq, World.withStore_fst, World.withStore_snd] at h ⊢
      cases h
  | appendEvent tenant id kind now =>
      simp only [exec, execConversations, World.withStore_fst, World.withStore_snd,
        MemConversationStore.appendEvent] at h ⊢
      cases hguard : guardWritable w.store with
      | error e => rfl
      | ok u =>
          cases hx : owned w.store tenant id with
          | none => rfl
          | some x =>
              cases hcap : ensureEventCapacity w.store id with
              | error e => rfl
              | ok u' =>
                  simp only [hguard, hx, hcap] at h
                  cases h
  | _ => cases h

/-! ## Reading -/

/-- The position a cursor stands for, in a build with or without overflow checks; there is none
where the addition panics. -/
def position (checks : Bool) : Option ℕ → Option ℕ
  | none => some 0
  | some seq => if checks && decide (2 ^ 64 ≤ seq + 1) then none else some ((seq + 1) % 2 ^ 64)

/-- A read in a build with or without overflow checks; there is no reply where it panics. -/
def MemConversationStore.readAfterIn (checks : Bool) (s : MemStore) (tenant : TenantId)
    (id : ConversationId) (startingAfter : Option ℕ) (limit : ℕ) :
    Option (Except ConversationError (List ConversationEvent)) :=
  match guardAvailable s with
  | .error e => some (.error e)
  | .ok () =>
    match owned s tenant id with
    | none => some (.error .notFound)
    | some _ =>
      (position checks startingAfter).map fun start ↦
        .ok ((((s.inner.conversationEvents.lookup id).getD {}).events.drop start).take limit)

/-- Without overflow checks a read is the read of the store. -/
theorem readAfterIn_unchecked (s : MemStore) (tenant : TenantId) (id : ConversationId)
    (cursor : Option ℕ) (limit : ℕ) :
    readAfterIn false s tenant id cursor limit =
      some (MemConversationStore.readAfter s tenant id cursor limit) := by
  unfold readAfterIn MemConversationStore.readAfter
  cases guardAvailable s with
  | error e => rfl
  | ok u =>
      cases owned s tenant id with
      | none => rfl
      | some x => cases cursor <;> rfl

/-- Where a client stands after reading pages of the given sizes, and what they brought. -/
def readPages (checks : Bool) (s : MemStore) (tenant : TenantId) (id : ConversationId) :
    Option ℕ → List ℕ → Option (Except ConversationError (List ConversationEvent))
  | _, [] => some (.ok [])
  | cursor, limit :: limits =>
    match readAfterIn checks s tenant id cursor limit with
    | some (.ok batch) =>
      match readPages checks s tenant id (after ConversationEvent.seq batch cursor) limits with
      | some (.ok rest) => some (.ok (batch ++ rest))
      | stopped => stopped
    | stopped => stopped

section Reading

variable {checks : Bool} {s : MemStore} {tenant : TenantId} {c : ConversationId}
  {cursor : Option ℕ}

theorem readAfterIn_of_owned (havail : guardAvailable s = .ok ())
    (howned : (owned s tenant c).isSome = true) (limit : ℕ) :
    readAfterIn checks s tenant c cursor limit =
      (position checks cursor).map fun start ↦
        .ok (((s.stream c).events.drop start).take limit) := by
  obtain ⟨x, hx⟩ := Option.isSome_iff_exists.mp howned
  unfold readAfterIn
  rw [havail, hx]
  rfl

theorem position_of_ne (hcursor : Word cursor) (hne : cursor ≠ some u64Max) :
    position checks cursor = some (first cursor) := by
  cases cursor with
  | none => rfl
  | some seq =>
      have hle : seq ≤ u64Max := hcursor seq rfl
      have hlt : seq + 1 < 2 ^ 64 := by
        have : seq ≠ u64Max := fun h ↦ hne (congrArg some h)
        have hmax : u64Max = 2 ^ 64 - 1 := rfl
        omega
      simp only [position, Nat.not_le.mpr hlt, decide_false, Bool.and_false, Bool.false_eq_true,
        if_false, Nat.mod_eq_of_lt hlt, first_some]

theorem readAfterIn_of_ne (hcont : s.Contiguous c) (havail : guardAvailable s = .ok ())
    (howned : (owned s tenant c).isSome = true) (hcursor : Word cursor)
    (hne : cursor ≠ some u64Max) (limit : ℕ) :
    readAfterIn checks s tenant c cursor limit =
      some (.ok (page ConversationEvent.seq (s.stream c).events cursor limit)) := by
  rw [readAfterIn_of_owned havail howned, position_of_ne hcursor hne, hcont.numbered.page_eq]
  rfl

theorem readAfterIn_of_max (havail : guardAvailable s = .ok ())
    (howned : (owned s tenant c).isSome = true) (limit : ℕ) :
    readAfterIn checks s tenant c (some u64Max) limit =
      if checks then none else some (.ok ((s.stream c).events.take limit)) := by
  rw [readAfterIn_of_owned havail howned]
  cases checks <;> rfl

theorem page_of_max (hcont : s.Contiguous c) (limit : ℕ) :
    page ConversationEvent.seq (s.stream c).events (some u64Max) limit = [] := by
  rw [hcont.numbered.page_eq, List.drop_of_length_le, List.take_nil]
  have hword := hcont.word
  rw [hcont.counted] at hword
  rw [first_some]
  omega

/-- A reader of a page stands at one of its events, or where it stood. -/
theorem after_page (hcont : s.Contiguous c) (hcursor : Word cursor) (hne : cursor ≠ some u64Max)
    (limit : ℕ) :
    Word (after ConversationEvent.seq
        (page ConversationEvent.seq (s.stream c).events cursor limit) cursor) ∧
      after ConversationEvent.seq
        (page ConversationEvent.seq (s.stream c).events cursor limit) cursor ≠ some u64Max := by
  have hlt : ∀ e ∈ page ConversationEvent.seq (s.stream c).events cursor limit,
      e.seq < u64Max := by
    intro e he
    have hmem : e ∈ (s.stream c).events := List.mem_of_mem_filter (List.mem_of_mem_take he)
    have hnum := hcont.numbered.mem_iff.mp ⟨e, hmem, rfl⟩
    have hword := hcont.word
    rw [hcont.counted] at hword
    omega
  unfold after
  cases hlast : (page ConversationEvent.seq (s.stream c).events cursor limit).getLast? with
  | none => exact ⟨hcursor, hne⟩
  | some e =>
      have he := hlt e (List.mem_of_getLast? hlast)
      refine ⟨fun n hn ↦ ?_, fun h ↦ ?_⟩
      · obtain rfl : e.seq = n := by simpa using hn
        omega
      · obtain h : e.seq = u64Max := by simpa using h
        omega

theorem readPages_eq (hcont : s.Contiguous c) (havail : guardAvailable s = .ok ())
    (howned : (owned s tenant c).isSome = true) (limits : List ℕ) (hcursor : Word cursor)
    (hne : cursor ≠ some u64Max) :
    readPages checks s tenant c cursor limits =
      some (.ok (pages ConversationEvent.seq (s.stream c).events cursor limits)) := by
  induction limits generalizing cursor with
  | nil => rfl
  | cons limit limits ih =>
      obtain ⟨hcursor', hne'⟩ := after_page hcont hcursor hne limit
      simp only [readPages, pages, readAfterIn_of_ne hcont havail howned hcursor hne,
        ih hcursor' hne']

end Reading

/-! ## The contract of a conversation's stream -/

/-- What a conversation's stream promises, apart from what a single read brings: its events are
numbered by position, a refused append changes nothing, and paging from the start brings every
event once. -/
structure Pageable (checks : Bool) (w : World) (c : ConversationId) : Prop where
  numbered : From ConversationEvent.seq 0 (w.store.stream c).events
  refused : ∀ call, refused call (exec (.conversations call) w).1 = true →
    (exec (.conversations call) w).2 = w
  paged : ∀ tenant limits, guardAvailable w.store = .ok () →
    (owned w.store tenant c).isSome = true → (∀ limit ∈ limits, 1 ≤ limit) →
      readPages checks w.store tenant c none limits =
        some (.ok ((w.store.stream c).events.take limits.sum))

/-- After every history a stream keeps its promises, and a read brings exactly the next page
unless it starts from the largest word: then it panics, or, where that goes unchecked, brings
the first page, which is right only if there is none. -/
theorem conversation_read_exact {w₀ w : World} {xs : List (Exchange Call Call.Reply)}
    (hempty : w₀.store = {}) (h : History exec (fun _ ↦ Call.Bounds) w₀ xs w) (checks : Bool)
    (c : ConversationId) :
    Pageable checks w c ∧
      ∀ tenant cursor limit, guardAvailable w.store = .ok () →
        (owned w.store tenant c).isSome = true → Word cursor → 1 ≤ limit →
          (readAfterIn checks w.store tenant c cursor limit =
              some (.ok (page ConversationEvent.seq (w.store.stream c).events cursor limit)) ↔
            cursor ≠ some u64Max ∨ checks = false ∧ (w.store.stream c).events = []) := by
  have hcont := contiguous_of_history hempty h c
  refine ⟨⟨hcont.numbered, fun call ↦ exec_refused, fun tenant limits havail howned _ ↦ ?_⟩,
    fun tenant cursor limit havail howned hcursor hlimit ↦ ?_⟩
  · rw [readPages_eq hcont havail howned limits (fun _ hc ↦ absurd hc (by simp)) (by simp),
      hcont.numbered.pages_eq,
      hcont.numbered.page_eq]
    rfl
  · by_cases hmax : cursor = some u64Max
    · subst hmax
      rw [readAfterIn_of_max havail howned, page_of_max hcont]
      cases checks with
      | true => simp
      | false => simp [List.take_eq_nil_iff, Nat.one_le_iff_ne_zero.mp hlimit]
    · exact iff_of_true (readAfterIn_of_ne hcont havail howned hcursor hmax limit) (Or.inl hmax)

namespace Sample

/-- Announce something on the sample conversation. -/
def say (kind : String) : Call :=
  .conversations (.appendEvent tenant talk (.business kind .null) 0)

/-- A conversation with two events. -/
def spoken : List (Exchange Call Call.Reply) × World :=
  History.answered exec
    [.conversations (.create (.new talk tenant [] 0)), say "first", say "second"]
    [] {}

def isMode : Call → Bool
  | .mode _ => true
  | _ => false

theorem spoken_history : History exec (fun _ ↦ Call.Bounds) {} spoken.1 spoken.2 :=
  @History.of_permitted _ _ _ exec _ _ (fun _ call ↦ !isMode call)
    (fun _ call h ↦ by cases call <;> trivial) _ _ _ .nil (by decide +kernel)

end Sample

/-- A read behind the first of two events brings the second. -/
theorem conversation_read_exact_second :
    readAfterIn true Sample.spoken.2.store Sample.tenant Sample.talk (some 0) 1 =
      some (.ok (page ConversationEvent.seq
        (Sample.spoken.2.store.stream Sample.talk).events (some 0) 1)) :=
  ((conversation_read_exact rfl Sample.spoken_history true Sample.talk).2 Sample.tenant (some 0) 1
    rfl (by decide +kernel) (by intro c hc; cases hc; decide) (Nat.le_refl 1)).mpr
      (Or.inl (by decide))

/-- In neither build does a read behind the largest word bring nothing. -/
theorem read_behind_max : ¬ ∃ checks : Bool, ∀ (xs : List (Exchange Call Call.Reply)) (w : World),
    History exec (fun _ ↦ Call.Bounds) {} xs w → ∀ tenant c cursor limit,
      guardAvailable w.store = .ok () → (owned w.store tenant c).isSome = true → Word cursor →
        1 ≤ limit → readAfterIn checks w.store tenant c cursor limit =
          some (.ok (page ConversationEvent.seq (w.store.stream c).events cursor limit)) := by
  rintro ⟨checks, h⟩
  have hread := h _ _ Sample.spoken_history Sample.tenant Sample.talk (some u64Max) 1 rfl
    (by decide +kernel) (by intro c hc; cases hc; exact Nat.le_refl _) (Nat.le_refl 1)
  cases checks with
  | false =>
      have hlen : ((readAfterIn false Sample.spoken.2.store Sample.tenant Sample.talk (some u64Max)
          1).any fun reply ↦ reply.toOption.any List.isEmpty) = false := by decide +kernel
      have hnil : (page ConversationEvent.seq (Sample.spoken.2.store.stream Sample.talk).events
          (some u64Max) 1).isEmpty = true := by decide +kernel
      rw [hread] at hlen
      simp [Except.toOption, hnil] at hlen
  | true => cases hread

end NovaChat
