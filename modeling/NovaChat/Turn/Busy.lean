import NovaChat.Stream.Talk
import NovaChat.Turn.Provenance

/-!
# The stream tells who is busy

A client knows whose turn is in flight from the events of the conversation alone.  The turn lock
moves the marker and announces it in one step, so the two agree; only a takeover clears the marker
and relies on the end of the turn having been announced by somebody else, which it never is while
the holder is still on the marker.
-/

namespace NovaChat

open Interact MemConversationStore

/-! ## What the events say -/

/-- Whether an event starts or ends a turn. -/
def ConversationEventKind.ofTurn : ConversationEventKind → Bool
  | .turnStarted _ | .turnCompleted _ _ => true
  | _ => false

/-- Turns start and end one after another, and `busy` is the one that has not ended. -/
inductive Alternates : List ConversationEventKind → Option ResponseId → Prop
  | nil : Alternates [] none
  | started {ks} (r : ResponseId) (h : Alternates ks none) :
      Alternates (ks ++ [.turnStarted r]) (some r)
  | completed {ks r} (status : ResponseStatus) (h : Alternates ks (some r)) :
      Alternates (ks ++ [.turnCompleted r status]) none
  | other {ks k busy} (hk : k.ofTurn = false) (h : Alternates ks busy) : Alternates (ks ++ [k]) busy

/-- What was said before the last event. -/
theorem Alternates.snoc {ks : List ConversationEventKind} {k : ConversationEventKind}
    {busy : Option ResponseId} (h : Alternates (ks ++ [k]) busy) :
    (∃ r, k = .turnStarted r ∧ busy = some r ∧ Alternates ks none) ∨
      (∃ r status, k = .turnCompleted r status ∧ busy = none ∧ Alternates ks (some r)) ∨
      k.ofTurn = false ∧ Alternates ks busy := by
  generalize hks : ks ++ [k] = ks' at h
  cases h with
  | nil => simp at hks
  | started r h =>
      obtain ⟨rfl, rfl⟩ : ks = _ ∧ k = _ := by simpa using hks
      exact Or.inl ⟨r, rfl, rfl, h⟩
  | completed status h =>
      obtain ⟨rfl, rfl⟩ : ks = _ ∧ k = _ := by simpa using hks
      exact Or.inr (Or.inl ⟨_, status, rfl, rfl, h⟩)
  | other hk h =>
      obtain ⟨rfl, rfl⟩ : ks = _ ∧ k = _ := by simpa using hks
      exact Or.inr (Or.inr ⟨hk, h⟩)

/-- The events leave no doubt who is busy. -/
theorem Alternates.unique {ks : List ConversationEventKind} {busy busy' : Option ResponseId}
    (h : Alternates ks busy) (h' : Alternates ks busy') : busy = busy' := by
  induction h generalizing busy' with
  | nil =>
      generalize hks : ([] : List ConversationEventKind) = ks at h'
      cases h' with
      | nil => rfl
      | _ => simp at hks
  | started r h ih =>
      rcases h'.snoc with ⟨r', hr, rfl, -⟩ | ⟨r', status, hr, -⟩ | ⟨hk, -⟩
      · exact congrArg some (ConversationEventKind.turnStarted.inj hr)
      · cases hr
      · cases hk
  | completed status h ih =>
      rcases h'.snoc with ⟨r', hr, -⟩ | ⟨r', status', -, rfl, -⟩ | ⟨hk, -⟩
      · cases hr
      · rfl
      · cases hk
  | other hk h ih =>
      rcases h'.snoc with ⟨r', rfl, -⟩ | ⟨r', status', rfl, -⟩ | ⟨-, h'⟩
      · cases hk
      · cases hk
      · exact ih h'

theorem not_alternates_started {r r' : ResponseId} {busy : Option ResponseId} :
    ¬ Alternates [.turnStarted r, .turnStarted r'] busy := by
  intro h
  have hfirst : Alternates [.turnStarted r] (some r) := .started r .nil
  rcases @Alternates.snoc [.turnStarted r] _ _ h with ⟨_, -, -, h⟩ | ⟨_, _, hk, -⟩ | ⟨hk, -⟩
  · cases hfirst.unique h
  · cases hk
  · cases hk

/-- The turn in flight on a conversation. -/
def Talk.busy (t : Talk) : Option ResponseId := t.conversation.bind Conversation.activeResponseId

/-- What has been announced on a conversation. -/
def Talk.said (t : Talk) : List ConversationEventKind :=
  t.stream.events.map ConversationEvent.kind

/-- The marker is what the stream tells, and a conversation that is not there has no stream. -/
structure Talk.Told (t : Talk) : Prop where
  busy : Alternates t.said t.busy
  absent : t.conversation = none → t.said = []

theorem busy_talk (s : MemStore) (c : ConversationId) : (s.talk c).busy = s.marker c := rfl

@[simp] theorem said_push (x : Option Conversation) (stream : ConversationEventStream)
    (c : ConversationId) (kind : ConversationEventKind) (now : ℕ) (lock : Option ℕ)
    (last : Option (ResponseId × ℕ)) :
    Talk.said ⟨x, { stream.push c kind now with lockSeq := lock, lastCompleted := last }⟩ =
      Talk.said ⟨x, stream⟩ ++ [kind] := by
  simp [Talk.said, ConversationEventStream.push]

/-! ## Takeovers -/

/-- A takeover finds its holder still on the marker, and clears it. -/
def World.TakenOver (w : World) (tenant : TenantId) (c : ConversationId) (holder : ResponseId) :
    Prop :=
  guardWritable w.store = .ok () ∧
    (owned w.store tenant c).bind Conversation.activeResponseId = some holder

theorem exec_not_takenOver {w : World} {tenant : TenantId} {c : ConversationId}
    {holder : ResponseId} (h : ¬ w.TakenOver tenant c holder) :
    (exec (.conversations (.releaseStaleActive tenant c holder)) w).2 = w := by
  rcases releaseStaleActive_cases w.store tenant c holder with
    ⟨reply, heq⟩ | ⟨x, hx, hheld, hguard, heq⟩
  · simp only [exec, execConversations, heq, World.withStore_snd]
  · exact absurd ⟨hguard, by rw [hx]; exact hheld⟩ h

/-! ## One step -/

/-- Calls that announce no turn by themselves, and create idle conversations only. -/
def Call.Plain : Call → Prop
  | .conversations (.create x) => x.activeResponseId = none
  | .conversations (.appendEvent _ _ kind _) => kind.ofTurn = false
  | _ => True

/-- A conversation is created under an id that no other has. -/
def AfreshStep (_ : Trace) (q : State) : Event Call Call.Reply Job → Prop
  | .call _ (.conversations (.create x)) _ => q.world.store.conversation x.id = none
  | _ => True

/-- No takeover finds its holder. -/
def Unseized (q : State) : Event Call Call.Reply Job → Prop
  | .call _ (.conversations (.releaseStaleActive tenant c holder)) _ =>
    ¬ q.world.TakenOver tenant c holder
  | _ => True

def AnnouncedStep (tr : Trace) (q : State) (e : Event Call Call.Reply Job) : Prop :=
  AfreshStep tr q e ∧ Unseized q e

/-- Any step but a takeover keeps marker and stream together. -/
theorem told_step {bound : ℕ} {c : ConversationId} {call : Call} {t t' : Talk} (ht : t.Told)
    (h : TalkStep bound c call t t') (hplain : call.Plain)
    (hfresh : ∀ x : Conversation, call = .conversations (.create x) → x.id = c →
      t.conversation = none)
    (hkept : ∀ tenant holder,
      call = .conversations (.releaseStaleActive tenant c holder) → t' = t) :
    t'.Told := by
  cases h with
  | stay => exact ht
  | @create x hid =>
      have hnil : t.said = [] := ht.absent (hfresh x rfl hid)
      have hbusy : Talk.busy ⟨some x, t.stream⟩ = none := hplain
      refine ⟨?_, nofun⟩
      rw [hbusy, show Talk.said ⟨some x, t.stream⟩ = [] from hnil]
      exact .nil
  | describe x stream => exact ⟨ht.busy, nofun⟩
  | advance x stream => exact ⟨ht.busy, nofun⟩
  | remove hcall x stream => exact ⟨.nil, fun _ ↦ rfl⟩
  | occupy hfree hroom =>
      refine ⟨?_, nofun⟩
      rw [said_push]
      refine .started _ ?_
      have hbusy := ht.busy
      rwa [show Talk.busy ⟨some _, _⟩ = none from hfree] at hbusy
  | vacate hheld hroom =>
      refine ⟨?_, nofun⟩
      rw [said_push]
      refine .completed _ ?_
      have hbusy := ht.busy
      rwa [show Talk.busy ⟨some _, _⟩ = some _ from hheld] at hbusy
  | takeOver hheld =>
      rw [hkept _ _ rfl]
      exact ht
  | note hroom =>
      refine ⟨?_, nofun⟩
      rw [said_push]
      exact .other hplain ht.busy

/-- In every run in which no takeover finds its holder, the turn events of every conversation
alternate, and its marker is the turn that has not ended. -/
theorem busy_told {w : World} {tr : Trace} {q : State} (hk : w.store.Keyed)
    (h₀ : ∀ c, (w.store.talk c).Told) (h : Run system AnnouncedStep (Pool.init w) tr q)
    (c : ConversationId) :
    Alternates ((q.world.store.stream c).events.map ConversationEvent.kind)
      (q.world.store.marker c) := by
  have hinv : q.world.store.Keyed ∧ ∀ c, (q.world.store.talk c).Told := by
    refine run_obeys (P := Call.Plain) ?_ ?_
      (I := fun _ q ↦ q.world.store.Keyed ∧ ∀ c, (q.world.store.talk c).Told)
      (fun j hI _ ↦ hI) ?_ ⟨hk, h₀⟩ h
    · rintro s call hcall
      cases hcall with
      | quiet hs hc =>
          rcases call with _ | call | call | call | call | call <;> try trivial
          cases call <;> trivial
      | _ => trivial
    · rintro call hcall
      rcases call with _ | call | call | call | call | call <;> try trivial
      cases call with
      | create x => exact hcall.1
      | appendEvent tenant id kind now =>
          obtain ⟨r, rfl⟩ := hcall
          rfl
      | _ => trivial
    · rintro tr q i j call k ⟨hkq, htold⟩ - hplain hok
      refine ⟨exec_keyed call hkq, fun c ↦ told_step (htold c) (exec_talkStep call hkq c) hplain
        (fun x hx hid ↦ ?_) fun tenant holder hx ↦ ?_⟩
      · subst hx hid
        exact hok.1
      · subst hx
        exact congrArg (fun w : World ↦ w.store.talk c) (exec_not_takenOver hok.2)
  exact (hinv.2 c).busy

/-- A takeover that finds its holder leaves a stream that still tells of it. -/
theorem takeOver_untold {w : World} {tenant : TenantId} {c : ConversationId} {holder : ResponseId}
    (hk : w.store.Keyed) (ht : (w.store.talk c).Told) (hover : w.TakenOver tenant c holder) :
    ¬ ((exec (.conversations (.releaseStaleActive tenant c holder)) w).2.store.talk c).Told := by
  obtain ⟨hguard, hheld⟩ := hover
  obtain ⟨x, hx, hactive⟩ := Option.bind_eq_some_iff.mp hheld
  have hid := id_of_owned hk hx
  have htalk : (exec (.conversations (.releaseStaleActive tenant c holder)) w).2.store.talk c =
      ⟨some { x with activeResponseId := none }, w.store.stream c⟩ := by
    simp only [exec, execConversations, World.withStore_snd, releaseStaleActive, hguard, hx,
      hactive, ne_eq, not_true_eq_false, if_false]
    rw [talk_insert, if_pos hid.symm]
  have hbusy := ht.busy
  rw [busy_talk, marker_of_owned hx, hactive] at hbusy
  intro htold
  have hidle := htold.busy
  rw [htalk] at hidle
  cases hbusy.unique hidle

/-! ## A turn, and a takeover -/

instance (w : World) (tenant : TenantId) (c : ConversationId) (holder : ResponseId) :
    Decidable (w.TakenOver tenant c holder) :=
  inferInstanceAs (Decidable (_ ∧ _))

/-- A check that conversations are created afresh. -/
def afreshCheck (_ : Trace) (q : State) : Event Call Call.Reply Job → Bool
  | .call _ (.conversations (.create x)) _ => (q.world.store.conversation x.id).isNone
  | _ => true

/-- A check that nothing is taken over. -/
def unseizedCheck (q : State) : Event Call Call.Reply Job → Bool
  | .call _ (.conversations (.releaseStaleActive tenant c holder)) _ =>
    !decide (q.world.TakenOver tenant c holder)
  | _ => true

theorem afreshStep_of_check {tr : Trace} {q : State} {e : Event Call Call.Reply Job}
    (h : afreshCheck tr q e = true) : AfreshStep tr q e := by
  cases e with
  | start j => trivial
  | call i c reply =>
      rcases c with _ | c | c | c | c | c <;> try trivial
      cases c <;> first | trivial | simpa [afreshCheck, AfreshStep] using h

theorem unseized_of_check {q : State} {e : Event Call Call.Reply Job}
    (h : unseizedCheck q e = true) : Unseized q e := by
  cases e with
  | start j => trivial
  | call i c reply =>
      rcases c with _ | c | c | c | c | c <;> try trivial
      cases c <;> first | trivial | simpa [unseizedCheck, Unseized] using h

theorem Sample.world_told (c : ConversationId) : (Sample.world.store.talk c).Told := by
  have hstream : Sample.world.store.stream c = {} := rfl
  have hbusy : Sample.world.store.marker c = none := Sample.world_quiescent.marker c
  refine ⟨?_, fun _ ↦ rfl⟩
  rw [busy_talk, hbusy]
  exact .nil

/-- A turn that ran to its end, and what the stream says of it. -/
theorem busy_told_turn : ∃ tr q, Run system AnnouncedStep (Pool.init Sample.world) tr q ∧
    (q.world.store.stream Sample.talk).events.length = 2 ∧
      Alternates ((q.world.store.stream Sample.talk).events.map ConversationEvent.kind)
        (q.world.store.marker Sample.talk) := by
  obtain ⟨tr, q, h, htest⟩ := @Run.exists_of_schedule _ _ _ _ AnnouncedStep system
    (Pool.init Sample.world) (fun tr q e ↦ afreshCheck tr q e && unseizedCheck q e)
    (fun _ q ↦ decide ((q.world.store.stream Sample.talk).events.length = 2))
    (fun tr q e he ↦ by
      obtain ⟨hfresh, hunseized⟩ := Bool.and_eq_true_iff.mp he
      exact ⟨afreshStep_of_check hfresh, unseized_of_check hunseized⟩)
    (Sample.post 1 :: Sample.steps 0 6 ++ Sample.work :: Sample.steps 1 11) (by decide +kernel)
  exact ⟨tr, q, h, of_decide_eq_true htest,
    busy_told Sample.world_keyed Sample.world_told h Sample.talk⟩

namespace Sample

/-- One switch of the store. -/
def switch (c : ModeCall) (pid : ℕ) : List (Action Job) := [.start (.mode c), .turn pid]

/-- A finished turn fails to give its marker back, and the next turn takes it over. -/
def takeover : List (Action Job) :=
  post 1 :: steps 0 6 ++ work :: steps 1 7 ++ switch (.setUnavailable true) 2 ++ steps 1 1 ++
    switch (.setUnavailable false) 3 ++ post 2 :: steps 4 8

end Sample

def Sample.startedTwice : List ConversationEventKind → Bool
  | [.turnStarted _, .turnStarted _] => true
  | _ => false

/-- Two turns have started on the stream, and none has ended. -/
theorem unannounced_end : ¬ ∀ (w : World) (tr : Trace) (q : State), w.store.Keyed →
    (∀ c, (w.store.talk c).Told) → Run system AfreshStep (Pool.init w) tr q → ∀ c,
      Alternates ((q.world.store.stream c).events.map ConversationEvent.kind)
        (q.world.store.marker c) := by
  intro hclaim
  obtain ⟨tr, q, h, htest⟩ := @Run.exists_of_schedule _ _ _ _ AfreshStep system
    (Pool.init Sample.world) afreshCheck
    (fun _ q ↦ Sample.startedTwice
      ((q.world.store.stream Sample.talk).events.map ConversationEvent.kind))
    (fun _ _ _ ↦ afreshStep_of_check) Sample.takeover (by decide +kernel)
  have halt := hclaim _ tr q Sample.world_keyed Sample.world_told h Sample.talk
  generalize (q.world.store.stream Sample.talk).events.map ConversationEvent.kind = ks at halt htest
  unfold Sample.startedTwice at htest
  split at htest
  · exact not_alternates_started halt
  · cases htest

end NovaChat
