import NovaChat.Stream.Talk
import NovaChat.Turn.Funnel

/-!
# Snapshots record the turns that were archived

A conversation that is there has, for its snapshot, the turns archived under its id, one after
another.  A snapshot goes with its conversation; nothing is left of it when the id is never used
again.
-/

namespace NovaChat

open Interact MemConversationStore

/-- A conversation is created under an id that no turn was archived under. -/
def UnusedStep (tr : Trace) (_ : State) : Event Call Call.Reply Job → Prop
  | .call _ (.conversations (.create x)) _ => history x.id tr = []
  | _ => True

/-- A conversation that is there after a call was there before, or has been created. -/
theorem conversation_back {w : World} {c : ConversationId} {call : Call} (hk : w.store.Keyed)
    {y : Conversation}
    (hy : (exec call w).2.store.conversation c = some y) :
    (∃ x, w.store.conversation c = some x ∧ (y.lastResponseId = x.lastResponseId ∨
        ∃ tenant r, call = .conversations (.advance tenant c r) ∧ y.lastResponseId = some r)) ∨
      call = .conversations (.create y) ∧ y.id = c := by
  have hstep := exec_talkStep call hk c
  generalize ht : w.store.talk c = t at hstep
  generalize ht' : (exec call w).2.store.talk c = t' at hstep
  have hx : t.conversation = w.store.conversation c := by rw [← ht]; rfl
  have hy : t'.conversation = some y := by rw [← ht']; exact hy
  cases hstep with
  | stay => exact Or.inl ⟨y, hx.symm.trans hy, Or.inl rfl⟩
  | create hid =>
      obtain rfl := Option.some.inj hy
      exact Or.inr ⟨rfl, hid⟩
  | advance x stream =>
      obtain rfl := Option.some.inj hy
      exact Or.inl ⟨x, hx.symm, Or.inr ⟨_, _, rfl, rfl⟩⟩
  | remove => cases hy
  | describe x stream =>
      obtain rfl := Option.some.inj hy
      exact Or.inl ⟨x, hx.symm, Or.inl rfl⟩
  | _ =>
      obtain rfl := Option.some.inj hy
      exact Or.inl ⟨_, hx.symm, Or.inl rfl⟩

/-- The snapshot of a conversation that is there, or under whose id no turn was archived, is what
was archived under it. -/
structure Recorded (tr : Trace) (s : MemStore) : Prop where
  keyed : s.Keyed
  replayed : ∀ {c}, (s.conversation c).isSome = true ∨ history c tr = [] →
    s.snapshot c = ({} : Snapshot).replay (history c tr)

theorem Recorded.step {tr : Trace} {w : World} {call : Call} (h : Recorded tr w.store) (i : ℕ)
    (hfresh : ∀ x, call = .conversations (.create x) → history x.id tr = []) :
    Recorded (tr ++ [.call i call (exec call w).1]) (exec call w).2.store := by
  refine ⟨exec_keyed call h.keyed, fun {c} hthere ↦ ?_⟩
  -- Where the snapshot was replayed from before, and what the call adds to it.
  have hbefore : (w.store.conversation c).isSome = true ∨ history c tr = [] := by
    rcases hthere with hsome | hnil
    · obtain ⟨y, hy⟩ := Option.isSome_iff_exists.mp hsome
      rcases conversation_back h.keyed hy with ⟨x, hx, -⟩ | ⟨rfl, rfl⟩
      · exact Or.inl (by rw [hx]; rfl)
      · exact Or.inr (hfresh y rfl)
    · rw [history_call] at hnil
      exact Or.inr (List.append_eq_nil_iff.mp hnil).1
  have hreplayed := h.replayed hbefore
  rw [history_call, Snapshot.replay_append, ← hreplayed]
  by_cases herases : call.Erases
  · have hadds := herases.adds c (exec call w).1
    rw [hadds]
    rcases exec_snapshot_cases call w c with ⟨_, _, _, _, rfl⟩ | hsame | ⟨hgone, hnone⟩
    · exact herases.elim
    · exact hsame
    · rw [history_call, hadds, hnone] at hthere
      have hnil : history c tr = [] := by simpa using hthere
      rw [hgone, hreplayed, hnil]
      rfl
  · exact exec_snapshot herases w c

theorem recorded_run {ok : Trace → State → Event Call Call.Reply Job → Prop}
    (hok : ∀ tr q e, ok tr q e → UnusedStep tr q e) {w : World} {tr : Trace} {q : State}
    (hk : w.store.Keyed) (hblank : ∀ c, w.store.snapshot c = {})
    (h : Run system ok (Pool.init w) tr q) : Recorded tr q.world.store := by
  induction h with
  | nil => exact ⟨hk, fun {c} _ ↦ hblank c⟩
  | @start tr q j _ _ ih =>
      refine ⟨ih.keyed, fun {c} hthere ↦ ?_⟩
      rw [history_start] at hthere ⊢
      exact ih.replayed hthere
  | @turn tr q i j call k hrun hi hstep ih =>
      refine ih.step i fun x hx ↦ ?_
      subst hx
      exact hok _ _ _ hstep

/-- A check that conversations are created under unused ids. -/
def unusedCheck (tr : Trace) : Event Call Call.Reply Job → Bool
  | .call _ (.conversations (.create x)) _ => (history x.id tr).isEmpty
  | _ => true

theorem unusedStep_of_check {tr : Trace} {q : State} {e : Event Call Call.Reply Job}
    (h : unusedCheck tr e = true) : UnusedStep tr q e := by
  cases e with
  | start j => trivial
  | call i c reply =>
      rcases c with _ | c | c | c | c | c <;> try trivial
      cases c <;> first | trivial | exact List.isEmpty_iff.mp h

end NovaChat
