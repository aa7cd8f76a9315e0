import NovaChat.Interact.History
import NovaChat.Interact.Local

/-!
# The calls of a run

Whoever makes them, the calls of a run are a history of the shared state.
-/

namespace Interact

variable {Call : Type} {Reply : Call → Type} {σ Job : Type}

def Event.exchange : Event Call Reply Job → Option (Exchange Call Reply)
  | .start _ => none
  | .call _ c r => some ⟨c, r⟩

/-- What was exchanged in a trace, oldest first. -/
def exchanged (tr : List (Event Call Reply Job)) : List (Exchange Call Reply) :=
  tr.filterMap Event.exchange

section Calls

variable (tr : List (Event Call Reply Job))

@[simp] theorem exchanged_nil : exchanged ([] : List (Event Call Reply Job)) = [] := rfl

@[simp] theorem exchanged_start (j : Job) : exchanged (tr ++ [.start j]) = exchanged tr := by
  simp [exchanged, Event.exchange]

@[simp] theorem exchanged_call (i : ℕ) (c : Call) (r : Reply c) :
    exchanged (tr ++ [.call i c r]) = exchanged tr ++ [⟨c, r⟩] := by
  simp [exchanged, Event.exchange]

theorem exchangesOf_sublist (i : ℕ) : (exchangesOf i tr).Sublist (exchanged tr) := by
  induction tr with
  | nil => exact List.Sublist.slnil
  | cons e tr ih =>
      cases e with
      | start j => exact ih
      | call pid c r =>
          by_cases h : pid = i
          · simpa [exchangesOf, exchanged, Event.by, Event.exchange, h] using ih
          · simpa [exchangesOf, exchanged, Event.by, Event.exchange, h] using ih.cons _

end Calls

variable {sys : System Call Reply σ Job}
  {ok : List (Event Call Reply Job) → Pool Call Reply σ Job → Event Call Reply Job → Prop}
  {ok' : List (Exchange Call Reply) → Call → Prop}
  {p q : Pool Call Reply σ Job} {tr : List (Event Call Reply Job)}

theorem Run.history (hok : ∀ tr q i c r, ok tr q (.call i c r) → ok' (exchanged tr) c)
    (h : Run sys ok p tr q) : History sys.exec ok' p.world (exchanged tr) q.world := by
  induction h with
  | nil => exact .nil
  | start _ _ ih =>
      rw [exchanged_start]
      exact ih
  | turn _ _ hstep ih =>
      rw [exchanged_call]
      exact .snoc _ ih (hok _ _ _ _ _ hstep)

end Interact
