import NovaChat.Interact.Prog

/-!
# A program amid others

One program runs while its surroundings move the state between its calls.  `env` says which moves
they may make, and a partial run says how far the program has come: what it has exchanged and what
is left of it.
-/

namespace Interact

namespace Prog

variable {Call : Type} {Reply : Call → Type} {α σ : Type}

/-- The partial runs of a program from a state, among moves of its surroundings. -/
inductive Amid (exec : (c : Call) → σ → Reply c × σ) (env : σ → σ → Prop)
    (p : Prog Call Reply α) (s : σ) :
    List (Exchange Call Reply) → Prog Call Reply α → σ → Prop
  | nil : Amid exec env p s [] p s
  | move {xs q t t'} : Amid exec env p s xs q t → env t t' → Amid exec env p s xs q t'
  | call {xs c k t} : Amid exec env p s xs (.call c k) t →
      Amid exec env p s (xs ++ [⟨c, (exec c t).1⟩]) (k (exec c t).1) (exec c t).2

variable {exec : (c : Call) → σ → Reply c × σ} {env : σ → σ → Prop} {p q : Prog Call Reply α}
  {s t : σ} {xs : List (Exchange Call Reply)}

/-- The invariant rule: what holds at the start and survives every move and every call. -/
theorem Amid.invariant {J : List (Exchange Call Reply) → Prog Call Reply α → σ → Prop}
    (hmove : ∀ {xs q t t'}, J xs q t → env t t' → J xs q t')
    (hcall : ∀ {xs c k t}, J xs (.call c k) t →
      J (xs ++ [⟨c, (exec c t).1⟩]) (k (exec c t).1) (exec c t).2)
    (h0 : J [] p s) (h : Amid exec env p s xs q t) : J xs q t := by
  induction h with
  | nil => exact h0
  | move _ he ih => exact hmove ih he
  | call _ ih => exact hcall ih

end Prog

end Interact
