import NovaChat.Interact.Path

/-!
# Programs that may fail

A program that returns an error ends what it is part of.  What goes well on a path went well in all
its parts, so a statement about the paths that go well is assembled from their parts.
-/

namespace Interact

namespace Prog

variable {Call : Type} {Reply : Call → Type} {α β ε ι : Type}

/-- Go on with the value, or end with the error. -/
def andThen (p : Prog Call Reply (Except ε α)) (f : α → Prog Call Reply (Except ε β)) :
    Prog Call Reply (Except ε β) :=
  p >>= fun
    | .error e => ret (.error e)
    | .ok a => f a

theorem OnlyCalls.andThen {P : Call → Prop} {p : Prog Call Reply (Except ε α)}
    {f : α → Prog Call Reply (Except ε β)} (hp : p.OnlyCalls P) (hf : ∀ a, (f a).OnlyCalls P) :
    (p.andThen f).OnlyCalls P := by
  refine hp.bind fun r ↦ ?_
  cases r with
  | error e => trivial
  | ok a => exact hf a

section Paths

variable {xs : List (Exchange Call Reply)}

theorem path_andThen_ok {p : Prog Call Reply (Except ε α)}
    {f : α → Prog Call Reply (Except ε β)} {b : β} : Path (p.andThen f) xs (.ok b) ↔
      ∃ a ys zs, xs = ys ++ zs ∧ Path p ys (.ok a) ∧ Path (f a) zs (.ok b) := by
  rw [andThen, path_bind]
  constructor
  · rintro ⟨r, ys, zs, rfl, hp, hf⟩
    cases r with
    | error e => cases (path_ret.mp hf).2
    | ok a => exact ⟨a, ys, zs, rfl, hp, hf⟩
  · rintro ⟨a, ys, zs, rfl, hp, hf⟩
    exact ⟨.ok a, ys, zs, rfl, hp, hf⟩

/-- The rule for loops that keep account of what was exchanged. -/
theorem Path.iterate_along {body : ι → Prog Call Reply (ι ⊕ β)}
    (inv : List (Exchange Call Reply) → ι → Prop) (post : List (Exchange Call Reply) → β → Prop)
    (hnext : ∀ ys i zs i', inv ys i → Path (body i) zs (.inl i') → inv (ys ++ zs) i')
    (hlast : ∀ ys i zs b, inv ys i → Path (body i) zs (.inr b) → post (ys ++ zs) b) :
    ∀ (rounds : ℕ) {ys : List (Exchange Call Reply)} {i : ι} {xs : List (Exchange Call Reply)}
      {b : β}, inv ys i → Path (Prog.iterate body rounds i) xs b → post (ys ++ xs) b := by
  intro rounds
  induction rounds with
  | zero => exact fun _ h ↦ (path_stall h).elim
  | succ n ih =>
      intro ys i xs b hi h
      obtain ⟨r, us, vs, rfl, hround, hrest⟩ := path_bind.mp h
      cases r with
      | inl i' =>
          rw [← List.append_assoc]
          exact ih (hnext ys i us i' hi hround) hrest
      | inr b' =>
          obtain ⟨rfl, rfl⟩ := path_ret.mp hrest
          rw [List.append_nil]
          exact hlast ys i us b hi hround

end Paths

/-! ## Results that have a reason -/

/-- On every way to a result in `G` something was told. -/
def Prompted (told : Exchange Call Reply → Prop) (G : α → Prop) : Prog Call Reply α → Prop
  | ret a => ¬ G a
  | call c k => ∀ r, told ⟨c, r⟩ ∨ Prompted told G (k r)
  | stall => True

section Prompted

variable {told : Exchange Call Reply → Prop} {G : α → Prop} {p : Prog Call Reply α}

theorem Prompted.path (h : Prompted told G p) {xs : List (Exchange Call Reply)} {a : α}
    (hpath : Path p xs a) (ha : G a) : ∃ x ∈ xs, told x := by
  induction p generalizing xs with
  | ret b =>
      obtain ⟨-, rfl⟩ := path_ret.mp hpath
      exact absurd ha h
  | call c k ih =>
      obtain ⟨r, ys, rfl, hrest⟩ := path_call.mp hpath
      rcases h r with htold | hr
      · exact ⟨_, List.mem_cons_self, htold⟩
      · obtain ⟨x, hx, htold⟩ := ih r hr hrest
        exact ⟨x, List.mem_cons_of_mem _ hx, htold⟩
  | stall => exact (path_stall hpath).elim

theorem prompted_never (p : Prog Call Reply α) : Prompted told (fun _ ↦ False) p := by
  induction p with
  | ret a => exact id
  | call c k ih => exact fun r ↦ Or.inr (ih r)
  | stall => trivial

/-- A first part that was told nothing hands on a result without a reason. -/
theorem Prompted.bind {H : β → Prop} {f : α → Prog Call Reply β} (hp : Prompted told G p)
    (hf : ∀ a, ¬ G a → Prompted told H (f a)) : Prompted told H (p >>= f) := by
  induction p with
  | ret a => exact hf a hp
  | call c k ih => exact fun r ↦ (hp r).imp_right fun hr ↦ ih r hr
  | stall => trivial

/-- Only an error in `E` needs a reason. -/
def Fails (E : ε → Prop) : Except ε α → Prop
  | .error e => E e
  | .ok _ => False

theorem Prompted.andThen {E : ε → Prop} {p : Prog Call Reply (Except ε α)}
    {f : α → Prog Call Reply (Except ε β)} (hp : Prompted told (Fails E) p)
    (hf : ∀ a, Prompted told (Fails E) (f a)) : Prompted told (Fails E) (p.andThen f) := by
  refine hp.bind fun r hr ↦ ?_
  cases r with
  | error e => exact hr
  | ok a => exact hf a

theorem Prompted.iterate {body : ι → Prog Call Reply (ι ⊕ β)} {H : β → Prop}
    (hbody : ∀ i, Prompted told (Sum.elim (fun _ ↦ False) H) (body i)) :
    ∀ (rounds : ℕ) (i : ι), Prompted told H (Prog.iterate body rounds i) := by
  intro rounds
  induction rounds with
  | zero => exact fun _ ↦ trivial
  | succ n ih =>
      refine fun i ↦ (hbody i).bind fun r hr ↦ ?_
      cases r with
      | inl i' => exact ih i'
      | inr b => exact hr

end Prompted

end Prog

end Interact
