import NovaChat.Interact.Path

/-!
# What a program is bound to exchange

Before it returns, a program may be bound to make a certain exchange, whatever it is answered; and
one exchange may lead to another.  Both are relative to what is given of the replies: what a port
promises, or what is known of the store.  A program that has not returned is bound to nothing, so
these are statements about finished work.
-/

namespace Interact

namespace Prog

variable {Call : Type} {Reply : Call → Type} {α β ι : Type}

/-- Every path on which all exchanges are as given has an exchange that meets `goal`. -/
def Ensures (given goal : Exchange Call Reply → Prop) (p : Prog Call Reply α) : Prop :=
  ∀ xs a, Path p xs a → (∀ x ∈ xs, given x) → ∃ y ∈ xs, goal y

/-- On every path on which all exchanges are as given, an exchange that meets `trigger` is
followed by one that meets `goal`. -/
def LeadsTo (given trigger goal : Exchange Call Reply → Prop) (p : Prog Call Reply α) : Prop :=
  ∀ ys x zs a, Path p (ys ++ x :: zs) a → (∀ y ∈ ys ++ x :: zs, given y) → trigger x →
    ∃ z ∈ zs, goal z

variable {given trigger goal : Exchange Call Reply → Prop}

namespace Ensures

theorem call {c : Call} {k : Reply c → Prog Call Reply α}
    (h : ∀ r, given ⟨c, r⟩ → goal ⟨c, r⟩ ∨ Ensures given goal (k r)) :
    Ensures given goal (call c k) := by
  intro xs a hpath hgiven
  obtain ⟨r, ys, rfl, hk⟩ := path_call.mp hpath
  rcases h r (hgiven _ (List.mem_cons_self ..)) with hgoal | hrest
  · exact ⟨_, List.mem_cons_self .., hgoal⟩
  · obtain ⟨y, hy, hgoal⟩ := hrest ys a hk fun x hx ↦ hgiven x (List.mem_cons_of_mem _ hx)
    exact ⟨y, List.mem_cons_of_mem _ hy, hgoal⟩

theorem bind_left {p : Prog Call Reply α} (h : Ensures given goal p)
    (f : α → Prog Call Reply β) : Ensures given goal (p >>= f) := by
  intro xs b hpath hgiven
  obtain ⟨a, us, vs, rfl, hp, -⟩ := path_bind.mp hpath
  obtain ⟨y, hy, hgoal⟩ := h us a hp fun x hx ↦ hgiven x (List.mem_append_left _ hx)
  exact ⟨y, List.mem_append_left _ hy, hgoal⟩

/-- What the second program is bound to, on every value the first can return. -/
theorem bind {p : Prog Call Reply α} {f : α → Prog Call Reply β}
    (h : ∀ us a, Path p us a → (∀ x ∈ us, given x) → Ensures given goal (f a)) :
    Ensures given goal (p >>= f) := by
  intro xs b hpath hgiven
  obtain ⟨a, us, vs, rfl, hp, hf⟩ := path_bind.mp hpath
  obtain ⟨y, hy, hgoal⟩ := h us a hp (fun x hx ↦ hgiven x (List.mem_append_left _ hx)) vs b hf
    fun x hx ↦ hgiven x (List.mem_append_right _ hx)
  exact ⟨y, List.mem_append_right _ hy, hgoal⟩

theorem bind_right {p : Prog Call Reply α} {f : α → Prog Call Reply β}
    (h : ∀ a, Ensures given goal (f a)) : Ensures given goal (p >>= f) :=
  bind fun _ a _ _ ↦ h a

end Ensures

namespace LeadsTo

theorem ret (a : α) : LeadsTo given trigger goal (ret a : Prog Call Reply α) := by
  rintro ys x zs b hpath
  have hnil := (path_ret.mp hpath).1
  simp at hnil

theorem call {c : Call} {k : Reply c → Prog Call Reply α}
    (hgoal : ∀ r, given ⟨c, r⟩ → trigger ⟨c, r⟩ → Ensures given goal (k r))
    (hk : ∀ r, LeadsTo given trigger goal (k r)) :
    LeadsTo given trigger goal (call c k) := by
  intro ys x zs a hpath hgiven htrigger
  obtain ⟨r, us, heq, hrest⟩ := path_call.mp hpath
  rcases ys with - | ⟨y, ys⟩
  · obtain ⟨rfl, rfl⟩ := List.cons.inj heq
    exact hgoal r (hgiven _ (by simp)) htrigger zs a hrest fun x hx ↦ hgiven x (by simp [hx])
  · obtain ⟨rfl, rfl⟩ := List.cons.inj heq
    exact hk r ys x zs a hrest (fun y hy ↦ hgiven y (List.mem_cons_of_mem _ hy)) htrigger

/-- A program none of whose calls triggers anything. -/
theorem of_onlyCalls {p : Prog Call Reply α} (hp : p.OnlyCalls fun c ↦ ∀ r, ¬ trigger ⟨c, r⟩) :
    LeadsTo given trigger goal p := by
  intro ys x zs a hpath _ htrigger
  exact absurd htrigger (hpath.onlyCalls hp (x := x) (by simp) x.reply)

/-- What follows within a program also follows when its result is replaced. -/
theorem map {p : Prog Call Reply α} (h : LeadsTo given trigger goal p) (g : α → β) :
    LeadsTo given trigger goal (p >>= fun a ↦ Prog.ret (g a)) := by
  intro ys x zs b hpath hgiven htrigger
  obtain ⟨a, us, vs, heq, hp, hret⟩ := path_bind.mp hpath
  obtain ⟨rfl, -⟩ := path_ret.mp hret
  rw [List.append_nil] at heq
  subst heq
  exact h ys x zs a hp hgiven htrigger

end LeadsTo

end Prog

end Interact
