import NovaChat.Interact.Prog

/-!
# Histories

A history is what a state has answered so far, one exchange after another, whoever asked.
`ok` says which call may come next, given the exchanges made before it.
-/

namespace Interact

variable {Call : Type} {Reply : Call → Type} {σ : Type}

/-- The exchanges made from `s`, oldest first, and the state they lead to. -/
inductive History (exec : (c : Call) → σ → Reply c × σ)
    (ok : List (Exchange Call Reply) → Call → Prop) (s : σ) :
    List (Exchange Call Reply) → σ → Prop
  | nil : History exec ok s [] s
  | snoc {xs t} (c : Call) : History exec ok s xs t → ok xs c →
      History exec ok s (xs ++ [⟨c, (exec c t).1⟩]) (exec c t).2

namespace History

variable {exec : (c : Call) → σ → Reply c × σ} {ok : List (Exchange Call Reply) → Call → Prop}
  {s t u : σ} {xs ys : List (Exchange Call Reply)}

/-- What every permitted exchange keeps holds after all of them. -/
theorem invariant {J : List (Exchange Call Reply) → σ → Prop}
    (hstep : ∀ xs t c, J xs t → ok xs c → J (xs ++ [⟨c, (exec c t).1⟩]) (exec c t).2)
    (h0 : J [] s) (h : History exec ok s xs t) : J xs t := by
  induction h with
  | nil => exact h0
  | snoc c _ hc ih => exact hstep _ _ c ih hc

/-- A history continued by a history from where it ended. -/
theorem append (h : History exec ok s xs t) (h' : History exec (fun zs ↦ ok (xs ++ zs)) t ys u) :
    History exec ok s (xs ++ ys) u := by
  induction h' with
  | nil => simpa using h
  | snoc c _ hc ih =>
      rw [← List.append_assoc]
      exact .snoc c ih hc

/-- The rule for continuations: `J` holds where the continuation starts, and every exchange keeps
it, given what holds after every history. -/
theorem continued {I J : List (Exchange Call Reply) → σ → Prop}
    (hI : ∀ {zs v}, History exec ok s zs v → I zs v)
    (hstep : ∀ zs v c, I (xs ++ zs) v → J zs v → ok (xs ++ zs) c →
      J (zs ++ [⟨c, (exec c v).1⟩]) (exec c v).2)
    (h : History exec ok s xs t) (h' : History exec (fun zs ↦ ok (xs ++ zs)) t ys u)
    (hJ : J [] t) : J ys u := by
  induction h' with
  | nil => exact hJ
  | snoc c h'' hc ih => exact hstep _ _ c (hI (h.append h'')) ih hc

/-- A history up to one of its exchanges, and from there on. -/
theorem split {x : Exchange Call Reply} (h : History exec ok s (xs ++ x :: ys) t) :
    ∃ u, History exec ok s xs u ∧ ok xs x.call ∧ x = ⟨x.call, (exec x.call u).1⟩ ∧
      History exec (fun zs ↦ ok (xs ++ [x] ++ zs)) (exec x.call u).2 ys t := by
  generalize hzs : xs ++ x :: ys = zs at h
  induction h generalizing ys with
  | nil => exact absurd hzs (by simp)
  | snoc c h hc ih =>
      rcases List.eq_nil_or_concat ys with rfl | ⟨ys, y, rfl⟩
      · obtain ⟨rfl, hx⟩ := List.append_inj' hzs rfl
        obtain rfl := List.singleton_inj.mp hx
        exact ⟨_, h, hc, rfl, .nil⟩
      · rw [List.concat_eq_append, ← List.cons_append, ← List.append_assoc] at hzs
        obtain ⟨rfl, hy⟩ := List.append_inj' hzs rfl
        obtain rfl := List.singleton_inj.mp hy
        obtain ⟨u, hu, hx, heq, hrest⟩ := ih rfl
        rw [← List.singleton_append, ← List.append_assoc] at hc
        rw [List.concat_eq_append]
        exact ⟨u, hu, hx, heq, hrest.snoc c hc⟩

/-- A program that runs alone goes on with the history. -/
theorem of_run {P : Call → Prop} (hP : ∀ zs c, P c → ok zs c) {α : Type} {p : Prog Call Reply α}
    (hp : p.OnlyCalls P) {a : α} (h : History exec ok s xs t) (hrun : p.run exec t = some (a, u)) :
    History exec ok s (xs ++ p.exchanges exec t) u := by
  induction p generalizing xs t with
  | ret b =>
      obtain ⟨-, rfl⟩ := Prod.mk.inj (Option.some.inj hrun)
      simpa using h
  | call c k ih =>
      have hnext := ih (exec c t).1 (hp.2 _) (h.snoc c (hP _ _ hp.1)) hrun
      rwa [List.append_assoc, List.singleton_append] at hnext
  | stall => simp at hrun

/-- Carry out some calls. -/
def answered (exec : (c : Call) → σ → Reply c × σ) :
    List Call → List (Exchange Call Reply) → σ → List (Exchange Call Reply) × σ
  | [], xs, t => (xs, t)
  | c :: cs, xs, t => answered exec cs (xs ++ [⟨c, (exec c t).1⟩]) (exec c t).2

/-- Check each of some calls, where it is made. -/
def permitted (exec : (c : Call) → σ → Reply c × σ)
    (check : List (Exchange Call Reply) → Call → Bool) :
    List Call → List (Exchange Call Reply) → σ → Bool
  | [], _, _ => true
  | c :: cs, xs, t =>
    check xs c && permitted exec check cs (xs ++ [⟨c, (exec c t).1⟩]) (exec c t).2

/-- Calls that pass their checks make a history. -/
theorem of_permitted {check : List (Exchange Call Reply) → Call → Bool}
    (hcheck : ∀ xs c, check xs c = true → ok xs c) :
    ∀ (cs : List Call) {xs : List (Exchange Call Reply)} {t : σ}, History exec ok s xs t →
      permitted exec check cs xs t = true →
      History exec ok s (answered exec cs xs t).1 (answered exec cs xs t).2 := by
  intro cs
  induction cs with
  | nil => exact fun h _ ↦ h
  | cons c cs ih =>
      intro xs t h hp
      obtain ⟨hc, hcs⟩ := Bool.and_eq_true_iff.mp hp
      exact ih (h.snoc c (hcheck _ _ hc)) hcs

end History

end Interact
