import Mathlib.Data.List.Basic

/-!
# Interaction programs

A program here is a tree of calls to its surroundings.  It says which call comes next and
how it continues on each reply, and nothing about what a call does: the same program is run
against a store, against a store that fails on demand, or interleaved with other programs.

A loop whose length no program can know is run for a given number of rounds and `stall`s
when they are used up.  A stalled program has not returned, so a statement about every
number of rounds is a statement about every finite stretch of the loop.
-/

namespace Interact

/-- A program returning `α` whose calls are `Call`s, answered by `Reply`s. -/
inductive Prog (Call : Type) (Reply : Call → Type) (α : Type) : Type
  | ret (a : α)
  | call (c : Call) (k : Reply c → Prog Call Reply α)
  | stall

/-- One call together with the reply it was given. -/
structure Exchange (Call : Type) (Reply : Call → Type) where
  call : Call
  reply : Reply call

namespace Prog

variable {Call : Type} {Reply : Call → Type} {α β γ σ : Type}

def bind : Prog Call Reply α → (α → Prog Call Reply β) → Prog Call Reply β
  | ret a, f => f a
  | call c k, f => call c fun r ↦ bind (k r) f
  | stall, _ => stall

instance : Monad (Prog Call Reply) where
  pure := ret
  bind := bind

/-- Make one call and return its reply. -/
def perform (c : Call) : Prog Call Reply (Reply c) :=
  call c ret

@[simp] theorem pure_eq (a : α) : (pure a : Prog Call Reply α) = ret a := rfl

@[simp] theorem bind_eq (p : Prog Call Reply α) (f : α → Prog Call Reply β) :
    p.bind f = p >>= f := rfl

@[simp] theorem ret_bind (a : α) (f : α → Prog Call Reply β) : ret a >>= f = f a := rfl

@[simp] theorem call_bind (c : Call) (k : Reply c → Prog Call Reply α)
    (f : α → Prog Call Reply β) : call c k >>= f = call c fun r ↦ k r >>= f := rfl

@[simp] theorem stall_bind (f : α → Prog Call Reply β) :
    (stall : Prog Call Reply α) >>= f = stall := rfl

@[simp] theorem perform_bind (c : Call) (f : Reply c → Prog Call Reply β) :
    perform c >>= f = call c f := rfl

theorem bind_assoc (p : Prog Call Reply α) (f : α → Prog Call Reply β)
    (g : β → Prog Call Reply γ) : p >>= f >>= g = p >>= fun a ↦ f a >>= g := by
  induction p with
  | ret a => rfl
  | call c k ih => simp only [call_bind, ih]
  | stall => rfl

theorem bind_ret (p : Prog Call Reply α) : p >>= ret = p := by
  induction p with
  | ret a => rfl
  | call c k ih => simp only [call_bind, ih]
  | stall => rfl

/-- Run `body` until it yields a result, for at most the given number of rounds. -/
def iterate {ι : Type} (body : ι → Prog Call Reply (ι ⊕ β)) : ℕ → ι → Prog Call Reply β
  | 0, _ => stall
  | n + 1, i => body i >>= fun
    | .inl i' => iterate body n i'
    | .inr b => ret b

/-- Two loops whose rounds agree but for how they keep their state agree in what they return. -/
theorem iterate_map {δ ι ι' : Type} {body : ι → Prog Call Reply (ι ⊕ β)}
    {body' : ι' → Prog Call Reply (ι' ⊕ δ)} {f : ι' → ι} {g : δ → β}
    (h : ∀ i, body (f i) = body' i >>= fun r ↦ ret (r.map f g)) :
    ∀ (n : ℕ) (i : ι'), iterate body n (f i) = iterate body' n i >>= fun b ↦ ret (g b)
  | 0, _ => rfl
  | n + 1, i => by
      simp only [iterate, h, bind_assoc]
      congr 1
      funext r
      rcases r with i' | b
      · exact iterate_map h n i'
      · rfl

/-! ## The calls a program can make -/

/-- Whatever it is answered, the program makes only calls that satisfy `P`. -/
def OnlyCalls (P : Call → Prop) : Prog Call Reply α → Prop
  | ret _ => True
  | call c k => P c ∧ ∀ r, OnlyCalls P (k r)
  | stall => True

section OnlyCalls

variable {P : Call → Prop}

@[simp] theorem onlyCalls_ret (a : α) : (ret a : Prog Call Reply α).OnlyCalls P := trivial

@[simp] theorem onlyCalls_call (c : Call) (k : Reply c → Prog Call Reply α) :
    (call c k).OnlyCalls P ↔ P c ∧ ∀ r, (k r).OnlyCalls P := Iff.rfl

@[simp] theorem onlyCalls_stall : (stall : Prog Call Reply α).OnlyCalls P := trivial

theorem onlyCalls_true (p : Prog Call Reply α) : p.OnlyCalls fun _ ↦ True := by
  induction p with
  | ret a => trivial
  | call c k ih => exact ⟨trivial, ih⟩
  | stall => trivial

theorem OnlyCalls.mono {Q : Call → Prop} {p : Prog Call Reply α} (hp : p.OnlyCalls P)
    (hPQ : ∀ c, P c → Q c) : p.OnlyCalls Q := by
  induction p with
  | ret a => trivial
  | call c k ih => exact ⟨hPQ c hp.1, fun r ↦ ih r (hp.2 r)⟩
  | stall => trivial

theorem OnlyCalls.and {Q : Call → Prop} {p : Prog Call Reply α} (hp : p.OnlyCalls P)
    (hq : p.OnlyCalls Q) : p.OnlyCalls fun c ↦ P c ∧ Q c := by
  induction p with
  | ret a => trivial
  | call c k ih => exact ⟨⟨hp.1, hq.1⟩, fun r ↦ ih r (hp.2 r) (hq.2 r)⟩
  | stall => trivial

theorem OnlyCalls.bind {p : Prog Call Reply α} {f : α → Prog Call Reply β} (hp : p.OnlyCalls P)
    (hf : ∀ a, (f a).OnlyCalls P) : (p >>= f).OnlyCalls P := by
  induction p with
  | ret a => exact hf a
  | call c k ih => exact ⟨hp.1, fun r ↦ ih r (hp.2 r)⟩
  | stall => trivial

theorem OnlyCalls.iterate {ι : Type} {body : ι → Prog Call Reply (ι ⊕ β)}
    (hbody : ∀ i, (body i).OnlyCalls P) :
    ∀ (rounds : ℕ) (i : ι), (iterate body rounds i).OnlyCalls P := by
  intro rounds
  induction rounds with
  | zero => exact fun _ ↦ trivial
  | succ n ih =>
      refine fun i ↦ (hbody i).bind fun r ↦ ?_
      cases r with
      | inl i' => exact ih i'
      | inr b => trivial

end OnlyCalls

/-! ## Running alone -/

/-- Run a program by itself, every call answered by `exec`.  There is no result when the
program stalls. -/
def run (exec : (c : Call) → σ → Reply c × σ) : Prog Call Reply α → σ → Option (α × σ)
  | ret a, s => some (a, s)
  | call c k, s => run exec (k (exec c s).1) (exec c s).2
  | stall, _ => none

/-- The exchanges a program makes when it runs by itself. -/
def exchanges (exec : (c : Call) → σ → Reply c × σ) :
    Prog Call Reply α → σ → List (Exchange Call Reply)
  | ret _, _ => []
  | call c k, s => ⟨c, (exec c s).1⟩ :: exchanges exec (k (exec c s).1) (exec c s).2
  | stall, _ => []

variable {exec : (c : Call) → σ → Reply c × σ}

@[simp] theorem run_ret (a : α) (s : σ) :
    (ret a : Prog Call Reply α).run exec s = some (a, s) := rfl

@[simp] theorem run_call (c : Call) (k : Reply c → Prog Call Reply α) (s : σ) :
    (call c k).run exec s = (k (exec c s).1).run exec (exec c s).2 := rfl

@[simp] theorem run_stall (s : σ) : (stall : Prog Call Reply α).run exec s = none := rfl

@[simp] theorem exchanges_ret (a : α) (s : σ) :
    (ret a : Prog Call Reply α).exchanges exec s = [] := rfl

@[simp] theorem exchanges_call (c : Call) (k : Reply c → Prog Call Reply α) (s : σ) :
    (call c k).exchanges exec s =
      ⟨c, (exec c s).1⟩ :: (k (exec c s).1).exchanges exec (exec c s).2 := rfl

@[simp] theorem exchanges_stall (s : σ) :
    (stall : Prog Call Reply α).exchanges exec s = [] := rfl

theorem run_bind (p : Prog Call Reply α) (f : α → Prog Call Reply β) (s : σ) :
    (p >>= f).run exec s = (p.run exec s).bind fun as ↦ (f as.1).run exec as.2 := by
  induction p generalizing s with
  | ret a => rfl
  | call c k ih => exact ih _ _
  | stall => rfl

theorem run_bind_of_eq {p : Prog Call Reply α} {s s' : σ} {a : α}
    (h : p.run exec s = some (a, s')) (f : α → Prog Call Reply β) :
    (p >>= f).run exec s = (f a).run exec s' := by
  rw [run_bind, h]
  rfl

theorem exchanges_bind_of_eq {p : Prog Call Reply α} {s s' : σ} {a : α}
    (h : p.run exec s = some (a, s')) (f : α → Prog Call Reply β) :
    (p >>= f).exchanges exec s = p.exchanges exec s ++ (f a).exchanges exec s' := by
  induction p generalizing s with
  | ret b =>
      obtain ⟨rfl, rfl⟩ : b = a ∧ s = s' := by simpa using h
      rfl
  | call c k ih =>
      have hk : (k (exec c s).1).run exec (exec c s).2 = some (a, s') := h
      simpa using ih _ hk
  | stall => simp at h

/-- The rule for invariants: what every permitted call keeps, the program keeps. -/
theorem run_invariant {P : Call → Prop} {J : σ → Prop} (hJ : ∀ c s, P c → J s → J (exec c s).2)
    {p : Prog Call Reply α} (hp : p.OnlyCalls P) {a : α} {s s' : σ} (hs : J s)
    (h : p.run exec s = some (a, s')) : J s' := by
  induction p generalizing s with
  | ret b =>
      obtain ⟨-, rfl⟩ := Prod.mk.inj (Option.some.inj h)
      exact hs
  | call c k ih => exact ih _ (hp.2 _) (hJ c s hp.1 hs) h
  | stall => simp at h

/-- A program of calls that leave the state as it is leaves it as it is. -/
theorem run_of_onlyCalls {P : Call → Prop} (hP : ∀ c s, P c → (exec c s).2 = s)
    {p : Prog Call Reply α} (hp : p.OnlyCalls P) {a : α} {s s' : σ}
    (h : p.run exec s = some (a, s')) : s' = s :=
  run_invariant (J := fun t ↦ t = s) (fun c t hc ht ↦ (hP c t hc).trans ht) hp rfl h

/-- The rule for loops that only look: as long as each round keeps the state and the invariant and
comes closer, the loop returns what its last round does. -/
theorem run_iterate {ι : Type} {body : ι → Prog Call Reply (ι ⊕ β)} (inv : ι → Prop)
    (size : ι → ℕ) {b : β} {s : σ}
    (hbody : ∀ i, inv i → (body i).run exec s = some (.inr b, s) ∨
      ∃ i', (body i).run exec s = some (.inl i', s) ∧ inv i' ∧ size i' < size i) :
    ∀ {rounds : ℕ} {i : ι}, inv i → size i < rounds →
      (iterate body rounds i).run exec s = some (b, s) := by
  intro rounds
  induction rounds with
  | zero => exact fun _ hsize ↦ absurd hsize (Nat.not_lt_zero _)
  | succ n ih =>
      intro i hi hsize
      rcases hbody i hi with hlast | ⟨i', hround, hi', hless⟩
      · rw [Prog.iterate, run_bind_of_eq hlast]
        rfl
      · rw [Prog.iterate, run_bind_of_eq hround]
        exact ih hi' (by omega)

/-- A program exchanges nothing but its calls. -/
theorem exchanges_of_onlyCalls {P : Call → Prop} {p : Prog Call Reply α} (hp : p.OnlyCalls P)
    {s : σ} {x : Exchange Call Reply} (hx : x ∈ p.exchanges exec s) : P x.call := by
  induction p generalizing s with
  | ret a => cases hx
  | call c k ih =>
      rcases List.mem_cons.mp hx with rfl | hx
      · exact hp.1
      · exact ih _ (hp.2 _) hx
  | stall => cases hx

/-- Where two executions agree on the calls of a program, it runs the same under both. -/
theorem run_congr {exec' : (c : Call) → σ → Reply c × σ} {P : Call → Prop} {J : σ → Prop}
    (hJ : ∀ c s, P c → J s → exec' c s = exec c s ∧ J (exec c s).2) {p : Prog Call Reply α}
    (hp : p.OnlyCalls P) {s : σ} (hs : J s) : p.run exec' s = p.run exec s := by
  induction p generalizing s with
  | ret a => rfl
  | call c k ih =>
      obtain ⟨heq, hnext⟩ := hJ c s hp.1 hs
      simp only [run_call, heq]
      exact ih _ (hp.2 _) hnext
  | stall => rfl

/-- Where two states answer the calls of a program alike, and are left as they are, it returns the
same in both. -/
theorem run_fst_congr {P : Call → Prop} {s s' : σ}
    (hP : ∀ c, P c → (exec c s).1 = (exec c s').1 ∧ (exec c s).2 = s ∧ (exec c s').2 = s')
    {p : Prog Call Reply α} (hp : p.OnlyCalls P) :
    (p.run exec s).map Prod.fst = (p.run exec s').map Prod.fst := by
  induction p with
  | ret a => rfl
  | call c k ih =>
      obtain ⟨hreply, hs, hs'⟩ := hP c hp.1
      rw [run_call, run_call, hs, hs', hreply]
      exact ih _ (hp.2 _)
  | stall => rfl

/-! ## Definedness -/

/-- The second program does what the first does, and may go on where the first stalls. -/
def Approx : Prog Call Reply α → Prog Call Reply α → Prop
  | ret a, q => q = ret a
  | call c k, q => ∃ k', q = call c k' ∧ ∀ r, Approx (k r) (k' r)
  | stall, _ => True

namespace Approx

theorem refl (p : Prog Call Reply α) : p.Approx p := by
  induction p with
  | ret a => rfl
  | call c k ih => exact ⟨k, rfl, ih⟩
  | stall => trivial

theorem bind {p q : Prog Call Reply α} {f g : α → Prog Call Reply β} (h : p.Approx q)
    (hfg : ∀ a, (f a).Approx (g a)) : (p >>= f).Approx (q >>= g) := by
  induction p generalizing q with
  | ret a =>
      obtain rfl : q = ret a := h
      exact hfg a
  | call c k ih =>
      obtain ⟨k', rfl, hk⟩ := h
      exact ⟨fun r ↦ k' r >>= g, rfl, fun r ↦ ih r (hk r)⟩
  | stall => trivial

/-- More rounds only define a loop further. -/
theorem iterate {ι : Type} (body : ι → Prog Call Reply (ι ⊕ β)) {n m : ℕ} (hnm : n ≤ m) (i : ι) :
    (iterate body n i).Approx (iterate body m i) := by
  induction n generalizing m i with
  | zero => trivial
  | succ n ih =>
      obtain ⟨m, rfl⟩ : ∃ m', m = m' + 1 := ⟨m - 1, by omega⟩
      refine (refl (body i)).bind fun r ↦ ?_
      cases r with
      | inl i' => exact ih (by omega) i'
      | inr b => exact refl _

/-- A result stays the result. -/
theorem run {p q : Prog Call Reply α} (h : p.Approx q) {s : σ} {r : α × σ}
    (hr : p.run exec s = some r) : q.run exec s = some r := by
  induction p generalizing q s with
  | ret a =>
      obtain rfl : q = ret a := h
      exact hr
  | call c k ih =>
      obtain ⟨k', rfl, hk⟩ := h
      exact ih _ (hk _) hr
  | stall => simp at hr

end Approx

/-! ## Answering calls by programs -/

/-- Carry out every call of a program by a program over other calls. -/
def handle {Call' : Type} {Reply' : Call' → Type}
    (h : (c : Call) → Prog Call' Reply' (Reply c)) : Prog Call Reply α → Prog Call' Reply' α
  | ret a => ret a
  | call c k => h c >>= fun r ↦ handle h (k r)
  | stall => stall

section Handle

variable {Call' : Type} {Reply' : Call' → Type}
  {h : (c : Call) → Prog Call' Reply' (Reply c)}

@[simp] theorem handle_ret (a : α) :
    (ret a : Prog Call Reply α).handle h = ret a := rfl

@[simp] theorem handle_call (c : Call) (k : Reply c → Prog Call Reply α) :
    (call c k).handle h = h c >>= fun r ↦ (k r).handle h := rfl

@[simp] theorem handle_stall : (stall : Prog Call Reply α).handle h = stall := rfl

/-- What a handler calls for the calls of a program. -/
theorem OnlyCalls.handle {P : Call → Prop} {Q : Call' → Prop} (hh : ∀ c, P c → (h c).OnlyCalls Q)
    {p : Prog Call Reply α} (hp : p.OnlyCalls P) : (p.handle h).OnlyCalls Q := by
  induction p with
  | ret a => trivial
  | call c k ih => exact (hh c hp.1).bind fun r ↦ ih r (hp.2 r)
  | stall => trivial

/-- Handling calls by making them changes nothing. -/
theorem handle_eq_self {h : (c : Call) → Prog Call Reply (Reply c)} {p : Prog Call Reply α}
    (hp : p.OnlyCalls fun c ↦ h c = perform c) : p.handle h = p := by
  induction p with
  | ret a => rfl
  | call c k ih =>
      rw [handle_call, hp.1, perform_bind]
      congr 1
      funext r
      exact ih r (hp.2 r)
  | stall => rfl

/-- Answering every call by a program amounts to another way of executing it. -/
theorem run_handle {exec : (c : Call') → σ → Reply' c × σ} {exec' : (c : Call) → σ → Reply c × σ}
    (hh : ∀ c s, (h c).run exec s = some (exec' c s)) (p : Prog Call Reply α) (s : σ) :
    (p.handle h).run exec s = p.run exec' s := by
  induction p generalizing s with
  | ret a => rfl
  | call c k ih =>
      rw [handle_call, run_bind_of_eq (hh c s)]
      exact ih _ _
  | stall => rfl

end Handle

/-- Carry out every call of a program by a program over other calls that also keeps a state
of its own, and return that state with the result. -/
def handleWith {Call' : Type} {Reply' : Call' → Type}
    (h : (c : Call) → σ → Prog Call' Reply' (Reply c × σ)) :
    Prog Call Reply α → σ → Prog Call' Reply' (α × σ)
  | ret a, s => ret (a, s)
  | call c k, s => h c s >>= fun rs ↦ handleWith h (k rs.1) rs.2
  | stall, _ => stall

theorem handleWith_bind {Call' : Type} {Reply' : Call' → Type}
    (h : (c : Call) → σ → Prog Call' Reply' (Reply c × σ)) (p : Prog Call Reply α)
    (f : α → Prog Call Reply β) (s : σ) :
    (p >>= f).handleWith h s = p.handleWith h s >>= fun r ↦ (f r.1).handleWith h r.2 := by
  induction p generalizing s with
  | ret a => rfl
  | call c k ih =>
      simp only [call_bind, handleWith, ih, bind_assoc]
  | stall => rfl

end Prog

end Interact
