import NovaChat.Interact.Prog

/-!
# Sessions

A session is the part of a protocol one program plays: a local state, the calls that state
permits, and how a reply moves it.  `Follows` says that a program keeps to a session whatever
its surroundings answer.  It is proved once for each program, by its structure; after that a
statement about many programs at once needs only the sessions they are in.
-/

namespace Interact

/-- The local side of a protocol.  `answers` bounds the replies a call may get, and a program
may end or stall only in a state of `rest`. -/
structure Session (Call : Type) (Reply : Call → Type) where
  State : Type
  allowed : State → Call → Prop
  answers : (c : Call) → Reply c → Prop
  next : State → (c : Call) → Reply c → State
  rest : State → Prop

namespace Session

variable {Call : Type} {Reply : Call → Type} {α β ι : Type}

/-- Every call the program can make is allowed where it is made, and whenever it returns,
`post` holds of the state reached and the value returned. -/
def Follows (S : Session Call Reply) (post : S.State → α → Prop) :
    S.State → Prog Call Reply α → Prop
  | s, .ret a => post s a
  | s, .call c k => S.allowed s c ∧ ∀ r, S.answers c r → Follows S post (S.next s c r) (k r)
  | s, .stall => S.rest s

variable {S : Session Call Reply} {post : S.State → α → Prop} {s : S.State}

@[simp] theorem follows_ret (a : α) : S.Follows post s (.ret a) ↔ post s a := Iff.rfl

@[simp] theorem follows_call (c : Call) (k : Reply c → Prog Call Reply α) :
    S.Follows post s (.call c k) ↔
      S.allowed s c ∧ ∀ r, S.answers c r → S.Follows post (S.next s c r) (k r) := Iff.rfl

@[simp] theorem follows_stall : S.Follows post s (.stall : Prog Call Reply α) ↔ S.rest s :=
  Iff.rfl

theorem Follows.mono {post' : S.State → α → Prop} {p : Prog Call Reply α}
    (h : S.Follows post s p) (hpost : ∀ s a, post s a → post' s a) :
    S.Follows post' s p := by
  induction p generalizing s with
  | ret a => exact hpost s a h
  | call c k ih => exact ⟨h.1, fun r hr ↦ ih r (h.2 r hr)⟩
  | stall => exact h

/-- A state may be replaced by an equal one. -/
theorem Follows.of_eq {t : S.State} {p : Prog Call Reply α} (heq : s = t)
    (h : S.Follows post t p) : S.Follows post s p := by
  subst heq
  exact h

/-- Sequencing: the second program starts in whatever state the first one leaves. -/
theorem Follows.bind {mid : S.State → α → Prop} {post : S.State → β → Prop}
    {p : Prog Call Reply α} {f : α → Prog Call Reply β} (h : S.Follows mid s p)
    (hf : ∀ s a, mid s a → S.Follows post s (f a)) : S.Follows post s (p >>= f) := by
  induction p generalizing s with
  | ret a => exact hf s a h
  | call c k ih => exact ⟨h.1, fun r hr ↦ ih r (h.2 r hr)⟩
  | stall => exact h

/-- The rule for loops: `inv` holds at the start of every round. -/
theorem Follows.iterate {post : S.State → β → Prop} {inv : S.State → ι → Prop}
    {body : ι → Prog Call Reply (ι ⊕ β)} (hrest : ∀ s i, inv s i → S.rest s)
    (hbody : ∀ s i, inv s i → S.Follows
      (fun s r ↦ Sum.elim (inv s) (post s) r) s (body i)) :
    ∀ (rounds : ℕ) {s : S.State} {i : ι}, inv s i →
      S.Follows post s (Prog.iterate body rounds i) := by
  intro rounds
  induction rounds with
  | zero => exact fun {s i} h ↦ hrest s i h
  | succ n ih =>
      intro s i h
      refine (hbody s i h).bind fun s r hr ↦ ?_
      cases r with
      | inl i' => exact ih hr
      | inr b => exact hr

/-- A program of many calls, all of which leave the session where it is. -/
def Idle (S : Session Call Reply) (s : S.State) (c : Call) : Prop :=
  S.allowed s c ∧ ∀ r, S.answers c r → S.next s c r = s

/-- A program of idle calls leaves the session where it is. -/
theorem Follows.of_onlyCalls {P : Call → Prop} {p : Prog Call Reply α} (h : p.OnlyCalls P)
    (hidle : ∀ c, P c → S.Idle s c) (hrest : S.rest s) :
    S.Follows (fun s' _ ↦ s' = s) s p := by
  induction p with
  | ret a => exact rfl
  | call c k ih =>
      obtain ⟨hallowed, hnext⟩ := hidle c h.1
      refine ⟨hallowed, fun r hr ↦ ?_⟩
      rw [hnext r hr]
      exact ih r (h.2 r)
  | stall => exact hrest

/-- A program that keeps to a session, and makes only calls that satisfy `P`, keeps to any
session the first one maps into along such calls. -/
theorem Follows.map {T : Session Call Reply} {P : Call → Prop} {f : S.State → T.State}
    {post' : T.State → α → Prop}
    (hallowed : ∀ s c, S.allowed s c → P c → T.allowed (f s) c)
    (hanswers : ∀ c r, T.answers c r → S.answers c r)
    (hnext : ∀ s c r, S.allowed s c → T.next (f s) c r = f (S.next s c r))
    (hrest : ∀ s, S.rest s → T.rest (f s)) (hpost : ∀ s a, post s a → post' (f s) a)
    {p : Prog Call Reply α} (h : S.Follows post s p) (hp : p.OnlyCalls P) :
    T.Follows post' (f s) p := by
  induction p generalizing s with
  | ret a => exact hpost s a h
  | call c k ih =>
      refine ⟨hallowed s c h.1 hp.1, fun r hr ↦ ?_⟩
      rw [hnext s c r h.1]
      exact ih r (h.2 r (hanswers c r hr)) (hp.2 r)
  | stall => exact hrest s h

/-- Interpreting a program's calls keeps an invariant of session and interpreter state that
each interpreted call keeps. -/
theorem Follows.handleWith {Call₀ : Type} {Reply₀ : Call₀ → Type} {σ : Type}
    {h : (c : Call₀) → σ → Prog Call Reply (Reply₀ c × σ)} {inv : S.State → σ → Prop}
    (hrest : ∀ s x, inv s x → S.rest s)
    (hstep : ∀ s c x, inv s x → S.Follows (fun s r ↦ inv s r.2) s (h c x))
    (p : Prog Call₀ Reply₀ α) {x : σ} (hx : inv s x) :
    S.Follows (fun s r ↦ inv s r.2) s (p.handleWith h x) := by
  induction p generalizing s x with
  | ret a => exact hx
  | call c k ih => exact (hstep s c x hx).bind fun s r hr ↦ ih r.1 hr
  | stall => exact hrest s x hx

/-- Two sessions kept side by side. -/
def prod (S T : Session Call Reply) : Session Call Reply where
  State := S.State × T.State
  allowed st c := S.allowed st.1 c ∧ T.allowed st.2 c
  answers c r := S.answers c r ∧ T.answers c r
  next st c r := (S.next st.1 c r, T.next st.2 c r)
  rest st := S.rest st.1 ∧ T.rest st.2

theorem Follows.prod {T : Session Call Reply} {post' : T.State → α → Prop} {t : T.State}
    {p : Prog Call Reply α} (h : S.Follows post s p) (h' : T.Follows post' t p) :
    (S.prod T).Follows (fun st a ↦ post st.1 a ∧ post' st.2 a) (s, t) p := by
  induction p generalizing s t with
  | ret a => exact ⟨h, h'⟩
  | call c k ih => exact ⟨⟨h.1, h'.1⟩, fun r hr ↦ ih r (h.2 r hr.1) (h'.2 r hr.2)⟩
  | stall => exact ⟨h, h'⟩

end Session

end Interact
