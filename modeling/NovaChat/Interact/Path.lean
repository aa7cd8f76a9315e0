import NovaChat.Interact.Prog

/-!
# Paths

The ways a program can go when nothing is assumed about its surroundings: each call gets any
reply at all.  A path says what was exchanged and what was returned, so a statement about every
path covers every store, every failure, and whatever other programs do in between.
-/

namespace Interact

namespace Prog

variable {Call : Type} {Reply : Call → Type} {α β σ : Type}

/-- The exchanges a program may make, and what it then returns. -/
inductive Path : Prog Call Reply α → List (Exchange Call Reply) → α → Prop
  | ret (a : α) : Path (ret a) [] a
  | call (c : Call) {k : Reply c → Prog Call Reply α} (r : Reply c) {xs a} :
      Path (k r) xs a → Path (call c k) (⟨c, r⟩ :: xs) a

section Path

variable {xs : List (Exchange Call Reply)} {a : α} {b : β}

@[simp] theorem path_ret {b : α} : Path (ret b : Prog Call Reply α) xs a ↔ xs = [] ∧ a = b := by
  constructor
  · rintro ⟨⟩
    exact ⟨rfl, rfl⟩
  · rintro ⟨rfl, rfl⟩
    exact .ret a

@[simp] theorem path_call {c : Call} {k : Reply c → Prog Call Reply α} :
    Path (call c k) xs a ↔ ∃ r ys, xs = ⟨c, r⟩ :: ys ∧ Path (k r) ys a := by
  constructor
  · rintro ⟨⟩
    exact ⟨_, _, rfl, ‹_›⟩
  · rintro ⟨r, ys, rfl, h⟩
    exact .call c r h

@[simp] theorem path_stall : ¬ Path (stall : Prog Call Reply α) xs a := nofun

theorem path_bind {p : Prog Call Reply α} {f : α → Prog Call Reply β} :
    Path (p >>= f) xs b ↔ ∃ a ys zs, xs = ys ++ zs ∧ Path p ys a ∧ Path (f a) zs b := by
  induction p generalizing xs with
  | ret a =>
      constructor
      · exact fun h ↦ ⟨a, [], xs, rfl, .ret a, h⟩
      · rintro ⟨a', ys, zs, rfl, hp, hf⟩
        obtain ⟨rfl, rfl⟩ := path_ret.mp hp
        exact hf
  | call c k ih =>
      rw [call_bind, path_call]
      constructor
      · rintro ⟨r, ys, rfl, h⟩
        obtain ⟨a, us, vs, rfl, hp, hf⟩ := (ih r).mp h
        exact ⟨a, ⟨c, r⟩ :: us, vs, rfl, .call c r hp, hf⟩
      · rintro ⟨a, ys, zs, rfl, hp, hf⟩
        obtain ⟨r, us, rfl, hk⟩ := path_call.mp hp
        exact ⟨r, us ++ zs, rfl, (ih r).mpr ⟨a, us, zs, rfl, hk, hf⟩⟩
  | stall =>
      constructor
      · exact fun h ↦ (path_stall h).elim
      · rintro ⟨a, ys, zs, rfl, hp, hf⟩
        exact (path_stall hp).elim

theorem path_map {p : Prog Call Reply α} {f : α → β} :
    Path (p >>= fun a ↦ ret (f a)) xs b ↔ ∃ a, Path p xs a ∧ b = f a := by
  refine path_bind.trans ⟨?_, ?_⟩
  · rintro ⟨a, ys, zs, rfl, hp, hret⟩
    obtain ⟨rfl, rfl⟩ := path_ret.mp hret
    exact ⟨a, (List.append_nil ys).symm ▸ hp, rfl⟩
  · rintro ⟨a, hp, rfl⟩
    exact ⟨a, xs, [], (List.append_nil xs).symm, hp, .ret _⟩

/-- A path exchanges nothing but the program's calls. -/
theorem Path.onlyCalls {P : Call → Prop} {p : Prog Call Reply α} (hp : p.OnlyCalls P)
    (h : Path p xs a) {x : Exchange Call Reply} (hx : x ∈ xs) : P x.call := by
  induction h with
  | ret a => cases hx
  | call c r h ih =>
      rcases List.mem_cons.mp hx with rfl | hx
      · exact hp.1
      · exact ih (hp.2 _) hx

/-- The rule for loops: on a path all of whose exchanges are as given, every other round keeps the
invariant, and the last one turns it into the conclusion. -/
theorem Path.iterate_given {ι : Type} {body : ι → Prog Call Reply (ι ⊕ β)}
    {Q : Exchange Call Reply → Prop} (inv : ι → Prop) (post : β → Prop)
    (hnext : ∀ i xs i', inv i → (∀ x ∈ xs, Q x) → Path (body i) xs (.inl i') → inv i')
    (hlast : ∀ i xs b, inv i → (∀ x ∈ xs, Q x) → Path (body i) xs (.inr b) → post b) :
    ∀ (rounds : ℕ) (i : ι) (xs : List (Exchange Call Reply)) (b : β), inv i →
      (∀ x ∈ xs, Q x) → Path (iterate body rounds i) xs b → post b := by
  intro rounds
  induction rounds with
  | zero => exact fun i xs b _ _ h ↦ (path_stall h).elim
  | succ n ih =>
      intro i xs b hi hgiven h
      obtain ⟨r, ys, zs, rfl, hround, hrest⟩ := path_bind.mp h
      have hys : ∀ x ∈ ys, Q x := fun x hx ↦ hgiven x (List.mem_append_left _ hx)
      rcases r with i' | b'
      · exact ih i' zs b (hnext i ys i' hi hys hround)
          (fun x hx ↦ hgiven x (List.mem_append_right _ hx)) hrest
      · obtain ⟨rfl, rfl⟩ := path_ret.mp hrest
        exact hlast i ys b hi hys hround

/-- The rule for loops with an invariant, whatever is exchanged. -/
theorem Path.iterate_inv {ι : Type} {body : ι → Prog Call Reply (ι ⊕ β)} (inv : ι → Prop)
    (post : β → Prop) (hnext : ∀ i xs i', inv i → Path (body i) xs (.inl i') → inv i')
    (hlast : ∀ i xs b, inv i → Path (body i) xs (.inr b) → post b)
    (rounds : ℕ) (i : ι) (xs : List (Exchange Call Reply)) (b : β) (hi : inv i)
    (h : Path (iterate body rounds i) xs b) : post b :=
  Path.iterate_given (Q := fun _ ↦ True) inv post (fun i xs i' hi _ ↦ hnext i xs i' hi)
    (fun i xs b hi _ ↦ hlast i xs b hi) rounds i xs b hi (fun _ _ ↦ trivial) h

/-- The rule for loops without one: what every last round makes sure of, the loop does. -/
theorem Path.iterate {ι : Type} {body : ι → Prog Call Reply (ι ⊕ β)}
    {Q : Exchange Call Reply → Prop} (post : β → Prop)
    (hbody : ∀ i xs b, Path (body i) xs (.inr b) → (∀ x ∈ xs, Q x) → post b)
    (rounds : ℕ) (i : ι) (xs : List (Exchange Call Reply)) (b : β)
    (h : Path (iterate body rounds i) xs b) (hgiven : ∀ x ∈ xs, Q x) : post b :=
  Path.iterate_given (Q := Q) (fun _ ↦ True) post (fun _ _ _ _ _ _ ↦ trivial)
    (fun i xs b _ hgiven h ↦ hbody i xs b h hgiven) rounds i xs b trivial hgiven h

/-- Running alone goes one of the ways a program can go. -/
theorem Path.of_run {exec : (c : Call) → σ → Reply c × σ} {p : Prog Call Reply α} {s s' : σ}
    (h : p.run exec s = some (a, s')) : Path p (p.exchanges exec s) a := by
  induction p generalizing s with
  | ret b =>
      obtain ⟨rfl, -⟩ := Prod.mk.inj (Option.some.inj h)
      exact .ret b
  | call c k ih => exact .call c _ (ih _ h)
  | stall => simp at h

/-- A run that returns is a path, on which whatever was tested holds. -/
theorem Path.exists_of_run (exec : (c : Call) → σ → Reply c × σ) (p : Prog Call Reply α) (s : σ)
    (test : List (Exchange Call Reply) → Bool)
    (h : ((p.run exec s).isSome && test (p.exchanges exec s)) = true) :
    ∃ xs a, Path p xs a ∧ test xs = true := by
  obtain ⟨hrun, htest⟩ := Bool.and_eq_true_iff.mp h
  obtain ⟨⟨a, s'⟩, hrun⟩ := Option.isSome_iff_exists.mp hrun
  exact ⟨_, a, .of_run hrun, htest⟩

end Path

/-- The second part of a program may rely on the way the first one went. -/
theorem OnlyCalls.bind_path {P : Call → Prop} {p : Prog Call Reply α} {f : α → Prog Call Reply β}
    (hp : p.OnlyCalls P) (hf : ∀ xs a, Path p xs a → (f a).OnlyCalls P) :
    (p >>= f).OnlyCalls P := by
  induction p with
  | ret a => exact hf [] a (.ret a)
  | call c k ih => exact ⟨hp.1, fun r ↦ ih r (hp.2 r) fun xs a h ↦ hf _ a (.call c r h)⟩
  | stall => trivial

section HandleWith

variable {Call' : Type} {Reply' : Call' → Type} {P : Call → Prop} {Q : Call' → Prop} {J : σ → Prop}
  {h : (c : Call) → σ → Prog Call' Reply' (Reply c × σ)} {p : Prog Call Reply α} {s : σ}

/-- What a handler calls for the calls of a program, from states that it keeps good. -/
theorem OnlyCalls.handleWith_inv (hcalls : ∀ c s, P c → J s → (h c s).OnlyCalls Q)
    (hkeeps : ∀ c s ys r, P c → J s → Path (h c s) ys r → J r.2) (hp : p.OnlyCalls P) (hs : J s) :
    (p.handleWith h s).OnlyCalls Q := by
  induction p generalizing s with
  | ret a => trivial
  | call c k ih =>
      exact (hcalls c s hp.1 hs).bind_path fun ys r hpath ↦
        ih r.1 (hp.2 r.1) (hkeeps c s ys r hp.1 hs hpath)
  | stall => trivial

/-- The state a handler ends in is good, if it keeps states good. -/
theorem path_handleWith_inv (hkeeps : ∀ c s ys r, P c → J s → Path (h c s) ys r → J r.2)
    (hp : p.OnlyCalls P) (hs : J s) {ys : List (Exchange Call' Reply')} {r : α × σ}
    (hpath : Path (p.handleWith h s) ys r) : J r.2 := by
  induction p generalizing s ys with
  | ret a =>
      obtain ⟨-, rfl⟩ := path_ret.mp hpath
      exact hs
  | call c k ih =>
      obtain ⟨r', us, vs, rfl, hcall, hrest⟩ := path_bind.mp hpath
      exact ih r'.1 (hp.2 r'.1) (hkeeps c s us r' hp.1 hs hcall) hrest
  | stall => exact (path_stall hpath).elim

theorem OnlyCalls.handleWith (hQ : ∀ c s, (h c s).OnlyCalls Q) (p : Prog Call Reply α) (s : σ) :
    (p.handleWith h s).OnlyCalls Q :=
  OnlyCalls.handleWith_inv (P := fun _ ↦ True) (J := fun _ ↦ True) (fun c s _ _ ↦ hQ c s)
    (fun _ _ _ _ _ _ _ ↦ trivial) (onlyCalls_true p) trivial

end HandleWith

/-- Behind what a handled program returns there is a path of the program itself. -/
theorem path_of_handleWith {Call' : Type} {Reply' : Call' → Type}
    {h : (c : Call) → σ → Prog Call' Reply' (Reply c × σ)} {p : Prog Call Reply α} {s : σ}
    {ys : List (Exchange Call' Reply')} {r : α × σ} (hp : Path (p.handleWith h s) ys r) :
    ∃ xs, Path p xs r.1 := by
  induction p generalizing s ys with
  | ret a =>
      obtain ⟨-, rfl⟩ := path_ret.mp hp
      exact ⟨[], .ret a⟩
  | call c k ih =>
      obtain ⟨⟨reply, s'⟩, us, vs, rfl, -, hrest⟩ := path_bind.mp hp
      obtain ⟨xs, hxs⟩ := ih reply hrest
      exact ⟨_, .call c reply hxs⟩
  | stall => exact (path_stall hp).elim

/-- Unless the handler exchanges something in `B`, it stays good and answers in `G`. -/
theorem path_handleWith_or {Call' : Type} {Reply' : Call' → Type}
    {h : (c : Call) → σ → Prog Call' Reply' (Reply c × σ)} {B : Exchange Call' Reply' → Prop}
    {S : σ → Prop} {G : Exchange Call Reply → Prop}
    (hstep : ∀ c s us r, S s → Path (h c s) us r → (∃ u ∈ us, B u) ∨ S r.2 ∧ G ⟨c, r.1⟩)
    {p : Prog Call Reply α} {s : σ} {ys : List (Exchange Call' Reply')} {r : α × σ} (hs : S s)
    (hpath : Path (p.handleWith h s) ys r) :
    (∃ y ∈ ys, B y) ∨ S r.2 ∧ ∃ xs, Path p xs r.1 ∧ ∀ x ∈ xs, G x := by
  induction p generalizing s ys with
  | ret a =>
      obtain ⟨rfl, rfl⟩ := path_ret.mp hpath
      exact Or.inr ⟨hs, [], .ret a, nofun⟩
  | call c k ih =>
      obtain ⟨⟨reply, s'⟩, us, vs, rfl, hcall, hrest⟩ := path_bind.mp hpath
      rcases hstep c s us _ hs hcall with ⟨u, hu, hbad⟩ | ⟨hs', hreply⟩
      · exact Or.inl ⟨u, List.mem_append_left _ hu, hbad⟩
      rcases ih reply hs' hrest with ⟨v, hv, hbad⟩ | ⟨hr, xs, hxs, hall⟩
      · exact Or.inl ⟨v, List.mem_append_right _ hv, hbad⟩
      · exact Or.inr ⟨hr, _, .call c reply hxs, List.forall_mem_cons.mpr ⟨hreply, hall⟩⟩
  | stall => exact (path_stall hpath).elim

/-- What a program that is left alone exchanges, it exchanges in states that `J` holds of. -/
theorem exchanges_invariant {exec : (c : Call) → σ → Reply c × σ} {P : Call → Prop} {J : σ → Prop}
    (hJ : ∀ c s, P c → J s → J (exec c s).2) {p : Prog Call Reply α} (hp : p.OnlyCalls P) {s : σ}
    (hs : J s) {x : Exchange Call Reply} (hx : x ∈ p.exchanges exec s) :
    ∃ t, J t ∧ x = ⟨x.call, (exec x.call t).1⟩ := by
  induction p generalizing s with
  | ret a => cases hx
  | call c k ih =>
      rcases List.mem_cons.mp hx with rfl | hx
      · exact ⟨s, hs, rfl⟩
      · exact ih _ (hp.2 _) (hJ c s hp.1 hs) hx
  | stall => cases hx

end Prog

end Interact
