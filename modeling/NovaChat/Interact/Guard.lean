import NovaChat.Interact.Local

/-!
# What comes before a call

A program makes some of its calls only after certain exchanges.  `Guarded` says so of every way the
program can go; in a run of many programs the call of a process is then traced back to what this
process had exchanged before.
-/

namespace Interact

variable {Call : Type} {Reply : Call → Type} {σ Job α β : Type}

namespace Prog

/-- After `xs`, the program makes a call only where `P` permits it after all that was exchanged. -/
def Guarded (P : List (Exchange Call Reply) → Call → Prop) :
    List (Exchange Call Reply) → Prog Call Reply α → Prop
  | _, ret _ => True
  | xs, call c k => P xs c ∧ ∀ r, Guarded P (xs ++ [⟨c, r⟩]) (k r)
  | _, stall => True

variable {P : List (Exchange Call Reply) → Call → Prop} {xs : List (Exchange Call Reply)}

namespace Guarded

/-- A program all of whose calls are permitted from here on. -/
theorem of_onlyCalls_behind {p : Prog Call Reply α}
    (hp : p.OnlyCalls fun c ↦ ∀ ys, P (xs ++ ys) c) : Guarded P xs p := by
  induction p generalizing xs with
  | ret a => trivial
  | call c k ih =>
      refine ⟨by simpa using hp.1 [], fun r ↦ ih r ((hp.2 r).mono fun c' hc' ys ↦ ?_)⟩
      simpa using hc' (⟨c, r⟩ :: ys)
  | stall => trivial

/-- A program all of whose calls are permitted everywhere. -/
theorem of_onlyCalls {p : Prog Call Reply α} (hp : p.OnlyCalls fun c ↦ ∀ xs, P xs c) :
    Guarded P xs p :=
  of_onlyCalls_behind (hp.mono fun _ hc _ ↦ hc _)

/-- Sequencing: the second program is guarded by the path of the first. -/
theorem bind {p : Prog Call Reply α} {f : α → Prog Call Reply β} (hp : Guarded P xs p)
    (hf : ∀ ys a, Path p ys a → Guarded P (xs ++ ys) (f a)) : Guarded P xs (p >>= f) := by
  induction p generalizing xs with
  | ret a => simpa using hf [] a (.ret a)
  | call c k ih =>
      refine ⟨hp.1, fun r ↦ ih r (hp.2 r) fun ys a hpath ↦ ?_⟩
      simpa using hf (⟨c, r⟩ :: ys) a (.call c r hpath)
  | stall => trivial

/-- Whatever the program has become, it is guarded by what was exchanged on the way. -/
theorem steps {p p' : Prog Call Reply α} {ys : List (Exchange Call Reply)} (hp : Guarded P xs p)
    (h : p.Steps ys p') : Guarded P (xs ++ ys) p' := by
  induction h with
  | nil => simpa using hp
  | snoc h r ih => simpa using ih.2 r

/-- What may be relied on after some exchanges may be relied on after more of them. -/
theorem behind {ys : List (Exchange Call Reply)} {p : Prog Call Reply α}
    (hP : ∀ xs c, P xs c → P (ys ++ xs) c) (hp : Guarded P xs p) : Guarded P (ys ++ xs) p := by
  induction p generalizing xs with
  | ret a => trivial
  | call c k ih =>
      refine ⟨hP _ _ hp.1, fun r ↦ ?_⟩
      rw [List.append_assoc]
      exact ih r (hp.2 r)
  | stall => trivial

/-- A loop whose rounds are guarded wherever they begin. -/
theorem iterate {ι : Type} {body : ι → Prog Call Reply (ι ⊕ β)}
    (hbody : ∀ xs i, Guarded P xs (body i)) :
    ∀ (rounds : ℕ) (xs : List (Exchange Call Reply)) (i : ι),
      Guarded P xs (Prog.iterate body rounds i) := by
  intro rounds
  induction rounds with
  | zero => exact fun _ _ ↦ trivial
  | succ n ih =>
      refine fun xs i ↦ (hbody xs i).bind fun ys r _ ↦ ?_
      cases r with
      | inl i' => exact ih _ i'
      | inr b => trivial

section Handler

variable {Call' : Type} {Reply' : Call' → Type} {Q : List (Exchange Call' Reply') → Call' → Prop}
  {h : (c : Call) → σ → Prog Call' Reply' (Reply c × σ)}
  {sim : List (Exchange Call Reply) → σ → List (Exchange Call' Reply') → Prop}
  {p : Prog Call Reply α} {s : σ} {ys : List (Exchange Call' Reply')}

/-- Handling a guarded program: `sim` says how the handler's state and exchanges stand to the
program's, and each permitted call keeps it and is answered by guarded calls. -/
theorem handleWith (hcalls : ∀ us s ys c, sim us s ys → P us c → Guarded Q ys (h c s))
    (hkeeps : ∀ us s ys c zs r, sim us s ys → P us c → Path (h c s) zs r →
      sim (us ++ [⟨c, r.1⟩]) r.2 (ys ++ zs))
    (hp : Guarded P xs p) (hs : sim xs s ys) : Guarded Q ys (p.handleWith h s) := by
  induction p generalizing xs s ys with
  | ret a => trivial
  | call c k ih =>
      exact (hcalls xs s ys c hs hp.1).bind fun zs r hpath ↦
        ih r.1 (hp.2 r.1) (hkeeps xs s ys c zs r hs hp.1 hpath)
  | stall => trivial

end Handler

end Guarded

end Prog

variable {sys : System Call Reply σ Job}
  {ok : List (Event Call Reply Job) → Pool Call Reply σ Job → Event Call Reply Job → Prop}
  {w : σ} {q : Pool Call Reply σ Job} {tr tr₁ tr₂ : List (Event Call Reply Job)}

/-- Every call of a run comes after what its job's program is guarded by. -/
theorem Run.guarded (h : Run sys ok (Pool.init w) tr q) {i : ℕ} {c : Call} {r : Reply c}
    (heq : tr = tr₁ ++ .call i c r :: tr₂)
    {P : Job → List (Exchange Call Reply) → Call → Prop}
    (hguard : ∀ j, (sys.prog j).Guarded (P j) []) :
    ∃ j, q.jobAt i = some j ∧ P j (exchangesOf i tr₁) c := by
  obtain ⟨q₁, hrun, -, hjobs, hcall⟩ := h.split heq
  obtain ⟨⟨j, k, hi⟩, -⟩ := hcall i c r rfl
  have hsteps := (hguard j).steps (hrun.steps.1 i _ hi)
  exact ⟨j, hjobs i j (Pool.jobAt_of_procs hi), by simpa using hsteps.1⟩

end Interact
