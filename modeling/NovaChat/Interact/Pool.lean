import NovaChat.Interact.Session

/-!
# Pools of programs

Any number of programs share one state and take turns; a turn is one call, carried out as a
single atomic step.  A run records its events.  `ok` restricts a run step by step: it says
which jobs may start when, and a theorem about runs that meet a further condition is a theorem
about a stronger `ok`.

`Run.invariant` reduces a statement about every run of every pool to one obligation for each
call a session allows.  The programs themselves have disappeared from it: each of them was
shown once to follow its session.
-/

namespace Interact

/-- An event of a list that was extended is the new one or an old one. -/
theorem snoc_eq_append_cons {α : Type} {xs ys zs : List α} {x y : α}
    (h : xs ++ [y] = ys ++ x :: zs) : (xs = ys ∧ y = x) ∨ ∃ zs', xs = ys ++ x :: zs' := by
  rcases List.eq_nil_or_concat zs with rfl | ⟨zs', z, rfl⟩
  · obtain ⟨rfl, heq⟩ := List.append_inj' h rfl
    exact Or.inl ⟨rfl, by simpa using heq⟩
  · have h' : xs ++ [y] = (ys ++ x :: zs') ++ [z] := by simpa using h
    exact Or.inr ⟨zs', (List.append_inj' h' rfl).1⟩

/-- What the calls do to the shared state, and the program each kind of job runs. -/
structure System (Call : Type) (Reply : Call → Type) (σ Job : Type) where
  exec : (c : Call) → σ → Reply c × σ
  prog : Job → Prog Call Reply Unit

/-- A started job and what is left of its program. -/
structure Proc (Call : Type) (Reply : Call → Type) (Job : Type) where
  job : Job
  prog : Prog Call Reply Unit

/-- The shared state and every job started so far, finished ones included. -/
structure Pool (Call : Type) (Reply : Call → Type) (σ Job : Type) where
  world : σ
  procs : List (Proc Call Reply Job)

inductive Event (Call : Type) (Reply : Call → Type) (Job : Type)
  | start (job : Job)
  | call (pid : ℕ) (c : Call) (r : Reply c)

/-- What a scheduler may choose. -/
inductive Action (Job : Type)
  | start (job : Job)
  | turn (pid : ℕ)

variable {Call : Type} {Reply : Call → Type} {σ Job : Type}

namespace Pool

/-- The pool in which no job has started. -/
def init (w : σ) : Pool Call Reply σ Job := ⟨w, []⟩

def start (sys : System Call Reply σ Job) (p : Pool Call Reply σ Job) (j : Job) :
    Pool Call Reply σ Job :=
  { p with procs := p.procs ++ [⟨j, sys.prog j⟩] }

/-- Process `i`, running job `j`, makes call `c` and goes on with `k`. -/
def turn (sys : System Call Reply σ Job) (p : Pool Call Reply σ Job) (i : ℕ) (j : Job)
    (c : Call) (k : Reply c → Prog Call Reply Unit) : Pool Call Reply σ Job where
  world := (sys.exec c p.world).2
  procs := p.procs.set i ⟨j, k (sys.exec c p.world).1⟩

/-- Carry out one scheduling choice, if it is possible. -/
def act (sys : System Call Reply σ Job) (p : Pool Call Reply σ Job) :
    Action Job → Option (Event Call Reply Job × Pool Call Reply σ Job)
  | .start j => some (.start j, p.start sys j)
  | .turn i =>
    match p.procs[i]? with
    | some ⟨j, .call c k⟩ => some (.call i c (sys.exec c p.world).1, p.turn sys i j c k)
    | _ => none

/-- The next call of process `i`, if it has one. -/
def pending (p : Pool Call Reply σ Job) (i : ℕ) : Option Call :=
  match p.procs[i]? with
  | some ⟨_, .call c _⟩ => some c
  | _ => none

/-- The job process `i` was started for. -/
def jobAt (p : Pool Call Reply σ Job) (i : ℕ) : Option Job :=
  p.procs[i]?.map Proc.job

theorem pending_of_procs {p : Pool Call Reply σ Job} {i : ℕ} {j : Job} {c : Call}
    {k : Reply c → Prog Call Reply Unit} (h : p.procs[i]? = some ⟨j, .call c k⟩) :
    p.pending i = some c := by
  simp [pending, h]

theorem jobAt_of_procs {p : Pool Call Reply σ Job} {i : ℕ} {x : Proc Call Reply Job}
    (h : p.procs[i]? = some x) : p.jobAt i = some x.job := by
  simp [jobAt, h]

/-- A turn changes no process's job. -/
theorem jobAt_turn {sys : System Call Reply σ Job} {p : Pool Call Reply σ Job} {i : ℕ}
    {j : Job} {c : Call} {k : Reply c → Prog Call Reply Unit}
    (h : p.procs[i]? = some ⟨j, .call c k⟩) (i' : ℕ) :
    (p.turn sys i j c k).jobAt i' = p.jobAt i' := by
  by_cases hi : i = i'
  · subst hi
    obtain ⟨hlt, heq⟩ := List.getElem?_eq_some_iff.mp h
    simp [jobAt, turn, hlt, heq]
  · simp [jobAt, turn, hi]

theorem jobAt_start {sys : System Call Reply σ Job} {p : Pool Call Reply σ Job} {j j' : Job}
    {i : ℕ} (h : p.jobAt i = some j') : (p.start sys j).jobAt i = some j' := by
  obtain ⟨x, hx, rfl⟩ : ∃ x, p.procs[i]? = some x ∧ x.job = j' := by
    simpa [jobAt] using h
  have hlt : i < p.procs.length := (List.getElem?_eq_some_iff.mp hx).1
  simp [jobAt, start, List.getElem?_append_left hlt, hx]

end Pool

/-- The runs from `p`, every step of which `ok` permits. -/
inductive Run (sys : System Call Reply σ Job)
    (ok : List (Event Call Reply Job) → Pool Call Reply σ Job → Event Call Reply Job → Prop)
    (p : Pool Call Reply σ Job) :
    List (Event Call Reply Job) → Pool Call Reply σ Job → Prop
  | nil : Run sys ok p [] p
  | start {tr q j} : Run sys ok p tr q → ok tr q (.start j) →
      Run sys ok p (tr ++ [.start j]) (q.start sys j)
  | turn {tr q i j c k} : Run sys ok p tr q → q.procs[i]? = some ⟨j, .call c k⟩ →
      ok tr q (.call i c (sys.exec c q.world).1) →
      Run sys ok p (tr ++ [.call i c (sys.exec c q.world).1]) (q.turn sys i j c k)

variable {sys : System Call Reply σ Job}
  {ok ok' : List (Event Call Reply Job) → Pool Call Reply σ Job → Event Call Reply Job → Prop}
  {p q : Pool Call Reply σ Job} {tr : List (Event Call Reply Job)}

theorem Run.mono (hok : ∀ tr q e, ok tr q e → ok' tr q e) (h : Run sys ok p tr q) :
    Run sys ok' p tr q := by
  induction h with
  | nil => exact .nil
  | start _ hj ih => exact .start ih (hok _ _ _ hj)
  | turn _ hi hc ih => exact .turn ih hi (hok _ _ _ hc)

/-- A run followed by a run from where it ended. -/
theorem Run.append {q' : Pool Call Reply σ Job} {tr' : List (Event Call Reply Job)}
    (h : Run sys ok p tr q) (h' : Run sys (fun t ↦ ok (tr ++ t)) q tr' q') :
    Run sys ok p (tr ++ tr') q' := by
  induction h' with
  | nil => simpa using h
  | start _ hj ih =>
      rw [← List.append_assoc]
      exact .start ih hj
  | turn _ hi hc ih =>
      rw [← List.append_assoc]
      exact .turn ih hi hc

theorem Run.act {a : Action Job} {e : Event Call Reply Job} {q' : Pool Call Reply σ Job}
    (h : Run sys ok p tr q) (ha : q.act sys a = some (e, q')) (hok : ok tr q e) :
    Run sys ok p (tr ++ [e]) q' := by
  cases a with
  | start j =>
      obtain ⟨rfl, rfl⟩ : Event.start j = e ∧ q.start sys j = q' := by
        simpa [Pool.act] using ha
      exact h.start hok
  | turn i =>
      simp only [Pool.act] at ha
      split at ha
      · next j c k hi =>
          obtain ⟨rfl, rfl⟩ : Event.call i c (sys.exec c q.world).1 = e ∧
              q.turn sys i j c k = q' := by simpa using ha
          exact h.turn hi hok
      · cases ha

/-- The events of a run determine where it ends. -/
theorem Run.unique {q' : Pool Call Reply σ Job} (h : Run sys ok p tr q)
    (h' : Run sys ok' p tr q') : q = q' := by
  generalize htr : tr = tr' at h'
  induction h generalizing tr' q' with
  | nil => cases h' <;> simp_all
  | start _ _ ih =>
      cases h' with
      | nil => simp at htr
      | start h' _ =>
          obtain ⟨rfl, heq⟩ := List.append_inj' htr rfl
          obtain rfl := Event.start.inj (List.singleton_inj.mp heq)
          rw [ih _ rfl h']
      | turn =>
          obtain ⟨-, heq⟩ := List.append_inj' htr rfl
          cases List.singleton_inj.mp heq
  | @turn _ q i j c k _ hi _ ih =>
      cases h' with
      | nil => simp at htr
      | start =>
          obtain ⟨-, heq⟩ := List.append_inj' htr rfl
          cases List.singleton_inj.mp heq
      | @turn _ q₁ i' j' c' k' h' hi' _ =>
          obtain ⟨rfl, heq⟩ := List.append_inj' htr rfl
          obtain rfl := ih _ rfl h'
          obtain ⟨rfl, rfl, -⟩ := Event.call.inj (List.singleton_inj.mp heq)
          obtain ⟨rfl, hcall⟩ := Proc.mk.inj (Option.some.inj (hi.symm.trans hi'))
          obtain ⟨-, rfl⟩ := Prog.call.inj hcall
          rfl

/-! ## Concrete schedules -/

/-- Carry out a schedule, checking each step. -/
def schedule (sys : System Call Reply σ Job)
    (check : List (Event Call Reply Job) → Pool Call Reply σ Job → Event Call Reply Job → Bool) :
    List (Action Job) → List (Event Call Reply Job) → Pool Call Reply σ Job →
      Option (List (Event Call Reply Job) × Pool Call Reply σ Job)
  | [], tr, p => some (tr, p)
  | a :: as, tr, p =>
    match p.act sys a with
    | none => none
    | some (e, p') => if check tr p e then schedule sys check as (tr ++ [e]) p' else none

/-- A schedule that is carried out is a run; its checks may rely on what is known of the jobs. -/
theorem Run.of_schedule_jobs {good : Job → Prop}
    {check : List (Event Call Reply Job) → Pool Call Reply σ Job → Event Call Reply Job → Bool}
    (hcheck : ∀ tr p e, (∀ i j, p.jobAt i = some j → good j) → (∀ j, e = .start j → good j) →
      check tr p e = true → ok tr p e) :
    ∀ (as : List (Action Job)) {tr tr' : List (Event Call Reply Job)}
      {q q' : Pool Call Reply σ Job}, (∀ j, .start j ∈ as → good j) →
      (∀ i j, q.jobAt i = some j → good j) →
      Run sys ok p tr q → schedule sys check as tr q = some (tr', q') → Run sys ok p tr' q' := by
  intro as
  induction as with
  | nil =>
      intro tr tr' q q' _ _ h hs
      obtain ⟨rfl, rfl⟩ : tr = tr' ∧ q = q' := by simpa [schedule] using hs
      exact h
  | cons a as ih =>
      intro tr tr' q q' has hq h hs
      simp only [schedule] at hs
      split at hs
      · cases hs
      · next e p' ha =>
          split at hs
          · next hc =>
              have hstart : ∀ j, e = .start j → good j := by
                rintro j rfl
                cases a with
                | start j' =>
                    simp only [Pool.act, Option.some.injEq, Prod.mk.injEq, Event.start.injEq] at ha
                    exact ha.1 ▸ has j' List.mem_cons_self
                | turn i =>
                    simp only [Pool.act] at ha
                    split at ha <;> simp at ha
              refine ih (fun j hj ↦ has j (List.mem_cons_of_mem _ hj)) ?_
                (h.act ha (hcheck _ _ _ hq hstart hc)) hs
              cases a with
              | start j =>
                  obtain ⟨-, rfl⟩ : Event.start j = e ∧ q.start sys j = p' := by
                    simpa [Pool.act] using ha
                  intro i j' hj'
                  rcases Nat.lt_or_ge i q.procs.length with hi | hi
                  · simp only [Pool.jobAt, Pool.start, List.getElem?_append_left hi] at hj'
                    exact hq i j' hj'
                  · simp only [Pool.jobAt, Pool.start, List.getElem?_append_right hi] at hj'
                    obtain ⟨x, hx, rfl⟩ := Option.map_eq_some_iff.mp hj'
                    obtain rfl := List.mem_singleton.mp (List.mem_of_getElem? hx)
                    exact has j (List.mem_cons_self ..)
              | turn i =>
                  simp only [Pool.act] at ha
                  split at ha
                  · next j c k hi =>
                      obtain ⟨-, rfl⟩ : Event.call i c (sys.exec c q.world).1 = e ∧
                          q.turn sys i j c k = p' := by simpa using ha
                      intro i' j' hj'
                      exact hq i' j' ((Pool.jobAt_turn hi i').symm.trans hj')
                  · cases ha
          · cases hs

/-- A schedule that is carried out is a run. -/
theorem Run.of_schedule
    {check : List (Event Call Reply Job) → Pool Call Reply σ Job → Event Call Reply Job → Bool}
    (hcheck : ∀ tr p e, check tr p e = true → ok tr p e) (as : List (Action Job))
    {tr tr' : List (Event Call Reply Job)} {q q' : Pool Call Reply σ Job}
    (h : Run sys ok p tr q) (hs : schedule sys check as tr q = some (tr', q')) :
    Run sys ok p tr' q' :=
  @Run.of_schedule_jobs _ _ _ _ sys ok p (fun _ ↦ True) check
    (fun tr p e _ _ ↦ hcheck tr p e) as _ _ _ _
    (fun _ _ ↦ trivial) (fun _ _ _ ↦ trivial) h hs

/-- A checked schedule of known jobs yields a run, and whatever was tested at its end. -/
theorem Run.exists_of_schedule_jobs (sys : System Call Reply σ Job) (w : σ) (good : Job → Prop)
    (check : List (Event Call Reply Job) → Pool Call Reply σ Job → Event Call Reply Job → Bool)
    (test : List (Event Call Reply Job) → Pool Call Reply σ Job → Bool)
    (hcheck : ∀ tr p e, (∀ i j, p.jobAt i = some j → good j) → (∀ j, e = .start j → good j) →
      check tr p e = true → ok tr p e)
    (as : List (Action Job)) (has : ∀ j, .start j ∈ as → good j)
    (h : ((schedule sys check as [] (Pool.init w)).any fun r ↦ test r.1 r.2) = true) :
    ∃ tr q, Run sys ok (Pool.init w) tr q ∧ test tr q = true := by
  obtain ⟨⟨tr, q⟩, hs, htest⟩ := (Option.any_eq_true _ _).mp h
  refine ⟨tr, q, Run.of_schedule_jobs hcheck as has (fun i j hj ↦ ?_) .nil hs, htest⟩
  simp [Pool.jobAt, Pool.init] at hj

/-- A checked schedule yields a run, and whatever was tested at its end. -/
theorem Run.exists_of_schedule (sys : System Call Reply σ Job) (p : Pool Call Reply σ Job)
    (check : List (Event Call Reply Job) → Pool Call Reply σ Job → Event Call Reply Job → Bool)
    (test : List (Event Call Reply Job) → Pool Call Reply σ Job → Bool)
    (hcheck : ∀ tr p e, check tr p e = true → ok tr p e) (as : List (Action Job))
    (h : ((schedule sys check as [] p).any fun r ↦ test r.1 r.2) = true) :
    ∃ tr q, Run sys ok p tr q ∧ test tr q = true := by
  obtain ⟨⟨tr, q⟩, hs, htest⟩ := (Option.any_eq_true _ _).mp h
  exact ⟨tr, q, Run.of_schedule hcheck as .nil hs, htest⟩

/-! ## Invariants -/

/-- An invariant of the shared state alone that every permitted call keeps. -/
theorem Run.world_invariant {J : σ → Prop}
    (hcall : ∀ tr q i c, J q.world → ok tr q (.call i c (sys.exec c q.world).1) →
      J (sys.exec c q.world).2)
    (h : Run sys ok p tr q) (h0 : J p.world) : J q.world := by
  induction h with
  | nil => exact h0
  | start _ _ ih => exact ih
  | turn _ _ hc ih => exact hcall _ _ _ _ ih hc

namespace Session

variable (S : Session Call Reply) (first : Job → S.State)

/-- How one event moves the sessions of all processes. -/
def advance (ss : List S.State) : Event Call Reply Job → List S.State
  | .start j => ss ++ [first j]
  | .call i c r => ss.modify i fun s ↦ S.next s c r

/-- The sessions all processes are in after the given events. -/
def track (tr : List (Event Call Reply Job)) : List S.State :=
  tr.foldl (S.advance first) []

@[simp] theorem track_nil : S.track first ([] : List (Event Call Reply Job)) = [] := rfl

@[simp] theorem track_snoc (tr : List (Event Call Reply Job)) (e : Event Call Reply Job) :
    S.track first (tr ++ [e]) = S.advance first (S.track first tr) e := by
  simp [track]

/-- Every process of the pool keeps to the session it is in. -/
structure Keeps (post : S.State → Unit → Prop) (p : Pool Call Reply σ Job)
    (ss : List S.State) : Prop where
  length : ss.length = p.procs.length
  follows : ∀ {i : ℕ} {x : Proc Call Reply Job} {s : S.State},
    p.procs[i]? = some x → ss[i]? = some s → S.Follows post s x.prog

variable {S first} {post : S.State → Unit → Prop} {ss : List S.State}

theorem Keeps.session {i : ℕ} {x : Proc Call Reply Job} (h : S.Keeps post p ss)
    (hi : p.procs[i]? = some x) : ∃ s, ss[i]? = some s ∧ S.Follows post s x.prog := by
  have hlt : i < ss.length := h.length ▸ (List.getElem?_eq_some_iff.mp hi).1
  exact ⟨ss[i], List.getElem?_eq_getElem hlt, h.follows hi (List.getElem?_eq_getElem hlt)⟩

theorem Keeps.proc {i : ℕ} {s : S.State} (h : S.Keeps post p ss) (hs : ss[i]? = some s) :
    ∃ x, p.procs[i]? = some x ∧ S.Follows post s x.prog := by
  have hlt : i < p.procs.length := h.length ▸ (List.getElem?_eq_some_iff.mp hs).1
  exact ⟨p.procs[i], List.getElem?_eq_getElem hlt, h.follows (List.getElem?_eq_getElem hlt) hs⟩

theorem Keeps.start {j : Job} (h : S.Keeps post p ss)
    (hj : S.Follows post (first j) (sys.prog j)) :
    S.Keeps post (p.start sys j) (S.advance first ss (.start j)) where
  length := by simp [advance, Pool.start, h.length]
  follows := by
    intro i x s hx hs
    simp only [advance, Pool.start] at hx hs
    rcases Nat.lt_or_ge i p.procs.length with hi | hi
    · rw [List.getElem?_append_left hi] at hx
      rw [List.getElem?_append_left (h.length ▸ hi)] at hs
      exact h.follows hx hs
    · rw [List.getElem?_append_right hi] at hx
      rw [List.getElem?_append_right (h.length ▸ hi), h.length] at hs
      have hzero : i - p.procs.length = 0 := by
        have := (List.getElem?_eq_some_iff.mp hx).1
        simpa using this
      simp only [hzero, List.getElem?_cons_zero, Option.some.injEq] at hx hs
      subst hx hs
      exact hj

theorem Keeps.turn {i : ℕ} {j : Job} {c : Call} {k : Reply c → Prog Call Reply Unit}
    (h : S.Keeps post p ss) (hi : p.procs[i]? = some ⟨j, .call c k⟩)
    (hans : S.answers c (sys.exec c p.world).1) :
    S.Keeps post (p.turn sys i j c k)
      (S.advance first ss (.call i c (sys.exec c p.world).1)) where
  length := by simp [advance, Pool.turn, h.length]
  follows := by
    intro i' x s hx hs
    obtain ⟨s₀, hs₀, hfollow⟩ := h.session hi
    simp only [advance, Pool.turn, List.getElem?_modify, List.getElem?_set] at hx hs
    by_cases hii : i = i'
    · subst hii
      have hlt : i < p.procs.length := (List.getElem?_eq_some_iff.mp hi).1
      simp only [hs₀, hlt, if_true] at hx hs
      obtain rfl : (⟨j, k (sys.exec c p.world).1⟩ : Proc Call Reply Job) = x := by simpa using hx
      obtain rfl : S.next s₀ c (sys.exec c p.world).1 = s := by simpa using hs
      exact hfollow.2 _ hans
    · simp only [hii, if_false] at hx hs
      exact h.follows hx (by simpa using hs)

/-- The sessions after process `i`, in session `s`, has made call `c`. -/
theorem getElem?_advance_call {i i' : ℕ} {s : S.State} {c : Call} {r : Reply c}
    (hs : ss[i]? = some s) :
    (S.advance first ss (.call i c r))[i']? =
      if i = i' then some (S.next s c r) else ss[i']? := by
  simp only [advance, List.getElem?_modify]
  by_cases h : i = i'
  · subst h
    simp [hs]
  · simp [h]

/-- The sessions after job `j` has started. -/
theorem getElem?_advance_start {i : ℕ} {j : Job} {s : S.State}
    (h : (S.advance first ss (.start j : Event Call Reply Job))[i]? = some s) :
    ss[i]? = some s ∨ (i = ss.length ∧ s = first j) := by
  simp only [advance] at h
  rcases Nat.lt_or_ge i ss.length with hi | hi
  · rw [List.getElem?_append_left hi] at h
    exact Or.inl h
  · rw [List.getElem?_append_right hi] at h
    have hzero : i - ss.length = 0 := by
      have := (List.getElem?_eq_some_iff.mp h).1
      simpa using this
    refine Or.inr ⟨by omega, ?_⟩
    simpa [hzero, eq_comm] using h

theorem getElem?_advance_start_of_some {i : ℕ} {j : Job} {s : S.State} (h : ss[i]? = some s) :
    (S.advance first ss (.start j : Event Call Reply Job))[i]? = some s := by
  simp only [advance]
  rw [List.getElem?_append_left (List.getElem?_eq_some_iff.mp h).1, h]

/-- Two sessions kept side by side advance side by side. -/
theorem map_fst_advance_prod (S T : Session Call Reply) (first : Job → S.State)
    (first' : Job → T.State) (ss : List (S.State × T.State)) (e : Event Call Reply Job) :
    ((S.prod T).advance (fun j ↦ (first j, first' j)) ss e).map Prod.fst =
      S.advance first (ss.map Prod.fst) e := by
  cases e with
  | start j => exact List.map_append
  | call i c r =>
      refine List.ext_getElem? fun k ↦ ?_
      have hleft : (((S.prod T).advance (fun j ↦ (first j, first' j)) ss (.call i c r : Event Call
          Reply Job)).map Prod.fst)[k]? = ((ss.modify i fun st ↦
            (S.next st.1 c r, T.next st.2 c r)).map Prod.fst)[k]? := rfl
      rw [hleft]
      simp only [advance, List.getElem?_map, List.getElem?_modify]
      by_cases h : i = k <;> cases ss[k]? <;> simp [h]

theorem map_snd_advance_prod (S T : Session Call Reply) (first : Job → S.State)
    (first' : Job → T.State) (ss : List (S.State × T.State)) (e : Event Call Reply Job) :
    ((S.prod T).advance (fun j ↦ (first j, first' j)) ss e).map Prod.snd =
      T.advance first' (ss.map Prod.snd) e := by
  cases e with
  | start j => exact List.map_append
  | call i c r =>
      refine List.ext_getElem? fun k ↦ ?_
      have hright : (((S.prod T).advance (fun j ↦ (first j, first' j)) ss (.call i c r : Event Call
          Reply Job)).map Prod.snd)[k]? = ((ss.modify i fun st ↦
            (S.next st.1 c r, T.next st.2 c r)).map Prod.snd)[k]? := rfl
      rw [hright]
      simp only [advance, List.getElem?_map, List.getElem?_modify]
      by_cases h : i = k <;> cases ss[k]? <;> simp [h]

end Session

/-- The invariant rule for pools.  Every job's program follows its session; the invariant
bounds the replies and survives each start and each call the session of the caller allows. -/
theorem Run.invariant (S : Session Call Reply) (first : Job → S.State)
    (post : S.State → Unit → Prop)
    {I : List (Event Call Reply Job) → Pool Call Reply σ Job → List S.State → Prop}
    (hprog : ∀ tr q j, ok tr q (.start j) → S.Follows post (first j) (sys.prog j))
    (hans : ∀ {tr q ss} c, I tr q ss → S.answers c (sys.exec c q.world).1)
    (hstart : ∀ {tr q ss} j, I tr q ss → S.Keeps post q ss → ok tr q (.start j) →
      I (tr ++ [.start j]) (q.start sys j) (S.advance first ss (.start j)))
    (hcall : ∀ {tr q ss i j c k s}, I tr q ss → S.Keeps post q ss →
      q.procs[i]? = some ⟨j, .call c k⟩ → ss[i]? = some s → S.allowed s c →
      ok tr q (.call i c (sys.exec c q.world).1) →
      I (tr ++ [.call i c (sys.exec c q.world).1]) (q.turn sys i j c k)
        (S.advance first ss (.call i c (sys.exec c q.world).1)))
    {w : σ} (h0 : I [] (Pool.init w) []) (h : Run sys ok (Pool.init w) tr q) :
    I tr q (S.track first tr) ∧ S.Keeps post q (S.track first tr) := by
  induction h with
  | nil => exact ⟨h0, ⟨rfl, by simp [Pool.init]⟩⟩
  | start _ hj ih =>
      rw [Session.track_snoc]
      exact ⟨hstart _ ih.1 ih.2 hj, ih.2.start (hprog _ _ _ hj)⟩
  | turn _ hi hc ih =>
      rw [Session.track_snoc]
      obtain ⟨s, hs, hfollow⟩ := ih.2.session hi
      exact ⟨hcall ih.1 ih.2 hi hs hfollow.1 hc, ih.2.turn hi (hans _ ih.1)⟩

end Interact
