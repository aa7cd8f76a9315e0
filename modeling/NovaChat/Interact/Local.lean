import NovaChat.Interact.Path
import NovaChat.Interact.Pool

/-!
# What one process did

The calls of one process, taken out of the trace of a pool, are a way its program can go.  So a
statement about every path of a program holds of that program in every run, and once the process
has returned nothing of it is left to be done.
-/

namespace Interact

variable {Call : Type} {Reply : Call → Type} {σ Job : Type}

namespace Prog

variable {α : Type}

/-- The exchanges after which a program has become another. -/
inductive Steps (p : Prog Call Reply α) : List (Exchange Call Reply) → Prog Call Reply α → Prop
  | nil : Steps p [] p
  | snoc {xs c k} (h : Steps p xs (.call c k)) (r : Reply c) : Steps p (xs ++ [⟨c, r⟩]) (k r)

theorem Steps.path {p q : Prog Call Reply α} {xs ys : List (Exchange Call Reply)} {a : α}
    (h : p.Steps xs q) (hq : Path q ys a) : Path p (xs ++ ys) a := by
  induction h generalizing ys with
  | nil => exact hq
  | snoc h r ih =>
      rw [List.append_assoc]
      exact ih (.call _ r hq)

/-- A program that has returned has gone a path. -/
theorem Steps.path_of_ret {p : Prog Call Reply α} {xs : List (Exchange Call Reply)} {a : α}
    (h : p.Steps xs (.ret a)) : Path p xs a := by
  simpa using h.path (.ret a)

theorem Steps.ret {p : Prog Call Reply α} {a : α} {xs : List (Exchange Call Reply)}
    (h : (Prog.ret a).Steps xs p) : xs = [] ∧ p = .ret a := by
  induction h with
  | nil => exact ⟨rfl, rfl⟩
  | snoc h r ih => cases ih.2

/-- The first step of a program is its first call. -/
theorem Steps.call {p : Prog Call Reply α} {c : Call} {k : Reply c → Prog Call Reply α}
    {xs : List (Exchange Call Reply)} (h : (Prog.call c k).Steps xs p) :
    xs = [] ∧ p = .call c k ∨ ∃ r ys, xs = ⟨c, r⟩ :: ys ∧ (k r).Steps ys p := by
  induction h with
  | nil => exact Or.inl ⟨rfl, rfl⟩
  | snoc h r ih =>
      rcases ih with ⟨rfl, heq⟩ | ⟨r', ys, rfl, hys⟩
      · obtain ⟨rfl, hk⟩ := Prog.call.inj heq
        obtain rfl := eq_of_heq hk
        exact Or.inr ⟨r, [], rfl, .nil⟩
      · exact Or.inr ⟨r', ys ++ [_], rfl, hys.snoc r⟩

/-- A program in two parts is in its first, or has gone a path of it and is in its second. -/
theorem Steps.bind {p : Prog Call Reply α} {f : α → Prog Call Reply β}
    {xs : List (Exchange Call Reply)} {q : Prog Call Reply β} (h : (p >>= f).Steps xs q) :
    (∃ p', p.Steps xs p' ∧ q = (p' >>= f)) ∨
      ∃ ys zs a, xs = ys ++ zs ∧ Path p ys a ∧ (f a).Steps zs q := by
  induction h with
  | nil => exact Or.inl ⟨p, .nil, rfl⟩
  | @snoc xs c k h r ih =>
      rcases ih with ⟨p', hp', heq⟩ | ⟨ys, zs, a, rfl, hpath, hf⟩
      · cases p' with
        | ret a =>
            have hfirst : (f a).Steps [] (.call c k) := by
              rw [heq, ret_bind]
              exact .nil
            exact Or.inr ⟨xs, [⟨c, r⟩], a, rfl, hp'.path_of_ret, hfirst.snoc r⟩
        | call c' k' =>
            obtain ⟨rfl, hk⟩ := Prog.call.inj heq
            obtain rfl := eq_of_heq hk
            exact Or.inl ⟨k' r, hp'.snoc r, rfl⟩
        | stall => cases heq
      · exact Or.inr ⟨ys, zs ++ [⟨c, r⟩], a, List.append_assoc .., hpath, hf.snoc r⟩

/-- On its way a program makes nothing but its calls. -/
theorem Steps.onlyCalls {P : Call → Prop} {p q : Prog Call Reply α}
    {xs : List (Exchange Call Reply)} (hp : p.OnlyCalls P) (h : p.Steps xs q) :
    q.OnlyCalls P ∧ ∀ x ∈ xs, P x.call := by
  induction h with
  | nil => exact ⟨hp, fun x hx ↦ by cases hx⟩
  | snoc h r ih =>
      refine ⟨ih.1.2 r, fun x hx ↦ ?_⟩
      rcases List.mem_append.mp hx with hx | hx
      · exact ih.2 x hx
      · rw [List.mem_singleton.mp hx]
        exact ih.1.1

end Prog

/-- What process `i` exchanged in an event. -/
def Event.by (i : ℕ) : Event Call Reply Job → Option (Exchange Call Reply)
  | .start _ => none
  | .call pid c r => if pid = i then some ⟨c, r⟩ else none

/-- What process `i` exchanged, oldest first. -/
def exchangesOf (i : ℕ) (tr : List (Event Call Reply Job)) : List (Exchange Call Reply) :=
  tr.filterMap (Event.by i)

section exchangesOf

variable (i : ℕ) (tr : List (Event Call Reply Job))

@[simp] theorem exchangesOf_nil : exchangesOf i ([] : List (Event Call Reply Job)) = [] := rfl

@[simp] theorem exchangesOf_start (j : Job) :
    exchangesOf i (tr ++ [.start j]) = exchangesOf i tr := by
  simp [exchangesOf, Event.by]

@[simp] theorem exchangesOf_call (pid : ℕ) (c : Call) (r : Reply c) :
    exchangesOf i (tr ++ [.call pid c r]) =
      exchangesOf i tr ++ if pid = i then [⟨c, r⟩] else [] := by
  by_cases h : pid = i <;> simp [exchangesOf, Event.by, h]

variable {i tr}

theorem mem_exchangesOf {c : Call} {r : Reply c} :
    (⟨c, r⟩ : Exchange Call Reply) ∈ exchangesOf i tr ↔ Event.call i c r ∈ tr := by
  constructor
  · intro h
    obtain ⟨e, he, heq⟩ := List.mem_filterMap.mp h
    cases e with
    | start j => cases heq
    | call pid c' r' =>
        simp only [Event.by] at heq
        split_ifs at heq with hpid
        obtain ⟨rfl, rfl⟩ := Exchange.mk.inj (Option.some.inj heq)
        exact hpid ▸ he
  · exact fun h ↦ List.mem_filterMap.mpr ⟨_, h, by simp [Event.by]⟩

/-- What a process exchanged first stays the first. -/
theorem head?_exchangesOf_append {x : Exchange Call Reply} (h : (exchangesOf i tr).head? = some x)
    (tr' : List (Event Call Reply Job)) : (exchangesOf i (tr ++ tr')).head? = some x := by
  have happend : exchangesOf i (tr ++ tr') = exchangesOf i tr ++ exchangesOf i tr' :=
    List.filterMap_append
  rw [happend, List.head?_append, h]
  rfl

/-- Where a process made an exchange, the trace shows the call. -/
theorem exchangesOf_eq_append {x : Exchange Call Reply} {ys zs : List (Exchange Call Reply)}
    (h : exchangesOf i tr = ys ++ x :: zs) :
    ∃ tr₁ tr₂, tr = tr₁ ++ .call i x.call x.reply :: tr₂ ∧ exchangesOf i tr₁ = ys ∧
      exchangesOf i tr₂ = zs := by
  obtain ⟨tr₁, rest, rfl, hys, hrest⟩ := List.filterMap_eq_append_iff.mp h
  obtain ⟨skipped, e, tr₂, rfl, hskipped, he, hzs⟩ := List.filterMap_eq_cons_iff.mp hrest
  refine ⟨tr₁ ++ skipped, tr₂, ?_, ?_, hzs⟩
  · cases e with
    | start j => cases he
    | call pid c r =>
        simp only [Event.by] at he
        split_ifs at he with hpid
        obtain rfl := Option.some.inj he
        rw [hpid, List.append_assoc]
  · simpa [exchangesOf, hys] using hskipped

end exchangesOf

variable {sys : System Call Reply σ Job}
  {ok : List (Event Call Reply Job) → Pool Call Reply σ Job → Event Call Reply Job → Prop}
  {w : σ} {q : Pool Call Reply σ Job} {tr : List (Event Call Reply Job)}

/-- Every process has taken the steps of its job's program that the trace shows of it, and the
trace shows nothing of processes that have not started. -/
theorem Run.steps (h : Run sys ok (Pool.init w) tr q) :
    (∀ (i : ℕ) (x : Proc Call Reply Job), q.procs[i]? = some x →
      (sys.prog x.job).Steps (exchangesOf i tr) x.prog) ∧
    ∀ i, q.procs.length ≤ i → exchangesOf i tr = [] := by
  induction h with
  | nil => exact ⟨fun i x hx ↦ by simp [Pool.init] at hx, fun _ _ ↦ rfl⟩
  | @start tr q j _ _ ih =>
      refine ⟨fun i x hx ↦ ?_, fun i hi ↦ ?_⟩
      · rw [exchangesOf_start]
        simp only [Pool.start] at hx
        rcases Nat.lt_or_ge i q.procs.length with hlt | hge
        · rw [List.getElem?_append_left hlt] at hx
          exact ih.1 i x hx
        · rw [List.getElem?_append_right hge] at hx
          obtain rfl := List.mem_singleton.mp (List.mem_of_getElem? hx)
          rw [ih.2 i hge]
          exact .nil
      · rw [exchangesOf_start]
        simp only [Pool.start, List.length_append, List.length_singleton] at hi
        exact ih.2 i (Nat.le_of_succ_le hi)
  | @turn tr q pid j c k _ hpid _ ih =>
      refine ⟨fun i x hx ↦ ?_, fun i hi ↦ ?_⟩
      · rw [exchangesOf_call]
        simp only [Pool.turn, List.getElem?_set] at hx
        by_cases hi : pid = i
        · subst hi
          have hlt : pid < q.procs.length := (List.getElem?_eq_some_iff.mp hpid).1
          simp only [hlt, if_true] at hx ⊢
          obtain rfl := Option.some.inj hx
          exact .snoc (ih.1 pid _ hpid) _
        · simp only [hi, if_false, List.append_nil] at hx ⊢
          exact ih.1 i x hx
      · have hlt : pid < q.procs.length := (List.getElem?_eq_some_iff.mp hpid).1
        have hi : q.procs.length ≤ i := by simpa [Pool.turn] using hi
        rw [exchangesOf_call, if_neg (by omega), ih.2 i hi, List.append_nil]

/-- Every call of a trace was made in a run up to it, by a permitted step. -/
theorem Run.of_mem (h : Run sys ok (Pool.init w) tr q) {i : ℕ} {c : Call} {r : Reply c}
    (he : Event.call i c r ∈ tr) :
    ∃ tr₁ q₁, Run sys ok (Pool.init w) tr₁ q₁ ∧ ok tr₁ q₁ (.call i c r) ∧
      r = (sys.exec c q₁.world).1 := by
  induction h with
  | nil => cases he
  | start _ _ ih =>
      rcases List.mem_append.mp he with he | he
      · exact ih he
      · cases List.mem_singleton.mp he
  | turn hrun _ hok ih =>
      rcases List.mem_append.mp he with he | he
      · exact ih he
      · obtain ⟨rfl, rfl, heq⟩ := Event.call.inj (List.mem_singleton.mp he)
        obtain rfl := eq_of_heq heq
        exact ⟨_, _, hrun, hok, rfl⟩

/-- A run up to one of its events. -/
theorem Run.split {p : Pool Call Reply σ Job} (h : Run sys ok p tr q)
    {tr₁ tr₂ : List (Event Call Reply Job)} {e : Event Call Reply Job}
    (heq : tr = tr₁ ++ e :: tr₂) :
    ∃ q₁, Run sys ok p tr₁ q₁ ∧ ok tr₁ q₁ e ∧
      (∀ i j, q₁.jobAt i = some j → q.jobAt i = some j) ∧
      ∀ i c r, e = .call i c r →
        (∃ j k, q₁.procs[i]? = some ⟨j, .call c k⟩) ∧ r = (sys.exec c q₁.world).1 := by
  induction h generalizing tr₂ with
  | nil => simp at heq
  | @start tr q j hrun hok ih =>
      rcases snoc_eq_append_cons heq with ⟨rfl, rfl⟩ | ⟨tr₃, heq⟩
      · exact ⟨q, hrun, hok, fun i j h ↦ Pool.jobAt_start h, fun i c r h ↦ by cases h⟩
      · obtain ⟨q₁, hrun₁, hok₁, hjobs, hcall⟩ := ih heq
        exact ⟨q₁, hrun₁, hok₁, fun i j h ↦ Pool.jobAt_start (hjobs i j h), hcall⟩
  | @turn tr q pid j c k hrun hpid hok ih =>
      rcases snoc_eq_append_cons heq with ⟨rfl, rfl⟩ | ⟨tr₃, heq⟩
      · refine ⟨q, hrun, hok, fun i j h ↦ by rwa [Pool.jobAt_turn hpid], fun i c' r h ↦ ?_⟩
        obtain ⟨rfl, rfl, hr⟩ := Event.call.inj h
        exact ⟨⟨j, k, hpid⟩, (eq_of_heq hr).symm⟩
      · obtain ⟨q₁, hrun₁, hok₁, hjobs, hcall⟩ := ih heq
        exact ⟨q₁, hrun₁, hok₁, fun i j h ↦ by rw [Pool.jobAt_turn hpid]; exact hjobs i j h, hcall⟩

/-- The last event of a run, when it is a call. -/
theorem Run.snoc_call {p : Pool Call Reply σ Job} {i : ℕ} {c : Call} {r : Reply c}
    (h : Run sys ok p (tr ++ [.call i c r]) q) :
    ∃ q₁, Run sys ok p tr q₁ ∧ r = (sys.exec c q₁.world).1 ∧ q.world = (sys.exec c q₁.world).2 := by
  generalize htr : tr ++ [Event.call i c r] = tr' at h
  cases h with
  | nil => simp at htr
  | start _ _ => cases List.head_eq_of_cons_eq (List.append_inj' htr rfl).2
  | @turn tr₁ q₁ pid j c' k hrun hpid _ =>
      obtain ⟨rfl, hlast⟩ := List.append_inj' htr rfl
      obtain ⟨rfl, rfl, hr⟩ := Event.call.inj (List.head_eq_of_cons_eq hlast)
      exact ⟨q₁, hrun, eq_of_heq hr, rfl⟩

/-- The jobs of a trace, in the order they were started. -/
def started (tr : List (Event Call Reply Job)) : List Job :=
  tr.filterMap fun
    | .start j => some j
    | .call .. => none

/-- The jobs of a pool are those its trace shows. -/
theorem Run.jobs_eq (h : Run sys ok (Pool.init w) tr q) : q.procs.map Proc.job = started tr := by
  induction h with
  | nil => rfl
  | @start tr q j _ _ ih =>
      have hstarted : started (tr ++ [.start j] : List (Event Call Reply Job)) =
          started tr ++ [j] := by
        simp [started]
      rw [hstarted, ← ih]
      exact List.map_append
  | @turn tr q i j c k _ hi _ ih =>
      have hstarted : started (tr ++ [.call i c (sys.exec c q.world).1]) = started tr := by
        simp [started]
      rw [hstarted, ← ih]
      refine List.ext_getElem? fun n ↦ ?_
      rw [List.getElem?_map, List.getElem?_map]
      exact Pool.jobAt_turn hi n

/-- What is demanded of a job when it starts holds of every job. -/
theorem Run.good_of_jobAt {good : Job → Prop} (hok : ∀ tr q j, ok tr q (.start j) → good j)
    (h : Run sys ok (Pool.init w) tr q) {i : ℕ} {j : Job} (hj : q.jobAt i = some j) : good j := by
  obtain ⟨x, hx, rfl⟩ := Option.map_eq_some_iff.mp hj
  have hmem : x.job ∈ started tr := by
    rw [← h.jobs_eq]
    exact List.mem_map_of_mem (List.mem_of_getElem? hx)
  obtain ⟨e, he, heq⟩ := List.mem_filterMap.mp hmem
  cases e with
  | start j =>
      obtain ⟨tr₁, tr₂, hsplit⟩ := List.append_of_mem he
      obtain ⟨q₁, -, hstart, -⟩ := h.split hsplit
      rw [← Option.some.inj heq]
      exact hok tr₁ q₁ j hstart
  | call i c r => cases heq

/-- Jobs stay where they are. -/
theorem Run.jobAt_append {tr' : List (Event Call Reply Job)} {q' : Pool Call Reply σ Job}
    (h : Run sys ok (Pool.init w) tr q) (h' : Run sys ok (Pool.init w) (tr ++ tr') q') {i : ℕ}
    {j : Job} (hj : q.jobAt i = some j) : q'.jobAt i = some j := by
  have hjobs : q'.procs.map Proc.job = q.procs.map Proc.job ++ started tr' := by
    rw [h'.jobs_eq, h.jobs_eq]
    exact List.filterMap_append
  rw [Pool.jobAt, ← List.getElem?_map] at hj ⊢
  rw [hjobs, List.getElem?_append_left (List.getElem?_eq_some_iff.mp hj).1, hj]

/-- Whether process `i` has returned. -/
def Pool.returned (p : Pool Call Reply σ Job) (i : ℕ) : Bool :=
  match p.procs[i]? with
  | some ⟨_, .ret _⟩ => true
  | _ => false

/-- What a process that has returned exchanged is a path of its job's program. -/
theorem Run.path (h : Run sys ok (Pool.init w) tr q) {i : ℕ} {j : Job} (hi : q.returned i = true)
    (hj : q.jobAt i = some j) : Prog.Path (sys.prog j) (exchangesOf i tr) () := by
  unfold Pool.returned at hi
  split at hi
  · next j' a hproc =>
      obtain rfl : j' = j := by simpa [Pool.jobAt, hproc] using hj
      exact (h.steps.1 i _ hproc).path_of_ret
  · cases hi

end Interact
