import NovaChat.Interact.Local

/-!
# Leaving out processes

Some jobs of a system are seen and the others are hidden.  Leaving the hidden processes out of a
trace drops their events and closes the gaps in the numbering.  What is left is a run from every
world the seen processes cannot tell from the first one, under two conditions on single calls: a
seen call is answered the same in both worlds, and a hidden call is not noticed.
-/

namespace Interact

/-! ## Positions among the kept -/

section Positions

variable {α : Type} {p : α → Bool} {l : List α} {i i' : ℕ} {x : α}

theorem getElem?_filter_countP (hx : l[i]? = some x) (hp : p x = true) :
    (l.filter p)[(l.take i).countP p]? = some x := by
  induction l generalizing i with
  | nil => simp at hx
  | cons a l ih =>
      cases i with
      | zero =>
          obtain rfl : a = x := by simpa using hx
          simp [hp]
      | succ i =>
          have hrest := ih (i := i) (by simpa using hx)
          by_cases ha : p a = true
          · simpa [ha] using hrest
          · simpa [ha] using hrest

theorem filter_set_kept (hx : l[i]? = some x) (hp : p x = true) {y : α} (hy : p y = true) :
    (l.set i y).filter p = (l.filter p).set ((l.take i).countP p) y := by
  induction l generalizing i with
  | nil => simp at hx
  | cons a l ih =>
      cases i with
      | zero =>
          obtain rfl : a = x := by simpa using hx
          simp [hp, hy]
      | succ i =>
          have hrest := ih (i := i) (by simpa using hx)
          by_cases ha : p a = true
          · simpa [ha] using hrest
          · simpa [ha] using hrest

theorem filter_set_dropped (hx : l[i]? = some x) (hp : p x = false) {y : α} (hy : p y = false) :
    (l.set i y).filter p = l.filter p := by
  induction l generalizing i with
  | nil => simp at hx
  | cons a l ih =>
      cases i with
      | zero =>
          obtain rfl : a = x := by simpa using hx
          simp [hp, hy]
      | succ i =>
          have hrest := ih (i := i) (by simpa using hx)
          by_cases ha : p a = true
          · simpa [ha] using hrest
          · simpa [ha] using hrest

/-- Two kept elements at different places stay at different places. -/
theorem countP_take_lt (hx : l[i]? = some x) (hp : p x = true) (h : i < i') :
    (l.take i).countP p < (l.take i').countP p := by
  induction l generalizing i i' with
  | nil => simp at hx
  | cons a l ih =>
      obtain ⟨i', rfl⟩ : ∃ m, i' = m + 1 := ⟨i' - 1, by omega⟩
      cases i with
      | zero =>
          obtain rfl : a = x := by simpa using hx
          simp [hp]
      | succ i =>
          have hrest : (l.take i).countP p < (l.take i').countP p :=
            ih (by simpa using hx) (by omega)
          by_cases ha : p a = true
          · simpa [ha] using hrest
          · simpa [ha] using hrest

end Positions

/-! ## Traces -/

variable {Call : Type} {Reply : Call → Type} {σ Job : Type}

section Visible

variable (seen : Job → Bool)

/-- The number of process `i` when only the seen ones are counted. -/
def rank (jobs : List Job) (i : ℕ) : ℕ := (jobs.take i).countP seen

/-- What is left of an event; the jobs started before it tell whose call it is. -/
def Event.visible (jobs : List Job) : Event Call Reply Job → Option (Event Call Reply Job)
  | .start j => if seen j then some (.start j) else none
  | .call i c r => if jobs[i]?.any seen then some (.call (rank seen jobs i) c r) else none

def visibleFrom : List Job → List (Event Call Reply Job) → List (Event Call Reply Job)
  | _, [] => []
  | jobs, e :: tr => (e.visible seen jobs).toList ++ visibleFrom (jobs ++ started [e]) tr

/-- A trace without its hidden processes. -/
def visible (tr : List (Event Call Reply Job)) : List (Event Call Reply Job) :=
  visibleFrom seen [] tr

theorem started_append (tr tr' : List (Event Call Reply Job)) :
    started (tr ++ tr') = started tr ++ started tr' := List.filterMap_append

theorem visibleFrom_append (tr tr' : List (Event Call Reply Job)) : ∀ jobs : List Job,
    visibleFrom seen jobs (tr ++ tr') =
      visibleFrom seen jobs tr ++ visibleFrom seen (jobs ++ started tr) tr' := by
  induction tr with
  | nil => simp [visibleFrom, started]
  | cons e tr ih =>
      intro jobs
      have hstarted : started (e :: tr) = started [e] ++ started tr := started_append [e] tr
      simp only [List.cons_append, visibleFrom, ih, hstarted, List.append_assoc]

@[simp] theorem visible_nil : visible seen ([] : List (Event Call Reply Job)) = [] := rfl

theorem visible_snoc (tr : List (Event Call Reply Job)) (e : Event Call Reply Job) :
    visible seen (tr ++ [e]) = visible seen tr ++ (e.visible seen (started tr)).toList := by
  rw [visible, visibleFrom_append]
  simp [visible, visibleFrom]

end Visible

/-! ## Runs -/

variable {sys : System Call Reply σ Job}
  {ok : List (Event Call Reply Job) → Pool Call Reply σ Job → Event Call Reply Job → Prop}
  {w : σ} {q : Pool Call Reply σ Job} {tr : List (Event Call Reply Job)} {seen : Job → Bool}

/-- In the runs from `w`, seen calls cannot tell related worlds apart and hidden calls leave no
trace in the second. -/
structure Unwinds (sys : System Call Reply σ Job)
    (ok : List (Event Call Reply Job) → Pool Call Reply σ Job → Event Call Reply Job → Prop)
    (w : σ) (seen : Job → Bool) (R : σ → σ → Prop) : Prop where
  agree : ∀ {tr q i j c k w'}, Run sys ok (Pool.init w) tr q →
    q.procs[i]? = some ⟨j, .call c k⟩ → ok tr q (.call i c (sys.exec c q.world).1) →
    seen j = true → R q.world w' →
    (sys.exec c w').1 = (sys.exec c q.world).1 ∧ R (sys.exec c q.world).2 (sys.exec c w').2
  unnoticed : ∀ {tr q i j c k w'}, Run sys ok (Pool.init w) tr q →
    q.procs[i]? = some ⟨j, .call c k⟩ → ok tr q (.call i c (sys.exec c q.world).1) →
    seen j = false → R q.world w' → R (sys.exec c q.world).2 w'

/-- The number of a process is the number of seen processes before it. -/
theorem Run.rank_eq (h : Run sys ok (Pool.init w) tr q) (i : ℕ) :
    rank seen (started tr) i = (q.procs.take i).countP fun x ↦ seen x.job := by
  rw [rank, ← h.jobs_eq, ← List.map_take, List.countP_map]
  rfl

theorem Run.seen_iff (h : Run sys ok (Pool.init w) tr q) {i : ℕ} {x : Proc Call Reply Job}
    (hx : q.procs[i]? = some x) : (started tr)[i]?.any seen = seen x.job := by
  rw [← h.jobs_eq, List.getElem?_map, hx]
  rfl

theorem rank_append (jobs : List Job) {i : ℕ} (hi : i ≤ jobs.length) (more : List Job) :
    rank seen (jobs ++ more) i = rank seen jobs i := by
  rw [rank, List.take_append_of_le_length hi, rank]

/-- Seen processes keep apart when they are renumbered. -/
theorem Run.rank_ne (h : Run sys ok (Pool.init w) tr q) {i i' : ℕ} {x x' : Proc Call Reply Job}
    (hx : q.procs[i]? = some x) (hx' : q.procs[i']? = some x') (hseen : seen x.job = true)
    (hseen' : seen x'.job = true) (hne : i ≠ i') :
    rank seen (started tr) i ≠ rank seen (started tr) i' := by
  rw [h.rank_eq, h.rank_eq]
  rcases Nat.lt_or_gt_of_ne hne with hlt | hlt
  · exact Nat.ne_of_lt (countP_take_lt (p := fun x ↦ seen x.job) hx hseen hlt)
  · exact Nat.ne_of_gt (countP_take_lt (p := fun x ↦ seen x.job) hx' hseen' hlt)

/-- Without its hidden processes a run is a run of the seen ones, in which each of them exchanges
what it did before. -/
theorem Run.visible {R : σ → σ → Prop} (hunwinds : Unwinds sys ok w seen R) {w' : σ} (h₀ : R w w')
    (h : Run sys ok (Pool.init w) tr q) :
    ∃ q', Run sys (fun _ _ _ ↦ True) (Pool.init w') (Interact.visible seen tr) q' ∧
      q'.procs = q.procs.filter (fun x ↦ seen x.job) ∧ R q.world q'.world ∧
      ∀ i x, q.procs[i]? = some x → seen x.job = true →
        exchangesOf (rank seen (started tr) i) (Interact.visible seen tr) = exchangesOf i tr := by
  induction h with
  | nil => exact ⟨Pool.init w', .nil, rfl, h₀, fun i x hx ↦ by simp [Pool.init] at hx⟩
  | @start tr q j hrun hok ih =>
      obtain ⟨q', hrun', hprocs, hR, hsame⟩ := ih
      have hstarted : started (tr ++ [.start j]) = started tr ++ [j] := started_append tr [.start j]
      have hlength : (started tr).length = q.procs.length := by
        rw [← hrun.jobs_eq, List.length_map]
      -- The processes that were there before, and the new one.
      have hold : ∀ i x, (q.start sys j).procs[i]? = some x → seen x.job = true →
          exchangesOf (rank seen (started tr ++ [j]) i) (Interact.visible seen tr) =
            exchangesOf i tr := by
        intro i x hx hseen
        simp only [Pool.start] at hx
        rcases Nat.lt_or_ge i q.procs.length with hi | hi
        · rw [List.getElem?_append_left hi] at hx
          rw [rank_append _ (by omega)]
          exact hsame i x hx hseen
        · have hi' : i = q.procs.length := by
            have := (List.getElem?_eq_some_iff.mp hx).1
            simp only [List.length_append, List.length_singleton] at this
            omega
          have hnew : rank seen (started tr ++ [j]) i = q'.procs.length := by
            rw [rank_append _ (by omega), hrun.rank_eq, hprocs, hi', List.take_length,
              List.countP_eq_length_filter]
          rw [hnew, hrun'.steps.2 _ (Nat.le_refl _), hrun.steps.2 _ hi]
      rw [visible_snoc, hstarted]
      by_cases hj : seen j = true
      · refine ⟨q'.start sys j, ?_, ?_, hR, fun i x hx hseen ↦ ?_⟩
        · simpa [Event.visible, hj] using hrun'.start (j := j) trivial
        · simp [Pool.start, hprocs, hj]
        · simpa [Event.visible, hj] using hold i x hx hseen
      · refine ⟨q', ?_, ?_, hR, fun i x hx hseen ↦ ?_⟩
        · simpa [Event.visible, hj] using hrun'
        · simp [Pool.start, hprocs, hj]
        · simpa [Event.visible, hj] using hold i x hx hseen
  | @turn tr q pid j c k hrun hi hok ih =>
      obtain ⟨q', hrun', hprocs, hR, hsame⟩ := ih
      have hany : (started tr)[pid]?.any seen = seen j := hrun.seen_iff hi
      have hstarted : started (tr ++ [.call pid c (sys.exec c q.world).1]) = started tr := by
        rw [started_append]
        exact List.append_nil _
      -- Who each process is has not changed.
      have hproc : ∀ (i : ℕ) (x : Proc Call Reply Job), (q.turn sys pid j c k).procs[i]? = some x →
          ∃ y : Proc Call Reply Job, q.procs[i]? = some y ∧ y.job = x.job := by
        intro i x hx
        have hjob : (q.turn sys pid j c k).jobAt i = q.jobAt i := Pool.jobAt_turn hi i
        rw [Pool.jobAt_of_procs hx] at hjob
        exact Option.map_eq_some_iff.mp hjob.symm
      rw [visible_snoc, hstarted]
      by_cases hj : seen j = true
      · obtain ⟨hreply, hR'⟩ := hunwinds.agree hrun hi hok hj hR
        have hplace : q'.procs[rank seen (started tr) pid]? = some ⟨j, .call c k⟩ := by
          rw [hrun.rank_eq, hprocs]
          exact getElem?_filter_countP hi hj
        refine ⟨q'.turn sys (rank seen (started tr) pid) j c k, ?_, ?_, hR', fun i x hx hseen ↦ ?_⟩
        · have hturn := hrun'.turn hplace trivial
          rw [hreply] at hturn
          simpa [Event.visible, hany, hj] using hturn
        · simp only [Pool.turn, hprocs, hreply, hrun.rank_eq]
          exact (filter_set_kept hi hj hj).symm
        · obtain ⟨y, hy, hjob⟩ := hproc i x hx
          have hyseen : seen y.job = true := by rw [hjob]; exact hseen
          have hiff : rank seen (started tr) pid = rank seen (started tr) i ↔ pid = i := by
            constructor
            · intro heq
              by_contra hne
              exact hrun.rank_ne hi hy hj hyseen hne heq
            · rintro rfl
              rfl
          simp only [Event.visible, hany, hj, if_true, Option.toList_some, exchangesOf_call,
            hsame i y hy hyseen, hiff]
      · have hhidden : seen j = false := by simpa using hj
        refine ⟨q', ?_, ?_, hunwinds.unnoticed hrun hi hok hhidden hR, fun i x hx hseen ↦ ?_⟩
        · simpa [Event.visible, hany, hj] using hrun'
        · simp only [Pool.turn, hprocs]
          exact (filter_set_dropped hi hhidden hhidden).symm
        · obtain ⟨y, hy, hjob⟩ := hproc i x hx
          have hyseen : seen y.job = true := by rw [hjob]; exact hseen
          have hne : pid ≠ i := by
            rintro rfl
            rw [hi] at hy
            obtain rfl := Option.some.inj hy
            exact hj hyseen
          simpa [Event.visible, hany, hj, hne] using hsame i y hy hyseen

end Interact
