import NovaChat.Interact.Exchanged

/-!
# Calls over a network

A process that calls a remote party sends a request and waits.  The request may arrive or not,
its reply may come back or not, and the process may give up on either at any time; a request it
has given up on may still arrive.

A run over the network is then a run of a pool whose calls can fail: every call is carried out
and answered at once, or fails at once, and what has failed is carried out at most once, at that
time or later.
-/

namespace Interact

variable {Call : Type} {Reply : Call → Type} {σ Job : Type}

/-- Which calls are made over the network, and which replies say that a call has failed. -/
structure Wire (Call : Type) (Reply : Call → Type) where
  remote : Call → Bool
  fails : (c : Call) → Reply c → Prop

/-! ## Over the network -/

/-- A request that was sent, with its reply once it has been served. -/
structure Parcel (Call : Type) (Reply : Call → Type) where
  caller : ℕ
  call : Call
  reply : Option (Reply call)

/-- A process of a network, and the request it waits for. -/
structure Station (Call : Type) (Reply : Call → Type) (Job : Type) where
  job : Job
  prog : Prog Call Reply Unit
  waits : Option ℕ

/-- The shared state, the processes, and every request sent so far. -/
structure Network (Call : Type) (Reply : Call → Type) (σ Job : Type) where
  world : σ
  stations : List (Station Call Reply Job)
  parcels : List (Parcel Call Reply)

inductive Signal (Call : Type) (Reply : Call → Type) (Job : Type)
  | start (job : Job)
  | inside (pid : ℕ) (c : Call) (r : Reply c)
  | send (pid : ℕ) (c : Call)
  | serve (parcel : ℕ) (c : Call) (r : Reply c)
  | answer (pid parcel : ℕ) (c : Call) (r : Reply c)
  | giveUp (pid parcel : ℕ) (c : Call) (r : Reply c)

/-- The runs over the network.  A parcel is served at most once, and a process takes what was
answered, or gives up. -/
inductive NetRun (sys : System Call Reply σ Job) (wire : Wire Call Reply) (w : σ) :
    List (Signal Call Reply Job) → Network Call Reply σ Job → Prop
  | nil : NetRun sys wire w [] ⟨w, [], []⟩
  | start {tr n} (j : Job) : NetRun sys wire w tr n →
      NetRun sys wire w (tr ++ [.start j])
        { n with stations := n.stations ++ [⟨j, sys.prog j, none⟩] }
  | inside {tr n i j c k} : NetRun sys wire w tr n →
      n.stations[i]? = some ⟨j, .call c k, none⟩ → wire.remote c = false →
      NetRun sys wire w (tr ++ [.inside i c (sys.exec c n.world).1])
        { n with
          world := (sys.exec c n.world).2
          stations := n.stations.set i ⟨j, k (sys.exec c n.world).1, none⟩ }
  | send {tr n i j c k} : NetRun sys wire w tr n →
      n.stations[i]? = some ⟨j, .call c k, none⟩ → wire.remote c = true →
      NetRun sys wire w (tr ++ [.send i c])
        { n with
          stations := n.stations.set i ⟨j, .call c k, some n.parcels.length⟩
          parcels := n.parcels ++ [⟨i, c, none⟩] }
  | serve {tr n f i c} : NetRun sys wire w tr n → n.parcels[f]? = some ⟨i, c, none⟩ →
      NetRun sys wire w (tr ++ [.serve f c (sys.exec c n.world).1])
        { n with
          world := (sys.exec c n.world).2
          parcels := n.parcels.set f ⟨i, c, some (sys.exec c n.world).1⟩ }
  | answer {tr n i j c k f r} : NetRun sys wire w tr n →
      n.stations[i]? = some ⟨j, .call c k, some f⟩ → n.parcels[f]? = some ⟨i, c, some r⟩ →
      NetRun sys wire w (tr ++ [.answer i f c r])
        { n with stations := n.stations.set i ⟨j, k r, none⟩ }
  | giveUp {tr n i j c k f r} : NetRun sys wire w tr n →
      n.stations[i]? = some ⟨j, .call c k, some f⟩ → wire.fails c r →
      NetRun sys wire w (tr ++ [.giveUp i f c r])
        { n with stations := n.stations.set i ⟨j, k r, none⟩ }

/-! ## Calls that can fail -/

inductive Happening (Call : Type) (Reply : Call → Type) (Job : Type)
  | start (job : Job)
  | call (pid : ℕ) (c : Call) (r : Reply c)
  | lost (pid : ℕ) (c : Call) (r : Reply c)
  | unanswered (pid : ℕ) (c : Call) (r done : Reply c)
  | late (c : Call) (r : Reply c)

/-- The runs of a pool whose calls can fail.  A call that is `lost` has not been carried out, and
may be carried out `late`, once; one that goes `unanswered` has been. -/
inductive FaultyRun (sys : System Call Reply σ Job) (fails : (c : Call) → Reply c → Prop) (w : σ) :
    List (Happening Call Reply Job) → Pool Call Reply σ Job → (ℕ → Option Call) → Prop
  | nil : FaultyRun sys fails w [] (Pool.init w) fun _ ↦ none
  | start {tr q lost} (j : Job) : FaultyRun sys fails w tr q lost →
      FaultyRun sys fails w (tr ++ [.start j]) (q.start sys j) lost
  | call {tr q lost i j c k} : FaultyRun sys fails w tr q lost →
      q.procs[i]? = some ⟨j, .call c k⟩ →
      FaultyRun sys fails w (tr ++ [.call i c (sys.exec c q.world).1]) (q.turn sys i j c k) lost
  | lost {tr q lost i j c k f r} : FaultyRun sys fails w tr q lost →
      q.procs[i]? = some ⟨j, .call c k⟩ → fails c r → lost f = none →
      FaultyRun sys fails w (tr ++ [.lost i c r])
        { q with procs := q.procs.set i ⟨j, k r⟩ } (Function.update lost f (some c))
  | unanswered {tr q lost i j c k r} : FaultyRun sys fails w tr q lost →
      q.procs[i]? = some ⟨j, .call c k⟩ → fails c r →
      FaultyRun sys fails w (tr ++ [.unanswered i c r (sys.exec c q.world).1])
        ⟨(sys.exec c q.world).2, q.procs.set i ⟨j, k r⟩⟩ lost
  | late {tr q lost f c} : FaultyRun sys fails w tr q lost → lost f = some c →
      FaultyRun sys fails w (tr ++ [.late c (sys.exec c q.world).1])
        { q with world := (sys.exec c q.world).2 } (Function.update lost f none)

/-- What process `i` has seen of its calls. -/
def Signal.seen (i : ℕ) : Signal Call Reply Job → Option (Exchange Call Reply)
  | .inside pid c r | .answer pid _ c r | .giveUp pid _ c r => if pid = i then some ⟨c, r⟩ else none
  | _ => none

/-- What has been done to the shared state. -/
def Signal.done : Signal Call Reply Job → Option (Exchange Call Reply)
  | .inside _ c r | .serve _ c r => some ⟨c, r⟩
  | _ => none

def Happening.seen (i : ℕ) : Happening Call Reply Job → Option (Exchange Call Reply)
  | .call pid c r | .lost pid c r | .unanswered pid c r _ => if pid = i then some ⟨c, r⟩ else none
  | _ => none

def Happening.done : Happening Call Reply Job → Option (Exchange Call Reply)
  | .call _ c r | .unanswered _ c _ r | .late c r => some ⟨c, r⟩
  | _ => none

/-- A call fails here. -/
def Signal.IsFault : Signal Call Reply Job → Prop
  | .giveUp .. => True
  | _ => False

def Happening.IsFault : Happening Call Reply Job → Prop
  | .start _ | .call .. => False
  | _ => True

/-- What happens in a pool whose calls do not fail. -/
def Happening.event : Happening Call Reply Job → Option (Event Call Reply Job)
  | .start j => some (.start j)
  | .call pid c r => some (.call pid c r)
  | _ => none

theorem filterMap_snoc {α β : Type} (g : α → Option β) (l : List α) (a : α) :
    (l ++ [a]).filterMap g = l.filterMap g ++ (g a).toList := by
  cases h : g a <;> simp [h]

/-- Where no call fails, nothing is lost, and the run is a run of the pool. -/
theorem FaultyRun.run {sys : System Call Reply σ Job} {fails : (c : Call) → Reply c → Prop} {w : σ}
    {tr : List (Happening Call Reply Job)} {q : Pool Call Reply σ Job} {lost : ℕ → Option Call}
    (h : FaultyRun sys fails w tr q lost) (hcalm : ∀ x ∈ tr, ¬ x.IsFault) :
    (∀ f, lost f = none) ∧
      Run sys (fun _ _ _ ↦ True) (Pool.init w) (tr.filterMap Happening.event) q := by
  induction h with
  | nil => exact ⟨fun _ ↦ rfl, .nil⟩
  | start j _ ih =>
      obtain ⟨hlost, hrun⟩ := ih fun x hx ↦ hcalm x (List.mem_append_left _ hx)
      rw [filterMap_snoc]
      exact ⟨hlost, .start hrun trivial⟩
  | call _ hi ih =>
      obtain ⟨hlost, hrun⟩ := ih fun x hx ↦ hcalm x (List.mem_append_left _ hx)
      rw [filterMap_snoc]
      exact ⟨hlost, .turn hrun hi trivial⟩
  | lost | unanswered | late =>
      exact (hcalm _ (List.mem_append_right _ (List.mem_singleton_self _)) trivial).elim

/-! ## Over the network nothing else happens -/

theorem getElem?_set_cases {α : Type} {l : List α} {i j : ℕ} {a x : α}
    (h : (l.set i a)[j]? = some x) : (i = j ∧ x = a) ∨ (i ≠ j ∧ l[j]? = some x) := by
  rw [List.getElem?_set] at h
  grind

theorem getElem?_concat_cases {α : Type} {l : List α} {j : ℕ} {a x : α}
    (h : (l ++ [a])[j]? = some x) : (j = l.length ∧ x = a) ∨ l[j]? = some x := by
  grind

section Simulation

variable {sys : System Call Reply σ Job} {wire : Wire Call Reply} {w : σ}
  {tr : List (Signal Call Reply Job)} {n : Network Call Reply σ Job}

/-- Whoever waits has sent the request it waits for, and no other process has. -/
theorem NetRun.waiting (h : NetRun sys wire w tr n) {i f : ℕ} {x : Station Call Reply Job}
    (hx : n.stations[i]? = some x) (hf : x.waits = some f) :
    ∃ c k reply, x.prog = .call c k ∧ n.parcels[f]? = some ⟨i, c, reply⟩ := by
  induction h generalizing i f x with
  | nil => simp at hx
  | start j _ ih =>
      rcases getElem?_concat_cases hx with ⟨-, rfl⟩ | hx
      · cases hf
      · exact ih hx hf
  | inside _ _ _ ih =>
      rcases getElem?_set_cases hx with ⟨-, rfl⟩ | ⟨-, hx⟩
      · cases hf
      · exact ih hx hf
  | @send _ n i' j c k _ _ _ ih =>
      rcases getElem?_set_cases hx with ⟨rfl, rfl⟩ | ⟨-, hx⟩
      · obtain rfl := Option.some.inj hf
        exact ⟨c, k, none, rfl, List.getElem?_concat_length⟩
      · obtain ⟨c', k', reply, hprog, hparcel⟩ := ih hx hf
        have hlt : f < n.parcels.length := (List.getElem?_eq_some_iff.mp hparcel).1
        exact ⟨c', k', reply, hprog, by rw [List.getElem?_append_left hlt, hparcel]⟩
  | @serve _ n f' i' c _ hp ih =>
      obtain ⟨c', k', reply, hprog, hparcel⟩ := ih hx hf
      by_cases hff : f' = f
      · subst hff
        obtain ⟨rfl, rfl, -⟩ := Parcel.mk.inj (Option.some.inj (hp.symm.trans hparcel))
        exact ⟨c, k', _, hprog, List.getElem?_set_self (List.getElem?_eq_some_iff.mp hp).1⟩
      · exact ⟨c', k', reply, hprog, by rw [List.getElem?_set_ne hff, hparcel]⟩
  | answer _ _ _ ih =>
      rcases getElem?_set_cases hx with ⟨-, rfl⟩ | ⟨-, hx⟩
      · cases hf
      · exact ih hx hf
  | giveUp _ _ _ ih =>
      rcases getElem?_set_cases hx with ⟨-, rfl⟩ | ⟨-, hx⟩
      · cases hf
      · exact ih hx hf

/-- What a process has come to and what it has yet to see, where `fate` says which served requests
will not be answered. -/
inductive Station.Settled (parcels : List (Parcel Call Reply))
    (fate : (c : Call) → Option (Reply c)) :
    Station Call Reply Job → Prog Call Reply Unit → List (Exchange Call Reply) → Prop
  | free (j : Job) (p : Prog Call Reply Unit) : Settled parcels fate ⟨j, p, none⟩ p []
  | sent {j c k f i} : parcels[f]? = some ⟨i, c, none⟩ →
      Settled parcels fate ⟨j, .call c k, some f⟩ (.call c k) []
  | answered {j c k f i r} : parcels[f]? = some ⟨i, c, some r⟩ → fate c = none →
      Settled parcels fate ⟨j, .call c k, some f⟩ (k r) [⟨c, r⟩]
  | failed {j c k f i r r'} : parcels[f]? = some ⟨i, c, some r⟩ → fate c = some r' →
      Settled parcels fate ⟨j, .call c k, some f⟩ (k r') [⟨c, r'⟩]

/-- The processes at `i` of the network and of the pool, with what they have seen, agree. -/
def Agree (parcels : List (Parcel Call Reply)) (fate : (c : Call) → Option (Reply c)) :
    Option (Station Call Reply Job) → Option (Proc Call Reply Job) →
    List (Exchange Call Reply) → List (Exchange Call Reply) → Prop
  | none, proc, seen, seen' => proc = none ∧ seen' = seen
  | some x, proc, seen, seen' => ∃ p ys, x.Settled parcels fate p ys ∧
      proc = some ⟨x.job, p⟩ ∧ seen' = seen ++ ys

/-- A run of the network and a run of a pool whose calls can fail are of one kind. -/
structure Alike (sys : System Call Reply σ Job) (wire : Wire Call Reply) (w : σ)
    (tr : List (Signal Call Reply Job)) (n : Network Call Reply σ Job)
    (fate : ℕ → (c : Call) → Option (Reply c)) (tr' : List (Happening Call Reply Job))
    (q : Pool Call Reply σ Job) (lost : ℕ → Option Call) : Prop where
  run : FaultyRun sys wire.fails w tr' q lost
  world : q.world = n.world
  length : q.procs.length = n.stations.length
  procs : ∀ i, Agree n.parcels (fate i) n.stations[i]? q.procs[i]?
    (tr.filterMap (Signal.seen i)) (tr'.filterMap (Happening.seen i))
  lost : ∀ f c, lost f = some c ↔ ∃ i, n.parcels[f]? = some ⟨i, c, none⟩ ∧
    ∀ x, n.stations[i]? = some x → x.waits ≠ some f
  done : tr'.filterMap Happening.done = tr.filterMap Signal.done
  calm : (∀ s ∈ tr, ¬ s.IsFault) → (∀ i c, fate i c = none) → ∀ x ∈ tr', ¬ x.IsFault

theorem Agree.congr {parcels parcels' : List (Parcel Call Reply)}
    {fate : (c : Call) → Option (Reply c)} {x : Option (Station Call Reply Job)}
    {p : Option (Proc Call Reply Job)} {seen seen' : List (Exchange Call Reply)}
    (h : Agree parcels fate x p seen seen')
    (hparcels : ∀ y, x = some y → ∀ f, y.waits = some f → parcels'[f]? = parcels[f]?) :
    Agree parcels' fate x p seen seen' := by
  cases x with
  | none => exact h
  | some y =>
      obtain ⟨p', ys, hsettled, hp, hseen⟩ := h
      refine ⟨p', ys, ?_, hp, hseen⟩
      cases hsettled with
      | free j _ => exact .free j _
      | sent hf => exact .sent ((hparcels _ rfl _ rfl).trans hf)
      | answered hf hfate => exact .answered ((hparcels _ rfl _ rfl).trans hf) hfate
      | failed hf hfate => exact .failed ((hparcels _ rfl _ rfl).trans hf) hfate

namespace Alike

variable {fate : ℕ → (c : Call) → Option (Reply c)} {tr' : List (Happening Call Reply Job)}
  {q : Pool Call Reply σ Job} {lost : ℕ → Option Call} {i f : ℕ} {j : Job} {c : Call}
  {k : Reply c → Prog Call Reply Unit}

/-- The other processes are as they were. -/
theorem others (h : Alike sys wire w tr n fate tr' q lost) {x : Station Call Reply Job}
    {y : Proc Call Reply Job} {s : List (Signal Call Reply Job)}
    {s' : List (Happening Call Reply Job)} {i' : ℕ} (hi : i ≠ i')
    (hs : s.filterMap (Signal.seen i') = []) (hs' : s'.filterMap (Happening.seen i') = []) :
    Agree n.parcels (fate i') (n.stations.set i x)[i']? (q.procs.set i y)[i']?
      ((tr ++ s).filterMap (Signal.seen i')) ((tr' ++ s').filterMap (Happening.seen i')) := by
  rw [List.getElem?_set_ne hi, List.getElem?_set_ne hi, List.filterMap_append,
    List.filterMap_append, hs, hs', List.append_nil, List.append_nil]
  exact h.procs i'

theorem start (h : Alike sys wire w tr n fate tr' q lost) (j : Job) :
    Alike sys wire w (tr ++ [.start j])
      { n with stations := n.stations ++ [⟨j, sys.prog j, none⟩] } fate
      (tr' ++ [.start j]) (q.start sys j) lost where
  run := .start j h.run
  world := h.world
  length := by simp [Pool.start, h.length]
  procs := by
    intro i'
    have hi' := h.procs i'
    rw [filterMap_snoc, filterMap_snoc]
    simp only [Signal.seen, Happening.seen, Option.toList_none, List.append_nil, Pool.start]
    rcases Nat.lt_trichotomy i' n.stations.length with hlt | rfl | hgt
    · rwa [List.getElem?_append_left hlt, List.getElem?_append_left (h.length ▸ hlt)]
    · rw [List.getElem?_eq_none (Nat.le_refl _)] at hi'
      have hlast : (q.procs ++ [⟨j, sys.prog j⟩])[n.stations.length]? = some ⟨j, sys.prog j⟩ := by
        rw [← h.length, List.getElem?_concat_length]
      rw [List.getElem?_concat_length, hlast]
      exact ⟨_, [], .free j _, rfl, by simpa using hi'.2⟩
    · rw [List.getElem?_eq_none (Nat.le_of_lt hgt)] at hi'
      rw [List.getElem?_eq_none (by simpa using Nat.succ_le_of_lt hgt),
        List.getElem?_eq_none (by simpa [h.length] using Nat.succ_le_of_lt hgt)]
      exact ⟨rfl, hi'.2⟩
  lost := by
    intro f c
    rw [h.lost f c]
    refine exists_congr fun i ↦ and_congr_right fun _ ↦ ⟨fun hx x hx' ↦ ?_, fun hx x hx' ↦ ?_⟩
    · rcases getElem?_concat_cases hx' with ⟨-, rfl⟩ | hx'
      · exact (Option.some_ne_none f).symm
      · exact hx x hx'
    · have hlt : i < n.stations.length := (List.getElem?_eq_some_iff.mp hx').1
      exact hx x (by rw [List.getElem?_append_left hlt, hx'])
  done := by
    rw [filterMap_snoc, filterMap_snoc, h.done]
    rfl
  calm := fun hcalm hfate ↦ List.forall_mem_append.mpr
    ⟨h.calm (fun s hs ↦ hcalm s (List.mem_append_left _ hs)) hfate, by simp [Happening.IsFault]⟩

/-- A process that does not wait is where its counterpart is. -/
theorem free (h : Alike sys wire w tr n fate tr' q lost) {p : Prog Call Reply Unit}
    (hi : n.stations[i]? = some ⟨j, p, none⟩) : q.procs[i]? = some ⟨j, p⟩ ∧
      tr'.filterMap (Happening.seen i) = tr.filterMap (Signal.seen i) := by
  have hagree := h.procs i
  rw [hi] at hagree
  obtain ⟨p', ys, hsettled, hp, hseen⟩ := hagree
  cases hsettled
  exact ⟨hp, by simpa using hseen⟩

/-- A process that becomes free was not waited for by any parcel but its own. -/
theorem lost_set (h : Alike sys wire w tr n fate tr' q lost) {x : Station Call Reply Job}
    (hx : ∀ y, n.stations[i]? = some y → y.waits = none) (hwaits : x.waits = none) (f : ℕ)
    (c : Call) : lost f = some c ↔ ∃ i', n.parcels[f]? = some ⟨i', c, none⟩ ∧
      ∀ y, (n.stations.set i x)[i']? = some y → y.waits ≠ some f := by
  rw [h.lost f c]
  refine exists_congr fun i' ↦ and_congr_right fun _ ↦ ⟨fun hy y hy' ↦ ?_, fun hy y hy' ↦ ?_⟩
  · rcases getElem?_set_cases hy' with ⟨-, rfl⟩ | ⟨-, hy'⟩
    · simp [hwaits]
    · exact hy y hy'
  · by_cases hi : i = i'
    · subst hi
      simp [hx y hy']
    · exact hy y (by rwa [List.getElem?_set_ne hi])

theorem inside (h : Alike sys wire w tr n fate tr' q lost)
    (hi : n.stations[i]? = some ⟨j, .call c k, none⟩) :
    Alike sys wire w (tr ++ [.inside i c (sys.exec c n.world).1])
      { n with
        world := (sys.exec c n.world).2
        stations := n.stations.set i ⟨j, k (sys.exec c n.world).1, none⟩ } fate
      (tr' ++ [.call i c (sys.exec c q.world).1]) (q.turn sys i j c k) lost where
  run := .call h.run (h.free hi).1
  world := by rw [Pool.turn, h.world]
  length := by simp [Pool.turn, h.length]
  procs := by
    intro i'
    by_cases hii : i = i'
    · subst hii
      have hlt : i < n.stations.length := (List.getElem?_eq_some_iff.mp hi).1
      rw [List.getElem?_set_self hlt, Pool.turn, List.getElem?_set_self (h.length ▸ hlt),
        filterMap_snoc, filterMap_snoc, (h.free hi).2, h.world]
      exact ⟨_, [], .free j _, rfl, by simp [Signal.seen, Happening.seen]⟩
    · exact h.others hii (by simp [Signal.seen, hii]) (by simp [Happening.seen, hii])
  lost := h.lost_set (fun y hy ↦ by rw [Option.some.inj (hy.symm.trans hi)]) rfl
  done := by
    rw [filterMap_snoc, filterMap_snoc, h.done, h.world]
    rfl
  calm := fun hcalm hfate ↦ List.forall_mem_append.mpr
    ⟨h.calm (fun s hs ↦ hcalm s (List.mem_append_left _ hs)) hfate, by simp [Happening.IsFault]⟩

theorem send (h : Alike sys wire w tr n fate tr' q lost) (hn : NetRun sys wire w tr n)
    (hi : n.stations[i]? = some ⟨j, .call c k, none⟩) :
    Alike sys wire w (tr ++ [.send i c])
      { n with
        stations := n.stations.set i ⟨j, .call c k, some n.parcels.length⟩
        parcels := n.parcels ++ [⟨i, c, none⟩] } fate tr' q lost where
  run := h.run
  world := h.world
  length := by simp [h.length]
  procs := by
    intro i'
    rw [filterMap_snoc, show Signal.seen i' (.send i c : Signal Call Reply Job) = none from rfl,
      Option.toList_none, List.append_nil]
    by_cases hii : i = i'
    · subst hii
      obtain ⟨hp, hseen⟩ := h.free hi
      rw [List.getElem?_set_self (List.getElem?_eq_some_iff.mp hi).1, hp, hseen]
      exact ⟨_, [], .sent List.getElem?_concat_length, rfl, by simp⟩
    · rw [List.getElem?_set_ne hii]
      refine (h.procs i').congr fun y hy f hf ↦ ?_
      obtain ⟨_, _, _, _, hparcel⟩ := hn.waiting hy hf
      exact List.getElem?_append_left (List.getElem?_eq_some_iff.mp hparcel).1
  lost := by
    intro f c'
    rw [h.lost f c']
    refine exists_congr fun i' ↦ ⟨fun ⟨hf, hy⟩ ↦ ?_, fun ⟨hf, hy⟩ ↦ ?_⟩
    · have hlt : f < n.parcels.length := (List.getElem?_eq_some_iff.mp hf).1
      refine ⟨by rw [List.getElem?_append_left hlt, hf], fun y hy' ↦ ?_⟩
      rcases getElem?_set_cases hy' with ⟨-, rfl⟩ | ⟨-, hy'⟩
      · exact fun heq ↦ absurd (Option.some.inj heq) (Nat.ne_of_gt hlt)
      · exact hy y hy'
    · have hlt : i < n.stations.length := (List.getElem?_eq_some_iff.mp hi).1
      rcases getElem?_concat_cases hf with ⟨rfl, heq⟩ | hf
      · obtain ⟨rfl, -⟩ := Parcel.mk.inj heq
        exact absurd rfl (hy _ (List.getElem?_set_self hlt))
      · refine ⟨hf, fun y hy' ↦ ?_⟩
        by_cases hii : i = i'
        · subst hii
          obtain rfl := Option.some.inj (hi.symm.trans hy')
          exact nofun
        · exact hy y (by rwa [List.getElem?_set_ne hii])
  done := by
    rw [filterMap_snoc, ← h.done]
    exact (List.append_nil _).symm
  calm := fun hcalm hfate ↦ h.calm (fun s hs ↦ hcalm s (List.mem_append_left _ hs)) hfate

/-- Serving a parcel changes what is said of its caller only. -/
theorem others_served (h : Alike sys wire w tr n fate tr' q lost) (hn : NetRun sys wire w tr n)
    {reply : Option (Reply c)} {parcel : Parcel Call Reply} {y : Proc Call Reply Job} {i' : ℕ}
    {s : Signal Call Reply Job} {s' : Happening Call Reply Job}
    (hf : n.parcels[f]? = some ⟨i, c, reply⟩) (hi : i ≠ i') (hs : s.seen i' = none)
    (hs' : s'.seen i' = none) :
    Agree (n.parcels.set f parcel) (fate i') n.stations[i']? (q.procs.set i y)[i']?
      ((tr ++ [s]).filterMap (Signal.seen i')) ((tr' ++ [s']).filterMap (Happening.seen i')) := by
  rw [List.getElem?_set_ne hi, filterMap_snoc, filterMap_snoc, hs, hs', Option.toList_none,
    List.append_nil, List.append_nil]
  refine (h.procs i').congr fun z hz f' hf' ↦ List.getElem?_set_ne fun hff ↦ ?_
  obtain ⟨_, _, _, _, hparcel⟩ := hn.waiting hz hf'
  rw [← hff, hf] at hparcel
  exact hi (Parcel.mk.inj (Option.some.inj hparcel)).1

/-- A process that waits for a parcel nobody has served is about to make its call. -/
theorem sent (h : Alike sys wire w tr n fate tr' q lost)
    (hi : n.stations[i]? = some ⟨j, .call c k, some f⟩)
    (hf : n.parcels[f]? = some ⟨i, c, none⟩) : q.procs[i]? = some ⟨j, .call c k⟩ ∧
      tr'.filterMap (Happening.seen i) = tr.filterMap (Signal.seen i) := by
  have hagree := h.procs i
  rw [hi] at hagree
  obtain ⟨p', ys, hsettled, hp, hseen⟩ := hagree
  cases hsettled with
  | sent => exact ⟨hp, by simpa using hseen⟩
  | answered hf' | failed hf' =>
      rw [hf] at hf'
      cases hf'

/-- The parcel that was waited for and is served now was not lost and is not. -/
theorem lost_served (h : Alike sys wire w tr n fate tr' q lost) {x : Station Call Reply Job}
    {r : Reply c} (hi : n.stations[i]? = some x) (hx : x.waits = some f)
    (hf : n.parcels[f]? = some ⟨i, c, none⟩) (f' : ℕ) (c' : Call) : lost f' = some c' ↔
      ∃ i', (n.parcels.set f ⟨i, c, some r⟩)[f']? = some ⟨i', c', none⟩ ∧
        ∀ y, n.stations[i']? = some y → y.waits ≠ some f' := by
  rw [h.lost f' c']
  refine exists_congr fun i' ↦ and_congr_left fun hy ↦ ?_
  by_cases hff : f = f'
  · subst hff
    rw [List.getElem?_set_self (List.getElem?_eq_some_iff.mp hf).1, hf]
    refine ⟨fun heq ↦ ?_, fun heq ↦ ?_⟩
    · obtain ⟨rfl, -⟩ := Parcel.mk.inj (Option.some.inj heq)
      exact absurd hx (hy x hi)
    · obtain ⟨-, rfl, heq⟩ := Parcel.mk.inj (Option.some.inj heq)
      cases heq
  · rw [List.getElem?_set_ne hff]

theorem serve_waiting (h : Alike sys wire w tr n fate tr' q lost) (hn : NetRun sys wire w tr n)
    (hfate : ∀ i c r, fate i c = some r → wire.fails c r)
    (hi : n.stations[i]? = some ⟨j, .call c k, some f⟩)
    (hf : n.parcels[f]? = some ⟨i, c, none⟩) :
    ∃ tr' q lost, Alike sys wire w (tr ++ [.serve f c (sys.exec c n.world).1])
      { n with
        world := (sys.exec c n.world).2
        parcels := n.parcels.set f ⟨i, c, some (sys.exec c n.world).1⟩ } fate tr' q lost := by
  have hserved := List.getElem?_set_self
    (a := (⟨i, c, some (sys.exec c n.world).1⟩ : Parcel Call Reply))
    (List.getElem?_eq_some_iff.mp hf).1
  obtain ⟨hp, hseen⟩ := h.sent hi hf
  have hlt : i < q.procs.length := (List.getElem?_eq_some_iff.mp hp).1
  have hcalm : (∀ s ∈ tr ++ [.serve f c (sys.exec c n.world).1], ¬ s.IsFault) →
      (∀ i c, fate i c = none) → ∀ x ∈ tr', ¬ x.IsFault := fun hcalm ↦
    h.calm fun s hs ↦ hcalm s (List.mem_append_left _ hs)
  cases hr : fate i c with
  | none =>
      refine ⟨tr' ++ [.call i c (sys.exec c q.world).1], q.turn sys i j c k, lost, ?_⟩
      refine ⟨.call h.run hp, by rw [Pool.turn, h.world], by simp [Pool.turn, h.length],
        fun i' ↦ ?_, h.lost_served hi rfl hf, ?_, fun hs hnone ↦ ?_⟩
      · by_cases hii : i = i'
        · subst hii
          rw [hi, Pool.turn, List.getElem?_set_self hlt, filterMap_snoc, filterMap_snoc, hseen,
            h.world]
          exact ⟨_, _, .answered hserved hr, rfl, by simp [Signal.seen, Happening.seen]⟩
        · exact h.others_served hn hf hii rfl (by simp [Happening.seen, hii])
      · rw [filterMap_snoc, filterMap_snoc, h.done, h.world]
        rfl
      · exact List.forall_mem_append.mpr ⟨hcalm hs hnone, by simp [Happening.IsFault]⟩
  | some r =>
      refine ⟨tr' ++ [.unanswered i c r (sys.exec c q.world).1],
        ⟨(sys.exec c q.world).2, q.procs.set i ⟨j, k r⟩⟩, lost, ?_⟩
      refine ⟨.unanswered h.run hp (hfate i c r hr), by rw [h.world], by simp [h.length],
        fun i' ↦ ?_, h.lost_served hi rfl hf, ?_, fun _ hnone ↦ ?_⟩
      · by_cases hii : i = i'
        · subst hii
          rw [hi, List.getElem?_set_self hlt, filterMap_snoc, filterMap_snoc, hseen]
          exact ⟨_, _, .failed hserved hr, rfl, by simp [Signal.seen, Happening.seen]⟩
        · exact h.others_served hn hf hii rfl (by simp [Happening.seen, hii])
      · rw [filterMap_snoc, filterMap_snoc, h.done, h.world]
        rfl
      · rw [hnone] at hr
        cases hr

/-- Nobody waits for the parcel any more. -/
theorem serve_late (h : Alike sys wire w tr n fate tr' q lost) (hn : NetRun sys wire w tr n)
    (hi : ∀ x, n.stations[i]? = some x → x.waits ≠ some f)
    (hf : n.parcels[f]? = some ⟨i, c, none⟩) :
    Alike sys wire w (tr ++ [.serve f c (sys.exec c n.world).1])
      { n with
        world := (sys.exec c n.world).2
        parcels := n.parcels.set f ⟨i, c, some (sys.exec c n.world).1⟩ } fate
      (tr' ++ [.late c (sys.exec c q.world).1]) { q with world := (sys.exec c q.world).2 }
      (Function.update lost f none) where
  run := .late h.run ((h.lost f c).mpr ⟨i, hf, hi⟩)
  world := by rw [h.world]
  length := h.length
  procs := by
    intro i'
    rw [filterMap_snoc, filterMap_snoc]
    simp only [Signal.seen, Happening.seen, Option.toList_none, List.append_nil]
    refine (h.procs i').congr fun z hz f' hf' ↦ List.getElem?_set_ne fun hff ↦ ?_
    obtain ⟨_, _, _, _, hparcel⟩ := hn.waiting hz hf'
    subst hff
    obtain ⟨rfl, -⟩ := Parcel.mk.inj (Option.some.inj (hf.symm.trans hparcel))
    exact hi z hz hf'
  lost := by
    intro f' c'
    by_cases hff : f = f'
    · subst hff
      rw [Function.update_self, List.getElem?_set_self (List.getElem?_eq_some_iff.mp hf).1]
      refine ⟨nofun, fun ⟨i', heq, _⟩ ↦ ?_⟩
      obtain ⟨-, rfl, heq⟩ := Parcel.mk.inj (Option.some.inj heq)
      cases heq
    · rw [Function.update_of_ne (Ne.symm hff), List.getElem?_set_ne hff]
      exact h.lost f' c'
  done := by
    rw [filterMap_snoc, filterMap_snoc, h.done, h.world]
    rfl
  calm := fun hcalm hfate ↦ by
    have hnone := (h.run.run (h.calm (fun s hs ↦ hcalm s (List.mem_append_left _ hs)) hfate)).1 f
    rw [(h.lost f c).mpr ⟨i, hf, hi⟩] at hnone
    cases hnone

/-- A process goes on from a served request, as it was settled beforehand. -/
theorem resume {fate' : ℕ → (c : Call) → Option (Reply c)}
    (h : Alike sys wire w tr n fate' tr' q lost) (hothers : ∀ i', i ≠ i' → fate' i' = fate i')
    {r r' : Reply c} (hi : n.stations[i]? = some ⟨j, .call c k, some f⟩)
    (hf : n.parcels[f]? = some ⟨i, c, some r⟩) (hr : (fate' i c).getD r = r')
    {s : Signal Call Reply Job}
    (hseen : ∀ i', s.seen i' = if i = i' then some ⟨c, r'⟩ else none) (hdone : s.done = none)
    (hcalm : ¬ s.IsFault → (∀ i c, fate i c = none) → ∀ i c, fate' i c = none) :
    Alike sys wire w (tr ++ [s]) { n with stations := n.stations.set i ⟨j, k r', none⟩ } fate
      tr' q lost where
  run := h.run
  world := h.world
  length := by simp [h.length]
  procs := by
    intro i'
    rw [filterMap_snoc, hseen]
    have hagree := h.procs i'
    by_cases hii : i = i'
    · subst hii
      rw [hi] at hagree
      obtain ⟨p, ys, hsettled, hp, hseen'⟩ := hagree
      rw [List.getElem?_set_self (List.getElem?_eq_some_iff.mp hi).1, hp, hseen', if_pos rfl]
      cases hsettled with
      | sent hf' =>
          rw [hf] at hf'
          cases hf'
      | answered hf' hnone =>
          obtain ⟨-, -, heq⟩ := Parcel.mk.inj (Option.some.inj (hf.symm.trans hf'))
          obtain rfl := Option.some.inj (eq_of_heq heq)
          rw [hnone, Option.getD_none] at hr
          subst hr
          exact ⟨_, [], .free j _, rfl, by simp⟩
      | failed hf' hsome =>
          rw [hsome, Option.getD_some] at hr
          subst hr
          exact ⟨_, [], .free j _, rfl, by simp⟩
    · rw [hothers i' hii] at hagree
      rw [List.getElem?_set_ne hii, if_neg hii, Option.toList_none, List.append_nil]
      exact hagree
  lost := by
    intro f' c'
    rw [h.lost f' c']
    refine exists_congr fun i' ↦ and_congr_right fun hf' ↦ ⟨fun hy y hy' ↦ ?_, fun hy y hy' ↦ ?_⟩
    · rcases getElem?_set_cases hy' with ⟨-, rfl⟩ | ⟨-, hy'⟩
      · exact nofun
      · exact hy y hy'
    · by_cases hii : i = i'
      · subst hii
        obtain rfl := Option.some.inj (hi.symm.trans hy')
        rintro heq
        obtain rfl := Option.some.inj heq
        rw [hf] at hf'
        cases hf'
      · exact hy y (by rwa [List.getElem?_set_ne hii])
  done := by
    rw [filterMap_snoc, hdone, h.done]
    exact (List.append_nil _).symm
  calm := fun hs hfate ↦ h.calm (fun s hs' ↦ hs s (List.mem_append_left _ hs'))
    (hcalm (hs s (List.mem_append_right _ (List.mem_singleton_self _))) hfate)

/-- A process gives up on a request that has not been served. -/
theorem giveUp_unserved (h : Alike sys wire w tr n fate tr' q lost) {r : Reply c}
    (hi : n.stations[i]? = some ⟨j, .call c k, some f⟩)
    (hf : n.parcels[f]? = some ⟨i, c, none⟩) (hr : wire.fails c r) :
    Alike sys wire w (tr ++ [.giveUp i f c r])
      { n with stations := n.stations.set i ⟨j, k r, none⟩ } fate (tr' ++ [.lost i c r])
      { q with procs := q.procs.set i ⟨j, k r⟩ } (Function.update lost f (some c)) where
  run := by
    refine .lost h.run (h.sent hi hf).1 hr ?_
    cases hlost : lost f with
    | none => rfl
    | some c' =>
        obtain ⟨i', hf', hy⟩ := (h.lost f c').mp hlost
        obtain ⟨rfl, -⟩ := Parcel.mk.inj (Option.some.inj (hf.symm.trans hf'))
        exact absurd rfl (hy _ hi)
  world := h.world
  length := by simp [h.length]
  procs := by
    intro i'
    by_cases hii : i = i'
    · subst hii
      have hlt : i < n.stations.length := (List.getElem?_eq_some_iff.mp hi).1
      rw [List.getElem?_set_self hlt, List.getElem?_set_self (h.length ▸ hlt), filterMap_snoc,
        filterMap_snoc, (h.sent hi hf).2]
      exact ⟨_, [], .free j _, rfl, by simp [Signal.seen, Happening.seen]⟩
    · exact h.others hii (by simp [Signal.seen, hii]) (by simp [Happening.seen, hii])
  lost := by
    intro f' c'
    have hlt : i < n.stations.length := (List.getElem?_eq_some_iff.mp hi).1
    by_cases hff : f = f'
    · subst hff
      rw [Function.update_self, hf]
      refine ⟨fun heq ↦ ⟨i, by rw [Option.some.inj heq], fun y hy ↦ ?_⟩, fun ⟨i', heq, _⟩ ↦ ?_⟩
      · rw [List.getElem?_set_self hlt] at hy
        obtain rfl := Option.some.inj hy
        exact nofun
      · rw [(Parcel.mk.inj (Option.some.inj heq)).2.1]
    · rw [Function.update_of_ne (Ne.symm hff), h.lost f' c']
      refine exists_congr fun i' ↦ and_congr_right fun _ ↦ ⟨fun hy y hy' ↦ ?_, fun hy y hy' ↦ ?_⟩
      · rcases getElem?_set_cases hy' with ⟨-, rfl⟩ | ⟨-, hy'⟩
        · exact nofun
        · exact hy y hy'
      · by_cases hii : i = i'
        · subst hii
          obtain rfl := Option.some.inj (hi.symm.trans hy')
          exact fun heq ↦ hff (Option.some.inj heq)
        · exact hy y (by rwa [List.getElem?_set_ne hii])
  done := by
    rw [filterMap_snoc, filterMap_snoc, h.done]
    rfl
  calm := fun hs _ ↦
    (hs _ (List.mem_append_right _ (List.mem_singleton_self _)) trivial).elim

end Alike

theorem fails_update {fate : ℕ → (c : Call) → Option (Reply c)}
    (hfate : ∀ i c r, fate i c = some r → wire.fails c r) {g : (c : Call) → Option (Reply c)}
    (hg : ∀ c r, g c = some r → wire.fails c r) (i i' : ℕ) (c : Call) (r : Reply c)
    (h : Function.update fate i g i' c = some r) : wire.fails c r := by
  by_cases hi : i' = i
  · subst hi
    rw [Function.update_self] at h
    exact hg c r h
  · rw [Function.update_of_ne hi] at h
    exact hfate i' c r h

/-- Every run over the network is a run of a pool whose calls can fail, however the requests that
were served and wait for their reply will turn out. -/
theorem NetRun.alike (h : NetRun sys wire w tr n) {fate : ℕ → (c : Call) → Option (Reply c)}
    (hfate : ∀ i c r, fate i c = some r → wire.fails c r) :
    ∃ tr' q lost, Alike sys wire w tr n fate tr' q lost := by
  classical
  induction h generalizing fate with
  | nil =>
      refine ⟨[], Pool.init w, fun _ ↦ none, .nil, rfl, rfl, fun i ↦ ⟨rfl, rfl⟩, fun f c ↦ ?_, rfl,
        fun _ _ ↦ nofun⟩
      simp
  | start j hn ih =>
      obtain ⟨tr', q, lost, hsim⟩ := ih hfate
      exact ⟨_, _, _, hsim.start j⟩
  | inside hn hi _ ih =>
      obtain ⟨tr', q, lost, hsim⟩ := ih hfate
      exact ⟨_, _, _, hsim.inside hi⟩
  | send hn hi _ ih =>
      obtain ⟨tr', q, lost, hsim⟩ := ih hfate
      exact ⟨_, _, _, hsim.send hn hi⟩
  | @serve _ n f i c hn hf ih =>
      obtain ⟨tr', q, lost, hsim⟩ := ih hfate
      by_cases hwaits : ∃ x, n.stations[i]? = some x ∧ x.waits = some f
      · obtain ⟨⟨j, p, _⟩, hi, rfl⟩ := hwaits
        obtain ⟨c', k, reply, rfl, hf'⟩ := hn.waiting hi rfl
        obtain ⟨-, rfl, -⟩ := Parcel.mk.inj (Option.some.inj (hf.symm.trans hf'))
        exact hsim.serve_waiting hn hfate hi hf
      · exact ⟨_, _, _, hsim.serve_late hn (fun x hx hxf ↦ hwaits ⟨x, hx, hxf⟩) hf⟩
  | @answer _ n i j c k f r hn hi hf ih =>
      -- The request was to be answered.
      obtain ⟨tr', q, lost, hsim⟩ := ih (fails_update hfate (g := fun _ ↦ none) (fun _ _ ↦ nofun) i)
      refine ⟨_, _, _, hsim.resume (fun i' hii ↦ Function.update_of_ne (Ne.symm hii) _ _) hi hf
        (by rw [Function.update_self]; rfl) (fun _ ↦ rfl) rfl fun _ hnone i' c' ↦ ?_⟩
      by_cases hii : i' = i
      · rw [hii, Function.update_self]
      · rw [Function.update_of_ne hii, hnone]
  | @giveUp _ n i j c k f r hn hi hr ih =>
      obtain ⟨c', k', reply, hprog, hf⟩ := hn.waiting hi rfl
      obtain ⟨rfl, -⟩ := Prog.call.inj hprog
      cases reply with
      | none =>
          obtain ⟨tr', q, lost, hsim⟩ := ih hfate
          exact ⟨_, _, _, hsim.giveUp_unserved hi hf hr⟩
      | some served =>
          -- The request was to fail in this way.
          have hfails : ∀ c' r', Function.update (fun _ ↦ none) c (some r) c' = some r' →
              wire.fails c' r' := by
            intro c' r' hc'
            by_cases hcc : c' = c
            · subst hcc
              rw [Function.update_self] at hc'
              exact Option.some.inj hc' ▸ hr
            · rw [Function.update_of_ne hcc] at hc'
              cases hc'
          obtain ⟨tr', q, lost, hsim⟩ := ih (fails_update hfate hfails i)
          exact ⟨_, _, _, hsim.resume (fun i' hii ↦ Function.update_of_ne (Ne.symm hii) _ _) hi hf
            (by rw [Function.update_self, Function.update_self]; rfl) (fun _ ↦ rfl) rfl
            fun hcalm ↦ absurd trivial hcalm⟩

/-! ## When a call is carried out -/

/-- What is done, whoever asked for it, is a history of the shared state. -/
theorem NetRun.history (h : NetRun sys wire w tr n) :
    History sys.exec (fun _ _ ↦ True) w (tr.filterMap Signal.done) n.world := by
  induction h with
  | nil => exact .nil
  | inside _ _ _ ih =>
      rw [filterMap_snoc]
      exact .snoc _ ih trivial
  | serve _ _ ih =>
      rw [filterMap_snoc]
      exact .snoc _ ih trivial
  | start | send | answer | giveUp =>
      rw [filterMap_snoc]
      simpa [Signal.done]

/-- The parcel that is served. -/
def Signal.parcel : Signal Call Reply Job → Option ℕ
  | .serve f _ _ => some f
  | _ => none

/-- No request is carried out twice. -/
theorem NetRun.once (h : NetRun sys wire w tr n) : (tr.filterMap Signal.parcel).Nodup := by
  have hserved : (tr.filterMap Signal.parcel).Nodup ∧ ∀ f ∈ tr.filterMap Signal.parcel,
      ∃ i c r, n.parcels[f]? = some ⟨i, c, some r⟩ := by
    induction h with
    | nil => exact ⟨List.nodup_nil, nofun⟩
    | send _ _ _ ih =>
        rw [filterMap_snoc]
        refine ⟨by simpa [Signal.parcel] using ih.1, fun f hf ↦ ?_⟩
        obtain ⟨i, c, r, hr⟩ := ih.2 f (by simpa [Signal.parcel] using hf)
        exact ⟨i, c, r, by rw [List.getElem?_append_left (List.getElem?_eq_some_iff.mp hr).1, hr]⟩
    | @serve _ n f i c _ hf ih =>
        have hnew : f ∉ List.filterMap Signal.parcel _ := fun hmem ↦ by
          obtain ⟨_, _, _, hr⟩ := ih.2 f hmem
          rw [hf] at hr
          cases hr
        rw [filterMap_snoc]
        have hone : [f].Nodup := List.nodup_cons.mpr ⟨nofun, List.nodup_nil⟩
        refine ⟨List.nodup_append.mpr ⟨ih.1, hone, fun a ha b hb ↦ ?_⟩, fun f' hf' ↦ ?_⟩
        · rw [List.mem_singleton.mp hb]
          exact fun heq ↦ hnew (heq ▸ ha)
        · by_cases hff : f = f'
          · subst hff
            exact ⟨i, c, _, List.getElem?_set_self (List.getElem?_eq_some_iff.mp hf).1⟩
          · rw [List.getElem?_set_ne hff]
            exact ih.2 f' (by simpa [Signal.parcel, Ne.symm hff] using hf')
    | start _ _ ih | inside _ _ _ ih | answer _ _ _ ih | giveUp _ _ _ ih =>
        rw [filterMap_snoc]
        simpa only [Signal.parcel, Option.toList_none, List.append_nil] using ih
  exact hserved.1

/-- Process `i` does something. -/
def Signal.By (i : ℕ) : Signal Call Reply Job → Prop
  | .inside pid _ _ | .send pid _ | .answer pid _ _ _ | .giveUp pid _ _ _ => pid = i
  | _ => False

/-- The way of a parcel: it was sent, perhaps served, and its caller did nothing while it waited. -/
structure Underway (tr : List (Signal Call Reply Job)) (n : Network Call Reply σ Job) (f i : ℕ)
    (c : Call) (reply : Option (Reply c)) (sent since : List (Signal Call Reply Job)) : Prop where
  trace : tr = sent ++ .send i c :: since
  served : ∀ r, reply = some r → .serve f c r ∈ since
  silent : ∀ x, n.stations[i]? = some x → x.waits = some f → ∀ s ∈ since, ¬ s.By i

theorem Underway.snoc {f i : ℕ} {c : Call} {reply reply' : Option (Reply c)}
    {sent since : List (Signal Call Reply Job)} {s : Signal Call Reply Job}
    {n' : Network Call Reply σ Job} (h : Underway tr n f i c reply sent since)
    (hserved : ∀ r, reply' = some r → reply = some r ∨ s = .serve f c r)
    (hsilent : ∀ x, n'.stations[i]? = some x → x.waits = some f →
      n.stations[i]? = some x ∧ ¬ s.By i) :
    Underway (tr ++ [s]) n' f i c reply' sent (since ++ [s]) where
  trace := by simp [h.trace]
  served := by
    intro r hr
    rcases hserved r hr with hr | rfl
    · exact List.mem_append_left _ (h.served r hr)
    · exact List.mem_append_right _ (List.mem_singleton_self _)
  silent := by
    intro x hx hf
    obtain ⟨hx', hs⟩ := hsilent x hx hf
    exact List.forall_mem_append.mpr ⟨h.silent x hx' hf, by simpa using hs⟩

theorem NetRun.underway (h : NetRun sys wire w tr n) {f i : ℕ} {c : Call}
    {reply : Option (Reply c)} (hf : n.parcels[f]? = some ⟨i, c, reply⟩) :
    ∃ sent since, Underway tr n f i c reply sent since := by
  -- A process that goes on waits for nothing.
  have hfree : ∀ {stations : List (Station Call Reply Job)} {i' i f : ℕ}
      {y x : Station Call Reply Job}, y.waits = none → (stations.set i' y)[i]? = some x →
      x.waits = some f → i' ≠ i ∧ stations[i]? = some x := by
    intro stations i' i f y x hy hx hwaits
    rcases getElem?_set_cases hx with ⟨-, rfl⟩ | ⟨hii, hx⟩
    · rw [hy] at hwaits
      cases hwaits
    · exact ⟨hii, hx⟩
  induction h generalizing f i c reply with
  | nil => simp at hf
  | start j _ ih =>
      obtain ⟨sent, since, hway⟩ := ih hf
      refine ⟨sent, _, hway.snoc (fun r hr ↦ Or.inl hr) fun x hx hwaits ↦ ?_⟩
      rcases getElem?_concat_cases hx with ⟨-, rfl⟩ | hx
      · cases hwaits
      · exact ⟨hx, nofun⟩
  | inside _ _ _ ih =>
      obtain ⟨sent, since, hway⟩ := ih hf
      refine ⟨sent, _, hway.snoc (fun r hr ↦ Or.inl hr) fun x hx hwaits ↦ ?_⟩
      obtain ⟨hii, hx⟩ := hfree rfl hx hwaits
      exact ⟨hx, hii⟩
  | @send _ n i' j c' k hn hi _ ih =>
      rcases getElem?_concat_cases hf with ⟨rfl, heq⟩ | hf
      · obtain ⟨rfl, rfl, heq⟩ := Parcel.mk.inj heq
        obtain rfl := eq_of_heq heq
        exact ⟨_, [], rfl, nofun, fun _ _ _ ↦ nofun⟩
      · obtain ⟨sent, since, hway⟩ := ih hf
        refine ⟨sent, _, hway.snoc (fun r hr ↦ Or.inl hr) fun x hx hwaits ↦ ?_⟩
        rcases getElem?_set_cases hx with ⟨-, rfl⟩ | ⟨hii, hx⟩
        · obtain rfl := Option.some.inj hwaits
          exact absurd (List.getElem?_eq_some_iff.mp hf).1 (Nat.lt_irrefl _)
        · exact ⟨hx, hii⟩
  | @serve _ n f' i' c' hn hf' ih =>
      by_cases hff : f' = f
      · subst hff
        rw [List.getElem?_set_self (List.getElem?_eq_some_iff.mp hf').1] at hf
        obtain ⟨rfl, rfl, heq⟩ := Parcel.mk.inj (Option.some.inj hf)
        obtain rfl := eq_of_heq heq
        obtain ⟨sent, since, hway⟩ := ih hf'
        exact ⟨sent, _, hway.snoc (fun r hr ↦ Or.inr (by rw [Option.some.inj hr]))
          fun x hx _ ↦ ⟨hx, nofun⟩⟩
      · rw [List.getElem?_set_ne hff] at hf
        obtain ⟨sent, since, hway⟩ := ih hf
        exact ⟨sent, _, hway.snoc (fun r hr ↦ Or.inl hr) fun x hx _ ↦ ⟨hx, nofun⟩⟩
  | answer _ _ _ ih =>
      obtain ⟨sent, since, hway⟩ := ih hf
      refine ⟨sent, _, hway.snoc (fun r hr ↦ Or.inl hr) fun x hx hwaits ↦ ?_⟩
      obtain ⟨hii, hx⟩ := hfree rfl hx hwaits
      exact ⟨hx, hii⟩
  | giveUp _ _ _ ih =>
      obtain ⟨sent, since, hway⟩ := ih hf
      refine ⟨sent, _, hway.snoc (fun r hr ↦ Or.inl hr) fun x hx hwaits ↦ ?_⟩
      obtain ⟨hii, hx⟩ := hfree rfl hx hwaits
      exact ⟨hx, hii⟩

/-- What a process is answered was carried out while it waited. -/
theorem NetRun.within (h : NetRun sys wire w tr n) {before after : List (Signal Call Reply Job)}
    {i f : ℕ} {c : Call} {r : Reply c} (htr : tr = before ++ .answer i f c r :: after) :
    ∃ sent since, before = sent ++ .send i c :: since ∧ .serve f c r ∈ since ∧
      ∀ s ∈ since, ¬ s.By i := by
  induction h generalizing before after with
  | nil => simp at htr
  | @answer tr n i' j c' k f' r' hn hi hf ih =>
      rcases snoc_eq_append_cons htr with ⟨rfl, heq⟩ | ⟨after', htr⟩
      · obtain ⟨rfl, rfl, rfl, heq⟩ := Signal.answer.inj heq
        obtain rfl := eq_of_heq heq
        obtain ⟨sent, since, hway⟩ := hn.underway hf
        exact ⟨sent, since, hway.trace, hway.served r' rfl, hway.silent _ hi rfl⟩
      · exact ih htr
  | start _ _ ih | inside _ _ _ ih | send _ _ _ ih | serve _ _ ih | giveUp _ _ _ ih =>
      rcases snoc_eq_append_cons htr with ⟨-, heq⟩ | ⟨after', htr⟩
      · cases heq
      · exact ih htr

end Simulation

end Interact
