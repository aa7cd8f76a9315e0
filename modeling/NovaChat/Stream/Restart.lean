import NovaChat.Interact.Local
import NovaChat.Stream.Ring
import NovaChat.Turn.Provenance

/-!
# Streams that end for good

A log that was removed, or whose tombstone was dropped, takes its counter with it.  An event that
arrives afterwards creates the log anew and counts from zero.  As long as no event arrives at a log
that is gone, no number is assigned twice, and a stream that was found to be over stays over.
-/

namespace NovaChat

open Interact

/-! ## What a run shows of one stream -/

/-- The number and the event an event of a run adds to the log of `r`. -/
def taken (r : ResponseId) : Event Call Call.Reply Job → Option (ℕ × AppendEvent)
  | .start _ => none
  | .call _ c reply => assigned r ⟨c, reply⟩

/-- All numbers assigned to events of `r`, in the order they were assigned. -/
def numbers (r : ResponseId) (tr : Trace) : List ℕ := tr.filterMap fun e ↦ (taken r e).map Prod.fst

@[simp] theorem numbers_snoc (r : ResponseId) (tr : Trace) (e : Event Call Call.Reply Job) :
    numbers r (tr ++ [e]) = numbers r tr ++ ((taken r e).map Prod.fst).toList := by
  cases h : taken r e <;> simp [numbers, h]

/-- A read of `r` finds its log swept, or finds no log although there has been one. -/
def FoundOver (r : ResponseId) (tr : Trace) (q : State) : Prop :=
  ∃ cursor limit,
    (MemResponseEventLog.readAfter q.world.log r cursor limit = .error .expired ∧
      (q.world.log.log r).swept = true) ∨
    (MemResponseEventLog.readAfter q.world.log r cursor limit = .error .unknown ∧
      numbers r tr ≠ [])

/-- A read of `r` that returns events. -/
def Finds (r : ResponseId) : Event Call Call.Reply Job → Prop
  | .call _ (.eventLog (.readAfter id _ _)) (.ok batch) => id = r ∧ batch ≠ []
  | _ => False

/-- No number is assigned twice, and once a read has found the stream over no later read of a run
that goes on finds events. -/
def NeverRestarts (ok : Trace → State → Event Call Call.Reply Job → Prop) (r : ResponseId)
    (tr : Trace) (q : State) : Prop :=
  (numbers r tr).Nodup ∧ ∀ tr' q', Run system (fun t ↦ ok (tr ++ t)) q tr' q' →
    FoundOver r tr q → ∀ e ∈ tr', ¬ Finds r e

/-! ## The condition -/

/-- The event log would take an event of `r` from this call: its log has room, and the event passes
the fence if it has to. -/
def Call.Admits (r : ResponseId) (w : World) : Call → Prop
  | .eventLog (.append event) =>
    event.responseId = r ∧ MemResponseEventLog.fenceCheck w.store event = .ok () ∧
      w.log.full r = false
  | .eventLog (.insert event) => event.responseId = r ∧ w.log.full r = false
  | _ => False

/-- No event of `r` is taken when its log has been there and is gone. -/
def TimelyStep (r : ResponseId) (tr : Trace) (q : State) : Event Call Call.Reply Job → Prop
  | .start _ => True
  | .call _ c _ => c.Admits r q.world → numbers r tr ≠ [] → q.world.Logged r

/-- An event that gets a number was one the log would take. -/
theorem admits_of_assigned {r : ResponseId} {c : Call} {w : World}
    (h : (assigned r ⟨c, (exec c w).1⟩).isSome = true) : c.Admits r w := by
  unfold assigned at h
  split at h
  · next event seq heq =>
      obtain ⟨rfl, hreply⟩ := Exchange.mk.inj heq
      obtain rfl : event.responseId = r := by
        by_contra hid
        simp [hid] at h
      rcases append_cases event w with ⟨e, hrefused, -⟩ | ⟨hfence, hroom, -⟩
      · rw [hrefused] at hreply
        cases hreply
      · exact ⟨rfl, hfence, hroom⟩
  · next event seq heq =>
      obtain ⟨rfl, hreply⟩ := Exchange.mk.inj heq
      obtain rfl : event.responseId = r := by
        by_contra hid
        simp [hid] at h
      rcases MemResponseEventLog.insert_cases w.log event with ⟨e, -, hrefused⟩ | ⟨hroom, -⟩
      · simp only [exec, execEventLog, hrefused] at hreply
        cases hreply
      · exact ⟨rfl, hroom⟩
  · cases h

instance (r : ResponseId) (w : World) : DecidablePred (Call.Admits r w) := by
  intro c
  unfold Call.Admits
  split <;> infer_instance

instance (r : ResponseId) (tr : Trace) (q : State) : DecidablePred (TimelyStep r tr q)
  | .start _ => .isTrue trivial
  | .call _ c _ =>
    inferInstanceAs (Decidable (c.Admits r q.world → numbers r tr ≠ [] →
      (q.world.log.logs.lookup r).isSome = true))

/-! ## Numbers -/

section Counted

variable {r : ResponseId} {ns : List ℕ} {x y : Option ResponseLog} {a : Option (ℕ × AppendEvent)}
  {c : Call} {capacity : ℕ}

/-- The numbers assigned so far are different and below the counter of the log, if it is there; and
a log that is there has assigned some. -/
structure Counted (ns : List ℕ) (x : Option ResponseLog) : Prop where
  once : ns.Nodup
  below : ∀ log, x = some log → ∀ n ∈ ns, n < log.nextSeq
  used : x.isSome = true → ns ≠ []

theorem sweep_some {now : ℕ} {log log' : ResponseLog} (h : (log.sweep now).1 = some log') :
    log'.nextSeq = log.nextSeq ∧ (log.swept = true → log'.swept = true) := by
  unfold ResponseLog.sweep at h
  split_ifs at h
  · obtain rfl := Option.some.inj h
    exact ⟨rfl, fun _ ↦ rfl⟩
  · obtain rfl := Option.some.inj h
    exact ⟨rfl, id⟩

/-- A push takes the next number. -/
theorem Counted.push (h : Counted ns x) (htimely : ns ≠ [] → x.isSome = true)
    (event : AppendEvent) :
    Counted (ns ++ [(x.getD {}).nextSeq]) (some ((x.getD {}).push capacity event)) := by
  have hbelow : ∀ n ∈ ns, n < (x.getD {}).nextSeq := by
    intro n hn
    obtain ⟨log, rfl⟩ := Option.isSome_iff_exists.mp (htimely (List.ne_nil_of_mem hn))
    exact h.below log rfl n hn
  refine ⟨?_, ?_, fun _ ↦ by simp⟩
  · refine List.nodup_append.mpr ⟨h.once, List.nodup_singleton _, ?_⟩
    intro n hn m hm
    obtain rfl := List.mem_singleton.mp hm
    exact Nat.ne_of_lt (hbelow n hn)
  · rintro log heq n hn
    obtain rfl := Option.some.inj heq
    have hnext : ((x.getD {}).push capacity event).nextSeq = (x.getD {}).nextSeq + 1 := rfl
    rw [hnext]
    rcases List.mem_append.mp hn with hn | hn
    · exact Nat.lt_succ_of_lt (hbelow n hn)
    · obtain rfl := List.mem_singleton.mp hn
      exact Nat.lt_succ_self _

/-- A timely call keeps the count. -/
theorem Counted.step (h : Counted ns x) (hstep : LogStep capacity r c x a y)
    (htimely : a.isSome = true → ns ≠ [] → x.isSome = true) :
    Counted (ns ++ (a.map Prod.fst).toList) y := by
  cases hstep with
  | stay => simpa using h
  | push x hc hid hswept => exact h.push (htimely rfl) _
  | close now retain log =>
      simp only [Option.map_none, Option.toList_none, List.append_nil]
      refine ⟨h.once, ?_, fun _ ↦ h.used rfl⟩
      rintro log' heq n hn
      obtain rfl := Option.some.inj heq
      exact h.below log rfl n hn
  | sweep now log =>
      simp only [Option.map_none, Option.toList_none, List.append_nil]
      refine ⟨h.once, fun log' heq n hn ↦ ?_, fun _ ↦ h.used rfl⟩
      rw [(sweep_some heq).1]
      exact h.below log rfl n hn
  | remove log =>
      simp only [Option.map_none, Option.toList_none, List.append_nil]
      exact ⟨h.once, nofun, nofun⟩

/-- A stream is over when its log is swept, or gone after it has assigned numbers. -/
def Over (ns : List ℕ) (x : Option ResponseLog) : Prop :=
  (∀ log, x = some log → log.swept = true) ∧ ns ≠ []

/-- A stream that is over stays over. -/
theorem Over.step (h : Over ns x) (hstep : LogStep capacity r c x a y)
    (htimely : a.isSome = true → ns ≠ [] → x.isSome = true) : Over ns y := by
  cases hstep with
  | stay => exact h
  | push x hc hid hswept =>
      obtain ⟨log, rfl⟩ := Option.isSome_iff_exists.mp (htimely rfl h.2)
      rw [show (some log).getD {} = log from rfl, h.1 log rfl] at hswept
      cases hswept
  | close now retain log =>
      refine ⟨?_, h.2⟩
      rintro log' heq
      obtain rfl := Option.some.inj heq
      exact h.1 log rfl
  | sweep now log => exact ⟨fun log' heq ↦ (sweep_some heq).2 (h.1 log rfl), h.2⟩
  | remove log => exact ⟨nofun, h.2⟩

end Counted

/-! ## Runs -/

section Runs

variable {r : ResponseId} {tr : Trace} {w : World} {q : State}

theorem numbers_call (i : ℕ) (c : Call) (reply : c.Reply) :
    numbers r (tr ++ [.call i c reply]) =
      numbers r tr ++ ((assigned r ⟨c, reply⟩).map Prod.fst).toList := numbers_snoc ..

theorem numbers_start (j : Job) : numbers r (tr ++ [.start j]) = numbers r tr := by
  rw [numbers_snoc]
  exact List.append_nil _

theorem counted_run (hempty : w.log.logs.lookup r = none)
    (h : Run system (TimelyStep r) (Pool.init w) tr q) :
    Counted (numbers r tr) (q.world.log.logs.lookup r) := by
  induction h with
  | nil => exact ⟨List.nodup_nil, by simp [Pool.init, hempty], by simp [Pool.init, hempty]⟩
  | start _ _ ih =>
      rw [numbers_start]
      exact ih
  | turn _ _ htimely ih =>
      rw [numbers_call]
      exact ih.step (exec_logStep _ _ r) fun ha ↦ htimely (admits_of_assigned ha)

/-- A read that finds the stream over finds its log swept or gone. -/
theorem FoundOver.over (h : FoundOver r tr q)
    (hcounted : Counted (numbers r tr) (q.world.log.logs.lookup r)) :
    Over (numbers r tr) (q.world.log.logs.lookup r) := by
  obtain ⟨cursor, limit, ⟨hread, hswept⟩ | ⟨hread, hused⟩⟩ := h
  · unfold EventLogStore.log at hswept
    cases hlog : q.world.log.logs.lookup r with
    | none => simp [hlog] at hswept
    | some log =>
        rw [hlog] at hswept hcounted
        refine ⟨?_, hcounted.used rfl⟩
        rintro log' heq
        obtain rfl := Option.some.inj heq
        exact hswept
  · refine ⟨fun log hlog ↦ ?_, hused⟩
    rw [readAfter_of_lookup hlog] at hread
    split_ifs at hread <;> cases hread

/-- A stream that is over has no events for a reader. -/
theorem Over.not_finds (h : Over (numbers r tr) (w.log.logs.lookup r)) (i : ℕ) (c : Call) :
    ¬ Finds r (.call i c (exec c w).1) := by
  intro hfinds
  unfold Finds at hfinds
  split at hfinds
  · next id cursor limit batch heq =>
      obtain ⟨rfl, hne⟩ := hfinds
      obtain ⟨-, rfl, hreply⟩ := Event.call.inj heq
      have hread : MemResponseEventLog.readAfter w.log id cursor limit = .ok batch :=
        eq_of_heq hreply
      cases hlog : w.log.logs.lookup id with
      | none => simp [MemResponseEventLog.readAfter, hlog] at hread
      | some log =>
          rw [readAfter_of_lookup hlog, if_pos (h.1 log hlog)] at hread
          cases hread
  · exact hfinds

/-- As long as no event arrives at a log that is gone, the numbers of a response are all different,
and once a read has found its stream over no later read finds events. -/
theorem never_restarts (hempty : w.log.logs.lookup r = none)
    (h : Run system (TimelyStep r) (Pool.init w) tr q) : NeverRestarts (TimelyStep r) r tr q := by
  have hcounted := counted_run hempty h
  refine ⟨hcounted.once, fun tr' q' h' hfound ↦ ?_⟩
  have hinv : Over (numbers r (tr ++ tr')) (q'.world.log.logs.lookup r) ∧
      ∀ e ∈ tr', ¬ Finds r e := by
    induction h' with
    | nil =>
        rw [List.append_nil]
        exact ⟨hfound.over hcounted, fun _ he ↦ absurd he List.not_mem_nil⟩
    | start _ _ ih =>
        rw [← List.append_assoc, numbers_start]
        refine ⟨ih.1, fun e he ↦ ?_⟩
        rcases List.mem_append.mp he with he | he
        · exact ih.2 e he
        · obtain rfl := List.mem_singleton.mp he
          exact id
    | turn _ _ htimely ih =>
        have hover := ih.1.step (exec_logStep _ _ r) fun ha ↦ htimely (admits_of_assigned ha)
        rw [← List.append_assoc, numbers_call]
        refine ⟨⟨hover.1, fun hnil ↦ hover.2 (List.append_eq_nil_iff.mp hnil).1⟩, fun e he ↦ ?_⟩
        rcases List.mem_append.mp he with he | he
        · exact ih.2 e he
        · obtain rfl := List.mem_singleton.mp he
          exact ih.1.not_finds _ _
  exact hinv.2

end Runs

namespace Sample

/-- A turn outside conversations, created and taken as far as the lookup before its last event. -/
def nearlyDone : List (Action Job) :=
  .start (.create cfg 4 tenant rootSpec none ⟨1⟩) :: steps 0 3 ++ work :: steps 1 5

/-- The sample turn is deleted. -/
def deletion : List (Action Job) := .start (.delete tenant (id 1)) :: steps 2 3

end Sample

/-- A stream whose response is deleted when it has ended is over for good. -/
theorem never_restarts_deleted : ∃ tr q,
    Run system (TimelyStep (Sample.id 1)) (Pool.init Sample.world) tr q ∧
      numbers (Sample.id 1) tr = [0, 1, 2] ∧ ¬ q.world.Logged (Sample.id 1) ∧
      NeverRestarts (TimelyStep (Sample.id 1)) (Sample.id 1) tr q := by
  obtain ⟨tr, q, h, htest⟩ := Run.exists_of_schedule system (Pool.init Sample.world)
    (fun tr q e ↦ decide (TimelyStep (Sample.id 1) tr q e))
    (fun tr q ↦ decide (numbers (Sample.id 1) tr = [0, 1, 2]) &&
      (q.world.log.logs.lookup (Sample.id 1)).isNone)
    (fun tr q e he ↦ of_decide_eq_true he)
    (Sample.nearlyDone ++ Sample.steps 1 2 ++ Sample.deletion) (by decide +kernel)
  obtain ⟨hnumbers, hgone⟩ := Bool.and_eq_true_iff.mp htest
  refine ⟨tr, q, h, of_decide_eq_true hnumbers, ?_, never_restarts rfl h⟩
  unfold World.Logged
  rw [Option.isNone_iff_eq_none.mp hgone]
  simp

/-- The last event of a turn arrives when the response has been deleted, and gets the first number
again. -/
theorem restarted_stream : ¬ ∀ (w : World) (r : ResponseId) (tr : Trace) (q : State),
    w.log.logs.lookup r = none → Run system MintStep (Pool.init w) tr q →
      NeverRestarts MintStep r tr q := by
  intro hclaim
  obtain ⟨tr, q, h, htest⟩ := Run.exists_of_schedule system (Pool.init Sample.world)
    (fun tr q e ↦ decide (MintStep tr q e))
    (fun tr _ ↦ decide (numbers (Sample.id 1) tr = [0, 1, 0]))
    (fun tr q e he ↦ of_decide_eq_true he)
    (Sample.nearlyDone ++ Sample.deletion ++ Sample.steps 1 1) (by decide +kernel)
  have honce := (hclaim Sample.world (Sample.id 1) tr q rfl h).1
  rw [of_decide_eq_true htest] at honce
  exact absurd honce (by decide)

end NovaChat
