import NovaChat.Effects
import NovaChat.Stream.Numbering

/-!
# What is left of a stream

The log of a response is a window on all the events ever appended to it.  An append extends the
stream and may move the window, a sweep closes it, and a removal forgets stream and window alike;
nothing else touches the log.  A read is a page of the stream or says that the page is gone.
-/

namespace NovaChat

open Interact Numbering

/-! ## What a call does to one log -/

/-- The number and the event an exchange adds to the log of `r`. -/
def assigned (r : ResponseId) : Exchange Call Call.Reply → Option (ℕ × AppendEvent)
  | ⟨.eventLog (.append event), .ok seq⟩ => if event.responseId = r then some (seq, event) else none
  | ⟨.eventLog (.insert event), .ok seq⟩ => if event.responseId = r then some (seq, event) else none
  | _ => none

theorem assigned_eq_some {r : ResponseId} {x : Exchange Call Call.Reply} {seq : ℕ}
    {event : AppendEvent} (h : assigned r x = some (seq, event)) : event.responseId = r ∧
      (x = ⟨.eventLog (.append event), .ok seq⟩ ∨ x = ⟨.eventLog (.insert event), .ok seq⟩) := by
  unfold assigned at h
  split at h
  · split_ifs at h with hid
    obtain ⟨rfl, rfl⟩ := Prod.mk.inj (Option.some.inj h)
    exact ⟨hid, Or.inl rfl⟩
  · split_ifs at h with hid
    obtain ⟨rfl, rfl⟩ := Prod.mk.inj (Option.some.inj h)
    exact ⟨hid, Or.inr rfl⟩
  · cases h

/-- How a call may change the entry of `r`, and the event it adds to it. -/
inductive LogStep (capacity : ℕ) (r : ResponseId) :
    Call → Option ResponseLog → Option (ℕ × AppendEvent) → Option ResponseLog → Prop
  | stay (c : Call) (x : Option ResponseLog) : LogStep capacity r c x none x
  | push {c : Call} {event : AppendEvent} (x : Option ResponseLog)
      (hc : c = .eventLog (.append event) ∨ c = .eventLog (.insert event))
      (hid : event.responseId = r) (hswept : (x.getD {}).swept = false) :
      LogStep capacity r c x (some ((x.getD {}).nextSeq, event))
        (some ((x.getD {}).push capacity event))
  | close (now retain : ℕ) (log : ResponseLog) :
      LogStep capacity r (.eventLog (.close r now retain)) (some log) none
        (some { log with retainMs := asU64 retain, terminalAtMs := some now })
  | sweep (now : ℕ) (log : ResponseLog) :
      LogStep capacity r (.eventLog (.sweepExpired now)) (some log) none (log.sweep now).1
  | remove (log : ResponseLog) :
      LogStep capacity r (.eventLog (.remove r)) (some log) none none

section LogStep

variable {w : World} {r : ResponseId}

/-- An insertion that is not refused pushes its event. -/
theorem logStep_insert {c : Call} {event : AppendEvent}
    (hc : c = .eventLog (.append event) ∨ c = .eventLog (.insert event))
    (hroom : w.log.full event.responseId = false) :
    LogStep w.log.capacityPerResponse r c (w.log.logs.lookup r)
      (if event.responseId = r then some ((w.log.log event.responseId).nextSeq, event) else none)
      ((w.log.pushed event).logs.lookup r) := by
  by_cases hid : event.responseId = r
  · have hlook : (w.log.pushed event).logs.lookup r =
        some ((w.log.log r).push w.log.capacityPerResponse event) := by
      subst hid
      exact AList.lookup_insert _
    rw [if_pos hid, hlook, hid]
    refine .push (w.log.logs.lookup r) hc hid ?_
    rw [hid] at hroom
    unfold EventLogStore.full at hroom
    cases hlog : w.log.logs.lookup r with
    | none => rfl
    | some log => simpa [hlog] using hroom
  · have hlook : (w.log.pushed event).logs.lookup r = w.log.logs.lookup r :=
      (HashMap.lookup_insert' ..).trans (if_neg (Ne.symm hid))
    rw [if_neg hid, hlook]
    exact .stay c _

/-- Every call moves the entry of every response by one of these steps. -/
theorem exec_logStep (c : Call) (w : World) (r : ResponseId) :
    LogStep w.log.capacityPerResponse r c (w.log.logs.lookup r) (assigned r ⟨c, (exec c w).1⟩)
      ((exec c w).2.log.logs.lookup r) := by
  rcases c with _ | c | c | c | c | c
  · exact .stay _ _
  · cases c <;> exact .stay _ _
  · cases c with
    | append event =>
        rcases append_cases event w with ⟨e, heq, -⟩ | ⟨-, hroom, heq⟩
        · rw [heq]
          exact .stay _ _
        · rw [heq]
          exact logStep_insert (Or.inl rfl) hroom
    | insert event =>
        rcases MemResponseEventLog.insert_cases w.log event with ⟨e, -, heq⟩ | ⟨hroom, heq⟩
        · simp only [exec, execEventLog, heq]
          exact .stay _ _
        · simp only [exec, execEventLog, heq]
          exact logStep_insert (Or.inr rfl) hroom
    | fenceCheck event => exact .stay _ _
    | readAfter id cursor limit => exact .stay _ _
    | close id now retain =>
        simp only [exec, execEventLog, World.withLog_snd, MemResponseEventLog.close]
        cases hlog : w.log.logs.lookup id with
        | none => exact .stay _ _
        | some log =>
            simp only [HashMap.lookup_insert']
            split_ifs with hid
            · subst hid
              rw [hlog]
              exact .close now retain log
            · exact .stay _ _
    | sweepExpired now =>
        simp only [exec, execEventLog, World.withLog_snd, MemResponseEventLog.sweepExpired,
          HashMap.lookup_filterMapVal]
        cases hlog : w.log.logs.lookup r with
        | none => exact .stay _ _
        | some log => exact .sweep now log
    | remove id =>
        simp only [exec, execEventLog, World.withLog_snd, MemResponseEventLog.remove]
        cases hlog : w.log.logs.lookup id with
        | none => exact .stay _ _
        | some log =>
            simp only [HashMap.lookup_erase']
            split_ifs with hid
            · subst hid
              rw [hlog]
              exact .remove log
            · exact .stay _ _
  · cases c <;> exact .stay _ _
  · cases c <;> exact .stay _ _
  · cases c <;> exact .stay _ _

/-- No call changes the capacity of the logs. -/
theorem exec_capacity (c : Call) (w : World) :
    (exec c w).2.log.capacityPerResponse = w.log.capacityPerResponse := by
  rcases c with _ | c | c | c | c | c
  · rfl
  · cases c <;> rfl
  · cases c with
    | append event =>
        rcases append_cases event w with ⟨e, heq, -⟩ | ⟨-, -, heq⟩
        · rw [heq]
        · rw [heq]
          rfl
    | insert event =>
        simp only [exec, execEventLog, World.withLog_snd]
        rcases MemResponseEventLog.insert_cases w.log event with ⟨e, -, heq⟩ | ⟨-, heq⟩
        · rw [heq]
        · rw [heq]
          rfl
    | close id now retain =>
        simp only [exec, execEventLog, World.withLog_snd, MemResponseEventLog.close]
        split <;> rfl
    | remove id =>
        simp only [exec, execEventLog, World.withLog_snd, MemResponseEventLog.remove]
        split <;> rfl
    | _ => rfl
  · cases c <;> rfl
  · cases c <;> rfl
  · cases c <;> rfl

end LogStep

/-! ## The stream behind a log -/

/-- The events of a stream as the log stores them. -/
abbrev stored (all : List AppendEvent) : List ResponseEvent := stamped ResponseEvent.mk all

theorem from_stored (all : List AppendEvent) :
    From ResponseEvent.sequenceNumber 0 (stored all) :=
  from_stamped fun _ _ ↦ rfl

theorem stored_snoc (all : List AppendEvent) (event : AppendEvent) :
    stored (all ++ [event]) = stored all ++ [⟨all.length, event⟩] :=
  stamped_snoc event

/-- A log stands for the stream `all`: it counts all its events and keeps the last of them. -/
structure ResponseLog.Holds (capacity : ℕ) (log : ResponseLog) (all : List AppendEvent) :
    Prop where
  nextSeq : log.nextSeq = all.length
  evicted : log.evictedBefore ≤ all.length
  ring : log.ring = (stored all).drop log.evictedBefore
  bounded : log.ring.length ≤ capacity

namespace ResponseLog.Holds

variable {capacity : ℕ} {log : ResponseLog} {all : List AppendEvent}

theorem empty (capacity : ℕ) : Holds capacity {} [] :=
  ⟨rfl, Nat.le_refl 0, rfl, Nat.zero_le _⟩

/-- A push adds to the stream, and drops from the window what no longer fits. -/
theorem push (h : log.Holds capacity all) (event : AppendEvent) :
    (log.push capacity event).Holds capacity (all ++ [event]) := by
  have hring : log.ring ++ [⟨log.nextSeq, event⟩] =
      (stored (all ++ [event])).drop log.evictedBefore := by
    rw [stored_snoc, h.nextSeq, List.drop_append_of_le_length (by simpa using h.evicted), h.ring]
  have hlen : (log.ring ++ [(⟨log.nextSeq, event⟩ : ResponseEvent)]).length =
      all.length + 1 - log.evictedBefore := by
    rw [hring, List.length_drop, length_stamped, List.length_append, List.length_singleton]
  refine ⟨?_, ?_, ?_, ?_⟩
  · simp [ResponseLog.push, h.nextSeq]
  · have hle := h.evicted
    simp only [ResponseLog.push, List.length_append, List.length_singleton] at hlen ⊢
    omega
  · simp only [ResponseLog.push]
    rw [hring, List.drop_drop]
  · simp only [ResponseLog.push, List.length_drop]
    omega

theorem close (h : log.Holds capacity all) (t : Option ℕ) (retain : ℕ) :
    Holds capacity { log with retainMs := retain, terminalAtMs := t } all :=
  ⟨h.nextSeq, h.evicted, h.ring, h.bounded⟩

theorem sweep (h : log.Holds capacity all) {now : ℕ} {log' : ResponseLog}
    (hsweep : (log.sweep now).1 = some log') : log'.Holds capacity all := by
  unfold ResponseLog.sweep at hsweep
  split_ifs at hsweep
  · obtain rfl := Option.some.inj hsweep
    refine ⟨h.nextSeq, Nat.le_of_eq h.nextSeq, ?_, Nat.zero_le _⟩
    exact (List.drop_of_length_le (by simp [h.nextSeq])).symm
  · obtain rfl := Option.some.inj hsweep
    exact h

theorem from_ring (h : log.Holds capacity all) :
    From ResponseEvent.sequenceNumber log.evictedBefore log.ring := by
  have hdrop := (from_stored all).drop log.evictedBefore
  rwa [Nat.zero_add, ← h.ring] at hdrop

theorem length_ring (h : log.Holds capacity all) :
    log.evictedBefore + log.ring.length = log.nextSeq := by
  have hle := h.evicted
  rw [h.ring, List.length_drop, length_stamped, h.nextSeq]
  omega

theorem page_ring (h : log.Holds capacity all) {cursor : Option ℕ}
    (hfirst : log.evictedBefore ≤ first cursor) (limit : ℕ) :
    page ResponseEvent.sequenceNumber log.ring cursor limit =
      page ResponseEvent.sequenceNumber (stored all) cursor limit := by
  rw [h.from_ring.page_eq, (from_stored all).page_eq, h.ring, List.drop_drop, Nat.sub_zero,
    show log.evictedBefore + (first cursor - log.evictedBefore) = first cursor by omega]

end ResponseLog.Holds

/-! ## The stream behind an entry -/

/-- The entry of `r` stands for the stream `all`; no entry stands for no events. -/
def World.Streams (w : World) (r : ResponseId) (all : List AppendEvent) : Prop :=
  (w.log.log r).Holds w.log.capacityPerResponse all

/-- Whether `r` has an entry in the event log. -/
def World.Logged (w : World) (r : ResponseId) : Prop := (w.log.logs.lookup r).isSome = true

section Streams

variable {w : World} {r : ResponseId} {all : List AppendEvent}

theorem streams_of_none (h : w.log.logs.lookup r = none) : w.Streams r [] := by
  unfold World.Streams EventLogStore.log
  rw [h]
  exact .empty _

theorem World.Streams.holds (h : w.Streams r all) {log : ResponseLog}
    (hlog : w.log.logs.lookup r = some log) : log.Holds w.log.capacityPerResponse all := by
  unfold World.Streams EventLogStore.log at h
  rwa [hlog] at h

/-- A call that leaves the entry in place adds to its stream the event it was answered for. -/
theorem World.Streams.call (h : w.Streams r all) {c : Call}
    (hkept : w.Logged r → (exec c w).2.Logged r) :
    (exec c w).2.Streams r (all ++ ((assigned r ⟨c, (exec c w).1⟩).map Prod.snd).toList) := by
  have hstep := exec_logStep c w r
  unfold World.Streams EventLogStore.log at h ⊢
  unfold World.Logged at hkept
  rw [exec_capacity]
  generalize (exec c w).2.log.logs.lookup r = y at hstep hkept ⊢
  generalize assigned r ⟨c, (exec c w).1⟩ = a at hstep ⊢
  generalize w.log.logs.lookup r = x at hstep hkept h
  cases hstep with
  | stay => simpa using h
  | push x hc hid hswept => exact h.push _
  | close now retain log =>
      simp only [Option.map_none, Option.toList_none, List.append_nil]
      exact h.close _ _
  | sweep now log =>
      obtain ⟨log', hlog'⟩ := Option.isSome_iff_exists.mp (hkept rfl)
      simp only [hlog', Option.map_none, Option.toList_none, List.append_nil]
      exact h.sweep hlog'
  | remove log => exact absurd (hkept rfl) (by simp)

theorem World.Streams.exists_call (h : w.Streams r all) (c : Call) :
    ∃ all', (exec c w).2.Streams r all' := by
  by_cases hkept : (exec c w).2.Logged r
  · exact ⟨_, h.call fun _ ↦ hkept⟩
  · exact ⟨[], streams_of_none (by simpa [World.Logged] using hkept)⟩

end Streams

/-! ## Reading -/

/-- A cursor is a machine word. -/
def Word (cursor : Option ℕ) : Prop := ∀ c ∈ cursor, c ≤ u64Max

/-- The position a read looks for. -/
def target : Option ℕ → ℕ
  | none => 0
  | some after => satAdd after 1

theorem readAfter_of_lookup {l : EventLogStore} {r : ResponseId} {log : ResponseLog}
    (hlog : l.logs.lookup r = some log) (cursor : Option ℕ) (limit : ℕ) :
    MemResponseEventLog.readAfter l r cursor limit =
      if log.swept then .error .expired
      else if target cursor < log.evictedBefore then .error .expired
      else if target cursor < log.nextSeq then
        .ok ((log.ring.drop (target cursor - log.evictedBefore)).take limit)
      else .ok [] := by
  unfold MemResponseEventLog.readAfter
  rw [hlog]
  cases cursor <;> rfl

/-- The position saturates, but below the largest word it is the first number its cursor has not
seen. -/
theorem target_lt {cursor : Option ℕ} (hcursor : Word cursor) {n : ℕ} (hn : n ≤ u64Max) :
    (target cursor < n ↔ first cursor < n) ∧ (first cursor < n → target cursor = first cursor) := by
  cases cursor with
  | none => exact ⟨Iff.rfl, fun _ ↦ rfl⟩
  | some c =>
      have hc : c ≤ u64Max := hcursor c rfl
      simp only [target, first_some, satAdd]
      omega

/-- A read is a page of the stream, unless the log was swept or the page's start evicted.  The
counter of a log is a machine word. -/
theorem ResponseLog.Holds.readAfter_eq {l : EventLogStore} {r : ResponseId} {log : ResponseLog}
    {all : List AppendEvent} (h : log.Holds l.capacityPerResponse all)
    (hlog : l.logs.lookup r = some log) {cursor : Option ℕ} (hcursor : Word cursor)
    (hcount : log.nextSeq ≤ u64Max) (limit : ℕ) :
    MemResponseEventLog.readAfter l r cursor limit =
      if log.swept = true ∨ first cursor < log.evictedBefore then .error .expired
      else .ok (page ResponseEvent.sequenceNumber log.ring cursor limit) := by
  have hlen := h.length_ring
  have hev : log.evictedBefore ≤ u64Max := by omega
  rw [h.from_ring.page_eq, readAfter_of_lookup hlog]
  cases hswept : log.swept with
  | true => simp
  | false =>
      simp only [Bool.false_eq_true, if_false, false_or]
      by_cases hgone : first cursor < log.evictedBefore
      · rw [if_pos ((target_lt hcursor hev).1.mpr hgone), if_pos hgone]
      · rw [if_neg fun ht ↦ hgone ((target_lt hcursor hev).1.mp ht), if_neg hgone]
        by_cases hnext : first cursor < log.nextSeq
        · rw [if_pos ((target_lt hcursor hcount).1.mpr hnext), (target_lt hcursor hcount).2 hnext]
        · rw [if_neg fun ht ↦ hnext ((target_lt hcursor hcount).1.mp ht),
            List.drop_of_length_le (by omega), List.take_nil]

/-- Whatever a read brings is the next page of the stream. -/
theorem World.Streams.readAfter {w : World} {r : ResponseId} {all : List AppendEvent}
    (h : w.Streams r all) {cursor : Option ℕ} (hcursor : Word cursor)
    (hcount : all.length ≤ u64Max) (limit : ℕ) :
    (∃ e, MemResponseEventLog.readAfter w.log r cursor limit = .error e) ∨
      MemResponseEventLog.readAfter w.log r cursor limit =
        .ok (page ResponseEvent.sequenceNumber (stored all) cursor limit) := by
  cases hlog : w.log.logs.lookup r with
  | none => exact Or.inl ⟨.unknown, by simp [MemResponseEventLog.readAfter, hlog]⟩
  | some log =>
      have hholds := h.holds hlog
      rw [hholds.readAfter_eq hlog hcursor (hholds.nextSeq ▸ hcount)]
      split_ifs with hgone
      · exact Or.inl ⟨_, rfl⟩
      · push Not at hgone
        exact Or.inr (congrArg _ (hholds.page_ring hgone.2 limit))

end NovaChat
