import NovaChat.Context.Predecessor
import NovaChat.Context.Produced

/-!
# What is read back of a stream

The stream of a response is what has arrived of it, as long as its log is not removed.  A log that
was removed may be begun anew by a late event.  Where no item is finished in such a log, whatever a
reader makes of what it reads is paired: it has seen a part of what has arrived, and then nothing
that was finished.
-/

namespace NovaChat

open Interact Prog Numbering

/-! ## Arrivals -/

/-- The events of `r` that were taken. -/
def arrived (r : ResponseId) (tr : Trace) : List AppendEvent :=
  tr.filterMap fun e ↦ (taken r e).map Prod.snd

section Arrived

variable {r : ResponseId} {tr : Trace}

@[simp] theorem arrived_call (i : ℕ) (c : Call) (reply : c.Reply) :
    arrived r (tr ++ [.call i c reply]) =
      arrived r tr ++ ((assigned r ⟨c, reply⟩).map Prod.snd).toList := by
  cases h : assigned r ⟨c, reply⟩ <;> simp [arrived, taken, h]

end Arrived

/-! ## One log -/

/-- The log of `r` has counted as many events as `xs` has. -/
def World.Counts (w : World) (r : ResponseId) (xs : List AppendEvent) : Prop :=
  (w.log.log r).nextSeq = xs.length

instance (w : World) (r : ResponseId) (xs : List AppendEvent) : Decidable (w.Counts r xs) :=
  inferInstanceAs (Decidable (_ = _))

/-- The log of `r` stands for the last ones of `xs`: for all of them, or for nothing finished. -/
def World.Remains (w : World) (r : ResponseId) (xs : List AppendEvent) : Prop :=
  ∃ all, w.Streams r all ∧ all <:+ xs ∧ (all = xs ∨ finishedOf all = [])

section Remains

variable {w : World} {r : ResponseId} {xs all : List AppendEvent} {c : Call}

theorem World.Remains.streams (h : w.Remains r xs) (hcounts : w.Counts r xs) : w.Streams r xs := by
  obtain ⟨all, hstreams, hsuffix, -⟩ := h
  have hlen : all.length = xs.length := hstreams.nextSeq.symm.trans hcounts
  rwa [hsuffix.eq_of_length hlen] at hstreams

theorem World.Remains.lost (h : w.Remains r xs) (hlost : ¬ w.Counts r xs) :
    ∃ all, w.Streams r all ∧ all.length < xs.length ∧ finishedOf all = [] := by
  obtain ⟨all, hstreams, hsuffix, rfl | hnone⟩ := h
  · exact absurd hstreams.nextSeq hlost
  · refine ⟨all, hstreams, Nat.lt_of_le_of_ne hsuffix.length_le fun hlen ↦ hlost ?_, hnone⟩
    exact hstreams.nextSeq.trans hlen

/-- A call adds what it was answered for to the log and to `xs`, and may lose the log. -/
theorem World.Remains.call (h : w.Remains r xs)
    (hcontinues : ∀ seq event, assigned r ⟨c, (exec c w).1⟩ = some (seq, event) →
      event.finished.isSome = true → w.Counts r xs) :
    (exec c w).2.Remains r (xs ++ ((assigned r ⟨c, (exec c w).1⟩).map Prod.snd).toList) := by
  by_cases hkept : w.Logged r → (exec c w).2.Logged r
  · by_cases hcounts : w.Counts r xs
    · exact ⟨_, (h.streams hcounts).call hkept, List.suffix_refl _, Or.inl rfl⟩
    obtain ⟨all, hstreams, ⟨before, rfl⟩, hall⟩ := h
    refine ⟨_, hstreams.call hkept, ⟨before, by rw [List.append_assoc]⟩, Or.inr ?_⟩
    have hnone : finishedOf all = [] := by
      rcases hall with hall | hnone
      · rw [← hall] at hcounts
        exact absurd hstreams.nextSeq hcounts
      · exact hnone
    rw [finishedOf_append, hnone, List.nil_append]
    refine finishedOf_eq_nil.mpr fun event hevent ↦ ?_
    obtain ⟨⟨seq, event'⟩, hassigned, rfl⟩ :=
      Option.map_eq_some_iff.mp (Option.mem_toList.mp hevent)
    cases hfinished : event'.finished with
    | none => rfl
    | some p => exact absurd (hcontinues seq event' hassigned (by simp [hfinished])) hcounts
  · push Not at hkept
    have hgone : (exec c w).2.log.logs.lookup r = none := by
      simpa [World.Logged] using hkept.2
    exact ⟨[], streams_of_none hgone, List.nil_suffix, Or.inr rfl⟩

theorem World.Remains.still_lost (h : w.Remains r xs) (hlost : ¬ w.Counts r xs) :
    ¬ (exec c w).2.Counts r (xs ++ ((assigned r ⟨c, (exec c w).1⟩).map Prod.snd).toList) := by
  obtain ⟨all, hstreams, hlt, -⟩ := h.lost hlost
  intro hcounts
  unfold World.Counts at hcounts
  rw [List.length_append] at hcounts
  by_cases hkept : w.Logged r → (exec c w).2.Logged r
  · have hlen := (hstreams.call hkept).nextSeq
    rw [List.length_append] at hlen
    omega
  · push Not at hkept
    have hgone : (exec c w).2.log.logs.lookup r = none := by
      simpa [World.Logged] using hkept.2
    have hzero := (streams_of_none hgone).nextSeq
    rw [List.length_nil] at hzero
    omega

/-- Whatever a read brings is a page of the stream, however far the cursor. -/
theorem World.Streams.page (h : w.Streams r all) {cursor : Option ℕ} {limit : ℕ}
    {batch : List ResponseEvent}
    (hread : MemResponseEventLog.readAfter w.log r cursor limit = .ok batch) :
    ∃ k, batch = ((stored all).drop (target cursor)).take k := by
  cases hlog : w.log.logs.lookup r with
  | none => simp [MemResponseEventLog.readAfter, hlog] at hread
  | some log =>
      rw [readAfter_of_lookup hlog] at hread
      split_ifs at hread with hswept hgone hnext
      · obtain rfl := Except.ok.inj hread
        refine ⟨limit, ?_⟩
        rw [(h.holds hlog).ring, List.drop_drop, show log.evictedBefore +
          (target cursor - log.evictedBefore) = target cursor by omega]
      · obtain rfl := Except.ok.inj hread
        exact ⟨0, by rw [List.take_zero]⟩

theorem PageOf.mono {x : Exchange Call Call.Reply} (h : PageOf all r x) (ys : List AppendEvent) :
    PageOf (all ++ ys) r x := by
  intro cursor limit batch hx
  obtain ⟨k, rfl⟩ := h cursor limit batch hx
  exact take_drop_of_prefix stamped_append _ _

theorem reply_of_read {cursor : Option ℕ} {limit : ℕ} {batch : List ResponseEvent}
    (h : (⟨c, (exec c w).1⟩ : Exchange Call Call.Reply) =
      ⟨.eventLog (.readAfter r cursor limit), .ok batch⟩) :
    MemResponseEventLog.readAfter w.log r cursor limit = .ok batch := by
  obtain ⟨rfl, hreply⟩ := Exchange.mk.inj h
  exact eq_of_heq hreply

theorem World.Streams.pageOf (h : w.Streams r xs) : PageOf xs r ⟨c, (exec c w).1⟩ :=
  fun _ _ _ hx ↦ h.page (reply_of_read hx)

theorem World.Streams.barren (h : w.Streams r all) (hnone : finishedOf all = []) :
    Barren r ⟨c, (exec c w).1⟩ := by
  intro cursor limit batch hx e he
  obtain ⟨k, rfl⟩ := h.page (reply_of_read hx)
  have hmem : e.event ∈ (stored all).map ResponseEvent.event :=
    List.mem_map_of_mem (List.mem_of_mem_drop (List.mem_of_mem_take he))
  rw [map_event_stored] at hmem
  exact finishedOf_eq_nil.mp hnone _ hmem

end Remains

/-! ## Runs -/

/-- What process `i` has read of `r` at a given point of a run. -/
structure Reread (r : ResponseId) (i : ℕ) (tr : Trace) (q : State) : Prop where
  remains : q.world.Remains r (arrived r tr)
  read : ∃ us vs, exchangesOf i tr = us ++ vs ∧ (∀ x ∈ us, PageOf (arrived r tr) r x) ∧
    (∀ x ∈ vs, Barren r x) ∧ (vs ≠ [] → ¬ q.world.Counts r (arrived r tr))

section Runs

variable {w : World} {tr : Trace} {q : State} {r : ResponseId}

/-- A call adds to what its caller has read, and to what has arrived. -/
theorem Reread.call {i k : ℕ} {c : Call} (h : Reread r i tr q)
    (hcontinues : ∀ seq event, assigned r ⟨c, (exec c q.world).1⟩ = some (seq, event) →
      event.finished.isSome = true → q.world.Counts r (arrived r tr)) {q' : State}
    (hq' : q'.world = (exec c q.world).2) :
    Reread r i (tr ++ [.call k c (exec c q.world).1]) q' := by
  obtain ⟨hremains, us, vs, hread, hus, hvs, hlost⟩ := h
  refine ⟨?_, ?_⟩
  · rw [hq', arrived_call]
    exact hremains.call hcontinues
  rw [hq', arrived_call, exchangesOf_call, hread]
  by_cases hcounts : q.world.Counts r (arrived r tr)
  · -- Up to here only pages were read, and so is this one.
    obtain rfl : vs = [] := by
      by_contra hne
      exact hlost hne hcounts
    refine ⟨us ++ (if k = i then [⟨c, (exec c q.world).1⟩] else []), [], by simp, fun x hx ↦ ?_,
      by simp, by simp⟩
    rcases List.mem_append.mp hx with hx | hx
    · exact (hus x hx).mono _
    · split_ifs at hx
      · rw [List.mem_singleton.mp hx]
        exact (hremains.streams hcounts).pageOf.mono _
      · cases hx
  · -- The log has been begun anew, and nothing in it is finished.
    obtain ⟨all, hstreams, -, hnone⟩ := hremains.lost hcounts
    refine ⟨us, vs ++ (if k = i then [⟨c, (exec c q.world).1⟩] else []),
      by rw [List.append_assoc], fun x hx ↦ (hus x hx).mono _, fun x hx ↦ ?_,
      fun _ ↦ hremains.still_lost hcounts⟩
    rcases List.mem_append.mp hx with hx | hx
    · exact hvs x hx
    · split_ifs at hx
      · rw [List.mem_singleton.mp hx]
        exact hstreams.barren hnone
      · cases hx

end Runs

end NovaChat
