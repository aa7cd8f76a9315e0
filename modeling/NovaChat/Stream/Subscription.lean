import NovaChat.Gateway
import NovaChat.Interact.Amid
import NovaChat.Interact.History
import NovaChat.Stream.Ring
import Mathlib.Data.List.Infix

/-!
# Subscriptions

A reader of a stream takes one page after another while appends, closes and sweeps go on around
it.  What it has been told is a segment of the stream that starts where its cursor says, and it
stops at a terminal event or at an error it is told of.
-/

namespace NovaChat

open Interact Numbering

/-! ## What a subscriber has been told -/

/-- The events an exchange brought. -/
def brought : Exchange Call Call.Reply → List ResponseEvent
  | ⟨.eventLog (.readAfter ..), .ok batch⟩ => batch
  | _ => []

/-- What a stream has delivered: everything it read but the answer to its probe. -/
def delivered (xs : List (Exchange Call Call.Reply)) : List ResponseEvent :=
  (xs.drop 1).flatMap brought

/-- The error the last exchange brought. -/
def failure (xs : List (Exchange Call Call.Reply)) : Option EventLogError :=
  match xs.getLast? with
  | some ⟨.eventLog (.readAfter ..), .error e⟩ => some e
  | _ => none

/-- A subscriber at `cursor` to the stream `all` is told the events after its cursor, one after
another, up to the batch that brings a terminal event, unless an error ends it before. -/
structure Gapless (all : List AppendEvent) (cursor : Option ℕ)
    (xs : List (Exchange Call Call.Reply))
    (q : Service (List ResponseEvent × Gateway.StreamEnd)) : Prop where
  segment : delivered xs <+: (stored all).drop (first cursor)
  finished : (delivered xs).any (fun e ↦ e.kind.isTerminal) = true →
    q = .ret (delivered xs, .finished)
  stopped : ∀ events stop, q = .ret (events, stop) → events = delivered xs ∧
    ((stop = .finished ∧ events.any (fun e ↦ e.kind.isTerminal) = true) ∨
      ∃ e, failure xs = some e ∧ (stop = .refused e ∨ stop = .broken e))

/-- What happens around a subscriber to `r`: any call of anybody, as long as the entry stays and its
counter fits a machine word. -/
def Around (r : ResponseId) (w w' : World) : Prop :=
  ∃ c, w' = (exec c w).2 ∧ (w.Logged r → w'.Logged r) ∧ (w'.log.log r).nextSeq ≤ u64Max

/-- How far a subscription has come. -/
inductive Subscribed (r : ResponseId) (batch rounds : ℕ) (cursor : Option ℕ)
    (all : List AppendEvent) (xs : List (Exchange Call Call.Reply)) :
    Service (List ResponseEvent × Gateway.StreamEnd) → Prop
  | probing (hxs : xs = []) :
      Subscribed r batch rounds cursor all xs (Gateway.openSse batch rounds r cursor)
  | reading (n : ℕ) (cur : Option ℕ) (events : List ResponseEvent) (hne : xs ≠ [])
      (hevents : delivered xs = events) (hword : Word cur)
      (hseg : events <+: (stored all).drop (first cursor))
      (hcur : first cur = first cursor + events.length)
      (hopen : events.any (fun e ↦ e.kind.isTerminal) = false) :
      Subscribed r batch rounds cursor all xs
        (Prog.iterate (Gateway.sseRound (max batch 1) r) n (cur, events))
  | stopped (events : List ResponseEvent) (stop : Gateway.StreamEnd)
      (hevents : delivered xs = events)
      (hseg : events <+: (stored all).drop (first cursor))
      (hstop : (stop = .finished ∧ events.any (fun e ↦ e.kind.isTerminal) = true) ∨
        events.any (fun e ↦ e.kind.isTerminal) = false ∧
          ∃ e, failure xs = some e ∧ (stop = .refused e ∨ stop = .broken e)) :
      Subscribed r batch rounds cursor all xs (.ret (events, stop))

section Subscribed

variable {r : ResponseId} {batch rounds : ℕ} {cursor : Option ℕ}
  {xs : List (Exchange Call Call.Reply)} {q : Service (List ResponseEvent × Gateway.StreamEnd)}
  {all more : List AppendEvent}

theorem delivered_snoc (hne : xs ≠ []) (x : Exchange Call Call.Reply) :
    delivered (xs ++ [x]) = delivered xs ++ brought x := by
  have hpos : 1 ≤ xs.length := List.length_pos_iff.mpr hne
  simp [delivered, List.drop_append_of_le_length hpos]

theorem failure_snoc (id : ResponseId) (cur : Option ℕ) (limit : ℕ) (e : EventLogError) :
    failure (xs ++ [⟨.eventLog (.readAfter id cur limit), .error e⟩]) = some e := by
  simp [failure]

theorem segment_page {events : List ResponseEvent} {cur : Option ℕ}
    (hseg : events <+: (stored all).drop (first cursor))
    (hcur : first cur = first cursor + events.length) (limit : ℕ) :
    events ++ page ResponseEvent.sequenceNumber (stored all) cur limit <+:
      (stored all).drop (first cursor) := by
  obtain ⟨rest, hrest⟩ := hseg
  have hdrop : (stored all).drop (first cur) = rest := by
    rw [hcur, ← List.drop_drop, ← hrest]
    simp
  rw [(from_stored all).page_eq, Nat.sub_zero, hdrop, ← hrest]
  exact (List.prefix_append_right_inj _).mpr (List.take_prefix _ _)

/-- The page a reader at `cur` gets carries the numbers from its cursor on, and leaves it at a
machine word. -/
theorem from_page (cur : Option ℕ) (limit : ℕ) :
    From ResponseEvent.sequenceNumber (first cur)
      (page ResponseEvent.sequenceNumber (stored all) cur limit) := by
  rw [(from_stored all).page_eq, Nat.sub_zero]
  have hfrom := ((from_stored all).drop (first cur)).take limit
  rwa [Nat.zero_add] at hfrom

theorem word_after {cur : Option ℕ} (hcur : Word cur) (hcount : all.length ≤ u64Max) (limit : ℕ) :
    Word (after ResponseEvent.sequenceNumber
      (page ResponseEvent.sequenceNumber (stored all) cur limit) cur) := by
  intro c hc
  rcases Option.or_eq_some_iff.mp hc with hlast | ⟨-, hold⟩
  · obtain ⟨event, hevent, rfl⟩ := Option.map_eq_some_iff.mp hlast
    have hmem : event ∈ stored all :=
      List.mem_of_mem_filter (List.mem_of_mem_take (List.mem_of_getLast? hevent))
    have hlt := (from_stored all).mem_iff.mp ⟨event, hmem, rfl⟩
    rw [length_stamped] at hlt
    omega
  · exact hcur c hold

/-- One read takes a subscription one page further, or ends it. -/
theorem Subscribed.read {w : World} (h : Subscribed r batch rounds cursor all xs q)
    (hstreams : w.Streams r all) (hcursor : Word cursor) (hcount : all.length ≤ u64Max) {c : Call}
    {k : c.Reply → Service (List ResponseEvent × Gateway.StreamEnd)} (hq : q = .call c k) :
    (exec c w).2 = w ∧
      Subscribed r batch rounds cursor all (xs ++ [⟨c, (exec c w).1⟩]) (k (exec c w).1) := by
  cases h with
  | probing hxs =>
      obtain ⟨rfl, hk⟩ := Prog.call.inj hq
      obtain rfl := eq_of_heq hk
      subst hxs
      refine ⟨rfl, ?_⟩
      generalize (exec (.eventLog (.readAfter r cursor 1)) w).1 = reply
      rcases reply with e | events
      · exact .stopped [] (.refused e) rfl List.nil_prefix (Or.inr ⟨rfl, e, rfl, Or.inl rfl⟩)
      · exact .reading rounds cursor [] (by simp) rfl hcursor List.nil_prefix rfl rfl
  | reading n cur events hne hevents hword hseg hcur hopen =>
      cases n with
      | zero => cases hq
      | succ n =>
          obtain ⟨rfl, hk⟩ := Prog.call.inj hq
          obtain rfl := eq_of_heq hk
          refine ⟨rfl, ?_⟩
          have hread := hstreams.readAfter hword hcount (max batch 1)
          have hmore := delivered_snoc hne
            ⟨.eventLog (.readAfter r cur (max batch 1)),
              MemResponseEventLog.readAfter w.log r cur (max batch 1)⟩
          have hfail := fun e ↦ @failure_snoc xs r cur (max batch 1) e
          simp only [exec, execEventLog]
          rw [hevents] at hmore
          rcases hread with ⟨e, heq⟩ | heq
          · rw [heq] at hmore ⊢
            exact .stopped events (.broken e) (hmore.trans (List.append_nil _)) hseg
              (Or.inr ⟨hopen, e, hfail e, Or.inr rfl⟩)
          · have hseg' := segment_page hseg hcur (max batch 1)
            have hword' := word_after hword hcount (max batch 1)
            have hfirst := first_after (@from_page all cur (max batch 1))
            rw [heq] at hmore ⊢
            generalize page ResponseEvent.sequenceNumber (stored all) cur (max batch 1) = events'
              at hmore hseg' hword' hfirst ⊢
            rcases events' with - | ⟨event, events'⟩
            · exact .reading n cur events (by simp) (hmore.trans (List.append_nil _)) hword hseg
                hcur hopen
            · change Subscribed r batch rounds cursor all _
                (Prog.bind (if ((event :: events').any fun e ↦ e.kind.isTerminal) = true
                  then .ret (Sum.inr (events ++ event :: events', Gateway.StreamEnd.finished))
                  else .ret (Sum.inl (after ResponseEvent.sequenceNumber (event :: events') cur,
                    events ++ event :: events'))) _)
              by_cases hterm : ((event :: events').any fun e ↦ e.kind.isTerminal) = true
              · rw [if_pos hterm]
                exact .stopped _ .finished hmore hseg'
                  (Or.inl ⟨rfl, by rw [List.any_append, hterm, Bool.or_true]⟩)
              · rw [if_neg hterm]
                refine .reading n _ _ (by simp) hmore hword' hseg' ?_ ?_
                · rw [hfirst, hcur, List.length_append, Nat.add_assoc]
                · rw [List.any_append, hopen, Bool.eq_false_iff.mpr hterm, Bool.or_false]
  | stopped => cases hq

end Subscribed

/-! ## The contract of a log -/

/-- What a log promises its readers: it buffers the events from its watermark up to its counter, a
read brings the next of them or says that they are gone, and a subscription is told all of them. -/
structure Exact (w : World) (r : ResponseId) (log : ResponseLog) : Prop where
  buffered : From ResponseEvent.sequenceNumber log.evictedBefore log.ring ∧
    log.evictedBefore + log.ring.length = log.nextSeq
  expired : ∀ cursor limit, Word cursor →
    (MemResponseEventLog.readAfter w.log r cursor limit = .error .expired ↔
      log.swept = true ∨ first cursor < log.evictedBefore)
  page : ∀ cursor limit, Word cursor →
    ¬ (log.swept = true ∨ first cursor < log.evictedBefore) →
      MemResponseEventLog.readAfter w.log r cursor limit =
        .ok (page ResponseEvent.sequenceNumber log.ring cursor limit)
  length : ∀ cursor limit batch, Word cursor →
    MemResponseEventLog.readAfter w.log r cursor limit = .ok batch →
      batch.length = min limit (log.nextSeq - first cursor)
  waiting : ∀ cursor limit, Word cursor → 1 ≤ limit →
    MemResponseEventLog.readAfter w.log r cursor limit = .ok [] → log.nextSeq ≤ first cursor
  told : ∀ batch rounds cursor xs q w', Word cursor →
    Prog.Amid exec (Around r) (Gateway.openSse batch rounds r cursor) w xs q w' →
      ∃ all, w'.Streams r all ∧ Gapless all cursor xs q

namespace Sample

/-- Append a lifecycle event of the first response. -/
def note (kind : ResponseEventKind) : Call :=
  .eventLog (.append (.lifecycle (id 1) kind (.terminalStub (id 1) .inProgress)))

end Sample

end NovaChat
