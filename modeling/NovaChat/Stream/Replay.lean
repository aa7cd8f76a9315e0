import NovaChat.Runtime.Runtime
import NovaChat.Stream.Ring

/-!
# Replaying a stream from its start

Three loops read a response's stream page by page from its first event: the two that rebuild the
output of a response and the one that waits for its end.  Over a log that still has its first event
each of them sees the stream up to the end of the page with the first terminal event.
-/

namespace NovaChat

open Interact Numbering ResponsesService

/-! ## A log that can be replayed -/

/-- Whether an event ends a stream. -/
def ends (e : ResponseEvent) : Bool := e.kind.isTerminal

/-- A reader who starts at the beginning finds the whole stream, which is `events`. -/
structure EventLogStore.Replays (l : EventLogStore) (r : ResponseId)
    (events : List ResponseEvent) : Prop where
  numbered : From ResponseEvent.sequenceNumber 0 events
  word : events.length ≤ u64Max
  read : ∀ cursor limit, Word cursor → MemResponseEventLog.readAfter l r cursor limit =
    .ok (page ResponseEvent.sequenceNumber events cursor limit)

/-- A log can be replayed if it is not swept and nothing was evicted from it. -/
theorem ResponseLog.Holds.replays {l : EventLogStore} {r : ResponseId} {log : ResponseLog}
    {all : List AppendEvent} (h : log.Holds l.capacityPerResponse all)
    (hlog : l.logs.lookup r = some log) (hswept : log.swept = false)
    (hevicted : log.evictedBefore = 0) (hcount : log.nextSeq ≤ u64Max) :
    l.Replays r log.ring := by
  have hlen := h.length_ring
  refine ⟨hevicted ▸ h.from_ring, by omega, fun cursor limit hcursor ↦ ?_⟩
  rw [h.readAfter_eq hlog hcursor hcount, if_neg]
  rintro (hgone | hgone)
  · rw [hswept] at hgone
    cases hgone
  · omega

theorem ResponseLog.Holds.readAfter_none {l : EventLogStore} {r : ResponseId} {log : ResponseLog}
    {all : List AppendEvent} (h : log.Holds l.capacityPerResponse all)
    (hlog : l.logs.lookup r = some log) (hgone : log.swept = true ∨ 0 < log.evictedBefore)
    (hcount : log.nextSeq ≤ u64Max) (limit : ℕ) :
    MemResponseEventLog.readAfter l r none limit = .error .expired := by
  rw [h.readAfter_eq hlog (fun _ hc ↦ absurd hc (by simp)) hcount]
  exact if_pos hgone

/-! ## Loops over pages -/

/-- What a round does with the page it read. -/
def paged {S B : Type} (step : S → ResponseEvent → S) (result : S → B)
    (batch : List ResponseEvent) (acc : S) : (Option ℕ × S) ⊕ B :=
  if batch.isEmpty then .inr (result acc)
  else if batch.any ends then .inr (result (batch.foldl step acc))
  else .inl (batch.getLast?.map ResponseEvent.sequenceNumber, batch.foldl step acc)

theorem paged_cons {S B : Type} (step : S → ResponseEvent → S) (result : S → B)
    (e : ResponseEvent) (batch : List ResponseEvent) (acc : S) :
    paged step result (e :: batch) acc =
      if (e :: batch).any ends then .inr (result ((e :: batch).foldl step acc))
      else .inl ((e :: batch).getLast?.map ResponseEvent.sequenceNumber,
        (e :: batch).foldl step acc) := rfl

section Loop

variable {w : World} {r : ResponseId} {events : List ResponseEvent} {size : ℕ}

/-- Where a reader stands who has read so many events, a multiple of the page size unless it is
all of them. -/
structure AtPage (events : List ResponseEvent) (size : ℕ) (cursor : Option ℕ) : Prop where
  word : Word cursor
  within : first cursor ≤ events.length
  aligned : size ∣ first cursor ∨ first cursor = events.length
  unended : (events.take (first cursor)).any ends = false

theorem AtPage.start (events : List ResponseEvent) (size : ℕ) : AtPage events size none :=
  ⟨fun _ hc ↦ absurd hc (by simp), Nat.zero_le _, Or.inl (Nat.dvd_zero _), rfl⟩

theorem EventLogStore.Replays.page_eq (h : w.log.Replays r events) (cursor : Option ℕ) :
    page ResponseEvent.sequenceNumber events cursor size =
      (events.drop (first cursor)).take size :=
  (h.numbered.page_eq cursor size).trans rfl

/-- Behind a page a reader stands as many events further as the page holds. -/
theorem EventLogStore.Replays.next (h : w.log.Replays r events) {cursor : Option ℕ}
    (hwithin : first cursor ≤ events.length)
    (hne : (events.drop (first cursor)).take size ≠ []) :
    Word (((events.drop (first cursor)).take size).getLast?.map ResponseEvent.sequenceNumber) ∧
      first (((events.drop (first cursor)).take size).getLast?.map
        ResponseEvent.sequenceNumber) =
          first cursor + ((events.drop (first cursor)).take size).length := by
  set batch := (events.drop (first cursor)).take size with hbatch
  have hseg : From ResponseEvent.sequenceNumber (first cursor) batch := by
    have hdrop := (h.numbered.drop (first cursor)).take size
    rwa [Nat.zero_add] at hdrop
  have hlast : batch.getLast?.map ResponseEvent.sequenceNumber =
      after ResponseEvent.sequenceNumber batch cursor := by
    rw [after, hseg.getLast? hne, Option.some_or]
  have hlen : batch.length = min size (events.length - first cursor) := by
    rw [hbatch, List.length_take, List.length_drop]
  have hpos : 0 < batch.length := List.length_pos_iff.mpr hne
  refine ⟨fun n hn ↦ ?_, ?_⟩
  · rw [hseg.getLast? hne] at hn
    have hword := h.word
    obtain rfl : first cursor + batch.length - 1 = n := by simpa using hn
    omega
  · rw [hlast, first_after hseg]

/-- A reader who takes a page without an end stands at the next one. -/
theorem AtPage.next (h : w.log.Replays r events) {cursor : Option ℕ}
    (hat : AtPage events size cursor)
    (hne : (events.drop (first cursor)).take size ≠ [])
    (hopen : ((events.drop (first cursor)).take size).any ends = false) :
    AtPage events size (((events.drop (first cursor)).take size).getLast?.map
        ResponseEvent.sequenceNumber) ∧
      first (((events.drop (first cursor)).take size).getLast?.map
        ResponseEvent.sequenceNumber) =
          first cursor + ((events.drop (first cursor)).take size).length := by
  obtain ⟨hword, hfirst⟩ := h.next hat.within hne
  set batch := (events.drop (first cursor)).take size with hbatch
  have hlen : batch.length = min size (events.length - first cursor) := by
    rw [hbatch, List.length_take, List.length_drop]
  have hwithin := hat.within
  refine ⟨⟨hword, by omega, ?_, ?_⟩, hfirst⟩
  · rw [hfirst]
    rcases hat.aligned with hdvd | hall
    · rcases Nat.le_total size (events.length - first cursor) with hle | hge
      · rw [hlen, Nat.min_eq_left hle]
        exact Or.inl (Nat.dvd_add hdvd (Nat.dvd_refl size))
      · exact Or.inr (by omega)
    · exact Or.inr (by omega)
  · rw [hfirst, hbatch, take_add_length_page, List.any_append, hat.unended, hopen]
    rfl

/-- A loop over pages folds the events up to the end of the page with the first terminal one. -/
theorem run_paged {S B : Type} (step : S → ResponseEvent → S) (result : S → B)
    {body : Option ℕ × S → Service ((Option ℕ × S) ⊕ B)} (h : w.log.Replays r events)
    (hsize : 0 < size)
    (hbody : ∀ cursor acc batch, MemResponseEventLog.readAfter w.log r cursor size = .ok batch →
      (body (cursor, acc)).run exec w = some (paged step result batch acc, w))
    (s₀ : S) {rounds : ℕ} (hrounds : events.length < rounds) :
    (Prog.iterate body rounds (none, s₀)).run exec w =
      some (result ((visited ends size events).foldl step s₀), w) := by
  refine Prog.run_iterate
    (fun i ↦ AtPage events size i.1 ∧ i.2 = (events.take (first i.1)).foldl step s₀)
    (fun i ↦ events.length - first i.1) ?_ ⟨AtPage.start _ _, rfl⟩ (by simpa using hrounds)
  rintro ⟨cursor, acc⟩ ⟨hat, hacc⟩
  obtain rfl : acc = (events.take (first cursor)).foldl step s₀ := hacc
  dsimp only at hat ⊢
  have hround := hbody cursor ((events.take (first cursor)).foldl step s₀) _
    (h.read cursor size hat.word)
  rw [h.page_eq] at hround
  set batch := (events.drop (first cursor)).take size with hbatch
  rw [hround]
  by_cases hnil : batch = []
  · have hall : first cursor = events.length := by
      have hlen : batch.length = 0 := by rw [hnil]; rfl
      rw [hbatch, List.length_take, List.length_drop] at hlen
      have hwithin := hat.within
      omega
    have hunended := hat.unended
    rw [hall, List.take_length] at hunended
    left
    rw [hall, List.take_length, visited_of_none hsize hunended]
    simp [paged, hnil]
  · have hempty : batch.isEmpty = false := by simpa using hnil
    have hdvd : size ∣ first cursor := by
      rcases hat.aligned with hdvd | hall
      · exact hdvd
      · exact absurd (by rw [hbatch, hall, List.drop_length, List.take_nil]) hnil
    cases hend : batch.any ends with
    | true =>
        left
        rw [visited_of_page hdvd hat.unended hend, ← hbatch, List.foldl_append]
        simp [paged, hempty, hend]
    | false =>
        obtain ⟨hnext, hfirst⟩ := hat.next h hnil hend
        rw [← hbatch] at hnext hfirst
        have hpos : 0 < batch.length := List.length_pos_iff.mpr hnil
        refine Or.inr ⟨(batch.getLast?.map ResponseEvent.sequenceNumber,
            batch.foldl step ((events.take (first cursor)).foldl step s₀)),
          by simp [paged, hempty, hend], ⟨hnext, ?_⟩, ?_⟩
        · rw [hfirst, hbatch, take_add_length_page, List.foldl_append]
        · have hwithin := hnext.within
          rw [hfirst] at hwithin
          dsimp only
          omega

end Loop

/-! ## The object a replay finds -/

/-- The object found so far, after one event more. -/
def newer (latest : Option ResponseObject) (e : ResponseEvent) : Option ResponseObject :=
  e.responseObject.or latest

/-- The last of some events that carries an object carries `o`. -/
def Latest (events : List ResponseEvent) (o : ResponseObject) : Prop :=
  ∃ before e rest, events = before ++ e :: rest ∧ e.responseObject = some o ∧
    ∀ e' ∈ rest, e'.responseObject = none

theorem foldl_newer (events : List ResponseEvent) (latest : Option ResponseObject) :
    events.foldl newer latest =
      (events.reverse.findSome? ResponseEvent.responseObject).or latest := by
  induction events generalizing latest with
  | nil => rfl
  | cons e events ih =>
      rw [List.foldl_cons, ih, List.reverse_cons, List.findSome?_append, newer, Option.or_assoc]
      cases he : e.responseObject <;> simp [he]

theorem foldl_newer_eq_some {events : List ResponseEvent} {o : ResponseObject} :
    events.foldl newer none = some o ↔ Latest events o := by
  rw [foldl_newer, Option.or_none, List.findSome?_eq_some_iff]
  constructor
  · rintro ⟨after, e, before, hsplit, ho, hafter⟩
    refine ⟨before.reverse, e, after.reverse, ?_, ho, fun e' he' ↦ hafter e' (by simpa using he')⟩
    rw [← List.reverse_reverse events, hsplit]
    simp
  · rintro ⟨before, e, rest, rfl, ho, hrest⟩
    exact ⟨rest.reverse, e, before.reverse, by simp, ho, fun e' he' ↦ hrest e' (by simpa using he')⟩

theorem foldl_newer_eq_none {events : List ResponseEvent} :
    events.foldl newer none = none ↔ ∀ e ∈ events, e.responseObject = none := by
  rw [foldl_newer, Option.or_none, List.findSome?_eq_none_iff]
  simp

section Replay

variable {w : World} {r : ResponseId} {events : List ResponseEvent} {cfg : Config} {rounds : ℕ}

theorem run_latestResponseObject (h : w.log.Replays r events) (hpage : 1 ≤ cfg.eventPage)
    (hrounds : events.length < rounds) :
    (latestResponseObject cfg rounds r).run exec w =
      some (.ok ((visited ends cfg.eventPage events).foldl newer none), w) := by
  refine run_paged newer Except.ok h hpage (fun cursor acc batch hread ↦ ?_) none hrounds
  simp only [latestRound, EventLog.readAfter, Prog.perform_bind, Prog.run_call, exec,
    execEventLog, hread]
  cases batch with
  | nil => rfl
  | cons e batch =>
      rw [paged_cons]
      change Prog.run exec (if (e :: batch).any ends then _ else _) w = _
      cases (e :: batch).any ends <;> rfl

theorem run_latestResponseObject_gone {e : EventLogError} (he : e = .unknown ∨ e = .expired)
    (hread : MemResponseEventLog.readAfter w.log r none cfg.eventPage = .error e)
    (hrounds : 0 < rounds) :
    (latestResponseObject cfg rounds r).run exec w = some (.ok none, w) := by
  obtain ⟨n, rfl⟩ := Nat.exists_eq_succ_of_ne_zero (Nat.pos_iff_ne_zero.mp hrounds)
  rcases he with rfl | rfl <;>
    simp [latestResponseObject, Prog.iterate, latestRound, exec, execEventLog, hread]

end Replay

end NovaChat
