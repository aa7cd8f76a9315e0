import NovaChat.Interact.History
import NovaChat.Stream.Replay

/-!
# Showing a finished response

The object of a response is rebuilt from its stream: the last object on the way to the end of the
page that holds the first terminal event.  The way starts at the beginning of the stream, so once
an event has been evicted there is none, however well the terminal event is still buffered.
-/

namespace NovaChat

open Interact Numbering ResponsesService

/-! ## Waiting -/

section Waiting

variable {w : World} {r : ResponseId} {events : List ResponseEvent} {cfg : Config}

/-- Waiting on a stream that can be replayed never fails. -/
theorem run_awaitTerminal (h : w.log.Replays r events) (looks : ℕ) {cursor : Option ℕ}
    (hcursor : Word cursor) :
    (awaitTerminal cfg r looks cursor).run exec w = some (.ok (), w) := by
  induction looks generalizing cursor with
  | zero => rfl
  | succ looks ih =>
      simp only [awaitTerminal, EventLog.readAfter, Prog.perform_bind, Prog.run_call, exec,
        execEventLog, h.read cursor cfg.eventPage hcursor]
      cases hpage : page ResponseEvent.sequenceNumber events cursor cfg.eventPage with
      | nil => rfl
      | cons e batch =>
          dsimp only
          split_ifs
          · rfl
          · refine ih fun n hn ↦ ?_
            have hmem : ∀ e' ∈ e :: batch, e'.sequenceNumber ≤ u64Max := by
              intro e' he'
              rw [← hpage] at he'
              have hnum := h.numbered.mem_iff.mp
                ⟨e', List.mem_of_mem_filter (List.mem_of_mem_take he'), rfl⟩
              have hword := h.word
              omega
            obtain ⟨e', hlast⟩ := Option.isSome_iff_exists.mp
              (List.getLast?_isSome.mpr (List.cons_ne_nil e batch))
            rw [hlast] at hn
            obtain rfl : e'.sequenceNumber = n := by simpa using hn
            exact hmem e' (List.mem_of_getLast? hlast)

theorem run_awaitTerminal_gone
    (hread : MemResponseEventLog.readAfter w.log r none cfg.eventPage = .error .expired) {looks : ℕ}
    (hlooks : 1 ≤ looks) :
    (awaitTerminal cfg r looks none).run exec w = some (.error (.eventLog .expired), w) := by
  obtain ⟨n, rfl⟩ := Nat.exists_eq_succ_of_ne_zero (Nat.one_le_iff_ne_zero.mp hlooks)
  simp [awaitTerminal, exec, execEventLog, hread]

end Waiting

/-! ## What callers are shown -/

/-- A response with a record and an unswept log that buffers a terminal event with object `o`. -/
structure Finished (w : World) (r : ResponseId) (log : ResponseLog) (x : ResponseRecord)
    (o : ResponseObject) : Prop where
  logged : w.log.logs.lookup r = some log
  counted : log.nextSeq ≤ u64Max
  unswept : log.swept = false
  record : w.store.record r = some x
  terminal : ∃ e ∈ log.ring, ends e = true ∧ e.responseObject = some o

section Shown

variable {w : World} {r : ResponseId} {x : ResponseRecord} {cfg : Config} {rounds : ℕ}
  {object : Option ResponseObject}

theorem run_currentObject (hid : x.responseId = r)
    (h : (latestResponseObject cfg rounds r).run exec w = some (.ok object, w)) :
    (currentObject cfg rounds x).run exec w =
      some (.ok (object.getD (.withoutOutput x)), w) := by
  rw [currentObject, hid, Prog.run_bind_of_eq h]
  rfl

theorem run_retrieve (hx : w.store.record r = some x) (hid : x.responseId = r)
    (h : (latestResponseObject cfg rounds r).run exec w = some (.ok object, w)) :
    (retrieve cfg rounds x.tenantId r).run exec w =
      some (.ok (some (object.getD (.withoutOutput x))), w) := by
  simp only [retrieve, Ledger.get, Prog.perform_bind, Prog.run_call, exec, execLedger,
    MemResponseLedger.get, hx, ne_eq, not_true_eq_false, if_false]
  rw [Prog.run_bind_of_eq (run_currentObject hid h)]
  rfl

end Shown

/-- Among the events up to the end of the page with the first terminal one the last object is `o`;
without any object it is the record that renders as `o`. -/
def Shows (size : ℕ) (events : List ResponseEvent) (x : ResponseRecord) (o : ResponseObject) :
    Prop :=
  Latest (visited ends size events) o ∨
    (∀ e ∈ visited ends size events, e.responseObject = none) ∧ ResponseObject.withoutOutput x = o

theorem shows_iff {size : ℕ} {events : List ResponseEvent} {x : ResponseRecord}
    {o : ResponseObject} :
    ((visited ends size events).foldl newer none).getD (.withoutOutput x) = o ↔
      Shows size events x o := by
  unfold Shows
  rw [← foldl_newer_eq_some, ← foldl_newer_eq_none]
  cases (visited ends size events).foldl newer none <;> simp

/-- A finished response is shown with its object exactly where nothing of its stream was evicted
and the last object up to the end of the page with the first terminal event is that object.  After
an eviction a retrieval shows the bare record, which is right only if it is the same, and a wait
fails. -/
theorem finished_shown_iff {w₀ w : World} {xs : List (Exchange Call Call.Reply)} {r : ResponseId}
    {log : ResponseLog} {x : ResponseRecord} {o : ResponseObject} (hk : w₀.store.Keyed)
    (hempty : w₀.log.logs.lookup r = none) (h : History exec (fun _ _ ↦ True) w₀ xs w)
    (hfin : Finished w r log x o) (cfg : Config) (hpage : 1 ≤ cfg.eventPage) {rounds : ℕ}
    (hrounds : log.ring.length < rounds) :
    ((retrieve cfg rounds x.tenantId r).run exec w = some (.ok (some o), w) ↔
        log.evictedBefore = 0 ∧ Shows cfg.eventPage log.ring x o ∨
          0 < log.evictedBefore ∧ ResponseObject.withoutOutput x = o) ∧
      ∀ looks, 1 ≤ looks →
        ((waitTerminal cfg looks rounds x).run exec w = some (.ok o, w) ↔
          log.evictedBefore = 0 ∧ Shows cfg.eventPage log.ring x o) := by
  obtain ⟨hkw, all, hstreams⟩ : w.store.Keyed ∧ ∃ all, w.Streams r all :=
    h.invariant (J := fun _ w ↦ w.store.Keyed ∧ ∃ all, w.Streams r all)
      (fun _ _ c ⟨hk, _, hstreams⟩ _ ↦ ⟨exec_keyed c hk, hstreams.exists_call c⟩)
      ⟨hk, [], streams_of_none hempty⟩
  have hholds := hstreams.holds hfin.logged
  have hid : x.responseId = r := hkw.record hfin.record
  rcases Nat.eq_zero_or_pos log.evictedBefore with hzero | hpos
  · have hreplays := hholds.replays hfin.logged hfin.unswept hzero hfin.counted
    have hrun := run_latestResponseObject hreplays hpage hrounds
    have hnot : ¬ 0 < log.evictedBefore := by omega
    refine ⟨?_, fun looks hlooks ↦ ?_⟩
    · rw [run_retrieve hfin.record hid hrun, ← shows_iff]
      simp [hzero]
    · rw [waitTerminal, hid, Prog.run_bind_of_eq
        (run_awaitTerminal hreplays looks (fun _ hc ↦ absurd hc (by simp))), ← shows_iff]
      simp only [hzero, true_and]
      rw [run_currentObject hid hrun]
      simp
  · have hread := hholds.readAfter_none hfin.logged (Or.inr hpos) hfin.counted cfg.eventPage
    have hrun := run_latestResponseObject_gone (Or.inr rfl) hread (Nat.zero_lt_of_lt hrounds)
    have hnot : log.evictedBefore ≠ 0 := Nat.pos_iff_ne_zero.mp hpos
    refine ⟨?_, fun looks hlooks ↦ ?_⟩
    · rw [run_retrieve hfin.record hid hrun]
      simp [hpos, hnot]
    · rw [waitTerminal, hid, Prog.run_bind_of_eq (run_awaitTerminal_gone hread hlooks)]
      simp [hnot]

namespace Sample

/-- What the first response was created as. -/
def filed : ResponseRecord :=
  proposed cfg tenant rootSpec none (id 1) 0

/-- The finished first response. -/
def answer : ResponseObject :=
  .new { filed with status := .completed } [.message .assistant [.outputText "hi"] none none]

/-- The life of the first response, as its log sees it. -/
def life : List Call :=
  [.ledger (.create filed (.forResponse (id 1)) 0),
    .eventLog (.append (.lifecycle (id 1) .created (.withoutOutput filed))),
    .eventLog (.append (.lifecycle (id 1) .inProgress (.withoutOutput filed))),
    .eventLog (.append (.lifecycle (id 1) .completed answer))]

/-- The sample world, where logs keep so many events. -/
def keeping (capacity : ℕ) (h : 0 < capacity) : World :=
  { world with log := { capacityPerResponse := capacity, capacity_pos := h } }

theorem keeping_keyed (capacity : ℕ) (h : 0 < capacity) : (keeping capacity h).store.Keyed :=
  world_keyed

/-- That life in such a world. -/
def lived (capacity : ℕ) (h : 0 < capacity) : List (Exchange Call Call.Reply) × World :=
  History.answered exec life [] (keeping capacity h)

theorem lived_history (capacity : ℕ) (h : 0 < capacity) :
    History exec (fun _ _ ↦ True) (keeping capacity h) (lived capacity h).1 (lived capacity h).2 :=
  @History.of_permitted _ _ _ exec _ _ (fun _ _ ↦ true) (fun _ _ _ ↦ trivial) _ _ _ .nil rfl

/-- The events of that life. -/
def lifeEvents : List ResponseEvent :=
  [⟨0, .lifecycle (id 1) .created (.withoutOutput filed)⟩,
    ⟨1, .lifecycle (id 1) .inProgress (.withoutOutput filed)⟩,
    ⟨2, .lifecycle (id 1) .completed answer⟩]

theorem lived_finished : Finished (lived 3 (by decide)).2 (id 1)
    { ring := lifeEvents, nextSeq := 3 } filed answer where
  logged := rfl
  counted := by decide
  unswept := rfl
  record := rfl
  terminal := ⟨⟨2, .lifecycle (id 1) .completed answer⟩, by simp [lifeEvents], rfl, rfl⟩

theorem lived_finished_narrow : Finished (lived 2 (by decide)).2 (id 1)
    { ring := lifeEvents.drop 1, nextSeq := 3, evictedBefore := 1 } filed answer where
  logged := rfl
  counted := by decide
  unswept := rfl
  record := rfl
  terminal := ⟨⟨2, .lifecycle (id 1) .completed answer⟩, by simp [lifeEvents], rfl, rfl⟩

end Sample

/-- With room for all three events the finished response is shown. -/
theorem finished_shown_whole :
    (retrieve Sample.cfg 4 Sample.tenant (Sample.id 1)).run exec (Sample.lived 3 (by decide)).2 =
      some (.ok (some Sample.answer), (Sample.lived 3 (by decide)).2) :=
  (finished_shown_iff (Sample.keeping_keyed 3 (by decide)) rfl
    (Sample.lived_history 3 (by decide)) Sample.lived_finished Sample.cfg (by decide)
    (show 3 < 4 by decide)).1.mpr
    (Or.inl ⟨rfl, Or.inl ⟨Sample.lifeEvents.take 2, _, [], rfl, rfl,
      fun _ he ↦ absurd he List.not_mem_nil⟩⟩)

/-- With room for two of them a retrieval shows the record alone, and a wait fails. -/
theorem finished_not_shown :
    (¬ ∀ (w : World) (r : ResponseId) (log : ResponseLog) (x : ResponseRecord) (o : ResponseObject)
      (w₀ : World) (xs : List (Exchange Call Call.Reply)) (cfg : Config) (rounds : ℕ),
      w₀.store.Keyed → w₀.log.logs.lookup r = none → History exec (fun _ _ ↦ True) w₀ xs w →
      Finished w r log x o → 1 ≤ cfg.eventPage → log.ring.length < rounds →
      (retrieve cfg rounds x.tenantId r).run exec w = some (.ok (some o), w)) ∧
    ¬ ∀ (w : World) (r : ResponseId) (log : ResponseLog) (x : ResponseRecord) (o : ResponseObject)
      (w₀ : World) (xs : List (Exchange Call Call.Reply)) (cfg : Config) (rounds looks : ℕ),
      w₀.store.Keyed → w₀.log.logs.lookup r = none → History exec (fun _ _ ↦ True) w₀ xs w →
      Finished w r log x o → 1 ≤ cfg.eventPage → log.ring.length < rounds → 1 ≤ looks →
      (waitTerminal cfg looks rounds x).run exec w = some (.ok o, w) := by
  refine ⟨fun h ↦ ?_, fun h ↦ ?_⟩
  · have hrun := h _ _ _ _ _ _ _ Sample.cfg 4
      (Sample.keeping_keyed 2 (by decide)) rfl
      (Sample.lived_history 2 (by decide)) Sample.lived_finished_narrow (by decide) (by decide)
    have hbare : (retrieve Sample.cfg 4 Sample.tenant (Sample.id 1)).run exec
        (Sample.lived 2 (by decide)).2 =
          some (.ok (some (.withoutOutput Sample.filed)), (Sample.lived 2 (by decide)).2) := rfl
    have hstatus := congrArg (fun out ↦ out.map fun p ↦ p.1.toOption.map fun o ↦
      o.map ResponseObject.status) (hrun.symm.trans hbare)
    exact absurd hstatus (by decide)
  · have hrun := h _ _ _ _ _ _ _ Sample.cfg 4 1
      (Sample.keeping_keyed 2 (by decide)) rfl
      (Sample.lived_history 2 (by decide)) Sample.lived_finished_narrow (by decide) (by decide)
      (Nat.le_refl 1)
    have hfailed : (waitTerminal Sample.cfg 1 4 Sample.filed).run exec
        (Sample.lived 2 (by decide)).2 =
          some (.error (.eventLog .expired), (Sample.lived 2 (by decide)).2) := rfl
    have hreply := congrArg (fun out ↦ out.map fun p ↦ p.1.isOk) (hrun.symm.trans hfailed)
    exact absurd hreply (by decide)

end NovaChat
