import NovaChat.Admission.Faults
import NovaChat.Lifecycle.Reaping
import NovaChat.Turn.Unfinished

/-!
# A tick by itself

A tick takes the lost claims first and settles them afterwards, one by one, whatever becomes of the
calls it makes for them.  A reap is not refused while the store is read-only, and nothing that
follows it is made up for later: a claim that cannot be settled is failed all the same.
-/

namespace NovaChat

open Interact Prog MemConversationStore

/-! ## What settling a response comes to -/

/-- The log of `r` holds the event that ends its stream. -/
def EventLogStore.Terminated (l : EventLogStore) (r : ResponseId) : Prop :=
  ∃ e ∈ l.buffered r, e.kind.isTerminal = true

/-- The retention window of `r` has started. -/
def EventLogStore.Closed (l : EventLogStore) (r : ResponseId) : Prop :=
  ∃ log, l.logs.lookup r = some log ∧ log.terminalAtMs.isSome = true

/-- The stream of a response has ended, its turn is where it belongs, and its conversation no
longer waits for it. -/
structure World.Settled (w : World) (o : Origin) : Prop where
  terminated : w.log.Terminated o.id
  closed : w.log.Closed o.id
  archived : ∀ c, o.turn.home = some c → (w.store.conversation c).isSome = true →
    w.store.Archived c o.id
  released : ∀ c, o.turn.conversation = some c → w.store.marker c ≠ some o.id

/-- Every running response that a tick has failed is settled. -/
def SweepsWhole (w w' : World) : Prop :=
  ∀ r x y, w.store.record r = some x → x.status = .inProgress → w'.store.record r = some y →
    y.status = .failed → w'.Settled x.origin

/-! ## What a tick needs -/

/-- There is a log for `r`, or room for one. -/
def EventLogStore.Room (l : EventLogStore) (r : ResponseId) : Prop :=
  (l.logs.lookup r).isSome = true ∨ HashMap.size l.logs < l.maxLogs

/-- With one event more, the log of `r` still has its first. -/
def EventLogStore.Whole (l : EventLogStore) (r : ResponseId) : Prop :=
  (l.log r).swept = false ∧ (l.log r).evictedBefore = 0 ∧
    (l.log r).ring.length < l.capacityPerResponse

/-- A turn of `o` can be appended to `c` by replaying its log. -/
def World.Archivable (w : World) (o : Origin) (c : ConversationId) : Prop :=
  guardWritable w.store = .ok () ∧ (owned w.store o.tenant c).isSome = true ∧ w.log.Whole o.id

/-- The marker `o` holds on `c` can be released. -/
def World.Releasable (w : World) (o : Origin) (c : ConversationId) : Prop :=
  guardWritable w.store = .ok () ∧ (owned w.store o.tenant c).isSome = true ∧
    w.store.completed c ≠ some o.id ∧ ensureEventCapacity w.store c = .ok ()

/-- A lost claim can be settled, if there is room for its log. -/
structure World.Settleable (w : World) (o : Origin) : Prop where
  ends : w.store.readOnly = false ∧ (w.log.log o.id).swept = false ∨ w.log.Terminated o.id
  archives : ∀ c, o.turn.home = some c → (w.store.conversation c).isSome = true →
    w.store.Archived c o.id ∨ w.Archivable o c
  releases : ∀ c, o.turn.conversation = some c → w.store.marker c = some o.id → w.Releasable o c

/-- There is room for the logs these responses do not have yet. -/
def EventLogStore.Fits (l : EventLogStore) (ids : List ResponseId) : Prop :=
  ids.countP (fun r ↦ (l.logs.lookup r).isNone) = 0 ∨
    HashMap.size l.logs + ids.countP (fun r ↦ (l.logs.lookup r).isNone) ≤ l.maxLogs

/-- Every lost claim can be settled, and its log outlives the tick. -/
structure Sweepable (cfg : Config) (w : World) (lost : List ResponseId) : Prop where
  retained : w.clock < satAdd w.clock (asU64 cfg.retainAfterTerminalMs)
  fits : w.log.Fits lost
  settleable : ∀ r ∈ lost, ∀ x, w.store.record r = some x → w.Settleable x.origin

section Decidable

variable (w : World) (o : Origin) (c : ConversationId) (l : EventLogStore) (r : ResponseId)

instance : Decidable (l.Terminated r) := inferInstanceAs (Decidable (∃ e ∈ _, _ = true))

instance : Decidable (l.Whole r) := inferInstanceAs (Decidable (_ ∧ _ ∧ _))

instance (ids : List ResponseId) : Decidable (l.Fits ids) := inferInstanceAs (Decidable (_ ∨ _))

instance : Decidable (w.Archivable o c) := inferInstanceAs (Decidable (_ ∧ _ ∧ _))

instance : Decidable (w.Releasable o c) := inferInstanceAs (Decidable (_ ∧ _ ∧ _ ∧ _))

instance : Decidable (w.Settleable o) :=
  decidable_of_iff ((w.store.readOnly = false ∧ (w.log.log o.id).swept = false ∨
      w.log.Terminated o.id) ∧
    (∀ c ∈ o.turn.home, (w.store.conversation c).isSome = true →
      w.store.Archived c o.id ∨ w.Archivable o c) ∧
    ∀ c ∈ o.turn.conversation, w.store.marker c = some o.id → w.Releasable o c)
    ⟨fun ⟨hends, harch, hrel⟩ ↦ ⟨hends, harch, hrel⟩, fun h ↦ ⟨h.ends, h.archives, h.releases⟩⟩

instance (cfg : Config) (lost : List ResponseId) : Decidable (Sweepable cfg w lost) :=
  decidable_of_iff (w.clock < satAdd w.clock (asU64 cfg.retainAfterTerminalMs) ∧
    w.log.Fits lost ∧ ∀ r ∈ lost, ∀ x ∈ w.store.record r, w.Settleable x.origin)
    ⟨fun ⟨hlive, hfits, hall⟩ ↦ ⟨hlive, hfits, hall⟩, fun h ↦ ⟨h.retained, h.fits, h.settleable⟩⟩

end Decidable

/-! ## Settling one response leaves the others alone -/

/-- What happens to `r` leaves every other response as it is. -/
structure World.Beside (r : ResponseId) (w w' : World) : Prop where
  record : ∀ r', w'.store.record r' = w.store.record r'
  readOnly : w'.store.readOnly = w.store.readOnly
  unavailable : w'.store.unavailable = w.store.unavailable
  capacity : w'.log.capacityPerResponse = w.log.capacityPerResponse
  maxLogs : w'.log.maxLogs = w.log.maxLogs
  lookup : ∀ r', r' ≠ r → w'.log.logs.lookup r' = w.log.logs.lookup r'
  conversation : ∀ c, (w'.store.conversation c).isSome = (w.store.conversation c).isSome
  owned : ∀ tenant c, (owned w'.store tenant c).isSome = (owned w.store tenant c).isSome
  archived : ∀ r' c, r' ≠ r → (w'.store.Archived c r' ↔ w.store.Archived c r')
  marker : ∀ c, w'.store.marker c = w.store.marker c ∨
    w.store.marker c = some r ∧ w'.store.marker c = none
  stream : ∀ c, w.store.marker c ≠ some r →
    w'.store.completed c = w.store.completed c ∧
      ensureEventCapacity w'.store c = ensureEventCapacity w.store c

namespace World.Beside

variable {r r' : ResponseId} {w w' w'' : World} {o : Origin} {c : ConversationId}

theorem refl (r : ResponseId) (w : World) : Beside r w w :=
  ⟨fun _ ↦ rfl, rfl, rfl, rfl, rfl, fun _ _ ↦ rfl, fun _ ↦ rfl, fun _ _ ↦ rfl, fun _ _ _ ↦ Iff.rfl,
    fun _ ↦ Or.inl rfl, fun _ _ ↦ ⟨rfl, rfl⟩⟩

theorem trans (h : Beside r w w') (h' : Beside r w' w'') : Beside r w w'' where
  record r' := (h'.record r').trans (h.record r')
  readOnly := h'.readOnly.trans h.readOnly
  unavailable := h'.unavailable.trans h.unavailable
  capacity := h'.capacity.trans h.capacity
  maxLogs := h'.maxLogs.trans h.maxLogs
  lookup r' hr := (h'.lookup r' hr).trans (h.lookup r' hr)
  conversation c := (h'.conversation c).trans (h.conversation c)
  owned tenant c := (h'.owned tenant c).trans (h.owned tenant c)
  archived r' c hr := (h'.archived r' c hr).trans (h.archived r' c hr)
  marker c := by
    rcases h.marker c with heq | ⟨hold, hnone⟩
    · rw [← heq]
      exact h'.marker c
    · rcases h'.marker c with heq' | ⟨hold', -⟩
      · exact Or.inr ⟨hold, heq'.trans hnone⟩
      · rw [hnone] at hold'
        cases hold'
  stream c hc := by
    have hc' : w'.store.marker c ≠ some r := by
      rcases h.marker c with heq | ⟨-, hnone⟩
      · rwa [heq]
      · rw [hnone]
        nofun
    obtain ⟨hcompleted, hcap⟩ := h.stream c hc
    obtain ⟨hcompleted', hcap'⟩ := h'.stream c hc'
    exact ⟨hcompleted'.trans hcompleted, hcap'.trans hcap⟩

theorem guardWritable (h : Beside r w w') : guardWritable w'.store = guardWritable w.store := by
  simp only [MemConversationStore.guardWritable, h.readOnly, h.unavailable]

theorem marker_iff (h : Beside r w w') (hr : r' ≠ r) :
    w'.store.marker c = some r' ↔ w.store.marker c = some r' := by
  rcases h.marker c with heq | ⟨hold, hnone⟩
  · rw [heq]
  · rw [hold, hnone]
    exact iff_of_false nofun fun heq ↦ hr (Option.some.inj heq).symm

theorem log (h : Beside r w w') (hr : r' ≠ r) : w'.log.log r' = w.log.log r' := by
  simp only [EventLogStore.log, h.lookup r' hr]

theorem terminated_iff (h : Beside r w w') (hr : r' ≠ r) :
    w'.log.Terminated r' ↔ w.log.Terminated r' := by
  simp only [EventLogStore.Terminated, EventLogStore.buffered, h.lookup r' hr]

theorem settled_iff (h : Beside r w w') (hr : o.id ≠ r) : w'.Settled o ↔ w.Settled o := by
  have hclosed : w'.log.Closed o.id ↔ w.log.Closed o.id := by
    simp only [EventLogStore.Closed, h.lookup o.id hr]
  constructor
  · rintro ⟨hterm, hclose, harch, hrel⟩
    exact ⟨(h.terminated_iff hr).mp hterm, hclosed.mp hclose,
      fun c hc hsome ↦ (h.archived o.id c hr).mp (harch c hc ((h.conversation c).trans hsome)),
      fun c hc hmark ↦ hrel c hc ((h.marker_iff hr).mpr hmark)⟩
  · rintro ⟨hterm, hclose, harch, hrel⟩
    exact ⟨(h.terminated_iff hr).mpr hterm, hclosed.mpr hclose,
      fun c hc hsome ↦ (h.archived o.id c hr).mpr
        (harch c hc ((h.conversation c).symm.trans hsome)),
      fun c hc hmark ↦ hrel c hc ((h.marker_iff hr).mp hmark)⟩

theorem settleable_iff (h : Beside r w w') (hr : o.id ≠ r) :
    w'.Settleable o ↔ w.Settleable o := by
  have hwhole : w'.log.Whole o.id ↔ w.log.Whole o.id := by
    simp only [EventLogStore.Whole, h.log hr, h.capacity]
  have harchivable : ∀ c, w'.Archivable o c ↔ w.Archivable o c := fun c ↦ by
    simp only [World.Archivable, h.guardWritable, h.owned, hwhole]
  have hreleasable : ∀ c, w.store.marker c = some o.id →
      (w'.Releasable o c ↔ w.Releasable o c) := by
    intro c hc
    have hne : w.store.marker c ≠ some r := by
      rw [hc]
      exact fun heq ↦ hr (Option.some.inj heq)
    simp only [World.Releasable, h.guardWritable, h.owned, (h.stream c hne).1, (h.stream c hne).2]
  constructor
  · rintro ⟨hends, harch, hrel⟩
    refine ⟨?_, fun c hc hsome ↦ ?_, fun c hc hmark ↦ ?_⟩
    · rwa [h.readOnly, h.log hr, h.terminated_iff hr] at hends
    · exact (harch c hc ((h.conversation c).trans hsome)).imp (h.archived o.id c hr).mp
        (harchivable c).mp
    · exact (hreleasable c hmark).mp (hrel c hc ((h.marker_iff hr).mpr hmark))
  · rintro ⟨hends, harch, hrel⟩
    refine ⟨?_, fun c hc hsome ↦ ?_, fun c hc hmark ↦ ?_⟩
    · rwa [h.readOnly, h.log hr, h.terminated_iff hr]
    · exact (harch c hc ((h.conversation c).symm.trans hsome)).imp (h.archived o.id c hr).mpr
        (harchivable c).mpr
    · have hmark := (h.marker_iff hr).mp hmark
      exact (hreleasable c hmark).mpr (hrel c hc hmark)

theorem of_log (hstore : w'.store = w.store)
    (hcapacity : w'.log.capacityPerResponse = w.log.capacityPerResponse)
    (hmax : w'.log.maxLogs = w.log.maxLogs)
    (hlookup : ∀ r', r' ≠ r → w'.log.logs.lookup r' = w.log.logs.lookup r') : Beside r w w' := by
  constructor <;> simp_all

end World.Beside

/-- The calls a tick makes for `r`. -/
def Call.Tends (r : ResponseId) : Call → Prop
  | .eventLog (.append event) => event.responseId = r
  | .eventLog (.close id _ _) => id = r
  | .eventLog (.readAfter _ _ _) => True
  | .conversations (.appendTurn _ _ id _ _) => id = r
  | .conversations (.releaseActive _ _ id _ _) => id = r
  | _ => False

theorem exec_beside {c : Call} {r : ResponseId} (hc : c.Tends r) {w : World}
    (hk : w.store.Keyed) : World.Beside r w (exec c w).2 := by
  unfold Call.Tends at hc
  split at hc
  · next event =>
      rcases append_cases event w with ⟨e, heq, -⟩ | ⟨-, -, heq⟩
      · rw [heq]
        exact .refl _ _
      · rw [heq]
        refine .of_log rfl rfl rfl fun r' hr ↦ ?_
        exact (HashMap.lookup_insert' _ _ _ _).trans (if_neg (hc ▸ hr))
  · next id now retain =>
      simp only [exec, execEventLog, World.withLog_snd, MemResponseEventLog.close]
      split
      · exact .refl _ _
      · refine .of_log rfl rfl rfl fun r' hr ↦ ?_
        exact (HashMap.lookup_insert' _ _ _ _).trans (if_neg (hc ▸ hr))
  · exact .refl _ _
  · next tenant c id commit now =>
      obtain rfl := hc
      rcases appendTurn_cases w.store tenant c id commit with ⟨e, heq⟩ | ⟨x, index, -, heq⟩
      · simp only [exec, execConversations, heq, World.withStore_snd]
        exact .refl _ _
      · simp only [exec, execConversations, heq, World.withStore_snd]
        refine ⟨fun _ ↦ rfl, rfl, rfl, rfl, rfl, fun _ _ ↦ rfl, fun _ ↦ rfl, fun _ _ ↦ rfl,
          fun r' c' hr ↦ ?_, fun _ ↦ Or.inl rfl, fun _ _ ↦ ⟨rfl, rfl⟩⟩
        simp only [MemStore.Archived, MemStore.snapshot, HashMap.lookup_insert']
        split_ifs with hcc
        · subst hcc
          exact (appended_addTurn _ _ _ _).trans (or_iff_right hr)
        · rfl
  · next tenant c id status now =>
      obtain rfl := hc
      rcases releaseActive_cases w.store tenant c id status now with
        ⟨reply, heq⟩ | ⟨x, hx, hheld, -, -, heq⟩
      · simp only [exec, execConversations, heq, World.withStore_snd]
        exact .refl _ _
      · simp only [exec, execConversations, heq, World.withStore_snd]
        have hid := id_of_owned hk hx
        have hmark : w.store.marker c = some id := (marker_of_owned hx).trans hheld
        obtain ⟨hconv, htenant⟩ := owned_eq_some.mp hx
        have hnew := conversation_vacate w.store c x id status now
        rw [hid] at hnew
        refine ⟨fun _ ↦ rfl, rfl, rfl, rfl, rfl, fun _ _ ↦ rfl, fun c' ↦ ?_, fun tenant' c' ↦ ?_,
          fun _ _ _ ↦ Iff.rfl, fun c' ↦ ?_, fun c' hc' ↦ ?_⟩
        · simp only [hnew]
          split_ifs with hcc
          · rw [hcc, hconv]
            rfl
          · rfl
        · simp only [owned, hnew]
          split_ifs with hcc
          · rw [hcc, hconv]
            simp only [Option.filter]
            split_ifs <;> rfl
          · rfl
        · have hmarker := marker_of_update hnew c'
          rw [hmarker]
          split_ifs with hcc
          · exact Or.inr ⟨hcc ▸ hmark, rfl⟩
          · exact Or.inl rfl
        · have hcc : c' ≠ c := fun heq ↦ hc' (heq ▸ hmark)
          simp [MemStore.completed, MemStore.stream, ensureEventCapacity, vacate,
            Inner.pushConversationEvent, Inner.insertConversation, HashMap.lookup_modify, hcc]
  · exact hc.elim

theorem tends_archiveReplayed (rounds : ℕ) (tenant : TenantId) (c : ConversationId)
    (id : ResponseId) (input : List ResponseItem) (status : ResponseStatus) (now : ℕ) :
    (archiveReplayed rounds tenant c id input status now).OnlyCalls (Call.Tends id) := by
  have hreplay : (replayCompletedItems rounds id).OnlyCalls (Call.Tends id) := by
    refine (pages_replayCompletedItems rounds id).mono fun c hc ↦ ?_
    obtain ⟨cursor, limit, rfl⟩ := hc
    trivial
  refine hreplay.bind fun result ↦ ?_
  rcases result with e | items
  · exact trivial
  · exact ⟨rfl, fun _ ↦ trivial⟩

theorem tends_settleReaped (cfg : Config) (rounds now : ℕ) (claim : AbortedClaim) :
    (settleReaped cfg rounds now claim).OnlyCalls (Call.Tends claim.responseId) := by
  refine ⟨rfl, fun _ ↦ ⟨rfl, fun _ ↦ ?_⟩⟩
  cases claim.conversationId with
  | none => exact trivial
  | some c =>
      dsimp only
      split
      · exact (tends_archiveReplayed ..).bind fun _ ↦ ⟨rfl, fun _ ↦ trivial⟩
      · exact ⟨rfl, fun _ ↦ trivial⟩

theorem run_settleReaped_beside {cfg : Config} {rounds now : ℕ} {claim : AbortedClaim}
    {w w' : World} (hk : w.store.Keyed)
    (h : (settleReaped cfg rounds now claim).run exec w = some ((), w')) :
    w'.store.Keyed ∧ World.Beside claim.responseId w w' :=
  run_invariant (J := fun v ↦ v.store.Keyed ∧ World.Beside claim.responseId w v)
    (fun c _ hc hv ↦ ⟨exec_keyed c hv.1, hv.2.trans (exec_beside hc hv.1)⟩)
    (tends_settleReaped cfg rounds now claim) ⟨hk, .refl _ _⟩ h

/-! ## The event and the log -/

section Log

variable {l l' : EventLogStore} {w w' : World} {r : ResponseId}

theorem isSome_of_terminated (h : l.Terminated r) : (l.logs.lookup r).isSome = true := by
  obtain ⟨e, he, -⟩ := h
  unfold EventLogStore.buffered at he
  cases hlook : l.logs.lookup r with
  | none => simp [hlook] at he
  | some log => rfl

theorem announceable_iff :
    w.Announceable r ↔
      w.store.readOnly = false ∧ (w.log.log r).swept = false ∧ w.log.Room r := by
  unfold World.Announceable EventLogStore.full EventLogStore.log EventLogStore.Room
  cases w.log.logs.lookup r <;> simp

theorem lookup_pushed {event : AppendEvent} (hid : event.responseId = r) :
    (l.pushed event).logs.lookup r =
      some ((l.log r).push l.capacityPerResponse event) := by
  subst hid
  exact AList.lookup_insert _

theorem terminated_pushed {event : AppendEvent} (hid : event.responseId = r)
    (hkind : event.kind.isTerminal = true) : (l.pushed event).Terminated r := by
  have hpos := l.capacity_pos
  refine ⟨⟨(l.log r).nextSeq, event⟩, ?_, hkind⟩
  simp only [EventLogStore.buffered, lookup_pushed hid, Option.map_some, Option.getD_some,
    ResponseLog.push]
  rw [List.drop_append_of_le_length (by simp; omega)]
  simp

theorem serves_pushed {event : AppendEvent} (hid : event.responseId = r)
    (hswept : (l.log r).swept = false) : (l.pushed event).Serves r none ↔ l.Whole r := by
  simp only [EventLogStore.Serves, lookup_pushed hid, EventLogStore.Whole, ResponseLog.push,
    readFrom, List.length_append, List.length_singleton, Option.mem_def, Option.some.injEq,
    exists_eq_left', hswept, true_and]
  omega

theorem lookup_close (now retain : ℕ) :
    (MemResponseEventLog.close l r now retain).2.logs.lookup r =
      (l.logs.lookup r).map fun log ↦
        { log with retainMs := asU64 retain, terminalAtMs := some now } := by
  unfold MemResponseEventLog.close
  cases hlook : l.logs.lookup r with
  | none => exact hlook
  | some log => exact AList.lookup_insert _

theorem size_close (now retain : ℕ) :
    HashMap.size (MemResponseEventLog.close l r now retain).2.logs = HashMap.size l.logs := by
  unfold MemResponseEventLog.close
  cases hlook : l.logs.lookup r with
  | none => rfl
  | some log =>
      rw [HashMap.size_insert, hlook]
      rfl

theorem terminated_close (now retain : ℕ) :
    (MemResponseEventLog.close l r now retain).2.Terminated r ↔ l.Terminated r := by
  simp only [EventLogStore.Terminated, EventLogStore.buffered, lookup_close, Option.map_map]
  rfl

theorem serves_close (now retain : ℕ) :
    (MemResponseEventLog.close l r now retain).2.Serves r none ↔ l.Serves r none := by
  unfold EventLogStore.Serves
  rw [lookup_close]
  cases l.logs.lookup r <;> simp

theorem closed_close (now retain : ℕ) :
    (MemResponseEventLog.close l r now retain).2.Closed r ↔ (l.logs.lookup r).isSome = true := by
  unfold EventLogStore.Closed
  rw [lookup_close]
  cases l.logs.lookup r <;> simp

/-- What is left of `w` once the stream of `r` was ended and its log was closed. -/
structure World.Finishes (w : World) (r : ResponseId) (now retain : ℕ) (w' : World) : Prop where
  store : w'.store = w.store
  done : w'.log.Terminated r ∧ w'.log.Closed r ↔
    (w.store.readOnly = false ∧ (w.log.log r).swept = false ∨ w.log.Terminated r) ∧ w.log.Room r
  serves : w.store.readOnly = false → w.log.Room r → (w'.log.Serves r none ↔ w.log.Whole r)
  size : w'.log.Terminated r → HashMap.size w'.log.logs =
    HashMap.size w.log.logs + if (w.log.logs.lookup r).isNone then 1 else 0
  retains : ∀ log, w'.log.logs.lookup r = some log →
    log.terminalAtMs = some now ∧ log.retainMs = asU64 retain

theorem exec_finishes {event : AppendEvent} (hid : event.responseId = r)
    (hattempt : event.attempt = none) (hkind : event.kind.isTerminal = true) (now retain : ℕ) :
    w.Finishes r now retain
      (exec (.eventLog (.close r now retain)) (exec (.eventLog (.append event)) w).2).2 := by
  have hretains : ∀ (v : World) log,
      (exec (.eventLog (.close r now retain)) v).2.log.logs.lookup r = some log →
      log.terminalAtMs = some now ∧ log.retainMs = asU64 retain := by
    intro v log hlog
    obtain ⟨log', -, rfl⟩ := Option.map_eq_some_iff.mp ((lookup_close now retain).symm.trans hlog)
    exact ⟨rfl, rfl⟩
  have hroom : w.log.Terminated r → w.log.Room r := fun h ↦ Or.inl (isSome_of_terminated h)
  by_cases hann : w.Announceable r
  · obtain ⟨hwritable, hswept, hspace⟩ := announceable_iff.mp hann
    have hpush : (exec (.eventLog (.append event)) w).2 = { w with log := w.log.pushed event } := by
      rcases append_cases event w with ⟨e, -, hfence | hfull⟩ | ⟨-, -, heq⟩
      · simp [fenceCheck_unfenced hattempt, hwritable] at hfence
      · rw [hid, hann.2] at hfull
        cases hfull
      · rw [heq]
    rw [hpush]
    refine ⟨rfl, iff_of_true ⟨?_, ?_⟩ ⟨Or.inl ⟨hwritable, hswept⟩, hspace⟩, fun _ _ ↦ ?_,
      fun _ ↦ ?_, hretains _⟩
    · exact (terminated_close now retain).mpr (terminated_pushed hid hkind)
    · exact (closed_close now retain).mpr (by rw [lookup_pushed hid]; rfl)
    · exact (serves_close now retain).trans (serves_pushed hid hswept)
    · refine (size_close now retain).trans ?_
      subst hid
      exact HashMap.size_insert _ _ _
  · obtain ⟨e, heq⟩ := append_refused hattempt (hid ▸ hann)
    rw [heq]
    refine ⟨rfl, ?_, fun hwritable hspace ↦ ?_, fun hterm ↦ ?_, hretains _⟩
    · refine (and_congr (terminated_close now retain) (closed_close now retain)).trans ?_
      constructor
      · exact fun h ↦ ⟨Or.inr h.1, hroom h.1⟩
      · rintro ⟨⟨hwritable, hswept⟩ | hterm, hspace⟩
        · exact absurd (announceable_iff.mpr ⟨hwritable, hswept, hspace⟩) hann
        · exact ⟨hterm, isSome_of_terminated hterm⟩
    · refine (serves_close now retain).trans (iff_of_false ?_ ?_)
      · rintro ⟨log, hlog, hswept, -⟩
        refine hann (announceable_iff.mpr ⟨hwritable, ?_, hspace⟩)
        rw [EventLogStore.log, Option.mem_def.mp hlog]
        exact hswept
      · exact fun hwhole ↦ hann (announceable_iff.mpr ⟨hwritable, hwhole.1, hspace⟩)
    · refine (size_close now retain).trans ?_
      have hsome := isSome_of_terminated ((terminated_close now retain).mp hterm)
      obtain ⟨log, hlook⟩ := Option.isSome_iff_exists.mp hsome
      simp [hlook]

end Log

/-! ## The archive and the marker -/

section Archive

variable {w w' : World} {r : ResponseId} {c : ConversationId} {tenant : TenantId}

theorem EventLogStore.Serves.after {l : EventLogStore} (h : l.Serves r none)
    (cursor : Option ℕ) : l.Serves r cursor := by
  obtain ⟨log, hlog, hswept, hle⟩ := h
  exact ⟨log, hlog, hswept, hle.trans (Nat.zero_le _)⟩

/-- A replay reads, and succeeds where the log has everything from its start. -/
theorem run_replay {rounds : ℕ} {result : Except EventLogError (List ResponseItem)}
    (h : (replayCompletedItems rounds r).run exec w = some (result, w')) :
    w' = w ∧ (result.isOk = true ↔ w.log.Serves r none) := by
  have hround : ∀ (s : Option ℕ × Replay) out v, (replayRound r s).run exec w = some (out, v) →
      v = w ∧ ((∃ e, out = .inr (.error e)) ↔ ¬ w.log.Serves r s.1) := by
    intro s out v hout
    rw [← @readAfter_isOk w.log r s.1 replayPage]
    simp only [replayRound, EventLog.readAfter, perform_bind, run_call] at hout
    simp only [exec, execEventLog] at hout
    generalize MemResponseEventLog.readAfter w.log r s.1 replayPage = reply at hout ⊢
    rcases reply with e | (_ | ⟨e, es⟩) <;>
      (obtain ⟨rfl, rfl⟩ := Prod.mk.inj (Option.some.inj hout); simp [Except.isOk, Except.toBool])
  by_cases hserves : w.log.Serves r none
  · suffices hall : ∀ s : Option ℕ × Replay,
        (Prog.iterate (replayRound r) rounds s).run exec w = some (result, w') →
        w' = w ∧ result.isOk = true by
      obtain ⟨hw, hok⟩ := hall _ h
      exact ⟨hw, iff_of_true hok hserves⟩
    clear h
    induction rounds with
    | zero => exact fun s h ↦ by cases h
    | succ n ih =>
        intro s h
        simp only [Prog.iterate, run_bind] at h
        obtain ⟨⟨out, v⟩, hout, hnext⟩ := Option.bind_eq_some_iff.mp h
        obtain ⟨rfl, herr⟩ := hround s out v hout
        rcases out with s' | (e | items)
        · exact ih s' hnext
        · exact absurd (hserves.after s.1) (herr.mp ⟨e, rfl⟩)
        · obtain ⟨rfl, rfl⟩ := Prod.mk.inj (Option.some.inj hnext)
          exact ⟨rfl, rfl⟩
  · cases rounds with
    | zero => cases h
    | succ n =>
        simp only [replayCompletedItems, Prog.iterate, run_bind] at h
        obtain ⟨⟨out, v⟩, hout, hnext⟩ := Option.bind_eq_some_iff.mp h
        obtain ⟨rfl, herr⟩ := hround _ out v hout
        obtain ⟨e, rfl⟩ := herr.mpr hserves
        obtain ⟨rfl, rfl⟩ := Prod.mk.inj (Option.some.inj hnext)
        exact ⟨rfl, iff_of_false (by simp [Except.isOk, Except.toBool]) hserves⟩

/-- A replayed turn is archived where the store takes it and the log has everything. -/
theorem run_archiveReplayed {rounds : ℕ} {input : List ResponseItem} {status : ResponseStatus}
    {now : ℕ}
    (h : (archiveReplayed rounds tenant c r input status now).run exec w = some ((), w')) :
    (∃ snapshots, w' = { w with store.inner.snapshots := snapshots }) ∧
      (w'.store.Archived c r ↔ w.store.Archived c r ∨ guardWritable w.store = .ok () ∧
        (owned w.store tenant c).isSome = true ∧ w.log.Serves r none) := by
  unfold archiveReplayed at h
  rw [run_bind] at h
  obtain ⟨⟨result, v⟩, hreplay, hnext⟩ := Option.bind_eq_some_iff.mp h
  obtain ⟨rfl, hserves⟩ := run_replay hreplay
  rcases result with e | items
  · obtain ⟨-, rfl⟩ := Prod.mk.inj (Option.some.inj hnext)
    have hnot : ¬ v.log.Serves r none := fun hs ↦ by cases hserves.mpr hs
    exact ⟨⟨v.store.inner.snapshots, rfl⟩, by simp [hnot]⟩
  · have hs : v.log.Serves r none := hserves.mp rfl
    obtain ⟨-, rfl⟩ := Prod.mk.inj (Option.some.inj hnext)
    simp only [hs, and_true]
    cases hguard : guardWritable v.store with
    | error e =>
        simp only [exec, execConversations, World.withStore_snd, appendTurn, hguard]
        exact ⟨⟨v.store.inner.snapshots, rfl⟩, by simp⟩
    | ok u =>
        cases howned : owned v.store tenant c with
        | none =>
            simp only [exec, execConversations, World.withStore_snd, appendTurn, hguard, howned]
            exact ⟨⟨v.store.inner.snapshots, rfl⟩, by simp⟩
        | some x =>
            simp only [exec, execConversations, World.withStore_snd, appendTurn, hguard, howned]
            refine ⟨⟨_, rfl⟩, iff_of_true ?_ (Or.inr ⟨trivial, rfl⟩)⟩
            simp only [MemStore.Archived, MemStore.snapshot, AList.lookup_insert]
            exact (appended_addTurn _ _ _ _).mpr (Or.inl rfl)

/-- A release by the holder vacates the marker, unless the turn is recorded as completed already
or its event has no room. -/
theorem releaseActive_held {s : MemStore} {x : Conversation} (hx : owned s tenant c = some x)
    (hheld : x.activeResponseId = some r) (hguard : guardWritable s = .ok ())
    (status : ResponseStatus) (now : ℕ) :
    (releaseActive s tenant c r status now).2 =
      if s.completed c ≠ some r ∧ ensureEventCapacity s c = .ok () then
        (vacate s c x r status now).2
      else s := by
  have hlast : (s.inner.conversationEvents.lookup c).bind ConversationEventStream.lastCompleted =
      (s.stream c).lastCompleted := by
    unfold MemStore.stream
    cases s.inner.conversationEvents.lookup c <;> rfl
  have hfinish : (releaseActive.finish s c r status now x).2 =
      if ensureEventCapacity s c = .ok () then (vacate s c x r status now).2 else s := by
    unfold releaseActive.finish
    cases ensureEventCapacity s c <;> rfl
  simp only [releaseActive, hguard, hx, hheld, ne_eq, not_true_eq_false, if_false,
    MemStore.completed, ← hlast]
  split
  · next id seq hsome =>
      by_cases hid : id = r
      · simp [hsome, hid]
      · simpa [hsome, hid] using hfinish
  · next hnone => simpa [hnone] using hfinish

/-- A release gives the marker back where it can. -/
theorem marker_releaseActive (hk : w.store.Keyed) {o : Origin} (status : ResponseStatus)
    (now : ℕ) :
    (exec (.conversations (.releaseActive o.tenant c o.id status now)) w).2.store.marker c ≠
        some o.id ↔
      (w.store.marker c = some o.id → w.Releasable o c) := by
  by_cases hmark : w.store.marker c = some o.id
  swap
  · refine iff_of_true ?_ fun h ↦ absurd h hmark
    rcases exec_releaseActive hk o.tenant c o.id status now with heq | ⟨h, -⟩
    · rwa [heq]
    · exact absurd h hmark
  simp only [hmark, forall_const, World.Releasable, exec, execConversations, World.withStore_snd]
  cases hguard : guardWritable w.store with
  | error e => simp [releaseActive, hguard, hmark]
  | ok u =>
      cases hx : owned w.store o.tenant c with
      | none => simp [releaseActive, hguard, hx, hmark]
      | some x =>
          have hheld : x.activeResponseId = some o.id := (marker_of_owned hx).symm.trans hmark
          rw [releaseActive_held hx hheld hguard]
          split_ifs with hcan
          · have hnew := marker_of_update
              (by simpa only [id_of_owned hk hx] using
                conversation_vacate w.store c x o.id status now) c
            rw [hnew, if_pos rfl]
            simpa using hcan
          · simpa [hmark] using hcan

end Archive

/-! ## One claim -/

theorem readOnly_of_guardWritable {s : MemStore} (h : guardWritable s = .ok ()) :
    s.readOnly = false := by
  unfold guardWritable at h
  split_ifs at h with hun hro
  simpa using hro

theorem AbortedClaim.origin_home (a : AbortedClaim) :
    a.origin.turn.home = if a.store then a.conversationId else none := rfl

section Claim

variable {cfg : Config} {rounds now : ℕ} {claim : AbortedClaim} {w w' : World}

/-- What settling a claim does after its log is closed. -/
theorem run_settleReaped_parts (hk : w.store.Keyed)
    (h : (settleReaped cfg rounds now claim).run exec w = some ((), w')) :
    ∃ v, w.Finishes claim.responseId now cfg.retainAfterTerminalMs v ∧ w'.log = v.log ∧
      (∀ c, claim.origin.turn.home = some c → (w'.store.Archived c claim.responseId ↔
        w.store.Archived c claim.responseId ∨ guardWritable w.store = .ok () ∧
          (owned w.store claim.tenantId c).isSome = true ∧
          v.log.Serves claim.responseId none)) ∧
      ∀ c, claim.origin.turn.conversation = some c →
        (w'.store.marker c ≠ some claim.responseId ↔
          (w.store.marker c = some claim.responseId → w.Releasable claim.origin c)) := by
  simp only [settleReaped, EventLog.append, EventLog.close, perform_bind, run_call] at h
  have hfin := @exec_finishes w _
    (.lifecycle claim.responseId .failed (.terminalStub claim.responseId .failed))
    rfl rfl rfl now cfg.retainAfterTerminalMs
  simp only [AppendEvent.lifecycle] at hfin h
  generalize (exec _ (exec _ w).2).2 = v at h hfin
  have hstore := hfin.store
  refine ⟨v, hfin, ?_⟩
  cases hconv : claim.conversationId with
  | none =>
      simp only [hconv] at h
      obtain ⟨-, rfl⟩ := Prod.mk.inj (Option.some.inj h)
      refine ⟨rfl, fun c hc ↦ ?_, fun c hc ↦ ?_⟩
      · rw [AbortedClaim.origin_home, hconv, ite_self] at hc
        cases hc
      · exact absurd (hconv.symm.trans hc) nofun
  | some c =>
      simp only [hconv] at h
      -- Archiving leaves everything a release looks at alone.
      suffices hrelease : ∀ u : World,
        (∃ snapshots, u = { v with store.inner.snapshots := snapshots }) →
          (exec (.conversations
            (.releaseActive claim.tenantId c claim.responseId .failed now)) u).2 =
            w' → w'.log = v.log ∧ (w'.store.Archived c claim.responseId ↔
              u.store.Archived c claim.responseId) ∧
            (w'.store.marker c ≠ some claim.responseId ↔
              (w.store.marker c = some claim.responseId → w.Releasable claim.origin c)) by
        have hturn : ∀ {c'}, claim.origin.turn.conversation = some c' → c = c' := fun hc' ↦
          Option.some.inj (hconv.symm.trans hc')
        split at h
        · next hstored =>
            rw [run_bind] at h
            obtain ⟨⟨⟨⟩, u⟩, harchive, hnext⟩ := Option.bind_eq_some_iff.mp h
            obtain ⟨hsame, harch⟩ := run_archiveReplayed harchive
            obtain ⟨hlog, hkept, hmark⟩ :=
              hrelease u hsame (Prod.mk.inj (Option.some.inj hnext)).2
            refine ⟨hlog, fun c' hc' ↦ ?_, fun c' hc' ↦ hturn hc' ▸ hmark⟩
            rw [AbortedClaim.origin_home, if_pos hstored] at hc'
            obtain rfl : c = c' := hturn hc'
            rw [hkept, harch, hstore]
        · next hstored =>
            obtain ⟨hlog, -, hmark⟩ := hrelease v ⟨_, rfl⟩ (Prod.mk.inj (Option.some.inj h)).2
            refine ⟨hlog, fun c' hc' ↦ ?_, fun c' hc' ↦ hturn hc' ▸ hmark⟩
            rw [AbortedClaim.origin_home, if_neg hstored] at hc'
            cases hc'
      rintro u ⟨snapshots, rfl⟩ rfl
      have hku : MemStore.Keyed { v.store with inner.snapshots := snapshots } := by
        have := hstore ▸ hk
        exact ⟨this.record, this.conversation⟩
      refine ⟨rfl, ?_, ?_⟩
      · simp only [MemStore.Archived]
        rw [exec_conversations_snapshot (by trivial)]
      · refine (marker_releaseActive (w := { v with store.inner.snapshots := snapshots }) hku
          (o := claim.origin) .failed now).trans ?_
        simp only [World.Releasable, ← hstore]
        rfl

/-- Settling a claim settles its response if and only if that is possible. -/
theorem run_settleReaped_settled (hk : w.store.Keyed)
    (h : (settleReaped cfg rounds now claim).run exec w = some ((), w')) :
    w'.Settled claim.origin ↔ w.Settleable claim.origin ∧ w.log.Room claim.responseId := by
  obtain ⟨v, hfin, hlog, harchived, hmarker⟩ := run_settleReaped_parts hk h
  have hconv := (run_settleReaped_beside hk h).2.conversation
  constructor
  · rintro ⟨hterm, hclosed, harch, hrel⟩
    obtain ⟨hends, hroom⟩ := hfin.done.mp ⟨hlog ▸ hterm, hlog ▸ hclosed⟩
    refine ⟨⟨hends, fun c hc hsome ↦ ?_, fun c hc ↦ (hmarker c hc).mp (hrel c hc)⟩, hroom⟩
    refine ((harchived c hc).mp (harch c hc ((hconv c).trans hsome))).imp_right ?_
    rintro ⟨hguard, howned, hserves⟩
    exact ⟨hguard, howned,
      (hfin.serves (readOnly_of_guardWritable hguard) hroom).mp hserves⟩
  · rintro ⟨⟨hends, harch, hrel⟩, hroom⟩
    obtain ⟨hterm, hclosed⟩ := hfin.done.mpr ⟨hends, hroom⟩
    refine ⟨hlog ▸ hterm, hlog ▸ hclosed, fun c hc hsome ↦ (harchived c hc).mpr ?_,
      fun c hc ↦ (hmarker c hc).mpr (hrel c hc)⟩
    refine (harch c hc ((hconv c).symm.trans hsome)).imp_right ?_
    rintro ⟨hguard, howned, hwhole⟩
    exact ⟨hguard, howned,
      (hfin.serves (readOnly_of_guardWritable hguard) hroom).mpr hwhole⟩

theorem run_settleReaped_log (hk : w.store.Keyed)
    (h : (settleReaped cfg rounds now claim).run exec w = some ((), w')) :
    (w'.log.Terminated claim.responseId → HashMap.size w'.log.logs = HashMap.size w.log.logs +
        if (w.log.logs.lookup claim.responseId).isNone then 1 else 0) ∧
      ∀ log, w'.log.logs.lookup claim.responseId = some log →
        log.terminalAtMs = some now ∧ log.retainMs = asU64 cfg.retainAfterTerminalMs := by
  obtain ⟨v, hfin, hlog, -, -⟩ := run_settleReaped_parts hk h
  rw [hlog]
  exact ⟨hfin.size, hfin.retains⟩

end Claim

/-! ## All claims -/

theorem EventLogStore.Fits.room {l : EventLogStore} {r : ResponseId} {ids : List ResponseId}
    (h : l.Fits (r :: ids)) : l.Room r := by
  unfold EventLogStore.Fits at h
  unfold EventLogStore.Room
  cases hlook : l.logs.lookup r with
  | some log => exact Or.inl rfl
  | none =>
      simp only [List.countP_cons, hlook, Option.isNone_none, if_true] at h
      exact Or.inr (by omega)

/-- Once `r` has its log, there is room for the others if there was room for all. -/
theorem fits_cons {l l' : EventLogStore} {r : ResponseId} {ids : List ResponseId} (hr : r ∉ ids)
    (hmax : l'.maxLogs = l.maxLogs)
    (hlookup : ∀ r', r' ≠ r → l'.logs.lookup r' = l.logs.lookup r')
    (hsize : HashMap.size l'.logs =
      HashMap.size l.logs + if (l.logs.lookup r).isNone then 1 else 0)
    (hroom : l.Room r) : l.Fits (r :: ids) ↔ l'.Fits ids := by
  have hcount : ids.countP (fun r ↦ (l'.logs.lookup r).isNone) =
      ids.countP fun r ↦ (l.logs.lookup r).isNone :=
    List.countP_congr fun r' hr' ↦ by rw [hlookup r' fun heq ↦ hr (heq ▸ hr')]
  unfold EventLogStore.Fits
  rw [hcount, hmax, hsize, List.countP_cons]
  unfold EventLogStore.Room at hroom
  cases hlook : l.logs.lookup r with
  | some log => simp
  | none =>
      simp only [hlook, Option.isSome_none, Bool.false_eq_true, false_or] at hroom
      simp only [Option.isNone_none, if_true]
      omega

section Claims

variable {cfg : Config} {rounds now : ℕ} {claims : List AbortedClaim} {w w' : World}

/-- Settling claims leaves the ledger and every other response alone. -/
theorem run_settleAll_beside (hk : w.store.Keyed)
    (h : (settleAll cfg rounds now claims).run exec w = some ((), w')) :
    (∀ r, w'.store.record r = w.store.record r) ∧
      ∀ r ∉ claims.map AbortedClaim.responseId,
        w'.log.logs.lookup r = w.log.logs.lookup r ∧
          ∀ o : Origin, o.id = r → (w'.Settled o ↔ w.Settled o) := by
  induction claims generalizing w with
  | nil =>
      obtain ⟨-, rfl⟩ := Prod.mk.inj (Option.some.inj h)
      exact ⟨fun _ ↦ rfl, fun _ _ ↦ ⟨rfl, fun _ _ ↦ Iff.rfl⟩⟩
  | cons claim claims ih =>
      simp only [settleAll, run_bind] at h
      obtain ⟨⟨⟨⟩, v⟩, hfirst, hrest⟩ := Option.bind_eq_some_iff.mp h
      obtain ⟨hkv, hbeside⟩ := run_settleReaped_beside hk hfirst
      obtain ⟨hrecord, hothers⟩ := ih hkv hrest
      refine ⟨fun r ↦ (hrecord r).trans (hbeside.record r), fun r hr ↦ ?_⟩
      rw [List.map_cons, List.mem_cons, not_or] at hr
      obtain ⟨hlookup, hsettled⟩ := hothers r hr.2
      exact ⟨hlookup.trans (hbeside.lookup r hr.1), fun o ho ↦
        (hsettled o ho).trans (hbeside.settled_iff (ho ▸ hr.1))⟩

/-- Settling claims settles their responses if and only if each can be settled and there is room
for all their logs. -/
theorem run_settleAll_settled (hk : w.store.Keyed)
    (hnodup : (claims.map AbortedClaim.responseId).Nodup)
    (h : (settleAll cfg rounds now claims).run exec w = some ((), w')) :
    (∀ a ∈ claims, w'.Settled a.origin) ↔
      (∀ a ∈ claims, w.Settleable a.origin) ∧
        w.log.Fits (claims.map AbortedClaim.responseId) := by
  induction claims generalizing w with
  | nil => exact iff_of_true (by simp) ⟨by simp, Or.inl rfl⟩
  | cons claim claims ih =>
      simp only [settleAll, run_bind] at h
      obtain ⟨⟨⟨⟩, v⟩, hfirst, hrest⟩ := Option.bind_eq_some_iff.mp h
      obtain ⟨hkv, hbeside⟩ := run_settleReaped_beside hk hfirst
      obtain ⟨hnot, hnodup⟩ := List.nodup_cons.mp hnodup
      have hone := run_settleReaped_settled hk hfirst
      have hkept : w'.Settled claim.origin ↔ v.Settled claim.origin :=
        ((run_settleAll_beside hkv hrest).2 _ hnot).2 claim.origin rfl
      have hable : (∀ a ∈ claims, v.Settleable a.origin) ↔ ∀ a ∈ claims, w.Settleable a.origin :=
        forall₂_congr fun a ha ↦ hbeside.settleable_iff fun heq ↦
          hnot (heq ▸ List.mem_map_of_mem ha)
      rw [List.forall_mem_cons, List.forall_mem_cons, List.map_cons, ih hkv hnodup hrest, hable,
        hkept, hone]
      -- A claim that was settled took its own log into account.
      have hfits : v.Settled claim.origin →
          (w.log.Fits (claim.responseId :: claims.map AbortedClaim.responseId) ↔
            v.log.Fits (claims.map AbortedClaim.responseId)) := fun hv ↦
        fits_cons hnot hbeside.maxLogs hbeside.lookup
          ((run_settleReaped_log hk hfirst).1 hv.terminated) (hone.mp hv).2
      constructor
      · rintro ⟨hclaim, hothers, hrestfits⟩
        exact ⟨⟨hclaim.1, hothers⟩, (hfits (hone.mpr hclaim)).mpr hrestfits⟩
      · rintro ⟨⟨hclaim, hothers⟩, hall⟩
        exact ⟨⟨hclaim, hall.room⟩, hothers, (hfits (hone.mpr ⟨hclaim, hall.room⟩)).mp hall⟩

/-- The log of every claim was closed in this tick. -/
theorem run_settleAll_retains (hk : w.store.Keyed)
    (hnodup : (claims.map AbortedClaim.responseId).Nodup)
    (h : (settleAll cfg rounds now claims).run exec w = some ((), w')) :
    ∀ a ∈ claims, ∀ log, w'.log.logs.lookup a.responseId = some log →
      log.terminalAtMs = some now ∧ log.retainMs = asU64 cfg.retainAfterTerminalMs := by
  induction claims generalizing w with
  | nil => nofun
  | cons claim claims ih =>
      simp only [settleAll, run_bind] at h
      obtain ⟨⟨⟨⟩, v⟩, hfirst, hrest⟩ := Option.bind_eq_some_iff.mp h
      obtain ⟨hkv, -⟩ := run_settleReaped_beside hk hfirst
      obtain ⟨hnot, hnodup⟩ := List.nodup_cons.mp hnodup
      refine List.forall_mem_cons.mpr ⟨fun log hlog ↦ ?_, ih hkv hnodup hrest⟩
      rw [((run_settleAll_beside hkv hrest).2 _ hnot).1] at hlog
      exact (run_settleReaped_log hk hfirst).2 log hlog

end Claims

/-! ## The tick -/

theorem settleable_ledgerOnly {w w' : World} (h : MemResponseLedger.LedgerOnly w.store w'.store)
    (hlog : w'.log = w.log) (hbound : w'.store.maxEventsPerConversation =
      w.store.maxEventsPerConversation) (o : Origin) : w'.Settleable o ↔ w.Settleable o := by
  have hconv : ∀ c, w'.store.conversation c = w.store.conversation c := fun c ↦ by
    simp only [MemStore.conversation, h.conversations]
  have hguard : guardWritable w'.store = guardWritable w.store := by
    simp only [guardWritable, h.readOnly, h.unavailable]
  have howned : ∀ c, owned w'.store o.tenant c = owned w.store o.tenant c := fun c ↦ by
    simp only [owned, hconv]
  have hcap : ∀ c, ensureEventCapacity w'.store c = ensureEventCapacity w.store c := fun c ↦ by
    simp only [ensureEventCapacity, h.conversationEvents, hbound]
  have hcompleted : ∀ c, w'.store.completed c = w.store.completed c := fun c ↦ by
    simp only [MemStore.completed, MemStore.stream, h.conversationEvents]
  have harch : ∀ c, w'.store.Archived c o.id ↔ w.store.Archived c o.id := fun c ↦ by
    simp only [MemStore.Archived, h.snapshot]
  have harchivable : ∀ c, w'.Archivable o c ↔ w.Archivable o c := fun c ↦ by
    simp only [World.Archivable, hguard, howned, hlog]
  have hreleasable : ∀ c, w'.Releasable o c ↔ w.Releasable o c := fun c ↦ by
    simp only [World.Releasable, hguard, howned, hcap, hcompleted]
  constructor
  · rintro ⟨hends, harchives, hreleases⟩
    simp only [hlog, h.readOnly, hconv, harch, harchivable, h.marker, hreleasable]
      at hends harchives hreleases
    exact ⟨hends, harchives, hreleases⟩
  · rintro ⟨hends, harchives, hreleases⟩
    constructor <;> simp only [hlog, h.readOnly, hconv, harch, harchivable, h.marker, hreleasable]
    exacts [hends, harchives, hreleases]

/-- A log that was closed now outlives the sweep of this tick, or does not outlive it at all. -/
theorem sweep_closed {log : ResponseLog} {now retain : ℕ} (hterm : log.terminalAtMs = some now)
    (hretain : log.retainMs = asU64 retain) :
    (log.sweep now).1 = if now < satAdd now (asU64 retain) then some log else none := by
  have hle : asU64 retain ≤ u64Max := by
    have := Nat.mod_lt retain (show 2 ^ 64 > 0 by decide)
    unfold asU64 u64Max
    omega
  have htomb : log.tombstoneDeadline =
      some (satAdd now (satMul (asU64 retain) tombstoneFactor)) := by
    simp [ResponseLog.tombstoneDeadline, hterm, hretain]
  have hdead : log.retentionDeadline = some (satAdd now (asU64 retain)) := by
    simp [ResponseLog.retentionDeadline, hterm, hretain]
  simp only [ResponseLog.sweep, htomb, hdead, Option.any_some, decide_eq_true_eq]
  generalize asU64 retain = span at hle
  by_cases hlive : now < satAdd now span
  · have hkept : ¬ satAdd now (satMul span tombstoneFactor) ≤ now := by
      unfold satAdd satMul tombstoneFactor at *
      omega
    simp [hlive, hkept, not_le.mpr hlive]
  · have hgone : satAdd now (satMul span tombstoneFactor) ≤ now := by
      unfold satAdd satMul tombstoneFactor at *
      omega
    simp [hlive, hgone]

section Tick

variable {cfg : Config} {rounds : ℕ} {w w' : World}

/-- The running records a tick has failed are those whose claims it took. -/
theorem run_tick_parts (hk : w.store.Keyed)
    (h : (tick cfg rounds).run exec w = some ((), w')) :
    ∃ (aborted : List AbortedClaim) (v v' : World),
      aborted.map AbortedClaim.responseId =
        MemResponseLedger.toFail w.store w.clock (asU64 cfg.heartbeatTtlMs) ∧
      (∀ a ∈ aborted, ∃ x, w.store.record a.responseId = some x ∧ x.status = .inProgress ∧
        a.origin = x.origin) ∧
      (∀ r, v.store.record r = if r ∈ aborted.map AbortedClaim.responseId then
        (w.store.record r).map (MemResponseLedger.superseded · .failed w.clock)
        else w.store.record r) ∧
      v.store.Keyed ∧ v.log = w.log ∧ (∀ o, v.Settleable o ↔ w.Settleable o) ∧
      (settleAll cfg rounds w.clock aborted).run exec v = some ((), v') ∧
      w' = { v' with log := (MemResponseEventLog.sweepExpired v'.log w.clock).2 } := by
  obtain ⟨aborted, hreply, hids, hclaims, hrec⟩ := exec_reap_toFail w w.clock cfg.heartbeatTtlMs
  have htick : (tick cfg rounds).run exec w =
      (settleAll cfg rounds w.clock aborted >>= fun _ ↦ EventLog.sweepExpired w.clock >>=
        fun _ ↦ Prog.ret ()).run exec (exec (.ledger (.reap w.clock cfg.heartbeatTtlMs)) w).2 := by
    have hreap : (exec (.ledger (.reap (exec .nowMs w).1 cfg.heartbeatTtlMs))
        (exec .nowMs w).2).1 = .ok aborted := hreply
    simp only [tick, nowMs, Ledger.reap, perform_bind, run_call]
    rw [hreap]
    rfl
  rw [htick, run_bind] at h
  obtain ⟨⟨⟨⟩, v'⟩, hsettle, hsweep⟩ := Option.bind_eq_some_iff.mp h
  refine ⟨aborted, _, v', hids, fun a ha ↦ ?_, fun r ↦ ?_, exec_keyed _ hk, rfl, fun o ↦ ?_,
    hsettle, (Prod.mk.inj (Option.some.inj hsweep)).2.symm⟩
  · obtain ⟨x, hx, hstatus, heq⟩ := hclaims a ha
    refine ⟨x, hx, hstatus, ?_⟩
    rw [ResponseRecord.origin, hk.record hx, heq]
    rfl
  · rw [hrec, hids]
  · exact settleable_ledgerOnly (exec_ledgerOnly (.reap w.clock cfg.heartbeatTtlMs) w) rfl
      (reapAll_maxEvents _ _ _) o

/-- A log of this tick outlives its sweep if it is retained at all. -/
theorem settled_sweepExpired {now retain : ℕ} {o : Origin}
    (hclosed : ∀ log, w.log.logs.lookup o.id = some log →
      log.terminalAtMs = some now ∧ log.retainMs = asU64 retain) :
    World.Settled { w with log := (MemResponseEventLog.sweepExpired w.log now).2 } o ↔
      now < satAdd now (asU64 retain) ∧ w.Settled o := by
  have hlookup : (MemResponseEventLog.sweepExpired w.log now).2.logs.lookup o.id =
      if now < satAdd now (asU64 retain) then w.log.logs.lookup o.id else none := by
    refine (HashMap.lookup_filterMapVal _ _ _).trans ?_
    cases hlook : w.log.logs.lookup o.id with
    | none => simp
    | some log =>
        obtain ⟨hterm, hretain⟩ := hclosed log hlook
        exact sweep_closed hterm hretain
  split_ifs at hlookup with hlive
  · rw [and_iff_right hlive]
    have hterm : (MemResponseEventLog.sweepExpired w.log now).2.Terminated o.id ↔
        w.log.Terminated o.id := by
      simp only [EventLogStore.Terminated, EventLogStore.buffered, hlookup]
    have hclose : (MemResponseEventLog.sweepExpired w.log now).2.Closed o.id ↔
        w.log.Closed o.id := by
      simp only [EventLogStore.Closed, hlookup]
    constructor
    · rintro ⟨h₁, h₂, h₃, h₄⟩
      exact ⟨hterm.mp h₁, hclose.mp h₂, h₃, h₄⟩
    · rintro ⟨h₁, h₂, h₃, h₄⟩
      exact ⟨hterm.mpr h₁, hclose.mpr h₂, h₃, h₄⟩
  · refine iff_of_false (fun h ↦ ?_) fun h ↦ hlive h.1
    have := isSome_of_terminated h.terminated
    rw [hlookup] at this
    cases this

/-- A tick settles what it fails if and only if nothing is lost, or all that is lost can be
settled. -/
theorem run_tick_sweepsWhole (hk : w.store.Keyed)
    (h : (tick cfg rounds).run exec w = some ((), w')) :
    SweepsWhole w w' ↔
      MemResponseLedger.toFail w.store w.clock (asU64 cfg.heartbeatTtlMs) = [] ∨
      Sweepable cfg w (MemResponseLedger.toFail w.store w.clock (asU64 cfg.heartbeatTtlMs)) := by
  have hnodup := MemResponseLedger.nodup_toFail w.store w.clock (asU64 cfg.heartbeatTtlMs)
  obtain ⟨aborted, v, v', hids, hclaims, hrec, hkv, hlog, hable, hsettle, rfl⟩ :=
    run_tick_parts hk h
  rw [← hids] at hnodup ⊢
  have hsettled := run_settleAll_settled hkv hnodup hsettle
  have hretains := run_settleAll_retains hkv hnodup hsettle
  have hkept := (run_settleAll_beside hkv hsettle).1
  have hwhole : SweepsWhole w
      { v' with log := (MemResponseEventLog.sweepExpired v'.log w.clock).2 } ↔
      ∀ a ∈ aborted, w.clock < satAdd w.clock (asU64 cfg.retainAfterTerminalMs) ∧
        v'.Settled a.origin := by
    constructor
    · intro hall a ha
      obtain ⟨x, hx, hstatus, horigin⟩ := hclaims a ha
      refine (settled_sweepExpired (hretains a ha)).mp (horigin ▸ hall _ x
        (MemResponseLedger.superseded x .failed w.clock) hx hstatus ?_ rfl)
      refine (hkept _).trans ((hrec _).trans ?_)
      rw [if_pos (List.mem_map_of_mem ha), hx]
      rfl
    · intro hall r x y hx hstatus hy hfailed
      have hy : (if r ∈ aborted.map AbortedClaim.responseId then
          (w.store.record r).map (MemResponseLedger.superseded · .failed w.clock)
          else w.store.record r) = some y := (hrec r).symm.trans ((hkept r).symm.trans hy)
      split_ifs at hy with hmem
      · obtain ⟨a, ha, rfl⟩ := List.mem_map.mp hmem
        obtain ⟨x', hx', -, horigin⟩ := hclaims a ha
        obtain rfl : x = x' := Option.some.inj (hx.symm.trans hx')
        exact horigin ▸ (settled_sweepExpired (hretains a ha)).mpr (hall a ha)
      · obtain rfl : x = y := Option.some.inj (hx.symm.trans hy)
        rw [hstatus] at hfailed
        cases hfailed
  have hsettleable : (∀ r ∈ aborted.map AbortedClaim.responseId, ∀ x, w.store.record r = some x →
      w.Settleable x.origin) ↔ ∀ a ∈ aborted, v.Settleable a.origin := by
    rw [List.forall_mem_map]
    refine forall₂_congr fun a ha ↦ ?_
    obtain ⟨x, hx, -, horigin⟩ := hclaims a ha
    rw [hable, horigin, hx]
    exact ⟨fun hall ↦ hall x rfl, fun hx' y hy ↦ Option.some.inj hy ▸ hx'⟩
  rw [hwhole]
  constructor
  · intro hall
    rcases aborted with _ | ⟨a, rest⟩
    · exact Or.inl rfl
    · obtain ⟨hsome, hfits⟩ := hsettled.mp fun b hb ↦ (hall b hb).2
      exact Or.inr ⟨(hall a (by simp)).1, hlog ▸ hfits, hsettleable.mpr hsome⟩
  · rintro (hnone | ⟨hlive, hfits, hsome⟩) a ha
    · rw [List.map_eq_nil_iff.mp hnone] at ha
      cases ha
    · exact ⟨hlive, hsettled.mpr ⟨hsettleable.mp hsome, hlog.symm ▸ hfits⟩ a ha⟩

end Tick

theorem run_keyed {ok : Trace → State → Event Call Call.Reply Job → Prop} {w : World} {tr : Trace}
    {q : State} (hk : w.store.Keyed) (h : Run system ok (Pool.init w) tr q) :
    q.world.store.Keyed :=
  h.world_invariant (J := fun v ↦ v.store.Keyed) (fun _ _ _ c hv _ ↦ exec_keyed c hv) hk

/-- From every reachable state, a tick by itself settles every record it fails if and only if
nothing is lost, or all that is lost can be settled. -/
theorem sweepsWhole_iff {ok : Trace → State → Event Call Call.Reply Job → Prop} {w₀ w' : World}
    {tr : Trace} {q : State} {cfg : Config} {rounds : ℕ} (hk : w₀.store.Keyed)
    (h : Run system ok (Pool.init w₀) tr q)
    (hrun : (tick cfg rounds).run exec q.world = some ((), w')) :
    SweepsWhole q.world w' ↔
      MemResponseLedger.toFail q.world.store q.world.clock (asU64 cfg.heartbeatTtlMs) = [] ∨
      Sweepable cfg q.world
        (MemResponseLedger.toFail q.world.store q.world.clock (asU64 cfg.heartbeatTtlMs)) :=
  run_tick_sweepsWhole (run_keyed hk h) hrun

namespace Sample

/-- The sample turn is claimed, and its agent is not heard of again. -/
def abandoned : List (Action Job) :=
  post 1 :: steps 0 6 ++ work :: steps 1 2 ++ .start (.mode (.setClock 100000)) :: steps 2 1

/-- The claims a tick would take now. -/
def lost (q : State) : List ResponseId :=
  MemResponseLedger.toFail q.world.store q.world.clock (asU64 cfg.heartbeatTtlMs)

end Sample

/-- The abandoned turn is settled by the next tick. -/
theorem sweepsWhole_abandoned : ∃ tr q w',
    Run system (fun _ _ _ ↦ True) (Pool.init Sample.world) tr q ∧
    (tick Sample.cfg 4).run exec q.world = some ((), w') ∧ Sample.lost q = [Sample.id 1] ∧
    SweepsWhole q.world w' := by
  obtain ⟨tr, q, h, htest⟩ :=
    Run.exists_of_schedule system (Pool.init Sample.world) (fun _ _ _ ↦ true)
    (fun _ q ↦ ((tick Sample.cfg 4).run exec q.world).isSome &&
      decide (Sample.lost q = [Sample.id 1]) &&
      decide (Sweepable Sample.cfg q.world (Sample.lost q))) (fun _ _ _ _ ↦ trivial)
    Sample.abandoned
    (by decide +kernel)
  simp only [Bool.and_eq_true, decide_eq_true_eq] at htest
  obtain ⟨⟨hsome, hlost⟩, hcan⟩ := htest
  obtain ⟨⟨⟨⟩, w'⟩, hrun⟩ := Option.isSome_iff_exists.mp hsome
  exact ⟨tr, q, w', h, hrun, hlost, (sweepsWhole_iff Sample.world_keyed h hrun).mpr (Or.inr hcan)⟩

/-- While the store is read-only, the abandoned turn is failed and not settled. -/
theorem sweep_readOnly : ¬ ∀ (ok : Trace → State → Event Call Call.Reply Job → Prop) (w₀ w' : World)
    (tr : Trace) (q : State) (cfg : Config) (rounds : ℕ), w₀.store.Keyed →
    Run system ok (Pool.init w₀) tr q → (tick cfg rounds).run exec q.world = some ((), w') →
    SweepsWhole q.world w' := by
  intro hclaim
  obtain ⟨tr, q, h, htest⟩ :=
    Run.exists_of_schedule system (Pool.init Sample.world) (fun _ _ _ ↦ true)
    (fun _ q ↦ ((tick Sample.cfg 4).run exec q.world).isSome && q.world.store.readOnly &&
      decide (Sample.lost q = [Sample.id 1]) &&
      decide (¬ Sweepable Sample.cfg q.world (Sample.lost q))) (fun _ _ _ _ ↦ trivial)
    (Sample.abandoned ++ .start (.mode (.setReadOnly true)) :: Sample.steps 3 1)
    (by decide +kernel)
  simp only [Bool.and_eq_true, decide_eq_true_eq] at htest
  obtain ⟨⟨⟨hsome, -⟩, hlost⟩, hcannot⟩ := htest
  obtain ⟨⟨⟨⟩, w'⟩, hrun⟩ := Option.isSome_iff_exists.mp hsome
  have hswept := hclaim (fun _ _ _ ↦ True) _ w' tr q Sample.cfg 4 Sample.world_keyed h hrun
  rcases (run_tick_sweepsWhole (run_keyed Sample.world_keyed h) hrun).mp hswept with hnone | hcan
  · exact absurd (hlost.symm.trans hnone) nofun
  · exact hcannot hcan

end NovaChat
