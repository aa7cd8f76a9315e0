import NovaChat.Lifecycle.Stages
import NovaChat.Stream.Replay
import Mathlib.Data.List.Induction

/-!
# What an unfinished turn leaves

Two records are kept of a turn that may never finish.  The sink remembers the items it was told are
done and the text of the one still open; a replay finds the same again in the events the sink
appended.  As long as every append is accepted and nothing is evicted, the two agree.

The sink counts the items that were added, so indices never go back, and the stable sort at the end
of a replay has nothing to do.
-/

namespace NovaChat

open Interact Numbering

/-! ## A sink and a replay -/

/-- The replay has found what the sink remembers. -/
structure EventSink.Mirrors (s : EventSink) (found : Replay) : Prop where
  items : found.items.map Prod.snd = s.completed
  sorted : found.items.Pairwise fun a b ↦ a.1 ≤ b.1
  bounded : ∀ p ∈ found.items, p.1 ≤ s.currentOutputIndex
  opened : found.opened = s.openItem.map fun item ↦ (s.currentOutputIndex, item)
  text : s.openItem.isSome = true → found.openText = s.openText

namespace EventSink.Mirrors

variable {s : EventSink} {found : Replay} {r : ResponseId} {attempt : Attempt}

theorem fresh (r : ResponseId) (attempt : Attempt) :
    Mirrors { responseId := r, attempt := attempt } {} where
  items := rfl
  sorted := .nil
  bounded := fun p hp ↦ by cases hp
  opened := rfl
  text := nofun

/-- Text goes to the open item, if there is one. -/
theorem textDelta (h : s.Mirrors found) (n contentIndex : ℕ) (itemId text : String) :
    Mirrors { s with openText := s.openText ++ text }
      (found.step ⟨n, .textDelta r attempt itemId s.currentOutputIndex contentIndex text⟩) := by
  have hopened := h.opened
  cases hopen : s.openItem with
  | none =>
      have hnone : found.opened = none := by rw [hopened, hopen]; rfl
      have hstep : found.step
          ⟨n, .textDelta r attempt itemId s.currentOutputIndex contentIndex text⟩ = found := by
        simp [Replay.step, ResponseEvent.kind, ResponseEvent.body, AppendEvent.textDelta, hnone]
      rw [hstep]
      exact ⟨h.items, h.sorted, h.bounded, hnone, nofun⟩
  | some item =>
      have hsome : found.opened = some (s.currentOutputIndex, item) := by rw [hopened, hopen]; rfl
      have hstep : found.step
          ⟨n, .textDelta r attempt itemId s.currentOutputIndex contentIndex text⟩ =
            { found with openText := found.openText ++ text } := by
        simp [Replay.step, ResponseEvent.kind, ResponseEvent.body, AppendEvent.textDelta, hsome]
      rw [hstep]
      refine ⟨h.items, h.sorted, h.bounded, hsome, fun _ ↦ ?_⟩
      rw [h.text (by rw [hopen]; rfl)]

/-- An added item takes the next index. -/
theorem added (h : s.Mirrors found) (n : ℕ) (item : ResponseItem)
    (hindex : s.outputIndex + 1 < 2 ^ 32) :
    Mirrors { s with
        outputIndex := (s.outputIndex + 1) % 2 ^ 32
        currentItemId := some item.streamItemId, openItem := some item, openText := "" }
      (found.step ⟨n, .item r attempt false s.outputIndex item⟩) := by
  have hnext : (s.outputIndex + 1) % 2 ^ 32 - 1 = s.outputIndex := by
    rw [Nat.mod_eq_of_lt hindex, Nat.add_sub_cancel]
  constructor
  · exact h.items
  · exact h.sorted
  · intro p hp
    have hle : p.1 ≤ s.outputIndex - 1 := h.bounded p hp
    show p.1 ≤ (s.outputIndex + 1) % 2 ^ 32 - 1
    omega
  · show some (s.outputIndex, item) = some ((s.outputIndex + 1) % 2 ^ 32 - 1, item)
    rw [hnext]
  · intro _
    rfl

/-- A finished item is filed under the index of the open one, and closes it. -/
theorem done (h : s.Mirrors found) (n : ℕ) (item : ResponseItem) :
    Mirrors { s with completed := s.completed ++ [item], openItem := none, openText := "" }
      (found.step ⟨n, .item r attempt true s.currentOutputIndex item⟩) := by
  have hopened := h.opened
  have hitems : (found.step ⟨n, .item r attempt true s.currentOutputIndex item⟩).items =
      found.items ++ [(s.currentOutputIndex, item)] := by
    simp only [Replay.step, ResponseEvent.kind, ResponseEvent.body, AppendEvent.item, if_true]
    split <;> rfl
  have hclosed :
      (found.step ⟨n, .item r attempt true s.currentOutputIndex item⟩).opened = none := by
    cases hopen : s.openItem with
    | none =>
        rw [hopen] at hopened
        simp [Replay.step, ResponseEvent.kind, ResponseEvent.body, AppendEvent.item, hopened]
    | some old =>
        rw [hopen] at hopened
        simp [Replay.step, ResponseEvent.kind, ResponseEvent.body, AppendEvent.item, hopened]
  constructor
  · rw [hitems, List.map_append, h.items]
    rfl
  · rw [hitems, List.pairwise_append]
    refine ⟨h.sorted, List.pairwise_singleton _ _, fun p hp p' hp' ↦ ?_⟩
    rw [List.mem_singleton.mp hp']
    exact h.bounded p hp
  · intro p hp
    rw [hitems] at hp
    rcases List.mem_append.mp hp with hp | hp
    · exact h.bounded p hp
    · rw [List.mem_singleton.mp hp]
      exact Nat.le_refl _
  · exact hclosed
  · exact nofun

/-- Nothing else matters to the two. -/
theorem same (h : s.Mirrors found) {t : EventSink} {found' : Replay} (hfound : found' = found)
    (hcompleted : t.completed = s.completed) (hopen : t.openItem = s.openItem)
    (htext : t.openText = s.openText) (hindex : t.outputIndex = s.outputIndex) :
    t.Mirrors found' := by
  have hcurrent : t.currentOutputIndex = s.currentOutputIndex := by
    unfold currentOutputIndex
    rw [hindex]
  subst hfound
  constructor
  · rw [hcompleted, h.items]
  · exact h.sorted
  · rw [hcurrent]
    exact h.bounded
  · rw [hopen, hcurrent, h.opened]
  · rw [hopen, htext]
    exact h.text

/-- What follows the finished items is the open message. -/
theorem trailing (h : s.Mirrors found) :
    found.trailing = s.partialItem.toList.map fun item ↦ (s.currentOutputIndex, item) := by
  unfold Replay.trailing EventSink.partialItem
  rw [h.opened]
  cases hopen : s.openItem with
  | none => rfl
  | some item =>
      have htext := h.text (by rw [hopen]; rfl)
      cases item with
      | message role content id status =>
          simp only [Option.map_some, htext]
          split <;> rfl
      | _ => rfl

/-- The replay ends with what the sink would archive. -/
theorem finish (h : s.Mirrors found) :
    found.finish = s.completed ++ s.partialItem.toList := by
  unfold Replay.finish
  rw [h.trailing, List.mergeSort_of_pairwise]
  · rw [List.map_append, h.items, List.map_map]
    simp [Function.comp_def]
  · rw [List.pairwise_append]
    refine ⟨h.sorted.imp fun hab ↦ decide_eq_true hab, ?_, fun p hp p' hp' ↦ ?_⟩
    · rw [List.pairwise_map]
      exact List.pairwise_of_forall fun _ _ ↦ decide_eq_true (Nat.le_refl _)
    · obtain ⟨item, -, rfl⟩ := List.mem_map.mp hp'
      exact decide_eq_true (h.bounded p hp)

end EventSink.Mirrors

/-! ## A replay of a whole log -/

section Run

variable {w : World} {r : ResponseId} {events : List ResponseEvent} {rounds : ℕ}

theorem run_replayRound {cursor : Option ℕ} {found : Replay} {batch : List ResponseEvent}
    (hread : MemResponseEventLog.readAfter w.log r cursor replayPage = .ok batch) :
    (replayRound r (cursor, found)).run exec w =
      some (if batch.isEmpty then .inr (.ok found.finish)
        else .inl (batch.getLast?.map ResponseEvent.sequenceNumber,
          batch.foldl Replay.step found), w) := by
  simp only [replayRound, EventLog.readAfter, Prog.perform_bind, Prog.run_call, exec,
    execEventLog, hread]
  cases batch <;> rfl

/-- A replay folds every event of a log that still has them all. -/
theorem run_replayCompletedItems (h : w.log.Replays r events) (hrounds : events.length < rounds) :
    (replayCompletedItems rounds r).run exec w =
      some (.ok (events.foldl Replay.step {}).finish, w) := by
  -- A reader stands at a position, and has folded what comes before it.
  refine Prog.run_iterate
    (fun i ↦ Word i.1 ∧ first i.1 ≤ events.length ∧
      i.2 = (events.take (first i.1)).foldl Replay.step {})
    (fun i ↦ events.length - first i.1) ?_
    ⟨fun _ hc ↦ absurd hc (by simp), Nat.zero_le _, rfl⟩ (by simpa using hrounds)
  rintro ⟨cursor, found⟩ ⟨hword, hwithin, hfound⟩
  obtain rfl : found = (events.take (first cursor)).foldl Replay.step {} := hfound
  dsimp only at hword hwithin ⊢
  have hread := h.read cursor replayPage hword
  rw [h.page_eq] at hread
  rw [run_replayRound hread]
  have hnext : (events.drop (first cursor)).take replayPage ≠ [] → _ := h.next hwithin
  set batch := (events.drop (first cursor)).take replayPage with hbatch
  have hlen : batch.length = min replayPage (events.length - first cursor) := by
    rw [hbatch, List.length_take, List.length_drop]
  have hpage : replayPage = 256 := rfl
  by_cases hnil : batch = []
  · left
    have hzero : batch.length = 0 := by rw [hnil]; rfl
    rw [hnil, List.take_of_length_le (by omega)]
    rfl
  · right
    obtain ⟨hword', hfirst⟩ := hnext hnil
    have hpos : 0 < batch.length := List.length_pos_iff.mpr hnil
    refine ⟨(batch.getLast?.map ResponseEvent.sequenceNumber,
      batch.foldl Replay.step ((events.take (first cursor)).foldl Replay.step {})), ?_,
      ⟨hword', ?_, ?_⟩, ?_⟩
    · rw [if_neg (by simpa using hnil)]
    · dsimp only
      omega
    · dsimp only
      rw [hfirst, hbatch, take_add_length_page, List.foldl_append]
    · dsimp only
      omega

end Run

/-! ## A sink at work -/

/-- An event that says how the response as a whole stands. -/
def AppendEvent.Envelope (event : AppendEvent) : Prop := ∃ object, event.body = .response object

/-- A verdict on an accepted append. -/
def wasAppended : Except SinkError SinkVerdict → Bool
  | .ok .continue => true
  | _ => false

/-- Whether the append of a sink call was accepted.  A poll appends nothing. -/
def SinkCall.accepted : (c : SinkCall) → c.Reply → Bool
  | .textDelta _, verdict => wasAppended verdict
  | .reasoningTextDelta _, verdict => wasAppended verdict
  | .outputItemAdded _, verdict => wasAppended verdict
  | .outputItemDone _, verdict => wasAppended verdict
  | .functionCallArgumentsDelta .., verdict => wasAppended verdict
  | .functionCallArgumentsDone .., verdict => wasAppended verdict
  | .contentPartAdded .., verdict => wasAppended verdict
  | .outputTextDone _, verdict => wasAppended verdict
  | .contentPartDone .., verdict => wasAppended verdict
  | .cancelled, _ => true

/-- Whether a sink call adds an item. -/
def SinkCall.adds : SinkCall → Bool
  | .outputItemAdded _ => true
  | _ => false

/-- A call of somebody else, which keeps the log of `r` and writes at most envelopes to it. -/
def World.Aside (w : World) (r : ResponseId) (c : Call) : Prop :=
  (w.Logged r → (exec c w).2.Logged r) ∧
    ∀ seq event, assigned r ⟨c, (exec c w).1⟩ = some (seq, event) → event.Envelope

/-- A sink has answered some calls, and each of their appends was accepted.  Others may have been at
work in between. -/
inductive Streamed (s₀ : EventSink) (w₀ : World) : List SinkCall → EventSink → World → Prop
  | nil : Streamed s₀ w₀ [] s₀ w₀
  | answer {calls s w s' w'} (c : SinkCall) (reply : c.Reply) : Streamed s₀ w₀ calls s w →
      (EventSink.answer c s).run exec w = some ((reply, s'), w') → c.accepted reply = true →
      Streamed s₀ w₀ (calls ++ [c]) s' w'
  | other {calls s w} (c : Call) : Streamed s₀ w₀ calls s w → w.Aside s₀.responseId c →
      Streamed s₀ w₀ calls s (exec c w).2

/-- What a replay finds in a stream. -/
def replayed (all : List AppendEvent) : Replay := (stored all).foldl Replay.step {}

theorem replayed_snoc (all : List AppendEvent) (event : AppendEvent) :
    replayed (all ++ [event]) = (replayed all).step ⟨all.length, event⟩ := by
  rw [replayed, stored_snoc, List.foldl_append]
  rfl

theorem step_envelope {event : AppendEvent} (h : event.Envelope) (found : Replay) (n : ℕ) :
    found.step ⟨n, event⟩ = found := by
  obtain ⟨id, kind, attempt, body⟩ := event
  obtain ⟨object, rfl⟩ := h
  cases kind <;> rfl

theorem replayed_envelopes {all : List AppendEvent} (h : ∀ e ∈ all, e.Envelope) :
    replayed all = {} := by
  induction all using List.reverseRecOn with
  | nil => rfl
  | append_singleton all event ih =>
      rw [replayed_snoc, step_envelope (h event (by simp))]
      exact ih fun e he ↦ h e (List.mem_append_left _ he)

section Push

variable {w w' : World} {s s' : EventSink} {event : AppendEvent}
  {verdict : Except SinkError SinkVerdict}

/-- An accepted push is an accepted append. -/
theorem run_push (h : (s.push event).run exec w = some ((verdict, s'), w'))
    (hverdict : wasAppended verdict = true) : s' = s ∧
      (exec (.eventLog (.append event)) w).2 = w' ∧
      ∃ seq, (exec (.eventLog (.append event)) w).1 = .ok seq := by
  unfold EventSink.push at h
  split at h
  · obtain ⟨⟨rfl, -⟩, -⟩ : (Except.ok SinkVerdict.stop = verdict ∧ s = s') ∧ w = w' := by
      simpa using h
    cases hverdict
  · rw [show (EventLog.append event >>= _ : Service _) = Prog.call _ _ from rfl,
      Prog.run_call] at h
    cases hreply : (exec (.eventLog (.append event)) w).1 with
    | ok seq =>
        rw [hreply] at h
        obtain ⟨⟨-, rfl⟩, rfl⟩ : (_ ∧ s = s') ∧ _ = w' := by simpa using h
        exact ⟨rfl, rfl, seq, rfl⟩
    | error e =>
        rw [hreply] at h
        cases e with
        | staleAttempt =>
            obtain ⟨⟨rfl, -⟩, -⟩ : (Except.ok SinkVerdict.stop = verdict ∧ _) ∧ _ := by
              simpa using h
            cases hverdict
        | _ =>
            obtain ⟨⟨rfl, -⟩, -⟩ : (_ = verdict ∧ _) ∧ _ := by simpa using h
            cases hverdict

/-- An accepted append of an event of `r` adds it to the stream of `r`. -/
theorem World.Streams.append {r : ResponseId} {all : List AppendEvent} (h : w.Streams r all)
    (hid : event.responseId = r) {seq : ℕ}
    (hok : (exec (.eventLog (.append event)) w).1 = .ok seq) :
    (exec (.eventLog (.append event)) w).2.Streams r (all ++ [event]) := by
  have hkept : w.Logged r → (exec (.eventLog (.append event)) w).2.Logged r := by
    intro _
    rcases append_cases event w with ⟨e, heq, -⟩ | ⟨-, -, heq⟩
    · rw [heq] at hok
      cases hok
    · rw [heq, ← hid]
      simp [World.Logged, EventLogStore.pushed]
  have hcall := h.call hkept
  rw [hok] at hcall
  simpa [assigned, hid] using hcall

end Push

/-! ## Every run -/

/-- A sink and the stream it writes to agree, and the sink has counted the items that were added. -/
structure EventSink.Agrees (s : EventSink) (r : ResponseId) (calls : List SinkCall)
    (all : List AppendEvent) : Prop where
  responseId : s.responseId = r
  outputIndex : s.outputIndex = (calls.filter SinkCall.adds).length
  mirrors : s.Mirrors (replayed all)

section Answer

variable {w w' : World} {s s' : EventSink} {r : ResponseId} {calls : List SinkCall}
  {all : List AppendEvent} {c : SinkCall} {reply : c.Reply}

/-- A call of the sink that was accepted extends the stream, and both go on to agree. -/
theorem EventSink.Agrees.answer (h : s.Agrees r calls all) (hstream : w.Streams r all)
    (hrun : (answer c s).run exec w = some ((reply, s'), w')) (haccepted : c.accepted reply = true)
    (hadded : ((calls ++ [c]).filter SinkCall.adds).length < 2 ^ 32) :
    ∃ all', w'.Streams r all' ∧ s'.Agrees r (calls ++ [c]) all' := by
  obtain ⟨hid, hindex, hmirrors⟩ := h
  have hpushed : ∀ {s₁ : EventSink} {event : AppendEvent} {verdict : Except SinkError SinkVerdict},
      (s₁.push event).run exec w = some ((verdict, s'), w') → wasAppended verdict = true →
      event.responseId = r → s₁.responseId = r →
      s₁.outputIndex = ((calls ++ [c]).filter SinkCall.adds).length →
      s₁.Mirrors ((replayed all).step ⟨all.length, event⟩) →
      ∃ all', w'.Streams r all' ∧ s'.Agrees r (calls ++ [c]) all' := by
    intro s₁ event verdict hpush hverdict hevent hid' hcount hnext
    obtain ⟨rfl, rfl, seq, hok⟩ := run_push hpush hverdict
    refine ⟨all ++ [event], hstream.append hevent hok, hid', hcount, ?_⟩
    rwa [replayed_snoc]
  have hcount : ∀ c' : SinkCall, c'.adds = false →
      s.outputIndex = ((calls ++ [c']).filter SinkCall.adds).length := by
    intro c' hc'
    simp [hindex, hc']
  cases c with
  | textDelta text =>
      exact hpushed hrun haccepted hid hid (hcount _ rfl) (hmirrors.textDelta _ _ _ _)
  | outputItemAdded item =>
      have hlength : ((calls ++ [SinkCall.outputItemAdded item]).filter SinkCall.adds).length =
          s.outputIndex + 1 := by
        rw [List.filter_append, List.length_append, ← hindex]
        rfl
      rw [hlength] at hadded
      refine hpushed hrun haccepted hid hid ?_ (hmirrors.added _ item hadded)
      rw [hlength]
      exact Nat.mod_eq_of_lt hadded
  | outputItemDone item =>
      exact hpushed hrun haccepted hid hid (hcount _ rfl) (hmirrors.done _ item)
  | cancelled =>
      obtain ⟨⟨-, rfl⟩, rfl⟩ : (_ ∧ s = s') ∧
          (exec (.ledger (.checkAttempt s.responseId s.attempt)) w).2 = w' := by
        simpa [EventSink.answer] using hrun
      exact ⟨all, hstream, hid, hcount _ rfl, hmirrors⟩
  | _ =>
      exact hpushed hrun haccepted hid hid (hcount _ rfl) (hmirrors.same rfl rfl rfl rfl rfl)

end Answer

section Runs

variable {r : ResponseId} {attempt : Attempt} {w₀ w : World} {s : EventSink}
  {calls : List SinkCall} {all₀ : List AppendEvent} {log : ResponseLog} {rounds : ℕ}

/-- What others do leaves sink and stream in agreement. -/
theorem EventSink.Agrees.aside {all : List AppendEvent} (h : s.Agrees r calls all)
    (hstream : w.Streams r all) {c : Call} (haside : w.Aside r c) :
    ∃ all', (exec c w).2.Streams r all' ∧ s.Agrees r calls all' := by
  have hcall := hstream.call haside.1
  refine ⟨_, hcall, h.responseId, h.outputIndex, ?_⟩
  cases hassigned : assigned r ⟨c, (exec c w).1⟩ with
  | none => simpa using h.mirrors
  | some p =>
      have henvelope := haside.2 p.1 p.2 hassigned
      simp only [Option.map_some, Option.toList_some]
      rw [replayed_snoc, step_envelope henvelope]
      exact h.mirrors

/-- A fresh sink on a stream of envelopes stays in agreement with it. -/
theorem Streamed.agrees (hstart : w₀.Streams r all₀) (hplain : ∀ e ∈ all₀, e.Envelope)
    (h : Streamed { responseId := r, attempt := attempt } w₀ calls s w)
    (hadded : (calls.filter SinkCall.adds).length < 2 ^ 32) :
    ∃ all, w.Streams r all ∧ s.Agrees r calls all := by
  induction h with
  | nil =>
      refine ⟨all₀, hstart, rfl, rfl, ?_⟩
      rw [replayed_envelopes hplain]
      exact .fresh r attempt
  | @answer calls s w s' w' c reply _ hrun haccepted ih =>
      have hbefore : (calls.filter SinkCall.adds).length ≤
          ((calls ++ [c]).filter SinkCall.adds).length := by
        rw [List.filter_append, List.length_append]
        exact Nat.le_add_right _ _
      obtain ⟨all, hstream, hagrees⟩ := ih (hbefore.trans_lt hadded)
      exact hagrees.answer hstream hrun haccepted hadded
  | other c _ haside ih =>
      obtain ⟨all, hstream, hagrees⟩ := ih hadded
      exact hagrees.aside hstream haside

/-- Whatever a sink was called with, if its appends were accepted and its log has lost nothing, a
replay of the log returns what the sink remembers; a cancel or a reap archives what a failure
would. -/
theorem archives_agree (hstart : w₀.Streams r all₀) (hplain : ∀ e ∈ all₀, e.Envelope)
    (h : Streamed { responseId := r, attempt := attempt } w₀ calls s w)
    (hadded : (calls.filter SinkCall.adds).length < 2 ^ 32)
    (hlog : w.log.logs.lookup r = some log) (hswept : log.swept = false)
    (hevicted : log.evictedBefore = 0) (hcount : log.nextSeq ≤ u64Max)
    (hrounds : log.nextSeq < rounds) :
    (replayCompletedItems rounds r).run exec w =
        some (.ok (s.completed ++ s.partialItem.toList), w) ∧
      ∀ tenant c inputItems status now,
        (archiveReplayed rounds tenant c r inputItems status now).run exec w =
          (Conversations.appendTurn tenant c r ⟨inputItems, s.produced, none, {}, status⟩ now >>=
            fun _ ↦ (.ret () : Service Unit)).run exec w := by
  obtain ⟨all, hstream, hagrees⟩ := h.agrees hstart hplain hadded
  have hholds := hstream.holds hlog
  have hlength := hholds.length_ring
  have hring : log.ring = stored all := by
    rw [hholds.ring, hevicted, List.drop_zero]
  have hreplay : (replayCompletedItems rounds r).run exec w =
      some (.ok (s.completed ++ s.partialItem.toList), w) := by
    rw [run_replayCompletedItems (hholds.replays hlog hswept hevicted hcount) (by omega), hring]
    exact congrArg (fun found ↦ some (Except.ok found, w)) hagrees.mirrors.finish
  refine ⟨hreplay, fun tenant c inputItems status now ↦ ?_⟩
  unfold archiveReplayed
  rw [Prog.run_bind_of_eq hreplay]
  rfl

end Runs

/-! ## A message cut short -/

/-- Let a sink answer some calls, as long as every append is accepted. -/
def EventSink.answers : List SinkCall → EventSink → World → Option (EventSink × World)
  | [], s, w => some (s, w)
  | c :: calls, s, w =>
    match (answer c s).run exec w with
    | some ((reply, s'), w') => if c.accepted reply then answers calls s' w' else none
    | none => none

theorem streamed_of_answers {s₀ s s' : EventSink} {w₀ w w' : World} {before : List SinkCall}
    (calls : List SinkCall) (h : Streamed s₀ w₀ before s w)
    (hcalls : EventSink.answers calls s w = some (s', w')) :
    Streamed s₀ w₀ (before ++ calls) s' w' := by
  induction calls generalizing before s w with
  | nil =>
      obtain ⟨rfl, rfl⟩ : s = s' ∧ w = w' := by simpa [EventSink.answers] using hcalls
      rwa [List.append_nil]
  | cons c calls ih =>
      simp only [EventSink.answers] at hcalls
      split at hcalls
      · next reply s₁ w₁ hrun =>
          split_ifs at hcalls with haccepted
          have hnext := ih (h.answer c reply hrun haccepted) hcalls
          rwa [List.append_assoc] at hnext
      · cases hcalls

namespace Sample

/-- A finished tool call, and a message that stops half way. -/
def halfway : List SinkCall :=
  let call : ResponseItem := .functionCall "call-1" "search" "{}" none none
  [.outputItemAdded call, .outputItemDone call, .textDelta "lost",
    .outputItemAdded (.message .assistant [] (some "m") none), .textDelta "half ",
    .reasoningTextDelta "hm", .cancelled, .textDelta "way"]

/-- The sink of the sample's first claim. -/
def sink : EventSink := { responseId := id 1, attempt := Attempt.unclaimed.next }

end Sample

theorem archives_agree_halfway : ∃ s w,
    EventSink.answers Sample.halfway Sample.sink Sample.claimedOnce.2 = some (s, w) ∧
      s.produced.length = 2 ∧
      (replayCompletedItems 8 (Sample.id 1)).run exec w =
        some (.ok (s.completed ++ s.partialItem.toList), w) := by
  obtain ⟨⟨s, w⟩, hanswers, htest⟩ : ∃ x,
      EventSink.answers Sample.halfway Sample.sink Sample.claimedOnce.2 = some x ∧
        decide (x.1.produced.length = 2 ∧ ((x.2.log.logs.lookup (Sample.id 1)).any fun log ↦
          !log.swept && decide (log.evictedBefore = 0 ∧ log.nextSeq = 7)) = true) = true :=
    (Option.any_eq_true _ _).mp (by decide +kernel)
  obtain ⟨hproduced, hlog⟩ := of_decide_eq_true htest
  obtain ⟨log, hlookup, hlog⟩ := (Option.any_eq_true _ _).mp hlog
  obtain ⟨hswept, hcounts⟩ := Bool.and_eq_true_iff.mp hlog
  obtain ⟨hevicted, hcount⟩ := of_decide_eq_true hcounts
  have hempty : Sample.claimedOnce.2.log.logs.lookup (Sample.id 1) = none := by decide +kernel
  have hstreamed : Streamed Sample.sink Sample.claimedOnce.2 ([] ++ Sample.halfway) s w :=
    streamed_of_answers _ .nil hanswers
  have hadded : (([] ++ Sample.halfway).filter SinkCall.adds).length < 2 ^ 32 := by
    decide +kernel
  have hword : log.nextSeq ≤ u64Max := by
    rw [hcount]
    decide
  have hagree := archives_agree (streams_of_none hempty) (fun e he ↦ by cases he) hstreamed hadded
    hlookup (by simpa using hswept) hevicted hword (by omega : log.nextSeq < 8)
  exact ⟨s, w, hanswers, hproduced, hagree.1⟩

end NovaChat
