import NovaChat.Turn.Programs

/-!
# The terminal paths keep to the protocol

Execution, cancellation and the tick, each from its claim on a response to the end of its
stream.  What they share is `follows_archiveReplayed`: an archive that depends on a replay
leaves its entry cleared whichever way the replay goes.
-/

namespace NovaChat

open Interact Prog

/-! ## Replays -/

/-- The entry a replay was for afterwards: the others are untouched, and it is the same turn. -/
def Settled (won : List Settlement) (e : Settlement) (s : Stage) : Prop :=
  ∃ won' : List Settlement, s = .settling won' ∧
    (∃ a, { e with archive := a } ∈ won' ∧ Settlement.Cleared { e with archive := a }) ∧
    ∀ e' ∈ won, e'.id ≠ e.id → e' ∈ won'

theorem Settled.of_cleared {won : List Settlement} {e : Settlement} (he : e ∈ won)
    (hcleared : e.Cleared) : Settled won e (.settling won) :=
  ⟨won, rfl, ⟨e.archive, he, hcleared⟩, fun _ h _ ↦ h⟩

theorem Settled.of_map {won : List Settlement} {e : Settlement} {t : TurnInfo}
    {f : Settlement → Settlement} {a : Archive} (he : e ∈ won) (ht : e.turn = some t)
    (hf : f e = { e with archive := a }) (ha : a ≠ .pending)
    (hother : ∀ e', e'.id ≠ e.id → f e' = e') : Settled won e (.settling (won.map f)) := by
  refine ⟨_, rfl, ⟨a, hf ▸ List.mem_map_of_mem he, t, ht, Or.inr ha⟩, fun e' he' hid ↦ ?_⟩
  exact hother e' hid ▸ List.mem_map_of_mem he'

theorem follows_replayCompletedItems (won : List Settlement) (rounds : ℕ) (id : ResponseId) :
    turn.Follows
      (fun s r ↦ s = .settling (if r.isOk then won else won.map (Settlement.excuse id)))
      (.settling won) (replayCompletedItems rounds id) := by
  have hrest : ∀ (s : Stage) (_ : Option ℕ × Replay), s = .settling won → s.Restful := by
    rintro s i rfl
    exact trivial
  refine Session.Follows.iterate (S := turn) hrest ?_ rounds rfl
  · rintro s i rfl
    refine ⟨.replay id i.1 replayPage, fun r _ ↦ ?_⟩
    rcases r with e | batch
    · exact rfl
    · cases batch <;> exact rfl

/-- Archiving from a replay settles the entry: stored, refused, or excused. -/
theorem follows_archiveReplayed {won : List Settlement} {e : Settlement} {t : TurnInfo}
    {c : ConversationId} (rounds : ℕ) (tenant : TenantId) (status : ResponseStatus) (now : ℕ)
    (he : e ∈ won) (hpending : e.archive = .pending) (ht : e.turn = some t)
    (hhome : t.home = some c) :
    turn.Follows (fun s _ ↦ Settled won e s) (.settling won)
      (archiveReplayed rounds tenant c e.id t.input status now) := by
  refine (follows_replayCompletedItems won rounds e.id).bind fun s r hs ↦ ?_
  subst hs
  rcases r with err | items
  · refine Settled.of_map (a := .excused) he ht ?_ (by simp) fun e' hid ↦ ?_
    · simp [Settlement.excuse, hpending]
    · simp [Settlement.excuse, hid]
  · refine ⟨.archive tenant now he hpending ht hhome rfl, fun r _ ↦ ?_⟩
    refine Settled.of_map (a := if r.isOk then .stored else .refused) he ht ?_ ?_ fun e' hid ↦ ?_
    · simp [Settlement.archived]
    · split_ifs <;> simp
    · simp [Settlement.archived, hid]

theorem follows_closing {α : Type} {post : Stage → α → Prop} {won : List Settlement}
    {e : Settlement} (he : e ∈ won) {event : AppendEvent} (hid : event.responseId = e.id)
    (hattempt : event.attempt = none) (hkind : event.kind.isTerminal = true)
    (now retain : ℕ) {k : Service α} (hk : turn.Follows post (.settling won) k) :
    turn.Follows post (.settling won) (EventLog.append event >>= fun _ ↦
      EventLog.close e.id now retain >>= fun _ ↦ k) := by
  refine ⟨.finish he hid hattempt hkind, fun r _ ↦ ?_⟩
  have hstage : turn.next (.settling won) (.eventLog (.append event)) r = .settling won := by
    cases r <;> rfl
  rw [hstage]
  exact ⟨.close now retain he, fun _ _ ↦ hk⟩

/-! ## The tick -/

namespace Settlement

/-- The entry a reap leaves for one claim. -/
def ofClaim (a : AbortedClaim) : Settlement := ⟨a.responseId, some a.turnInfo, .pending⟩

end Settlement

theorem follows_settleReaped {won : List Settlement} (cfg : Config) (rounds now : ℕ)
    {a : AbortedClaim} (he : Settlement.ofClaim a ∈ won) :
    turn.Follows
      (fun s _ ↦ ∃ won', s = .settling won' ∧ ∀ e' ∈ won, e'.id ≠ a.responseId → e' ∈ won')
      (.settling won) (settleReaped cfg rounds now a) := by
  refine follows_closing he rfl rfl rfl now cfg.retainAfterTerminalMs ?_
  -- The marker goes back last, from whatever the archive has left.
  have hrelease : ∀ (c : ConversationId) (s : Stage), Settled won (Settlement.ofClaim a) s →
      turn.Follows
        (fun s _ ↦ ∃ won', s = .settling won' ∧ ∀ e' ∈ won, e'.id ≠ a.responseId → e' ∈ won')
        s (Conversations.releaseActive a.tenantId c a.responseId .failed now >>=
          fun _ ↦ (.ret () : Service Unit)) := by
    rintro c s ⟨won', rfl, ⟨arch, hmem, hcleared⟩, hkeep⟩
    exact ⟨.release a.tenantId c .failed now hmem hcleared,
      fun _ _ ↦ ⟨won', rfl, hkeep⟩⟩
  cases hconv : a.conversationId with
  | none => exact ⟨won, rfl, fun _ h _ ↦ h⟩
  | some c =>
      by_cases hstore : a.store = true
      · have hhome : a.turnInfo.home = some c := by
          simp [TurnInfo.home, AbortedClaim.turnInfo, hstore, hconv]
        simp only [hstore, if_true]
        exact (follows_archiveReplayed rounds a.tenantId .failed now he rfl rfl hhome).bind
          fun s _ hs ↦ hrelease c s hs
      · have hhome : a.turnInfo.home = none := by
          simp [TurnInfo.home, AbortedClaim.turnInfo, hstore]
        simp only [hstore]
        exact hrelease c _ (Settled.of_cleared he ⟨_, rfl, Or.inl hhome⟩)

/-- The claims of one tick are settled in turn, and each finds its own entry untouched. -/
theorem follows_settleAll (cfg : Config) (rounds now : ℕ) :
    ∀ (claims : List AbortedClaim) (won : List Settlement),
      (claims.map AbortedClaim.responseId).Nodup →
      (∀ a ∈ claims, Settlement.ofClaim a ∈ won) →
      turn.Follows (fun s _ ↦ ∃ won', s = .settling won') (.settling won)
        (settleAll cfg rounds now claims) := by
  intro claims
  induction claims with
  | nil => exact fun won _ _ ↦ ⟨won, rfl⟩
  | cons a claims ih =>
      intro won hnodup hmem
      obtain ⟨ha, hnodup⟩ := List.nodup_cons.mp hnodup
      refine (follows_settleReaped cfg rounds now (hmem a (by simp))).bind fun s _ hs ↦ ?_
      obtain ⟨won', rfl, hkeep⟩ := hs
      refine ih won' hnodup fun b hb ↦ hkeep _ (hmem b (by simp [hb])) ?_
      rintro heq
      exact ha (heq ▸ List.mem_map_of_mem hb)

theorem follows_tick (cfg : Config) (rounds : ℕ) :
    turn.Follows (fun s _ ↦ s.Restful) .idle (tick cfg rounds) := by
  refine ⟨.quiet trivial trivial, fun now _ ↦ ⟨.reap now cfg.heartbeatTtlMs, fun r hans ↦ ?_⟩⟩
  rcases r with e | aborted
  · exact trivial
  · refine (follows_settleAll cfg rounds now aborted _ (hans aborted rfl)
      fun a ha ↦ List.mem_map_of_mem ha).bind fun s _ hs ↦ ?_
    obtain ⟨won, rfl⟩ := hs
    exact ⟨.sweep now, fun _ _ ↦ trivial⟩

/-! ## Cancellation -/

/-- The archive comes before the marker, and is skipped when there is no home. -/
theorem follows_archiveCancelled (rounds : ℕ) (tenant : TenantId) (id : ResponseId)
    (x : ResponseRecord) (now : ℕ) :
    turn.Follows (fun s _ ↦ Settled [⟨id, some x.turnInfo, .pending⟩]
        ⟨id, some x.turnInfo, .pending⟩ s)
      (.settling [⟨id, some x.turnInfo, .pending⟩])
      (ResponsesService.archiveCancelled rounds tenant id (some x) now) := by
  have hskip : x.turnInfo.home = none → Settled [⟨id, some x.turnInfo, .pending⟩]
      ⟨id, some x.turnInfo, .pending⟩ (.settling [⟨id, some x.turnInfo, .pending⟩]) :=
    fun h ↦ .of_cleared (List.mem_singleton.mpr rfl) ⟨x.turnInfo, rfl, Or.inl h⟩
  simp only [ResponsesService.archiveCancelled]
  cases hstored : x.isStored with
  | false =>
      have hstore : x.spec.store = false := hstored
      exact hskip (by simp [TurnInfo.home, ResponseRecord.turnInfo, hstore])
  | true =>
      have hstore : x.spec.store = true := hstored
      cases hconv : x.conversationId with
      | none => exact hskip (by simp [TurnInfo.home, ResponseRecord.turnInfo, hstore, hconv])
      | some c =>
          have hhome : x.turnInfo.home = some c := by
            simp [TurnInfo.home, ResponseRecord.turnInfo, hstore, hconv]
          exact follows_archiveReplayed (e := ⟨id, some x.turnInfo, .pending⟩) rounds tenant
            .cancelled now (List.mem_singleton.mpr rfl) rfl rfl hhome

theorem follows_cancel (cfg : Config) (rounds : ℕ) (tenant : TenantId) (id : ResponseId) :
    turn.Follows (fun s _ ↦ s.Restful) .idle (ResponsesService.cancel cfg rounds tenant id) := by
  refine ⟨.quiet trivial trivial, fun now _ ↦ ⟨.cancel tenant id now, fun r _ ↦ ?_⟩⟩
  rcases r with e | ⟨⟩
  · exact trivial
  refine ⟨.look id, fun reply _ ↦ ?_⟩
  show turn.Follows _ (.settling [Settlement.learn id (found reply) ⟨id, none, .pending⟩]) _
  simp only [bind_eq, ret_bind]
  generalize found reply = record
  have hfinish : ∀ (won : List Settlement) (e : Settlement), e ∈ won → e.id = id →
      turn.Follows (fun s _ ↦ s.Restful) (.settling won)
        (EventLog.append (.lifecycle id .failed
            (ResponsesService.cancelledObject id record)) >>= fun _ ↦
          EventLog.close id now cfg.retainAfterTerminalMs >>= fun _ ↦
            (.ret (.ok (ResponsesService.cancelledObject id record)) :
              Service (Except ServiceError ResponseObject))) := by
    rintro won e he rfl
    exact follows_closing he rfl rfl rfl now cfg.retainAfterTerminalMs trivial
  cases record with
  | none => exact hfinish _ ⟨id, none, .pending⟩ (by simp [Settlement.learn]) rfl
  | some x =>
      have hlearn : Settlement.learn id (some x) ⟨id, none, .pending⟩ =
          ⟨id, some x.turnInfo, .pending⟩ := by simp [Settlement.learn]
      rw [hlearn]
      refine (follows_archiveCancelled rounds tenant id x now).bind fun s _ hs ↦ ?_
      obtain ⟨won, rfl, ⟨a, hmem, hcleared⟩, -⟩ := hs
      unfold ResponsesService.releaseCancelled
      simp only [Option.bind_some]
      cases hconv : x.conversationId with
      | none => exact hfinish won _ hmem rfl
      | some c =>
          exact ⟨.clock, fun now' _ ↦ ⟨.release tenant c .cancelled now' hmem hcleared,
            fun _ _ ↦ hfinish won _ hmem rfl⟩⟩

/-! ## Execution -/

/-- A sink that pushes under the fence of its record. -/
def SinkFor (record : ResponseRecord) (s : Stage) (sink : EventSink) : Prop :=
  s = .serving record ∧ sink.responseId = record.responseId ∧ sink.attempt = record.attempt

theorem follows_push {record : ResponseRecord} {sink : EventSink} {event : AppendEvent}
    (hsink : SinkFor record (.serving record) sink) (hid : event.responseId = sink.responseId)
    (hattempt : event.attempt = some sink.attempt) (hkind : event.kind.isTerminal = false) :
    turn.Follows (fun s r ↦ SinkFor record s r.2) (.serving record) (sink.push event) := by
  obtain ⟨-, hsid, hsattempt⟩ := hsink
  unfold EventSink.push
  split
  · exact ⟨rfl, hsid, hsattempt⟩
  · refine ⟨.emit (hid.trans hsid) (hattempt.trans (by rw [hsattempt])) hkind, fun r _ ↦ ?_⟩
    rcases r with e | seq
    · cases e <;> exact ⟨rfl, hsid, hsattempt⟩
    · exact ⟨rfl, hsid, hsattempt⟩

theorem follows_answer {record : ResponseRecord} (s : Stage) (c : SinkCall) (sink : EventSink)
    (h : SinkFor record s sink) :
    turn.Follows (fun s r ↦ SinkFor record s r.2) s (EventSink.answer c sink) := by
  obtain ⟨rfl, hid, hattempt⟩ := h
  cases c with
  | cancelled => exact ⟨.quiet trivial trivial, fun _ _ ↦ ⟨rfl, hid, hattempt⟩⟩
  | _ => exact follows_push ⟨rfl, hid, hattempt⟩ rfl rfl rfl

theorem follows_execute (rt : AgentRuntime) (claimed : ClaimedResponse)
    (snapshot : ResolvedContext) :
    turn.Follows (fun s r ↦ SinkFor claimed.record s r.2) (.serving claimed.record)
      (rt.execute claimed snapshot) := by
  refine Session.Follows.handleWith (S := turn) ?_ (fun s c x ↦ follows_answer s c x) _
    ⟨rfl, rfl, rfl⟩
  rintro s x ⟨rfl, -⟩
  exact trivial

/-- What a runtime owes a record it completed, before it archived anything. -/
def ResponseRecord.owed (x : ResponseRecord) : Settlement :=
  ⟨x.responseId, some x.turnInfo, .pending⟩

/-- The stages in which a runtime may settle a record: with its entry cleared, or with no
conversation port to archive to or to give the marker back by. -/
def Settling (rt : AgentRuntime) (record : ResponseRecord) (s : Stage) : Prop :=
  Settled [record.owed] record.owed s ∨ rt.conversations = false ∧ s = .settling [record.owed]

theorem Settling.of_homeless (rt : AgentRuntime) {record : ResponseRecord}
    (h : record.turnInfo.home = none) : Settling rt record (.settling [record.owed]) :=
  Or.inl (.of_cleared (List.mem_singleton.mpr rfl) ⟨record.turnInfo, rfl, Or.inl h⟩)

theorem ResponseRecord.turnInfo_home (x : ResponseRecord) :
    x.turnInfo.home = if x.isStored then x.conversationId else none := rfl

theorem follows_appendTurn (rt : AgentRuntime) {record : ResponseRecord} {c : ConversationId}
    (hstored : record.isStored = true) (hconv : record.conversationId = some c)
    (produced : List ResponseItem) (reasoning : Option String) (usage : Usage)
    (status : ResponseStatus) (now : ℕ) :
    turn.Follows (fun s _ ↦ Settling rt record s) (.settling [record.owed])
      (rt.appendTurn record produced reasoning usage status now) := by
  have hhome : record.turnInfo.home = some c := by
    simp [ResponseRecord.turnInfo_home, hstored, hconv]
  simp only [AgentRuntime.appendTurn, hconv]
  cases hports : rt.conversations with
  | false => exact Or.inr ⟨hports, rfl⟩
  | true =>
      refine ⟨.archive (e := record.owed) record.tenantId now (List.mem_singleton.mpr rfl) rfl
        rfl hhome rfl, fun r _ ↦ Or.inl ?_⟩
      refine Settled.of_map (a := if r.isOk then .stored else .refused)
        (List.mem_singleton.mpr rfl) rfl ?_ ?_ fun e' hid ↦ ?_
      · simp [Settlement.archived, ResponseRecord.owed]
      · split_ifs <;> simp
      · have hne : e'.id ≠ record.responseId := hid
        simp [Settlement.archived, hne]

theorem follows_storeOutput (rt : AgentRuntime) (record : ResponseRecord)
    (output : TerminalOutput) (now : ℕ) :
    turn.Follows (fun s _ ↦ Settling rt record s) (.settling [record.owed])
      (rt.storeOutput record output now) := by
  simp only [AgentRuntime.storeOutput]
  by_cases hstored : record.isStored = true
  · simp only [hstored, if_true]
    cases hconv : record.conversationId with
    | none => exact .of_homeless rt (by simp [ResponseRecord.turnInfo_home, hconv])
    | some c => exact follows_appendTurn rt hstored hconv _ _ _ _ now
  · simp only [hstored]
    exact .of_homeless rt (by simp [ResponseRecord.turnInfo_home, hstored])

theorem follows_archiveFailed (rt : AgentRuntime) (record : ResponseRecord) (usage : Usage)
    (produced : List ResponseItem) (now : ℕ) :
    turn.Follows (fun s _ ↦ Settling rt record s) (.settling [record.owed])
      (rt.archiveFailed record usage produced now) := by
  simp only [AgentRuntime.archiveFailed]
  by_cases hstored : record.isStored = true
  · cases hconv : record.conversationId with
    | none =>
        simp only [hstored, Option.isSome_none, Bool.and_false]
        exact .of_homeless rt (by simp [ResponseRecord.turnInfo_home, hconv])
    | some c =>
        simp only [hstored, Option.isSome_some, Bool.and_self, if_true]
        exact (follows_appendTurn rt hstored hconv _ _ _ _ now).bind fun _ _ h ↦ h
  · simp only [hstored, Bool.false_and]
    exact .of_homeless rt (by simp [ResponseRecord.turnInfo_home, hstored])

/-- Settling leaves an entry of the record behind, by which its stream is closed. -/
theorem follows_settle (rt : AgentRuntime) (record : ResponseRecord) (status : ResponseStatus)
    (advanceTail : Bool) (now : ℕ) {s : Stage} (hs : Settling rt record s) :
    turn.Follows (fun s _ ↦ ∃ won e, s = .settling won ∧ e ∈ won ∧ e.id = record.responseId) s
      (rt.settle record status advanceTail now) := by
  have hdone : ∃ won e, s = .settling won ∧ e ∈ won ∧ e.id = record.responseId := by
    rcases hs with ⟨won, rfl, ⟨a, hmem, -⟩, -⟩ | ⟨-, rfl⟩
    · exact ⟨won, _, rfl, hmem, rfl⟩
    · exact ⟨_, record.owed, rfl, List.mem_singleton.mpr rfl, rfl⟩
  simp only [AgentRuntime.settle]
  cases hports : rt.conversations with
  | false => exact hdone
  | true =>
      cases hconv : record.conversationId with
      | none => exact hdone
      | some c =>
          rcases hs with ⟨won, rfl, ⟨a, hmem, hcleared⟩, -⟩ | ⟨hnone, -⟩
          · have hrelease : turn.Follows
                (fun s _ ↦ ∃ won e, s = .settling won ∧ e ∈ won ∧ e.id = record.responseId)
                (.settling won)
                (Conversations.releaseActive record.tenantId c record.responseId status now >>=
                  fun _ ↦ (.ret () : Service Unit)) :=
              ⟨.release record.tenantId c status now hmem hcleared,
                fun _ _ ↦ ⟨won, _, rfl, hmem, rfl⟩⟩
            cases advanceTail with
            | false => exact hrelease
            | true =>
                exact ⟨.advance (e := { record.owed with archive := a }) record.tenantId c hmem,
                  fun _ _ ↦ hrelease⟩
          · rw [hports] at hnone
            cases hnone

theorem follows_closeStream (rt : AgentRuntime) {won : List Settlement} {e : Settlement}
    (he : e ∈ won) {kind : ResponseEventKind} (hkind : kind.isTerminal = true)
    (object : ResponseObject) (now : ℕ) :
    turn.Follows (fun s _ ↦ s.Restful) (.settling won)
      (rt.closeStream e.id kind object now) :=
  follows_closing he rfl rfl hkind now rt.retainAfterTerminalMs trivial

theorem follows_look {α : Type} {post : Stage → α → Prop} {won : List Settlement} {e : Settlement}
    (he : e ∈ won) (id : ResponseId)
    {k : Except LedgerError (Option ResponseRecord) → Service α}
    (hk : ∀ (won : List Settlement) (e' : Settlement), e' ∈ won → e'.id = e.id →
      ∀ r, turn.Follows post (.settling won) (k r)) :
    turn.Follows post (.settling won) (Ledger.get id >>= k) :=
  ⟨.look id, fun r _ ↦ hk _ _ (List.mem_map_of_mem he) (Settlement.learn_id _ _ _) r⟩

theorem follows_complete (rt : AgentRuntime) (record : ResponseRecord) (output : TerminalOutput)
    (now : ℕ) :
    turn.Follows (fun s _ ↦ s.Restful) (.serving record)
      (rt.complete record record.attempt output now) := by
  refine ⟨.complete output.status output.usage now, fun r _ ↦ ?_⟩
  rcases r with e | ⟨⟩
  · exact trivial
  refine (follows_storeOutput rt record output now).bind fun s stored hs ↦ ?_
  refine (follows_settle rt record output.status stored now hs).bind fun s _ hs ↦ ?_
  obtain ⟨won, e, rfl, hmem, hid⟩ := hs
  split_ifs
  · exact trivial
  · refine follows_look hmem _ fun won' e' hmem' hid' r ↦ ?_
    have hkind : (AgentRuntime.completedKind output.status).isTerminal = true := by
      cases output.status <;> rfl
    rw [← hid, ← hid']
    exact (follows_closeStream rt hmem' hkind _ now).bind fun _ _ h ↦ h

theorem follows_fail (rt : AgentRuntime) (record : ResponseRecord) (usage : Usage)
    (produced : List ResponseItem) (now : ℕ) :
    turn.Follows (fun s _ ↦ s.Restful) (.serving record)
      (rt.fail record record.attempt usage produced now) := by
  refine ⟨.complete .failed usage now, fun r _ ↦ ?_⟩
  rcases r with e | ⟨⟩
  · exact trivial
  refine (follows_archiveFailed rt record usage produced now).bind fun s _ hs ↦ ?_
  refine (follows_settle rt record .failed false now hs).bind fun s _ hs ↦ ?_
  obtain ⟨won, e, rfl, hmem, hid⟩ := hs
  refine follows_look hmem _ fun won' e' hmem' hid' r ↦ ?_
  rw [← hid, ← hid']
  exact (follows_closeStream rt hmem' rfl _ now).bind fun _ _ h ↦ h

theorem follows_serve (rt : AgentRuntime) (rounds : ℕ) (claimed : ClaimedResponse) (now : ℕ) :
    turn.Follows (fun s _ ↦ s.Restful) (.serving claimed.record)
      (rt.serve rounds claimed now) := by
  refine ⟨.emit rfl rfl rfl, fun r _ ↦ ?_⟩
  have hstage : ∀ event : AppendEvent, turn.next (.serving claimed.record)
      (.eventLog (.append event)) r = .serving claimed.record := by intro; cases r <;> rfl
  rw [hstage]
  refine (follows_reads (.serving claimed.record) trivial
    (reads_resolveSnapshot rt rounds claimed.record)).bind fun s snapshot hs ↦ ?_
  subst hs
  rcases snapshot with e | snapshot
  · exact follows_fail rt claimed.record {} [] now
  refine (follows_execute rt claimed snapshot).bind fun s r hs ↦ ?_
  obtain ⟨outcome, sink⟩ := r
  obtain ⟨rfl, -⟩ := hs
  rcases outcome with (_ | ⟨message, usage⟩) | outcome
  · exact trivial
  · exact follows_fail rt claimed.record usage sink.produced now
  · show turn.Follows _ _ (ite _ _ _)
    split
    · exact trivial
    · exact follows_complete rt claimed.record _ now

theorem follows_runOnce (rt : AgentRuntime) (rounds : ℕ) (agent : AgentId) (now : ℕ) :
    turn.Follows (fun s _ ↦ s.Restful) .idle (rt.runOnce rounds agent now) := by
  refine ⟨.claim agent now rt.execTtlMs, fun r _ ↦ ?_⟩
  rcases r with e | _ | claimed
  · exact trivial
  · exact trivial
  · exact follows_serve rt rounds claimed now

/-! ## The jobs of a turn -/

/-- The operations a turn consists of, and the switches set beside them. -/
def Job.OfTurn : Job → Prop
  | .create .. | .execute .. | .heartbeat _ | .cancel .. | .tick .. | .mode _ => True
  | _ => False

theorem follows_forget {α : Type} {p : Service α} {s : Stage}
    (h : turn.Follows (fun s _ ↦ s.Restful) s p) :
    turn.Follows (fun s _ ↦ s.Restful) s (Job.forget p) :=
  h.bind fun _ _ hs ↦ hs

/-- Every job of a turn keeps to the protocol, from the stage it starts in. -/
theorem follows_job {j : Job} (hj : j.OfTurn) :
    turn.Follows (fun s _ ↦ s.Restful) (Stage.first j) j.prog := by
  cases j with
  | create cfg rounds tenant spec key uuid =>
      exact follows_forget (follows_create cfg rounds tenant spec key uuid)
  | execute rt rounds agent =>
      exact ⟨.quiet trivial trivial, fun now _ ↦
        follows_forget (follows_runOnce rt rounds agent now)⟩
  | heartbeat agent =>
      exact ⟨.quiet trivial trivial, fun now _ ↦ ⟨.quiet trivial trivial, fun _ _ ↦ trivial⟩⟩
  | cancel cfg rounds tenant id => exact follows_forget (follows_cancel cfg rounds tenant id)
  | tick cfg rounds => exact follows_tick cfg rounds
  | mode c => exact ⟨.quiet trivial trivial, fun _ _ ↦ trivial⟩
  | delete => exact hj.elim
  | stream => exact hj.elim
  | purge => exact hj.elim
  | createConversation => exact hj.elim

end NovaChat
