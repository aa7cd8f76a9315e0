import NovaChat.Interact.Path
import NovaChat.Lifecycle.Stages

/-!
# Endings

An execution is an attempt, which comes to some verdict, and then the funnel that concludes it.
Whatever the calls on the way are answered, the funnel of a failed attempt ends the stream once
the ledger has taken the transition; the funnel of a finished one does so unless the output has
lost its home.
-/

namespace NovaChat

open Interact Prog

/-! ## Attempt and conclusion -/

/-- What an attempt came to. -/
inductive Verdict
  | superseded
  | failed (usage : Usage) (produced : List ResponseItem)
  | finished (output : TerminalOutput)

/-- The turn a verdict leaves to be archived. -/
def Verdict.commit (record : ResponseRecord) : Verdict → Option TurnCommit
  | .superseded => none
  | .failed usage produced => some ⟨record.spec.inputItems, produced, none, usage, .failed⟩
  | .finished output => some ⟨record.spec.inputItems, output.produced,
      AgentRuntime.reasoningOf output, output.usage, output.status⟩

namespace AgentRuntime

variable (rt : AgentRuntime)

/-- An execution up to its funnel. -/
def attempt (rounds : ℕ) (claimed : ClaimedResponse) : Service Verdict := do
  let _ ← EventLog.append (.lifecycleWithAttempt claimed.record.responseId .inProgress
    claimed.record.attempt (.withoutOutput claimed.record))
  match ← rt.resolveSnapshot rounds claimed.record with
  | .error _ => return .failed {} []
  | .ok snapshot =>
    match ← rt.execute claimed snapshot with
    | (.error .superseded, _) => return .superseded
    | (.error (.failed _ usage), sink) => return .failed usage sink.produced
    | (.ok outcome, sink) =>
      if sink.stopped then return .superseded
      else return .finished ⟨outcome.items, sink.reasoning, outcome.usage, outcome.status⟩

/-- The funnel of an attempt. -/
def conclude (claimed : ClaimedResponse) (now : ℕ) : Verdict → Service Executed
  | .superseded => return .superseded
  | .failed usage produced => rt.fail claimed.record claimed.record.attempt usage produced now
  | .finished output => rt.complete claimed.record claimed.record.attempt output now

theorem serve_eq (rounds : ℕ) (claimed : ClaimedResponse) (now : ℕ) :
    rt.serve rounds claimed now = rt.attempt rounds claimed >>= rt.conclude claimed now := by
  unfold serve attempt
  simp only [EventLog.append, perform_bind, call_bind, bind_assoc]
  congr 1
  funext r
  congr 1
  funext resolved
  rcases resolved with e | snapshot
  · rfl
  simp only [bind_assoc]
  congr 1
  funext result
  rcases result with ⟨e | outcome, sink⟩
  · cases e <;> rfl
  · simp only
    split <;> rfl

end AgentRuntime

/-! ## What an exchange does to a stream -/

/-- A terminal event of `id` was appended. -/
def endsStream (id : ResponseId) : Exchange Call Call.Reply → Bool
  | ⟨.eventLog (.append event), reply⟩ =>
    event.kind.isTerminal && decide (event.responseId = id) && reply.isOk
  | _ => false

/-- The log of `id` was closed. -/
def closesLog (id : ResponseId) : Exchange Call Call.Reply → Bool
  | ⟨.eventLog (.close i _ _), reply⟩ => decide (i = id) && reply.isOk
  | _ => false

/-- The ledger took the terminal transition of `id`. -/
def transits (id : ResponseId) : Exchange Call Call.Reply → Bool
  | ⟨.ledger (.complete i _ _ _ _), reply⟩ => decide (i = id) && reply.isOk
  | _ => false

/-- A turn was appended to a snapshot. -/
def storesTurn : Exchange Call Call.Reply → Bool
  | ⟨.conversations (.appendTurn ..), reply⟩ => reply.isOk
  | _ => false

/-- The event log does not fail where it is asked to append or to close. -/
def logAnswers : Exchange Call Call.Reply → Bool
  | ⟨.eventLog (.append _), reply⟩ => reply.isOk
  | ⟨.eventLog (.close ..), reply⟩ => reply.isOk
  | _ => true

/-- Subscribers of `id` see one end, and the log may be reclaimed. -/
def Concluded (id : ResponseId) (xs : Exchanges) : Prop :=
  xs.countP (endsStream id) = 1 ∧ xs.any (closesLog id) = true

/-- Calls that end no stream and take no transition. -/
def Call.Unending : Call → Prop
  | .eventLog (.append event) => event.kind.isTerminal = false
  | .eventLog (.close ..) | .ledger (.complete ..) => False
  | _ => True

section Unending

variable {id : ResponseId} {x : Exchange Call Call.Reply} {xs ys : Exchanges}

theorem endsStream_unending (h : x.call.Unending) : endsStream id x = false := by
  unfold endsStream
  split
  · next event reply => simp [show event.kind.isTerminal = false from h]
  · rfl

theorem closesLog_unending (h : x.call.Unending) : closesLog id x = false := by
  unfold closesLog
  split
  · exact h.elim
  · rfl

theorem transits_unending (h : x.call.Unending) : transits id x = false := by
  unfold transits
  split
  · exact h.elim
  · rfl

theorem concluded_append (h : ∀ x ∈ xs, x.call.Unending) :
    Concluded id (xs ++ ys) ↔ Concluded id ys := by
  have hcount : xs.countP (endsStream id) = 0 :=
    List.countP_eq_zero.mpr fun x hx ↦ by simp [endsStream_unending (h x hx)]
  have hclose : xs.any (closesLog id) = false :=
    List.any_eq_false.mpr fun x hx ↦ by simp [closesLog_unending (h x hx)]
  simp [Concluded, List.countP_append, List.any_append, hcount, hclose]

theorem transits_append (h : ∀ x ∈ xs, x.call.Unending) :
    (xs ++ ys).any (transits id) = ys.any (transits id) := by
  have hnone : xs.any (transits id) = false :=
    List.any_eq_false.mpr fun x hx ↦ by simp [transits_unending (h x hx)]
  simp [List.any_append, hnone]

end Unending

/-- What an attempt may call: reads, the probe of its fence, and the events of a run. -/
def Call.Reports : Call → Prop
  | .eventLog (.append event) => event.kind ≠ .created ∧ event.kind.isTerminal = false
  | .ledger (.checkAttempt ..) => True
  | c => c.Reads

theorem Call.Reads.reports {c : Call} (h : c.Reads) : c.Reports := by
  unfold Call.Reports
  split
  · exact h.elim
  · trivial
  · exact h

theorem Call.Reports.unending {c : Call} (h : c.Reports) : c.Unending := by
  unfold Call.Reports at h
  split at h
  · exact h.2
  · trivial
  · rcases c with _ | c | c | c | c | c <;> first | trivial | cases c <;> trivial

theorem reports_push {s : EventSink} {event : AppendEvent} (hkind : event.kind ≠ .created)
    (h : event.kind.isTerminal = false) : (s.push event).OnlyCalls Call.Reports := by
  unfold EventSink.push
  split
  · trivial
  · refine ⟨⟨hkind, h⟩, fun r ↦ ?_⟩
    rcases r with e | seq
    · cases e <;> trivial
    · trivial

/-- An attempt only reports, whatever its runner does. -/
theorem reports_attempt (rt : AgentRuntime) (rounds : ℕ) (claimed : ClaimedResponse) :
    (rt.attempt rounds claimed).OnlyCalls Call.Reports := by
  refine ⟨⟨nofun, rfl⟩, fun _ ↦ ?_⟩
  refine ((reads_resolveSnapshot rt rounds claimed.record).mono fun c ↦ Call.Reads.reports).bind
    fun resolved ↦ ?_
  rcases resolved with e | snapshot
  · trivial
  refine OnlyCalls.bind (OnlyCalls.handleWith (fun c s ↦ ?_) _ _) fun result ↦ ?_
  · cases c with
    | cancelled => exact ⟨trivial, fun _ ↦ trivial⟩
    | _ => exact reports_push nofun rfl
  · rcases result with ⟨e | outcome, sink⟩
    · cases e <;> trivial
    · show OnlyCalls _ (ite _ _ _)
      split <;> trivial

/-! ## The funnels -/

/-- The calls of a funnel that concludes with `commit`: the transition, the archive of the turn, the
settlement, and the end of the stream. -/
inductive Call.Concludes (record : ResponseRecord) (now : ℕ) (commit : TurnCommit) : Call → Prop
  | transit (attempt : Attempt) : Concludes record now commit
      (.ledger (.complete record.responseId attempt commit.status commit.usage now))
  | archive (conversation : ConversationId) : Concludes record now commit (.conversations
      (.appendTurn record.tenantId conversation record.responseId commit now))
  | settle {advanceTail : Bool} {c : Call} (h : c.Resolves record advanceTail) :
      Concludes record now commit c
  | consult : Concludes record now commit (.ledger (.get record.responseId))
  | terminal {kind : ResponseEventKind} (hkind : kind.isTerminal = true) (object : ResponseObject) :
      Concludes record now commit
        (.eventLog (.append (.lifecycle record.responseId kind object)))
  | close (retain : ℕ) : Concludes record now commit
      (.eventLog (.close record.responseId now retain))

section Concludes

variable {rt : AgentRuntime} {record : ResponseRecord} {now : ℕ} {commit : TurnCommit}

theorem concludes_closing {kind : ResponseEventKind} {done : Executed}
    {object : Except LedgerError (Option ResponseRecord) → ResponseObject}
    (hkind : kind.isTerminal = true) :
    (Ledger.get record.responseId >>= fun reply ↦
      rt.closeStream record.responseId kind (object reply) now >>=
        fun _ ↦ (.ret done : Service Executed)).OnlyCalls (Call.Concludes record now commit) :=
  ⟨.consult, fun _ ↦ ⟨.terminal hkind _, fun _ ↦ ⟨.close _, fun _ ↦ trivial⟩⟩⟩

theorem concludes_appendTurn (produced : List ResponseItem) (reasoning : Option String)
    (usage : Usage) (status : ResponseStatus) :
    (rt.appendTurn record produced reasoning usage status now).OnlyCalls
      (Call.Concludes record now
        ⟨record.spec.inputItems, produced, reasoning, usage, status⟩) := by
  unfold AgentRuntime.appendTurn
  split
  · exact ⟨.archive _, fun _ ↦ trivial⟩
  · trivial

theorem concludes_fail (attempt : Attempt) (usage : Usage) (produced : List ResponseItem) :
    (rt.fail record attempt usage produced now).OnlyCalls (Call.Concludes record now
      ⟨record.spec.inputItems, produced, none, usage, .failed⟩) := by
  have harchive : (rt.archiveFailed record usage produced now).OnlyCalls (Call.Concludes record now
      ⟨record.spec.inputItems, produced, none, usage, .failed⟩) := by
    unfold AgentRuntime.archiveFailed
    split
    · exact (concludes_appendTurn ..).bind fun _ ↦ trivial
    · trivial
  refine ⟨.transit attempt, fun r ↦ ?_⟩
  rcases r with e | ⟨⟩
  · trivial
  · exact harchive.bind fun _ ↦ ((resolves_settle ..).mono fun _ ↦ .settle).bind fun _ ↦
      concludes_closing rfl

theorem concludes_complete (attempt : Attempt) (output : TerminalOutput) :
    (rt.complete record attempt output now).OnlyCalls (Call.Concludes record now
      ⟨record.spec.inputItems, output.produced, AgentRuntime.reasoningOf output, output.usage,
        output.status⟩) := by
  have hstore : (rt.storeOutput record output now).OnlyCalls (Call.Concludes record now
      ⟨record.spec.inputItems, output.produced, AgentRuntime.reasoningOf output, output.usage,
        output.status⟩) := by
    unfold AgentRuntime.storeOutput
    split
    · split
      · trivial
      · exact concludes_appendTurn ..
    · trivial
  refine ⟨.transit attempt, fun r ↦ ?_⟩
  rcases r with e | ⟨⟩
  · trivial
  refine hstore.bind fun stored ↦ ((resolves_settle ..).mono fun _ ↦ .settle).bind fun _ ↦ ?_
  show OnlyCalls _ (ite _ _ _)
  split
  · trivial
  · exact concludes_closing (by cases output.status <;> rfl)

/-- A funnel concludes with what its verdict leaves; a superseded attempt calls nothing more. -/
theorem concludes_conclude (claimed : ClaimedResponse) (verdict : Verdict) :
    (rt.conclude claimed now verdict).OnlyCalls fun c ↦ ∃ commit,
      verdict.commit claimed.record = some commit ∧ c.Concludes claimed.record now commit := by
  cases verdict with
  | superseded => trivial
  | failed usage produced => exact (concludes_fail ..).mono fun c hc ↦ ⟨_, rfl, hc⟩
  | finished output => exact (concludes_complete ..).mono fun c hc ↦ ⟨_, rfl, hc⟩

end Concludes

theorem path_closing {rt : AgentRuntime} {id : ResponseId} {kind : ResponseEventKind}
    {object : Except LedgerError (Option ResponseRecord) → ResponseObject} {now : ℕ}
    {done out : Executed} {xs : Exchanges} (hkind : kind.isTerminal = true)
    (h : Path (Ledger.get id >>= fun reply ↦ rt.closeStream id kind (object reply) now >>=
      fun _ ↦ (.ret done : Service Executed)) xs out)
    (hlog : ∀ x ∈ xs, logAnswers x = true) : Concluded id xs ∧ xs.any storesTurn = false := by
  simp only [AgentRuntime.closeStream, Ledger.get, EventLog.append, EventLog.close, perform_bind,
    call_bind, ret_bind, pure_eq, path_call, path_ret] at h
  obtain ⟨reply, ys, rfl, r, zs, rfl, r', us, rfl, rfl, -⟩ := h
  have happend : Except.isOk r = true := hlog ⟨.eventLog (.append _), r⟩ (by simp)
  have hclose : Except.isOk r' = true := hlog ⟨.eventLog (.close ..), r'⟩ (by simp)
  refine ⟨⟨?_, ?_⟩, by simp [storesTurn]⟩
  · simp [endsStream, AppendEvent.lifecycle, hkind, happend]
  · simp [closesLog, hclose]

/-- Calls that append no turn, and end nothing either. -/
def Call.Unstoring : Call → Prop
  | .conversations (.appendTurn ..) => False
  | c => c.Unending

theorem storesTurn_unstoring {x : Exchange Call Call.Reply} (h : x.call.Unstoring) :
    storesTurn x = false := by
  unfold storesTurn
  split
  · exact h.elim
  · rfl

theorem Call.Unstoring.unending {c : Call} (h : c.Unstoring) : c.Unending := by
  unfold Call.Unstoring at h
  split at h
  · exact h.elim
  · exact h

theorem unstoring_settle (rt : AgentRuntime) (record : ResponseRecord) (status : ResponseStatus)
    (advanceTail : Bool) (now : ℕ) :
    (rt.settle record status advanceTail now).OnlyCalls Call.Unstoring :=
  (resolves_settle ..).mono fun _ hc ↦ by cases hc <;> trivial

/-- Whether the output of a finished attempt has a durable home, given what was exchanged. -/
def Homed (rt : AgentRuntime) (record : ResponseRecord) (xs : Exchanges) : Prop :=
  record.isStored = true → record.conversationId.isSome = true →
    rt.conversations = true ∧ xs.any storesTurn = true

/-- Appending a turn is one call, where there is a conversation and a port to reach it by. -/
theorem path_appendTurn {rt : AgentRuntime} {record : ResponseRecord}
    {produced : List ResponseItem} {reasoning : Option String} {usage : Usage}
    {status : ResponseStatus} {now : ℕ} {stored : Bool} {xs : Exchanges}
    (h : Path (rt.appendTurn record produced reasoning usage status now) xs stored) :
    (∀ x ∈ xs, x.call.Unending) ∧ stored = xs.any storesTurn ∧
      (stored = true → rt.conversations = true) := by
  unfold AgentRuntime.appendTurn at h
  split at h
  · next c hport hconv =>
      simp only [Conversations.appendTurn, perform_bind, pure_eq, path_call, path_ret] at h
      obtain ⟨reply, ys, rfl, rfl, rfl⟩ := h
      exact ⟨by simp [Call.Unending], by simp [storesTurn], fun _ ↦ hport⟩
  · simp only [pure_eq, path_ret] at h
    obtain ⟨rfl, rfl⟩ := h
    exact ⟨by simp, rfl, Bool.noConfusion⟩

theorem path_storeOutput {rt : AgentRuntime} {record : ResponseRecord} {output : TerminalOutput}
    {now : ℕ} {stored : Bool} {xs : Exchanges}
    (h : Path (rt.storeOutput record output now) xs stored) :
    (∀ x ∈ xs, x.call.Unending) ∧
      ((record.isStored && !stored) = false ↔ Homed rt record xs) := by
  unfold AgentRuntime.storeOutput at h
  split at h
  · next hstored =>
      split at h
      · next hconv =>
          obtain ⟨rfl, rfl⟩ := path_ret.mp h
          exact ⟨by simp, by simp [Homed, hconv]⟩
      · next c hconv =>
          obtain ⟨hcalls, heq, hport⟩ := path_appendTurn h
          refine ⟨hcalls, ?_⟩
          simp only [Homed, hstored, hconv, Option.isSome_some, forall_const, Bool.true_and,
            Bool.not_eq_false', ← heq]
          exact ⟨fun h ↦ ⟨hport h, h⟩, fun h ↦ h.2⟩
  · next hstored =>
      obtain ⟨rfl, rfl⟩ := path_ret.mp h
      exact ⟨by simp, by simp [Homed, hstored]⟩

theorem concluded_transit {id i : ResponseId} {a : Attempt} {status : ResponseStatus}
    {usage : Usage} {now : ℕ} {r : Except LedgerError Unit} {xs : Exchanges} :
    Concluded id (⟨.ledger (.complete i a status usage now), r⟩ :: xs) ↔ Concluded id xs := by
  simp [Concluded, endsStream, closesLog]

/-- The funnel of a finished attempt ends the stream exactly when the output found its home. -/
theorem complete_concludes {rt : AgentRuntime} {record : ResponseRecord} {attempt : Attempt}
    {output : TerminalOutput} {now : ℕ} {out : Executed} {xs : Exchanges}
    (h : Path (rt.complete record attempt output now) xs out)
    (htransits : xs.any (transits record.responseId) = true)
    (hlog : ∀ x ∈ xs, logAnswers x = true) :
    Concluded record.responseId xs ↔ Homed rt record xs := by
  unfold AgentRuntime.complete at h
  simp only [Ledger.complete, perform_bind, path_call] at h
  obtain ⟨r, ys, rfl, h⟩ := h
  rcases r with e | ⟨⟩
  · obtain ⟨rfl, -⟩ := path_ret.mp h
    simp [transits, Except.isOk, Except.toBool] at htransits
  simp only [path_bind] at h
  obtain ⟨stored, us, vs, rfl, hstore, ⟨⟩, ss, zs, rfl, hsettle, h⟩ := h
  obtain ⟨husing, hhomed⟩ := path_storeOutput hstore
  have hss : ∀ x ∈ ss, x.call.Unstoring := fun x hx ↦
    hsettle.onlyCalls (unstoring_settle rt record output.status stored now) hx
  have hpre : ∀ x ∈ us ++ ss, x.call.Unending := by
    intro x hx
    rcases List.mem_append.mp hx with hx | hx
    · exact husing x hx
    · exact (hss x hx).unending
  have hsstores : ss.any storesTurn = false :=
    List.any_eq_false.mpr fun x hx ↦ by simp [storesTurn_unstoring (hss x hx)]
  -- Only the append of the turn can give the output a home.
  have hhome : zs.any storesTurn = false →
      (Homed rt record (⟨.ledger (.complete record.responseId attempt output.status output.usage
        now), .ok ()⟩ :: (us ++ (ss ++ zs))) ↔ Homed rt record us) := by
    intro hzs
    simp [Homed, storesTurn, List.any_append, hsstores, hzs]
  rw [concluded_transit, ← List.append_assoc, concluded_append hpre, List.append_assoc]
  split at h
  · next hlost =>
      obtain ⟨rfl, -⟩ := path_ret.mp h
      rw [hhome rfl, ← hhomed, hlost]
      exact ⟨fun hc ↦ absurd hc.1 (by simp), fun hc ↦ by cases hc⟩
  · next hkept =>
      have hkind : (AgentRuntime.completedKind output.status).isTerminal = true := by
        cases output.status <;> rfl
      obtain ⟨hconcluded, hzs⟩ := path_closing hkind h fun x hx ↦ hlog x (by simp [hx])
      rw [hhome hzs, ← hhomed]
      exact ⟨fun _ ↦ by simpa using hkept, fun _ ↦ hconcluded⟩

theorem unending_of_conversing {c : Call} (hc : c.Conversing) : c.Unending := by
  rcases hc with hc | ⟨call, rfl⟩
  · exact hc.reports.unending
  · trivial

/-- The funnel of a failed attempt ends the stream whatever becomes of the conversation. -/
theorem fail_concludes {rt : AgentRuntime} {record : ResponseRecord} {attempt : Attempt}
    {usage : Usage} {produced : List ResponseItem} {now : ℕ} {out : Executed} {xs : Exchanges}
    (h : Path (rt.fail record attempt usage produced now) xs out)
    (htransits : xs.any (transits record.responseId) = true)
    (hlog : ∀ x ∈ xs, logAnswers x = true) : Concluded record.responseId xs := by
  unfold AgentRuntime.fail at h
  simp only [Ledger.complete, perform_bind, path_call] at h
  obtain ⟨r, ys, rfl, h⟩ := h
  rcases r with e | ⟨⟩
  · obtain ⟨rfl, -⟩ := path_ret.mp h
    simp [transits, Except.isOk, Except.toBool] at htransits
  simp only [path_bind (p := rt.archiveFailed _ _ _ _), path_bind (p := rt.settle _ _ _ _)] at h
  obtain ⟨⟨⟩, us, vs, rfl, harchive, ⟨⟩, ss, zs, rfl, hsettle, h⟩ := h
  have hpre : ∀ x ∈ us ++ ss, x.call.Unending := by
    intro x hx
    rcases List.mem_append.mp hx with hx | hx
    · exact unending_of_conversing
        (harchive.onlyCalls (archiving_archiveFailed rt record usage produced now) hx).conversing
    · exact (hsettle.onlyCalls (unstoring_settle rt record .failed false now) hx).unending
  rw [concluded_transit, ← List.append_assoc, concluded_append hpre]
  exact (path_closing rfl h fun x hx ↦ hlog x (by simp [hx])).1

/-! ## Executions -/

/-- Whether the output of an attempt, if it came to one, has its durable home. -/
def Verdict.homed (rt : AgentRuntime) (record : ResponseRecord) (xs : Exchanges) : Verdict → Prop
  | .finished _ => Homed rt record xs
  | _ => True

/-- Every execution is an attempt and its conclusion.  Where the ledger takes the transition and
the event log answers, the stream ends exactly once and its log is closed, if and only if the
output of a finished attempt has its durable home. -/
theorem serve_concludes_iff {rt : AgentRuntime} {rounds : ℕ} {claimed : ClaimedResponse} {now : ℕ}
    {out : Executed} {xs : Exchanges} (h : Path (rt.serve rounds claimed now) xs out)
    (htransits : xs.any (transits claimed.record.responseId) = true)
    (hlog : ∀ x ∈ xs, logAnswers x = true) :
    ∃ verdict ys zs, xs = ys ++ zs ∧ Path (rt.attempt rounds claimed) ys verdict ∧
      Path (rt.conclude claimed now verdict) zs out ∧
      (Concluded claimed.record.responseId xs ↔ verdict.homed rt claimed.record zs) := by
  rw [rt.serve_eq, path_bind] at h
  obtain ⟨verdict, ys, zs, rfl, hattempt, hconclude⟩ := h
  have hys : ∀ x ∈ ys, x.call.Unending := fun x hx ↦
    (hattempt.onlyCalls (reports_attempt rt rounds claimed) hx).unending
  have hzlog : ∀ x ∈ zs, logAnswers x = true := fun x hx ↦ hlog x (List.mem_append_right _ hx)
  rw [transits_append hys] at htransits
  refine ⟨verdict, ys, zs, rfl, hattempt, hconclude, ?_⟩
  rw [concluded_append hys]
  cases verdict with
  | superseded =>
      obtain ⟨rfl, -⟩ := path_ret.mp hconclude
      cases htransits
  | failed usage produced =>
      exact ⟨fun _ ↦ trivial, fun _ ↦ fail_concludes hconclude htransits hzlog⟩
  | finished output => exact complete_concludes hconclude htransits hzlog

/-! ## A conversation deleted meanwhile -/

instance (id : ResponseId) (xs : Exchanges) : Decidable (Concluded id xs) :=
  inferInstanceAs (Decidable (_ ∧ _))

namespace Sample

/-- A turn of the sample conversation is created and claimed. -/
def running : Except LedgerError (Option ClaimedResponse) × World :=
  match (ResponsesService.create cfg 4 tenant spec none ⟨1⟩).run exec world with
  | some (_, w) => exec (.ledger (.claim agent 0 60000)) w
  | none => (.ok none, world)

/-- The claim on that turn. -/
def taken : ClaimedResponse where
  record := MemResponseLedger.claimed
    (.queued (id 1) tenant spec (.forResponse (id 1)) 0 cfg.contentRetentionMs) agent
  execDeadlineMs := 60000

/-- Another caller deletes the conversation just before a turn would be appended to it. -/
def losing (c : Call) (w : World) : c.Reply × World :=
  exec c (match c with
    | .conversations (.appendTurn ..) => (exec (.conversations (.delete tenant talk)) w).2
    | _ => w)

/-- The transition of the sample turn is taken, and the event log answers throughout. -/
def answered (xs : Exchanges) : Bool := xs.any (transits (id 1)) && xs.all logAnswers

theorem taken_claimed : running.1 = .ok (some taken) := by rfl

end Sample

/-- The output has lost its conversation, and the stream never ends. -/
theorem lost_home : Sample.running.1 = .ok (some Sample.taken) ∧
    ∃ xs out, Path (Sample.runtime.serve 4 Sample.taken 0) xs out ∧
      xs.any (transits (Sample.id 1)) = true ∧ (∀ x ∈ xs, logAnswers x = true) ∧
      ¬ Concluded (Sample.id 1) xs := by
  obtain ⟨xs, out, hpath, htest⟩ := Path.exists_of_run Sample.losing
    (Sample.runtime.serve 4 Sample.taken 0) Sample.running.2
    (fun xs ↦ Sample.answered xs && decide (¬ Concluded (Sample.id 1) xs)) (by decide +kernel)
  obtain ⟨hanswered, hnot⟩ := Bool.and_eq_true_iff.mp htest
  obtain ⟨htransits, hlog⟩ := Bool.and_eq_true_iff.mp hanswered
  exact ⟨Sample.taken_claimed, xs, out, hpath, htransits, List.all_eq_true.mp hlog,
    of_decide_eq_true hnot⟩

theorem serve_concludes_taken : ∃ xs out, Path (Sample.runtime.serve 4 Sample.taken 0) xs out ∧
    ∃ verdict ys zs, xs = ys ++ zs ∧ Path (Sample.runtime.attempt 4 Sample.taken) ys verdict ∧
      Path (Sample.runtime.conclude Sample.taken 0 verdict) zs out ∧
      (Concluded (Sample.id 1) xs ↔ verdict.homed Sample.runtime Sample.taken.record zs) := by
  obtain ⟨xs, out, hpath, htest⟩ := Path.exists_of_run exec
    (Sample.runtime.serve 4 Sample.taken 0) Sample.running.2 Sample.answered (by decide +kernel)
  obtain ⟨htransits, hlog⟩ := Bool.and_eq_true_iff.mp htest
  exact ⟨xs, out, hpath, serve_concludes_iff hpath htransits (List.all_eq_true.mp hlog)⟩

end NovaChat
