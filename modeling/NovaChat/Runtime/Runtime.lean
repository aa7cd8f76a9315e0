import NovaChat.Runtime.Sink
import NovaChat.Service.Responses

/-!
# The agent runtime

Claim one queued response, run it, and commit the result: the ledger transition first, then
the snapshot, the tail, the marker and the terminal event.  The heartbeat task of a run is a
job of its own.
-/

namespace NovaChat

open Interact

/-- The orchestrator's dependencies and knobs.  `conversations` says whether a conversation
port is mounted. -/
structure AgentRuntime where
  runner : AgentRunner
  conversations : Bool := true
  execTtlMs : ℕ := 300000
  retainAfterTerminalMs : ℕ := 60000
  maxToolRounds : ℕ := 20

/-- What one execution attempt did. -/
inductive Executed
  | idle | completed | superseded | failed
  deriving DecidableEq, Repr

/-- Why the history a claim should run against could not be assembled. -/
inductive SnapshotUnavailable
  | chainBroken (id : ResponseId)
  | conversation (e : ConversationError)
  deriving DecidableEq

/-- What a finished run produced. -/
structure TerminalOutput where
  produced : List ResponseItem
  reasoning : String
  usage : Usage
  status : ResponseStatus

namespace AgentRuntime

variable (rt : AgentRuntime)

/-! ## Inherited context -/

def eventReplayPage : ℕ := 256

/-- The output of every lifecycle object in the stream, appended in order. -/
def bareRound (id : ResponseId) (s : Option ℕ × List ResponseItem) :
    Service ((Option ℕ × List ResponseItem) ⊕
      Except SnapshotUnavailable ResolvedContext) := do
  match ← EventLog.readAfter id s.1 eventReplayPage with
  | .error _ => return .inr (.error (.chainBroken id))
  | .ok [] => return .inr (.ok (.fromItems s.2 1))
  | .ok batch =>
    let items := batch.foldl
      (fun items e ↦ items ++ (e.responseObject.map ResponseObject.output).getD []) s.2
    if batch.any fun e ↦ e.kind.isTerminal then return .inr (.ok (.fromItems items 1))
    else return .inl (batch.getLast?.map ResponseEvent.sequenceNumber, items)

def reconstructBare (rounds : ℕ) (record : ResponseRecord) :
    Service (Except SnapshotUnavailable ResolvedContext) :=
  Prog.iterate (bareRound record.responseId) rounds (none, record.spec.inputItems)

def readSnapshot (tenant : TenantId) (id : ConversationId) :
    Service (Except SnapshotUnavailable ResolvedContext) := do
  if rt.conversations then
    match ← Conversations.readSnapshot tenant id with
    | .error e => return .error (.conversation e)
    | .ok resolved => return .ok resolved
  else return .error (.conversation (.store .unavailable))

/-- Resolve the context a claim inherits, from the record's anchor. -/
def resolveSnapshot (rounds : ℕ) (record : ResponseRecord) :
    Service (Except SnapshotUnavailable ResolvedContext) :=
  match record.anchor with
  | .root => return .ok {}
  | .conversation id => rt.readSnapshot record.tenantId id
  | .previous id => do
    match ← Ledger.get id with
    | .error _ => return .error (.chainBroken id)
    | .ok none => return .error (.chainBroken id)
    | .ok (some prev) =>
      match prev.anchor with
      | .conversation cid => rt.readSnapshot record.tenantId cid
      | .root => reconstructBare rounds prev
      | .previous _ => return .error (.chainBroken id)

/-! ## Terminal funnels -/

/-- Append this turn to its conversation's snapshot; whether it is durably stored. -/
def appendTurn (record : ResponseRecord) (produced : List ResponseItem)
    (reasoning : Option String) (usage : Usage) (status : ResponseStatus) (now : ℕ) :
    Service Bool :=
  match rt.conversations, record.conversationId with
  | true, some conversationId => do
    let reply ← Conversations.appendTurn record.tenantId conversationId record.responseId
      ⟨record.spec.inputItems, produced, reasoning, usage, status⟩ now
    return reply.isOk
  | _, _ => return false

/-- Advance the conversation tail when asked, and release the turn lock. -/
def settle (record : ResponseRecord) (status : ResponseStatus) (advanceTail : Bool) (now : ℕ) :
    Service Unit :=
  match rt.conversations, record.conversationId with
  | true, some conversationId => do
    if advanceTail then
      let _ ← Conversations.advance record.tenantId conversationId record.responseId
    let _ ← Conversations.releaseActive record.tenantId conversationId record.responseId
      status now
    return ()
  | _, _ => return ()

/-- Emit the terminal event and start the retention window. -/
def closeStream (id : ResponseId) (kind : ResponseEventKind) (object : ResponseObject)
    (now : ℕ) : Service Unit := do
  let _ ← EventLog.append (.lifecycle id kind object)
  let _ ← EventLog.close id now rt.retainAfterTerminalMs
  return ()

/-- A completed run's reasoning, if there is any. -/
def reasoningOf (output : TerminalOutput) : Option String :=
  if output.reasoning.isEmpty then none else some output.reasoning

/-- Whether a completed run's output found its durable home.  A bare response needs none. -/
def storeOutput (record : ResponseRecord) (output : TerminalOutput) (now : ℕ) : Service Bool :=
  if record.isStored then
    match record.conversationId with
    | none => return true
    | some _ =>
      rt.appendTurn record output.produced (reasoningOf output) output.usage output.status now
  else return false

/-- The terminal event of a run that produced output. -/
def completedKind : ResponseStatus → ResponseEventKind
  | .incomplete => .incomplete
  | _ => .completed

/-- Terminal funnel for a response that produced output. -/
def complete (record : ResponseRecord) (attempt : Attempt) (output : TerminalOutput) (now : ℕ) :
    Service Executed := do
  match ← Ledger.complete record.responseId attempt output.status output.usage now with
  | .error _ => return .failed
  | .ok () =>
    let outputStored ← rt.storeOutput record output now
    rt.settle record output.status outputStored now
    if record.isStored && !outputStored then return .failed
    else
      let reply ← Ledger.get record.responseId
      rt.closeStream record.responseId (completedKind output.status)
        (.new ((found reply).getD record) output.produced) now
      return .completed

/-- Archive the input of a failed turn, with whatever it produced. -/
def archiveFailed (record : ResponseRecord) (usage : Usage) (produced : List ResponseItem)
    (now : ℕ) : Service Unit := do
  if record.isStored && record.conversationId.isSome then
    let _ ← rt.appendTurn record produced none usage .failed now
    return ()
  else return ()

/-- Terminal funnel for a response that produced nothing usable. -/
def fail (record : ResponseRecord) (attempt : Attempt) (usage : Usage)
    (produced : List ResponseItem) (now : ℕ) : Service Executed := do
  match ← Ledger.complete record.responseId attempt .failed usage now with
  | .error _ => return .failed
  | .ok () =>
    rt.archiveFailed record usage produced now
    rt.settle record .failed false now
    let reply ← Ledger.get record.responseId
    rt.closeStream record.responseId .failed (.withoutOutput ((found reply).getD record)) now
    return .failed

/-! ## Execution -/

/-- The task of a claim: inherited items, then the turn's own input. -/
def task (claimed : ClaimedResponse) (snapshot : ResolvedContext) : AgentTask where
  params := claimed.record.spec.params
  items := snapshot.intoItems ++ claimed.record.spec.inputItems
  provenance := claimed.provenance
  maxToolRounds := rt.maxToolRounds

/-- Run the runner with its calls answered by a fresh sink. -/
def execute (claimed : ClaimedResponse) (snapshot : ResolvedContext) :
    Service (Except AgentError AgentOutcome × EventSink) :=
  (rt.runner (rt.task claimed snapshot)).handleWith EventSink.answer
    { responseId := claimed.record.responseId, attempt := claimed.record.attempt }

def serve (rounds : ℕ) (claimed : ClaimedResponse) (now : ℕ) : Service Executed := do
  let _ ← EventLog.append (.lifecycleWithAttempt claimed.record.responseId .inProgress
    claimed.record.attempt (.withoutOutput claimed.record))
  match ← rt.resolveSnapshot rounds claimed.record with
  | .error _ => rt.fail claimed.record claimed.record.attempt {} [] now
  | .ok snapshot =>
    match ← rt.execute claimed snapshot with
    | (.error .superseded, _) => return .superseded
    | (.error (.failed _ usage), sink) =>
      rt.fail claimed.record claimed.record.attempt usage sink.produced now
    | (.ok outcome, sink) =>
      if sink.stopped then return .superseded
      else
        rt.complete claimed.record claimed.record.attempt
          ⟨outcome.items, sink.reasoning, outcome.usage, outcome.status⟩ now

/-- Take one queued response and run it to a terminal state. -/
def runOnce (rounds : ℕ) (agent : AgentId) (now : ℕ) : Service Executed := do
  match ← Ledger.claim agent now rt.execTtlMs with
  | .ok (some claimed) => rt.serve rounds claimed now
  | .ok none => return .idle
  | .error _ => return .idle

end AgentRuntime

/-- One beat of the task that keeps a claim alive. -/
def heartbeat (agent : AgentId) : Service Unit := do
  let now ← nowMs
  let _ ← Ledger.heartbeat agent now
  return ()

end NovaChat
