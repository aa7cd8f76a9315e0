import NovaChat.Service.Sweep

/-!
# The responses service

Admission of a turn, its cancellation and its deletion, as programs over the ports.  Each
function makes the calls of the source in the source's order; `rounds` bounds the replays.
-/

namespace NovaChat

open Interact

/-- `.ok().flatten()` of a lookup. -/
def found (reply : Except LedgerError (Option ResponseRecord)) : Option ResponseRecord :=
  match reply with
  | .ok record => record
  | .error _ => none

namespace ResponsesService

/-! ## Inherited context -/

/-- Bounds are checked before creation and never truncate. -/
def checkBounds (limits : ChainLimits) (resolved : ResolvedContext) :
    Except ServiceError ResolvedContext :=
  if limits.maxDepth ≤ resolved.turns then .error (.context (.tooDeep limits.maxDepth))
  else if limits.maxItems < resolved.itemCount then
    .error (.context (.tooManyItems limits.maxItems))
  else if limits.maxBytes < resolved.bytes then .error (.context (.tooLarge limits.maxBytes))
  else .ok resolved

/-- One page of the replay: the latest object so far, and whether to stop. -/
def latestRound (cfg : Config) (id : ResponseId) (s : Option ℕ × Option ResponseObject) :
    Service ((Option ℕ × Option ResponseObject) ⊕
      Except ServiceError (Option ResponseObject)) := do
  match ← EventLog.readAfter id s.1 cfg.eventPage with
  | .error .unknown => return .inr (.ok s.2)
  | .error .expired => return .inr (.ok s.2)
  | .error e => return .inr (.error (.eventLog e))
  | .ok [] => return .inr (.ok s.2)
  | .ok batch =>
    let latest := batch.foldl (fun latest e ↦ e.responseObject.or latest) s.2
    if batch.any fun e ↦ e.kind.isTerminal then return .inr (.ok latest)
    else return .inl (batch.getLast?.map ResponseEvent.sequenceNumber, latest)

/-- Replay the stream for its latest lifecycle object. -/
def latestResponseObject (cfg : Config) (rounds : ℕ) (id : ResponseId) :
    Service (Except ServiceError (Option ResponseObject)) :=
  Prog.iterate (latestRound cfg id) rounds (none, none)

/-- Input from the record, output from its event stream. -/
def reconstructBare (cfg : Config) (rounds : ℕ) (record : ResponseRecord) :
    Service (Except ServiceError ResolvedContext) := do
  match ← latestResponseObject cfg rounds record.responseId with
  | .error e => return .error e
  | .ok object =>
    return .ok (.fromItems (record.spec.inputItems ++ (object.map ResponseObject.output).getD []) 1)

def readSnapshot (tenant : TenantId) (id : ConversationId) :
    Service (Except ServiceError ResolvedContext) := do
  match ← Conversations.readSnapshot tenant id with
  | .error e => return .error (.conversation e)
  | .ok resolved => return .ok resolved

/-- The context an anchor stands for, before any bound is checked. -/
def resolveAnchor (cfg : Config) (rounds : ℕ) (tenant : TenantId) :
    ContextAnchor → Service (Except ServiceError ResolvedContext)
  | .root => return .ok {}
  | .conversation id => readSnapshot tenant id
  | .previous id => do
    match ← Ledger.get id with
    | .error e => return .error (.ledger e)
    | .ok none => return .error (.context (.chainBroken id))
    | .ok (some record) =>
      if record.isReferencableBy tenant = false then
        if record.tenantId ≠ tenant then return .error (.context .crossTenant)
        else return .error (.context .notStored)
      else
        match record.anchor with
        | .conversation cid => readSnapshot tenant cid
        | .root => reconstructBare cfg rounds record
        | .previous _ => return .error (.context (.chainBroken id))

def resolveContext (cfg : Config) (rounds : ℕ) (tenant : TenantId) (anchor : ContextAnchor) :
    Service (Except ServiceError ResolvedContext) := do
  match ← resolveAnchor cfg rounds tenant anchor with
  | .error e => return .error e
  | .ok resolved => return checkBounds cfg.chain resolved

/-! ## Admission -/

/-- Whether a holder's lookup lets its marker be taken over: a terminal record does, and so
does no record at all. -/
def stale (reply : Except LedgerError (Option ResponseRecord)) : Bool :=
  ((found reply).map fun record ↦ record.status.isTerminal).getD true

/-- Take the turn marker, taking over one whose holder looks stale. -/
def acquireTurn (tenant : TenantId) (conversationId : ConversationId) (responseId : ResponseId) :
    Service (Except ServiceError Unit) := do
  match ← ConversationsService.acquireActive tenant conversationId responseId with
  | .ok _ => return .ok ()
  | .error (.busy holder) =>
    let holderRecord ← Ledger.get holder
    if stale holderRecord then
      match ← Conversations.releaseStaleActive tenant conversationId holder with
      | .error e => return .error (.conversation e)
      | .ok _ =>
        match ← ConversationsService.acquireActive tenant conversationId responseId with
        | .error e => return .error (.conversation e)
        | .ok _ => return .ok ()
    else return .error (.conversation (.busy holder))
  | .error e => return .error (.conversation e)

/-- Write the ledger, then announce the response. -/
def admitRecord (record : ResponseRecord) (key : IdempotencyKey) (now : ℕ) :
    Service (Except ServiceError CreateOutcome) := do
  match ← Ledger.create record key now with
  | .error e => return .error (.ledger e)
  | .ok (.accepted record) =>
    match ← EventLog.append (.lifecycle record.responseId .created (.withoutOutput record)) with
    | .error e => return .error (.eventLog e)
    | .ok _ => return .ok (.accepted record)
  | .ok outcome => return .ok outcome

/-- The admission gate of a turn: only a conversation has a marker to take. -/
def acquireFor (tenant : TenantId) (conversationId : Option ConversationId)
    (responseId : ResponseId) : Service (Except ServiceError Unit) :=
  match conversationId with
  | none => return .ok ()
  | some conversationId => acquireTurn tenant conversationId responseId

/-- Give the marker back after a failed admission; a failure to do so is only logged. -/
def releaseAfterFailedAdmission (tenant : TenantId) (conversationId : Option ConversationId)
    (responseId : ResponseId) : Service Unit :=
  match conversationId with
  | none => return ()
  | some conversationId => do
    let _ ← ConversationsService.releaseActive tenant conversationId responseId .failed
    return ()

/-- Admit with the marker in hand, and give it back on every other way out. -/
def admitOrRelease (tenant : TenantId) (conversationId : Option ConversationId)
    (record : ResponseRecord) (key : IdempotencyKey) (now : ℕ) :
    Service (Except ServiceError CreateOutcome) := do
  match ← admitRecord record key now with
  | .ok (.accepted record) => return .ok (.accepted record)
  | outcome =>
    releaseAfterFailedAdmission tenant conversationId record.responseId
    return outcome

/-- The record a create proposes to the ledger. -/
def proposed (cfg : Config) (tenant : TenantId) (spec : TurnSpec)
    (idempotencyKey : Option IdempotencyKey) (responseId : ResponseId) (now : ℕ) :
    ResponseRecord :=
  .queued responseId tenant spec (idempotencyKey.getD (.forResponse responseId)) now
    cfg.contentRetentionMs

/-- Create a generation under the response id minted from `uuid`: resolve the context, take
the turn marker, write the ledger, announce. -/
def create (cfg : Config) (rounds : ℕ) (tenant : TenantId) (spec : TurnSpec)
    (idempotencyKey : Option IdempotencyKey) (uuid : Uuid) :
    Service (Except ServiceError CreateOutcome) := do
  let now ← nowMs
  match ← resolveContext cfg rounds tenant spec.anchor with
  | .error e => return .error e
  | .ok _ =>
    let responseId : ResponseId := ⟨cfg.nodeTag, uuid⟩
    match ← acquireFor tenant spec.anchor.conversationId responseId with
    | .error e => return .error e
    | .ok () =>
      admitOrRelease tenant spec.anchor.conversationId
        (proposed cfg tenant spec idempotencyKey responseId now)
        (idempotencyKey.getD (.forResponse responseId)) now

/-! ## Cancellation -/

/-- Archive a cancelled turn's input and whatever output it reached. -/
def archiveCancelled (rounds : ℕ) (tenant : TenantId) (id : ResponseId)
    (record : Option ResponseRecord) (now : ℕ) : Service Unit :=
  match record with
  | none => return ()
  | some record =>
    match record.isStored, record.conversationId with
    | true, some conversationId =>
      archiveReplayed rounds tenant conversationId id record.spec.inputItems .cancelled now
    | _, _ => return ()

def releaseCancelled (tenant : TenantId) (id : ResponseId) (record : Option ResponseRecord) :
    Service Unit :=
  match record.bind ResponseRecord.conversationId with
  | none => return ()
  | some conversationId => do
    let _ ← ConversationsService.releaseActive tenant conversationId id .cancelled
    return ()

/-- What the terminal event of a cancellation carries; a stub if the record has vanished. -/
def cancelledObject (id : ResponseId) (record : Option ResponseRecord) : ResponseObject :=
  match record with
  | some record => .withoutOutput record
  | none => .terminalStub id .cancelled

def cancel (cfg : Config) (rounds : ℕ) (tenant : TenantId) (id : ResponseId) :
    Service (Except ServiceError ResponseObject) := do
  let now ← nowMs
  match ← Ledger.cancel tenant id now with
  | .error e => return .error (.ledger e)
  | .ok () =>
    let reply ← Ledger.get id
    archiveCancelled rounds tenant id (found reply) now
    releaseCancelled tenant id (found reply)
    let _ ← EventLog.append (.lifecycle id .failed (cancelledObject id (found reply)))
    let _ ← EventLog.close id now cfg.retainAfterTerminalMs
    return .ok (cancelledObject id (found reply))

/-! ## Retrieval -/

/-- The object of a response right now: rebuilt from its stream where that is possible, otherwise
rendered from its record. -/
def currentObject (cfg : Config) (rounds : ℕ) (record : ResponseRecord) :
    Service (Except ServiceError ResponseObject) := do
  match ← latestResponseObject cfg rounds record.responseId with
  | .error e => return .error e
  | .ok object => return .ok (object.getD (.withoutOutput record))

/-- Another tenant's response is answered like one that does not exist. -/
def retrieve (cfg : Config) (rounds : ℕ) (tenant : TenantId) (id : ResponseId) :
    Service (Except ServiceError (Option ResponseObject)) := do
  match ← Ledger.get id with
  | .error e => return .error (.ledger e)
  | .ok none => return .ok none
  | .ok (some record) =>
    if record.tenantId ≠ tenant then return .ok none
    else
      match ← currentObject cfg rounds record with
      | .error e => return .error e
      | .ok object => return .ok (some object)

/-- Read on until a terminal event, for as many reads as the deadline leaves time for. -/
def awaitTerminal (cfg : Config) (id : ResponseId) :
    ℕ → Option ℕ → Service (Except ServiceError Unit)
  | 0, _ => return .ok ()
  | looks + 1, cursor => do
    match ← EventLog.readAfter id cursor cfg.eventPage with
    | .error e => return .error (.eventLog e)
    | .ok [] => return .ok ()
    | .ok batch =>
      if batch.any fun e ↦ e.kind.isTerminal then return .ok ()
      else
        awaitTerminal cfg id looks ((batch.getLast?.map ResponseEvent.sequenceNumber).or cursor)

/-- Wait for the terminal event, then return the current object; past the deadline return the
current object all the same. -/
def waitTerminal (cfg : Config) (looks rounds : ℕ) (record : ResponseRecord) :
    Service (Except ServiceError ResponseObject) := do
  match ← awaitTerminal cfg record.responseId looks none with
  | .error e => return .error e
  | .ok () => currentObject cfg rounds record

/-! ## Deletion -/

/-- Delete one record and its event buffer, and announce it on the conversation. -/
def delete (tenant : TenantId) (id : ResponseId) : Service (Except ServiceError Bool) := do
  let reply ← Ledger.get id
  match ← Ledger.delete id with
  | .error e => return .error (.ledger e)
  | .ok deleted =>
    let _ ← EventLog.remove id
    match deleted, (found reply).bind ResponseRecord.conversationId with
    | true, some conversationId =>
      let _ ← ConversationsService.appendEvent tenant conversationId (.responseDeleted id)
      return .ok deleted
    | _, _ => return .ok deleted

end ResponsesService

end NovaChat
