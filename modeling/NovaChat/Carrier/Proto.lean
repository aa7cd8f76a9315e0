import NovaChat.Wire.Envelope
import NovaChat.World

/-!
# The carrier's protocol

One request and one response for each operation of the shared ports.  The server carries a request
out on the world it owns; the client sends the request of a call and folds the response, or the
failure of the transport, into what the call returns.
-/

namespace NovaChat

/-- A failure on the side of the carrier, tagged by the port that rejected the call. -/
inductive ProtoError
  | ledger (e : LedgerError)
  | eventLog (e : EventLogError)
  | conversation (e : ConversationError)
  | internal (message : String)

def ProtoError.text : ProtoError → String
  | ledger e => e.text
  | eventLog e => e.text
  | conversation e => e.text
  | internal message => "carrier: " ++ message

inductive Request
  | ledgerCreate (record : ResponseRecord) (idempotencyKey : IdempotencyKey) (nowMs : ℕ)
  | ledgerClaim (agentId : AgentId) (nowMs execTtlMs : ℕ)
  | ledgerHeartbeat (agentId : AgentId) (nowMs : ℕ)
  | ledgerComplete (responseId : ResponseId) (expectedAttempt : Attempt) (status : ResponseStatus)
      (usage : Usage) (nowMs : ℕ)
  | ledgerCancel (tenant : TenantId) (responseId : ResponseId) (nowMs : ℕ)
  | ledgerReap (nowMs heartbeatTtlMs : ℕ)
  | ledgerRecordPartialUsage (responseId : ResponseId) (attempt : Attempt) (usage : Usage)
  | ledgerGet (responseId : ResponseId)
  | ledgerDelete (responseId : ResponseId)
  | ledgerDeleteByTenant (tenant : TenantId)
  | ledgerCheckAttempt (responseId : ResponseId) (attempt : Attempt)
  | ledgerInFlight
  | eventLogAppend (event : WireEvent)
  | eventLogReadAfter (responseId : ResponseId) (startingAfter : Option ℕ) (limit : ℕ)
  | eventLogClose (responseId : ResponseId) (nowMs retainMs : ℕ)
  | eventLogSweepExpired (nowMs : ℕ)
  | eventLogRemove (responseId : ResponseId)
  | conversationCreate (conversation : Conversation)
  | conversationGet (tenant : TenantId) (id : ConversationId)
  | conversationUpdateMetadata (tenant : TenantId) (id : ConversationId) (metadata : Metadata)
  | conversationDelete (tenant : TenantId) (id : ConversationId)
  | conversationDeleteByTenant (tenant : TenantId)
  | conversationAdvance (tenant : TenantId) (id : ConversationId) (last : ResponseId)
  | conversationAcquireActive (tenant : TenantId) (id : ConversationId) (responseId : ResponseId)
      (nowMs : ℕ)
  | conversationReleaseActive (tenant : TenantId) (id : ConversationId) (responseId : ResponseId)
      (status : ResponseStatus) (nowMs : ℕ)
  | conversationReleaseStaleActive (tenant : TenantId) (id : ConversationId)
      (holder : ResponseId)
  | conversationAppendEvent (tenant : TenantId) (id : ConversationId)
      (kind : ConversationEventKind) (nowMs : ℕ)
  | conversationReadAfter (tenant : TenantId) (id : ConversationId) (startingAfter : Option ℕ)
      (limit : ℕ)
  | conversationList (tenant : TenantId)
  | conversationReadSnapshot (tenant : TenantId) (id : ConversationId)
  | conversationAppendTurn (tenant : TenantId) (id : ConversationId) (responseId : ResponseId)
      (commit : TurnCommit) (nowMs : ℕ)
  | conversationHealth

inductive Response
  | create (outcome : CreateOutcome)
  | claim (claimed : Option ClaimedResponse)
  | heartbeat
  | complete
  | cancel
  | reap (aborted : List AbortedClaim)
  | recordPartialUsage
  | get (record : Option ResponseRecord)
  | delete (removed : Bool)
  | deleteByTenant (n : ℕ)
  | checkAttempt
  | inFlight (n : ℕ)
  | eventLogAppend (seq : ℕ)
  | eventLogReadAfter (events : List WireEvent)
  | eventLogClose
  | eventLogSweepExpired (n : ℕ)
  | eventLogRemove
  | conversationCreate (conversation : Conversation)
  | conversationGet (conversation : Option Conversation)
  | conversationUpdateMetadata (conversation : Conversation)
  | conversationDelete (removed : Bool)
  | conversationDeleteByTenant (n : ℕ)
  | conversationAdvance
  | conversationAcquireActive (seq : ℕ)
  | conversationReleaseActive (seq : ℕ)
  | conversationReleaseStaleActive (released : Bool)
  | conversationAppendEvent (seq : ℕ)
  | conversationReadAfter (events : List ConversationEvent)
  | conversationList (list : List Conversation)
  | conversationReadSnapshot (resolved : ResolvedContext)
  | conversationAppendTurn (index : ℕ)
  | conversationHealth
  | err (e : ProtoError)

/-! ## The server -/

namespace MemServer

/-- The response to an operation of a port. -/
def respond {ε α : Type} (ok : α → Response) (err : ε → ProtoError) (r : Except ε α × World) :
    Response × World :=
  (match r.1 with
    | .ok a => ok a
    | .error e => .err (err e), r.2)

/-- Execute one request against the shared world. -/
def dispatch (w : World) : Request → Response × World
  | .ledgerCreate record key now =>
    respond .create .ledger (execLedger w (.create record key now))
  | .ledgerClaim agentId now ttl => respond .claim .ledger (execLedger w (.claim agentId now ttl))
  | .ledgerHeartbeat agentId now =>
    respond (fun _ ↦ .heartbeat) .ledger (execLedger w (.heartbeat agentId now))
  | .ledgerComplete id attempt status usage now =>
    respond (fun _ ↦ .complete) .ledger (execLedger w (.complete id attempt status usage now))
  | .ledgerCancel tenant id now =>
    respond (fun _ ↦ .cancel) .ledger (execLedger w (.cancel tenant id now))
  | .ledgerReap now ttl => respond .reap .ledger (execLedger w (.reap now ttl))
  | .ledgerRecordPartialUsage id attempt usage =>
    respond (fun _ ↦ .recordPartialUsage) .ledger
      (execLedger w (.recordPartialUsage id attempt usage))
  | .ledgerGet id => respond .get .ledger (execLedger w (.get id))
  | .ledgerDelete id => respond .delete .ledger (execLedger w (.delete id))
  | .ledgerDeleteByTenant tenant =>
    respond .deleteByTenant .ledger (execLedger w (.deleteByTenant tenant))
  | .ledgerCheckAttempt id attempt =>
    respond (fun _ ↦ .checkAttempt) .ledger (execLedger w (.checkAttempt id attempt))
  | .ledgerInFlight => respond .inFlight .ledger (execLedger w .inFlight)
  | .eventLogAppend event =>
    respond .eventLogAppend .eventLog (execEventLog w (.append event.toAppendEvent))
  | .eventLogReadAfter id after limit =>
    respond (fun events ↦ .eventLogReadAfter (events.map WireEvent.ofResponseEvent)) .eventLog
      (execEventLog w (.readAfter id after limit))
  | .eventLogClose id now retain =>
    respond (fun _ ↦ .eventLogClose) .eventLog (execEventLog w (.close id now retain))
  | .eventLogSweepExpired now =>
    respond .eventLogSweepExpired .eventLog (execEventLog w (.sweepExpired now))
  | .eventLogRemove id => respond (fun _ ↦ .eventLogRemove) .eventLog (execEventLog w (.remove id))
  | .conversationCreate conversation =>
    respond .conversationCreate .conversation (execConversations w (.create conversation))
  | .conversationGet tenant id =>
    respond .conversationGet .conversation (execConversations w (.get tenant id))
  | .conversationUpdateMetadata tenant id metadata =>
    respond .conversationUpdateMetadata .conversation
      (execConversations w (.updateMetadata tenant id metadata))
  | .conversationDelete tenant id =>
    respond .conversationDelete .conversation (execConversations w (.delete tenant id))
  | .conversationDeleteByTenant tenant =>
    respond .conversationDeleteByTenant .conversation
      (execConversations w (.deleteByTenant tenant))
  | .conversationAdvance tenant id last =>
    respond (fun _ ↦ .conversationAdvance) .conversation
      (execConversations w (.advance tenant id last))
  | .conversationAcquireActive tenant id responseId now =>
    respond .conversationAcquireActive .conversation
      (execConversations w (.acquireActive tenant id responseId now))
  | .conversationReleaseActive tenant id responseId status now =>
    respond .conversationReleaseActive .conversation
      (execConversations w (.releaseActive tenant id responseId status now))
  | .conversationReleaseStaleActive tenant id holder =>
    respond .conversationReleaseStaleActive .conversation
      (execConversations w (.releaseStaleActive tenant id holder))
  | .conversationAppendEvent tenant id kind now =>
    respond .conversationAppendEvent .conversation
      (execConversations w (.appendEvent tenant id kind now))
  | .conversationReadAfter tenant id after limit =>
    respond .conversationReadAfter .conversation
      (execConversations w (.readAfter tenant id after limit))
  | .conversationList tenant =>
    respond .conversationList .conversation (execConversations w (.list tenant))
  | .conversationReadSnapshot tenant id =>
    respond .conversationReadSnapshot .conversation (execConversations w (.readSnapshot tenant id))
  | .conversationAppendTurn tenant id responseId commit now =>
    respond .conversationAppendTurn .conversation
      (execConversations w (.appendTurn tenant id responseId commit now))
  | .conversationHealth =>
    respond (fun _ ↦ .conversationHealth) .conversation
      (MemConversationStore.guardAvailable w.store, w)

end MemServer

end NovaChat
