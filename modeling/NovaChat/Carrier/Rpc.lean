import NovaChat.Carrier.Proto
import NovaChat.Client

/-!
# Calls of the carrier's clients

Each port call of a client is one request and a way to read its response.  Between a client and a
carrier that answers, nothing is lost on the way there and back: the call returns what the carrier's
own port returns, and leaves the shared world as that does.
-/

namespace NovaChat

/-- Rebuild the numbered form.  An event without its number is a defect of the carrier. -/
def WireEvent.intoResponseEvent (w : WireEvent) : Except ProtoError ResponseEvent :=
  match w.sequenceNumber with
  | none => .error (.internal "carrier returned an event with no sequence number")
  | some seq => .ok ⟨seq, w.toAppendEvent⟩

/-- A request, and what the call returns on the response or on a failure of the transport. -/
structure Rpc (α : Type) where
  request : Request
  reply : Except String Response → α

namespace MemClient

/-! ## Errors folded back -/

def ledgerRpc : Except String Response → Except LedgerError Response
  | .error e => .error (.store (.internal e))
  | .ok (.err (.ledger e)) => .error e
  | .ok (.err (.internal s)) => .error (.store (.internal s))
  | .ok ok => .ok ok

def eventRpc : Except String Response → Except EventLogError Response
  | .error e => .error (.store (.internal e))
  | .ok (.err (.eventLog e)) => .error e
  | .ok (.err (.internal s)) => .error (.store (.internal s))
  | .ok ok => .ok ok

/-- A failure of the transport means that the store is unreachable. -/
def conversationRpc : Except String Response → Except ConversationError Response
  | .error _ => .error (.store .unavailable)
  | .ok (.err (.conversation e)) => .error e
  | .ok (.err (.internal s)) => .error (.store (.internal s))
  | .ok ok => .ok ok

section Calls

-- `debug` is how a response is printed for a developer.
variable (debug : Response → String)

/-- Reject a response the carrier should never have produced for this call. -/
def unexpected (other : Response) : StoreError :=
  .internal ("unexpected rpc response " ++ debug other)

/-- Take the response a call expects. -/
def expect {ε α : Type} (store : StoreError → ε) (pick : Response → Option α) :
    Except ε Response → Except ε α
  | .error e => .error e
  | .ok r =>
    match pick r with
    | some a => .ok a
    | none => .error (store (unexpected debug r))

def ofLedger {α : Type} (request : Request) (pick : Response → Option α) :
    Rpc (Except LedgerError α) :=
  ⟨request, fun r ↦ expect debug .store pick (ledgerRpc r)⟩

def ofEventLog {α : Type} (request : Request) (pick : Response → Option α) :
    Rpc (Except EventLogError α) :=
  ⟨request, fun r ↦ expect debug .store pick (eventRpc r)⟩

def ofConversations {α : Type} (request : Request) (pick : Response → Option α) :
    Rpc (Except ConversationError α) :=
  ⟨request, fun r ↦ expect debug .store pick (conversationRpc r)⟩

def ledgerCall : (c : LedgerCall) → Rpc c.Reply
  | .create record key now => ofLedger debug (.ledgerCreate record key now) fun
      | .create outcome => some outcome
      | _ => none
  | .claim agentId now ttl => ofLedger debug (.ledgerClaim agentId now ttl) fun
      | .claim claimed => some claimed
      | _ => none
  | .heartbeat agentId now => ofLedger debug (.ledgerHeartbeat agentId now) fun
      | .heartbeat => some ()
      | _ => none
  | .complete id attempt status usage now =>
    ofLedger debug (.ledgerComplete id attempt status usage now) fun
      | .complete => some ()
      | _ => none
  | .cancel tenant id now => ofLedger debug (.ledgerCancel tenant id now) fun
      | .cancel => some ()
      | _ => none
  | .reap now ttl => ofLedger debug (.ledgerReap now ttl) fun
      | .reap aborted => some aborted
      | _ => none
  | .recordPartialUsage id attempt usage =>
    ofLedger debug (.ledgerRecordPartialUsage id attempt usage) fun
      | .recordPartialUsage => some ()
      | _ => none
  | .get id => ofLedger debug (.ledgerGet id) fun
      | .get record => some record
      | _ => none
  | .delete id => ofLedger debug (.ledgerDelete id) fun
      | .delete removed => some removed
      | _ => none
  | .deleteByTenant tenant => ofLedger debug (.ledgerDeleteByTenant tenant) fun
      | .deleteByTenant n => some n
      | _ => none
  | .checkAttempt id attempt => ofLedger debug (.ledgerCheckAttempt id attempt) fun
      | .checkAttempt => some ()
      | _ => none
  | .inFlight => ofLedger debug .ledgerInFlight fun
      | .inFlight n => some n
      | _ => none

/-- The two halves of an append are the carrier's own. -/
def eventLogCall : (c : EventLogCall) → Option (Rpc c.Reply)
  | .append event => some (ofEventLog debug (.eventLogAppend (.ofAppendEvent event)) fun
      | .eventLogAppend seq => some seq
      | _ => none)
  | .fenceCheck _ => none
  | .insert _ => none
  | .readAfter id after limit => some
      ⟨.eventLogReadAfter id after limit, fun r ↦ do
        let events ← expect debug EventLogError.store (fun
          | .eventLogReadAfter events => some events
          | _ => none) (eventRpc r)
        events.mapM fun e ↦
          e.intoResponseEvent.mapError fun e ↦ .store (.internal e.text)⟩
  | .close id now retain => some (ofEventLog debug (.eventLogClose id now retain) fun
      | .eventLogClose => some ()
      | _ => none)
  | .sweepExpired now => some (ofEventLog debug (.eventLogSweepExpired now) fun
      | .eventLogSweepExpired n => some n
      | _ => none)
  | .remove id => some (ofEventLog debug (.eventLogRemove id) fun
      | .eventLogRemove => some ()
      | _ => none)

def conversationCall : (c : ConversationCall) → Rpc c.Reply
  | .create conversation => ofConversations debug (.conversationCreate conversation) fun
      | .conversationCreate c => some c
      | _ => none
  | .get tenant id => ofConversations debug (.conversationGet tenant id) fun
      | .conversationGet c => some c
      | _ => none
  | .updateMetadata tenant id metadata =>
    ofConversations debug (.conversationUpdateMetadata tenant id metadata) fun
      | .conversationUpdateMetadata c => some c
      | _ => none
  | .delete tenant id => ofConversations debug (.conversationDelete tenant id) fun
      | .conversationDelete removed => some removed
      | _ => none
  | .deleteByTenant tenant => ofConversations debug (.conversationDeleteByTenant tenant) fun
      | .conversationDeleteByTenant n => some n
      | _ => none
  | .list tenant => ofConversations debug (.conversationList tenant) fun
      | .conversationList list => some list
      | _ => none
  | .readSnapshot tenant id => ofConversations debug (.conversationReadSnapshot tenant id) fun
      | .conversationReadSnapshot resolved => some resolved
      | _ => none
  | .appendTurn tenant id responseId commit now =>
    ofConversations debug (.conversationAppendTurn tenant id responseId commit now) fun
      | .conversationAppendTurn index => some index
      | _ => none
  | .advance tenant id last => ofConversations debug (.conversationAdvance tenant id last) fun
      | .conversationAdvance => some ()
      | _ => none
  | .acquireActive tenant id responseId now =>
    ofConversations debug (.conversationAcquireActive tenant id responseId now) fun
      | .conversationAcquireActive seq => some seq
      | _ => none
  | .releaseActive tenant id responseId status now =>
    ofConversations debug (.conversationReleaseActive tenant id responseId status now) fun
      | .conversationReleaseActive seq => some seq
      | _ => none
  | .releaseStaleActive tenant id holder =>
    ofConversations debug (.conversationReleaseStaleActive tenant id holder) fun
      | .conversationReleaseStaleActive released => some released
      | _ => none
  | .appendEvent tenant id kind now =>
    ofConversations debug (.conversationAppendEvent tenant id kind now) fun
      | .conversationAppendEvent seq => some seq
      | _ => none
  | .readAfter tenant id after limit =>
    ofConversations debug (.conversationReadAfter tenant id after limit) fun
      | .conversationReadAfter events => some events
      | _ => none

/-- The round trip a call takes, unless it stays on its node. -/
def call : (c : Call) → Option (Rpc c.Reply)
  | .ledger c => some (ledgerCall debug c)
  | .eventLog c => eventLogCall debug c
  | .conversations c => some (conversationCall debug c)
  | .nowMs | .node _ | .mode _ => none

end Calls

end MemClient

end NovaChat
