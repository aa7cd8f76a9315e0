import NovaChat.Service.Responses

/-!
# The gateway

The two handlers that move data outside the services: the event stream of a response, and
the bulk erasure of a tenant.
-/

namespace NovaChat

open Interact

namespace Gateway

/-! ## Streaming -/

/-- How a stream came to its end. -/
inductive StreamEnd
  | notFound
  | refused (e : EventLogError)
  | finished
  | broken (e : EventLogError)
  deriving DecidableEq

/-- Events per read on the per-response stream. -/
def responseBatch : ℕ := 64

/-- One read of an open stream: deliver what it returns, and stop on a terminal event. -/
def streamRound (id : ResponseId) (s : Option ℕ × List ResponseEvent) :
    Service ((Option ℕ × List ResponseEvent) ⊕ (List ResponseEvent × StreamEnd)) := do
  match ← EventLog.readAfter id s.1 responseBatch with
  | .error e => return .inr (s.2, .broken e)
  | .ok [] => return .inl s
  | .ok batch =>
    if batch.any fun e ↦ e.kind.isTerminal then return .inr (s.2 ++ batch, .finished)
    else
      return .inl ((batch.getLast?.map ResponseEvent.sequenceNumber).or s.1, s.2 ++ batch)

/-- Probe, then stream.  Returns the events delivered. -/
def openStream (rounds : ℕ) (id : ResponseId) (cursor : Option ℕ) :
    Service (List ResponseEvent × StreamEnd) := do
  match ← EventLog.readAfter id cursor 1 with
  | .error e => return ([], .refused e)
  | .ok _ => Prog.iterate (streamRound id) rounds (cursor, [])

/-- `streamRound` with reads of any size. -/
def sseRound (batch : ℕ) (id : ResponseId) (s : Option ℕ × List ResponseEvent) :
    Service ((Option ℕ × List ResponseEvent) ⊕ (List ResponseEvent × StreamEnd)) := do
  match ← EventLog.readAfter id s.1 batch with
  | .error e => return .inr (s.2, .broken e)
  | .ok [] => return .inl s
  | .ok batch =>
    if batch.any fun e ↦ e.kind.isTerminal then return .inr (s.2 ++ batch, .finished)
    else
      return .inl ((batch.getLast?.map ResponseEvent.sequenceNumber).or s.1, s.2 ++ batch)

/-- Probe, then stream, with reads of any size. -/
def openSse (batch rounds : ℕ) (id : ResponseId) (cursor : Option ℕ) :
    Service (List ResponseEvent × StreamEnd) := do
  match ← EventLog.readAfter id cursor 1 with
  | .error e => return ([], .refused e)
  | .ok _ => Prog.iterate (sseRound (max batch 1) id) rounds (cursor, [])

theorem openStream_eq (rounds : ℕ) (id : ResponseId) (cursor : Option ℕ) :
    openStream rounds id cursor = openSse responseBatch rounds id cursor := rfl

/-- Ownership is verified through the ledger record, if there is one. -/
def streamImpl (rounds : ℕ) (id : ResponseId) (cursor : Option ℕ) (tenant : TenantId) :
    Service (List ResponseEvent × StreamEnd) := do
  match ← Ledger.get id with
  | .ok (some record) =>
    if record.tenantId ≠ tenant then return ([], .notFound)
    else openStream rounds id cursor
  | _ => openStream rounds id cursor

/-! ## Erasure -/

/-- Why a purge stopped. -/
inductive PurgeError
  | conversation (e : ConversationError)
  | ledger (e : LedgerError)
  deriving DecidableEq

/-- Bulk erasure: conversations first, then the tenant's response records. -/
def purgeTenant (tenant : TenantId) : Service (Except PurgeError (ℕ × ℕ)) := do
  match ← Conversations.deleteByTenant tenant with
  | .error e => return .error (.conversation e)
  | .ok conversations =>
    match ← Ledger.deleteByTenant tenant with
    | .error e => return .error (.ledger e)
    | .ok deleted => return .ok (deleted, conversations)

end Gateway

end NovaChat
