import NovaChat.ConversationStore
import NovaChat.EventLog

/-!
# The world

Everything the ports answer from: the shared store, the event log, the clock, and the signing
port the ledger may carry.  `exec` answers every call as one atomic operation on it.
-/

namespace NovaChat

/-- The admission switches of one node of the carrier. -/
structure NodeFlags where
  readOnly : Bool := false
  pendingLimit : ℕ := 10000

structure World where
  store : MemStore := {}
  log : EventLogStore := {}
  clock : ℕ := 0
  nodes : ℕ → NodeFlags := fun _ ↦ {}
  integrity : Option ContentIntegrity := none
  /-- Unicode normalisation, applied before signing. -/
  nfc : String → String := id

namespace World

/-- Replace the store, keeping the reply that came with it. -/
def withStore {α : Type} (w : World) (x : α × MemStore) : α × World :=
  (x.1, { w with store := x.2 })

def withLog {α : Type} (w : World) (x : α × EventLogStore) : α × World :=
  (x.1, { w with log := x.2 })

@[simp] theorem withStore_fst {α : Type} (w : World) (x : α × MemStore) :
    (w.withStore x).1 = x.1 := rfl

@[simp] theorem withStore_snd {α : Type} (w : World) (x : α × MemStore) :
    (w.withStore x).2 = { w with store := x.2 } := rfl

@[simp] theorem withStore_self {α : Type} (w : World) (a : α) :
    w.withStore (a, w.store) = (a, w) := rfl

@[simp] theorem withLog_fst {α : Type} (w : World) (x : α × EventLogStore) :
    (w.withLog x).1 = x.1 := rfl

@[simp] theorem withLog_snd {α : Type} (w : World) (x : α × EventLogStore) :
    (w.withLog x).2 = { w with log := x.2 } := rfl

end World

def execLedger (w : World) : (c : LedgerCall) → c.Reply × World
  | .create record key _ =>
    w.withStore (MemResponseLedger.create w.nfc w.integrity w.store record key)
  | .claim agentId nowMs execTtlMs =>
    w.withStore (MemResponseLedger.claim w.store agentId nowMs execTtlMs)
  | .heartbeat agentId nowMs => w.withStore (MemResponseLedger.heartbeat w.store agentId nowMs)
  | .complete id expectedAttempt status usage nowMs =>
    w.withStore (MemResponseLedger.complete w.store id expectedAttempt status usage nowMs)
  | .cancel tenant id nowMs => w.withStore (MemResponseLedger.cancel w.store tenant id nowMs)
  | .reap nowMs heartbeatTtlMs => w.withStore (MemResponseLedger.reap w.store nowMs heartbeatTtlMs)
  | .recordPartialUsage id attempt usage =>
    w.withStore (MemResponseLedger.recordPartialUsage w.store id attempt usage)
  | .get id => (MemResponseLedger.get w.store id, w)
  | .delete id => w.withStore (MemResponseLedger.delete w.store id)
  | .deleteByTenant tenant => w.withStore (MemResponseLedger.deleteByTenant w.store tenant)
  | .checkAttempt id attempt => (MemResponseLedger.checkAttempt w.store id attempt, w)
  | .inFlight => (.ok w.store.inner.inFlightCount, w)

def execEventLog (w : World) : (c : EventLogCall) → c.Reply × World
  | .append event => w.withLog (MemResponseEventLog.append w.store w.log event)
  | .fenceCheck event => (MemResponseEventLog.fenceCheck w.store event, w)
  | .insert event => w.withLog (MemResponseEventLog.insert w.log event)
  | .readAfter id startingAfter limit =>
    (MemResponseEventLog.readAfter w.log id startingAfter limit, w)
  | .close id nowMs retainMs => w.withLog (MemResponseEventLog.close w.log id nowMs retainMs)
  | .sweepExpired nowMs => w.withLog (MemResponseEventLog.sweepExpired w.log nowMs)
  | .remove id => w.withLog (MemResponseEventLog.remove w.log id)

def execConversations (w : World) : (c : ConversationCall) → c.Reply × World
  | .create conversation => w.withStore (MemConversationStore.create w.store conversation)
  | .get tenant id => (MemConversationStore.get w.store tenant id, w)
  | .updateMetadata tenant id metadata =>
    w.withStore (MemConversationStore.updateMetadata w.store tenant id metadata)
  | .delete tenant id => w.withStore (MemConversationStore.delete w.store tenant id)
  | .deleteByTenant tenant => w.withStore (MemConversationStore.deleteByTenant w.store tenant)
  | .list tenant => (MemConversationStore.list w.store tenant, w)
  | .readSnapshot tenant id => (MemConversationStore.readSnapshot w.store tenant id, w)
  | .appendTurn tenant id responseId commit _ =>
    w.withStore (MemConversationStore.appendTurn w.store tenant id responseId commit)
  | .advance tenant id last => w.withStore (MemConversationStore.advance w.store tenant id last)
  | .acquireActive tenant id responseId nowMs =>
    w.withStore (MemConversationStore.acquireActive w.store tenant id responseId nowMs)
  | .releaseActive tenant id responseId status nowMs =>
    w.withStore (MemConversationStore.releaseActive w.store tenant id responseId status nowMs)
  | .releaseStaleActive tenant id holder =>
    w.withStore (MemConversationStore.releaseStaleActive w.store tenant id holder)
  | .appendEvent tenant id kind nowMs =>
    w.withStore (MemConversationStore.appendEvent w.store tenant id kind nowMs)
  | .readAfter tenant id startingAfter limit =>
    (MemConversationStore.readAfter w.store tenant id startingAfter limit, w)

def execNode (w : World) : (c : NodeCall) → c.Reply × World
  | .isReadOnly node => ((w.nodes node).readOnly, w)
  | .pendingLimit node => ((w.nodes node).pendingLimit, w)

/-- Change the switches of one node. -/
def World.setNode (w : World) (node : ℕ) (f : NodeFlags → NodeFlags) : World :=
  { w with nodes := fun n ↦ if n = node then f (w.nodes n) else w.nodes n }

def execMode (w : World) : ModeCall → World
  | .setReadOnly enabled => { w with store := { w.store with readOnly := enabled } }
  | .setUnavailable enabled => { w with store := { w.store with unavailable := enabled } }
  | .setPendingLimit limit => { w with store := w.store.setPendingLimit limit }
  | .setMaxRecords limit => { w with store := w.store.setMaxRecords limit }
  | .setMaxConversations limit => { w with store := w.store.setMaxConversations limit }
  | .setMaxEventsPerConversation limit =>
    { w with store := w.store.setMaxEventsPerConversation limit }
  | .setNodeReadOnly node enabled => w.setNode node fun f ↦ { f with readOnly := enabled }
  | .setNodePendingLimit node limit =>
    w.setNode node fun f ↦ { f with pendingLimit := max limit 1 }
  | .setClock ms => { w with clock := ms }

/-- The in-memory answer to every call. -/
def exec (c : Call) (w : World) : c.Reply × World :=
  match c with
  | .nowMs => (w.clock, w)
  | .ledger c => execLedger w c
  | .eventLog c => execEventLog w c
  | .conversations c => execConversations w c
  | .node c => execNode w c
  | .mode c => ((), execMode w c)

/-- The calls that only read. -/
def Call.Reads : Call → Prop
  | .nowMs => True
  | .ledger (.get _) => True
  | .eventLog (.readAfter _ _ _) => True
  | .conversations (.readSnapshot _ _) => True
  | _ => False

theorem exec_reads {c : Call} (hc : c.Reads) (w : World) : (exec c w).2 = w := by
  rcases c with _ | c | c | c | c | c
  · rfl
  · cases c <;> first | exact hc.elim | rfl
  · cases c <;> first | exact hc.elim | rfl
  · cases c <;> first | exact hc.elim | rfl
  · exact hc.elim
  · exact hc.elim

end NovaChat
