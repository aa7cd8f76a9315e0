import NovaChat.Service.Config

/-!
# The sweeper

Reaping lost claims and releasing expired event buffers, and the replay that recovers what a
response had produced when its executor is out of reach.
-/

namespace NovaChat

open Interact

/-! ## Replaying completed items -/

/-- What a replay has collected: finished items, and the item still being streamed. -/
structure Replay where
  items : List (ℕ × ResponseItem) := []
  opened : Option (ℕ × ResponseItem) := none
  openText : String := ""

namespace Replay

def step (s : Replay) (e : ResponseEvent) : Replay :=
  match e.kind, e.body with
  | .outputItemAdded, .item index item => { s with opened := some (index, item), openText := "" }
  | .outputItemDone, .item index item =>
    if s.opened.any fun o ↦ o.1 = index then
      { items := s.items ++ [(index, item)], opened := none, openText := "" }
    else { s with items := s.items ++ [(index, item)] }
  | .outputTextDelta, .delta _ index _ delta =>
    if s.opened.any fun o ↦ o.1 = index then { s with openText := s.openText ++ delta } else s
  | _, _ => s

/-- The trailing open message, with the text it streamed, as an incomplete item. -/
def trailing (s : Replay) : List (ℕ × ResponseItem) :=
  match s.opened with
  | some (index, .message role _ id _) =>
    if s.openText.isEmpty then []
    else [(index, .message role [.outputText s.openText] id (some .incomplete))]
  | _ => []

/-- The archivable items in output order. -/
def finish (s : Replay) : List ResponseItem :=
  ((s.items ++ s.trailing).mergeSort fun a b ↦ decide (a.1 ≤ b.1)).map Prod.snd

end Replay

/-- Events per read while replaying a response's stream for its completed items. -/
def replayPage : ℕ := 256

def replayRound (id : ResponseId) (s : Option ℕ × Replay) :
    Service ((Option ℕ × Replay) ⊕ Except EventLogError (List ResponseItem)) := do
  match ← EventLog.readAfter id s.1 replayPage with
  | .error e => return .inr (.error e)
  | .ok [] => return .inr (.ok s.2.finish)
  | .ok batch =>
    return .inl (batch.getLast?.map ResponseEvent.sequenceNumber, batch.foldl Replay.step s.2)

/-- Replay a response's event stream for its archivable output items. -/
def replayCompletedItems (rounds : ℕ) (id : ResponseId) :
    Service (Except EventLogError (List ResponseItem)) :=
  Prog.iterate (replayRound id) rounds (none, {})

/-- Archive a turn whose output exists only as events. -/
def archiveReplayed (rounds : ℕ) (tenant : TenantId) (conversationId : ConversationId)
    (id : ResponseId) (inputItems : List ResponseItem) (status : ResponseStatus) (now : ℕ) :
    Service Unit := do
  match ← replayCompletedItems rounds id with
  | .error _ => return ()
  | .ok outputItems =>
    let _ ← Conversations.appendTurn tenant conversationId id
      ⟨inputItems, outputItems, none, {}, status⟩ now
    return ()

/-! ## The tick -/

/-- What a tick owes a claim it reaped: the terminal event first, then the archive, and the
marker last. -/
def settleReaped (cfg : Config) (rounds : ℕ) (now : ℕ) (claim : AbortedClaim) : Service Unit := do
  let _ ← EventLog.append
    (.lifecycle claim.responseId .failed (.terminalStub claim.responseId .failed))
  let _ ← EventLog.close claim.responseId now cfg.retainAfterTerminalMs
  match claim.conversationId with
  | none => return ()
  | some conversationId =>
    if claim.store then
      archiveReplayed rounds claim.tenantId conversationId claim.responseId claim.inputItems
        .failed now
    let _ ← Conversations.releaseActive claim.tenantId conversationId claim.responseId .failed now
    return ()

def settleAll (cfg : Config) (rounds : ℕ) (now : ℕ) : List AbortedClaim → Service Unit
  | [] => return ()
  | claim :: claims => do
    settleReaped cfg rounds now claim
    settleAll cfg rounds now claims

def tick (cfg : Config) (rounds : ℕ) : Service Unit := do
  let now ← nowMs
  match ← Ledger.reap now cfg.heartbeatTtlMs with
  | .error _ => return ()
  | .ok aborted =>
    settleAll cfg rounds now aborted
    let _ ← EventLog.sweepExpired now
    return ()

end NovaChat
