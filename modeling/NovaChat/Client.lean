import NovaChat.Ports

/-!
# The carrier client

A service of one node reaches the shared carrier through clients that keep the node's own
admission switches.  Each port call becomes the checks the client makes and then at most one
call to the carrier.
-/

namespace NovaChat

open Interact Prog

namespace Client

/-- What the clients answer in place of a call while their node is read-only.  Reads, beats,
reaping and the upkeep of the event log are not gated. -/
def refusal : (c : Call) → Option c.Reply
  | .ledger (.create ..) => some (.ok .readOnly)
  | .ledger (.claim ..) => some (.error (.store .readOnly))
  | .ledger (.complete ..) => some (.error (.store .readOnly))
  | .ledger (.cancel ..) => some (.error (.store .readOnly))
  | .ledger (.delete _) => some (.error (.store .readOnly))
  | .ledger (.deleteByTenant _) => some (.error (.store .readOnly))
  | .ledger (.checkAttempt ..) => some (.error (.store .readOnly))
  | .eventLog (.append _) => some (.error (.store .readOnly))
  | .conversations (.create _) => some (.error (.store .readOnly))
  | .conversations (.updateMetadata ..) => some (.error (.store .readOnly))
  | .conversations (.delete ..) => some (.error (.store .readOnly))
  | .conversations (.deleteByTenant _) => some (.error (.store .readOnly))
  | .conversations (.appendTurn ..) => some (.error (.store .readOnly))
  | .conversations (.advance ..) => some (.error (.store .readOnly))
  | .conversations (.acquireActive ..) => some (.error (.store .readOnly))
  | .conversations (.releaseActive ..) => some (.error (.store .readOnly))
  | .conversations (.releaseStaleActive ..) => some (.error (.store .readOnly))
  | .conversations (.appendEvent ..) => some (.error (.store .readOnly))
  | _ => none

/-- Past the read-only switch: a create is also held against the node's pending limit. -/
def forward (node : ℕ) : (c : Call) → Service c.Reply
  | .ledger (.create record key now) => do
    match ← Ledger.inFlight with
    | .error e => return .error e
    | .ok inFlight =>
      let limit ← perform (Call.node (.pendingLimit node))
      if limit ≤ inFlight then return .ok .overloaded else Ledger.create record key now
  | c => perform c

/-- How the clients of a node carry out each port call of its services. -/
def carry (node : ℕ) (c : Call) : Service c.Reply :=
  match refusal c with
  | none => forward node c
  | some refused => do
    let readOnly ← perform (Call.node (.isReadOnly node))
    if readOnly then return refused else forward node c

end Client

end NovaChat
