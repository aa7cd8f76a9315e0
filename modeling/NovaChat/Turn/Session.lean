import NovaChat.Interact.Session
import NovaChat.System

/-!
# The protocol of a turn

Creates, executions, cancellations and ticks, seen only through what each knows and may do.
A create mints an id, takes the marker and writes the record; whoever wins a record's terminal
transition archives its turn, moves the tail, gives the marker back and ends the stream.  The
stages below are the local states of that protocol, and `turn` is the session they form.
-/

namespace NovaChat

open Interact

/-! ## What a process knows of a turn -/

/-- What a terminal path knows of the turn it settles. -/
structure TurnInfo where
  store : Bool
  conversation : Option ConversationId
  input : List ResponseItem

def ResponseRecord.turnInfo (x : ResponseRecord) : TurnInfo :=
  ⟨x.spec.store, x.conversationId, x.spec.inputItems⟩

def AbortedClaim.turnInfo (a : AbortedClaim) : TurnInfo :=
  ⟨a.store, a.conversationId, a.inputItems⟩

/-- The conversation whose snapshot must archive the turn. -/
def TurnInfo.home (t : TurnInfo) : Option ConversationId :=
  if t.store then t.conversation else none

/-- How far the archiving of a turn has come. -/
inductive Archive
  | pending
  /-- The replay that should have supplied the output failed. -/
  | excused
  | refused
  | stored
  deriving DecidableEq

/-- A response whose terminal transition this process has won. -/
structure Settlement where
  id : ResponseId
  turn : Option TurnInfo
  archive : Archive

namespace Settlement

/-- A homeless turn, or one whose archiving was tried, may give the marker back. -/
def Cleared (e : Settlement) : Prop :=
  ∃ t, e.turn = some t ∧ (t.home = none ∨ e.archive ≠ .pending)

/-- Fill in what a lookup of the record revealed. -/
def learn (id : ResponseId) (record : Option ResponseRecord) (e : Settlement) : Settlement :=
  if e.id = id ∧ e.turn = none then { e with turn := record.map ResponseRecord.turnInfo } else e

def archived (id : ResponseId) (ok : Bool) (e : Settlement) : Settlement :=
  if e.id = id then { e with archive := if ok then .stored else .refused } else e

def excuse (id : ResponseId) (e : Settlement) : Settlement :=
  if e.id = id ∧ e.archive = .pending then { e with archive := .excused } else e

@[simp] theorem learn_id (id : ResponseId) (x : Option ResponseRecord) (e : Settlement) :
    (learn id x e).id = e.id := by
  unfold learn
  split_ifs <;> rfl

@[simp] theorem archived_id (id : ResponseId) (ok : Bool) (e : Settlement) :
    (archived id ok e).id = e.id := by
  unfold archived
  split_ifs <;> rfl

@[simp] theorem excuse_id (id : ResponseId) (e : Settlement) : (excuse id e).id = e.id := by
  unfold excuse
  split_ifs <;> rfl

end Settlement

/-! ## Stages -/

inductive Stage
  | idle
  /-- A create outside conversations: nothing to take. -/
  | unanchored (id : ResponseId) (anchor : ContextAnchor)
  /-- A create on `c` that does not hold the marker yet. -/
  | minted (id : ResponseId) (c : ConversationId)
  /-- The marker is held by `holder`, whose staleness is being looked up. -/
  | probing (id : ResponseId) (c : ConversationId) (holder : ResponseId)
  | stealing (id : ResponseId) (c : ConversationId) (holder : ResponseId)
  /-- The marker is taken and the record not yet written. -/
  | admitting (id : ResponseId) (c : ConversationId)
  /-- The ledger refused; the marker is to be given back. -/
  | refused (id : ResponseId)
  /-- The record is written and not yet announced. -/
  | admitted (id : ResponseId)
  /-- The announcement of a written record was refused. -/
  | orphaned (id : ResponseId)
  | serving (record : ResponseRecord)
  | settling (won : List Settlement)

namespace Stage

/-- The stage a job starts in. -/
def first : Job → Stage
  | .create cfg _ _ spec _ uuid =>
    match spec.anchor.conversationId with
    | some c => .minted ⟨cfg.nodeTag, uuid⟩ c
    | none => .unanchored ⟨cfg.nodeTag, uuid⟩ spec.anchor
  | _ => .idle

/-- A process with the marker and no record is between two calls and goes on. -/
def Restful : Stage → Prop
  | admitting _ _ => False
  | _ => True

/-- The id of a record this process may still write. -/
def unwritten : Stage → Option ResponseId
  | unanchored id _ | minted id _ | probing id _ _ | stealing id _ _ | admitting id _ => some id
  | _ => none

/-- Stages in which reading changes nothing. -/
def Steady : Stage → Prop
  | idle | unanchored _ _ | minted _ _ | stealing _ _ _ | refused _ | admitted _ | orphaned _
  | serving _ => True
  | _ => False

end Stage

/-- Calls that leave records, conversations and snapshots as they are. -/
def Call.Quiet : Call → Prop
  | .nowMs => True
  | .ledger (.heartbeat _ _) | .ledger (.get _) | .ledger (.checkAttempt _ _)
  | .ledger .inFlight => True
  | .eventLog (.readAfter _ _ _) | .eventLog (.sweepExpired _) => True
  | .conversations (.readSnapshot _ _) => True
  | .mode _ => True
  | _ => False

/-- The calls each stage may make. -/
inductive Stage.Allowed : Stage → Call → Prop
  | quiet {s : Stage} {c : Call} (hs : s.Steady) (hc : c.Quiet) : Allowed s c
  | acquire {id c} (tenant now) :
    Allowed (.minted id c) (.conversations (.acquireActive tenant c id now))
  | probe {id c holder} : Allowed (.probing id c holder) (.ledger (.get holder))
  | steal {id c holder} (tenant) :
    Allowed (.stealing id c holder) (.conversations (.releaseStaleActive tenant c holder))
  | write {id c record} (key now) (hid : record.responseId = id)
    (hanchor : record.spec.anchor = .conversation c) (hstatus : record.status = .queued) :
    Allowed (.admitting id c) (.ledger (.create record key now))
  | writeBare {id anchor record} (key now) (hid : record.responseId = id)
    (hanchor : record.spec.anchor = anchor) (hbare : anchor.conversationId = none)
    (hstatus : record.status = .queued) :
    Allowed (.unanchored id anchor) (.ledger (.create record key now))
  | announce {id event} (hid : event.responseId = id) (hattempt : event.attempt = none)
    (hkind : event.kind = .created) : Allowed (.admitted id) (.eventLog (.append event))
  | giveBack {id} (tenant c status now) :
    Allowed (.refused id) (.conversations (.releaseActive tenant c id status now))
  | abandon {id} (tenant c status now) :
    Allowed (.orphaned id) (.conversations (.releaseActive tenant c id status now))
  | claim (agent now ttl) : Allowed .idle (.ledger (.claim agent now ttl))
  | cancel (tenant id now) : Allowed .idle (.ledger (.cancel tenant id now))
  | reap (now ttl) : Allowed .idle (.ledger (.reap now ttl))
  | emit {record event} (hid : event.responseId = record.responseId)
    (hattempt : event.attempt = some record.attempt) (hkind : event.kind.isTerminal = false) :
    Allowed (.serving record) (.eventLog (.append event))
  | complete {record} (status usage now) :
    Allowed (.serving record)
      (.ledger (.complete record.responseId record.attempt status usage now))
  | look {won} (id) : Allowed (.settling won) (.ledger (.get id))
  | clock {won} : Allowed (.settling won) .nowMs
  | replay {won} (id cursor limit) :
      Allowed (.settling won) (.eventLog (.readAfter id cursor limit))
  | sweep {won} (now) : Allowed (.settling won) (.eventLog (.sweepExpired now))
  | archive {won e t c commit} (tenant now) (he : e ∈ won) (hpending : e.archive = .pending)
    (hturn : e.turn = some t) (hhome : t.home = some c) (hinput : commit.inputItems = t.input) :
    Allowed (.settling won) (.conversations (.appendTurn tenant c e.id commit now))
  | advance {won e} (tenant c) (he : e ∈ won) :
    Allowed (.settling won) (.conversations (.advance tenant c e.id))
  | release {won e} (tenant c status now) (he : e ∈ won) (hcleared : e.Cleared) :
    Allowed (.settling won) (.conversations (.releaseActive tenant c e.id status now))
  | finish {won e event} (he : e ∈ won) (hid : event.responseId = e.id)
    (hattempt : event.attempt = none) (hkind : event.kind.isTerminal = true) :
    Allowed (.settling won) (.eventLog (.append event))
  | close {won e} (now retain) (he : e ∈ won) :
    Allowed (.settling won) (.eventLog (.close e.id now retain))

/-- How a reply moves a stage. -/
def Stage.next (s : Stage) : (c : Call) → c.Reply → Stage
  | .conversations (.acquireActive _ _ _ _), r =>
    match s, r with
    | .minted id c, .ok _ => .admitting id c
    | .minted id c, .error (.busy holder) => .probing id c holder
    | .minted _ _, .error _ => .idle
    | s, _ => s
  | .ledger (.get id), r =>
    match s with
    | .probing id' c holder =>
      if ResponsesService.stale r then .stealing id' c holder else .idle
    | .settling won => .settling (won.map (Settlement.learn id (found r)))
    | s => s
  | .conversations (.releaseStaleActive _ _ _), r =>
    match s, r with
    | .stealing id c _, .ok _ => .minted id c
    | _, _ => .idle
  | .ledger (.create record _ _), r =>
    match r, s with
    | .ok (.accepted _), _ => .admitted record.responseId
    | _, .admitting id _ => .refused id
    | _, _ => .idle
  | .eventLog (.append _), r =>
    match s, r with
    | .admitted _, .ok _ => .idle
    | .admitted id, .error _ => .orphaned id
    | s, _ => s
  | .conversations (.releaseActive _ _ _ _ _), _ =>
    match s with
    | .settling won => .settling won
    | _ => .idle
  | .ledger (.claim _ _ _), r =>
    match r with
    | .ok (some claimed) => .serving claimed.record
    | _ => .idle
  | .ledger (.cancel _ id _), r =>
    match r with
    | .ok _ => .settling [⟨id, none, .pending⟩]
    | .error _ => .idle
  | .ledger (.reap _ _), r =>
    match r with
    | .ok aborted =>
      .settling (aborted.map fun a ↦ ⟨a.responseId, some a.turnInfo, .pending⟩)
    | .error _ => .idle
  | .ledger (.complete _ _ _ _ _), r =>
    match s, r with
    | .serving record, .ok _ =>
      .settling [⟨record.responseId, some record.turnInfo, .pending⟩]
    | _, _ => .idle
  | .eventLog (.readAfter id _ _), r =>
    match s, r with
    | .settling won, .error _ => .settling (won.map (Settlement.excuse id))
    | s, _ => s
  | .conversations (.appendTurn _ _ id _ _), r =>
    match s with
    | .settling won => .settling (won.map (Settlement.archived id r.isOk))
    | s => s
  | _, _ => s

/-- What the stages rely on about the replies they get. -/
def Call.Answers : (c : Call) → c.Reply → Prop
  | .ledger (.create record _ _), r =>
    ∀ x, r = .ok (.accepted x) → x.responseId = record.responseId
  | .ledger (.reap _ _), r => ∀ aborted, r = .ok aborted →
    (aborted.map AbortedClaim.responseId).Nodup
  | _, _ => True

/-- The session of a turn. -/
def turn : Session Call Call.Reply where
  State := Stage
  allowed := Stage.Allowed
  answers := Call.Answers
  next := Stage.next
  rest := Stage.Restful

theorem idle_of_quiet {s : Stage} (hs : s.Steady) {c : Call} (hc : c.Quiet) : turn.Idle s c := by
  refine ⟨.quiet hs hc, fun r _ ↦ ?_⟩
  rcases c with _ | c | c | c | c | c
  · rfl
  · cases c <;> first | exact hc.elim | (cases s <;> first | exact hs.elim | rfl)
  · cases c <;> first | exact hc.elim | (cases s <;> first | exact hs.elim | (cases r <;> rfl))
  · cases c <;> first | exact hc.elim | rfl
  · exact hc.elim
  · rfl

end NovaChat
