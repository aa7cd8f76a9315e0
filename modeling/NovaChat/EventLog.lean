import NovaChat.Ledger

/-!
# The event log

One bounded ring per response with contiguous sequence numbers.  An append first passes the
ledger's fence and then inserts under the log's own lock; the two halves are operations of
their own, and `append` is one after the other.
-/

namespace NovaChat

structure ResponseLog where
  ring : List ResponseEvent := []
  nextSeq : ℕ := 0
  /-- Lowest sequence number still present. -/
  evictedBefore : ℕ := 0
  terminalAtMs : Option ℕ := none
  retainMs : ℕ := 0
  /-- Ring emptied by the sweeper; the entry survives for a while. -/
  swept : Bool := false

/-- Retention multiplier after which an expired log is forgotten. -/
def tombstoneFactor : ℕ := 10

namespace ResponseLog

def tombstoneDeadline (log : ResponseLog) : Option ℕ :=
  log.terminalAtMs.map fun t ↦ satAdd t (satMul log.retainMs tombstoneFactor)

def retentionDeadline (log : ResponseLog) : Option ℕ :=
  log.terminalAtMs.map fun t ↦ satAdd t log.retainMs

/-- Push one event and evict the oldest beyond `capacity`. -/
def push (log : ResponseLog) (capacity : ℕ) (event : AppendEvent) : ResponseLog :=
  let ring := log.ring ++ [⟨log.nextSeq, event⟩]
  { log with
    nextSeq := log.nextSeq + 1
    ring := ring.drop (ring.length - capacity)
    evictedBefore := log.evictedBefore + (ring.length - capacity) }

/-- One log under a sweep: what remains of it, and how much it adds to the count. -/
def sweep (nowMs : ℕ) (log : ResponseLog) : Option ResponseLog × ℕ :=
  if log.tombstoneDeadline.any fun deadline ↦ decide (deadline ≤ nowMs) then (none, 1)
  else if !log.swept && log.retentionDeadline.any fun deadline ↦ decide (deadline ≤ nowMs) then
    (some { log with ring := [], evictedBefore := log.nextSeq, swept := true }, 1)
  else (some log, 0)

end ResponseLog

theorem defaultCapacity_pos : 0 < 20000 := by decide

theorem defaultMaxLogs_pos : 0 < 100000 := by decide

/-- The logs, within bounds that are at least one. -/
structure EventLogStore where
  logs : HashMap ResponseId ResponseLog := ∅
  capacityPerResponse : ℕ := 20000
  maxLogs : ℕ := 100000
  capacity_pos : 0 < capacityPerResponse := by first | exact defaultCapacity_pos | decide
  maxLogs_pos : 0 < maxLogs := by first | exact defaultMaxLogs_pos | decide

namespace MemResponseEventLog

/-- The first half of an append: degrade switch and attempt fence, under the ledger's lock. -/
def fenceCheck (s : MemStore) (event : AppendEvent) : Except EventLogError Unit :=
  if s.readOnly then .error (.store .readOnly)
  else
    match event.attempt with
    | none => .ok ()
    | some attempt =>
      match MemResponseLedger.checkAttempt s event.responseId attempt with
      | .ok () => .ok ()
      | .error .staleAttempt => .error .staleAttempt
      | .error (.store .readOnly) => .error (.store .readOnly)
      | .error .notFound => .error .unknown
      | .error e => .error (.store (.internal e.text))

/-- The second half of an append: the insertion, under the log's lock. -/
def insert (l : EventLogStore) (event : AppendEvent) : Except EventLogError ℕ × EventLogStore :=
  match l.logs.lookup event.responseId with
  | none =>
    if l.maxLogs ≤ HashMap.size l.logs then (.error .capacityExceeded, l)
    else
      (.ok 0,
        { l with
          logs := l.logs.insert event.responseId
            (ResponseLog.push {} l.capacityPerResponse event) })
  | some log =>
    if log.swept then (.error .expired, l)
    else
      (.ok log.nextSeq,
        { l with
          logs := l.logs.insert event.responseId (log.push l.capacityPerResponse event) })

def append (s : MemStore) (l : EventLogStore) (event : AppendEvent) :
    Except EventLogError ℕ × EventLogStore :=
  match fenceCheck s event with
  | .error e => (.error e, l)
  | .ok () => insert l event

/-- The last look a `read_after` takes at the log before it returns: at once when it has
events or fails, otherwise when the wait is over. -/
def readAfter (l : EventLogStore) (id : ResponseId) (startingAfter : Option ℕ) (limit : ℕ) :
    Except EventLogError (List ResponseEvent) :=
  match l.logs.lookup id with
  | none => .error .unknown
  | some log =>
    if log.swept then .error .expired
    else
      let target := match startingAfter with
        | none => 0
        | some after => satAdd after 1
      if target < log.evictedBefore then .error .expired
      else if target < log.nextSeq then
        .ok ((log.ring.drop (target - log.evictedBefore)).take limit)
      else .ok []

def close (l : EventLogStore) (id : ResponseId) (nowMs retainMs : ℕ) :
    Except EventLogError Unit × EventLogStore :=
  match l.logs.lookup id with
  | none => (.error .unknown, l)
  | some log =>
    (.ok (),
      { l with
        logs := l.logs.insert id
          { log with retainMs := asU64 retainMs, terminalAtMs := some nowMs } })

def remove (l : EventLogStore) (id : ResponseId) : Except EventLogError Unit × EventLogStore :=
  match l.logs.lookup id with
  | none => (.error .unknown, l)
  | some _ => (.ok (), { l with logs := l.logs.erase id })

def sweepExpired (l : EventLogStore) (nowMs : ℕ) : Except EventLogError ℕ × EventLogStore :=
  (.ok (((HashMap.values l.logs).map fun log ↦ (log.sweep nowMs).2).sum),
    { l with logs := HashMap.filterMapVal l.logs fun log ↦ (log.sweep nowMs).1 })

end MemResponseEventLog

namespace EventLogStore

/-- Whether an insertion for `id` would be refused. -/
def full (l : EventLogStore) (id : ResponseId) : Bool :=
  match l.logs.lookup id with
  | none => decide (l.maxLogs ≤ HashMap.size l.logs)
  | some log => log.swept

/-- The events of a response that are still buffered. -/
def buffered (l : EventLogStore) (id : ResponseId) : List ResponseEvent :=
  ((l.logs.lookup id).map ResponseLog.ring).getD []

/-- The log an insertion for `id` adds to. -/
def log (l : EventLogStore) (id : ResponseId) : ResponseLog := (l.logs.lookup id).getD {}

/-- The store with one more event. -/
def pushed (l : EventLogStore) (event : AppendEvent) : EventLogStore :=
  { l with
    logs := l.logs.insert event.responseId
      ((l.log event.responseId).push l.capacityPerResponse event) }

end EventLogStore

/-- An insertion is refused by a full log, and otherwise pushes the event. -/
theorem MemResponseEventLog.insert_cases (l : EventLogStore) (event : AppendEvent) :
    (∃ e, l.full event.responseId = true ∧ insert l event = (.error e, l)) ∨
    l.full event.responseId = false ∧
      insert l event = (.ok (l.log event.responseId).nextSeq, l.pushed event) := by
  unfold insert EventLogStore.full EventLogStore.pushed EventLogStore.log
  cases l.logs.lookup event.responseId with
  | none =>
      by_cases hsize : l.maxLogs ≤ HashMap.size l.logs
      · exact Or.inl ⟨.capacityExceeded, by simpa using hsize, if_pos hsize⟩
      · exact Or.inr ⟨by simpa using hsize, if_neg hsize⟩
  | some log =>
      by_cases hswept : log.swept = true
      · exact Or.inl ⟨.expired, hswept, if_pos hswept⟩
      · exact Or.inr ⟨by simpa using hswept, if_neg hswept⟩

end NovaChat
