import NovaChat.Store

/-!
# The ledger

Admission, claims, completion, cancellation and reaping of response records, each a single
atomic operation on the store.
-/

namespace NovaChat

/-- What the ledger uses of an integrity port. -/
structure ContentIntegrity where
  alg : String
  sign : String → Except IntegrityError String

/-- `as u64` of a duration in milliseconds. -/
def asU64 (ms : ℕ) : ℕ := ms % 2 ^ 64

namespace MemResponseLedger

/-- Sign the stored input so that tampering is detectable. -/
def sign (nfc : String → String) (integrity : Option ContentIntegrity)
    (record : ResponseRecord) : Except LedgerError ResponseRecord :=
  match integrity with
  | none => .ok record
  | some i =>
    match i.sign (canonicalItems nfc record.spec.inputItems) with
    | .error e => .error (.store (.internal e.text))
    | .ok tag => .ok { record with integrity := some ⟨i.alg, tag⟩ }

/-- A record, its queue entry and its idempotency entry, written together. -/
def enqueue (s : MemStore) (record : ResponseRecord) (key : IdempotencyKey) : MemStore :=
  { s with
    inner := { s.inner with
      queued := s.inner.queued ++ [record.responseId]
      idem := s.inner.idem.insert key record.responseId }.insertRecord record }

/-- The decision taken under one lock: idempotency gate first, then the refusals. -/
def admitRecord (s : MemStore) (record : ResponseRecord) (key : IdempotencyKey) :
    Except LedgerError CreateOutcome × MemStore :=
  match s.inner.idem.lookup key with
  | some existing =>
    match s.record existing with
    | none => (.error .notFound, s)
    | some existing => (.ok (.duplicate existing), s)
  | none =>
    if s.readOnly then (.ok .readOnly, s)
    else if s.pendingLimit ≤ s.inner.inFlightCount then (.ok .overloaded, s)
    else if s.maxRecords ≤ HashMap.size s.inner.records then
      (.error (.store .unavailable), s)
    else (.ok (.accepted record), enqueue s record key)

def create (nfc : String → String) (integrity : Option ContentIntegrity) (s : MemStore)
    (record : ResponseRecord) (key : IdempotencyKey) :
    Except LedgerError CreateOutcome × MemStore :=
  match sign nfc integrity record with
  | .error e => (.error e, s)
  | .ok record => admitRecord s record key

/-- Refuse writes while read-only. -/
def guardWritable (s : MemStore) : Except LedgerError Unit :=
  if s.readOnly then .error (.store .readOnly) else .ok ()

/-- A record as its claim leaves it. -/
def claimed (record : ResponseRecord) (agentId : AgentId) : ResponseRecord :=
  { record with attempt := record.attempt.next, status := .inProgress, owner := some agentId }

/-- Pop and verify: stale queue entries are dropped on the way to the first queued record. -/
def claimLoop (s : MemStore) (agentId : AgentId) (nowMs execTtlMs : ℕ) :
    List ResponseId → Option ClaimedResponse × MemStore
  | [] => (none, { s with inner := { s.inner with queued := [] } })
  | id :: rest =>
    match s.record id with
    | none => claimLoop s agentId nowMs execTtlMs rest
    | some record =>
      if record.status = .queued then
        (some ⟨claimed record agentId, satAdd nowMs (asU64 execTtlMs)⟩,
          { s with
            inner := { s.inner with
              queued := rest
              records := s.inner.records.insert id (claimed record agentId)
              heartbeats := s.inner.heartbeats.insert agentId nowMs } })
      else
        claimLoop s agentId nowMs execTtlMs rest

def claim (s : MemStore) (agentId : AgentId) (nowMs execTtlMs : ℕ) :
    Except LedgerError (Option ClaimedResponse) × MemStore :=
  match guardWritable s with
  | .error e => (.error e, s)
  | .ok () =>
    let (found, s') := claimLoop s agentId nowMs execTtlMs s.inner.queued
    (.ok found, s')

def heartbeat (s : MemStore) (agentId : AgentId) (nowMs : ℕ) : Except LedgerError Unit × MemStore :=
  (.ok (),
    { s with inner := { s.inner with heartbeats := s.inner.heartbeats.insert agentId nowMs } })

/-- Replace the record of `id`. -/
def putRecord (s : MemStore) (id : ResponseId) (record : ResponseRecord) : MemStore :=
  { s with inner := { s.inner with records := s.inner.records.insert id record } }

def complete (s : MemStore) (id : ResponseId) (expectedAttempt : Attempt)
    (status : ResponseStatus) (usage : Usage) (nowMs : ℕ) : Except LedgerError Unit × MemStore :=
  match guardWritable s with
  | .error e => (.error e, s)
  | .ok () =>
    if status.isTerminal = false then
      (.error (.invalidTransition (status.text ++ " is not terminal")), s)
    else
      match s.record id with
      | none => (.error .notFound, s)
      | some record =>
        if record.attempt ≠ expectedAttempt ∨ record.status ≠ .inProgress then
          (.error .staleAttempt, s)
        else
          (.ok (), putRecord s id
            { record with
              status := status, owner := none, usage := usage, completedAtMs := some nowMs })

/-- A record taken away from its holder: the fence rises with the terminal status. -/
def superseded (record : ResponseRecord) (status : ResponseStatus) (nowMs : ℕ) :
    ResponseRecord :=
  { record with
    attempt := record.attempt.next, status := status, owner := none
    completedAtMs := some nowMs }

/-- Book usage already burnt on the running attempt. -/
def bookPartial (s : MemStore) (id : ResponseId) (record : ResponseRecord) : MemStore :=
  if record.usage.isZero then s
  else
    { s with
      inner := { s.inner with
        partialUsage := s.inner.partialUsage.insert (id, record.attempt) record.usage } }

def cancel (s : MemStore) (tenant : TenantId) (id : ResponseId) (nowMs : ℕ) :
    Except LedgerError Unit × MemStore :=
  match guardWritable s with
  | .error e => (.error e, s)
  | .ok () =>
    match s.record id with
    | none => (.error .notFound, s)
    | some record =>
      if record.tenantId ≠ tenant then (.error .notFound, s)
      else if record.status.isTerminal then
        (.error (.invalidTransition ("already " ++ record.status.text)), s)
      else
        (.ok (), bookPartial (putRecord s id (superseded record .cancelled nowMs)) id record)

/-- Whether the holder of a running record stopped reporting. -/
def lost (s : MemStore) (record : ResponseRecord) (nowMs ttlMs : ℕ) : Bool :=
  match record.owner.bind fun a ↦ s.inner.heartbeats.lookup a with
  | some hb => decide (nowMs - hb > ttlMs)
  | none => true

/-- The claims a reap takes away. -/
def toFail (s : MemStore) (nowMs ttlMs : ℕ) : List ResponseId :=
  (s.inner.records.entries.filter fun e ↦
    e.2.status = .inProgress && lost s e.2 nowMs ttlMs).map Sigma.fst

def reapOne (s : MemStore) (id : ResponseId) (nowMs : ℕ) : List AbortedClaim × MemStore :=
  match s.record id with
  | none => ([], s)
  | some record =>
    ([⟨id, record.attempt, record.tenantId, record.conversationId, record.spec.inputItems,
        record.spec.store⟩],
      bookPartial (putRecord s id (superseded record .failed nowMs)) id record)

def reapAll (nowMs : ℕ) : List ResponseId → MemStore → List AbortedClaim × MemStore
  | [], s => ([], s)
  | id :: ids, s =>
    let (aborted, s') := reapOne s id nowMs
    let (rest, s'') := reapAll nowMs ids s'
    (aborted ++ rest, s'')

/-- Reaping is not refused while read-only. -/
def reap (s : MemStore) (nowMs heartbeatTtlMs : ℕ) :
    Except LedgerError (List AbortedClaim) × MemStore :=
  let (aborted, s') := reapAll nowMs (toFail s nowMs (asU64 heartbeatTtlMs)) s
  (.ok aborted, s')

def recordPartialUsage (s : MemStore) (id : ResponseId) (attempt : Attempt) (usage : Usage) :
    Except LedgerError Unit × MemStore :=
  match s.record id with
  | none => (.error .notFound, s)
  | some _ =>
    let entry := (s.inner.partialUsage.lookup (id, attempt)).getD {}
    (.ok (),
      { s with
        inner := { s.inner with
          partialUsage := s.inner.partialUsage.insert (id, attempt) (entry.accumulate usage) } })

def get (s : MemStore) (id : ResponseId) : Except LedgerError (Option ResponseRecord) :=
  .ok (s.record id)

def delete (s : MemStore) (id : ResponseId) : Except LedgerError Bool × MemStore :=
  match guardWritable s with
  | .error e => (.error e, s)
  | .ok () =>
    let (removed, inner) := s.inner.removeRecord id
    (.ok removed.isSome, { s with inner := inner })

def removeAll : List ResponseId → Inner → ℕ × Inner
  | [], g => (0, g)
  | id :: ids, g =>
    let (removed, g') := g.removeRecord id
    let (n, g'') := removeAll ids g'
    (n + if removed.isSome then 1 else 0, g'')

def deleteByTenant (s : MemStore) (tenant : TenantId) : Except LedgerError ℕ × MemStore :=
  match guardWritable s with
  | .error e => (.error e, s)
  | .ok () =>
    let (removed, inner) := removeAll ((s.inner.byTenant.lookup tenant).getD []) s.inner
    (.ok removed, { s with inner := inner })

/-- The fence: the attempt must be the running one. -/
def checkAttempt (s : MemStore) (id : ResponseId) (attempt : Attempt) : Except LedgerError Unit :=
  if s.readOnly then .error (.store .readOnly)
  else
    match s.record id with
    | none => .error .notFound
    | some record =>
      if record.attempt ≠ attempt ∨ record.status ≠ .inProgress then .error .staleAttempt
      else .ok ()

/-! ## What the operations do -/

/-- A change that leaves conversations and switches alone. -/
structure LedgerOnly (s s' : MemStore) : Prop where
  conversations : s'.inner.conversations = s.inner.conversations
  conversationEvents : s'.inner.conversationEvents = s.inner.conversationEvents
  snapshots : s'.inner.snapshots = s.inner.snapshots
  readOnly : s'.readOnly = s.readOnly
  unavailable : s'.unavailable = s.unavailable

theorem LedgerOnly.refl (s : MemStore) : LedgerOnly s s := ⟨rfl, rfl, rfl, rfl, rfl⟩

theorem LedgerOnly.trans {s s' s'' : MemStore} (h : LedgerOnly s s') (h' : LedgerOnly s' s'') :
    LedgerOnly s s'' :=
  ⟨h'.1.trans h.1, h'.2.trans h.2, h'.3.trans h.3, h'.4.trans h.4, h'.5.trans h.5⟩

theorem LedgerOnly.marker {s s' : MemStore} (h : LedgerOnly s s') (c : ConversationId) :
    s'.marker c = s.marker c := by
  simp only [MemStore.marker, MemStore.conversation, h.conversations]

theorem LedgerOnly.snapshot {s s' : MemStore} (h : LedgerOnly s s') (c : ConversationId) :
    s'.snapshot c = s.snapshot c := by
  simp only [MemStore.snapshot, h.snapshots]

theorem record_putRecord (s : MemStore) (id r : ResponseId) (x : ResponseRecord) :
    (putRecord s id x).record r = if r = id then some x else s.record r :=
  HashMap.lookup_insert' _ _ _ _

theorem ledgerOnly_putRecord (s : MemStore) (id : ResponseId) (x : ResponseRecord) :
    LedgerOnly s (putRecord s id x) :=
  ⟨rfl, rfl, rfl, rfl, rfl⟩

@[simp] theorem record_bookPartial (s : MemStore) (id r : ResponseId) (x : ResponseRecord) :
    (bookPartial s id x).record r = s.record r := by
  unfold bookPartial
  split <;> rfl

theorem ledgerOnly_bookPartial (s : MemStore) (id : ResponseId) (x : ResponseRecord) :
    LedgerOnly s (bookPartial s id x) := by
  unfold bookPartial
  split <;> exact ⟨rfl, rfl, rfl, rfl, rfl⟩

/-! ### Admission -/

theorem record_enqueue (s : MemStore) (x : ResponseRecord) (key : IdempotencyKey)
    (r : ResponseId) :
    (enqueue s x key).record r = if r = x.responseId then some x else s.record r :=
  HashMap.lookup_insert' _ _ _ _

theorem ledgerOnly_enqueue (s : MemStore) (x : ResponseRecord) (key : IdempotencyKey) :
    LedgerOnly s (enqueue s x key) :=
  ⟨rfl, rfl, rfl, rfl, rfl⟩

/-- Signing changes the tag only. -/
theorem sign_spec {nfc : String → String} {integrity : Option ContentIntegrity}
    {record x : ResponseRecord} (h : sign nfc integrity record = .ok x) :
    x = { record with integrity := x.integrity } := by
  unfold sign at h
  split at h
  · obtain rfl : record = x := by simpa using h
    rfl
  · split at h
    · cases h
    · obtain rfl := Except.ok.inj h
      rfl

/-- What a create can do: refuse and change nothing, or write the signed record. -/
theorem create_cases (nfc : String → String) (integrity : Option ContentIntegrity)
    (s : MemStore) (record : ResponseRecord) (key : IdempotencyKey) :
    (∃ reply, (∀ x, reply ≠ .ok (.accepted x)) ∧
      create nfc integrity s record key = (reply, s)) ∨
    ∃ x, sign nfc integrity record = .ok x ∧ s.inner.idem.lookup key = none ∧
      s.readOnly = false ∧ s.inner.inFlightCount < s.pendingLimit ∧
      HashMap.size s.inner.records < s.maxRecords ∧
      create nfc integrity s record key = (.ok (.accepted x), enqueue s x key) := by
  unfold create
  split
  · next e _ => exact Or.inl ⟨_, by simp, rfl⟩
  · next x hx =>
      unfold admitRecord
      split
      · split <;> exact Or.inl ⟨_, by simp, rfl⟩
      · next hidem =>
          split_ifs with h1 h2 h3
          · exact Or.inl ⟨_, by simp, rfl⟩
          · exact Or.inl ⟨_, by simp, rfl⟩
          · exact Or.inl ⟨_, by simp, rfl⟩
          · exact Or.inr ⟨x, hx, hidem, by simpa using h1, by omega, by omega, rfl⟩

theorem create_of_room {nfc : String → String} {integrity : Option ContentIntegrity}
    {s : MemStore} {record x : ResponseRecord} {key : IdempotencyKey}
    (hsign : sign nfc integrity record = .ok x) (hidem : s.inner.idem.lookup key = none)
    (hwritable : s.readOnly = false) (hpending : s.inner.inFlightCount < s.pendingLimit)
    (hroom : HashMap.size s.inner.records < s.maxRecords) :
    create nfc integrity s record key = (.ok (.accepted x), enqueue s x key) := by
  simp [create, hsign, admitRecord, hidem, hwritable, Nat.not_le.mpr hpending, Nat.not_le.mpr hroom]

theorem create_of_hit {nfc : String → String} {integrity : Option ContentIntegrity}
    {s : MemStore} {record x y : ResponseRecord} {key : IdempotencyKey} {r : ResponseId}
    (hsign : sign nfc integrity record = .ok x) (hidem : s.inner.idem.lookup key = some r)
    (hrecord : s.record r = some y) :
    create nfc integrity s record key = (.ok (.duplicate y), s) := by
  simp [create, hsign, admitRecord, hidem, hrecord]

/-! ### Claims -/

/-- The store after the first waiting record of a queue was claimed and `rest` is left of it. -/
def take (s : MemStore) (id : ResponseId) (record : ResponseRecord) (rest : List ResponseId)
    (agentId : AgentId) (nowMs : ℕ) : MemStore :=
  { s with
    inner := { s.inner with
      queued := rest
      records := s.inner.records.insert id (claimed record agentId)
      heartbeats := s.inner.heartbeats.insert agentId nowMs } }

theorem record_take (s : MemStore) (id r : ResponseId) (x : ResponseRecord)
    (rest : List ResponseId) (agentId : AgentId) (nowMs : ℕ) :
    (take s id x rest agentId nowMs).record r =
      if r = id then some (claimed x agentId) else s.record r :=
  HashMap.lookup_insert' _ _ _ _

/-- The loop passes over what no longer waits, up to the first record that does. -/
theorem claimLoop_cases (s : MemStore) (agentId : AgentId) (nowMs execTtlMs : ℕ) :
    ∀ queue : List ResponseId,
      (claimLoop s agentId nowMs execTtlMs queue =
          (none, { s with inner := { s.inner with queued := [] } }) ∧
        ∀ r ∈ queue, s.waits r = false) ∨
      ∃ stale id rest x, queue = stale ++ id :: rest ∧ (∀ r ∈ stale, s.waits r = false) ∧
        s.record id = some x ∧ x.status = .queued ∧
        claimLoop s agentId nowMs execTtlMs queue =
          (some ⟨claimed x agentId, satAdd nowMs (asU64 execTtlMs)⟩,
            take s id x rest agentId nowMs) := by
  intro queue
  induction queue with
  | nil => exact Or.inl ⟨rfl, by simp⟩
  | cons id rest ih =>
      have hskip : s.waits id = false →
          claimLoop s agentId nowMs execTtlMs (id :: rest) =
            claimLoop s agentId nowMs execTtlMs rest := by
        intro hwaits
        simp only [claimLoop]
        split
        · rfl
        · next x hx =>
            rw [if_neg]
            simpa [MemStore.waits, hx] using hwaits
      cases hwaits : s.waits id with
      | false =>
          rw [hskip hwaits]
          rcases ih with ⟨heq, hall⟩ | ⟨stale, id', rest', x, rfl, hstale, hx, hstatus, heq⟩
          · exact Or.inl ⟨heq, by simpa [hwaits] using hall⟩
          · exact Or.inr ⟨id :: stale, id', rest', x, rfl, by simpa [hwaits] using hstale, hx,
              hstatus, heq⟩
      | true =>
          obtain ⟨x, hx, hstatus⟩ := s.waits_eq_true.mp hwaits
          exact Or.inr ⟨[], id, rest, x, rfl, by simp, hx, hstatus, by
            simp [claimLoop, hx, hstatus, take]⟩

theorem claimLoop_spec (s : MemStore) (agentId : AgentId) (nowMs execTtlMs : ℕ)
    (queue : List ResponseId) :
    LedgerOnly s (claimLoop s agentId nowMs execTtlMs queue).2 ∧
    (((claimLoop s agentId nowMs execTtlMs queue).1 = none ∧
        ∀ r, (claimLoop s agentId nowMs execTtlMs queue).2.record r = s.record r) ∨
      ∃ id x, s.record id = some x ∧ x.status = .queued ∧
        (claimLoop s agentId nowMs execTtlMs queue).1 =
          some ⟨claimed x agentId, satAdd nowMs (asU64 execTtlMs)⟩ ∧
        ∀ r, (claimLoop s agentId nowMs execTtlMs queue).2.record r =
          if r = id then some (claimed x agentId) else s.record r) := by
  rcases claimLoop_cases s agentId nowMs execTtlMs queue with
    ⟨heq, -⟩ | ⟨stale, id, rest, x, -, -, hx, hstatus, heq⟩
  · rw [heq]
    exact ⟨⟨rfl, rfl, rfl, rfl, rfl⟩, Or.inl ⟨rfl, fun r ↦ rfl⟩⟩
  · rw [heq]
    exact ⟨⟨rfl, rfl, rfl, rfl, rfl⟩,
      Or.inr ⟨id, x, hx, hstatus, rfl, fun r ↦ record_take s id r x rest agentId nowMs⟩⟩

theorem claim_cases (s : MemStore) (agentId : AgentId) (nowMs execTtlMs : ℕ) :
    LedgerOnly s (claim s agentId nowMs execTtlMs).2 ∧
    (((∀ cl, (claim s agentId nowMs execTtlMs).1 ≠ .ok (some cl)) ∧
        ∀ r, (claim s agentId nowMs execTtlMs).2.record r = s.record r) ∨
      ∃ id x, s.record id = some x ∧ x.status = .queued ∧
        (claim s agentId nowMs execTtlMs).1 =
          .ok (some ⟨claimed x agentId, satAdd nowMs (asU64 execTtlMs)⟩) ∧
        ∀ r, (claim s agentId nowMs execTtlMs).2.record r =
          if r = id then some (claimed x agentId) else s.record r) := by
  unfold claim
  split
  · exact ⟨LedgerOnly.refl s, Or.inl ⟨by simp, fun r ↦ rfl⟩⟩
  · obtain ⟨honly, ⟨hnone, hrec⟩ | ⟨id, x, hx, hstatus, hsome, hrec⟩⟩ :=
      claimLoop_spec s agentId nowMs execTtlMs s.inner.queued
    · exact ⟨honly, Or.inl ⟨by simp [hnone], hrec⟩⟩
    · exact ⟨honly, Or.inr ⟨id, x, hx, hstatus, by simp [hsome], hrec⟩⟩

/-! ### Terminal transitions -/

theorem complete_cases (s : MemStore) (id : ResponseId) (attempt : Attempt)
    (status : ResponseStatus) (usage : Usage) (nowMs : ℕ) :
    (∃ e, complete s id attempt status usage nowMs = (.error e, s)) ∨
    ∃ x, s.readOnly = false ∧ s.record id = some x ∧ x.attempt = attempt ∧
      x.status = .inProgress ∧ status.isTerminal = true ∧
      complete s id attempt status usage nowMs = (.ok (), putRecord s id
        { x with
          status := status, owner := none, usage := usage, completedAtMs := some nowMs }) := by
  unfold complete guardWritable
  by_cases hro : s.readOnly
  · exact Or.inl ⟨_, by simp [hro]; rfl⟩
  simp only [hro, Bool.false_eq_true, if_false]
  split_ifs with hterm
  · exact Or.inl ⟨_, rfl⟩
  · split
    · exact Or.inl ⟨_, rfl⟩
    · next x hx =>
        split_ifs with hstale
        · exact Or.inl ⟨_, rfl⟩
        · push Not at hstale
          exact Or.inr ⟨x, trivial, hx, hstale.1, hstale.2, by simpa using hterm, rfl⟩

theorem cancel_cases (s : MemStore) (tenant : TenantId) (id : ResponseId) (nowMs : ℕ) :
    (∃ e, cancel s tenant id nowMs = (.error e, s)) ∨
    ∃ x, s.readOnly = false ∧ s.record id = some x ∧ x.tenantId = tenant ∧
      x.status.isTerminal = false ∧
      cancel s tenant id nowMs =
        (.ok (), bookPartial (putRecord s id (superseded x .cancelled nowMs)) id x) := by
  unfold cancel guardWritable
  by_cases hro : s.readOnly
  · exact Or.inl ⟨_, by simp [hro]; rfl⟩
  simp only [hro, Bool.false_eq_true, if_false]
  split
  · exact Or.inl ⟨_, rfl⟩
  · next x hx =>
      split_ifs with htenant hterm
      · exact Or.inl ⟨_, rfl⟩
      · exact Or.inl ⟨_, rfl⟩
      · exact Or.inr ⟨x, trivial, hx, by simpa using htenant, by simpa using hterm, rfl⟩

theorem mem_toFail (s : MemStore) (nowMs ttlMs : ℕ) (id : ResponseId) :
    id ∈ toFail s nowMs ttlMs ↔
      ∃ x, s.record id = some x ∧ x.status = .inProgress ∧ lost s x nowMs ttlMs = true := by
  simp only [toFail, List.mem_map, List.mem_filter, Bool.and_eq_true, decide_eq_true_eq]
  constructor
  · rintro ⟨⟨id', x⟩, ⟨hmem, hstatus, hlost⟩, rfl⟩
    exact ⟨x, (HashMap.mem_entries_iff _ _ _).mp hmem, hstatus, hlost⟩
  · rintro ⟨x, hx, hstatus, hlost⟩
    exact ⟨⟨id, x⟩, ⟨(HashMap.mem_entries_iff _ _ _).mpr hx, hstatus, hlost⟩, rfl⟩

theorem nodup_toFail (s : MemStore) (nowMs ttlMs : ℕ) : (toFail s nowMs ttlMs).Nodup :=
  List.Nodup.sublist (List.filter_sublist.map Sigma.fst) s.inner.records.nodupKeys

/-- The claim a reap takes from the holder of a record. -/
def abortedClaim (id : ResponseId) (x : ResponseRecord) : AbortedClaim :=
  ⟨id, x.attempt, x.tenantId, x.conversationId, x.spec.inputItems, x.spec.store⟩

theorem reapOne_of_record {s : MemStore} {id : ResponseId} {x : ResponseRecord} (nowMs : ℕ)
    (hx : s.record id = some x) :
    reapOne s id nowMs = ([abortedClaim id x],
      bookPartial (putRecord s id (superseded x .failed nowMs)) id x) := by
  simp [reapOne, hx, abortedClaim]

/-- Reaping a list of distinct records supersedes exactly these. -/
theorem reapAll_spec (nowMs : ℕ) : ∀ (ids : List ResponseId) (s : MemStore),
    ids.Nodup → (∀ id ∈ ids, ∃ x, s.record id = some x) →
    LedgerOnly s (reapAll nowMs ids s).2 ∧
    (reapAll nowMs ids s).1.map AbortedClaim.responseId = ids ∧
    (∀ a ∈ (reapAll nowMs ids s).1, ∃ x, s.record a.responseId = some x ∧
      a = abortedClaim a.responseId x) ∧
    ∀ r, (reapAll nowMs ids s).2.record r =
      if r ∈ ids then (s.record r).map (superseded · .failed nowMs) else s.record r := by
  intro ids
  induction ids with
  | nil => exact fun s _ _ ↦ ⟨LedgerOnly.refl s, rfl, by simp [reapAll], by simp [reapAll]⟩
  | cons id ids ih =>
      intro s hnodup hsome
      obtain ⟨hid, hnodup⟩ := List.nodup_cons.mp hnodup
      obtain ⟨x, hx⟩ := hsome id (by simp)
      have hone := reapOne_of_record nowMs hx
      set s' := bookPartial (putRecord s id (superseded x .failed nowMs)) id x with hs'
      have hrec : ∀ r, s'.record r =
          if r = id then some (superseded x .failed nowMs) else s.record r := by
        intro r
        rw [hs', record_bookPartial, record_putRecord]
      have hkeep : ∀ r ∈ ids, s'.record r = s.record r := by
        intro r hr
        rw [hrec, if_neg (by rintro rfl; exact hid hr)]
      obtain ⟨honly, hids, hclaims, hrest⟩ := ih s' hnodup fun r hr ↦ by
        rw [hkeep r hr]
        exact hsome r (by simp [hr])
      have hs : LedgerOnly s s' :=
        (ledgerOnly_putRecord _ _ _).trans (ledgerOnly_bookPartial _ _ _)
      have heq : reapAll nowMs (id :: ids) s =
          (abortedClaim id x :: (reapAll nowMs ids s').1, (reapAll nowMs ids s').2) := by
        simp [reapAll, hone]
      rw [heq]
      refine ⟨hs.trans honly, by simp [hids, abortedClaim], ?_, fun r ↦ ?_⟩
      · intro a ha
        rcases List.mem_cons.mp ha with rfl | ha
        · exact ⟨x, hx, rfl⟩
        · obtain ⟨y, hy, heq⟩ := hclaims a ha
          have hmem : a.responseId ∈ ids := hids ▸ List.mem_map_of_mem ha
          exact ⟨y, hkeep _ hmem ▸ hy, heq⟩
      · rw [hrest r]
        by_cases hr : r = id
        · subst hr
          simp [hid, hrec, hx]
        · simp [hr, hrec]

theorem reap_spec (s : MemStore) (nowMs heartbeatTtlMs : ℕ) :
    ∃ aborted, (reap s nowMs heartbeatTtlMs).1 = .ok aborted ∧
      LedgerOnly s (reap s nowMs heartbeatTtlMs).2 ∧
      (aborted.map AbortedClaim.responseId).Nodup ∧
      (∀ a ∈ aborted, ∃ x, s.record a.responseId = some x ∧ x.status = .inProgress ∧
        a = abortedClaim a.responseId x) ∧
      ∀ r, (reap s nowMs heartbeatTtlMs).2.record r =
        if r ∈ aborted.map AbortedClaim.responseId then
          (s.record r).map (superseded · .failed nowMs)
        else s.record r := by
  obtain ⟨honly, hids, hclaims, hrec⟩ := reapAll_spec nowMs
    (toFail s nowMs (asU64 heartbeatTtlMs)) s (nodup_toFail _ _ _) fun id hid ↦ by
      obtain ⟨x, hx, -⟩ := (mem_toFail _ _ _ _).mp hid
      exact ⟨x, hx⟩
  refine ⟨_, rfl, honly, ?_, fun a ha ↦ ?_, fun r ↦ ?_⟩
  · rw [hids]
    exact nodup_toFail _ _ _
  · obtain ⟨x, hx, heq⟩ := hclaims a ha
    have hmem : a.responseId ∈ toFail s nowMs (asU64 heartbeatTtlMs) :=
      hids ▸ List.mem_map_of_mem ha
    obtain ⟨y, hy, hstatus, -⟩ := (mem_toFail _ _ _ _).mp hmem
    obtain rfl : x = y := Option.some.inj (hx.symm.trans hy)
    exact ⟨x, hx, hstatus, heq⟩
  · rw [hids]
    exact hrec r

/-! ### Removal -/

theorem lookup_removeRecord (g : Inner) (id r : ResponseId) :
    (g.removeRecord id).2.records.lookup r = if r = id then none else g.records.lookup r := by
  unfold Inner.removeRecord
  split
  · next h =>
      split_ifs with hr
      · rw [hr, h]
      · rfl
  · exact HashMap.lookup_erase' _ _ _

theorem lookup_removeAll (r : ResponseId) : ∀ (ids : List ResponseId) (g : Inner),
    (removeAll ids g).2.records.lookup r = if r ∈ ids then none else g.records.lookup r := by
  intro ids
  induction ids with
  | nil => simp [removeAll]
  | cons id ids ih =>
      intro g
      simp only [removeAll, ih, lookup_removeRecord, List.mem_cons]
      by_cases hr : r = id <;> by_cases hmem : r ∈ ids <;> simp [hr, hmem]

end MemResponseLedger

end NovaChat
