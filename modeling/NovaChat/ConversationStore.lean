import NovaChat.Ledger

/-!
# The conversation store

Records, snapshots, the turn lock and the event stream of conversations, over the same store
as the ledger.  A marker transition and the event that announces it are one operation.
-/

namespace NovaChat

namespace MemConversationStore

def guardAvailable (s : MemStore) : Except ConversationError Unit :=
  if s.unavailable then .error (.store .unavailable) else .ok ()

def guardWritable (s : MemStore) : Except ConversationError Unit :=
  if s.unavailable then .error (.store .unavailable)
  else if s.readOnly then .error (.store .readOnly)
  else .ok ()

/-- The conversation, if it exists and belongs to `tenant`. -/
def owned (s : MemStore) (tenant : TenantId) (id : ConversationId) : Option Conversation :=
  (s.conversation id).filter fun c ↦ decide (c.tenantId = tenant)

/-- Refuse the append once the stream has reached its bound. -/
def ensureEventCapacity (s : MemStore) (id : ConversationId) : Except ConversationError Unit :=
  if s.maxEventsPerConversation ≤
      ((s.inner.conversationEvents.lookup id).map ConversationEventStream.nextSeq).getD 0 then
    .error .capacityExceeded
  else .ok ()

/-! ## Repository -/

def create (s : MemStore) (conversation : Conversation) :
    Except ConversationError Conversation × MemStore :=
  match guardWritable s with
  | .error e => (.error e, s)
  | .ok () =>
    if s.maxConversations ≤ HashMap.size s.inner.conversations then (.error .capacityExceeded, s)
    else (.ok conversation, { s with inner := s.inner.insertConversation conversation })

def get (s : MemStore) (tenant : TenantId) (id : ConversationId) :
    Except ConversationError (Option Conversation) :=
  match guardAvailable s with
  | .error e => .error e
  | .ok () => .ok (owned s tenant id)

def updateMetadata (s : MemStore) (tenant : TenantId) (id : ConversationId)
    (metadata : Metadata) : Except ConversationError Conversation × MemStore :=
  match guardWritable s with
  | .error e => (.error e, s)
  | .ok () =>
    match owned s tenant id with
    | none => (.error .notFound, s)
    | some existing =>
      let updated := { existing with metadata := metadata }
      (.ok updated, { s with inner := s.inner.insertConversation updated })

def delete (s : MemStore) (tenant : TenantId) (id : ConversationId) :
    Except ConversationError Bool × MemStore :=
  match guardWritable s with
  | .error e => (.error e, s)
  | .ok () =>
    match owned s tenant id with
    | none => (.ok false, s)
    | some _ =>
      let (removed, inner) := s.inner.removeConversation id
      (.ok removed.isSome, { s with inner := inner })

def removeAll : List ConversationId → Inner → ℕ × Inner
  | [], g => (0, g)
  | id :: ids, g =>
    let (removed, g') := g.removeConversation id
    let (n, g'') := removeAll ids g'
    (n + if removed.isSome then 1 else 0, g'')

def deleteByTenant (s : MemStore) (tenant : TenantId) : Except ConversationError ℕ × MemStore :=
  match guardWritable s with
  | .error e => (.error e, s)
  | .ok () =>
    let (removed, inner) :=
      removeAll ((s.inner.conversationsByTenant.lookup tenant).getD []) s.inner
    (.ok removed, { s with inner := inner })

/-- Every conversation the tenant owns, newest first.  A set is visited in the order of its ids. -/
def list (s : MemStore) (tenant : TenantId) : Except ConversationError (List Conversation) :=
  match guardAvailable s with
  | .error e => .error e
  | .ok () =>
    let ids := ((s.inner.conversationsByTenant.lookup tenant).getD []).mergeSort fun a b ↦
      decide (a.uuid.bits ≤ b.uuid.bits)
    .ok ((ids.filterMap s.conversation).mergeSort fun a b ↦
      decide (b.createdAtMs ≤ a.createdAtMs))

/-! ## Snapshots -/

def readSnapshot (s : MemStore) (tenant : TenantId) (id : ConversationId) :
    Except ConversationError ResolvedContext :=
  match guardAvailable s with
  | .error e => .error e
  | .ok () =>
    match owned s tenant id with
    | none => .error .notFound
    | some _ => .ok ⟨(s.snapshot id).entries, (s.snapshot id).turnCount⟩

/-- The entries a turn adds: its input, then its output with the reasoning on the first item. -/
def turnEntries (commit : TurnCommit) : List ContextEntry :=
  commit.inputItems.map (fun item ↦ ⟨item, none⟩) ++
    match commit.outputItems with
    | [] => []
    | item :: items => ⟨item, commit.reasoning⟩ :: items.map fun item ↦ ⟨item, none⟩

/-- A snapshot with one turn more.  A repeat for the same response changes nothing. -/
def addTurn (snap : Snapshot) (responseId : ResponseId) (commit : TurnCommit) : Snapshot :=
  match snap.appended.lookup responseId with
  | some _ => snap
  | none =>
    { entries := snap.entries ++ turnEntries commit
      turnCount := snap.turnCount + 1
      appended := snap.appended.insert responseId snap.turnCount }

/-- Append one turn and return its index: on a repeat, the index it was assigned before. -/
def appendTurn (s : MemStore) (tenant : TenantId) (id : ConversationId) (responseId : ResponseId)
    (commit : TurnCommit) : Except ConversationError ℕ × MemStore :=
  match guardWritable s with
  | .error e => (.error e, s)
  | .ok () =>
    match owned s tenant id with
    | none => (.error .notFound, s)
    | some _ =>
      let snap := s.snapshot id
      (.ok ((snap.appended.lookup responseId).getD snap.turnCount),
        { s with
          inner := { s.inner with
            snapshots := s.inner.snapshots.insert id (addTurn snap responseId commit) } })

/-- Move the tail pointer.  Last write wins. -/
def advance (s : MemStore) (tenant : TenantId) (id : ConversationId) (last : ResponseId) :
    Except ConversationError Unit × MemStore :=
  match guardWritable s with
  | .error e => (.error e, s)
  | .ok () =>
    match owned s tenant id with
    | none => (.error .notFound, s)
    | some existing =>
      (.ok (),
        { s with
          inner := s.inner.insertConversation { existing with lastResponseId := some last } })

/-! ## The turn lock -/

/-- Set the marker, announce it, and remember where. -/
def occupy (s : MemStore) (id : ConversationId) (existing : Conversation)
    (responseId : ResponseId) (nowMs : ℕ) : ℕ × MemStore :=
  let marked := s.inner.insertConversation { existing with activeResponseId := some responseId }
  let (seq, pushed) := marked.pushConversationEvent id (.turnStarted responseId) nowMs
  (seq,
    { s with
      inner := { pushed with
        conversationEvents := HashMap.modify pushed.conversationEvents id fun stream ↦
          { stream with lockSeq := some seq } } })

/-- Occupy the marker and emit `turnStarted`; re-entering is harmless. -/
def acquireActive (s : MemStore) (tenant : TenantId) (id : ConversationId)
    (responseId : ResponseId) (nowMs : ℕ) : Except ConversationError ℕ × MemStore :=
  match guardWritable s with
  | .error e => (.error e, s)
  | .ok () =>
    match owned s tenant id with
    | none => (.error .notFound, s)
    | some existing =>
      match existing.activeResponseId with
      | none =>
        match ensureEventCapacity s id with
        | .error e => (.error e, s)
        | .ok () =>
          let (seq, s') := occupy s id existing responseId nowMs
          (.ok seq, s')
      | some holder =>
        if holder = responseId then
          (.ok (((s.inner.conversationEvents.lookup id).bind
            ConversationEventStream.lockSeq).getD 0), s)
        else (.error (.busy holder), s)

/-- Clear the marker, announce it, and remember where. -/
def vacate (s : MemStore) (id : ConversationId) (existing : Conversation)
    (responseId : ResponseId) (status : ResponseStatus) (nowMs : ℕ) : ℕ × MemStore :=
  let cleared := s.inner.insertConversation { existing with activeResponseId := none }
  let (seq, pushed) := cleared.pushConversationEvent id (.turnCompleted responseId status) nowMs
  (seq,
    { s with
      inner := { pushed with
        conversationEvents := HashMap.modify pushed.conversationEvents id fun stream ↦
          { stream with lastCompleted := some (responseId, seq) } } })

/-- Clear the marker if `responseId` still holds it, and emit `turnCompleted`. -/
def releaseActive (s : MemStore) (tenant : TenantId) (id : ConversationId)
    (responseId : ResponseId) (status : ResponseStatus) (nowMs : ℕ) :
    Except ConversationError ℕ × MemStore :=
  match guardWritable s with
  | .error e => (.error e, s)
  | .ok () =>
    match owned s tenant id with
    | none => (.ok 0, s)
    | some existing =>
      if existing.activeResponseId ≠ some responseId then (.ok 0, s)
      else
        match (s.inner.conversationEvents.lookup id).bind
            ConversationEventStream.lastCompleted with
        | some (last, seq) =>
          if last = responseId then (.ok seq, s)
          else finish existing
        | none => finish existing
where
  finish (existing : Conversation) : Except ConversationError ℕ × MemStore :=
    match ensureEventCapacity s id with
    | .error e => (.error e, s)
    | .ok () =>
      let (seq, s') := vacate s id existing responseId status nowMs
      (.ok seq, s')

/-- Clear a marker `holder` left behind, without an event. -/
def releaseStaleActive (s : MemStore) (tenant : TenantId) (id : ConversationId)
    (holder : ResponseId) : Except ConversationError Bool × MemStore :=
  match guardWritable s with
  | .error e => (.error e, s)
  | .ok () =>
    match owned s tenant id with
    | none => (.ok false, s)
    | some existing =>
      if existing.activeResponseId ≠ some holder then (.ok false, s)
      else
        (.ok true,
          { s with
            inner := s.inner.insertConversation { existing with activeResponseId := none } })

/-! ## The event stream -/

def appendEvent (s : MemStore) (tenant : TenantId) (id : ConversationId)
    (kind : ConversationEventKind) (nowMs : ℕ) : Except ConversationError ℕ × MemStore :=
  match guardWritable s with
  | .error e => (.error e, s)
  | .ok () =>
    match owned s tenant id with
    | none => (.error .notFound, s)
    | some _ =>
      match ensureEventCapacity s id with
      | .error e => (.error e, s)
      | .ok () =>
        let (seq, inner) := s.inner.pushConversationEvent id kind nowMs
        (.ok seq, { s with inner := inner })

/-- The last look a `read_after` takes at the stream before it returns. -/
def readAfter (s : MemStore) (tenant : TenantId) (id : ConversationId)
    (startingAfter : Option ℕ) (limit : ℕ) : Except ConversationError (List ConversationEvent) :=
  match guardAvailable s with
  | .error e => .error e
  | .ok () =>
    match owned s tenant id with
    | none => .error .notFound
    | some _ =>
      let start := match startingAfter with
        | none => 0
        | some seq => (seq + 1) % 2 ^ 64
      .ok ((((s.inner.conversationEvents.lookup id).getD {}).events.drop start).take limit)

/-! ## What the operations do -/

/-- A change that leaves the ledger, the switches and the bounds alone. -/
structure ConversationOnly (s s' : MemStore) : Prop where
  records : s'.inner.records = s.inner.records
  queued : s'.inner.queued = s.inner.queued
  idem : s'.inner.idem = s.inner.idem
  heartbeats : s'.inner.heartbeats = s.inner.heartbeats
  partialUsage : s'.inner.partialUsage = s.inner.partialUsage
  readOnly : s'.readOnly = s.readOnly
  unavailable : s'.unavailable = s.unavailable
  pendingLimit : s'.pendingLimit = s.pendingLimit
  maxRecords : s'.maxRecords = s.maxRecords

theorem ConversationOnly.refl (s : MemStore) : ConversationOnly s s :=
  ⟨rfl, rfl, rfl, rfl, rfl, rfl, rfl, rfl, rfl⟩

theorem ConversationOnly.trans {s s' s'' : MemStore} (h : ConversationOnly s s')
    (h' : ConversationOnly s' s'') : ConversationOnly s s'' :=
  ⟨h'.1.trans h.1, h'.2.trans h.2, h'.3.trans h.3, h'.4.trans h.4, h'.5.trans h.5,
    h'.6.trans h.6, h'.7.trans h.7, h'.8.trans h.8, h'.9.trans h.9⟩

theorem ConversationOnly.record {s s' : MemStore} (h : ConversationOnly s s') (r : ResponseId) :
    s'.record r = s.record r := by
  simp only [MemStore.record, h.records]

theorem owned_eq_some {s : MemStore} {tenant : TenantId} {id : ConversationId}
    {x : Conversation} :
    owned s tenant id = some x ↔ s.conversation id = some x ∧ x.tenantId = tenant := by
  simp [owned, Option.filter_eq_some_iff]

theorem conversation_insert (s : MemStore) (x : Conversation) (c : ConversationId) :
    ({ s with inner := s.inner.insertConversation x } : MemStore).conversation c =
      if c = x.id then some x else s.conversation c :=
  HashMap.lookup_insert' _ _ _ _

theorem conversation_occupy (s : MemStore) (id : ConversationId) (x : Conversation)
    (responseId : ResponseId) (nowMs : ℕ) (c : ConversationId) :
    (occupy s id x responseId nowMs).2.conversation c =
      if c = x.id then some { x with activeResponseId := some responseId }
      else s.conversation c :=
  HashMap.lookup_insert' _ _ _ _

theorem conversation_vacate (s : MemStore) (id : ConversationId) (x : Conversation)
    (responseId : ResponseId) (status : ResponseStatus) (nowMs : ℕ) (c : ConversationId) :
    (vacate s id x responseId status nowMs).2.conversation c =
      if c = x.id then some { x with activeResponseId := none } else s.conversation c :=
  HashMap.lookup_insert' _ _ _ _

theorem guardWritable_error {s : MemStore} {e : ConversationError}
    (h : guardWritable s = .error e) : ∃ e', e = .store e' := by
  unfold guardWritable at h
  split_ifs at h
  · exact ⟨_, (Except.error.inj h).symm⟩
  · exact ⟨_, (Except.error.inj h).symm⟩

theorem ensureEventCapacity_error {s : MemStore} {id : ConversationId} {e : ConversationError}
    (h : ensureEventCapacity s id = .error e) : e = .capacityExceeded := by
  unfold ensureEventCapacity at h
  split_ifs at h
  exact (Except.error.inj h).symm

/-- What an acquire can do: refuse, find itself the holder, or occupy a free marker. -/
theorem acquireActive_cases (s : MemStore) (tenant : TenantId) (id : ConversationId)
    (responseId : ResponseId) (nowMs : ℕ) :
    (∃ e, acquireActive s tenant id responseId nowMs = (.error e, s) ∧
      ∀ holder, e = .busy holder → ∃ x, owned s tenant id = some x ∧
        x.activeResponseId = some holder ∧ holder ≠ responseId) ∨
    (∃ x seq, owned s tenant id = some x ∧ x.activeResponseId = some responseId ∧
      acquireActive s tenant id responseId nowMs = (.ok seq, s)) ∨
    ∃ x, guardWritable s = .ok () ∧ owned s tenant id = some x ∧ x.activeResponseId = none ∧
      ensureEventCapacity s id = .ok () ∧
      acquireActive s tenant id responseId nowMs =
        (.ok (occupy s id x responseId nowMs).1, (occupy s id x responseId nowMs).2) := by
  unfold acquireActive
  split
  · next e he =>
      obtain ⟨e', rfl⟩ := guardWritable_error he
      exact Or.inl ⟨_, rfl, by simp⟩
  · next hguard =>
      split
      · exact Or.inl ⟨_, rfl, by simp⟩
      · next x hx =>
          split
          · next hfree =>
              split
              · next e he =>
                  obtain rfl := ensureEventCapacity_error he
                  exact Or.inl ⟨_, rfl, by simp⟩
              · next hcap => exact Or.inr (Or.inr ⟨x, hguard, hx, hfree, hcap, rfl⟩)
          · next holder hholder =>
              split_ifs with heq
              · subst heq
                exact Or.inr (Or.inl ⟨x, _, hx, hholder, rfl⟩)
              · refine Or.inl ⟨_, rfl, fun h hbusy ↦ ?_⟩
                obtain rfl : holder = h := by simpa using hbusy
                exact ⟨x, hx, hholder, heq⟩

/-- What a release can do: nothing, or vacate the marker its caller holds. -/
theorem releaseActive_cases (s : MemStore) (tenant : TenantId) (id : ConversationId)
    (responseId : ResponseId) (status : ResponseStatus) (nowMs : ℕ) :
    (∃ reply, releaseActive s tenant id responseId status nowMs = (reply, s)) ∨
    ∃ x, owned s tenant id = some x ∧ x.activeResponseId = some responseId ∧
      guardWritable s = .ok () ∧ ensureEventCapacity s id = .ok () ∧
      releaseActive s tenant id responseId status nowMs =
        (.ok (vacate s id x responseId status nowMs).1,
          (vacate s id x responseId status nowMs).2) := by
  have hfinish : ∀ x, owned s tenant id = some x → x.activeResponseId = some responseId →
      guardWritable s = .ok () →
      (∃ reply, releaseActive.finish s id responseId status nowMs x = (reply, s)) ∨
      ∃ x, owned s tenant id = some x ∧ x.activeResponseId = some responseId ∧
        guardWritable s = .ok () ∧ ensureEventCapacity s id = .ok () ∧
        releaseActive.finish s id responseId status nowMs x =
          (.ok (vacate s id x responseId status nowMs).1,
            (vacate s id x responseId status nowMs).2) := by
    intro x hx hheld hguard
    unfold releaseActive.finish
    split
    · exact Or.inl ⟨_, rfl⟩
    · next hcap => exact Or.inr ⟨x, hx, hheld, hguard, hcap, rfl⟩
  unfold releaseActive
  split
  · exact Or.inl ⟨_, rfl⟩
  · next hguard =>
      split
      · exact Or.inl ⟨_, rfl⟩
      · next x hx =>
          split_ifs with hheld
          · exact Or.inl ⟨_, rfl⟩
          · push Not at hheld
            split
            · split_ifs
              · exact Or.inl ⟨_, rfl⟩
              · rcases hfinish x hx hheld hguard with h | ⟨y, hy, h⟩
                · exact Or.inl h
                · obtain rfl : x = y := Option.some.inj (hx.symm.trans hy)
                  exact Or.inr ⟨x, hx, h⟩
            · rcases hfinish x hx hheld hguard with h | ⟨y, hy, h⟩
              · exact Or.inl h
              · obtain rfl : x = y := Option.some.inj (hx.symm.trans hy)
                exact Or.inr ⟨x, hx, h⟩

theorem releaseStaleActive_cases (s : MemStore) (tenant : TenantId) (id : ConversationId)
    (holder : ResponseId) :
    (∃ reply, releaseStaleActive s tenant id holder = (reply, s)) ∨
    ∃ x, owned s tenant id = some x ∧ x.activeResponseId = some holder ∧
      guardWritable s = .ok () ∧
      releaseStaleActive s tenant id holder =
        (.ok true,
          { s with inner := s.inner.insertConversation { x with activeResponseId := none } }) := by
  unfold releaseStaleActive
  split
  · exact Or.inl ⟨_, rfl⟩
  · next hguard =>
      split
      · exact Or.inl ⟨_, rfl⟩
      · next x hx =>
          split_ifs with hheld
          · exact Or.inl ⟨_, rfl⟩
          · exact Or.inr ⟨x, hx, by simpa using hheld, hguard, rfl⟩

theorem appendTurn_cases (s : MemStore) (tenant : TenantId) (id : ConversationId)
    (responseId : ResponseId) (commit : TurnCommit) :
    (∃ e, appendTurn s tenant id responseId commit = (.error e, s)) ∨
    ∃ x index, owned s tenant id = some x ∧
      appendTurn s tenant id responseId commit = (.ok index,
        { s with
          inner := { s.inner with
            snapshots := s.inner.snapshots.insert id
              (addTurn (s.snapshot id) responseId commit) } }) := by
  unfold appendTurn
  split
  · exact Or.inl ⟨_, rfl⟩
  · split
    · exact Or.inl ⟨_, rfl⟩
    · next x hx => exact Or.inr ⟨x, _, hx, rfl⟩

theorem advance_cases (s : MemStore) (tenant : TenantId) (id : ConversationId)
    (last : ResponseId) :
    (∃ e, advance s tenant id last = (.error e, s)) ∨
    ∃ x, owned s tenant id = some x ∧
      advance s tenant id last = (.ok (),
        { s with inner := s.inner.insertConversation { x with lastResponseId := some last } }) := by
  unfold advance
  split
  · exact Or.inl ⟨_, rfl⟩
  · split
    · exact Or.inl ⟨_, rfl⟩
    · next x hx => exact Or.inr ⟨x, hx, rfl⟩

end MemConversationStore

end NovaChat
