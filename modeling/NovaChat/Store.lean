import NovaChat.Ports
import Mathlib.Data.List.AList

/-!
# The in-memory store

One guarded state holds the ledger's records and the conversations, so that a record and the
conversation it belongs to cannot be observed out of step.  Beside it stand the switches and
bounds that admission checks.
-/

namespace NovaChat

/-! ## Maps -/

/-- A finite map.  Iteration visits its entries in some order. -/
abbrev HashMap (K V : Type) := AList fun _ : K ↦ V

namespace HashMap

variable {K V : Type}

def values (m : HashMap K V) : List V := m.entries.map Sigma.snd

def size (m : HashMap K V) : ℕ := m.entries.length

/-- Keep the entries whose key satisfies `p`. -/
def retain (m : HashMap K V) (p : K → Bool) : HashMap K V :=
  ⟨m.entries.filter fun e ↦ p e.1, m.nodupKeys.sublist List.filter_sublist⟩

/-- Map each value, dropping the entries that map to nothing. -/
def filterMapVal (m : HashMap K V) (f : V → Option V) : HashMap K V where
  entries := m.entries.filterMap fun e ↦ (f e.2).map fun v ↦ ⟨e.1, v⟩
  nodupKeys := by
    refine List.Nodup.sublist ?_ m.nodupKeys
    induction m.entries with
    | nil => simp
    | cons e es ih =>
        cases h : f e.2 with
        | none => simpa [h] using ih.trans (List.sublist_cons_self _ _)
        | some v => simpa [h] using ih

variable [DecidableEq K]

theorem lookup_filterMapVal (m : HashMap K V) (f : V → Option V) (k : K) :
    (filterMapVal m f).lookup k = (m.lookup k).bind f := by
  have hiff : ∀ v, (filterMapVal m f).lookup k = some v ↔ (m.lookup k).bind f = some v := by
    intro v
    rw [← Option.mem_def, AList.mem_lookup_iff]
    simp only [filterMapVal, List.mem_filterMap, Option.map_eq_some_iff, Option.bind_eq_some_iff]
    constructor
    · rintro ⟨⟨k', v'⟩, hmem, w, hw, heq⟩
      obtain ⟨rfl, rfl⟩ : k' = k ∧ w = v := by simpa using heq
      exact ⟨v', AList.mem_lookup_iff.mpr hmem, hw⟩
    · rintro ⟨v', hlook, hv⟩
      exact ⟨⟨k, v'⟩, AList.mem_lookup_iff.mp hlook, v, hv, rfl⟩
  cases h : (filterMapVal m f).lookup k with
  | none =>
      cases h' : (m.lookup k).bind f with
      | none => rfl
      | some v => rw [(hiff v).mpr h'] at h; cases h
  | some v => exact ((hiff v).mp h).symm

/-- Apply `f` to the value at `k`, if there is one. -/
def modify (m : HashMap K V) (k : K) (f : V → V) : HashMap K V :=
  match m.lookup k with
  | some v => m.insert k (f v)
  | none => m

theorem lookup_modify (m : HashMap K V) (k k' : K) (f : V → V) :
    (m.modify k f).lookup k' = if k' = k then (m.lookup k).map f else m.lookup k' := by
  unfold modify
  by_cases hk : k' = k
  · subst hk
    cases h : m.lookup k' <;> simp [h, AList.lookup_insert]
  · cases h : m.lookup k <;> simp [hk, AList.lookup_insert_ne hk]

theorem lookup_insert' (m : HashMap K V) (k k' : K) (v : V) :
    (m.insert k v).lookup k' = if k' = k then some v else m.lookup k' := by
  by_cases hk : k' = k
  · subst hk
    simp
  · simp [hk, AList.lookup_insert_ne hk]

theorem lookup_erase' (m : HashMap K V) (k k' : K) :
    (m.erase k).lookup k' = if k' = k then none else m.lookup k' := by
  by_cases hk : k' = k
  · subst hk
    simp
  · simp [hk, AList.lookup_erase_ne hk]

theorem size_insert (m : HashMap K V) (k : K) (v : V) :
    size (m.insert k v) = size m + if (m.lookup k).isNone then 1 else 0 := by
  have hsize : ∀ m' : HashMap K V, size m' = m'.keys.length := fun m' ↦ by
    simp [size, AList.keys, List.keys]
  rw [hsize, hsize, AList.keys_insert, List.length_cons]
  cases hlook : m.lookup k with
  | none =>
      have hnot : k ∉ m.keys := fun h ↦ AList.lookup_eq_none.mp hlook (AList.mem_keys.mpr h)
      rw [List.erase_of_not_mem hnot]
      rfl
  | some v' =>
      have hmem : k ∈ m.keys := AList.mem_keys.mp (AList.lookup_isSome.mp (by rw [hlook]; rfl))
      have hpos := List.length_pos_of_mem hmem
      rw [List.length_erase_of_mem hmem]
      simp only [Option.isNone_some, Bool.false_eq_true, if_false]
      omega

theorem mem_entries_iff (m : HashMap K V) (k : K) (v : V) :
    ⟨k, v⟩ ∈ m.entries ↔ m.lookup k = some v := by
  rw [← AList.mem_lookup_iff, Option.mem_def]

end HashMap

/-! ## State -/

/-- A conversation's materialised snapshot. -/
structure Snapshot where
  entries : List ContextEntry := []
  turnCount : ℕ := 0
  /-- The turn index assigned to each response that was appended. -/
  appended : HashMap ResponseId ℕ := ∅

/-- A conversation's event stream. -/
structure ConversationEventStream where
  nextSeq : ℕ := 0
  events : List ConversationEvent := []
  /-- Sequence number of the current turn's `turnStarted`. -/
  lockSeq : Option ℕ := none
  /-- Last completed turn and the sequence number of its `turnCompleted`. -/
  lastCompleted : Option (ResponseId × ℕ) := none

structure Inner where
  records : HashMap ResponseId ResponseRecord := ∅
  byTenant : HashMap TenantId (List ResponseId) := ∅
  expiry : List (ℕ × ResponseId) := []
  queued : List ResponseId := []
  /-- Idempotency gate: presence alone rejects. -/
  idem : HashMap IdempotencyKey ResponseId := ∅
  heartbeats : HashMap AgentId ℕ := ∅
  partialUsage : HashMap (ResponseId × Attempt) Usage := ∅
  conversations : HashMap ConversationId Conversation := ∅
  conversationsByTenant : HashMap TenantId (List ConversationId) := ∅
  conversationEvents : HashMap ConversationId ConversationEventStream := ∅
  snapshots : HashMap ConversationId Snapshot := ∅

structure MemStore where
  inner : Inner := {}
  readOnly : Bool := false
  unavailable : Bool := false
  pendingLimit : ℕ := 10000
  maxRecords : ℕ := 100000
  maxConversations : ℕ := 100000
  maxEventsPerConversation : ℕ := 100000

namespace Inner

/-- Add `id` to a tenant's set in an index. -/
def index {K : Type} [DecidableEq K] (m : HashMap TenantId (List K)) (tenant : TenantId)
    (id : K) : HashMap TenantId (List K) :=
  m.insert tenant (((m.lookup tenant).getD []).insert id)

/-- Drop `id` from a tenant's set, and the tenant once its set is empty. -/
def unindex {K : Type} [DecidableEq K] (m : HashMap TenantId (List K)) (tenant : TenantId)
    (id : K) : HashMap TenantId (List K) :=
  match m.lookup tenant with
  | none => m
  | some set => if (set.erase id).isEmpty then m.erase tenant else m.insert tenant (set.erase id)

def insertRecord (g : Inner) (record : ResponseRecord) : Inner :=
  { g with
    expiry := match record.expiresAtMs with
      | some deadline => g.expiry.insert (deadline, record.responseId)
      | none => g.expiry
    byTenant := index g.byTenant record.tenantId record.responseId
    records := g.records.insert record.responseId record }

def removeRecord (g : Inner) (id : ResponseId) : Option ResponseRecord × Inner :=
  match g.records.lookup id with
  | none => (none, g)
  | some record =>
    (some record,
      { g with
        records := g.records.erase id
        expiry := match record.expiresAtMs with
          | some deadline => g.expiry.erase (deadline, id)
          | none => g.expiry
        byTenant := unindex g.byTenant record.tenantId id
        partialUsage := HashMap.retain g.partialUsage fun k ↦ k.1 != id })

def insertConversation (g : Inner) (conversation : Conversation) : Inner :=
  { g with
    conversationsByTenant :=
      index g.conversationsByTenant conversation.tenantId conversation.id
    conversations := g.conversations.insert conversation.id conversation }

/-- The event stream and the snapshot go with the conversation; records are untouched. -/
def removeConversation (g : Inner) (id : ConversationId) : Option Conversation × Inner :=
  match g.conversations.lookup id with
  | none => (none, g)
  | some conversation =>
    (some conversation,
      { g with
        conversations := g.conversations.erase id
        conversationsByTenant :=
          unindex g.conversationsByTenant conversation.tenantId id
        conversationEvents := g.conversationEvents.erase id
        snapshots := g.snapshots.erase id })

/-- Append a conversation event and return its sequence number. -/
def pushConversationEvent (g : Inner) (id : ConversationId) (kind : ConversationEventKind)
    (nowMs : ℕ) : ℕ × Inner :=
  let stream := (g.conversationEvents.lookup id).getD {}
  (stream.nextSeq,
    { g with
      conversationEvents := g.conversationEvents.insert id
        { stream with
          nextSeq := stream.nextSeq + 1
          events := stream.events ++ [⟨id, stream.nextSeq, kind, nowMs⟩] } })

def inFlightCount (g : Inner) : ℕ :=
  ((HashMap.values g.records).filter fun r ↦ !r.status.isTerminal).length

/-- The terminal figure, and everything booked against abandoned attempts. -/
def totalUsage (g : Inner) (id : ResponseId) : Usage :=
  (g.partialUsage.entries.filter fun e ↦ e.1.1 = id).foldl (fun acc e ↦ acc.accumulate e.2)
    (((g.records.lookup id).map ResponseRecord.usage).getD {})

end Inner

namespace MemStore

def setPendingLimit (s : MemStore) (limit : ℕ) : MemStore :=
  { s with pendingLimit := max limit 1 }

def setMaxRecords (s : MemStore) (limit : ℕ) : MemStore :=
  { s with maxRecords := max limit 1 }

def setMaxConversations (s : MemStore) (limit : ℕ) : MemStore :=
  { s with maxConversations := max limit 1 }

def setMaxEventsPerConversation (s : MemStore) (limit : ℕ) : MemStore :=
  { s with maxEventsPerConversation := max limit 1 }

/-- The record of a response. -/
def record (s : MemStore) (r : ResponseId) : Option ResponseRecord := s.inner.records.lookup r

/-- The conversation with the given id, whoever owns it. -/
def conversation (s : MemStore) (c : ConversationId) : Option Conversation :=
  s.inner.conversations.lookup c

/-- The response whose turn is in flight on a conversation. -/
def marker (s : MemStore) (c : ConversationId) : Option ResponseId :=
  (s.conversation c).bind Conversation.activeResponseId

/-- The snapshot of a conversation, empty until a turn is appended. -/
def snapshot (s : MemStore) (c : ConversationId) : Snapshot := (s.inner.snapshots.lookup c).getD {}

/-- The event stream of a conversation, empty until something is written to it. -/
def stream (s : MemStore) (c : ConversationId) : ConversationEventStream :=
  (s.inner.conversationEvents.lookup c).getD {}

/-- Whether a response waits to be claimed. -/
def waits (s : MemStore) (r : ResponseId) : Bool := (s.record r).any (·.status = .queued)

theorem waits_eq_true (s : MemStore) {r : ResponseId} :
    s.waits r = true ↔ ∃ x, s.record r = some x ∧ x.status = .queued := by
  simp [waits, Option.any_eq_true]

/-- Records and conversations are stored under their own ids. -/
structure Keyed (s : MemStore) : Prop where
  record : ∀ {r x}, s.record r = some x → x.responseId = r
  conversation : ∀ {c x}, s.conversation c = some x → x.id = c

theorem keyed_empty : Keyed {} where
  record h := by simp [MemStore.record] at h
  conversation h := by simp [MemStore.conversation] at h

end MemStore

end NovaChat
