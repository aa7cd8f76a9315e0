import NovaChat.Effects

/-!
# A create by itself

What `create` does when nothing else runs beside it.  It reads the context of its anchor, takes
the marker of a conversation, and leaves the decision to the ledger; each part either goes
through or says exactly what stood in its way.
-/

namespace NovaChat

open Interact Prog MemConversationStore

/-! ## Reading the context -/

/-- The context a turn would inherit is there and within bounds: `resolve_context` returns it. -/
def World.Fits (w : World) (cfg : Config) (tenant : TenantId) (anchor : ContextAnchor) : Prop :=
  ∃ rounds resolved,
    (ResponsesService.resolveContext cfg rounds tenant anchor).run exec w = some (.ok resolved, w)

theorem approx_resolveContext (cfg : Config) {n m : ℕ} (hnm : n ≤ m) (tenant : TenantId)
    (anchor : ContextAnchor) :
    (ResponsesService.resolveContext cfg n tenant anchor).Approx
      (ResponsesService.resolveContext cfg m tenant anchor) := by
  refine Approx.bind ?_ fun r ↦ Approx.refl _
  cases anchor with
  | root => exact Approx.refl _
  | conversation id => exact Approx.refl _
  | previous id =>
      refine (Approx.refl _).bind fun r ↦ ?_
      rcases r with e | _ | record
      · exact Approx.refl _
      · exact Approx.refl _
      · show Approx (ite _ _ _) (ite _ _ _)
        split
        · exact Approx.refl _
        · cases record.anchor with
          | root => exact (Approx.iterate _ hnm _).bind fun r ↦ Approx.refl _
          | conversation cid => exact Approx.refl _
          | previous _ => exact Approx.refl _

theorem approx_create (cfg : Config) {n m : ℕ} (hnm : n ≤ m) (tenant : TenantId)
    (spec : TurnSpec) (key : Option IdempotencyKey) (uuid : Uuid) :
    (ResponsesService.create cfg n tenant spec key uuid).Approx
      (ResponsesService.create cfg m tenant spec key uuid) :=
  (Approx.refl nowMs).bind fun _ ↦
    (approx_resolveContext cfg hnm tenant spec.anchor).bind fun _ ↦ Approx.refl _

theorem run_resolveContext_world {cfg : Config} {rounds : ℕ} {tenant : TenantId}
    {anchor : ContextAnchor} {w w' : World} {r : Except ServiceError ResolvedContext}
    (h : (ResponsesService.resolveContext cfg rounds tenant anchor).run exec w = some (r, w')) :
    w' = w :=
  run_of_onlyCalls (fun _ _ hc ↦ exec_reads hc _) (reads_resolveContext cfg rounds tenant anchor) h

/-! ## Taking the marker -/

/-- A change of conversations and nothing else. -/
structure World.Converses (w w' : World) : Prop where
  store : ConversationOnly w.store w'.store
  rest : w' = { w with store := w'.store }

namespace World.Converses

variable {w w' w'' : World}

theorem refl (w : World) : w.Converses w := ⟨.refl _, rfl⟩

theorem trans (h : w.Converses w') (h' : w'.Converses w'') : w.Converses w'' :=
  ⟨h.store.trans h'.store, h'.rest.trans (by rw [h.rest])⟩

theorem log (h : w.Converses w') : w'.log = w.log := by rw [h.rest]

theorem nodes (h : w.Converses w') : w'.nodes = w.nodes := by rw [h.rest]

theorem integrity (h : w.Converses w') : w'.integrity = w.integrity := by rw [h.rest]

theorem nfc (h : w.Converses w') : w'.nfc = w.nfc := by rw [h.rest]

end World.Converses

theorem exec_converses (c : ConversationCall) (w : World) :
    w.Converses (exec (.conversations c) w).2 :=
  ⟨exec_conversationOnly c w, by cases c <;> rfl⟩

/-- The staleness rule: a holder whose record is terminal, or missing, has let go. -/
def MemStore.Abandoned (s : MemStore) (holder : ResponseId) : Prop :=
  ∀ x, s.record holder = some x → x.status.isTerminal = true

theorem stale_iff (s : MemStore) (holder : ResponseId) :
    ResponsesService.stale (MemResponseLedger.get s holder) = true ↔ s.Abandoned holder := by
  cases h : s.record holder <;>
    simp [ResponsesService.stale, MemResponseLedger.get, found, MemStore.Abandoned, h]

/-- The marker of `c` is free for `id`: it is `id`'s already, or nobody's who is still at work
and the stream has room for the announcement. -/
def MemStore.Lockable (s : MemStore) (tenant : TenantId) (c : ConversationId) (id : ResponseId) :
    Prop :=
  guardWritable s = .ok () ∧ ∃ x, owned s tenant c = some x ∧
    (x.activeResponseId = some id ∨
      ensureEventCapacity s c = .ok () ∧ ∀ holder ∈ x.activeResponseId, s.Abandoned holder)

/-- The marker of `c` is refused to `id` before anything is written. -/
def MemStore.Barred (s : MemStore) (tenant : TenantId) (c : ConversationId) (id : ResponseId) :
    Prop :=
  guardWritable s ≠ .ok () ∨ owned s tenant c = none ∨ ∃ x, owned s tenant c = some x ∧
    (x.activeResponseId = none ∧ ensureEventCapacity s c ≠ .ok () ∨
      ∃ holder, x.activeResponseId = some holder ∧ holder ≠ id ∧ ¬ s.Abandoned holder)

/-- The marker of `c` is taken from a holder that let go, and there is no room to announce the
new one. -/
def MemStore.Stranded (s : MemStore) (tenant : TenantId) (c : ConversationId) (id : ResponseId) :
    Prop :=
  guardWritable s = .ok () ∧ ensureEventCapacity s c ≠ .ok () ∧ ∃ x holder,
    owned s tenant c = some x ∧ x.activeResponseId = some holder ∧ holder ≠ id ∧
      s.Abandoned holder

theorem not_lockable_of_barred {s : MemStore} {tenant : TenantId} {c : ConversationId}
    {id : ResponseId} (h : s.Barred tenant c id) : ¬ s.Lockable tenant c id := by
  rintro ⟨hguard, x, hx, hfree⟩
  rcases h with h | h | ⟨y, hy, h⟩
  · exact h hguard
  · rw [hx] at h
    cases h
  · obtain rfl : x = y := Option.some.inj (hx.symm.trans hy)
    rcases h with ⟨hnone, hroom⟩ | ⟨holder, hholder, hne, hbusy⟩
    · rcases hfree with hfree | ⟨hcap, -⟩
      · rw [hnone] at hfree
        cases hfree
      · exact hroom hcap
    · rcases hfree with hfree | ⟨-, hall⟩
      · exact hne (Option.some.inj (hholder.symm.trans hfree))
      · exact hbusy (hall holder hholder)

theorem not_lockable_of_stranded {s : MemStore} {tenant : TenantId} {c : ConversationId}
    {id : ResponseId} (h : s.Stranded tenant c id) : ¬ s.Lockable tenant c id := by
  obtain ⟨-, hroom, y, holder, hy, hholder, hne, -⟩ := h
  rintro ⟨-, x, hx, hfree⟩
  obtain rfl : x = y := Option.some.inj (hx.symm.trans hy)
  rcases hfree with hfree | ⟨hcap, -⟩
  · exact hne (Option.some.inj (hholder.symm.trans hfree))
  · exact hroom hcap

theorem stream_occupy (s : MemStore) (c : ConversationId) (x : Conversation) (id : ResponseId)
    (now : ℕ) :
    ((occupy s c x id now).2.stream c).nextSeq = (s.stream c).nextSeq + 1 := by
  simp [occupy, Inner.pushConversationEvent, Inner.insertConversation, MemStore.stream,
    HashMap.lookup_modify]

theorem stream_vacate (s : MemStore) (c : ConversationId) (x : Conversation) (id : ResponseId)
    (status : ResponseStatus) (now : ℕ) :
    ((vacate s c x id status now).2.stream c).nextSeq = (s.stream c).nextSeq + 1 := by
  simp [vacate, Inner.pushConversationEvent, Inner.insertConversation, MemStore.stream,
    HashMap.lookup_modify]

/-- How a try to take the marker of `c` for `id` ends. -/
inductive TakeMarker (w : World) (c : ConversationId) (id : ResponseId) :
    Except ServiceError Unit → World → Prop
  | barred (e : ServiceError) : TakeMarker w c id (.error e) w
  | stranded (e : ServiceError) {w' : World} (hconv : w.Converses w')
    (hmarker : w.store.marker c ≠ none) (hmarker' : w'.store.marker c = none) :
    TakeMarker w c id (.error e) w'
  | taken {w' : World} (hconv : w.Converses w') (hmarker : w'.store.marker c = some id)
    (hstream : w.store.marker c = some id ∨
      (w'.store.stream c).nextSeq = (w.store.stream c).nextSeq + 1) :
    TakeMarker w c id (.ok ()) w'

section Acquire

variable {w : World} {tenant : TenantId} {c : ConversationId} {id : ResponseId}

private theorem run_acquireActive {α : Type} (k : Except ConversationError ℕ → Service α) :
    (ConversationsService.acquireActive tenant c id >>= k).run exec w =
      (k (acquireActive w.store tenant c id w.clock).1).run exec
        { w with store := (acquireActive w.store tenant c id w.clock).2 } := rfl

theorem marker_eq (hk : w.store.Keyed) {x : Conversation} (hx : owned w.store tenant c = some x)
    {s : MemStore} {x' : Conversation} (hs : ∀ c', s.conversation c' =
      if c' = x.id then some x' else w.store.conversation c') :
    s.marker c = x'.activeResponseId := by
  have hid : x.id = c := hk.conversation (owned_eq_some.mp hx).1
  simp [MemStore.marker, hs, hid]

theorem acquireActive_free {s : MemStore} {x : Conversation} (now : ℕ)
    (hguard : guardWritable s = .ok ()) (hx : owned s tenant c = some x)
    (hfree : x.activeResponseId = none) (hroom : ensureEventCapacity s c = .ok ()) :
    acquireActive s tenant c id now =
      (.ok (occupy s c x id now).1, (occupy s c x id now).2) := by
  simp [acquireActive, hguard, hx, hfree, hroom]

theorem acquireActive_full {s : MemStore} {x : Conversation} {e : ConversationError} (now : ℕ)
    (hguard : guardWritable s = .ok ()) (hx : owned s tenant c = some x)
    (hfree : x.activeResponseId = none) (hroom : ensureEventCapacity s c = .error e) :
    acquireActive s tenant c id now = (.error .capacityExceeded, s) := by
  obtain rfl := ensureEventCapacity_error hroom
  simp [acquireActive, hguard, hx, hfree, hroom]

theorem run_acquireTurn (hk : w.store.Keyed) (tenant : TenantId) (c : ConversationId)
    (id : ResponseId) :
    ∃ r w', (ResponsesService.acquireTurn tenant c id).run exec w = some (r, w') ∧
      TakeMarker w c id r w' ∧
      (w.store.Barred tenant c id ∧ r ≠ .ok () ∧ w' = w ∨
        w.store.Stranded tenant c id ∧ r ≠ .ok () ∧ w'.store.marker c ≠ w.store.marker c ∨
        w.store.Lockable tenant c id ∧ r = .ok ()) := by
  unfold ResponsesService.acquireTurn
  rw [run_acquireActive]
  cases hguard : guardWritable w.store with
  | error e =>
      obtain ⟨e', rfl⟩ := guardWritable_error hguard
      have heq : acquireActive w.store tenant c id w.clock = (.error (.store e'), w.store) := by
        simp [acquireActive, hguard]
      rw [heq]
      exact ⟨_, w, rfl, .barred _, Or.inl ⟨Or.inl (by simp [hguard]), by simp, rfl⟩⟩
  | ok _ =>
  cases hx : owned w.store tenant c with
  | none =>
      have heq : acquireActive w.store tenant c id w.clock = (.error .notFound, w.store) := by
        simp [acquireActive, hguard, hx]
      rw [heq]
      exact ⟨_, w, rfl, .barred _, Or.inl ⟨Or.inr (Or.inl hx), by simp, rfl⟩⟩
  | some x =>
  have hmarker : w.store.marker c = x.activeResponseId := by
    simp [MemStore.marker, (owned_eq_some.mp hx).1]
  cases hactive : x.activeResponseId with
  | none =>
      cases hroom : ensureEventCapacity w.store c with
      | error e =>
          rw [acquireActive_full w.clock hguard hx hactive hroom]
          exact ⟨_, w, rfl, .barred _, Or.inl
            ⟨Or.inr (Or.inr ⟨x, hx, Or.inl ⟨hactive, by simp [hroom]⟩⟩), by simp, rfl⟩⟩
      | ok _ =>
          rw [acquireActive_free w.clock hguard hx hactive hroom]
          refine ⟨_, _, rfl, .taken ?_ ?_ (Or.inr (stream_occupy _ _ _ _ _)), Or.inr (Or.inr
            ⟨⟨hguard, x, hx, Or.inr ⟨hroom, by simp [hactive]⟩⟩, rfl⟩)⟩
          · exact ⟨⟨rfl, rfl, rfl, rfl, rfl, rfl, rfl, rfl, rfl⟩, rfl⟩
          · exact marker_eq hk hx (conversation_occupy _ _ _ _ _)
  | some holder =>
  by_cases hid : holder = id
  · subst hid
    have heq : acquireActive w.store tenant c holder w.clock =
        (.ok (((w.store.inner.conversationEvents.lookup c).bind
          ConversationEventStream.lockSeq).getD 0), w.store) := by
      simp [acquireActive, hguard, hx, hactive]
    rw [heq]
    have hheld := hmarker.trans hactive
    exact ⟨_, _, rfl, .taken (.refl w) hheld (Or.inl hheld),
      Or.inr (Or.inr ⟨⟨hguard, x, hx, Or.inl hactive⟩, rfl⟩)⟩
  have hbusy : acquireActive w.store tenant c id w.clock = (.error (.busy holder), w.store) := by
    simp [acquireActive, hguard, hx, hactive, hid]
  rw [hbusy]
  by_cases hgone : w.store.Abandoned holder
  · -- The marker is cleared first; only then is the room looked at.
    have hstale := (stale_iff w.store holder).mpr hgone
    set cleared : MemStore :=
      { w.store with inner := w.store.inner.insertConversation { x with activeResponseId := none } }
      with hcleared
    have hclear : releaseStaleActive w.store tenant c holder = (.ok true, cleared) := by
      simp [releaseStaleActive, hguard, hx, hactive, hcleared]
    have hkeyed : x.id = c := hk.conversation (owned_eq_some.mp hx).1
    have hconv : w.Converses { w with store := cleared } :=
      ⟨⟨rfl, rfl, rfl, rfl, rfl, rfl, rfl, rfl, rfl⟩, rfl⟩
    have hx' : owned cleared tenant c = some { x with activeResponseId := none } := by
      refine owned_eq_some.mpr ⟨?_, (owned_eq_some.mp hx).2⟩
      rw [hcleared, conversation_insert, if_pos hkeyed.symm]
    have hnone : cleared.marker c = none := by
      simp [MemStore.marker, (owned_eq_some.mp hx').1]
    simp only [Ledger.get, Conversations.releaseStaleActive, perform_bind, run_call, exec,
      execLedger, execConversations, hstale, if_true, hclear, World.withStore_fst,
      World.withStore_snd]
    rw [run_acquireActive]
    cases hroom : ensureEventCapacity w.store c with
    | error e =>
        have heq : acquireActive cleared tenant c id w.clock =
          (.error .capacityExceeded, cleared) :=
          acquireActive_full w.clock hguard hx' rfl hroom
        rw [heq]
        refine ⟨_, _, rfl, .stranded _ hconv (by simp [hmarker, hactive]) hnone,
          Or.inr (Or.inl ⟨⟨hguard, by simp [hroom], x, holder, hx, hactive, hid, hgone⟩,
            by simp, ?_⟩)⟩
        show cleared.marker c ≠ _
        simp [hnone, hmarker, hactive]
    | ok _ =>
        have heq : acquireActive cleared tenant c id w.clock =
          (.ok (occupy cleared c _ id w.clock).1,
            (occupy cleared c _ id w.clock).2) :=
          acquireActive_free w.clock hguard hx' rfl hroom
        rw [heq]
        refine ⟨_, _, rfl, .taken
          (hconv.trans ⟨⟨rfl, rfl, rfl, rfl, rfl, rfl, rfl, rfl, rfl⟩, rfl⟩) ?_
          (Or.inr (stream_occupy cleared c _ id _)), Or.inr (Or.inr
            ⟨⟨hguard, x, hx, Or.inr ⟨hroom, ?_⟩⟩, rfl⟩)⟩
        · show (occupy cleared c _ id w.clock).2.marker c = _
          simp [MemStore.marker, conversation_occupy, hkeyed]
        · rintro h hh
          obtain rfl : holder = h := Option.some.inj (hactive.symm.trans hh)
          exact hgone
  · have hstale : ResponsesService.stale (MemResponseLedger.get w.store holder) = false := by
      rw [← Bool.not_eq_true, stale_iff]
      exact hgone
    simp only [Ledger.get, perform_bind, run_call, exec, execLedger, hstale]
    exact ⟨_, w, rfl, .barred _, Or.inl ⟨Or.inr (Or.inr
      ⟨x, hx, Or.inr ⟨holder, hactive, hid, hgone⟩⟩), by simp, rfl⟩⟩

end Acquire

/-- The marker is asked for only where the anchor is a conversation. -/
def World.Lockable (w : World) (tenant : TenantId) (anchor : ContextAnchor) (id : ResponseId) :
    Prop :=
  ∀ c ∈ anchor.conversationId, w.store.Lockable tenant c id

theorem run_acquireFor {w : World} (hk : w.store.Keyed) (tenant : TenantId)
    (anchor : ContextAnchor) (id : ResponseId) :
    ∃ r w', (ResponsesService.acquireFor tenant anchor.conversationId id).run exec w =
        some (r, w') ∧ w.Converses w' ∧ (r = .ok () ↔ w.Lockable tenant anchor id) := by
  cases hc : anchor.conversationId with
  | none => exact ⟨_, w, rfl, .refl w, by simp [World.Lockable, hc]⟩
  | some c =>
      have hlock : w.Lockable tenant anchor id ↔ w.store.Lockable tenant c id := by
        simp [World.Lockable, hc]
      obtain ⟨r, w', hrun, htake, hend⟩ := run_acquireTurn hk tenant c id
      refine ⟨r, w', hrun, ?_, ?_⟩
      · cases htake with
        | barred => exact .refl w
        | stranded e hconv => exact hconv
        | taken hconv => exact hconv
      · rw [hlock]
        rcases hend with ⟨hbarred, hr, -⟩ | ⟨hstranded, hr, -⟩ | ⟨hlockable, hr⟩
        · exact iff_of_false hr (not_lockable_of_barred hbarred)
        · exact iff_of_false hr (not_lockable_of_stranded hstranded)
        · exact iff_of_true hr hlockable

/-! ## Leaving it to the ledger -/

/-- Giving the marker back changes conversations only, and no stream is shortened. -/
theorem run_releaseAfterFailedAdmission (w : World) (tenant : TenantId)
    (conversationId : Option ConversationId) (id : ResponseId) :
    ∃ w', (ResponsesService.releaseAfterFailedAdmission tenant conversationId id).run exec w =
        some ((), w') ∧ w.Converses w' ∧
      ∀ c ∈ conversationId, (w.store.stream c).nextSeq ≤ (w'.store.stream c).nextSeq := by
  cases conversationId with
  | none => exact ⟨w, rfl, .refl w, by simp⟩
  | some c =>
      refine ⟨_, rfl, exec_converses _ w, ?_⟩
      rintro c' ⟨⟩
      simp only [exec, execConversations, World.withStore_snd]
      rcases releaseActive_cases w.store tenant c id .failed w.clock with
        ⟨reply, heq⟩ | ⟨x, -, -, -, -, heq⟩
      · rw [heq]
      · rw [heq]
        exact (Nat.le_succ _).trans_eq (stream_vacate _ _ _ _ _ _).symm

/-- The ledger accepts the record, and the event log the announcement of it. -/
structure World.Admissible (w : World) (record : ResponseRecord) (key : IdempotencyKey) : Prop where
  signed : ∃ x, MemResponseLedger.sign w.nfc w.integrity record = .ok x
  unused : w.store.inner.idem.lookup key = none
  writable : w.store.readOnly = false
  pending : w.store.inner.inFlightCount < w.store.pendingLimit
  room : HashMap.size w.store.inner.records < w.store.maxRecords
  announceable : w.log.full record.responseId = false

theorem run_admitOrRelease (w : World) (tenant : TenantId) (conversationId : Option ConversationId)
    (record : ResponseRecord) (key : IdempotencyKey) (now : ℕ) :
    ∃ out w', (ResponsesService.admitOrRelease tenant conversationId record key now).run exec w =
        some (out, w') ∧
      ((∃ x, out = .ok (.accepted x)) ↔ w.Admissible record key) ∧
      ∀ c ∈ conversationId, (w.store.stream c).nextSeq ≤ (w'.store.stream c).nextSeq := by
  have hrelease : ∀ (w : World) (out : Except ServiceError CreateOutcome), ∃ w',
      (ResponsesService.releaseAfterFailedAdmission tenant conversationId record.responseId >>=
        fun _ ↦ (.ret out : Service _)).run exec w = some (out, w') ∧
      ∀ c ∈ conversationId, (w.store.stream c).nextSeq ≤ (w'.store.stream c).nextSeq := by
    intro w out
    obtain ⟨w', hrun, -, hle⟩ :=
      run_releaseAfterFailedAdmission w tenant conversationId record.responseId
    exact ⟨w', by rw [run_bind_of_eq hrun]; rfl, hle⟩
  simp only [ResponsesService.admitOrRelease, ResponsesService.admitRecord, Ledger.create,
    perform_bind, call_bind, run_call]
  rcases MemResponseLedger.create_cases w.nfc w.integrity w.store record key with
    ⟨reply, hnot, heq⟩ | ⟨x, hsign, hidem, hwritable, hpending, hroom, heq⟩
  · have hexec : exec (.ledger (.create record key now)) w = (reply, w) := by
      simp only [exec, execLedger, heq, World.withStore_self]
    have hrefused : ¬ w.Admissible record key := by
      rintro ⟨⟨x, hsign⟩, hidem, hwritable, hpending, hroom, -⟩
      exact hnot x (congrArg Prod.fst (heq.symm.trans
        (MemResponseLedger.create_of_room hsign hidem hwritable hpending hroom)))
    rw [hexec]
    have hout : ∀ out : Except ServiceError CreateOutcome, (∀ x, out ≠ .ok (.accepted x)) →
        ∃ out' w', (ResponsesService.releaseAfterFailedAdmission tenant conversationId
            record.responseId >>= fun _ ↦ (.ret out : Service _)).run exec w = some (out', w') ∧
          ((∃ x, out' = .ok (.accepted x)) ↔ w.Admissible record key) ∧
          ∀ c ∈ conversationId, (w.store.stream c).nextSeq ≤ (w'.store.stream c).nextSeq := by
      intro out hout
      obtain ⟨w', hrun, hle⟩ := hrelease w out
      refine ⟨out, w', hrun, iff_of_false ?_ hrefused, hle⟩
      rintro ⟨x, hx⟩
      exact hout x hx
    rcases reply with e | (x | x | _ | _)
    · exact hout _ (by simp)
    · exact absurd rfl (hnot x)
    · exact hout _ (by simp)
    · exact hout _ (by simp)
    · exact hout _ (by simp)
  · have hexec : exec (.ledger (.create record key now)) w =
        (.ok (.accepted x), { w with store := MemResponseLedger.enqueue w.store x key }) := by
      simp only [exec, execLedger, heq]
      rfl
    have hid : x.responseId = record.responseId := by
      rw [MemResponseLedger.sign_spec hsign]
    rw [hexec]
    simp only [EventLog.append, perform_bind, call_bind, run_call]
    set w₁ : World := { w with store := MemResponseLedger.enqueue w.store x key } with hw₁
    set event := AppendEvent.lifecycle x.responseId .created (.withoutOutput x) with hevent
    have hlog : w₁.log.full event.responseId = w.log.full record.responseId :=
      congrArg w.log.full hid
    by_cases hfull : w.log.full record.responseId = false
    · have happend : w₁.Announceable event.responseId := ⟨hwritable, hlog.trans hfull⟩
      obtain ⟨seq, hseq⟩ := announceable_append rfl happend
      refine ⟨.ok (.accepted x), (exec (.eventLog (.append event)) w₁).2, ?_,
        iff_of_true ⟨x, rfl⟩ ⟨⟨x, hsign⟩, hidem, hwritable, hpending, hroom, hfull⟩, ?_⟩
      · rw [hseq]
        rfl
      · intro c _
        rw [exec_eventLog_store]
        exact le_of_eq rfl
    · have happend : ¬ w₁.Announceable event.responseId := fun h ↦ hfull (hlog.symm.trans h.2)
      obtain ⟨e, he⟩ := append_refused rfl happend
      rw [he]
      obtain ⟨w', hrun, hle⟩ := hrelease w₁ (.error (.eventLog e))
      exact ⟨_, w', hrun, iff_of_false (by simp) fun h ↦ hfull h.announceable, hle⟩

/-! ## The whole create -/

section Create

-- Any execution that answers reads the way the store does.
variable {ex : (c : Call) → World → c.Reply × World}
  (hex : ∀ c w, c.Reads → ex c w = exec c w)
  {w w' : World} {cfg : Config} {rounds : ℕ} {tenant : TenantId} {spec : TurnSpec}
  {key : Option IdempotencyKey} {uuid : Uuid}

include hex

theorem run_resolveContext_ex (rounds : ℕ) (w : World) :
    (ResponsesService.resolveContext cfg rounds tenant spec.anchor).run ex w =
      (ResponsesService.resolveContext cfg rounds tenant spec.anchor).run exec w :=
  run_congr (J := fun _ ↦ True) (fun c w hc _ ↦ ⟨hex c w hc, trivial⟩)
    (reads_resolveContext cfg rounds tenant spec.anchor) trivial

private theorem run_create_ex :
    (ResponsesService.create cfg rounds tenant spec key uuid).run ex w =
      (ResponsesService.resolveContext cfg rounds tenant spec.anchor >>= fun r ↦
        match r with
        | .error e => .ret (.error e)
        | .ok _ => ResponsesService.acquireFor tenant spec.anchor.conversationId
            ⟨cfg.nodeTag, uuid⟩ >>= fun r ↦
          match r with
          | .error e => .ret (.error e)
          | .ok () => ResponsesService.admitOrRelease tenant spec.anchor.conversationId
              (ResponsesService.proposed cfg tenant spec key ⟨cfg.nodeTag, uuid⟩ w.clock)
              (key.getD (.forResponse ⟨cfg.nodeTag, uuid⟩)) w.clock).run ex w := by
  unfold ResponsesService.create
  rw [nowMs, perform_bind, run_call, hex .nowMs w trivial]
  rfl

theorem run_create_misfit {e : ServiceError}
    (h : (ResponsesService.resolveContext cfg rounds tenant spec.anchor).run exec w =
      some (.error e, w)) :
    (ResponsesService.create cfg rounds tenant spec key uuid).run ex w = some (.error e, w) := by
  rw [run_create_ex hex, run_bind_of_eq ((run_resolveContext_ex hex rounds w).trans h)]
  rfl

theorem run_create_unlocked {resolved : ResolvedContext} {e : ServiceError}
    (h : (ResponsesService.resolveContext cfg rounds tenant spec.anchor).run exec w =
      some (.ok resolved, w))
    (hlock : (ResponsesService.acquireFor tenant spec.anchor.conversationId
      ⟨cfg.nodeTag, uuid⟩).run ex w = some (.error e, w')) :
    (ResponsesService.create cfg rounds tenant spec key uuid).run ex w = some (.error e, w') := by
  rw [run_create_ex hex, run_bind_of_eq ((run_resolveContext_ex hex rounds w).trans h),
    run_bind_of_eq hlock]
  rfl

/-- With the marker in hand the ledger and the log decide. -/
theorem run_create_locked {resolved : ResolvedContext}
    (h : (ResponsesService.resolveContext cfg rounds tenant spec.anchor).run exec w =
      some (.ok resolved, w))
    (hlock : (ResponsesService.acquireFor tenant spec.anchor.conversationId
      ⟨cfg.nodeTag, uuid⟩).run ex w = some (.ok (), w')) :
    (ResponsesService.create cfg rounds tenant spec key uuid).run ex w =
      (ResponsesService.admitOrRelease tenant spec.anchor.conversationId
        (ResponsesService.proposed cfg tenant spec key ⟨cfg.nodeTag, uuid⟩ w.clock)
        (key.getD (.forResponse ⟨cfg.nodeTag, uuid⟩)) w.clock).run ex w' := by
  rw [run_create_ex hex, run_bind_of_eq ((run_resolveContext_ex hex rounds w).trans h),
    run_bind_of_eq hlock]

theorem exists_resolved {out : Except ServiceError CreateOutcome}
    (h : (ResponsesService.create cfg rounds tenant spec key uuid).run ex w = some (out, w')) :
    ∃ r, (ResponsesService.resolveContext cfg rounds tenant spec.anchor).run exec w =
      some (r, w) := by
  rw [run_create_ex hex, run_bind, run_resolveContext_ex hex] at h
  obtain ⟨⟨r, w₁⟩, hr, -⟩ := Option.bind_eq_some_iff.mp h
  obtain rfl := run_resolveContext_world hr
  exact ⟨r, hr⟩

end Create

end NovaChat
