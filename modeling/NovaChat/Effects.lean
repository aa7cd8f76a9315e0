import NovaChat.Turn.Terminal

/-!
# What each call does

The effect of every port call on the three things turns are about: the records, the markers
and the snapshots.  A ledger call touches records only, a conversation call never does, and
an event log call touches none of them.
-/

namespace NovaChat

open Interact

/-! ## Frames -/

theorem exec_eventLog_store (c : EventLogCall) (w : World) :
    (exec (.eventLog c) w).2.store = w.store := by
  cases c <;> rfl

theorem conversations_removeRecord (g : Inner) (id : ResponseId) :
    (g.removeRecord id).2.conversations = g.conversations ∧
      (g.removeRecord id).2.conversationEvents = g.conversationEvents ∧
      (g.removeRecord id).2.snapshots = g.snapshots := by
  unfold Inner.removeRecord
  split <;> exact ⟨rfl, rfl, rfl⟩

theorem ledgerOnly_delete (s : MemStore) (id : ResponseId) :
    MemResponseLedger.LedgerOnly s (MemResponseLedger.delete s id).2 := by
  obtain ⟨h1, h2, h3⟩ := conversations_removeRecord s.inner id
  unfold MemResponseLedger.delete
  split
  · exact .refl s
  · exact ⟨h1, h2, h3, rfl, rfl⟩

theorem conversations_removeAll : ∀ (ids : List ResponseId) (g : Inner),
    (MemResponseLedger.removeAll ids g).2.conversations = g.conversations ∧
      (MemResponseLedger.removeAll ids g).2.conversationEvents = g.conversationEvents ∧
      (MemResponseLedger.removeAll ids g).2.snapshots = g.snapshots := by
  intro ids
  induction ids with
  | nil => exact fun g ↦ ⟨rfl, rfl, rfl⟩
  | cons id ids ih =>
      intro g
      obtain ⟨h1, h2, h3⟩ := conversations_removeRecord g id
      obtain ⟨i1, i2, i3⟩ := ih (g.removeRecord id).2
      exact ⟨i1.trans h1, i2.trans h2, i3.trans h3⟩

theorem ledgerOnly_deleteByTenant (s : MemStore) (tenant : TenantId) :
    MemResponseLedger.LedgerOnly s (MemResponseLedger.deleteByTenant s tenant).2 := by
  unfold MemResponseLedger.deleteByTenant
  split
  · exact .refl s
  · obtain ⟨h1, h2, h3⟩ :=
      conversations_removeAll ((s.inner.byTenant.lookup tenant).getD []) s.inner
    exact ⟨h1, h2, h3, rfl, rfl⟩

/-- A ledger call leaves conversations, their streams and their snapshots alone. -/
theorem exec_ledgerOnly (c : LedgerCall) (w : World) :
    MemResponseLedger.LedgerOnly w.store (exec (.ledger c) w).2.store := by
  cases c with
  | create record key now =>
      rcases MemResponseLedger.create_cases w.nfc w.integrity w.store record key with
        ⟨reply, -, heq⟩ | ⟨x, -, -, -, -, -, heq⟩
      · simp [exec, execLedger, heq, MemResponseLedger.LedgerOnly.refl]
      · simp [exec, execLedger, heq, MemResponseLedger.ledgerOnly_enqueue]
  | claim agent now ttl => exact (MemResponseLedger.claim_cases w.store agent now ttl).1
  | heartbeat agent now => exact ⟨rfl, rfl, rfl, rfl, rfl⟩
  | complete id attempt status usage now =>
      rcases MemResponseLedger.complete_cases w.store id attempt status usage now with
        ⟨e, heq⟩ | ⟨x, -, -, -, -, -, heq⟩
      · simp [exec, execLedger, heq, MemResponseLedger.LedgerOnly.refl]
      · simp [exec, execLedger, heq, MemResponseLedger.ledgerOnly_putRecord]
  | cancel tenant id now =>
      rcases MemResponseLedger.cancel_cases w.store tenant id now with
        ⟨e, heq⟩ | ⟨x, -, -, -, -, heq⟩
      · simp [exec, execLedger, heq, MemResponseLedger.LedgerOnly.refl]
      · simp only [exec, execLedger, heq, World.withStore_snd]
        exact (MemResponseLedger.ledgerOnly_putRecord _ _ _).trans
          (MemResponseLedger.ledgerOnly_bookPartial _ _ _)
  | reap now ttl =>
      obtain ⟨aborted, -, honly, -⟩ := MemResponseLedger.reap_spec w.store now ttl
      exact honly
  | recordPartialUsage id attempt usage =>
      simp only [exec, execLedger, World.withStore_snd, MemResponseLedger.recordPartialUsage]
      split <;> exact ⟨rfl, rfl, rfl, rfl, rfl⟩
  | get id => exact .refl _
  | delete id => exact ledgerOnly_delete w.store id
  | deleteByTenant tenant => exact ledgerOnly_deleteByTenant w.store tenant
  | checkAttempt id attempt => exact .refl _
  | inFlight => exact .refl _

theorem ledger_removeAll : ∀ (ids : List ConversationId) (g : Inner),
    (MemConversationStore.removeAll ids g).2.records = g.records ∧
      (MemConversationStore.removeAll ids g).2.queued = g.queued ∧
      (MemConversationStore.removeAll ids g).2.idem = g.idem ∧
      (MemConversationStore.removeAll ids g).2.heartbeats = g.heartbeats ∧
      (MemConversationStore.removeAll ids g).2.partialUsage = g.partialUsage := by
  intro ids
  induction ids with
  | nil => exact fun g ↦ ⟨rfl, rfl, rfl, rfl, rfl⟩
  | cons id ids ih =>
      intro g
      have hone : (g.removeConversation id).2.records = g.records ∧
          (g.removeConversation id).2.queued = g.queued ∧
          (g.removeConversation id).2.idem = g.idem ∧
          (g.removeConversation id).2.heartbeats = g.heartbeats ∧
          (g.removeConversation id).2.partialUsage = g.partialUsage := by
        unfold Inner.removeConversation
        split <;> exact ⟨rfl, rfl, rfl, rfl, rfl⟩
      obtain ⟨h1, h2, h3, h4, h5⟩ := ih (g.removeConversation id).2
      exact ⟨h1.trans hone.1, h2.trans hone.2.1, h3.trans hone.2.2.1, h4.trans hone.2.2.2.1,
        h5.trans hone.2.2.2.2⟩

/-- A conversation call leaves the ledger, the switches and the bounds as they were. -/
theorem exec_conversationOnly (c : ConversationCall) (w : World) :
    MemConversationStore.ConversationOnly w.store (exec (.conversations c) w).2.store := by
  have hrefl := MemConversationStore.ConversationOnly.refl w.store
  cases c with
  | create conversation =>
      simp only [exec, execConversations, World.withStore_snd, MemConversationStore.create]
      repeat' split
      all_goals exact ⟨rfl, rfl, rfl, rfl, rfl, rfl, rfl, rfl, rfl⟩
  | updateMetadata tenant id metadata =>
      simp only [exec, execConversations, World.withStore_snd,
        MemConversationStore.updateMetadata]
      repeat' split
      all_goals exact ⟨rfl, rfl, rfl, rfl, rfl, rfl, rfl, rfl, rfl⟩
  | delete tenant id =>
      simp only [exec, execConversations, World.withStore_snd, MemConversationStore.delete,
        Inner.removeConversation]
      repeat' split
      all_goals exact ⟨rfl, rfl, rfl, rfl, rfl, rfl, rfl, rfl, rfl⟩
  | deleteByTenant tenant =>
      simp only [exec, execConversations, World.withStore_snd,
        MemConversationStore.deleteByTenant]
      split
      · exact hrefl
      · obtain ⟨h1, h2, h3, h4, h5⟩ := ledger_removeAll
          ((w.store.inner.conversationsByTenant.lookup tenant).getD []) w.store.inner
        exact ⟨h1, h2, h3, h4, h5, rfl, rfl, rfl, rfl⟩
  | appendTurn tenant id r commit now =>
      rcases MemConversationStore.appendTurn_cases w.store tenant id r commit with
        ⟨e, heq⟩ | ⟨x, index, -, heq⟩ <;> simp only [exec, execConversations, heq]
      · exact hrefl
      · exact ⟨rfl, rfl, rfl, rfl, rfl, rfl, rfl, rfl, rfl⟩
  | advance tenant id last =>
      rcases MemConversationStore.advance_cases w.store tenant id last with
        ⟨e, heq⟩ | ⟨x, -, heq⟩ <;> simp only [exec, execConversations, heq]
      · exact hrefl
      · exact ⟨rfl, rfl, rfl, rfl, rfl, rfl, rfl, rfl, rfl⟩
  | acquireActive tenant id r now =>
      rcases MemConversationStore.acquireActive_cases w.store tenant id r now with
        ⟨e, heq, -⟩ | ⟨x, seq, -, -, heq⟩ | ⟨x, -, -, -, -, heq⟩ <;>
        simp only [exec, execConversations, heq]
      · exact hrefl
      · exact hrefl
      · exact ⟨rfl, rfl, rfl, rfl, rfl, rfl, rfl, rfl, rfl⟩
  | releaseActive tenant id r status now =>
      rcases MemConversationStore.releaseActive_cases w.store tenant id r status now with
        ⟨reply, heq⟩ | ⟨x, -, -, -, -, heq⟩ <;> simp only [exec, execConversations, heq]
      · exact hrefl
      · exact ⟨rfl, rfl, rfl, rfl, rfl, rfl, rfl, rfl, rfl⟩
  | releaseStaleActive tenant id holder =>
      rcases MemConversationStore.releaseStaleActive_cases w.store tenant id holder with
        ⟨reply, heq⟩ | ⟨x, -, -, -, heq⟩ <;> simp only [exec, execConversations, heq]
      · exact hrefl
      · exact ⟨rfl, rfl, rfl, rfl, rfl, rfl, rfl, rfl, rfl⟩
  | appendEvent tenant id kind now =>
      simp only [exec, execConversations, World.withStore_snd,
        MemConversationStore.appendEvent, Inner.pushConversationEvent]
      repeat' split
      all_goals exact ⟨rfl, rfl, rfl, rfl, rfl, rfl, rfl, rfl, rfl⟩
  | _ => exact hrefl

theorem exec_conversations_record (c : ConversationCall) (w : World) (r : ResponseId) :
    (exec (.conversations c) w).2.store.record r = w.store.record r :=
  (exec_conversationOnly c w).record r

theorem execMode_inner (w : World) (c : ModeCall) :
    (execMode w c).store.inner = w.store.inner := by
  cases c <;> rfl

/-! ## The bound on the streams -/

/-- A reap sets no bound. -/
theorem reapAll_maxEvents (now : ℕ) (ids : List ResponseId) (s : MemStore) :
    (MemResponseLedger.reapAll now ids s).2.maxEventsPerConversation =
      s.maxEventsPerConversation := by
  induction ids generalizing s with
  | nil => rfl
  | cons id ids ih =>
      have hone : (MemResponseLedger.reapOne s id now).2.maxEventsPerConversation =
          s.maxEventsPerConversation := by
        unfold MemResponseLedger.reapOne MemResponseLedger.bookPartial
        cases s.record id with
        | none => rfl
        | some x =>
            dsimp only
            split <;> rfl
      exact (ih _).trans hone

theorem claimLoop_maxEvents (agent : AgentId) (now ttl : ℕ) (s : MemStore) (ids : List ResponseId) :
    (MemResponseLedger.claimLoop s agent now ttl ids).2.maxEventsPerConversation =
      s.maxEventsPerConversation := by
  induction ids with
  | nil => rfl
  | cons id ids ih =>
      unfold MemResponseLedger.claimLoop
      repeat' split
      · exact ih
      · rfl
      · exact ih

/-- Only its switch sets the bound on the streams. -/
theorem exec_maxEvents (call : Call) (w : World) :
    (exec call w).2.store.maxEventsPerConversation =
      match call with
      | .mode (.setMaxEventsPerConversation limit) => max limit 1
      | _ => w.store.maxEventsPerConversation := by
  rcases call with _ | call | call | call | call | call
  · rfl
  · cases call with
    | claim agent now ttl =>
        simp only [exec, execLedger, World.withStore_snd, MemResponseLedger.claim]
        split
        · rfl
        · exact claimLoop_maxEvents agent now ttl w.store _
    | reap now ttl => exact reapAll_maxEvents now _ w.store
    | create record key now =>
        simp only [exec, execLedger, World.withStore_snd, MemResponseLedger.create,
          MemResponseLedger.admitRecord]
        repeat' split
        all_goals rfl
    | heartbeat => rfl
    | complete r attempt status usage now =>
        simp only [exec, execLedger, World.withStore_snd, MemResponseLedger.complete]
        repeat' split
        all_goals rfl
    | cancel tenant r now =>
        simp only [exec, execLedger, World.withStore_snd, MemResponseLedger.cancel,
          MemResponseLedger.bookPartial]
        repeat' split
        all_goals rfl
    | recordPartialUsage r attempt usage =>
        simp only [exec, execLedger, World.withStore_snd, MemResponseLedger.recordPartialUsage]
        split <;> rfl
    | get => rfl
    | delete r =>
        simp only [exec, execLedger, World.withStore_snd, MemResponseLedger.delete]
        split <;> rfl
    | deleteByTenant tenant =>
        simp only [exec, execLedger, World.withStore_snd, MemResponseLedger.deleteByTenant]
        split <;> rfl
    | checkAttempt => rfl
    | inFlight => rfl
  · rw [exec_eventLog_store]
  · cases call with
    | create x =>
        simp only [exec, execConversations, World.withStore_snd, MemConversationStore.create]
        repeat' split
        all_goals rfl
    | updateMetadata tenant id metadata =>
        simp only [exec, execConversations, World.withStore_snd,
          MemConversationStore.updateMetadata]
        repeat' split
        all_goals rfl
    | delete tenant id =>
        simp only [exec, execConversations, World.withStore_snd, MemConversationStore.delete]
        repeat' split
        all_goals rfl
    | deleteByTenant tenant =>
        simp only [exec, execConversations, World.withStore_snd,
          MemConversationStore.deleteByTenant]
        split <;> rfl
    | appendTurn tenant id r commit now =>
        rcases MemConversationStore.appendTurn_cases w.store tenant id r commit with
          ⟨e, heq⟩ | ⟨x, index, -, heq⟩ <;> simp only [exec, execConversations, heq] <;> rfl
    | advance tenant id last =>
        rcases MemConversationStore.advance_cases w.store tenant id last with
          ⟨e, heq⟩ | ⟨x, -, heq⟩ <;> simp only [exec, execConversations, heq] <;> rfl
    | acquireActive tenant id r now =>
        rcases MemConversationStore.acquireActive_cases w.store tenant id r now with
          ⟨e, heq, -⟩ | ⟨x, seq, -, -, heq⟩ | ⟨x, -, -, -, -, heq⟩ <;>
          simp only [exec, execConversations, heq] <;> rfl
    | releaseActive tenant id r status now =>
        rcases MemConversationStore.releaseActive_cases w.store tenant id r status now with
          ⟨reply, heq⟩ | ⟨x, -, -, -, -, heq⟩ <;> simp only [exec, execConversations, heq] <;> rfl
    | releaseStaleActive tenant id holder =>
        rcases MemConversationStore.releaseStaleActive_cases w.store tenant id holder with
          ⟨reply, heq⟩ | ⟨x, -, -, -, heq⟩ <;> simp only [exec, execConversations, heq] <;> rfl
    | appendEvent tenant id kind now =>
        simp only [exec, execConversations, World.withStore_snd, MemConversationStore.appendEvent]
        repeat' split
        all_goals rfl
    | get => rfl
    | list => rfl
    | readSnapshot => rfl
    | readAfter => rfl
  · cases call <;> rfl
  · cases call <;> rfl

/-! ## Announcements -/

/-- Whether the event log takes an unfenced event of `id` now. -/
def World.Announceable (w : World) (id : ResponseId) : Prop :=
  w.store.readOnly = false ∧ w.log.full id = false

instance (w : World) (id : ResponseId) : Decidable (w.Announceable id) :=
  inferInstanceAs (Decidable (_ ∧ _))

/-- An event is appended when it passes the fence and the log has room, or nothing happens. -/
theorem append_cases (event : AppendEvent) (w : World) :
    (∃ e, exec (.eventLog (.append event)) w = (.error e, w) ∧
      (MemResponseEventLog.fenceCheck w.store event = .error e ∨
        w.log.full event.responseId = true)) ∨
    MemResponseEventLog.fenceCheck w.store event = .ok () ∧
      w.log.full event.responseId = false ∧
      exec (.eventLog (.append event)) w =
        (.ok (w.log.log event.responseId).nextSeq, { w with log := w.log.pushed event }) := by
  simp only [exec, execEventLog, MemResponseEventLog.append]
  cases hfence : MemResponseEventLog.fenceCheck w.store event with
  | error e => exact Or.inl ⟨e, rfl, Or.inl rfl⟩
  | ok u =>
      rcases MemResponseEventLog.insert_cases w.log event with ⟨e, hfull, heq⟩ | ⟨hroom, heq⟩
      · exact Or.inl ⟨e, by simp only [heq]; rfl, Or.inr hfull⟩
      · exact Or.inr ⟨rfl, hroom, by simp only [heq]; rfl⟩

theorem fenceCheck_unfenced {s : MemStore} {event : AppendEvent} (hattempt : event.attempt = none) :
    MemResponseEventLog.fenceCheck s event =
      if s.readOnly then .error (.store .readOnly) else .ok () := by
  simp [MemResponseEventLog.fenceCheck, hattempt]

theorem announceable_append {w : World} {event : AppendEvent} (hattempt : event.attempt = none)
    (h : w.Announceable event.responseId) :
    ∃ seq, (exec (.eventLog (.append event)) w).1 = .ok seq := by
  obtain ⟨hwritable, hroom⟩ := h
  rcases append_cases event w with ⟨e, -, hfence | hfull⟩ | ⟨-, -, heq⟩
  · simp [fenceCheck_unfenced hattempt, hwritable] at hfence
  · rw [hroom] at hfull
    cases hfull
  · exact ⟨_, congrArg Prod.fst heq⟩

theorem append_refused {w : World} {event : AppendEvent} (hattempt : event.attempt = none)
    (h : ¬ w.Announceable event.responseId) :
    ∃ e, exec (.eventLog (.append event)) w = (.error e, w) := by
  rcases append_cases event w with ⟨e, heq, -⟩ | ⟨hfence, hroom, -⟩
  · exact ⟨e, heq⟩
  · refine absurd ⟨?_, hroom⟩ h
    by_contra hro
    simp [fenceCheck_unfenced hattempt, hro] at hfence

/-! ## Running records -/

/-- Attempt `a` of response `r` is running. -/
def World.InForce (w : World) (r : ResponseId) (a : Attempt) : Prop :=
  ∃ x, w.store.record r = some x ∧ x.status = .inProgress ∧ x.attempt = a

/-- Response `r` has come to its end. -/
def World.Ended (w : World) (r : ResponseId) : Prop :=
  ∃ x, w.store.record r = some x ∧ x.status.isTerminal = true

theorem World.Ended.not_inForce {w : World} {r : ResponseId} {a : Attempt} (h : w.Ended r) :
    ¬ w.InForce r a := by
  obtain ⟨x, hx, hterm⟩ := h
  rintro ⟨y, hy, hrun, -⟩
  obtain rfl : x = y := Option.some.inj (hx.symm.trans hy)
  rw [hrun] at hterm
  cases hterm

/-- A fence check that passes finds its attempt running. -/
theorem inForce_of_fenceCheck {w : World} {event : AppendEvent} {a : Attempt}
    (hattempt : event.attempt = some a)
    (h : (exec (.eventLog (.fenceCheck event)) w).1 = .ok ()) :
    w.InForce event.responseId a := by
  simp only [exec, execEventLog, MemResponseEventLog.fenceCheck, hattempt,
    MemResponseLedger.checkAttempt] at h
  split_ifs at h with hro
  cases hx : w.store.record event.responseId with
  | none => simp [hx] at h
  | some x =>
      simp only [hx] at h
      by_cases hstale : x.attempt ≠ a ∨ x.status ≠ .inProgress
      · simp [hstale] at h
      · push Not at hstale
        exact ⟨x, hx, hstale.2, hstale.1⟩

/-! ## Logs -/

/-- All calls but appends, whole or in halves. -/
def Call.Whole : Call → Prop
  | .eventLog (.append _) | .eventLog (.fenceCheck _) | .eventLog (.insert _) => False
  | _ => True

/-- What becomes of a log to which nothing is added. -/
structure ResponseLog.Fades (log log' : ResponseLog) : Prop where
  ring : log'.ring.Sublist log.ring
  nextSeq : log'.nextSeq = log.nextSeq
  swept : log.swept = true → log'.swept = true

theorem ResponseLog.Fades.refl (log : ResponseLog) : log.Fades log :=
  ⟨List.Sublist.refl _, rfl, id⟩

/-- A log that is there after a whole call was there before it, and nothing was added. -/
theorem exec_fades {c : Call} (hc : c.Whole) {w : World} {r : ResponseId} {log' : ResponseLog}
    (h : (exec c w).2.log.logs.lookup r = some log') :
    ∃ log, w.log.logs.lookup r = some log ∧ log.Fades log' := by
  have hsame : (exec c w).2.log = w.log →
      ∃ log, w.log.logs.lookup r = some log ∧ log.Fades log' :=
    fun heq ↦ ⟨log', heq ▸ h, .refl log'⟩
  rcases c with _ | c | c | c | c | c
  · exact hsame rfl
  · cases c <;> exact hsame rfl
  · cases c with
    | readAfter => exact hsame rfl
    | close id now retain =>
        simp only [exec, execEventLog, World.withLog_snd, MemResponseEventLog.close] at h
        cases hlog : w.log.logs.lookup id with
        | none => exact ⟨log', by simpa only [hlog] using h, .refl log'⟩
        | some log =>
            simp only [hlog, HashMap.lookup_insert'] at h
            split_ifs at h with hid
            · obtain rfl := Option.some.inj h
              exact ⟨log, hid ▸ hlog, List.Sublist.refl _, rfl, fun hswept ↦ hswept⟩
            · exact ⟨log', h, .refl log'⟩
    | sweepExpired now =>
        simp only [exec, execEventLog, World.withLog_snd, MemResponseEventLog.sweepExpired,
          HashMap.lookup_filterMapVal] at h
        obtain ⟨log, hlog, hsweep⟩ := Option.bind_eq_some_iff.mp h
        refine ⟨log, hlog, ?_⟩
        unfold ResponseLog.sweep at hsweep
        split_ifs at hsweep
        · obtain rfl := Option.some.inj hsweep
          exact ⟨List.nil_sublist _, rfl, fun _ ↦ rfl⟩
        · obtain rfl := Option.some.inj hsweep
          exact .refl log
    | remove id =>
        simp only [exec, execEventLog, World.withLog_snd, MemResponseEventLog.remove] at h
        cases hlog : w.log.logs.lookup id with
        | none => exact ⟨log', by simpa only [hlog] using h, .refl log'⟩
        | some log =>
            simp only [hlog, HashMap.lookup_erase'] at h
            split_ifs at h
            exact ⟨log', h, .refl log'⟩
    | _ => exact hc.elim
  · cases c <;> exact hsame rfl
  · cases c <;> exact hsame rfl
  · cases c <;> exact hsame rfl

/-! ## Quiet calls -/

/-- Two stores with the same records, conversations and snapshots. -/
structure MemStore.Alike (s s' : MemStore) : Prop where
  record : ∀ r, s'.record r = s.record r
  conversation : ∀ c, s'.conversation c = s.conversation c
  snapshot : ∀ c, s'.snapshot c = s.snapshot c

theorem MemStore.Alike.of_eq {s s' : MemStore} (h : s' = s) : s.Alike s' :=
  h ▸ ⟨fun _ ↦ rfl, fun _ ↦ rfl, fun _ ↦ rfl⟩

theorem MemStore.Alike.marker {s s' : MemStore} (h : s.Alike s') (c : ConversationId) :
    s'.marker c = s.marker c := by
  simp only [MemStore.marker, h.conversation]

theorem exec_quiet {c : Call} (hc : c.Quiet) (w : World) : w.store.Alike (exec c w).2.store := by
  rcases c with _ | c | c | c | c | c
  · exact .of_eq rfl
  · cases c <;> first | exact hc.elim | exact ⟨fun _ ↦ rfl, fun _ ↦ rfl, fun _ ↦ rfl⟩
  · exact .of_eq (exec_eventLog_store c w)
  · cases c <;> first | exact hc.elim | exact ⟨fun _ ↦ rfl, fun _ ↦ rfl, fun _ ↦ rfl⟩
  · exact hc.elim
  · cases c <;> exact ⟨fun _ ↦ rfl, fun _ ↦ rfl, fun _ ↦ rfl⟩

/-! ## Records -/

/-- How a record may change: never its identity or its spec, and nothing once terminal. -/
structure ResponseRecord.Advances (x x' : ResponseRecord) : Prop where
  responseId : x'.responseId = x.responseId
  tenantId : x'.tenantId = x.tenantId
  spec : x'.spec = x.spec
  idempotencyKey : x'.idempotencyKey = x.idempotencyKey
  terminal : x.status.isTerminal = true → x' = x

theorem ResponseRecord.Advances.refl (x : ResponseRecord) : x.Advances x :=
  ⟨rfl, rfl, rfl, rfl, fun _ ↦ rfl⟩

theorem ResponseRecord.Advances.trans {x x' x'' : ResponseRecord} (h : x.Advances x')
    (h' : x'.Advances x'') : x.Advances x'' where
  responseId := h'.responseId.trans h.responseId
  tenantId := h'.tenantId.trans h.tenantId
  spec := h'.spec.trans h.spec
  idempotencyKey := h'.idempotencyKey.trans h.idempotencyKey
  terminal ht := by
    have hx := h.terminal ht
    subst hx
    exact h'.terminal ht

/-- No record appears or disappears, and each one advances. -/
def MemStore.Advances (s s' : MemStore) : Prop :=
  ∀ r, Option.Rel ResponseRecord.Advances (s.record r) (s'.record r)

theorem MemStore.Advances.of_record {s s' : MemStore} (h : ∀ r, s'.record r = s.record r) :
    s.Advances s' := by
  intro r
  rw [h]
  cases s.record r with
  | none => exact .none
  | some x => exact .some (.refl x)

theorem MemStore.Alike.advances {s s' : MemStore} (h : s.Alike s') : s.Advances s' :=
  .of_record h.record

namespace MemStore.Advances

variable {s s' : MemStore} {r : ResponseId} {x x' : ResponseRecord}

theorem none (h : s.Advances s') (hr : s.record r = Option.none) :
    s'.record r = Option.none := by
  have := h r
  rw [hr] at this
  cases hr' : s'.record r with
  | none => rfl
  | some y => rw [hr'] at this; cases this

theorem some (h : s.Advances s') (hr : s.record r = Option.some x) :
    ∃ x', s'.record r = Option.some x' ∧ x.Advances x' := by
  have := h r
  rw [hr] at this
  cases hr' : s'.record r with
  | none => rw [hr'] at this; cases this
  | some y =>
      rw [hr'] at this
      cases this with
      | some hxy => exact ⟨y, rfl, hxy⟩

theorem back (h : s.Advances s') (hr : s'.record r = Option.some x') :
    ∃ x, s.record r = Option.some x ∧ x.Advances x' := by
  cases hs : s.record r with
  | none => rw [h.none hs] at hr; cases hr
  | some x =>
      obtain ⟨y, hy, hxy⟩ := h.some hs
      obtain rfl : y = x' := by simpa [hr] using hy.symm
      exact ⟨x, rfl, hxy⟩

theorem terminal (h : s.Advances s') (hr : s.record r = Option.some x)
    (hx : x.status.isTerminal = true) : s'.record r = Option.some x := by
  obtain ⟨x', hx', hxx'⟩ := h.some hr
  rw [hx', hxx'.terminal hx]

end MemStore.Advances

/-- What one call can do to the record of `r`, where there is one before and after it. -/
inductive ResponseRecord.Stage (r : ResponseId) : Call → ResponseRecord → ResponseRecord → Prop
  | stay (c x) : Stage r c x x
  | claim {x} (agent : AgentId) (nowMs ttlMs : ℕ) : x.status = .queued →
      Stage r (.ledger (.claim agent nowMs ttlMs)) x (MemResponseLedger.claimed x agent)
  | complete {x} {status : ResponseStatus} (usage : Usage) (nowMs : ℕ) :
      x.status = .inProgress → status.isTerminal = true →
      Stage r (.ledger (.complete r x.attempt status usage nowMs)) x { x with
        status := status, owner := none, usage := usage, completedAtMs := some nowMs }
  | cancel {x} (nowMs : ℕ) : x.status.isTerminal = false →
      Stage r (.ledger (.cancel x.tenantId r nowMs)) x
        (MemResponseLedger.superseded x .cancelled nowMs)
  | reap {x} (nowMs ttlMs : ℕ) : x.status = .inProgress →
      Stage r (.ledger (.reap nowMs ttlMs)) x (MemResponseLedger.superseded x .failed nowMs)

theorem ResponseRecord.Stage.advances {r : ResponseId} {c : Call} {x x' : ResponseRecord}
    (h : x.Stage r c x') : x.Advances x' := by
  cases h with
  | stay => exact .refl x
  | claim agent now ttl hx => exact ⟨rfl, rfl, rfl, rfl, fun h ↦ by rw [hx] at h; cases h⟩
  | complete usage now hx _ => exact ⟨rfl, rfl, rfl, rfl, fun h ↦ by rw [hx] at h; cases h⟩
  | cancel now hx => exact ⟨rfl, rfl, rfl, rfl, fun h ↦ by rw [hx] at h; cases h⟩
  | reap now ttl hx => exact ⟨rfl, rfl, rfl, rfl, fun h ↦ by rw [hx] at h; cases h⟩

/-- No record appears or disappears, and each one moves as the call can move it. -/
def MemStore.Stages (c : Call) (s s' : MemStore) : Prop :=
  ∀ r, Option.Rel (ResponseRecord.Stage r c) (s.record r) (s'.record r)

theorem MemStore.Stages.of_record {c : Call} {s s' : MemStore}
    (h : ∀ r, s'.record r = s.record r) : s.Stages c s' := by
  intro r
  rw [h]
  cases s.record r with
  | none => exact .none
  | some x => exact .some (.stay c x)

theorem MemStore.Stages.of_update {c : Call} {s s' : MemStore} {id : ResponseId}
    {x x' : ResponseRecord} (hx : s.record id = some x) (hxx' : x.Stage id c x')
    (h : ∀ r, s'.record r = if r = id then some x' else s.record r) : s.Stages c s' := by
  intro r
  rw [h]
  split_ifs with hr
  · subst hr
    rw [hx]
    exact .some hxx'
  · cases s.record r with
    | none => exact .none
    | some y => exact .some (.stay c y)

theorem MemStore.Stages.back {c : Call} {s s' : MemStore} {r : ResponseId} {x' : ResponseRecord}
    (h : s.Stages c s') (hr : s'.record r = some x') :
    ∃ x, s.record r = some x ∧ x.Stage r c x' := by
  have hrel := h r
  rw [hr] at hrel
  cases hs : s.record r with
  | none => rw [hs] at hrel; cases hrel
  | some x =>
      rw [hs] at hrel
      cases hrel with
      | some hxx' => exact ⟨x, rfl, hxx'⟩

/-- Calls that neither write a new record nor remove one. -/
def LedgerCall.Settled : LedgerCall → Prop
  | .create .. | .delete _ | .deleteByTenant _ => False
  | _ => True

theorem exec_ledger_stages {c : LedgerCall} (hc : c.Settled) (w : World) :
    w.store.Stages (.ledger c) (exec (.ledger c) w).2.store := by
  cases c with
  | create => exact hc.elim
  | delete => exact hc.elim
  | deleteByTenant => exact hc.elim
  | claim agent now ttl =>
      obtain ⟨-, ⟨-, hrec⟩ | ⟨id, x, hx, hstatus, -, hrec⟩⟩ :=
        MemResponseLedger.claim_cases w.store agent now ttl
      · exact .of_record hrec
      · exact .of_update hx (.claim agent now ttl hstatus) hrec
  | heartbeat agent now => exact .of_record fun _ ↦ rfl
  | complete id attempt status usage now =>
      rcases MemResponseLedger.complete_cases w.store id attempt status usage now with
        ⟨e, heq⟩ | ⟨x, -, hx, rfl, hstatus, hterm, heq⟩
      · simp only [exec, execLedger, heq, World.withStore_snd]
        exact .of_record fun _ ↦ rfl
      · simp only [exec, execLedger, heq, World.withStore_snd]
        exact .of_update hx (.complete usage now hstatus hterm) fun r ↦
          MemResponseLedger.record_putRecord _ _ _ _
  | cancel tenant id now =>
      rcases MemResponseLedger.cancel_cases w.store tenant id now with
        ⟨e, heq⟩ | ⟨x, -, hx, rfl, hstatus, heq⟩
      · simp only [exec, execLedger, heq, World.withStore_snd]
        exact .of_record fun _ ↦ rfl
      · simp only [exec, execLedger, heq, World.withStore_snd]
        refine .of_update hx (.cancel now hstatus) fun r ↦ ?_
        rw [MemResponseLedger.record_bookPartial, MemResponseLedger.record_putRecord]
  | reap now ttl =>
      obtain ⟨aborted, -, -, -, hclaims, hrec⟩ := MemResponseLedger.reap_spec w.store now ttl
      intro r
      show Option.Rel _ _ ((MemResponseLedger.reap w.store now ttl).2.record r)
      rw [hrec]
      split_ifs with hr
      · obtain ⟨a, ha, rfl⟩ := List.mem_map.mp hr
        obtain ⟨x, hx, hstatus, -⟩ := hclaims a ha
        rw [hx]
        exact .some (.reap now ttl hstatus)
      · cases w.store.record r with
        | none => exact .none
        | some y => exact .some (.stay _ y)
  | recordPartialUsage id attempt usage =>
      refine .of_record fun r ↦ ?_
      simp only [exec, execLedger, World.withStore_snd, MemResponseLedger.recordPartialUsage]
      split <;> rfl
  | get id => exact .of_record fun _ ↦ rfl
  | checkAttempt id attempt => exact .of_record fun _ ↦ rfl
  | inFlight => exact .of_record fun _ ↦ rfl

theorem exec_ledger_advances {c : LedgerCall} (hc : c.Settled) (w : World) :
    w.store.Advances (exec (.ledger c) w).2.store := by
  have hmono : ∀ {r : ResponseId} {a b : Option ResponseRecord},
      Option.Rel (ResponseRecord.Stage r (.ledger c)) a b →
        Option.Rel ResponseRecord.Advances a b := by
    rintro _ _ _ (hstage | _)
    · exact .some hstage.advances
    · exact .none
  exact fun r ↦ hmono (exec_ledger_stages hc w r)

/-- The response whose record a call writes. -/
def Call.writes : Call → Option ResponseId
  | .ledger (.create record _ _) => some record.responseId
  | _ => none

/-- A create writes the record it accepts and touches no other. -/
theorem exec_create (record : ResponseRecord) (key : IdempotencyKey) (now : ℕ) (w : World) :
    ((∀ x, (exec (.ledger (.create record key now)) w).1 ≠ .ok (.accepted x)) ∧
      (exec (.ledger (.create record key now)) w).2 = w) ∨
    ∃ x, (exec (.ledger (.create record key now)) w).1 = .ok (.accepted x) ∧
      MemResponseLedger.sign w.nfc w.integrity record = .ok x ∧
      w.store.inner.idem.lookup key = none ∧
      (exec (.ledger (.create record key now)) w).2 =
        { w with store := MemResponseLedger.enqueue w.store x key } := by
  rcases MemResponseLedger.create_cases w.nfc w.integrity w.store record key with
    ⟨reply, hreply, heq⟩ | ⟨x, hsign, hidem, -, -, -, heq⟩
  · exact Or.inl ⟨by simpa [exec, execLedger, heq] using hreply, by simp [exec, execLedger, heq]⟩
  · exact Or.inr ⟨x, by simp [exec, execLedger, heq], hsign, hidem,
      by simp [exec, execLedger, heq]⟩

/-- The record a call leaves under `r`, unless it wrote it, was there before. -/
theorem record_stage {c : Call} {w : World} {r : ResponseId} {y : ResponseRecord}
    (hwrites : c.writes ≠ some r) (h : (exec c w).2.store.record r = some y) :
    ∃ x, w.store.record r = some x ∧ x.Stage r c y := by
  have hsame : (exec c w).2.store.record r = w.store.record r →
      ∃ x, w.store.record r = some x ∧ x.Stage r c y := fun heq ↦ ⟨y, heq ▸ h, .stay c y⟩
  rcases c with _ | c | c | c | c | c
  · exact hsame rfl
  · cases c with
    | create record key now =>
        refine hsame ?_
        rcases exec_create record key now w with ⟨-, heq⟩ | ⟨x, -, hsign, -, heq⟩
        · rw [heq]
        · rw [heq]
          refine (MemResponseLedger.record_enqueue w.store x key r).trans (if_neg ?_)
          rw [MemResponseLedger.sign_spec hsign]
          exact fun heq ↦ hwrites (congrArg some heq.symm)
    | delete id =>
        refine hsame ?_
        simp only [exec, execLedger, World.withStore_snd, MemResponseLedger.delete] at h ⊢
        split at h
        · rfl
        · simp only [MemStore.record, MemResponseLedger.lookup_removeRecord] at h ⊢
          split_ifs at h ⊢
          rfl
    | deleteByTenant tenant =>
        refine hsame ?_
        simp only [exec, execLedger, World.withStore_snd, MemResponseLedger.deleteByTenant] at h ⊢
        split at h
        · rfl
        · simp only [MemStore.record, MemResponseLedger.lookup_removeAll] at h ⊢
          split_ifs at h ⊢
          rfl
    | _ => exact (exec_ledger_stages (by trivial) w).back h
  · exact hsame (by rw [exec_eventLog_store])
  · exact hsame (exec_conversations_record c w r)
  · exact hsame (by cases c <;> rfl)
  · exact hsame (by simp only [exec, MemStore.record, execMode_inner])

theorem record_back {c : Call} {w : World} {r : ResponseId} {y : ResponseRecord}
    (hwrites : c.writes ≠ some r) (h : (exec c w).2.store.record r = some y) :
    ∃ x, w.store.record r = some x ∧ x.Advances y :=
  let ⟨x, hx, hstage⟩ := record_stage hwrites h
  ⟨x, hx, hstage.advances⟩

theorem exec_ledger_kept {c : LedgerCall} (hc : c.Settled) {w : World} {r : ResponseId}
    {x : ResponseRecord} (h : w.store.record r = some x) :
    ∃ x', (exec (.ledger c) w).2.store.record r = some x' :=
  let ⟨x', hx', _⟩ := (exec_ledger_advances hc w).some h
  ⟨x', hx'⟩

/-- A record is lost to a deletion of its own, or to one of its tenant's. -/
theorem record_kept {c : Call} {w : World} {r : ResponseId} {x : ResponseRecord}
    (h : w.store.record r = some x) :
    (∃ x', (exec c w).2.store.record r = some x') ∨
      (c = .ledger (.delete r) ∧ MemResponseLedger.guardWritable w.store = .ok ()) ∨
      ∃ tenant, c = .ledger (.deleteByTenant tenant) ∧
        MemResponseLedger.guardWritable w.store = .ok () ∧
        r ∈ (w.store.inner.byTenant.lookup tenant).getD [] := by
  have hsame : (exec c w).2.store.record r = w.store.record r →
      ∃ x', (exec c w).2.store.record r = some x' := fun heq ↦ ⟨x, heq.trans h⟩
  rcases c with _ | c | c | c | c | c
  · exact Or.inl (hsame rfl)
  · cases c with
    | create record key now =>
        rcases exec_create record key now w with ⟨-, heq⟩ | ⟨y, -, hsign, -, heq⟩
        · exact Or.inl (hsame (by rw [heq]))
        · refine Or.inl ?_
          rw [heq]
          by_cases hid : r = y.responseId
          · exact ⟨y, (MemResponseLedger.record_enqueue w.store y key r).trans (if_pos hid)⟩
          · exact ⟨x, (MemResponseLedger.record_enqueue w.store y key r).trans
              ((if_neg hid).trans h)⟩
    | delete id =>
        by_cases hid : r = id
        · subst hid
          cases hguard : MemResponseLedger.guardWritable w.store with
          | error e =>
              refine Or.inl (hsame ?_)
              simp only [exec, execLedger, World.withStore_snd, MemResponseLedger.delete, hguard]
          | ok u => exact Or.inr (Or.inl ⟨rfl, rfl⟩)
        · refine Or.inl (hsame ?_)
          simp only [exec, execLedger, World.withStore_snd, MemResponseLedger.delete]
          split
          · rfl
          · simp only [MemStore.record, MemResponseLedger.lookup_removeRecord, hid, if_false]
    | deleteByTenant tenant =>
        cases hguard : MemResponseLedger.guardWritable w.store with
        | error e =>
            refine Or.inl (hsame ?_)
            simp only [exec, execLedger, World.withStore_snd, MemResponseLedger.deleteByTenant,
              hguard]
        | ok u =>
            by_cases hmem : r ∈ (w.store.inner.byTenant.lookup tenant).getD []
            · exact Or.inr (Or.inr ⟨tenant, rfl, rfl, hmem⟩)
            · refine Or.inl (hsame ?_)
              simp only [exec, execLedger, World.withStore_snd, MemResponseLedger.deleteByTenant,
                hguard, MemStore.record, MemResponseLedger.lookup_removeAll, hmem, if_false]
    | _ => exact Or.inl (exec_ledger_kept (by trivial) h)
  · exact Or.inl (hsame (by rw [exec_eventLog_store]))
  · exact Or.inl (hsame (exec_conversations_record c w r))
  · exact Or.inl (hsame (by cases c <;> rfl))
  · exact Or.inl (hsame (by simp only [exec, MemStore.record, execMode_inner]))

/-! ## Terminal transitions -/

/-- Whether a call has just made `r` terminal on behalf of its caller. -/
def Call.wins (r : ResponseId) : (c : Call) → c.Reply → Bool
  | .ledger (.complete id _ _ _ _), reply => reply.isOk && decide (id = r)
  | .ledger (.cancel _ id _), reply => reply.isOk && decide (id = r)
  | .ledger (.reap _ _), .ok aborted => decide (r ∈ aborted.map AbortedClaim.responseId)
  | _, _ => false

/-- A win finds an open record and leaves a terminal one. -/
theorem exec_wins {c : Call} {w : World} {r : ResponseId} (h : c.wins r (exec c w).1 = true) :
    ∃ x x', w.store.record r = some x ∧ x.status.isTerminal = false ∧
      (exec c w).2.store.record r = some x' ∧ x'.status.isTerminal = true ∧ x.Advances x' := by
  -- The record after the call is the one `Advances` speaks of, once it is known to be terminal.
  have hclose : ∀ {lc : LedgerCall}, lc.Settled → ∀ {x : ResponseRecord} (x' : ResponseRecord),
      w.store.record r = some x → x.status.isTerminal = false →
      (exec (.ledger lc) w).2.store.record r = some x' → x'.status.isTerminal = true →
      ∃ x x', w.store.record r = some x ∧ x.status.isTerminal = false ∧
        (exec (.ledger lc) w).2.store.record r = some x' ∧ x'.status.isTerminal = true ∧
        x.Advances x' := by
    intro lc hlc x x' hx hopen hx' hterm
    obtain ⟨y, hy, hadv⟩ := (exec_ledger_advances hlc w).some hx
    obtain rfl : y = x' := Option.some.inj (hy.symm.trans hx')
    exact ⟨x, y, hx, hopen, hx', hterm, hadv⟩
  rcases c with _ | c | c | c | c | c
  · cases h
  · cases c with
    | complete id attempt status usage now =>
        rcases MemResponseLedger.complete_cases w.store id attempt status usage now with
          ⟨e, heq⟩ | ⟨x, -, hx, -, hstatus, hterm, heq⟩
        · simp [Call.wins, exec, execLedger, heq, Except.isOk, Except.toBool] at h
        · obtain rfl : id = r := by
            simpa [Call.wins, exec, execLedger, heq, Except.isOk, Except.toBool] using h
          refine hclose trivial { x with
              status := status, owner := none, usage := usage, completedAtMs := some now }
            hx (by rw [hstatus]; rfl) ?_ hterm
          simp only [exec, execLedger, heq, World.withStore_snd]
          rw [MemResponseLedger.record_putRecord, if_pos rfl]
    | cancel tenant id now =>
        rcases MemResponseLedger.cancel_cases w.store tenant id now with
          ⟨e, heq⟩ | ⟨x, -, hx, -, hopen, heq⟩
        · simp [Call.wins, exec, execLedger, heq, Except.isOk, Except.toBool] at h
        · obtain rfl : id = r := by
            simpa [Call.wins, exec, execLedger, heq, Except.isOk, Except.toBool] using h
          refine hclose trivial (MemResponseLedger.superseded x .cancelled now) hx hopen ?_ rfl
          simp only [exec, execLedger, heq, World.withStore_snd]
          rw [MemResponseLedger.record_bookPartial, MemResponseLedger.record_putRecord,
            if_pos rfl]
    | reap now ttl =>
        obtain ⟨aborted, hab, -, -, hclaims, hrec⟩ := MemResponseLedger.reap_spec w.store now ttl
        have hmem : r ∈ aborted.map AbortedClaim.responseId := by
          simpa [Call.wins, exec, execLedger, hab] using h
        obtain ⟨a, ha, rfl⟩ := List.mem_map.mp hmem
        obtain ⟨x, hx, hstatus, -⟩ := hclaims a ha
        refine hclose trivial (MemResponseLedger.superseded x .failed now) hx
          (by rw [hstatus]; rfl) ?_ rfl
        show (MemResponseLedger.reap w.store now ttl).2.record a.responseId = _
        rw [hrec, if_pos hmem, hx]
        rfl
    | _ => cases h
  all_goals cases c <;> cases h

/-! ## Replies -/

/-- The replies the stages of a turn rely on. -/
theorem exec_answers (c : Call) (w : World) : c.Answers (exec c w).1 := by
  rcases c with _ | c | c | c | c | c
  · trivial
  · cases c with
    | create record key now =>
        intro x hx
        rcases exec_create record key now w with ⟨hnot, -⟩ | ⟨y, hy, hsign, -⟩
        · exact absurd hx (hnot x)
        · obtain rfl : y = x := by simpa [hy] using hx
          rw [MemResponseLedger.sign_spec hsign]
    | reap now ttl =>
        intro aborted hab
        obtain ⟨aborted', hab', -, hnodup, -⟩ := MemResponseLedger.reap_spec w.store now ttl
        obtain rfl : aborted' = aborted := Except.ok.inj (hab'.symm.trans hab)
        exact hnodup
    | _ => trivial
  · cases c <;> trivial
  · trivial
  · trivial
  · trivial

/-- A claim hands out the record it leaves in the store. -/
theorem exec_claim {w : World} (hk : w.store.Keyed) {agent : AgentId} {now ttl : ℕ}
    {claimed : ClaimedResponse}
    (h : (exec (.ledger (.claim agent now ttl)) w).1 = .ok (some claimed)) :
    (exec (.ledger (.claim agent now ttl)) w).2.store.record claimed.record.responseId =
      some claimed.record := by
  obtain ⟨-, ⟨hnone, -⟩ | ⟨id, x, hx, -, hreply, hrec⟩⟩ :=
    MemResponseLedger.claim_cases w.store agent now ttl
  · exact absurd h (hnone claimed)
  · have heq := Option.some.inj (Except.ok.inj (hreply.symm.trans h))
    have hid : claimed.record.responseId = id := by
      rw [← heq]
      exact (hk.record hx : x.responseId = id)
    rw [hid, ← heq]
    exact (hrec id).trans (if_pos rfl)

/-- A reap hands out what the records it closes say of their turns. -/
theorem exec_reap {w : World} {now ttl : ℕ} {aborted : List AbortedClaim}
    (h : (exec (.ledger (.reap now ttl)) w).1 = .ok aborted) {a : AbortedClaim} (ha : a ∈ aborted) :
    ∃ x, (exec (.ledger (.reap now ttl)) w).2.store.record a.responseId = some x ∧
      x.turnInfo = a.turnInfo := by
  obtain ⟨aborted', hreply, -, -, hclaims, hrec⟩ := MemResponseLedger.reap_spec w.store now ttl
  obtain rfl : aborted' = aborted := Except.ok.inj (hreply.symm.trans h)
  obtain ⟨x, hx, -, heq⟩ := hclaims a ha
  refine ⟨MemResponseLedger.superseded x .failed now, ?_, ?_⟩
  · refine (hrec a.responseId).trans ?_
    rw [if_pos (List.mem_map_of_mem ha), hx]
    rfl
  · rw [heq]
    rfl

/-! ## Markers and snapshots -/

section Markers

variable {w : World}

theorem marker_of_owned {tenant : TenantId} {c : ConversationId} {x : Conversation}
    (h : MemConversationStore.owned w.store tenant c = some x) :
    w.store.marker c = x.activeResponseId := by
  simp [MemStore.marker, (MemConversationStore.owned_eq_some.mp h).1]

theorem id_of_owned (hk : w.store.Keyed) {tenant : TenantId} {c : ConversationId}
    {x : Conversation} (h : MemConversationStore.owned w.store tenant c = some x) : x.id = c :=
  hk.conversation (MemConversationStore.owned_eq_some.mp h).1

theorem marker_of_update {s' : MemStore} {c : ConversationId} {x : Conversation}
    (h : ∀ c', s'.conversation c' = if c' = c then some x else w.store.conversation c')
    (c' : ConversationId) :
    s'.marker c' = if c' = c then x.activeResponseId else w.store.marker c' := by
  simp only [MemStore.marker, h]
  split_ifs <;> rfl

theorem exec_acquireActive (hk : w.store.Keyed) (tenant : TenantId) (c : ConversationId)
    (id : ResponseId) (now : ℕ) :
    (∃ e, exec (.conversations (.acquireActive tenant c id now)) w = (.error e, w) ∧
      ∀ holder, e = .busy holder → w.store.marker c = some holder ∧ holder ≠ id) ∨
    ∃ seq, (exec (.conversations (.acquireActive tenant c id now)) w).1 = .ok seq ∧
      (w.store.marker c = none ∨ w.store.marker c = some id) ∧
      ∀ c', (exec (.conversations (.acquireActive tenant c id now)) w).2.store.marker c' =
        if c' = c then some id else w.store.marker c' := by
  rcases MemConversationStore.acquireActive_cases w.store tenant c id now with
    ⟨e, heq, hbusy⟩ | ⟨x, seq, hx, hheld, heq⟩ | ⟨x, -, hx, hfree, -, heq⟩
  · refine Or.inl ⟨e, by simp [exec, execConversations, heq], fun holder he ↦ ?_⟩
    obtain ⟨x, hx, hholder, hne⟩ := hbusy holder he
    exact ⟨(marker_of_owned hx).trans hholder, hne⟩
  · have hmarker : w.store.marker c = some id := (marker_of_owned hx).trans hheld
    refine Or.inr ⟨seq, by simp [exec, execConversations, heq], Or.inr hmarker, fun c' ↦ ?_⟩
    simp only [exec, execConversations, heq, World.withStore_snd]
    split_ifs with hc
    · rw [hc, hmarker]
    · rfl
  · refine Or.inr ⟨(MemConversationStore.occupy w.store c x id now).1,
      by simp [exec, execConversations, heq], Or.inl ((marker_of_owned hx).trans hfree),
      fun c' ↦ ?_⟩
    simp only [exec, execConversations, heq, World.withStore_snd]
    have hid := id_of_owned hk hx
    subst hid
    exact marker_of_update (MemConversationStore.conversation_occupy _ _ _ _ _) c'

theorem exec_releaseActive (hk : w.store.Keyed) (tenant : TenantId) (c : ConversationId)
    (id : ResponseId) (status : ResponseStatus) (now : ℕ) :
    (exec (.conversations (.releaseActive tenant c id status now)) w).2 = w ∨
    w.store.marker c = some id ∧
      ∀ c', (exec (.conversations (.releaseActive tenant c id status now)) w).2.store.marker c' =
        if c' = c then none else w.store.marker c' := by
  rcases MemConversationStore.releaseActive_cases w.store tenant c id status now with
    ⟨reply, heq⟩ | ⟨x, hx, hheld, -, -, heq⟩
  · exact Or.inl (by simp [exec, execConversations, heq])
  · refine Or.inr ⟨(marker_of_owned hx).trans hheld, fun c' ↦ ?_⟩
    simp only [exec, execConversations, heq, World.withStore_snd]
    have hid := id_of_owned hk hx
    subst hid
    exact marker_of_update (MemConversationStore.conversation_vacate _ _ _ _ _ _) c'

theorem exec_releaseStaleActive (hk : w.store.Keyed) (tenant : TenantId) (c : ConversationId)
    (holder : ResponseId) :
    (exec (.conversations (.releaseStaleActive tenant c holder)) w).2 = w ∨
    w.store.marker c = some holder ∧
      ∀ c', (exec (.conversations (.releaseStaleActive tenant c holder)) w).2.store.marker c' =
        if c' = c then none else w.store.marker c' := by
  rcases MemConversationStore.releaseStaleActive_cases w.store tenant c holder with
    ⟨reply, heq⟩ | ⟨x, hx, hheld, -, heq⟩
  · exact Or.inl (by simp [exec, execConversations, heq])
  · refine Or.inr ⟨(marker_of_owned hx).trans hheld, fun c' ↦ ?_⟩
    simp only [exec, execConversations, heq, World.withStore_snd]
    have hid := id_of_owned hk hx
    subst hid
    exact marker_of_update (MemConversationStore.conversation_insert _ _) c'

theorem exec_appendTurn (tenant : TenantId) (c : ConversationId) (id : ResponseId)
    (commit : TurnCommit) (now : ℕ) :
    (∃ e, exec (.conversations (.appendTurn tenant c id commit now)) w = (.error e, w)) ∨
    ∃ index, (exec (.conversations (.appendTurn tenant c id commit now)) w).1 = .ok index ∧
      ∀ c', (exec (.conversations (.appendTurn tenant c id commit now)) w).2.store.snapshot c' =
        if c' = c then MemConversationStore.addTurn (w.store.snapshot c) id commit
        else w.store.snapshot c' := by
  rcases MemConversationStore.appendTurn_cases w.store tenant c id commit with
    ⟨e, heq⟩ | ⟨x, index, -, heq⟩
  · exact Or.inl ⟨e, by simp [exec, execConversations, heq]⟩
  · refine Or.inr ⟨index, by simp [exec, execConversations, heq], fun c' ↦ ?_⟩
    simp only [exec, execConversations, heq, World.withStore_snd, MemStore.snapshot,
      HashMap.lookup_insert']
    split_ifs <;> rfl

/-- Calls that move no marker. -/
def ConversationCall.Unmarking : ConversationCall → Prop
  | .get .. | .updateMetadata .. | .list _ | .readSnapshot .. | .appendTurn .. | .advance ..
  | .appendEvent .. | .readAfter .. => True
  | _ => False

theorem exec_conversations_marker (hk : w.store.Keyed) {c : ConversationCall} (hc : c.Unmarking)
    (c' : ConversationId) :
    (exec (.conversations c) w).2.store.marker c' = w.store.marker c' := by
  cases c with
  | get => rfl
  | list => rfl
  | readSnapshot => rfl
  | readAfter => rfl
  | appendTurn tenant id r commit now =>
      rcases MemConversationStore.appendTurn_cases w.store tenant id r commit with
        ⟨e, heq⟩ | ⟨x, index, -, heq⟩ <;> simp only [exec, execConversations, heq] <;> rfl
  | advance tenant id last =>
      rcases MemConversationStore.advance_cases w.store tenant id last with
        ⟨e, heq⟩ | ⟨x, hx, heq⟩
      · simp only [exec, execConversations, heq, World.withStore_snd]
      · simp only [exec, execConversations, heq, World.withStore_snd]
        rw [marker_of_update (MemConversationStore.conversation_insert _ _)]
        split_ifs with h
        · rw [h, id_of_owned hk hx, marker_of_owned hx]
        · rfl
  | updateMetadata tenant id metadata =>
      simp only [exec, execConversations, World.withStore_snd,
        MemConversationStore.updateMetadata]
      split
      · rfl
      · split
        · rfl
        · next x hx =>
            rw [marker_of_update (MemConversationStore.conversation_insert _ _)]
            split_ifs with h
            · rw [h, id_of_owned hk hx, marker_of_owned hx]
            · rfl
  | appendEvent tenant id kind now =>
      simp only [exec, execConversations, World.withStore_snd, MemConversationStore.appendEvent]
      repeat' split
      all_goals rfl
  | create => exact hc.elim
  | delete => exact hc.elim
  | deleteByTenant => exact hc.elim
  | acquireActive => exact hc.elim
  | releaseActive => exact hc.elim
  | releaseStaleActive => exact hc.elim

/-- Calls that leave every snapshot as it is. -/
def ConversationCall.Unarchiving : ConversationCall → Prop
  | .delete .. | .deleteByTenant _ | .appendTurn .. => False
  | _ => True

theorem exec_conversations_snapshot {c : ConversationCall} (hc : c.Unarchiving)
    (c' : ConversationId) :
    (exec (.conversations c) w).2.store.snapshot c' = w.store.snapshot c' := by
  have hsnap : (exec (.conversations c) w).2.store.inner.snapshots = w.store.inner.snapshots := by
    cases c with
    | delete => exact hc.elim
    | deleteByTenant => exact hc.elim
    | appendTurn => exact hc.elim
    | create conversation =>
        simp only [exec, execConversations, World.withStore_snd, MemConversationStore.create]
        repeat' split
        all_goals rfl
    | updateMetadata tenant id metadata =>
        simp only [exec, execConversations, World.withStore_snd,
          MemConversationStore.updateMetadata]
        repeat' split
        all_goals rfl
    | advance tenant id last =>
        rcases MemConversationStore.advance_cases w.store tenant id last with
          ⟨e, heq⟩ | ⟨x, -, heq⟩ <;>
          simp [exec, execConversations, heq, Inner.insertConversation]
    | acquireActive tenant id r now =>
        rcases MemConversationStore.acquireActive_cases w.store tenant id r now with
          ⟨e, heq, -⟩ | ⟨x, seq, -, -, heq⟩ | ⟨x, -, -, -, -, heq⟩ <;>
          simp [exec, execConversations, heq, MemConversationStore.occupy,
            Inner.pushConversationEvent, Inner.insertConversation]
    | releaseActive tenant id r status now =>
        rcases MemConversationStore.releaseActive_cases w.store tenant id r status now with
          ⟨reply, heq⟩ | ⟨x, -, -, -, -, heq⟩ <;>
          simp [exec, execConversations, heq, MemConversationStore.vacate,
            Inner.pushConversationEvent, Inner.insertConversation]
    | releaseStaleActive tenant id holder =>
        rcases MemConversationStore.releaseStaleActive_cases w.store tenant id holder with
          ⟨reply, heq⟩ | ⟨x, -, -, -, heq⟩ <;>
          simp [exec, execConversations, heq, Inner.insertConversation]
    | appendEvent tenant id kind now =>
        simp only [exec, execConversations, World.withStore_snd,
          MemConversationStore.appendEvent, Inner.pushConversationEvent]
        repeat' split
        all_goals rfl
    | _ => rfl
  simp only [MemStore.snapshot, hsnap]

/-- Calls that remove conversations, and their snapshots with them. -/
def Call.Erases : Call → Prop
  | .conversations (.delete ..) | .conversations (.deleteByTenant _) => True
  | _ => False

end Markers

/-! ## Keys -/

theorem lookup_removeAll_conversations (c : ConversationId) :
    ∀ (ids : List ConversationId) (g : Inner) (x : Conversation),
      (MemConversationStore.removeAll ids g).2.conversations.lookup c = some x →
      g.conversations.lookup c = some x := by
  intro ids
  induction ids with
  | nil => exact fun g x h ↦ h
  | cons id ids ih =>
      intro g x h
      have hone := ih (g.removeConversation id).2 x h
      unfold Inner.removeConversation at hone
      split at hone
      · exact hone
      · rw [HashMap.lookup_erase'] at hone
        split_ifs at hone
        exact hone

/-- Every call keeps records and conversations under their own ids. -/
theorem exec_keyed (c : Call) {w : World} (hk : w.store.Keyed) : (exec c w).2.store.Keyed := by
  rcases c with _ | c | c | c | c | c
  · exact hk
  · refine ⟨fun {r x} hx ↦ ?_, fun {c' x} hx ↦ ?_⟩
    · by_cases hc : c.Settled
      · obtain ⟨y, hy, hadv⟩ := (exec_ledger_advances hc w).back hx
        rw [hadv.responseId, hk.record hy]
      · cases c with
        | create record key now =>
            rcases exec_create record key now w with ⟨-, heq⟩ | ⟨y, -, -, -, heq⟩
            · rw [heq] at hx
              exact hk.record hx
            · rw [heq] at hx
              have hx := (MemResponseLedger.record_enqueue w.store y key r).symm.trans hx
              split_ifs at hx with hr
              · rw [hr, Option.some.inj hx]
              · exact hk.record hx
        | delete id =>
            simp only [exec, execLedger, World.withStore_snd, MemResponseLedger.delete] at hx
            split at hx
            · exact hk.record hx
            · have hx := (MemResponseLedger.lookup_removeRecord w.store.inner id r).symm.trans hx
              split_ifs at hx
              exact hk.record hx
        | deleteByTenant tenant =>
            simp only [exec, execLedger, World.withStore_snd,
              MemResponseLedger.deleteByTenant] at hx
            split at hx
            · exact hk.record hx
            · have hx := (MemResponseLedger.lookup_removeAll r _ w.store.inner).symm.trans hx
              split_ifs at hx
              exact hk.record hx
        | _ => exact (hc trivial).elim
    · refine hk.conversation ?_
      have := (exec_ledgerOnly c w).conversations
      simpa only [MemStore.conversation, this] using hx
  · exact (exec_eventLog_store c w).symm ▸ hk
  · refine ⟨fun {r x} hx ↦ hk.record ((exec_conversations_record c w r).symm.trans hx),
      fun {c' x} hx ↦ ?_⟩
    have hinsert : ∀ {s' : MemStore} (y : Conversation),
        (∀ c', s'.conversation c' = if c' = y.id then some y else w.store.conversation c') →
        s'.conversation c' = some x → x.id = c' := by
      intro s' y hs' hx
      rw [hs'] at hx
      split_ifs at hx with h
      · rw [h, Option.some.inj hx]
      · exact hk.conversation hx
    cases c with
    | create conversation =>
        simp only [exec, execConversations, World.withStore_snd, MemConversationStore.create] at hx
        split at hx
        · exact hk.conversation hx
        · split_ifs at hx
          · exact hk.conversation hx
          · exact hinsert _ (MemConversationStore.conversation_insert _ _) hx
    | updateMetadata tenant id metadata =>
        simp only [exec, execConversations, World.withStore_snd,
          MemConversationStore.updateMetadata] at hx
        split at hx
        · exact hk.conversation hx
        · split at hx
          · exact hk.conversation hx
          · exact hinsert _ (MemConversationStore.conversation_insert _ _) hx
    | delete tenant id =>
        simp only [exec, execConversations, World.withStore_snd, MemConversationStore.delete,
          Inner.removeConversation] at hx
        split at hx
        · exact hk.conversation hx
        · split at hx
          · exact hk.conversation hx
          · split at hx
            · exact hk.conversation hx
            · have hx := (HashMap.lookup_erase' _ _ _).symm.trans hx
              split_ifs at hx
              exact hk.conversation hx
    | deleteByTenant tenant =>
        simp only [exec, execConversations, World.withStore_snd,
          MemConversationStore.deleteByTenant] at hx
        split at hx
        · exact hk.conversation hx
        · exact hk.conversation (lookup_removeAll_conversations c' _ _ x hx)
    | appendTurn tenant id r commit now =>
        rcases MemConversationStore.appendTurn_cases w.store tenant id r commit with
          ⟨e, heq⟩ | ⟨y, index, -, heq⟩ <;>
          (simp only [exec, execConversations, heq] at hx; exact hk.conversation hx)
    | advance tenant id last =>
        rcases MemConversationStore.advance_cases w.store tenant id last with
          ⟨e, heq⟩ | ⟨y, -, heq⟩ <;>
          simp only [exec, execConversations, heq, World.withStore_snd] at hx
        · exact hk.conversation hx
        · exact hinsert _ (MemConversationStore.conversation_insert _ _) hx
    | acquireActive tenant id r now =>
        rcases MemConversationStore.acquireActive_cases w.store tenant id r now with
          ⟨e, heq, -⟩ | ⟨y, seq, -, -, heq⟩ | ⟨y, -, -, -, -, heq⟩ <;>
          simp only [exec, execConversations, heq, World.withStore_snd] at hx
        · exact hk.conversation hx
        · exact hk.conversation hx
        · exact hinsert { y with activeResponseId := some r }
            (MemConversationStore.conversation_occupy _ _ y _ _) hx
    | releaseActive tenant id r status now =>
        rcases MemConversationStore.releaseActive_cases w.store tenant id r status now with
          ⟨reply, heq⟩ | ⟨y, -, -, -, -, heq⟩ <;>
          simp only [exec, execConversations, heq, World.withStore_snd] at hx
        · exact hk.conversation hx
        · exact hinsert { y with activeResponseId := none }
            (MemConversationStore.conversation_vacate _ _ y _ _ _) hx
    | releaseStaleActive tenant id holder =>
        rcases MemConversationStore.releaseStaleActive_cases w.store tenant id holder with
          ⟨reply, heq⟩ | ⟨y, -, -, -, heq⟩ <;>
          simp only [exec, execConversations, heq, World.withStore_snd] at hx
        · exact hk.conversation hx
        · exact hinsert _ (MemConversationStore.conversation_insert _ _) hx
    | appendEvent tenant id kind now =>
        refine hk.conversation (c := c') ?_
        simp only [exec, execConversations, World.withStore_snd,
          MemConversationStore.appendEvent, Inner.pushConversationEvent] at hx
        repeat' split at hx
        all_goals exact hx
    | get => exact hk.conversation hx
    | list => exact hk.conversation hx
    | readSnapshot => exact hk.conversation hx
    | readAfter => exact hk.conversation hx
  · cases c <;> exact hk
  · have h := execMode_inner w c
    refine ⟨fun {r x} hx ↦ hk.record (r := r) ?_, fun {c' x} hx ↦ hk.conversation (c := c') ?_⟩
    · simpa only [MemStore.record, exec, h] using hx
    · simpa only [MemStore.conversation, exec, h] using hx

theorem Sample.world_keyed : Sample.world.store.Keyed :=
  exec_keyed (.conversations (.create (.new Sample.talk Sample.tenant [] 0)))
    MemStore.keyed_empty (w := {})

/-! ## Snapshots while their conversation exists -/

/-- Removing conversations leaves every other snapshot alone. -/
theorem snapshots_removeAll (c : ConversationId) : ∀ (ids : List ConversationId) (g : Inner),
    (MemConversationStore.removeAll ids g).2.snapshots.lookup c = g.snapshots.lookup c ∧
      (MemConversationStore.removeAll ids g).2.conversations.lookup c = g.conversations.lookup c ∨
    (MemConversationStore.removeAll ids g).2.snapshots.lookup c = none ∧
      (MemConversationStore.removeAll ids g).2.conversations.lookup c = none := by
  intro ids
  induction ids with
  | nil => exact fun g ↦ Or.inl ⟨rfl, rfl⟩
  | cons id ids ih =>
      intro g
      rcases ih (g.removeConversation id).2 with ⟨hsnap, hconv⟩ | hnone
      · cases hid : g.conversations.lookup id with
        | none =>
            have hsame : (g.removeConversation id).2 = g := by simp [Inner.removeConversation, hid]
            rw [hsame] at hsnap hconv
            simp only [MemConversationStore.removeAll, hsame]
            exact Or.inl ⟨hsnap, hconv⟩
        | some x =>
            simp only [Inner.removeConversation, hid, HashMap.lookup_erase'] at hsnap hconv
            simp only [MemConversationStore.removeAll, Inner.removeConversation, hid]
            split_ifs at hsnap hconv with hc
            · exact Or.inr ⟨hsnap, hconv⟩
            · exact Or.inl ⟨hsnap, hconv⟩
      · exact Or.inr hnone

/-- A snapshot changes by a turn, or goes with its conversation. -/
theorem exec_snapshot_cases (c : Call) (w : World) (c' : ConversationId) :
    (∃ tenant r commit now, c = .conversations (.appendTurn tenant c' r commit now)) ∨
    (exec c w).2.store.snapshot c' = w.store.snapshot c' ∨
    (exec c w).2.store.snapshot c' = {} ∧ (exec c w).2.store.conversation c' = none := by
  -- What a removal of conversations does to the store is what it does to the snapshots' table.
  have hremoved : ∀ {s' : MemStore} {ids : List ConversationId},
      s'.inner = (MemConversationStore.removeAll ids w.store.inner).2 →
        s'.snapshot c' = w.store.snapshot c' ∨
        s'.snapshot c' = {} ∧ s'.conversation c' = none := by
    intro s' ids hs'
    simp only [MemStore.snapshot, MemStore.conversation, hs']
    rcases snapshots_removeAll c' ids w.store.inner with ⟨hsnap, -⟩ | ⟨hsnap, hconv⟩
    · exact Or.inl (by rw [hsnap])
    · exact Or.inr ⟨by rw [hsnap]; rfl, hconv⟩
  rcases c with _ | c | c | c | c | c
  · exact Or.inr (Or.inl rfl)
  · exact Or.inr (Or.inl ((exec_ledgerOnly c w).snapshot c'))
  · exact Or.inr (Or.inl (by rw [exec_eventLog_store]))
  · by_cases hsame : c.Unarchiving
    · exact Or.inr (Or.inl (exec_conversations_snapshot hsame c'))
    · cases c with
      | appendTurn tenant id r commit now =>
          by_cases hc : id = c'
          · exact Or.inl ⟨tenant, r, commit, now, hc ▸ rfl⟩
          · refine Or.inr (Or.inl ?_)
            rcases exec_appendTurn (w := w) tenant id r commit now with ⟨e, heq⟩ | ⟨index, -, hsnap⟩
            · rw [heq]
            · rw [hsnap, if_neg (Ne.symm hc)]
      | delete tenant id =>
          refine Or.inr ?_
          simp only [exec, execConversations, World.withStore_snd, MemConversationStore.delete]
          split
          · exact Or.inl rfl
          · split
            · exact Or.inl rfl
            · exact @hremoved _ [id] rfl
      | deleteByTenant tenant =>
          refine Or.inr ?_
          simp only [exec, execConversations, World.withStore_snd,
            MemConversationStore.deleteByTenant]
          split
          · exact Or.inl rfl
          · exact hremoved rfl
      | _ => exact absurd trivial hsame
  · exact Or.inr (Or.inl (by cases c <;> rfl))
  · exact Or.inr (Or.inl (by simp only [exec, MemStore.snapshot, execMode_inner]))

end NovaChat
