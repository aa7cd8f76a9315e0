import NovaChat.Turn.Session

/-!
# The operations keep to the protocol

Each of create, execute, cancel and tick follows the session of a turn, whatever its calls
are answered.
-/

namespace NovaChat

open Interact Prog

/-! ## Loops over pages -/

/-- Reading a page of the stream of `r`. -/
def Call.Pages (r : ResponseId) (c : Call) : Prop :=
  ∃ cursor limit, c = .eventLog (.readAfter r cursor limit)

theorem Call.Pages.reads {r : ResponseId} {c : Call} (hc : c.Pages r) : c.Reads := by
  obtain ⟨cursor, limit, rfl⟩ := hc
  trivial

theorem pages_latestResponseObject (cfg : Config) (rounds : ℕ) (id : ResponseId) :
    (ResponsesService.latestResponseObject cfg rounds id).OnlyCalls (Call.Pages id) := by
  refine OnlyCalls.iterate (fun s ↦ ?_) rounds _
  refine ⟨⟨_, _, rfl⟩, fun reply ↦ ?_⟩
  rcases reply with e | (_ | ⟨first, batch⟩)
  · cases e <;> trivial
  · trivial
  · show OnlyCalls _ (ite _ _ _)
    split <;> trivial

theorem pages_reconstructBare (rounds : ℕ) (record : ResponseRecord) :
    (AgentRuntime.reconstructBare rounds record).OnlyCalls (Call.Pages record.responseId) := by
  refine OnlyCalls.iterate (fun s ↦ ?_) rounds _
  refine ⟨⟨_, _, rfl⟩, fun reply ↦ ?_⟩
  rcases reply with e | (_ | ⟨first, batch⟩)
  · trivial
  · trivial
  · show OnlyCalls _ (ite _ _ _)
    split <;> trivial

theorem pages_replayCompletedItems (rounds : ℕ) (id : ResponseId) :
    (replayCompletedItems rounds id).OnlyCalls (Call.Pages id) := by
  refine OnlyCalls.iterate (fun s ↦ ?_) rounds _
  refine ⟨⟨_, _, rfl⟩, fun reply ↦ ?_⟩
  rcases reply with e | (_ | ⟨first, batch⟩) <;> trivial

theorem pages_openStream (rounds : ℕ) (id : ResponseId) (cursor : Option ℕ) :
    (Gateway.openStream rounds id cursor).OnlyCalls (Call.Pages id) := by
  refine ⟨⟨_, _, rfl⟩, fun probe ↦ ?_⟩
  rcases probe with e | _
  · trivial
  refine OnlyCalls.iterate (fun s ↦ ?_) rounds _
  refine ⟨⟨_, _, rfl⟩, fun reply ↦ ?_⟩
  rcases reply with e | (_ | ⟨first, batch⟩)
  · trivial
  · trivial
  · show OnlyCalls _ (ite _ _ _)
    split <;> trivial

/-! ## Reading programs -/

theorem reads_latestResponseObject (cfg : Config) (rounds : ℕ) (id : ResponseId) :
    (ResponsesService.latestResponseObject cfg rounds id).OnlyCalls Call.Reads :=
  (pages_latestResponseObject cfg rounds id).mono fun _ ↦ Call.Pages.reads

theorem reads_readSnapshot (tenant : TenantId) (id : ConversationId) :
    (ResponsesService.readSnapshot tenant id).OnlyCalls Call.Reads :=
  ⟨trivial, fun r ↦ by cases r <;> exact trivial⟩

theorem reads_resolveAnchor (cfg : Config) (rounds : ℕ) (tenant : TenantId)
    (anchor : ContextAnchor) :
    (ResponsesService.resolveAnchor cfg rounds tenant anchor).OnlyCalls Call.Reads := by
  cases anchor with
  | root => exact trivial
  | conversation id => exact reads_readSnapshot tenant id
  | previous id =>
      refine ⟨trivial, fun r ↦ ?_⟩
      rcases r with e | _ | record
      · exact trivial
      · exact trivial
      · show OnlyCalls _ (ite _ _ _)
        split
        · show OnlyCalls _ (ite _ _ _)
          split <;> exact trivial
        · cases h : record.anchor with
          | root =>
              refine (reads_latestResponseObject cfg rounds _).bind fun r ↦ ?_
              cases r <;> exact trivial
          | conversation cid => exact reads_readSnapshot tenant cid
          | previous _ => exact trivial

theorem reads_resolveContext (cfg : Config) (rounds : ℕ) (tenant : TenantId)
    (anchor : ContextAnchor) :
    (ResponsesService.resolveContext cfg rounds tenant anchor).OnlyCalls Call.Reads :=
  (reads_resolveAnchor cfg rounds tenant anchor).bind fun r ↦ by cases r <;> exact trivial

/-- Calls that read, or are about conversations. -/
def Call.Conversing (c : Call) : Prop :=
  c.Reads ∨ ∃ call, c = .conversations call

/-- Calls that read, or move the marker of a turn. -/
def Call.Locking : Call → Prop
  | .conversations (.acquireActive ..) | .conversations (.releaseActive ..)
  | .conversations (.releaseStaleActive ..) => True
  | c => c.Reads

theorem Call.Reads.locking {c : Call} (hc : c.Reads) : c.Locking := by
  unfold Call.Locking
  split <;> trivial

theorem Call.Locking.conversing {c : Call} (hc : c.Locking) : c.Conversing := by
  unfold Call.Locking at hc
  split at hc
  · exact Or.inr ⟨_, rfl⟩
  · exact Or.inr ⟨_, rfl⟩
  · exact Or.inr ⟨_, rfl⟩
  · exact Or.inl hc

theorem locking_acquireFor (tenant : TenantId) (conversationId : Option ConversationId)
    (id : ResponseId) :
    (ResponsesService.acquireFor tenant conversationId id).OnlyCalls Call.Locking := by
  cases conversationId with
  | none => exact trivial
  | some c =>
      refine ⟨trivial, fun now ↦ ⟨trivial, fun r ↦ ?_⟩⟩
      rcases r with e | seq
      · cases e with
        | busy holder =>
            refine ⟨trivial, fun reply ↦ ?_⟩
            show OnlyCalls _ (ite _ _ _)
            split
            · refine ⟨trivial, fun r ↦ ?_⟩
              rcases r with e | released
              · exact trivial
              · refine ⟨trivial, fun now ↦ ⟨trivial, fun r ↦ ?_⟩⟩
                rcases r with e | seq <;> exact trivial
            · exact trivial
        | _ => exact trivial
      · exact trivial

theorem locking_release (tenant : TenantId) (conversationId : Option ConversationId)
    (id : ResponseId) :
    (ResponsesService.releaseAfterFailedAdmission tenant conversationId id).OnlyCalls
      Call.Locking := by
  cases conversationId with
  | none => exact trivial
  | some c => exact ⟨trivial, fun now ↦ ⟨trivial, fun _ ↦ trivial⟩⟩

theorem conversing_acquireFor (tenant : TenantId) (conversationId : Option ConversationId)
    (id : ResponseId) :
    (ResponsesService.acquireFor tenant conversationId id).OnlyCalls Call.Conversing :=
  (locking_acquireFor tenant conversationId id).mono fun _ ↦ Call.Locking.conversing

theorem conversing_release (tenant : TenantId) (conversationId : Option ConversationId)
    (id : ResponseId) :
    (ResponsesService.releaseAfterFailedAdmission tenant conversationId id).OnlyCalls
      Call.Conversing :=
  (locking_release tenant conversationId id).mono fun _ ↦ Call.Locking.conversing

/-- Calls that read, or append a turn. -/
def Call.Archiving (c : Call) : Prop :=
  c.Reads ∨ ∃ tenant conversation id commit now,
    c = .conversations (.appendTurn tenant conversation id commit now)

theorem Call.Archiving.conversing {c : Call} (hc : c.Archiving) : c.Conversing := by
  rcases hc with hc | ⟨tenant, conversation, id, commit, now, rfl⟩
  · exact Or.inl hc
  · exact Or.inr ⟨_, rfl⟩

theorem archiving_replayCompletedItems (rounds : ℕ) (id : ResponseId) :
    (replayCompletedItems rounds id).OnlyCalls Call.Archiving :=
  (pages_replayCompletedItems rounds id).mono fun _ hc ↦ Or.inl hc.reads

theorem archiving_archiveReplayed (rounds : ℕ) (tenant : TenantId) (c : ConversationId)
    (id : ResponseId) (input : List ResponseItem) (status : ResponseStatus) (now : ℕ) :
    (archiveReplayed rounds tenant c id input status now).OnlyCalls Call.Archiving := by
  refine (archiving_replayCompletedItems rounds id).bind fun result ↦ ?_
  rcases result with e | items
  · exact trivial
  · exact ⟨Or.inr ⟨_, _, _, _, _, rfl⟩, fun _ ↦ trivial⟩

theorem archiving_archiveCancelled (rounds : ℕ) (tenant : TenantId) (id : ResponseId)
    (record : Option ResponseRecord) (now : ℕ) :
    (ResponsesService.archiveCancelled rounds tenant id record now).OnlyCalls Call.Archiving := by
  unfold ResponsesService.archiveCancelled
  split
  · exact trivial
  · split
    · exact archiving_archiveReplayed ..
    · exact trivial

theorem archiving_appendTurn (rt : AgentRuntime) (record : ResponseRecord)
    (produced : List ResponseItem) (reasoning : Option String) (usage : Usage)
    (status : ResponseStatus) (now : ℕ) :
    (rt.appendTurn record produced reasoning usage status now).OnlyCalls Call.Archiving := by
  unfold AgentRuntime.appendTurn
  split
  · exact ⟨Or.inr ⟨_, _, _, _, _, rfl⟩, fun _ ↦ trivial⟩
  · exact trivial

theorem archiving_storeOutput (rt : AgentRuntime) (record : ResponseRecord)
    (output : TerminalOutput) (now : ℕ) :
    (rt.storeOutput record output now).OnlyCalls Call.Archiving := by
  unfold AgentRuntime.storeOutput
  split
  · split
    · exact trivial
    · exact archiving_appendTurn ..
  · exact trivial

theorem archiving_archiveFailed (rt : AgentRuntime) (record : ResponseRecord) (usage : Usage)
    (produced : List ResponseItem) (now : ℕ) :
    (rt.archiveFailed record usage produced now).OnlyCalls Call.Archiving := by
  unfold AgentRuntime.archiveFailed
  split
  · exact (archiving_appendTurn ..).bind fun _ ↦ trivial
  · exact trivial

theorem locking_releaseCancelled (tenant : TenantId) (id : ResponseId)
    (record : Option ResponseRecord) :
    (ResponsesService.releaseCancelled tenant id record).OnlyCalls Call.Locking := by
  unfold ResponsesService.releaseCancelled
  split
  · exact trivial
  · exact ⟨trivial, fun _ ↦ ⟨trivial, fun _ ↦ trivial⟩⟩

theorem conversing_releaseCancelled (tenant : TenantId) (id : ResponseId)
    (record : Option ResponseRecord) :
    (ResponsesService.releaseCancelled tenant id record).OnlyCalls Call.Conversing :=
  (locking_releaseCancelled tenant id record).mono fun _ ↦ Call.Locking.conversing

/-- The calls of a settlement: the tail is moved, if it is to be, and the marker given back. -/
inductive Call.Resolves (record : ResponseRecord) : Bool → Call → Prop
  | advance (conversation : ConversationId) : Resolves record true
      (.conversations (.advance record.tenantId conversation record.responseId))
  | release {advanceTail : Bool} (conversation : ConversationId) (status : ResponseStatus)
      (now : ℕ) : Resolves record advanceTail (.conversations
        (.releaseActive record.tenantId conversation record.responseId status now))

theorem resolves_settle (rt : AgentRuntime) (record : ResponseRecord) (status : ResponseStatus)
    (advanceTail : Bool) (now : ℕ) :
    (rt.settle record status advanceTail now).OnlyCalls (Call.Resolves record advanceTail) := by
  unfold AgentRuntime.settle
  split
  · cases advanceTail
    · exact ⟨.release .., fun _ ↦ trivial⟩
    · exact ⟨.advance _, fun _ ↦ ⟨.release .., fun _ ↦ trivial⟩⟩
  · trivial

theorem conversing_settle (rt : AgentRuntime) (record : ResponseRecord) (status : ResponseStatus)
    (advanceTail : Bool) (now : ℕ) :
    (rt.settle record status advanceTail now).OnlyCalls Call.Conversing :=
  (resolves_settle ..).mono fun _ hc ↦ by cases hc <;> exact Or.inr ⟨_, rfl⟩

/-- The records a call may write belong to `tenant`. -/
def Call.WritesFor (tenant : TenantId) (c : Call) : Prop :=
  ∀ record key now, c = .ledger (.create record key now) → record.tenantId = tenant

/-- The records a call may write are those a create proposes. -/
def Call.Proposes (cfg : Config) (tenant : TenantId) (spec : TurnSpec)
    (key : Option IdempotencyKey) (id : ResponseId) (c : Call) : Prop :=
  ∀ record key' now, c = .ledger (.create record key' now) →
    ∃ now', record = ResponsesService.proposed cfg tenant spec key id now'

theorem Call.Conversing.proposes {c : Call} (hc : c.Conversing) {cfg : Config} {tenant : TenantId}
    {spec : TurnSpec} {key : Option IdempotencyKey} {id : ResponseId} :
    c.Proposes cfg tenant spec key id := by
  rintro record key now rfl
  rcases hc with hc | ⟨call, hcall⟩
  · exact hc.elim
  · cases hcall

/-- A create writes the record it proposes, and no other. -/
theorem proposes_create (cfg : Config) (rounds : ℕ) (tenant : TenantId) (spec : TurnSpec)
    (key : Option IdempotencyKey) (uuid : Uuid) :
    (ResponsesService.create cfg rounds tenant spec key uuid).OnlyCalls
      (Call.Proposes cfg tenant spec key ⟨cfg.nodeTag, uuid⟩) := by
  have hrelease : ∀ (outcome : Except ServiceError CreateOutcome) (id : ResponseId),
      (ResponsesService.releaseAfterFailedAdmission tenant spec.anchor.conversationId id >>=
        fun _ ↦ (.ret outcome : Service _)).OnlyCalls
          (Call.Proposes cfg tenant spec key ⟨cfg.nodeTag, uuid⟩) := fun outcome id ↦
    ((conversing_release tenant _ id).mono fun c hc ↦ hc.proposes).bind fun _ ↦ trivial
  refine ⟨fun _ _ _ hcall ↦ by injection hcall, fun now ↦ ?_⟩
  refine ((reads_resolveContext cfg rounds tenant spec.anchor).mono fun c hc ↦
    Call.Conversing.proposes (Or.inl hc)).bind fun resolved ↦ ?_
  rcases resolved with e | resolved
  · exact trivial
  refine ((conversing_acquireFor tenant _ ⟨cfg.nodeTag, uuid⟩).mono fun c hc ↦
    hc.proposes).bind fun locked ↦ ?_
  rcases locked with e | ⟨⟩
  · exact trivial
  refine ⟨?_, fun r ↦ ?_⟩
  · rintro record key' now' hcall
    cases hcall
    exact ⟨now, rfl⟩
  · rcases r with e | (x | x | _ | _)
    · exact hrelease _ _
    · refine And.intro (fun _ _ _ hcall ↦ by injection hcall) fun r ↦ ?_
      rcases r with e | seq
      · exact hrelease _ _
      · exact trivial
    · exact hrelease _ _
    · exact hrelease _ _
    · exact hrelease _ _

/-- A create writes for the tenant it was called for. -/
theorem writesFor_create (cfg : Config) (rounds : ℕ) (tenant : TenantId) (spec : TurnSpec)
    (key : Option IdempotencyKey) (uuid : Uuid) :
    (ResponsesService.create cfg rounds tenant spec key uuid).OnlyCalls
      (Call.WritesFor tenant) := by
  refine (proposes_create cfg rounds tenant spec key uuid).mono fun c hc record key' now hcall ↦ ?_
  obtain ⟨now', rfl⟩ := hc record key' now hcall
  rfl

theorem reads_resolveSnapshot (rt : AgentRuntime) (rounds : ℕ) (record : ResponseRecord) :
    (rt.resolveSnapshot rounds record).OnlyCalls Call.Reads := by
  have hread : ∀ id, (rt.readSnapshot record.tenantId id).OnlyCalls Call.Reads := by
    intro id
    unfold AgentRuntime.readSnapshot
    split
    · exact ⟨trivial, fun r ↦ by cases r <;> exact trivial⟩
    · exact trivial
  unfold AgentRuntime.resolveSnapshot
  cases h : record.anchor with
  | root => exact trivial
  | conversation id => exact hread id
  | previous id =>
      refine ⟨trivial, fun r ↦ ?_⟩
      rcases r with e | _ | prev
      · exact trivial
      · exact trivial
      · simp only [bind_eq, ret_bind]
        split
        · exact hread _
        · exact (pages_reconstructBare rounds prev).mono fun _ ↦ Call.Pages.reads
        · exact trivial

theorem quiet_of_reads {c : Call} (hc : c.Reads) : c.Quiet := by
  rcases c with _ | c | c | c | c | c
  · trivial
  · cases c <;> first | exact hc.elim | trivial
  · cases c <;> first | exact hc.elim | trivial
  · cases c <;> first | exact hc.elim | trivial
  · exact hc.elim
  · exact hc.elim

theorem follows_reads {α : Type} {p : Service α} (s : Stage) (hs : s.Steady)
    (hp : p.OnlyCalls Call.Reads) : turn.Follows (fun s' _ ↦ s' = s) s p := by
  refine Session.Follows.of_onlyCalls hp (fun c hc ↦ idle_of_quiet hs (quiet_of_reads hc)) ?_
  cases s <;> trivial

/-! ## Creation -/

/-- Where an attempt to take the marker may leave the process. -/
def AcquireEnds (id : ResponseId) (c : ConversationId) (s : Stage) :
    Except ServiceError Unit → Prop
  | .ok _ => s = .admitting id c
  | .error _ => s.Restful

theorem follows_acquireTurn (tenant : TenantId) (c : ConversationId) (id : ResponseId) :
    turn.Follows (AcquireEnds id c) (.minted id c)
      (ResponsesService.acquireTurn tenant c id) := by
  refine ⟨.quiet trivial trivial, fun now _ ↦ ⟨.acquire tenant now, fun r _ ↦ ?_⟩⟩
  rcases r with e | seq
  · cases e with
    | busy holder =>
        refine ⟨.probe, fun reply _ ↦ ?_⟩
        simp only [turn, Stage.next, bind_eq, ret_bind]
        split
        · refine ⟨.steal tenant, fun r _ ↦ ?_⟩
          rcases r with e | released
          · exact trivial
          · refine ⟨.quiet trivial trivial, fun now _ ↦ ⟨.acquire tenant now, fun r _ ↦ ?_⟩⟩
            rcases r with e | seq
            · cases e <;> exact trivial
            · exact rfl
        · exact trivial
    | notFound => exact trivial
    | capacityExceeded => exact trivial
    | store e => exact trivial
  · exact rfl

theorem follows_releaseAfterFailedAdmission (tenant : TenantId)
    (conversationId : Option ConversationId) (id : ResponseId) {s : Stage}
    (hs : s = .refused id ∨ s = .orphaned id ∨ (s = .idle ∧ conversationId = none)) :
    turn.Follows (fun s _ ↦ s.Restful) s
      (ResponsesService.releaseAfterFailedAdmission tenant conversationId id) := by
  cases conversationId with
  | none => rcases hs with rfl | rfl | ⟨rfl, -⟩ <;> exact trivial
  | some c =>
      rcases hs with rfl | rfl | ⟨-, h⟩
      · exact ⟨.quiet trivial trivial, fun now _ ↦ ⟨.giveBack tenant c .failed now,
          fun _ _ ↦ trivial⟩⟩
      · exact ⟨.quiet trivial trivial, fun now _ ↦ ⟨.abandon tenant c .failed now,
          fun _ _ ↦ trivial⟩⟩
      · cases h

/-- Writing the record and announcing it, from a stage that may write. -/
theorem follows_admitOrRelease {tenant : TenantId} {conversationId : Option ConversationId}
    {record : ResponseRecord} {key : IdempotencyKey} {now : ℕ} {s : Stage}
    (hwrite : s.Allowed (.ledger (.create record key now)))
    (hs : (∃ c, s = .admitting record.responseId c) ∨
      (∃ anchor, s = .unanchored record.responseId anchor) ∧ conversationId = none) :
    turn.Follows (fun s _ ↦ s.Restful) s
      (ResponsesService.admitOrRelease tenant conversationId record key now) := by
  have hrefused : ∀ r : Except LedgerError CreateOutcome, (∀ x, r ≠ .ok (.accepted x)) →
      Stage.next s (.ledger (.create record key now)) r = .refused record.responseId ∨
        Stage.next s (.ledger (.create record key now)) r = .idle ∧ conversationId = none := by
    intro r hr
    rcases hs with ⟨c, rfl⟩ | ⟨⟨anchor, rfl⟩, hnone⟩
    · rcases r with e | (x | x | _ | _)
      · exact Or.inl rfl
      · exact absurd rfl (hr x)
      all_goals exact Or.inl rfl
    · rcases r with e | (x | x | _ | _)
      · exact Or.inr ⟨rfl, hnone⟩
      · exact absurd rfl (hr x)
      all_goals exact Or.inr ⟨rfl, hnone⟩
  have hrelease : ∀ (r : Except LedgerError CreateOutcome), (∀ x, r ≠ .ok (.accepted x)) →
      ∀ outcome : Except ServiceError CreateOutcome,
      turn.Follows (fun s _ ↦ s.Restful) (Stage.next s (.ledger (.create record key now)) r)
        (ResponsesService.releaseAfterFailedAdmission tenant conversationId record.responseId >>=
          fun _ ↦ .ret outcome) := by
    intro r hr outcome
    refine (follows_releaseAfterFailedAdmission tenant conversationId record.responseId ?_).bind
      fun _ _ h ↦ h
    rcases hrefused r hr with h | ⟨h, hnone⟩
    · exact Or.inl h
    · exact Or.inr (Or.inr ⟨h, hnone⟩)
  refine ⟨hwrite, fun r hans ↦ ?_⟩
  rcases r with e | (x | x | _ | _)
  · exact hrelease _ (by simp) _
  · have hid : x.responseId = record.responseId := hans x rfl
    have hnext : Stage.next s (.ledger (.create record key now)) (.ok (.accepted x)) =
        .admitted record.responseId := by cases s <;> rfl
    show turn.Follows _ (Stage.next s (.ledger (.create record key now)) (.ok (.accepted x))) _
    rw [hnext]
    refine ⟨.announce hid rfl rfl, fun r _ ↦ ?_⟩
    rcases r with e | seq
    · exact (follows_releaseAfterFailedAdmission tenant conversationId record.responseId
        (Or.inr (Or.inl rfl))).bind fun _ _ h ↦ h
    · exact trivial
  · exact hrelease _ (by simp) _
  · exact hrelease _ (by simp) _
  · exact hrelease _ (by simp) _

theorem follows_create (cfg : Config) (rounds : ℕ) (tenant : TenantId) (spec : TurnSpec)
    (key : Option IdempotencyKey) (uuid : Uuid) :
    turn.Follows (fun s _ ↦ s.Restful) (Stage.first (.create cfg rounds tenant spec key uuid))
      (ResponsesService.create cfg rounds tenant spec key uuid) := by
  have hreads := reads_resolveContext cfg rounds tenant spec.anchor
  cases hc : spec.anchor.conversationId with
  | some c =>
      have hfirst : Stage.first (.create cfg rounds tenant spec key uuid) =
          .minted ⟨cfg.nodeTag, uuid⟩ c := by simp [Stage.first, hc]
      rw [hfirst]
      refine ⟨.quiet trivial trivial, fun now _ ↦ ?_⟩
      refine (follows_reads (.minted ⟨cfg.nodeTag, uuid⟩ c) trivial hreads).bind fun s r hs ↦ ?_
      subst hs
      rcases r with e | resolved
      · exact trivial
      · simp only [hc]
        refine (follows_acquireTurn tenant c _).bind fun s r hs ↦ ?_
        rcases r with e | ⟨⟩
        · exact hs
        · obtain rfl : s = .admitting ⟨cfg.nodeTag, uuid⟩ c := hs
          exact follows_admitOrRelease
            (.write _ _ rfl (ContextAnchor.conversationId_eq_some.mp hc) rfl) (Or.inl ⟨c, rfl⟩)
  | none =>
      have hfirst : Stage.first (.create cfg rounds tenant spec key uuid) =
          .unanchored ⟨cfg.nodeTag, uuid⟩ spec.anchor := by simp [Stage.first, hc]
      rw [hfirst]
      refine ⟨.quiet trivial trivial, fun now _ ↦ ?_⟩
      refine (follows_reads (.unanchored ⟨cfg.nodeTag, uuid⟩ spec.anchor) trivial hreads).bind
        fun s r hs ↦ ?_
      subst hs
      rcases r with e | resolved
      · exact trivial
      · simp only [hc]
        exact follows_admitOrRelease (.writeBare _ _ rfl rfl hc rfl) (Or.inr ⟨⟨_, rfl⟩, rfl⟩)

end NovaChat
