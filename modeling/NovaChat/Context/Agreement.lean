import NovaChat.Stream.Finished

/-!
# The two resolvers of inherited context

A turn's context is resolved once when it is admitted and once more when it is executed, by two
functions.  They read the same snapshots, but only admission asks whether a previous response may
be used; and where the history is in a stream, admission takes the output of the last object it
finds, and makes do with none, while execution puts all outputs together, and fails without one.
-/

namespace NovaChat

open Interact Numbering

/-- The items a resolver succeeds with in a world that does not change. -/
def assembled {ε : Type} (p : Service (Except ε ResolvedContext)) (w : World) :
    Option (List ResponseItem) :=
  (p.run exec w).bind fun out ↦ out.1.toOption.map ResolvedContext.intoItems

/-! ## What each of them reads -/

/-- A snapshot that can be read for a tenant. -/
def SnapshotReadable (s : MemStore) (tenant : TenantId) (c : ConversationId) : Prop :=
  ∃ context, MemConversationStore.readSnapshot s tenant c = .ok context

/-- A stream that can be read from its start. -/
def World.Replayable (w : World) (r : ResponseId) (log : ResponseLog) : Prop :=
  w.log.logs.lookup r = some log ∧ log.swept = false ∧ log.evictedBefore = 0

/-- The output of the last of some events that carries an object. -/
def lastOutput (events : List ResponseEvent) : List ResponseItem :=
  ((events.reverse.findSome? ResponseEvent.responseObject).map ResponseObject.output).getD []

/-- The outputs of all objects some events carry. -/
def allOutput (events : List ResponseEvent) : List ResponseItem :=
  events.flatMap fun e ↦ (e.responseObject.map ResponseObject.output).getD []

/-- Every log stands for a stream, and counts it by a machine word. -/
def World.Logs (w : World) : Prop :=
  ∀ r log, w.log.logs.lookup r = some log →
    log.nextSeq ≤ u64Max ∧ ∃ all, log.Holds w.log.capacityPerResponse all

section Reading

variable {w : World} {r : ResponseId} {log : ResponseLog} {rounds : ℕ}

theorem World.Replayable.replays (h : w.Replayable r log) (hlogs : w.Logs) :
    w.log.Replays r log.ring := by
  obtain ⟨hcount, all, hholds⟩ := hlogs r log h.1
  exact hholds.replays h.1 h.2.1 h.2.2 hcount

theorem readAfter_unreplayable (hlogs : w.Logs) (h : ∀ log, ¬ w.Replayable r log) (limit : ℕ) :
    ∃ e, (e = .unknown ∨ e = .expired) ∧
      MemResponseEventLog.readAfter w.log r none limit = .error e := by
  cases hlog : w.log.logs.lookup r with
  | none => exact ⟨.unknown, Or.inl rfl, by simp [MemResponseEventLog.readAfter, hlog]⟩
  | some log =>
      obtain ⟨hcount, all, hholds⟩ := hlogs r log hlog
      refine ⟨.expired, Or.inr rfl, hholds.readAfter_none hlog ?_ hcount limit⟩
      by_contra hkept
      push Not at hkept
      exact h log ⟨hlog, by simpa using hkept.1, by omega⟩

theorem foldl_output (events : List ResponseEvent) (items : List ResponseItem) :
    events.foldl (fun items e ↦
      items ++ (e.responseObject.map ResponseObject.output).getD []) items =
        items ++ allOutput events := by
  induction events generalizing items with
  | nil => simp [allOutput]
  | cons e events ih => simp [allOutput, ih, List.append_assoc]

theorem intoItems_fromItems (items : List ResponseItem) (turns : ℕ) :
    (ResolvedContext.fromItems items turns).intoItems = items := by
  simp [ResolvedContext.fromItems, ResolvedContext.intoItems, Function.comp_def]

variable {p : ResponseRecord}

theorem assembled_service_bare {cfg : Config} (h : w.Replayable r log) (hlogs : w.Logs)
    (hid : p.responseId = r) (hpage : 1 ≤ cfg.eventPage) (hrounds : log.ring.length < rounds) :
    assembled (ResponsesService.reconstructBare cfg rounds p) w =
      some (p.spec.inputItems ++ lastOutput (visited ends cfg.eventPage log.ring)) := by
  have hrun := run_latestResponseObject (h.replays hlogs) hpage hrounds
  rw [foldl_newer, Option.or_none] at hrun
  rw [assembled, ResponsesService.reconstructBare, hid, Prog.run_bind_of_eq hrun]
  simp [Except.toOption, intoItems_fromItems, lastOutput]

theorem assembled_service_bare_gone {cfg : Config} (h : ∀ log, ¬ w.Replayable r log)
    (hlogs : w.Logs) (hid : p.responseId = r) (hrounds : 0 < rounds) :
    assembled (ResponsesService.reconstructBare cfg rounds p) w = some p.spec.inputItems := by
  obtain ⟨e, he, hread⟩ := readAfter_unreplayable hlogs h cfg.eventPage
  have hrun := run_latestResponseObject_gone he hread hrounds
  rw [assembled, ResponsesService.reconstructBare, hid, Prog.run_bind_of_eq hrun]
  simp [Except.toOption, intoItems_fromItems]

/-- Execution continues a bare response with all outputs in its stream. -/
theorem assembled_runtime_bare (h : w.Replayable r log) (hlogs : w.Logs)
    (hid : p.responseId = r) (hrounds : log.ring.length < rounds) :
    assembled (AgentRuntime.reconstructBare rounds p) w =
      some (p.spec.inputItems ++ allOutput
        (visited ends AgentRuntime.eventReplayPage log.ring)) := by
  have hrun : (AgentRuntime.reconstructBare rounds p).run exec w =
      some (.ok (.fromItems ((visited ends AgentRuntime.eventReplayPage log.ring).foldl
        (fun items e ↦ items ++ (e.responseObject.map ResponseObject.output).getD [])
          p.spec.inputItems) 1), w) := by
    have hpage : 0 < AgentRuntime.eventReplayPage := by decide
    let result (items : List ResponseItem) : Except SnapshotUnavailable ResolvedContext :=
      .ok (.fromItems items 1)
    refine run_paged
      (fun items e ↦ items ++ (e.responseObject.map ResponseObject.output).getD [])
      result (h.replays hlogs) hpage
      (fun cursor acc batch hread ↦ ?_) p.spec.inputItems hrounds
    simp only [AgentRuntime.bareRound, EventLog.readAfter, Prog.perform_bind, Prog.run_call, exec,
      execEventLog, hid, hread]
    cases batch with
    | nil => rfl
    | cons e batch =>
        rw [paged_cons]
        change Prog.run exec (if (e :: batch).any ends then _ else _) w = _
        cases (e :: batch).any ends <;> rfl
  rw [assembled, hrun, foldl_output]
  simp [Except.toOption, intoItems_fromItems]

theorem assembled_runtime_bare_gone (h : ∀ log, ¬ w.Replayable r log) (hlogs : w.Logs)
    (hid : p.responseId = r) (hrounds : 0 < rounds) :
    assembled (AgentRuntime.reconstructBare rounds p) w = none := by
  obtain ⟨e, -, hread⟩ := readAfter_unreplayable hlogs h AgentRuntime.eventReplayPage
  obtain ⟨n, rfl⟩ := Nat.exists_eq_succ_of_ne_zero (Nat.pos_iff_ne_zero.mp hrounds)
  simp [assembled, AgentRuntime.reconstructBare, Prog.iterate, AgentRuntime.bareRound, hid, exec,
    execEventLog, hread, Except.toOption]

variable {tenant : TenantId} {c : ConversationId}

theorem assembled_service_snapshot :
    assembled (ResponsesService.readSnapshot tenant c) w =
      (MemConversationStore.readSnapshot w.store tenant c).toOption.map
        ResolvedContext.intoItems := by
  simp only [assembled, ResponsesService.readSnapshot, Conversations.readSnapshot,
    Prog.perform_bind, Prog.run_call, exec, execConversations]
  cases MemConversationStore.readSnapshot w.store tenant c <;> rfl

theorem assembled_runtime_snapshot (rt : AgentRuntime) :
    assembled (rt.readSnapshot tenant c) w =
      if rt.conversations then (MemConversationStore.readSnapshot w.store tenant c).toOption.map
        ResolvedContext.intoItems
      else none := by
  unfold assembled AgentRuntime.readSnapshot
  cases rt.conversations with
  | false => rfl
  | true =>
      simp only [if_true, Conversations.readSnapshot, Prog.perform_bind, Prog.run_call, exec,
        execConversations]
      cases MemConversationStore.readSnapshot w.store tenant c <;> rfl

end Reading

/-! ## Where they agree -/

/-- What has to be so of the previous response for both resolvers to make the same of it: a
snapshot is readable to both or neither, a stream is there to read and its last output is its only
one.  A response that may not be used is refused by execution only if nothing is there to read. -/
def AgreesOn (rt : AgentRuntime) (cfg : Config) (w : World) (tenant : TenantId) (id : ResponseId)
    (p : ResponseRecord) : Prop :=
  match p.anchor with
  | .previous _ => True
  | .conversation c =>
    SnapshotReadable w.store tenant c → p.isReferencableBy tenant = rt.conversations
  | .root =>
    if p.isReferencableBy tenant then
      ∃ log, w.Replayable id log ∧ lastOutput (visited ends cfg.eventPage log.ring) =
        allOutput (visited ends AgentRuntime.eventReplayPage log.ring)
    else ∀ log, ¬ w.Replayable id log

/-- What has to be so of the state for both resolvers to make the same of a record's anchor. -/
def Agrees (rt : AgentRuntime) (cfg : Config) (w : World) (record : ResponseRecord) : Prop :=
  match record.anchor with
  | .root => True
  | .conversation c => SnapshotReadable w.store record.tenantId c → rt.conversations = true
  | .previous id =>
    ∀ p, w.store.record id = some p → AgreesOn rt cfg w record.tenantId id p

section Agree

variable {rt : AgentRuntime} {cfg : Config} {w : World} {rounds : ℕ} {tenant : TenantId}
  {id : ResponseId} {p : ResponseRecord}

/-- Bounds that are not exceeded leave the context as it is. -/
theorem assembled_resolveContext {anchor : ContextAnchor}
    (hbounds : ∀ context w', (ResponsesService.resolveAnchor cfg rounds tenant anchor).run exec w =
      some (.ok context, w') → ResponsesService.checkBounds cfg.chain context = .ok context) :
    assembled (ResponsesService.resolveContext cfg rounds tenant anchor) w =
      assembled (ResponsesService.resolveAnchor cfg rounds tenant anchor) w := by
  unfold assembled ResponsesService.resolveContext
  rw [Prog.run_bind]
  cases hrun : (ResponsesService.resolveAnchor cfg rounds tenant anchor).run exec w with
  | none => rfl
  | some out =>
      obtain ⟨result, w'⟩ := out
      cases result with
      | error e => rfl
      | ok context =>
          rw [Option.bind_some, Option.bind_some]
          simp [hbounds context w' hrun]

theorem snapshot_isSome {s : MemStore} {c : ConversationId} :
    ((MemConversationStore.readSnapshot s tenant c).toOption.map
      ResolvedContext.intoItems).isSome = true ↔ SnapshotReadable s tenant c := by
  unfold SnapshotReadable
  cases MemConversationStore.readSnapshot s tenant c <;> simp [Except.toOption]

theorem if_eq_if_iff {α : Type} {a b : Bool} {x : Option α} :
    ((if a then x else none) = if b then x else none) ↔ (x.isSome = true → a = b) := by
  cases a <;> cases b <;> cases x <;> simp

/-- The two resolvers on the previous response. -/
theorem agree_on_previous (hlogs : w.Logs) (hpage : 1 ≤ cfg.eventPage)
    (hid : p.responseId = id)
    (hrounds : 0 < rounds ∧ ∀ log, w.log.logs.lookup id = some log → log.ring.length < rounds) :
    ((if p.isReferencableBy tenant then
        match p.anchor with
        | .conversation c => assembled (ResponsesService.readSnapshot tenant c) w
        | .root => assembled (ResponsesService.reconstructBare cfg rounds p) w
        | .previous _ => none
      else none) =
        match p.anchor with
        | .conversation c => assembled (rt.readSnapshot tenant c) w
        | .root => assembled (AgentRuntime.reconstructBare rounds p) w
        | .previous _ => none) ↔ AgreesOn rt cfg w tenant id p := by
  unfold AgreesOn
  cases p.anchor with
  | previous id' => simp
  | conversation c =>
      simp only [assembled_service_snapshot, assembled_runtime_snapshot]
      rw [if_eq_if_iff, snapshot_isSome]
  | root =>
      dsimp only
      by_cases hreplay : ∃ log, w.Replayable id log
      · obtain ⟨log, hlog⟩ := hreplay
        have hlen := hrounds.2 log hlog.1
        rw [assembled_service_bare hlog hlogs hid hpage hlen,
          assembled_runtime_bare hlog hlogs hid hlen]
        have hunique : ∀ log', w.Replayable id log' ↔ log' = log := fun log' ↦
          ⟨fun h ↦ Option.some.inj (h.1.symm.trans hlog.1), fun h ↦ h ▸ hlog⟩
        split_ifs with href
        · simp [hunique]
        · simp [hunique]
      · push Not at hreplay
        rw [assembled_service_bare_gone hreplay hlogs hid hrounds.1,
          assembled_runtime_bare_gone hreplay hlogs hid hrounds.1]
        split_ifs with href
        · simp [hreplay]
        · simp [hreplay]

theorem forall_eq_some_iff {α : Type} {x y : Option α} :
    (∀ a, x = some a ↔ y = some a) ↔ x = y :=
  ⟨Option.ext, fun h a ↦ by rw [h]⟩

theorem assembled_resolveAnchor {anchor : ContextAnchor} :
    assembled (ResponsesService.resolveAnchor cfg rounds tenant anchor) w =
      match anchor with
      | .root => some []
      | .conversation c => assembled (ResponsesService.readSnapshot tenant c) w
      | .previous id =>
        (w.store.record id).bind fun p ↦
          if p.isReferencableBy tenant then
            match p.anchor with
            | .conversation c => assembled (ResponsesService.readSnapshot tenant c) w
            | .root => assembled (ResponsesService.reconstructBare cfg rounds p) w
            | .previous _ => none
          else none := by
  cases anchor with
  | root => rfl
  | conversation c => rfl
  | previous id =>
      simp only [assembled, ResponsesService.resolveAnchor, Ledger.get, Prog.perform_bind,
        Prog.run_call, exec, execLedger, MemResponseLedger.get]
      cases w.store.record id with
      | none => rfl
      | some p =>
          rw [Option.bind_some]
          cases href : p.isReferencableBy tenant with
          | false =>
              simp only [href, if_true, Bool.false_eq_true, if_false]
              split_ifs <;> rfl
          | true =>
              simp only [href, Bool.true_eq_false, if_false, if_true]
              cases p.anchor <;> rfl

theorem assembled_resolveSnapshot {record : ResponseRecord} :
    assembled (rt.resolveSnapshot rounds record) w =
      match record.anchor with
      | .root => some []
      | .conversation c => assembled (rt.readSnapshot record.tenantId c) w
      | .previous id =>
        (w.store.record id).bind fun p ↦
          match p.anchor with
          | .conversation c => assembled (rt.readSnapshot record.tenantId c) w
          | .root => assembled (AgentRuntime.reconstructBare rounds p) w
          | .previous _ => none := by
  unfold AgentRuntime.resolveSnapshot
  cases record.anchor with
  | root => rfl
  | conversation c => rfl
  | previous id =>
      simp only [assembled, Ledger.get, Prog.perform_bind, Prog.run_call, exec, execLedger,
        MemResponseLedger.get]
      cases w.store.record id with
      | none => rfl
      | some p =>
          rw [Option.bind_some]
          dsimp only
          cases p.anchor <;> rfl

end Agree

/-- Admission and execution resolve a record's anchor to the same items exactly where the state
is as `Agrees` says. -/
theorem contexts_agree_iff {w₀ w : World} {xs : List (Exchange Call Call.Reply)}
    (hk : w₀.store.Keyed) (hempty : ∀ r, w₀.log.logs.lookup r = none)
    (h : History exec (fun _ _ ↦ True) w₀ xs w)
    (hcount : ∀ r log, w.log.logs.lookup r = some log → log.nextSeq ≤ u64Max)
    (rt : AgentRuntime) (cfg : Config) (hpage : 1 ≤ cfg.eventPage) (rounds : ℕ)
    (hrounds : 0 < rounds ∧ ∀ r log, w.log.logs.lookup r = some log → log.ring.length < rounds)
    (record : ResponseRecord)
    (hbounds : ∀ context w',
      (ResponsesService.resolveAnchor cfg rounds record.tenantId record.anchor).run exec w =
        some (.ok context, w') → ResponsesService.checkBounds cfg.chain context = .ok context) :
    (∀ items,
      assembled (ResponsesService.resolveContext cfg rounds record.tenantId record.anchor) w =
          some items ↔
        assembled (rt.resolveSnapshot rounds record) w = some items) ↔ Agrees rt cfg w record := by
  have hkw : w.store.Keyed := h.invariant (J := fun _ w ↦ w.store.Keyed)
    (fun _ _ c hk _ ↦ exec_keyed c hk) hk
  have hlogs : w.Logs := by
    intro r log hlog
    obtain ⟨all, hstreams⟩ : ∃ all, w.Streams r all :=
      h.invariant (J := fun _ w ↦ ∃ all, w.Streams r all)
        (fun _ _ c ⟨_, hstreams⟩ _ ↦ hstreams.exists_call c) ⟨[], streams_of_none (hempty r)⟩
    exact ⟨hcount r log hlog, all, hstreams.holds hlog⟩
  rw [assembled_resolveContext hbounds, forall_eq_some_iff, assembled_resolveAnchor,
    assembled_resolveSnapshot]
  unfold Agrees
  cases record.anchor with
  | root => simp
  | conversation c =>
      simp only [assembled_service_snapshot, assembled_runtime_snapshot]
      rw [← snapshot_isSome]
      cases rt.conversations <;>
        cases (MemConversationStore.readSnapshot w.store record.tenantId c).toOption <;> simp
  | previous id =>
      dsimp only
      cases hp : w.store.record id with
      | none => simp
      | some p =>
          rw [Option.bind_some, Option.bind_some,
            agree_on_previous hlogs hpage (hkw.record hp) ⟨hrounds.1, hrounds.2 id⟩]
          simp

namespace Sample

/-- A turn behind the first response. -/
def successor : ResponseRecord :=
  ResponsesService.proposed cfg tenant { rootSpec with anchor := .previous (id 1) } none (id 2) 0

/-- The first response is filed and has no log yet. -/
def unannounced : List (Exchange Call Call.Reply) × World :=
  History.answered exec [.ledger (.create filed (.forResponse (id 1)) 0)] [] world

theorem unannounced_history :
    History exec (fun _ _ ↦ True) world unannounced.1 unannounced.2 :=
  @History.of_permitted _ _ _ exec _ _ (fun _ _ ↦ true) (fun _ _ _ ↦ trivial) _ _ _ .nil rfl

theorem lived_logs : ∀ r log, (lived 3 (by decide)).2.log.logs.lookup r = some log →
    log.nextSeq ≤ u64Max ∧ log.ring.length < 4 := by
  intro r log hlog
  have hall : ∀ e ∈ (lived 3 (by decide)).2.log.logs.entries,
      e.2.nextSeq ≤ u64Max ∧ e.2.ring.length < 4 := by decide +kernel
  exact hall ⟨r, log⟩ ((HashMap.mem_entries_iff _ _ _).mpr hlog)

end Sample

/-- Behind a response whose only output is that of its terminal object both resolvers find it. -/
theorem contexts_agree_finished :
    assembled (ResponsesService.resolveContext Sample.cfg 4 Sample.tenant
        (.previous (Sample.id 1))) (Sample.lived 3 (by decide)).2 =
      assembled (Sample.runtime.resolveSnapshot 4 Sample.successor)
        (Sample.lived 3 (by decide)).2 := by
  refine Option.ext fun items ↦ ?_
  refine (contexts_agree_iff (Sample.keeping_keyed 3 (by decide)) (fun _ ↦ rfl)
    (Sample.lived_history 3 (by decide)) (fun r log h ↦ (Sample.lived_logs r log h).1)
    Sample.runtime Sample.cfg (by decide) 4 ⟨by decide, fun r log h ↦ (Sample.lived_logs r log h).2⟩
    Sample.successor fun context w' hrun ↦ ?_).mpr (fun p hp ↦ ?_) items
  · obtain ⟨hcontext, -⟩ := Prod.mk.inj (Option.some.inj hrun)
    obtain rfl := Except.ok.inj hcontext
    rfl
  · obtain rfl : Sample.filed = p := Option.some.inj hp
    exact ⟨_, ⟨rfl, rfl, rfl⟩, rfl⟩

/-- A previous response without a stream is admitted with its input, and fails when executed. -/
theorem unannounced_predecessor :
    ¬ ∀ (w : World) (xs : List (Exchange Call Call.Reply)) (rt : AgentRuntime) (cfg : Config)
      (rounds : ℕ) (record : ResponseRecord), History exec (fun _ _ ↦ True) Sample.world xs w →
      1 ≤ cfg.eventPage →
      (0 < rounds ∧ ∀ r log, w.log.logs.lookup r = some log → log.ring.length < rounds) →
      (∀ context w',
        (ResponsesService.resolveAnchor cfg rounds record.tenantId record.anchor).run exec w =
          some (.ok context, w') →
            ResponsesService.checkBounds cfg.chain context = .ok context) →
      ∀ items,
        assembled (ResponsesService.resolveContext cfg rounds record.tenantId record.anchor) w =
            some items ↔
          assembled (rt.resolveSnapshot rounds record) w = some items := by
  intro h
  have hnone : ∀ r, Sample.unannounced.2.log.logs.lookup r = none := fun _ ↦ rfl
  have hagree := h _ _ Sample.runtime Sample.cfg 4 Sample.successor Sample.unannounced_history
    (by decide) ⟨by decide, fun r log hlog ↦ by cases (hnone r).symm.trans hlog⟩
    (fun context w' hrun ↦ by
      obtain ⟨hcontext, -⟩ := Prod.mk.inj (Option.some.inj hrun)
      obtain rfl := Except.ok.inj hcontext
      rfl) Sample.spec.inputItems
  have hadmitted : assembled (ResponsesService.resolveContext Sample.cfg 4 Sample.tenant
      (.previous (Sample.id 1))) Sample.unannounced.2 = some Sample.spec.inputItems := rfl
  have hfails : assembled (Sample.runtime.resolveSnapshot 4 Sample.successor)
      Sample.unannounced.2 = none := rfl
  exact absurd (hfails.symm.trans (hagree.mp hadmitted)) (by simp)

end NovaChat
