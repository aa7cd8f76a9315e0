import NovaChat.Admission.History
import NovaChat.Context.Predecessor

/-!
# Tampering

The ledger signs the input of a response when it is created, and the tag stays with the record.
Whoever checks the tag against the record finds out that the input was replaced.  But nobody does:
no read looks at a tag, and the snapshot of a conversation carries none.
-/

namespace NovaChat

open Interact Prog

/-! ## The integrity port -/

/-- The whole integrity port: what signs content also checks it. -/
structure CheckingIntegrity extends ContentIntegrity where
  verify : String → String → Except IntegrityError Unit

/-- A tag is accepted for the text it was made from, and for no other. -/
def CheckingIntegrity.Exact (i : CheckingIntegrity) : Prop :=
  ∀ text tag, i.sign text = .ok tag → ∀ text', i.verify text' tag = .ok () ↔ text' = text

/-! ## Calls and replacements -/

/-- Corrupt stored input without updating the tag. -/
def MemResponseLedger.tamperForTest (s : MemStore) (id : ResponseId)
    (replacement : List ResponseItem) : Bool × MemStore :=
  match s.record id with
  | some record =>
    (true, putRecord s id { record with spec := { record.spec with inputItems := replacement } })
  | none => (false, s)

/-- Replace the content of a conversation's snapshot. -/
def MemConversationStore.tamperSnapshot (s : MemStore) (id : ConversationId)
    (replacement : List ContextEntry) : MemStore :=
  { s with
    inner := { s.inner with
      snapshots := HashMap.modify s.inner.snapshots id fun snap ↦
        { snap with entries := replacement } } }

/-- What happens to the store: a port call, or a replacement behind the back of the ports. -/
inductive Deed
  | call (c : Call)
  | tamper (id : ResponseId) (replacement : List ResponseItem)
  | tamperSnapshot (id : ConversationId) (replacement : List ContextEntry)

@[reducible] def Deed.Reply : Deed → Type
  | call c => c.Reply
  | tamper .. => Bool
  | tamperSnapshot .. => Unit

def Deed.exec : (d : Deed) → World → d.Reply × World
  | .call c, w => NovaChat.exec c w
  | .tamper id replacement, w =>
    w.withStore (MemResponseLedger.tamperForTest w.store id replacement)
  | .tamperSnapshot id replacement, w =>
    w.withStore ((), MemConversationStore.tamperSnapshot w.store id replacement)

abbrev Deeds := List (Exchange Deed Deed.Reply)

/-! ## Tags stay -/

/-- The tag of a record was made from the input that an accepted create of it brought. -/
def World.Tagged (w : World) (i : ContentIntegrity) (ds : Deeds) (r : ResponseId)
    (x : ResponseRecord) : Prop :=
  ∃ record key now x₀ tag,
    (⟨.call (.ledger (.create record key now)), .ok (.accepted x₀)⟩ : Exchange Deed Deed.Reply) ∈
        ds ∧
      record.responseId = r ∧ i.sign (canonicalItems w.nfc record.spec.inputItems) = .ok tag ∧
        x.integrity = some ⟨i.alg, tag⟩

/-- The ledger signs with `i`, and every record is tagged. -/
structure Sealed (i : ContentIntegrity) (ds : Deeds) (w : World) : Prop where
  port : w.integrity = some i
  tagged : ∀ r x, w.store.record r = some x → w.Tagged i ds r x

section Tags

variable {i : ContentIntegrity} {ds : Deeds} {w : World} {r : ResponseId} {x y : ResponseRecord}

theorem ResponseRecord.Stage.integrity {c : Call} (h : x.Stage r c y) :
    y.integrity = x.integrity := by
  cases h <;> rfl

theorem World.Tagged.later {w' : World} (h : w.Tagged i ds r x) (hnfc : w'.nfc = w.nfc)
    (htag : y.integrity = x.integrity) (d : Exchange Deed Deed.Reply) :
    w'.Tagged i (ds ++ [d]) r y := by
  obtain ⟨record, key, now, x₀, tag, hmem, hid, hsign, hx⟩ := h
  refine ⟨record, key, now, x₀, tag, List.mem_append_left _ hmem, hid, ?_, htag.trans hx⟩
  rw [hnfc]
  exact hsign

theorem sign_tag {nfc : String → String} {record : ResponseRecord}
    (h : MemResponseLedger.sign nfc (some i) record = .ok x) :
    ∃ tag, i.sign (canonicalItems nfc record.spec.inputItems) = .ok tag ∧
      x.integrity = some ⟨i.alg, tag⟩ := by
  simp only [MemResponseLedger.sign] at h
  split at h
  · cases h
  · next tag hsign =>
      exact ⟨tag, hsign, by rw [← Except.ok.inj h]⟩

/-- A port call tags what it creates and leaves other tags alone. -/
theorem Sealed.call (h : Sealed i ds w) (c : Call) :
    Sealed i (ds ++ [⟨.call c, (exec c w).1⟩]) (exec c w).2 := by
  obtain ⟨hport, hnfc⟩ := exec_integrity c w
  refine ⟨hport.trans h.port, fun r y hy ↦ ?_⟩
  by_cases hwrites : c.writes = some r
  · unfold Call.writes at hwrites
    split at hwrites
    · next record key now =>
        have hid : record.responseId = r := Option.some.inj hwrites
        rcases exec_create record key now w with ⟨-, heq⟩ | ⟨x, hx, hsign, -, heq⟩
        · rw [heq] at hy
          exact (h.tagged r y hy).later hnfc rfl _
        · have hxid : x.responseId = r := by rw [MemResponseLedger.sign_spec hsign, ← hid]
          rw [heq] at hy
          have hyx : x = y := by
            have hlook := (MemResponseLedger.record_enqueue w.store x key r).symm.trans hy
            rw [if_pos hxid.symm] at hlook
            exact Option.some.inj hlook
          rw [h.port] at hsign
          obtain ⟨tag, htag, hinteg⟩ := sign_tag hsign
          refine ⟨record, key, now, x, tag, ?_, hid, ?_, hyx ▸ hinteg⟩
          · rw [hx]
            exact List.mem_append_right _ List.mem_cons_self
          · rw [hnfc]
            exact htag
    · cases hwrites
  · obtain ⟨x, hx, hstage⟩ := record_stage hwrites hy
    exact (h.tagged r x hx).later hnfc hstage.integrity _

/-- A replacement changes no tag. -/
theorem Sealed.tamper (h : Sealed i ds w) (id : ResponseId) (replacement : List ResponseItem) :
    Sealed i (ds ++ [⟨.tamper id replacement, (Deed.exec (.tamper id replacement) w).1⟩])
      (Deed.exec (.tamper id replacement) w).2 := by
  refine ⟨h.port, fun r y hy ↦ ?_⟩
  simp only [Deed.exec, World.withStore_snd, MemResponseLedger.tamperForTest] at hy
  cases hx : w.store.record id with
  | none =>
      rw [hx] at hy
      exact (h.tagged r y hy).later rfl rfl _
  | some x =>
      simp only [hx, MemResponseLedger.record_putRecord] at hy
      split_ifs at hy with hr
      · subst hr
        exact (h.tagged r x hx).later rfl (by rw [← Option.some.inj hy]) _
      · exact (h.tagged r y hy).later rfl rfl _

theorem Sealed.tamperSnapshot (h : Sealed i ds w) (id : ConversationId)
    (replacement : List ContextEntry) :
    Sealed i (ds ++ [⟨.tamperSnapshot id replacement, ()⟩])
      (Deed.exec (.tamperSnapshot id replacement) w).2 :=
  ⟨h.port, fun r y hy ↦ (h.tagged r y hy).later rfl rfl _⟩

theorem sealed_of_history {w₀ : World} (hport : w₀.integrity = some i)
    (hempty : ∀ r, w₀.store.record r = none)
    (h : History Deed.exec (fun _ _ ↦ True) w₀ ds w) : Sealed i ds w := by
  apply h.invariant (J := Sealed i)
  · intro ds w d hsealed _
    cases d with
    | call c => exact hsealed.call c
    | tamper id replacement => exact hsealed.tamper id replacement
    | tamperSnapshot id replacement => exact hsealed.tamperSnapshot id replacement
  · refine ⟨hport, fun r x hx ↦ ?_⟩
    cases (hempty r).symm.trans hx

end Tags

/-! ## Reads look at no tag -/

/-- The same world under another integrity port, with other tags. -/
def World.retagged (w : World) (port : Option ContentIntegrity)
    (tags : ResponseRecord → Option IntegrityTag) : World :=
  { w with
    integrity := port
    store := { w.store with
      inner := { w.store.inner with
        records := HashMap.filterMapVal w.store.inner.records fun x ↦
          some { x with integrity := tags x } } } }

/-- What a program returns. -/
def outcome {α : Type} (p : Service α) (w : World) : Option α := (p.run exec w).map Prod.fst

/-- Calls that read a stream or a snapshot. -/
def Call.Untagged : Call → Prop
  | .eventLog (.readAfter ..) | .conversations (.readSnapshot ..) => True
  | _ => False

section Reads

variable {w : World} {port : Option ContentIntegrity} {tags : ResponseRecord → Option IntegrityTag}

theorem record_retagged (r : ResponseId) : (w.retagged port tags).store.record r =
    (w.store.record r).map fun x ↦ { x with integrity := tags x } := by
  refine (HashMap.lookup_filterMapVal _ _ _).trans ?_
  cases h : w.store.inner.records.lookup r <;> simp [MemStore.record, h]

theorem outcome_untagged {α : Type} {p : Service α} (hp : p.OnlyCalls Call.Untagged) :
    outcome p (w.retagged port tags) = outcome p w := by
  refine run_fst_congr (fun c hc ↦ ?_) hp
  unfold Call.Untagged at hc
  split at hc
  · exact ⟨rfl, rfl, rfl⟩
  · exact ⟨rfl, rfl, rfl⟩
  · exact hc.elim

theorem outcome_get {α : Type} {id : ResponseId}
    {k : Except LedgerError (Option ResponseRecord) → Service α}
    (hk : ∀ reply, (k reply).OnlyCalls Call.Untagged)
    (hblind : ∀ x tag, k (.ok (some { x with integrity := tag })) = k (.ok (some x))) :
    outcome (Ledger.get id >>= k) (w.retagged port tags) = outcome (Ledger.get id >>= k) w := by
  have hstep : ∀ v : World,
      outcome (Ledger.get id >>= k) v = outcome (k (.ok (v.store.record id))) v :=
    fun _ ↦ rfl
  rw [hstep, hstep, outcome_untagged (hk _), record_retagged]
  cases w.store.record id with
  | none => rfl
  | some x => rw [Option.map_some, hblind]

theorem untagged_readSnapshot (tenant : TenantId) (id : ConversationId) :
    (ResponsesService.readSnapshot tenant id).OnlyCalls Call.Untagged :=
  ⟨trivial, fun reply ↦ by cases reply <;> trivial⟩

theorem untagged_reconstructBare (cfg : Config) (rounds : ℕ) (record : ResponseRecord) :
    (ResponsesService.reconstructBare cfg rounds record).OnlyCalls Call.Untagged := by
  have hlatest : (ResponsesService.latestResponseObject cfg rounds record.responseId).OnlyCalls
      Call.Untagged := by
    refine (pages_latestResponseObject cfg rounds _).mono fun c hc ↦ ?_
    obtain ⟨cursor, limit, rfl⟩ := hc
    trivial
  exact hlatest.bind fun reply ↦ by cases reply <;> trivial

/-- Admission resolves the same context, whatever the tags. -/
theorem outcome_resolveContext (cfg : Config) (rounds : ℕ) (tenant : TenantId)
    (anchor : ContextAnchor) :
    outcome (ResponsesService.resolveContext cfg rounds tenant anchor) (w.retagged port tags) =
      outcome (ResponsesService.resolveContext cfg rounds tenant anchor) w := by
  cases anchor with
  | root => rfl
  | conversation id =>
      refine outcome_untagged ((untagged_readSnapshot tenant id).bind fun reply ↦ ?_)
      cases reply <;> trivial
  | previous id =>
      refine outcome_get (fun reply ↦ ?_) fun x tag ↦ rfl
      rcases reply with e | (_ | record)
      · trivial
      · trivial
      refine OnlyCalls.bind ?_ fun reply ↦ by cases reply <;> trivial
      show OnlyCalls _ (ite _ _ _)
      split
      · show OnlyCalls _ (ite _ _ _)
        split <;> trivial
      · cases record.anchor with
        | root => exact untagged_reconstructBare cfg rounds record
        | conversation cid => exact untagged_readSnapshot tenant cid
        | previous _ => trivial

theorem untagged_runtime_readSnapshot (rt : AgentRuntime) (tenant : TenantId)
    (id : ConversationId) : (rt.readSnapshot tenant id).OnlyCalls Call.Untagged := by
  unfold AgentRuntime.readSnapshot
  split
  · exact ⟨trivial, fun reply ↦ by cases reply <;> trivial⟩
  · trivial

/-- Execution resolves the same context, whatever the tags. -/
theorem outcome_resolveSnapshot (rt : AgentRuntime) (rounds : ℕ) (record : ResponseRecord) :
    outcome (rt.resolveSnapshot rounds record) (w.retagged port tags) =
      outcome (rt.resolveSnapshot rounds record) w := by
  unfold AgentRuntime.resolveSnapshot
  split
  · rfl
  · exact outcome_untagged (untagged_runtime_readSnapshot rt _ _)
  · refine outcome_get (fun reply ↦ ?_) fun x tag ↦ rfl
    rcases reply with e | (_ | prev)
    · trivial
    · trivial
    dsimp only
    cases prev.anchor with
    | root =>
        refine (pages_reconstructBare rounds prev).mono fun c hc ↦ ?_
        obtain ⟨cursor, limit, rfl⟩ := hc
        trivial
    | conversation cid => exact untagged_runtime_readSnapshot rt _ _
    | previous _ => trivial

end Reads

/-! ## Reads return what is there -/

/-- A resolved context is made of the content as it is stored. -/
def World.Stands (w : World) (context : ResolvedContext) : ContextAnchor → Prop
  | .root => context = {}
  | .conversation c => context.entries = (w.store.snapshot c).entries
  | .previous p => ∃ x, w.store.record p = some x ∧
    match x.anchor with
    | .root => x.spec.inputItems <+: context.intoItems
    | .conversation c => context.entries = (w.store.snapshot c).entries
    | .previous _ => False

section Content

variable {w : World} {context : ResolvedContext}

theorem path_of_outcome {α : Type} {p : Service α} {a : α} (h : outcome p w = some a) :
    ∃ xs, Path p xs a := by
  obtain ⟨⟨a', w'⟩, hrun, rfl⟩ := Option.map_eq_some_iff.mp h
  exact ⟨_, Path.of_run hrun⟩

theorem entries_of_readSnapshot {s : MemStore} {tenant : TenantId} {c : ConversationId}
    (h : MemConversationStore.readSnapshot s tenant c = .ok context) :
    context.entries = (s.snapshot c).entries := by
  unfold MemConversationStore.readSnapshot at h
  split at h
  · cases h
  · split at h
    · cases h
    · rw [← Except.ok.inj h]

theorem entries_of_service {tenant : TenantId} {c : ConversationId}
    (h : outcome (ResponsesService.readSnapshot tenant c) w = some (.ok context)) :
    context.entries = (w.store.snapshot c).entries := by
  cases hread : MemConversationStore.readSnapshot w.store tenant c with
  | error e => simp [outcome, ResponsesService.readSnapshot, Conversations.readSnapshot, exec,
      execConversations, hread] at h
  | ok resolved =>
      simp [outcome, ResponsesService.readSnapshot, Conversations.readSnapshot, exec,
        execConversations, hread] at h
      exact h ▸ entries_of_readSnapshot hread

theorem entries_of_runtime {rt : AgentRuntime} {tenant : TenantId} {c : ConversationId}
    (h : outcome (rt.readSnapshot tenant c) w = some (.ok context)) :
    context.entries = (w.store.snapshot c).entries := by
  unfold AgentRuntime.readSnapshot at h
  split at h
  · cases hread : MemConversationStore.readSnapshot w.store tenant c with
    | error e => simp [outcome, Conversations.readSnapshot, exec, execConversations, hread] at h
    | ok resolved =>
        simp [outcome, Conversations.readSnapshot, exec, execConversations, hread] at h
        exact h ▸ entries_of_readSnapshot hread
  · cases h

theorem outcome_resolveAnchor {cfg : Config} {rounds : ℕ} {tenant : TenantId}
    {anchor : ContextAnchor}
    (h : outcome (ResponsesService.resolveContext cfg rounds tenant anchor) w =
      some (.ok context)) :
    outcome (ResponsesService.resolveAnchor cfg rounds tenant anchor) w = some (.ok context) := by
  rw [outcome, ResponsesService.resolveContext, run_bind] at h
  cases hrun : (ResponsesService.resolveAnchor cfg rounds tenant anchor).run exec w with
  | none => rw [hrun] at h; cases h
  | some out =>
      obtain ⟨reply, w'⟩ := out
      rw [hrun] at h
      rw [outcome, hrun]
      cases reply with
      | error e => cases h
      | ok resolved =>
          have hbounds : ResponsesService.checkBounds cfg.chain resolved = .ok context :=
            Option.some.inj h
          rw [(checkBounds_eq_ok.mp hbounds).1]
          rfl

theorem prefix_of_service {cfg : Config} {rounds : ℕ} {record : ResponseRecord}
    (h : outcome (ResponsesService.reconstructBare cfg rounds record) w = some (.ok context)) :
    record.spec.inputItems <+: context.intoItems := by
  obtain ⟨xs, hpath⟩ := path_of_outcome h
  obtain ⟨reply, ys, zs, rfl, -, hret⟩ := path_bind.mp hpath
  rcases reply with e | object
  · cases (path_ret.mp hret).2
  · rw [Except.ok.inj (path_ret.mp hret).2, intoItems_fromItems]
    exact List.prefix_append _ _

/-- A predecessor rebuilt by execution begins with what the rounds started from. -/
theorem prefix_of_bareRound {id : ResponseId} : ∀ (rounds : ℕ) (cursor : Option ℕ)
    (items : List ResponseItem) (ys : Exchanges),
    Path (Prog.iterate (AgentRuntime.bareRound id) rounds (cursor, items)) ys (.ok context) →
      items <+: context.intoItems := by
  intro rounds
  induction rounds with
  | zero => exact fun cursor items ys h ↦ (path_stall h).elim
  | succ n ih =>
      intro cursor items ys h
      obtain ⟨next, us, vs, rfl, hround, hrest⟩ := path_bind.mp h
      simp only [AgentRuntime.bareRound, EventLog.readAfter, perform_bind, path_call] at hround
      obtain ⟨reply, ws, rfl, hround⟩ := hround
      rcases reply with e | (_ | ⟨first, batch⟩)
      · obtain ⟨-, rfl⟩ := path_ret.mp hround
        cases (path_ret.mp hrest).2
      · obtain ⟨-, rfl⟩ := path_ret.mp hround
        have hitems : context.intoItems = items := by
          rw [Except.ok.inj (path_ret.mp hrest).2, intoItems_fromItems]
        exact ⟨[], by rw [List.append_nil, hitems]⟩
      · simp only [foldl_output] at hround
        split at hround
        · obtain ⟨-, rfl⟩ := path_ret.mp hround
          rw [Except.ok.inj (path_ret.mp hrest).2, intoItems_fromItems]
          exact List.prefix_append _ _
        · obtain ⟨-, rfl⟩ := path_ret.mp hround
          exact (List.prefix_append _ _).trans (ih _ _ _ hrest)

/-- What admission resolves is the content as it is stored. -/
theorem stands_resolveContext {cfg : Config} {rounds : ℕ} {tenant : TenantId}
    {anchor : ContextAnchor}
    (h : outcome (ResponsesService.resolveContext cfg rounds tenant anchor) w =
      some (.ok context)) : w.Stands context anchor := by
  have hanchor := outcome_resolveAnchor h
  cases anchor with
  | root => exact (Except.ok.inj (Option.some.inj hanchor)).symm
  | conversation c => exact entries_of_service hanchor
  | previous p =>
      have hstep : ∀ {k : Except LedgerError (Option ResponseRecord) →
          Service (Except ServiceError ResolvedContext)},
          outcome (Ledger.get p >>= k) w = outcome (k (.ok (w.store.record p))) w := rfl
      rw [ResponsesService.resolveAnchor, hstep] at hanchor
      cases hx : w.store.record p with
      | none =>
          rw [hx] at hanchor
          cases hanchor
      | some x =>
          refine ⟨x, hx, ?_⟩
          simp only [hx] at hanchor
          split at hanchor
          · split at hanchor <;> cases hanchor
          · cases ha : x.anchor with
            | root =>
                simp only [ha] at hanchor
                exact prefix_of_service hanchor
            | conversation c =>
                simp only [ha] at hanchor
                exact entries_of_service hanchor
            | previous _ =>
                simp only [ha] at hanchor
                cases hanchor

/-- What execution resolves is the content as it is stored. -/
theorem stands_resolveSnapshot {rt : AgentRuntime} {rounds : ℕ} {record : ResponseRecord}
    (h : outcome (rt.resolveSnapshot rounds record) w = some (.ok context)) :
    w.Stands context record.anchor := by
  unfold AgentRuntime.resolveSnapshot at h
  cases hanchor : record.anchor with
  | root =>
      rw [hanchor] at h
      exact (Except.ok.inj (Option.some.inj h)).symm
  | conversation c =>
      rw [hanchor] at h
      exact entries_of_runtime h
  | previous p =>
      have hstep : ∀ {k : Except LedgerError (Option ResponseRecord) →
          Service (Except SnapshotUnavailable ResolvedContext)},
          outcome (Ledger.get p >>= k) w = outcome (k (.ok (w.store.record p))) w := rfl
      simp only [hanchor] at h
      rw [hstep] at h
      cases hx : w.store.record p with
      | none =>
          rw [hx] at h
          cases h
      | some x =>
          refine ⟨x, hx, ?_⟩
          simp only [hx] at h
          cases ha : x.anchor with
          | root =>
              simp only [ha] at h
              obtain ⟨xs, hpath⟩ := path_of_outcome h
              exact prefix_of_bareRound _ _ _ _ hpath
          | conversation c =>
              simp only [ha] at h
              exact entries_of_runtime h
          | previous _ =>
              simp only [ha] at h
              cases h

end Content

/-- No read looks at a tag, and each returns or uses the content as it is stored. -/
structure World.Unchecked (w : World) : Prop where
  get : ∀ r, (exec (.ledger (.get r)) w).1 = .ok (w.store.record r)
  readSnapshot : ∀ tenant c x, MemConversationStore.guardAvailable w.store = .ok () →
    MemConversationStore.owned w.store tenant c = some x →
      (exec (.conversations (.readSnapshot tenant c)) w).1 =
        .ok ⟨(w.store.snapshot c).entries, (w.store.snapshot c).turnCount⟩
  resolveContext : ∀ cfg rounds tenant anchor,
    (∀ port tags, outcome (ResponsesService.resolveContext cfg rounds tenant anchor)
        (w.retagged port tags) =
      outcome (ResponsesService.resolveContext cfg rounds tenant anchor) w) ∧
    ∀ context, outcome (ResponsesService.resolveContext cfg rounds tenant anchor) w =
      some (.ok context) → w.Stands context anchor
  resolveSnapshot : ∀ (rt : AgentRuntime) rounds (record : ResponseRecord),
    (∀ port tags, outcome (rt.resolveSnapshot rounds record) (w.retagged port tags) =
      outcome (rt.resolveSnapshot rounds record) w) ∧
    ∀ context, outcome (rt.resolveSnapshot rounds record) w = some (.ok context) →
      w.Stands context record.anchor

theorem unchecked (w : World) : w.Unchecked where
  get _ := rfl
  readSnapshot tenant c x havailable howned := by
    simp [exec, execConversations, MemConversationStore.readSnapshot, havailable, howned]
  resolveContext cfg rounds tenant anchor :=
    ⟨fun _ _ ↦ outcome_resolveContext cfg rounds tenant anchor, fun _ ↦ stands_resolveContext⟩
  resolveSnapshot rt rounds record :=
    ⟨fun _ _ ↦ outcome_resolveSnapshot rt rounds record, fun _ ↦ stands_resolveSnapshot⟩

/-! ## Detection -/

/-- A record with another input. -/
def ResponseRecord.withInput (x : ResponseRecord) (replacement : List ResponseItem) :
    ResponseRecord :=
  { x with spec := { x.spec with inputItems := replacement } }

theorem exec_tamper {w : World} {r : ResponseId} {x : ResponseRecord}
    (hx : w.store.record r = some x) (replacement : List ResponseItem) :
    (exec (.ledger (.get r)) (Deed.exec (.tamper r replacement) w).2).1 =
      .ok (some (x.withInput replacement)) := by
  have hrecord : (Deed.exec (.tamper r replacement) w).2.store.record r =
      some (x.withInput replacement) := by
    simp only [Deed.exec, MemResponseLedger.tamperForTest, hx, World.withStore_snd,
      MemResponseLedger.record_putRecord, if_true]
    rfl
  exact congrArg Except.ok hrecord

theorem exec_tamperSnapshot {w : World} {tenant : TenantId} {c : ConversationId} {x : Conversation}
    {snap : Snapshot} (havailable : MemConversationStore.guardAvailable w.store = .ok ())
    (howned : MemConversationStore.owned w.store tenant c = some x)
    (hsnap : w.store.inner.snapshots.lookup c = some snap) (replacement : List ContextEntry) :
    (exec (.conversations (.readSnapshot tenant c))
      (Deed.exec (.tamperSnapshot c replacement) w).2).1 = .ok ⟨replacement, snap.turnCount⟩ := by
  have hlookup : (Deed.exec (.tamperSnapshot c replacement) w).2.store.snapshot c =
      { snap with entries := replacement } := by
    simp only [Deed.exec, World.withStore_snd, MemConversationStore.tamperSnapshot,
      MemStore.snapshot, HashMap.lookup_modify, if_true, hsnap]
    rfl
  have hread := (unchecked (Deed.exec (.tamperSnapshot c replacement) w).2).readSnapshot tenant c x
    havailable howned
  rwa [hlookup] at hread

/-- After every history of calls and replacements, a record's tag is accepted for its input exactly
if the input is, canonically, what its create brought.  But no read asks: whatever a record's input
or a snapshot's content is replaced with is what the next read returns. -/
theorem tampering_undetected {i : CheckingIntegrity} (hexact : i.Exact) {w₀ w : World} {ds : Deeds}
    (hport : w₀.integrity = some i.toContentIntegrity) (hempty : ∀ r, w₀.store.record r = none)
    (h : History Deed.exec (fun _ _ ↦ True) w₀ ds w) :
    (∀ r x, w.store.record r = some x → ∃ record key now x₀ tag,
      (⟨.call (.ledger (.create record key now)), .ok (.accepted x₀)⟩ : Exchange Deed Deed.Reply) ∈
          ds ∧ record.responseId = r ∧ x.integrity = some ⟨i.alg, tag⟩ ∧
        (i.verify (canonicalItems w.nfc x.spec.inputItems) tag = .ok () ↔
          canonicalItems w.nfc x.spec.inputItems = canonicalItems w.nfc record.spec.inputItems) ∧
        ∀ replacement,
          canonicalItems w.nfc replacement ≠ canonicalItems w.nfc record.spec.inputItems →
            i.verify (canonicalItems w.nfc replacement) tag ≠ .ok () ∧
              (exec (.ledger (.get r)) (Deed.exec (.tamper r replacement) w).2).1 =
                .ok (some (x.withInput replacement))) ∧
      (∀ tenant c x snap, MemConversationStore.guardAvailable w.store = .ok () →
        MemConversationStore.owned w.store tenant c = some x →
          w.store.inner.snapshots.lookup c = some snap → ∀ replacement,
            (exec (.conversations (.readSnapshot tenant c))
              (Deed.exec (.tamperSnapshot c replacement) w).2).1 =
                .ok ⟨replacement, snap.turnCount⟩) ∧
      w.Unchecked := by
  refine ⟨fun r x hx ↦ ?_, fun tenant c x snap havailable howned hsnap ↦
    exec_tamperSnapshot havailable howned hsnap, unchecked w⟩
  obtain ⟨record, key, now, x₀, tag, hmem, hid, hsign, hinteg⟩ :=
    (sealed_of_history hport hempty h).tagged r x hx
  exact ⟨record, key, now, x₀, tag, hmem, hid, hinteg, hexact _ _ hsign _,
    fun replacement hother ↦ ⟨fun hverify ↦ hother ((hexact _ _ hsign _).mp hverify),
      exec_tamper hx replacement⟩⟩

namespace Sample

/-- A port whose tag is the text itself. -/
def port : CheckingIntegrity where
  alg := "plain"
  sign text := .ok text
  verify text tag := if text = tag then .ok () else .error .mismatch

theorem port_exact : port.Exact := by
  intro text tag hsign text'
  obtain rfl : text = tag := Except.ok.inj hsign
  show (if text' = text then Except.ok () else Except.error IntegrityError.mismatch) = .ok () ↔ _
  split <;> simp_all

/-- A response is created and claimed. -/
def stored : Deeds × World :=
  History.answered Deed.exec [.call (file 1 0), .call (.ledger (.claim agent 5 60))] []
    { integrity := some port.toContentIntegrity }

theorem stored_history : History Deed.exec (fun _ _ ↦ True)
    { integrity := some port.toContentIntegrity } stored.1 stored.2 :=
  @History.of_permitted _ _ _ Deed.exec (fun _ _ ↦ True) _ (fun _ _ ↦ true) (fun _ _ _ ↦ trivial)
    _ _ _ .nil (by decide +kernel)

end Sample

theorem canonicalItems_singleton_ne_nil (nfc : String → String) (item : ResponseItem) :
    canonicalItems nfc [item] ≠ canonicalItems nfc [] := by
  obtain ⟨map, hmap⟩ : ∃ map, item.toValue = .object map := by
    cases item <;> exact ⟨_, rfl⟩
  intro h
  have hlength := congrArg String.length h
  have hbrace : "\x7b".length = 1 := rfl
  simp only [canonicalItems, List.map_cons, List.map_nil, hmap, canonicalJson, canonicalItemsOf,
    String.intercalate_singleton, String.intercalate_nil, String.length_append, String.length_empty,
    hbrace] at hlength
  omega

/-- A response is created and claimed; if its input is emptied, the tag gives that away, and the
ledger returns it all the same. -/
theorem tampering_undetected_emptied : ∃ x tag,
    Sample.stored.2.store.record (Sample.id 1) = some x ∧
      x.integrity = some ⟨Sample.port.alg, tag⟩ ∧
        Sample.port.verify (canonicalItems Sample.stored.2.nfc []) tag ≠ .ok () ∧
          (exec (.ledger (.get (Sample.id 1)))
            (Deed.exec (.tamper (Sample.id 1) []) Sample.stored.2).2).1 =
              .ok (some (x.withInput [])) := by
  obtain ⟨x, hx, hinput⟩ : ∃ x, Sample.stored.2.store.record (Sample.id 1) = some x ∧
      x.spec.inputItems = Sample.rootSpec.inputItems :=
    ⟨(Sample.stored.2.store.record (Sample.id 1)).get (by decide +kernel),
      (Option.some_get _).symm, by decide +kernel⟩
  obtain ⟨record, key, now, x₀, tag, hmem, -, hinteg, -, htampered⟩ :=
    (tampering_undetected Sample.port_exact rfl (fun _ ↦ rfl) Sample.stored_history).1 _ x hx
  have hcreated : record.spec.inputItems = Sample.rootSpec.inputItems := by
    have hcalls : Sample.stored.1.map Exchange.call =
        [.call (Sample.file 1 0), .call (.ledger (.claim Sample.agent 5 60))] := rfl
    have hcall := List.mem_map_of_mem (f := Exchange.call) hmem
    rw [hcalls] at hcall
    rcases List.mem_cons.mp hcall with heq | hcall
    · cases heq
      rfl
    · cases List.mem_singleton.mp hcall
  obtain ⟨hrejected, hreturned⟩ := htampered [] (by
    rw [hcreated]
    exact (canonicalItems_singleton_ne_nil _ _).symm)
  exact ⟨x, tag, hx, hinteg, hrejected, hreturned⟩

/-- An emptied input is returned as if it had been signed. -/
theorem forgery_returned : ¬ ∀ (i : CheckingIntegrity) (w₀ w : World) (ds : Deeds) (r : ResponseId)
    (x : ResponseRecord) (replacement : List ResponseItem), i.Exact →
      w₀.integrity = some i.toContentIntegrity → (∀ r, w₀.store.record r = none) →
        History Deed.exec (fun _ _ ↦ True) w₀ ds w → w.store.record r = some x →
          canonicalItems w.nfc replacement ≠ canonicalItems w.nfc x.spec.inputItems →
            ∃ e, (exec (.ledger (.get r)) (Deed.exec (.tamper r replacement) w).2).1 =
              .error e := by
  intro hclaim
  obtain ⟨x, hx, hinput⟩ : ∃ x, Sample.stored.2.store.record (Sample.id 1) = some x ∧
      x.spec.inputItems = Sample.rootSpec.inputItems :=
    ⟨(Sample.stored.2.store.record (Sample.id 1)).get (by decide +kernel),
      (Option.some_get _).symm, by decide +kernel⟩
  obtain ⟨e, he⟩ := hclaim Sample.port _ _ _ _ x [] Sample.port_exact rfl (fun _ ↦ rfl)
    Sample.stored_history hx (by rw [hinput]; exact (canonicalItems_singleton_ne_nil _ _).symm)
  cases he

end NovaChat
