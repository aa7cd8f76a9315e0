import NovaChat.Admission.History
import NovaChat.Client

/-!
# Repeats of an accepted create

The gate that recognises a repeat sits inside the ledger, behind the context bounds, the turn
lock and the switches of a carrier client.  A repeat never writes a second record; it is
answered with the first one exactly when those other gates let it through.  And there is one
gate for all tenants: it tells them apart by nothing but their keys.
-/

namespace NovaChat

open Interact Prog MemConversationStore MemResponseLedger

/-! ## Carriers -/

/-- A service whose calls reach the store directly, or through the client of a node. -/
def carried {α : Type} (via : Option ℕ) (p : Service α) : Service α :=
  match via with
  | none => p
  | some node => p.handle (Client.carry node)

namespace Client

/-- What a call past the read-only switch of a node amounts to. -/
def forwarded (node : ℕ) : (c : Call) → World → c.Reply × World
  | .ledger (.create record key now), w =>
    if (w.nodes node).pendingLimit ≤ w.store.inner.inFlightCount then (.ok .overloaded, w)
    else exec (.ledger (.create record key now)) w
  | c, w => exec c w

/-- What a call through the client of a node amounts to. -/
def execute (node : ℕ) (c : Call) (w : World) : c.Reply × World :=
  match refusal c with
  | none => forwarded node c w
  | some refused => if (w.nodes node).readOnly then (refused, w) else forwarded node c w

theorem run_forward (node : ℕ) (c : Call) (w : World) :
    (forward node c).run exec w = some (forwarded node c w) := by
  rcases c with _ | c | c | c | c | c
  · rfl
  · cases c with
    | create record key now =>
        simp only [forward, forwarded, Ledger.inFlight, Ledger.create, perform_bind, run_call]
        show (ite _ _ _ : Service _).run exec w = _
        split_ifs with h1 h2 h2
        · rfl
        · exact absurd h1 h2
        · exact absurd h2 h1
        · rfl
    | _ => rfl
  · cases c <;> rfl
  · cases c <;> rfl
  · cases c <;> rfl
  · cases c <;> rfl

theorem run_carry (node : ℕ) (c : Call) (w : World) :
    (carry node c).run exec w = some (execute node c w) := by
  unfold carry execute
  cases refusal c with
  | none => exact run_forward node c w
  | some refused =>
      simp only [perform_bind, run_call]
      show (ite _ _ _ : Service _).run exec w = _
      split_ifs with h1 h2 h2
      · rfl
      · exact absurd h1 h2
      · exact absurd h2 h1
      · exact run_forward node c w

end Client

/-- How a carried service's calls are carried out. -/
def execVia (via : Option ℕ) : (c : Call) → World → c.Reply × World :=
  match via with
  | none => exec
  | some node => Client.execute node

theorem run_carried {α : Type} (via : Option ℕ) (p : Service α) (w : World) :
    (carried via p).run exec w = p.run (execVia via) w := by
  cases via with
  | none => rfl
  | some node => exact run_handle (Client.run_carry node) p w

theorem execVia_reads (via : Option ℕ) (c : Call) (w : World) (hc : c.Reads) :
    execVia via c w = exec c w := by
  cases via with
  | none => rfl
  | some node =>
      rcases c with _ | c | c | c | c | c
      · rfl
      · cases c <;> first | exact hc.elim | rfl
      · cases c <;> first | exact hc.elim | rfl
      · cases c <;> first | exact hc.elim | rfl
      · exact hc.elim
      · exact hc.elim

/-- The node of the carrier takes writes. -/
def World.Writable (via : Option ℕ) (w : World) : Prop :=
  ∀ node ∈ via, (w.nodes node).readOnly = false

/-- The node of the carrier has room for one more response in flight. -/
def World.Roomy (via : Option ℕ) (w : World) : Prop :=
  ∀ node ∈ via, w.store.inner.inFlightCount < (w.nodes node).pendingLimit

/-- A writable node passes on what is not a create. -/
theorem execVia_writable {via : Option ℕ} {c : Call} {w : World} (hw : w.Writable via)
    (hc : c.writes = none) : execVia via c w = exec c w := by
  cases via with
  | none => rfl
  | some node =>
      have hopen : (w.nodes node).readOnly = false := hw node rfl
      have hforward : Client.forwarded node c w = exec c w := by
        rcases c with _ | c | c | c | c | c
        · rfl
        · cases c <;> first | rfl | cases hc
        · cases c <;> rfl
        · cases c <;> rfl
        · cases c <;> rfl
        · cases c <;> rfl
      simp only [execVia, Client.execute, hopen, hforward]
      cases Client.refusal c <;> rfl

theorem execVia_roomy {via : Option ℕ} {w : World} (hw : w.Writable via) (hroom : w.Roomy via)
    (record : ResponseRecord) (key : IdempotencyKey) (now : ℕ) :
    execVia via (.ledger (.create record key now)) w =
      exec (.ledger (.create record key now)) w := by
  cases via with
  | none => rfl
  | some node =>
      have hopen : (w.nodes node).readOnly = false := hw node rfl
      have hfree : ¬ (w.nodes node).pendingLimit ≤ w.store.inner.inFlightCount :=
        Nat.not_le.mpr (hroom node rfl)
      simp [execVia, Client.execute, Client.refusal, Client.forwarded, hopen, hfree]

/-! ## The parts of a carried create -/

theorem run_conversing {α : Type} {via : Option ℕ} {w : World} (hw : w.Writable via)
    {p : Service α} (hp : p.OnlyCalls Call.Conversing) :
    p.run (execVia via) w = p.run exec w := by
  refine run_congr (J := fun w ↦ w.Writable via) (fun c w hc hw ↦ ?_) hp hw
  rcases hc with hc | ⟨call, rfl⟩
  · rw [exec_reads hc]
    exact ⟨execVia_reads via c w hc, hw⟩
  · refine ⟨execVia_writable hw rfl, fun node hnode ↦ ?_⟩
    rw [(exec_converses call w).nodes]
    exact hw node hnode

section Admit

variable {ex : (c : Call) → World → c.Reply × World} {w w' : World} {tenant : TenantId}
  {conversationId : Option ConversationId} {record y : ResponseRecord} {key : IdempotencyKey}
  {now : ℕ}

/-- Nobody but the ledger answers with a duplicate. -/
theorem duplicate_of_run
    (h : (ResponsesService.admitOrRelease tenant conversationId record key now).run ex w =
      some (.ok (.duplicate y), w')) :
    (ex (.ledger (.create record key now)) w).1 = .ok (.duplicate y) := by
  have hrelease : ∀ {w₁ : World} {out : Except ServiceError CreateOutcome},
      (ResponsesService.releaseAfterFailedAdmission tenant conversationId record.responseId >>=
        fun _ ↦ (.ret out : Service _)).run ex w₁ = some (.ok (.duplicate y), w') →
      out = .ok (.duplicate y) := by
    intro w₁ out hrun
    rw [run_bind] at hrun
    obtain ⟨⟨⟨⟩, w₂⟩, -, hret⟩ := Option.bind_eq_some_iff.mp hrun
    exact (Prod.mk.inj (Option.some.inj hret)).1
  simp only [ResponsesService.admitOrRelease, ResponsesService.admitRecord, Ledger.create,
    perform_bind, call_bind, run_call] at h
  obtain ⟨reply, hreply⟩ : ∃ reply, (ex (.ledger (.create record key now)) w).1 = reply := ⟨_, rfl⟩
  rw [hreply] at h ⊢
  rcases reply with e | (x | x | _ | _)
  · cases hrelease h
  · simp only [EventLog.append, perform_bind, call_bind, run_call] at h
    obtain ⟨seq, hseq⟩ : ∃ seq, (ex (.eventLog (.append (.lifecycle x.responseId .created
        (.withoutOutput x)))) (ex (.ledger (.create record key now)) w).2).1 = seq := ⟨_, rfl⟩
    rw [hseq] at h
    rcases seq with e | seq
    · cases hrelease h
    · cases h
  · obtain rfl : x = y := by simpa using hrelease h
    rfl
  · cases hrelease h
  · cases hrelease h

theorem run_of_duplicate
    (h : ex (.ledger (.create record key now)) w = (.ok (.duplicate y), w))
    (hrelease : (ResponsesService.releaseAfterFailedAdmission tenant conversationId
      record.responseId).run ex w = some ((), w')) :
    (ResponsesService.admitOrRelease tenant conversationId record key now).run ex w =
      some (.ok (.duplicate y), w') := by
  simp only [ResponsesService.admitOrRelease, ResponsesService.admitRecord, Ledger.create,
    perform_bind, call_bind, run_call, h]
  show (ResponsesService.releaseAfterFailedAdmission tenant conversationId record.responseId >>=
    fun _ ↦ _).run ex w = _
  rw [run_bind_of_eq hrelease]
  rfl

end Admit

/-! ## Repeats -/

/-- The gates before the ledger's let the create through. -/
structure Unobstructed (via : Option ℕ) (cfg : Config) (w : World) (tenant : TenantId)
    (spec : TurnSpec) (uuid : Uuid) : Prop where
  fits : w.Fits cfg tenant spec.anchor
  lockable : w.Lockable tenant spec.anchor ⟨cfg.nodeTag, uuid⟩
  signed : ∀ i ∈ w.integrity, ∃ tag, i.sign (canonicalItems w.nfc spec.inputItems) = .ok tag
  writable : w.Writable via
  roomy : w.Roomy via

/-- A create is answered with the existing record `y`, and the ledger stays as it is. -/
def Replays (via : Option ℕ) (cfg : Config) (w : World) (tenant : TenantId) (spec : TurnSpec)
    (key : IdempotencyKey) (uuid : Uuid) (y : ResponseRecord) : Prop :=
  ∃ n w', (∀ rounds, n ≤ rounds →
      (carried via (ResponsesService.create cfg rounds tenant spec (some key) uuid)).run exec w =
        some (.ok (.duplicate y), w')) ∧
    w'.store.inner.records = w.store.inner.records ∧
    w'.store.inner.queued = w.store.inner.queued

theorem sign_ok_iff {nfc : String → String} {integrity : Option ContentIntegrity}
    {record : ResponseRecord} :
    (∃ x, sign nfc integrity record = .ok x) ↔
      ∀ i ∈ integrity, ∃ tag, i.sign (canonicalItems nfc record.spec.inputItems) = .ok tag := by
  unfold sign
  cases integrity with
  | none => simp
  | some i => cases h : i.sign (canonicalItems nfc record.spec.inputItems) <;> simp [h]

section Replay

variable {via : Option ℕ} {cfg : Config} {w : World} {tenant : TenantId} {spec : TurnSpec}
  {key : IdempotencyKey} {uuid : Uuid} {r : ResponseId} {y : ResponseRecord}

theorem replays_of_unobstructed (hk : w.store.Keyed)
    (hidem : w.store.inner.idem.lookup key = some r) (hy : w.store.record r = some y)
    (h : Unobstructed via cfg w tenant spec uuid) : Replays via cfg w tenant spec key uuid y := by
  obtain ⟨n, resolved, hresolved⟩ := h.fits
  obtain ⟨reply, w₁, hlock, hconv, hreply⟩ :=
    run_acquireFor hk tenant spec.anchor ⟨cfg.nodeTag, uuid⟩
  obtain rfl := hreply.mpr h.lockable
  have hwritable : w₁.Writable via := fun node hnode ↦ by
    rw [hconv.nodes]
    exact h.writable node hnode
  have hroomy : w₁.Roomy via := fun node hnode ↦ by
    rw [hconv.nodes, Inner.inFlightCount, hconv.store.records]
    exact h.roomy node hnode
  set record := ResponsesService.proposed cfg tenant spec (some key) ⟨cfg.nodeTag, uuid⟩ w.clock
    with hrecord
  obtain ⟨x, hsign⟩ : ∃ x, sign w₁.nfc w₁.integrity record = .ok x := by
    rw [sign_ok_iff, hconv.nfc, hconv.integrity]
    exact h.signed
  have hcreate : execVia via (.ledger (.create record key w.clock)) w₁ =
      (.ok (.duplicate y), w₁) := by
    rw [execVia_roomy hwritable hroomy]
    have hhit := create_of_hit hsign (hconv.store.idem ▸ hidem) ((hconv.store.record r).trans hy)
    simp only [exec, execLedger, hhit, World.withStore_self]
  obtain ⟨w₂, hrelease, hconv', -⟩ := run_releaseAfterFailedAdmission w₁ tenant
    spec.anchor.conversationId record.responseId
  refine ⟨n, w₂, fun rounds hrounds ↦ ?_, ?_, ?_⟩
  · rw [run_carried, run_create_locked (execVia_reads via)
      ((approx_resolveContext cfg hrounds tenant spec.anchor).run hresolved)
      ((run_conversing h.writable (conversing_acquireFor _ _ _)).trans hlock)]
    exact run_of_duplicate hcreate
      ((run_conversing hwritable (conversing_release _ _ _)).trans hrelease)
  · exact hconv'.store.records.trans hconv.store.records
  · exact hconv'.store.queued.trans hconv.store.queued

theorem run_acquireFor_closed {node : ℕ} (hclosed : (w.nodes node).readOnly = true)
    (tenant : TenantId) (c : ConversationId) (id : ResponseId) :
    (ResponsesService.acquireFor tenant (some c) id).run (execVia (some node)) w =
      some (.error (.conversation (.store .readOnly)), w) := by
  have hrefused : ∀ now, Client.execute node (.conversations (.acquireActive tenant c id now)) w =
      (.error (.store .readOnly), w) := by
    intro now
    simp [Client.execute, Client.refusal, hclosed]
  simp only [ResponsesService.acquireFor, ResponsesService.acquireTurn,
    ConversationsService.acquireActive, Conversations.acquireActive, nowMs, perform_bind, call_bind,
    run_call, execVia]
  have hnow : Client.execute node .nowMs w = (w.clock, w) := rfl
  rw [hnow, hrefused]
  rfl

theorem unobstructed_of_replays (hk : w.store.Keyed)
    (h : Replays via cfg w tenant spec key uuid y) : Unobstructed via cfg w tenant spec uuid := by
  obtain ⟨n, w', hrun, -⟩ := h
  have hrun := hrun n le_rfl
  rw [run_carried] at hrun
  obtain ⟨r, hresolve⟩ := exists_resolved (execVia_reads via) hrun
  rcases r with e | resolved
  · rw [run_create_misfit (execVia_reads via) hresolve] at hrun
    cases hrun
  -- The reply of the ledger to the create, in the world the marker was taken in.
  have hledger : ∀ w₁, (ResponsesService.acquireFor tenant spec.anchor.conversationId
      ⟨cfg.nodeTag, uuid⟩).run (execVia via) w = some (.ok (), w₁) →
      (execVia via (.ledger (.create (ResponsesService.proposed cfg tenant spec (some key)
        ⟨cfg.nodeTag, uuid⟩ w.clock) key w.clock)) w₁).1 = .ok (.duplicate y) := by
    intro w₁ hlock
    rw [run_create_locked (execVia_reads via) hresolve hlock] at hrun
    exact duplicate_of_run hrun
  have hwritable : w.Writable via := by
    by_contra hclosed
    unfold World.Writable at hclosed
    push Not at hclosed
    obtain ⟨node, rfl, hnode⟩ := hclosed
    have hnode : (w.nodes node).readOnly = true := by simpa using hnode
    cases hc : spec.anchor.conversationId with
    | some c =>
        have hlock := run_acquireFor_closed hnode tenant c ⟨cfg.nodeTag, uuid⟩
        rw [← hc] at hlock
        rw [run_create_unlocked (execVia_reads _) hresolve hlock] at hrun
        cases hrun
    | none =>
        have hreply := hledger w (by rw [hc]; rfl)
        simp [execVia, Client.execute, Client.refusal, hnode] at hreply
  obtain ⟨reply, w₁, hlock, hconv, hlockable⟩ :=
    run_acquireFor hk tenant spec.anchor ⟨cfg.nodeTag, uuid⟩
  have hlock := (run_conversing hwritable (conversing_acquireFor tenant spec.anchor.conversationId
    ⟨cfg.nodeTag, uuid⟩)).trans hlock
  rcases reply with e | ⟨⟩
  · rw [run_create_unlocked (execVia_reads via) hresolve hlock] at hrun
    cases hrun
  have hreply := hledger w₁ hlock
  have hwritable₁ : w₁.Writable via := fun node hnode ↦ by
    rw [hconv.nodes]
    exact hwritable node hnode
  have hroomy₁ : w₁.Roomy via := by
    intro node hnode
    obtain rfl : via = some node := hnode
    by_contra hfull
    have hopen : (w₁.nodes node).readOnly = false := hwritable₁ node rfl
    simp [execVia, Client.execute, Client.refusal, Client.forwarded, hopen,
      Nat.not_lt.mp hfull] at hreply
  rw [execVia_roomy hwritable₁ hroomy₁] at hreply
  refine ⟨⟨n, resolved, hresolve⟩, hlockable.mp rfl, ?_, hwritable, fun node hnode ↦ ?_⟩
  · have hsigned : ∃ x, sign w₁.nfc w₁.integrity (ResponsesService.proposed cfg tenant spec
        (some key) ⟨cfg.nodeTag, uuid⟩ w.clock) = .ok x := by
      cases hs : sign w₁.nfc w₁.integrity (ResponsesService.proposed cfg tenant spec
          (some key) ⟨cfg.nodeTag, uuid⟩ w.clock) with
      | error e => simp [exec, execLedger, MemResponseLedger.create, hs] at hreply
      | ok x => exact ⟨x, rfl⟩
    rw [sign_ok_iff, hconv.nfc, hconv.integrity] at hsigned
    exact hsigned
  · have hroom := hroomy₁ node hnode
    rwa [hconv.nodes, Inner.inFlightCount, hconv.store.records] at hroom

end Replay

/-- In every history a repeat of an accepted create, while its record is there, is answered with
that record exactly when the gates before the ledger's let it through. -/
theorem replays_iff {w₀ : World} (hk : w₀.store.Keyed) (history : List Call)
    {key : IdempotencyKey} {x y : ResponseRecord} (hacc : (key, x) ∈ w₀.accepted history)
    (hy : (w₀.after history).store.record x.responseId = some y) (via : Option ℕ) (cfg : Config)
    (uuid : Uuid) :
    Replays via cfg (w₀.after history) x.tenantId x.spec key uuid y ↔
      Unobstructed via cfg (w₀.after history) x.tenantId x.spec uuid :=
  ⟨unobstructed_of_replays (keyed_after hk history),
    replays_of_unobstructed (keyed_after hk history) (idem_of_accepted hacc) hy⟩

theorem Sample.createCalls_accepted :
    (key, record tenant spec 1) ∈ world.accepted (createCalls tenant spec 1) ∧
      (world.after (createCalls tenant spec 1)).store.record (record tenant spec 1).responseId =
        some (record tenant spec 1) :=
  ⟨List.mem_singleton.mpr rfl, rfl⟩

/-- Outside conversations a repeat is recognised even while the store is read-only. -/
theorem replays_read_only :
    Replays none Sample.cfg
      (Sample.world.after (Sample.createCalls Sample.tenant Sample.rootSpec 1 ++
        [.mode (.setReadOnly true)]))
      Sample.tenant Sample.rootSpec Sample.key ⟨2⟩
      (Sample.record Sample.tenant Sample.rootSpec 1) := by
  have hacc : (Sample.key, Sample.record Sample.tenant Sample.rootSpec 1) ∈
      Sample.world.accepted (Sample.createCalls Sample.tenant Sample.rootSpec 1 ++
        [.mode (.setReadOnly true)]) := List.mem_singleton.mpr rfl
  refine (replays_iff Sample.world_keyed _ hacc rfl none Sample.cfg ⟨2⟩).mpr
    ⟨⟨0, {}, rfl⟩, ?_, ?_, ?_, ?_⟩
  · rintro c ⟨⟩
  · rintro i ⟨⟩
  · rintro node ⟨⟩
  · rintro node ⟨⟩

/-- While the first turn is queued on a conversation, a repeat of its create finds the marker
held by the very response it should be answered with. -/
theorem repeat_busy : ¬ ∀ (w₀ : World) (history : List Call) (key : IdempotencyKey)
    (x y : ResponseRecord) (via : Option ℕ) (cfg : Config) (uuid : Uuid), w₀.store.Keyed →
    (key, x) ∈ w₀.accepted history → (w₀.after history).store.record x.responseId = some y →
    Replays via cfg (w₀.after history) x.tenantId x.spec key uuid y := by
  intro hclaim
  obtain ⟨hacc, hy⟩ := Sample.createCalls_accepted
  obtain ⟨n, w', hrun, -⟩ := hclaim Sample.world _ _ _ _ none Sample.cfg ⟨2⟩
    Sample.world_keyed hacc hy
  have hbusy : ∃ w', (ResponsesService.create Sample.cfg 0 Sample.tenant Sample.spec
      (some Sample.key) ⟨2⟩).run exec
        (Sample.world.after (Sample.createCalls Sample.tenant Sample.spec 1)) =
      some (.error (.conversation (.busy (Sample.id 1))), w') := ⟨_, rfl⟩
  obtain ⟨w₂, hbusy⟩ := hbusy
  have hrun := (hrun n le_rfl).symm.trans
    ((approx_create Sample.cfg (Nat.zero_le n) Sample.tenant Sample.spec _ _).run hbusy)
  cases hrun

/-! ## One gate for all tenants -/

/-- A create by `tenant` under `key`. -/
def Call.Uses (tenant : TenantId) (key : IdempotencyKey) : Call → Prop
  | .ledger (.create record key' _) => record.tenantId = tenant ∧ key' = key
  | _ => False

instance (tenant : TenantId) (key : IdempotencyKey) : DecidablePred (Call.Uses tenant key)
  | .ledger (.create record key' _) =>
    inferInstanceAs (Decidable (record.tenantId = tenant ∧ key' = key))
  | .nowMs | .eventLog _ | .conversations _ | .node _ | .mode _ => .isFalse id
  | .ledger (.claim ..) | .ledger (.heartbeat ..) | .ledger (.complete ..) | .ledger (.cancel ..)
  | .ledger (.reap ..) | .ledger (.recordPartialUsage ..) | .ledger (.get _) | .ledger (.delete _)
  | .ledger (.deleteByTenant _) | .ledger (.checkAttempt ..) | .ledger .inFlight => .isFalse id

/-- The same history, had `tenant` never used `key`. -/
def without (tenant : TenantId) (key : IdempotencyKey) (history : List Call) : List Call :=
  history.filter fun c ↦ ¬ c.Uses tenant key

/-- What a create did to the world: nothing, or write one record under its key. -/
def Wrote (key : IdempotencyKey) (w w' : World) : Option ResponseRecord → Prop
  | none => w' = w
  | some x => w' = { w with store := enqueue w.store x key }

/-- A create is answered, and takes effect, in `w` as it would in `w'`, and no answer shows a
record of the tenant that sets the two apart. -/
structure Isolated (other : TenantId) (w w' : World) (record : ResponseRecord)
    (key : IdempotencyKey) (now : ℕ) : Prop where
  foreign : ∀ y, (exec (.ledger (.create record key now)) w).1 = .ok (.duplicate y) →
    y.tenantId ≠ other
  service : ∀ cfg rounds uuid w₂ y,
    (ResponsesService.create cfg rounds record.tenantId record.spec (some key) uuid).run exec w =
      some (.ok (.duplicate y), w₂) → y.tenantId ≠ other
  reply : (exec (.ledger (.create record key now)) w).1 =
    (exec (.ledger (.create record key now)) w').1
  effect : ∃ wrote, Wrote key w (exec (.ledger (.create record key now)) w).2 wrote ∧
    Wrote key w' (exec (.ledger (.create record key now)) w').2 wrote

/-- The gate is shut under `key` with nothing behind it: the record it names is gone. -/
def World.Vacant (w : World) (key : IdempotencyKey) : Prop :=
  ∃ r, w.store.inner.idem.lookup key = some r ∧ w.store.record r = none

section Tenants

variable {w : World} {tenant : TenantId} {key : IdempotencyKey} {record : ResponseRecord} {now : ℕ}

/-- Creates that were not accepted might as well not have been made. -/
theorem after_without {history : List Call}
    (h : ∀ x, (key, x) ∈ w.accepted history → x.tenantId ≠ tenant) :
    w.after (without tenant key history) = w.after history := by
  induction history generalizing w with
  | nil => rfl
  | cons c history ih =>
      have htail : ∀ x, (key, x) ∈ (exec c w).2.accepted history → x.tenantId ≠ tenant :=
        fun x hx ↦ h x (List.mem_append_right _ hx)
      by_cases huses : c.Uses tenant key
      · have hsame : (exec c w).2 = w := by
          obtain ⟨record, now, rfl, htenant⟩ : ∃ record now,
              c = .ledger (.create record key now) ∧ record.tenantId = tenant := by
            unfold Call.Uses at huses
            split at huses
            · obtain ⟨htenant, rfl⟩ := huses
              exact ⟨_, _, rfl, htenant⟩
            · exact huses.elim
          rcases exec_create record key now w with ⟨-, heq⟩ | ⟨x, hx, hsign, -⟩
          · exact heq
          · refine absurd ?_ (h x (List.mem_append_left _ (by simp [Call.accepts, hx])))
            rw [sign_spec hsign]
            exact htenant
        have hwithout : without tenant key (c :: history) = without tenant key history := by
          simp [without, huses]
        rw [hwithout]
        show w.after _ = (exec c w).2.after history
        rw [hsame] at htail ⊢
        exact ih htail
      · have hwithout : without tenant key (c :: history) = c :: without tenant key history := by
          simp [without, huses]
        rw [hwithout]
        exact ih htail

theorem create_unsigned {e : LedgerError} (h : sign w.nfc w.integrity record = .error e) :
    exec (.ledger (.create record key now)) w = (.error e, w) := by
  simp [exec, execLedger, MemResponseLedger.create, h]

theorem exec_of_hit {x y : ResponseRecord} {r : ResponseId} (now : ℕ)
    (hsign : sign w.nfc w.integrity record = .ok x)
    (hidem : w.store.inner.idem.lookup key = some r) (hrecord : w.store.record r = some y) :
    exec (.ledger (.create record key now)) w = (.ok (.duplicate y), w) := by
  simp only [exec, execLedger, create_of_hit hsign hidem hrecord, World.withStore_self]

theorem create_vacant {x : ResponseRecord} (hsign : sign w.nfc w.integrity record = .ok x)
    (h : w.Vacant key) : exec (.ledger (.create record key now)) w = (.error .notFound, w) := by
  obtain ⟨r, hidem, hrecord⟩ := h
  simp [exec, execLedger, MemResponseLedger.create, hsign, admitRecord, hidem, hrecord]

theorem vacant_of_notFound (x : ResponseRecord) (hsign : sign w.nfc w.integrity record = .ok x)
    (h : (exec (.ledger (.create record key now)) w).1 = .error .notFound) : w.Vacant key := by
  simp only [exec, execLedger, World.withStore_fst, MemResponseLedger.create, hsign,
    admitRecord] at h
  cases hidem : w.store.inner.idem.lookup key with
  | none =>
      simp only [hidem] at h
      split_ifs at h
      cases h
  | some r =>
      simp only [hidem] at h
      cases hrecord : w.store.record r with
      | none => exact ⟨r, hidem, hrecord⟩
      | some y => simp [hrecord] at h

/-- A duplicate is what the gate names. -/
theorem hit_of_duplicate {y : ResponseRecord}
    (h : (exec (.ledger (.create record key now)) w).1 = .ok (.duplicate y)) :
    (∃ x, sign w.nfc w.integrity record = .ok x) ∧
      ∃ r, w.store.inner.idem.lookup key = some r ∧ w.store.record r = some y := by
  simp only [exec, execLedger, World.withStore_fst, MemResponseLedger.create] at h
  cases hsign : sign w.nfc w.integrity record with
  | error e => simp [hsign] at h
  | ok x =>
      refine ⟨⟨x, rfl⟩, ?_⟩
      simp only [hsign, admitRecord] at h
      cases hidem : w.store.inner.idem.lookup key with
      | none =>
          simp only [hidem] at h
          split_ifs at h <;> simp at h
      | some r =>
          simp only [hidem] at h
          cases hrecord : w.store.record r with
          | none => simp [hrecord] at h
          | some z =>
              obtain rfl : z = y := by simpa [hrecord] using h
              exact ⟨r, rfl, hrecord⟩

/-- The service's duplicate is the ledger's. -/
theorem hit_of_run {cfg : Config} {rounds : ℕ} {spec : TurnSpec} {uuid : Uuid} {y : ResponseRecord}
    {w₂ : World} (hk : w.store.Keyed)
    (h : (ResponsesService.create cfg rounds tenant spec (some key) uuid).run exec w =
      some (.ok (.duplicate y), w₂)) :
    (∀ i ∈ w.integrity, ∃ tag, i.sign (canonicalItems w.nfc spec.inputItems) = .ok tag) ∧
      ∃ r, w.store.inner.idem.lookup key = some r ∧ w.store.record r = some y := by
  have hreads : ∀ c w, c.Reads → exec c w = exec c w := fun _ _ _ ↦ rfl
  obtain ⟨r, hresolve⟩ := exists_resolved hreads h
  rcases r with e | resolved
  · rw [run_create_misfit hreads hresolve] at h
    cases h
  obtain ⟨reply, w₁, hlock, hconv, -⟩ := run_acquireFor hk tenant spec.anchor ⟨cfg.nodeTag, uuid⟩
  rcases reply with e | ⟨⟩
  · rw [run_create_unlocked hreads hresolve hlock] at h
    cases h
  rw [run_create_locked hreads hresolve hlock] at h
  obtain ⟨hsign, r, hidem, hrecord⟩ := hit_of_duplicate (duplicate_of_run h)
  rw [sign_ok_iff, hconv.nfc, hconv.integrity] at hsign
  exact ⟨hsign, r, hconv.store.idem ▸ hidem, (hconv.store.record r).symm.trans hrecord⟩

end Tenants

/-- A create under a key is isolated from another tenant exactly where that tenant's use of the
key has left nothing to find: no create of its own under the key was accepted, or the place
behind the gate is empty with it and without it.  (A record that cannot be signed never gets to
the gate.) -/
theorem isolated_iff {w₀ : World} (hk : w₀.store.Keyed) {key : IdempotencyKey}
    (hkey : w₀.store.inner.idem.lookup key = none) {history : List Call}
    (hfresh : (written history).Nodup) (other : TenantId) (record : ResponseRecord) (now : ℕ) :
    Isolated other (w₀.after history) (w₀.after (without other key history)) record key now ↔
      (∀ x, sign (w₀.after history).nfc (w₀.after history).integrity record ≠ .ok x) ∨
      ∀ x, (key, x) ∈ w₀.accepted history → x.tenantId = other →
        (w₀.after history).store.record x.responseId = none ∧
          (w₀.after (without other key history)).Vacant key := by
  set w := w₀.after history with hw
  set w' := w₀.after (without other key history) with hw'
  have hkw : w.store.Keyed := keyed_after hk history
  have hsame : w'.integrity = w.integrity ∧ w'.nfc = w.nfc := by
    obtain ⟨h1, h2⟩ := integrity_after w₀ history
    obtain ⟨h1', h2'⟩ := integrity_after w₀ (without other key history)
    exact ⟨h1'.trans h1.symm, h2'.trans h2.symm⟩
  -- Whatever stands behind the gate was accepted under the key.
  have hbehind : ∀ {r y}, w.store.inner.idem.lookup key = some r → w.store.record r = some y →
      ∃ x, (key, x) ∈ w₀.accepted history ∧ x.responseId = r ∧ y.tenantId = x.tenantId := by
    intro r y hidem hrecord
    rcases accepted_of_idem hidem with hstart | ⟨x, hx, rfl⟩
    · rw [hkey] at hstart
      cases hstart
    · exact ⟨x, hx, rfl, (record_of_accepted hfresh hx hrecord).1⟩
  constructor
  · intro h
    by_cases hsign : ∀ x, sign w.nfc w.integrity record ≠ .ok x
    · exact Or.inl hsign
    push Not at hsign
    obtain ⟨z, hsign⟩ := hsign
    refine Or.inr fun x hx hother ↦ ?_
    have hidem : w.store.inner.idem.lookup key = some x.responseId := idem_of_accepted hx
    cases hrecord : w.store.record x.responseId with
    | some y =>
        have hreply := congrArg Prod.fst (exec_of_hit now hsign hidem hrecord)
        exact absurd ((record_of_accepted hfresh hx hrecord).1.trans hother) (h.foreign y hreply)
    | none =>
        have hsign' : sign w'.nfc w'.integrity record = .ok z := by rw [hsame.1, hsame.2, hsign]
        have hreply : (exec (.ledger (.create record key now)) w').1 = .error .notFound := by
          rw [← h.reply, create_vacant hsign ⟨_, hidem, hrecord⟩]
        exact ⟨rfl, vacant_of_notFound z hsign' hreply⟩
  · intro h
    -- An answer that names a record of the other tenant rests on a create of its own.
    have hforeign : ∀ {r y}, (∃ x, sign w.nfc w.integrity record = .ok x) →
        w.store.inner.idem.lookup key = some r → w.store.record r = some y →
        y.tenantId ≠ other := by
      rintro r y ⟨z, hsign⟩ hidem hrecord hother
      obtain ⟨x, hx, rfl, htenant⟩ := hbehind hidem hrecord
      rcases h with hunsigned | hunused
      · exact hunsigned z hsign
      · rw [(hunused x hx (htenant.symm.trans hother)).1] at hrecord
        cases hrecord
    -- The two worlds are one, or neither lets the create past the same refusal.
    have hboth : (exec (.ledger (.create record key now)) w).1 =
          (exec (.ledger (.create record key now)) w').1 ∧
        ∃ wrote, Wrote key w (exec (.ledger (.create record key now)) w).2 wrote ∧
          Wrote key w' (exec (.ledger (.create record key now)) w').2 wrote := by
      cases hsign : sign w.nfc w.integrity record with
      | error e =>
          have hsign' : sign w'.nfc w'.integrity record = .error e := by
            rw [hsame.1, hsame.2, hsign]
          rw [create_unsigned hsign, create_unsigned hsign']
          exact ⟨rfl, none, rfl, rfl⟩
      | ok z =>
      rcases h with hunsigned | hunused
      · exact absurd hsign (hunsigned z)
      by_cases hnever : ∀ x, (key, x) ∈ w₀.accepted history → x.tenantId ≠ other
      · have heq : w' = w := after_without hnever
        rw [heq]
        refine ⟨rfl, ?_⟩
        rcases exec_create record key now w with ⟨-, hstay⟩ | ⟨x, -, -, -, hwrote⟩
        · exact ⟨none, hstay, hstay⟩
        · exact ⟨some x, hwrote, hwrote⟩
      · push Not at hnever
        obtain ⟨x, hx, hother⟩ := hnever
        obtain ⟨hgone, hvacant⟩ := hunused x hx hother
        have hsign' : sign w'.nfc w'.integrity record = .ok z := by rw [hsame.1, hsame.2, hsign]
        rw [create_vacant hsign ⟨_, idem_of_accepted hx, hgone⟩, create_vacant hsign' hvacant]
        exact ⟨rfl, none, rfl, rfl⟩
    refine ⟨fun y hy ↦ ?_, fun cfg rounds uuid w₂ y hrun ↦ ?_, hboth.1, hboth.2⟩
    · obtain ⟨hsign, r, hidem, hrecord⟩ := hit_of_duplicate hy
      exact hforeign hsign hidem hrecord
    · obtain ⟨hsign, r, hidem, hrecord⟩ := hit_of_run hkw hrun
      exact hforeign (sign_ok_iff.mpr hsign) hidem hrecord

theorem Sample.createCalls_written :
    (written (createCalls tenant rootSpec 1)).Nodup := by
  have hwritten : written (createCalls tenant rootSpec 1) = [id 1] := rfl
  rw [hwritten]
  exact List.nodup_singleton _

/-- A repeat of the tenant's own is isolated from a tenant that never used the key. -/
theorem isolated_unused :
    Isolated Sample.otherTenant
      (Sample.world.after (Sample.createCalls Sample.tenant Sample.rootSpec 1))
      (Sample.world.after (without Sample.otherTenant Sample.key
        (Sample.createCalls Sample.tenant Sample.rootSpec 1)))
      (Sample.record Sample.tenant Sample.rootSpec 2) Sample.key 0 := by
  refine (isolated_iff Sample.world_keyed rfl Sample.createCalls_written Sample.otherTenant
    (Sample.record Sample.tenant Sample.rootSpec 2) 0).mpr (Or.inr fun x hx hother ↦ ?_)
  obtain rfl : x = Sample.record Sample.tenant Sample.rootSpec 1 :=
    congrArg Prod.snd (List.mem_singleton.mp hx)
  exact absurd hother (by decide)

/-- The first tenant's key, sent by another tenant, is answered with the first tenant's record. -/
theorem foreign_duplicate : ¬ ∀ (w₀ : World) (key : IdempotencyKey) (history : List Call)
    (other : TenantId) (record : ResponseRecord) (now : ℕ), w₀.store.Keyed →
    w₀.store.inner.idem.lookup key = none → (written history).Nodup → record.tenantId ≠ other →
    Isolated other (w₀.after history) (w₀.after (without other key history)) record key now := by
  intro hclaim
  have h := hclaim Sample.world Sample.key (Sample.createCalls Sample.tenant Sample.rootSpec 1)
    Sample.tenant (Sample.record Sample.otherTenant Sample.rootSpec 2) 0 Sample.world_keyed rfl
    Sample.createCalls_written (by decide)
  exact h.foreign (Sample.record Sample.tenant Sample.rootSpec 1) rfl rfl

end NovaChat
