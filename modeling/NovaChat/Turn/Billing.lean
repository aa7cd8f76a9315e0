import NovaChat.Agentd.Metering
import NovaChat.Turn.Calls

/-!
# Billing

The carrier books what the record of an aborted attempt says was spent.  A record says so only from
its completion on, and no service books anything else: an attempt that is taken away from its holder
is billed nothing, whatever its runner has counted.
-/

namespace NovaChat

open Interact Prog

/-! ## What the calls book -/

/-- A record that has not ended has nothing to book. -/
def MemStore.Unspent (s : MemStore) : Prop :=
  ∀ {r x}, s.record r = some x → x.status.isTerminal = false → x.usage = {}

/-- Calls that bring no usage of an attempt under way. -/
def Call.Unspent : Call → Prop
  | .ledger (.create record _ _) => record.usage = {}
  | .ledger (.recordPartialUsage ..) => False
  | _ => True

namespace MemResponseLedger

theorem bookPartial_of_zero {x : ResponseRecord} (h : x.usage = {}) (s : MemStore)
    (id : ResponseId) : bookPartial s id x = s := by
  rw [bookPartial, h]
  exact if_pos Usage.isZero_zero

theorem partialUsage_claimLoop (s : MemStore) (agent : AgentId) (now ttl : ℕ)
    (ids : List ResponseId) :
    (claimLoop s agent now ttl ids).2.inner.partialUsage = s.inner.partialUsage := by
  induction ids with
  | nil => rfl
  | cons id ids ih =>
      unfold claimLoop
      repeat' split
      · exact ih
      · rfl
      · exact ih

/-- Reaping books nothing where the records to be reaped have nothing to book. -/
theorem partialUsage_reapAll (now : ℕ) : ∀ (ids : List ResponseId) (s : MemStore),
    (∀ id ∈ ids, ∀ x, s.record id = some x → x.usage = {}) →
      (reapAll now ids s).2.inner.partialUsage = s.inner.partialUsage
  | [], _, _ => rfl
  | id :: ids, s, h => by
      have hone : (reapOne s id now).2.inner.partialUsage = s.inner.partialUsage ∧
          ∀ id' ∈ ids, ∀ x, (reapOne s id now).2.record id' = some x → x.usage = {} := by
        unfold reapOne
        cases hx : s.record id with
        | none => exact ⟨rfl, fun id' hid' ↦ h id' (List.mem_cons_of_mem _ hid')⟩
        | some x =>
            have hzero := h id List.mem_cons_self x hx
            simp only [bookPartial_of_zero hzero, record_putRecord]
            refine ⟨rfl, fun id' hid' y hy ↦ ?_⟩
            split_ifs at hy
            · rw [← Option.some.inj hy]
              exact hzero
            · exact h id' (List.mem_cons_of_mem _ hid') y hy
      exact (partialUsage_reapAll now ids _ hone.2).trans hone.1

theorem unbooked_removeRecord {g : Inner} (h : g.partialUsage = ∅) (id : ResponseId) :
    (g.removeRecord id).2.partialUsage = ∅ := by
  unfold Inner.removeRecord
  split
  · exact h
  · simp only [h]
    rfl

theorem unbooked_removeAll : ∀ (ids : List ResponseId) {g : Inner}, g.partialUsage = ∅ →
    (removeAll ids g).2.partialUsage = ∅
  | [], _, h => h
  | id :: ids, _, h => unbooked_removeAll ids (unbooked_removeRecord h id)

end MemResponseLedger

open MemResponseLedger in
/-- Nothing is booked as long as no open record has usage. -/
theorem exec_partialUsage {c : Call} {w : World} (hc : c.Unspent) (hw : w.store.Unspent)
    (h : w.store.inner.partialUsage = ∅) : (exec c w).2.store.inner.partialUsage = ∅ := by
  rcases c with _ | c | c | c | c | c
  · exact h
  · cases c with
    | create record key now =>
        rcases exec_create record key now w with ⟨-, heq⟩ | ⟨x, -, -, -, heq⟩ <;> rw [heq] <;>
          exact h
    | claim agent now ttl =>
        simp only [exec, execLedger, World.withStore_snd, claim]
        split
        · exact h
        · exact (partialUsage_claimLoop ..).trans h
    | heartbeat => exact h
    | complete r attempt status usage now =>
        rcases complete_cases w.store r attempt status usage now with
          ⟨e, heq⟩ | ⟨x, -, -, -, -, -, heq⟩ <;>
          simp only [exec, execLedger, heq, World.withStore_snd] <;> exact h
    | cancel tenant r now =>
        rcases cancel_cases w.store tenant r now with ⟨e, heq⟩ | ⟨x, -, hx, -, hopen, heq⟩ <;>
          simp only [exec, execLedger, heq, World.withStore_snd]
        · exact h
        · rw [bookPartial_of_zero (hw hx hopen)]
          exact h
    | reap now ttl =>
        refine (partialUsage_reapAll now _ w.store fun id hid x hx ↦ ?_).trans h
        obtain ⟨⟨id', y⟩, hmem, rfl⟩ := List.mem_map.mp hid
        obtain ⟨hentry, hlost⟩ := List.mem_filter.mp hmem
        simp only [Bool.and_eq_true, decide_eq_true_eq] at hlost
        obtain rfl : y = x :=
          Option.some.inj (((HashMap.mem_entries_iff _ _ _).mp hentry).symm.trans hx)
        exact hw hx (by rw [hlost.1]; rfl)
    | recordPartialUsage => exact hc.elim
    | get => exact h
    | delete r =>
        simp only [exec, execLedger, World.withStore_snd, delete]
        split
        · exact h
        · exact unbooked_removeRecord h r
    | deleteByTenant tenant =>
        simp only [exec, execLedger, World.withStore_snd, deleteByTenant]
        split
        · exact h
        · exact unbooked_removeAll _ h
    | checkAttempt => exact h
    | inFlight => exact h
  · rw [exec_eventLog_store]
    exact h
  · exact (exec_conversationOnly c w).partialUsage.trans h
  · cases c <;> exact h
  · rw [show (exec (.mode c) w).2.store.inner = w.store.inner from execMode_inner w c]
    exact h

/-- What an open record was before it was not over either, unless a create wrote it. -/
theorem unspent_exec {c : Call} {w : World} (hc : c.Unspent) (hw : w.store.Unspent) :
    (exec c w).2.store.Unspent := by
  intro r y hy hopen
  by_cases hwrites : c.writes = some r
  · rcases c with _ | c | c | c | c | c <;> try cases hwrites
    cases c <;> try cases hwrites
    next record key now =>
      rcases exec_create record key now w with ⟨-, heq⟩ | ⟨x, -, hsign, -, heq⟩
      · rw [heq] at hy
        exact hw hy hopen
      · rw [heq] at hy
        replace hy := (MemResponseLedger.record_enqueue w.store x key _).symm.trans hy
        split_ifs at hy
        · rw [← Option.some.inj hy, MemResponseLedger.sign_spec hsign]
          exact hc
        · exact hw hy hopen
  · obtain ⟨x, hx, hstage⟩ := record_stage hwrites hy
    cases hstage with
    | stay => exact hw hx hopen
    | claim agent now ttl hstatus =>
        have hzero : x.usage = {} := hw hx (by rw [hstatus]; rfl)
        exact hzero
    | complete usage now hstatus hterm => exact absurd (hterm.symm.trans hopen) nofun
    | cancel => cases hopen
    | reap => cases hopen

/-! ## What the jobs bring -/

theorem unspent_of_locking {c : Call} (hc : c.Locking) : c.Unspent := by
  rcases c with _ | c | c | c | c | c <;> try trivial
  cases c <;> trivial

/-- Creates file responses that have spent nothing. -/
theorem unspent_create (cfg : Config) (rounds : ℕ) (tenant : TenantId) (spec : TurnSpec)
    (key : Option IdempotencyKey) (uuid : Uuid) :
    (ResponsesService.create cfg rounds tenant spec key uuid).OnlyCalls Call.Unspent := by
  have hlocking : ∀ c : Call, c.Locking → c.Unspent := fun _ ↦ unspent_of_locking
  have hrelease : ∀ (outcome : Except ServiceError CreateOutcome) (id : ResponseId),
      (ResponsesService.releaseAfterFailedAdmission tenant spec.anchor.conversationId id >>=
        fun _ ↦ (.ret outcome : Service _)).OnlyCalls Call.Unspent := fun outcome id ↦
    ((locking_release tenant _ id).mono hlocking).bind fun _ ↦ trivial
  refine ⟨trivial, fun now ↦ ((reads_resolveContext cfg rounds tenant spec.anchor).mono
    fun c hc ↦ hlocking c hc.locking).bind fun resolved ↦ ?_⟩
  rcases resolved with e | resolved
  · trivial
  refine ((locking_acquireFor tenant _ _).mono hlocking).bind fun locked ↦ ?_
  rcases locked with e | ⟨⟩
  · trivial
  refine ⟨rfl, fun r ↦ ?_⟩
  rcases r with e | (x | x | _ | _)
  · exact hrelease _ _
  · refine ⟨trivial, fun r ↦ ?_⟩
    rcases r with e | seq
    · exact hrelease _ _
    · trivial
  · exact hrelease _ _
  · exact hrelease _ _
  · exact hrelease _ _

theorem unspent_job (j : Job) : j.prog.OnlyCalls Call.Unspent := by
  by_cases hcreate : ∃ cfg rounds tenant spec key uuid,
      j = .create cfg rounds tenant spec key uuid
  · obtain ⟨cfg, rounds, tenant, spec, key, uuid, rfl⟩ := hcreate
    exact (unspent_create ..).bind fun _ ↦ trivial
  · push Not at hcreate
    refine (makes_job j).mono fun c hc ↦ ?_
    rcases hc with hlocking | hown | ⟨-, hbeside⟩
    · exact unspent_of_locking hlocking
    · rcases c with _ | c | c | c | c | c <;> try trivial
      cases c <;> try trivial
      · cases j <;> first | exact hown.elim | exact absurd rfl (hcreate _ _ _ _ _ _)
      · cases j <;> exact hown.elim
    · rcases c with _ | c | c | c | c | c <;> try trivial
      cases c <;> trivial

/-! ## What is billed -/

/-- A store without records and bookings. -/
structure MemStore.Unbilled (s : MemStore) : Prop where
  unfiled : s.Unfiled
  partialUsage : s.inner.partialUsage = ∅

/-- Nothing is booked, and an attempt that was taken away from its holder left no usage. -/
structure Unbooked (tr : Trace) (w : World) : Prop where
  partialUsage : w.store.inner.partialUsage = ∅
  unspent : w.store.Unspent
  superseded : ∀ {i agent now ttl claimed x},
    .call i (.ledger (.claim agent now ttl)) (.ok (some claimed)) ∈ tr →
      w.store.record claimed.record.responseId = some x → x.status ≠ .queued ∧
        (x.attempt ≠ claimed.record.attempt → x.status.isTerminal = true ∧ x.usage = {})

theorem Unbooked.start {tr : Trace} {w : World} (h : Unbooked tr w) (j : Job) :
    Unbooked (tr ++ [.start j]) w where
  partialUsage := h.partialUsage
  unspent := h.unspent
  superseded hmem := by
    rcases List.mem_append.mp hmem with hmem | hmem
    · exact h.superseded hmem
    · cases List.mem_singleton.mp hmem

theorem Unbooked.call {tr : Trace} {w : World} {ss : List Stage} {i : ℕ} {s : Stage} {c : Call}
    (h : Unbooked tr w) (hp : Provenance tr w ss) (hs : ss[i]? = some s)
    (hallowed : jobs.allowed s c) (hc : c.Unspent) :
    Unbooked (tr ++ [.call i c (exec c w).1]) (exec c w).2 where
  partialUsage := exec_partialUsage hc h.unspent h.partialUsage
  unspent := unspent_exec hc h.unspent
  superseded {k agent now ttl claimed y} hmem hy := by
    rcases List.mem_append.mp hmem with hmem | hmem
    · have hfiled := hp.told hmem _ (List.mem_singleton_self claimed.record.origin)
      have hwrites : c.writes ≠ some claimed.record.responseId := fun hw ↦
        (hp.unwritten hs (unwritten_of_jobs hallowed hw)).2 _ hfiled rfl
      obtain ⟨x, hx, hstage⟩ := record_stage hwrites hy
      obtain ⟨hqueued, hsuperseded⟩ := h.superseded hmem hx
      cases hstage with
      | stay => exact ⟨hqueued, hsuperseded⟩
      | claim agent now ttl hstatus => exact absurd hstatus hqueued
      | complete usage now hstatus hterm =>
          refine ⟨fun heq ↦ ?_, fun hattempt ↦ ?_⟩
          · cases hterm.symm.trans (congrArg ResponseStatus.isTerminal heq)
          · rw [hstatus] at hsuperseded
            cases (hsuperseded hattempt).1
      | cancel now hopen =>
          have hzero : x.usage = {} := h.unspent hx hopen
          exact ⟨nofun, fun _ ↦ ⟨rfl, hzero⟩⟩
      | reap now ttl hstatus =>
          have hzero : x.usage = {} := h.unspent hx (by rw [hstatus]; rfl)
          exact ⟨nofun, fun _ ↦ ⟨rfl, hzero⟩⟩
    · -- The claim itself leaves the record it hands out.
      obtain ⟨rfl, rfl, hreply⟩ := Event.call.inj (List.mem_singleton.mp hmem)
      have hclaimed := exec_claim hp.keyed (eq_of_heq hreply).symm
      obtain rfl : claimed.record = y := Option.some.inj (hclaimed.symm.trans hy)
      refine ⟨?_, fun hattempt ↦ absurd rfl hattempt⟩
      obtain ⟨-, ⟨hnone, -⟩ | ⟨id, x, -, -, htaken, -⟩⟩ :=
        MemResponseLedger.claim_cases w.store agent now ttl
      · exact absurd (eq_of_heq hreply).symm (hnone claimed)
      · rw [← Option.some.inj (Except.ok.inj (htaken.symm.trans (eq_of_heq hreply).symm))]
        nofun

theorem unbooked_run {ok : Trace → State → Event Call Call.Reply Job → Prop}
    (hok : ∀ tr q e, ok tr q e → MintStep tr q e) {w : World} {tr : Trace} {q : State}
    (hw : w.store.Unbilled) (h : Run system ok (Pool.init w) tr q) : Unbooked tr q.world := by
  induction h with
  | nil =>
      refine ⟨hw.partialUsage, fun {r x} hx _ ↦ ?_, fun hmem ↦ by cases hmem⟩
      cases (hw.unfiled.record r).symm.trans hx
  | start hrun hj ih => exact ih.start _
  | @turn tr q i j c k hrun hi hc ih =>
      obtain ⟨hp, hkeeps⟩ := provenance_run hok hw.unfiled hrun
      obtain ⟨s, hs, hfollows⟩ := hkeeps.session hi
      obtain ⟨-, -, hunspent⟩ := (hrun.turn hi hc).guarded rfl fun j ↦
        .of_onlyCalls ((unspent_job j).mono fun c hc _ ↦ hc)
      exact ih.call hp hs hfollows.1 hunspent

/-- Process `i` executes `claimed` with a mock agent, whose run has returned.  These are the usages
the run has counted. -/
def Metered (tr : Trace) (q : State) (i : ℕ) (m : MockAgentRunner) (claimed : ClaimedResponse)
    (us : List Usage) : Prop :=
  ∃ rt rounds agent announced ys zs vs snapshot result sink,
    q.jobAt i = some (.execute rt rounds agent) ∧ rt.runner = m.run ∧
      rt.Serving agent claimed (announced :: (ys ++ (zs ++ vs))) (exchangesOf i tr) ∧
      Path (rt.resolveSnapshot rounds claimed.record) ys (.ok snapshot) ∧
      Path ((m.metered (rt.task claimed snapshot)).handleWith EventSink.answer
        { responseId := claimed.record.responseId, attempt := claimed.record.attempt })
        zs ((us, result), sink)

/-- An execution that has returned has been metered, unless it had no context to run in. -/
theorem metered_of_returned {ok : Trace → State → Event Call Call.Reply Job → Prop} {w : World}
    {tr : Trace} {q : State} (h : Run system ok (Pool.init w) tr q) {i : ℕ} {rt : AgentRuntime}
    {rounds : ℕ} {agent : AgentId} (hi : q.returned i = true)
    (hj : q.jobAt i = some (.execute rt rounds agent)) {m : MockAgentRunner}
    (hm : rt.runner = m.run) {claimed : ClaimedResponse} {ys : Exchanges}
    (hserving : rt.Serving agent claimed ys (exchangesOf i tr)) :
    (∃ us, Metered tr q i m claimed us) ∨
      ∃ e zs, Path (rt.resolveSnapshot rounds claimed.record) zs (.error e) := by
  obtain ⟨now, heq⟩ := hserving
  have hpath : Path (Job.execute rt rounds agent).prog (exchangesOf i tr) () := h.path hi hj
  rw [heq] at hpath
  obtain ⟨now', xs, hcons, hrest⟩ := path_call.mp hpath
  obtain ⟨hnow, rfl⟩ := List.cons.inj hcons
  obtain rfl : now = now' := eq_of_heq (Exchange.mk.inj hnow).2
  replace hrest : Path (rt.runOnce rounds agent now >>= fun _ ↦ .ret ()) _ () := hrest
  obtain ⟨executed, us, vs, hsplit, honce, hnil⟩ := path_bind.mp hrest
  obtain ⟨rfl, -⟩ := path_ret.mp hnil
  rw [List.append_nil] at hsplit
  subst hsplit
  obtain ⟨reply, xs, hcons, hserve⟩ := path_call.mp honce
  obtain ⟨hclaim, rfl⟩ := List.cons.inj hcons
  obtain rfl := eq_of_heq (Exchange.mk.inj hclaim).2
  replace hserve : Path (rt.serve rounds claimed now) _ executed := hserve
  obtain ⟨announced, xs, rfl, hattempt⟩ := path_call.mp hserve
  replace hattempt : Path (rt.resolveSnapshot rounds claimed.record >>= _) xs executed := hattempt
  obtain ⟨resolved, us, vs, rfl, hresolve, hexecuted⟩ := path_bind.mp hattempt
  rcases resolved with e | snapshot
  · exact Or.inr ⟨e, us, hresolve⟩
  obtain ⟨⟨result, sink⟩, zs, vs, rfl, hexecute, -⟩ := path_bind.mp hexecuted
  rw [AgentRuntime.execute, hm, MockAgentRunner.run_eq_metered, handleWith_bind] at hexecute
  obtain ⟨⟨⟨counted, result'⟩, sink'⟩, zs, ws, rfl, hmetered, hret⟩ := path_bind.mp hexecute
  obtain ⟨rfl, -⟩ := path_ret.mp hret
  rw [List.append_nil] at heq
  exact Or.inl ⟨counted, rt, rounds, agent, _, us, zs, vs, snapshot, result', sink',
    hj, hm, ⟨now, heq⟩, hresolve, hmetered⟩

theorem totalUsage_of_unbooked {g : Inner} (hbooked : g.partialUsage = ∅) {r : ResponseId}
    {x : ResponseRecord} (hx : g.records.lookup r = some x) : g.totalUsage r = x.usage := by
  simp only [Inner.totalUsage, hbooked, hx]
  rfl

theorem totalUsage_of_superseded {w : World} {tr : Trace} {q : State} (hw : w.store.Unbilled)
    (h : Run system MintStep (Pool.init w) tr q) {i : ℕ} {m : MockAgentRunner}
    {claimed : ClaimedResponse} {us : List Usage} (hmetered : Metered tr q i m claimed us)
    {x : ResponseRecord} (hx : q.world.store.record claimed.record.responseId = some x)
    (hsuperseded : x.attempt ≠ claimed.record.attempt) :
    q.world.store.inner.totalUsage claimed.record.responseId = {} := by
  obtain ⟨rt, rounds, agent, announced, ys, zs, vs, snapshot, result, sink, -, -, ⟨now, heq⟩, -⟩ :=
    hmetered
  have hclaim : Event.call i (.ledger (.claim agent now rt.execTtlMs)) (.ok (some claimed)) ∈ tr :=
    mem_exchangesOf.mp (by rw [heq]; simp)
  have hunbooked := unbooked_run (fun _ _ _ hok ↦ hok) hw h
  rw [totalUsage_of_unbooked hunbooked.partialUsage hx]
  exact ((hunbooked.superseded hclaim hx).2 hsuperseded).2

/-- What the run of a superseded attempt has spent is billed if and only if it has spent
nothing. -/
theorem superseded_billed_iff {w : World} {tr : Trace} {q : State} (hw : w.store.Unbilled)
    (h : Run system MintStep (Pool.init w) tr q) {i : ℕ} {m : MockAgentRunner}
    {claimed : ClaimedResponse} {us : List Usage} (hmetered : Metered tr q i m claimed us)
    {x : ResponseRecord} (hx : q.world.store.record claimed.record.responseId = some x)
    (hsuperseded : x.attempt ≠ claimed.record.attempt) :
    (Usage.total us).Within (q.world.store.inner.totalUsage claimed.record.responseId) ↔
      ∀ u ∈ us, u = {} := by
  rw [totalUsage_of_superseded hw h hmetered hx hsuperseded, Usage.within_zero,
    Usage.total_eq_zero]

/-! ## A cancelled run that was not for free -/

namespace Sample

/-- A mock agent whose every completion costs tokens. -/
def costly : MockAgentRunner where
  schedule round _ := .ret <| .ok <| if round = 0 then
      ⟨[.functionCall "call-1" "calculate" "6 * 7" none none], ⟨7, 3⟩, .toolCalls⟩
    else ⟨[.message .assistant [.outputText "42"] none none], ⟨9, 4⟩, .stop⟩
  callTool _ _ _ _ := .ok "42"
  guard _ _ := .ok ()

def costlyRuntime : AgentRuntime := { runner := costly.run }

theorem costly_first {task : AgentTask}
    (h : (MockAgentRunner.request task task.items).isOk = true) :
    costly.completion task { conversation := task.items } =
      .ret (.ok ⟨[.functionCall "call-1" "calculate" "6 * 7" none none], ⟨7, 3⟩, .toolCalls⟩) := by
  have hvalid : validateOutcome costly.guard costly.limits
      ⟨[.functionCall "call-1" "calculate" "6 * 7" none none], ⟨7, 3⟩, .toolCalls⟩ = .ok () := by
    decide +kernel
  have husable : MockAgentRunner.unusable task { conversation := task.items }
      ⟨[.functionCall "call-1" "calculate" "6 * 7" none none], ⟨7, 3⟩, .toolCalls⟩ = false := by
    simp [MockAgentRunner.unusable, MockAgentRunner.toolCalls]
  cases hrequest : MockAgentRunner.request task task.items with
  | error e => rw [hrequest] at h; cases h
  | ok request =>
      have hrace : race (costly.schedulePolls 0) 0 (costly.schedule 0 request) =
          .ret (some (.ok ⟨[.functionCall "call-1" "calculate" "6 * 7" none none], ⟨7, 3⟩,
            .toolCalls⟩)) := rfl
      simp only [MockAgentRunner.completion, hrequest, hrace, ret_bind, hvalid, husable]
      rfl

/-- The response a process claimed first of all, at the time it read. -/
def claiming : Exchanges → Option ClaimedResponse
  | ⟨.nowMs, now⟩ :: ⟨.ledger (.claim agent' now' ttl), .ok (some claimed)⟩ :: _ =>
    if agent' = agent ∧ now' = now ∧ ttl = costlyRuntime.execTtlMs then some claimed else none
  | _ => none

theorem serving_of_claiming {xs : Exchanges} {claimed : ClaimedResponse}
    (h : claiming xs = some claimed) : ∃ ys, costlyRuntime.Serving agent claimed ys xs := by
  unfold claiming at h
  split at h
  · split_ifs at h with heq
    obtain ⟨rfl, rfl, rfl⟩ := heq
    obtain rfl := Option.some.inj h
    exact ⟨_, _, rfl⟩
  · cases h

/-- Whether process 1 has served a turn of its own and returned, and the turn was taken from it. -/
def superseding (tr : Trace) (q : State) : Bool :=
  match q.jobAt 1, claiming (exchangesOf 1 tr) with
  | some (.execute ..), some claimed =>
    q.returned 1 && decide (claimed.record.anchor = .root) &&
      (MockAgentRunner.request (costlyRuntime.task claimed {})
        (costlyRuntime.task claimed {}).items).isOk &&
      (q.world.store.record claimed.record.responseId).any fun x ↦
        decide (x.attempt ≠ claimed.record.attempt)
  | _, _ => false

/-- A root turn is executed, and cancelled while its first tool call runs. -/
def interrupted : List (Action Job) :=
  .start (.create cfg 4 tenant rootSpec none ⟨1⟩) :: steps 0 3 ++
    .start (.execute costlyRuntime 4 agent) :: steps 1 3 ++
    .start (.cancel cfg 4 tenant (id 1)) :: steps 2 2 ++ steps 1 1

theorem world_unbilled : world.store.Unbilled := ⟨world_unfiled, rfl⟩

/-- The run of the interrupted turn has counted tokens. -/
theorem interrupted_metered : ∃ tr q claimed us x, Run system MintStep (Pool.init world) tr q ∧
    Metered tr q 1 costly claimed us ∧ ⟨7, 3⟩ ∈ us ∧
      q.world.store.record claimed.record.responseId = some x ∧
      x.attempt ≠ claimed.record.attempt := by
  let good : Job → Prop := fun j ↦ ∀ rt rounds agent', j = .execute rt rounds agent' →
    rt = costlyRuntime ∧ agent' = agent
  obtain ⟨tr, q, h, htest⟩ := @Run.exists_of_schedule_jobs _ _ _ _
    (fun tr q e ↦ MintStep tr q e ∧ ∀ j, e = .start j → good j) system world good
    (fun tr q e ↦ decide (MintStep tr q e)) superseding
    (fun tr q e _ hstart he ↦ ⟨of_decide_eq_true he, hstart⟩) interrupted
    (fun j hj ↦ by
      simp only [interrupted, steps, List.cons_append, List.mem_cons, List.mem_append,
        List.mem_replicate, Action.start.injEq, reduceCtorEq, and_false, or_false,
        false_or] at hj
      rcases hj with rfl | rfl | rfl
      · nofun
      · intro rt rounds agent' heq
        obtain ⟨rfl, -, rfl⟩ := Job.execute.inj heq
        exact ⟨rfl, rfl⟩
      · nofun)
    (by decide +kernel)
  unfold superseding at htest
  split at htest
  · next rt rounds agent' claimed hj hclaiming =>
      simp only [Bool.and_eq_true, decide_eq_true_eq] at htest
      obtain ⟨⟨⟨hdone, hroot⟩, hrequest⟩, hany⟩ := htest
      obtain ⟨x, hx, hsuperseded⟩ := (Option.any_eq_true _ _).mp hany
      obtain ⟨rfl, rfl⟩ := h.good_of_jobAt (fun tr q j hok ↦ hok.2 j rfl) hj _ _ _ rfl
      obtain ⟨ys, hserving⟩ := serving_of_claiming hclaiming
      have hresolve : costlyRuntime.resolveSnapshot rounds claimed.record = .ret (.ok {}) := by
        rw [AgentRuntime.resolveSnapshot, hroot]
        rfl
      rcases metered_of_returned h hdone hj rfl hserving with ⟨us, hmetered⟩ | ⟨e, zs, herror⟩
      · refine ⟨tr, q, claimed, us, x, h.mono fun _ _ _ hok ↦ hok.1, hmetered, ?_, hx,
          of_decide_eq_true hsuperseded⟩
        obtain ⟨rt', rounds', _, _, zs, _, _, snapshot, _, _, hj', -, -, hread, hpath⟩ := hmetered
        obtain ⟨rfl, rfl, -⟩ := Job.execute.inj (Option.some.inj (hj'.symm.trans hj))
        rw [hresolve] at hread
        obtain rfl := Except.ok.inj (path_ret.mp hread).2
        obtain ⟨xs, hpath⟩ := path_of_handleWith hpath
        exact MockAgentRunner.counted_first (costly_first hrequest) hpath
      · rw [hresolve] at herror
        cases (path_ret.mp herror).2
  · cases htest

end Sample

/-- Seven and three tokens are spent, the turn is cancelled, and nothing is billed. -/
theorem superseded_billed_iff_cancelled : ∃ tr q claimed us,
    Run system MintStep (Pool.init Sample.world) tr q ∧ Metered tr q 1 Sample.costly claimed us ∧
      ¬ (Usage.total us).Within
        (q.world.store.inner.totalUsage claimed.record.responseId) := by
  obtain ⟨tr, q, claimed, us, x, h, hmetered, hmem, hx, hsuperseded⟩ := Sample.interrupted_metered
  refine ⟨tr, q, claimed, us, h, hmetered, fun hbilled ↦ ?_⟩
  cases (superseded_billed_iff Sample.world_unbilled h hmetered hx hsuperseded).mp hbilled _ hmem

/-- The tokens of an aborted attempt are not billed. -/
theorem aborted_unbilled : ¬ ∀ (w : World) (tr : Trace) (q : State), w.store.Unbilled →
    Run system MintStep (Pool.init w) tr q → ∀ i m claimed us x, Metered tr q i m claimed us →
      q.world.store.record claimed.record.responseId = some x →
      x.attempt ≠ claimed.record.attempt →
        (Usage.total us).Within (q.world.store.inner.totalUsage claimed.record.responseId) := by
  intro hclaim
  obtain ⟨tr, q, claimed, us, x, h, hmetered, hmem, hx, hsuperseded⟩ := Sample.interrupted_metered
  have hbilled := hclaim _ tr q Sample.world_unbilled h 1 _ claimed us x hmetered hx hsuperseded
  rw [totalUsage_of_superseded Sample.world_unbilled h hmetered hx hsuperseded,
    Usage.within_zero, Usage.total_eq_zero] at hbilled
  cases hbilled _ hmem

end NovaChat
