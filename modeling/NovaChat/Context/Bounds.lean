import NovaChat.Turn.Calls
import NovaChat.Turn.Snapshots

/-!
# The bounds of an inherited context

A create checks the snapshot its turn would inherit, then waits for the turn lock; the execution
reads the snapshot again and checks nothing.  What is handed to the runner is therefore what was
checked only if no turn was archived on the conversation between the two reads.
-/

namespace NovaChat

open Interact Prog MemConversationStore

/-! ## What is checked, and what is handed over -/

/-- A context within the bounds. -/
structure ResolvedContext.Within (resolved : ResolvedContext) (limits : ChainLimits) : Prop where
  turns : resolved.turns < limits.maxDepth
  items : resolved.itemCount ≤ limits.maxItems
  bytes : resolved.bytes ≤ limits.maxBytes

theorem checkBounds_eq_ok {limits : ChainLimits} {resolved resolved' : ResolvedContext} :
    ResponsesService.checkBounds limits resolved = .ok resolved' ↔
      resolved' = resolved ∧ resolved.Within limits := by
  unfold ResponsesService.checkBounds
  constructor
  · intro h
    split_ifs at h with hdepth hitems hbytes
    exact ⟨(Except.ok.inj h).symm, ⟨by omega, by omega, by omega⟩⟩
  · rintro ⟨rfl, hturns, hitems, hbytes⟩
    rw [if_neg (by omega), if_neg (by omega), if_neg (by omega)]

/-- Process `i` has handed its runner `snapshot`, as the context of the response it claimed. -/
def Handed (tr : Trace) (q : State) (i : ℕ) (claimed : ClaimedResponse)
    (snapshot : ResolvedContext) : Prop :=
  ∃ rt rounds agent announced ys zs, q.jobAt i = some (.execute rt rounds agent) ∧
    rt.Serving agent claimed (announced :: (ys ++ zs)) (exchangesOf i tr) ∧
      Path (rt.resolveSnapshot rounds claimed.record) ys (.ok snapshot)

/-- The context of a conversation is one read of its snapshot. -/
theorem path_resolveSnapshot {rt : AgentRuntime} {rounds : ℕ} {record : ResponseRecord}
    {c : ConversationId} {snapshot : ResolvedContext} {ys : Exchanges}
    (hc : record.conversationId = some c)
    (h : Path (rt.resolveSnapshot rounds record) ys (.ok snapshot)) :
    ys = [⟨.conversations (.readSnapshot record.tenantId c), .ok snapshot⟩] := by
  have hanchor : record.anchor = .conversation c := ContextAnchor.conversationId_eq_some.mp hc
  rw [AgentRuntime.resolveSnapshot, hanchor] at h
  simp only [AgentRuntime.readSnapshot] at h
  split at h
  · simp only [Conversations.readSnapshot, perform_bind, path_call] at h
    obtain ⟨reply, zs, rfl, hread⟩ := h
    rcases reply with e | resolved
    · cases (path_ret.mp hread).2
    · obtain ⟨rfl, hret⟩ := path_ret.mp hread
      rw [Except.ok.inj hret]
  · cases (path_ret.mp h).2

/-- What a job has exchanged when it files a response of a conversation: it read the snapshot, and
found it within its bounds. -/
def Job.Checks (j : Job) (xs : Exchanges) : Call → Prop
  | .ledger (.create record _ _) => ∀ c, record.conversationId = some c →
    ∃ cfg rounds tenant spec key uuid resolved pre post,
      j = .create cfg rounds tenant spec key uuid ∧ resolved.Within cfg.chain ∧
        xs = pre ++ ⟨.conversations (.readSnapshot tenant c), .ok resolved⟩ :: post
  | _ => True

/-- Calls that file nothing. -/
def Call.Unfiling : Call → Prop
  | .ledger (.create ..) => False
  | _ => True

theorem Call.Unfiling.checks {c : Call} (hc : c.Unfiling) (j : Job) (xs : Exchanges) :
    j.Checks xs c := by
  rcases c with _ | c | c | c | c | c <;> try trivial
  cases c <;> first | exact hc.elim | trivial

theorem unfiling_of_locking {c : Call} (hc : c.Locking) : c.Unfiling := by
  rcases c with _ | c | c | c | c | c <;> try trivial
  cases c <;> first | exact hc.elim | trivial

theorem unfiling_of_makes {j : Job} {c : Call}
    (hj : ∀ cfg rounds tenant spec key uuid, j ≠ .create cfg rounds tenant spec key uuid)
    (hc : j.Makes c) : c.Unfiling := by
  rcases c with _ | c | c | c | c | c <;> try trivial
  cases c <;> try trivial
  rcases hc with hc | hc | ⟨-, hc⟩
  · exact hc.elim
  · cases j <;> first | exact hc.elim | exact absurd rfl (hj _ _ _ _ _ _)
  · exact hc.elim

theorem checks_create (cfg : Config) (rounds : ℕ) (tenant : TenantId) (spec : TurnSpec)
    (key : Option IdempotencyKey) (uuid : Uuid) :
    (Job.create cfg rounds tenant spec key uuid).prog.Guarded
      (Job.create cfg rounds tenant spec key uuid).Checks [] := by
  have hfree : ∀ {α : Type} {p : Service α} {xs : Exchanges} {P : Call → Prop},
      p.OnlyCalls P → (∀ c : Call, P c → c.Unfiling) →
        p.Guarded (Job.create cfg rounds tenant spec key uuid).Checks xs :=
    fun h hP ↦ .of_onlyCalls (h.mono fun c hc xs ↦ (hP c hc).checks _ xs)
  have hreads : ∀ c : Call, c.Reads → c.Unfiling := fun c hc ↦ unfiling_of_locking hc.locking
  have hrelease : ∀ (outcome : Except ServiceError CreateOutcome) (id : ResponseId) xs,
      (ResponsesService.releaseAfterFailedAdmission tenant spec.anchor.conversationId id >>=
        fun _ ↦ (.ret outcome : Service _)).Guarded
          (Job.create cfg rounds tenant spec key uuid).Checks xs := fun outcome id xs ↦
    (hfree (locking_release tenant _ id) fun _ ↦ unfiling_of_locking).bind fun _ _ _ ↦ trivial
  refine Prog.Guarded.bind (f := fun _ ↦ .ret ()) ?_ fun _ _ _ ↦ trivial
  refine ⟨trivial, fun now ↦ ?_⟩
  refine (hfree (reads_resolveContext cfg rounds tenant spec.anchor) hreads).bind
    fun ys resolved hpath ↦ ?_
  rcases resolved with e | resolved
  · trivial
  refine (hfree (locking_acquireFor tenant _ _) fun _ ↦ unfiling_of_locking).bind
    fun zs locked _ ↦ ?_
  rcases locked with e | ⟨⟩
  · trivial
  refine ⟨fun c hc ↦ ?_, fun r ↦ ?_⟩
  · have hanchor : spec.anchor = .conversation c := ContextAnchor.conversationId_eq_some.mp hc
    simp only [ResponsesService.resolveContext, ResponsesService.resolveAnchor, hanchor,
      ResponsesService.readSnapshot, Conversations.readSnapshot, perform_bind, call_bind,
      path_call] at hpath
    obtain ⟨reply, us, rfl, hread⟩ := hpath
    rcases reply with e | read
    · cases (path_ret.mp hread).2
    · obtain ⟨rfl, hchecked⟩ := path_ret.mp hread
      have hwithin := (checkBounds_eq_ok.mp hchecked.symm).2
      exact ⟨cfg, rounds, tenant, spec, key, uuid, read, [⟨.nowMs, now⟩], zs, rfl, hwithin, by simp⟩
  · rcases r with e | (x | x | _ | _)
    · exact hrelease _ _ _
    · refine ⟨trivial, fun r ↦ ?_⟩
      rcases r with e | seq
      · exact hrelease _ _ _
      · trivial
    · exact hrelease _ _ _
    · exact hrelease _ _ _
    · exact hrelease _ _ _

theorem checks_job (j : Job) : j.prog.Guarded j.Checks [] := by
  by_cases hj : ∃ cfg rounds tenant spec key uuid, j = .create cfg rounds tenant spec key uuid
  · obtain ⟨cfg, rounds, tenant, spec, key, uuid, rfl⟩ := hj
    exact checks_create ..
  · push Not at hj
    exact .of_onlyCalls ((makes_job j).mono fun c hc xs ↦ (unfiling_of_makes hj hc).checks j xs)

/-! ## Runs -/

/-- When an execution reads the snapshot of a conversation, no turn was archived there since the
create of its response read it. -/
def FreshRead (tr : Trace) (q : State) : Event Call Call.Reply Job → Prop
  | .call i (.conversations (.readSnapshot _ c)) _ => ∀ rt rounds agent claimed ys,
    q.jobAt i = some (.execute rt rounds agent) →
    rt.Serving agent claimed ys (exchangesOf i tr) → ∀ i₀ j tenant reply tr₁ tr₂,
      q.jobAt i₀ = some j → j.mints = some claimed.record.responseId →
      tr = tr₁ ++ .call i₀ (.conversations (.readSnapshot tenant c)) reply :: tr₂ →
        history c tr = history c tr₁
  | _ => True

def BoundStep (tr : Trace) (q : State) (e : Event Call Call.Reply Job) : Prop :=
  MintStep tr q e ∧ UnusedStep tr q e ∧ FreshRead tr q e

/-- A store without records and snapshots. -/
structure MemStore.Unwritten (s : MemStore) : Prop where
  unfiled : s.Unfiled
  snapshot : ∀ c, s.snapshot c = {}

/-- What a read of a snapshot returns is what was archived under the conversation. -/
theorem Recorded.read {tr : Trace} {s : MemStore} (h : Recorded tr s) {tenant : TenantId}
    {c : ConversationId} {resolved : ResolvedContext}
    (hread : readSnapshot s tenant c = .ok resolved) :
    resolved = ⟨(({} : Snapshot).replay (history c tr)).entries,
      (({} : Snapshot).replay (history c tr)).turnCount⟩ := by
  unfold readSnapshot at hread
  split at hread
  · cases hread
  · split at hread
    · cases hread
    · next x hx =>
        rw [← h.replayed (Or.inl (by rw [(owned_eq_some.mp hx).1]; rfl))]
        exact (Except.ok.inj hread).symm

theorem read_of_split {ok : Trace → State → Event Call Call.Reply Job → Prop}
    (hok : ∀ tr q e, ok tr q e → UnusedStep tr q e) {w : World} {tr tr₁ tr₂ : Trace} {q : State}
    (hw : w.store.Unwritten) (h : Run system ok (Pool.init w) tr q) {i : ℕ} {tenant : TenantId}
    {c : ConversationId} {resolved : ResolvedContext}
    (heq : tr = tr₁ ++ .call i (.conversations (.readSnapshot tenant c)) (.ok resolved) :: tr₂) :
    resolved = ⟨(({} : Snapshot).replay (history c tr₁)).entries,
      (({} : Snapshot).replay (history c tr₁)).turnCount⟩ := by
  obtain ⟨q₁, hrun, -, -, hcall⟩ := h.split heq
  obtain ⟨-, hreply⟩ := hcall i _ _ rfl
  exact (recorded_run hok hw.unfiled.keyed hw.snapshot hrun).read hreply.symm

/-- In every run in which executions read what their creates have checked, no context that is handed
to a runner exceeds the bounds its create was accepted under. -/
theorem handed_within {w : World} {tr : Trace} {q : State} (hw : w.store.Unwritten)
    (h : Run system BoundStep (Pool.init w) tr q) {i : ℕ} {claimed : ClaimedResponse}
    {snapshot : ResolvedContext} (hhanded : Handed tr q i claimed snapshot) {c : ConversationId}
    (hc : claimed.record.conversationId = some c) {i₀ : ℕ} {cfg : Config} {rounds : ℕ}
    {tenant : TenantId} {spec : TurnSpec} {key : Option IdempotencyKey} {uuid : Uuid}
    (hcreate : q.jobAt i₀ = some (.create cfg rounds tenant spec key uuid))
    (hid : claimed.record.responseId = ⟨cfg.nodeTag, uuid⟩) : snapshot.Within cfg.chain := by
  have hmint : ∀ tr q e, BoundStep tr q e → MintStep tr q e := fun _ _ _ hok ↦ hok.1
  have hunused : ∀ tr q e, BoundStep tr q e → UnusedStep tr q e := fun _ _ _ hok ↦ hok.2.1
  obtain ⟨rt, rounds', agent, announced, ys, zs, hjob, ⟨now, hserving⟩, hpath⟩ := hhanded
  obtain rfl := path_resolveSnapshot hc hpath
  -- The run up to the read of the execution.
  obtain ⟨trₑ, rest, heq, hbefore, -⟩ := @exchangesOf_eq_append _ _ _ _ _
    ⟨.conversations (.readSnapshot claimed.record.tenantId c), .ok snapshot⟩
    [⟨.nowMs, now⟩, ⟨.ledger (.claim agent now rt.execTtlMs), .ok (some claimed)⟩, announced] zs
    hserving
  obtain ⟨qₑ, hrunₑ, ⟨-, -, hfresh⟩, hjobs, hcall⟩ := h.split heq
  obtain ⟨⟨j, k, hi⟩, -⟩ := hcall i _ _ rfl
  have hj := Pool.jobAt_of_procs hi
  obtain rfl : j = .execute rt rounds' agent := Option.some.inj ((hjobs i j hj).symm.trans hjob)
  -- The create that filed the response is the one that minted its id, and it had checked.
  have hfiled := filed_of_serving hmint hw.unfiled hrunₑ ⟨now, hbefore⟩
  obtain ⟨i₁, cfg₁, rounds₁, tenant₁, spec₁, key₁, uuid₁, record, key', now', x, hjob₁, hmem, hspec,
    -, horigin⟩ := filed_by hrunₑ hfiled
  have hid₁ : claimed.record.responseId = ⟨cfg₁.nodeTag, uuid₁⟩ := congrArg Origin.id horigin
  have hc₁ : spec₁.anchor.conversationId = some c := by
    rw [← hc]
    exact (congrArg (fun o ↦ o.turn.conversation) horigin).symm
  obtain rfl : i₁ = i₀ := (minted_once hmint h).2 i₁ i₀ _ _ claimed.record.responseId
    (hjobs _ _ hjob₁) hcreate (congrArg some hid₁.symm) (congrArg some hid.symm)
  obtain ⟨rfl, -, -, -, -, -⟩ := Job.create.inj
    (Option.some.inj ((hjobs _ _ hjob₁).symm.trans hcreate))
  obtain ⟨trₐ, rest', hfiling⟩ := List.append_of_mem hmem
  obtain ⟨j₁, hj₁, hchecks⟩ := hrunₑ.guarded hfiling checks_job
  obtain ⟨cfg₂, rounds₂, tenant₂, spec₂, key₂, uuid₂, resolved, pre, post, rfl, hwithin, hread⟩ :=
    hchecks c (by rw [← hc₁, ← hspec]; rfl)
  obtain ⟨rfl, -, -, -, -, -⟩ := Job.create.inj (Option.some.inj (hj₁.symm.trans hjob₁))
  -- Nothing was archived between the two reads, so they returned the same.
  obtain ⟨trᵣ, rest'', hchecked, -, -⟩ := exchangesOf_eq_append hread
  have hsplit : trₑ = trᵣ ++ .call i₁ (.conversations (.readSnapshot tenant₂ c)) (.ok resolved) ::
      (rest'' ++ .call i₁ (.ledger (.create record key' now')) (.ok (.accepted x)) :: rest') := by
    rw [hfiling, hchecked]
    simp
  have hsame := hfresh rt rounds' agent claimed _ hj ⟨now, hbefore⟩ i₁ _ tenant₂ _ _ _ hjob₁
    (congrArg some hid₁.symm) hsplit
  rw [read_of_split hunused hw h heq, hsame, ← read_of_split hunused hw hrunₑ hsplit]
  exact hwithin

/-! ## A context within the bounds, and one beyond -/

/-- The response a process claimed and the snapshot it read for it. -/
def handing : Exchanges → Option (ClaimedResponse × ResolvedContext)
  | _ :: ⟨.ledger (.claim ..), .ok (some claimed)⟩ :: _ ::
      ⟨.conversations (.readSnapshot ..), .ok snapshot⟩ :: _ => some (claimed, snapshot)
  | _ => none

theorem handing_eq_some {xs : Exchanges} {claimed : ClaimedResponse}
    {snapshot : ResolvedContext} (h : handing xs = some (claimed, snapshot)) :
    ∃ clock agent now ttl announced tenant c zs,
      xs = clock :: ⟨.ledger (.claim agent now ttl), .ok (some claimed)⟩ :: announced ::
        ⟨.conversations (.readSnapshot tenant c), .ok snapshot⟩ :: zs := by
  unfold handing at h
  split at h
  · obtain ⟨rfl, rfl⟩ := Prod.mk.inj (Option.some.inj h)
    exact ⟨_, _, _, _, _, _, _, _, rfl⟩
  · cases h

/-- An execution that claimed the turn of a conversation and read a snapshot hands it over. -/
theorem handed_of_handing {ok : Trace → State → Event Call Call.Reply Job → Prop} {w : World}
    {tr : Trace} {q : State} (h : Run system ok (Pool.init w) tr q) {i : ℕ} {rt : AgentRuntime}
    {rounds : ℕ} {agent : AgentId} (hj : q.jobAt i = some (.execute rt rounds agent))
    {claimed : ClaimedResponse} {snapshot : ResolvedContext}
    (hover : handing (exchangesOf i tr) = some (claimed, snapshot)) {c : ConversationId}
    (hc : claimed.record.conversationId = some c) : Handed tr q i claimed snapshot := by
  obtain ⟨x, hx, hjob⟩ := Option.map_eq_some_iff.mp hj
  obtain ⟨clock, agent', now', ttl, announced, tenant, c', zs, heq⟩ := handing_eq_some hover
  have hsteps := h.steps.1 i x hx
  rw [hjob, heq] at hsteps
  rcases hsteps.call with ⟨hnil, -⟩ | ⟨now, ys, hcons, hclaim⟩
  · cases hnil
  obtain ⟨rfl, rfl⟩ := List.cons.inj hcons
  rcases hclaim.call with ⟨hnil, -⟩ | ⟨reply, ys, hcons, hserve⟩
  · cases hnil
  obtain ⟨hfirst, rfl⟩ := List.cons.inj hcons
  obtain ⟨hcall, hreply⟩ := Exchange.mk.inj hfirst
  obtain ⟨rfl, rfl, rfl⟩ := LedgerCall.claim.inj (Call.ledger.inj hcall)
  obtain rfl := eq_of_heq hreply
  rcases hserve.call with ⟨hnil, -⟩ | ⟨reply, ys, hcons, hresolve⟩
  · cases hnil
  obtain ⟨rfl, rfl⟩ := List.cons.inj hcons
  have hanchor : claimed.record.anchor = .conversation c :=
    ContextAnchor.conversationId_eq_some.mp hc
  have hread : rt.resolveSnapshot rounds claimed.record =
      rt.readSnapshot claimed.record.tenantId c := by
    rw [AgentRuntime.resolveSnapshot, hanchor]
  cases hconv : rt.conversations
  · simp only [hread, AgentRuntime.readSnapshot, hconv] at hresolve
    rcases hresolve.call with ⟨hnil, -⟩ | ⟨reply, ys, hcons, -⟩
    · cases hnil
    · cases (List.cons.inj hcons).1
  · simp only [hread, AgentRuntime.readSnapshot, hconv] at hresolve
    rcases hresolve.call with ⟨hnil, -⟩ | ⟨reply, ys, hcons, -⟩
    · cases hnil
    · obtain ⟨hfirst, -⟩ := List.cons.inj hcons
      obtain ⟨hcall, hreply⟩ := Exchange.mk.inj hfirst
      obtain ⟨rfl, rfl⟩ := ConversationCall.readSnapshot.inj (Call.conversations.inj hcall)
      obtain rfl := eq_of_heq hreply
      refine ⟨rt, rounds, _, _, [_], _, hj, ⟨_, heq⟩, ?_⟩
      simp only [hread, AgentRuntime.readSnapshot, hconv]
      exact .call _ _ (.ret _)

namespace Sample

theorem world_unwritten : world.store.Unwritten := ⟨world_unfiled, fun _ ↦ rfl⟩

/-- Whether process `i` has handed over the turn of the sample conversation that process `i₀` was
to create, and the context passes the test. -/
def passed (i₀ i : ℕ) (test : Config → ResolvedContext → Bool) (tr : Trace) (q : State) : Bool :=
  match q.jobAt i₀, q.jobAt i, handing (exchangesOf i tr) with
  | some (.create cfg _ _ _ _ uuid), some (.execute ..), some (claimed, snapshot) =>
    decide (claimed.record.conversationId = some talk) &&
      decide (claimed.record.responseId = ⟨cfg.nodeTag, uuid⟩) && test cfg snapshot
  | _, _, _ => false

theorem passed_eq_true {i₀ i : ℕ} {test : Config → ResolvedContext → Bool}
    {ok : Trace → State → Event Call Call.Reply Job → Prop} {tr : Trace} {q : State}
    (hrun : Run system ok (Pool.init world) tr q) (h : passed i₀ i test tr q = true) :
    ∃ claimed snapshot cfg rounds tenant spec key uuid, Handed tr q i claimed snapshot ∧
      claimed.record.conversationId = some talk ∧
      q.jobAt i₀ = some (.create cfg rounds tenant spec key uuid) ∧
      claimed.record.responseId = ⟨cfg.nodeTag, uuid⟩ ∧ test cfg snapshot = true := by
  unfold passed at h
  split at h
  · next cfg rounds tenant spec key uuid rt rounds' agent claimed snapshot hcreate hexecute hover =>
      simp only [Bool.and_eq_true, decide_eq_true_eq] at h
      obtain ⟨⟨hc, hid⟩, htest⟩ := h
      exact ⟨claimed, snapshot, cfg, rounds, tenant, spec, key, uuid,
        handed_of_handing hrun hexecute hover hc, hc, hcreate, hid, htest⟩
  · cases h

/-- The response a process claimed with its second call. -/
def claimingOf : Exchanges → Option ClaimedResponse
  | _ :: ⟨.ledger (.claim ..), .ok (some claimed)⟩ :: _ => some claimed
  | _ => none

/-- Whether the `n`th event is a read of `c` by the create that mints `r`, and a turn was archived
on `c` since. -/
def outdated (tr : Trace) (q : State) (c : ConversationId) (r : ResponseId) (n : ℕ) : Bool :=
  match tr[n]? with
  | some (.call i (.conversations (.readSnapshot _ c')) _) =>
    decide (c' = c ∧ (q.jobAt i).bind Job.mints = some r ∧ history c tr ≠ history c (tr.take n))
  | _ => false

/-- A check that no execution reads a snapshot that is not the one its create has read. -/
def freshCheck (tr : Trace) (q : State) : Event Call Call.Reply Job → Bool
  | .call i (.conversations (.readSnapshot _ c)) _ =>
    (claimingOf (exchangesOf i tr)).all fun claimed ↦
      (List.range tr.length).all fun n ↦ !outdated tr q c claimed.record.responseId n
  | _ => true

theorem freshRead_of_check {tr : Trace} {q : State} {e : Event Call Call.Reply Job}
    (h : freshCheck tr q e = true) : FreshRead tr q e := by
  cases e with
  | start j => trivial
  | call i c reply =>
      rcases c with _ | c | c | c | c | c <;> try trivial
      cases c <;> try trivial
      next tenant c =>
        rintro rt rounds agent claimed ys - ⟨now, hserving⟩ i₀ j tenant' reply' tr₁ tr₂ hj hmints
          heq
        simp only [freshCheck, hserving, claimingOf, Option.all_some, List.all_eq_true,
          List.mem_range, Bool.not_eq_true'] at h
        have hcurrent := h tr₁.length (by rw [heq]; simp)
        have hread : tr[tr₁.length]? =
            some (.call i₀ (.conversations (.readSnapshot tenant' c)) reply') := by
          rw [heq]
          simp
        have htake : tr.take tr₁.length = tr₁ := by
          rw [heq]
          simp
        have hbind : (q.jobAt i₀).bind Job.mints = some claimed.record.responseId := by
          rw [hj]
          exact hmints
        simpa [outdated, hread, htake, hbind] using hcurrent

/-- A sample service that inherits no turn at all. -/
def shallow : Config := { cfg with chain := { maxDepth := 1 } }

/-- A turn is admitted while another one runs to its end. -/
def overtaking : List (Action Job) :=
  post 1 :: steps 0 6 ++ .start (.create shallow 4 tenant spec none ⟨2⟩) :: steps 1 2 ++
    work :: steps 2 11 ++ steps 1 4 ++ work :: steps 3 4

end Sample

/-- The second turn of a conversation is handed the first one, which is within the bounds. -/
theorem handed_within_second : ∃ tr q claimed snapshot cfg rounds tenant spec key uuid,
    Run system BoundStep (Pool.init Sample.world) tr q ∧ Handed tr q 3 claimed snapshot ∧
      q.jobAt 2 = some (.create cfg rounds tenant spec key uuid) ∧ snapshot.turns = 1 ∧
        snapshot.Within cfg.chain := by
  obtain ⟨tr, q, h, htest⟩ := @Run.exists_of_schedule _ _ _ _ BoundStep system
    (Pool.init Sample.world)
    (fun tr q e ↦ decide (MintStep tr q e) && (unusedCheck tr e && Sample.freshCheck tr q e))
    (Sample.passed 2 3 fun _ snapshot ↦ decide (snapshot.turns = 1))
    (fun tr q e he ↦ by
      simp only [Bool.and_eq_true, decide_eq_true_eq] at he
      exact ⟨he.1, unusedStep_of_check he.2.1, Sample.freshRead_of_check he.2.2⟩)
    (Sample.post 1 :: Sample.steps 0 6 ++ Sample.work :: Sample.steps 1 11 ++
      Sample.post 2 :: Sample.steps 2 6 ++ Sample.work :: Sample.steps 3 4) (by decide +kernel)
  obtain ⟨claimed, snapshot, cfg, rounds, tenant, spec, key, uuid, hhanded, hc, hcreate, hid,
    hturns⟩ := Sample.passed_eq_true h htest
  exact ⟨tr, q, claimed, snapshot, cfg, rounds, tenant, spec, key, uuid, h, hhanded, hcreate,
    of_decide_eq_true hturns, handed_within Sample.world_unwritten h hhanded hc hcreate hid⟩

/-- A turn ends between the check and the lock of the next one, whose execution is handed more than
the bounds allow. -/
theorem handed_beyond : ¬ ∀ (w : World) (tr : Trace) (q : State), w.store.Unwritten →
    Run system (fun tr q e ↦ MintStep tr q e ∧ UnusedStep tr q e) (Pool.init w) tr q →
    ∀ i claimed snapshot c i₀ cfg rounds tenant spec key uuid, Handed tr q i claimed snapshot →
      claimed.record.conversationId = some c →
      q.jobAt i₀ = some (.create cfg rounds tenant spec key uuid) →
      claimed.record.responseId = ⟨cfg.nodeTag, uuid⟩ → snapshot.Within cfg.chain := by
  intro hclaim
  obtain ⟨tr, q, h, htest⟩ := @Run.exists_of_schedule _ _ _ _
    (fun tr q e ↦ MintStep tr q e ∧ UnusedStep tr q e) system (Pool.init Sample.world)
    (fun tr q e ↦ decide (MintStep tr q e) && unusedCheck tr e)
    (Sample.passed 1 3 fun cfg snapshot ↦ decide (cfg.chain.maxDepth ≤ snapshot.turns))
    (fun tr q e he ↦ by
      obtain ⟨hmint, hunused⟩ := Bool.and_eq_true_iff.mp he
      exact ⟨of_decide_eq_true hmint, unusedStep_of_check hunused⟩)
    Sample.overtaking (by decide +kernel)
  obtain ⟨claimed, snapshot, cfg, _, _, _, _, _, hhanded, hc, hcreate, hid, hdeep⟩ :=
    Sample.passed_eq_true h htest
  exact absurd (hclaim _ tr q Sample.world_unwritten h _ _ _ _ _ _ _ _ _ _ _ hhanded hc hcreate
    hid).turns (not_lt.mpr (of_decide_eq_true hdeep))

end NovaChat
