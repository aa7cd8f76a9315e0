import NovaChat.Interact.Guard
import NovaChat.Turn.Endings
import NovaChat.Turn.Provenance

/-!
# Who makes which call

A table of the calls each job may make.  What no program of a kind ever calls is read off here once,
so that a statement about a call needs to look only at the jobs that make it.
-/

namespace NovaChat

open Interact Prog

/-- A terminal event carries the object of its response, and no other event carries output. -/
def AppendEvent.Enveloped (event : AppendEvent) : Prop :=
  match event.body with
  | .response object => event.kind.isTerminal = false → object.output = []
  | _ => event.kind.isTerminal = false

/-- What a job may call besides reading and moving the marker of a turn. -/
def Job.Own : Job → Call → Prop
  | .create cfg _ tenant spec _ uuid, .ledger (.create record _ _) =>
    record.responseId = ⟨cfg.nodeTag, uuid⟩ ∧ record.tenantId = tenant ∧ record.spec = spec
  | .create .., .eventLog (.append event) => event.kind = .created ∧ event.Enveloped
  | .execute .., .ledger (.claim ..) | .execute .., .ledger (.complete ..)
  | .execute .., .ledger (.checkAttempt ..) | .execute .., .conversations (.appendTurn ..)
  | .execute .., .conversations (.advance ..) | .execute .., .eventLog (.close ..) => True
  | .execute .., .eventLog (.append event) => event.kind ≠ .created ∧ event.Enveloped
  | .heartbeat agent, .ledger (.heartbeat agent' _) => agent' = agent
  | .cancel .., .ledger (.cancel ..) | .cancel .., .conversations (.appendTurn ..)
  | .cancel .., .eventLog (.close ..) => True
  | .cancel .., .eventLog (.append event) => event.kind = .failed ∧ event.Enveloped
  | .tick .., .ledger (.reap ..) | .tick .., .conversations (.appendTurn ..)
  | .tick .., .eventLog (.close ..) | .tick .., .eventLog (.sweepExpired _) => True
  | .tick .., .eventLog (.append event) => event.kind = .failed ∧ event.Enveloped
  | .mode c, .mode c' => c' = c
  | _, _ => False

/-- The calls a job may make. -/
def Job.Makes (j : Job) (c : Call) : Prop :=
  c.Locking ∨ j.Own c ∨ ¬ j.OfTurn ∧ c.Beside

section Makes

variable {j : Job} {c : Call}

theorem makes_of_reads (hc : c.Reads) : j.Makes c := Or.inl hc.locking

theorem makes_of_locking (hc : c.Locking) : j.Makes c := Or.inl hc

theorem makes_own (hc : j.Own c) : j.Makes c := Or.inr (Or.inl hc)

theorem makes_of_archiving (hj : ∀ tenant c id commit now,
    j.Own (.conversations (.appendTurn tenant c id commit now)))
    (hc : c.Archiving) : j.Makes c := by
  rcases hc with hc | ⟨tenant, c, id, commit, now, rfl⟩
  · exact makes_of_reads hc
  · exact makes_own (hj ..)

end Makes

theorem makes_create (cfg : Config) (rounds : ℕ) (tenant : TenantId) (spec : TurnSpec)
    (key : Option IdempotencyKey) (uuid : Uuid) :
    (ResponsesService.create cfg rounds tenant spec key uuid).OnlyCalls
      (Job.create cfg rounds tenant spec key uuid).Makes := by
  have hrelease : ∀ (outcome : Except ServiceError CreateOutcome) (id : ResponseId),
      (ResponsesService.releaseAfterFailedAdmission tenant spec.anchor.conversationId id >>=
        fun _ ↦ (.ret outcome : Service _)).OnlyCalls
          (Job.create cfg rounds tenant spec key uuid).Makes := fun outcome id ↦
    ((locking_release tenant _ id).mono fun _ ↦ makes_of_locking).bind fun _ ↦ trivial
  refine ⟨makes_of_reads trivial, fun now ↦ ((reads_resolveContext cfg rounds tenant
    spec.anchor).mono fun _ ↦ makes_of_reads).bind fun resolved ↦ ?_⟩
  rcases resolved with e | resolved
  · trivial
  refine ((locking_acquireFor tenant _ _).mono fun _ ↦ makes_of_locking).bind fun locked ↦ ?_
  rcases locked with e | ⟨⟩
  · trivial
  refine ⟨makes_own ⟨rfl, rfl, rfl⟩, fun r ↦ ?_⟩
  rcases r with e | (x | x | _ | _)
  · exact hrelease _ _
  · refine ⟨makes_own ⟨rfl, fun _ ↦ rfl⟩, fun r ↦ ?_⟩
    rcases r with e | seq
    · exact hrelease _ _
    · trivial
  · exact hrelease _ _
  · exact hrelease _ _
  · exact hrelease _ _

section Execute

variable {rt : AgentRuntime} {rounds : ℕ} {agent : AgentId} {record : ResponseRecord} {now : ℕ}

/-- Every appended event is enveloped. -/
def Call.Enveloping : Call → Prop
  | .eventLog (.append event) => event.Enveloped
  | _ => True

theorem Call.Reads.enveloping {c : Call} (hc : c.Reads) : c.Enveloping := by
  rcases c with _ | c | c | c | c | c <;> try trivial
  cases c <;> first | exact hc.elim | trivial

theorem enveloping_attempt (rt : AgentRuntime) (rounds : ℕ) (claimed : ClaimedResponse) :
    (rt.attempt rounds claimed).OnlyCalls Call.Enveloping := by
  refine ⟨fun _ ↦ rfl, fun _ ↦ ?_⟩
  refine ((reads_resolveSnapshot rt rounds claimed.record).mono fun c ↦
    Call.Reads.enveloping).bind fun resolved ↦ ?_
  rcases resolved with e | snapshot
  · trivial
  refine OnlyCalls.bind (OnlyCalls.handleWith (fun c s ↦ ?_) _ _) fun result ↦ ?_
  · have hpush : ∀ (s : EventSink) (event : AppendEvent), event.Enveloped →
        (s.push event).OnlyCalls Call.Enveloping := by
      intro s event hevent
      unfold EventSink.push
      split
      · trivial
      · refine ⟨hevent, fun r ↦ ?_⟩
        rcases r with e | seq
        · cases e <;> trivial
        · trivial
    cases c with
    | cancelled => exact ⟨trivial, fun _ ↦ trivial⟩
    | _ => exact hpush _ _ rfl
  · rcases result with ⟨e | outcome, sink⟩
    · cases e <;> trivial
    · show OnlyCalls _ (ite _ _ _)
      split <;> trivial

theorem makes_of_reports {c : Call} (hc : c.Reports ∧ c.Enveloping) :
    (Job.execute rt rounds agent).Makes c := by
  obtain ⟨hc, henveloped⟩ := hc
  unfold Call.Reports at hc
  split at hc
  · exact makes_own ⟨hc.1, henveloped⟩
  · exact makes_own trivial
  · exact makes_of_reads hc

theorem makes_of_concludes {c : Call} {commit : TurnCommit}
    (hc : c.Concludes record now commit) : (Job.execute rt rounds agent).Makes c := by
  cases hc with
  | transit => exact makes_own trivial
  | archive => exact makes_own trivial
  | settle h =>
      cases h with
      | advance => exact makes_own trivial
      | release => exact makes_of_locking trivial
  | consult => exact makes_of_reads trivial
  | terminal hkind =>
      refine makes_own ⟨?_, fun hopen ↦ absurd (hkind.symm.trans hopen) nofun⟩
      rintro rfl
      cases hkind
  | close => exact makes_own trivial

/-- An execution is guarded by what comes before its claim, and by what guards the serving of
whatever it has claimed. -/
theorem guarded_execute {P : List (Exchange Call Call.Reply) → Call → Prop} {rt : AgentRuntime}
    {rounds : ℕ} {agent : AgentId} (hnow : P [] .nowMs)
    (hclaim : ∀ now, P [⟨.nowMs, now⟩] (.ledger (.claim agent now rt.execTtlMs)))
    (hserve : ∀ now claimed, (rt.serve rounds claimed now).Guarded P
      [⟨.nowMs, now⟩, ⟨.ledger (.claim agent now rt.execTtlMs), .ok (some claimed)⟩]) :
    (Job.execute rt rounds agent).prog.Guarded P [] := by
  refine ⟨hnow, fun now ↦ ?_⟩
  show Prog.Guarded _ _ (rt.runOnce rounds agent now >>= fun _ ↦ .ret ())
  refine Prog.Guarded.bind ⟨hclaim now, fun r ↦ ?_⟩ fun _ _ _ ↦ trivial
  rcases r with e | (_ | claimed)
  · trivial
  · trivial
  exact hserve now claimed

theorem makes_execute (rt : AgentRuntime) (rounds : ℕ) (agent : AgentId) (now : ℕ) :
    (rt.runOnce rounds agent now).OnlyCalls (Job.execute rt rounds agent).Makes := by
  refine ⟨makes_own trivial, fun r ↦ ?_⟩
  rcases r with e | (_ | claimed)
  · trivial
  · trivial
  show OnlyCalls _ (rt.serve rounds claimed now)
  rw [AgentRuntime.serve_eq]
  exact (((reports_attempt rt rounds claimed).and (enveloping_attempt rt rounds claimed)).mono
    fun _ ↦ makes_of_reports).bind fun verdict ↦ (concludes_conclude claimed verdict).mono
      fun _ hc ↦ makes_of_concludes hc.choose_spec.2

end Execute

theorem makes_cancel (cfg : Config) (rounds : ℕ) (tenant : TenantId) (id : ResponseId) :
    (ResponsesService.cancel cfg rounds tenant id).OnlyCalls
      (Job.cancel cfg rounds tenant id).Makes := by
  have harchiving : ∀ c : Call, c.Archiving → (Job.cancel cfg rounds tenant id).Makes c :=
    fun _ ↦ makes_of_archiving fun _ _ _ _ _ ↦ trivial
  refine ⟨makes_of_reads trivial, fun now ↦ ⟨makes_own trivial, fun r ↦ ?_⟩⟩
  rcases r with e | ⟨⟩
  · trivial
  refine ⟨makes_of_reads trivial, fun reply ↦ ?_⟩
  refine ((archiving_archiveCancelled ..).mono harchiving).bind fun _ ↦ ?_
  refine ((locking_releaseCancelled ..).mono fun _ ↦ makes_of_locking).bind fun _ ↦ ?_
  exact ⟨makes_own ⟨rfl, nofun⟩, fun _ ↦ ⟨makes_own trivial, fun _ ↦ trivial⟩⟩

theorem makes_settleAll (cfg : Config) (rounds now : ℕ) (claims : List AbortedClaim) :
    (settleAll cfg rounds now claims).OnlyCalls (Job.tick cfg rounds).Makes := by
  have harchiving : ∀ c : Call, c.Archiving → (Job.tick cfg rounds).Makes c :=
    fun _ ↦ makes_of_archiving fun _ _ _ _ _ ↦ trivial
  induction claims with
  | nil => trivial
  | cons claim claims ih =>
      refine OnlyCalls.bind ⟨makes_own ⟨rfl, nofun⟩, fun _ ↦ ⟨makes_own trivial, fun _ ↦ ?_⟩⟩
        fun _ ↦ ih
      have hrelease : ∀ c, (Conversations.releaseActive claim.tenantId c claim.responseId .failed
          now >>= fun _ ↦ (.ret () : Service Unit)).OnlyCalls (Job.tick cfg rounds).Makes :=
        fun c ↦ ⟨makes_of_locking trivial, fun _ ↦ trivial⟩
      cases claim.conversationId with
      | none => trivial
      | some c =>
          dsimp only
          split
          · exact ((archiving_archiveReplayed ..).mono harchiving).bind fun _ ↦ hrelease c
          · exact hrelease c

theorem makes_tick (cfg : Config) (rounds : ℕ) :
    (tick cfg rounds).OnlyCalls (Job.tick cfg rounds).Makes := by
  refine ⟨makes_of_reads trivial, fun now ↦ ⟨makes_own trivial, fun r ↦ ?_⟩⟩
  rcases r with e | aborted
  · trivial
  · exact (makes_settleAll ..).bind fun _ ↦ ⟨makes_own trivial, fun _ ↦ trivial⟩

/-- Every job makes only calls of the table. -/
theorem makes_job (j : Job) : j.prog.OnlyCalls j.Makes := by
  by_cases hj : j.OfTurn
  · cases j with
    | create cfg rounds tenant spec key uuid => exact (makes_create ..).bind fun _ ↦ trivial
    | execute rt rounds agent =>
        exact ⟨makes_of_reads trivial, fun now ↦ (makes_execute ..).bind fun _ ↦ trivial⟩
    | heartbeat agent =>
        exact ⟨makes_of_reads trivial, fun _ ↦ ⟨makes_own rfl, fun _ ↦ trivial⟩⟩
    | cancel cfg rounds tenant id => exact (makes_cancel ..).bind fun _ ↦ trivial
    | tick cfg rounds => exact makes_tick cfg rounds
    | mode c => exact ⟨makes_own rfl, fun _ ↦ trivial⟩
    | _ => exact hj.elim
  · exact (beside_job hj).mono fun c hc ↦ Or.inr (Or.inr ⟨hj, hc⟩)

theorem makes_of_call {ok : Trace → State → Event Call Call.Reply Job → Prop} {w : World}
    {tr : Trace} {q : State} (h : Run system ok (Pool.init w) tr q) {i : ℕ} {c : Call}
    {reply : c.Reply} (hmem : .call i c reply ∈ tr) : ∃ j, q.jobAt i = some j ∧ j.Makes c := by
  obtain ⟨tr₁, tr₂, heq⟩ := List.append_of_mem hmem
  exact h.guarded heq fun j ↦ .of_onlyCalls ((makes_job j).mono fun c hc _ ↦ hc)

/-! ## Claims -/

/-- An execution whose agent has claimed a response, and has exchanged `ys` since. -/
def AgentRuntime.Serving (rt : AgentRuntime) (agent : AgentId) (claimed : ClaimedResponse)
    (ys xs : Exchanges) : Prop :=
  ∃ now, xs = ⟨.nowMs, now⟩ ::
    ⟨.ledger (.claim agent now rt.execTtlMs), .ok (some claimed)⟩ :: ys

theorem filed_of_serving {ok : Trace → State → Event Call Call.Reply Job → Prop}
    (hok : ∀ tr q e, ok tr q e → MintStep tr q e) {w : World} {tr : Trace} {q : State}
    (hw : w.store.Unfiled) (h : Run system ok (Pool.init w) tr q) {i : ℕ} {rt : AgentRuntime}
    {agent : AgentId} {claimed : ClaimedResponse} {ys : Exchanges}
    (hserving : rt.Serving agent claimed ys (exchangesOf i tr)) :
    claimed.record.origin ∈ filings tr := by
  obtain ⟨now, heq⟩ := hserving
  have hclaim : Event.call i (.ledger (.claim agent now rt.execTtlMs)) (.ok (some claimed)) ∈ tr :=
    mem_exchangesOf.mp (by rw [heq]; simp)
  exact (provenance_run hok hw h).1.told hclaim _ (List.mem_singleton_self _)

/-! ## Creates -/

/-- No two processes mint the same id. -/
theorem minted_once {ok : Trace → State → Event Call Call.Reply Job → Prop}
    (hok : ∀ tr q e, ok tr q e → MintStep tr q e) {w : World} {tr : Trace} {q : State}
    (h : Run system ok (Pool.init w) tr q) :
    (∀ i j r, q.jobAt i = some j → j.mints = some r → r ∈ minted tr) ∧
      ∀ i i' j j' r, q.jobAt i = some j → q.jobAt i' = some j' → j.mints = some r →
        j'.mints = some r → i = i' := by
  induction h with
  | nil => exact ⟨fun i j r h ↦ by simp [Pool.jobAt, Pool.init] at h,
      fun i i' j j' r h ↦ by simp [Pool.jobAt, Pool.init] at h⟩
  | @start tr q j₀ _ hstep ih =>
      obtain ⟨hmem, honce⟩ := ih
      have hcases : ∀ i j, (q.start system j₀).jobAt i = some j →
          q.jobAt i = some j ∨ i = q.procs.length ∧ j = j₀ := by
        intro i j hj
        rcases Nat.lt_or_ge i q.procs.length with hi | hi
        · simp only [Pool.jobAt, Pool.start, List.getElem?_append_left hi] at hj
          exact Or.inl hj
        · simp only [Pool.jobAt, Pool.start, List.getElem?_append_right hi] at hj
          obtain ⟨x, hx, rfl⟩ := Option.map_eq_some_iff.mp hj
          have hlt := (List.getElem?_eq_some_iff.mp hx).1
          obtain rfl := List.mem_singleton.mp (List.mem_of_getElem? hx)
          exact Or.inr ⟨by simp at hlt; omega, rfl⟩
      have hfresh : ∀ i j r, q.jobAt i = some j → j.mints = some r → j₀.mints ≠ some r :=
        fun i j r hj hr hr₀ ↦ hok _ _ _ hstep r hr₀ (hmem i j r hj hr)
      refine ⟨fun i j r hj hr ↦ ?_, fun i i' j j' r hj hj' hr hr' ↦ ?_⟩
      · rw [minted_start]
        rcases hcases i j hj with hold | ⟨-, rfl⟩
        · exact List.mem_append_left _ (hmem i j r hold hr)
        · simp [hr]
      · rcases hcases i j hj with hold | ⟨hi, rfl⟩ <;>
          rcases hcases i' j' hj' with hold' | ⟨hi', rfl⟩
        · exact honce i i' j j' r hold hold' hr hr'
        · exact absurd hr' (hfresh i j r hold hr)
        · exact absurd hr (hfresh i' j' r hold' hr')
        · rw [hi, hi']
  | @turn tr q i₀ j₀ c k _ hi _ ih =>
      obtain ⟨hmem, honce⟩ := ih
      refine ⟨fun i j r hj hr ↦ ?_, fun i i' j j' r hj hj' hr hr' ↦ ?_⟩
      · rw [Pool.jobAt_turn hi] at hj
        rw [minted_call]
        exact hmem i j r hj hr
      · rw [Pool.jobAt_turn hi] at hj hj'
        exact honce i i' j j' r hj hj' hr hr'

/-- What was filed was filed by the create that minted its id, with the turn it was asked for. -/
theorem filed_by {ok : Trace → State → Event Call Call.Reply Job → Prop} {w : World} {tr : Trace}
    {q : State} (h : Run system ok (Pool.init w) tr q) {o : Origin} (ho : o ∈ filings tr) :
    ∃ i cfg rounds tenant spec key uuid record key' now x,
      q.jobAt i = some (.create cfg rounds tenant spec key uuid) ∧
      .call i (.ledger (.create record key' now)) (.ok (.accepted x)) ∈ tr ∧
      record.spec = spec ∧ record.tenantId = tenant ∧
      o = ⟨⟨cfg.nodeTag, uuid⟩, tenant,
        ⟨spec.store, spec.anchor.conversationId, spec.inputItems⟩⟩ := by
  obtain ⟨e, he, hfiling⟩ := List.mem_filterMap.mp ho
  unfold filing at hfiling
  split at hfiling
  · next i record key now x =>
      obtain ⟨tr₁, tr₂, heq⟩ := List.append_of_mem he
      obtain ⟨q₁, -, -, -, hcall⟩ := h.split heq
      obtain ⟨-, hreply⟩ := hcall i _ _ rfl
      have hx : x = { record with integrity := x.integrity } := by
        rcases exec_create record key now q₁.world with ⟨hnot, -⟩ | ⟨y, hy, hsign, -⟩
        · exact absurd hreply.symm (hnot x)
        · obtain rfl : x = y := by simpa using hreply.trans hy
          exact MemResponseLedger.sign_spec hsign
      obtain ⟨j, hj, hmakes⟩ := makes_of_call h he
      rcases hmakes with hlocking | hown | ⟨-, hbeside⟩
      · exact hlocking.elim
      · cases j with
        | create cfg rounds tenant spec key' uuid =>
            obtain ⟨hid, htenant, hspec⟩ := hown
            refine ⟨i, cfg, rounds, tenant, spec, key', uuid, record, key, now, x, hj, he, hspec,
              htenant, ?_⟩
            rw [← Option.some.inj hfiling, hx]
            simp [ResponseRecord.origin, ResponseRecord.turnInfo, ResponseRecord.conversationId,
              hid, htenant, hspec]
        | _ => exact hown.elim
      · exact hbeside.elim
  · cases hfiling

end NovaChat
