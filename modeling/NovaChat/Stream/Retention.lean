import NovaChat.Stream.Ring
import NovaChat.Turn.Calls

/-!
# How long an ended stream stays

The close of a log starts its retention window, and the sweeper empties the log when the window is
over.  An execution closes the log at the time it was started with, however long it ran; the window
covers what it should exactly when the clock has not moved in between.
-/

namespace NovaChat

open Interact Prog

/-! ## What a sweep leaves alone -/

/-- A sweep leaves the log of a response as it is. -/
def EventLogStore.Spares (l : EventLogStore) (now : ℕ) (r : ResponseId) : Prop :=
  (MemResponseEventLog.sweepExpired l now).2.logs.lookup r = l.logs.lookup r

theorem lookup_sweepExpired (l : EventLogStore) (now : ℕ) (r : ResponseId) :
    (MemResponseEventLog.sweepExpired l now).2.logs.lookup r =
      (l.logs.lookup r).bind fun log ↦ (log.sweep now).1 :=
  HashMap.lookup_filterMapVal ..

theorem EventLogStore.Spares.readAfter {l : EventLogStore} {now : ℕ} {r : ResponseId}
    (h : l.Spares now r) (after : Option ℕ) (limit : ℕ) :
    MemResponseEventLog.readAfter (MemResponseEventLog.sweepExpired l now).2 r after limit =
      MemResponseEventLog.readAfter l r after limit := by
  unfold MemResponseEventLog.readAfter
  rw [h]

namespace ResponseLog

variable {log : ResponseLog} {closed retain now : ℕ}

theorem sweep_of_lt (hclosed : log.terminalAtMs = some closed) (hretain : log.retainMs = retain)
    (hlt : now < satAdd closed retain) : log.sweep now = (some log, 0) := by
  have htomb : satAdd closed retain ≤ satAdd closed (satMul retain tombstoneFactor) := by
    unfold satAdd satMul tombstoneFactor u64Max
    omega
  have hlive : ¬ (log.tombstoneDeadline.any fun deadline ↦ decide (deadline ≤ now)) = true := by
    simp only [tombstoneDeadline, hclosed, hretain, Option.map_some, Option.any_some,
      decide_eq_true_eq]
    omega
  have hkept : ¬ (log.retentionDeadline.any fun deadline ↦ decide (deadline ≤ now)) = true := by
    simp only [retentionDeadline, hclosed, hretain, Option.map_some, Option.any_some,
      decide_eq_true_eq]
    omega
  rw [sweep, if_neg hlive, if_neg (by simp [hkept])]

theorem sweep_of_open (hopen : log.terminalAtMs = none) : log.sweep now = (some log, 0) := by
  simp [sweep, tombstoneDeadline, retentionDeadline, hopen]

theorem sweep_of_ge (hclosed : log.terminalAtMs = some closed) (hretain : log.retainMs = retain)
    (hswept : log.swept = false) (hge : satAdd closed retain ≤ now) :
    (log.sweep now).1 ≠ some log := by
  have hdue : (log.retentionDeadline.any fun deadline ↦ decide (deadline ≤ now)) = true := by
    simp [retentionDeadline, hclosed, hretain, hge]
  unfold sweep
  split_ifs with htomb hleft
  · nofun
  · intro heq
    have := congrArg ResponseLog.swept (Option.some.inj heq)
    rw [hswept] at this
    cases this
  · exact absurd hdue (by simpa [hswept] using hleft)

end ResponseLog

/-! ## When a job closes a log -/

def Call.Closes : Call → Prop
  | .eventLog (.close ..) => True
  | _ => False

/-- What an execution has exchanged when its funnel has taken the terminal transition. -/
structure Concluding (id : ResponseId) (now : ℕ) (xs : Exchanges) : Prop where
  start : ∃ ys, xs = ⟨.nowMs, now⟩ :: ys
  completed : ∃ attempt status usage,
    ⟨.ledger (.complete id attempt status usage now), .ok ()⟩ ∈ xs
  unclosed : ∀ x ∈ xs, ¬ x.call.Closes

/-- An execution closes one log, and passes on the time it was started with.  A heartbeat passes on
the time it has just read. -/
def Job.Dates : Job → Exchanges → Call → Prop
  | .execute rt _ _, xs, .eventLog (.close id now retain) =>
    retain = rt.retainAfterTerminalMs ∧ Concluding id now xs
  | .heartbeat _, xs, .ledger (.heartbeat _ now) => xs = [⟨.nowMs, now⟩]
  | _, _, _ => True

section Dates

variable {rt : AgentRuntime} {rounds : ℕ} {agent : AgentId} {id : ResponseId} {now : ℕ}
  {xs : Exchanges}

theorem Concluding.append {ys : Exchanges} (h : Concluding id now xs)
    (hys : ∀ y ∈ ys, ¬ y.call.Closes) : Concluding id now (xs ++ ys) where
  start := by
    obtain ⟨zs, rfl⟩ := h.start
    exact ⟨zs ++ ys, rfl⟩
  completed := by
    obtain ⟨attempt, status, usage, hmem⟩ := h.completed
    exact ⟨attempt, status, usage, List.mem_append_left _ hmem⟩
  unclosed x hx := by
    rcases List.mem_append.mp hx with hx | hx
    · exact h.unclosed x hx
    · exact hys x hx

theorem dates_of_unclosing {c : Call} (hc : ¬ c.Closes) :
    (Job.execute rt rounds agent).Dates xs c := by
  rcases c with _ | c | c | c | c | c <;> try trivial
  cases c <;> first | trivial | exact absurd trivial hc

theorem Concluding.bind {α β : Type} {p : Service α} {f : α → Service β}
    (h : Concluding id now xs) (hp : p.OnlyCalls fun c ↦ ¬ c.Closes)
    (hf : ∀ a ys, Concluding id now ys → (f a).Guarded (Job.execute rt rounds agent).Dates ys) :
    (p >>= f).Guarded (Job.execute rt rounds agent).Dates xs := by
  refine Prog.Guarded.bind (.of_onlyCalls (hp.mono fun c hc ys ↦ dates_of_unclosing hc))
    fun ys a hpath ↦ hf a _ (h.append fun y hy ↦ ?_)
  exact hpath.onlyCalls hp hy

theorem unclosing_of_archiving {c : Call} (hc : c.Archiving) : ¬ c.Closes := by
  rcases hc with hc | ⟨_, _, _, _, _, rfl⟩
  · rcases c with _ | c | c | c | c | c <;> try exact not_false
    cases c <;> first | exact not_false | exact hc.elim
  · exact not_false

theorem unclosing_of_reports {c : Call} (hc : c.Reports) : ¬ c.Closes := by
  rcases c with _ | c | c | c | c | c <;> try exact not_false
  cases c <;> first | exact not_false | exact hc.elim

theorem unclosing_settle {record : ResponseRecord} (status : ResponseStatus)
    (advanceTail : Bool) :
    (rt.settle record status advanceTail now).OnlyCalls fun c ↦ ¬ c.Closes :=
  (resolves_settle ..).mono fun _ hc ↦ by cases hc <;> exact not_false

theorem Concluding.closing (h : Concluding id now xs) {kind : ResponseEventKind} {done : Executed}
    {object : Except LedgerError (Option ResponseRecord) → ResponseObject} :
    (Ledger.get id >>= fun reply ↦ rt.closeStream id kind (object reply) now >>=
      fun _ ↦ (.ret done : Service Executed)).Guarded (Job.execute rt rounds agent).Dates xs := by
  refine ⟨trivial, fun r ↦ ⟨trivial, fun r' ↦ ⟨⟨rfl, ?_⟩, fun _ ↦ trivial⟩⟩⟩
  rw [List.append_assoc]
  refine h.append fun y hy ↦ ?_
  rcases List.mem_append.mp hy with hy | hy <;> rw [List.mem_singleton.mp hy] <;> exact not_false

end Dates

section Jobs

variable {rt : AgentRuntime} {rounds : ℕ} {agent : AgentId} {now : ℕ} {xs : Exchanges}

theorem dates_conclude {claimed : ClaimedResponse} (verdict : Verdict)
    (hstart : ∃ ys, xs = ⟨.nowMs, now⟩ :: ys) (hxs : ∀ x ∈ xs, ¬ x.call.Closes) :
    (rt.conclude claimed now verdict).Guarded (Job.execute rt rounds agent).Dates xs := by
  have hcomplete : ∀ attempt status usage, Concluding claimed.record.responseId now
      (xs ++ [⟨.ledger (.complete claimed.record.responseId attempt status usage now),
        .ok ()⟩]) := by
    intro attempt status usage
    obtain ⟨ys, rfl⟩ := hstart
    refine ⟨⟨_, rfl⟩, ⟨attempt, status, usage, by simp⟩, fun x hx ↦ ?_⟩
    rcases List.mem_append.mp hx with hx | hx
    · exact hxs x hx
    · rw [List.mem_singleton.mp hx]
      exact not_false
  cases verdict with
  | superseded => trivial
  | failed usage produced =>
      refine ⟨trivial, fun r ↦ ?_⟩
      rcases r with e | ⟨⟩
      · trivial
      show Prog.Guarded _ _ (rt.archiveFailed claimed.record usage produced now >>= fun _ ↦
        rt.settle claimed.record .failed false now >>= fun _ ↦ _)
      exact (hcomplete ..).bind ((archiving_archiveFailed ..).mono fun _ ↦ unclosing_of_archiving)
        fun _ _ h ↦ h.bind (unclosing_settle ..) fun _ _ h ↦ h.closing
  | finished output =>
      refine ⟨trivial, fun r ↦ ?_⟩
      rcases r with e | ⟨⟩
      · trivial
      show Prog.Guarded _ _ (rt.storeOutput claimed.record output now >>= fun stored ↦
        rt.settle claimed.record output.status stored now >>= fun _ ↦ _)
      refine (hcomplete ..).bind ((archiving_storeOutput ..).mono fun _ ↦ unclosing_of_archiving)
        fun stored _ h ↦ h.bind (unclosing_settle ..) fun _ _ h ↦ ?_
      show Prog.Guarded _ _ (ite _ _ _)
      split
      · trivial
      · exact h.closing

theorem dates_execute (rt : AgentRuntime) (rounds : ℕ) (agent : AgentId) :
    (Job.execute rt rounds agent).prog.Guarded (Job.execute rt rounds agent).Dates [] := by
  refine guarded_execute trivial (fun _ ↦ trivial) fun now claimed ↦ ?_
  rw [AgentRuntime.serve_eq]
  have hreports := (reports_attempt rt rounds claimed).mono fun c hc ↦ unclosing_of_reports hc
  refine (Prog.Guarded.of_onlyCalls (hreports.mono fun c hc ys ↦ dates_of_unclosing hc)).bind
    fun ys verdict hpath ↦ dates_conclude verdict ⟨_, rfl⟩ fun x hx ↦ ?_
  rcases List.mem_append.mp hx with hx | hx
  · simp only [List.mem_cons, List.not_mem_nil, or_false] at hx
    rcases hx with rfl | rfl <;> exact not_false
  · exact hpath.onlyCalls hreports hx

theorem dates_job (j : Job) : j.prog.Guarded j.Dates [] := by
  cases j with
  | execute rt rounds agent => exact dates_execute rt rounds agent
  | heartbeat agent => exact ⟨trivial, fun now ↦ ⟨rfl, fun _ ↦ trivial⟩⟩
  | _ => exact .of_onlyCalls ((onlyCalls_true _).mono fun _ _ _ ↦ trivial)

end Jobs

/-! ## Who closes a log, and when -/

section Closers

variable {ok : Trace → State → Event Call Call.Reply Job → Prop} {w : World}
  {tr tr₁ tr₂ : Trace} {q : State} {r : ResponseId} {i : ℕ} {now retain : ℕ}

/-- A log is closed by the winner of its response. -/
theorem won_of_closes (hok : ∀ tr q e, ok tr q e → MintStep tr q e) (hw : w.store.Unfiled)
    (h : Run system ok (Pool.init w) tr q) {reply}
    (heq : tr = tr₁ ++ .call i (.eventLog (.close r now retain)) reply :: tr₂) :
    i ∈ winners r tr := by
  obtain ⟨q₁, hrun, -, -, hcall⟩ := h.split heq
  obtain ⟨⟨j, k, hi⟩, -⟩ := hcall i _ _ rfl
  obtain ⟨s, hs, hfollow⟩ := (provenance_run hok hw hrun).2.session hi
  have hsole := (sole_run hok hw hrun r).1
  have hwon : i ∈ winners r tr₁ := by
    rcases hfollow.1 with hallowed | ⟨-, hapart⟩
    · cases hallowed with
      | quiet _ hquiet => exact hquiet.elim
      | close _ _ hmem => exact hsole.owner hs hmem rfl
    · exact hapart.elim
  rw [heq, winners, List.filterMap_append]
  exact List.mem_append_left _ hwon

theorem sole_closer (hok : ∀ tr q e, ok tr q e → MintStep tr q e) (hw : w.store.Unfiled)
    (h : Run system ok (Pool.init w) tr q) {i' now' retain' : ℕ} {reply reply'}
    (hi : .call i (.eventLog (.close r now retain)) reply ∈ tr)
    (hi' : .call i' (.eventLog (.close r now' retain')) reply' ∈ tr) : i = i' := by
  obtain ⟨_, _, heq⟩ := List.append_of_mem hi
  obtain ⟨_, _, heq'⟩ := List.append_of_mem hi'
  have hmem := won_of_closes hok hw h heq
  have hmem' := won_of_closes hok hw h heq'
  obtain ⟨k, hone⟩ := List.length_eq_one_iff.mp
    (le_antisymm (sole_run hok hw h r).1.once (List.length_pos_of_mem hmem))
  rw [hone, List.mem_singleton] at hmem hmem'
  rw [hmem, hmem']

/-- A log is open, or it carries the time and the window of one of its closes. -/
def ResponseLog.Dated (r : ResponseId) (tr : Trace) (log : ResponseLog) : Prop :=
  (log.terminalAtMs = none ∧ log.swept = false) ∨ ∃ i now retain reply,
    .call i (.eventLog (.close r now retain)) reply ∈ tr ∧ log.terminalAtMs = some now ∧
      log.retainMs = asU64 retain

theorem ResponseLog.of_sweep {log log' : ResponseLog} {now : ℕ}
    (h : (log.sweep now).1 = some log') : log'.terminalAtMs = log.terminalAtMs ∧
      log'.retainMs = log.retainMs ∧ (log.terminalAtMs = none → log' = log) := by
  by_cases hopen : log.terminalAtMs = none
  · rw [sweep_of_open hopen] at h
    obtain rfl := Option.some.inj h
    exact ⟨rfl, rfl, fun _ ↦ rfl⟩
  · unfold sweep at h
    split_ifs at h
    · obtain rfl := Option.some.inj h
      exact ⟨rfl, rfl, fun hnone ↦ absurd hnone hopen⟩
    · obtain rfl := Option.some.inj h
      exact ⟨rfl, rfl, fun _ ↦ rfl⟩

theorem ResponseLog.Dated.snoc {r : ResponseId} {tr : Trace} {log : ResponseLog}
    {e : Event Call Call.Reply Job} (h : log.Dated r tr) : log.Dated r (tr ++ [e]) := by
  rcases h with hopen | ⟨i, now, retain, reply, hmem, hclosed⟩
  · exact Or.inl hopen
  · exact Or.inr ⟨i, now, retain, reply, List.mem_append_left _ hmem, hclosed⟩

theorem dated_call {r : ResponseId} {tr : Trace} {i : ℕ} {c : Call} {w : World}
    (h : ∀ log, w.log.logs.lookup r = some log → log.Dated r tr) {log : ResponseLog}
    (hlog : (exec c w).2.log.logs.lookup r = some log) :
    log.Dated r (tr ++ [.call i c (exec c w).1]) := by
  have hstep := exec_logStep c w r
  generalize assigned r ⟨c, (exec c w).1⟩ = added at hstep
  generalize (exec c w).1 = reply
  generalize w.log.logs.lookup r = x at hstep h
  generalize hy : (exec c w).2.log.logs.lookup r = y at hstep hlog
  cases hstep with
  | stay => exact (h log hlog).snoc
  | push x hc hid hswept =>
      obtain rfl := Option.some.inj hlog
      cases x with
      | none => exact Or.inl ⟨rfl, rfl⟩
      | some old => exact ResponseLog.Dated.snoc (h old rfl)
  | close now retain old =>
      obtain rfl := Option.some.inj hlog
      exact Or.inr ⟨i, now, retain, reply, by simp, rfl, rfl⟩
  | sweep now old =>
      obtain ⟨hclosed, hretain, hopen⟩ := ResponseLog.of_sweep hlog
      rcases h old rfl with hold | ⟨k, now', retain', reply', hmem, hold, hwindow⟩
      · rw [hopen hold.1]
        exact ResponseLog.Dated.snoc (Or.inl hold)
      · exact Or.inr ⟨k, now', retain', reply', List.mem_append_left _ hmem, hclosed.trans hold,
          hretain.trans hwindow⟩
  | remove old => cases hlog

theorem dated_run {ok : Trace → State → Event Call Call.Reply Job → Prop} {w : World} {tr : Trace}
    {q : State} {r : ResponseId} (hlog : w.log.logs.lookup r = none)
    (h : Run system ok (Pool.init w) tr q) {log : ResponseLog}
    (hl : q.world.log.logs.lookup r = some log) : log.Dated r tr := by
  induction h generalizing log with
  | nil => exact absurd (hlog.symm.trans hl) nofun
  | start _ _ ih => exact (ih hl).snoc
  | turn _ _ _ ih => exact dated_call (fun log ↦ ih) hl

end Closers

/-! ## The times of a run -/

/-- Ids are fresh, and the clock is never set back. -/
def ClockStep (tr : Trace) (q : State) (e : Event Call Call.Reply Job) : Prop :=
  MintStep tr q e ∧ ∀ i ms reply, e = .call i (.mode (.setClock ms)) reply → q.world.clock ≤ ms

theorem exec_clock {c : Call} (hc : ∀ ms, c ≠ .mode (.setClock ms)) (w : World) :
    (exec c w).2.clock = w.clock := by
  rcases c with _ | c | c | c | c | c
  · rfl
  · cases c <;> rfl
  · cases c <;> rfl
  · cases c <;> rfl
  · cases c <;> rfl
  · cases c <;> first | rfl | exact absurd rfl (hc _)

/-- No reading of the clock is ahead of it. -/
theorem reading_le {w : World} {tr : Trace} {q : State}
    (h : Run system ClockStep (Pool.init w) tr q) {i now : ℕ} (hmem : .call i .nowMs now ∈ tr) :
    now ≤ q.world.clock := by
  induction h with
  | nil => cases hmem
  | start _ _ ih =>
      rcases List.mem_append.mp hmem with hmem | hmem
      · exact ih hmem
      · cases List.mem_singleton.mp hmem
  | @turn tr q j _ c k _ _ hok ih =>
      have hle : q.world.clock ≤ (exec c q.world).2.clock := by
        by_cases hc : ∃ ms, c = .mode (.setClock ms)
        · obtain ⟨ms, rfl⟩ := hc
          exact hok.2 _ _ _ rfl
        · push Not at hc
          exact (exec_clock hc q.world).ge
      rcases List.mem_append.mp hmem with hmem | hmem
      · exact (ih hmem).trans hle
      · obtain ⟨rfl, rfl, hreply⟩ := Event.call.inj (List.mem_singleton.mp hmem)
        exact (eq_of_heq hreply).le

/-- A completion dates the record for good. -/
def Stamped (r : ResponseId) (tr : Trace) (w : World) : Prop :=
  ∀ i attempt status usage now,
    .call i (.ledger (.complete r attempt status usage now)) (.ok ()) ∈ tr →
      (∃ o ∈ filings tr, o.id = r) ∧ ∀ x, w.store.record r = some x →
        x.status.isTerminal = true ∧ x.completedAtMs = some now

theorem stamped_call {r : ResponseId} {tr : Trace} {w : World} {ss : List Stage} {i : ℕ} {s : Stage}
    {c : Call} (hp : Provenance tr w ss) (hs : ss[i]? = some s) (hallowed : jobs.allowed s c)
    (h : Stamped r tr w) : Stamped r (tr ++ [.call i c (exec c w).1]) (exec c w).2 := by
  have hmono : ∀ o ∈ filings tr, o ∈ filings (tr ++ [.call i c (exec c w).1]) := by
    intro o ho
    rw [filings_call]
    exact List.mem_append_left _ ho
  intro k attempt status usage now hmem
  rcases List.mem_append.mp hmem with hmem | hmem
  · -- The record was terminal already, and is not written again.
    obtain ⟨⟨o, ho, hid⟩, hstamped⟩ := h k attempt status usage now hmem
    refine ⟨⟨o, hmono o ho, hid⟩, fun y hy ↦ ?_⟩
    have hwrites : c.writes ≠ some r := fun hw ↦
      (hp.unwritten hs (unwritten_of_jobs hallowed hw)).2 o ho hid
    obtain ⟨x, hx, hadv⟩ := record_back hwrites hy
    rw [hadv.terminal (hstamped x hx).1]
    exact hstamped x hx
  · obtain ⟨rfl, rfl, hreply⟩ := Event.call.inj (List.mem_singleton.mp hmem)
    rcases MemResponseLedger.complete_cases w.store r attempt status usage now with
      ⟨e, heq⟩ | ⟨x, -, hx, -, -, hterm, heq⟩
    · have := eq_of_heq hreply
      simp only [exec, execLedger, heq, World.withStore_fst] at this
      cases this
    · refine ⟨⟨x.origin, hmono _ (hp.record hx), hp.keyed.record hx⟩, fun y hy ↦ ?_⟩
      simp only [exec, execLedger, heq, World.withStore_snd,
        MemResponseLedger.record_putRecord, if_true] at hy
      obtain rfl := Option.some.inj hy
      exact ⟨hterm, rfl⟩

theorem stamped_run {ok : Trace → State → Event Call Call.Reply Job → Prop}
    (hok : ∀ tr q e, ok tr q e → MintStep tr q e) {w : World} {tr : Trace} {q : State}
    (hw : w.store.Unfiled) (h : Run system ok (Pool.init w) tr q) (r : ResponseId) :
    Stamped r tr q.world := by
  have hinv : Provenance tr q.world (jobs.track Stage.first tr) ∧ Stamped r tr q.world := by
    refine (Run.invariant jobs Stage.first (fun s _ ↦ s.Restful)
      (I := fun tr q ss ↦ Provenance tr q.world ss ∧ Stamped r tr q.world)
      (fun tr q j _ ↦ follows_jobs j) ?_ ?_ ?_ ?_ h).1
    · exact fun {tr q ss} c _ ↦ exec_answers c q.world
    · rintro tr q ss j ⟨hp, hstamped⟩ - hj
      refine ⟨hp.start (q := q) (hok _ _ _ hj), fun i attempt status usage now hmem ↦ ?_⟩
      rcases List.mem_append.mp hmem with hmem | hmem
      · rw [filings_start]
        exact hstamped i attempt status usage now hmem
      · cases List.mem_singleton.mp hmem
    · rintro tr q ss i j c k s ⟨hp, hstamped⟩ - - hs hallowed -
      exact ⟨hp.call hs hallowed, stamped_call hp hs hallowed hstamped⟩
    · exact ⟨(provenance_run hok hw .nil).1, fun _ _ _ _ _ hmem ↦ by cases hmem⟩
  exact hinv.2

/-- A heartbeat carries a time that was read before. -/
theorem heartbeat_le {w : World} {tr : Trace} {q : State}
    (h : Run system ClockStep (Pool.init w) tr q) {k now : ℕ} {agent : AgentId} {reply}
    (hmem : .call k (.ledger (.heartbeat agent now)) reply ∈ tr) : now ≤ q.world.clock := by
  obtain ⟨tr₁, tr₂, heq⟩ := List.append_of_mem hmem
  obtain ⟨j, hj, hdates⟩ := h.guarded heq dates_job
  obtain ⟨j', hj', hlocking | hown | ⟨-, hbeside⟩⟩ := makes_of_call h hmem
  · exact hlocking.elim
  · obtain rfl := Option.some.inj (hj'.symm.trans hj)
    cases j' with
    | heartbeat agent' =>
        have hread : (⟨.nowMs, now⟩ : Exchange Call Call.Reply) ∈ exchangesOf k tr₁ := by
          rw [show exchangesOf k tr₁ = _ from hdates]
          exact List.mem_singleton_self _
        refine reading_le h (i := k) ?_
        rw [heq]
        exact List.mem_append_left _ (mem_exchangesOf.mp hread)
    | _ => exact hown.elim
  · exact hbeside.elim

/-! ## From the terminal event on -/

/-- An execution that ended a stream: what had happened before the terminal event, and between it
and the close. -/
structure Ending where
  before : Trace
  between : Trace
  pid : ℕ
  event : AppendEvent
  seq : ℕ
  closedAt : ℕ
  retain : ℕ
  terminal : event.kind.isTerminal = true

namespace Ending

variable (e : Ending)

def id : ResponseId := e.event.responseId

/-- All that had happened when the log was to be closed. -/
def prior : Trace :=
  e.before ++ .call e.pid (.eventLog (.append e.event)) (.ok e.seq) :: e.between

def trace : Trace :=
  e.prior ++ [.call e.pid (.eventLog (.close e.id e.closedAt e.retain)) (.ok ())]

theorem close_mem : .call e.pid (.eventLog (.close e.id e.closedAt e.retain)) (.ok ()) ∈ e.trace :=
  List.mem_append_right _ (List.mem_singleton_self _)

end Ending

/-- No sweep before the given time touches the log of the response. -/
def EventLogStore.Retains (l : EventLogStore) (r : ResponseId) (deadline : ℕ) : Prop :=
  ∀ now ≤ u64Max, now < deadline → l.Spares now r

/-- The record was not completed before a heartbeat of the agent. -/
def CompletedAfter (r : ResponseId) (agent : AgentId) (tr : Trace) (s : MemStore) : Prop :=
  ∀ x, s.record r = some x → ∃ completed, x.completedAtMs = some completed ∧
    ∀ k now reply, .call k (.ledger (.heartbeat agent now)) reply ∈ tr → now ≤ completed

section Ending

variable {ok : Trace → State → Event Call Call.Reply Job → Prop} {w : World} {e : Ending}
  {q : State} {rt : AgentRuntime} {rounds : ℕ} {agent : AgentId} {n : ℕ}

/-- The close of an ending carries the time the execution was started with, and is its only one. -/
theorem Ending.concluding (h : Run system ok (Pool.init w) e.trace q)
    (hj : q.jobAt e.pid = some (.execute rt rounds agent))
    (hn : (exchangesOf e.pid e.before).head? = some ⟨.nowMs, n⟩) :
    e.retain = rt.retainAfterTerminalMs ∧ e.closedAt = n ∧
      Concluding e.id n (exchangesOf e.pid e.prior) := by
  have htrace : e.trace = e.prior ++
      .call e.pid (.eventLog (.close e.id e.closedAt e.retain)) (.ok ()) :: [] := rfl
  obtain ⟨j, hj', hdates⟩ := h.guarded htrace dates_job
  obtain rfl := Option.some.inj (hj'.symm.trans hj)
  obtain ⟨hretain, hconcluding⟩ := hdates
  obtain ⟨ys, hys⟩ := hconcluding.start
  have hhead : (exchangesOf e.pid e.prior).head? = some ⟨.nowMs, n⟩ :=
    head?_exchangesOf_append hn _
  have hclosed : e.closedAt = n := by
    rw [hys] at hhead
    obtain ⟨-, hreply⟩ := Exchange.mk.inj (Option.some.inj hhead)
    exact eq_of_heq hreply
  exact ⟨hretain, hclosed, hclosed ▸ hconcluding⟩

/-- The close finds the log open, and starts its window. -/
theorem Ending.closed (hok : ∀ tr q e, ok tr q e → MintStep tr q e) (hw : w.store.Unfiled)
    (hlog : ∀ r, w.log.logs.lookup r = none) (h : Run system ok (Pool.init w) e.trace q)
    (hunclosed : ∀ x ∈ exchangesOf e.pid e.prior, ¬ x.call.Closes) :
    ∃ log, q.world.log.logs.lookup e.id = some log ∧ log.swept = false ∧
      log.terminalAtMs = some e.closedAt ∧ log.retainMs = asU64 e.retain := by
  obtain ⟨q₀, h₀, hreply, hworld⟩ := h.snoc_call
  rw [hworld]
  simp only [system, exec, execEventLog, World.withLog_fst, World.withLog_snd,
    MemResponseEventLog.close] at hreply ⊢
  cases hlook : q₀.world.log.logs.lookup e.id with
  | none => rw [hlook] at hreply; cases hreply
  | some log =>
      refine ⟨_, AList.lookup_insert _, ?_, rfl, rfl⟩
      rcases dated_run (hlog _) h₀ hlook with ⟨-, hswept⟩ | ⟨i, now, retain, reply, hmem, -⟩
      · exact hswept
      · obtain rfl := sole_closer hok hw h (List.mem_append_left _ hmem) e.close_mem
        exact absurd trivial (hunclosed _ (mem_exchangesOf.mpr hmem))

/-- Whatever has become of the log since, it is open or carries the window of this close. -/
theorem Ending.dated (hok : ∀ tr q e, ok tr q e → MintStep tr q e) (hw : w.store.Unfiled)
    (hlog : ∀ r, w.log.logs.lookup r = none) (h : Run system ok (Pool.init w) e.trace q)
    (hj : q.jobAt e.pid = some (.execute rt rounds agent))
    (hn : (exchangesOf e.pid e.before).head? = some ⟨.nowMs, n⟩) {tr : Trace} {q' : State}
    (h' : Run system ok (Pool.init w) (e.trace ++ tr) q') {log : ResponseLog}
    (hlook : q'.world.log.logs.lookup e.id = some log) : log.terminalAtMs = none ∨
      log.terminalAtMs = some n ∧ log.retainMs = asU64 rt.retainAfterTerminalMs := by
  rcases dated_run (hlog _) h' hlook with ⟨hopen, -⟩ | ⟨i, now, retain, reply, hmem, hterm, hret⟩
  · exact Or.inl hopen
  · obtain rfl := sole_closer hok hw h' hmem (List.mem_append_left _ e.close_mem)
    obtain ⟨tr₁, tr₂, heq⟩ := List.append_of_mem hmem
    obtain ⟨j, hj', hdates⟩ := h'.guarded heq dates_job
    obtain rfl := Option.some.inj (hj'.symm.trans (h.jobAt_append h' hj))
    obtain ⟨rfl, ⟨ys, hys⟩, -, -⟩ := hdates
    have hhead : (exchangesOf e.pid (e.trace ++ tr)).head? = some ⟨.nowMs, now⟩ := by
      rw [heq]
      exact head?_exchangesOf_append (congrArg List.head? hys) _
    rw [Ending.trace, Ending.prior, List.append_assoc, List.append_assoc,
      head?_exchangesOf_append hn] at hhead
    obtain ⟨-, hreply⟩ := Exchange.mk.inj (Option.some.inj hhead)
    obtain rfl := eq_of_heq hreply
    exact Or.inr ⟨hterm, hret⟩

end Ending

/-- An ended stream is retained from its terminal event on, and its record completed no earlier than
its heartbeats, exactly when the clock of the terminal event is the one the execution was started
with and the window ends within a machine word. -/
theorem retention_iff {w : World} (hw : w.store.Unfiled) (hlog : ∀ r, w.log.logs.lookup r = none)
    {e : Ending} {q₁ q : State} (h₁ : Run system ClockStep (Pool.init w) e.before q₁)
    (h : Run system ClockStep (Pool.init w) e.trace q) {rt : AgentRuntime} {rounds : ℕ}
    {agent : AgentId} (hj : q.jobAt e.pid = some (.execute rt rounds agent)) {n : ℕ}
    (hn : (exchangesOf e.pid e.before).head? = some ⟨.nowMs, n⟩) :
    (∀ tr q', Run system ClockStep (Pool.init w) (e.trace ++ tr) q' →
      q'.world.log.Retains e.id (q₁.world.clock + rt.retainAfterTerminalMs) ∧
        CompletedAfter e.id agent e.before q'.world.store) ↔
      n = q₁.world.clock ∧ q₁.world.clock + rt.retainAfterTerminalMs ≤ u64Max := by
  have hmint : ∀ tr q e, ClockStep tr q e → MintStep tr q e := fun _ _ _ hok ↦ hok.1
  obtain ⟨hretain, hclosedAt, hconcluding⟩ := Ending.concluding h hj hn
  have hle : n ≤ q₁.world.clock := reading_le h₁ (mem_exchangesOf.mp (List.mem_of_mem_head? hn))
  have hword : asU64 rt.retainAfterTerminalMs ≤ rt.retainAfterTerminalMs := Nat.mod_le _ _
  constructor
  · intro hall
    obtain ⟨hretains, -⟩ := hall [] q (by rwa [List.append_nil])
    obtain ⟨log, hlook, hswept, hterm, hwindow⟩ :=
      Ending.closed hmint hw hlog h hconcluding.unclosed
    rw [hclosedAt] at hterm
    rw [hretain] at hwindow
    -- A sweep at the end of the window empties the log, so what is promised ends there at last.
    have hlost : ¬ q.world.log.Spares (satAdd n (asU64 rt.retainAfterTerminalMs)) e.id := by
      intro hspares
      rw [EventLogStore.Spares, lookup_sweepExpired, hlook] at hspares
      exact ResponseLog.sweep_of_ge hterm hwindow hswept le_rfl hspares
    have hend : ¬ satAdd n (asU64 rt.retainAfterTerminalMs) <
        q₁.world.clock + rt.retainAfterTerminalMs :=
      fun hlt ↦ hlost (hretains _ (min_le_right _ _) hlt)
    unfold satAdd at hend
    omega
  · rintro ⟨hclock, hfits⟩ tr q' h'
    refine ⟨fun now _ hnow ↦ ?_, fun x hx ↦ ⟨n, ?_, fun k now reply hbeat ↦ ?_⟩⟩
    · rw [EventLogStore.Spares, lookup_sweepExpired]
      cases hlook : q'.world.log.logs.lookup e.id with
      | none => rfl
      | some log =>
          rcases Ending.dated hmint hw hlog h hj hn h' hlook with hopen | ⟨hterm, hwindow⟩
          · rw [Option.bind_some, ResponseLog.sweep_of_open hopen]
          · rw [Option.bind_some, ResponseLog.sweep_of_lt hterm hwindow]
            have hsame : asU64 rt.retainAfterTerminalMs = rt.retainAfterTerminalMs :=
              Nat.mod_eq_of_lt (by unfold u64Max at hfits; omega)
            rw [hsame, satAdd]
            omega
    · obtain ⟨attempt, status, usage, hcompleted⟩ := hconcluding.completed
      have hevent : .call e.pid (.ledger (.complete e.id attempt status usage n)) (.ok ()) ∈
          e.trace ++ tr :=
        List.mem_append_left _ (List.mem_append_left _ (mem_exchangesOf.mp hcompleted))
      exact ((stamped_run hmint hw h' e.id _ _ _ _ _ hevent).2 x hx).2
    · rw [hclock]
      exact heartbeat_le h₁ hbeat

/-! ## An execution that takes no time, and one that does -/

/-- A clock that nobody sets stands still. -/
def setsClock : Event Call Call.Reply Job → Bool
  | .call _ (.mode (.setClock _)) _ => true
  | _ => false

theorem clock_eq {ok : Trace → State → Event Call Call.Reply Job → Prop} {w : World} {tr : Trace}
    {q : State} (h : Run system ok (Pool.init w) tr q) (hstill : tr.any setsClock = false) :
    q.world.clock = w.clock := by
  induction h with
  | nil => rfl
  | start _ _ ih => exact ih (by simpa [setsClock] using hstill)
  | @turn tr q i j c k _ _ _ ih =>
      obtain ⟨hbefore, hlast⟩ : tr.any setsClock = false ∧
          setsClock (.call i c (exec c q.world).1) = false := by
        simpa [system] using hstill
      have hc : ∀ ms, c ≠ .mode (.setClock ms) := by
        rintro ms rfl
        cases hlast
      exact (exec_clock hc q.world).trans (ih hbefore)

namespace Sample

/-- A check that the clock is not set back. -/
def clockCheck (q : State) : Event Call Call.Reply Job → Bool
  | .call _ (.mode (.setClock ms)) _ => decide (q.world.clock ≤ ms)
  | _ => true

theorem clockStep_of_check {tr : Trace} {q : State} {e : Event Call Call.Reply Job}
    (h : (decide (MintStep tr q e) && clockCheck q e) = true) : ClockStep tr q e := by
  obtain ⟨hmint, hclock⟩ := Bool.and_eq_true_iff.mp h
  refine ⟨of_decide_eq_true hmint, ?_⟩
  rintro i ms reply rfl
  exact of_decide_eq_true hclock

/-- The ending a trace stops with. -/
def ending (tr : Trace) : Option Ending :=
  match tr.reverse with
  | .call i (.eventLog (.close id now retain)) (.ok ()) ::
      .call i' (.eventLog (.append event)) (.ok seq) :: rest =>
    if h : i = i' ∧ id = event.responseId ∧ event.kind.isTerminal = true then
      some ⟨rest.reverse, [], i, event, seq, now, retain, h.2.2⟩
    else none
  | _ => none

theorem trace_of_ending {tr : Trace} {e : Ending} (h : ending tr = some e) : e.trace = tr := by
  unfold ending at h
  split at h
  · next i id now retain i' event seq rest heq =>
      split_ifs at h with hsame
      obtain rfl := Option.some.inj h
      obtain ⟨rfl, rfl, hterm⟩ := hsame
      rw [← tr.reverse_reverse, heq]
      simp [Ending.trace, Ending.prior, Ending.id]
  · cases h

/-- Whether the run stops with the ending of an execution that was started at time 0, and passes the
test. -/
def ended (test : Ending → AgentRuntime → State → Bool) (tr : Trace) (q : State) : Bool :=
  match ending tr with
  | some e =>
    match q.jobAt e.pid, exchangesOf e.pid e.before with
    | some (.execute rt ..), ⟨.nowMs, 0⟩ :: _ => test e rt q
    | _, _ => false
  | none => false

theorem ended_eq_true {test : Ending → AgentRuntime → State → Bool} {tr : Trace} {q : State}
    (hrun : Run system ClockStep (Pool.init world) tr q) (h : ended test tr q = true) :
    ∃ e q₁ rt rounds agent, Run system ClockStep (Pool.init world) e.before q₁ ∧
      Run system ClockStep (Pool.init world) e.trace q ∧
      q.jobAt e.pid = some (.execute rt rounds agent) ∧
      (exchangesOf e.pid e.before).head? = some ⟨.nowMs, 0⟩ ∧ test e rt q = true := by
  unfold ended at h
  split at h
  · next e he =>
      split at h
      · next rt rounds agent xs hj hxs =>
          have htrace := trace_of_ending he
          have hsplit : tr = e.before ++ .call e.pid (.eventLog (.append e.event)) (.ok e.seq) ::
              (e.between ++ [.call e.pid (.eventLog (.close e.id e.closedAt e.retain))
                (.ok ())]) := by
            rw [← htrace, Ending.trace, Ending.prior, List.append_assoc, List.cons_append]
          obtain ⟨q₁, h₁, -⟩ := hrun.split hsplit
          exact ⟨e, q₁, rt, rounds, agent, h₁, htrace ▸ hrun, hj, by rw [hxs]; rfl, h⟩
      · cases h
  · cases h

theorem world_unlogged (r : ResponseId) : world.log.logs.lookup r = none := rfl

/-- A turn that runs to its end while the clock moves forward, and its agent beats in between. -/
def overtime : List (Action Job) :=
  post 1 :: steps 0 6 ++ work :: steps 1 3 ++ .start (.mode (.setClock 5)) :: steps 2 1 ++
    .start (.heartbeat agent) :: steps 3 2 ++ steps 1 8

/-- Whether somebody has read the clock at `now`. -/
def readAt (now : ℕ) : Event Call Call.Reply Job → Bool
  | .call _ .nowMs now' => decide (now' = now)
  | _ => false

theorem mem_of_readAt {tr : Trace} {now : ℕ} (h : tr.any (readAt now) = true) :
    ∃ i, .call i .nowMs now ∈ tr := by
  obtain ⟨e, he, hread⟩ := List.any_eq_true.mp h
  unfold readAt at hread
  split at hread
  · exact ⟨_, of_decide_eq_true hread ▸ he⟩
  · cases hread

end Sample

/-- Where the clock stands still, the stream is retained. -/
theorem retention_iff_still : ∃ (e : Ending) (q : State) (rt : AgentRuntime) (agent : AgentId),
    Run system ClockStep (Pool.init Sample.world) e.trace q ∧
      ∀ tr q', Run system ClockStep (Pool.init Sample.world) (e.trace ++ tr) q' →
        q'.world.log.Retains e.id rt.retainAfterTerminalMs ∧
          CompletedAfter e.id agent e.before q'.world.store := by
  obtain ⟨tr, q, h, htest⟩ := @Run.exists_of_schedule _ _ _ _ ClockStep system
    (Pool.init Sample.world) (fun tr q e ↦ decide (MintStep tr q e) && Sample.clockCheck q e)
    (Sample.ended fun e rt _ ↦ !e.before.any setsClock &&
      decide (rt.retainAfterTerminalMs ≤ u64Max)) (fun _ _ _ ↦ Sample.clockStep_of_check)
    (Sample.post 1 :: Sample.steps 0 6 ++ Sample.work :: Sample.steps 1 11) (by decide +kernel)
  obtain ⟨e, q₁, rt, rounds, agent, h₁, he, hj, hn, hpassed⟩ := Sample.ended_eq_true h htest
  obtain ⟨hstill, hfits⟩ := Bool.and_eq_true_iff.mp hpassed
  have hclock : q₁.world.clock = 0 := clock_eq h₁ (by simpa using hstill)
  have hretained := (retention_iff Sample.world_unfiled Sample.world_unlogged h₁ he hj hn).mpr
    ⟨hclock.symm, by simpa [hclock] using hfits⟩
  rw [hclock, Nat.zero_add] at hretained
  exact ⟨e, q, rt, agent, he, hretained⟩

/-- Where the clock moves on while the turn runs, the stream is gone too early. -/
theorem retention_cut : ¬ ∀ (w : World) (e : Ending) (q₁ q : State) (rt : AgentRuntime)
    (rounds : ℕ) (agent : AgentId) (n : ℕ), w.store.Unfiled →
    (∀ r, w.log.logs.lookup r = none) → Run system ClockStep (Pool.init w) e.before q₁ →
    Run system ClockStep (Pool.init w) e.trace q →
    q.jobAt e.pid = some (.execute rt rounds agent) →
    (exchangesOf e.pid e.before).head? = some ⟨.nowMs, n⟩ →
    ∀ tr q', Run system ClockStep (Pool.init w) (e.trace ++ tr) q' →
      q'.world.log.Retains e.id (q₁.world.clock + rt.retainAfterTerminalMs) ∧
        CompletedAfter e.id agent e.before q'.world.store := by
  intro hclaim
  obtain ⟨tr, q, h, htest⟩ := @Run.exists_of_schedule _ _ _ _ ClockStep system
    (Pool.init Sample.world) (fun tr q e ↦ decide (MintStep tr q e) && Sample.clockCheck q e)
    (Sample.ended fun e rt q ↦ e.before.any (Sample.readAt 5) &&
      decide (60000 < 5 + rt.retainAfterTerminalMs) &&
        decide ((q.world.log.logs.lookup e.id).map ResponseLog.swept ≠
          ((MemResponseEventLog.sweepExpired q.world.log 60000).2.logs.lookup e.id).map
            ResponseLog.swept)) (fun _ _ _ ↦ Sample.clockStep_of_check) Sample.overtime
    (by decide +kernel)
  obtain ⟨e, q₁, rt, rounds, agent, h₁, he, hj, hn, hpassed⟩ := Sample.ended_eq_true h htest
  simp only [Bool.and_eq_true, decide_eq_true_eq] at hpassed
  obtain ⟨⟨hread, hwithin⟩, hswept⟩ := hpassed
  obtain ⟨i, hread⟩ := Sample.mem_of_readAt hread
  have hclock : 5 ≤ q₁.world.clock := reading_le h₁ hread
  obtain ⟨hretains, -⟩ := hclaim _ e q₁ q rt rounds agent 0 Sample.world_unfiled
    Sample.world_unlogged h₁ he hj hn [] q (by rwa [List.append_nil])
  have hspares := hretains 60000 (by decide) (by omega)
  exact hswept (congrArg (Option.map ResponseLog.swept) hspares).symm

end NovaChat
