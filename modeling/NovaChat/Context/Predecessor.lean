import NovaChat.Context.Agreement
import NovaChat.Context.Bounds
import NovaChat.Stream.Restart

/-!
# What a bare turn inherits from its predecessor

A runtime reads the stream of a bare predecessor while that predecessor may still be running.  It
stops at a terminal event, which carries the predecessor's output, and also at an empty page, which
does not.  The output is never missing as long as no such read comes back empty.
-/

namespace NovaChat

open Interact Prog

/-! ## What a stream consists of -/

theorem enveloped_of_append {ok : Trace → State → Event Call Call.Reply Job → Prop} {w : World}
    {tr : Trace} {q : State} (h : Run system ok (Pool.init w) tr q) {i : ℕ} {event : AppendEvent}
    {reply} (hmem : .call i (.eventLog (.append event)) reply ∈ tr) : event.Enveloped := by
  obtain ⟨j, -, hlocking | hown | ⟨-, hbeside⟩⟩ := makes_of_call h hmem
  · exact hlocking.elim
  · cases j <;> first | exact hown.elim | exact hown.2
  · exact hbeside.elim

/-- What a call leaves in the ring was there before, or is what it adds. -/
theorem mem_ring_call {c : Call} {w : World} {r : ResponseId} {log : ResponseLog}
    (hlog : (exec c w).2.log.logs.lookup r = some log) {e : ResponseEvent} (he : e ∈ log.ring) :
    (∃ old, w.log.logs.lookup r = some old ∧ e ∈ old.ring) ∨
      assigned r ⟨c, (exec c w).1⟩ = some (e.sequenceNumber, e.event) := by
  have hstep := exec_logStep c w r
  generalize assigned r ⟨c, (exec c w).1⟩ = added at hstep ⊢
  generalize w.log.logs.lookup r = x at hstep ⊢
  generalize (exec c w).2.log.logs.lookup r = y at hstep hlog
  cases hstep with
  | stay => exact Or.inl ⟨log, hlog, he⟩
  | push x hc hid hswept =>
      obtain rfl := Option.some.inj hlog
      rcases List.mem_append.mp (List.mem_of_mem_drop he) with he | he
      · cases x with
        | none => cases he
        | some old => exact Or.inl ⟨old, rfl, he⟩
      · rw [List.mem_singleton.mp he]
        exact Or.inr rfl
  | close now retain old =>
      obtain rfl := Option.some.inj hlog
      exact Or.inl ⟨old, rfl, he⟩
  | sweep now old =>
      refine Or.inl ⟨old, rfl, ?_⟩
      unfold ResponseLog.sweep at hlog
      split_ifs at hlog
      · obtain rfl := Option.some.inj hlog
        cases he
      · obtain rfl := Option.some.inj hlog
        exact he
  | remove old => cases hlog

/-- What is buffered has been appended. -/
theorem appended_of_ring {ok : Trace → State → Event Call Call.Reply Job → Prop} {w : World}
    {tr : Trace} {q : State} {r : ResponseId} (hlog : w.log.logs.lookup r = none)
    (h : Run system ok (Pool.init w) tr q) {log : ResponseLog}
    (hl : q.world.log.logs.lookup r = some log) {e : ResponseEvent} (he : e ∈ log.ring) :
    ∃ i, .call i (.eventLog (.append e.event)) (.ok e.sequenceNumber) ∈ tr ∧
      e.event.responseId = r := by
  have htaken : ∃ x ∈ tr, taken r x = some (e.sequenceNumber, e.event) := by
    induction h generalizing log with
    | nil => exact absurd (hlog.symm.trans hl) nofun
    | start _ _ ih =>
        obtain ⟨x, hx, htaken⟩ := ih hl he
        exact ⟨x, List.mem_append_left _ hx, htaken⟩
    | turn _ _ _ ih =>
        rcases mem_ring_call hl he with ⟨old, hold, he⟩ | hadded
        · obtain ⟨x, hx, htaken⟩ := ih hold he
          exact ⟨x, List.mem_append_left _ hx, htaken⟩
        · exact ⟨_, List.mem_append_right _ (List.mem_singleton_self _), hadded⟩
  obtain ⟨x, hx, htaken⟩ := htaken
  rcases x with j | ⟨i, c, reply⟩
  · cases htaken
  · obtain ⟨hid, heq | heq⟩ := assigned_eq_some htaken
    · obtain ⟨rfl, hreply⟩ := Exchange.mk.inj heq
      exact ⟨i, eq_of_heq hreply ▸ hx, hid⟩
    · -- No job inserts an event without an append.
      obtain ⟨rfl, -⟩ := Exchange.mk.inj heq
      obtain ⟨j, -, hlocking | hown | ⟨-, hbeside⟩⟩ := makes_of_call h hx
      · exact hlocking.elim
      · cases j <;> exact hown.elim
      · exact hbeside.elim

/-! ## Reading to the end -/

theorem ResponseEvent.responseObject_eq_some {e : ResponseEvent} {object : ResponseObject} :
    e.responseObject = some object ↔ e.event.body = .response object := by
  rcases e with ⟨seq, id, kind, attempt, body⟩
  cases body <;> simp [responseObject, body]

theorem AppendEvent.Enveloped.output {e : ResponseEvent} (h : e.event.Enveloped)
    (hopen : e.kind.isTerminal = false) :
    (e.responseObject.map ResponseObject.output).getD [] = [] := by
  cases hobject : e.responseObject with
  | none => rfl
  | some object =>
      have hbody := ResponseEvent.responseObject_eq_some.mp hobject
      simp only [Enveloped, hbody] at h
      exact h hopen

theorem AppendEvent.Enveloped.object {e : ResponseEvent} (h : e.event.Enveloped)
    (hterm : e.kind.isTerminal = true) : ∃ object, e.responseObject = some object := by
  unfold Enveloped at h
  split at h
  · next object hbody => exact ⟨object, ResponseEvent.responseObject_eq_some.mpr hbody⟩
  · exact absurd (hterm.symm.trans h) nofun

section allOutput

variable {events : List ResponseEvent} (henveloped : ∀ e ∈ events, e.event.Enveloped)

include henveloped

theorem allOutput_eq_nil (hopen : ∀ e ∈ events, e.kind.isTerminal = false) :
    allOutput events = [] :=
  List.flatMap_eq_nil_iff.mpr fun e he ↦ (henveloped e he).output (hopen e he)

/-- The output of a stream that has ended begins with that of its first terminal object. -/
theorem output_prefix (hterm : events.any (fun e ↦ e.kind.isTerminal) = true) :
    ∃ e ∈ events, e.kind.isTerminal = true ∧ ∃ object, e.responseObject = some object ∧
      object.output <+: allOutput events := by
  induction events with
  | nil => cases hterm
  | cons e events ih =>
      have hcons : allOutput (e :: events) =
          (e.responseObject.map ResponseObject.output).getD [] ++ allOutput events :=
        List.flatMap_cons
      cases hend : e.kind.isTerminal with
      | true =>
          obtain ⟨object, hobject⟩ := (henveloped e List.mem_cons_self).object hend
          refine ⟨e, List.mem_cons_self, hend, object, hobject, ?_⟩
          rw [hcons, hobject]
          exact List.prefix_append _ _
      | false =>
          rw [List.any_cons, hend, Bool.false_or] at hterm
          obtain ⟨e', he', hend', object, hobject, hprefix⟩ :=
            ih (fun e' he' ↦ henveloped e' (List.mem_cons_of_mem _ he')) hterm
          refine ⟨e', List.mem_cons_of_mem _ he', hend', object, hobject, ?_⟩
          rwa [hcons, (henveloped e List.mem_cons_self).output hend, List.nil_append]

end allOutput

/-- What a read told: at least one event, and enveloped ones. -/
def Telling (x : Exchange Call Call.Reply) : Prop :=
  ∀ id cursor limit batch, x = ⟨.eventLog (.readAfter id cursor limit), .ok batch⟩ →
    batch ≠ [] ∧ ∀ e ∈ batch, e.event.Enveloped

/-- Where every read tells something, a predecessor is read up to a terminal event. -/
theorem path_bareRound {id : ResponseId} {snapshot : ResolvedContext} :
    ∀ (rounds : ℕ) (cursor : Option ℕ) (items : List ResponseItem) (ys : Exchanges),
      Path (Prog.iterate (AgentRuntime.bareRound id) rounds (cursor, items)) ys (.ok snapshot) →
      (∀ x ∈ ys, Telling x) →
      ∃ cursor limit batch, ⟨.eventLog (.readAfter id cursor limit), .ok batch⟩ ∈ ys ∧
        ∃ e ∈ batch, e.kind.isTerminal = true ∧ ∃ object, e.responseObject = some object ∧
          items ++ object.output <+: snapshot.intoItems := by
  intro rounds
  induction rounds with
  | zero => exact fun cursor items ys h ↦ (path_stall h).elim
  | succ n ih =>
      intro cursor items ys h htelling
      obtain ⟨next, us, vs, rfl, hround, hrest⟩ := path_bind.mp h
      simp only [AgentRuntime.bareRound, EventLog.readAfter, perform_bind, path_call] at hround
      obtain ⟨reply, ws, rfl, hround⟩ := hround
      rcases reply with e | batch
      · obtain ⟨-, rfl⟩ := path_ret.mp hround
        cases (path_ret.mp hrest).2
      obtain ⟨hne, henveloped⟩ := htelling _ (List.mem_append_left _ List.mem_cons_self) _ _ _ _ rfl
      rcases batch with _ | ⟨first, batch⟩
      · exact absurd rfl hne
      simp only [foldl_output] at hround
      split at hround
      · -- The page holds the end, and with it the output.
        next hterm =>
        obtain ⟨rfl, rfl⟩ := path_ret.mp hround
        obtain ⟨-, hret⟩ := path_ret.mp hrest
        obtain ⟨e, he, hend, object, hobject, hprefix⟩ := output_prefix henveloped hterm
        refine ⟨_, _, _, List.mem_append_left _ List.mem_cons_self, e, he, hend,
          object, hobject, ?_⟩
        rw [Except.ok.inj hret, intoItems_fromItems]
        exact (List.prefix_append_right_inj _).mpr hprefix
      · -- The page is before the end, and adds nothing.
        next hopen =>
        obtain ⟨rfl, rfl⟩ := path_ret.mp hround
        have hnil : allOutput (first :: batch) = [] := by
          refine allOutput_eq_nil henveloped fun e he ↦ ?_
          by_contra hend
          exact hopen (List.any_eq_true.mpr ⟨e, he, by simpa using hend⟩)
        rw [hnil, List.append_nil] at hrest
        obtain ⟨cursor', limit', batch', hmem, hfound⟩ := ih _ _ _ hrest fun x hx ↦
          htelling x (List.mem_append_right _ hx)
        exact ⟨cursor', limit', batch', List.mem_append_right _ hmem, hfound⟩

/-- The context behind a bare predecessor is its record and what was read of its stream. -/
theorem path_resolveSnapshot_previous {rt : AgentRuntime} {rounds : ℕ} {record : ResponseRecord}
    {p : ResponseId} {snapshot : ResolvedContext} {ys : Exchanges}
    (hp : record.anchor = .previous p)
    (h : Path (rt.resolveSnapshot rounds record) ys (.ok snapshot)) :
    ∃ prev zs, ys = ⟨.ledger (.get p), .ok (some prev)⟩ :: zs ∧ (prev.conversationId = none →
      Path (AgentRuntime.reconstructBare rounds prev) zs (.ok snapshot)) := by
  rw [AgentRuntime.resolveSnapshot, hp] at h
  simp only [Ledger.get, perform_bind, path_call] at h
  obtain ⟨reply, zs, rfl, h⟩ := h
  rcases reply with e | (_ | prev)
  · cases (path_ret.mp h).2
  · cases (path_ret.mp h).2
  refine ⟨prev, zs, rfl, fun hconv ↦ ?_⟩
  have hanchor : prev.anchor.conversationId = none := hconv
  cases ha : prev.anchor with
  | root => simpa only [ha] using h
  | conversation c => rw [ha] at hanchor; cases hanchor
  | previous p' =>
      simp only [ha] at h
      cases (path_ret.mp h).2

theorem mem_ring_of_readAfter {l : EventLogStore} {r : ResponseId} {cursor : Option ℕ} {limit : ℕ}
    {batch : List ResponseEvent}
    (h : MemResponseEventLog.readAfter l r cursor limit = .ok batch) {e : ResponseEvent}
    (he : e ∈ batch) : ∃ log, l.logs.lookup r = some log ∧ e ∈ log.ring := by
  cases hlog : l.logs.lookup r with
  | none => simp [MemResponseEventLog.readAfter, hlog] at h
  | some log =>
      refine ⟨log, rfl, ?_⟩
      rw [readAfter_of_lookup hlog] at h
      split_ifs at h
      · obtain rfl := Except.ok.inj h
        exact List.mem_of_mem_drop (List.mem_of_mem_take he)
      · obtain rfl := Except.ok.inj h
        cases he

/-- What a read tells has been appended. -/
theorem appended_of_read {ok : Trace → State → Event Call Call.Reply Job → Prop} {w : World}
    {tr : Trace} {q : State} {r : ResponseId} (hlog : w.log.logs.lookup r = none)
    (h : Run system ok (Pool.init w) tr q) {i : ℕ} {cursor : Option ℕ} {limit : ℕ}
    {batch : List ResponseEvent}
    (hmem : .call i (.eventLog (.readAfter r cursor limit)) (.ok batch) ∈ tr) {e : ResponseEvent}
    (he : e ∈ batch) :
    ∃ k, .call k (.eventLog (.append e.event)) (.ok e.sequenceNumber) ∈ tr ∧
      e.event.responseId = r := by
  obtain ⟨tr₁, tr₂, rfl⟩ := List.append_of_mem hmem
  obtain ⟨q₁, h₁, -, -, hcall⟩ := h.split rfl
  obtain ⟨-, hreply⟩ := hcall i _ _ rfl
  obtain ⟨log, hl, hring⟩ := mem_ring_of_readAfter hreply.symm he
  obtain ⟨k, hk, hid⟩ := appended_of_ring hlog h₁ hl hring
  exact ⟨k, List.mem_append_left _ hk, hid⟩

/-! ## Runs -/

/-- When an execution behind `p` reads the stream of `p`, it finds an event there that it has not
seen, or is refused. -/
def BareRead (tr : Trace) (q : State) : Event Call Call.Reply Job → Prop
  | .call i (.eventLog (.readAfter p cursor limit)) _ => ∀ rt rounds agent claimed ys,
    q.jobAt i = some (.execute rt rounds agent) →
    rt.Serving agent claimed ys (exchangesOf i tr) → claimed.record.anchor = .previous p →
      MemResponseEventLog.readAfter q.world.log p cursor limit ≠ .ok []
  | _ => True

def BareStep (tr : Trace) (q : State) (e : Event Call Call.Reply Job) : Prop :=
  MintStep tr q e ∧ BareRead tr q e

/-- In every run in which no read of a bare predecessor comes back empty, what an execution hands
its runner begins with the predecessor's input and the output of its terminal object. -/
theorem predecessor_kept {w : World} {tr : Trace} {q : State} (hw : w.store.Unfiled)
    (hlog : ∀ r, w.log.logs.lookup r = none) (h : Run system BareStep (Pool.init w) tr q) {i : ℕ}
    {claimed : ClaimedResponse} {snapshot : ResolvedContext}
    (hhanded : Handed tr q i claimed snapshot) {p : ResponseId}
    (hp : claimed.record.anchor = .previous p) {o : Origin} (ho : o ∈ filings tr)
    (hid : o.id = p) (hbare : o.turn.conversation = none) :
    ∃ k event seq object, .call k (.eventLog (.append event)) (.ok seq) ∈ tr ∧
      event.responseId = p ∧ event.kind.isTerminal = true ∧ event.body = .response object ∧
        ∀ rt : AgentRuntime, o.turn.input ++ object.output <+:
          (rt.task claimed snapshot).items := by
  have hmint : ∀ tr q e, BareStep tr q e → MintStep tr q e := fun _ _ _ hok ↦ hok.1
  have hprov := (provenance_run hmint hw h).1
  obtain ⟨rt, rounds, agent, announced, ys, zs, hjob, ⟨now, hserving⟩, hpath⟩ := hhanded
  obtain ⟨prev, us, rfl, hprev⟩ := path_resolveSnapshot_previous hp hpath
  -- The record that was read is the one that was filed.
  have hget : .call i (.ledger (.get p)) (.ok (some prev)) ∈ tr :=
    mem_exchangesOf.mp (by rw [hserving]; simp)
  have hprevid : prev.responseId = p := by
    obtain ⟨tr₁, q₁, h₁, -, hreply⟩ := h.of_mem hget
    have hrecord : q₁.world.store.record p = some prev := (Except.ok.inj hreply).symm
    exact (provenance_run hmint hw h₁).1.keyed.record hrecord
  have horigin : prev.origin = o :=
    hprov.unique (hprov.told hget _ (List.mem_singleton_self _)) ho (hprevid.trans hid.symm)
  have hreads := hprev (by rw [← horigin] at hbare; exact hbare)
  have hinput : prev.spec.inputItems = o.turn.input := by rw [← horigin]; rfl
  -- Every read of it told something.
  have htelling : ∀ x ∈ us, Telling x := by
    rintro x hx r cursor limit batch rfl
    obtain ⟨cursor', limit', hcall⟩ := hreads.onlyCalls (pages_reconstructBare rounds prev) hx
    obtain ⟨rfl, rfl, rfl⟩ := EventLogCall.readAfter.inj (Call.eventLog.inj hcall)
    obtain ⟨us₁, us₂, rfl⟩ := List.append_of_mem hx
    have hxs : exchangesOf i tr = (⟨.nowMs, now⟩ :: ⟨.ledger (.claim agent now rt.execTtlMs),
        .ok (some claimed)⟩ :: announced :: ⟨.ledger (.get p), .ok (some prev)⟩ :: us₁) ++
          ⟨.eventLog (.readAfter prev.responseId cursor limit), .ok batch⟩ :: (us₂ ++ zs) := by
      rw [hserving]
      simp
    obtain ⟨tr₁, tr₂, heq, hbefore, -⟩ := exchangesOf_eq_append hxs
    obtain ⟨q₁, h₁, ⟨-, hok⟩, hjobs, hcall⟩ := h.split heq
    obtain ⟨⟨j, k, hi⟩, hreply⟩ := hcall i _ _ rfl
    have hj := Pool.jobAt_of_procs hi
    obtain rfl := Option.some.inj ((hjobs i j hj).symm.trans hjob)
    refine ⟨fun hnil ↦ ?_, fun e he ↦ ?_⟩
    · refine hok rt rounds agent claimed _ hj ⟨now, hbefore⟩ (hprevid ▸ hp) ?_
      rw [← hnil]
      exact hreply.symm
    · have hread : .call i (.eventLog (.readAfter prev.responseId cursor limit)) (.ok batch) ∈
          tr := by
        rw [heq]
        exact List.mem_append_right _ List.mem_cons_self
      obtain ⟨k, hk, -⟩ := appended_of_read (hlog _) h hread he
      exact enveloped_of_append h hk
  obtain ⟨cursor, limit, batch, hmem, e, he, hend, object, hobject, hprefix⟩ :=
    path_bareRound rounds _ _ _ hreads htelling
  have hread : .call i (.eventLog (.readAfter prev.responseId cursor limit)) (.ok batch) ∈ tr :=
    mem_exchangesOf.mp (by rw [hserving]; simp [hmem])
  obtain ⟨k, hk, heid⟩ := appended_of_read (hlog _) h hread he
  refine ⟨k, e.event, _, object, hk, heid.trans hprevid, hend,
    ResponseEvent.responseObject_eq_some.mp hobject, fun rt ↦ ?_⟩
  rw [← hinput]
  exact hprefix.trans (List.prefix_append _ _)

/-! ## A predecessor that has ended, and one that is still running -/

/-- Calls that complete no response otherwise than failed. -/
def Call.Failing : Call → Prop
  | .ledger (.complete _ _ status _ _) => status = .failed
  | _ => True

theorem failing_of_reads {c : Call} (hc : c.Reads) : c.Failing := by
  rcases c with _ | c | c | c | c | c <;> try trivial
  cases c <;> first | exact hc.elim | trivial

theorem failing_fail (rt : AgentRuntime) (record : ResponseRecord) (attempt : Attempt)
    (usage : Usage) (produced : List ResponseItem) (now : ℕ) :
    (rt.fail record attempt usage produced now).OnlyCalls Call.Failing := by
  refine (concludes_fail attempt usage produced).mono fun c hc ↦ ?_
  cases hc with
  | transit => rfl
  | settle h => cases h <;> trivial
  | _ => trivial

/-- An execution that completes its response otherwise than failed has handed over a context. -/
theorem handed_of_completes {ok : Trace → State → Event Call Call.Reply Job → Prop} {w : World}
    {tr : Trace} {q : State} (h : Run system ok (Pool.init w) tr q) {i : ℕ} {rt : AgentRuntime}
    {rounds : ℕ} {agent : AgentId} (hj : q.jobAt i = some (.execute rt rounds agent))
    {x : Exchange Call Call.Reply} (hmem : x ∈ exchangesOf i tr) (hx : ¬ x.call.Failing) :
    ∃ claimed snapshot, Handed tr q i claimed snapshot := by
  obtain ⟨proc, hproc, hjob⟩ := Option.map_eq_some_iff.mp hj
  have hsteps := h.steps.1 i proc hproc
  rw [hjob] at hsteps
  rcases hsteps.call with ⟨hnil, -⟩ | ⟨start, ys, hys, hclaim⟩
  · rw [hnil] at hmem; cases hmem
  rw [hys] at hmem
  rcases List.mem_cons.mp hmem with rfl | hlater
  · exact absurd trivial hx
  rcases hclaim.call with ⟨rfl, -⟩ | ⟨r, zs, rfl, hserve⟩
  · cases hlater
  rcases List.mem_cons.mp hlater with rfl | hserving
  · exact absurd trivial hx
  rcases r with e | (_ | claimed)
  · rw [hserve.ret.1] at hserving; cases hserving
  · rw [hserve.ret.1] at hserving; cases hserving
  rcases hserve.call with ⟨rfl, -⟩ | ⟨announced, us, rfl, hresolve⟩
  · cases hserving
  rcases List.mem_cons.mp hserving with rfl | hbehind
  · exact absurd trivial hx
  -- Resolving the context only reads, so the completion comes after it.
  simp only [ret_bind, bind_assoc, bind_eq] at hresolve
  have hreads : (rt.resolveSnapshot rounds claimed.record).OnlyCalls Call.Failing :=
    (reads_resolveSnapshot rt rounds claimed.record).mono fun _ ↦
      failing_of_reads
  rcases hresolve.bind with ⟨p', hp', -⟩ | ⟨vs, ws, resolved, rfl, hpath, hrest⟩
  · exact absurd ((hp'.onlyCalls hreads).2 x hbehind) hx
  rcases List.mem_append.mp hbehind with hread | hlast
  · exact absurd (hpath.onlyCalls hreads hread) hx
  rcases resolved with e | snapshot
  · have hfails : (rt.fail claimed.record claimed.record.attempt {} [] start >>= fun _ ↦
        (.ret () : Service Unit)).OnlyCalls Call.Failing := (failing_fail ..).bind fun _ ↦ trivial
    exact absurd ((hrest.onlyCalls hfails).2 x hlast) hx
  · exact ⟨claimed, snapshot, rt, rounds, agent, _, vs, ws, hj, ⟨start, hys⟩, hpath⟩

namespace Sample

/-- A bare turn. -/
def bare : Action Job := .start (.create cfg 4 tenant rootSpec none ⟨1⟩)

/-- A turn behind the bare one. -/
def behind : Action Job :=
  .start (.create cfg 4 tenant { rootSpec with anchor := .previous (id 1) } none ⟨2⟩)

/-- A check that reads of streams do not come back empty. -/
def bareCheck (q : State) : Event Call Call.Reply Job → Bool
  | .call _ (.eventLog (.readAfter p cursor limit)) _ =>
    match MemResponseEventLog.readAfter q.world.log p cursor limit with
    | .ok [] => false
    | _ => true
  | _ => true

theorem bareStep_of_check {tr : Trace} {q : State} {e : Event Call Call.Reply Job}
    (h : (decide (MintStep tr q e) && bareCheck q e) = true) : BareStep tr q e := by
  obtain ⟨hmint, hbare⟩ := Bool.and_eq_true_iff.mp h
  refine ⟨of_decide_eq_true hmint, ?_⟩
  cases e with
  | start j => trivial
  | call i c reply =>
      rcases c with _ | c | c | c | c | c <;> try trivial
      cases c <;> try trivial
      next p cursor limit =>
        intro rt rounds agent claimed ys _ _ _ hnil
        simp only [bareCheck, hnil] at hbare
        cases hbare

/-- Whether an exchange completes a response otherwise than failed. -/
def succeeds : Exchange Call Call.Reply → Bool
  | ⟨.ledger (.complete _ _ status _ _), _⟩ => decide (status ≠ .failed)
  | _ => false

/-- Whether process `i` has completed the turn behind the bare one. -/
def continued (i : ℕ) (tr : Trace) (q : State) : Bool :=
  match q.jobAt i, exchangesOf i tr with
  | some (.execute ..), _ :: ⟨.ledger (.claim ..), .ok (some claimed)⟩ :: xs =>
    decide (claimed.record.anchor = .previous (id 1)) && xs.any succeeds &&
      (filings tr).any fun o ↦ decide (o.id = id 1) && decide (o.turn.conversation = none)
  | _, _ => false

theorem continued_eq_true {ok : Trace → State → Event Call Call.Reply Job → Prop} {tr : Trace}
    {q : State} (hrun : Run system ok (Pool.init world) tr q) {i : ℕ}
    (h : continued i tr q = true) : ∃ claimed snapshot, Handed tr q i claimed snapshot ∧
      claimed.record.anchor = .previous (id 1) ∧
        ∃ o ∈ filings tr, o.id = id 1 ∧ o.turn.conversation = none := by
  unfold continued at h
  split at h
  · next rt rounds agent first agent' now ttl claimed xs hj hxs =>
      simp only [Bool.and_eq_true, decide_eq_true_eq, List.any_eq_true] at h
      obtain ⟨⟨hanchor, x, hx, hsucceeds⟩, o, ho, hid, hbare⟩ := h
      have hunfailed : ¬ x.call.Failing := by
        unfold succeeds at hsucceeds
        split at hsucceeds
        · next status usage now reply =>
            exact of_decide_eq_true (p := status ≠ .failed) hsucceeds
        · cases hsucceeds
      obtain ⟨claimed', snapshot, hhanded⟩ := handed_of_completes hrun hj (x := x)
        (by rw [hxs]; simp [hx]) hunfailed
      refine ⟨claimed', snapshot, hhanded, ?_, o, ho, hid, hbare⟩
      obtain ⟨_, _, _, _, _, _, -, ⟨_, hserving⟩, -⟩ := hhanded
      rw [hxs] at hserving
      obtain ⟨hclaim, hreply⟩ := Exchange.mk.inj (List.cons.inj (List.cons.inj hserving).2).1
      obtain ⟨rfl, rfl, rfl⟩ := LedgerCall.claim.inj (Call.ledger.inj hclaim)
      obtain rfl := Option.some.inj (Except.ok.inj (eq_of_heq hreply))
      exact hanchor
  · cases h

end Sample

/-- Behind a turn that has ended, its answer is handed on. -/
theorem predecessor_kept_ended : ∃ tr q claimed snapshot,
    Run system BareStep (Pool.init Sample.world) tr q ∧ Handed tr q 3 claimed snapshot ∧
      ∃ o ∈ filings tr, o.id = Sample.id 1 ∧ ∃ k event seq object,
        .call k (.eventLog (.append event)) (.ok seq) ∈ tr ∧ event.responseId = Sample.id 1 ∧
        event.kind.isTerminal = true ∧ event.body = .response object ∧
          ∀ rt : AgentRuntime,
            o.turn.input ++ object.output <+: (rt.task claimed snapshot).items := by
  obtain ⟨tr, q, h, htest⟩ := @Run.exists_of_schedule _ _ _ _ BareStep system
    (Pool.init Sample.world) (fun tr q e ↦ decide (MintStep tr q e) && Sample.bareCheck q e)
    (Sample.continued 3) (fun _ _ _ ↦ Sample.bareStep_of_check)
    (Sample.bare :: Sample.steps 0 3 ++ Sample.work :: Sample.steps 1 7 ++ Sample.behind ::
      Sample.steps 2 5 ++ Sample.work :: Sample.steps 3 6) (by decide +kernel)
  obtain ⟨claimed, snapshot, hhanded, hp, o, ho, hid, hbare⟩ := Sample.continued_eq_true h htest
  exact ⟨tr, q, claimed, snapshot, h, hhanded, o, ho, hid, predecessor_kept Sample.world_unfiled
    (fun _ ↦ rfl) h hhanded hp ho hid hbare⟩

/-- No terminal event is appended. -/
def Sample.endless (tr : Trace) : Bool := tr.all fun
  | .call _ (.eventLog (.append event)) _ => !event.kind.isTerminal
  | _ => true

/-- Behind a turn that is still running, the next one runs without its answer. -/
theorem predecessor_dropped : ¬ ∀ (w : World) (tr : Trace) (q : State), w.store.Unfiled →
    (∀ r, w.log.logs.lookup r = none) → Run system MintStep (Pool.init w) tr q →
    ∀ i claimed snapshot p o, Handed tr q i claimed snapshot →
      claimed.record.anchor = .previous p → o ∈ filings tr → o.id = p →
      o.turn.conversation = none → ∃ k event seq object,
        .call k (.eventLog (.append event)) (.ok seq) ∈ tr ∧ event.responseId = p ∧
        event.kind.isTerminal = true ∧ event.body = .response object ∧
          ∀ rt : AgentRuntime,
            o.turn.input ++ object.output <+: (rt.task claimed snapshot).items := by
  intro hclaim
  obtain ⟨tr, q, h, htest⟩ := @Run.exists_of_schedule _ _ _ _ MintStep system
    (Pool.init Sample.world) (fun tr q e ↦ decide (MintStep tr q e))
    (fun tr q ↦ Sample.continued 3 tr q && Sample.endless tr) (fun _ _ _ ↦ of_decide_eq_true)
    (Sample.bare :: Sample.steps 0 3 ++ Sample.work :: Sample.steps 1 3 ++ Sample.behind ::
      Sample.steps 2 6 ++ Sample.work :: Sample.steps 3 7) (by decide +kernel)
  obtain ⟨hcontinued, hopen⟩ := Bool.and_eq_true_iff.mp htest
  obtain ⟨claimed, snapshot, hhanded, hp, o, ho, hid, hbare⟩ :=
    Sample.continued_eq_true h hcontinued
  obtain ⟨k, event, seq, object, hmem, -, hterm, -⟩ := hclaim _ tr q Sample.world_unfiled
    (fun _ ↦ rfl) h _ claimed snapshot _ o hhanded hp ho hid hbare
  have hlive := List.all_eq_true.mp hopen _ hmem
  simp [hterm] at hlive

end NovaChat
