import NovaChat.Agentd.Http
import NovaChat.Context.Predecessor
import NovaChat.Turn.Funnel

/-!
# What is kept of a streamed answer

A turn that ends before its time is archived with what was streamed of it: what its sink remembers,
or what a replay finds in its stream.  Both look for text inside a message that was announced.  The
chat-completions scheduler announces none, so nothing of the text it streamed is kept.
-/

namespace NovaChat

open Interact Prog

/-! ## Events without words -/

namespace AppendEvent

/-- The piece of text an event carries. -/
def piece (event : AppendEvent) : Option String :=
  match event.kind, event.body with
  | .outputTextDelta, .delta _ _ _ text => some text
  | _, _ => none

/-- The item an event announces, or ends. -/
def announced (event : AppendEvent) : Option ResponseItem :=
  match event.kind, event.body with
  | .outputItemAdded, .item _ item | .outputItemDone, .item _ item => some item
  | _, _ => none

/-- Text comes in pieces that are not empty, and no message is announced. -/
structure Wordless (event : AppendEvent) : Prop where
  announced : ∀ item ∈ event.announced, item.isMessage = false
  piece : ∀ text ∈ event.piece, text ≠ ""

theorem wordless_of_kind {event : AppendEvent} (hadded : event.kind ≠ .outputItemAdded)
    (hdone : event.kind ≠ .outputItemDone) (htext : event.kind ≠ .outputTextDelta) :
    event.Wordless := by
  constructor
  · intro item hitem
    unfold announced at hitem
    split at hitem
    · next hkind _ => exact absurd hkind hadded
    · next hkind _ => exact absurd hkind hdone
    · cases hitem
  · intro text hpiece
    unfold piece at hpiece
    split at hpiece
    · next hkind _ => exact absurd hkind htext
    · cases hpiece

end AppendEvent

/-! ## The sink -/

/-- What the sink remembers holds no message. -/
structure EventSink.Wordless (s : EventSink) : Prop where
  completed : ∀ item ∈ s.completed, item.isMessage = false
  openItem : ∀ item ∈ s.openItem, item.isMessage = false

theorem EventSink.Wordless.produced {s : EventSink} (h : s.Wordless) :
    ∀ item ∈ s.produced, item.isMessage = false := by
  have hpartial : s.partialItem = none := by
    unfold EventSink.partialItem
    split
    · next hopen => exact absurd (h.openItem _ hopen) nofun
    · rfl
  intro item hitem
  rw [EventSink.produced, hpartial] at hitem
  exact h.completed item (by simpa using hitem)

/-! ## The replay -/

/-- What a replay has collected holds no message. -/
structure Replay.Wordless (s : Replay) : Prop where
  items : ∀ x ∈ s.items, x.2.isMessage = false
  opened : ∀ x ∈ s.opened, x.2.isMessage = false

theorem Replay.Wordless.step {s : Replay} (hs : s.Wordless) {e : ResponseEvent}
    (he : e.event.Wordless) : (s.step e).Wordless := by
  obtain ⟨seq, id, kind, attempt, body⟩ := e
  unfold Replay.step
  split
  · next index item hkind hbody =>
      obtain ⟨rfl, rfl⟩ : kind = .outputItemAdded ∧ body = .item index item := ⟨hkind, hbody⟩
      refine ⟨hs.items, fun x hx ↦ ?_⟩
      rw [← Option.some.inj hx]
      exact he.announced item rfl
  · next index item hkind hbody =>
      obtain ⟨rfl, rfl⟩ : kind = .outputItemDone ∧ body = .item index item := ⟨hkind, hbody⟩
      have hitems : ∀ x ∈ s.items ++ [(index, item)], x.2.isMessage = false := by
        intro x hx
        rcases List.mem_append.mp hx with hx | hx
        · exact hs.items x hx
        · rw [List.mem_singleton.mp hx]
          exact he.announced item rfl
      split
      · exact ⟨hitems, nofun⟩
      · exact ⟨hitems, hs.opened⟩
  · split
    · exact ⟨hs.items, hs.opened⟩
    · exact hs
  · exact hs

theorem Replay.Wordless.foldl {events : List ResponseEvent} (he : ∀ e ∈ events, e.event.Wordless) :
    ∀ {s : Replay}, s.Wordless → (events.foldl Replay.step s).Wordless := by
  induction events with
  | nil => exact fun hs ↦ hs
  | cons e events ih =>
      intro s hs
      exact ih (fun e' he' ↦ he e' (List.mem_cons_of_mem _ he')) (hs.step (he e List.mem_cons_self))

theorem Replay.Wordless.finish {s : Replay} (hs : s.Wordless) :
    ∀ item ∈ s.finish, item.isMessage = false := by
  have htrailing : s.trailing = [] := by
    unfold Replay.trailing
    split
    · next hopened => exact absurd (hs.opened _ hopened) nofun
    · rfl
  intro item hitem
  obtain ⟨x, hx, rfl⟩ := List.mem_map.mp hitem
  rw [htrailing, List.append_nil] at hx
  exact hs.items x (List.mem_mergeSort.mp hx)

/-- A read of the stream of `r` tells of no words. -/
def Mute (r : ResponseId) (x : Exchange Call Call.Reply) : Prop :=
  ∀ cursor limit batch, x = ⟨.eventLog (.readAfter r cursor limit), .ok batch⟩ →
    ∀ e ∈ batch, e.event.Wordless

/-- A replay of a stream without words finds no message. -/
theorem path_replay {rounds : ℕ} {r : ResponseId} {ys : Exchanges} {items : List ResponseItem}
    (h : Path (replayCompletedItems rounds r) ys (.ok items)) (hmute : ∀ x ∈ ys, Mute r x) :
    ∀ item ∈ items, item.isMessage = false := by
  refine Path.iterate_given (fun s : Option ℕ × Replay ↦ s.2.Wordless)
    (fun result : Except EventLogError (List ResponseItem) ↦
      ∀ items, result = .ok items → ∀ item ∈ items, item.isMessage = false)
    ?_ ?_ rounds (none, {}) ys (.ok items) ⟨nofun, nofun⟩ hmute h items rfl
  · intro s xs s' hs hxs hround
    obtain ⟨reply, zs, rfl, hrest⟩ := path_call.mp hround
    rcases reply with e | (_ | ⟨e, batch⟩)
    · cases (path_ret.mp hrest).2
    · cases (path_ret.mp hrest).2
    · obtain rfl := Sum.inl.inj (path_ret.mp hrest).2
      exact hs.foldl (hxs _ List.mem_cons_self _ _ _ rfl)
  · rintro s xs result hs hxs hround items rfl
    obtain ⟨reply, zs, rfl, hrest⟩ := path_call.mp hround
    rcases reply with e | (_ | ⟨e, batch⟩)
    · cases (path_ret.mp hrest).2
    · rw [Except.ok.inj (Sum.inr.inj (path_ret.mp hrest).2)]
      exact hs.finish
    · cases (path_ret.mp hrest).2

/-! ## What an execution says -/

def ResponseStatus.Unsuccessful (status : ResponseStatus) : Prop :=
  status = .failed ∨ status = .cancelled

/-- No message is archived of a turn that ends without success. -/
def TurnCommit.Wordless (commit : TurnCommit) : Prop :=
  commit.status.Unsuccessful → ∀ item ∈ commit.outputItems, item.isMessage = false

/-- Calls that tell of no response but `r`, and without words if it is mute. -/
def Call.Voices (mute : Prop) (r : ResponseId) : Call → Prop
  | .eventLog (.append event) => event.responseId = r ∧ (mute → event.Wordless)
  | .conversations (.appendTurn _ _ id commit _) => id = r ∧ (mute → commit.Wordless)
  | _ => True

/-- A sink for `r`, which remembers no message if `r` is mute. -/
def EventSink.Voices (mute : Prop) (r : ResponseId) (s : EventSink) : Prop :=
  s.responseId = r ∧ (mute → s.Wordless)

section Execute

variable {mute : Prop} {r : ResponseId} {rt : AgentRuntime} {claimed : ClaimedResponse}

theorem voices_of_reads {c : Call} (hc : c.Reads) : c.Voices mute r := by
  rcases c with _ | c | c | c | c | c <;> try trivial
  all_goals cases c <;> first | exact hc.elim | trivial

/-- What answers a call of the runner says what it may, and ends with such a sink. -/
def Answering (mute : Prop) (r : ResponseId) {α : Type} (p : Service (α × EventSink)) : Prop :=
  p.OnlyCalls (Call.Voices mute r) ∧ ∀ ys x, Path p ys x → EventSink.Voices mute r x.2

theorem answering_push {s : EventSink} {event : AppendEvent} (hs : s.Voices mute r)
    (hid : event.responseId = s.responseId) (hevent : mute → event.Wordless) :
    Answering mute r (s.push event) := by
  have hstop : EventSink.Voices mute r { s with stopped := true } :=
    ⟨hs.1, fun h ↦ ⟨(hs.2 h).completed, (hs.2 h).openItem⟩⟩
  unfold EventSink.push
  split
  · refine ⟨trivial, fun ys x h ↦ ?_⟩
    rw [(path_ret.mp h).2]
    exact hs
  · refine ⟨⟨⟨hid.trans hs.1, hevent⟩, fun reply ↦ ?_⟩, fun ys x h ↦ ?_⟩
    · rcases reply with e | seq
      · cases e <;> trivial
      · trivial
    · obtain ⟨reply, zs, -, h⟩ := path_call.mp h
      rcases reply with e | seq
      · cases e with
        | staleAttempt => rw [(path_ret.mp h).2]; exact hstop
        | _ => rw [(path_ret.mp h).2]; exact hs
      · rw [(path_ret.mp h).2]
        exact hs

theorem answering_answer (c : SinkCall) (s : EventSink) (hc : mute → c.Unannounced)
    (hs : s.Voices mute r) : Answering mute r (EventSink.answer c s) := by
  have hquiet : ∀ event : AppendEvent, event.kind ≠ .outputItemAdded →
      event.kind ≠ .outputItemDone → event.kind ≠ .outputTextDelta → mute → event.Wordless :=
    fun event hadded hdone htext _ ↦ AppendEvent.wordless_of_kind hadded hdone htext
  cases c with
  | cancelled =>
      refine ⟨⟨trivial, fun _ ↦ trivial⟩, fun ys x h ↦ ?_⟩
      obtain ⟨reply, zs, -, h⟩ := path_call.mp h
      rw [(path_ret.mp h).2]
      exact hs
  | outputItemAdded item =>
      refine answering_push ⟨hs.1, fun h ↦ ⟨(hs.2 h).completed, ?_⟩⟩ rfl fun h ↦ ⟨?_, nofun⟩
      · rintro _ ⟨⟩
        exact hc h
      · rintro _ ⟨⟩
        exact hc h
  | outputItemDone item =>
      refine answering_push ⟨hs.1, fun h ↦ ⟨fun item' hitem ↦ ?_, nofun⟩⟩ rfl fun h ↦ ⟨?_, nofun⟩
      · rcases List.mem_append.mp hitem with hitem | hitem
        · exact (hs.2 h).completed item' hitem
        · rw [List.mem_singleton.mp hitem]
          exact hc h
      · rintro _ ⟨⟩
        exact hc h
  | textDelta text =>
      refine answering_push ⟨hs.1, fun h ↦ ⟨(hs.2 h).completed, (hs.2 h).openItem⟩⟩ rfl
        fun h ↦ ⟨nofun, ?_⟩
      rintro _ ⟨⟩
      exact hc h
  | reasoningTextDelta text =>
      exact answering_push ⟨hs.1, fun h ↦ ⟨(hs.2 h).completed, (hs.2 h).openItem⟩⟩ rfl
        (hquiet _ nofun nofun nofun)
  | contentPartAdded itemId index =>
      exact answering_push ⟨hs.1, fun h ↦ ⟨(hs.2 h).completed, (hs.2 h).openItem⟩⟩ rfl
        (hquiet _ nofun nofun nofun)
  | _ => exact answering_push hs rfl (hquiet _ nofun nofun nofun)

end Execute

/-- A runtime whose agent is completed over HTTP. -/
def AgentRuntime.OverHttp (rt : AgentRuntime) : Prop :=
  ∃ (m : MockAgentRunner) (scheduler : HttpChatCompletionsScheduler),
    rt.runner = m.run ∧ m.schedule = scheduler.schedule

/-- What a verdict leaves to be archived. -/
def Verdict.Voices (mute : Prop) : Verdict → Prop
  | .superseded => True
  | .failed _ produced => mute → ∀ item ∈ produced, item.isMessage = false
  | .finished output => mute → ¬ output.status.Unsuccessful

section Serve

variable {rt : AgentRuntime} {claimed : ClaimedResponse}

theorem unannounced_runner (task : AgentTask) :
    (rt.runner task).OnlyCalls fun c ↦ rt.OverHttp → c.Unannounced := by
  by_cases hhttp : rt.OverHttp
  · obtain ⟨m, scheduler, hrunner, hschedule⟩ := hhttp
    rw [hrunner]
    refine (m.unannounced_run (fun n request ↦ ?_) task).mono fun c hc _ ↦ hc
    rw [hschedule]
    exact scheduler.unannounced_schedule n request
  · exact (onlyCalls_true _).mono fun c _ h ↦ absurd h hhttp

theorem answering_execute (snapshot : ResolvedContext) :
    Answering rt.OverHttp claimed.record.responseId (rt.execute claimed snapshot) := by
  have hsink : EventSink.Voices rt.OverHttp claimed.record.responseId
      { responseId := claimed.record.responseId, attempt := claimed.record.attempt } :=
    ⟨rfl, fun _ ↦ ⟨nofun, nofun⟩⟩
  have hkeeps : ∀ (c : SinkCall) (s : EventSink) (ys : Exchanges) (x : c.Reply × EventSink),
      (rt.OverHttp → c.Unannounced) → s.Voices rt.OverHttp claimed.record.responseId →
        Path (EventSink.answer c s) ys x → x.2.Voices rt.OverHttp claimed.record.responseId :=
    fun c s ys x hc hs h ↦ (answering_answer c s hc hs).2 ys x h
  refine ⟨?_, fun ys x h ↦ path_handleWith_inv hkeeps (unannounced_runner _) hsink h⟩
  exact OnlyCalls.handleWith_inv (fun c s hc hs ↦ (answering_answer c s hc hs).1) hkeeps
    (unannounced_runner _) hsink

theorem voices_attempt (rounds : ℕ) :
    (rt.attempt rounds claimed).OnlyCalls
      (Call.Voices rt.OverHttp claimed.record.responseId) := by
  refine ⟨⟨rfl, fun _ ↦ AppendEvent.wordless_of_kind nofun nofun nofun⟩, fun _ ↦ ?_⟩
  refine ((reads_resolveSnapshot rt rounds claimed.record).mono fun c ↦ voices_of_reads).bind
    fun resolved ↦ ?_
  rcases resolved with e | snapshot
  · trivial
  refine (answering_execute snapshot).1.bind fun result ↦ ?_
  rcases result with ⟨e | outcome, sink⟩
  · cases e <;> trivial
  · show OnlyCalls _ (ite _ _ _)
    split <;> trivial

theorem voices_verdict {rounds : ℕ} {ys : Exchanges} {verdict : Verdict}
    (h : Path (rt.attempt rounds claimed) ys verdict) : verdict.Voices rt.OverHttp := by
  obtain ⟨announced, zs, -, h⟩ := path_call.mp h
  replace h : Path (rt.resolveSnapshot rounds claimed.record >>= _) zs verdict := h
  obtain ⟨resolved, us, vs, -, -, h⟩ := path_bind.mp h
  rcases resolved with e | snapshot
  · rw [(path_ret.mp h).2]
    exact fun _ ↦ nofun
  obtain ⟨⟨result, sink⟩, us', vs', -, hexecute, h⟩ := path_bind.mp h
  have hsink := (answering_execute snapshot).2 _ _ hexecute
  rcases result with e | outcome
  · cases e with
    | superseded =>
        rw [(path_ret.mp h).2]
        trivial
    | failed message usage =>
        rw [(path_ret.mp h).2]
        exact fun hhttp ↦ (hsink.2 hhttp).produced
  · replace h : Path (ite _ _ _) vs' verdict := h
    split at h
    · rw [(path_ret.mp h).2]
      trivial
    · rw [(path_ret.mp h).2]
      rintro ⟨m, scheduler, hrunner, -⟩ hstatus
      obtain ⟨xs, hrun⟩ := path_of_handleWith hexecute
      rw [hrunner] at hrun
      rcases MockAgentRunner.outcome_status hrun with heq | heq <;> rw [heq] at hstatus <;>
        rcases hstatus with hstatus | hstatus <;> cases hstatus

theorem Verdict.Voices.commit {verdict : Verdict} (h : verdict.Voices mute) {commit : TurnCommit}
    (hcommit : verdict.commit claimed.record = some commit) (hmute : mute) : commit.Wordless := by
  cases verdict with
  | superseded => cases hcommit
  | failed usage produced =>
      obtain rfl := Option.some.inj hcommit
      exact fun _ ↦ h hmute
  | finished output =>
      obtain rfl := Option.some.inj hcommit
      exact fun hstatus ↦ absurd hstatus (h hmute)

theorem voices_of_concludes {commit : TurnCommit} (hcommit : mute → commit.Wordless) {now : ℕ}
    {c : Call} (hc : c.Concludes claimed.record now commit) :
    c.Voices mute claimed.record.responseId := by
  cases hc with
  | archive => exact ⟨rfl, hcommit⟩
  | settle h => cases h <;> trivial
  | terminal hkind object =>
      refine ⟨rfl, fun _ ↦ AppendEvent.wordless_of_kind ?_ ?_ ?_⟩ <;>
      · rintro rfl
        cases hkind
  | _ => trivial

theorem voices_conclude {verdict : Verdict} (hverdict : verdict.Voices rt.OverHttp) (now : ℕ) :
    (rt.conclude claimed now verdict).OnlyCalls
      (Call.Voices rt.OverHttp claimed.record.responseId) := by
  refine (concludes_conclude claimed verdict).mono fun c hc ↦ ?_
  obtain ⟨commit, hcommit, hc⟩ := hc
  exact voices_of_concludes (hverdict.commit hcommit) hc

theorem voices_serve (rounds now : ℕ) :
    (rt.serve rounds claimed now).OnlyCalls
      (Call.Voices rt.OverHttp claimed.record.responseId) := by
  rw [AgentRuntime.serve_eq]
  exact (voices_attempt rounds).bind_path fun ys verdict hpath ↦
    voices_conclude (voices_verdict hpath) now

end Serve

/-! ## What the jobs say -/

/-- If the job serves `r`, it does so over HTTP. -/
def Job.HttpOnly (r : ResponseId) (j : Job) (xs : Exchanges) : Prop :=
  ∀ rt rounds agent claimed ys, j = .execute rt rounds agent → rt.Serving agent claimed ys xs →
    claimed.record.responseId = r → rt.OverHttp

theorem Job.HttpOnly.prefix {r : ResponseId} {j : Job} {xs ys : Exchanges}
    (h : j.HttpOnly r (xs ++ ys)) : j.HttpOnly r xs := by
  rintro rt rounds agent claimed zs hj ⟨now, rfl⟩ hid
  exact h rt rounds agent claimed (zs ++ ys) hj ⟨now, rfl⟩ hid

/-- What a job says of a response that is served over HTTP: events without words, and no message of
an unfinished turn if what was read of it was without words. -/
def Job.Voices (j : Job) (xs : Exchanges) : Call → Prop
  | .eventLog (.append event) => j.HttpOnly event.responseId xs → event.Wordless
  | .conversations (.appendTurn _ _ r commit _) =>
    j.HttpOnly r xs → (∀ x ∈ xs, Mute r x) → commit.Wordless
  | _ => True

section Jobs

variable {j : Job} {xs : Exchanges}

/-- Calls that append nothing but lifecycle events, and archive nothing. -/
def Call.Dumb : Call → Prop
  | .eventLog (.append event) => event.kind = .created ∨ event.kind = .failed
  | .conversations (.appendTurn ..) => False
  | _ => True

theorem Call.Dumb.voices {c : Call} (hc : c.Dumb) (j : Job) (xs : Exchanges) : j.Voices xs c := by
  rcases c with _ | c | c | c | c | c <;> try trivial
  · cases c with
    | append event =>
        intro _
        rcases hc with hkind | hkind <;>
          exact AppendEvent.wordless_of_kind (by rw [hkind]; nofun) (by rw [hkind]; nofun)
            (by rw [hkind]; nofun)
    | _ => trivial
  · cases c <;> first | exact hc.elim | trivial

theorem voices_archiveReplayed (rounds : ℕ) (tenant : TenantId) (c : ConversationId)
    (r : ResponseId) (input : List ResponseItem) (status : ResponseStatus) (now : ℕ) :
    (archiveReplayed rounds tenant c r input status now).Guarded j.Voices xs := by
  have hreads : (replayCompletedItems rounds r).OnlyCalls Call.Dumb := by
    refine (pages_replayCompletedItems rounds r).mono fun c hc ↦ ?_
    obtain ⟨cursor, limit, rfl⟩ := hc
    trivial
  refine (Guarded.of_onlyCalls (hreads.mono fun c hc ys ↦ hc.voices j ys)).bind
    fun ys result hpath ↦ ?_
  rcases result with e | items
  · trivial
  · exact ⟨fun _ hmute _ ↦ path_replay hpath fun x hx ↦ hmute x (List.mem_append_right _ hx),
      fun _ ↦ trivial⟩

theorem voices_execute (rt : AgentRuntime) (rounds : ℕ) (agent : AgentId) :
    (Job.execute rt rounds agent).prog.Guarded (Job.execute rt rounds agent).Voices [] := by
  refine guarded_execute trivial (fun _ ↦ trivial) fun now claimed ↦ ?_
  refine .of_onlyCalls_behind ((voices_serve rounds now).mono fun c hc ys ↦ ?_)
  -- From the claim on, the execution serves what it has claimed.
  rcases c with _ | c | c | c | c | c <;> try trivial
  · cases c <;> try trivial
    exact fun hhttp ↦ hc.2 (hhttp rt rounds agent claimed ys rfl ⟨now, rfl⟩ hc.1.symm)
  · cases c <;> try trivial
    exact fun hhttp _ ↦ hc.2 (hhttp rt rounds agent claimed ys rfl ⟨now, rfl⟩ hc.1.symm)

theorem voices_cancel (cfg : Config) (rounds : ℕ) (tenant : TenantId) (id : ResponseId) :
    (ResponsesService.cancel cfg rounds tenant id).Guarded j.Voices xs := by
  refine ⟨trivial, fun now ↦ ⟨trivial, fun r ↦ ?_⟩⟩
  rcases r with e | ⟨⟩
  · trivial
  refine ⟨trivial, fun reply ↦ ?_⟩
  have harchive : ∀ ys, (ResponsesService.archiveCancelled rounds tenant id (found reply)
      now).Guarded j.Voices ys := by
    intro ys
    unfold ResponsesService.archiveCancelled
    split
    · trivial
    · split
      · exact voices_archiveReplayed ..
      · trivial
  refine (harchive _).bind fun _ _ _ ↦ ?_
  have hrest : ((ResponsesService.releaseCancelled tenant id (found reply)) >>= fun _ ↦
      EventLog.append
        (.lifecycle id .failed (ResponsesService.cancelledObject id (found reply))) >>=
        fun _ ↦ EventLog.close id now cfg.retainAfterTerminalMs >>= fun _ ↦
          (.ret (.ok (ResponsesService.cancelledObject id (found reply))) :
            Service (Except ServiceError ResponseObject))).OnlyCalls Call.Dumb := by
    refine OnlyCalls.bind ?_ fun _ ↦ ⟨Or.inr rfl, fun _ ↦ ⟨trivial, fun _ ↦ trivial⟩⟩
    unfold ResponsesService.releaseCancelled
    split
    · trivial
    · exact ⟨trivial, fun _ ↦ ⟨trivial, fun _ ↦ trivial⟩⟩
  exact .of_onlyCalls (hrest.mono fun c hc ys ↦ hc.voices j ys)

theorem voices_settleAll (cfg : Config) (rounds now : ℕ) :
    ∀ (claims : List AbortedClaim) (xs : Exchanges),
      (settleAll cfg rounds now claims).Guarded j.Voices xs
  | [], _ => trivial
  | claim :: claims, xs => by
      refine Prog.Guarded.bind ?_ fun _ _ _ ↦ voices_settleAll cfg rounds now claims _
      have hfailed : Call.Dumb (.eventLog (.append (.lifecycle claim.responseId .failed
          (.terminalStub claim.responseId .failed)))) := Or.inr rfl
      refine ⟨hfailed.voices j xs, fun _ ↦ ⟨trivial, fun _ ↦ ?_⟩⟩
      have hrelease : ∀ c ys, (Conversations.releaseActive claim.tenantId c claim.responseId .failed
          now >>= fun _ ↦ (.ret () : Service Unit)).Guarded j.Voices ys :=
        fun c ys ↦ ⟨trivial, fun _ ↦ trivial⟩
      cases claim.conversationId with
      | none => trivial
      | some c =>
          dsimp only
          split
          · exact (voices_archiveReplayed ..).bind fun _ _ _ ↦ hrelease c _
          · exact hrelease c _

theorem dumb_of_makes {c : Call} (hexecute : ∀ rt rounds agent, j ≠ .execute rt rounds agent)
    (hcancel : ∀ cfg rounds tenant id, j ≠ .cancel cfg rounds tenant id)
    (htick : ∀ cfg rounds, j ≠ .tick cfg rounds) (hc : j.Makes c) : c.Dumb := by
  rcases hc with hc | hc | ⟨-, hc⟩
  · rcases c with _ | c | c | c | c | c <;> try trivial
    all_goals cases c <;> first | exact hc.elim | trivial
  · rcases c with _ | c | c | c | c | c <;> try trivial
    · cases c <;> try trivial
      cases j <;> first
        | exact hc.elim
        | exact Or.inl hc.1
        | exact absurd rfl (hexecute _ _ _)
        | exact absurd rfl (hcancel _ _ _ _)
        | exact absurd rfl (htick _ _)
    · cases c <;> try trivial
      cases j <;> first
        | exact hc.elim
        | exact absurd rfl (hexecute _ _ _)
        | exact absurd rfl (hcancel _ _ _ _)
        | exact absurd rfl (htick _ _)
  · rcases c with _ | c | c | c | c | c <;> try trivial
    all_goals cases c <;> first | exact hc.elim | trivial

/-- Every job speaks as it may. -/
theorem voices_job (j : Job) : j.prog.Guarded j.Voices [] := by
  by_cases hexecute : ∃ rt rounds agent, j = .execute rt rounds agent
  · obtain ⟨rt, rounds, agent, rfl⟩ := hexecute
    exact voices_execute rt rounds agent
  by_cases hcancel : ∃ cfg rounds tenant id, j = .cancel cfg rounds tenant id
  · obtain ⟨cfg, rounds, tenant, id, rfl⟩ := hcancel
    exact (voices_cancel cfg rounds tenant id).bind fun _ _ _ ↦ trivial
  by_cases htick : ∃ cfg rounds, j = .tick cfg rounds
  · obtain ⟨cfg, rounds, rfl⟩ := htick
    refine ⟨trivial, fun now ↦ ⟨trivial, fun r ↦ ?_⟩⟩
    rcases r with e | aborted
    · trivial
    · exact (voices_settleAll cfg rounds now aborted _).bind fun _ _ _ ↦ ⟨trivial, fun _ ↦ trivial⟩
  push Not at hexecute hcancel htick
  exact .of_onlyCalls ((makes_job j).mono fun c hc xs ↦
    (dumb_of_makes hexecute hcancel htick hc).voices j xs)

end Jobs

/-! ## Runs -/

/-- Whoever serves `r` does so over HTTP. -/
def HttpServed (tr : Trace) (q : State) (r : ResponseId) : Prop :=
  ∀ i j, q.jobAt i = some j → j.HttpOnly r (exchangesOf i tr)

section Runs

variable {ok : Trace → State → Event Call Call.Reply Job → Prop} {w : World} {tr : Trace}
  {q : State} {r : ResponseId} {i : ℕ}

theorem voices_call (h : Run system ok (Pool.init w) tr q) (hhttp : HttpServed tr q r) {c : Call}
    {reply : c.Reply} (hmem : .call i c reply ∈ tr) :
    ∃ (j : Job) (tr₁ : Trace), (∀ x ∈ exchangesOf i tr₁, x ∈ exchangesOf i tr) ∧
      j.HttpOnly r (exchangesOf i tr₁) ∧
      j.Voices (exchangesOf i tr₁) c := by
  obtain ⟨tr₁, tr₂, rfl⟩ := List.append_of_mem hmem
  obtain ⟨j, hj, hvoices⟩ := h.guarded rfl voices_job
  have hsplit : exchangesOf i (tr₁ ++ .call i c reply :: tr₂) =
      exchangesOf i tr₁ ++ exchangesOf i (.call i c reply :: tr₂) := List.filterMap_append
  refine ⟨j, tr₁, fun x hx ↦ ?_, Job.HttpOnly.prefix (hsplit ▸ hhttp i j hj), hvoices⟩
  rw [hsplit]
  exact List.mem_append_left _ hx

theorem wordless_of_append (h : Run system ok (Pool.init w) tr q) (hhttp : HttpServed tr q r)
    {event : AppendEvent} {reply} (hmem : .call i (.eventLog (.append event)) reply ∈ tr)
    (hid : event.responseId = r) : event.Wordless := by
  obtain ⟨j, tr₁, -, honly, hvoices⟩ := voices_call h hhttp hmem
  exact hvoices (hid ▸ honly)

theorem wordless_of_archive (hlog : w.log.logs.lookup r = none)
    (h : Run system ok (Pool.init w) tr q) (hhttp : HttpServed tr q r) {tenant : TenantId}
    {c : ConversationId} {commit : TurnCommit} {now : ℕ} {reply}
    (hmem : .call i (.conversations (.appendTurn tenant c r commit now)) reply ∈ tr) :
    commit.Wordless := by
  obtain ⟨j, tr₁, hsub, honly, hvoices⟩ := voices_call h hhttp hmem
  refine hvoices honly ?_
  rintro x hx cursor limit batch rfl e he
  obtain ⟨k, happend, hid⟩ := appended_of_read hlog h (mem_exchangesOf.mp (hsub _ hx)) he
  exact wordless_of_append h hhttp happend hid

/-- The pieces of text the log has accepted of `r`. -/
def pieces (r : ResponseId) (tr : Trace) : List String :=
  tr.filterMap fun
    | .call _ (.eventLog (.append event)) (.ok _) =>
      if event.responseId = r then event.piece else none
    | _ => none

def ResponseItem.texts : ResponseItem → List String
  | message _ content _ _ => content.filterMap fun
    | .inputText text | .outputText text => some text
    | _ => none
  | functionCall .. | functionCallOutput .. => []

/-- The text of the messages among some items. -/
def messageText (items : List ResponseItem) : List Char :=
  (items.flatMap ResponseItem.texts).flatMap String.toList

/-- The pieces occur in a text, one behind the other. -/
def InOrder : List String → List Char → Prop
  | [], _ => True
  | piece :: pieces, text =>
    ∃ before after, text = before ++ piece.toList ++ after ∧ InOrder pieces after

theorem inOrder_nil : ∀ {texts : List String}, InOrder texts [] → ∀ text ∈ texts, text = ""
  | [], _ => nofun
  | piece :: texts, ⟨before, after, heq, hrest⟩ => by
      obtain ⟨hpiece, rfl⟩ := List.append_eq_nil_iff.mp heq.symm
      intro text htext
      rcases List.mem_cons.mp htext with rfl | htext
      · exact String.toList_eq_nil_iff.mp (List.append_eq_nil_iff.mp hpiece).2
      · exact inOrder_nil hrest text htext

theorem messageText_of_wordless {items : List ResponseItem}
    (h : ∀ item ∈ items, item.isMessage = false) : messageText items = [] := by
  have htexts : items.flatMap ResponseItem.texts = [] := by
    refine List.flatMap_eq_nil_iff.mpr fun item hitem ↦ ?_
    have hno := h item hitem
    cases item with
    | message role content id status => cases hno
    | functionCall => rfl
    | functionCallOutput => rfl
  rw [messageText, htexts]
  rfl

theorem pieces_ne_empty (h : Run system ok (Pool.init w) tr q) (hhttp : HttpServed tr q r) :
    ∀ text ∈ pieces r tr, text ≠ "" := by
  intro text htext
  obtain ⟨e, he, hpiece⟩ := List.mem_filterMap.mp htext
  split at hpiece
  · split_ifs at hpiece with hid
    exact (wordless_of_append h hhttp he hid).piece text hpiece
  · cases hpiece

/-- The archive of a turn that ended without success has no message. -/
theorem archived_wordless (hlog : w.log.logs.lookup r = none)
    (h : Run system ok (Pool.init w) tr q) (hhttp : HttpServed tr q r) {c : ConversationId}
    {commit : TurnCommit} (hmem : (r, commit) ∈ history c tr)
    (hstatus : commit.status.Unsuccessful) :
    ∀ item ∈ commit.outputItems, item.isMessage = false := by
  obtain ⟨e, he, hadds⟩ := List.mem_filterMap.mp hmem
  rcases e with j | ⟨i, call, reply⟩
  · cases hadds
  have hsubmits := adds_submits hadds
  unfold Call.submits at hsubmits
  split at hsubmits
  · split_ifs at hsubmits with hid
    subst hid
    obtain rfl := Option.some.inj hsubmits
    exact wordless_of_archive hlog h hhttp he hstatus
  · cases hsubmits

/-- What was streamed of a turn that ended without success is found in its archive if and only if
nothing was. -/
theorem streamed_kept_iff (hlog : w.log.logs.lookup r = none)
    (h : Run system ok (Pool.init w) tr q) (hhttp : HttpServed tr q r) {c : ConversationId}
    {commit : TurnCommit} (hmem : (r, commit) ∈ history c tr)
    (hstatus : commit.status.Unsuccessful) :
    InOrder (pieces r tr) (messageText commit.outputItems) ↔ pieces r tr = [] := by
  rw [messageText_of_wordless (archived_wordless hlog h hhttp hmem hstatus)]
  constructor
  · intro hin
    refine List.eq_nil_iff_forall_not_mem.mpr fun text htext ↦ ?_
    exact pieces_ne_empty h hhttp text htext (inOrder_nil hin text htext)
  · intro hnil
    rw [hnil]
    trivial

end Runs

/-! ## A turn that is cancelled while it speaks -/

namespace Sample

/-- An event with a piece of text. -/
def greeting : String := "\x7b\"choices\":[\x7b\"delta\":\x7b\"content\":\"hel\"\x7d\x7d]\x7d"

/-- A provider that falls silent in the middle of a word. -/
def halting : HttpChatCompletionsScheduler where
  provider _ _ := .stream [.ok ("data: " ++ greeting ++ "\n").toUTF8.toList] false
  fromStr text := if text = greeting then
      some (.object [("choices", .array [.object [("delta", .object [("content",
        .string "hel")])]])])
    else none

def haltingRunner : MockAgentRunner where
  schedule := halting.schedule
  callTool _ _ _ _ := .ok ""
  guard _ _ := .ok ()

def haltingRuntime : AgentRuntime := { runner := haltingRunner.run }

/-- A turn speaks, and is cancelled. -/
def silenced : List (Action Job) :=
  post 1 :: steps 0 6 ++ .start (.execute haltingRuntime 4 agent) :: steps 1 5 ++
    .start (.cancel cfg 4 tenant (id 1)) :: steps 2 6

/-- Whether text was streamed of response 1, and its turn archived as cancelled. -/
def cutShort (tr : Trace) (_ : State) : Bool :=
  decide (pieces (id 1) tr = ["hel"]) &&
    (history talk tr).any fun t ↦ decide (t.1 = id 1 ∧ t.2.status = .cancelled)

theorem silenced_run : ∃ tr q commit, Run system (fun _ _ _ ↦ True) (Pool.init world) tr q ∧
    HttpServed tr q (id 1) ∧ pieces (id 1) tr = ["hel"] ∧ (id 1, commit) ∈ history talk tr ∧
      commit.status.Unsuccessful := by
  let good : Job → Prop := fun j ↦ ∀ rt rounds agent', j = .execute rt rounds agent' →
    rt = haltingRuntime
  obtain ⟨tr, q, h, htest⟩ := @Run.exists_of_schedule_jobs _ _ _ _
    (fun _ _ e ↦ ∀ j, e = .start j → good j) system world good (fun _ _ _ ↦ true) cutShort
    (fun tr q e _ hstart _ ↦ hstart) silenced
    (fun j hj ↦ by
      simp only [silenced, post, steps, List.cons_append, List.mem_cons, List.mem_append,
        List.mem_replicate, Action.start.injEq, reduceCtorEq, and_false, or_false,
        false_or] at hj
      rcases hj with rfl | rfl | rfl
      · nofun
      · intro rt rounds agent' heq
        exact (Job.execute.inj heq).1.symm
      · nofun)
    (by decide +kernel)
  simp only [cutShort, Bool.and_eq_true, decide_eq_true_eq] at htest
  obtain ⟨hpieces, hany⟩ := htest
  obtain ⟨⟨r, commit⟩, hmem, hcommit⟩ := List.any_eq_true.mp hany
  obtain ⟨rfl, hstatus⟩ := of_decide_eq_true hcommit
  refine ⟨tr, q, commit, h.mono fun _ _ _ _ ↦ trivial, ?_, hpieces, hmem, Or.inr hstatus⟩
  intro i j hj rt rounds agent' claimed ys heq _ _
  rw [h.good_of_jobAt (fun tr q j hok ↦ hok j rfl) hj rt rounds agent' heq]
  exact ⟨haltingRunner, halting, rfl, rfl⟩

end Sample

/-- Three letters were streamed, and the archive of the cancelled turn has none of them. -/
theorem streamed_kept_iff_silenced : ∃ tr q commit,
    Run system (fun _ _ _ ↦ True) (Pool.init Sample.world) tr q ∧
      (Sample.id 1, commit) ∈ history Sample.talk tr ∧
        ¬ InOrder (pieces (Sample.id 1) tr) (messageText commit.outputItems) := by
  obtain ⟨tr, q, commit, h, hhttp, hpieces, hmem, hstatus⟩ := Sample.silenced_run
  refine ⟨tr, q, commit, h, hmem, fun hin ↦ ?_⟩
  cases hpieces.symm.trans ((streamed_kept_iff rfl h hhttp hmem hstatus).mp hin)

/-- Streamed text does not survive an abnormal end. -/
theorem streamed_lost : ¬ ∀ (w : World) (tr : Trace) (q : State) (r : ResponseId)
    (c : ConversationId) (commit : TurnCommit), w.log.logs.lookup r = none →
      Run system (fun _ _ _ ↦ True) (Pool.init w) tr q → HttpServed tr q r →
        (r, commit) ∈ history c tr → commit.status.Unsuccessful →
          InOrder (pieces r tr) (messageText commit.outputItems) := by
  intro hclaim
  obtain ⟨tr, q, commit, h, hhttp, hpieces, hmem, hstatus⟩ := Sample.silenced_run
  have hin := hclaim _ tr q _ _ commit rfl h hhttp hmem hstatus
  rw [hpieces, messageText_of_wordless] at hin
  · exact absurd (inOrder_nil hin "hel" (List.mem_singleton_self _)) (by decide)
  · exact archived_wordless rfl h hhttp hmem hstatus

end NovaChat
