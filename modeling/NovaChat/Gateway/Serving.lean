import NovaChat.Gateway.Responses
import NovaChat.Interact.Path
import NovaChat.Turn.Programs
import NovaChat.Wire.Sizes

/-!
# What the response endpoints let through

A record that is written for a body was proposed for the tenant of the credentials, with items that
passed every check.  A stream that comes to its end is answered with the events its reads delivered.
And a response of another tenant is answered the way a malformed id is.
-/

namespace NovaChat

open Interact Prog

namespace Gateway

/-! ## Bodies -/

namespace ResponseRoutes

variable {app : ResponsesState} {raw : Value} {headers : Headers}
  {xs : List (Exchange Call Call.Reply)} {a : HttpResponse}

/-- Behind an exchange there is a handler that got past its preliminaries. -/
theorem path_orReject {p : Except HttpResponse (Service HttpResponse)}
    (h : Path (ConversationRoutes.orReject p) xs a) :
    xs = [] ∨ ∃ handler, p = .ok handler ∧ Path handler xs a := by
  cases p with
  | ok handler => exact Or.inr ⟨handler, rfl, h⟩
  | error rejection => exact Or.inl (path_ret.mp h).1

theorem resolve_of_tenantOrReject {keys : KeyTable} {tenant : TenantId}
    (h : tenantOrReject keys headers = .ok tenant) : keys.resolve headers = .ok tenant := by
  unfold tenantOrReject at h
  split at h <;> cases h
  assumption

theorem readRequest_eq_ok {request : CreateResponseRequest} {items : List ResponseItem} :
    readRequest app raw = .ok (request, items) ↔
      CreateResponseRequest.preflightUnsupported raw = none ∧
        CreateResponseRequest.ofValue app.asF64 raw = some request ∧
          request.validate app.urlGuard app.limits = .ok items := by
  unfold readRequest
  constructor
  · intro h
    split at h
    · cases h
    · next hpreflight =>
        split at h
        · cases h
        · next hread =>
            split at h
            · cases h
            · next hitems =>
                obtain ⟨rfl, rfl⟩ := Prod.mk.inj (Except.ok.inj h)
                exact ⟨hpreflight, hread, hitems⟩
  · rintro ⟨hpreflight, hread, hitems⟩
    simp only [hpreflight, hread, hitems]

/-! ## Creation -/

theorem reads_listen (id : ResponseId) (batch reads : ℕ) (cursor : Option ℕ) :
    ((responseSource id).listen batch reads cursor).OnlyCalls Call.Reads := by
  induction reads generalizing cursor with
  | zero => trivial
  | succ reads ih =>
      refine ⟨trivial, fun reply ↦ ?_⟩
      rcases reply with e | events
      · trivial
      · show OnlyCalls _ (ite _ _ _)
        split
        · trivial
        · exact (ih _).bind fun _ ↦ trivial

theorem reads_openSse (id : ResponseId) (batch reads : ℕ) (cursor : Option ℕ) :
    ((responseSource id).openSse batch reads cursor).OnlyCalls Call.Reads := by
  refine ⟨trivial, fun reply ↦ ?_⟩
  rcases reply with e | events
  · trivial
  · exact (reads_listen id _ reads cursor).bind fun _ ↦ trivial

theorem reads_awaitTerminal (cfg : Config) (id : ResponseId) (looks : ℕ) (cursor : Option ℕ) :
    (ResponsesService.awaitTerminal cfg id looks cursor).OnlyCalls Call.Reads := by
  induction looks generalizing cursor with
  | zero => trivial
  | succ looks ih =>
      refine ⟨trivial, fun reply ↦ ?_⟩
      rcases reply with e | (_ | ⟨event, batch⟩)
      · trivial
      · trivial
      · show OnlyCalls _ (ite _ _ _)
        split
        · trivial
        · exact ih _

theorem reads_settle (p : Patience) (request : CreateResponseRequest)
    (outcome : Except ServiceError CreateOutcome) :
    (settle app p request outcome).OnlyCalls Call.Reads := by
  rcases outcome with e | (record | record | _ | _) <;> try trivial
  show (deliver app p request record).OnlyCalls Call.Reads
  unfold deliver
  split
  · exact reads_openSse ..
  · split
    · trivial
    · refine OnlyCalls.bind ?_ fun object ↦ by cases object <;> trivial
      refine (reads_awaitTerminal ..).bind fun waited ↦ ?_
      rcases waited with e | ⟨⟩
      · trivial
      · refine (reads_latestResponseObject ..).bind fun object ↦ ?_
        cases object <;> trivial

/-- Whatever is answered to it on the way, a create writes nothing but the queued turn that the body
describes, validated, for the tenant of its credentials. -/
theorem create_admits {p : Patience} {uuid : Uuid} {accepting : Bool}
    (h : Path (create app p uuid accepting headers raw) xs a) {record : ResponseRecord}
    {key : IdempotencyKey} {now : ℕ} {reply : Except LedgerError CreateOutcome}
    (hx : ⟨.ledger (.create record key now), reply⟩ ∈ xs) :
    accepting = true ∧ app.keys.resolve headers = .ok record.tenantId ∧
      ∃ request items anchor given now',
        CreateResponseRequest.ofValue app.asF64 raw = some request ∧
          request.validate app.urlGuard app.limits = .ok items ∧
            contextAnchor app request = .ok anchor ∧ readIdempotencyKey headers = .ok given ∧
              record = ResponsesService.proposed app.cfg record.tenantId
                (request.turnSpec items anchor) given ⟨app.cfg.nodeTag, uuid⟩ now' := by
  rcases path_orReject h with rfl | ⟨handler, hhandler, hpath⟩
  · cases hx
  obtain ⟨tenant, htenant, hhandler⟩ := bind_eq_ok hhandler
  cases accepting with
  | false => cases hhandler
  | true =>
      obtain ⟨⟨request, items⟩, hrequest, hhandler⟩ := bind_eq_ok hhandler
      obtain ⟨-, hread, hitems⟩ := readRequest_eq_ok.mp hrequest
      obtain ⟨anchor, hanchor, hhandler⟩ := bind_eq_ok hhandler
      obtain ⟨given, hgiven, hhandler⟩ := bind_eq_ok hhandler
      obtain rfl := Except.ok.inj hhandler
      obtain ⟨outcome, ys, zs, rfl, hcreate, hsettle⟩ := path_bind.mp hpath
      rcases List.mem_append.mp hx with hx | hx
      · obtain ⟨now', rfl⟩ := hcreate.onlyCalls (proposes_create ..) hx record key now rfl
        exact ⟨rfl, resolve_of_tenantOrReject htenant, request, items, anchor, given, now',
          hread, hitems, hanchor, hgiven, rfl⟩
      · exact (hsettle.onlyCalls (reads_settle p request outcome) hx).elim

/-! ## Streams -/

/-- The frames of what a stream delivered. -/
def shownFrames (id : ResponseId) : List ResponseEvent × StreamEnd → List Frame
  | (events, .broken e) =>
    events.map (responseSource id).frame ++ [SseSource.errorFrame (mapEventLogError e)]
  | (events, _) => events.map (responseSource id).frame

/-- The answer that a stream which came to its end amounts to. -/
def streamAnswer (id : ResponseId) : List ResponseEvent × StreamEnd → HttpResponse
  | (_, .notFound) => notFound
  | (_, .refused e) => (mapEventLogError e).response
  | out => ⟨.ok, .stream (shownFrames id out)⟩

theorem path_listen_succ {id : ResponseId} {batch reads : ℕ} {cursor : Option ℕ}
    {frames : List Frame} :
    Path ((responseSource id).listen batch (reads + 1) cursor) xs frames ↔
      ∃ reply ys, xs = ⟨.eventLog (.readAfter id cursor batch), reply⟩ :: ys ∧
        match reply with
        | .error e => ys = [] ∧ frames = [SseSource.errorFrame (mapEventLogError e)]
        | .ok events =>
          if events.any (fun e ↦ e.kind.isTerminal) then
            ys = [] ∧ frames = events.map (responseSource id).frame
          else ∃ rest, frames = events.map (responseSource id).frame ++ rest ∧
            Path ((responseSource id).listen batch reads
              ((events.getLast?.map ResponseEvent.sequenceNumber).or cursor)) ys rest := by
  refine path_call.trans (exists₂_congr fun reply ys ↦ and_congr_right fun _ ↦ ?_)
  rcases reply with e | events
  · exact path_ret
  · show Path (if events.any (fun e ↦ e.kind.isTerminal) = true then
        .ret (events.map (responseSource id).frame)
      else (responseSource id).listen batch reads
        ((events.getLast?.map ResponseEvent.sequenceNumber).or cursor) >>= fun rest ↦
          .ret (events.map (responseSource id).frame ++ rest)) ys frames ↔ _
    by_cases hterminal : events.any (fun e ↦ e.kind.isTerminal) = true
    · simp only [if_pos hterminal]
      exact path_ret
    · simp only [if_neg hterminal]
      exact path_map.trans (exists_congr fun rest ↦ and_comm)

/-- The two loops read the same and show the same, one all at the end and one as it goes. -/
theorem path_listen {id : ResponseId} {reads : ℕ} {cursor : Option ℕ} {seen : List ResponseEvent}
    {out : List ResponseEvent × StreamEnd}
    (h : Path (Prog.iterate (streamRound id) reads (cursor, seen)) xs out) :
    (out.2 = .finished ∨ ∃ e, out.2 = .broken e) ∧
      ∃ frames, Path ((responseSource id).listen responseBatch reads cursor) xs frames ∧
        shownFrames id out = seen.map (responseSource id).frame ++ frames := by
  induction reads generalizing cursor seen xs with
  | zero => exact (path_stall h).elim
  | succ reads ih =>
      obtain ⟨reply, ys, rfl, hnext⟩ := path_call.mp h
      rcases reply with e | batch
      · obtain ⟨rfl, rfl⟩ := path_ret.mp hnext
        exact ⟨Or.inr ⟨e, rfl⟩, _, path_listen_succ.mpr ⟨_, _, rfl, rfl, rfl⟩, rfl⟩
      cases batch with
      | nil =>
          obtain ⟨hend, frames, hframes, hshown⟩ := ih hnext
          exact ⟨hend, frames, path_listen_succ.mpr ⟨_, _, rfl, frames, rfl, hframes⟩, hshown⟩
      | cons e batch =>
          by_cases hterminal : (e :: batch).any (fun e ↦ e.kind.isTerminal) = true
          · simp only [bind_eq, ret_bind, hterminal, if_true, pure_eq] at hnext
            obtain ⟨rfl, rfl⟩ := path_ret.mp hnext
            refine ⟨Or.inl rfl, _, path_listen_succ.mpr ⟨_, _, rfl, ?_⟩, List.map_append⟩
            simp only [if_pos hterminal, and_self]
          · simp only [bind_eq, ret_bind, hterminal, pure_eq] at hnext
            obtain ⟨hend, frames, hframes, hshown⟩ := ih hnext
            refine ⟨hend, (e :: batch).map (responseSource id).frame ++ frames,
              path_listen_succ.mpr ⟨_, _, rfl, ?_⟩, ?_⟩
            · simp only [if_neg hterminal]
              exact ⟨frames, rfl, hframes⟩
            · rw [hshown, List.map_append, List.append_assoc]

/-- Whenever a stream comes to its end, the endpoint answers with what it delivered. -/
theorem path_streamImpl {reads : ℕ} {id : ResponseId} {startingAfter : Option ℕ}
    {tenant : TenantId} {out : List ResponseEvent × StreamEnd}
    (h : Path (Gateway.streamImpl reads id (resolveCursor startingAfter headers.lastEventId) tenant)
      xs out) :
    Path (streamImpl reads id startingAfter headers tenant) xs (streamAnswer id out) := by
  have hopen : ∀ {ys}, Path (openStream reads id (resolveCursor startingAfter headers.lastEventId))
      ys out → Path ((responseSource id).openSse responseBatch reads
        (resolveCursor startingAfter headers.lastEventId)) ys (streamAnswer id out) := by
    intro ys hpath
    obtain ⟨probe, zs, rfl, hnext⟩ := path_call.mp hpath
    rcases probe with e | events
    · obtain ⟨rfl, rfl⟩ := path_ret.mp hnext
      exact path_call.mpr ⟨.error e, [], rfl, .ret _⟩
    · obtain ⟨hend, frames, hframes, hshown⟩ := path_listen hnext
      have hanswer : streamAnswer id out = ⟨.ok, .stream frames⟩ := by
        obtain ⟨events, stop⟩ := out
        rw [List.map_nil, List.nil_append] at hshown
        rcases hend with rfl | ⟨e, rfl⟩ <;> rw [streamAnswer, hshown] <;> simp
      rw [hanswer]
      exact path_call.mpr ⟨.ok events, zs, rfl, path_map.mpr ⟨frames, hframes, rfl⟩⟩
  obtain ⟨reply, ys, rfl, hnext⟩ := path_call.mp h
  refine path_call.mpr ⟨reply, ys, rfl, ?_⟩
  rcases reply with e | (_ | record)
  · exact hopen hnext
  · exact hopen hnext
  · by_cases hother : record.tenantId ≠ tenant
    · simp only [bind_eq, ret_bind, if_pos hother, pure_eq] at hnext ⊢
      obtain ⟨rfl, rfl⟩ := path_ret.mp hnext
      exact .ret _
    · simp only [bind_eq, ret_bind, if_neg hother] at hnext ⊢
      exact hopen hnext

/-! ## Responses of others -/

section Foreign

variable {w : World} {tenant : TenantId} {id : ResponseId} {x : ResponseRecord} {named : String}

theorem orReject_named (htenant : tenantOrReject app.keys headers = .ok tenant)
    (hnamed : parseId app named = .ok id)
    (f : TenantId → ResponseId → Except HttpResponse (Service HttpResponse)) :
    (ConversationRoutes.orReject <| tenantOrReject app.keys headers >>= fun tenant ↦
      parseId app named >>= f tenant) = ConversationRoutes.orReject (f tenant id) := by
  rw [htenant]
  change ConversationRoutes.orReject (parseId app named >>= _) = _
  rw [hnamed]
  rfl

theorem orReject_malformed (htenant : tenantOrReject app.keys headers = .ok tenant)
    {e : HttpResponse} (hmalformed : parseId app named = .error e)
    (f : TenantId → ResponseId → Except HttpResponse (Service HttpResponse)) :
    (ConversationRoutes.orReject <| tenantOrReject app.keys headers >>= fun tenant ↦
      parseId app named >>= f tenant) = .ret notFound := by
  have hanswer : e = notFound := by
    unfold parseId at hmalformed
    split at hmalformed <;> cases hmalformed
    rfl
  rw [htenant]
  change ConversationRoutes.orReject (parseId app named >>= _) = _
  rw [hmalformed, hanswer]
  rfl

theorem run_retrieve_foreign (htenant : tenantOrReject app.keys headers = .ok tenant)
    (hnamed : parseId app named = .ok id) (hx : w.store.record id = some x)
    (hother : x.tenantId ≠ tenant) (p : Patience) (stream : Option Bool)
    (startingAfter : Option ℕ) :
    (retrieve app p named stream startingAfter headers).run exec w = some (notFound, w) := by
  have hget : exec (.ledger (.get id)) w = (.ok (some x), w) := by
    simp only [exec, execLedger, MemResponseLedger.get, hx]
  rw [retrieve, orReject_named htenant hnamed]
  split
  · change (streamImpl _ _ _ _ _).run exec w = _
    simp only [streamImpl, Ledger.get, perform_bind, run_call, hget, if_pos hother, pure_eq,
      run_ret]
  · change (ResponsesService.retrieve _ _ _ _ >>= _).run exec w = _
    simp only [ResponsesService.retrieve, Ledger.get, perform_bind, call_bind, run_call, hget,
      if_pos hother, pure_eq, ret_bind, run_ret]

theorem run_cancel_foreign (htenant : tenantOrReject app.keys headers = .ok tenant)
    (hnamed : parseId app named = .ok id) (hx : w.store.record id = some x)
    (hother : x.tenantId ≠ tenant) (hwritable : w.store.readOnly = false) (p : Patience) :
    (cancel app p named headers).run exec w = some (notFound, w) := by
  have hcancel : ∀ now, exec (.ledger (.cancel tenant id now)) w = (.error .notFound, w) := by
    intro now
    simp [exec, execLedger, MemResponseLedger.cancel, MemResponseLedger.guardWritable, hwritable,
      hx, hother]
  rw [cancel, orReject_named htenant hnamed]
  change (ResponsesService.cancel _ _ _ _ >>= _).run exec w = _
  simp only [ResponsesService.cancel, nowMs, Ledger.cancel, perform_bind, call_bind, run_call,
    exec_reads (c := .nowMs) trivial w, hcancel, pure_eq, ret_bind]
  rfl

/-- Asked about or cancelled by anybody else, a response is answered like an id that names none, and
nothing changes. -/
theorem foreign_hidden (htenant : tenantOrReject app.keys headers = .ok tenant)
    (hnamed : parseId app named = .ok id) (hx : w.store.record id = some x)
    (hother : x.tenantId ≠ tenant) {malformed : String} {e : HttpResponse}
    (hmalformed : parseId app malformed = .error e) (p : Patience) :
    (∀ stream startingAfter, (retrieve app p named stream startingAfter headers).run exec w =
      (retrieve app p malformed stream startingAfter headers).run exec w) ∧
    (w.store.readOnly = false →
      (cancel app p named headers).run exec w = (cancel app p malformed headers).run exec w) := by
  constructor
  · intro stream startingAfter
    rw [run_retrieve_foreign htenant hnamed hx hother, retrieve,
      orReject_malformed htenant hmalformed, run_ret]
  · intro hwritable
    rw [run_cancel_foreign htenant hnamed hx hother hwritable, cancel,
      orReject_malformed htenant hmalformed, run_ret]

end Foreign

end ResponseRoutes

end Gateway

end NovaChat
