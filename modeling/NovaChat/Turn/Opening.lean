import NovaChat.Turn.Endings
import NovaChat.Turn.Provenance

/-!
# The announcement of a response

A record can be claimed from the moment the ledger has it, while its announcement is a call of its
own.  As long as no other event of the response is taken in between, the announcement has sequence
number 0, and no other one follows.  A log is forgotten only after whoever settled the response
has closed it, and nothing is appended after that.
-/

namespace NovaChat

open Interact Prog

/-! ## The announcement of one response -/

/-- Where a process is with the announcement and the end of one response. -/
inductive Opening
  | clear
  /-- The record is written, and the announcement is the next call. -/
  | due
  /-- The log has been closed. -/
  | closed
  deriving DecidableEq

/-- A call that appends an event of `r`. -/
def Call.AppendsTo (r : ResponseId) : Call → Prop
  | .eventLog (.append event) => event.responseId = r
  | _ => False

/-- A call that announces `r`. -/
def Call.Announces (r : ResponseId) : Call → Prop
  | .eventLog (.append event) => event.responseId = r ∧ event.kind = .created
  | _ => False

def Opening.Allowed (r : ResponseId) : Opening → Call → Prop
  | clear, c => ¬ c.Announces r
  | due, c => c.Announces r
  | closed, c => ¬ c.AppendsTo r

/-- After the record of `id` was written. -/
def Opening.written (r id : ResponseId) : Opening := if id = r then due else clear

/-- After the log of `id` was closed. -/
def Opening.shut (r id : ResponseId) (s : Opening) : Opening := if id = r then closed else s

def Opening.next (r : ResponseId) : Opening → (c : Call) → c.Reply → Opening
  | clear, .ledger (.create record _ _), .ok (.accepted _) => written r record.responseId
  | clear, .eventLog (.close id _ _), _ => shut r id clear
  | clear, _, _ => clear
  | due, _, _ => clear
  | closed, _, _ => closed

/-- Once `r` is written it is announced, and once its log is closed nothing is appended. -/
def opening (r : ResponseId) : Session Call Call.Reply where
  State := Opening
  allowed := Opening.Allowed r
  answers := Call.Answers
  next := Opening.next r
  rest s := s ≠ .due

section Programs

variable {r : ResponseId} {α : Type}

theorem Opening.clear_ne_due : clear ≠ due := nofun

theorem Opening.shut_ne_due {id : ResponseId} {s : Opening} (hs : s ≠ due) : shut r id s ≠ due := by
  unfold shut
  split_ifs
  · nofun
  · exact hs

theorem idle_clear {c : Call} (hcreate : ∀ record key now, c ≠ .ledger (.create record key now))
    (hclose : ∀ now retain, c ≠ .eventLog (.close r now retain)) (hannounce : ¬ c.Announces r) :
    (opening r).Idle .clear c := by
  refine ⟨hannounce, fun reply _ ↦ ?_⟩
  rcases c with _ | c | c | c | c | c
  · rfl
  · cases c with
    | create record key now => exact absurd rfl (hcreate record key now)
    | _ => rfl
  · cases c with
    | close id now retain => exact if_neg fun hid ↦ hclose now retain (by rw [hid])
    | _ => rfl
  all_goals rfl

theorem idle_conversing {s : Opening} (hs : s ≠ .due) {c : Call} (hc : c.Conversing) :
    (opening r).Idle s c := by
  cases s with
  | clear =>
      refine idle_clear ?_ ?_ ?_
      · rintro record key now rfl
        rcases hc with hc | ⟨call, hcall⟩
        · exact hc
        · cases hcall
      · rintro now retain rfl
        rcases hc with hc | ⟨call, hcall⟩
        · exact hc
        · cases hcall
      · rcases hc with hc | ⟨call, rfl⟩
        · rcases c with _ | c | c | c | c | c <;> first | exact id | skip
          cases c <;> first | exact hc.elim | exact id
        · exact id
  | due => exact absurd rfl hs
  | closed =>
      refine ⟨?_, fun _ _ ↦ rfl⟩
      rcases hc with hc | ⟨call, rfl⟩
      · rcases c with _ | c | c | c | c | c <;> first | exact id | skip
        cases c <;> first | exact hc.elim | exact id
      · exact id

theorem opening_conversing {s : Opening} (hs : s ≠ .due) {p : Service α}
    (hp : p.OnlyCalls Call.Conversing) : (opening r).Follows (fun s' _ ↦ s' = s) s p :=
  .of_onlyCalls hp (fun _ ↦ idle_conversing hs) hs

theorem opening_closing {post : Opening → α → Prop} {s : Opening} {id : ResponseId}
    (hs : s = .clear ∨ s = .closed ∧ id ≠ r) {event : AppendEvent} (hid : event.responseId = id)
    (hkind : event.kind ≠ .created) (now retain : ℕ) {k : Service α}
    (hk : (opening r).Follows post (.shut r id s) k) :
    (opening r).Follows post s (EventLog.append event >>= fun _ ↦
      EventLog.close id now retain >>= fun _ ↦ k) := by
  rcases hs with rfl | ⟨rfl, hne⟩
  · exact ⟨fun h ↦ hkind h.2, fun _ _ ↦ ⟨fun h ↦ h, fun _ _ ↦ hk⟩⟩
  · rw [show Opening.shut r id .closed = .closed from if_neg hne] at hk
    exact ⟨fun h ↦ hne (hid.symm.trans h), fun _ _ ↦ ⟨fun h ↦ h.elim, fun _ _ ↦ hk⟩⟩

/-- The record of `r` is announced by the call after the one that writes it. -/
theorem opening_admitOrRelease (tenant : TenantId) (conversationId : Option ConversationId)
    (record : ResponseRecord) (key : IdempotencyKey) (now : ℕ) :
    (opening r).Follows (fun s _ ↦ s ≠ .due) .clear
      (ResponsesService.admitOrRelease tenant conversationId record key now) := by
  have hrelease : ∀ outcome : Except ServiceError CreateOutcome,
      (opening r).Follows (fun s _ ↦ s ≠ .due) .clear
        (ResponsesService.releaseAfterFailedAdmission tenant conversationId record.responseId >>=
          fun _ ↦ .ret outcome) := by
    intro outcome
    refine (opening_conversing Opening.clear_ne_due
      (conversing_release tenant conversationId _)).bind ?_
    rintro s ⟨⟩ rfl
    exact Opening.clear_ne_due
  refine ⟨fun h ↦ h, fun reply hans ↦ ?_⟩
  rcases reply with e | (x | x | _ | _)
  · exact hrelease _
  · have hid : x.responseId = record.responseId := hans x rfl
    have hclear : ∀ (event : AppendEvent) (reply : Except EventLogError ℕ),
        (opening r).next (.written r record.responseId) (.eventLog (.append event)) reply =
          .clear := by
      intro event reply
      unfold Opening.written
      split_ifs <;> rfl
    refine ⟨?_, fun reply _ ↦ ?_⟩
    · show Opening.Allowed r (.written r record.responseId) _
      unfold Opening.written
      split_ifs with heq
      · exact ⟨hid.trans heq, rfl⟩
      · exact fun h ↦ heq (hid.symm.trans h.1)
    · refine (congrArg (fun s ↦ (opening r).Follows _ s _) (hclear _ reply)).mpr ?_
      rcases reply with e | seq
      · exact hrelease _
      · exact Opening.clear_ne_due
  · exact hrelease _
  · exact hrelease _
  · exact hrelease _

theorem opening_create (cfg : Config) (rounds : ℕ) (tenant : TenantId) (spec : TurnSpec)
    (key : Option IdempotencyKey) (uuid : Uuid) :
    (opening r).Follows (fun s _ ↦ s ≠ .due) .clear
      (ResponsesService.create cfg rounds tenant spec key uuid) := by
  refine ⟨id, fun now _ ↦ ?_⟩
  refine (opening_conversing Opening.clear_ne_due
    ((reads_resolveContext cfg rounds tenant spec.anchor).mono fun _ ↦ Or.inl)).bind ?_
  rintro s (e | resolved) rfl
  · exact Opening.clear_ne_due
  refine (opening_conversing Opening.clear_ne_due
    (conversing_acquireFor tenant _ ⟨cfg.nodeTag, uuid⟩)).bind ?_
  rintro s (e | ⟨⟩) rfl
  · exact Opening.clear_ne_due
  · exact opening_admitOrRelease ..

theorem opening_cancel (cfg : Config) (rounds : ℕ) (tenant : TenantId) (id : ResponseId) :
    (opening r).Follows (fun s _ ↦ s ≠ .due) .clear
      (ResponsesService.cancel cfg rounds tenant id) := by
  refine ⟨fun h ↦ h, fun now _ ↦ ⟨fun h ↦ h, fun reply _ ↦ ?_⟩⟩
  rcases reply with e | ⟨⟩
  · exact Opening.clear_ne_due
  refine ⟨fun h ↦ h, fun reply _ ↦ ?_⟩
  refine (opening_conversing Opening.clear_ne_due
    ((archiving_archiveCancelled rounds tenant id (found reply) now).mono fun _ ↦
      Call.Archiving.conversing)).bind ?_
  rintro s ⟨⟩ rfl
  refine (opening_conversing Opening.clear_ne_due
    (conversing_releaseCancelled tenant id (found reply))).bind ?_
  rintro s ⟨⟩ rfl
  exact opening_closing (Or.inl rfl) rfl (by nofun) _ _ (Opening.shut_ne_due Opening.clear_ne_due)

theorem opening_settleReaped (cfg : Config) (rounds now : ℕ) (claim : AbortedClaim) {s : Opening}
    (hs : s = .clear ∨ s = .closed ∧ claim.responseId ≠ r) :
    (opening r).Follows (fun s' _ ↦ s' = .shut r claim.responseId s) s
      (settleReaped cfg rounds now claim) := by
  have hdue : Opening.shut r claim.responseId s ≠ .due :=
    Opening.shut_ne_due (by rcases hs with rfl | ⟨rfl, -⟩ <;> nofun)
  refine opening_closing hs rfl (by nofun) now cfg.retainAfterTerminalMs
    (opening_conversing hdue ?_)
  cases claim.conversationId with
  | none => exact trivial
  | some c =>
      dsimp only
      split
      · exact ((archiving_archiveReplayed ..).mono fun _ ↦ Call.Archiving.conversing).bind fun _ ↦
          ⟨Or.inr ⟨_, rfl⟩, fun _ ↦ trivial⟩
      · exact ⟨Or.inr ⟨_, rfl⟩, fun _ ↦ trivial⟩

theorem opening_settleAll (cfg : Config) (rounds now : ℕ) : ∀ (claims : List AbortedClaim)
    (s : Opening), (claims.map AbortedClaim.responseId).Nodup →
      s = .clear ∨ s = .closed ∧ r ∉ claims.map AbortedClaim.responseId →
      (opening r).Follows (fun s _ ↦ s ≠ .due) s (settleAll cfg rounds now claims) := by
  intro claims
  induction claims with
  | nil =>
      rintro s - (rfl | ⟨rfl, -⟩) <;> exact nofun
  | cons claim claims ih =>
      intro s hnodup hs
      obtain ⟨hclaim, hnodup⟩ := List.nodup_cons.mp hnodup
      have hfirst : s = .clear ∨ s = .closed ∧ claim.responseId ≠ r :=
        hs.imp_right fun h ↦ ⟨h.1, fun heq ↦ h.2 (by simp [heq])⟩
      refine (opening_settleReaped cfg rounds now claim hfirst).bind fun s' _ hs' ↦ ?_
      refine ih s' hnodup ?_
      subst hs'
      unfold Opening.shut
      split_ifs with heq
      · exact Or.inr ⟨rfl, heq ▸ hclaim⟩
      · exact hs.imp_right fun h ↦ ⟨h.1, fun hmem ↦ h.2 (List.mem_cons_of_mem _ hmem)⟩

theorem opening_tick (cfg : Config) (rounds : ℕ) :
    (opening r).Follows (fun s _ ↦ s ≠ .due) .clear (tick cfg rounds) := by
  refine ⟨id, fun now _ ↦ ⟨id, fun reply hans ↦ ?_⟩⟩
  rcases reply with e | aborted
  · exact Opening.clear_ne_due
  refine (opening_settleAll cfg rounds now aborted .clear (hans aborted rfl) (Or.inl rfl)).bind
    fun s _ hs ↦ ?_
  cases s with
  | clear => exact ⟨id, fun _ _ ↦ Opening.clear_ne_due⟩
  | due => exact absurd rfl hs
  | closed => exact ⟨id, fun _ _ ↦ nofun⟩

theorem opening_closeStream (rt : AgentRuntime) (id : ResponseId) {kind : ResponseEventKind}
    (hkind : kind ≠ .created)
    (object : Except LedgerError (Option ResponseRecord) → ResponseObject) (now : ℕ)
    (out : Executed) : (opening r).Follows (fun s _ ↦ s ≠ .due) .clear
      (Ledger.get id >>= fun reply ↦ rt.closeStream id kind (object reply) now >>=
        fun _ ↦ (.ret out : Service Executed)) :=
  ⟨fun h ↦ h, fun _ _ ↦ opening_closing (Or.inl rfl) rfl hkind _ _
    (Opening.shut_ne_due Opening.clear_ne_due)⟩

theorem opening_conclude (rt : AgentRuntime) (claimed : ClaimedResponse) (now : ℕ)
    (verdict : Verdict) : (opening r).Follows (fun s _ ↦ s ≠ .due) .clear
      (rt.conclude claimed now verdict) := by
  cases verdict with
  | superseded => exact nofun
  | failed usage produced =>
      refine ⟨fun h ↦ h, fun reply _ ↦ ?_⟩
      rcases reply with e | ⟨⟩
      · exact Opening.clear_ne_due
      refine (opening_conversing Opening.clear_ne_due
        ((archiving_archiveFailed rt claimed.record usage produced now).mono fun _ ↦
          Call.Archiving.conversing)).bind ?_
      rintro s ⟨⟩ rfl
      refine (opening_conversing Opening.clear_ne_due
        (conversing_settle rt claimed.record .failed false now)).bind ?_
      rintro s ⟨⟩ rfl
      exact opening_closeStream rt _ (by nofun) _ now _
  | finished output =>
      refine ⟨fun h ↦ h, fun reply _ ↦ ?_⟩
      rcases reply with e | ⟨⟩
      · exact Opening.clear_ne_due
      refine (opening_conversing Opening.clear_ne_due
        ((archiving_storeOutput rt claimed.record output now).mono fun _ ↦
          Call.Archiving.conversing)).bind ?_
      rintro s stored rfl
      refine (opening_conversing Opening.clear_ne_due
        (conversing_settle rt claimed.record output.status stored now)).bind ?_
      rintro s ⟨⟩ rfl
      show (opening r).Follows _ _ (ite _ _ _)
      split
      · exact Opening.clear_ne_due
      · refine opening_closeStream rt _ ?_ _ now _
        cases output.status <;> nofun

theorem opening_runOnce (rt : AgentRuntime) (rounds : ℕ) (agent : AgentId) (now : ℕ) :
    (opening r).Follows (fun s _ ↦ s ≠ .due) .clear (rt.runOnce rounds agent now) := by
  refine ⟨fun h ↦ h, fun reply _ ↦ ?_⟩
  rcases reply with e | (_ | claimed)
  · exact Opening.clear_ne_due
  · exact Opening.clear_ne_due
  show (opening r).Follows _ _ (rt.serve rounds claimed now)
  rw [rt.serve_eq]
  refine (Session.Follows.of_onlyCalls (reports_attempt rt rounds claimed) (fun c hc ↦ ?_)
    Opening.clear_ne_due).bind fun s verdict hs ↦ ?_
  · refine idle_clear ?_ ?_ ?_
    · rintro record key now rfl
      exact hc
    · rintro now retain rfl
      exact hc
    · rcases c with _ | c | c | c | c | c <;> first | exact id | skip
      cases c with
      | append event => exact fun h ↦ hc.1 h.2
      | _ => exact id
  · subst hs
    exact opening_conclude rt claimed now verdict

theorem opening_job {j : Job} (hj : j.OfTurn) :
    (opening r).Follows (fun s _ ↦ s ≠ .due) .clear j.prog := by
  have hforget : ∀ {α : Type} {p : Service α},
      (opening r).Follows (fun s _ ↦ s ≠ .due) .clear p →
        (opening r).Follows (fun s _ ↦ s ≠ .due) .clear (Job.forget p) :=
    fun h ↦ h.bind fun _ _ hs ↦ hs
  cases j with
  | create cfg rounds tenant spec key uuid => exact hforget (opening_create ..)
  | execute rt rounds agent => exact ⟨id, fun now _ ↦ hforget (opening_runOnce ..)⟩
  | heartbeat agent => exact ⟨id, fun _ _ ↦ ⟨id, fun _ _ ↦ Opening.clear_ne_due⟩⟩
  | cancel cfg rounds tenant id => exact hforget (opening_cancel ..)
  | tick cfg rounds => exact opening_tick ..
  | mode c => exact ⟨id, fun _ _ ↦ Opening.clear_ne_due⟩
  | _ => exact hj.elim

end Programs

/-! ## What a trace shows of the stream of one response -/

/-- The event of `r` an event of the run added to its log, with its sequence number. -/
def insertion (r : ResponseId) : Event Call Call.Reply Job → Option (ℕ × AppendEvent)
  | .call _ (.eventLog (.append event)) (.ok seq) =>
    if event.responseId = r then some (seq, event) else none
  | _ => none

/-- All events of `r` in the order they were taken. -/
def inserted (r : ResponseId) (tr : Trace) : List (ℕ × AppendEvent) :=
  tr.filterMap (insertion r)

/-- Whether the log refused the announcement of `r`. -/
def refuses (r : ResponseId) : Event Call Call.Reply Job → Bool
  | .call _ (.eventLog (.append event)) (.error _) =>
    decide (event.responseId = r) && decide (event.kind = .created)
  | _ => false

def Refused (r : ResponseId) (tr : Trace) : Prop := ∃ e ∈ tr, refuses r e = true

section Snoc

variable (r : ResponseId) (tr : Trace)

theorem inserted_snoc (e : Event Call Call.Reply Job) :
    inserted r (tr ++ [e]) = inserted r tr ++ (insertion r e).toList := by
  cases h : insertion r e <;> simp [inserted, h]

theorem refused_snoc (e : Event Call Call.Reply Job) :
    Refused r (tr ++ [e]) ↔ Refused r tr ∨ refuses r e = true := by
  simp [Refused, or_and_right, exists_or]

end Snoc

/-- The announcement of `r` comes first in its stream, and no announcement comes later.  A response
whose announcement was refused is not accepted. -/
structure CreatedFirst (r : ResponseId) (tr : Trace) : Prop where
  first : ¬ Refused r tr → ∀ event, (0, event) ∈ inserted r tr → event.kind = .created
  once : ∀ pre x post, inserted r tr = pre ++ x :: post → x.2.kind = .created → pre = []

/-! ## The condition -/

/-- The response a process is about to announce. -/
def announcing (x : Proc Call Call.Reply Job) : Option ResponseId :=
  match x.prog with
  | .call (.eventLog (.append event)) _ =>
    if event.kind = .created then some event.responseId else none
  | _ => none

def Announcing (q : State) (r : ResponseId) : Prop := ∃ x ∈ q.procs, announcing x = some r

/-- The log would take an event now. -/
def World.Takes (w : World) (event : AppendEvent) : Prop :=
  MemResponseEventLog.fenceCheck w.store event = .ok () ∧ w.log.full event.responseId = false

/-- Nothing else is taken for a response that somebody is about to announce. -/
def Prompt (q : State) : Event Call Call.Reply Job → Prop
  | .call _ (.eventLog (.append event)) _ =>
    event.kind ≠ .created → q.world.Takes event → ¬ Announcing q event.responseId
  | _ => True

def PromptStep (tr : Trace) (q : State) (e : Event Call Call.Reply Job) : Prop :=
  TurnStep tr q e ∧ Prompt q e

section Decidable

variable (r : ResponseId) (tr : Trace) (q : State)

instance : Decidable (Refused r tr) := inferInstanceAs (Decidable (∃ e ∈ tr, _))

instance : Decidable (Announcing q r) := inferInstanceAs (Decidable (∃ x ∈ q.procs, _))

instance (w : World) (event : AppendEvent) : Decidable (w.Takes event) :=
  inferInstanceAs (Decidable (_ ∧ _))

instance : DecidablePred (Prompt q) := fun e ↦ by
  unfold Prompt
  split <;> infer_instance

instance : DecidablePred (PromptStep tr q) := fun _ ↦ inferInstanceAs (Decidable (_ ∧ _))

end Decidable

/-! ## Stages -/

namespace Stage

/-- A process that has won `r` and has yet to settle it, or has settled it. -/
def Owes (r : ResponseId) (s : Stage) : Prop := ∃ won, s = .settling won ∧ ∃ e ∈ won, e.id = r

variable {r : ResponseId} {s : Stage} {c : Call} {reply : c.Reply}

/-- Only writing a record leads to the stage that announces it. -/
theorem next_admitted (h : s.Allowed c) (hans : c.Answers reply)
    (hnext : s.next c reply = .admitted r) :
    s = .admitted r ∨ ∃ record key now x, c = .ledger (.create record key now) ∧
      record.responseId = r ∧ HEq reply (Except.ok (CreateOutcome.accepted x) :
        Except LedgerError CreateOutcome) := by
  cases h with
  | quiet hsteady hquiet =>
      exact Or.inl (((idle_of_quiet hsteady hquiet).2 reply hans).symm.trans hnext)
  | acquire => rcases reply with (_ | holder | _ | _) | seq <;> cases hnext
  | probe =>
      simp only [next] at hnext
      split_ifs at hnext
  | steal => rcases reply with e | released <;> cases hnext
  | write key now hid =>
      rcases reply with e | (x | x | _ | _) <;> cases hnext
      exact Or.inr ⟨_, _, _, x, rfl, rfl, HEq.rfl⟩
  | writeBare key now hid =>
      rcases reply with e | (x | x | _ | _) <;> cases hnext
      exact Or.inr ⟨_, _, _, x, rfl, rfl, HEq.rfl⟩
  | announce => rcases reply with e | seq <;> cases hnext
  | claim => rcases reply with e | _ | claimed <;> cases hnext
  | cancel => rcases reply with e | ⟨⟩ <;> cases hnext
  | reap => rcases reply with e | aborted <;> cases hnext
  | emit => cases reply <;> cases hnext
  | complete => rcases reply with e | ⟨⟩ <;> cases hnext
  | replay => cases reply <;> cases hnext
  | finish => cases reply <;> cases hnext
  | _ => cases hnext

theorem owes_next (h : s.Allowed c) (hans : c.Answers reply) (hnext : (s.next c reply).Owes r) :
    s.Owes r ∨ c.wins r reply = true := by
  obtain ⟨won, hs, e, he, rfl⟩ := hnext
  rcases settling_next h hans hs he with ⟨won₀, e₀, rfl, he₀, hid, -⟩ | ⟨hwin, -⟩
  · exact Or.inl ⟨won₀, rfl, e₀, he₀, hid⟩
  · exact Or.inr hwin

/-- What was won stays won. -/
theorem Owes.next (h : s.Allowed c) (howes : s.Owes r) : (s.next c reply).Owes r := by
  obtain ⟨won, rfl, e, he, rfl⟩ := howes
  have hmap : ∀ f : Settlement → Settlement, (∀ e, (f e).id = e.id) →
      Owes e.id (.settling (won.map f)) := fun f hf ↦
    ⟨_, rfl, f e, List.mem_map_of_mem he, hf e⟩
  have hsame : Owes e.id (.settling won) := ⟨won, rfl, e, he, rfl⟩
  cases h with
  | quiet hsteady => exact hsteady.elim
  | look id => exact hmap _ fun e ↦ Settlement.learn_id ..
  | clock => exact hsame
  | replay =>
      cases reply with
      | error _ => exact hmap _ fun e ↦ Settlement.excuse_id ..
      | ok _ => exact hsame
  | sweep => exact hsame
  | archive => exact hmap _ fun e ↦ Settlement.archived_id ..
  | advance => exact hsame
  | release => exact hsame
  | finish => cases reply <;> exact hsame
  | close => exact hsame

theorem Owes.unwritten (h : s.Owes r) : s.unwritten = none := by
  obtain ⟨won, rfl, -⟩ := h
  rfl

theorem owes_of_close {id : ResponseId} {now retain : ℕ}
    (h : s.Allowed (.eventLog (.close id now retain))) : s.Owes id := by
  cases h with
  | quiet _ hquiet => exact hquiet.elim
  | close now retain he => exact ⟨_, rfl, _, he, rfl⟩

theorem appending {event : AppendEvent} (h : s.Allowed (.eventLog (.append event))) :
    (s = .admitted event.responseId ∧ event.attempt = none ∧ event.kind = .created) ∨
    (∃ record, s = .serving record ∧ event.attempt = some record.attempt) ∨
      s.Owes event.responseId ∧ event.kind.isTerminal = true := by
  cases h with
  | quiet _ hquiet => exact hquiet.elim
  | announce hid hattempt hkind => exact Or.inl ⟨by rw [hid], hattempt, hkind⟩
  | emit hid hattempt => exact Or.inr (Or.inl ⟨_, rfl, hattempt⟩)
  | finish he hid hattempt hkind => exact Or.inr (Or.inr ⟨⟨_, rfl, _, he, hid.symm⟩, hkind⟩)

end Stage

/-! ## Logs nobody has closed -/

/-- Nothing but an event of its own, a close or a removal changes a log that is not closed. -/
theorem exec_log_kept {s : Stage} {c : Call} {w : World} {r : ResponseId} {i : ℕ}
    (hallowed : s.Allowed c) (hins : insertion r (.call i c (exec c w).1) = none)
    (hclose : ∀ now retain, c ≠ .eventLog (.close r now retain))
    (hterm : (w.log.log r).terminalAtMs = none) :
    (exec c w).2.log.logs.lookup r = w.log.logs.lookup r := by
  rcases c with _ | c | c | c | c | c
  · rfl
  · cases c <;> rfl
  · cases c with
    | append event =>
        rcases append_cases event w with ⟨e, heq, -⟩ | ⟨-, -, heq⟩
        · rw [heq]
        · have hid : event.responseId ≠ r := by
            intro hid
            rw [heq] at hins
            simp [insertion, hid] at hins
          rw [heq]
          exact (HashMap.lookup_insert' ..).trans (if_neg (Ne.symm hid))
    | close id now retain =>
        have hid : id ≠ r := fun hid ↦ hclose now retain (by rw [hid])
        simp only [exec, execEventLog, World.withLog_snd, MemResponseEventLog.close]
        cases w.log.logs.lookup id with
        | none => rfl
        | some log => exact (HashMap.lookup_insert' ..).trans (if_neg (Ne.symm hid))
    | sweepExpired now =>
        simp only [exec, execEventLog, World.withLog_snd, MemResponseEventLog.sweepExpired,
          HashMap.lookup_filterMapVal]
        cases hlog : w.log.logs.lookup r with
        | none => rfl
        | some log =>
            have hopen : log.terminalAtMs = none := by
              simpa [EventLogStore.log, hlog] using hterm
            simp [ResponseLog.sweep, ResponseLog.tombstoneDeadline, ResponseLog.retentionDeadline,
              hopen]
    | readAfter => rfl
    | _ => cases hallowed with | quiet _ hquiet => exact hquiet.elim
  · cases c <;> rfl
  · cases c <;> rfl
  · cases c <;> rfl

/-! ## Moving on -/

namespace Opening

variable {r : ResponseId} {o : Opening} {c : Call} {reply : c.Reply}

theorem next_due (ho : o ≠ due) (h : o.next r c reply = due) :
    ∃ record key now x, c = .ledger (.create record key now) ∧ record.responseId = r ∧
      HEq reply (Except.ok (CreateOutcome.accepted x) : Except LedgerError CreateOutcome) := by
  unfold next at h
  split at h
  · next record key now x =>
      unfold written at h
      split_ifs at h with hid
      exact ⟨record, key, now, x, rfl, hid, HEq.rfl⟩
  · unfold shut at h
    split_ifs at h
  · cases h
  · cases h
  · cases h

theorem next_closed (h : o.next r c reply = closed) :
    o = closed ∨ ∃ now retain, c = .eventLog (.close r now retain) := by
  unfold next at h
  split at h
  · unfold written at h
    split_ifs at h
  · next id now retain _ =>
      unfold shut at h
      split_ifs at h with hid
      exact Or.inr ⟨now, retain, by rw [hid]⟩
  · cases h
  · cases h
  · exact Or.inl rfl

theorem next_close (ho : o ≠ due) (now retain : ℕ) (reply : Except EventLogError Unit) :
    o.next r (.eventLog (.close r now retain)) reply = closed := by
  cases o with
  | clear => exact if_pos rfl
  | due => exact absurd rfl ho
  | closed => rfl

end Opening

/-! ## The invariant -/

/-- The session of a turn beside that of the announcement of `r`. -/
def openTurn (r : ResponseId) : Session Call Call.Reply := turn.prod (opening r)

def Opening.first (j : Job) : Stage × Opening := (Stage.first j, .clear)

structure Opened (r : ResponseId) (tr : Trace) (w : World) (ss : List (Stage × Opening)) :
    Prop where
  absent : w.store.record r = none →
    inserted r tr = [] ∧ ¬ Refused r tr ∧ w.log.logs.lookup r = none
  due : ∀ {i : ℕ} {s : Stage} {o}, ss[i]? = some (s, o) → (o = .due ↔ s = .admitted r)
  admitted : ∀ {i : ℕ} {o}, ss[i]? = some (.admitted r, o) → w.store.record r ≠ none ∧
    inserted r tr = [] ∧ ¬ Refused r tr ∧ w.log.logs.lookup r = none
  sole : ∀ {i j : ℕ} {o o'}, ss[i]? = some (.admitted r, o) → ss[j]? = some (.admitted r, o') →
    i = j
  closed : ∀ {i : ℕ} {s : Stage}, ss[i]? = some (s, .closed) → s.Owes r
  ended : ∀ {i : ℕ} {s : Stage} {o}, ss[i]? = some (s, o) → s.Owes r → w.Ended r
  one : ∀ {i j : ℕ} {s s' : Stage} {o o'}, ss[i]? = some (s, o) → ss[j]? = some (s', o') →
    s.Owes r → s'.Owes r → i = j
  opened : w.store.record r ≠ none →
    inserted r tr ≠ [] ∨ Refused r tr ∨ ∃ (i : ℕ) (s : Stage), ss[i]? = some (s, .due)
  first : ¬ Refused r tr → ∀ x ∈ (inserted r tr).head?, x.2.kind = .created
  refused : Refused r tr → ∀ x ∈ inserted r tr, x.2.kind ≠ .created
  later : ∀ x ∈ (inserted r tr).tail, x.2.kind ≠ .created
  numbered : (inserted r tr).map Prod.fst = List.range (inserted r tr).length
  live : (∀ (i : ℕ) (s : Stage), ss[i]? ≠ some (s, .closed)) →
    (w.log.log r).nextSeq = (inserted r tr).length ∧ (w.log.log r).terminalAtMs = none

namespace Opened

variable {r : ResponseId} {tr tr' : Trace} {w w' : World} {ss ss' : List (Stage × Opening)}

/-- What a step leaves of the sessions that adds nothing to the stream of `r`: at most process `k`
has won `r` in it. -/
structure Carried (r : ResponseId) (k : ℕ) (w' : World) (ss ss' : List (Stage × Opening)) :
    Prop where
  due : ∀ {i : ℕ} {s : Stage} {o}, ss'[i]? = some (s, o) → (o = .due ↔ s = .admitted r)
  admitted : ∀ {i : ℕ} {o}, ss'[i]? = some (.admitted r, o) → ss[i]? = some (.admitted r, o)
  owes : ∀ {i : ℕ} {s : Stage} {o}, ss'[i]? = some (s, o) → s.Owes r →
    (∃ s o, ss[i]? = some (s, o) ∧ s.Owes r) ∨
      i = k ∧ w'.Ended r ∧ ∀ (j : ℕ) (s : Stage) (o : Opening), ss[j]? = some (s, o) → ¬ s.Owes r
  closed : ∀ {i : ℕ} {s : Stage}, ss'[i]? = some (s, .closed) → s.Owes r
  kept : ∀ {i : ℕ} {s : Stage}, ss[i]? = some (s, .due) → ∃ s, ss'[i]? = some (s, .due)

theorem carry {k : ℕ} (h : Opened r tr w ss) (hss : Carried r k w' ss ss')
    (hins : inserted r tr' = inserted r tr) (href : Refused r tr' ↔ Refused r tr)
    (hrec : w'.store.record r = none ↔ w.store.record r = none) (hended : w.Ended r → w'.Ended r)
    (hlog : w.log.logs.lookup r = none → w'.log.logs.lookup r = none)
    (hlive : (∀ (i : ℕ) (s : Stage), ss'[i]? ≠ some (s, .closed)) →
      (∀ (i : ℕ) (s : Stage), ss[i]? ≠ some (s, .closed)) ∧
        ((w.log.log r).terminalAtMs = none → w'.log.log r = w.log.log r)) :
    Opened r tr' w' ss' := by
  refine ⟨?_, hss.due, fun {i o} hs ↦ ?_, fun hs hs' ↦ h.sole (hss.admitted hs) (hss.admitted hs'),
    hss.closed, fun {i s o} hs howes ↦ ?_, fun {i j s s' o o'} hs hs' howes howes' ↦ ?_, ?_, ?_, ?_,
    ?_, ?_, fun hnone ↦ ?_⟩
  · rw [hrec, hins, href]
    exact fun hnone ↦ (h.absent hnone).imp_right (And.imp_right hlog)
  · rw [Ne, hrec, hins, href]
    exact (h.admitted (hss.admitted hs)).imp_right (And.imp_right (And.imp_right hlog))
  · rcases hss.owes hs howes with ⟨s₀, o₀, hs₀, howes₀⟩ | ⟨-, hended', -⟩
    · exact hended (h.ended hs₀ howes₀)
    · exact hended'
  · rcases hss.owes hs howes with ⟨s₀, o₀, hs₀, howes₀⟩ | ⟨rfl, -, hno⟩ <;>
      rcases hss.owes hs' howes' with ⟨s₁, o₁, hs₁, howes₁⟩ | ⟨rfl, -, hno'⟩
    · exact h.one hs₀ hs₁ howes₀ howes₁
    · exact absurd howes₀ (hno' _ _ _ hs₀)
    · exact absurd howes₁ (hno _ _ _ hs₁)
    · rfl
  · rw [Ne, hrec, hins, href]
    refine fun hsome ↦ (h.opened hsome).imp_right (Or.imp_right ?_)
    rintro ⟨i, s, hs⟩
    exact ⟨i, hss.kept hs⟩
  · rw [hins, href]
    exact h.first
  · rw [hins, href]
    exact h.refused
  · rw [hins]
    exact h.later
  · rw [hins]
    exact h.numbered
  · obtain ⟨hopen, hsame⟩ := hlive hnone
    obtain ⟨hseq, hterm⟩ := h.live hopen
    rw [hsame hterm, hins]
    exact ⟨hseq, hterm⟩

theorem start (h : Opened r tr w ss) (j : Job) : Opened r (tr ++ [.start j]) w
    ((openTurn r).advance Opening.first ss (.start j : Event Call Call.Reply Job)) := by
  have hold : ∀ {i : ℕ} {x : Stage × Opening}, ((openTurn r).advance Opening.first ss
      (.start j : Event Call Call.Reply Job))[i]? = some x →
      ss[i]? = some x ∨ x = (Stage.first j, .clear) := by
    intro i x hx
    exact (Session.getElem?_advance_start hx).imp_right And.right
  have hadmitted : Stage.first j ≠ .admitted r := by
    rcases Stage.first_cases j with ⟨hf, -⟩ | ⟨id, -, ⟨c, hf⟩ | ⟨a, hf⟩⟩ <;> rw [hf] <;> nofun
  have howes : ¬ (Stage.first j).Owes r := by
    rintro ⟨won, heq, -⟩
    rcases Stage.first_cases j with ⟨hf, -⟩ | ⟨id, -, ⟨c, hf⟩ | ⟨a, hf⟩⟩ <;>
      rw [hf] at heq <;> cases heq
  refine h.carry (k := 0) ⟨fun {i s o} hs ↦ ?_, fun {i o} hs ↦ ?_, fun {i s o} hs hso ↦ ?_,
    fun {i s} hs ↦ ?_, fun {i s} hs ↦ ⟨s, Session.getElem?_advance_start_of_some hs⟩⟩ ?_ ?_ Iff.rfl
      id id fun hnone ↦ ⟨fun i s hs ↦ hnone i s (Session.getElem?_advance_start_of_some hs),
        fun _ ↦ rfl⟩
  · rcases hold hs with hs | heq
    · exact h.due hs
    · obtain ⟨rfl, rfl⟩ := Prod.mk.inj heq
      exact ⟨nofun, fun heq ↦ absurd heq hadmitted⟩
  · rcases hold hs with hs | heq
    · exact hs
    · exact absurd (Prod.mk.inj heq).1.symm hadmitted
  · rcases hold hs with hs | heq
    · exact Or.inl ⟨s, o, hs, hso⟩
    · exact absurd ((Prod.mk.inj heq).1 ▸ hso) howes
  · rcases hold hs with hs | heq
    · exact h.closed hs
    · cases heq
  · rw [inserted_snoc]
    exact List.append_nil _
  · rw [refused_snoc]
    exact or_iff_left Bool.false_ne_true

section Call

variable {i : ℕ} {s : Stage} {o : Opening} {c : Call}

theorem getElem?_after (hs : ss[i]? = some (s, o)) (c : Call) (reply : c.Reply) (j : ℕ) :
    ((openTurn r).advance Opening.first ss (.call i c reply : Event Call Call.Reply Job))[j]? =
      if i = j then some (s.next c reply, o.next r c reply) else ss[j]? :=
  Session.getElem?_advance_call (S := openTurn r) (s := (s, o)) hs

/-- A call that neither writes nor announces `r`, and adds nothing to its stream. -/
theorem other (h : Opened r tr w ss) (hs : ss[i]? = some (s, o)) (hallowed : s.Allowed c)
    (hopening : o.Allowed r c) (hquiet : ¬ c.Announces r)
    (hins : insertion r (.call i c (exec c w).1) = none)
    (hwrite : ∀ record key now x, c = .ledger (.create record key now) → record.responseId = r →
      ¬ HEq (exec c w).1 (Except.ok (CreateOutcome.accepted x) :
        Except LedgerError CreateOutcome)) :
    Opened r (tr ++ [.call i c (exec c w).1]) (exec c w).2
      ((openTurn r).advance Opening.first ss (.call i c (exec c w).1)) := by
  have hans := exec_answers c w
  have hss := getElem?_after (r := r) hs c (exec c w).1
  have ho : o ≠ .due := by
    rintro rfl
    exact hquiet hopening
  have hnotdue : o.next r c (exec c w).1 ≠ .due := by
    intro hdue
    obtain ⟨record, key, now, x, hc, hid, hreply⟩ := Opening.next_due ho hdue
    exact hwrite record key now x hc hid hreply
  have hnotadmitted : s.next c (exec c w).1 ≠ .admitted r := by
    intro hnext
    rcases Stage.next_admitted hallowed hans hnext with
      hadm | ⟨record, key, now, x, hc, hid, hreply⟩
    · exact ho ((h.due hs).mpr hadm)
    · exact hwrite record key now x hc hid hreply
  -- A create of `r` that is not accepted leaves the world alone.
  have hsame : c.writes = some r → (exec c w).2 = w := by
    intro hwrites
    rcases c with _ | c | c | c | c | c <;> first | cases hwrites | skip
    cases c with
    | create record key now =>
        rcases exec_create record key now w with ⟨-, heq⟩ | ⟨x, hreply, -⟩
        · exact heq
        · exact absurd (heq_of_eq hreply) (hwrite record key now x rfl (Option.some.inj hwrites))
    | _ => cases hwrites
  have hrec : (exec c w).2.store.record r = none ↔ w.store.record r = none := by
    by_cases hwrites : c.writes = some r
    · rw [hsame hwrites]
    rcases settled_or_kept hallowed hwrites w with ⟨lc, rfl, hlc⟩ | hkept
    · have hadv := exec_ledger_advances hlc w
      refine ⟨fun hnone ↦ ?_, hadv.none⟩
      cases hx : w.store.record r with
      | none => rfl
      | some x =>
          obtain ⟨x', hx', -⟩ := hadv.some hx
          rw [hx'] at hnone
          cases hnone
    · rw [hkept]
  have hended : w.Ended r → (exec c w).2.Ended r := by
    rintro ⟨x, hx, hterm⟩
    by_cases hwrites : c.writes = some r
    · exact (hsame hwrites).symm ▸ ⟨x, hx, hterm⟩
    · exact ⟨x, terminal_persists hallowed hwrites hx hterm, hterm⟩
  have hlog : (∀ now retain, c ≠ .eventLog (.close r now retain)) →
      (w.log.log r).terminalAtMs = none → (exec c w).2.log.logs.lookup r = w.log.logs.lookup r :=
    exec_log_kept hallowed hins
  refine h.carry (k := i) ⟨fun {j t p} ht ↦ ?_, fun {j p} ht ↦ ?_, fun {j t p} ht howes ↦ ?_,
    fun {j t} ht ↦ ?_, fun {j t} ht ↦ ?_⟩ ?_ ?_ hrec hended (fun hnone ↦ ?_) (fun hnone ↦ ⟨?_, ?_⟩)
  · have ht := (hss j).symm.trans ht
    split_ifs at ht with hij
    · obtain ⟨rfl, rfl⟩ := Prod.mk.inj (Option.some.inj ht)
      exact ⟨fun heq ↦ absurd heq hnotdue, fun heq ↦ absurd heq hnotadmitted⟩
    · exact h.due ht
  · have ht := (hss j).symm.trans ht
    split_ifs at ht with hij
    · exact absurd (Prod.mk.inj (Option.some.inj ht)).1 hnotadmitted
    · exact ht
  · have ht := (hss j).symm.trans ht
    split_ifs at ht with hij
    · obtain ⟨rfl, rfl⟩ := Prod.mk.inj (Option.some.inj ht)
      subst hij
      rcases Stage.owes_next hallowed hans howes with howes | hwin
      · exact Or.inl ⟨s, o, hs, howes⟩
      · obtain ⟨x, x', hx, hopen, hx', hterm, -⟩ := exec_wins hwin
        refine Or.inr ⟨rfl, ⟨x', hx', hterm⟩, fun j t p ht howes ↦ ?_⟩
        obtain ⟨y, hy, hyterm⟩ := h.ended ht howes
        obtain rfl : x = y := Option.some.inj (hx.symm.trans hy)
        rw [hopen] at hyterm
        cases hyterm
    · exact Or.inl ⟨t, p, ht, howes⟩
  · have ht := (hss j).symm.trans ht
    split_ifs at ht with hij
    · obtain ⟨rfl, hclosed⟩ := Prod.mk.inj (Option.some.inj ht)
      refine Stage.Owes.next hallowed ?_
      rcases Opening.next_closed hclosed with rfl | ⟨now, retain, rfl⟩
      · exact h.closed hs
      · exact Stage.owes_of_close hallowed
    · exact h.closed ht
  · refine ⟨t, (hss j).trans ?_⟩
    rw [if_neg ?_]
    · exact ht
    · rintro rfl
      exact ho (Prod.mk.inj (Option.some.inj (hs.symm.trans ht))).2
  · rw [inserted_snoc, hins]
    exact List.append_nil _
  · rw [refused_snoc]
    refine or_iff_left fun href ↦ hquiet ?_
    unfold refuses at href
    split at href
    · next event _ heq =>
        obtain ⟨-, rfl, -⟩ := Event.call.inj heq
        simpa [Call.Announces] using href
    · cases href
  · by_cases hclose : ∃ now retain, c = .eventLog (.close r now retain)
    · obtain ⟨now, retain, rfl⟩ := hclose
      simp only [exec, execEventLog, World.withLog_snd, MemResponseEventLog.close, hnone]
    · push Not at hclose
      exact (hlog hclose (by simp [EventLogStore.log, hnone])).trans hnone
  · intro j t ht
    by_cases hij : i = j
    · subst hij
      obtain ⟨rfl, rfl⟩ := Prod.mk.inj (Option.some.inj (hs.symm.trans ht))
      exact hnone i _ ((hss i).trans (if_pos rfl))
    · exact hnone j t (((hss j).trans (if_neg hij)).trans ht)
  · intro hterm
    refine congrArg (Option.getD · {}) (hlog ?_ hterm)
    rintro now retain rfl
    exact hnone i _ (((hss i).trans (if_pos rfl)).trans
      (congrArg (fun o ↦ some (_, o)) (Opening.next_close ho now retain _)))

theorem log_pushed (l : EventLogStore) (event : AppendEvent) :
    (l.pushed event).log event.responseId =
      (l.log event.responseId).push l.capacityPerResponse event := by
  show ((l.pushed event).logs.lookup event.responseId).getD {} = _
  unfold EventLogStore.pushed
  rw [HashMap.lookup_insert', if_pos rfl]
  rfl

/-- Any other event of `r` that is taken: nobody has closed the log, and it joins the end. -/
theorem insert {event : AppendEvent} (h : Opened event.responseId tr w ss)
    (hs : ss[i]? = some (s, o)) (hallowed : s.Allowed (.eventLog (.append event)))
    (hopening : o.Allowed event.responseId (.eventLog (.append event)))
    (hkind : event.kind ≠ .created)
    (hfence : MemResponseEventLog.fenceCheck w.store event = .ok ())
    (hprompt : ∀ (j : ℕ) (t : Stage), ss[j]? ≠ some (t, .due)) {seq : ℕ}
    (hseq : seq = (w.log.log event.responseId).nextSeq) :
    Opened event.responseId (tr ++ [.call i (.eventLog (.append event)) (.ok seq)])
      { w with log := w.log.pushed event } ((openTurn event.responseId).advance Opening.first ss
        (.call i (.eventLog (.append event)) (.ok seq) : Event Call Call.Reply Job)) := by
  have hss := getElem?_after (r := event.responseId) hs (.eventLog (.append event)) (.ok seq)
  have hclear : o = .clear := by
    cases o with
    | clear => rfl
    | due => exact absurd hs (hprompt i s)
    | closed => exact absurd rfl hopening
  subst hclear
  -- Whoever appends it runs the response or has won it, so nobody has closed its log.
  have hwho : s.next (.eventLog (.append event)) (.ok seq) = s ∧
      w.store.record event.responseId ≠ none ∧
      ∀ (j : ℕ) (t : Stage), ss[j]? ≠ some (t, .closed) := by
    rcases Stage.appending hallowed with ⟨-, -, hcreated⟩ | ⟨record, rfl, hattempt⟩ | ⟨howes, -⟩
    · exact absurd hcreated hkind
    · have hforce : w.InForce event.responseId record.attempt :=
        inForce_of_fenceCheck hattempt hfence
      refine ⟨rfl, ?_, fun j t ht ↦ ?_⟩
      · obtain ⟨x, hx, -⟩ := hforce
        rw [hx]
        nofun
      · exact (h.ended ht (h.closed ht)).not_inForce hforce
    · refine ⟨?_, ?_, fun j t ht ↦ ?_⟩
      · obtain ⟨won, rfl, -⟩ := howes
        rfl
      · obtain ⟨x, hx, -⟩ := h.ended hs howes
        rw [hx]
        nofun
      · obtain rfl := h.one hs ht howes (h.closed ht)
        rw [hs] at ht
        cases ht
  obtain ⟨hnext, hsome, hopen⟩ := hwho
  have hsame : ∀ j : ℕ, ((openTurn event.responseId).advance Opening.first ss
      (.call i (.eventLog (.append event)) (.ok seq) : Event Call Call.Reply Job))[j]? =
        ss[j]? := by
    intro j
    rw [hss]
    split_ifs with hij
    · subst hij
      rw [hs, hnext]
      rfl
    · rfl
  rw [List.ext_getElem? hsame]
  obtain ⟨hlen, hterm⟩ := h.live hopen
  rw [hlen] at hseq
  have hins : inserted event.responseId (tr ++ [.call i (.eventLog (.append event)) (.ok seq)]) =
      inserted event.responseId tr ++ [(seq, event)] := by
    rw [inserted_snoc]
    simp [insertion]
  have href : Refused event.responseId (tr ++ [.call i (.eventLog (.append event)) (.ok seq)]) ↔
      Refused event.responseId tr := by
    rw [refused_snoc]
    exact or_iff_left Bool.false_ne_true
  have hne : ¬ Refused event.responseId tr → inserted event.responseId tr ≠ [] := by
    intro hnot
    rcases h.opened hsome with hne | href | ⟨j, t, ht⟩
    · exact hne
    · exact absurd href hnot
    · exact absurd ht (hprompt j t)
  refine ⟨fun hnone ↦ absurd hnone hsome, h.due, fun {j p} ht ↦ ?_, h.sole, h.closed, h.ended,
    h.one, fun _ ↦ Or.inl ?_, fun hnot x hx ↦ ?_, fun hrefused x hx ↦ ?_, fun x hx ↦ ?_, ?_,
    fun _ ↦ ⟨?_, ?_⟩⟩
  · obtain rfl := (h.due ht).mpr rfl
    exact absurd ht (hprompt j _)
  · rw [hins]
    simp
  · rw [href] at hnot
    rw [hins, List.head?_append_of_ne_nil _ (hne hnot)] at hx
    exact h.first hnot x hx
  · rw [hins] at hx
    rcases List.mem_append.mp hx with hx | hx
    · exact h.refused (href.mp hrefused) x hx
    · obtain rfl := List.mem_singleton.mp hx
      exact hkind
  · rw [hins] at hx
    cases hold : inserted event.responseId tr with
    | nil => simp [hold] at hx
    | cons y ys =>
        rw [hold] at hx
        rcases List.mem_append.mp hx with hx | hx
        · exact h.later x (by rwa [hold])
        · obtain rfl := List.mem_singleton.mp hx
          exact hkind
  · rw [hins, List.map_append, h.numbered, List.length_append, hseq]
    exact List.range_succ.symm
  · rw [log_pushed, hins, List.length_append, ← hlen]
    rfl
  · rw [log_pushed]
    exact hterm

/-- The announcement is taken as the first event of the stream, or is refused. -/
theorem announce {event : AppendEvent} (h : Opened event.responseId tr w ss)
    (hs : ss[i]? = some (s, o)) (hallowed : s.Allowed (.eventLog (.append event)))
    (hopening : o.Allowed event.responseId (.eventLog (.append event)))
    (hkind : event.kind = .created) :
    Opened event.responseId
      (tr ++ [.call i (.eventLog (.append event)) (exec (.eventLog (.append event)) w).1])
      (exec (.eventLog (.append event)) w).2 ((openTurn event.responseId).advance Opening.first ss
        (.call i (.eventLog (.append event)) (exec (.eventLog (.append event)) w).1)) := by
  have hss := getElem?_after (r := event.responseId) hs (.eventLog (.append event))
    (exec (.eventLog (.append event)) w).1
  have hdue : o = .due := by
    cases o with
    | clear => exact absurd ⟨rfl, hkind⟩ hopening
    | due => rfl
    | closed => exact absurd rfl hopening
  subst hdue
  obtain rfl := (h.due hs).mp rfl
  obtain ⟨hsome, hnil, hnot, hlog⟩ := h.admitted hs
  -- Whichever way it went, the process is through with the announcement.
  have hdone : ∀ reply : Except EventLogError ℕ, ∃ s',
      Stage.next (.admitted event.responseId) (.eventLog (.append event)) reply = s' ∧
        s' ≠ .admitted event.responseId ∧ ¬ s'.Owes event.responseId := by
    intro reply
    cases reply with
    | ok seq => exact ⟨.idle, rfl, nofun, fun ⟨_, heq, _⟩ ↦ by cases heq⟩
    | error e => exact ⟨.orphaned _, rfl, nofun, fun ⟨_, heq, _⟩ ↦ by cases heq⟩
  obtain ⟨s', hnext, hnotadmitted, hnotowes⟩ := hdone (exec (.eventLog (.append event)) w).1
  rw [hnext] at hss
  have hold : ∀ {j : ℕ} {t : Stage} {p : Opening}, ((openTurn event.responseId).advance
      Opening.first ss (.call i (.eventLog (.append event))
        (exec (.eventLog (.append event)) w).1))[j]? = some (t, p) →
      (t = s' ∧ p = .clear) ∨ (i ≠ j ∧ ss[j]? = some (t, p)) := by
    intro j t p ht
    have ht := (hss j).symm.trans ht
    split_ifs at ht with hij
    · obtain ⟨rfl, rfl⟩ := Prod.mk.inj (Option.some.inj ht)
      exact Or.inl ⟨rfl, rfl⟩
    · exact Or.inr ⟨hij, ht⟩
  have hnobody : ∀ {j : ℕ} {p : Opening}, ((openTurn event.responseId).advance Opening.first ss
      (.call i (.eventLog (.append event)) (exec (.eventLog (.append event)) w).1))[j]? ≠
        some (.admitted event.responseId, p) := by
    intro j p ht
    rcases hold ht with ⟨heq, -⟩ | ⟨hij, ht⟩
    · exact hnotadmitted heq.symm
    · exact hij (h.sole hs ht)
  have hstore : (exec (.eventLog (.append event)) w).2.store = w.store := exec_eventLog_store _ w
  have howes : ∀ {j : ℕ} {t : Stage} {p : Opening}, ((openTurn event.responseId).advance
      Opening.first ss (.call i (.eventLog (.append event))
        (exec (.eventLog (.append event)) w).1))[j]? = some (t, p) → t.Owes event.responseId →
      ss[j]? = some (t, p) := by
    intro j t p ht hto
    rcases hold ht with ⟨rfl, -⟩ | ⟨-, ht⟩
    · exact absurd hto hnotowes
    · exact ht
  have hopen : (∀ (j : ℕ) (t : Stage), ((openTurn event.responseId).advance Opening.first ss
      (.call i (.eventLog (.append event)) (exec (.eventLog (.append event)) w).1))[j]? ≠
        some (t, .closed)) → ∀ (j : ℕ) (t : Stage), ss[j]? ≠ some (t, .closed) := by
    intro hnone j t ht
    by_cases hij : i = j
    · subst hij
      rw [hs] at ht
      cases ht
    · exact hnone j t (((hss j).trans (if_neg hij)).trans ht)
  have hstream : (Refused event.responseId
      (tr ++ [.call i (.eventLog (.append event)) (exec (.eventLog (.append event)) w).1]) ∧
        inserted event.responseId
          (tr ++
            [.call i (.eventLog (.append event)) (exec (.eventLog (.append event)) w).1]) = [] ∧
        (exec (.eventLog (.append event)) w).2.log = w.log) ∨
      ¬ Refused event.responseId
        (tr ++ [.call i (.eventLog (.append event)) (exec (.eventLog (.append event)) w).1]) ∧
      inserted event.responseId
        (tr ++ [.call i (.eventLog (.append event)) (exec (.eventLog (.append event)) w).1]) =
          [(0, event)] ∧
      (exec (.eventLog (.append event)) w).2.log = w.log.pushed event := by
    rw [inserted_snoc, refused_snoc, hnil]
    rcases append_cases event w with ⟨e, heq, -⟩ | ⟨-, -, heq⟩ <;> rw [heq]
    · exact Or.inl ⟨Or.inr (by simp [refuses, hkind]), rfl, rfl⟩
    · have hseq : (w.log.log event.responseId).nextSeq = 0 := by simp [EventLogStore.log, hlog]
      rw [hseq]
      exact Or.inr ⟨not_or.mpr ⟨hnot, Bool.false_ne_true⟩, by simp [insertion], rfl⟩
  refine ⟨fun hnone ↦ absurd (hstore ▸ hnone) hsome, fun {j t p} ht ↦ ?_,
    fun ht ↦ absurd ht hnobody, fun ht ↦ absurd ht hnobody, fun {j t} ht ↦ ?_,
    fun {j t p} ht hto ↦ ?_, fun ht ht' hto hto' ↦ h.one (howes ht hto) (howes ht' hto') hto hto',
    fun _ ↦ ?_, fun hnot' x hx ↦ ?_, fun href x hx ↦ ?_, fun x hx ↦ ?_, ?_, fun hnone ↦ ?_⟩
  · rcases hold ht with ⟨rfl, rfl⟩ | ⟨-, ht⟩
    · exact ⟨nofun, fun heq ↦ absurd heq hnotadmitted⟩
    · exact h.due ht
  · rcases hold ht with ⟨-, heq⟩ | ⟨-, ht⟩
    · cases heq
    · exact h.closed ht
  · rw [World.Ended, hstore]
    exact h.ended (howes ht hto) hto
  · rcases hstream with ⟨href, -⟩ | ⟨-, hins, -⟩
    · exact Or.inr (Or.inl href)
    · exact Or.inl (by simp [hins])
  · rcases hstream with ⟨href, -⟩ | ⟨-, hins, -⟩
    · exact absurd href hnot'
    · obtain rfl : (0, event) = x := by simpa [hins] using hx
      exact hkind
  · rcases hstream with ⟨-, hins, -⟩ | ⟨hnot', -⟩
    · rw [hins] at hx
      cases hx
    · exact absurd href hnot'
  · rcases hstream with ⟨-, hins, -⟩ | ⟨-, hins, -⟩ <;> rw [hins] at hx <;> cases hx
  · rcases hstream with ⟨-, hins, -⟩ | ⟨-, hins, -⟩ <;> rw [hins] <;> rfl
  · obtain ⟨hlen, hterm⟩ := h.live (hopen hnone)
    rcases hstream with ⟨-, hins, heq⟩ | ⟨-, hins, heq⟩ <;> rw [hins, heq]
    · rw [hnil] at hlen
      exact ⟨hlen, hterm⟩
    · rw [hnil] at hlen
      rw [log_pushed]
      exact ⟨congrArg (· + 1) hlen, hterm⟩

/-- The record of `r` is written once, and its announcement is due. -/
theorem write {record : ResponseRecord} {key : IdempotencyKey} {now : ℕ} {x : ResponseRecord}
    (h : Opened record.responseId tr w ss) (hs : ss[i]? = some (s, o))
    (hallowed : s.Allowed (.ledger (.create record key now)))
    (hopening : o.Allowed record.responseId (.ledger (.create record key now)))
    (hnone : w.store.record record.responseId = none)
    (hreply : (exec (.ledger (.create record key now)) w).1 = .ok (.accepted x)) :
    Opened record.responseId
      (tr ++ [.call i (.ledger (.create record key now)) (.ok (.accepted x))])
      (exec (.ledger (.create record key now)) w).2
      ((openTurn record.responseId).advance Opening.first ss
        (.call i (.ledger (.create record key now)) (.ok (.accepted x)) :
          Event Call Call.Reply Job)) := by
  have hss := getElem?_after (r := record.responseId) hs (.ledger (.create record key now))
    (.ok (.accepted x))
  have hclear : o = .clear := by
    cases o with
    | clear => rfl
    | due => exact hopening.elim
    | closed =>
        have hun := (h.closed hs).unwritten
        rw [Stage.unwritten_of_writes hallowed rfl] at hun
        cases hun
  subst hclear
  have hnext : Opening.next record.responseId .clear (.ledger (.create record key now))
      (.ok (.accepted x)) = .due := if_pos rfl
  rw [Stage.next_create_accepted, hnext] at hss
  have hsome : (exec (.ledger (.create record key now)) w).2.store.record record.responseId ≠ none ∧
      (exec (.ledger (.create record key now)) w).2.log = w.log := by
    rcases exec_create record key now w with ⟨hnot, -⟩ | ⟨y, -, hsign, -, heq⟩
    · exact absurd hreply (hnot x)
    · have hid : record.responseId = y.responseId := by rw [MemResponseLedger.sign_spec hsign]
      rw [heq]
      refine ⟨?_, rfl⟩
      rw [(MemResponseLedger.record_enqueue w.store y key record.responseId).trans (if_pos hid)]
      nofun
  obtain ⟨hnil, hnot, hlog⟩ := h.absent hnone
  have hins : inserted record.responseId
      (tr ++ [.call i (.ledger (.create record key now)) (.ok (.accepted x))]) = [] := by
    rw [inserted_snoc, hnil]
    rfl
  have href : ¬ Refused record.responseId
      (tr ++ [.call i (.ledger (.create record key now)) (.ok (.accepted x))]) := by
    rw [refused_snoc]
    exact not_or.mpr ⟨hnot, Bool.false_ne_true⟩
  -- Nobody was announcing or settling a response without a record.
  have hold : ∀ {j : ℕ} {t : Stage} {p : Opening}, ((openTurn record.responseId).advance
      Opening.first ss (.call i (.ledger (.create record key now)) (.ok (.accepted x)) :
        Event Call Call.Reply Job))[j]? = some (t, p) →
      (i = j ∧ t = .admitted record.responseId ∧ p = .due) ∨
        ss[j]? = some (t, p) ∧ t ≠ .admitted record.responseId ∧ ¬ t.Owes record.responseId := by
    intro j t p ht
    have ht := (hss j).symm.trans ht
    split_ifs at ht with hij
    · obtain ⟨rfl, rfl⟩ := Prod.mk.inj (Option.some.inj ht)
      exact Or.inl ⟨hij, rfl, rfl⟩
    · refine Or.inr ⟨ht, ?_, fun howes ↦ ?_⟩
      · rintro rfl
        exact (h.admitted ht).1 hnone
      · obtain ⟨y, hy, -⟩ := h.ended ht howes
        rw [hnone] at hy
        cases hy
  have howes : ∀ {j : ℕ} {t : Stage} {p : Opening}, ((openTurn record.responseId).advance
      Opening.first ss (.call i (.ledger (.create record key now)) (.ok (.accepted x)) :
        Event Call Call.Reply Job))[j]? = some (t, p) → ¬ t.Owes record.responseId := by
    intro j t p ht hto
    rcases hold ht with ⟨-, rfl, -⟩ | ⟨-, -, hno⟩
    · obtain ⟨won, heq, -⟩ := hto
      cases heq
    · exact hno hto
  refine ⟨fun hx ↦ absurd hx hsome.1, fun {j t p} ht ↦ ?_, fun _ ↦ ?_, fun {j k p p'} ht ht' ↦ ?_,
    fun {j t} ht ↦ ?_, fun ht hto ↦ absurd hto (howes ht), fun ht _ hto ↦ absurd hto (howes ht),
    fun _ ↦ Or.inr (Or.inr ⟨i, _, (hss i).trans (if_pos rfl)⟩), fun _ x hx ↦ ?_,
    fun hrefused ↦ absurd hrefused href, fun x hx ↦ ?_, ?_, fun _ ↦ ?_⟩
  · rcases hold ht with ⟨-, rfl, rfl⟩ | ⟨ht, -⟩
    · exact ⟨fun _ ↦ rfl, fun _ ↦ rfl⟩
    · exact h.due ht
  · exact ⟨hsome.1, hins, href, hsome.2.symm ▸ hlog⟩
  · rcases hold ht with ⟨rfl, -⟩ | ⟨-, hno, -⟩
    · rcases hold ht' with ⟨rfl, -⟩ | ⟨-, hno, -⟩
      · rfl
      · exact absurd rfl hno
    · exact absurd rfl hno
  · rcases hold ht with ⟨-, -, heq⟩ | ⟨ht, -⟩
    · cases heq
    · exact h.closed ht
  · rw [hins] at hx
    cases hx
  · rw [hins] at hx
    cases hx
  · rw [hins]
    rfl
  · rw [hins, hsome.2]
    simp [EventLogStore.log, hlog]

/-- What every call keeps, if nothing else is taken while an announcement is due. -/
theorem call (h : Opened r tr w ss) (hs : ss[i]? = some (s, o)) (hallowed : s.Allowed c)
    (hopening : o.Allowed r c) (hnew : c.writes = some r → w.store.record r = none)
    (hprompt : ∀ event, c = .eventLog (.append event) → event.responseId = r →
      event.kind ≠ .created → w.Takes event → ∀ (j : ℕ) (t : Stage), ss[j]? ≠ some (t, .due)) :
    Opened r (tr ++ [.call i c (exec c w).1]) (exec c w).2
      ((openTurn r).advance Opening.first ss (.call i c (exec c w).1)) := by
  by_cases happend : c.AppendsTo r
  · unfold Call.AppendsTo at happend
    split at happend
    · next event =>
        subst happend
        by_cases hkind : event.kind = .created
        · exact h.announce hs hallowed hopening hkind
        rcases append_cases event w with ⟨e, heq, -⟩ | ⟨hfence, hroom, heq⟩
        · exact h.other hs hallowed hopening (fun hann ↦ hkind hann.2) (by rw [heq]; rfl)
            fun _ _ _ _ hc ↦ by cases hc
        · rw [heq]
          exact h.insert hs hallowed hopening hkind hfence
            (hprompt event rfl rfl hkind ⟨hfence, hroom⟩) rfl
    · exact happend.elim
  have hquiet : ¬ c.Announces r := by
    intro hann
    unfold Call.Announces at hann
    split at hann
    · exact happend hann.1
    · exact hann
  have hins : insertion r (.call i c (exec c w).1) = none := by
    unfold insertion
    split
    · next event seq heq =>
        obtain ⟨-, rfl, -⟩ := Event.call.inj heq
        exact if_neg happend
    · rfl
  by_cases hwrite : ∃ record key now x, c = .ledger (.create record key now) ∧
      record.responseId = r ∧ HEq (exec c w).1 (Except.ok (CreateOutcome.accepted x) :
        Except LedgerError CreateOutcome)
  · obtain ⟨record, key, now, x, rfl, rfl, hreply⟩ := hwrite
    have hreply := eq_of_heq hreply
    have hwritten := h.write hs hallowed hopening (hnew rfl) hreply
    rw [← hreply] at hwritten
    exact hwritten
  · exact h.other hs hallowed hopening hquiet hins fun record key now x hc hid hreply ↦
      hwrite ⟨record, key, now, x, hc, hid, hreply⟩

end Call

end Opened

/-! ## Runs -/

theorem announcing_of_due {r : ResponseId} {q : State} {ss : List (Stage × Opening)} {i : ℕ}
    {s : Stage} (hk : (openTurn r).Keeps (fun st _ ↦ st.1.Restful ∧ st.2 ≠ .due) q ss)
    (hs : ss[i]? = some (s, .due)) : Announcing q r := by
  obtain ⟨⟨j, prog⟩, hx, hfollows⟩ := hk.proc hs
  refine ⟨_, List.mem_of_getElem? hx, ?_⟩
  cases prog with
  | ret a => exact absurd rfl hfollows.2
  | call c k =>
      have hann : c.Announces r := hfollows.1.2
      unfold Call.Announces at hann
      split at hann
      · exact (if_pos hann.2).trans (congrArg some hann.1)
      · exact hann.elim
  | stall => exact absurd rfl hfollows.2

theorem TurnStep.mint {tr : Trace} {q : State} {e : Event Call Call.Reply Job}
    (h : TurnStep tr q e) : MintStep tr q e := by
  cases e with
  | start j => exact h.2
  | call i c reply => trivial

theorem opened_init {w : World} (hw : w.store.Unfiled) (hlogs : ∀ r, w.log.logs.lookup r = none)
    (r : ResponseId) : Opened r [] w [] where
  absent _ := ⟨rfl, (fun ⟨_, he, _⟩ ↦ by cases he), hlogs r⟩
  due hs := by cases hs
  admitted hs := by cases hs
  sole hs := by cases hs
  closed hs := by cases hs
  ended hs := by cases hs
  one hs := by cases hs
  opened hx := absurd (hw.record r) hx
  first _ x hx := by cases hx
  refused _ x hx := by cases hx
  later x hx := by cases hx
  numbered := rfl
  live _ := by simp [EventLogStore.log, hlogs r, inserted]

theorem opened_run {w : World} {tr : Trace} {q : State} (hw : w.store.Unfiled)
    (hlogs : ∀ r, w.log.logs.lookup r = none) (h : Run system PromptStep (Pool.init w) tr q)
    (r : ResponseId) : Opened r tr q.world ((openTurn r).track Opening.first tr) := by
  have hfst : ∀ (ss : List (Stage × Opening)) (e : Event Call Call.Reply Job),
      ((openTurn r).advance Opening.first ss e).map Prod.fst =
        jobs.advance Stage.first (ss.map Prod.fst) e :=
    Session.map_fst_advance_prod turn (opening r) Stage.first fun _ ↦ .clear
  refine (Run.invariant (openTurn r) Opening.first (fun st _ ↦ st.1.Restful ∧ st.2 ≠ .due)
    (I := fun tr q ss ↦ Provenance tr q.world (ss.map Prod.fst) ∧ Opened r tr q.world ss)
    ?_ ?_ ?_ ?_ ?_ h).1.2
  · exact fun tr q j hok ↦ (follows_job hok.1.1).prod (opening_job hok.1.1)
  · exact fun {tr q ss} c _ ↦ ⟨exec_answers c q.world, exec_answers c q.world⟩
  · rintro tr q ss j ⟨hp, ho⟩ - hok
    exact ⟨(congrArg (Provenance _ _) (hfst ss _)).mpr (hp.start (q := q) hok.1.2), ho.start j⟩
  · rintro tr q ss i j c k ⟨s, o⟩ ⟨hp, ho⟩ hk hi hs ⟨hallowed, hopening⟩ hok
    have hfirst : (ss.map Prod.fst)[i]? = some s :=
      List.getElem?_map.trans (congrArg (Option.map Prod.fst) hs)
    refine ⟨?_, ho.call hs hallowed hopening (fun hwrites ↦ ?_) ?_⟩
    · exact (congrArg (Provenance _ _) (hfst ss _)).mpr (hp.call hfirst (Or.inl hallowed))
    · cases hx : q.world.store.record r with
      | none => rfl
      | some x =>
          exact absurd (hp.keyed.record hx) ((hp.unwritten hfirst
            (Stage.unwritten_of_writes hallowed hwrites)).2 _ (hp.record hx))
    · rintro event rfl rfl hkind htakes k' t ht
      exact hok.2 hkind htakes (announcing_of_due hk ht)
  · refine ⟨?_, opened_init hw hlogs r⟩
    exact (provenance_run (fun _ _ e hok ↦ hok.1.mint)
      hw (.nil : Run system PromptStep (Pool.init w) [] _)).1

/-- In every run of turns in which nothing else is taken for a response whose announcement is due,
the announcement of every response comes first. -/
theorem created_first {w : World} {tr : Trace} {q : State} (hw : w.store.Unfiled)
    (hlogs : ∀ r, w.log.logs.lookup r = none) (h : Run system PromptStep (Pool.init w) tr q)
    (r : ResponseId) : CreatedFirst r tr := by
  have ho := opened_run hw hlogs h r
  refine ⟨fun hnot event hmem ↦ ?_, fun pre x post heq hkind ↦ ?_⟩
  · -- Numbers are handed out in order, so number 0 is the head.
    have hnumbered := ho.numbered
    have hfirst := ho.first hnot
    cases hins : inserted r tr with
    | nil =>
        rw [hins] at hmem
        cases hmem
    | cons y ys =>
        rw [hins] at hmem hnumbered hfirst
        rcases List.mem_cons.mp hmem with rfl | hmem
        · exact hfirst _ rfl
        · have hnodup : ((y :: ys).map Prod.fst).Nodup := hnumbered ▸ List.nodup_range
          have hzero : y.1 = 0 := by
            rw [List.map_cons, List.length_cons, List.range_succ_eq_map] at hnumbered
            exact (List.cons.inj hnumbered).1
          have hnot : y.1 ∉ ys.map Prod.fst := (List.nodup_cons.mp hnodup).1
          exact absurd (List.mem_map_of_mem hmem) (hzero ▸ hnot)
  · cases pre with
    | nil => rfl
    | cons y pre =>
        refine absurd hkind (ho.later x ?_)
        simp [heq]

namespace Sample

/-- The kinds of the events taken for the first sample response, with their numbers. -/
def stream (tr : Trace) : List (ℕ × ResponseEventKind) :=
  (inserted (id 1) tr).map fun x ↦ (x.1, x.2.kind)

end Sample

theorem created_first_claimed : ∃ tr q, Run system PromptStep (Pool.init Sample.world) tr q ∧
    Sample.stream tr = [(0, .created), (1, .inProgress), (2, .completed)] ∧
      CreatedFirst (Sample.id 1) tr := by
  obtain ⟨tr, q, h, htest⟩ := Run.exists_of_schedule system (Pool.init Sample.world)
    (fun tr q e ↦ decide (PromptStep tr q e))
    (fun tr _ ↦ decide (Sample.stream tr = [(0, .created), (1, .inProgress), (2, .completed)]))
    (fun _ _ _ ↦ of_decide_eq_true)
    (Sample.post 1 :: Sample.steps 0 6 ++ Sample.work :: Sample.steps 1 11) (by decide +kernel)
  exact ⟨tr, q, h, of_decide_eq_true htest,
    created_first Sample.world_unfiled (fun _ ↦ rfl) h _⟩

/-- A runtime claims the response before it is announced, and its own first event gets number 0. -/
theorem created_late : ¬ ∀ (w : World) (tr : Trace) (q : State), w.store.Unfiled →
    (∀ r, w.log.logs.lookup r = none) → Run system TurnStep (Pool.init w) tr q →
    ∀ r, CreatedFirst r tr := by
  intro h
  obtain ⟨tr, q, hrun, htest⟩ := Run.exists_of_schedule system (Pool.init Sample.world)
    (fun tr q e ↦ decide (TurnStep tr q e))
    (fun tr _ ↦ decide (¬ Refused (Sample.id 1) tr) &&
      (inserted (Sample.id 1) tr).any fun x ↦ decide (x.1 = 0) && decide (x.2.kind = .inProgress))
    (fun _ _ _ ↦ of_decide_eq_true)
    (Sample.post 1 :: Sample.steps 0 5 ++ Sample.work :: Sample.steps 1 3 ++ Sample.steps 0 1)
    (by decide +kernel)
  obtain ⟨hnot, hany⟩ := Bool.and_eq_true_iff.mp htest
  obtain ⟨⟨seq, event⟩, hmem, hx⟩ := List.any_eq_true.mp hany
  simp only [Bool.and_eq_true, decide_eq_true_eq] at hx
  obtain ⟨rfl, hkind⟩ := hx
  have hcreated := (h _ tr q Sample.world_unfiled (fun _ ↦ rfl) hrun (Sample.id 1)).first
    (of_decide_eq_true hnot) event hmem
  rw [hkind] at hcreated
  cases hcreated

end NovaChat
