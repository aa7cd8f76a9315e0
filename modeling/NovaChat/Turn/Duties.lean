import NovaChat.Turn.Endings
import NovaChat.Turn.Provenance

/-!
# Who has to give a marker back

Whoever takes the turn marker of a conversation writes the record it stands for or gives the marker
back, and whoever makes that record terminal gives it back too.  `duties` is the session of one
process with respect to the marker of one response, and every job keeps to it.
-/

namespace NovaChat

open Interact Prog MemConversationStore

/-! ## Duties -/

/-- What a process has to do with the marker of one response. -/
inductive Duty
  | free
  /-- The marker is taken, and the record still to be written. -/
  | held (tenant : TenantId) (c : ConversationId)
  /-- A claim on the response is being run. -/
  | running (tenant : TenantId) (c : Option ConversationId)
  /-- The response was cancelled, and its conversation is to be looked up. -/
  | seeking (tenant : TenantId)
  /-- The marker is to be given back. -/
  | due (tenant : TenantId) (c : ConversationId)
  deriving DecidableEq

namespace Duty

/-- Nothing, or the marker of the conversation if there is one. -/
def owed (tenant : TenantId) : Option ConversationId → Duty
  | none => free
  | some c => due tenant c

/-- A process that need not act at once. -/
def Steady : Duty → Prop
  | held .. | seeking _ => False
  | _ => True

/-- A process that has nothing more to do with the marker may end. -/
def Discharged : Duty → Prop
  | free | running .. => True
  | _ => False

end Duty

/-- The calls that may give a process something to do with a marker. -/
def Call.Engages : Call → Prop
  | .ledger (.create ..) | .ledger (.claim ..) | .ledger (.cancel ..) | .ledger (.reap ..)
  | .conversations (.acquireActive ..) => True
  | _ => False

/-- A conversation is created without a marker. -/
def Call.Unmarked : Call → Prop
  | .conversations (.create x) => x.activeResponseId = none
  | _ => True

/-- A call that completes `r`. -/
def Call.Completes (r : ResponseId) : Call → Prop
  | .ledger (.complete id _ _ _ _) => id = r
  | _ => False

namespace Duty

def Allowed (r : ResponseId) : Duty → Call → Prop
  | free, c => c.Unmarked ∧ ¬ c.Completes r
  | held tenant conversation, c => ∃ record key now, c = .ledger (.create record key now) ∧
      record.responseId = r ∧ record.tenantId = tenant ∧
        record.conversationId = some conversation ∧ record.status = .queued
  | running _ _, c => c.Unmarked ∧ ¬ c.Engages
  | seeking _, c => c = .ledger (.get r)
  | due _ _, c => c.Unmarked ∧ ¬ c.Completes r ∧ ¬ c.Engages

/-- What an accepted claim, an abort or a reap leaves to do. -/
def ofClaim (r : ResponseId) (record : ResponseRecord) : Duty :=
  if record.responseId = r then running record.tenantId record.conversationId else free

def ofAborted (r : ResponseId) (aborted : List AbortedClaim) : Duty :=
  match aborted.find? fun a ↦ decide (a.responseId = r) with
  | some a => owed a.tenantId a.conversationId
  | none => free

def next (r : ResponseId) : Duty → (c : Call) → c.Reply → Duty
  | free, .conversations (.acquireActive tenant c id _), .ok _ =>
    if id = r then held tenant c else free
  | free, .ledger (.claim ..), .ok (some claimed) => ofClaim r claimed.record
  | free, .ledger (.cancel tenant id _), .ok _ => if id = r then seeking tenant else free
  | free, .ledger (.reap ..), .ok aborted => ofAborted r aborted
  | held .., .ledger (.create ..), .ok (.accepted _) => free
  | held tenant c, .ledger (.create ..), _ => due tenant c
  | running tenant c, .ledger (.complete id _ _ _ _), .ok _ =>
    if id = r then owed tenant c else running tenant c
  | seeking tenant, .ledger (.get _), reply =>
    owed tenant ((found reply).bind ResponseRecord.conversationId)
  | due tenant c, .conversations (.releaseActive tenant' c' id _ _), _ =>
    if tenant' = tenant ∧ c' = c ∧ id = r then free else due tenant c
  | d, _, _ => d

end Duty

/-- What every operation has to do with the marker of `r`. -/
def duties (r : ResponseId) : Session Call Call.Reply where
  State := Duty
  allowed := Duty.Allowed r
  answers := Call.Answers
  next := Duty.next r
  rest _ := True

/-- Calls that leave every duty as it is. -/
def Call.Passing : Call → Prop
  | .ledger (.create ..) | .ledger (.claim ..) | .ledger (.cancel ..) | .ledger (.reap ..)
  | .ledger (.complete ..) => False
  | .conversations (.create _) | .conversations (.acquireActive ..)
  | .conversations (.releaseActive ..) => False
  | _ => True

section Programs

variable {r : ResponseId} {α : Type} {d : Duty}

theorem idle_passing (hd : d.Steady) {c : Call} (hc : c.Passing) : (duties r).Idle d c := by
  have hunmarked : c.Unmarked := by
    unfold Call.Unmarked
    split
    · exact hc.elim
    · trivial
  have hengages : ¬ c.Engages := by
    unfold Call.Engages
    split <;> first | exact hc.elim | exact id
  have hcompletes : ¬ c.Completes r := by
    unfold Call.Completes
    split
    · exact hc.elim
    · exact id
  cases d with
  | free =>
      refine ⟨⟨hunmarked, hcompletes⟩, fun reply _ ↦ ?_⟩
      rcases c with _ | c | c | c | c | c <;> first | rfl | cases c <;> first | exact hc.elim | rfl
  | held tenant c' => exact hd.elim
  | running tenant c' =>
      refine ⟨⟨hunmarked, hengages⟩, fun reply _ ↦ ?_⟩
      rcases c with _ | c | c | c | c | c <;> first | rfl | cases c <;> first | exact hc.elim | rfl
  | seeking tenant => exact hd.elim
  | due tenant c' =>
      refine ⟨⟨hunmarked, hcompletes, hengages⟩, fun reply _ ↦ ?_⟩
      rcases c with _ | c | c | c | c | c <;> first | rfl | cases c <;> first | exact hc.elim | rfl

theorem passing_of_archiving {c : Call} (hc : c.Archiving) : c.Passing := by
  rcases hc with hc | ⟨tenant, conversation, id, commit, now, rfl⟩
  · rcases c with _ | c | c | c | c | c <;> first | trivial | cases c <;> trivial
  · trivial

theorem passing_of_reports {c : Call} (hc : c.Reports) : c.Passing := by
  rcases c with _ | c | c | c | c | c <;> first | trivial | cases c <;> trivial

theorem duties_passing (hd : d.Steady) {p : Service α} (hp : p.OnlyCalls Call.Passing) :
    (duties r).Follows (fun d' _ ↦ d' = d) d p :=
  .of_onlyCalls hp (fun _ ↦ idle_passing hd) trivial

theorem duties_archiving (hd : d.Steady) {p : Service α} (hp : p.OnlyCalls Call.Archiving) :
    (duties r).Follows (fun d' _ ↦ d' = d) d p :=
  duties_passing hd (hp.mono fun _ ↦ passing_of_archiving)

theorem duties_release {post : Duty → α → Prop} {tenant : TenantId} {c : ConversationId}
    {id : ResponseId} {status : ResponseStatus} {now : ℕ}
    (hd : d = .free ∨ d = .due tenant c ∧ id = r)
    {k : Except ConversationError ℕ → Service α}
    (hk : ∀ reply, (duties r).Follows post .free (k reply)) :
    (duties r).Follows post d (Conversations.releaseActive tenant c id status now >>= k) := by
  rcases hd with rfl | ⟨rfl, rfl⟩
  · exact ⟨⟨trivial, fun h ↦ h⟩, fun reply _ ↦ hk reply⟩
  · refine ⟨⟨trivial, fun h ↦ h, fun h ↦ h⟩, fun reply _ ↦ ?_⟩
    exact .of_eq (if_pos ⟨rfl, rfl, rfl⟩) (hk reply)

/-! ### Creation -/

/-- What taking the marker leaves to do. -/
def Duty.taken (r id : ResponseId) (tenant : TenantId) (c : ConversationId) {ε β : Type} :
    Except ε β → Duty
  | .ok _ => if id = r then held tenant c else free
  | .error _ => free

theorem duties_acquireTurn (tenant : TenantId) (c : ConversationId) (id : ResponseId) :
    (duties r).Follows (fun d result ↦ d = .taken r id tenant c result) .free
      (ResponsesService.acquireTurn tenant c id) := by
  have hacquire : ∀ (now : ℕ) (reply : Except ConversationError ℕ),
      (duties r).next .free (.conversations (.acquireActive tenant c id now)) reply =
        .taken r id tenant c reply := by
    intro now reply
    cases reply <;> rfl
  refine ⟨⟨trivial, fun h ↦ h⟩, fun now _ ↦ ⟨⟨trivial, fun h ↦ h⟩, fun reply _ ↦ ?_⟩⟩
  refine .of_eq (hacquire now reply) ?_
  rcases reply with e | seq
  · cases e with
    | busy holder =>
        refine ⟨⟨trivial, fun h ↦ h⟩, fun reply _ ↦ ?_⟩
        show (duties r).Follows _ Duty.free (ite _ _ _)
        split
        · refine ⟨⟨trivial, fun h ↦ h⟩, fun reply _ ↦ ?_⟩
          rcases reply with e | released
          · exact rfl
          · refine ⟨⟨trivial, fun h ↦ h⟩, fun now _ ↦ ⟨⟨trivial, fun h ↦ h⟩, fun reply _ ↦ ?_⟩⟩
            refine .of_eq (hacquire now reply) ?_
            rcases reply with e | seq <;> exact rfl
        · exact rfl
    | _ => exact rfl
  · exact rfl

/-- Nothing is due, or the marker of the conversation for `r`. -/
def Duty.Dues (r id : ResponseId) (tenant : TenantId) (conversation : Option ConversationId)
    (d : Duty) : Prop :=
  d = free ∨ id = r ∧ d = owed tenant conversation

theorem Duty.Dues.steady {id : ResponseId} {tenant : TenantId}
    {conversation : Option ConversationId} (hd : d.Dues r id tenant conversation) : d.Steady := by
  rcases hd with rfl | ⟨-, rfl⟩
  · trivial
  · cases conversation <;> trivial

theorem duties_releaseService {tenant : TenantId} {c : ConversationId} {id : ResponseId}
    {status : ResponseStatus} (hd : d.Dues r id tenant (some c)) :
    (duties r).Follows (fun d _ ↦ d = .free) d
      (ConversationsService.releaseActive tenant c id status) := by
  obtain ⟨hallowed, hnext⟩ := idle_passing (r := r) hd.steady (c := .nowMs) trivial
  exact ⟨hallowed, fun now hans ↦ .of_eq (hnext now hans)
    (duties_release (hd.imp_right And.symm) fun _ ↦ rfl)⟩

theorem duties_releaseAfterFailedAdmission {tenant : TenantId}
    {conversationId : Option ConversationId} {id : ResponseId}
    (hd : d.Dues r id tenant conversationId) :
    (duties r).Follows (fun d _ ↦ d = .free) d
      (ResponsesService.releaseAfterFailedAdmission tenant conversationId id) := by
  cases conversationId with
  | none => exact hd.elim (fun h ↦ h) And.right
  | some c => exact (duties_releaseService hd).bind fun _ _ hd ↦ hd

theorem duties_refused {tenant : TenantId} {conversationId : Option ConversationId}
    {record : ResponseRecord} {key : IdempotencyKey} {now : ℕ}
    (hd : d = .free ∨ record.responseId = r ∧ ∃ c, conversationId = some c ∧ d = .held tenant c)
    {reply : Except LedgerError CreateOutcome} (hreply : ∀ x, reply ≠ .ok (.accepted x)) :
    (Duty.next r d (.ledger (.create record key now)) reply).Dues r record.responseId tenant
      conversationId := by
  rcases hd with rfl | ⟨hid, c, rfl, rfl⟩
  · exact Or.inl rfl
  · refine Or.inr ⟨hid, ?_⟩
    rcases reply with e | (x | x | _ | _)
    · rfl
    · exact absurd rfl (hreply x)
    all_goals rfl

/-- With the marker in hand the record is written, or the marker given back. -/
theorem duties_admitOrRelease {tenant : TenantId} {conversationId : Option ConversationId}
    {record : ResponseRecord} {key : IdempotencyKey} {now : ℕ}
    (htenant : record.tenantId = tenant) (hconv : record.conversationId = conversationId)
    (hstatus : record.status = .queued)
    (hd : d = .free ∨ record.responseId = r ∧ ∃ c, conversationId = some c ∧ d = .held tenant c) :
    (duties r).Follows (fun d _ ↦ d = .free) d
      (ResponsesService.admitOrRelease tenant conversationId record key now) := by
  have hrelease : ∀ (d' : Duty), d'.Dues r record.responseId tenant conversationId →
      ∀ outcome : Except ServiceError CreateOutcome,
      (duties r).Follows (fun d _ ↦ d = .free) d'
        (ResponsesService.releaseAfterFailedAdmission tenant conversationId record.responseId >>=
          fun _ ↦ .ret outcome) :=
    fun d' hd' outcome ↦ (duties_releaseAfterFailedAdmission hd').bind fun _ _ h ↦ h
  refine ⟨?_, fun reply _ ↦ ?_⟩
  · rcases hd with rfl | ⟨hid, c, rfl, rfl⟩
    · exact ⟨trivial, fun h ↦ h⟩
    · exact ⟨record, key, now, rfl, hid, htenant, hconv, hstatus⟩
  · rcases reply with e | (x | x | _ | _)
    · exact hrelease _ (duties_refused hd fun x h ↦ by cases h) _
    · have hfree : Duty.next r d (.ledger (.create record key now)) (.ok (.accepted x)) =
          .free := by
        rcases hd with rfl | ⟨-, c, -, rfl⟩ <;> rfl
      refine .of_eq hfree ⟨⟨trivial, fun h ↦ h⟩, fun reply _ ↦ ?_⟩
      rcases reply with e | seq
      · exact hrelease _ (Or.inl rfl) _
      · exact rfl
    · exact hrelease _ (duties_refused hd fun x h ↦ by cases h) _
    · exact hrelease _ (duties_refused hd fun x h ↦ by cases h) _
    · exact hrelease _ (duties_refused hd fun x h ↦ by cases h) _

theorem duties_create (cfg : Config) (rounds : ℕ) (tenant : TenantId) (spec : TurnSpec)
    (key : Option IdempotencyKey) (uuid : Uuid) :
    (duties r).Follows (fun d _ ↦ d = .free) .free
      (ResponsesService.create cfg rounds tenant spec key uuid) := by
  refine ⟨⟨trivial, fun h ↦ h⟩, fun now _ ↦ ?_⟩
  refine (duties_archiving (d := .free) trivial
    ((reads_resolveContext cfg rounds tenant spec.anchor).mono fun _ ↦ Or.inl)).bind ?_
  rintro d resolved rfl
  rcases resolved with e | resolved
  · exact rfl
  have hacquire : (duties r).Follows (fun d result ↦ d = .free ∨ result = .ok () ∧
      (⟨cfg.nodeTag, uuid⟩ : ResponseId) = r ∧
        ∃ c, spec.anchor.conversationId = some c ∧ d = .held tenant c) .free
      (ResponsesService.acquireFor tenant spec.anchor.conversationId ⟨cfg.nodeTag, uuid⟩) := by
    cases hconv : spec.anchor.conversationId with
    | none => exact Or.inl rfl
    | some c =>
        refine (duties_acquireTurn tenant c _).mono fun d result hd ↦ ?_
        rcases result with e | u
        · exact Or.inl hd
        · by_cases hid : (⟨cfg.nodeTag, uuid⟩ : ResponseId) = r
          · exact Or.inr ⟨rfl, hid, c, rfl, hd.trans (if_pos hid)⟩
          · exact Or.inl (hd.trans (if_neg hid))
  refine hacquire.bind fun d result hd ↦ ?_
  rcases result with e | ⟨⟩
  · rcases hd with rfl | ⟨hok, -⟩
    · exact rfl
    · cases hok
  · exact duties_admitOrRelease rfl rfl rfl (hd.imp_right And.right)

/-! ### Cancellation -/

theorem duties_cancel (cfg : Config) (rounds : ℕ) (tenant : TenantId) (id : ResponseId) :
    (duties r).Follows (fun d _ ↦ d = .free) .free
      (ResponsesService.cancel cfg rounds tenant id) := by
  refine ⟨⟨trivial, fun h ↦ h⟩, fun now _ ↦ ⟨⟨trivial, fun h ↦ h⟩, fun reply _ ↦ ?_⟩⟩
  rcases reply with e | ⟨⟩
  · exact rfl
  -- The lookup tells what is due, unless the record has vanished.
  have hlook : ∃ d, Duty.next r .free (.ledger (.cancel tenant id now)) (.ok ()) = d ∧
      Duty.Allowed r d (.ledger (.get id)) ∧ ∀ reply, Duty.Dues r id tenant
        ((found reply).bind ResponseRecord.conversationId)
        (Duty.next r d (.ledger (.get id)) reply) := by
    by_cases hid : id = r
    · exact ⟨.seeking tenant, if_pos hid, congrArg (fun id ↦ Call.ledger (.get id)) hid,
        fun reply ↦ Or.inr ⟨hid, rfl⟩⟩
    · exact ⟨.free, if_neg hid, ⟨trivial, fun h ↦ h⟩, fun reply ↦ Or.inl rfl⟩
  obtain ⟨d, hd, hallowed, hnext⟩ := hlook
  refine .of_eq hd ⟨hallowed, fun reply _ ↦ ?_⟩
  have hdues := hnext reply
  refine (duties_archiving hdues.steady
    (archiving_archiveCancelled rounds tenant id (found reply) now)).bind fun d' _ hd' ↦ ?_
  refine .of_eq hd' ?_
  have hclose : (duties r).Follows (fun d (_ : Except ServiceError ResponseObject) ↦ d = .free)
      .free (EventLog.append (.lifecycle id .failed
          (ResponsesService.cancelledObject id (found reply))) >>= fun _ ↦
        EventLog.close id now cfg.retainAfterTerminalMs >>= fun _ ↦
          .ret (.ok (ResponsesService.cancelledObject id (found reply)))) :=
    ⟨⟨trivial, fun h ↦ h⟩, fun _ _ ↦ ⟨⟨trivial, fun h ↦ h⟩, fun _ _ ↦ rfl⟩⟩
  suffices hfree : (duties r).Follows (fun d _ ↦ d = .free)
      (Duty.next r d (.ledger (.get id)) reply)
      (ResponsesService.releaseCancelled tenant id (found reply)) from
    hfree.bind fun d _ hd ↦ .of_eq hd hclose
  unfold ResponsesService.releaseCancelled
  cases hconv : (found reply).bind ResponseRecord.conversationId with
  | none => exact (hconv ▸ hdues).elim (fun h ↦ h) And.right
  | some c => exact (duties_releaseService (hconv ▸ hdues)).bind fun _ _ hd ↦ hd

/-! ### Execution -/

/-- What is left to do of a response that has come to its end. -/
theorem duties_settle {rt : AgentRuntime} (hport : rt.conversations = true)
    {record : ResponseRecord} {status : ResponseStatus} {advanceTail : Bool} {now : ℕ}
    (hd : d.Dues r record.responseId record.tenantId record.conversationId) :
    (duties r).Follows (fun d _ ↦ d = .free) d (rt.settle record status advanceTail now) := by
  unfold AgentRuntime.settle
  rw [hport]
  cases hconv : record.conversationId with
  | none => exact (hconv ▸ hd).elim (fun h ↦ h) And.right
  | some c =>
      have hd' : d = .free ∨ d = .due record.tenantId c ∧ record.responseId = r :=
        (hconv ▸ hd : d.Dues r _ _ (some c)).imp_right And.symm
      cases advanceTail with
      | false => exact duties_release hd' fun _ ↦ rfl
      | true =>
          obtain ⟨hallowed, hnext⟩ := idle_passing (r := r) hd.steady
            (c := .conversations (.advance record.tenantId c record.responseId)) trivial
          exact ⟨hallowed, fun reply hans ↦ .of_eq (hnext reply hans)
            (duties_release hd' fun _ ↦ rfl)⟩

theorem duties_closing {α : Type} {p : Service α} (hp : p.OnlyCalls Call.Passing) :
    (duties r).Follows (fun d _ ↦ d.Discharged) .free p :=
  (duties_passing (d := .free) trivial hp).mono fun _ _ hd ↦ hd ▸ trivial

theorem passing_ending (rt : AgentRuntime) (id : ResponseId) (kind : ResponseEventKind)
    (object : Except LedgerError (Option ResponseRecord) → ResponseObject) (now : ℕ)
    (out : Executed) :
    (Ledger.get id >>= fun reply ↦ rt.closeStream id kind (object reply) now >>=
      fun _ ↦ (.ret out : Service Executed)).OnlyCalls Call.Passing :=
  ⟨trivial, fun _ ↦ ⟨trivial, fun _ ↦ ⟨trivial, fun _ ↦ trivial⟩⟩⟩

/-- The terminal transition of a claim. -/
theorem duties_transit {record : ResponseRecord} {attempt : Attempt} {status : ResponseStatus}
    {usage : Usage} {now : ℕ} {k : Except LedgerError Unit → Service α}
    {post : Duty → α → Prop}
    (hrefused : ∀ e, (duties r).Follows post (.ofClaim r record) (k (.error e)))
    (hk : ∀ d, Duty.Dues r record.responseId record.tenantId record.conversationId d →
      (duties r).Follows post d (k (.ok ()))) :
    (duties r).Follows post (.ofClaim r record)
      (Ledger.complete record.responseId attempt status usage now >>= k) := by
  by_cases hid : record.responseId = r
  · have hclaim : Duty.ofClaim r record = .running record.tenantId record.conversationId :=
      if_pos hid
    rw [hclaim] at hrefused ⊢
    refine ⟨⟨trivial, fun h ↦ h⟩, fun reply _ ↦ ?_⟩
    rcases reply with e | ⟨⟩
    · exact hrefused e
    · exact .of_eq (if_pos hid) (hk _ (Or.inr ⟨hid, rfl⟩))
  · have hclaim : Duty.ofClaim r record = .free := if_neg hid
    rw [hclaim] at hrefused ⊢
    refine ⟨⟨trivial, fun h ↦ hid h⟩, fun reply _ ↦ ?_⟩
    rcases reply with e | ⟨⟩
    · exact hrefused e
    · exact hk _ (Or.inl rfl)

theorem Duty.steady_ofClaim (record : ResponseRecord) : (ofClaim r record).Steady := by
  unfold ofClaim
  split <;> trivial

theorem Duty.discharged_ofClaim (record : ResponseRecord) : (ofClaim r record).Discharged := by
  unfold ofClaim
  split <;> trivial

theorem duties_conclude {rt : AgentRuntime} (hport : rt.conversations = true)
    (claimed : ClaimedResponse) (now : ℕ) (verdict : Verdict) :
    (duties r).Follows (fun d _ ↦ d.Discharged) (.ofClaim r claimed.record)
      (rt.conclude claimed now verdict) := by
  cases verdict with
  | superseded => exact Duty.discharged_ofClaim claimed.record
  | failed usage produced =>
      refine duties_transit (fun e ↦ Duty.discharged_ofClaim claimed.record) fun d hd ↦ ?_
      refine (duties_archiving hd.steady
        (archiving_archiveFailed rt claimed.record usage produced now)).bind fun d' _ hd' ↦ ?_
      exact .of_eq hd' ((duties_settle hport hd).bind fun d'' _ hd'' ↦
        .of_eq hd'' (duties_closing (passing_ending ..)))
  | finished output =>
      refine duties_transit (fun e ↦ Duty.discharged_ofClaim claimed.record) fun d hd ↦ ?_
      refine (duties_archiving hd.steady
        (archiving_storeOutput rt claimed.record output now)).bind fun d' stored hd' ↦ ?_
      refine .of_eq hd' ((duties_settle hport hd).bind fun d'' _ hd'' ↦ .of_eq hd'' ?_)
      show (duties r).Follows _ Duty.free (ite _ _ _)
      split
      · exact trivial
      · exact duties_closing (passing_ending ..)

theorem duties_runOnce {rt : AgentRuntime} (hport : rt.conversations = true) (rounds : ℕ)
    (agent : AgentId) (now : ℕ) :
    (duties r).Follows (fun d _ ↦ d.Discharged) .free (rt.runOnce rounds agent now) := by
  refine ⟨⟨trivial, fun h ↦ h⟩, fun reply _ ↦ ?_⟩
  rcases reply with e | (_ | claimed)
  · exact trivial
  · exact trivial
  · show (duties r).Follows _ (Duty.ofClaim r claimed.record) (rt.serve rounds claimed now)
    rw [rt.serve_eq]
    refine (duties_passing (Duty.steady_ofClaim claimed.record)
      ((reports_attempt rt rounds claimed).mono fun _ ↦ passing_of_reports)).bind
        fun d verdict hd ↦ ?_
    exact .of_eq hd (duties_conclude hport claimed now verdict)

/-! ### The tick -/

/-- Whoever reaps a response gives its marker back. -/
theorem duties_settleReaped (cfg : Config) (rounds now : ℕ) {claim : AbortedClaim}
    (hd : d.Dues r claim.responseId claim.tenantId claim.conversationId) :
    (duties r).Follows (fun d _ ↦ d = .free) d (settleReaped cfg rounds now claim) := by
  have happend := idle_passing (r := r) hd.steady (c := .eventLog (.append (.lifecycle
    claim.responseId .failed (.terminalStub claim.responseId .failed)))) trivial
  have hclose := idle_passing (r := r) hd.steady
    (c := .eventLog (.close claim.responseId now cfg.retainAfterTerminalMs)) trivial
  refine ⟨happend.1, fun reply hans ↦ .of_eq (happend.2 reply hans) ⟨hclose.1,
    fun reply hans ↦ .of_eq (hclose.2 reply hans) ?_⟩⟩
  cases hconv : claim.conversationId with
  | none => exact (hconv ▸ hd).elim (fun h ↦ h) And.right
  | some c =>
      have hd' : d = .free ∨ d = .due claim.tenantId c ∧ claim.responseId = r :=
        (hconv ▸ hd : d.Dues r _ _ (some c)).imp_right And.symm
      dsimp only
      split
      · refine (duties_archiving hd.steady (archiving_archiveReplayed ..)).bind
          fun d'' _ hd'' ↦ .of_eq hd'' (duties_release hd' fun _ ↦ rfl)
      · exact duties_release hd' fun _ ↦ rfl

/-- Passing calls, and releases of other markers. -/
def Call.Elsewhere (r : ResponseId) (c : Call) : Prop :=
  c.Passing ∨ ∃ tenant conversation id status now,
    c = .conversations (.releaseActive tenant conversation id status now) ∧ id ≠ r

theorem idle_elsewhere (hd : d.Steady) {c : Call} (hc : c.Elsewhere r) : (duties r).Idle d c := by
  rcases hc with hc | ⟨tenant, conversation, id, status, now, rfl, hid⟩
  · exact idle_passing hd hc
  · cases d with
    | free => exact ⟨⟨trivial, fun h ↦ h⟩, fun reply _ ↦ rfl⟩
    | held tenant c' => exact hd.elim
    | running tenant c' => exact ⟨⟨trivial, fun h ↦ h⟩, fun reply _ ↦ rfl⟩
    | seeking tenant => exact hd.elim
    | due tenant' c' =>
        exact ⟨⟨trivial, fun h ↦ h, fun h ↦ h⟩, fun reply _ ↦ if_neg fun h ↦ hid h.2.2⟩

theorem elsewhere_settleReaped (cfg : Config) (rounds now : ℕ) {claim : AbortedClaim}
    (hid : claim.responseId ≠ r) :
    (settleReaped cfg rounds now claim).OnlyCalls (Call.Elsewhere r) := by
  refine ⟨Or.inl trivial, fun _ ↦ ⟨Or.inl trivial, fun _ ↦ ?_⟩⟩
  cases claim.conversationId with
  | none => exact trivial
  | some c =>
      have hrelease : (Conversations.releaseActive claim.tenantId c claim.responseId .failed now >>=
          fun _ ↦ (.ret () : Service Unit)).OnlyCalls (Call.Elsewhere r) :=
        ⟨Or.inr ⟨_, _, _, _, _, rfl, hid⟩, fun _ ↦ trivial⟩
      dsimp only
      split
      · exact ((archiving_archiveReplayed ..).mono fun _ hc ↦
          Or.inl (passing_of_archiving hc)).bind fun _ ↦ hrelease
      · exact hrelease

/-- Each claim that was reaped is settled once, and the marker of `r` with the first of its. -/
theorem duties_settleAll (cfg : Config) (rounds now : ℕ) :
    ∀ (claims : List AbortedClaim) (d : Duty), d = .free ∨ d = .ofAborted r claims →
      (duties r).Follows (fun d _ ↦ d = .free) d (settleAll cfg rounds now claims) := by
  intro claims
  induction claims with
  | nil => exact fun d hd ↦ hd.elim (fun h ↦ h) (fun h ↦ h)
  | cons claim claims ih =>
      intro d hd
      by_cases hid : claim.responseId = r
      · have hdues : d.Dues r claim.responseId claim.tenantId claim.conversationId :=
          hd.imp_right fun hd ↦ ⟨hid, by simpa [Duty.ofAborted, hid] using hd⟩
        exact (duties_settleReaped cfg rounds now hdues).bind fun d' _ hd' ↦ ih d' (Or.inl hd')
      · have hrest : d = .free ∨ d = .ofAborted r claims := by
          simpa [Duty.ofAborted, hid] using hd
        have hsteady : d.Steady := by
          rcases hrest with rfl | rfl
          · trivial
          · unfold Duty.ofAborted Duty.owed
            repeat' split
            all_goals trivial
        exact (Session.Follows.of_onlyCalls (elsewhere_settleReaped cfg rounds now hid)
          (fun c hc ↦ idle_elsewhere hsteady hc) trivial).bind fun d' _ hd' ↦ ih d' (hd' ▸ hrest)

theorem duties_tick (cfg : Config) (rounds : ℕ) :
    (duties r).Follows (fun d _ ↦ d.Discharged) .free (tick cfg rounds) := by
  refine ⟨⟨trivial, fun h ↦ h⟩, fun now _ ↦ ⟨⟨trivial, fun h ↦ h⟩, fun reply _ ↦ ?_⟩⟩
  rcases reply with e | aborted
  · exact trivial
  · refine (duties_settleAll cfg rounds now aborted _ (Or.inr rfl)).bind fun d _ hd ↦ ?_
    exact .of_eq hd (duties_closing ⟨trivial, fun _ ↦ trivial⟩)

/-! ### Jobs -/

/-- Executions reach the conversations. -/
def Job.Mounted : Job → Prop
  | .execute rt _ _ => rt.conversations = true
  | _ => True

theorem duties_forget {α : Type} {p : Service α} (h : (duties r).Follows
    (fun d _ ↦ d.Discharged) d p) : (duties r).Follows (fun d _ ↦ d.Discharged) d (Job.forget p) :=
  h.bind fun _ _ hd ↦ hd

theorem idle_apart {c : Call} (hc : c.Apart) : (duties r).Idle .free c := by
  rcases c with _ | c | c | c | c | c
  · exact ⟨⟨trivial, fun h ↦ h⟩, fun _ _ ↦ rfl⟩
  · cases c <;> first | exact hc.elim | exact ⟨⟨trivial, fun h ↦ h⟩, fun _ _ ↦ rfl⟩
  · cases c <;> first | exact hc.elim | exact ⟨⟨trivial, fun h ↦ h⟩, fun _ _ ↦ rfl⟩
  · cases c <;> first | exact hc.elim | exact ⟨⟨hc, fun h ↦ h⟩, fun _ _ ↦ rfl⟩
  · exact hc.elim
  · exact hc.elim

/-- Every job that gets something to do with a marker has done it when it ends. -/
theorem duties_job {j : Job} (hj : j.Mounted) :
    (duties r).Follows (fun d _ ↦ d.Discharged) .free j.prog := by
  by_cases hturn : j.OfTurn
  swap
  · exact (Session.Follows.of_onlyCalls (apart_job hturn) (fun c ↦ idle_apart) trivial).mono
      fun d _ hd ↦ hd ▸ trivial
  cases j with
  | create cfg rounds tenant spec key uuid =>
      exact duties_forget ((duties_create cfg rounds tenant spec key uuid).mono
        fun d _ hd ↦ hd ▸ trivial)
  | execute rt rounds agent =>
      exact ⟨⟨trivial, fun h ↦ h⟩, fun now _ ↦ duties_forget (duties_runOnce hj rounds agent now)⟩
  | heartbeat agent => exact duties_closing ⟨trivial, fun _ ↦ ⟨trivial, fun _ ↦ trivial⟩⟩
  | cancel cfg rounds tenant id =>
      exact duties_forget ((duties_cancel cfg rounds tenant id).mono fun d _ hd ↦ hd ▸ trivial)
  | tick cfg rounds => exact duties_tick cfg rounds
  | mode c => exact duties_closing ⟨trivial, fun _ ↦ trivial⟩
  | _ => exact hturn.elim

end Programs

end NovaChat
