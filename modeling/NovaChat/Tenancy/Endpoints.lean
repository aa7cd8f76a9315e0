import NovaChat.Client
import NovaChat.Gateway.Conversations
import NovaChat.Interact.Exchanged
import NovaChat.Interact.Path
import NovaChat.Interact.Unwinding
import NovaChat.Tenancy.Isolation
import NovaChat.Wire.Carrier
import NovaChat.Wire.Sizes

/-!
# Isolation at the endpoints

Requests to the conversation endpoints of any number of nodes, taking turns with each other and with
the switches of the store.  What one tenant requests, nobody else can tell from its own answers:
with that tenant's requests left out, every other request is answered the same.
-/

namespace NovaChat

open Interact Prog Gateway

/-- A request at a node, or a change of the switches. -/
inductive Visit
  | request (node : ℕ) (headers : Headers) (r : ConversationRequest)
  | mode (c : ModeCall)

namespace Visit

variable (app : AppState)

/-- A gateway reaches the carrier through the clients of its node. -/
def handler (node : ℕ) (headers : Headers) (r : ConversationRequest) : Service HttpResponse :=
  (r.handle app headers).handle (Client.carry node)

def prog : Visit → Service Unit
  | request node headers r => Job.forget (handler app node headers r)
  | mode c => perform (Call.mode c)

/-- The tenant a request speaks for. -/
def tenant : Visit → Option TenantId
  | request _ headers _ => (tenantOrReject app.keys headers).toOption
  | mode _ => none

end Visit

/-- The conversation endpoints of some nodes over one store. -/
def endpoints (app : AppState) : System Call Call.Reply World Visit where
  exec := exec
  prog := Visit.prog app

abbrev Visits := List (Event Call Call.Reply Visit)

/-- Process `i` is a request and has been answered `a`. -/
def AnsweredWith (app : AppState) (tr : Visits) (i : ℕ) (a : HttpResponse) : Prop :=
  ∃ node headers r, (started tr)[i]? = some (.request node headers r) ∧
    Path (Visit.handler app node headers r) (exchangesOf i tr) a

/-! ## The calls of a request -/

/-- What a request of a tenant calls. -/
def Call.For (tenant : TenantId) : Call → Prop
  | .nowMs | .node _ => True
  | .conversations c => c.tenant = tenant
  | _ => False

section Calls

variable {app : AppState} {tenant : TenantId} {headers : Headers}

theorem for_carry (node : ℕ) {c : Call} (hc : c.For tenant) :
    (Client.carry node c).OnlyCalls (Call.For tenant) := by
  have hforward : (Client.forward node c).OnlyCalls (Call.For tenant) := by
    cases c with
    | nowMs => exact ⟨trivial, fun _ ↦ trivial⟩
    | ledger c => exact hc.elim
    | eventLog c => exact hc.elim
    | conversations c => exact ⟨hc, fun _ ↦ trivial⟩
    | node c => exact ⟨trivial, fun _ ↦ trivial⟩
    | mode c => exact hc.elim
  unfold Client.carry
  split
  · exact hforward
  · refine ⟨trivial, fun readOnly ↦ ?_⟩
    cases readOnly with
    | true => trivial
    | false => exact hforward

/-- A stream does nothing but read. -/
theorem onlyCalls_openSse {P : Call → Prop} {id : ConversationId}
    (hread : ∀ cursor limit, P (.conversations (.readAfter tenant id cursor limit)))
    (batch reads : ℕ) (start : Option ℕ) :
    ((conversationSource tenant id).openSse batch reads start).OnlyCalls P := by
  have hlisten : ∀ (reads : ℕ) (cursor : Option ℕ),
      ((conversationSource tenant id).listen (max batch 1) reads cursor).OnlyCalls P := by
    intro reads
    induction reads with
    | zero => exact fun _ ↦ trivial
    | succ reads ih =>
        refine fun cursor ↦ ⟨hread _ _, fun reply ↦ ?_⟩
        cases reply with
        | error e => trivial
        | ok events =>
            simp only [bind_eq, Except.mapError, pure_eq, ret_bind]
            split
            · trivial
            · exact (ih _).bind fun _ ↦ trivial
  refine ⟨hread _ _, fun reply ↦ ?_⟩
  cases reply with
  | error e => trivial
  | ok events => exact (hlisten reads _).bind fun _ ↦ trivial

/-- What a handler with a tenant calls is what it calls past its preliminaries. -/
theorem onlyCalls_orReject {P : Call → Prop}
    (htenant : tenantOrReject app.keys headers = .ok tenant)
    {f : TenantId → Except HttpResponse (Service HttpResponse)}
    (h : ∀ handler, f tenant = .ok handler → handler.OnlyCalls P) :
    (ConversationRoutes.orReject (tenantOrReject app.keys headers >>= f)).OnlyCalls P := by
  rw [htenant]
  cases hf : f tenant with
  | ok handler =>
      have hP := h handler hf
      rwa [← show ConversationRoutes.orReject (f tenant) = handler by rw [hf]; rfl] at hP
  | error rejection =>
      have hret : ConversationRoutes.orReject (f tenant) = .ret rejection := by rw [hf]; rfl
      change (ConversationRoutes.orReject (f tenant)).OnlyCalls P
      rw [hret]
      trivial

/-- Once its tenant is known, a request calls for nobody else. -/
theorem for_handle (htenant : tenantOrReject app.keys headers = .ok tenant)
    (r : ConversationRequest) : (r.handle app headers).OnlyCalls (Call.For tenant) := by
  cases r with
  | create uuid accepting raw =>
      refine onlyCalls_orReject htenant fun handler h ↦ ?_
      split at h
      · cases h
      · obtain ⟨metadata, -, h⟩ := bind_eq_ok h
        obtain rfl := Except.ok.inj h
        exact ⟨trivial, fun now ↦ ⟨rfl, fun _ ↦ trivial⟩⟩
  | retrieve id =>
      refine onlyCalls_orReject htenant fun handler h ↦ ?_
      obtain ⟨id, -, h⟩ := bind_eq_ok h
      obtain rfl := Except.ok.inj h
      refine ⟨rfl, fun reply ↦ ?_⟩
      rcases reply with e | _ | x <;> trivial
  | update accepting id raw =>
      refine onlyCalls_orReject htenant fun handler h ↦ ?_
      split at h
      · cases h
      · obtain ⟨id, -, h⟩ := bind_eq_ok h
        obtain ⟨metadata, -, h⟩ := bind_eq_ok h
        obtain rfl := Except.ok.inj h
        exact ⟨rfl, fun _ ↦ trivial⟩
  | delete id =>
      refine onlyCalls_orReject htenant fun handler h ↦ ?_
      obtain ⟨id, -, h⟩ := bind_eq_ok h
      obtain rfl := Except.ok.inj h
      refine ⟨rfl, fun reply ↦ ?_⟩
      rcases reply with e | _ | _ <;> trivial
  | list =>
      refine onlyCalls_orReject htenant fun handler h ↦ ?_
      obtain rfl := Except.ok.inj h
      refine ⟨rfl, fun reply ↦ ?_⟩
      cases reply <;> trivial
  | events reads id startingAfter =>
      refine onlyCalls_orReject htenant fun handler h ↦ ?_
      obtain ⟨id, -, h⟩ := bind_eq_ok h
      obtain rfl := Except.ok.inj h
      exact onlyCalls_openSse (fun _ _ ↦ rfl) _ reads _
  | appendEvent accepting id raw =>
      refine onlyCalls_orReject htenant fun handler h ↦ ?_
      split at h
      · cases h
      · obtain ⟨id, -, h⟩ := bind_eq_ok h
        obtain ⟨kind, -, h⟩ := bind_eq_ok h
        obtain rfl := Except.ok.inj h
        refine ⟨trivial, fun now ↦ ⟨rfl, fun reply ↦ ?_⟩⟩
        cases reply <;> trivial
  | transcript id =>
      refine onlyCalls_orReject htenant fun handler h ↦ ?_
      obtain ⟨id, -, h⟩ := bind_eq_ok h
      obtain rfl := Except.ok.inj h
      refine ⟨rfl, fun reply ↦ ?_⟩
      cases reply <;> trivial

/-- A request without a tenant is turned away before it calls anything. -/
theorem handle_of_rejected {rejection : HttpResponse}
    (htenant : tenantOrReject app.keys headers = .error rejection) (r : ConversationRequest) :
    r.handle app headers = .ret rejection := by
  have hreject : ∀ f : TenantId → Except HttpResponse (Service HttpResponse),
      ConversationRoutes.orReject (tenantOrReject app.keys headers >>= f) = .ret rejection := by
    intro f
    rw [htenant]
    rfl
  cases r <;> exact hreject _

theorem for_handler (htenant : tenantOrReject app.keys headers = .ok tenant) (node : ℕ)
    (r : ConversationRequest) : (Visit.handler app node headers r).OnlyCalls (Call.For tenant) :=
  .handle (fun _ hc ↦ for_carry node hc) (for_handle htenant r)

end Calls

/-! ## Runs -/

/-- Whose conversation was refused for want of room. -/
def crowded : Exchange Call Call.Reply → Option TenantId
  | ⟨.conversations (.create x), .error .capacityExceeded⟩ => some x.tenantId
  | _ => none

/-- A create brings a conversation under an id no other was accepted with, and only the given
tenant's are refused for want of room. -/
def Undisturbed (tenant : TenantId) (tr : Visits) (_ : Pool Call Call.Reply World Visit) :
    Event Call Call.Reply Visit → Prop
  | .start _ => True
  | .call _ c r => c.NewIn (exchanged tr) ∧ ∀ other ∈ crowded ⟨c, r⟩, other = tenant

/-- Nothing a request of another tenant can see differs between the two worlds. -/
structure Alike (tenant : TenantId) (w w' : World) : Prop where
  store : Unseen tenant w.store w'.store
  clock : w'.clock = w.clock
  nodes : w'.nodes = w.nodes

section Runs

variable {app : AppState} {tenant : TenantId} {w : World} {tr : Visits}
  {q : Pool Call Call.Reply World Visit}

/-- Anybody else is answered alike in both worlds, and they stay alike. -/
theorem exec_alike {w' : World} {xs : Exchanges} {other : TenantId} {c : Call}
    (hother : other ≠ tenant) (hc : c.For other) (h : Alike tenant w w') (hfiled : Filed xs w)
    (hnew : c.NewIn xs)
    (hroom : ∀ x, c = .conversations (.create x) →
      (exec (.conversations (.create x)) w).1 ≠ .error .capacityExceeded) :
    (exec c w').1 = (exec c w).1 ∧ Alike tenant (exec c w).2 (exec c w').2 := by
  cases c with
  | nowMs => exact ⟨h.clock, h⟩
  | ledger c => exact hc.elim
  | eventLog c => exact hc.elim
  | mode c => exact hc.elim
  | node c =>
      cases c with
      | isReadOnly node => exact ⟨congrArg (fun f ↦ (f node).readOnly) h.nodes, h⟩
      | pendingLimit node => exact ⟨congrArg (fun f ↦ (f node).pendingLimit) h.nodes, h⟩
  | conversations call =>
      have hcall : call.tenant ≠ tenant := by
        have : call.tenant = other := hc
        rwa [this]
      have hfresh : ∀ x, call = .create x → w.store.conversation x.id = none := by
        rintro x rfl
        cases hx : w.store.conversation x.id with
        | none => rfl
        | some y => exact absurd (hfiled.opened hx) hnew
      have hsame : (exec (.conversations call) w').1 = (exec (.conversations call) w).1 ∧
          Unseen tenant (exec (.conversations call) w).2.store
            (exec (.conversations call) w').2.store := by
        by_cases hfits : ∀ x, call = .create x →
            HashMap.size w.store.inner.conversations < w.store.maxConversations
        · exact exec_unseen hcall h.store hfiled.keyed hfiled.conversations hfresh hfits
        · -- There is no room, yet that was not the answer: the store is not writable at all.
          push Not at hfits
          obtain ⟨x, rfl, hfull⟩ := hfits
          have hreply := hroom x rfl
          have hguard := h.store.guardWritable
          simp only [exec, execConversations, World.withStore_fst, World.withStore_snd,
            MemConversationStore.create, hguard] at hreply ⊢
          cases hw : MemConversationStore.guardWritable w.store with
          | error e => exact ⟨rfl, h.store⟩
          | ok u =>
              rw [hw] at hreply
              simp [hfull] at hreply
      refine ⟨hsame.1, hsame.2, ?_, ?_⟩
      · cases call <;> exact h.clock
      · cases call <;> exact h.nodes

/-- A tenant's own calls leave the world without it as it is. -/
theorem exec_unnoticed {w' : World} {xs : Exchanges} {c : Call} (hc : c.For tenant)
    (h : Alike tenant w w') (hfiled : Filed xs w) (hnew : c.NewIn xs) :
    Alike tenant (exec c w).2 w' := by
  cases c with
  | nowMs => exact h
  | ledger c => exact hc.elim
  | eventLog c => exact hc.elim
  | mode c => exact hc.elim
  | node c => cases c <;> exact h
  | conversations call =>
      have hfresh : ∀ x, call = .create x → w.store.conversation x.id = none := by
        rintro x rfl
        cases hx : w.store.conversation x.id with
        | none => rfl
        | some y => exact absurd (hfiled.opened hx) hnew
      refine ⟨exec_left hc h.store hfiled.keyed hfiled.conversations hfresh, ?_, ?_⟩
      · cases call <;> exact h.clock
      · cases call <;> exact h.nodes

/-- The switches and the clock are everybody's. -/
theorem exec_mode_alike {w' : World} (c : ModeCall) (h : Alike tenant w w') :
    Alike tenant (exec (.mode c) w).2 (exec (.mode c) w').2 := by
  obtain ⟨⟨hinner, hread, havail, hconv, hevents⟩, hclock, hnodes⟩ := h
  cases c with
  | setReadOnly enabled => exact ⟨⟨hinner, rfl, havail, hconv, hevents⟩, hclock, hnodes⟩
  | setUnavailable enabled => exact ⟨⟨hinner, hread, rfl, hconv, hevents⟩, hclock, hnodes⟩
  | setPendingLimit limit => exact ⟨⟨hinner, hread, havail, hconv, hevents⟩, hclock, hnodes⟩
  | setMaxRecords limit => exact ⟨⟨hinner, hread, havail, hconv, hevents⟩, hclock, hnodes⟩
  | setMaxConversations limit => exact ⟨⟨hinner, hread, havail, rfl, hevents⟩, hclock, hnodes⟩
  | setMaxEventsPerConversation limit => exact ⟨⟨hinner, hread, havail, hconv, rfl⟩, hclock, hnodes⟩
  | setNodeReadOnly node enabled =>
      refine ⟨⟨hinner, hread, havail, hconv, hevents⟩, hclock, ?_⟩
      simp only [exec, execMode, World.setNode, hnodes]
  | setNodePendingLimit node limit =>
      refine ⟨⟨hinner, hread, havail, hconv, hevents⟩, hclock, ?_⟩
      simp only [exec, execMode, World.setNode, hnodes]
  | setClock ms => exact ⟨⟨hinner, hread, havail, hconv, hevents⟩, rfl, hnodes⟩

theorem filed_of_run (hempty : w.store.inner = {})
    (h : Run (endpoints app) (Undisturbed tenant) (Pool.init w) tr q) :
    Filed (exchanged tr) q.world :=
  filed_of_history hempty (h.history fun _ _ _ _ _ hok ↦ hok.1)

/-- What a process calls next is the business of the tenant it speaks for. -/
theorem for_next (h : Run (endpoints app) (Undisturbed tenant) (Pool.init w) tr q) {i node : ℕ}
    {headers : Headers} {r : ConversationRequest} {c : Call} {k : c.Reply → Service Unit}
    (hi : q.procs[i]? = some ⟨.request node headers r, .call c k⟩) :
    ∃ other, tenantOrReject app.keys headers = .ok other ∧ c.For other := by
  have hsteps := h.steps.1 i _ hi
  cases htenant : tenantOrReject app.keys headers with
  | ok other =>
      have honly : (Visit.prog app (.request node headers r)).OnlyCalls (Call.For other) :=
        (for_handler htenant node r).bind fun _ ↦ trivial
      exact ⟨other, rfl, (hsteps.onlyCalls honly).1.1⟩
  | error rejection =>
      have hsilent : (Visit.prog app (.request node headers r)).OnlyCalls fun _ ↦ False := by
        simp only [Visit.prog, Visit.handler, handle_of_rejected htenant]
        trivial
      exact ((hsteps.onlyCalls hsilent).1.1).elim

theorem unwinds (hempty : w.store.inner = {}) :
    Unwinds (endpoints app) (Undisturbed tenant) w
      (fun j ↦ decide (j.tenant app ≠ some tenant)) (Alike tenant) := by
  constructor
  · intro tr q i j c k w' h hi hok hseen halike
    have hfiled := filed_of_run hempty h
    cases j with
    | request node headers r =>
        obtain ⟨other, htenant, hc⟩ := for_next h hi
        have hother : other ≠ tenant := by
          rintro rfl
          simp [Visit.tenant, htenant, Except.toOption] at hseen
        refine exec_alike hother hc halike hfiled hok.1 ?_
        rintro x rfl hfull
        have hreply : ((endpoints app).exec (Call.conversations (.create x)) q.world).1 =
            Except.error .capacityExceeded := hfull
        have hroom := hok.2 other
        rw [hreply] at hroom
        exact hother (hroom (congrArg some hc))
    | mode c' =>
        have hsteps := h.steps.1 i _ hi
        have hmode : (Visit.prog app (.mode c')).OnlyCalls fun c ↦ c = .mode c' :=
          ⟨rfl, fun _ ↦ trivial⟩
        obtain rfl := (hsteps.onlyCalls hmode).1.1
        exact ⟨rfl, exec_mode_alike c' halike⟩
  · intro tr q i j c k w' h hi hok hseen halike
    have hfiled := filed_of_run hempty h
    cases j with
    | request node headers r =>
        obtain ⟨other, htenant, hc⟩ := for_next h hi
        obtain rfl : other = tenant := by
          simpa [Visit.tenant, htenant, Except.toOption] using hseen
        exact exec_unnoticed hc halike hfiled hok.1
    | mode c' => simp [Visit.tenant] at hseen

end Runs

/-- In every run of the conversation endpoints of any number of nodes, with any requests
interleaved call by call, leaving out all requests of one tenant is a run again, in which every
other request gets the answers it got before. -/
theorem endpoints_noninterference (app : AppState) {w : World} (hempty : w.store.inner = {})
    (tenant : TenantId) {tr : Visits} {q : Pool Call Call.Reply World Visit}
    (h : Run (endpoints app) (Undisturbed tenant) (Pool.init w) tr q) :
    ∃ q', Run (endpoints app) (fun _ _ _ ↦ True) (Pool.init w)
        (visible (fun j ↦ decide (j.tenant app ≠ some tenant)) tr) q' ∧
      ∀ i j, (started tr)[i]? = some j → j.tenant app ≠ some tenant → ∀ a,
        AnsweredWith app tr i a ↔
          AnsweredWith app (visible (fun j ↦ decide (j.tenant app ≠ some tenant)) tr)
            (rank (fun j ↦ decide (j.tenant app ≠ some tenant)) (started tr) i) a := by
  have halike : Alike tenant w w := by
    refine ⟨⟨?_, rfl, rfl, rfl, rfl⟩, rfl, rfl⟩
    apply without_self <;> rw [hempty]
  obtain ⟨q', hrun, hprocs, -, hsame⟩ := h.visible (unwinds hempty) halike
  refine ⟨q', hrun, fun i j hj hseen a ↦ ?_⟩
  rw [← h.jobs_eq, List.getElem?_map] at hj
  obtain ⟨x, hx, rfl⟩ := Option.map_eq_some_iff.mp hj
  have hkeep : decide (x.job.tenant app ≠ some tenant) = true := decide_eq_true hseen
  have hjob : (started (visible (fun j ↦ decide (j.tenant app ≠ some tenant)) tr))[rank
      (fun j ↦ decide (j.tenant app ≠ some tenant)) (started tr) i]? = (started tr)[i]? := by
    rw [← hrun.jobs_eq, hprocs, h.rank_eq, ← h.jobs_eq, List.getElem?_map, List.getElem?_map,
      getElem?_filter_countP (p := fun x ↦ decide (x.job.tenant app ≠ some tenant)) hx hkeep, hx]
  simp only [AnsweredWith, hjob, hsame i x hx hkeep]

def undisturbed (tenant : TenantId) (tr : Visits) : Event Call Call.Reply Visit → Bool
  | .start _ => true
  | .call _ c r => c.newIn (exchanged tr) && (crowded ⟨c, r⟩).all fun other ↦ other = tenant

theorem undisturbed_of_check {tenant : TenantId} {tr : Visits}
    {q : Pool Call Call.Reply World Visit} {e : Event Call Call.Reply Visit}
    (h : undisturbed tenant tr e = true) : Undisturbed tenant tr q e := by
  cases e with
  | start j => trivial
  | call i c r =>
      obtain ⟨hnew, hroom⟩ := Bool.and_eq_true_iff.mp h
      refine ⟨Call.newIn_iff.mp hnew, fun other hother ↦ ?_⟩
      rw [Option.mem_def.mp hother] at hroom
      simpa using hroom

namespace Sample

/-- Two tenants with a key each. -/
def app : AppState where
  keys := {
    keys := ((∅ : HashMap String TenantId).insert "key-aaaaaaa" tenant).insert "key-bbbbbbb"
      otherTenant }
  parseStr := parseStr
  bodyError _ := "invalid body"

def mine : Headers := { authorization := some "Bearer key-aaaaaaa" }

def theirs : Headers := { authorization := some "Bearer key-bbbbbbb" }

/-- One tenant opens a conversation and looks at it, while the other tries to delete it. -/
def visits : List (Action Visit) :=
  .start (.request 0 mine (.create ⟨0⟩ true (.object []))) ::
    .start (.request 1 theirs (.delete talk.text)) ::
      .start (.request 0 mine (.retrieve talk.text)) ::
        ([0, 0, 1, 0, 1, 2].map Action.turn)

end Sample

theorem endpoints_noninterference_meddling :
    ∃ tr q, Run (endpoints Sample.app) (Undisturbed Sample.otherTenant) (Pool.init {}) tr q ∧
      ([0, 1, 2].all fun i ↦ q.returned i) = true ∧
      ∃ q', Run (endpoints Sample.app) (fun _ _ _ ↦ True) (Pool.init {})
          (visible (fun j ↦ decide (j.tenant Sample.app ≠ some Sample.otherTenant)) tr) q' ∧
        ∀ i j, (started tr)[i]? = some j → j.tenant Sample.app ≠ some Sample.otherTenant → ∀ a,
          AnsweredWith Sample.app tr i a ↔
            AnsweredWith Sample.app
              (visible (fun j ↦ decide (j.tenant Sample.app ≠ some Sample.otherTenant)) tr)
              (rank (fun j ↦ decide (j.tenant Sample.app ≠ some Sample.otherTenant))
                (started tr) i) a := by
  obtain ⟨tr, q, h, htest⟩ := @Run.exists_of_schedule _ _ _ _
    (Undisturbed Sample.otherTenant) (endpoints Sample.app) (Pool.init {})
    (fun tr _ e ↦ undisturbed Sample.otherTenant tr e)
    (fun _ q ↦ [0, 1, 2].all fun i ↦ q.returned i)
    (fun _ _ _ ↦ undisturbed_of_check) Sample.visits (by decide +kernel)
  exact ⟨tr, q, h, htest, endpoints_noninterference Sample.app rfl Sample.otherTenant h⟩

end NovaChat
