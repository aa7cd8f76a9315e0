import NovaChat.Turn.Fence

/-!
# Every job keeps to a session

Creates, executions, cancellations and ticks keep to the session of a turn.  Here streams,
deletions, purges and new conversations join them, so that a statement about every run can be about
all jobs.
-/

namespace NovaChat

open Interact Prog

/-- The response a job creates, and for whom. -/
def Job.creates : Job → Option (ResponseId × TenantId)
  | .create cfg _ tenant _ _ uuid => some (⟨cfg.nodeTag, uuid⟩, tenant)
  | _ => none

/-- The response a job streams, and to whom. -/
def Job.streams : Job → Option (ResponseId × TenantId)
  | .stream _ id _ tenant => some (id, tenant)
  | _ => none

/-! ## Where a process stands -/

/-- Where a process stands: in its turn, before or after the ownership check of a stream, or at
one of the steps of a deletion. -/
inductive Watch
  | turning (owner : Option TenantId) (s : Stage)
  | asking (r : ResponseId) (tenant : TenantId)
  | watching (r : ResponseId) (tenant : TenantId)
  | finding (r : ResponseId)
  | deleting (r : ResponseId)
  | removing (r : ResponseId)
  /-- Purges and conversations are all that is left to it. -/
  | aside
  | ended

/-- Calls about conversations, and the removal of a tenant's records. -/
def Call.Aside : Call → Prop
  | .nowMs | .conversations _ | .ledger (.deleteByTenant _) => True
  | _ => False

namespace Watch

def first : Job → Watch
  | .stream _ id _ tenant => .asking id tenant
  | .delete _ id => .finding id
  | .purge _ | .createConversation .. => .aside
  | j => .turning (j.creates.map Prod.snd) (Stage.first j)

def Allowed : Watch → Call → Prop
  | turning owner s, c => s.Allowed c ∧ ∀ tenant ∈ owner, c.WritesFor tenant
  | asking r _, c => c = .ledger (.get r)
  | watching r _, c => ∃ cursor limit, c = .eventLog (.readAfter r cursor limit)
  | finding r, c => c = .ledger (.get r)
  | deleting r, c => c = .ledger (.delete r)
  | removing r, c => c = .eventLog (.remove r)
  | aside, c => c.Aside
  | ended, _ => False

/-- After the ownership check: a record of another tenant ends the stream, no record does
not. -/
def checked (r : ResponseId) (tenant : TenantId)
    (reply : Except LedgerError (Option ResponseRecord)) : Watch :=
  if (found reply).all fun x ↦ decide (x.tenantId = tenant) then watching r tenant else ended

def next : Watch → (c : Call) → c.Reply → Watch
  | turning owner s, c, r => turning owner (s.next c r)
  | asking r tenant, .ledger (.get _), reply => checked r tenant reply
  | finding r, _, _ => deleting r
  | deleting r, .ledger (.delete _), reply => if reply.isOk then removing r else aside
  | removing _, _, _ => aside
  | s, _, _ => s

/-- A deletion does not stop halfway. -/
def Restful : Watch → Prop
  | turning _ s => s.Restful
  | removing _ => False
  | _ => True

end Watch

def watch : Session Call Call.Reply where
  State := Watch
  allowed := Watch.Allowed
  answers := Call.Answers
  next := Watch.next
  rest := Watch.Restful

theorem follows_streamImpl (rounds : ℕ) (r : ResponseId) (cursor : Option ℕ) (tenant : TenantId) :
    watch.Follows (fun s _ ↦ s.Restful) (.asking r tenant)
      (Gateway.streamImpl rounds r cursor tenant) := by
  have hopen : watch.Follows (fun s _ ↦ s.Restful) (.watching r tenant)
      (Gateway.openStream rounds r cursor) := by
    refine (Session.Follows.of_onlyCalls (pages_openStream rounds r cursor) ?_ trivial).mono
      fun s _ hs ↦ ?_
    · rintro c ⟨cursor, limit, rfl⟩
      exact ⟨⟨cursor, limit, rfl⟩, fun _ _ ↦ rfl⟩
    · subst hs
      exact trivial
  refine ⟨rfl, fun reply _ ↦ ?_⟩
  rcases reply with e | (_ | x)
  · exact hopen
  · exact hopen
  · show watch.Follows _ (Watch.checked r tenant (.ok (some x))) (ite _ _ _)
    split_ifs with hother
    · have hover : Watch.checked r tenant (.ok (some x)) = .ended := by
        simp [Watch.checked, found, hother]
      rw [hover]
      exact trivial
    · have hown : Watch.checked r tenant (.ok (some x)) = .watching r tenant := by
        simp [Watch.checked, found, not_not.mp hother]
      rw [hown]
      exact hopen

theorem follows_delete (tenant : TenantId) (id : ResponseId) :
    watch.Follows (fun s _ ↦ s.Restful) (.finding id) (ResponsesService.delete tenant id) := by
  refine ⟨rfl, fun found _ ↦ ⟨rfl, fun r _ ↦ ?_⟩⟩
  rcases r with e | deleted
  · exact trivial
  refine ⟨rfl, fun _ _ ↦ ?_⟩
  dsimp only
  split
  · exact ⟨trivial, fun _ _ ↦ ⟨trivial, fun _ _ ↦ trivial⟩⟩
  · exact trivial

/-- Every job keeps to its session. -/
theorem follows_watch (j : Job) :
    watch.Follows (fun s _ ↦ s.Restful) (Watch.first j) j.prog := by
  have hturn : ∀ {owner : Option TenantId}, j.OfTurn →
      j.prog.OnlyCalls (fun c ↦ ∀ tenant ∈ owner, c.WritesFor tenant) →
      watch.Follows (fun s _ ↦ s.Restful) (.turning owner (Stage.first j)) j.prog := by
    intro owner hj hcalls
    refine Session.Follows.map (S := turn) (T := watch) (f := Watch.turning owner) ?_
      (fun _ _ h ↦ h) (fun _ _ _ _ ↦ rfl) (fun _ h ↦ h) (fun _ _ h ↦ h) (follows_job hj) hcalls
    exact fun s c hallowed hwrites ↦ ⟨hallowed, hwrites⟩
  have hnone : ∀ p : Service Unit,
      p.OnlyCalls (fun c ↦ ∀ tenant ∈ (none : Option TenantId), c.WritesFor tenant) := by
    intro p
    induction p with
    | ret => exact trivial
    | stall => exact trivial
    | call c k ih => exact ⟨by simp, ih⟩
  cases j with
  | create cfg rounds tenant spec key uuid =>
      refine hturn trivial (OnlyCalls.bind ?_ fun _ ↦ trivial)
      refine (writesFor_create cfg rounds tenant spec key uuid).mono fun c hc ↦ ?_
      rintro t ht
      obtain rfl : tenant = t := Option.some.inj ht
      exact hc
  | stream rounds id cursor tenant =>
      exact (follows_streamImpl rounds id cursor tenant).bind fun _ _ hs ↦ hs
  | delete tenant id => exact (follows_delete tenant id).bind fun _ _ hs ↦ hs
  | purge tenant =>
      refine ⟨trivial, fun r _ ↦ ?_⟩
      rcases r with e | n
      · exact trivial
      · refine ⟨trivial, fun r _ ↦ ?_⟩
        rcases r with e | n <;> exact trivial
  | createConversation uuid tenant metadata =>
      exact ⟨trivial, fun _ _ ↦ ⟨trivial, fun _ _ ↦ trivial⟩⟩
  | _ => exact hturn trivial (hnone _)

end NovaChat
