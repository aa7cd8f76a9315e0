import NovaChat.Turn.Tail
import NovaChat.Turn.Unfinished

/-!
# What is archived of a turn

A turn is archived by the process that has ended it.  An execution archives what its attempt came
to, a cancellation and a tick what they have read back of the stream.
-/

namespace NovaChat

open Interact Prog

/-- The status under which a job archives what it reads back. -/
def Job.closing : Job → Option ResponseStatus
  | .cancel .. => some .cancelled
  | .tick .. => some .failed
  | _ => none

/-- What a job archives of `r` after what it has exchanged: the verdict of its attempt, or the items
its last reads have found in the stream. -/
inductive Job.Commits (r : ResponseId) (commit : TurnCommit) (j : Job) (xs : Exchanges) : Prop
  | attempted (claimed : ClaimedResponse) (verdict : Verdict) (ys : Exchanges) (h : ys <+: xs)
      (hattempt : j.Attempted claimed verdict ys) (hid : claimed.record.responseId = r)
      (hcommit : verdict.commit claimed.record = some commit)
  | replayed (rounds : ℕ) (status : ResponseStatus) (ys : Exchanges) (h : ys <:+ xs)
      (hclosing : j.closing = some status) (items : List ResponseItem)
      (hreplay : Path (replayCompletedItems rounds r) ys (.ok items))
      (hcommit : commit = ⟨commit.inputItems, items, none, {}, status⟩)

/-- An archive comes after what its job has exchanged. -/
def Job.Archives (j : Job) (xs : Exchanges) : Call → Prop
  | .conversations (.appendTurn _ _ r commit _) => j.Commits r commit xs
  | _ => True

/-- Calls that archive nothing. -/
def Call.Unarchived : Call → Prop
  | .conversations (.appendTurn ..) => False
  | _ => True

theorem Call.Unarchived.archives {c : Call} (hc : c.Unarchived) (j : Job) (xs : Exchanges) :
    j.Archives xs c := by
  rcases c with _ | c | c | c | c | c <;> try trivial
  cases c <;> first | exact hc.elim | trivial

theorem unarchived_of_reads {c : Call} (hc : c.Reads) : c.Unarchived := by
  rcases c with _ | c | c | c | c | c <;> try trivial
  cases c <;> first | exact hc.elim | trivial

theorem unarchived_of_reports {c : Call} (hc : c.Reports) : c.Unarchived := by
  unfold Call.Reports at hc
  split at hc
  · trivial
  · trivial
  · exact unarchived_of_reads hc

theorem unarchived_of_makes {j : Job} {c : Call}
    (hexecute : ∀ rt rounds agent, j ≠ .execute rt rounds agent) (hclosing : j.closing = none)
    (hc : j.Makes c) : c.Unarchived := by
  rcases hc with hc | hc | ⟨-, hc⟩
  · rcases c with _ | c | c | c | c | c <;> try trivial
    cases c <;> first | exact hc.elim | trivial
  · rcases c with _ | c | c | c | c | c <;> try trivial
    cases c <;> try trivial
    cases j <;> first
      | exact hc.elim
      | exact absurd rfl (hexecute _ _ _)
      | cases hclosing
  · rcases c with _ | c | c | c | c | c <;> try trivial
    cases c <;> first | exact hc.elim | trivial

theorem archives_execute (rt : AgentRuntime) (rounds : ℕ) (agent : AgentId) :
    (Job.execute rt rounds agent).prog.Guarded (Job.execute rt rounds agent).Archives [] := by
  refine guarded_execute trivial (fun _ ↦ trivial) fun now claimed ↦ ?_
  rw [AgentRuntime.serve_eq]
  refine (Guarded.of_onlyCalls ((reports_attempt rt rounds claimed).mono fun c hc ys ↦
    (unarchived_of_reports hc).archives _ ys)).bind fun ys verdict hpath ↦ ?_
  refine .of_onlyCalls_behind ((concludes_conclude claimed verdict).mono fun c hc zs ↦ ?_)
  obtain ⟨commit, hcommit, hc⟩ := hc
  cases hc with
  | archive =>
      exact .attempted claimed verdict _ (List.prefix_append _ zs) ⟨ys, ⟨now, rfl⟩, hpath⟩ rfl
        hcommit
  | settle h => cases h <;> trivial
  | _ => trivial

section Closing

variable {j : Job} {xs : Exchanges} {status : ResponseStatus}

theorem archives_archiveReplayed (hj : j.closing = some status) (rounds : ℕ) (tenant : TenantId)
    (c : ConversationId) (r : ResponseId) (input : List ResponseItem) (now : ℕ) :
    (archiveReplayed rounds tenant c r input status now).Guarded j.Archives xs := by
  have hreads : (replayCompletedItems rounds r).OnlyCalls Call.Unarchived :=
    (pages_replayCompletedItems rounds r).mono fun c hc ↦ unarchived_of_reads hc.reads
  refine (Guarded.of_onlyCalls (hreads.mono fun c hc ys ↦ hc.archives j ys)).bind
    fun ys result hpath ↦ ?_
  rcases result with e | items
  · trivial
  · exact ⟨.replayed rounds status ys (List.suffix_append _ _) hj items hpath rfl,
      fun _ ↦ trivial⟩

theorem archives_cancel (hj : j.closing = some .cancelled) (cfg : Config) (rounds : ℕ)
    (tenant : TenantId) (id : ResponseId) :
    (ResponsesService.cancel cfg rounds tenant id).Guarded j.Archives xs := by
  refine ⟨trivial, fun now ↦ ⟨trivial, fun r ↦ ?_⟩⟩
  rcases r with e | ⟨⟩
  · trivial
  refine ⟨trivial, fun reply ↦ ?_⟩
  have harchive : ∀ ys, (ResponsesService.archiveCancelled rounds tenant id (found reply)
      now).Guarded j.Archives ys := by
    intro ys
    unfold ResponsesService.archiveCancelled
    split
    · trivial
    · split
      · exact archives_archiveReplayed hj ..
      · trivial
  refine (harchive _).bind fun _ _ _ ↦ .of_onlyCalls (OnlyCalls.mono (P := Call.Unarchived) ?_
    fun c hc ys ↦ hc.archives j ys)
  refine OnlyCalls.bind ?_ fun _ ↦ ⟨trivial, fun _ ↦ ⟨trivial, fun _ ↦ trivial⟩⟩
  unfold ResponsesService.releaseCancelled
  split
  · trivial
  · exact ⟨trivial, fun _ ↦ ⟨trivial, fun _ ↦ trivial⟩⟩

theorem archives_settleAll (hj : j.closing = some .failed) (cfg : Config) (rounds now : ℕ) :
    ∀ (claims : List AbortedClaim) (xs : Exchanges),
      (settleAll cfg rounds now claims).Guarded j.Archives xs
  | [], _ => trivial
  | claim :: claims, xs => by
      refine Prog.Guarded.bind ?_ fun _ _ _ ↦ archives_settleAll hj cfg rounds now claims _
      refine ⟨trivial, fun _ ↦ ⟨trivial, fun _ ↦ ?_⟩⟩
      have hrelease : ∀ c ys, (Conversations.releaseActive claim.tenantId c claim.responseId .failed
          now >>= fun _ ↦ (.ret () : Service Unit)).Guarded j.Archives ys :=
        fun c ys ↦ ⟨trivial, fun _ ↦ trivial⟩
      cases claim.conversationId with
      | none => trivial
      | some c =>
          dsimp only
          split
          · exact (archives_archiveReplayed hj ..).bind fun _ _ _ ↦ hrelease c _
          · exact hrelease c _

end Closing

/-- Whatever a job archives, it archives after what the turn was ended with. -/
theorem archives_job (j : Job) : j.prog.Guarded j.Archives [] := by
  by_cases hexecute : ∃ rt rounds agent, j = .execute rt rounds agent
  · obtain ⟨rt, rounds, agent, rfl⟩ := hexecute
    exact archives_execute rt rounds agent
  push Not at hexecute
  cases j with
  | cancel cfg rounds tenant id =>
      exact (archives_cancel rfl cfg rounds tenant id).bind fun _ _ _ ↦ trivial
  | tick cfg rounds =>
      refine ⟨trivial, fun now ↦ ⟨trivial, fun r ↦ ?_⟩⟩
      rcases r with e | aborted
      · trivial
      · exact (archives_settleAll rfl cfg rounds now aborted _).bind fun _ _ _ ↦
          ⟨trivial, fun _ ↦ trivial⟩
  | _ =>
      exact .of_onlyCalls ((makes_job _).mono fun c hc xs ↦
        (unarchived_of_makes hexecute rfl hc).archives _ xs)

/-! ## Runs -/

/-- The turn was accepted for the snapshot of `c` from a process that had it to archive. -/
def Committed (tr : Trace) (q : State) (c : ConversationId) (r : ResponseId) (commit : TurnCommit) :
    Prop :=
  ∃ before i tenant now index after j,
    tr = before ++ .call i (.conversations (.appendTurn tenant c r commit now)) (.ok index) ::
      after ∧ q.jobAt i = some j ∧ j.Commits r commit (exchangesOf i before)

section Runs

variable {ok : Trace → State → Event Call Call.Reply Job → Prop} {w : World} {tr : Trace}
  {q : State} {c : ConversationId} {r : ResponseId} {commit : TurnCommit}

theorem exists_append_of_history (h : (r, commit) ∈ history c tr) :
    ∃ before i tenant now index after, tr = before ++
      .call i (.conversations (.appendTurn tenant c r commit now)) (.ok index) :: after := by
  obtain ⟨e, he, hadds⟩ := List.mem_filterMap.mp h
  obtain ⟨before, after, rfl⟩ := List.append_of_mem he
  rcases e with j | ⟨i, call, reply⟩
  · cases hadds
  rcases call with _ | lc | ec | cc | nc | mc <;> try cases hadds
  cases cc with
  | appendTurn tenant c' id commit' now =>
      rcases reply with e | index
      · cases hadds
      · replace hadds : (if c' = c then some (id, commit') else none) = some (r, commit) := hadds
        split_ifs at hadds with hc
        obtain ⟨rfl, rfl⟩ := Prod.mk.inj (Option.some.inj hadds)
        subst hc
        exact ⟨before, i, tenant, now, index, after, rfl⟩
  | _ => cases hadds

theorem committed_of_history (h : Run system ok (Pool.init w) tr q)
    (hmem : (r, commit) ∈ history c tr) : Committed tr q c r commit := by
  obtain ⟨before, i, tenant, now, index, after, rfl⟩ := exists_append_of_history hmem
  obtain ⟨j, hj, hcommits⟩ := h.guarded rfl archives_job
  exact ⟨before, i, tenant, now, index, after, j, rfl, hj, hcommits⟩

/-- What is archived of a turn begins with the input that was filed, in the conversation it was
filed for. -/
theorem input_of_history (hok : ∀ tr q e, ok tr q e → MintStep tr q e) (hw : w.store.Unfiled)
    (h : Run system ok (Pool.init w) tr q) (hmem : (r, commit) ∈ history c tr) :
    ∃ o ∈ filings tr, o.id = r ∧ o.turn.home = some c ∧ commit.inputItems = o.turn.input := by
  obtain ⟨before, i, tenant, now, index, after, rfl⟩ := exists_append_of_history hmem
  obtain ⟨q₁, hrun, -, -, hcall⟩ := h.split rfl
  obtain ⟨⟨j, k, hi⟩, -⟩ := hcall i _ _ rfl
  obtain ⟨hp, hkeeps⟩ := provenance_run hok hw hrun
  obtain ⟨s, hs, hfollow⟩ := hkeeps.session hi
  obtain ⟨won, e, t, rfl, he, rfl, hturn, hhome, hinput⟩ := allowed_appendTurn hfollow.1
  obtain ⟨tenant', hfiled⟩ := hp.knows hs e he t hturn
  refine ⟨⟨e.id, tenant', t⟩, ?_, rfl, hhome, hinput⟩
  rw [filings, List.filterMap_append]
  exact List.mem_append_left _ hfiled

/-- Nothing else was submitted of a turn that is archived. -/
theorem submitted_eq_of_history (hok : ∀ tr q e, ok tr q e → MintStep tr q e)
    (hw : w.store.Unfiled) (h : Run system ok (Pool.init w) tr q)
    (hmem : (r, commit) ∈ history c tr) : submitted r tr = [commit] := by
  have hsub := submitted_of_history hmem
  obtain ⟨commit', hone⟩ := List.length_eq_one_iff.mp
    (le_antisymm (sole_run hok hw h r).1.single (List.length_pos_of_mem hsub))
  rw [hone, List.mem_singleton] at hsub
  rw [hone, hsub]

end Runs

end NovaChat
