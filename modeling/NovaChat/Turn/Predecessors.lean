import NovaChat.Turn.Commits

/-!
# A turn reads its predecessors

While a response holds the marker of a conversation, every earlier turn of the conversation that has
ended is archived, and a read of the snapshot finds what was archived of it: the one commit that
was submitted, of the process that had it to archive.
-/

namespace NovaChat

open Interact MemConversationStore

theorem entries_readSnapshot {s : MemStore} {tenant : TenantId} {c : ConversationId}
    {resolved : ResolvedContext} (h : readSnapshot s tenant c = .ok resolved) :
    resolved.entries = (s.snapshot c).entries := by
  unfold readSnapshot at h
  split at h
  · cases h
  · split at h
    · cases h
    · rw [← Except.ok.inj h]

/-- The turn of `r` is archived in `c` as what was submitted of it: one commit, with the input on
record, of a process that had it to archive. -/
structure OnceArchived (tr : Trace) (q : State) (c : ConversationId) (r : ResponseId)
    (input : List ResponseItem) (commit : TurnCommit) : Prop where
  archived : q.world.store.Archived c r
  submitted : NovaChat.submitted r tr = [commit]
  committed : Committed tr q c r commit
  input : commit.inputItems = input

/-- Whoever reads the snapshot of `c` gets the turn. -/
def ReadIn (s : MemStore) (c : ConversationId) (commit : TurnCommit) : Prop :=
  ∀ tenant resolved, readSnapshot s tenant c = .ok resolved →
    turnEntries commit <:+: resolved.entries

/-- While a response holds the marker of a conversation, every other stored response of the
conversation that is terminal has its turn in whatever is read of the snapshot from then on: the
one commit that was submitted of it. -/
theorem predecessors_read {w : World} {tr tr' : Trace} {q q' : State} {c : ConversationId}
    {r₁ r₂ : ResponseId} {x : ResponseRecord} (hw : w.store.Quiescent)
    (hblank : ∀ c r, ¬ w.store.Archived c r) (h : Run system OrderedStep (Pool.init w) tr q)
    (h' : Run system (fun t ↦ OrderedStep (tr ++ t)) q tr' q')
    (hmarker : q.world.store.marker c = some r₂) (hne : r₁ ≠ r₂)
    (hx : q.world.store.record r₁ = some x) (hterm : x.status.isTerminal = true)
    (hstored : x.isStored = true) (hanchor : x.anchor = .conversation c) :
    ∃ commit, OnceArchived tr q c r₁ x.spec.inputItems commit ∧ ReadIn q'.world.store c commit := by
  have hturns : Run system TurnStep (Pool.init w) tr q := h.mono fun _ _ _ hok ↦ hok.1
  have hmint : ∀ tr q e, TurnStep tr q e → MintStep tr q e := by
    intro tr q e hstep
    cases e with
    | start j => exact hstep.2
    | call i c r => trivial
  have hunfiled : w.store.Unfiled := ⟨hw.keyed, hw.record⟩
  have harchived : q.world.store.Archived c r₁ := by
    rcases (ordered_run hw h).turns hx hterm hstored hanchor with hheld | harchived
    · rw [hmarker] at hheld
      exact absurd (Option.some.inj hheld).symm hne
    · exact harchived
  -- What is archived was added by the one call that submitted the turn.
  have hsnap := snapshot_run (fun _ _ _ hok ↦ hok.1) hturns c
  obtain ⟨commit, hmem⟩ : ∃ commit, (r₁, commit) ∈ history c tr := by
    rw [MemStore.Archived, hsnap, appended_replay] at harchived
    exact harchived.resolve_left (hblank c r₁)
  have hsub := submitted_eq_of_history hmint hunfiled hturns hmem
  obtain ⟨o, ho, hid, -, hinput⟩ := input_of_history hmint hunfiled hturns hmem
  have hp := (provenance_run hmint hunfiled hturns).1
  have horigin : x.origin = o := hp.unique (hp.record hx) ho
    ((hp.keyed.record hx).trans hid.symm)
  refine ⟨commit, ⟨harchived, hsub, committed_of_history hturns hmem, ?_⟩,
    fun tenant resolved hread ↦ ?_⟩
  · rw [hinput, ← horigin]
    rfl
  · have hinfix : turnEntries commit <:+: (q.world.store.snapshot c).entries := by
      rw [hsnap]
      refine turnEntries_replay _ _ (Option.not_isSome_iff_eq_none.mp (hblank c r₁)) hmem
        fun commit' hmem' ↦ ?_
      simpa using (submitted_eq_of_history hmint hunfiled hturns hmem').symm.trans hsub
    rw [entries_readSnapshot hread]
    exact hinfix.trans (entries_run hturns (h'.mono fun _ _ _ hok ↦ hok.1) c).isInfix

/-- Whether the sample conversation is held by one response, with another one completed. -/
def Sample.handedOver (q : State) (holder done : ResponseId) : Bool :=
  decide (q.world.store.marker talk = some holder) &&
    (q.world.store.record done).any fun x ↦
      decide (x.anchor = .conversation talk) && x.status.isTerminal && x.isStored

/-- The reply of an event, if it has one, tells of no failure. -/
def Sample.smooth : Event Call Call.Reply Job → Bool
  | .start _ => true
  | .call _ c r => c.succeeds r

/-- A turn that starts after its predecessor was settled reads it. -/
theorem predecessors_read_settled : ∃ tr q, Run system OrderedStep (Pool.init Sample.world) tr q ∧
    Sample.handedOver q (Sample.id 2) (Sample.id 1) = true ∧
    ∃ commit, OnceArchived tr q Sample.talk (Sample.id 1) Sample.spec.inputItems commit ∧
      ReadIn q.world.store Sample.talk commit := by
  have hcheck : ∀ tr q (e : Event Call Call.Reply Job), (decide (TurnStep tr q e) &&
      Sample.smooth e && decide (probed q e = none)) = true → OrderedStep tr q e := by
    intro tr q e h
    simp only [Bool.and_eq_true, decide_eq_true_eq] at h
    obtain ⟨⟨hturn, hok⟩, hnone⟩ := h
    refine ⟨hturn, ?_, by simp [hnone]⟩
    cases e with
    | start j => trivial
    | call i c r => exact fun _ ↦ hok
  obtain ⟨tr, q, h, htest⟩ := Run.exists_of_schedule system (Pool.init Sample.world) _
    (fun _ q ↦ Sample.handedOver q (Sample.id 2) (Sample.id 1) &&
      (q.world.store.record (Sample.id 1)).any fun x ↦
        decide (x.spec.inputItems = Sample.spec.inputItems)) hcheck
    (Sample.post 1 :: Sample.work :: Sample.post 2 :: Sample.steps 0 6 ++ Sample.steps 1 11 ++
      Sample.steps 2 4) (by decide +kernel)
  simp only [Bool.and_eq_true, Option.any_eq_true, decide_eq_true_eq] at htest
  obtain ⟨hover, x, hx, hinput⟩ := htest
  have hover' := hover
  simp only [Sample.handedOver, Bool.and_eq_true, decide_eq_true_eq, Option.any_eq_true] at hover'
  obtain ⟨hmarker, y, hy, ⟨hanchor, hterm⟩, hstored⟩ := hover'
  obtain rfl : x = y := Option.some.inj (hx.symm.trans hy)
  obtain ⟨commit, hsettled, hread⟩ := predecessors_read Sample.world_quiescent Sample.world_blank h
    .nil hmarker (by decide) hx hterm hstored hanchor
  exact ⟨tr, q, h, hover, commit, hinput ▸ hsettled, hread⟩

/-- The second create finds the ledger closed while the first turn is still to be archived,
and takes the marker over; every call succeeds on the way. -/
theorem unarchived_takeover : ¬ ∀ (w : World) (tr tr' : Trace) (q q' : State) (c : ConversationId)
    (r₁ r₂ : ResponseId) (x : ResponseRecord), w.store.Quiescent →
    (∀ c r, ¬ w.store.Archived c r) → Run system SucceedingStep (Pool.init w) tr q →
    Run system (fun t ↦ SucceedingStep (tr ++ t)) q tr' q' →
    q.world.store.marker c = some r₂ → r₁ ≠ r₂ → q.world.store.record r₁ = some x →
    x.status.isTerminal = true → x.isStored = true → x.anchor = .conversation c →
    ∃ commit, OnceArchived tr q c r₁ x.spec.inputItems commit ∧ ReadIn q'.world.store c commit := by
  intro hclaim
  have hcheck : ∀ tr q (e : Event Call Call.Reply Job), (decide (TurnStep tr q e) &&
      Sample.smooth e) = true → SucceedingStep tr q e := by
    intro tr q e h
    simp only [Bool.and_eq_true, decide_eq_true_eq] at h
    refine ⟨h.1, ?_⟩
    cases e with
    | start j => trivial
    | call i c r => exact h.2
  obtain ⟨tr, q, h, htest⟩ := Run.exists_of_schedule system (Pool.init Sample.world) _
    (fun _ q ↦ Sample.handedOver q (Sample.id 2) (Sample.id 1) &&
      decide (¬ q.world.store.Archived Sample.talk (Sample.id 1))) hcheck
    (Sample.post 1 :: Sample.work :: Sample.post 2 :: Sample.steps 0 6 ++ Sample.steps 1 5 ++
      Sample.steps 2 8) (by decide +kernel)
  simp only [Sample.handedOver, Bool.and_eq_true, decide_eq_true_eq, Option.any_eq_true] at htest
  obtain ⟨⟨hmarker, x, hx, ⟨hanchor, hterm⟩, hstored⟩, hmissing⟩ := htest
  obtain ⟨commit, hsettled, -⟩ := hclaim Sample.world tr [] q q Sample.talk (Sample.id 1)
    (Sample.id 2) x Sample.world_quiescent Sample.world_blank h .nil hmarker (by decide) hx hterm
    hstored hanchor
  exact hmissing hsettled.archived

end NovaChat
