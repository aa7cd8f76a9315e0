import NovaChat.Agentd.Forthcoming
import NovaChat.Context.Order
import NovaChat.Stream.Archive
import NovaChat.Turn.Commits

/-!
# What a turn produces

An execution finishes in the stream what its runner finishes, under indexes that its sink counts up.
A runner whose schedulers are forthcoming has calls taken before it finishes their outputs.  So the
stream has them in this order, and so has what the execution archives.
-/

namespace NovaChat

open Interact Prog

/-! ## What has arrived -/

/-- The events some exchanges have added to the stream of `r`. -/
def arrivedIn (r : ResponseId) (xs : Exchanges) : List AppendEvent :=
  xs.filterMap fun x ↦ (assigned r x).map Prod.snd

@[simp] theorem arrivedIn_append (r : ResponseId) (xs ys : Exchanges) :
    arrivedIn r (xs ++ ys) = arrivedIn r xs ++ arrivedIn r ys := List.filterMap_append

/-- The index under which an event adds an item. -/
def AppendEvent.added (event : AppendEvent) : Option ℕ :=
  match event.kind, event.body with
  | .outputItemAdded, .item index _ => some index
  | _, _ => none

/-- An event leaves room for the next index. -/
def AppendEvent.Narrow (event : AppendEvent) : Prop := ∀ index ∈ event.added, index + 1 < 2 ^ 32

def Call.Narrow : Call → Prop
  | .eventLog (.append event) => event.Narrow
  | _ => True

/-- How a sink for `r` and what it has exchanged since `[]` stand to what it was called for. -/
structure EventSink.Tracks (r : ResponseId) (us : List (Exchange SinkCall SinkCall.Reply))
    (s : EventSink) (xs : Exchanges) : Prop where
  responseId : s.responseId = r
  completed : s.completed = itemsDone us
  taken : (finishedOf (arrivedIn r xs)).map Prod.snd = itemsTaken us
  bounded : (∀ x ∈ xs, x.call.Narrow) → s.stopped = false →
    ∀ p ∈ finishedOf (arrivedIn r xs), p.1 ≤ s.currentOutputIndex

section Sink

variable {r : ResponseId} {us : List (Exchange SinkCall SinkCall.Reply)} {s s₁ : EventSink}
  {xs ys : Exchanges} {event : AppendEvent} {x : Except SinkError SinkVerdict × EventSink}

/-- A push appends its event, unless the sink has stopped. -/
theorem path_push (hid : event.responseId = r) (h : Path (s.push event) ys x) :
    arrivedIn r ys = (if wasAppended x.1 then [event] else []) ∧
      (s.stopped = false → ∃ reply, ys = [⟨.eventLog (.append event), reply⟩]) ∧
      (x.2 = s ∨ x.2 = { s with stopped := true }) := by
  unfold EventSink.push at h
  split at h
  · next hstopped =>
      obtain ⟨rfl, rfl⟩ := path_ret.mp h
      exact ⟨rfl, fun hgoing ↦ absurd (hgoing.symm.trans hstopped) nofun, Or.inl rfl⟩
  · obtain ⟨reply, zs, rfl, hrest⟩ := path_call.mp h
    rcases reply with e | seq
    · cases e with
      | staleAttempt =>
          obtain ⟨rfl, rfl⟩ := path_ret.mp hrest
          exact ⟨rfl, fun _ ↦ ⟨_, rfl⟩, Or.inr rfl⟩
      | _ =>
          obtain ⟨rfl, rfl⟩ := path_ret.mp hrest
          exact ⟨rfl, fun _ ↦ ⟨_, rfl⟩, Or.inl rfl⟩
    · obtain ⟨rfl, rfl⟩ := path_ret.mp hrest
      refine ⟨?_, fun _ ↦ ⟨_, rfl⟩, Or.inl rfl⟩
      simp [arrivedIn, assigned, hid, wasAppended]

/-- What a push of a sink that has taken note of its call does. -/
theorem EventSink.Tracks.push (h : s.Tracks r us xs) {vs : List (Exchange SinkCall SinkCall.Reply)}
    (hid : event.responseId = r) (hpush : Path (s₁.push event) ys x) (hs : s₁.responseId = r)
    (hstopped : s₁.stopped = s.stopped) (hcompleted : s₁.completed = itemsDone (us ++ vs))
    (htaken : itemsTaken vs =
      if wasAppended x.1 then (event.finished.map Prod.snd).toList else [])
    (hindex : event.Narrow → s.currentOutputIndex ≤ s₁.currentOutputIndex)
    (hfinished : ∀ p ∈ event.finished, p.1 ≤ s₁.currentOutputIndex) :
    x.2.Tracks r (us ++ vs) (xs ++ ys) := by
  obtain ⟨harrived, hcall, hstate⟩ := path_push hid hpush
  have hkept : x.2.responseId = s₁.responseId ∧ x.2.completed = s₁.completed ∧
      x.2.currentOutputIndex = s₁.currentOutputIndex := by
    rcases hstate with heq | heq <;> rw [heq] <;> exact ⟨rfl, rfl, rfl⟩
  have hnew : finishedOf (arrivedIn r ys) =
      if wasAppended x.1 then event.finished.toList else [] := by
    rw [harrived]
    split
    · cases hevent : event.finished <;> simp [finishedOf, hevent]
    · rfl
  constructor
  · exact hkept.1.trans hs
  · exact hkept.2.1.trans hcompleted
  · rw [arrivedIn_append, finishedOf_append, List.map_append, h.taken, itemsTaken_append, htaken,
      hnew]
    split
    · cases event.finished <;> rfl
    · rfl
  · intro hnarrow hgoing p hp
    rw [hkept.2.2]
    have hgoing₁ : s₁.stopped = false := by
      rcases hstate with heq | heq <;> rw [heq] at hgoing
      · exact hgoing
      · cases hgoing
    obtain ⟨reply, rfl⟩ := hcall hgoing₁
    rw [arrivedIn_append, finishedOf_append, hnew] at hp
    rcases List.mem_append.mp hp with hp | hp
    · refine (h.bounded (fun y hy ↦ hnarrow y (List.mem_append_left _ hy))
        (hstopped ▸ hgoing₁) p hp).trans (hindex ?_)
      exact hnarrow ⟨.eventLog (.append event), reply⟩ (by simp)
    · split at hp
      · exact hfinished p (Option.mem_toList.mp hp)
      · cases hp

theorem EventSink.Tracks.answer (h : s.Tracks r us xs) {c : SinkCall}
    {x : c.Reply × EventSink} (hpath : Path (EventSink.answer c s) ys x) :
    x.2.Tracks r (us ++ [⟨c, x.1⟩]) (xs ++ ys) := by
  have hid := h.responseId
  have hcompleted : ∀ vs, itemsDone vs = [] → s.completed = itemsDone (us ++ vs) := by
    intro vs hvs
    rw [itemsDone_append, hvs, List.append_nil, h.completed]
  cases c with
  | cancelled =>
      obtain ⟨reply, zs, rfl, hrest⟩ := path_call.mp hpath
      obtain ⟨rfl, rfl⟩ := path_ret.mp hrest
      refine ⟨hid, hcompleted _ rfl, ?_, fun hnarrow hgoing p hp ↦ ?_⟩
      · simpa [arrivedIn, assigned, itemsTaken] using h.taken
      · refine h.bounded (fun y hy ↦ hnarrow y (List.mem_append_left _ hy)) hgoing p ?_
        simpa [arrivedIn, assigned] using hp
  | outputItemAdded item =>
      refine h.push hid hpath hid rfl (hcompleted _ rfl) ?_ (fun hnarrow ↦ ?_) (by rintro _ ⟨⟩)
      · split <;> rfl
      · have hroom := hnarrow s.outputIndex rfl
        show s.outputIndex - 1 ≤ (s.outputIndex + 1) % 2 ^ 32 - 1
        rw [Nat.mod_eq_of_lt hroom]
        omega
  | outputItemDone item =>
      refine h.push hid hpath hid rfl ?_ ?_ (fun _ ↦ Nat.le_refl _) ?_
      · rw [itemsDone_append, ← h.completed]
        rfl
      · obtain ⟨reply, s₂⟩ := x
        rcases reply with e | (_ | _) <;> rfl
      · rintro _ ⟨⟩
        exact Nat.le_refl _
  | _ =>
      refine h.push hid hpath hid rfl (hcompleted _ rfl) ?_ (fun _ ↦ Nat.le_refl _)
        (by rintro _ ⟨⟩)
      split <;> rfl

end Sink

/-! ## The calls of an execution -/

/-- The agent of an execution has forthcoming schedulers. -/
def Job.Forthcoming (j : Job) : Prop :=
  ∀ rt rounds agent, j = .execute rt rounds agent →
    ∃ m : MockAgentRunner, rt.runner = m.run ∧ m.Forthcoming

/-- Where a job finishes an item, the call the item answers was finished before. -/
def Job.Finishes (j : Job) (xs : Exchanges) : Call → Prop
  | .eventLog (.append event) => j.Forthcoming → (∀ x ∈ xs, x.call.Narrow) →
    ∀ p ∈ event.finished, Answers (finishedOf (arrivedIn event.responseId xs)) p
  | _ => True

section Execute

variable {j : Job} {m : MockAgentRunner} {rt : AgentRuntime} {rounds : ℕ}
  {claimed : ClaimedResponse} {snapshot : ResolvedContext} {xs ys : Exchanges}

end Execute

/-! ## Every job -/

end NovaChat
