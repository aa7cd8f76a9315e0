import NovaChat.Agentd.Completions
import NovaChat.Interact.Fallible
import NovaChat.Lifecycle.Stages
import NovaChat.Stream.Ring
import Mathlib.Data.List.Induction

/-!
# What a replay makes of a stream

A replay goes through a stream page by page, collects the items that are finished with their indexes
and sorts them by index.  Where the stream has a call before its output, and under no greater index,
so has the result, no matter where the replay has stopped reading the stream it began with.
-/

namespace NovaChat

open Interact Prog Numbering

/-! ## Items with indexes -/

/-- The call an item answers is among `ps`, under no greater index. -/
def Answers (ps : List (ℕ × ResponseItem)) (p : ℕ × ResponseItem) : Prop :=
  ∀ callId ∈ p.2.answered, ∃ p' ∈ ps, p'.1 ≤ p.1 ∧ callId ∈ p'.2.announced

/-- Every tool output answers a call before it, under no greater index. -/
def PairedByIndex (ps : List (ℕ × ResponseItem)) : Prop :=
  ∀ before p after, ps = before ++ p :: after → Answers before p

section PairedByIndex

variable {ps xs ys : List (ℕ × ResponseItem)} {p : ℕ × ResponseItem}

theorem Answers.mono (h : Answers xs p) (hsub : xs ⊆ ys) : Answers ys p := by
  intro callId hcall
  obtain ⟨p', hmem, hle, hannounced⟩ := h callId hcall
  exact ⟨p', hsub hmem, hle, hannounced⟩

theorem pairedByIndex_snoc : PairedByIndex (ps ++ [p]) ↔ PairedByIndex ps ∧ Answers ps p := by
  constructor
  · refine fun h ↦ ⟨fun before p' after heq ↦ ?_, h ps p [] rfl⟩
    exact h before p' (after ++ [p]) (by simp [heq])
  · rintro ⟨hps, hp⟩ before p' after heq
    rcases snoc_eq_append_cons heq with ⟨rfl, rfl⟩ | ⟨after', heq'⟩
    · exact hp
    · exact hps before p' after' heq'

theorem PairedByIndex.left (h : PairedByIndex (xs ++ ys)) : PairedByIndex xs :=
  fun before p after heq ↦ h before p (after ++ ys) (by simp [heq])

/-- A continuation may be put behind other items, if they hold all that it continues. -/
theorem PairedByIndex.splice (h : PairedByIndex (xs ++ ys)) (hps : PairedByIndex ps)
    (hsub : xs ⊆ ps) : PairedByIndex (ps ++ ys) := by
  induction ys using List.reverseRecOn with
  | nil => simpa using hps
  | append_singleton ys p ih =>
      rw [← List.append_assoc, pairedByIndex_snoc] at h ⊢
      refine ⟨ih h.1, h.2.mono (List.append_subset.mpr ⟨?_, List.subset_append_right _ _⟩)⟩
      exact List.subset_append_of_subset_left _ hsub

end PairedByIndex

/-! ## Finished items -/

/-- The item an event ends, with its index. -/
def AppendEvent.finished (event : AppendEvent) : Option (ℕ × ResponseItem) :=
  match event.kind, event.body with
  | .outputItemDone, .item index item => some (index, item)
  | _, _ => none

/-- The items some events end. -/
def finishedOf (events : List AppendEvent) : List (ℕ × ResponseItem) :=
  events.filterMap AppendEvent.finished

@[simp] theorem finishedOf_append (xs ys : List AppendEvent) :
    finishedOf (xs ++ ys) = finishedOf xs ++ finishedOf ys := List.filterMap_append

theorem finishedOf_eq_nil {events : List AppendEvent} :
    finishedOf events = [] ↔ ∀ event ∈ events, event.finished = none := List.filterMap_eq_nil_iff

theorem map_event_stored (all : List AppendEvent) : (stored all).map ResponseEvent.event = all := by
  induction all using List.reverseRecOn with
  | nil => rfl
  | append_singleton all event ih => rw [stored_snoc, List.map_append, ih]; rfl

theorem items_step (found : Replay) (e : ResponseEvent) :
    (found.step e).items = found.items ++ e.event.finished.toList := by
  unfold Replay.step
  split
  · next index item hkind hbody =>
      have hnone : e.event.finished = none := by
        unfold AppendEvent.finished
        rw [show e.event.kind = _ from hkind]
      rw [hnone]
      simp
  · next index item hkind hbody =>
      have hsome : e.event.finished = some (index, item) := by
        unfold AppendEvent.finished
        rw [show e.event.kind = _ from hkind, show e.event.body = _ from hbody]
      rw [hsome]
      split <;> rfl
  · next itemId index contentIndex delta hkind hbody =>
      have hnone : e.event.finished = none := by
        unfold AppendEvent.finished
        rw [show e.event.kind = _ from hkind]
      rw [hnone]
      split <;> simp
  · next hdone _ =>
      have hnone : e.event.finished = none := by
        unfold AppendEvent.finished
        split
        · next index item hkind hbody => exact (hdone index item hkind hbody).elim
        · rfl
      rw [hnone]
      simp

theorem items_foldl (events : List ResponseEvent) (found : Replay) :
    (events.foldl Replay.step found).items =
      found.items ++ finishedOf (events.map ResponseEvent.event) := by
  induction events generalizing found with
  | nil => simp [finishedOf]
  | cons e events ih =>
      rw [List.foldl_cons, ih, items_step, List.append_assoc, List.map_cons]
      cases h : e.event.finished <;> simp [finishedOf, h]

/-- A read of `r` brings a page of the stream `all`. -/
def PageOf (all : List AppendEvent) (r : ResponseId) (x : Exchange Call Call.Reply) : Prop :=
  ∀ cursor limit batch, x = ⟨.eventLog (.readAfter r cursor limit), .ok batch⟩ →
    ∃ k, batch = ((stored all).drop (target cursor)).take k

/-- A read of `r` brings no finished item. -/
def Barren (r : ResponseId) (x : Exchange Call Call.Reply) : Prop :=
  ∀ cursor limit batch, x = ⟨.eventLog (.readAfter r cursor limit), .ok batch⟩ →
    ∀ e ∈ batch, e.event.finished = none

/-- What a reader has read of `r` are pages of the stream `all`, and after them nothing finished. -/
def ReadOf (all : List AppendEvent) (r : ResponseId) (xs : Exchanges) : Prop :=
  ∃ us vs, xs = us ++ vs ∧ (∀ x ∈ us, PageOf all r x) ∧ ∀ x ∈ vs, Barren r x

section ReadOf

variable {all : List AppendEvent} {r : ResponseId} {xs ys : Exchanges}
  {x : Exchange Call Call.Reply}

theorem ReadOf.left (h : ReadOf all r (xs ++ ys)) : ReadOf all r xs := by
  obtain ⟨us, vs, heq, hus, hvs⟩ := h
  rcases List.append_eq_append_iff.mp heq with ⟨ws, rfl, -⟩ | ⟨ws, rfl, rfl⟩
  · exact ⟨xs, [], by simp, fun x hx ↦ hus x (List.mem_append_left _ hx), by simp⟩
  · exact ⟨us, ws, rfl, hus, fun x hx ↦ hvs x (List.mem_append_left _ hx)⟩

theorem ReadOf.right (h : ReadOf all r (xs ++ ys)) : ReadOf all r ys := by
  obtain ⟨us, vs, heq, hus, hvs⟩ := h
  rcases List.append_eq_append_iff.mp heq with ⟨ws, rfl, rfl⟩ | ⟨ws, rfl, rfl⟩
  · exact ⟨ws, vs, rfl, fun x hx ↦ hus x (List.mem_append_right _ hx), hvs⟩
  · exact ⟨[], ys, rfl, by simp, fun x hx ↦ hvs x (List.mem_append_right _ hx)⟩

theorem ReadOf.last (h : ReadOf all r (xs ++ [x])) :
    (∀ y ∈ xs ++ [x], PageOf all r y) ∨ Barren r x := by
  obtain ⟨us, vs, heq, hus, hvs⟩ := h
  rcases List.eq_nil_or_concat vs with rfl | ⟨vs, y, rfl⟩
  · rw [heq, List.append_nil]
    exact Or.inl hus
  · rw [List.concat_eq_append, ← List.append_assoc] at heq
    obtain ⟨-, hlast⟩ := List.append_inj' heq rfl
    obtain rfl := List.singleton_inj.mp hlast
    exact Or.inr (hvs x (by simp))

/-- A reader that has seen pages only stands behind what it has seen. -/
theorem covered_page {cursor : Option ℕ} {k : ℕ} {batch : List ResponseEvent}
    (hbatch : batch = ((stored all).drop (target cursor)).take k) (hne : batch ≠ []) :
    all.take (first (batch.getLast?.map ResponseEvent.sequenceNumber)) =
      all.take (target cursor) ++ batch.map ResponseEvent.event := by
  have hfrom : From ResponseEvent.sequenceNumber (target cursor) batch := by
    have hpage := ((from_stored all).drop (target cursor)).take k
    rwa [Nat.zero_add, ← hbatch] at hpage
  have hpos : 0 < batch.length := List.length_pos_iff.mpr hne
  rw [hfrom.getLast? hne, first_some, show target cursor + batch.length - 1 + 1 =
    target cursor + batch.length by omega]
  have hmap : batch.map ResponseEvent.event = (all.drop (target cursor)).take k := by
    rw [hbatch, List.map_take, List.map_drop, map_event_stored]
  have hlen : batch.length = ((all.drop (target cursor)).take k).length := by
    rw [← hmap, List.length_map]
  rw [hmap, hlen, take_add_length_page]

theorem target_le_first (cursor : Option ℕ) : target cursor ≤ first cursor := by
  cases cursor with
  | none => exact Nat.le_refl 0
  | some c => exact Nat.min_le_left _ _

/-- What a reader has collected of `r`: its items are paired by index, and as long as it has seen
pages only it has all that is finished behind it. -/
def Collected (all : List AppendEvent) (r : ResponseId) (xs : Exchanges) (s : Option ℕ × Replay) :
    Prop :=
  PairedByIndex s.2.items ∧
    ((∀ x ∈ xs, PageOf all r x) → finishedOf (all.take (first s.1)) ⊆ s.2.items)

theorem Collected.page (hall : PairedByIndex (finishedOf all)) {cursor : Option ℕ} {found : Replay}
    {limit : ℕ} {batch : List ResponseEvent} (hne : batch ≠ [])
    (hx : x = ⟨.eventLog (.readAfter r cursor limit), .ok batch⟩)
    (h : Collected all r xs (cursor, found)) (hread : ReadOf all r (xs ++ [x])) :
    Collected all r (xs ++ [x])
      (batch.getLast?.map ResponseEvent.sequenceNumber, batch.foldl Replay.step found) := by
  obtain ⟨hpaired, hcovers⟩ := h
  unfold Collected
  dsimp only at hpaired hcovers ⊢
  rw [items_foldl]
  by_cases hpages : ∀ y ∈ xs ++ [x], PageOf all r y
  · obtain ⟨k, hbatch⟩ := hpages x (by simp) cursor limit batch hx
    have htake := covered_page hbatch hne
    have hseen : finishedOf (all.take (target cursor)) ⊆ found.items := by
      refine List.Subset.trans ?_ (hcovers fun y hy ↦ hpages y (List.mem_append_left _ hy))
      exact ((List.take_prefix_take_left (target_le_first cursor)).filterMap _).subset
    rw [htake, finishedOf_append]
    refine ⟨PairedByIndex.splice ?_ hpaired hseen, fun _ ↦ ?_⟩
    · rw [← finishedOf_append, ← htake]
      rw [← List.take_append_drop (first (batch.getLast?.map ResponseEvent.sequenceNumber)) all,
        finishedOf_append] at hall
      exact hall.left
    · exact List.append_subset.mpr ⟨List.subset_append_of_subset_left _ hseen,
        List.subset_append_right _ _⟩
  · -- A page that is none of this stream's was read of a lost one, and finishes no item.
    have hbarren := (hread.last.resolve_left hpages) cursor limit batch hx
    have hnil : finishedOf (batch.map ResponseEvent.event) = [] := by
      refine finishedOf_eq_nil.mpr fun event hevent ↦ ?_
      obtain ⟨e, he, rfl⟩ := List.mem_map.mp hevent
      exact hbarren e he
    rw [hnil, List.append_nil]
    exact ⟨hpaired, fun h ↦ absurd h hpages⟩

end ReadOf

end NovaChat
