import NovaChat.Interact.History
import NovaChat.Turn.Funnel
import Mathlib.Data.List.Induction

/-!
# What a snapshot accumulates

Several callers may archive the turn of one response, with different commits.  The snapshot keeps
the first commit of each response, in the order in which the responses came; later ones find the
index that was assigned.
-/

namespace NovaChat

open Interact MemConversationStore

/-! ## First entries -/

section Firsts

variable {K V : Type} [DecidableEq K]

/-- Add an entry unless its key is there. -/
def addFirst (kept : List (K × V)) (x : K × V) : List (K × V) :=
  if x.1 ∈ kept.map Prod.fst then kept else kept ++ [x]

/-- The first entry of every key, in order. -/
def firsts (xs : List (K × V)) : List (K × V) := xs.foldl addFirst []

variable {xs ys : List (K × V)} {x : K × V} {k : K}

@[simp] theorem firsts_nil : firsts ([] : List (K × V)) = [] := rfl

theorem firsts_snoc : firsts (xs ++ [x]) = addFirst (firsts xs) x := by
  simp [firsts, List.foldl_append]

theorem nodup_firsts (xs : List (K × V)) : ((firsts xs).map Prod.fst).Nodup := by
  induction xs using List.reverseRecOn with
  | nil => exact List.nodup_nil
  | append_singleton xs x ih =>
      rw [firsts_snoc, addFirst]
      split_ifs with h
      · exact ih
      · rw [List.map_append, List.map_singleton]
        exact List.nodup_append.mpr ⟨ih, List.nodup_singleton _, fun a ha b hb ↦ by
          rintro rfl
          obtain rfl := List.mem_singleton.mp hb
          exact h ha⟩

theorem firsts_prefix (xs ys : List (K × V)) : firsts xs <+: firsts (xs ++ ys) := by
  induction ys using List.reverseRecOn with
  | nil => simp
  | append_singleton ys y ih =>
      rw [← List.append_assoc, firsts_snoc, addFirst]
      split_ifs
      · exact ih
      · exact ih.trans (List.prefix_append _ _)

/-- What is kept of a key is the first entry that has it. -/
theorem find_firsts (xs : List (K × V)) (k : K) :
    (firsts xs).find? (fun x ↦ x.1 = k) = xs.find? fun x ↦ x.1 = k := by
  induction xs using List.reverseRecOn with
  | nil => rfl
  | append_singleton xs x ih =>
      rw [firsts_snoc, addFirst, List.find?_append, ← ih]
      split_ifs with h
      · -- A second entry of its key is never found.
        cases hfound : (firsts xs).find? fun x ↦ x.1 = k with
        | some y => rfl
        | none =>
            have hne : x.1 ≠ k := by
              rintro rfl
              obtain ⟨y, hy, hkey⟩ := List.mem_map.mp h
              have := List.find?_eq_none.mp hfound y hy
              simp [hkey] at this
            simp [hne]
      · rw [List.find?_append]

/-- Where a key stands among the first entries. -/
def placeOf (k : K) (xs : List (K × V)) : Option ℕ := xs.findIdx? fun x ↦ x.1 = k

theorem placeOf_eq_none : placeOf k xs = none ↔ k ∉ xs.map Prod.fst := by
  unfold placeOf
  rw [List.findIdx?_eq_none_iff]
  constructor
  · intro h hmem
    obtain ⟨x, hx, rfl⟩ := List.mem_map.mp hmem
    have := h x hx
    simp at this
  · intro h x hx
    have hne : x.1 ≠ k := by
      rintro rfl
      exact h (List.mem_map_of_mem hx)
    simp [hne]

theorem placeOf_snoc (h : k ∉ xs.map Prod.fst) (v : V) :
    placeOf k (xs ++ [(k, v)]) = some xs.length := by
  have hnone := placeOf_eq_none.mpr h
  unfold placeOf at hnone ⊢
  rw [List.findIdx?_append, hnone]
  simp

theorem placeOf_prefix (h : xs <+: ys) {i : ℕ} (hi : placeOf k xs = some i) :
    placeOf k ys = some i := by
  obtain ⟨zs, rfl⟩ := h
  unfold placeOf at hi ⊢
  rw [List.findIdx?_append, hi]
  rfl

end Firsts

/-! ## One turn -/

theorem turnEntries_item (commit : TurnCommit) :
    (turnEntries commit).map ContextEntry.item = commit.inputItems ++ commit.outputItems := by
  unfold turnEntries
  cases commit.outputItems <;> simp [Function.comp_def]

/-- Only the first output entry of a turn carries its reasoning. -/
theorem turnEntries_reasoning (commit : TurnCommit) :
    (turnEntries commit).map ContextEntry.reasoning =
      List.replicate commit.inputItems.length none ++
        (List.replicate commit.outputItems.length none).set 0 commit.reasoning := by
  unfold turnEntries
  rw [List.map_append, List.map_map]
  congr 1
  · exact List.map_const'
  · cases commit.outputItems with
    | nil => rfl
    | cons item items =>
        simp only [List.map_cons, List.map_map, List.length_cons, List.replicate_succ,
          List.set_cons_zero]
        congr 1
        exact List.map_const'

/-- A snapshot holds these turns, each under its place. -/
structure Snapshot.Holds (snap : Snapshot) (turns : List (ResponseId × TurnCommit)) : Prop where
  entries : snap.entries = turns.flatMap fun t ↦ turnEntries t.2
  turnCount : snap.turnCount = turns.length
  appended : ∀ r, snap.appended.lookup r = placeOf r turns

theorem Snapshot.holds_empty : ({} : Snapshot).Holds [] := by
  constructor
  · rfl
  · rfl
  · intro r
    rfl

/-- A turn more, unless its response is there. -/
theorem Snapshot.Holds.addTurn {snap : Snapshot} {turns : List (ResponseId × TurnCommit)}
    (h : snap.Holds turns) (r : ResponseId) (commit : TurnCommit) :
    (MemConversationStore.addTurn snap r commit).Holds (addFirst turns (r, commit)) := by
  unfold MemConversationStore.addTurn addFirst
  cases hplace : snap.appended.lookup r with
  | some i =>
      have hmem : r ∈ turns.map Prod.fst := by
        by_contra hnot
        rw [h.appended, placeOf_eq_none.mpr hnot] at hplace
        cases hplace
      rw [if_pos hmem]
      exact h
  | none =>
      have hnot : r ∉ turns.map Prod.fst := placeOf_eq_none.mp ((h.appended r).symm.trans hplace)
      rw [if_neg hnot]
      constructor
      · rw [h.entries]
        simp
      · rw [h.turnCount]
        simp
      · intro r'
        refine (HashMap.lookup_insert' _ _ _ _).trans ?_
        split_ifs with hr
        · rw [hr, placeOf_snoc hnot, h.turnCount]
        · rw [h.appended]
          unfold placeOf
          rw [List.findIdx?_append]
          cases List.findIdx? (fun x ↦ decide (x.1 = r')) turns with
          | some i => rfl
          | none => simp [Ne.symm hr]

/-- The place a turn gets, or has. -/
theorem Snapshot.Holds.index {snap : Snapshot} {turns : List (ResponseId × TurnCommit)}
    (h : snap.Holds turns) (r : ResponseId) (commit : TurnCommit) :
    placeOf r (addFirst turns (r, commit)) =
      some ((snap.appended.lookup r).getD snap.turnCount) := by
  unfold addFirst
  rw [h.appended, h.turnCount]
  split_ifs with hmem
  · cases hplace : placeOf r turns with
    | some i => rfl
    | none => exact absurd hmem (placeOf_eq_none.mp hplace)
  · rw [placeOf_eq_none.mpr hmem, placeOf_snoc hmem]
    rfl

/-! ## Every run -/

/-- The turns a history archived on `c`, oldest first. -/
def archived (c : ConversationId) (xs : List (Exchange Call Call.Reply)) :
    List (ResponseId × TurnCommit) :=
  xs.filterMap fun x ↦ x.call.adds c x.reply

theorem archived_snoc (c : ConversationId) (xs : List (Exchange Call Call.Reply)) (call : Call)
    (reply : call.Reply) :
    archived c (xs ++ [⟨call, reply⟩]) = archived c xs ++ (call.adds c reply).toList := by
  cases h : call.adds c reply <;> simp [archived, h]

/-- What a snapshot has become: the first commit of each response, in order, each under an index
of its own that is given out again and again. -/
structure Accumulated (c : ConversationId) (xs : List (Exchange Call Call.Reply)) (w : World)
    (turns : List (ResponseId × TurnCommit)) : Prop where
  distinct : (turns.map Prod.fst).Nodup
  first : ∀ r, turns.find? (fun t ↦ t.1 = r) = (archived c xs).find? fun t ↦ t.1 = r
  read : ∀ tenant, guardAvailable w.store = .ok () → (owned w.store tenant c).isSome = true →
    ∃ context, (exec (.conversations (.readSnapshot tenant c)) w).1 = .ok context ∧
      context.turns = turns.length ∧
      context.entries.map ContextEntry.item =
        turns.flatMap (fun t ↦ t.2.inputItems ++ t.2.outputItems) ∧
      context.entries.map ContextEntry.reasoning = turns.flatMap fun t ↦
        List.replicate t.2.inputItems.length none ++
          (List.replicate t.2.outputItems.length none).set 0 t.2.reasoning
  replied : ∀ tenant r commit now i,
    ⟨.conversations (.appendTurn tenant c r commit now), .ok i⟩ ∈ xs → placeOf r turns = some i
  next : ∀ tenant r commit now, guardWritable w.store = .ok () →
    (owned w.store tenant c).isSome = true →
    ∃ i, (exec (.conversations (.appendTurn tenant c r commit now)) w).1 = .ok i ∧
      placeOf r (addFirst turns (r, commit)) = some i

section Runs

variable {w₀ w : World} {xs : List (Exchange Call Call.Reply)} {c : ConversationId}

theorem appendTurn_reply {turns : List (ResponseId × TurnCommit)}
    (h : (w.store.snapshot c).Holds turns) {tenant : TenantId} {r : ResponseId}
    {commit : TurnCommit} {now i : ℕ}
    (hi : (exec (.conversations (.appendTurn tenant c r commit now)) w).1 = .ok i) :
    placeOf r (addFirst turns (r, commit)) = some i := by
  rw [h.index]
  simp only [exec, execConversations, World.withStore_fst, appendTurn] at hi
  split at hi
  · cases hi
  · split at hi
    · cases hi
    · rw [Except.ok.inj hi]

/-- After every history that removes no conversation, a snapshot holds the first turns archived
on it, and every append was told the place of its turn. -/
theorem holds_of_history (hempty : w₀.store.snapshot c = {})
    (h : History exec (fun _ call ↦ ¬ call.Erases) w₀ xs w) :
    (w.store.snapshot c).Holds (firsts (archived c xs)) ∧ ∀ tenant r commit now i,
      ⟨.conversations (.appendTurn tenant c r commit now), .ok i⟩ ∈ xs →
        placeOf r (firsts (archived c xs)) = some i := by
  refine h.invariant (J := fun xs w ↦ (w.store.snapshot c).Holds (firsts (archived c xs)) ∧
    ∀ tenant r commit now i,
      ⟨.conversations (.appendTurn tenant c r commit now), .ok i⟩ ∈ xs →
        placeOf r (firsts (archived c xs)) = some i) ?_ ?_
  · rintro xs w call ⟨hholds, hplaces⟩ hcall
    have hsnap := exec_snapshot hcall w c
    constructor
    · rw [hsnap, archived_snoc]
      cases hadds : call.adds c (exec call w).1 with
      | none =>
          rw [Option.toList_none, List.append_nil]
          exact hholds
      | some t =>
          rw [Option.toList_some, firsts_snoc]
          exact hholds.addTurn t.1 t.2
    · intro tenant r commit now i hmem
      rcases List.mem_append.mp hmem with hmem | hmem
      · apply placeOf_prefix ?_ (hplaces tenant r commit now i hmem)
        rw [archived_snoc]
        exact firsts_prefix _ _
      · obtain ⟨rfl, hreply⟩ := Exchange.mk.inj (List.mem_singleton.mp hmem)
        have hi := (eq_of_heq hreply).symm
        have hadds : (Call.conversations (.appendTurn tenant c r commit now)).adds c
            (exec (.conversations (.appendTurn tenant c r commit now)) w).1 =
              some (r, commit) := by
          rw [hi]
          exact if_pos rfl
        rw [archived_snoc, hadds, Option.toList_some, firsts_snoc]
        exact appendTurn_reply hholds hi
  · constructor
    · rw [hempty]
      exact Snapshot.holds_empty
    · intro tenant r commit now i hmem
      cases hmem

/-- From an empty snapshot on, and as long as no conversation is removed, a conversation
accumulates the first commit of every response archived on it. -/
theorem snapshot_accumulates (hempty : w₀.store.snapshot c = {})
    (h : History exec (fun _ call ↦ ¬ call.Erases) w₀ xs w) :
    Accumulated c xs w (firsts (archived c xs)) := by
  obtain ⟨hholds, hplaces⟩ := holds_of_history hempty h
  constructor
  · exact nodup_firsts _
  · exact find_firsts _
  · intro tenant havail howned
    obtain ⟨x, hx⟩ := Option.isSome_iff_exists.mp howned
    refine ⟨⟨(w.store.snapshot c).entries, (w.store.snapshot c).turnCount⟩, ?_,
      hholds.turnCount, ?_, ?_⟩
    · simp only [exec, execConversations, readSnapshot, havail, hx]
    · rw [hholds.entries, List.map_flatMap]
      simp only [turnEntries_item]
    · rw [hholds.entries, List.map_flatMap]
      simp only [turnEntries_reasoning]
  · exact hplaces
  · intro tenant r commit now hwritable howned
    obtain ⟨x, hx⟩ := Option.isSome_iff_exists.mp howned
    have hreply : (exec (.conversations (.appendTurn tenant c r commit now)) w).1 =
        .ok (((w.store.snapshot c).appended.lookup r).getD (w.store.snapshot c).turnCount) := by
      simp only [exec, execConversations, World.withStore_fst, appendTurn, hwritable, hx]
    exact ⟨_, hreply, appendTurn_reply hholds hreply⟩

end Runs

namespace Sample

def turn (r : ResponseId) (text : String) : Call :=
  .conversations (.appendTurn tenant talk r ⟨spec.inputItems,
    [.message .assistant [.outputText text] none none], some "because", {}, .completed⟩ 0)

/-- Two responses are archived, and one of them again with another output. -/
def archivedTwice : List (Exchange Call Call.Reply) × World :=
  History.answered exec [turn (id 1) "one", turn (id 2) "two", turn (id 1) "else"] [] world

def isAppendTurn : Call → Bool
  | .conversations (.appendTurn ..) => true
  | _ => false

theorem archivedTwice_history :
    History exec (fun _ call ↦ ¬ call.Erases) world archivedTwice.1 archivedTwice.2 :=
  @History.of_permitted _ _ _ exec _ _ (fun _ ↦ isAppendTurn)
    (fun _ call h ↦ by
      rcases call with _ | call | call | call | call | call <;> try cases h
      cases call <;> first | exact fun h ↦ h | cases h) _ _ _ .nil (by decide +kernel)

end Sample

/-- The third append was told the place of the first, and the snapshot counts two turns. -/
theorem snapshot_accumulates_twice :
    placeOf (Sample.id 1) (firsts (archived Sample.talk Sample.archivedTwice.1)) = some 0 ∧
      ∃ context, (exec (.conversations (.readSnapshot Sample.tenant Sample.talk))
        Sample.archivedTwice.2).1 = .ok context ∧ context.turns = 2 := by
  have haccumulated := snapshot_accumulates (c := Sample.talk) rfl Sample.archivedTwice_history
  constructor
  · exact haccumulated.replied Sample.tenant (Sample.id 1) _ 0 0
      (List.mem_of_getElem? (i := 2) rfl)
  · obtain ⟨context, hread, hturns, -⟩ := haccumulated.read Sample.tenant rfl (by decide +kernel)
    exact ⟨context, hread, hturns.trans (by decide +kernel)⟩

end NovaChat
