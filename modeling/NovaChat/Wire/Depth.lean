import NovaChat.Wire.Limits

/-!
# The depth of a value

The depth of a value is one more than that of its deepest child.  The worklist that measures it
takes every value in it off its stack, once.
-/

namespace NovaChat

/-! ## Depth and size of a value -/

namespace Value

mutual

/-- The nesting depth: one for what has nothing inside, and one more than the deepest child
otherwise. -/
def depth : Value → ℕ
  | .array items => 1 + depthItems items
  | .object map => 1 + depthEntries map
  | _ => 1

def depthItems : List Value → ℕ
  | [] => 0
  | v :: vs => max (depth v) (depthItems vs)

def depthEntries : List (String × Value) → ℕ
  | [] => 0
  | (_, v) :: map => max (depth v) (depthEntries map)

end

mutual

/-- How many values a value consists of, itself included. -/
def nodes : Value → ℕ
  | .array items => 1 + nodesItems items
  | .object map => 1 + nodesEntries map
  | _ => 1

def nodesItems : List Value → ℕ
  | [] => 0
  | v :: vs => nodes v + nodesItems vs

def nodesEntries : List (String × Value) → ℕ
  | [] => 0
  | (_, v) :: map => nodes v + nodesEntries map

end

theorem depth_eq (v : Value) : depth v = 1 + depthItems v.children := by
  have hmap : ∀ map : List (String × Value),
      depthEntries map = depthItems (map.map Prod.snd) := by
    intro map
    induction map with
    | nil => rfl
    | cons e map ih => rw [depthEntries, List.map_cons, depthItems, ih]
  cases v with
  | object map => rw [depth, children, hmap]
  | _ => rfl

theorem nodes_eq (v : Value) : nodes v = 1 + nodesItems v.children := by
  have hmap : ∀ map : List (String × Value),
      nodesEntries map = nodesItems (map.map Prod.snd) := by
    intro map
    induction map with
    | nil => rfl
    | cons e map ih => rw [nodesEntries, List.map_cons, nodesItems, ih]
  cases v with
  | object map => rw [nodes, children, hmap]
  | _ => rfl

end Value

/-! ## The worklist -/

/-- One turn of the loop, which does nothing once the stack is empty. -/
def jsonDepthTurn : List (Value × ℕ) × ℕ → List (Value × ℕ) × ℕ
  | ([], maxDepth) => ([], maxDepth)
  | ((node, depth) :: stack, maxDepth) =>
    (pushChildren node.children (depth + 1) stack, max maxDepth depth)

/-- How deep the values on a stack reach, each counted from its own depth. -/
def reach : List (Value × ℕ) → ℕ
  | [] => 0
  | (v, level) :: stack => max (level + Value.depthItems v.children) (reach stack)

/-- How many values are on a stack, with everything inside them. -/
def pending : List (Value × ℕ) → ℕ
  | [] => 0
  | (v, _) :: stack => v.nodes + pending stack

theorem reach_pushChildren (items : List Value) (level : ℕ) : ∀ stack : List (Value × ℕ),
    max level (reach (pushChildren items (level + 1) stack)) =
      max (level + Value.depthItems items) (reach stack) := by
  induction items with
  | nil => exact fun _ ↦ rfl
  | cons item items ih =>
      intro stack
      have hpush : pushChildren (item :: items) (level + 1) stack =
          pushChildren items (level + 1) ((item, level + 1) :: stack) := rfl
      rw [hpush, ih, reach, Value.depthItems, Value.depth_eq]
      omega

theorem pending_pushChildren (items : List Value) (level : ℕ) : ∀ stack : List (Value × ℕ),
    pending (pushChildren items level stack) = Value.nodesItems items + pending stack := by
  induction items with
  | nil => exact fun stack ↦ (Nat.zero_add _).symm
  | cons item items ih =>
      intro stack
      have hpush : pushChildren (item :: items) level stack =
          pushChildren items level ((item, level) :: stack) := rfl
      rw [hpush, ih, pending, Value.nodesItems]
      omega

theorem pending_eq_zero {stack : List (Value × ℕ)} : pending stack = 0 ↔ stack = [] := by
  cases stack with
  | nil => exact iff_of_true rfl rfl
  | cons x stack =>
      obtain ⟨v, level⟩ := x
      have hpos := Value.nodes_eq v
      rw [pending]
      exact iff_of_false (by omega) (List.cons_ne_nil _ _)

theorem reach_turn (s : List (Value × ℕ) × ℕ) :
    max (jsonDepthTurn s).2 (reach (jsonDepthTurn s).1) = max s.2 (reach s.1) := by
  obtain ⟨_ | ⟨⟨node, level⟩, stack⟩, maxDepth⟩ := s
  · rfl
  · have hpush := reach_pushChildren node.children level stack
    rw [jsonDepthTurn, reach]
    dsimp only
    omega

theorem pending_turn (s : List (Value × ℕ) × ℕ) :
    pending (jsonDepthTurn s).1 = pending s.1 - 1 := by
  obtain ⟨_ | ⟨⟨node, level⟩, stack⟩, maxDepth⟩ := s
  · rfl
  · rw [jsonDepthTurn, pending_pushChildren, pending, Value.nodes_eq]
    omega

theorem reach_turns (n : ℕ) (s : List (Value × ℕ) × ℕ) :
    max (jsonDepthTurn^[n] s).2 (reach (jsonDepthTurn^[n] s).1) = max s.2 (reach s.1) := by
  induction n with
  | zero => rfl
  | succ n ih => rw [Function.iterate_succ_apply', reach_turn, ih]

theorem pending_turns (n : ℕ) (s : List (Value × ℕ) × ℕ) :
    pending (jsonDepthTurn^[n] s).1 = pending s.1 - n := by
  induction n with
  | zero => rfl
  | succ n ih => rw [Function.iterate_succ_apply', pending_turn, ih, Nat.sub_sub]

theorem jsonDepthLoop_eq (stack : List (Value × ℕ)) (maxDepth : ℕ) :
    jsonDepthLoop stack maxDepth = max maxDepth (reach stack) := by
  induction stack, maxDepth using jsonDepthLoop.induct with
  | case1 maxDepth =>
      rw [jsonDepthLoop]
      exact (Nat.max_eq_left (Nat.zero_le _)).symm
  | case2 node level stack maxDepth ih =>
      rw [jsonDepthLoop, ih]
      exact reach_turn ((node, level) :: stack, maxDepth)

/-! ## The measure -/

theorem jsonDepth_eq (value : Value) : jsonDepth value = value.depth := by
  rw [jsonDepth, jsonDepthLoop_eq, reach, reach, Value.depth_eq]
  omega

theorem turns_finish (value : Value) (n : ℕ) :
    (jsonDepthTurn^[n] ([(value, 1)], 0)).1 = [] ↔ value.nodes ≤ n := by
  rw [← pending_eq_zero, pending_turns, pending, pending]
  omega

theorem validateDepth_iff (limits : ProtocolLimits) (value : Value) :
    limits.validateDepth value = .ok () ↔ value.depth ≤ limits.maxJsonDepth := by
  rw [ProtocolLimits.validateDepth, jsonDepth_eq]
  split_ifs with h
  · exact iff_of_false nofun (Nat.not_le.mpr h)
  · exact iff_of_true rfl (Nat.not_lt.mp h)

/-- The loop is done after one turn for each value, and not before; what it has measured then is the
depth, by which a value is accepted. -/
theorem json_depth_exact (value : Value) :
    (∀ n, (jsonDepthTurn^[n] ([(value, 1)], 0)).1 = [] ↔ value.nodes ≤ n) ∧
      (jsonDepthTurn^[value.nodes] ([(value, 1)], 0)).2 = jsonDepth value ∧
        jsonDepth value = value.depth ∧
          ∀ limits : ProtocolLimits,
            limits.validateDepth value = .ok () ↔ value.depth ≤ limits.maxJsonDepth := by
  refine ⟨turns_finish value, ?_, jsonDepth_eq value, fun limits ↦ validateDepth_iff limits value⟩
  have hreach := reach_turns value.nodes ([(value, 1)], 0)
  rw [(turns_finish value value.nodes).mpr le_rfl] at hreach
  exact (Nat.max_eq_left (Nat.zero_le _)).symm.trans (hreach.trans (jsonDepthLoop_eq _ _).symm)

end NovaChat
