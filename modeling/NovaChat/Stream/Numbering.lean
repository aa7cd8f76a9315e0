import Mathlib.Algebra.GroupWithZero.Nat
import Mathlib.Data.List.Basic
import Mathlib.Data.List.Sort
import Mathlib.Tactic.Common

/-!
# Numbered lists

A list whose members carry consecutive numbers.  What comes after a given number is found by
position, a page of it is a segment, and the pages a reader takes one after another put together
the segment they stand for.
-/

namespace Numbering

variable {α β : Type} {num : α → ℕ} {start : ℕ} {xs ys : List α}

/-- The members of `xs` carry the numbers from `start` on, in order. -/
def From (num : α → ℕ) (start : ℕ) (xs : List α) : Prop :=
  xs.map num = List.range' start xs.length

@[simp] theorem from_nil : From num start [] := rfl

theorem from_append :
    From num start (xs ++ ys) ↔ From num start xs ∧ From num (start + xs.length) ys := by
  unfold From
  rw [List.map_append, List.length_append, ← List.range'_append_1]
  constructor
  · intro h
    exact List.append_inj h (by simp)
  · rintro ⟨hxs, hys⟩
    rw [hxs, hys]

theorem from_snoc {x : α} :
    From num start (xs ++ [x]) ↔ From num start xs ∧ num x = start + xs.length := by
  rw [from_append]
  simp [From]

theorem From.drop (h : From num start xs) (n : ℕ) : From num (start + n) (xs.drop n) := by
  unfold From at h ⊢
  rw [List.map_drop, h, List.drop_range', List.length_drop]
  simp

theorem From.take (h : From num start xs) (n : ℕ) : From num start (xs.take n) := by
  have happ := h
  rw [← List.take_append_drop n xs] at happ
  exact (from_append.mp happ).1

theorem From.num_getElem (h : From num start xs) {i : ℕ} (hi : i < xs.length) :
    num xs[i] = start + i := by
  have hget : (xs.map num)[i]? = some (num xs[i]) := by simp [hi]
  rw [show xs.map num = List.range' start xs.length from h, List.getElem?_range' hi] at hget
  have hnum := Option.some.inj hget
  omega

theorem From.mem_iff (h : From num start xs) {n : ℕ} :
    (∃ x ∈ xs, num x = n) ↔ start ≤ n ∧ n < start + xs.length := by
  have hmem : n ∈ xs.map num ↔ n ∈ List.range' start xs.length := by
    rw [show xs.map num = List.range' start xs.length from h]
  simpa using hmem

theorem From.getLast? (h : From num start xs) (hne : xs ≠ []) :
    xs.getLast?.map num = some (start + xs.length - 1) := by
  have hpos : 0 < xs.length := List.length_pos_iff.mpr hne
  rw [List.getLast?_eq_getElem?, List.getElem?_eq_getElem (by omega), Option.map_some,
    h.num_getElem]
  congr 1
  omega

theorem From.filter_le (h : From num start xs) (n : ℕ) :
    xs.filter (fun x ↦ decide (n ≤ num x)) = xs.drop (n - start) := by
  induction xs generalizing start with
  | nil => simp
  | cons x xs ih =>
      have hx : num x = start := h.num_getElem (Nat.zero_lt_succ xs.length)
      have hxs : From num (start + 1) xs := h.drop 1
      rcases Nat.lt_or_ge start n with hlt | hge
      · rw [List.filter_cons_of_neg (by simp [hx, hlt]), ih hxs,
          show n - start = (n - (start + 1)) + 1 by omega, List.drop_succ_cons]
      · rw [List.filter_cons_of_pos (by simp [hx, hge]), ih hxs,
          show n - start = 0 by omega, show n - (start + 1) = 0 by omega, List.drop_zero,
          List.drop_zero]

/-! ## Members numbered by position -/

/-- Number the members of a list by their position. -/
def stamped (stamp : ℕ → β → α) (all : List β) : List α := all.mapIdx stamp

section stamped

variable {stamp : ℕ → β → α} {all more : List β}

@[simp] theorem length_stamped : (stamped stamp all).length = all.length := by
  simp [stamped]

theorem stamped_snoc (b : β) :
    stamped stamp (all ++ [b]) = stamped stamp all ++ [stamp all.length b] := by
  simp [stamped, List.mapIdx_append]

theorem stamped_append : stamped stamp all <+: stamped stamp (all ++ more) := by
  simp [stamped, List.mapIdx_append]

theorem from_stamped (hstamp : ∀ i b, num (stamp i b) = i) : From num 0 (stamped stamp all) := by
  unfold From
  refine List.ext_getElem (by simp) fun i hi _ ↦ ?_
  simp [stamped, hstamp]

end stamped

/-! ## Cursors and pages -/

/-- The first number a reader at `cursor` has not seen. -/
def first : Option ℕ → ℕ
  | none => 0
  | some c => c + 1

@[simp] theorem first_none : first none = 0 := rfl

@[simp] theorem first_some (c : ℕ) : first (some c) = c + 1 := rfl

/-- Where a reader stands after a page. -/
def after (num : α → ℕ) (page : List α) (cursor : Option ℕ) : Option ℕ :=
  (page.getLast?.map num).or cursor

@[simp] theorem after_nil (cursor : Option ℕ) : after num [] cursor = cursor := rfl

theorem first_after {cursor : Option ℕ} (h : From num (first cursor) xs) :
    first (after num xs cursor) = first cursor + xs.length := by
  rcases eq_or_ne xs [] with rfl | hne
  · simp
  · have hpos : 0 < xs.length := List.length_pos_iff.mpr hne
    rw [after, h.getLast? hne, Option.some_or, first_some]
    omega

/-- The next `limit` members a reader at `cursor` has not seen. -/
def page (num : α → ℕ) (xs : List α) (cursor : Option ℕ) (limit : ℕ) : List α :=
  (xs.filter fun x ↦ decide (first cursor ≤ num x)).take limit

theorem From.page_eq (h : From num start xs) (cursor : Option ℕ) (limit : ℕ) :
    page num xs cursor limit = (xs.drop (first cursor - start)).take limit := by
  rw [page, h.filter_le]

theorem take_add_length_page (xs : List α) (n size : ℕ) :
    xs.take (n + ((xs.drop n).take size).length) = xs.take n ++ (xs.drop n).take size := by
  rw [List.take_add, List.length_take, List.take_eq_take_min]
  simp

/-- A page of the beginning of a list is a page of the list. -/
theorem take_drop_of_prefix (h : xs <+: ys) (n k : ℕ) :
    ∃ k', (xs.drop n).take k = (ys.drop n).take k' := by
  obtain ⟨rest, rfl⟩ := h
  refine ⟨min k (xs.drop n).length, ?_⟩
  rw [List.drop_append, List.take_append_of_le_length (Nat.min_le_right _ _),
    ← List.take_eq_take_min]

/-- What a reader takes in pages of the given sizes. -/
def pages (num : α → ℕ) (xs : List α) : Option ℕ → List ℕ → List α
  | _, [] => []
  | cursor, limit :: limits =>
    page num xs cursor limit ++ pages num xs (after num (page num xs cursor limit) cursor) limits

/-- Pages of any sizes put together one long page. -/
theorem From.pages_eq (h : From num 0 xs) (cursor : Option ℕ) (limits : List ℕ) :
    pages num xs cursor limits = page num xs cursor limits.sum := by
  induction limits generalizing cursor with
  | nil => simp [pages, page]
  | cons limit limits ih =>
      have hpage : From num (first cursor) (page num xs cursor limit) := by
        have hdrop := (h.drop (first cursor)).take limit
        simpa [h.page_eq] using hdrop
      rw [pages, ih, h.page_eq, h.page_eq, h.page_eq, first_after (h.page_eq cursor limit ▸ hpage),
        List.sum_cons, Nat.sub_zero, Nat.sub_zero, ← List.drop_drop]
      rcases Nat.le_total limit (xs.drop (first cursor)).length with hle | hge
      · rw [List.length_take_of_le hle, ← List.take_add]
      · rw [List.take_of_length_le hge, List.drop_of_length_le (Nat.le_refl _), List.take_nil,
          List.append_nil, List.take_of_length_le (by omega)]

/-! ## Reading up to a stop -/

/-- What a reader sees who takes pages of a given size from the start on, and stops after the
first page with a member that says so. -/
def visited (stop : α → Bool) (size : ℕ) (xs : List α) : List α :=
  xs.take ((xs.findIdx stop / size + 1) * size)

section visited

variable {stop : α → Bool} {size n : ℕ}

theorem visited_of_none (hsize : 0 < size) (h : xs.any stop = false) :
    visited stop size xs = xs := by
  have hlen : xs.findIdx stop = xs.length := List.findIdx_eq_length.mpr fun x hx ↦
    Bool.eq_false_iff.mpr fun hstop ↦ by rw [List.any_eq_true.mpr ⟨x, hx, hstop⟩] at h; cases h
  rw [visited, hlen]
  refine List.take_of_length_le ?_
  have hdiv := Nat.div_add_mod xs.length size
  have hmod := Nat.mod_lt xs.length hsize
  rw [Nat.add_mul, Nat.one_mul, Nat.mul_comm]
  omega

/-- The reader stops after the page at `n` if that is the first with a stop. -/
theorem visited_of_page (hdvd : size ∣ n) (hbefore : (xs.take n).any stop = false)
    (hpage : ((xs.drop n).take size).any stop = true) :
    visited stop size xs = xs.take n ++ (xs.drop n).take size := by
  obtain ⟨k, rfl⟩ := hdvd
  have hfind : xs.findIdx stop / size = k := by
    obtain ⟨i, hi, hstop⟩ : ∃ i, ∃ h : i < ((xs.drop (size * k)).take size).length,
        stop ((xs.drop (size * k)).take size)[i] = true := by
      obtain ⟨x, hx, hstop⟩ := List.any_eq_true.mp hpage
      obtain ⟨i, hi, rfl⟩ := List.getElem_of_mem hx
      exact ⟨i, hi, hstop⟩
    rw [List.length_take, List.length_drop] at hi
    rw [List.getElem_take, List.getElem_drop] at hstop
    have hle : xs.findIdx stop ≤ size * k + i := by
      by_contra hlt
      exact absurd hstop (Bool.eq_false_iff.mp
        (List.not_of_lt_findIdx (p := stop) (by omega)))
    have hge : size * k ≤ xs.findIdx stop := by
      by_contra hlt
      have hlen : xs.findIdx stop < xs.length := by omega
      have hmem : xs[xs.findIdx stop] ∈ xs.take (size * k) :=
        List.mem_take_iff_getElem.mpr ⟨xs.findIdx stop, by omega, rfl⟩
      rw [List.any_eq_true.mpr ⟨_, hmem, List.findIdx_getElem⟩] at hbefore
      cases hbefore
    have hpos : 0 < size := by omega
    refine Nat.div_eq_of_lt_le (by rw [Nat.mul_comm]; exact hge) ?_
    rw [Nat.add_mul, Nat.one_mul, Nat.mul_comm]
    omega
  rw [visited, hfind, Nat.add_mul, Nat.one_mul, Nat.mul_comm k size, List.take_add]

end visited

/-! ## Sorting by number -/

section sortBy

end sortBy

end Numbering
