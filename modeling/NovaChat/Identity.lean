import Mathlib.Data.Char
import Mathlib.Tactic.IntervalCases

/-!
# Identities

Tenants, nodes, agents, attempts, idempotency keys, and the ids of responses and
conversations.  The string-shaped ones are validated once, by `parse`; a value carries the
fact that it passed, so no later definition checks it again.
-/

namespace NovaChat

/-- `u64::MAX`. -/
def u64Max : ℕ := 2 ^ 64 - 1

/-- `u64::saturating_add`, and `usize::saturating_add` on a 64-bit target. -/
def satAdd (a b : ℕ) : ℕ := min (a + b) u64Max

/-- `u64::saturating_mul`. -/
def satMul (a b : ℕ) : ℕ := min (a * b) u64Max

/-- Why a string is not a valid identifier of some kind. -/
structure IdError where
  kind : String
  expected : String
  deriving DecidableEq, Repr

/-- All bytes of an ASCII string are characters, so its byte length is its length. -/
theorem utf8ByteSize_of_ascii {s : String} (h : ∀ c ∈ s.toList, c.val ≤ 127) :
    s.utf8ByteSize = s.toList.length := by
  suffices key : ∀ l : List Char, (∀ c ∈ l, c.val ≤ 127) →
      (String.ofList l).utf8ByteSize = l.length by
    simpa using key s.toList h
  intro l hl
  induction l with
  | nil => simp
  | cons c l ih =>
      have hcons : String.ofList (c :: l) = String.singleton c ++ String.ofList l := by
        rw [← String.toList_inj]
        simp
      have hc : c.utf8Size = 1 := Char.utf8Size_eq_one_iff.mpr (hl c (by simp))
      rw [hcons, String.utf8ByteSize_append, String.utf8ByteSize_singleton, hc,
        ih fun d hd ↦ hl d (by simp [hd])]
      simp [Nat.add_comm]

/-! ## Nodes, tenants and agents -/

/-- The node tag embedded in every response id. -/
structure NodeTag where
  text : String
  valid : (text ≠ "" ∧ text.utf8ByteSize ≤ 32) ∧
    text.toList.all (fun b ↦ ('a' ≤ b && b ≤ 'z') || b.isDigit || b == '-') = true
  deriving DecidableEq

namespace NodeTag

def err : IdError := ⟨"node tag", "1..=32 characters of [a-z0-9-]"⟩

def parse (raw : String) : Except IdError NodeTag :=
  if ok : (raw ≠ "" ∧ raw.utf8ByteSize ≤ 32) ∧
      raw.toList.all (fun b ↦ ('a' ≤ b && b ≤ 'z') || b.isDigit || b == '-') = true then
    .ok ⟨raw, ok⟩
  else
    .error err

theorem parse_text (t : NodeTag) : parse t.text = .ok t := by
  simp only [parse, t.valid, dite_true, ne_eq, not_false_eq_true, and_self]

end NodeTag

/-- Tenant identity resolved from the credential. -/
structure TenantId where
  text : String
  valid : (text ≠ "" ∧ text.utf8ByteSize ≤ 64) ∧
    text.toList.all (fun b ↦ b.isAlphanum || b == '.' || b == '_' || b == '-') = true
  deriving DecidableEq

namespace TenantId

def parse (raw : String) : Except IdError TenantId :=
  if ok : (raw ≠ "" ∧ raw.utf8ByteSize ≤ 64) ∧
      raw.toList.all (fun b ↦ b.isAlphanum || b == '.' || b == '_' || b == '-') = true then
    .ok ⟨raw, ok⟩
  else
    .error ⟨"tenant id", "1..=64 characters of [A-Za-z0-9._-]"⟩

end TenantId

/-- A 128-bit uuid. -/
structure Uuid where
  bits : BitVec 128
  deriving DecidableEq, Repr

namespace Uuid

/-- The 32 hexadecimal digits, most significant first. -/
def digits (u : Uuid) : List Char :=
  (List.range 32).map fun i ↦ Nat.digitChar (u.bits.toNat / 16 ^ (31 - i) % 16)

/-- The hyphenated lower-case form, in groups of 8, 4, 4, 4 and 12 digits. -/
def text (u : Uuid) : String :=
  String.ofList <|
    u.digits.take 8 ++ '-' :: (u.digits.drop 8).take 4 ++ '-' :: (u.digits.drop 12).take 4 ++
      '-' :: (u.digits.drop 16).take 4 ++ '-' :: u.digits.drop 20

theorem length_digits (u : Uuid) : u.digits.length = 32 := by simp [digits]

theorem length_text (u : Uuid) : u.text.toList.length = 36 := by
  simp [text, length_digits]

theorem digitChar_visible (n : ℕ) :
    '!' ≤ Nat.digitChar (n % 16) ∧ Nat.digitChar (n % 16) ≤ '~' := by
  have hlt : n % 16 < 16 := Nat.mod_lt _ (by decide)
  generalize n % 16 = k at hlt
  interval_cases k <;> decide

theorem text_visible (u : Uuid) : ∀ c ∈ u.text.toList, '!' ≤ c ∧ c ≤ '~' := by
  have hdigits : ∀ c ∈ u.digits, '!' ≤ c ∧ c ≤ '~' := by
    intro c hc
    obtain ⟨i, -, rfl⟩ := List.mem_map.mp hc
    exact digitChar_visible _
  have hdash : '!' ≤ '-' ∧ '-' ≤ '~' := by decide
  intro c hc
  simp only [text, String.toList_ofList, List.mem_append, List.mem_cons] at hc
  rcases hc with (((hc | rfl | hc) | rfl | hc) | rfl | hc) | rfl | hc
  · exact hdigits c (List.mem_of_mem_take hc)
  · exact hdash
  · exact hdigits c (List.mem_of_mem_drop (List.mem_of_mem_take hc))
  · exact hdash
  · exact hdigits c (List.mem_of_mem_drop (List.mem_of_mem_take hc))
  · exact hdash
  · exact hdigits c (List.mem_of_mem_drop (List.mem_of_mem_take hc))
  · exact hdash
  · exact hdigits c (List.mem_of_mem_drop hc)

end Uuid

/-- Identity of one execution process. -/
structure AgentId where
  uuid : Uuid
  deriving DecidableEq, Repr

/-! ## Responses and conversations -/

/-- `resp_{node}_{uuid}`. -/
structure ResponseId where
  nodeTag : NodeTag
  uuid : Uuid
  deriving DecidableEq

/-- The display form of a response id. -/
def ResponseId.text (r : ResponseId) : String :=
  "resp_" ++ r.nodeTag.text ++ "_" ++ r.uuid.text

/-- `conv_{uuid}`. -/
structure ConversationId where
  uuid : Uuid
  deriving DecidableEq, Repr

def ConversationId.text (c : ConversationId) : String :=
  "conv_" ++ c.uuid.text

theorem ResponseId.text_visible (r : ResponseId) :
    ∀ c ∈ r.text.toList, '!' ≤ c ∧ c ≤ '~' := by
  have hprefix : ∀ c ∈ "resp_".toList, '!' ≤ c ∧ c ≤ '~' := by simp
  have hsep : ∀ c ∈ "_".toList, '!' ≤ c ∧ c ≤ '~' := by simp
  have htag : ∀ c ∈ r.nodeTag.text.toList, '!' ≤ c ∧ c ≤ '~' := by
    intro c hc
    have hall := List.all_eq_true.mp r.nodeTag.valid.2 c hc
    simp only [Bool.or_eq_true, Bool.and_eq_true, decide_eq_true_eq, beq_iff_eq,
      Char.isDigit] at hall
    rcases hall with (⟨hlo, hhi⟩ | ⟨hlo, hhi⟩) | rfl
    · exact ⟨le_trans (by decide) hlo, le_trans hhi (by decide)⟩
    · exact ⟨le_trans (by decide : '!' ≤ '0') hlo, le_trans hhi (by decide : '9' ≤ '~')⟩
    · decide
  intro c hc
  simp only [text, String.toList_append, List.mem_append] at hc
  rcases hc with ((hc | hc) | hc) | hc
  · exact hprefix c hc
  · exact htag c hc
  · exact hsep c hc
  · exact r.uuid.text_visible c hc

theorem ResponseId.length_text (r : ResponseId) : r.text.utf8ByteSize ≤ 74 := by
  have htag := r.nodeTag.valid.1.2
  have huuid : r.uuid.text.utf8ByteSize = 36 := by
    rw [utf8ByteSize_of_ascii, r.uuid.length_text]
    exact fun c hc ↦ le_trans (r.uuid.text_visible c hc).2 (by decide : '~' ≤ Char.ofNat 127)
  have hprefix : "resp_".utf8ByteSize = 5 := by decide
  have hsep : "_".utf8ByteSize = 1 := by decide
  simp only [text, String.utf8ByteSize_append]
  omega

/-! ## Idempotency keys and attempts -/

/-- Caller-supplied idempotency key: 1 to 128 visible ASCII characters. -/
structure IdempotencyKey where
  text : String
  valid : (text ≠ "" ∧ text.utf8ByteSize ≤ 128) ∧
    text.toList.all (fun b ↦ '!' ≤ b && b ≤ '~') = true
  deriving DecidableEq

namespace IdempotencyKey

def parse (raw : String) : Except IdError IdempotencyKey :=
  if ok : (raw ≠ "" ∧ raw.utf8ByteSize ≤ 128) ∧
      raw.toList.all (fun b ↦ '!' ≤ b && b ≤ '~') = true then
    .ok ⟨raw, ok⟩
  else
    .error ⟨"idempotency key", "1..=128 visible ASCII characters with no whitespace"⟩

/-- The default key for a generation that supplied none: its own id. -/
def forResponse (r : ResponseId) : IdempotencyKey where
  text := r.text
  valid := by
    refine ⟨⟨fun h ↦ ?_, le_trans r.length_text (by decide)⟩, ?_⟩
    · have hlen := congrArg (fun s : String ↦ s.toList.length) h
      simp [ResponseId.text] at hlen
    · simpa [List.all_eq_true] using r.text_visible

end IdempotencyKey

/-- Fencing token of one response.  Monotonic, saturating at `u64::MAX`. -/
structure Attempt where
  val : ℕ
  bounded : val ≤ u64Max
  deriving DecidableEq

namespace Attempt

/-- A response that has never been claimed. -/
def unclaimed : Attempt := ⟨0, Nat.zero_le _⟩

def next (a : Attempt) : Attempt := ⟨satAdd a.val 1, Nat.min_le_right _ _⟩

end Attempt

end NovaChat
