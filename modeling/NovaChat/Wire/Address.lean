import Mathlib.Tactic.IntervalCases
import Mathlib.Data.Nat.Notation
import Mathlib.Tactic.Tauto

/-!
# Addresses

The rules for addresses that nobody may be sent to: loopback, private, reserved and multicast ranges
of IPv4, and those of IPv6, which falls back on the rules of IPv4 for an address that embeds one.
They are compared with the blocks that are not public.
-/

namespace NovaChat

/-! ## Blocks -/

/-- The addresses that begin with the first bits of a network. -/
structure Block (w : ℕ) where
  network : BitVec w
  length : ℕ

namespace Block

variable {w : ℕ}

def Contains (b : Block w) (ip : BitVec w) : Prop :=
  ip.toNat / 2 ^ (w - b.length) = b.network.toNat / 2 ^ (w - b.length)

instance (b : Block w) (ip : BitVec w) : Decidable (b.Contains ip) :=
  inferInstanceAs (Decidable (_ = _))

end Block

/-! ## IPv4 -/

abbrev Ipv4Addr := BitVec 32

namespace Ipv4Addr

/-- The address with such octets. -/
def new (a b c d : ℕ) : Ipv4Addr := BitVec.ofNat 32 (((a * 256 + b) * 256 + c) * 256 + d)

def octets (ip : Ipv4Addr) : ℕ × ℕ × ℕ × ℕ :=
  (ip.toNat / 2 ^ 24, ip.toNat / 2 ^ 16 % 2 ^ 8, ip.toNat / 2 ^ 8 % 2 ^ 8, ip.toNat % 2 ^ 8)

def isLoopback (ip : Ipv4Addr) : Bool := ip.octets.1 = 127

def isPrivate (ip : Ipv4Addr) : Bool :=
  let (a, b, _, _) := ip.octets
  a = 10 || (a = 172 && 16 ≤ b && b ≤ 31) || (a = 192 && b = 168)

def isLinkLocal (ip : Ipv4Addr) : Bool :=
  let (a, b, _, _) := ip.octets
  a = 169 && b = 254

def isUnspecified (ip : Ipv4Addr) : Bool := ip.octets = (0, 0, 0, 0)

def isDocumentation (ip : Ipv4Addr) : Bool :=
  let (a, b, c, _) := ip.octets
  (a = 192 && b = 0 && c = 2) || (a = 198 && b = 51 && c = 100) || (a = 203 && b = 0 && c = 113)

end Ipv4Addr

/-- Everything that is not a routable, public unicast address, and the ranges that are reserved for
the internal fabric. -/
def isBlockedV4 (ip : Ipv4Addr) : Bool :=
  if ip.isLoopback || ip.isPrivate || ip.isLinkLocal || ip.isUnspecified || ip.isDocumentation then
    true
  else
    let (a, b, _, _) := ip.octets
    match a with
    | 0 => true
    | 9 | 11 | 21 | 30 => true
    | 100 => 64 ≤ b && b ≤ 127
    | a => 224 ≤ a && a ≤ 255

/-- A block in dotted notation. -/
def Block.v4 (a b c d length : ℕ) : Block 32 := ⟨Ipv4Addr.new a b c d, length⟩

/-- The blocks of the internal fabric, and those that are not globally reachable unicast. -/
def nonPublicV4 : List (Block 32) :=
  [.v4 9 0 0 0 8, .v4 11 0 0 0 8, .v4 21 0 0 0 8, .v4 30 0 0 0 8, .v4 0 0 0 0 8, .v4 10 0 0 0 8,
    .v4 100 64 0 0 10, .v4 127 0 0 0 8, .v4 169 254 0 0 16, .v4 172 16 0 0 12, .v4 192 0 0 0 24,
    .v4 192 0 2 0 24, .v4 192 168 0 0 16, .v4 198 18 0 0 15, .v4 198 51 100 0 24,
    .v4 203 0 113 0 24, .v4 224 0 0 0 4, .v4 240 0 0 0 4]

/-- The blocks for protocol assignments and for benchmarks. -/
def overlookedV4 : List (Block 32) := [.v4 192 0 0 0 24, .v4 198 18 0 0 15]

def InSome {w : ℕ} (blocks : List (Block w)) (ip : BitVec w) : Prop := ∃ b ∈ blocks, b.Contains ip

instance {w : ℕ} (blocks : List (Block w)) (ip : BitVec w) : Decidable (InSome blocks ip) :=
  inferInstanceAs (Decidable (∃ b ∈ blocks, _))

theorem isBlockedV4_octets {ip : Ipv4Addr} {a b c d : ℕ} (hoctets : ip.octets = (a, b, c, d)) :
    isBlockedV4 ip = true ↔ a ∈ [0, 9, 10, 11, 21, 30, 127] ∨ (a = 100 ∧ 64 ≤ b ∧ b ≤ 127) ∨
      (a = 169 ∧ b = 254 ∨ a = 192 ∧ b = 168) ∨ (a = 172 ∧ 16 ≤ b ∧ b ≤ 31) ∨
        (a = 192 ∧ b = 0 ∧ c = 2 ∨ a = 198 ∧ b = 51 ∧ c = 100 ∨ a = 203 ∧ b = 0 ∧ c = 113) ∨
          (224 ≤ a ∧ a ≤ 255) := by
  simp only [isBlockedV4, Ipv4Addr.isLoopback, Ipv4Addr.isPrivate, Ipv4Addr.isLinkLocal,
    Ipv4Addr.isUnspecified, Ipv4Addr.isDocumentation, hoctets]
  simp only [List.mem_cons, List.not_mem_nil, or_false]
  split_ifs with h <;>
    simp only [Bool.or_eq_true, Bool.and_eq_true, decide_eq_true_eq, Prod.mk.injEq] at h
  · rcases h with (((h | (h | h) | h) | h) | h) | (h | h) | h <;> simp [h]
  · split
    case h_7 h₀ h₉ h₁₁ h₂₁ h₃₀ h₁₀₀ =>
      simp only [not_or, and_assoc] at h
      simp only [imp_false] at h₀ h₉ h₁₁ h₂₁ h₃₀ h₁₀₀
      simp only [Bool.and_eq_true, decide_eq_true_eq, h, h₀, h₉, h₁₁, h₂₁, h₃₀, h₁₀₀, false_and,
        false_or]
    all_goals simp

theorem isBlockedV4_iff (ip : Ipv4Addr) : isBlockedV4 ip = true ↔
    ip.toNat / 2 ^ 24 ∈ [0, 9, 10, 11, 21, 30, 127] ∨ ip.toNat / 2 ^ 22 = 401 ∨
      ip.toNat / 2 ^ 16 ∈ [43518, 49320] ∨ ip.toNat / 2 ^ 20 = 2753 ∨
        ip.toNat / 2 ^ 8 ∈ [12582914, 12989284, 13303921] ∨ 224 ≤ ip.toNat / 2 ^ 24 := by
  have hlt := ip.isLt
  rw [isBlockedV4_octets rfl]
  simp only [List.mem_cons, List.not_mem_nil, or_false]
  refine or_congr Iff.rfl (or_congr ?_ (or_congr ?_ (or_congr ?_ (or_congr ?_ ?_)))) <;> omega

theorem inSome_overlookedV4 (ip : Ipv4Addr) : InSome overlookedV4 ip ↔
    ip.toNat / 2 ^ 8 = 12582912 ∨ ip.toNat / 2 ^ 17 = 25353 := by
  simp only [InSome, overlookedV4, List.mem_cons, List.not_mem_nil, or_false, exists_eq_or_imp,
    exists_eq_left, Block.Contains, Block.v4, Ipv4Addr.new, BitVec.toNat_ofNat]
  norm_num

theorem inSome_nonPublicV4 (ip : Ipv4Addr) :
    InSome nonPublicV4 ip ↔ isBlockedV4 ip = true ∨ InSome overlookedV4 ip := by
  have hlt := ip.isLt
  rw [isBlockedV4_iff, inSome_overlookedV4]
  simp only [InSome, nonPublicV4, List.mem_cons, List.not_mem_nil, or_false, exists_eq_or_imp,
    exists_eq_left, Block.Contains, Block.v4, Ipv4Addr.new, BitVec.toNat_ofNat]
  norm_num
  omega

theorem not_overlooked_of_blocked {ip : Ipv4Addr} (h : isBlockedV4 ip = true) :
    ¬ InSome overlookedV4 ip := by
  rw [isBlockedV4_iff] at h
  rw [inSome_overlookedV4]
  simp only [List.mem_cons, List.not_mem_nil, or_false] at h
  omega

/-! ## IPv6 -/

abbrev Ipv6Addr := BitVec 128

namespace Ipv6Addr

/-- The address with such segments. -/
def new (segments : List (BitVec 16)) : Ipv6Addr :=
  segments.foldl (fun ip segment ↦ ip <<< 16 ||| segment.setWidth 128) 0

def segment (ip : Ipv6Addr) (i : ℕ) : BitVec 16 := ip.extractLsb' (112 - 16 * i) 16

def segments (ip : Ipv6Addr) : List (BitVec 16) := (List.range 8).map ip.segment

/-- The IPv4 address in the last two segments. -/
def lowV4 (ip : Ipv6Addr) : Ipv4Addr := ip.segment 6 ++ ip.segment 7

/-- The IPv4 address that a mapped or a compatible address embeds. -/
def toIpv4 (ip : Ipv6Addr) : Option Ipv4Addr :=
  if ip.segments.take 6 ∈ [[0, 0, 0, 0, 0, 0], [0, 0, 0, 0, 0, 0xffff]] then some ip.lowV4
  else none

def isLoopback (ip : Ipv6Addr) : Bool := ip = new [0, 0, 0, 0, 0, 0, 0, 1]

def isUnspecified (ip : Ipv6Addr) : Bool := ip = new [0, 0, 0, 0, 0, 0, 0, 0]

def isMulticast (ip : Ipv6Addr) : Bool := ip.segment 0 &&& 0xff00 = 0xff00

end Ipv6Addr

def isBlockedV6 (ip : Ipv6Addr) : Bool :=
  match ip.toIpv4 with
  | some v4 => isBlockedV4 v4
  | none =>
    if ip.isLoopback || ip.isUnspecified || ip.isMulticast then true
    else ip.segment 0 &&& 0xfe00 = 0xfc00 || ip.segment 0 &&& 0xffc0 = 0xfe80

def Block.v6 (segments : List (BitVec 16)) (length : ℕ) : Block 128 :=
  ⟨Ipv6Addr.new segments, length⟩

/-- Loopback, unspecified, multicast, unique local and link-local addresses. -/
def specialV6 : List (Block 128) :=
  [.v6 [0, 0, 0, 0, 0, 0, 0, 1] 128, .v6 [0, 0, 0, 0, 0, 0, 0, 0] 128,
    .v6 [0xff00, 0, 0, 0, 0, 0, 0, 0] 8, .v6 [0xfc00, 0, 0, 0, 0, 0, 0, 0] 7,
    .v6 [0xfe80, 0, 0, 0, 0, 0, 0, 0] 10]

def documentationV6 : List (Block 128) := [.v6 [0x2001, 0xdb8, 0, 0, 0, 0, 0, 0] 32]

/-- Compatible and mapped addresses. -/
def embeddingV6 : List (Block 128) :=
  [.v6 [0, 0, 0, 0, 0, 0, 0, 0] 96, .v6 [0, 0, 0, 0, 0, 0xffff, 0, 0] 96]

/-- The addresses that a translator makes of IPv4 addresses. -/
def translatedV6 : List (Block 128) := [.v6 [0x64, 0xff9b, 0, 0, 0, 0, 0, 0] 96]

@[simp]
theorem toNat_segment (ip : Ipv6Addr) (i : ℕ) :
    (ip.segment i).toNat = ip.toNat / 2 ^ (112 - 16 * i) % 2 ^ 16 := by
  simp [Ipv6Addr.segment, Nat.shiftRight_eq_div_pow]

theorem toNat_lowV4 (ip : Ipv6Addr) : ip.lowV4.toNat = ip.toNat % 2 ^ 32 := by
  rw [Ipv6Addr.lowV4, BitVec.toNat_append, toNat_segment, toNat_segment,
    Nat.shiftLeft_add_eq_or_of_lt (Nat.mod_lt _ (Nat.two_pow_pos 16)) _ |>.symm, Nat.shiftLeft_eq]
  omega

theorem and_high {w : ℕ} (s : BitVec w) (k : ℕ) :
    s &&& (BitVec.allOnes w <<< k) = s >>> k <<< k := by
  ext i hi
  by_cases hik : i < k
  · simp [hik]
  · simp [hik, hi, Nat.add_sub_cancel' (not_lt.mp hik)]

theorem and_high_iff (s : BitVec 16) (k high : ℕ) (hhigh : high * 2 ^ k < 2 ^ 16) :
    s &&& (BitVec.allOnes 16 <<< k) = BitVec.ofNat 16 (high * 2 ^ k) ↔ s.toNat / 2 ^ k = high := by
  have hlt : s.toNat / 2 ^ k * 2 ^ k < 2 ^ 16 := (Nat.div_mul_le_self _ _).trans_lt s.isLt
  rw [and_high, ← BitVec.toNat_inj, BitVec.toNat_shiftLeft, BitVec.toNat_ushiftRight,
    BitVec.toNat_ofNat, Nat.shiftRight_eq_div_pow, Nat.shiftLeft_eq, Nat.mod_eq_of_lt hlt,
    Nat.mod_eq_of_lt hhigh, Nat.mul_left_inj (Nat.two_pow_pos k).ne']

theorem toIpv4_eq (ip : Ipv6Addr) : ip.toIpv4 =
    if ip.toNat / 2 ^ 32 ∈ [0, 0xffff] then some ip.lowV4 else none := by
  have hlt := ip.isLt
  unfold Ipv6Addr.toIpv4
  congr 1
  simp only [Ipv6Addr.segments, List.range_succ, List.range_zero]
  simp [← BitVec.toNat_inj]
  omega

theorem isBlockedV6_iff (ip : Ipv6Addr) : isBlockedV6 ip = true ↔
    if ip.toNat / 2 ^ 32 ∈ [0, 0xffff] then isBlockedV4 ip.lowV4 = true
    else ip.toNat / 2 ^ 120 = 0xff ∨ ip.toNat / 2 ^ 121 = 0x7e ∨ ip.toNat / 2 ^ 118 = 0x3fa := by
  have hlt := ip.isLt
  have hmulticast : ip.isMulticast = true ↔ ip.toNat / 2 ^ 120 = 0xff := by
    rw [Ipv6Addr.isMulticast, decide_eq_true_eq]
    refine (and_high_iff (ip.segment 0) 8 0xff (by decide)).trans ?_
    rw [toNat_segment]
    omega
  have hlocal : ip.segment 0 &&& 0xfe00 = 0xfc00 ↔ ip.toNat / 2 ^ 121 = 0x7e := by
    refine (and_high_iff (ip.segment 0) 9 0x7e (by decide)).trans ?_
    rw [toNat_segment]
    omega
  have hlink : ip.segment 0 &&& 0xffc0 = 0xfe80 ↔ ip.toNat / 2 ^ 118 = 0x3fa := by
    refine (and_high_iff (ip.segment 0) 6 0x3fa (by decide)).trans ?_
    rw [toNat_segment]
    omega
  unfold isBlockedV6
  rw [toIpv4_eq]
  by_cases h : ip.toNat / 2 ^ 32 ∈ [0, 0xffff]
  · simp only [h, if_true]
  · have hloopback : ip.isLoopback = false := by
      refine decide_eq_false fun hone ↦ h ?_
      rw [hone]
      decide
    have hunspecified : ip.isUnspecified = false := by
      refine decide_eq_false fun hzero ↦ h ?_
      rw [hzero]
      decide
    simp only [h, if_false, hloopback, hunspecified, Bool.false_or, Bool.if_true_left,
      Bool.or_eq_true, decide_eq_true_eq, hmulticast, hlocal, hlink]

theorem inSome_specialV6 (ip : Ipv6Addr) : InSome specialV6 ip ↔ ip.toNat = 1 ∨ ip.toNat = 0 ∨
    ip.toNat / 2 ^ 120 = 0xff ∨ ip.toNat / 2 ^ 121 = 0x7e ∨ ip.toNat / 2 ^ 118 = 0x3fa := by
  simp [InSome, specialV6, Block.Contains, Block.v6, Ipv6Addr.new]

theorem inSome_documentationV6 (ip : Ipv6Addr) :
    InSome documentationV6 ip ↔ ip.toNat / 2 ^ 96 = 0x20010db8 := by
  simp [InSome, documentationV6, Block.Contains, Block.v6, Ipv6Addr.new]

theorem inSome_embeddingV6 (ip : Ipv6Addr) :
    InSome embeddingV6 ip ↔ ip.toNat / 2 ^ 32 ∈ [0, 0xffff] := by
  simp [InSome, embeddingV6, Block.Contains, Block.v6, Ipv6Addr.new]

theorem inSome_translatedV6 (ip : Ipv6Addr) :
    InSome translatedV6 ip ↔ ip.toNat / 2 ^ 32 = 0x64ff9b0000000000000000 := by
  simp [InSome, translatedV6, Block.Contains, Block.v6, Ipv6Addr.new]

/-! ## The guard -/

inductive IpAddr
  | v4 (ip : Ipv4Addr)
  | v6 (ip : Ipv6Addr)
  deriving DecidableEq

def isBlockedIp : IpAddr → Bool
  | .v4 ip => isBlockedV4 ip
  | .v6 ip => isBlockedV6 ip

/-- Of IPv4 exactly the addresses that are not public are blocked.  Of IPv6 the special ones are,
and those that embed an address that is to be blocked. -/
def GuardMeets : IpAddr → Prop
  | .v4 ip => isBlockedIp (.v4 ip) = true ↔ InSome nonPublicV4 ip
  | .v6 ip =>
    InSome specialV6 ip ∨ InSome documentationV6 ip ∨
      (InSome embeddingV6 ip ∨ InSome translatedV6 ip) ∧ InSome nonPublicV4 ip.lowV4 →
    isBlockedIp (.v6 ip) = true

def Overlooked : IpAddr → Prop
  | .v4 ip => InSome overlookedV4 ip
  | .v6 ip =>
    InSome documentationV6 ip ∨ InSome embeddingV6 ip ∧ InSome overlookedV4 ip.lowV4 ∨
      InSome translatedV6 ip ∧ InSome nonPublicV4 ip.lowV4

/-- An address that embeds one of IPv4 is neither for documentation nor translated, and a special
one is among the first of its block. -/
theorem embedding_apart {ip : Ipv6Addr} (h : InSome embeddingV6 ip) :
    ¬ InSome documentationV6 ip ∧ ¬ InSome translatedV6 ip ∧
      (InSome specialV6 ip → isBlockedV4 ip.lowV4 = true) := by
  have hlt := ip.isLt
  rw [inSome_embeddingV6] at h
  rw [inSome_documentationV6, inSome_translatedV6, inSome_specialV6, isBlockedV4_iff, toNat_lowV4]
  simp only [List.mem_cons, List.not_mem_nil, or_false] at h
  refine ⟨by omega, by omega, fun hspecial ↦ .inl ?_⟩
  have hzero : ip.toNat % 2 ^ 32 / 2 ^ 24 = 0 := by omega
  rw [hzero]
  decide

theorem not_blocked_of_overlooked {ip : Ipv6Addr} (hembed : ¬ InSome embeddingV6 ip)
    (h : InSome documentationV6 ip ∨ InSome translatedV6 ip) : ¬ isBlockedV6 ip = true := by
  rw [inSome_embeddingV6] at hembed
  rw [inSome_documentationV6, inSome_translatedV6] at h
  rw [isBlockedV6_iff, if_neg hembed]
  omega

theorem blocked_of_special {ip : Ipv6Addr} (hembed : ¬ InSome embeddingV6 ip)
    (h : InSome specialV6 ip) : isBlockedV6 ip = true := by
  rw [inSome_embeddingV6] at hembed
  rw [inSome_specialV6] at h
  rw [isBlockedV6_iff, if_neg hembed]
  simp only [List.mem_cons, List.not_mem_nil, or_false] at hembed
  omega

theorem isBlockedV6_of_embedding {ip : Ipv6Addr} (h : InSome embeddingV6 ip) :
    isBlockedV6 ip = true ↔ isBlockedV4 ip.lowV4 = true := by
  rw [isBlockedV6_iff, if_pos ((inSome_embeddingV6 ip).mp h)]

theorem guardMeets_iff (ip : IpAddr) : GuardMeets ip ↔ ¬ Overlooked ip := by
  cases ip with
  | v4 ip =>
      have hdisjoint : isBlockedV4 ip = true → ¬ InSome overlookedV4 ip :=
        not_overlooked_of_blocked
      simp only [GuardMeets, Overlooked, isBlockedIp, inSome_nonPublicV4]
      tauto
  | v6 ip =>
      simp only [GuardMeets, Overlooked, isBlockedIp]
      by_cases hembed : InSome embeddingV6 ip
      · obtain ⟨hdocumentation, htranslated, hspecial⟩ := embedding_apart hembed
        have hdisjoint : isBlockedV4 ip.lowV4 = true → ¬ InSome overlookedV4 ip.lowV4 :=
          not_overlooked_of_blocked
        rw [isBlockedV6_of_embedding hembed, inSome_nonPublicV4]
        tauto
      · have hmissed := not_blocked_of_overlooked hembed
        have hspecial := blocked_of_special hembed
        tauto

theorem benchmark_address_passes : ¬ ∀ ip : IpAddr, GuardMeets ip := by
  intro h
  have hblocks : isBlockedV4 (Ipv4Addr.new 198 18 0 1) = true ↔
      InSome nonPublicV4 (Ipv4Addr.new 198 18 0 1) :=
    h (.v4 (Ipv4Addr.new 198 18 0 1))
  exact absurd hblocks (by decide)

end NovaChat
