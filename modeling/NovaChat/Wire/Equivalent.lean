import NovaChat.Wire.Canonical
import Mathlib.Data.List.Forall2
import Mathlib.Data.List.Sort

/-!
# Equivalent values

Two values are equivalent when they are the same up to the order of entries and the normalisation of
strings and keys.  The canonical text sorts the entries by their keys before these are normalised,
so equivalent values have the same text only when the keys of matching entries compare alike.
-/

namespace NovaChat

section Equivalence

variable (nfc : String → String)

mutual

/-- The same value up to the order of entries and the normalisation of strings and keys. -/
def Equivalent : Value → Value → Prop
  | .null, w => w = .null
  | .bool b, w => w = .bool b
  | .number n, w => w = .number n
  | .string s, w => ∃ t, w = .string t ∧ nfc s = nfc t
  | .array vs, w => ∃ ws, w = .array ws ∧ EquivalentItems vs ws
  | .object map, w =>
    ∃ map' listed, w = .object map' ∧ listed.Perm map' ∧ EquivalentEntries map listed

def EquivalentItems : List Value → List Value → Prop
  | [], ws => ws = []
  | v :: vs, ws => ∃ w ws', ws = w :: ws' ∧ Equivalent v w ∧ EquivalentItems vs ws'

def EquivalentEntries : List (String × Value) → List (String × Value) → Prop
  | [], map => map = []
  | (key, v) :: map, map' => ∃ key' w rest, map' = (key', w) :: rest ∧ nfc key = nfc key' ∧
    Equivalent v w ∧ EquivalentEntries map rest

end

mutual

/-- The keys of every object are distinct after normalisation. -/
def DistinctKeys : Value → Prop
  | .array vs => DistinctKeysItems vs
  | .object map => (map.map fun e ↦ nfc e.1).Nodup ∧ DistinctKeysEntries map
  | _ => True

def DistinctKeysItems : List Value → Prop
  | [] => True
  | v :: vs => DistinctKeys v ∧ DistinctKeysItems vs

def DistinctKeysEntries : List (String × Value) → Prop
  | [] => True
  | (_, v) :: map => DistinctKeys v ∧ DistinctKeysEntries map

end

/-- Two keys of one object stand in the same order as the matching keys of the other. -/
def SameOrder (map map' : List (String × Value)) : Prop :=
  ∀ e ∈ map, ∀ f ∈ map, ∀ e' ∈ map', ∀ f' ∈ map', nfc e.1 = nfc e'.1 → nfc f.1 = nfc f'.1 →
    (e.1 ≤ f.1 ↔ e'.1 ≤ f'.1)

mutual

/-- In matching objects, the keys stand in the same order as they are before normalisation. -/
def KeysAlike : Value → Value → Prop
  | .array vs, .array ws => KeysAlikeItems vs ws
  | .object map, .object map' => SameOrder nfc map map' ∧ KeysAlikeEntries map map'
  | _, _ => True

def KeysAlikeItems : List Value → List Value → Prop
  | v :: vs, w :: ws => KeysAlike v w ∧ KeysAlikeItems vs ws
  | _, _ => True

def KeysAlikeEntries : List (String × Value) → List (String × Value) → Prop
  | [], _ => True
  | (key, v) :: map, map' =>
    (∀ e' ∈ map', nfc key = nfc e'.1 → KeysAlike v e'.2) ∧ KeysAlikeEntries map map'

end

end Equivalence

variable {nfc : String → String}

theorem equivalentEntries_iff {map map' : List (String × Value)} :
    EquivalentEntries nfc map map' ↔
      List.Forall₂ (fun e e' ↦ nfc e.1 = nfc e'.1 ∧ Equivalent nfc e.2 e'.2) map map' := by
  induction map generalizing map' with
  | nil => rw [EquivalentEntries, List.forall₂_nil_left_iff]
  | cons e map ih =>
      rw [EquivalentEntries, List.forall₂_cons_left_iff]
      constructor
      · rintro ⟨key, w, rest, rfl, hkey, hw, hrest⟩
        exact ⟨(key, w), rest, ⟨hkey, hw⟩, ih.mp hrest, rfl⟩
      · rintro ⟨⟨key, w⟩, rest, ⟨hkey, hw⟩, hrest, rfl⟩
        exact ⟨key, w, rest, rfl, hkey, hw, ih.mpr hrest⟩

theorem distinctKeysEntries_iff {map : List (String × Value)} :
    DistinctKeysEntries nfc map ↔ ∀ e ∈ map, DistinctKeys nfc e.2 := by
  induction map with
  | nil => simp [DistinctKeysEntries]
  | cons e map ih => rw [DistinctKeysEntries, ih, List.forall_mem_cons]

theorem keysAlikeEntries_iff {map map' : List (String × Value)} :
    KeysAlikeEntries nfc map map' ↔
      ∀ e ∈ map, ∀ e' ∈ map', nfc e.1 = nfc e'.1 → KeysAlike nfc e.2 e'.2 := by
  induction map with
  | nil => simp [KeysAlikeEntries]
  | cons e map ih => rw [KeysAlikeEntries, ih, List.forall_mem_cons]

theorem exists_of_forall₂ {α β : Type} {R : α → β → Prop} {l : List α} {l' : List β}
    (h : List.Forall₂ R l l') {a : α} (ha : a ∈ l) : ∃ b ∈ l', R a b := by
  induction h with
  | nil => exact (List.not_mem_nil ha).elim
  | cons hab _ ih =>
      rcases List.mem_cons.mp ha with rfl | hmem
      · exact ⟨_, List.mem_cons_self, hab⟩
      · obtain ⟨b, hb, hR⟩ := ih hmem
        exact ⟨b, List.mem_cons_of_mem _ hb, hR⟩

/-! ## Sorted entries -/

section Sorted

variable {α β : Type}

theorem sortedEntries_sorted (map : List (String × α)) :
    (sortedEntries map).Pairwise fun e f ↦ e.1 ≤ f.1 := by
  refine (List.pairwise_mergeSort ?_ ?_ map).imp of_decide_eq_true
  · intro a b c hab hbc
    exact decide_eq_true (String.le_trans (of_decide_eq_true hab) (of_decide_eq_true hbc))
  · intro a b
    simpa using String.le_total a.1 b.1

theorem sortedEntries_eq_of_perm {map map' : List (String × α)} (h : map.Perm map')
    (hkeys : (map.map Prod.fst).Nodup) : sortedEntries map = sortedEntries map' := by
  refine List.Perm.eq_of_pairwise ?_ (sortedEntries_sorted map) (sortedEntries_sorted map')
    (((sortedEntries_perm map).trans h).trans (sortedEntries_perm map').symm)
  intro e f he hf hef hfe
  exact List.inj_on_of_nodup_map hkeys ((sortedEntries_perm map).mem_iff.mp he)
    (h.mem_iff.mpr ((sortedEntries_perm map').mem_iff.mp hf)) (String.le_antisymm hef hfe)

/-- Matching entries stay matched when both lists are sorted, if the keys compare alike. -/
theorem sortedEntries_forall₂ {R : String × α → String × β → Prop} {map : List (String × α)}
    {map' : List (String × β)} (hR : List.Forall₂ R map map')
    (horder : ∀ e ∈ map, ∀ f ∈ map, ∀ e' ∈ map', ∀ f' ∈ map', R e e' → R f f' →
      (e.1 ≤ f.1 ↔ e'.1 ≤ f'.1)) :
    List.Forall₂ R (sortedEntries map) (sortedEntries map') := by
  obtain ⟨hlength, hzip⟩ := List.forall₂_iff_zip.mp hR
  have hfst : ((map.zip map').mergeSort fun p q ↦ decide (p.1.1 ≤ q.1.1)).map Prod.fst =
      sortedEntries map := by
    rw [List.map_mergeSort (s := fun e f : String × α ↦ decide (e.1 ≤ f.1))
      fun _ _ _ _ ↦ rfl,
      List.map_fst_zip hlength.le]
    rfl
  have hsnd : ((map.zip map').mergeSort fun p q ↦ decide (p.1.1 ≤ q.1.1)).map Prod.snd =
      sortedEntries map' := by
    rw [List.map_mergeSort (s := fun e f : String × β ↦ decide (e.1 ≤ f.1)),
      List.map_snd_zip hlength.ge]
    · rfl
    · intro p hp q hq
      exact decide_eq_decide.mpr (horder _ (List.of_mem_zip hp).1 _ (List.of_mem_zip hq).1 _
        (List.of_mem_zip hp).2 _ (List.of_mem_zip hq).2 (hzip hp) (hzip hq))
  rw [← hfst, ← hsnd, List.forall₂_map_left_iff, List.forall₂_map_right_iff, List.forall₂_same]
  intro p hp
  exact hzip ((List.mergeSort_perm _ _).mem_iff.mp hp)

/-- In a sorted list, keys compare as their positions do. -/
theorem le_iff_idxOf_le {map : List (String × α)}
    (hsorted : map.Pairwise fun e f ↦ e.1 ≤ f.1) (hkeys : (map.map fun e ↦ nfc e.1).Nodup)
    {e f : String × α} (he : e ∈ map) (hf : f ∈ map) :
    e.1 ≤ f.1 ↔ (map.map fun e ↦ nfc e.1).idxOf (nfc e.1) ≤
      (map.map fun e ↦ nfc e.1).idxOf (nfc f.1) := by
  have hidx : ∀ (i : ℕ) (hi : i < map.length),
      (map.map fun e ↦ nfc e.1).idxOf (nfc map[i].1) = i := by
    intro i hi
    have hget := hkeys.idxOf_getElem i (by simpa using hi)
    rwa [List.getElem_map] at hget
  obtain ⟨i, hi, rfl⟩ := List.getElem_of_mem he
  obtain ⟨j, hj, rfl⟩ := List.getElem_of_mem hf
  rw [hidx i hi, hidx j hj]
  constructor
  · intro hle
    by_contra hji
    have hge := List.pairwise_iff_getElem.mp hsorted j i hj hi (by omega)
    have hsame := hidx i hi
    rw [String.le_antisymm hle hge, hidx j hj] at hsame
    omega
  · intro hij
    rcases Nat.lt_or_eq_of_le hij with hlt | rfl
    · exact List.pairwise_iff_getElem.mp hsorted i j hi hj hlt
    · exact String.le_refl _

end Sorted

/-! ## Equivalent values with the same text -/

theorem normal_object (map : List (String × Value)) :
    normal nfc (.object map) =
      .object ((sortedEntries map).map fun e ↦ (nfc e.1, normal nfc e.2)) := by
  rw [normal, normalEntries_eq_map, ← sortedEntries_map, List.map_map]
  rfl

theorem normal_eq_of_key_eq {map map' : List (String × Value)}
    (h : normal nfc (.object map) = normal nfc (.object map'))
    (hkeys : (map'.map fun e ↦ nfc e.1).Nodup) {e e' : String × Value} (he : e ∈ map)
    (he' : e' ∈ map') (hkey : nfc e.1 = nfc e'.1) : normal nfc e.2 = normal nfc e'.2 := by
  rw [normal_object, normal_object] at h
  have hmem : (nfc e.1, normal nfc e.2) ∈
      (sortedEntries map').map fun e ↦ (nfc e.1, normal nfc e.2) := by
    rw [← Value.object.inj h]
    exact List.mem_map.mpr ⟨e, (sortedEntries_perm map).mem_iff.mpr he, rfl⟩
  obtain ⟨f, hf, hsame⟩ := List.mem_map.mp hmem
  obtain ⟨hfkey, hfvalue⟩ := Prod.mk.inj hsame
  obtain rfl := List.inj_on_of_nodup_map hkeys ((sortedEntries_perm map').mem_iff.mp hf) he'
    (hfkey.trans hkey)
  exact hfvalue.symm

theorem sameOrder_of_normal_eq {map map' : List (String × Value)}
    (h : normal nfc (.object map) = normal nfc (.object map'))
    (hkeys : (map.map fun e ↦ nfc e.1).Nodup) (hkeys' : (map'.map fun e ↦ nfc e.1).Nodup) :
    SameOrder nfc map map' := by
  rw [normal_object, normal_object] at h
  have hsame : (sortedEntries map).map (fun e ↦ nfc e.1) =
      (sortedEntries map').map fun e ↦ nfc e.1 := by
    have hfst := congrArg (List.map Prod.fst) (Value.object.inj h)
    rwa [List.map_map, List.map_map] at hfst
  have hnodup := (((sortedEntries_perm map).map fun e ↦ nfc e.1).nodup_iff).mpr hkeys
  have hnodup' := (((sortedEntries_perm map').map fun e ↦ nfc e.1).nodup_iff).mpr hkeys'
  intro e he f hf e' he' f' hf' hee hff
  rw [le_iff_idxOf_le (sortedEntries_sorted map) hnodup ((sortedEntries_perm map).mem_iff.mpr he)
      ((sortedEntries_perm map).mem_iff.mpr hf),
    le_iff_idxOf_le (sortedEntries_sorted map') hnodup'
      ((sortedEntries_perm map').mem_iff.mpr he') ((sortedEntries_perm map').mem_iff.mpr hf'),
    hsame, hee, hff]

/-- Objects whose entries match have the same normal form when their keys compare alike. -/
theorem normal_eq_of_sameOrder {map map' listed : List (String × Value)}
    (hperm : listed.Perm map') (hkeys : (map'.map fun e ↦ nfc e.1).Nodup)
    (hmatch : List.Forall₂ (fun e e' ↦ nfc e.1 = nfc e'.1 ∧ normal nfc e.2 = normal nfc e'.2)
      map listed) (horder : SameOrder nfc map map') :
    normal nfc (.object map) = normal nfc (.object map') := by
  have hraw : (listed.map Prod.fst).Nodup := by
    refine List.Nodup.of_map nfc ?_
    rw [List.map_map]
    exact ((hperm.map _).nodup_iff).mpr hkeys
  rw [normal_object, normal_object, ← sortedEntries_eq_of_perm hperm hraw]
  congr 1
  rw [← List.forall₂_eq_eq_eq, List.forall₂_map_left_iff, List.forall₂_map_right_iff]
  refine (sortedEntries_forall₂ hmatch ?_).imp fun e e' h ↦ Prod.ext h.1 h.2
  intro e he f hf e' he' f' hf' hee hff
  exact horder e he f hf e' (hperm.mem_iff.mp he') f' (hperm.mem_iff.mp hf') hee.1 hff.1

mutual

/-- Equivalent values have the same normal form exactly when their keys compare alike. -/
theorem normal_eq_iff : ∀ (v : Value) {w : Value}, Equivalent nfc v w → DistinctKeys nfc v →
    DistinctKeys nfc w → (normal nfc v = normal nfc w ↔ KeysAlike nfc v w)
  | .null, w, h, _, _ | .bool b, w, h, _, _ | .number n, w, h, _, _ => by
      rw [Equivalent] at h
      rw [h]
      exact iff_of_true rfl (by simp [KeysAlike])
  | .string s, w, h, _, _ => by
      obtain ⟨t, rfl, ht⟩ := h
      rw [normal, normal, ht]
      exact iff_of_true rfl (by simp [KeysAlike])
  | .array vs, w, h, hv, hw => by
      obtain ⟨ws, rfl, hws⟩ := h
      rw [normal, normal, KeysAlike, Value.array.injEq]
      exact normalItems_eq_iff vs hws hv hw
  | .object map, w, h, hv, hw => by
      obtain ⟨map', listed, rfl, hperm, hlisted⟩ := h
      rw [equivalentEntries_iff] at hlisted
      have hvalues : ∀ e ∈ map, ∀ e' ∈ map', nfc e.1 = nfc e'.1 →
          (normal nfc e.2 = normal nfc e'.2 ↔ KeysAlike nfc e.2 e'.2) := by
        intro e he e' he' hkey
        obtain ⟨f, hf, hfkey, hequiv⟩ := exists_of_forall₂ hlisted he
        obtain rfl := List.inj_on_of_nodup_map hw.1 (hperm.mem_iff.mp hf) he'
          (hfkey.symm.trans hkey)
        exact normalEntries_eq_iff map hv.2 e he hequiv (distinctKeysEntries_iff.mp hw.2 _ he')
      constructor
      · intro heq
        refine ⟨sameOrder_of_normal_eq heq hv.1 hw.1, keysAlikeEntries_iff.mpr ?_⟩
        intro e he e' he' hkey
        exact (hvalues e he e' he' hkey).mp (normal_eq_of_key_eq heq hw.1 he he' hkey)
      · rintro ⟨horder, halike⟩
        rw [keysAlikeEntries_iff] at halike
        obtain ⟨hlength, hzip⟩ := List.forall₂_iff_zip.mp hlisted
        refine normal_eq_of_sameOrder hperm hw.1 (List.forall₂_iff_zip.mpr ⟨hlength, ?_⟩) horder
        intro e e' hee
        have he := (List.of_mem_zip hee).1
        have he' := hperm.mem_iff.mp (List.of_mem_zip hee).2
        have hkey := (hzip hee).1
        exact ⟨hkey, (hvalues e he e' he' hkey).mpr (halike e he e' he' hkey)⟩

theorem normalItems_eq_iff : ∀ (vs : List Value) {ws : List Value}, EquivalentItems nfc vs ws →
    DistinctKeysItems nfc vs → DistinctKeysItems nfc ws →
      (normalItems nfc vs = normalItems nfc ws ↔ KeysAlikeItems nfc vs ws)
  | [], ws, h, _, _ => by
      rw [EquivalentItems] at h
      rw [h]
      exact iff_of_true rfl (by simp [KeysAlikeItems])
  | v :: vs, ws, h, hv, hw => by
      obtain ⟨w, ws', rfl, hvw, hrest⟩ := h
      rw [normalItems, normalItems, KeysAlikeItems, List.cons.injEq,
        normal_eq_iff v hvw hv.1 hw.1, normalItems_eq_iff vs hrest hv.2 hw.2]

theorem normalEntries_eq_iff : ∀ (map : List (String × Value)), DistinctKeysEntries nfc map →
    ∀ e ∈ map, ∀ {w : Value}, Equivalent nfc e.2 w → DistinctKeys nfc w →
      (normal nfc e.2 = normal nfc w ↔ KeysAlike nfc e.2 w)
  | [], _, e, he, _, _, _ => (List.not_mem_nil he).elim
  | (key, v) :: map, hv, e, he, w, h, hw => by
      rcases List.mem_cons.mp he with rfl | hmem
      · exact normal_eq_iff v h hv.1 hw
      · exact normalEntries_eq_iff map hv.2 e hmem h hw

end

section Numbers

variable {P : Number → Prop}

mutual

theorem numbers_of_equivalent : ∀ {v w : Value}, Equivalent nfc v w → Numbers P v → Numbers P w
  | .null, w, h, hv | .bool b, w, h, hv | .number n, w, h, hv => by
      rw [Equivalent] at h
      rwa [h]
  | .string s, w, h, _ => by
      obtain ⟨t, rfl, -⟩ := h
      trivial
  | .array vs, w, h, hv => by
      obtain ⟨ws, rfl, hws⟩ := h
      exact numbersItems_of_equivalent hws hv
  | .object map, w, h, hv => by
      obtain ⟨map', listed, rfl, hperm, hlisted⟩ := h
      have hplain := numbersEntries_iff.mp (numbersEntries_of_equivalent hlisted hv)
      exact numbersEntries_iff.mpr fun e he ↦ hplain e (hperm.mem_iff.mpr he)

theorem numbersItems_of_equivalent : ∀ {vs ws : List Value}, EquivalentItems nfc vs ws →
    NumbersItems P vs → NumbersItems P ws
  | [], ws, h, hv => by
      rw [EquivalentItems] at h
      rwa [h]
  | v :: vs, ws, h, hv => by
      obtain ⟨w, ws', rfl, hvw, hrest⟩ := h
      exact ⟨numbers_of_equivalent hvw hv.1, numbersItems_of_equivalent hrest hv.2⟩

theorem numbersEntries_of_equivalent : ∀ {map map' : List (String × Value)},
    EquivalentEntries nfc map map' → NumbersEntries P map → NumbersEntries P map'
  | [], map', h, hv => by
      rw [EquivalentEntries] at h
      rwa [h]
  | (key, v) :: map, map', h, hv => by
      obtain ⟨key', w, rest, rfl, -, hvw, hrest⟩ := h
      exact ⟨numbers_of_equivalent hvw hv.1, numbersEntries_of_equivalent hrest hv.2⟩

end

end Numbers

/-- Equivalent values have the same canonical text exactly when their keys compare alike. -/
theorem canonicalJson_eq_iff {v w : Value} (h : Equivalent nfc v w) (hplain : Plain v)
    (hv : DistinctKeys nfc v) (hw : DistinctKeys nfc w) :
    canonicalJson nfc v = canonicalJson nfc w ↔ KeysAlike nfc v w := by
  rw [canonicalJson_inj hplain (numbers_of_equivalent h hplain), normal_eq_iff v h hv hw]

namespace Sample

theorem composeChars_acute {text rest : List Char} (h : composeChars text = '\u0301' :: rest) :
    ∃ rest', text = '\u0301' :: rest' := by
  fun_cases composeChars text with
  | case1 => cases h
  | case2 text => simp [composeChars] at h
  | case3 c text hc =>
      rw [composeChars] at h
      · exact ⟨text, by rw [(List.cons.inj h).1]⟩
      · exact hc

theorem composeChars_idem (text : List Char) :
    composeChars (composeChars text) = composeChars text := by
  fun_induction composeChars text with
  | case1 => rfl
  | case2 text ih => rw [composeChars, ih]; simp
  | case3 c text hc ih =>
      rw [composeChars, ih]
      intro rest hce hrest
      obtain ⟨rest', rfl⟩ := composeChars_acute hrest
      exact hc rest' hce rfl

theorem compose_idem (s : String) : compose (compose s) = compose s := by
  rw [compose, compose, String.toList_ofList, composeChars_idem]

/-- One entry under e with an acute accent, as one character or as two, and one under f. -/
def accented (key : String) : Value :=
  .object [(key, .number (.int 1)), ("f", .number (.int 2))]

end Sample

theorem canonicalJson_reordered :
    (∀ s, Sample.compose (Sample.compose s) = Sample.compose s) ∧
      Equivalent Sample.compose (Sample.accented "e\u0301") (Sample.accented "é") ∧
      DistinctKeys Sample.compose (Sample.accented "e\u0301") ∧
      DistinctKeys Sample.compose (Sample.accented "é") ∧
      canonicalJson Sample.compose (Sample.accented "e\u0301") ≠
        canonicalJson Sample.compose (Sample.accented "é") := by
  have hequiv : Equivalent Sample.compose (Sample.accented "e\u0301") (Sample.accented "é") :=
    ⟨_, _, rfl, List.Perm.refl _, _, _, _, rfl, by decide +kernel, rfl, _, _, _, rfl, rfl, rfl, rfl⟩
  have hv : DistinctKeys Sample.compose (Sample.accented "e\u0301") :=
    ⟨by decide +kernel, trivial, trivial, trivial⟩
  have hw : DistinctKeys Sample.compose (Sample.accented "é") :=
    ⟨by decide +kernel, trivial, trivial, trivial⟩
  refine ⟨Sample.compose_idem, hequiv, hv, hw, fun h ↦ ?_⟩
  have hplain : ∀ key, Plain (Sample.accented key) := fun _ ↦ ⟨trivial, trivial, trivial⟩
  rw [canonicalJson_inj (hplain _) (hplain _), normal_eq_iff _ hequiv hv hw] at h
  have horder := h.1 _ List.mem_cons_self _ (List.mem_cons_of_mem _ List.mem_cons_self)
    _ List.mem_cons_self _ (List.mem_cons_of_mem _ List.mem_cons_self) (by decide +kernel) rfl
  exact absurd horder (by decide +kernel)

/-- The accented key stands behind the other one before normalisation as it does after it. -/
theorem canonicalJson_eq_iff_accented :
    canonicalJson Sample.compose
        (.object [("e\u0301", .number (.int 1)), ("a", .string "e\u0301")]) =
      canonicalJson Sample.compose (.object [("a", .string "é"), ("é", .number (.int 1))]) := by
  have hequiv : Equivalent Sample.compose
      (.object [("e\u0301", .number (.int 1)), ("a", .string "e\u0301")])
      (.object [("a", .string "é"), ("é", .number (.int 1))]) :=
    ⟨_, [("é", .number (.int 1)), ("a", .string "é")], rfl, List.Perm.swap _ _ _,
      _, _, _, rfl, by decide +kernel, rfl, _, _, _, rfl, rfl, ⟨_, rfl, by decide +kernel⟩, rfl⟩
  have hplain : Plain (.object [("e\u0301", .number (.int 1)), ("a", .string "e\u0301")]) :=
    ⟨trivial, trivial, trivial⟩
  have hv : DistinctKeys Sample.compose
      (.object [("e\u0301", .number (.int 1)), ("a", .string "e\u0301")]) :=
    ⟨by decide +kernel, trivial, trivial, trivial⟩
  have hw : DistinctKeys Sample.compose
      (.object [("a", .string "é"), ("é", .number (.int 1))]) :=
    ⟨by decide +kernel, trivial, trivial, trivial⟩
  refine (canonicalJson_eq_iff hequiv hplain hv hw).mpr ⟨?_, ?_⟩
  · unfold SameOrder
    decide +kernel
  · refine ⟨fun e _ _ ↦ ?_, fun e _ _ ↦ ?_, trivial⟩
    · cases e.2 <;> simp [KeysAlike]
    · cases e.2 <;> simp [KeysAlike]

end NovaChat
