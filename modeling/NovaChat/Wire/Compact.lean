import NovaChat.Protocol
import Mathlib.Tactic.IntervalCases
import Mathlib.Data.Nat.Notation

/-!
# Compact JSON

The text of a JSON value without whitespace, its entries in the order they are listed in.  No such
text is the beginning of another but for numbers, which end where their characters do; so a text has
one value only.
-/

namespace NovaChat

/-! ## Strings -/

/-- The code of a hexadecimal digit. -/
def hexValue (c : Char) : ℕ := if c.toNat < 0x3a then c.toNat - 0x30 else c.toNat - 0x57

/-- Read a character off its escape. -/
def readEscaped : List Char → Option (Char × List Char)
  | '\\' :: 'u' :: '0' :: '0' :: a :: b :: text =>
    some (Char.ofNat (hexValue a * 16 + hexValue b), text)
  | '\\' :: 'b' :: text => some (Char.ofNat 0x08, text)
  | '\\' :: 't' :: text => some ('\t', text)
  | '\\' :: 'n' :: text => some ('\n', text)
  | '\\' :: 'f' :: text => some (Char.ofNat 0x0c, text)
  | '\\' :: 'r' :: text => some ('\r', text)
  | '\\' :: c :: text => some (c, text)
  | c :: text => some (c, text)
  | [] => none

theorem readEscaped_of_ne {c : Char} (hc : c ≠ '\\') (text : List Char) :
    readEscaped (c :: text) = some (c, text) := by
  unfold readEscaped
  split <;> simp_all

theorem readEscaped_escapeChar (c : Char) (text : List Char) :
    readEscaped ((escapeChar c).toList ++ text) = some (c, text) := by
  by_cases hquote : c = '"'
  · subst hquote
    rfl
  by_cases hslash : c = '\\'
  · subst hslash
    rfl
  by_cases hsmall : c.toNat < 0x20
  · have hc : Char.ofNat c.toNat = c := Char.ofNat_toNat c
    rw [← hc]
    generalize c.toNat = n at hsmall ⊢
    interval_cases n <;> rfl
  · have hplain : escapeChar c = String.singleton c := by
      have hne : ∀ d : Char, c ≠ d → c.toNat ≠ d.toNat := fun d hd heq ↦
        hd (Char.toNat_inj.mp heq)
      have h22 := hne '"' hquote
      have h5c := hne '\\' hslash
      simp only [Char.reduceToNat] at h22 h5c
      unfold escapeChar
      split <;> first
        | omega
        | rw [if_neg hsmall]
    rw [hplain, String.toList_singleton]
    exact readEscaped_of_ne hslash text

theorem escapeChar_inj {c d : Char} {text text' : List Char}
    (h : (escapeChar c).toList ++ text = (escapeChar d).toList ++ text') :
    c = d ∧ text = text' := by
  have hread := congrArg readEscaped h
  rw [readEscaped_escapeChar, readEscaped_escapeChar] at hread
  exact Prod.mk.inj (Option.some.inj hread)

theorem escapeChar_eq_cons (c : Char) :
    ∃ a rest, (escapeChar c).toList = a :: rest ∧ a ≠ '"' := by
  have hread := readEscaped_escapeChar c []
  rw [List.append_nil] at hread
  cases hescape : (escapeChar c).toList with
  | nil =>
      rw [hescape] at hread
      cases hread
  | cons a rest =>
      refine ⟨a, rest, rfl, ?_⟩
      rintro rfl
      rw [hescape, readEscaped_of_ne (by decide)] at hread
      obtain ⟨rfl, -⟩ := Prod.mk.inj (Option.some.inj hread)
      exact absurd hescape (by simp [escapeChar])

/-- The characters between the quotation marks. -/
def escaped (s : List Char) : List Char := s.flatMap fun c ↦ (escapeChar c).toList

theorem escaped_cons (c : Char) (s : List Char) :
    escaped (c :: s) = (escapeChar c).toList ++ escaped s := rfl

theorem toList_join (l : List String) : (String.join l).toList = l.flatMap String.toList := by
  induction l with
  | nil => rfl
  | cons s l ih => rw [String.join_cons, String.toList_append, ih, List.flatMap_cons]

theorem writeJsonString_eq (s : String) :
    (writeJsonString s).toList = '"' :: (escaped s.toList ++ ['"']) := by
  rw [writeJsonString, String.toList_append, String.toList_append, toList_join, List.flatMap_map]
  rfl

theorem escaped_inj {s t text text' : List Char}
    (h : escaped s ++ '"' :: text = escaped t ++ '"' :: text') : s = t ∧ text = text' := by
  induction s generalizing t with
  | nil =>
      cases t with
      | nil => exact ⟨rfl, (List.cons.inj h).2⟩
      | cons d t =>
          obtain ⟨a, rest, hescape, ha⟩ := escapeChar_eq_cons d
          rw [escaped_cons, hescape] at h
          exact absurd (List.cons.inj h).1.symm ha
  | cons c s ih =>
      cases t with
      | nil =>
          obtain ⟨a, rest, hescape, ha⟩ := escapeChar_eq_cons c
          rw [escaped_cons, hescape] at h
          exact absurd (List.cons.inj h).1 ha
      | cons d t =>
          rw [escaped_cons, escaped_cons, List.append_assoc, List.append_assoc] at h
          obtain ⟨rfl, hrest⟩ := escapeChar_inj h
          obtain ⟨rfl, htext⟩ := ih hrest
          exact ⟨rfl, htext⟩

theorem writeJsonString_inj {s t : String} {text text' : List Char}
    (h : (writeJsonString s).toList ++ text = (writeJsonString t).toList ++ text') :
    s = t ∧ text = text' := by
  simp only [writeJsonString_eq, List.cons_append, List.append_assoc, List.nil_append,
    List.cons.injEq, true_and] at h
  obtain ⟨hs, htext⟩ := escaped_inj h
  exact ⟨String.toList_inj.mp hs, htext⟩

/-! ## Values -/

mutual

/-- The text of a value. -/
def compact : Value → List Char
  | .null => "null".toList
  | .bool b => if b then "true".toList else "false".toList
  | .number n => n.text.toList
  | .string s => (writeJsonString s).toList
  | .array [] => ['[', ']']
  | .array (v :: vs) => '[' :: (compact v ++ (moreItems vs ++ [']']))
  | .object [] => ['\x7b', '\x7d']
  | .object ((key, v) :: map) =>
    '\x7b' :: ((writeJsonString key).toList ++ ':' :: (compact v ++ (moreEntries map ++ ['\x7d'])))

/-- The text of further items. -/
def moreItems : List Value → List Char
  | [] => []
  | v :: vs => ',' :: (compact v ++ moreItems vs)

/-- The text of further entries. -/
def moreEntries : List (String × Value) → List Char
  | [] => []
  | (key, v) :: map =>
    ',' :: ((writeJsonString key).toList ++ ':' :: (compact v ++ moreEntries map))

end

/-! ## Numbers -/

/-- The characters only floats are written with. -/
def floatMark (c : Char) : Bool := c = '.' || c = 'e' || c = 'E'

def numberChar (c : Char) : Bool := c.isDigit || c = '-' || c = '+' || floatMark c

/-- A number is written with the characters of numbers, and a float not like an integer. -/
def Number.Plain : Number → Prop
  | .int _ => True
  | .float t => t.toList.all numberChar = true ∧ t.toList.any floatMark = true

theorem toList_toString_int (n : ℤ) : ∃ (sign : List Char) (m : ℕ),
    (toString n).toList = sign ++ Nat.toDigits 10 m ∧
      (sign = [] ∧ n = m ∨ sign = ['-'] ∧ n = -(m : ℤ)) := by
  cases n with
  | ofNat m => exact ⟨[], m, String.toList_ofList, .inl ⟨rfl, rfl⟩⟩
  | negSucc m =>
      refine ⟨['-'], m + 1, ?_, .inr ⟨rfl, rfl⟩⟩
      rw [show toString (Int.negSucc m) = "-" ++ (m + 1).repr from rfl, String.toList_append,
        Nat.repr, String.toList_ofList, String.toList_ofList]

theorem isDigit_of_mem_toDigits {m : ℕ} {c : Char} (hc : c ∈ Nat.toDigits 10 m) :
    c.isDigit = true :=
  Nat.isDigit_of_mem_toDigits (by decide) (by decide) hc

theorem toString_int_inj {n m : ℤ} (h : (toString n).toList = (toString m).toList) : n = m := by
  have hdigits : ∀ {a b : ℕ}, Nat.toDigits 10 a = Nat.toDigits 10 b → a = b := by
    intro a b hab
    rw [← Nat.ofDigitChars_ten_toDigits (n := a), hab, Nat.ofDigitChars_ten_toDigits]
  have hminus : ∀ {a b : ℕ}, Nat.toDigits 10 a ≠ '-' :: Nat.toDigits 10 b := by
    intro a b hab
    exact absurd (isDigit_of_mem_toDigits (hab ▸ List.mem_cons_self)) (by decide)
  obtain ⟨sign, a, ha, hn⟩ := toList_toString_int n
  obtain ⟨sign', b, hb, hm⟩ := toList_toString_int m
  rw [ha, hb] at h
  rcases hn with ⟨rfl, rfl⟩ | ⟨rfl, rfl⟩ <;> rcases hm with ⟨rfl, rfl⟩ | ⟨rfl, rfl⟩
  · rw [hdigits h]
  · exact absurd h hminus
  · exact absurd h.symm hminus
  · rw [hdigits (List.cons.inj h).2]

theorem numberChar_toString_int (n : ℤ) :
    ∀ c ∈ (toString n).toList, numberChar c = true ∧ floatMark c = false := by
  have hdigit : ∀ c : Char, c.isDigit = true → floatMark c = false := by
    intro c hc
    cases hmark : floatMark c with
    | false => rfl
    | true =>
        simp only [floatMark, Bool.or_eq_true, decide_eq_true_eq] at hmark
        rcases hmark with (rfl | rfl) | rfl <;> exact absurd hc (by decide)
  obtain ⟨sign, m, hm, hsign⟩ := toList_toString_int n
  rw [hm]
  intro c hc
  rcases List.mem_append.mp hc with h | h
  · rcases hsign with ⟨rfl, -⟩ | ⟨rfl, -⟩
    · exact (List.not_mem_nil h).elim
    · obtain rfl := List.mem_singleton.mp h
      decide
  · have hc := isDigit_of_mem_toDigits h
    exact ⟨by simp [numberChar, hc], hdigit c hc⟩

theorem Number.Plain.numberChar {n : Number} (h : n.Plain) :
    ∀ c ∈ n.text.toList, numberChar c = true := by
  cases n with
  | int n => exact fun c hc ↦ (numberChar_toString_int n c hc).1
  | float t => exact List.all_eq_true.mp h.1

theorem Number.Plain.eq_cons {n : Number} (h : n.Plain) :
    ∃ c text, n.text.toList = c :: text ∧ NovaChat.numberChar c = true := by
  cases htext : n.text.toList with
  | nil =>
      cases n with
      | int n =>
          obtain ⟨sign, m, hm, -⟩ := toList_toString_int n
          rw [Number.text, hm] at htext
          exact absurd (List.append_eq_nil_iff.mp htext).2 Nat.toDigits_ne_nil
      | float t =>
          have hmark := h.2
          rw [show t.toList = [] from htext] at hmark
          cases hmark
  | cons c text => exact ⟨c, text, rfl, h.numberChar c (by rw [htext]; exact List.mem_cons_self)⟩

theorem Number.Plain.eq_of_text {n m : Number} (hn : n.Plain) (hm : m.Plain)
    (h : n.text.toList = m.text.toList) : n = m := by
  have hfloat : ∀ {k : ℤ} {t : String}, (Number.float t).Plain →
      (toString k).toList ≠ t.toList := by
    intro k t ht heq
    obtain ⟨c, hc, hmark⟩ := List.any_eq_true.mp ht.2
    rw [(numberChar_toString_int k c (heq ▸ hc)).2] at hmark
    cases hmark
  match n, m with
  | .int a, .int b => rw [toString_int_inj h]
  | .int a, .float t => exact absurd h (hfloat hm)
  | .float t, .int a => exact absurd h.symm (hfloat hn)
  | .float t, .float u => exact congrArg Number.float (String.toList_inj.mp h)

section Numbers

variable (P : Number → Prop)

mutual

/-- Every number in the value has the property. -/
def Numbers : Value → Prop
  | .number n => P n
  | .array items => NumbersItems items
  | .object map => NumbersEntries map
  | _ => True

def NumbersItems : List Value → Prop
  | [] => True
  | v :: vs => Numbers v ∧ NumbersItems vs

def NumbersEntries : List (String × Value) → Prop
  | [] => True
  | (_, v) :: map => Numbers v ∧ NumbersEntries map

end

end Numbers

/-- Every number is written as numbers are. -/
abbrev Plain (v : Value) : Prop := Numbers Number.Plain v

/-- A number ends here. -/
def Ends (text : List Char) : Prop := ∀ c ∈ text.head?, numberChar c = false

theorem ends_cons {c : Char} {text : List Char} (hc : numberChar c = false) : Ends (c :: text) := by
  intro d hd
  obtain rfl := Option.some.inj hd
  exact hc

/-- The first character tells which kind of value follows. -/
def kindOf : Char → ℕ
  | 'n' => 0
  | 't' => 1
  | 'f' => 2
  | '"' => 4
  | '[' => 5
  | '\x7b' => 6
  | _ => 3

def Value.kind : Value → ℕ
  | null => 0
  | bool b => if b then 1 else 2
  | number _ => 3
  | string _ => 4
  | array _ => 5
  | object _ => 6

theorem kindOf_numberChar {c : Char} (h : numberChar c = true) : kindOf c = 3 := by
  unfold kindOf
  split <;> first
    | rfl
    | exact absurd h (by decide)

/-- A text begins with a character of its kind, and not like the end of a list. -/
theorem compact_eq_cons {v : Value} (h : Plain v) : ∃ c text, compact v = c :: text ∧
    kindOf c = v.kind ∧ c ≠ ']' ∧ c ≠ '\x7d' := by
  match v with
  | .null => exact ⟨'n', _, rfl, rfl, by decide⟩
  | .bool true => exact ⟨'t', _, rfl, rfl, by decide⟩
  | .bool false => exact ⟨'f', _, rfl, rfl, by decide⟩
  | .number n =>
      obtain ⟨c, text, htext, hc⟩ := Number.Plain.eq_cons h
      refine ⟨c, text, htext, kindOf_numberChar hc, ?_, ?_⟩ <;> rintro rfl <;>
        exact absurd hc (by decide)
  | .string s => exact ⟨'"', _, writeJsonString_eq s, rfl, by decide⟩
  | .array [] => exact ⟨'[', _, rfl, rfl, by decide⟩
  | .array (v :: vs) => exact ⟨'[', _, by rw [compact], rfl, by decide⟩
  | .object [] => exact ⟨'\x7b', _, rfl, rfl, by decide⟩
  | .object ((key, v) :: map) => exact ⟨'\x7b', _, by rw [compact], rfl, by decide⟩

theorem kind_eq {v w : Value} {text text' : List Char} (hv : Plain v) (hw : Plain w)
    (h : compact v ++ text = compact w ++ text') : v.kind = w.kind := by
  obtain ⟨c, rest, hcv, hkv, -⟩ := compact_eq_cons hv
  obtain ⟨d, rest', hcw, hkw, -⟩ := compact_eq_cons hw
  rw [hcv, hcw] at h
  rw [← hkv, ← hkw, (List.cons.inj h).1]

theorem ends_moreItems (vs : List Value) (text : List Char) :
    Ends (moreItems vs ++ ']' :: text) := by
  cases vs with
  | nil => exact ends_cons (by decide)
  | cons v vs =>
      rw [moreItems]
      exact ends_cons (by decide)

theorem ends_moreEntries (map : List (String × Value)) (text : List Char) :
    Ends (moreEntries map ++ '\x7d' :: text) := by
  cases map with
  | nil => exact ends_cons (by decide)
  | cons e map =>
      rw [moreEntries]
      exact ends_cons (by decide)

theorem numberText_inj {n m : Number} {text text' : List Char} (hn : n.Plain) (hm : m.Plain)
    (hends : Ends text) (hends' : Ends text')
    (h : n.text.toList ++ text = m.text.toList ++ text') : n = m ∧ text = text' := by
  have htake : ∀ {n : Number} {text : List Char}, n.Plain → Ends text →
      (n.text.toList ++ text).takeWhile numberChar = n.text.toList := by
    intro n text hn hends
    rw [List.takeWhile_append_of_pos hn.numberChar]
    cases text with
    | nil => exact List.append_nil _
    | cons c text =>
        rw [List.takeWhile_cons_of_neg (by simp [hends c rfl]), List.append_nil]
  have hsame : n.text.toList = m.text.toList := by
    rw [← htake hn hends, h, htake hm hends']
  rw [hsame] at h
  exact ⟨hn.eq_of_text hm hsame, List.append_cancel_left h⟩

mutual

/-- No text of a value is the beginning of another. -/
theorem compact_inj : ∀ (v : Value) {w : Value} {text text' : List Char}, Plain v → Plain w →
    Ends text → Ends text' → compact v ++ text = compact w ++ text' → v = w ∧ text = text'
  | .null, w, _, _, hv, hw, _, _, h => by
      have hkind := kind_eq hv hw h
      match w with
      | .null => exact ⟨rfl, List.append_cancel_left h⟩
      | .bool true | .bool false | .number _ | .string _ | .array _ | .object _ => cases hkind
  | .bool b, w, _, _, hv, hw, _, _, h => by
      have hkind := kind_eq hv hw h
      match b, w with
      | true, .bool true => exact ⟨rfl, List.append_cancel_left h⟩
      | false, .bool false => exact ⟨rfl, List.append_cancel_left h⟩
      | true, .bool false | true, .null | true, .number _ | true, .string _ | true, .array _
      | true, .object _ | false, .bool true | false, .null | false, .number _ | false, .string _
      | false, .array _ | false, .object _ => cases hkind
  | .number n, w, _, _, hv, hw, hends, hends', h => by
      have hkind := kind_eq hv hw h
      match w with
      | .number m =>
          obtain ⟨rfl, htext⟩ := numberText_inj hv hw hends hends' h
          exact ⟨rfl, htext⟩
      | .null | .bool true | .bool false | .string _ | .array _ | .object _ => cases hkind
  | .string s, w, _, _, hv, hw, _, _, h => by
      have hkind := kind_eq hv hw h
      match w with
      | .string t =>
          obtain ⟨rfl, htext⟩ := writeJsonString_inj h
          exact ⟨rfl, htext⟩
      | .null | .bool true | .bool false | .number _ | .array _ | .object _ => cases hkind
  | .array vs, w, _, _, hv, hw, _, _, h => by
      have hkind := kind_eq hv hw h
      match vs, w with
      | [], .array [] => exact ⟨rfl, List.append_cancel_left h⟩
      | [], .array (w :: ws) =>
          obtain ⟨c, rest, hcw, -, hc, -⟩ := compact_eq_cons hw.1
          simp only [compact, List.cons_append, List.cons.injEq, true_and, hcw] at h
          exact absurd h.1.symm hc
      | v :: vs, .array [] =>
          obtain ⟨c, rest, hcv, -, hc, -⟩ := compact_eq_cons hv.1
          simp only [compact, List.cons_append, List.cons.injEq, true_and, hcv] at h
          exact absurd h.1 hc
      | v :: vs, .array (w :: ws) =>
          simp only [compact, List.cons_append, List.append_assoc, List.cons.injEq, true_and,
            List.nil_append] at h
          obtain ⟨rfl, hmore⟩ := compact_inj v hv.1 hw.1 (ends_moreItems vs _)
            (ends_moreItems ws _) h
          obtain ⟨rfl, htext⟩ := moreItems_inj vs hv.2 hw.2 hmore
          exact ⟨rfl, htext⟩
      | _, .null | _, .bool true | _, .bool false | _, .number _ | _, .string _
      | _, .object _ => cases hkind
  | .object map, w, _, _, hv, hw, _, _, h => by
      have hkind := kind_eq hv hw h
      match map, w with
      | [], .object [] => exact ⟨rfl, List.append_cancel_left h⟩
      | [], .object ((key', w) :: map') =>
          simp [compact, writeJsonString_eq] at h
      | (key, v) :: map, .object [] =>
          simp [compact, writeJsonString_eq] at h
      | (key, v) :: map, .object ((key', w) :: map') =>
          simp only [compact, List.cons_append, List.append_assoc, List.cons.injEq, true_and,
            List.nil_append] at h
          obtain ⟨rfl, hrest⟩ := writeJsonString_inj h
          simp only [List.cons.injEq, true_and] at hrest
          obtain ⟨rfl, hmore⟩ := compact_inj v hv.1 hw.1 (ends_moreEntries map _)
            (ends_moreEntries map' _) hrest
          obtain ⟨rfl, htext⟩ := moreEntries_inj map hv.2 hw.2 hmore
          exact ⟨rfl, htext⟩
      | _, .null | _, .bool true | _, .bool false | _, .number _ | _, .string _
      | _, .array _ => cases hkind

theorem moreItems_inj : ∀ (vs : List Value) {ws : List Value} {text text' : List Char},
    NumbersItems Number.Plain vs → NumbersItems Number.Plain ws →
      moreItems vs ++ ']' :: text = moreItems ws ++ ']' :: text' → vs = ws ∧ text = text'
  | [], ws, _, _, _, _, h => by
      cases ws with
      | nil => exact ⟨rfl, (List.cons.inj h).2⟩
      | cons w ws =>
          rw [moreItems, moreItems] at h
          exact absurd (List.cons.inj h).1 (by decide)
  | v :: vs, ws, _, _, hv, hw, h => by
      cases ws with
      | nil =>
          rw [moreItems, moreItems] at h
          exact absurd (List.cons.inj h).1 (by decide)
      | cons w ws =>
          simp only [moreItems, List.cons_append, List.append_assoc, List.cons.injEq,
            true_and] at h
          obtain ⟨rfl, hrest⟩ := compact_inj v hv.1 hw.1 (ends_moreItems vs _)
            (ends_moreItems ws _) h
          obtain ⟨rfl, htext⟩ := moreItems_inj vs hv.2 hw.2 hrest
          exact ⟨rfl, htext⟩

theorem moreEntries_inj : ∀ (map : List (String × Value)) {map' : List (String × Value)}
    {text text' : List Char}, NumbersEntries Number.Plain map → NumbersEntries Number.Plain map' →
      moreEntries map ++ '\x7d' :: text = moreEntries map' ++ '\x7d' :: text' →
        map = map' ∧ text = text'
  | [], map', _, _, _, _, h => by
      cases map' with
      | nil => exact ⟨rfl, (List.cons.inj h).2⟩
      | cons e map' =>
          rw [moreEntries, moreEntries] at h
          exact absurd (List.cons.inj h).1 (by decide)
  | (key, v) :: map, map', _, _, hv, hw, h => by
      match map' with
      | [] =>
          rw [moreEntries, moreEntries] at h
          exact absurd (List.cons.inj h).1 (by decide)
      | (key', w) :: map' =>
          simp only [moreEntries, List.cons_append, List.append_assoc, List.cons.injEq,
            true_and] at h
          obtain ⟨rfl, hrest⟩ := writeJsonString_inj h
          simp only [List.cons.injEq, true_and] at hrest
          obtain ⟨rfl, hmore⟩ := compact_inj v hv.1 hw.1 (ends_moreEntries map _)
            (ends_moreEntries map' _) hrest
          obtain ⟨rfl, htext⟩ := moreEntries_inj map hv.2 hw.2 hmore
          exact ⟨rfl, htext⟩

end

end NovaChat
