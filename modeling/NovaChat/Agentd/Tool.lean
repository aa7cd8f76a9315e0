import NovaChat.Agentd.Http

/-!
# The calculator

The tool of the mock runner evaluates one arithmetic expression.  Its parser descends from sums to
products to factors and computes as it reads; what it computes is compared with the value of the
expression the text spells.  The numbers are those of any arithmetic.
-/

namespace NovaChat

/-! ## Expressions -/

inductive BinaryOp
  | add | sub | mul | div
  deriving DecidableEq, Repr

/-- What a text can spell.  A parenthesis or a plus sign leaves no trace. -/
inductive Expression
  | number (raw : String)
  | neg (e : Expression)
  | binary (op : BinaryOp) (a b : Expression)
  deriving DecidableEq, Repr

/-- The numbers a calculator works with: how they are read, written and combined. -/
structure Arithmetic (F : Type) where
  parse : String → Option F
  format : F → String
  isZero : F → Bool
  neg : F → F
  add : F → F → F
  sub : F → F → F
  mul : F → F → F
  div : F → F → F

/-- The bytes of a text that is ASCII. -/
def ascii (bytes : List UInt8) : String := String.ofList (bytes.map fun b ↦ Char.ofNat b.toNat)

section Values

variable {F : Type} (arith : Arithmetic F)

def BinaryOp.apply : BinaryOp → F → F → Except String F
  | add, a, b => .ok (arith.add a b)
  | sub, a, b => .ok (arith.sub a b)
  | mul, a, b => .ok (arith.mul a b)
  | div, a, b => if arith.isZero b then .error "division by zero" else .ok (arith.div a b)

def Arithmetic.number (raw : String) : Except String F :=
  match arith.parse raw with
  | some value => .ok value
  | none => .error s!"invalid number `{raw}`"

/-- The value of an expression, or what first goes wrong from left to right. -/
def Expression.value : Expression → Except String F
  | number raw => arith.number raw
  | neg e => e.value.map arith.neg
  | binary op a b => do
    let x ← a.value
    let y ← b.value
    op.apply arith x y

end Values

/-! ## The grammar -/

def byte (c : Char) : UInt8 := c.toUInt8

def isAsciiWhitespace (b : UInt8) : Bool :=
  b = byte ' ' ∨ b = byte '\t' ∨ b = byte '\n' ∨ b = 0x0c ∨ b = byte '\r'

def isAsciiDigit (b : UInt8) : Bool := byte '0' ≤ b ∧ b ≤ byte '9'

/-- The bytes a number is made of. -/
def isNumberByte (b : UInt8) : Bool := isAsciiDigit b || b = byte '.'

inductive Level
  | factor | term | expr
  deriving DecidableEq, Repr

/-- The operators of a level, by the byte that stands for them. -/
def Level.operator : Level → UInt8 → Option BinaryOp
  | factor, _ => none
  | term, b => if b = byte '*' then some .mul else if b = byte '/' then some .div else none
  | expr, b => if b = byte '+' then some .add else if b = byte '-' then some .sub else none

/-- The level of the operands. -/
def Level.below : Level → Level
  | expr => term
  | _ => factor

/-- Only whitespace. -/
def Blank (bytes : List UInt8) : Prop := ∀ b ∈ bytes, isAsciiWhitespace b = true

/-- The texts that spell an expression at a level, without what may follow them. -/
inductive Phrase : Level → List UInt8 → Expression → Prop
  | number {blank raw} : Blank blank → raw ≠ [] → (∀ b ∈ raw, isNumberByte b = true) →
      Phrase .factor (blank ++ raw) (.number (ascii raw))
  | plus {blank text e} : Blank blank → Phrase .factor text e →
      Phrase .factor (blank ++ byte '+' :: text) e
  | minus {blank text e} : Blank blank → Phrase .factor text e →
      Phrase .factor (blank ++ byte '-' :: text) (.neg e)
  | paren {blank text blank' e} : Blank blank → Phrase .expr text e → Blank blank' →
      Phrase .factor (blank ++ byte '(' :: (text ++ (blank' ++ [byte ')']))) e
  | single {l text e} : l ≠ .factor → Phrase l.below text e → Phrase l text e
  | binary {l text blank b op text' a e} : l.operator b = some op → Phrase l text a →
      Blank blank → Phrase l.below text' e →
      Phrase l (text ++ (blank ++ b :: text')) (.binary op a e)

/-- A whole text spells an expression when only whitespace follows. -/
def Denotes (bytes : List UInt8) (e : Expression) : Prop :=
  ∃ text blank, bytes = text ++ blank ∧ Phrase .expr text e ∧ Blank blank

/-! ## The parser -/

/-- What a stretch of parsing comes to; nothing when its fuel ran out. -/
abbrev Parsed (α : Type) := Option (Except String α)

/-- Go on from a stretch of parsing that went well. -/
def Parsed.andThen {α β : Type} : Parsed α → (α → Parsed β) → Parsed β
  | none, _ => none
  | some (.error m), _ => some (.error m)
  | some (.ok a), f => f a

def skipWhitespace (bytes : List UInt8) : List UInt8 := bytes.dropWhile isAsciiWhitespace

section Parser

variable {F : Type} (arith : Arithmetic F)

def parseNumber (bytes : List UInt8) : Except String (F × List UInt8) :=
  (arith.number (ascii (bytes.takeWhile isNumberByte))).map fun value ↦
    (value, bytes.dropWhile isNumberByte)

/-- The loop over the operators of a level, from the value so far. -/
def operators (l : Level) (operand : List UInt8 → Parsed (F × List UInt8)) :
    ℕ → F → List UInt8 → Parsed (F × List UInt8)
  | 0, _, _ => none
  | rounds + 1, value, bytes =>
    match skipWhitespace bytes with
    | [] => some (.ok (value, []))
    | b :: rest =>
      match l.operator b with
      | none => some (.ok (value, b :: rest))
      | some op => (operand rest).andThen fun x ↦
        match op.apply arith value x.1 with
        | .error m => some (.error m)
        | .ok value => operators l operand rounds value x.2

/-- One operand, and then the loop. -/
def parseLevel (l : Level) (operand : List UInt8 → Parsed (F × List UInt8)) (rounds : ℕ)
    (bytes : List UInt8) : Parsed (F × List UInt8) :=
  (operand bytes).andThen fun x ↦ operators arith l operand rounds x.1 x.2

def parseTerm (factor : List UInt8 → Parsed (F × List UInt8)) (rounds : ℕ) :
    List UInt8 → Parsed (F × List UInt8) :=
  parseLevel arith .term factor rounds

def parseExpr (factor : List UInt8 → Parsed (F × List UInt8)) (rounds : ℕ) :
    List UInt8 → Parsed (F × List UInt8) :=
  parseLevel arith .expr (parseTerm arith factor rounds) rounds

def parseFactor : ℕ → List UInt8 → Parsed (F × List UInt8)
  | 0, _ => none
  | fuel + 1, bytes =>
    match skipWhitespace bytes with
    | [] => some (.error "unexpected end of expression")
    | b :: rest =>
      if b = byte '+' then parseFactor fuel rest
      else if b = byte '-' then
        (parseFactor fuel rest).andThen fun x ↦ some (.ok (arith.neg x.1, x.2))
      else if b = byte '(' then
        (parseExpr arith (parseFactor fuel) fuel rest).andThen fun x ↦
          match skipWhitespace x.2 with
          | [] => some (.error "missing closing parenthesis")
          | b :: rest =>
            if b = byte ')' then some (.ok (x.1, rest))
            else some (.error "missing closing parenthesis")
      else if isNumberByte b then some (parseNumber arith (b :: rest))
      else some (.error s!"unexpected character `{Char.ofNat b.toNat}`")

/-- Evaluate a text of which nothing may be left over. -/
def evaluate (bytes : List UInt8) : Parsed F :=
  (parseExpr arith (parseFactor arith (bytes.length + 1)) (bytes.length + 1) bytes).andThen fun x ↦
    match skipWhitespace x.2 with
    | [] => some (.ok x.1)
    | b :: rest =>
      let pos := bytes.length - (b :: rest).length
      some (.error s!"unexpected character `{Char.ofNat b.toNat}` at position {pos}")

end Parser

/-! ## Whitespace and what follows a phrase -/

@[simp] theorem skipWhitespace_append {blank : List UInt8} (h : Blank blank) (rest : List UInt8) :
    skipWhitespace (blank ++ rest) = skipWhitespace rest :=
  List.dropWhile_append_of_pos h

@[simp] theorem skipWhitespace_skipWhitespace (bytes : List UInt8) :
    skipWhitespace (skipWhitespace bytes) = skipWhitespace bytes :=
  List.dropWhile_idempotent _ _

/-- What is skipped is blank. -/
theorem skipWhitespace_split (bytes : List UInt8) :
    ∃ blank, bytes = blank ++ skipWhitespace bytes ∧ Blank blank :=
  ⟨bytes.takeWhile isAsciiWhitespace, (List.takeWhile_append_dropWhile ..).symm,
    fun _ hb ↦ List.mem_takeWhile_imp hb⟩

theorem skipWhitespace_cons {b : UInt8} (h : isAsciiWhitespace b = false) (rest : List UInt8) :
    skipWhitespace (b :: rest) = b :: rest := by
  simp [skipWhitespace, h]

theorem length_skipWhitespace (bytes : List UInt8) :
    (skipWhitespace bytes).length ≤ bytes.length :=
  List.length_dropWhile_le ..

/-- Where a parser of a level stops: whatever would go on with the phrase does not follow. -/
def Stops (l : Level) (rest : List UInt8) : Prop :=
  (∀ b ∈ rest.head?, isNumberByte b = false) ∧
    ∀ b ∈ (skipWhitespace rest).head?, l.operator b = none ∧ l.below.operator b = none

/-- What a parser of a level leaves of the rest. -/
def Level.leave : Level → List UInt8 → List UInt8
  | .factor, rest => rest
  | _, rest => skipWhitespace rest

@[simp] theorem skipWhitespace_leave (l : Level) (rest : List UInt8) :
    skipWhitespace (l.leave rest) = skipWhitespace rest := by
  cases l <;> simp [Level.leave]

theorem isNumberByte_of_isAsciiWhitespace {b : UInt8} (h : isAsciiWhitespace b = true) :
    isNumberByte b = false := by
  obtain rfl | rfl | rfl | rfl | rfl := of_decide_eq_true h <;> decide

/-- A byte that stands for an operator is neither blank nor part of a number. -/
theorem operator_some {l : Level} {b : UInt8} {op : BinaryOp} (h : l.operator b = some op) :
    isAsciiWhitespace b = false ∧ isNumberByte b = false ∧ l.below.operator b = none := by
  have hbyte : b = byte '*' ∨ b = byte '/' ∨ b = byte '+' ∨ b = byte '-' := by
    cases l <;> simp only [Level.operator] at h <;> grind
  cases l with
  | factor => cases h
  | term => obtain rfl | rfl | rfl | rfl := hbyte <;> exact ⟨by decide, by decide, rfl⟩
  | expr =>
      obtain rfl | rfl | rfl | rfl := hbyte
      · cases h
      · cases h
      · exact ⟨by decide, by decide, by decide⟩
      · exact ⟨by decide, by decide, by decide⟩

/-- Whitespace ends a number. -/
theorem not_number_head {blank rest : List UInt8} (hblank : Blank blank)
    (h : ∀ b ∈ rest.head?, isNumberByte b = false) :
    ∀ b ∈ (blank ++ rest).head?, isNumberByte b = false := by
  intro b hb
  cases blank with
  | nil => exact h b hb
  | cons c blank =>
      obtain rfl : c = b := by simpa using hb
      exact isNumberByte_of_isAsciiWhitespace (hblank c List.mem_cons_self)

/-- A phrase stops before a byte that is no part of it. -/
theorem stops_before {l : Level} {blank : List UInt8} {b : UInt8} (hblank : Blank blank)
    (hspace : isAsciiWhitespace b = false) (hnumber : isNumberByte b = false)
    (hop : l.operator b = none ∧ l.below.operator b = none) (rest : List UInt8) :
    Stops l (blank ++ b :: rest) := by
  refine ⟨not_number_head hblank fun b' hb' ↦ ?_, fun b' hb' ↦ ?_⟩
  · obtain rfl : b = b' := by simpa using hb'
    exact hnumber
  · rw [skipWhitespace_append hblank, skipWhitespace_cons hspace] at hb'
    obtain rfl : b = b' := by simpa using hb'
    exact hop

/-- A phrase stops where an operator of the level above follows. -/
theorem stops_operator {l : Level} {blank : List UInt8} {b : UInt8} {op : BinaryOp}
    (hblank : Blank blank) (h : l.operator b = some op) (rest : List UInt8) :
    Stops l.below (blank ++ b :: rest) := by
  obtain ⟨hspace, hnumber, hbelow⟩ := operator_some h
  apply stops_before hblank hspace hnumber ⟨hbelow, ?_⟩
  cases l <;> rfl

/-- A phrase stops where only whitespace follows. -/
theorem stops_blank {blank : List UInt8} (h : Blank blank) (l : Level) : Stops l blank := by
  have hskip : skipWhitespace blank = [] := List.dropWhile_eq_nil_iff.mpr h
  refine ⟨?_, fun b hb ↦ by simp [hskip] at hb⟩
  have hhead : ∀ b ∈ (blank ++ []).head?, isNumberByte b = false :=
    not_number_head h fun b hb ↦ by simp at hb
  rwa [List.append_nil] at hhead

theorem Stops.below {l : Level} {rest : List UInt8} (h : Stops l rest) : Stops l.below rest := by
  refine ⟨h.1, fun b hb ↦ ⟨(h.2 b hb).2, ?_⟩⟩
  cases l <;> rfl

/-! ## Loops over operators -/

section Levels

variable {F : Type} {arith : Arithmetic F} {l : Level} {n rounds : ℕ}
  {operand : List UInt8 → Parsed (F × List UInt8)} {bytes rest : List UInt8} {v v' : F}

@[simp] theorem andThen_some_ok {α β : Type} (a : α) (f : α → Parsed β) :
    Parsed.andThen (some (.ok a)) f = f a := rfl

/-- What went well in the end went well on the way. -/
theorem andThen_eq_ok {α β : Type} {p : Parsed α} {f : α → Parsed β} {b : β}
    (h : p.andThen f = some (.ok b)) : ∃ a, p = some (.ok a) ∧ f a = some (.ok b) := by
  match p with
  | none => cases h
  | some (.error m) => cases h
  | some (.ok a) => exact ⟨a, rfl, h⟩

/-- The parser reads the phrases of a level off the front of texts shorter than `n`: it finds no
other phrase, computes the value of the one there is, and comes to an end. -/
structure Reads (arith : Arithmetic F) (l : Level) (n : ℕ)
    (parse : List UInt8 → Parsed (F × List UInt8)) : Prop where
  sound : ∀ {bytes v rest}, parse bytes = some (.ok (v, rest)) → ∃ text blank e,
    bytes = text ++ (blank ++ rest) ∧ Phrase l text e ∧ Blank blank ∧ e.value arith = .ok v
  complete : ∀ {text e rest}, Phrase l text e → Stops l rest → (text ++ rest).length < n →
    parse (text ++ rest) = some ((e.value arith).map fun v ↦ (v, l.leave rest))
  defined : ∀ {bytes}, bytes.length < n → ∃ r, parse bytes = some r

theorem Reads.length_le {parse : List UInt8 → Parsed (F × List UInt8)} (h : Reads arith l n parse)
    (hparse : parse bytes = some (.ok (v, rest))) : rest.length ≤ bytes.length := by
  obtain ⟨text, blank, e, rfl, -⟩ := h.sound hparse
  simp only [List.length_append]
  omega

/-- The loop comes to an end. -/
theorem operators_defined (h : Reads arith l.below n operand) :
    ∀ {rounds : ℕ} {bytes : List UInt8} {v : F}, bytes.length < rounds → bytes.length < n →
      ∃ r, operators arith l operand rounds v bytes = some r := by
  intro rounds
  induction rounds with
  | zero => exact fun hlen _ ↦ absurd hlen (Nat.not_lt_zero _)
  | succ rounds ih =>
      intro bytes v hlen hn
      have hskip := length_skipWhitespace bytes
      rw [operators]
      cases hbytes : skipWhitespace bytes with
      | nil => exact ⟨_, rfl⟩
      | cons b rest =>
          rw [hbytes, List.length_cons] at hskip
          dsimp only
          cases hop : l.operator b with
          | none => exact ⟨_, rfl⟩
          | some op =>
              obtain ⟨r, hr⟩ : ∃ r, operand rest = some r := h.defined (by omega)
              dsimp only
              rw [hr]
              match r with
              | .error m => exact ⟨_, rfl⟩
              | .ok (y, rest') =>
                  have hrest := h.length_le hr
                  rw [andThen_some_ok]
                  dsimp only
                  cases op.apply arith v y with
                  | error m => exact ⟨_, rfl⟩
                  | ok v' => exact ih (by omega) (by omega)

/-- The loop goes on with the phrase it has. -/
theorem operators_sound (h : Reads arith l.below n operand) :
    ∀ {rounds : ℕ} {bytes : List UInt8} {v : F} {text blank : List UInt8} {a : Expression},
      Phrase l text a → Blank blank → a.value arith = .ok v →
      operators arith l operand rounds v bytes = some (.ok (v', rest)) →
      ∃ text' blank' e, text ++ (blank ++ bytes) = text' ++ (blank' ++ rest) ∧
        Phrase l text' e ∧ Blank blank' ∧ e.value arith = .ok v' := by
  intro rounds
  induction rounds with
  | zero => exact fun _ _ _ hrun ↦ nomatch hrun
  | succ rounds ih =>
      intro bytes v text blank a htext hblank ha hrun
      obtain ⟨skipped, hsplit, hskipped⟩ := skipWhitespace_split bytes
      have hblank' : Blank (blank ++ skipped) := fun b hb ↦
        (List.mem_append.mp hb).elim (hblank b) (hskipped b)
      rw [operators] at hrun
      cases hbytes : skipWhitespace bytes with
      | nil =>
          rw [hbytes] at hrun hsplit
          obtain ⟨rfl, rfl⟩ := Prod.mk.inj (Except.ok.inj (Option.some.inj hrun))
          exact ⟨text, blank ++ skipped, a, by rw [hsplit]; simp, htext, hblank', ha⟩
      | cons b rest' =>
          rw [hbytes] at hrun hsplit
          dsimp only at hrun
          cases hop : l.operator b with
          | none =>
              rw [hop] at hrun
              obtain ⟨rfl, rfl⟩ := Prod.mk.inj (Except.ok.inj (Option.some.inj hrun))
              exact ⟨text, blank ++ skipped, a, by rw [hsplit]; simp, htext, hblank', ha⟩
          | some op =>
              rw [hop] at hrun
              obtain ⟨⟨y, bytes'⟩, hoperand, hnext⟩ := andThen_eq_ok hrun
              dsimp only at hnext
              obtain ⟨text', blank', e, rfl, he, hblank'', hy⟩ := h.sound hoperand
              cases hv : op.apply arith v y with
              | error m =>
                  rw [hv] at hnext
                  cases hnext
              | ok w =>
                  rw [hv] at hnext
                  -- The phrase so far, the operator and its operand are one phrase.
                  have hvalue : (Expression.binary op a e).value arith = .ok w := by
                    rw [Expression.value, ha, hy]
                    exact hv
                  obtain ⟨text'', blank₂, e', heq, h'⟩ :=
                    ih (.binary hop htext hblank' he) hblank'' hvalue hnext
                  exact ⟨text'', blank₂, e', by rw [← heq, hsplit]; simp, h'⟩

/-- A phrase brings the loop from its first operand to its value, with rounds to spare for the rest
of the text. -/
theorem parseLevel_phrase (h : Reads arith l.below n operand) (hl : l ≠ .factor)
    {text : List UInt8} {e : Expression} (he : Phrase l text e) :
    ∀ {rest : List UInt8}, Stops l.below rest → (text ++ rest).length < n →
      (text ++ rest).length < rounds → ∃ rounds', rest.length < rounds' ∧
        parseLevel arith l operand rounds (text ++ rest) =
          Parsed.andThen (some (e.value arith)) fun v ↦
            operators arith l operand rounds' v (l.below.leave rest) := by
  induction he with
  | number _ _ _ => exact absurd rfl hl
  | plus _ _ _ => exact absurd rfl hl
  | minus _ _ _ => exact absurd rfl hl
  | paren _ _ _ _ => exact absurd rfl hl
  | @single l text e _ he _ =>
      intro rest hstop hn hrounds
      refine ⟨rounds, by rw [List.length_append] at hrounds; omega, ?_⟩
      rw [parseLevel, h.complete he hstop hn]
      cases e.value arith <;> rfl
  | @binary l text blank b op text' a e hop ha hblank he ih _ =>
      intro rest hstop hn hrounds
      obtain ⟨hspace, -⟩ := operator_some hop
      have hassoc : text ++ (blank ++ b :: text') ++ rest =
          text ++ (blank ++ b :: (text' ++ rest)) := by simp
      rw [hassoc] at hn hrounds ⊢
      obtain ⟨rounds', hspare, hrun⟩ := ih h hl (stops_operator hblank hop _) hn hrounds
      obtain ⟨k, rfl⟩ : ∃ k, rounds' = k + 1 := ⟨rounds' - 1, by omega⟩
      simp only [List.length_append, List.length_cons] at hspare hn
      refine ⟨k, by omega, ?_⟩
      have hskip : skipWhitespace (l.below.leave (blank ++ b :: (text' ++ rest))) =
          b :: (text' ++ rest) := by
        rw [skipWhitespace_leave, skipWhitespace_append hblank, skipWhitespace_cons hspace]
      rw [hrun, Expression.value]
      cases hv : a.value arith with
      | error m => rfl
      | ok v =>
          rw [andThen_some_ok, operators, hskip]
          dsimp only
          rw [hop]
          dsimp only
          rw [h.complete he hstop (by simp only [List.length_append]; omega)]
          cases e.value arith with
          | error m => rfl
          | ok y =>
              cases happly : op.apply arith v y with
              | error m => simp [Except.map, happly, bind, Except.bind, Parsed.andThen]
              | ok w => simp [Except.map, happly, bind, Except.bind]

/-- A level above a level that reads its phrases reads its own. -/
theorem Reads.level (h : Reads arith l.below n operand) (hl : l ≠ .factor) (hn : n ≤ rounds) :
    Reads arith l n (parseLevel arith l operand rounds) where
  sound := by
    intro bytes v rest hrun
    obtain ⟨⟨x, bytes'⟩, hoperand, hloop⟩ := andThen_eq_ok hrun
    obtain ⟨text, blank, e, rfl, he, hblank, hx⟩ := h.sound hoperand
    exact operators_sound h (.single hl he) hblank hx hloop
  complete := by
    intro text e rest he hstop hlen
    obtain ⟨rounds', hspare, hrun⟩ :=
      parseLevel_phrase h hl he hstop.below hlen (Nat.lt_of_lt_of_le hlen hn)
    obtain ⟨k, rfl⟩ : ∃ k, rounds' = k + 1 := ⟨rounds' - 1, by omega⟩
    have hleave : l.leave rest = skipWhitespace rest := by
      cases l with
      | factor => exact absurd rfl hl
      | term => rfl
      | expr => rfl
    rw [hrun, hleave]
    cases e.value arith with
    | error m => rfl
    | ok v =>
        rw [andThen_some_ok, operators, skipWhitespace_leave]
        cases hbytes : skipWhitespace rest with
        | nil => rfl
        | cons b rest' =>
            have hop : l.operator b = none := (hstop.2 b (by rw [hbytes]; rfl)).1
            dsimp only
            rw [hop]
            rfl
  defined := by
    intro bytes hlen
    obtain ⟨r, hr⟩ : ∃ r, operand bytes = some r := h.defined hlen
    rw [parseLevel, hr]
    match r with
    | .error m => exact ⟨_, rfl⟩
    | .ok (v, rest) =>
        have hrest := h.length_le hr
        exact operators_defined h (by dsimp only; omega) (by dsimp only; omega)

end Levels

/-! ## Factors -/

section Factors

variable {F : Type} {arith : Arithmetic F} {n : ℕ} {bytes rest blank : List UInt8} {b : UInt8}

theorem Reads.term (h : Reads arith .factor n (parseFactor arith n)) :
    Reads arith .term n (parseTerm arith (parseFactor arith n) n) :=
  Reads.level (l := .term) h nofun le_rfl

theorem Reads.expr (h : Reads arith .factor n (parseFactor arith n)) :
    Reads arith .expr n (parseExpr arith (parseFactor arith n) n) :=
  Reads.level (l := .expr) h.term nofun le_rfl

/-- A factor is what stands behind the whitespace. -/
theorem parseFactor_blank (h : Blank blank) (fuel : ℕ) :
    parseFactor arith (fuel + 1) (blank ++ b :: rest) =
      parseFactor arith (fuel + 1) (b :: rest) := by
  rw [parseFactor, parseFactor, skipWhitespace_append h]

/-- A number is all the bytes it can be made of. -/
theorem takeWhile_number {raw : List UInt8} (hraw : ∀ b ∈ raw, isNumberByte b = true)
    (hrest : ∀ b ∈ rest.head?, isNumberByte b = false) :
    (raw ++ rest).takeWhile isNumberByte = raw ∧ (raw ++ rest).dropWhile isNumberByte = rest := by
  rw [List.takeWhile_append_of_pos hraw, List.dropWhile_append_of_pos hraw]
  cases rest with
  | nil => exact ⟨List.append_nil _, rfl⟩
  | cons b rest =>
      have hb : isNumberByte b = false := hrest b rfl
      simp [hb]

theorem isNumberByte_spec (h : isNumberByte b = true) : isAsciiWhitespace b = false ∧
    b ≠ byte '+' ∧ b ≠ byte '-' ∧ b ≠ byte '(' := by
  refine ⟨?_, ?_, ?_, ?_⟩
  · cases hspace : isAsciiWhitespace b with
    | false => rfl
    | true => rw [isNumberByte_of_isAsciiWhitespace hspace] at h; cases h
  all_goals
    rintro rfl
    exact absurd h (by decide)

/-- The parser of factors finds no factor that is not there. -/
theorem parseFactor_sound (ih : Reads arith .factor n (parseFactor arith n)) {v : F}
    (hrun : parseFactor arith (n + 1) bytes = some (.ok (v, rest))) : ∃ text blank e,
      bytes = text ++ (blank ++ rest) ∧ Phrase .factor text e ∧ Blank blank ∧
        e.value arith = .ok v := by
  obtain ⟨skipped, hsplit, hskipped⟩ := skipWhitespace_split bytes
  rw [parseFactor] at hrun
  cases hbytes : skipWhitespace bytes with
  | nil =>
      rw [hbytes] at hrun
      cases hrun
  | cons b tail =>
      rw [hbytes] at hrun hsplit
      dsimp only at hrun
      split_ifs at hrun with hplus hminus hopen hnumber
      · obtain ⟨text, blank, e, rfl, he, hblank, hv⟩ := ih.sound hrun
        refine ⟨skipped ++ byte '+' :: text, blank, e, ?_, .plus hskipped he, hblank, hv⟩
        rw [hsplit, hplus]
        simp
      · obtain ⟨⟨x, bytes'⟩, hfactor, hnext⟩ := andThen_eq_ok hrun
        obtain ⟨rfl, rfl⟩ := Prod.mk.inj (Except.ok.inj (Option.some.inj hnext))
        obtain ⟨text, blank, e, rfl, he, hblank, hv⟩ := ih.sound hfactor
        refine ⟨skipped ++ byte '-' :: text, blank, .neg e, ?_, .minus hskipped he, hblank, ?_⟩
        · rw [hsplit, hminus]
          simp
        · rw [Expression.value, hv]
          rfl
      · obtain ⟨⟨x, bytes'⟩, hexpr, hnext⟩ := andThen_eq_ok hrun
        obtain ⟨text, blank, e, rfl, he, hblank, hv⟩ := ih.expr.sound hexpr
        obtain ⟨skipped', hsplit', hskipped'⟩ := skipWhitespace_split bytes'
        dsimp only at hnext
        cases hbytes' : skipWhitespace bytes' with
        | nil =>
            rw [hbytes'] at hnext
            cases hnext
        | cons b' tail' =>
            rw [hbytes'] at hnext hsplit'
            dsimp only at hnext
            split_ifs at hnext with hclose
            · obtain ⟨rfl, rfl⟩ := Prod.mk.inj (Except.ok.inj (Option.some.inj hnext))
              have hblank' : Blank (blank ++ skipped') := fun b hb ↦
                (List.mem_append.mp hb).elim (hblank b) (hskipped' b)
              refine ⟨_, [], e, ?_, .paren hskipped he hblank', nofun, hv⟩
              rw [hsplit, hsplit', hopen, hclose]
              simp
            · cases hnext
      · have hhead : isNumberByte b = true := hnumber
        obtain ⟨x, hx, hmap⟩ : ∃ x, arith.number (ascii ((b :: tail).takeWhile isNumberByte)) =
            .ok x ∧ (x, (b :: tail).dropWhile isNumberByte) = (v, rest) := by
          have hnext := Option.some.inj hrun
          rw [parseNumber] at hnext
          cases hx : arith.number (ascii ((b :: tail).takeWhile isNumberByte)) with
          | error m =>
              rw [hx] at hnext
              cases hnext
          | ok x =>
              rw [hx] at hnext
              exact ⟨x, rfl, Except.ok.inj hnext⟩
        obtain ⟨rfl, rfl⟩ := Prod.mk.inj hmap
        refine ⟨skipped ++ (b :: tail).takeWhile isNumberByte, [], _, ?_,
          .number hskipped ?_ fun _ hc ↦ List.mem_takeWhile_imp hc, nofun, hx⟩
        · rw [hsplit, List.nil_append, List.append_assoc, List.takeWhile_append_dropWhile]
        · rw [List.takeWhile_cons, if_pos hhead]
          exact List.cons_ne_nil _ _
      · cases hrun

/-- The parser of factors reads every factor. -/
theorem parseFactor_complete (ih : Reads arith .factor n (parseFactor arith n))
    {text : List UInt8} {e : Expression} (he : Phrase .factor text e) (hstop : Stops .factor rest)
    (hlen : (text ++ rest).length < n + 1) :
    parseFactor arith (n + 1) (text ++ rest) =
      some ((e.value arith).map fun v ↦ (v, rest)) := by
  generalize hl : Level.factor = l at he
  cases he with
  | @number blank raw hblank hne hraw =>
      obtain ⟨b, tail, rfl⟩ := List.exists_cons_of_ne_nil hne
      have hb : isNumberByte b = true := hraw b List.mem_cons_self
      obtain ⟨hspace, hplus, hminus, hopen⟩ := isNumberByte_spec hb
      obtain ⟨htake, hdrop⟩ := takeWhile_number hraw hstop.1
      rw [List.append_assoc, List.cons_append, parseFactor_blank hblank, parseFactor,
        skipWhitespace_cons hspace]
      dsimp only
      rw [if_neg hplus, if_neg hminus, if_neg hopen, if_pos hb, parseNumber, ← List.cons_append,
        htake, hdrop]
      rfl
  | @plus blank text e hblank he =>
      simp only [List.append_assoc, List.cons_append, List.length_append, List.length_cons] at hlen
      rw [List.append_assoc, List.cons_append, parseFactor_blank hblank, parseFactor,
        skipWhitespace_cons (by decide)]
      dsimp only
      rw [if_pos rfl, ih.complete he hstop (by rw [List.length_append]; omega)]
      rfl
  | @minus blank text e hblank he =>
      simp only [List.append_assoc, List.cons_append, List.length_append, List.length_cons] at hlen
      rw [List.append_assoc, List.cons_append, parseFactor_blank hblank, parseFactor,
        skipWhitespace_cons (by decide)]
      dsimp only
      rw [if_neg (by decide), if_pos rfl, ih.complete he hstop (by rw [List.length_append]; omega),
        Expression.value]
      cases e.value arith <;> rfl
  | @paren blank text blank' e hblank he hblank' =>
      have hassoc : blank ++ byte '(' :: (text ++ (blank' ++ [byte ')'])) ++ rest =
          blank ++ byte '(' :: (text ++ (blank' ++ byte ')' :: rest)) := by simp
      rw [hassoc] at hlen ⊢
      simp only [List.length_append, List.length_cons] at hlen
      rw [parseFactor_blank hblank, parseFactor, skipWhitespace_cons (by decide)]
      dsimp only
      rw [if_neg (by decide), if_neg (by decide), if_pos rfl,
        ih.expr.complete he (stops_before hblank' (by decide) (by decide) (by decide) rest)
          (by simp only [List.length_append, List.length_cons]; omega)]
      cases e.value arith with
      | error m => rfl
      | ok v =>
          have hskip : skipWhitespace (Level.expr.leave (blank' ++ byte ')' :: rest)) =
              byte ')' :: rest := by
            rw [skipWhitespace_leave, skipWhitespace_append hblank',
              skipWhitespace_cons (by decide)]
          simp only [Except.map, andThen_some_ok, hskip, if_true]
  | single hne _ => exact absurd hl.symm hne
  | binary hop _ _ _ =>
      subst hl
      cases hop

theorem parseFactor_defined (ih : Reads arith .factor n (parseFactor arith n))
    (hlen : bytes.length < n + 1) : ∃ r, parseFactor arith (n + 1) bytes = some r := by
  have hskip := length_skipWhitespace bytes
  rw [parseFactor]
  cases hbytes : skipWhitespace bytes with
  | nil => exact ⟨_, rfl⟩
  | cons b tail =>
      rw [hbytes, List.length_cons] at hskip
      dsimp only
      split_ifs
      · exact ih.defined (by omega)
      · obtain ⟨r, hr⟩ : ∃ r, parseFactor arith n tail = some r := ih.defined (by omega)
        rw [hr]
        cases r <;> exact ⟨_, rfl⟩
      · obtain ⟨r, hr⟩ : ∃ r, parseExpr arith (parseFactor arith n) n tail = some r :=
          ih.expr.defined (by omega)
        rw [hr]
        match r with
        | .error m => exact ⟨_, rfl⟩
        | .ok (v, rest) =>
            rw [andThen_some_ok]
            dsimp only
            cases skipWhitespace rest with
            | nil => exact ⟨_, rfl⟩
            | cons b' tail' =>
                dsimp only
                split_ifs <;> exact ⟨_, rfl⟩
      · exact ⟨_, rfl⟩
      · exact ⟨_, rfl⟩

/-- With as much fuel as there are bytes and one more, factors are read. -/
theorem parseFactor_reads (arith : Arithmetic F) (n : ℕ) :
    Reads arith .factor n (parseFactor arith n) := by
  induction n with
  | zero => exact ⟨nofun, fun _ _ hlen ↦ absurd hlen (Nat.not_lt_zero _),
      fun hlen ↦ absurd hlen (Nat.not_lt_zero _)⟩
  | succ n ih => exact ⟨parseFactor_sound ih, parseFactor_complete ih, parseFactor_defined ih⟩

end Factors

/-! ## Whole texts -/

section Texts

variable {F : Type} {arith : Arithmetic F} {bytes : List UInt8} {e e' : Expression}

/-- The evaluator returns the value of what a text spells. -/
theorem evaluate_of_denotes (h : Denotes bytes e) :
    evaluate arith bytes = some (e.value arith) := by
  obtain ⟨text, blank, rfl, he, hblank⟩ := h
  have hskip : skipWhitespace (Level.expr.leave blank) = [] := by
    rw [skipWhitespace_leave]
    exact List.dropWhile_eq_nil_iff.mpr hblank
  rw [evaluate, (parseFactor_reads arith _).expr.complete he (stops_blank hblank _)
    (Nat.lt_succ_self _)]
  cases e.value arith with
  | error m => rfl
  | ok v => simp only [Except.map, andThen_some_ok, hskip]

/-- What the evaluator returns is the value of something the text spells. -/
theorem denotes_of_evaluate {v : F} (h : evaluate arith bytes = some (.ok v)) :
    ∃ e, Denotes bytes e := by
  obtain ⟨⟨x, rest⟩, hexpr, hnext⟩ := andThen_eq_ok h
  obtain ⟨text, blank, e, hsplit, he, hblank, -⟩ := (parseFactor_reads arith _).expr.sound hexpr
  obtain ⟨skipped, hrest, hskipped⟩ := skipWhitespace_split rest
  dsimp only at hnext
  cases hskip : skipWhitespace rest with
  | cons b tail =>
      rw [hskip] at hnext
      cases hnext
  | nil =>
      rw [hskip, List.append_nil] at hrest
      refine ⟨e, text, blank ++ rest, hsplit, he, fun b hb ↦ ?_⟩
      rw [hrest] at hb
      exact (List.mem_append.mp hb).elim (hblank b) (hskipped b)

theorem evaluate_defined (arith : Arithmetic F) (bytes : List UInt8) :
    ∃ r, evaluate arith bytes = some r := by
  obtain ⟨r, hr⟩ := (parseFactor_reads arith (bytes.length + 1)).expr.defined (Nat.lt_succ_self _)
  rw [evaluate, hr]
  match r with
  | .error m => exact ⟨_, rfl⟩
  | .ok (v, rest) =>
      rw [andThen_some_ok]
      dsimp only
      cases skipWhitespace rest with
      | nil => exact ⟨_, rfl⟩
      | cons b tail => exact ⟨_, rfl⟩

/-- The arithmetic in which every expression is its own value. -/
def Arithmetic.free : Arithmetic Expression where
  parse raw := some (.number raw)
  format _ := ""
  isZero _ := false
  neg := .neg
  add := .binary .add
  sub := .binary .sub
  mul := .binary .mul
  div := .binary .div

theorem value_free (e : Expression) : e.value Arithmetic.free = .ok e := by
  induction e with
  | number raw => rfl
  | neg e ih =>
      rw [Expression.value, ih]
      rfl
  | binary op a b iha ihb =>
      rw [Expression.value, iha, ihb]
      cases op <;> rfl

/-- No text spells two expressions. -/
theorem Denotes.unique (h : Denotes bytes e) (h' : Denotes bytes e') : e = e' := by
  have hvalue : evaluate Arithmetic.free bytes = some (e.value .free) := evaluate_of_denotes h
  rw [evaluate_of_denotes h', value_free, value_free] at hvalue
  exact (Except.ok.inj (Option.some.inj hvalue)).symm

end Texts

/-! ## The tool -/

def toolName : String := "calculate"

/-- The expression among the arguments of a call. -/
def parseExpression (fromStr : String → Except String Value) (arguments : String) :
    Except String String :=
  match fromStr arguments with
  | .error e => .error s!"arguments are not JSON: {e}"
  | .ok value =>
    match value.get "expression" with
    | some (.string s) => .ok s
    | some _ => .error "argument `expression` must be a string"
    | none => .error "missing `expression` argument"

namespace CalculatorTool

variable {F : Type} (fromStr : String → Except String Value) (arith : Arithmetic F)

/-- The text a call is answered with.  What goes wrong is told to the model. -/
def answer : Except String F → String
  | .ok value => arith.format value
  | .error message => "error: " ++ message

def call (tool arguments : String) : Option (Except ToolError String) :=
  if tool ≠ toolName then some (.error (.unknownTool tool))
  else
    match parseExpression fromStr arguments with
    | .error message => some (.ok (answer arith (.error message)))
    | .ok expr => (evaluate arith expr.toUTF8.toList).map fun r ↦ .ok (answer arith r)

/-- A call of the calculator is answered with the value of the one expression its argument spells,
or with an error when it spells none: whatever the numbers are, the text is read with the usual
precedence, from left to right, and all of it is read. -/
theorem call_exact (arguments : String) :
    (∀ message, parseExpression fromStr arguments = .error message →
      call fromStr arith toolName arguments = some (.ok (answer arith (.error message)))) ∧
    ∀ expr, parseExpression fromStr arguments = .ok expr →
      (∃ e, Denotes expr.toUTF8.toList e ∧ (∀ e', Denotes expr.toUTF8.toList e' → e' = e) ∧
        call fromStr arith toolName arguments = some (.ok (answer arith (e.value arith)))) ∨
      (∀ e, ¬ Denotes expr.toUTF8.toList e) ∧ ∃ message,
        call fromStr arith toolName arguments = some (.ok (answer arith (.error message))) := by
  refine ⟨fun message hparse ↦ by simp [call, hparse], fun expr hparse ↦ ?_⟩
  have hcall : call fromStr arith toolName arguments =
      (evaluate arith expr.toUTF8.toList).map fun r ↦ .ok (answer arith r) := by
    simp [call, hparse]
  rw [hcall]
  by_cases hdenotes : ∃ e, Denotes expr.toUTF8.toList e
  · obtain ⟨e, he⟩ := hdenotes
    refine Or.inl ⟨e, he, fun e' he' ↦ he'.unique he, ?_⟩
    rw [evaluate_of_denotes he]
    rfl
  · refine Or.inr ⟨not_exists.mp hdenotes, ?_⟩
    obtain ⟨r, hr⟩ := evaluate_defined arith expr.toUTF8.toList
    cases r with
    | ok v => exact absurd (denotes_of_evaluate hr) hdenotes
    | error message => exact ⟨message, by rw [hr]; rfl⟩

end CalculatorTool

end NovaChat
