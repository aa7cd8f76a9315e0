import NovaChat.Wire.Reread

/-!
# Events through a carrier

An event is written as compact JSON, and a sibling process reads it back.  The parser of JSON stops
at a nesting depth of 128, and the only part of an event that nests freely are the parameters of the
tools in a response object.
-/

namespace NovaChat

/-! ## Nesting -/

mutual

/-- How many arrays and objects stand around the innermost value. -/
def nesting : Value → ℕ
  | .array items => nestingItems items + 1
  | .object map => nestingEntries map + 1
  | _ => 0

def nestingItems : List Value → ℕ
  | [] => 0
  | v :: vs => max (nesting v) (nestingItems vs)

def nestingEntries : List (String × Value) → ℕ
  | [] => 0
  | (_, v) :: map => max (nesting v) (nestingEntries map)

end

@[simp] theorem nesting_ofNat (n : ℕ) : nesting (.ofNat n) = 0 := rfl

@[simp] theorem nestingEntries_append (map map' : List (String × Value)) :
    nestingEntries (map ++ map') = max (nestingEntries map) (nestingEntries map') := by
  induction map with
  | nil => simp [nestingEntries]
  | cons e map ih => rw [List.cons_append, nestingEntries, nestingEntries, ih, max_assoc]

theorem nestingItems_map_le {α : Type} {f : α → Value} {n : ℕ} {l : List α} :
    nestingItems (l.map f) ≤ n ↔ ∀ a ∈ l, nesting (f a) ≤ n := by
  induction l with
  | nil => simp [nestingItems]
  | cons a l ih => rw [List.map_cons, nestingItems, max_le_iff, ih, List.forall_mem_cons]

theorem nestingEntries_optEntry {α : Type} (key : String) {render : α → Value}
    (h : ∀ a, nesting (render a) = 0) (o : Option α) :
    nestingEntries (optEntry key render o) = 0 := by
  cases o with
  | none => rfl
  | some a => rw [optEntry, nestingEntries, nestingEntries, h, max_self]

@[simp] theorem nestingEntries_string (key : String) (o : Option String) :
    nestingEntries (optEntry key .string o) = 0 :=
  nestingEntries_optEntry key (fun _ ↦ by simp [nesting]) o

@[simp] theorem nestingEntries_text {α : Type} (key : String) (f : α → String) (o : Option α) :
    nestingEntries (optEntry key (fun a ↦ .string (f a)) o) = 0 :=
  nestingEntries_optEntry key (fun _ ↦ by simp [nesting]) o

@[simp] theorem nestingEntries_bool (key : String) (o : Option Bool) :
    nestingEntries (optEntry key .bool o) = 0 :=
  nestingEntries_optEntry key (fun _ ↦ by simp [nesting]) o

@[simp] theorem nestingEntries_ofNat (key : String) (o : Option ℕ) :
    nestingEntries (optEntry key Value.ofNat o) = 0 :=
  nestingEntries_optEntry key nesting_ofNat o

theorem nesting_part (part : ContentPart) : nesting part.toValue = 1 := by
  cases part <;> simp [ContentPart.toValue, nesting, nestingEntries]

theorem nesting_item (item : ResponseItem) : nesting item.toValue ≤ 3 := by
  cases item with
  | message role content id status =>
      have hcontent : nestingItems (content.map ContentPart.toValue) ≤ 1 :=
        nestingItems_map_le.mpr fun part _ ↦ (nesting_part part).le
      simp only [ResponseItem.toValue, nesting, nestingEntries, nestingEntries_append,
        nestingEntries_string, nestingEntries_text, List.cons_append]
      omega
  | functionCall callId name arguments id status =>
      simp [ResponseItem.toValue, nesting, nestingEntries]
  | functionCallOutput callId output id status =>
      simp [ResponseItem.toValue, nesting, nestingEntries]

theorem nesting_tool (tool : Tool) : nesting tool.toValue = nesting tool.parameters + 1 := by
  cases tool
  simp [Tool.toValue, Tool.parameters, nesting, nestingEntries]

theorem nestingEntries_metadata (map : Metadata) :
    nestingEntries (map.map fun e ↦ (e.1, e.2.toValue)) = 0 := by
  induction map with
  | nil => rfl
  | cons e map ih =>
      have hvalue : nesting e.2.toValue = 0 := by
        cases e.2 <;> simp [MetadataValue.toValue, nesting]
      rw [List.map_cons, nestingEntries, hvalue, ih, max_self]

/-- Within a response object only the parameters of tools can nest deeply. -/
theorem nesting_response_le {o : ResponseObject} {n : ℕ} (hn : 2 ≤ n) :
    nesting o.toValue ≤ n + 3 ↔ ∀ tool ∈ o.tools, nesting tool.parameters ≤ n := by
  have hitems : ∀ items : List ResponseItem,
      nestingItems (items.map ResponseItem.toValue) ≤ 3 := fun items ↦
    nestingItems_map_le.mpr fun item _ ↦ nesting_item item
  have hinput := hitems o.input
  have houtput := hitems o.output
  have hconversation : nestingEntries
      (optEntry "conversation" ConversationRef.toValue o.conversation) ≤ 1 := by
    rcases o.conversation with _ | _ | _ <;>
      simp [optEntry, ConversationRef.toValue, nestingEntries, nesting]
  have hinstructions : nesting ((o.instructions.map Value.string).getD .null) = 0 := by
    cases o.instructions <;> simp [nesting]
  have htoolChoice : nestingEntries
      (optEntry "tool_choice" ToolChoice.toValue o.toolChoice) ≤ 1 := by
    rcases o.toolChoice with _ | _ | _ <;>
      simp [optEntry, ToolChoice.toValue, nestingEntries, nesting]
  have hmetadata : nestingEntries (ResponseObject.nonempty "metadata"
      (fun map ↦ .object (map.map fun e ↦ (e.1, e.2.toValue))) o.metadata) ≤ 1 := by
    cases o.metadata with
    | nil => simp [ResponseObject.nonempty, nestingEntries]
    | cons e map =>
        rw [ResponseObject.nonempty, if_neg (by simp), nestingEntries, nestingEntries, nesting,
          nestingEntries_metadata, max_eq_left (Nat.zero_le _)]
  have husage : nesting o.usage.toValue = 1 := by
    simp [Usage.toValue, nesting, nestingEntries]
  have htools : nestingEntries (ResponseObject.nonempty "tools"
      (fun tools ↦ .array (tools.map Tool.toValue)) o.tools) ≤ n + 2 ↔
        ∀ tool ∈ o.tools, nesting tool.parameters ≤ n := by
    cases o.tools with
    | nil => simp [ResponseObject.nonempty, nestingEntries]
    | cons tool tools =>
        rw [ResponseObject.nonempty, if_neg (by simp), nestingEntries, nestingEntries, nesting,
          max_eq_left (Nat.zero_le _), Nat.succ_le_succ_iff, nestingItems_map_le]
        exact forall₂_congr fun t _ ↦ by rw [nesting_tool, Nat.succ_le_succ_iff]
  rw [← htools]
  simp only [ResponseObject.toValue, ResponseObject.entries, nesting, nestingEntries,
    nestingEntries_append, nestingEntries_string, nesting_ofNat, List.cons_append]
  omega

/-- No tool's parameters nest more deeply. -/
def EventBody.ParametersNest (n : ℕ) : EventBody → Prop
  | .response object => ∀ tool ∈ object.tools, nesting tool.parameters ≤ n
  | _ => True

theorem nesting_wire_le {w : WireEvent} {n : ℕ} (hn : 2 ≤ n) :
    nesting w.toValue ≤ n + 4 ↔ w.body.ParametersNest n := by
  have hattempt : nesting ((w.attempt.map fun a ↦ Value.ofNat a.val).getD .null) = 0 := by
    cases w.attempt <;> simp [nesting]
  have hbody : nestingEntries w.body.entries ≤ n + 3 ↔ w.body.ParametersNest n := by
    cases w.body with
    | response object =>
        rw [EventBody.entries, nestingEntries, nestingEntries, max_eq_left (Nat.zero_le _)]
        exact nesting_response_le hn
    | item outputIndex added =>
        have hitem := nesting_item added
        refine iff_of_true ?_ trivial
        simp only [EventBody.entries, nestingEntries, nesting_ofNat]
        omega
    | delta _ _ _ _ =>
        exact iff_of_true (by simp [EventBody.entries, nestingEntries, nesting]) trivial
    | arguments _ _ _ =>
        exact iff_of_true (by simp [EventBody.entries, nestingEntries, nesting]) trivial
    | text _ _ _ _ =>
        exact iff_of_true (by simp [EventBody.entries, nestingEntries, nesting]) trivial
    | part _ _ _ content =>
        exact iff_of_true (by simp [EventBody.entries, nestingEntries, nesting, nesting_part])
          trivial
  rw [← hbody]
  simp only [WireEvent.toValue, WireEvent.entries, nesting, nestingEntries, nestingEntries_append,
    nestingEntries_ofNat, List.cons_append]
  omega

/-! ## There and back -/

/-- The compact JSON text of a value. -/
def toText (v : Value) : String := String.ofList (compact v)

/-- How the parser of JSON reads what has been written: up to a nesting depth of 127, number by
number.  Integers of 64 bits come back; a float may come back as a neighbour. -/
structure JsonReads (fromStr : String → Option Value) (read : Number → Option Number) : Prop where
  ints : ∀ n : ℤ, -2 ^ 63 ≤ n → n < 2 ^ 64 → ComesBack read (.int n)
  text : ∀ v : Value, Plain v →
    fromStr (toText v) = if nesting v ≤ 127 then reread read v else none

/-- The form in which a carrier gets an event, or gives it back with its number. -/
def WireEvent.of (e : AppendEvent) : Option ℕ → WireEvent
  | none => ofAppendEvent e
  | some n => ofResponseEvent ⟨n, e⟩

/-- What is sent. -/
def wireText (e : AppendEvent) (sequenceNumber : Option ℕ) : String :=
  toText (WireEvent.of e sequenceNumber).toValue

/-- What is made of it. -/
def ofWireText (fromStr : String → Option Value) (parseStr : String → Option Uuid)
    (text : String) : Option (AppendEvent × Option ℕ) := do
  let w ← WireEvent.ofValue parseStr (← fromStr text)
  return (w.toAppendEvent, w.sequenceNumber)

theorem WireEvent.of_spec (e : AppendEvent) (seq : Option ℕ) :
    (of e seq).body = e.body ∧ (of e seq).sequenceNumber = seq ∧
      (of e seq).toAppendEvent = e := by
  cases seq <;> exact ⟨rfl, rfl, rfl⟩

section Carried

variable {fromStr : String → Option Value} {read : Number → Option Number}
  {parseStr : String → Option Uuid}

/-- What is made of an event, by its depth on the wire and its numbers. -/
theorem ofWireText_wireText (hread : JsonReads fromStr read)
    (huuid : ∀ u : Uuid, parseStr u.text = some u) {e : AppendEvent} {seq : Option ℕ}
    (hbody : e.body.Typed) (hseq : ∀ n ∈ seq, n ≤ u64Max)
    (hplain : e.body.NumbersIn Number.Plain) :
    ofWireText fromStr parseStr (wireText e seq) =
      if nesting (WireEvent.of e seq).toValue ≤ 127 then
        (e.body.reread read).map fun body ↦ ({ e with body }, seq)
      else none := by
  obtain ⟨hwbody, hwseq, hwevent⟩ := WireEvent.of_spec e seq
  have hint : ∀ n : ℕ, n ≤ u64Max → ComesBack read (.int n) := fun n hn ↦ by
    have hlt : n < 2 ^ 64 := Nat.lt_of_le_of_lt hn (by decide)
    exact hread.ints n (by omega) (by exact_mod_cast hlt)
  have htyped : (WireEvent.of e seq).body.Typed := by rwa [hwbody]
  have hnumber : ∀ n ∈ (WireEvent.of e seq).sequenceNumber, n ≤ u64Max := by rwa [hwseq]
  have hwritten : Plain (WireEvent.of e seq).toValue :=
    numbers_wire (fun _ _ ↦ trivial) htyped hnumber (by rwa [hwbody])
  rw [ofWireText, wireText, hread.text _ hwritten]
  split
  · rw [reread_wire hint htyped hnumber, hwbody]
    cases hreread : e.body.reread read with
    | none => rfl
    | some body =>
        have hvalue : WireEvent.ofValue parseStr ({ WireEvent.of e seq with body }).toValue =
            some { WireEvent.of e seq with body } :=
          WireEvent.ofValue_toValue huuid (hbody.reread hreread) hnumber
        rw [Option.map_some, Option.bind_eq_bind, Option.bind_some, hvalue]
        cases seq <;> rfl
  · rfl

/-- An event and its number come back exactly when the parameters of tools are not too deep and
the numbers a caller chose are read back. -/
theorem ofWireText_wireText_iff (hread : JsonReads fromStr read)
    (huuid : ∀ u : Uuid, parseStr u.text = some u) {e : AppendEvent} {seq : Option ℕ}
    (hbody : e.body.Typed) (hseq : ∀ n ∈ seq, n ≤ u64Max)
    (hplain : e.body.NumbersIn Number.Plain) :
    ofWireText fromStr parseStr (wireText e seq) = some (e, seq) ↔
      e.body.ParametersNest 123 ∧ e.body.NumbersIn (ComesBack read) := by
  have hdepth := nesting_wire_le (w := WireEvent.of e seq) (n := 123) (by decide)
  rw [(WireEvent.of_spec e seq).1] at hdepth
  rw [ofWireText_wireText hread huuid hbody hseq hplain, ← hdepth, ← EventBody.reread_eq_self_iff]
  split
  · next hle =>
      rw [Option.map_eq_some_iff]
      cases e
      simp [hle]
  · next hgt => exact iff_of_false (by simp) fun h ↦ hgt h.1

end Carried

namespace Sample

/-! ### Floats as they are read and written -/

/-- `2 ^ e`. -/
def pow2 : ℤ → ℚ
  | .ofNat n => 2 ^ n
  | .negSucc n => 1 / 2 ^ (n + 1)

/-- The nearest integer, the even one between two. -/
def roundEven (x : ℚ) : ℤ :=
  let low := x.floor
  if x - low < 1 / 2 then low
  else if 1 / 2 < x - low then low + 1
  else if low % 2 = 0 then low
  else low + 1

/-- The double nearest to a number in the range of the normal ones: its binary exponent is that of
the number, and 52 bits stand behind the first. -/
def nearest (x : ℚ) : ℚ :=
  let guess : ℤ := (x.num.natAbs.log2 : ℤ) - x.den.log2
  let ulp := pow2 ((if pow2 guess ≤ x then guess else guess - 1) - 52)
  roundEven (x / ulp) * ulp

/-- `serde_json`'s reader of a float without its feature `float_roundtrip`: the digits make one
double, which is divided by a power of ten.  Only decimals without sign and exponent are read. -/
def f64FromParts (text : String) : Option ℚ :=
  let whole := text.toList.takeWhile (· ≠ '.')
  let fraction := (text.toList.dropWhile (· ≠ '.')).drop 1
  let significand := (whole ++ fraction).foldl (fun n c ↦ n * 10 + (c.toNat - '0'.toNat)) 0
  if (whole ++ fraction).all Char.isDigit && !fraction.isEmpty && significand ≤ u64Max then
    some (nearest (nearest significand / nearest (10 ^ fraction.length)))
  else none

/-- The shortest decimal that is nearest to no other double. -/
def shortest (x : ℚ) : Option String :=
  (List.range 17).findSome? fun n ↦
    let scale : ℕ := 10 ^ (n + 1)
    let scaled : ℕ := (roundEven (x * scale)).toNat
    if nearest (mkRat scaled scale) = x then
      some (toString (scaled / scale) ++ "." ++
        String.ofList ((Nat.toDigits 10 (scaled % scale)).leftpad (n + 1) '0'))
    else none

/-- What becomes of a number that is written and read. -/
def read : Number → Option Number
  | .int n => some (.int n)
  | .float text => some (.float (((f64FromParts text).bind shortest).getD text))

example : read (.float "94.527069555392231") = some (.float "94.52706955539223") := by
  decide +kernel

open Classical in
/-- The value a text is the text of with its numbers as they are read, if it is not nested too
deeply. -/
noncomputable def fromStr (text : String) : Option Value :=
  if h : ∃ v, Plain v ∧ toText v = text then
    if nesting h.choose ≤ 127 then reread read h.choose else none
  else none

theorem fromStr_reads : JsonReads fromStr read where
  ints _ _ _ := rfl
  text v hv := by
    have h : ∃ v', Plain v' ∧ toText v' = toText v := ⟨v, hv, rfl⟩
    have hsame : h.choose = v := by
      have htext : compact h.choose = compact v := by
        simpa only [toText, String.toList_ofList] using congrArg String.toList h.choose_spec.2
      have hends : Ends [] := by rintro _ ⟨⟩
      exact (compact_inj _ h.choose_spec.1 hv hends hends (congrArg (· ++ []) htext)).1
    rw [fromStr, dif_pos h, hsame]

/-- The number a list of digits stands for. -/
def hexNumber (text : List Char) : ℕ := text.foldl (fun n c ↦ n * 16 + hexValue c) 0

/-- Read a uuid in its hyphenated form. -/
def parseStr (text : String) : Option Uuid :=
  if text.toList.length = 36 then
    some ⟨BitVec.ofNat 128 (hexNumber (text.toList.filter (· != '-')))⟩
  else none

theorem hexValue_digitChar {d : ℕ} (h : d < 16) : hexValue d.digitChar = d := by
  interval_cases d <;> rfl

theorem hexNumber_digits (k n : ℕ) :
    hexNumber ((List.range k).map fun i ↦ Nat.digitChar (n / 16 ^ (k - 1 - i) % 16)) =
      n % 16 ^ k := by
  induction k generalizing n with
  | zero => simp [hexNumber, Nat.mod_one]
  | succ k ih =>
      have hfirst : ((List.range k).map fun i ↦ Nat.digitChar (n / 16 ^ (k + 1 - 1 - i) % 16)) =
          (List.range k).map fun i ↦ Nat.digitChar (n / 16 / 16 ^ (k - 1 - i) % 16) := by
        refine List.map_congr_left fun i hi ↦ ?_
        have hlt := List.mem_range.mp hi
        rw [Nat.div_div_eq_div_mul, ← Nat.pow_succ', show k + 1 - 1 - i = k - 1 - i + 1 by omega]
      have hlast : hexValue (Nat.digitChar (n / 16 ^ (k + 1 - 1 - k) % 16)) = n % 16 := by
        rw [hexValue_digitChar (Nat.mod_lt _ (by decide)), Nat.add_sub_cancel, Nat.sub_self,
          Nat.pow_zero, Nat.div_one]
      have hvalue := ih (n / 16)
      rw [hexNumber] at hvalue
      rw [hexNumber, List.range_succ, List.map_append, List.foldl_append, hfirst, hvalue,
        List.map_singleton, List.foldl_cons, List.foldl_nil, hlast, Nat.pow_succ', Nat.mod_mul]
      omega

theorem filter_digits (u : Uuid) : u.text.toList.filter (· != '-') = u.digits := by
  have hdigit : ∀ c ∈ u.digits, (c != '-') = true := by
    intro c hc
    obtain ⟨i, -, rfl⟩ := List.mem_map.mp hc
    have hlt : u.bits.toNat / 16 ^ (31 - i) % 16 < 16 := Nat.mod_lt _ (by decide)
    generalize u.bits.toNat / 16 ^ (31 - i) % 16 = d at hlt
    interval_cases d <;> decide
  have htake : ∀ (m n : ℕ), ((u.digits.drop m).take n).filter (· != '-') =
      (u.digits.drop m).take n := fun m n ↦
    List.filter_eq_self.mpr fun c hc ↦ hdigit c (List.mem_of_mem_drop (List.mem_of_mem_take hc))
  have hdrop : (u.digits.drop 20).filter (· != '-') = u.digits.drop 20 :=
    List.filter_eq_self.mpr fun c hc ↦ hdigit c (List.mem_of_mem_drop hc)
  have hhead : (u.digits.take 8).filter (· != '-') = u.digits.take 8 := htake 0 8
  have hdash : ∀ text : List Char, ('-' :: text).filter (· != '-') = text.filter (· != '-') :=
    fun _ ↦ rfl
  have hjoin : ∀ m, (u.digits.drop m).take 4 ++ u.digits.drop (m + 4) = u.digits.drop m := by
    intro m
    rw [← List.drop_drop, List.take_append_drop]
  rw [Uuid.text, String.toList_ofList]
  simp only [List.filter_append, hdash, htake, hdrop, hhead, List.append_assoc]
  rw [hjoin 16, hjoin 12, hjoin 8, List.take_append_drop]

theorem parseStr_text (u : Uuid) : parseStr u.text = some u := by
  have hvalue : hexNumber u.digits = u.bits.toNat := by
    rw [Uuid.digits, show (31 : ℕ) = 32 - 1 from rfl, hexNumber_digits]
    exact Nat.mod_eq_of_lt u.bits.isLt
  rw [parseStr, if_pos u.length_text, filter_digits, hvalue, BitVec.ofNat_toNat]
  rfl

def responseId : ResponseId := ⟨⟨"n1", by decide⟩, ⟨0⟩⟩

/-- A value inside as many arrays. -/
def buried : ℕ → Value
  | 0 => .null
  | n + 1 => .array [buried n]

theorem nesting_buried (n : ℕ) : nesting (buried n) = n := by
  induction n with
  | zero => simp [buried, nesting]
  | succ n ih => rw [buried, nesting, nestingItems, nestingItems, ih, max_eq_left (Nat.zero_le n)]

theorem numbers_buried {P : Number → Prop} (n : ℕ) : Numbers P (buried n) := by
  induction n with
  | zero => trivial
  | succ n ih => exact ⟨ih, trivial⟩

/-- The response has been created, with one tool whose parameters are nested and with metadata. -/
def createdWith (depth : ℕ) (metadata : Metadata) : AppendEvent :=
  .lifecycle responseId .created
    { ResponseObject.terminalStub responseId .queued with
      tools := [.function "f" none (buried depth) none], metadata }

theorem createdWith_typed (depth : ℕ) (metadata : Metadata) :
    (createdWith depth metadata).body.Typed :=
  ⟨Nat.zero_le _, Nat.zero_le _, Nat.zero_le _⟩

theorem createdWith_numbers {P : Number → Prop} (depth : ℕ) {metadata : Metadata}
    (h : ∀ e ∈ metadata, Numbers P e.2.toValue) :
    (createdWith depth metadata).body.NumbersIn P := by
  refine ⟨fun tool htool ↦ ?_, h⟩
  obtain rfl := List.mem_singleton.mp htool
  exact numbers_buried depth

/-- Metadata with one float. -/
def measured : Metadata := [("t", .number (.float "94.52706955539223"))]

theorem measured_plain : ∀ e ∈ measured, Plain e.2.toValue := by
  intro e he
  obtain rfl := List.mem_singleton.mp he
  exact ⟨by decide, by decide⟩

end Sample

theorem ofWireText_wireText_iff_created :
    ofWireText Sample.fromStr Sample.parseStr
        (wireText (Sample.createdWith 3 [("t", .number (.float "0.5"))]) (some 7)) =
      some (Sample.createdWith 3 [("t", .number (.float "0.5"))], some 7) := by
  have hfloat : ∀ P : Number → Prop, P (.float "0.5") →
      ∀ e ∈ [("t", MetadataValue.number (.float "0.5"))], Numbers P e.2.toValue := by
    intro P h e he
    obtain rfl := List.mem_singleton.mp he
    exact h
  refine (ofWireText_wireText_iff Sample.fromStr_reads Sample.parseStr_text
    (Sample.createdWith_typed 3 _) ?_ (Sample.createdWith_numbers 3 (hfloat _ ?_))).mpr ⟨?_, ?_⟩
  · intro n hn
    obtain rfl := Option.some.inj hn
    decide
  · exact ⟨by decide, by decide⟩
  · intro tool htool
    obtain rfl := List.mem_singleton.mp htool
    rw [Tool.parameters, Sample.nesting_buried]
    decide
  · exact Sample.createdWith_numbers 3 (hfloat _ (by unfold ComesBack; decide +kernel))

/-- A float among the metadata comes back as its neighbour. -/
theorem measured_lost :
    ofWireText Sample.fromStr Sample.parseStr
        (wireText (Sample.createdWith 0 Sample.measured) none) ≠
      some (Sample.createdWith 0 Sample.measured, none) := by
  intro hback
  have hread := (ofWireText_wireText_iff Sample.fromStr_reads Sample.parseStr_text
    (Sample.createdWith_typed 0 _) (fun n hn ↦ by cases hn)
    (Sample.createdWith_numbers 0 Sample.measured_plain)).mp hback
  have hfloat : ComesBack Sample.read (.float "94.52706955539223") :=
    hread.2.2 _ List.mem_cons_self
  exact absurd hfloat (by unfold ComesBack; decide +kernel)

end NovaChat
