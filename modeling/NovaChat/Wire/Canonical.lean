import NovaChat.Wire.Compact
import Mathlib.Data.List.Basic

/-!
# The canonical text

The canonical text of a value is the compact text of the value brought into normal form: strings and
keys normalised, entries in the order of the keys as they were.  As compact texts have one value
only, two values have the same canonical text exactly when they have the same normal form.

Items are tagged objects without numbers, so the canonical text of a list of items tells the items
apart up to the normalisation of their strings.
-/

namespace NovaChat

/-! ## Normal forms -/

section Normal

variable (nfc : String → String)

mutual

/-- The value whose compact text is the canonical text. -/
def normal : Value → Value
  | .null => .null
  | .bool b => .bool b
  | .number n => .number n
  | .string s => .string (nfc s)
  | .array items => .array (normalItems items)
  | .object map => .object ((sortedEntries (normalEntries map)).map fun e ↦ (nfc e.1, e.2))

def normalItems : List Value → List Value
  | [] => []
  | v :: vs => normal v :: normalItems vs

def normalEntries : List (String × Value) → List (String × Value)
  | [] => []
  | (key, val) :: rest => (key, normal val) :: normalEntries rest

end

end Normal

variable {nfc : String → String}

theorem normalItems_eq_map (vs : List Value) : normalItems nfc vs = vs.map (normal nfc) := by
  induction vs with
  | nil => rfl
  | cons v vs ih => rw [normalItems, ih, List.map_cons]

theorem normalEntries_eq_map (map : List (String × Value)) :
    normalEntries nfc map = map.map fun e ↦ (e.1, normal nfc e.2) := by
  induction map with
  | nil => rfl
  | cons e map ih => rw [normalEntries, ih, List.map_cons]

/-! ## Canonical texts are compact texts -/

theorem intercalate_moreItems (v : Value) (vs : List Value) :
    [','].intercalate (compact v :: vs.map compact) = compact v ++ moreItems vs := by
  induction vs generalizing v with
  | nil => rw [List.map_nil, List.intercalate_singleton, moreItems, List.append_nil]
  | cons w vs ih =>
      rw [List.map_cons, List.intercalate_cons_cons, ih, moreItems, List.append_assoc]
      rfl

theorem compact_array (vs : List Value) :
    compact (.array vs) = '[' :: ([','].intercalate (vs.map compact) ++ [']']) := by
  cases vs with
  | nil => rfl
  | cons v vs => rw [compact, List.map_cons, intercalate_moreItems, List.append_assoc]

/-- The text of one entry. -/
def entryText (key : String) (text : List Char) : List Char :=
  (writeJsonString key).toList ++ ':' :: text

theorem intercalate_moreEntries (e : String × Value) (map : List (String × Value)) :
    [','].intercalate (entryText e.1 (compact e.2) ::
        map.map fun e ↦ entryText e.1 (compact e.2)) =
      entryText e.1 (compact e.2) ++ moreEntries map := by
  induction map generalizing e with
  | nil => rw [List.map_nil, List.intercalate_singleton, moreEntries, List.append_nil]
  | cons e' map ih =>
      rw [List.map_cons, List.intercalate_cons_cons, ih, moreEntries]
      simp only [entryText, List.append_assoc, List.cons_append, List.nil_append]

theorem compact_object (map : List (String × Value)) :
    compact (.object map) =
      '\x7b' :: ([','].intercalate (map.map fun e ↦ entryText e.1 (compact e.2)) ++ ['\x7d']) := by
  cases map with
  | nil => rfl
  | cons e map =>
      rw [compact, List.map_cons, intercalate_moreEntries]
      simp only [entryText, List.append_assoc, List.cons_append]

theorem sortedEntries_map {α β : Type} (f : α → β) (map : List (String × α)) :
    (sortedEntries map).map (fun e ↦ (e.1, f e.2)) =
      sortedEntries (map.map fun e ↦ (e.1, f e.2)) :=
  List.map_mergeSort fun _ _ _ _ ↦ rfl

theorem sortedEntries_perm {α : Type} (map : List (String × α)) :
    (sortedEntries map).Perm map :=
  List.mergeSort_perm _ _

mutual

theorem canonicalJson_eq : ∀ v : Value, (canonicalJson nfc v).toList = compact (normal nfc v)
  | .null => rfl
  | .bool b => by cases b <;> rfl
  | .number n => rfl
  | .string s => rfl
  | .array vs => by
      rw [canonicalJson, normal, compact_array, ← canonicalItemsOf_eq vs, String.toList_append,
        String.toList_append, String.toList_intercalate]
      rfl
  | .object map => by
      rw [canonicalJson, normal, compact_object, String.toList_append, String.toList_append,
        String.toList_intercalate, List.map_map, List.map_map]
      have hentries : (sortedEntries (canonicalEntries nfc map)).map (fun e ↦ (e.1, e.2.toList)) =
          (sortedEntries (normalEntries nfc map)).map fun e ↦ (e.1, compact e.2) := by
        rw [sortedEntries_map, canonicalEntries_eq map, sortedEntries_map]
      have htexts := congrArg (List.map fun e : String × List Char ↦ entryText (nfc e.1) e.2)
        hentries
      rw [List.map_map, List.map_map] at htexts
      rw [show (String.toList ∘ fun e : String × String ↦
          writeJsonString (nfc e.1) ++ ":" ++ e.2) =
            (fun e ↦ entryText (nfc e.1) e.2) ∘ fun e : String × String ↦ (e.1, e.2.toList) from
          funext fun e ↦ by
            rw [Function.comp, String.toList_append, String.toList_append, List.append_assoc]
            rfl, htexts]
      rfl

theorem canonicalItemsOf_eq : ∀ vs : List Value,
    (canonicalItemsOf nfc vs).map String.toList = (normalItems nfc vs).map compact
  | [] => rfl
  | v :: vs => by
      rw [canonicalItemsOf, normalItems, List.map_cons, List.map_cons, canonicalJson_eq v,
        canonicalItemsOf_eq vs]

theorem canonicalEntries_eq : ∀ map : List (String × Value),
    (canonicalEntries nfc map).map (fun e ↦ (e.1, e.2.toList)) =
      (normalEntries nfc map).map fun e ↦ (e.1, compact e.2)
  | [] => rfl
  | (key, v) :: map => by
      rw [canonicalEntries, normalEntries, List.map_cons, List.map_cons, canonicalJson_eq v,
        canonicalEntries_eq map]

end

/-! ## One normal form for each text -/

section Numbers

variable {P : Number → Prop}

theorem numbersEntries_iff {map : List (String × Value)} :
    NumbersEntries P map ↔ ∀ e ∈ map, Numbers P e.2 := by
  induction map with
  | nil => simp [NumbersEntries]
  | cons e map ih => rw [NumbersEntries, ih, List.forall_mem_cons]

mutual

theorem numbers_normal : ∀ {v : Value}, Numbers P v → Numbers P (normal nfc v)
  | .null, _ | .bool _, _ | .string _, _ => trivial
  | .number _, h => h
  | .array _, h => numbersItems_normal h
  | .object map, h => by
      rw [normal, Numbers, numbersEntries_iff]
      rintro _ he
      obtain ⟨e, hmem, rfl⟩ := List.mem_map.mp he
      exact numbersEntries_iff.mp (numbersEntries_normal h) e
        ((sortedEntries_perm _).mem_iff.mp hmem)

theorem numbersItems_normal : ∀ {vs : List Value}, NumbersItems P vs →
    NumbersItems P (normalItems nfc vs)
  | [], _ => trivial
  | _ :: _, h => ⟨numbers_normal h.1, numbersItems_normal h.2⟩

theorem numbersEntries_normal : ∀ {map : List (String × Value)}, NumbersEntries P map →
    NumbersEntries P (normalEntries nfc map)
  | [], _ => trivial
  | (_, _) :: _, h => ⟨numbers_normal h.1, numbersEntries_normal h.2⟩

end

end Numbers

theorem canonicalJson_inj {v w : Value} (hv : Plain v) (hw : Plain w) :
    canonicalJson nfc v = canonicalJson nfc w ↔ normal nfc v = normal nfc w := by
  rw [← String.toList_inj, canonicalJson_eq, canonicalJson_eq]
  constructor
  · intro h
    have hends : Ends [] := by rintro _ ⟨⟩
    exact (compact_inj _ (numbers_normal hv) (numbers_normal hw) hends hends
      (congrArg (· ++ []) h)).1
  · intro h
    rw [h]

/-! ## Items -/

section Items

variable (nfc : String → String)

/-- Every string field normalised. -/
def ContentPart.normalised : ContentPart → ContentPart
  | .inputText text => .inputText (nfc text)
  | .outputText text => .outputText (nfc text)
  | .refusal text => .refusal (nfc text)
  | .inputImage imageUrl fileId detail => .inputImage (imageUrl.map nfc) (fileId.map nfc) detail
  | .inputFile fileId fileUrl filename =>
    .inputFile (fileId.map nfc) (fileUrl.map nfc) (filename.map nfc)

/-- Every string field normalised. -/
def ResponseItem.normalised : ResponseItem → ResponseItem
  | .message role content id status =>
    .message role (content.map (ContentPart.normalised nfc)) (id.map nfc) status
  | .functionCall callId name arguments id status =>
    .functionCall (nfc callId) (nfc name) (nfc arguments) (id.map nfc) status
  | .functionCallOutput callId output id status =>
    .functionCallOutput (nfc callId) (nfc output) (id.map nfc) status

end Items

/-- Text outside the reach of normalisation. -/
def Ascii (s : String) : Prop := s.toList.all (fun c ↦ c.toNat < 0x80) = true

instance : DecidablePred Ascii := fun _ ↦ inferInstanceAs (Decidable (_ = true))

def AsciiKeys (map : List (String × Value)) : Prop := ∀ e ∈ map, Ascii e.1

@[simp] theorem asciiKeys_nil : AsciiKeys [] := fun _ h ↦ (List.not_mem_nil h).elim

@[simp] theorem asciiKeys_cons (e : String × Value) (map : List (String × Value)) :
    AsciiKeys (e :: map) ↔ Ascii e.1 ∧ AsciiKeys map :=
  List.forall_mem_cons

@[simp] theorem asciiKeys_append (map map' : List (String × Value)) :
    AsciiKeys (map ++ map') ↔ AsciiKeys map ∧ AsciiKeys map' :=
  List.forall_mem_append

theorem asciiKeys_optEntry {α : Type} {key : String} (render : α → Value) (o : Option α)
    (hkey : Ascii key) : AsciiKeys (optEntry key render o) := by
  cases o with
  | none => exact fun _ h ↦ (List.not_mem_nil h).elim
  | some a => exact fun e he ↦ by rwa [List.mem_singleton.mp he]

@[simp] theorem normalEntries_nil : normalEntries nfc [] = [] := rfl

@[simp] theorem normalEntries_cons (e : String × Value) (map : List (String × Value)) :
    normalEntries nfc (e :: map) = (e.1, normal nfc e.2) :: normalEntries nfc map := rfl

@[simp] theorem normalEntries_append (map map' : List (String × Value)) :
    normalEntries nfc (map ++ map') = normalEntries nfc map ++ normalEntries nfc map' := by
  rw [normalEntries_eq_map, normalEntries_eq_map, normalEntries_eq_map, List.map_append]

@[simp] theorem normalEntries_optEntry {α : Type} (key : String) (render : α → Value)
    (o : Option α) : normalEntries nfc (optEntry key render o) =
      optEntry key (fun a ↦ normal nfc (render a)) o := by
  cases o <;> rfl

@[simp] theorem optEntry_map (key : String) (o : Option String) :
    optEntry key (fun s ↦ Value.string s) (o.map nfc) =
      optEntry key (fun s ↦ .string (nfc s)) o := by
  cases o <;> rfl

@[simp] theorem mem_optEntry {α : Type} {key : String} {render : α → Value} {o : Option α}
    {e : String × Value} : e ∈ optEntry key render o ↔ ∃ a, o = some a ∧ e = (key, render a) := by
  cases o <;> simp [optEntry]

theorem mem_of_normal_eq {map map' : List (String × Value)}
    (h : normal id (.object map) = normal id (.object map')) (e : String × Value) :
    e ∈ normalEntries id map ↔ e ∈ normalEntries id map' := by
  have hsorted := Value.object.inj h
  simp only [id_eq, Prod.mk.eta, List.map_id'] at hsorted
  rw [← (sortedEntries_perm (normalEntries id map)).mem_iff, hsorted]
  exact (sortedEntries_perm _).mem_iff

variable (hascii : ∀ s, Ascii s → nfc s = s)
include hascii

theorem normal_object_congr {map map' : List (String × Value)} (hkeys : AsciiKeys map)
    (h : normalEntries nfc map = normalEntries id map') :
    normal nfc (.object map) = normal id (.object map') := by
  rw [normal, normal, h]
  congr 1
  refine List.map_congr_left fun e he ↦ Prod.ext ?_ rfl
  have hmem := (sortedEntries_perm _).mem_iff.mp he
  rw [← h, normalEntries_eq_map] at hmem
  obtain ⟨e', he', rfl⟩ := List.mem_map.mp hmem
  exact hascii _ (hkeys e' he')

/-- Normalising a part's strings is all that normalising its object does. -/
theorem normal_part (part : ContentPart) :
    normal nfc part.toValue = normal id (part.normalised nfc).toValue := by
  have hdetail : ∀ d : ImageDetail, nfc d.text = d.text := fun d ↦
    hascii _ (by cases d <;> rfl)
  cases part with
  | inputText text =>
      refine normal_object_congr hascii (by simp +decide) ?_
      simp [normal, hascii "input_text" rfl]
  | outputText text =>
      refine normal_object_congr hascii (by simp +decide) ?_
      simp [normal, hascii "output_text" rfl]
  | refusal text =>
      refine normal_object_congr hascii (by simp +decide) ?_
      simp [normal, hascii "refusal" rfl]
  | inputImage imageUrl fileId detail =>
      refine normal_object_congr hascii (by simp +decide [asciiKeys_optEntry]) ?_
      simp [normal, hascii "input_image" rfl, hdetail]
  | inputFile fileId fileUrl filename =>
      refine normal_object_congr hascii (by simp +decide [asciiKeys_optEntry]) ?_
      simp [normal, hascii "input_file" rfl]

theorem normalItems_parts (content : List ContentPart) :
    normalItems nfc (content.map ContentPart.toValue) =
      normalItems id ((content.map (ContentPart.normalised nfc)).map ContentPart.toValue) := by
  rw [normalItems_eq_map, normalItems_eq_map, List.map_map, List.map_map, List.map_map]
  exact List.map_congr_left fun part _ ↦ normal_part hascii part

/-- Normalising an item's strings is all that normalising its object does. -/
theorem normal_item (item : ResponseItem) :
    normal nfc item.toValue = normal id (item.normalised nfc).toValue := by
  have hrole : ∀ r : Role, nfc r.text = r.text := fun r ↦ hascii _ (by cases r <;> rfl)
  have hstatus : ∀ s : ItemStatus, nfc s.text = s.text := fun s ↦
    hascii _ (by cases s <;> rfl)
  cases item with
  | message role content id status =>
      refine normal_object_congr hascii (by simp +decide [asciiKeys_optEntry]) ?_
      simp [normal, hascii "message" rfl, hrole, hstatus, normalItems_parts hascii]
  | functionCall callId name arguments id status =>
      refine normal_object_congr hascii (by simp +decide [asciiKeys_optEntry]) ?_
      simp [normal, hascii "function_call" rfl, hstatus]
  | functionCallOutput callId output id status =>
      refine normal_object_congr hascii (by simp +decide [asciiKeys_optEntry]) ?_
      simp [normal, hascii "function_call_output" rfl, hstatus]

omit hascii

/-! ### No two items have the same object -/

theorem ImageDetail.text_inj {d d' : ImageDetail} : d.text = d'.text ↔ d = d' := by
  cases d <;> cases d' <;> decide

theorem Role.text_inj {r r' : Role} : r.text = r'.text ↔ r = r' := by
  cases r <;> cases r' <;> decide

theorem ItemStatus.text_inj {s s' : ItemStatus} : s.text = s'.text ↔ s = s' := by
  cases s <;> cases s' <;> decide

theorem toValue_part_inj {x y : ContentPart} (h : normal id x.toValue = normal id y.toValue) :
    x = y := by
  cases x with
  | inputText text =>
      cases y with
      | inputText text' =>
          have htext : text = text' := by
            simpa [normal] using mem_of_normal_eq h ("text", .string text)
          rw [htext]
      | outputText | refusal | inputImage | inputFile =>
          simpa [normal] using mem_of_normal_eq h ("type", .string "input_text")
  | outputText text =>
      cases y with
      | outputText text' =>
          have htext : text = text' := by
            simpa [normal] using mem_of_normal_eq h ("text", .string text)
          rw [htext]
      | inputText | refusal | inputImage | inputFile =>
          simpa [normal] using mem_of_normal_eq h ("type", .string "output_text")
  | refusal text =>
      cases y with
      | refusal text' =>
          have htext : text = text' := by
            simpa [normal] using mem_of_normal_eq h ("refusal", .string text)
          rw [htext]
      | inputText | outputText | inputImage | inputFile =>
          simpa [normal] using mem_of_normal_eq h ("type", .string "refusal")
  | inputImage imageUrl fileId detail =>
      cases y with
      | inputImage imageUrl' fileId' detail' =>
          have hurl : imageUrl = imageUrl' := Option.ext fun s ↦ by
            simpa [normal] using mem_of_normal_eq h ("image_url", .string s)
          have hfile : fileId = fileId' := Option.ext fun s ↦ by
            simpa [normal] using mem_of_normal_eq h ("file_id", .string s)
          have hdetail : detail = detail' := Option.ext fun d ↦ by
            simpa [normal, ImageDetail.text_inj] using
              mem_of_normal_eq h ("detail", .string d.text)
          rw [hurl, hfile, hdetail]
      | inputText | outputText | refusal | inputFile =>
          simpa [normal] using mem_of_normal_eq h ("type", .string "input_image")
  | inputFile fileId fileUrl filename =>
      cases y with
      | inputFile fileId' fileUrl' filename' =>
          have hfile : fileId = fileId' := Option.ext fun s ↦ by
            simpa [normal] using mem_of_normal_eq h ("file_id", .string s)
          have hurl : fileUrl = fileUrl' := Option.ext fun s ↦ by
            simpa [normal] using mem_of_normal_eq h ("file_url", .string s)
          have hname : filename = filename' := Option.ext fun s ↦ by
            simpa [normal] using mem_of_normal_eq h ("filename", .string s)
          rw [hfile, hurl, hname]
      | inputText | outputText | refusal | inputImage =>
          simpa [normal] using mem_of_normal_eq h ("type", .string "input_file")

theorem normalItems_map_inj {α : Type} {f : α → Value}
    (hf : ∀ {a b : α}, normal id (f a) = normal id (f b) → a = b) {l l' : List α}
    (h : normalItems id (l.map f) = normalItems id (l'.map f)) : l = l' := by
  rw [normalItems_eq_map, normalItems_eq_map, List.map_map, List.map_map] at h
  exact List.map_injective_iff.mpr (fun a b ↦ hf) h

theorem toValue_item_inj {x y : ResponseItem} (h : normal id x.toValue = normal id y.toValue) :
    x = y := by
  cases x with
  | message role content id' status =>
      cases y with
      | message role' content' id'' status' =>
          have hrole : role = role' := by
            simpa [normal, Role.text_inj] using mem_of_normal_eq h ("role", .string role.text)
          have hcontent : content = content' := normalItems_map_inj toValue_part_inj (by
            simpa [normal] using mem_of_normal_eq h ("content", .array
              (normalItems id (content.map ContentPart.toValue))))
          have hid : id' = id'' := Option.ext fun s ↦ by
            simpa [normal] using mem_of_normal_eq h ("id", .string s)
          have hstatus : status = status' := Option.ext fun s ↦ by
            simpa [normal, ItemStatus.text_inj] using
              mem_of_normal_eq h ("status", .string s.text)
          rw [hrole, hcontent, hid, hstatus]
      | functionCall | functionCallOutput =>
          simpa [normal] using mem_of_normal_eq h ("type", .string "message")
  | functionCall callId name arguments id' status =>
      cases y with
      | functionCall callId' name' arguments' id'' status' =>
          have hcall : callId = callId' := by
            simpa [normal] using mem_of_normal_eq h ("call_id", .string callId)
          have hname : name = name' := by
            simpa [normal] using mem_of_normal_eq h ("name", .string name)
          have harguments : arguments = arguments' := by
            simpa [normal] using mem_of_normal_eq h ("arguments", .string arguments)
          have hid : id' = id'' := Option.ext fun s ↦ by
            simpa [normal] using mem_of_normal_eq h ("id", .string s)
          have hstatus : status = status' := Option.ext fun s ↦ by
            simpa [normal, ItemStatus.text_inj] using
              mem_of_normal_eq h ("status", .string s.text)
          rw [hcall, hname, harguments, hid, hstatus]
      | message | functionCallOutput =>
          simpa [normal] using mem_of_normal_eq h ("type", .string "function_call")
  | functionCallOutput callId output id' status =>
      cases y with
      | functionCallOutput callId' output' id'' status' =>
          have hcall : callId = callId' := by
            simpa [normal] using mem_of_normal_eq h ("call_id", .string callId)
          have houtput : output = output' := by
            simpa [normal] using mem_of_normal_eq h ("output", .string output)
          have hid : id' = id'' := Option.ext fun s ↦ by
            simpa [normal] using mem_of_normal_eq h ("id", .string s)
          have hstatus : status = status' := Option.ext fun s ↦ by
            simpa [normal, ItemStatus.text_inj] using
              mem_of_normal_eq h ("status", .string s.text)
          rw [hcall, houtput, hid, hstatus]
      | message | functionCall =>
          simpa [normal] using mem_of_normal_eq h ("type", .string "function_call_output")

section ItemNumbers

variable {P : Number → Prop}

theorem numbersItems_map {α : Type} {f : α → Value} (hf : ∀ a, Numbers P (f a)) (l : List α) :
    NumbersItems P (l.map f) := by
  induction l with
  | nil => trivial
  | cons a l ih => exact ⟨hf a, ih⟩

theorem numbersEntries_append {map map' : List (String × Value)} :
    NumbersEntries P (map ++ map') ↔ NumbersEntries P map ∧ NumbersEntries P map' := by
  induction map with
  | nil => simp [NumbersEntries]
  | cons e map ih => rw [List.cons_append, NumbersEntries, NumbersEntries, ih, and_assoc]

theorem numbersEntries_optEntry {α : Type} (key : String) (f : α → String) (o : Option α) :
    NumbersEntries P (optEntry key (fun a ↦ .string (f a)) o) := by
  cases o with
  | none => trivial
  | some a => exact ⟨trivial, trivial⟩

theorem numbersEntries_string (key : String) (o : Option String) :
    NumbersEntries P (optEntry key .string o) :=
  numbersEntries_optEntry key id o

theorem numbers_part (part : ContentPart) : Numbers P part.toValue := by
  cases part <;>
    simp [ContentPart.toValue, Numbers, NumbersEntries, numbersEntries_append,
      numbersEntries_optEntry, numbersEntries_string]

theorem numbers_item (item : ResponseItem) : Numbers P item.toValue := by
  cases item <;>
    simp [ResponseItem.toValue, Numbers, NumbersEntries, numbersEntries_append,
      numbersEntries_optEntry, numbersEntries_string, numbersItems_map numbers_part]

end ItemNumbers

/-- Lists of items have the same canonical text only when they are the same up to the normalisation
of their strings. -/
theorem canonicalItems_inj (hascii : ∀ s, Ascii s → nfc s = s) (xs ys : List ResponseItem) :
    canonicalItems nfc xs = canonicalItems nfc ys ↔
      xs.map (ResponseItem.normalised nfc) = ys.map (ResponseItem.normalised nfc) := by
  have hnormal : ∀ l : List ResponseItem, normalItems nfc (l.map ResponseItem.toValue) =
      normalItems id ((l.map (ResponseItem.normalised nfc)).map ResponseItem.toValue) := by
    intro l
    rw [normalItems_eq_map, normalItems_eq_map, List.map_map, List.map_map, List.map_map]
    exact List.map_congr_left fun item _ ↦ normal_item hascii item
  have hplain : ∀ l : List ResponseItem, Plain (.array (l.map ResponseItem.toValue)) := fun l ↦
    numbersItems_map numbers_item l
  rw [canonicalItems, canonicalItems, canonicalJson_inj (hplain xs) (hplain ys), normal, normal,
    hnormal xs, hnormal ys]
  constructor
  · intro h
    exact normalItems_map_inj toValue_item_inj (Value.array.inj h)
  · intro h
    rw [h]

/-- Compose the letter e and an acute accent after it. -/
def Sample.composeChars : List Char → List Char
  | [] => []
  | 'e' :: '\u0301' :: text => 'é' :: Sample.composeChars text
  | c :: text => c :: Sample.composeChars text

def Sample.compose (s : String) : String := String.ofList (Sample.composeChars s.toList)

theorem Sample.compose_ascii {s : String} (h : Ascii s) : Sample.compose s = s := by
  have hchars : ∀ text : List Char, text.all (fun c ↦ c.toNat < 0x80) = true →
      Sample.composeChars text = text := by
    intro text hall
    fun_induction Sample.composeChars text with
    | case1 => rfl
    | case2 text ih => simp at hall
    | case3 c text _ ih =>
        rw [ih (by simp_all)]
  rw [Sample.compose, hchars _ h, String.ofList_toList]

theorem canonicalItems_inj_accents :
    canonicalItems Sample.compose [.message .user [.inputText "cafe\u0301"] none none] =
        canonicalItems Sample.compose [.message .user [.inputText "café"] none none] ↔
      [ResponseItem.message .user [.inputText "cafe\u0301"] none none].map
          (ResponseItem.normalised Sample.compose) =
        [ResponseItem.message .user [.inputText "café"] none none].map
          (ResponseItem.normalised Sample.compose) :=
  canonicalItems_inj (fun _ ↦ Sample.compose_ascii) _ _

end NovaChat
