import NovaChat.Wire.Fields

/-!
# The carrier's form of an event

A carrier sends an event with its id, its attempt and, once it has one, its number; the fields of
the body stand beside these.  Nothing names the body's variant: the variants are tried in order, and
the first whose fields are all there is taken.
-/

namespace NovaChat

/-! ## Response ids -/

namespace ResponseId

def err : IdError := ⟨"response id", "resp_<node>_<uuid>"⟩

/-- `str::strip_prefix`. -/
def stripPrefix : List Char → List Char → Option (List Char)
  | [], text => some text
  | c :: start, d :: text => if c = d then stripPrefix start text else none
  | _ :: _, [] => none

/-- The node tag has no underscore, so the first one separates it from the uuid. -/
def parse (parseStr : String → Option Uuid) (raw : String) : Except IdError ResponseId :=
  match stripPrefix "resp_".toList raw.toList with
  | none => .error err
  | some rest =>
    match rest.dropWhile (· != '_') with
    | [] => .error err
    | _ :: uuid => do
      let nodeTag ← NodeTag.parse (String.ofList (rest.takeWhile (· != '_')))
      match parseStr (String.ofList uuid) with
      | none => .error err
      | some uuid => .ok ⟨nodeTag, uuid⟩

theorem stripPrefix_append (start text : List Char) :
    stripPrefix start (start ++ text) = some text := by
  induction start with
  | nil => rfl
  | cons c start ih => rw [List.cons_append, stripPrefix, if_pos rfl, ih]

theorem nodeTag_ne_underscore (t : NodeTag) : ∀ c ∈ t.text.toList, (c != '_') = true := by
  intro c hc
  have hvalid := List.all_eq_true.mp t.valid.2 c hc
  rw [bne_iff_ne]
  rintro rfl
  exact absurd hvalid (by decide)

/-- Behind a node tag the first underscore ends it, and the rest is the uuid. -/
theorem parse_append (parseStr : String → Option Uuid) (t : NodeTag) (uuid : String) :
    parse parseStr ("resp_" ++ t.text ++ "_" ++ uuid) =
      match parseStr uuid with
      | none => .error err
      | some u => .ok ⟨t, u⟩ := by
  have hrest : ("resp_" ++ t.text ++ "_" ++ uuid).toList =
      "resp_".toList ++ (t.text.toList ++ '_' :: uuid.toList) := by
    simp
  have hnode := nodeTag_ne_underscore t
  rw [parse, hrest, stripPrefix_append]
  simp only [List.dropWhile_append_of_pos hnode, List.takeWhile_append_of_pos hnode]
  rw [List.dropWhile_cons_of_neg (by decide), List.takeWhile_cons_of_neg (by decide)]
  simp only [List.append_nil, String.ofList_toList, NodeTag.parse_text]
  rfl

theorem parse_text {parseStr : String → Option Uuid}
    (huuid : ∀ u : Uuid, parseStr u.text = some u) (r : ResponseId) :
    parse parseStr r.text = .ok r := by
  rw [text, parse_append, huuid]

end ResponseId

/-! ## Event bodies -/

namespace ResponseEventKind

def asStr : ResponseEventKind → String
  | created => "response.created"
  | inProgress => "response.in_progress"
  | outputTextDelta => "response.output_text.delta"
  | reasoningTextDelta => "response.reasoning_text.delta"
  | outputItemAdded => "response.output_item.added"
  | outputItemDone => "response.output_item.done"
  | functionCallArgumentsDelta => "response.function_call_arguments.delta"
  | functionCallArgumentsDone => "response.function_call_arguments.done"
  | contentPartAdded => "response.content_part.added"
  | contentPartDone => "response.content_part.done"
  | outputTextDone => "response.output_text.done"
  | completed => "response.completed"
  | failed => "response.failed"
  | incomplete => "response.incomplete"

def all : List ResponseEventKind :=
  [created, inProgress, outputTextDelta, reasoningTextDelta, outputItemAdded, outputItemDone,
    functionCallArgumentsDelta, functionCallArgumentsDone, contentPartAdded, contentPartDone,
    outputTextDone, completed, failed, incomplete]

/-- Each name is written once, and read back off the same list. -/
def ofStr (raw : String) : Option ResponseEventKind := all.find? fun kind ↦ kind.asStr = raw

theorem ofStr_asStr (kind : ResponseEventKind) : ofStr kind.asStr = some kind := by
  cases kind <;> decide

end ResponseEventKind

/-- `u32::MAX`. -/
def u32Max : ℕ := 2 ^ 32 - 1

namespace EventBody

/-- The fields of a body, as they stand in the event. -/
def entries : EventBody → List (String × Value)
  | .delta itemId outputIndex contentIndex piece =>
    ("item_id", .string itemId) :: ("output_index", .ofNat outputIndex) ::
      optEntry "content_index" Value.ofNat contentIndex ++ [("delta", .string piece)]
  | .item outputIndex added => [("output_index", .ofNat outputIndex), ("item", added.toValue)]
  | .arguments outputIndex itemId json =>
    [("output_index", .ofNat outputIndex), ("item_id", .string itemId),
      ("arguments", .string json)]
  | .text itemId outputIndex contentIndex whole =>
    [("item_id", .string itemId), ("output_index", .ofNat outputIndex),
      ("content_index", .ofNat contentIndex), ("text", .string whole)]
  | .part itemId outputIndex contentIndex content =>
    [("item_id", .string itemId), ("output_index", .ofNat outputIndex),
      ("content_index", .ofNat contentIndex), ("part", content.toValue)]
  | .response object => [("response", object.toValue)]

section Variants

variable (map : List (String × Value))

def readDelta : Option EventBody := do
  return .delta (← requiredField readString "item_id" map)
    (← requiredField (readNat u32Max) "output_index" map)
    (← optionalField (readNat u32Max) "content_index" map)
    (← requiredField readString "delta" map)

def readItem : Option EventBody := do
  return .item (← requiredField (readNat u32Max) "output_index" map)
    (← requiredField ResponseItem.ofValue "item" map)

def readArguments : Option EventBody := do
  return .arguments (← requiredField (readNat u32Max) "output_index" map)
    (← requiredField readString "item_id" map) (← requiredField readString "arguments" map)

def readText : Option EventBody := do
  return .text (← requiredField readString "item_id" map)
    (← requiredField (readNat u32Max) "output_index" map)
    (← requiredField (readNat u32Max) "content_index" map)
    (← requiredField readString "text" map)

def readPart : Option EventBody := do
  return .part (← requiredField readString "item_id" map)
    (← requiredField (readNat u32Max) "output_index" map)
    (← requiredField (readNat u32Max) "content_index" map)
    (← requiredField ContentPart.ofValue "part" map)

def readResponse : Option EventBody := do
  return .response (← requiredField ResponseObject.ofValue "response" map)

/-- The variants are tried in order; fields a variant does not have are ignored. -/
def ofEntries : Option EventBody :=
  readDelta map <|> readItem map <|> readArguments map <|> readText map <|> readPart map <|>
    readResponse map

end Variants

/-- The numbers fit their types. -/
def Typed : EventBody → Prop
  | .delta _ outputIndex contentIndex _ =>
    outputIndex ≤ u32Max ∧ ∀ i ∈ contentIndex, i ≤ u32Max
  | .item outputIndex _ => outputIndex ≤ u32Max
  | .arguments outputIndex _ _ => outputIndex ≤ u32Max
  | .text _ outputIndex contentIndex _ => outputIndex ≤ u32Max ∧ contentIndex ≤ u32Max
  | .part _ outputIndex contentIndex _ => outputIndex ≤ u32Max ∧ contentIndex ≤ u32Max
  | .response object => object.Typed

/-- No variant before a body's own takes its fields, and its own takes all of them. -/
theorem ofEntries_entries {body : EventBody} (h : body.Typed) :
    ofEntries body.entries = some body := by
  cases body with
  | delta itemId outputIndex contentIndex piece =>
      obtain ⟨houtput, hcontent⟩ := h
      cases contentIndex with
      | none =>
          simp [ofEntries, entries, readDelta, requiredField, optionalField, readString,
            Value.ofNat, readNat_eq houtput]
      | some i =>
          simp [ofEntries, entries, readDelta, requiredField, optionalField, readString,
            Value.ofNat, readNat_eq houtput, readNat_eq (hcontent i rfl)]
  | item outputIndex added =>
      have houtput : outputIndex ≤ u32Max := h
      simp [ofEntries, entries, readDelta, readItem, requiredField, Value.ofNat,
        readNat_eq houtput, ResponseItem.ofValue_toValue]
  | arguments outputIndex itemId json =>
      have houtput : outputIndex ≤ u32Max := h
      simp [ofEntries, entries, readDelta, readItem, readArguments, requiredField, readString,
        Value.ofNat, readNat_eq houtput]
  | text itemId outputIndex contentIndex whole =>
      obtain ⟨houtput, hcontent⟩ := h
      simp [ofEntries, entries, readDelta, readItem, readArguments, readText, requiredField,
        readString, Value.ofNat, readNat_eq houtput, readNat_eq hcontent]
  | part itemId outputIndex contentIndex content =>
      obtain ⟨houtput, hcontent⟩ := h
      simp [ofEntries, entries, readDelta, readItem, readArguments, readText, readPart,
        requiredField, readString, Value.ofNat, readNat_eq houtput, readNat_eq hcontent,
        ContentPart.ofValue_toValue]
  | response object =>
      simp [ofEntries, entries, readDelta, readItem, readArguments, readText, readPart,
        readResponse, requiredField, ResponseObject.ofValue_toValue h]

end EventBody

/-! ## Events on the wire -/

/-- The internal wire form of an event; the number is missing until the log has assigned it. -/
structure WireEvent where
  responseId : ResponseId
  attempt : Option Attempt
  sequenceNumber : Option ℕ
  kind : ResponseEventKind
  body : EventBody

namespace WireEvent

def ofAppendEvent (e : AppendEvent) : WireEvent := ⟨e.responseId, e.attempt, none, e.kind, e.body⟩

def ofResponseEvent (e : ResponseEvent) : WireEvent :=
  { ofAppendEvent e.event with sequenceNumber := some e.sequenceNumber }

def toAppendEvent (w : WireEvent) : AppendEvent := ⟨w.responseId, w.kind, w.attempt, w.body⟩

/-- The fields beside the body's. -/
def names : List String := ["response_id", "attempt", "sequence_number", "kind"]

def entries (w : WireEvent) : List (String × Value) :=
  ("response_id", .string w.responseId.text) ::
    ("attempt", (w.attempt.map fun a ↦ .ofNat a.val).getD .null) ::
    optEntry "sequence_number" Value.ofNat w.sequenceNumber ++
    ("kind", .string w.kind.asStr) :: w.body.entries

def toValue (w : WireEvent) : Value := .object w.entries

def readAttempt (v : Value) : Option Attempt := do
  let n ← readNat u64Max v
  if h : n ≤ u64Max then some ⟨n, h⟩ else none

/-- The derived reader: the body is read off the fields that the envelope leaves. -/
def ofValue (parseStr : String → Option Uuid) : Value → Option WireEvent
  | .object map => do
    let responseId ← requiredField (readName fun s ↦ (ResponseId.parse parseStr s).toOption)
      "response_id" map
    let attempt ← optionalField readAttempt "attempt" map
    let sequenceNumber ← optionalField (readNat u64Max) "sequence_number" map
    let kind ← requiredField (readName ResponseEventKind.ofStr) "kind" map
    let body ← EventBody.ofEntries (map.filter fun e ↦ e.1 ∉ names)
    return ⟨responseId, attempt, sequenceNumber, kind, body⟩
  | _ => none

theorem entriesOf_body {key : String} (hkey : key ∈ names) (body : EventBody) :
    entriesOf key body.entries = [] := by
  simp only [names, List.mem_cons, List.not_mem_nil, or_false] at hkey
  rcases hkey with rfl | rfl | rfl | rfl <;> cases body <;> simp [EventBody.entries]

theorem body_entries (w : WireEvent) :
    w.entries.filter (fun e ↦ decide (e.1 ∉ names)) = w.body.entries := by
  have hbody : ∀ e ∈ w.body.entries, e.1 ∉ names := by
    intro e he hname
    have hmem : e.2 ∈ entriesOf e.1 w.body.entries :=
      List.mem_map.mpr ⟨e, List.mem_filter.mpr ⟨he, decide_eq_true rfl⟩, rfl⟩
    rw [entriesOf_body hname] at hmem
    cases hmem
  have hkept : w.body.entries.filter (fun e ↦ decide (e.1 ∉ names)) = w.body.entries :=
    List.filter_eq_self.mpr fun e he ↦ decide_eq_true (hbody e he)
  have hnumber : (optEntry "sequence_number" Value.ofNat w.sequenceNumber).filter
      (fun e ↦ decide (e.1 ∉ names)) = [] := by
    cases w.sequenceNumber <;> simp [optEntry, names]
  rw [entries, List.cons_append, List.cons_append, List.filter_cons_of_neg (by simp [names]),
    List.filter_cons_of_neg (by simp [names]), List.filter_append, hnumber, List.nil_append,
    List.filter_cons_of_neg (by simp [names]), hkept]

theorem ofValue_toValue {parseStr : String → Option Uuid}
    (huuid : ∀ u : Uuid, parseStr u.text = some u) {w : WireEvent} (hbody : w.body.Typed)
    (hseq : ∀ n ∈ w.sequenceNumber, n ≤ u64Max) : ofValue parseStr w.toValue = some w := by
  have hnone : ∀ key ∈ names, entriesOf key w.body.entries = [] := fun _ hkey ↦
    entriesOf_body hkey w.body
  have hid : requiredField (readName fun s ↦ (ResponseId.parse parseStr s).toOption) "response_id"
      w.entries = some w.responseId :=
    requiredField_eq (.string w.responseId.text)
      (by simp [entries, hnone "response_id" (by decide)])
      (by rw [readName, ResponseId.parse_text huuid]; rfl)
  have hattempt : optionalField readAttempt "attempt" w.entries = some w.attempt := by
    cases hsome : w.attempt with
    | none => simp [optionalField, entries, hsome, hnone "attempt" (by decide)]
    | some a =>
        simp [optionalField, entries, hsome, hnone "attempt" (by decide), Value.ofNat, readAttempt,
          readNat_eq a.bounded, a.bounded]
  have hnumber : optionalField (readNat u64Max) "sequence_number" w.entries =
      some w.sequenceNumber :=
    optionalField_eq Value.ofNat (by simp [entries, hnone "sequence_number" (by decide)])
      fun n hn ↦ ⟨Value.noConfusion, readNat_eq (hseq n hn)⟩
  have hkind : requiredField (readName ResponseEventKind.ofStr) "kind" w.entries = some w.kind :=
    requiredField_eq (.string w.kind.asStr) (by simp [entries, hnone "kind" (by decide)])
      (ResponseEventKind.ofStr_asStr _)
  rw [toValue, ofValue, hid, hattempt, hnumber, hkind, body_entries,
    EventBody.ofEntries_entries hbody]
  rfl

end WireEvent

end NovaChat
