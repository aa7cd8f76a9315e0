import NovaChat.Events

/-!
# Reading objects

An object is read field by field: each field is looked up by its name, wherever it stands, and must
not be there twice.  Enumerations are read off a tag and refuse fields they do not know; the readers
of `tool_choice` and `conversation` are written out and go through the entries in turn.

Whatever the items, tools and response objects of the protocol are written as is read back as
itself.
-/

namespace NovaChat

/-! ## Fields -/

/-- What an object holds under a key. -/
def entriesOf (key : String) (map : List (String × Value)) : List Value :=
  (map.filter fun e ↦ e.1 = key).map Prod.snd

section Fields

variable {α : Type} (read : Value → Option α) (key : String) (map : List (String × Value))

/-- A field that must be there. -/
def requiredField : Option α :=
  match entriesOf key map with
  | [v] => read v
  | _ => none

/-- An optional field, missing or null when there is nothing. -/
def optionalField : Option (Option α) :=
  match entriesOf key map with
  | [] => some none
  | [.null] => some none
  | [v] => (read v).map some
  | _ => none

/-- A field with a default. -/
def defaultField (default : α) : Option α :=
  match entriesOf key map with
  | [] => some default
  | [v] => read v
  | _ => none

end Fields

/-- `deny_unknown_fields`. -/
def onlyFields (keys : List String) (map : List (String × Value)) : Bool :=
  map.all fun e ↦ decide (e.1 ∈ keys)

@[simp] theorem entriesOf_nil (key : String) : entriesOf key [] = [] := rfl

@[simp] theorem entriesOf_cons (key key' : String) (v : Value) (map : List (String × Value)) :
    entriesOf key ((key', v) :: map) =
      if key' = key then v :: entriesOf key map else entriesOf key map := by
  by_cases h : key' = key <;> simp [entriesOf, h]

@[simp] theorem entriesOf_append (key : String) (map map' : List (String × Value)) :
    entriesOf key (map ++ map') = entriesOf key map ++ entriesOf key map' := by
  rw [entriesOf, List.filter_append, List.map_append, entriesOf, entriesOf]

@[simp] theorem entriesOf_optEntry {α : Type} (key key' : String) (render : α → Value)
    (o : Option α) : entriesOf key (optEntry key' render o) =
      if key' = key then (o.map render).toList else [] := by
  cases o <;> simp [optEntry]

@[simp] theorem onlyFields_nil (keys : List String) : onlyFields keys [] = true := rfl

@[simp] theorem onlyFields_cons (keys : List String) (e : String × Value)
    (map : List (String × Value)) :
    onlyFields keys (e :: map) = (decide (e.1 ∈ keys) && onlyFields keys map) := rfl

@[simp] theorem onlyFields_append (keys : List String) (map map' : List (String × Value)) :
    onlyFields keys (map ++ map') = (onlyFields keys map && onlyFields keys map') :=
  List.all_append

@[simp] theorem onlyFields_optEntry {α : Type} {keys : List String} {key : String}
    (render : α → Value) (o : Option α) (hkey : key ∈ keys) :
    onlyFields keys (optEntry key render o) = true := by
  cases o <;> simp [optEntry, hkey]

section Fields

variable {α : Type} {read : Value → Option α} {key : String} {map : List (String × Value)}

theorem requiredField_eq (v : Value) {a : α} (hv : entriesOf key map = [v])
    (hread : read v = some a) : requiredField read key map = some a := by
  rw [requiredField, hv]
  exact hread

theorem optionalField_eq (render : α → Value) {o : Option α}
    (hv : entriesOf key map = (o.map render).toList)
    (hread : ∀ a ∈ o, render a ≠ .null ∧ read (render a) = some a) :
    optionalField read key map = some o := by
  rw [optionalField, hv]
  cases o with
  | none => rfl
  | some a =>
      obtain ⟨hnull, ha⟩ := hread a rfl
      simp only [Option.map_some, Option.toList_some, ha]

end Fields

/-! ## Scalars and arrays -/

def readString : Value → Option String
  | .string s => some s
  | _ => none

def readBool : Value → Option Bool
  | .bool b => some b
  | _ => none

/-- An unsigned integer up to a bound. -/
def readNat (bound : ℕ) : Value → Option ℕ
  | .number (.int n) => if 0 ≤ n ∧ n ≤ bound then some n.toNat else none
  | _ => none

/-- A variant without fields, by its name. -/
def readName {α : Type} (ofText : String → Option α) : Value → Option α
  | .string s => ofText s
  | _ => none

def readArray {α : Type} (read : Value → Option α) : Value → Option (List α)
  | .array items => items.mapM read
  | _ => none

def readMap {α : Type} (read : Value → Option α) : Value → Option (List (String × α))
  | .object map => map.mapM fun e ↦ (read e.2).map fun a ↦ (e.1, a)
  | _ => none

theorem readNat_eq {bound n : ℕ} (h : n ≤ bound) :
    readNat bound (.number (.int n)) = some n := by
  simp [readNat, h]

theorem mapM_map {α β γ : Type} {f : β → Option γ} {g : α → β} {k : α → γ}
    (h : ∀ a, f (g a) = some (k a)) (l : List α) : (l.map g).mapM f = some (l.map k) := by
  induction l with
  | nil => rfl
  | cons a l ih => simp [List.mapM_cons, h, ih]

theorem readArray_eq {α : Type} {read : Value → Option α} {render : α → Value}
    (h : ∀ a, read (render a) = some a) (l : List α) :
    readArray read (.array (l.map render)) = some l := by
  rw [readArray, mapM_map h, List.map_id']

theorem readMap_eq {α : Type} {read : Value → Option α} {render : α → Value}
    (h : ∀ a, read (render a) = some a) (map : List (String × α)) :
    readMap read (.object (map.map fun e ↦ (e.1, render e.2))) = some map := by
  rw [readMap, mapM_map (k := fun e ↦ e) (fun e ↦ by rw [h, Option.map_some]), List.map_id']

/-! ## Items -/

def Role.ofText : String → Option Role
  | "user" => some .user
  | "assistant" => some .assistant
  | "system" => some .system
  | "developer" => some .developer
  | _ => none

def ItemStatus.ofText : String → Option ItemStatus
  | "in_progress" => some .inProgress
  | "completed" => some .completed
  | "incomplete" => some .incomplete
  | _ => none

def ImageDetail.ofText : String → Option ImageDetail
  | "auto" => some .auto
  | "low" => some .low
  | "high" => some .high
  | _ => none

theorem Role.ofText_text (r : Role) : Role.ofText r.text = some r := by cases r <;> rfl

theorem ItemStatus.ofText_text (s : ItemStatus) : ItemStatus.ofText s.text = some s := by
  cases s <;> rfl

theorem ImageDetail.ofText_text (d : ImageDetail) : ImageDetail.ofText d.text = some d := by
  cases d <;> rfl

/-- The derived reader of a content part. -/
def ContentPart.ofValue : Value → Option ContentPart
  | .object map => do
    let tag ← requiredField readString "type" map
    match tag with
    | "input_text" =>
      guard (onlyFields ["type", "text"] map)
      return .inputText (← requiredField readString "text" map)
    | "output_text" =>
      guard (onlyFields ["type", "text"] map)
      return .outputText (← requiredField readString "text" map)
    | "refusal" =>
      guard (onlyFields ["type", "refusal"] map)
      return .refusal (← requiredField readString "refusal" map)
    | "input_image" =>
      guard (onlyFields ["type", "image_url", "file_id", "detail"] map)
      return .inputImage (← optionalField readString "image_url" map)
        (← optionalField readString "file_id" map)
        (← optionalField (readName ImageDetail.ofText) "detail" map)
    | "input_file" =>
      guard (onlyFields ["type", "file_id", "file_url", "filename"] map)
      return .inputFile (← optionalField readString "file_id" map)
        (← optionalField readString "file_url" map) (← optionalField readString "filename" map)
    | _ => none
  | _ => none

theorem ContentPart.ofValue_toValue (part : ContentPart) :
    ContentPart.ofValue part.toValue = some part := by
  cases part with
  | inputText text => simp [toValue, ofValue, requiredField, readString, guard]
  | outputText text => simp [toValue, ofValue, requiredField, readString, guard]
  | refusal text => simp [toValue, ofValue, requiredField, readString, guard]
  | inputImage imageUrl fileId detail =>
      cases imageUrl <;> cases fileId <;> cases detail <;>
        simp [toValue, ofValue, requiredField, optionalField, readString, readName, guard,
          ImageDetail.ofText_text]
  | inputFile fileId fileUrl filename =>
      cases fileId <;> cases fileUrl <;> cases filename <;>
        simp [toValue, ofValue, requiredField, optionalField, readString, guard]

/-- The derived reader of an item. -/
def ResponseItem.ofValue : Value → Option ResponseItem
  | .object map => do
    let tag ← requiredField readString "type" map
    match tag with
    | "message" =>
      guard (onlyFields ["type", "role", "content", "id", "status"] map)
      return .message (← requiredField (readName Role.ofText) "role" map)
        (← requiredField (readArray ContentPart.ofValue) "content" map)
        (← optionalField readString "id" map)
        (← optionalField (readName ItemStatus.ofText) "status" map)
    | "function_call" =>
      guard (onlyFields ["type", "call_id", "name", "arguments", "id", "status"] map)
      return .functionCall (← requiredField readString "call_id" map)
        (← requiredField readString "name" map) (← requiredField readString "arguments" map)
        (← optionalField readString "id" map)
        (← optionalField (readName ItemStatus.ofText) "status" map)
    | "function_call_output" =>
      guard (onlyFields ["type", "call_id", "output", "id", "status"] map)
      return .functionCallOutput (← requiredField readString "call_id" map)
        (← requiredField readString "output" map) (← optionalField readString "id" map)
        (← optionalField (readName ItemStatus.ofText) "status" map)
    | _ => none
  | _ => none

theorem ResponseItem.ofValue_toValue (item : ResponseItem) :
    ResponseItem.ofValue item.toValue = some item := by
  cases item with
  | message role content id status =>
      cases id <;> cases status <;>
        simp [toValue, ofValue, requiredField, optionalField, readString, readName, guard,
          readArray_eq ContentPart.ofValue_toValue, Role.ofText_text, ItemStatus.ofText_text]
  | functionCall callId name arguments id status =>
      cases id <;> cases status <;>
        simp [toValue, ofValue, requiredField, optionalField, readString, readName, guard,
          ItemStatus.ofText_text]
  | functionCallOutput callId output id status =>
      cases id <;> cases status <;>
        simp [toValue, ofValue, requiredField, optionalField, readString, readName, guard,
          ItemStatus.ofText_text]

/-! ## Tools and references -/

def Tool.toValue : Tool → Value
  | .function name description parameters strict =>
    .object <| ("type", .string "function") :: ("name", .string name) ::
      optEntry "description" .string description ++
      ("parameters", parameters) :: optEntry "strict" .bool strict

/-- The derived reader of a tool. -/
def Tool.ofValue : Value → Option Tool
  | .object map => do
    let tag ← requiredField readString "type" map
    match tag with
    | "function" =>
      guard (onlyFields ["type", "name", "description", "parameters", "strict"] map)
      return .function (← requiredField readString "name" map)
        (← optionalField readString "description" map) (← requiredField some "parameters" map)
        (← optionalField readBool "strict" map)
    | _ => none
  | _ => none

theorem Tool.ofValue_toValue (tool : Tool) : Tool.ofValue tool.toValue = some tool := by
  obtain ⟨name, description, parameters, strict⟩ := tool
  cases description <;> cases strict <;>
    simp [toValue, ofValue, requiredField, optionalField, readString, readBool, guard]

def ToolChoiceMode.text : ToolChoiceMode → String
  | .auto => "auto"
  | .none => "none"
  | .required => "required"

def ToolChoice.toValue : ToolChoice → Value
  | .mode m => .string m.text
  | .function name => .object [("type", .string "function"), ("name", .string name)]

/-- Go through the entries of a named function; the last word on a field counts. -/
def ToolChoice.visitMap : List (String × Value) → Option String → Option String →
    Option ToolChoice
  | [], kind, name => if kind = some "function" then name.map .function else none
  | (key, v) :: map, kind, name =>
    match key with
    | "type" => (readString v).bind fun kind ↦ visitMap map (some kind) name
    | "name" => (readString v).bind fun name ↦ visitMap map kind (some name)
    | _ => none

def ToolChoice.ofValue : Value → Option ToolChoice
  | .string "auto" => some (.mode .auto)
  | .string "none" => some (.mode .none)
  | .string "required" => some (.mode .required)
  | .object map => visitMap map none none
  | _ => none

theorem ToolChoice.ofValue_toValue (c : ToolChoice) : ToolChoice.ofValue c.toValue = some c := by
  cases c with
  | mode m => cases m <;> rfl
  | function name => simp [toValue, ofValue, visitMap, readString]

def ConversationRef.toValue : ConversationRef → Value
  | .id s => .string s
  | .object s => .object [("id", .string s)]

/-- Go through the entries of a reference: the id, once, and nothing else. -/
def ConversationRef.visitMap : List (String × Value) → Option String → Option ConversationRef
  | [], found => found.map .object
  | (key, v) :: map, found =>
    if key = "id" ∧ found = none then (readString v).bind fun s ↦ visitMap map (some s) else none

def ConversationRef.ofValue : Value → Option ConversationRef
  | .string s => some (.id s)
  | .object map => visitMap map none
  | _ => none

theorem ConversationRef.ofValue_toValue (c : ConversationRef) :
    ConversationRef.ofValue c.toValue = some c := by
  cases c with
  | id s => rfl
  | object s => simp [toValue, ofValue, visitMap, readString]

def MetadataValue.toValue : MetadataValue → Value
  | .string s => .string s
  | .number n => .number n
  | .bool b => .bool b

/-- The variants are tried in order. -/
def MetadataValue.ofValue (v : Value) : Option MetadataValue :=
  (match v with | .string s => some (.string s) | _ => none) <|>
  (match v with | .number n => some (.number n) | _ => none) <|>
  (match v with | .bool b => some (.bool b) | _ => none)

theorem MetadataValue.ofValue_toValue (m : MetadataValue) :
    MetadataValue.ofValue m.toValue = some m := by
  cases m <;> rfl

/-! ## Response objects -/

def ResponseStatus.ofText : String → Option ResponseStatus
  | "queued" => some .queued
  | "in_progress" => some .inProgress
  | "completed" => some .completed
  | "failed" => some .failed
  | "incomplete" => some .incomplete
  | "cancelled" => some .cancelled
  | _ => none

theorem ResponseStatus.ofText_text (s : ResponseStatus) :
    ResponseStatus.ofText s.text = some s := by
  cases s <;> rfl

/-- An unsigned number. -/
def Value.ofNat (n : ℕ) : Value := .number (.int n)

/-- With the derived total. -/
def Usage.toValue (u : Usage) : Value :=
  .object [("input_tokens", .ofNat u.inputTokens), ("output_tokens", .ofNat u.outputTokens),
    ("total_tokens", .ofNat (satAdd u.inputTokens u.outputTokens))]

/-- The total is ignored. -/
def Usage.ofValue : Value → Option Usage
  | .object map => do
    return ⟨← requiredField (readNat u64Max) "input_tokens" map,
      ← requiredField (readNat u64Max) "output_tokens" map⟩
  | _ => none

theorem Usage.ofValue_toValue {u : Usage} (hinput : u.inputTokens ≤ u64Max)
    (houtput : u.outputTokens ≤ u64Max) : Usage.ofValue u.toValue = some u := by
  simp [toValue, ofValue, requiredField, Value.ofNat, readNat_eq hinput, readNat_eq houtput]

namespace ResponseObject

/-- `skip_serializing_if` for a collection. -/
def nonempty {α : Type} (key : String) (render : List α → Value) (l : List α) :
    List (String × Value) :=
  if l.isEmpty then [] else [(key, render l)]

def entries (o : ResponseObject) : List (String × Value) :=
  ("id", .string o.id) :: ("object", .string "response") :: ("created_at", .ofNat o.createdAt) ::
    ("status", .string o.status.text) :: ("model", .string o.model) ::
    optEntry "previous_response_id" .string o.previousResponseId ++
    optEntry "conversation" ConversationRef.toValue o.conversation ++
    ("instructions", (o.instructions.map Value.string).getD .null) :: ("store", .bool o.store) ::
    ("input", .array (o.input.map ResponseItem.toValue)) ::
    ("output", .array (o.output.map ResponseItem.toValue)) ::
    optEntry "reasoning" .string o.reasoning ++
    nonempty "tools" (fun tools ↦ .array (tools.map Tool.toValue)) o.tools ++
    optEntry "tool_choice" ToolChoice.toValue o.toolChoice ++
    nonempty "metadata" (fun map ↦ .object (map.map fun e ↦ (e.1, e.2.toValue))) o.metadata ++
    [("usage", o.usage.toValue)]

def toValue (o : ResponseObject) : Value := .object o.entries

/-- The derived reader of a response object. -/
def ofValue : Value → Option ResponseObject
  | .object map => do
    let id ← requiredField readString "id" map
    let _ ← defaultField (readName fun s ↦ if s = "response" then some () else none) "object" map ()
    let createdAt ← requiredField (readNat u64Max) "created_at" map
    let status ← requiredField (readName ResponseStatus.ofText) "status" map
    let model ← requiredField readString "model" map
    let previousResponseId ← optionalField readString "previous_response_id" map
    let conversation ← optionalField ConversationRef.ofValue "conversation" map
    let instructions ← optionalField readString "instructions" map
    let store ← requiredField readBool "store" map
    let input ← defaultField (readArray ResponseItem.ofValue) "input" map []
    let output ← defaultField (readArray ResponseItem.ofValue) "output" map []
    let reasoning ← optionalField readString "reasoning" map
    let tools ← defaultField (readArray Tool.ofValue) "tools" map []
    let toolChoice ← optionalField ToolChoice.ofValue "tool_choice" map
    let metadata ← defaultField (readMap MetadataValue.ofValue) "metadata" map []
    let usage ← defaultField Usage.ofValue "usage" map {}
    return { id, createdAt, status, model, previousResponseId, conversation, instructions, store,
             input, output, reasoning, tools, toolChoice, metadata, usage }
  | _ => none

/-- The numbers are 64-bit numbers. -/
structure Typed (o : ResponseObject) : Prop where
  createdAt : o.createdAt ≤ u64Max
  inputTokens : o.usage.inputTokens ≤ u64Max
  outputTokens : o.usage.outputTokens ≤ u64Max

@[simp] theorem entriesOf_nonempty {α : Type} (key key' : String) (render : List α → Value)
    (l : List α) : entriesOf key (nonempty key' render l) =
      if key' = key ∧ l.isEmpty = false then [render l] else [] := by
  cases l <;> by_cases h : key' = key <;> simp [nonempty, h]

theorem defaultField_nonempty {α : Type} {read : Value → Option (List α)} {key : String}
    {map : List (String × Value)} (render : List α → Value) {l : List α}
    (hv : entriesOf key map = if l = [] then [] else [render l])
    (hread : read (render l) = some l) : defaultField read key map [] = some l := by
  rw [defaultField, hv]
  cases l with
  | nil => rfl
  | cons a l => exact hread

theorem ofValue_toValue {o : ResponseObject} (h : o.Typed) : ofValue o.toValue = some o := by
  have hid : requiredField readString "id" o.entries = some o.id :=
    requiredField_eq (.string o.id) (by simp [entries]) rfl
  have hobject : defaultField (readName fun s ↦ if s = "response" then some () else none) "object"
      o.entries () = some () := by
    simp [defaultField, entries, readName]
  have hcreatedAt : requiredField (readNat u64Max) "created_at" o.entries = some o.createdAt :=
    requiredField_eq (.ofNat o.createdAt) (by simp [entries]) (readNat_eq h.createdAt)
  have hstatus : requiredField (readName ResponseStatus.ofText) "status" o.entries =
      some o.status :=
    requiredField_eq (.string o.status.text) (by simp [entries]) (ResponseStatus.ofText_text _)
  have hmodel : requiredField readString "model" o.entries = some o.model :=
    requiredField_eq (.string o.model) (by simp [entries]) rfl
  have hprevious : optionalField readString "previous_response_id" o.entries =
      some o.previousResponseId :=
    optionalField_eq .string (by simp [entries]) fun _ _ ↦ ⟨nofun, rfl⟩
  have hconversation : optionalField ConversationRef.ofValue "conversation" o.entries =
      some o.conversation :=
    optionalField_eq ConversationRef.toValue (by simp [entries]) fun c _ ↦
      ⟨by cases c <;> nofun, ConversationRef.ofValue_toValue c⟩
  have hinstructions : optionalField readString "instructions" o.entries =
      some o.instructions := by
    cases hsome : o.instructions <;> simp [optionalField, entries, hsome, readString]
  have hstore : requiredField readBool "store" o.entries = some o.store :=
    requiredField_eq (.bool o.store) (by simp [entries]) rfl
  have hinput : defaultField (readArray ResponseItem.ofValue) "input" o.entries [] =
      some o.input := by
    simp [defaultField, entries, readArray_eq ResponseItem.ofValue_toValue]
  have houtput : defaultField (readArray ResponseItem.ofValue) "output" o.entries [] =
      some o.output := by
    simp [defaultField, entries, readArray_eq ResponseItem.ofValue_toValue]
  have hreasoning : optionalField readString "reasoning" o.entries = some o.reasoning :=
    optionalField_eq .string (by simp [entries]) fun _ _ ↦ ⟨nofun, rfl⟩
  have htools : defaultField (readArray Tool.ofValue) "tools" o.entries [] = some o.tools :=
    defaultField_nonempty (fun tools ↦ .array (tools.map Tool.toValue)) (by simp [entries])
      (readArray_eq Tool.ofValue_toValue _)
  have htoolChoice : optionalField ToolChoice.ofValue "tool_choice" o.entries =
      some o.toolChoice :=
    optionalField_eq ToolChoice.toValue (by simp [entries]) fun c _ ↦
      ⟨by cases c <;> nofun, ToolChoice.ofValue_toValue c⟩
  have hmetadata : defaultField (readMap MetadataValue.ofValue) "metadata" o.entries [] =
      some o.metadata :=
    defaultField_nonempty (fun map ↦ .object (map.map fun e ↦ (e.1, e.2.toValue)))
      (by simp [entries]) (readMap_eq MetadataValue.ofValue_toValue _)
  have husage : defaultField Usage.ofValue "usage" o.entries {} = some o.usage := by
    simp [defaultField, entries, Usage.ofValue_toValue h.inputTokens h.outputTokens]
  rw [toValue, ofValue, hid, hobject, hcreatedAt, hstatus, hmodel, hprevious, hconversation,
    hinstructions, hstore, hinput, houtput, hreasoning, htools, htoolChoice, hmetadata, husage]
  rfl

end ResponseObject

end NovaChat
