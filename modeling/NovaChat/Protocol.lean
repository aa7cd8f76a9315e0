import NovaChat.Identity

/-!
# Protocol items

The closed sets of the wire protocol that records, turns and events carry: content parts,
response items, tools, metadata values, and the canonical text of an item list that the
ledger signs.
-/

namespace NovaChat

/-! ## JSON values -/

/-- `serde_json::Number`: an integer, or the shortest text that reads back as the float. -/
inductive Number
  | int (n : ℤ)
  | float (text : String)
  deriving DecidableEq, Repr

def Number.text : Number → String
  | .int n => toString n
  | .float t => t

/-- `serde_json::Value`; an object lists its entries. -/
inductive Value
  | null
  | bool (b : Bool)
  | number (n : Number)
  | string (s : String)
  | array (items : List Value)
  | object (map : List (String × Value))

/-- The escape `serde_json` writes for one character of a string. -/
def escapeChar (c : Char) : String :=
  match c.toNat with
  | 0x22 => "\\\""
  | 0x5c => "\\\\"
  | 0x08 => "\\b"
  | 0x09 => "\\t"
  | 0x0a => "\\n"
  | 0x0c => "\\f"
  | 0x0d => "\\r"
  | n =>
    if n < 0x20 then
      "\\u00" ++ String.ofList [Nat.digitChar (n / 16), Nat.digitChar (n % 16)]
    else
      String.singleton c

def writeJsonString (s : String) : String :=
  "\"" ++ String.join (s.toList.map escapeChar) ++ "\""

/-- Entries in byte order of their keys, which for UTF-8 is the order of the characters. -/
def sortedEntries {α : Type} (map : List (String × α)) : List (String × α) :=
  map.mergeSort fun a b ↦ decide (a.1 ≤ b.1)

section Canonical

variable (nfc : String → String)

mutual

/-- Deterministic JSON encoding: sorted keys, compact separators, normalised strings. -/
def canonicalJson : Value → String
  | .null => "null"
  | .bool b => if b then "true" else "false"
  | .number n => n.text
  | .string s => writeJsonString (nfc s)
  | .array items => "[" ++ ",".intercalate (canonicalItemsOf items) ++ "]"
  | .object map =>
    "\x7b" ++ ",".intercalate ((sortedEntries (canonicalEntries map)).map fun e ↦
      writeJsonString (nfc e.1) ++ ":" ++ e.2) ++ "\x7d"

def canonicalItemsOf : List Value → List String
  | [] => []
  | v :: vs => canonicalJson v :: canonicalItemsOf vs

def canonicalEntries : List (String × Value) → List (String × String)
  | [] => []
  | (key, val) :: rest => (key, canonicalJson val) :: canonicalEntries rest

end

end Canonical

/-- A metadata value: exactly a string, a number or a boolean. -/
inductive MetadataValue
  | string (s : String)
  | number (n : Number)
  | bool (b : Bool)
  deriving DecidableEq, Repr

/-! ## Content parts and items -/

inductive ImageDetail
  | auto | low | high
  deriving DecidableEq, Repr

inductive ContentPart
  | inputText (text : String)
  | outputText (text : String)
  | refusal (text : String)
  | inputImage (imageUrl fileId : Option String) (detail : Option ImageDetail)
  | inputFile (fileId fileUrl filename : Option String)
  deriving DecidableEq, Repr

def optLen (v : Option String) : ℕ := (v.map String.utf8ByteSize).getD 0

/-- Byte cost counted against the chain budget. -/
def ContentPart.byteLen : ContentPart → ℕ
  | .inputText text | .outputText text => text.utf8ByteSize
  | .refusal text => text.utf8ByteSize
  | .inputImage imageUrl fileId _ => optLen imageUrl + optLen fileId
  | .inputFile fileId fileUrl filename => optLen fileId + optLen fileUrl + optLen filename

inductive Role
  | user | assistant | system | developer
  deriving DecidableEq, Repr

inductive ItemStatus
  | inProgress | completed | incomplete
  deriving DecidableEq, Repr

inductive ResponseItem
  | message (role : Role) (content : List ContentPart) (id : Option String)
      (status : Option ItemStatus)
  | functionCall (callId name arguments : String) (id : Option String)
      (status : Option ItemStatus)
  | functionCallOutput (callId output : String) (id : Option String)
      (status : Option ItemStatus)
  deriving DecidableEq, Repr

namespace ResponseItem

/-- The stream identity of an item: the call id of a tool item, the id of a message. -/
def streamItemId : ResponseItem → String
  | functionCall callId _ _ _ _ | functionCallOutput callId _ _ _ => callId
  | message _ _ id _ => id.getD ""

/-- Byte cost counted against chain and request budgets. -/
def byteLen : ResponseItem → ℕ
  | message _ content _ _ => (content.map ContentPart.byteLen).sum
  | functionCall callId name arguments _ _ =>
    callId.utf8ByteSize + name.utf8ByteSize + arguments.utf8ByteSize
  | functionCallOutput callId output _ _ => callId.utf8ByteSize + output.utf8ByteSize

end ResponseItem

/-! ## Serialised form of items -/

/-- An entry that is left out when the option is empty. -/
def optEntry {α : Type} (key : String) (render : α → Value) : Option α → List (String × Value)
  | none => []
  | some a => [(key, render a)]

def Role.text : Role → String
  | .user => "user"
  | .assistant => "assistant"
  | .system => "system"
  | .developer => "developer"

def ItemStatus.text : ItemStatus → String
  | .inProgress => "in_progress"
  | .completed => "completed"
  | .incomplete => "incomplete"

def ImageDetail.text : ImageDetail → String
  | .auto => "auto"
  | .low => "low"
  | .high => "high"

def ContentPart.toValue : ContentPart → Value
  | .inputText text => .object [("type", .string "input_text"), ("text", .string text)]
  | .outputText text => .object [("type", .string "output_text"), ("text", .string text)]
  | .refusal text => .object [("type", .string "refusal"), ("refusal", .string text)]
  | .inputImage imageUrl fileId detail =>
    .object <| ("type", .string "input_image") :: optEntry "image_url" .string imageUrl ++
      optEntry "file_id" .string fileId ++ optEntry "detail" (fun d ↦ .string d.text) detail
  | .inputFile fileId fileUrl filename =>
    .object <| ("type", .string "input_file") :: optEntry "file_id" .string fileId ++
      optEntry "file_url" .string fileUrl ++ optEntry "filename" .string filename

def ResponseItem.toValue : ResponseItem → Value
  | .message role content id status =>
    .object <| ("type", .string "message") :: ("role", .string role.text) ::
      ("content", .array (content.map ContentPart.toValue)) :: optEntry "id" .string id ++
      optEntry "status" (fun s ↦ .string s.text) status
  | .functionCall callId name arguments id status =>
    .object <| ("type", .string "function_call") :: ("call_id", .string callId) ::
      ("name", .string name) :: ("arguments", .string arguments) :: optEntry "id" .string id ++
      optEntry "status" (fun s ↦ .string s.text) status
  | .functionCallOutput callId output id status =>
    .object <| ("type", .string "function_call_output") :: ("call_id", .string callId) ::
      ("output", .string output) :: optEntry "id" .string id ++
      optEntry "status" (fun s ↦ .string s.text) status

/-- Canonical encoding of an item list, the signing input for stored items. -/
def canonicalItems (nfc : String → String) (items : List ResponseItem) : String :=
  canonicalJson nfc (.array (items.map ResponseItem.toValue))

/-! ## Tools, usage and references -/

/-- The closed set of tools. -/
inductive Tool
  | function (name : String) (description : Option String) (parameters : Value)
      (strict : Option Bool)

inductive ToolChoiceMode
  | auto | none | required
  deriving DecidableEq, Repr

/-- A mode, or a named function. -/
inductive ToolChoice
  | mode (m : ToolChoiceMode)
  | function (name : String)
  deriving DecidableEq, Repr

inductive ConversationRef
  | id (id : String)
  | object (id : String)
  deriving DecidableEq, Repr

/-- Token accounting; the total is derived, never stored. -/
structure Usage where
  inputTokens : ℕ := 0
  outputTokens : ℕ := 0
  deriving DecidableEq, Repr

namespace Usage

def isZero (u : Usage) : Bool := u.inputTokens == 0 && u.outputTokens == 0

/-- Accumulate across attempts, saturating. -/
def accumulate (u v : Usage) : Usage :=
  ⟨satAdd u.inputTokens v.inputTokens, satAdd u.outputTokens v.outputTokens⟩

end Usage

end NovaChat
