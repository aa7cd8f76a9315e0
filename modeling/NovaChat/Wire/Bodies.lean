import NovaChat.Wire.Compact
import NovaChat.Wire.Envelope
import NovaChat.Wire.Fields
import NovaChat.Wire.Request

/-!
# The bodies of requests

Creating a conversation and replacing its metadata take the same body; appending a business event
takes another, and so does creating a response.  A body is read off a JSON value, then checked
against the bounds.
-/

namespace NovaChat

/-- `char::is_control`. -/
def isControl (c : Char) : Bool := c.toNat < 0x20 || (0x7f ≤ c.toNat && c.toNat < 0xa0)

/-- An optional value, null when there is nothing. -/
def readNullable {α : Type} (read : Value → Option α) : Value → Option (Option α)
  | .null => some none
  | v => (read v).map some

/-! ## Metadata -/

structure ConversationMetadataRequest where
  metadata : Option Metadata := none
  deriving DecidableEq

namespace ConversationMetadataRequest

/-- A struct is read off an object, or off an array that lists its fields in order. -/
def ofValue : Value → Option ConversationMetadataRequest
  | .object map => do
    guard (onlyFields ["metadata"] map)
    return ⟨← optionalField (readMap MetadataValue.ofValue) "metadata" map⟩
  | .array [] => some {}
  | .array [metadata] => (readNullable (readMap MetadataValue.ofValue) metadata).map (⟨·⟩)
  | _ => none

def validate (limits : ProtocolLimits) (r : ConversationMetadataRequest) :
    Except RequestViolation Unit :=
  match r.metadata with
  | some metadata => validateMetadata limits metadata
  | none => .ok ()

/-- The metadata to store. -/
def stored (r : ConversationMetadataRequest) : Metadata := r.metadata.getD []

end ConversationMetadataRequest

/-! ## Business events -/

inductive BusinessEventViolation
  | emptyKind
  | kindTooLong (max : ℕ)
  | kindHasControlChars
  | payloadTooLarge (max : ℕ)
  | payloadTooDeep (max : ℕ)
  deriving DecidableEq, Repr

def BusinessEventViolation.text : BusinessEventViolation → String
  | emptyKind => "kind must not be empty"
  | kindTooLong max => s!"kind exceeds {max} bytes"
  | kindHasControlChars => "kind must not contain control characters"
  | payloadTooLarge max => s!"payload exceeds {max} bytes"
  | payloadTooDeep max => s!"payload nests deeper than {max}"

structure AppendBusinessEventRequest where
  kind : String
  payload : Value := .null

namespace AppendBusinessEventRequest

def ofValue : Value → Option AppendBusinessEventRequest
  | .object map => do
    guard (onlyFields ["kind", "payload"] map)
    return ⟨← requiredField readString "kind" map, ← defaultField some "payload" map .null⟩
  | .array [kind] => (readString kind).map (⟨·, .null⟩)
  | .array [kind, payload] => (readString kind).map (⟨·, payload⟩)
  | _ => none

/-- The payload is checked for size and depth, as it is stored, and not for shape. -/
def validate (limits : ProtocolLimits) (r : AppendBusinessEventRequest) :
    Except BusinessEventViolation Unit := do
  ensure (!isBlank r.kind) .emptyKind
  ensure (r.kind.utf8ByteSize ≤ limits.maxBusinessKindBytes)
    (.kindTooLong limits.maxBusinessKindBytes)
  ensure (!r.kind.toList.any isControl) .kindHasControlChars
  ensure ((String.ofList (compact r.payload)).utf8ByteSize ≤ limits.maxBusinessPayloadBytes)
    (.payloadTooLarge limits.maxBusinessPayloadBytes)
  ensure (jsonDepth r.payload ≤ limits.maxJsonDepth) (.payloadTooDeep limits.maxJsonDepth)

end AppendBusinessEventRequest

/-! ## Turns -/

def ResponseInput.ofValue : Value → Option ResponseInput
  | .string t => some (.text t)
  | .array vs => (vs.mapM ResponseItem.ofValue).map .items
  | _ => none

namespace CreateResponseRequest

/-- The fields, in the order an array lists them. -/
def fields : List String :=
  ["model", "input", "instructions", "store", "stream", "background", "previous_response_id",
    "conversation", "max_output_tokens", "metadata", "tools", "tool_choice", "temperature",
    "top_p"]

/-- Upstream fields that are turned away by name, with what to do instead. -/
def explicitlyUnsupportedFields : List (String × String) :=
  [("context_management",
      "server-side context compaction is not supported; " ++
        "manage history length via previous_response_id chains"),
    ("prompt",
      "stored prompt templates are not supported; send instructions and input directly")]

/-- The first field of a body that is known and not supported. -/
def preflightUnsupported : Value → Option (String × String)
  | .object map =>
    explicitlyUnsupportedFields.find? fun entry ↦ !(entriesOf entry.1 map).isEmpty
  | _ => none

variable (asF64 : Number → FloatValue)

def readFloat : Value → Option FloatValue
  | .number n => some (asF64 n)
  | _ => none

def ofEntries (map : List (String × Value)) : Option CreateResponseRequest := do
  guard (onlyFields fields map)
  let model ← requiredField readString "model" map
  let input ← requiredField ResponseInput.ofValue "input" map
  let instructions ← optionalField readString "instructions" map
  let store ← defaultField readBool "store" map true
  let stream ← defaultField readBool "stream" map false
  let background ← defaultField readBool "background" map false
  let previousResponseId ← optionalField readString "previous_response_id" map
  let conversation ← optionalField ConversationRef.ofValue "conversation" map
  let maxOutputTokens ← optionalField (readNat u32Max) "max_output_tokens" map
  let metadata ← optionalField (readMap MetadataValue.ofValue) "metadata" map
  let tools ← optionalField (readArray Tool.ofValue) "tools" map
  let toolChoice ← optionalField ToolChoice.ofValue "tool_choice" map
  let temperature ← optionalField (readFloat asF64) "temperature" map
  let topP ← optionalField (readFloat asF64) "top_p" map
  return { model, input, instructions, store, stream, background, previousResponseId,
           conversation, maxOutputTokens, metadata, tools, toolChoice, temperature, topP }

/-- Read off an object, or off an array that lists the fields in order and may stop early. -/
def ofValue : Value → Option CreateResponseRequest
  | .object map => ofEntries asF64 map
  | .array vs => if vs.length ≤ fields.length then ofEntries asF64 (fields.zip vs) else none
  | _ => none

end CreateResponseRequest

end NovaChat
