import NovaChat.Response
import NovaChat.Wire.Limits

/-!
# The create-response request

The accepted parameter set, and its validation: value ranges and cross-field rules first, then the
normalised input items.
-/

namespace NovaChat

/-- What a floating-point parameter holds. -/
inductive FloatValue
  | finite (q : ℚ)
  | infinite (negative : Bool)
  | nan
  deriving DecidableEq

/-- Neither an infinity nor a NaN is within a range. -/
def FloatValue.within (low high : ℚ) : FloatValue → Bool
  | finite q => low ≤ q && q ≤ high
  | infinite _ | nan => false

inductive ResponseInput
  | text (text : String)
  | items (items : List ResponseItem)

/-- The string shorthand becomes one user message. -/
def ResponseInput.toItems : ResponseInput → List ResponseItem
  | .text t => [.userText t]
  | .items xs => xs

/-- The id a conversation is referred to by, in either spelling. -/
def ConversationRef.named : ConversationRef → String
  | .id name | .object name => name

structure CreateResponseRequest where
  model : String
  input : ResponseInput
  instructions : Option String := none
  store : Bool := true
  stream : Bool := false
  background : Bool := false
  previousResponseId : Option String := none
  conversation : Option ConversationRef := none
  maxOutputTokens : Option ℕ := none
  metadata : Option Metadata := none
  tools : Option (List Tool) := none
  toolChoice : Option ToolChoice := none
  temperature : Option FloatValue := none
  topP : Option FloatValue := none

inductive RequestViolation
  | emptyModel
  | limits (source : LimitViolation)
  | item (index : ℕ) (source : ItemViolation)
  | instructionsTooLong (max : ℕ)
  | emptyPreviousId
  | emptyConversationId
  | previousIdAndConversation
  | zeroMaxOutputTokens
  | temperatureOutOfRange
  | topPOutOfRange
  | tooManyMetadataEntries (actual max : ℕ)
  | metadataKeyTooLong (key : String) (max : ℕ)
  | metadataValueTooLong (key : String) (max : ℕ)
  | toolParameters (name : String) (source : LimitViolation)
  | streamAndBackground
  deriving DecidableEq, Repr

def RequestViolation.text : RequestViolation → String
  | emptyModel => "model must not be empty"
  | limits source => s!"input invalid: {source.text}"
  | item index source => s!"item {index} invalid: {source.text}"
  | instructionsTooLong max => s!"instructions exceed {max} bytes"
  | emptyPreviousId => "previous_response_id must not be empty"
  | emptyConversationId => "conversation id must not be empty"
  | previousIdAndConversation => "previous_response_id and conversation must not both be set"
  | zeroMaxOutputTokens => "max_output_tokens must be greater than zero"
  | temperatureOutOfRange => "temperature must be within [0, 2]"
  | topPOutOfRange => "top_p must be within [0, 1]"
  | tooManyMetadataEntries actual max => s!"metadata has {actual} entries, limit is {max}"
  | metadataKeyTooLong key max => s!"metadata key `{key}` exceeds {max} bytes"
  | metadataValueTooLong key max => s!"metadata value for `{key}` exceeds {max} bytes"
  | toolParameters name source => s!"tool `{name}` parameters invalid: {source.text}"
  | streamAndBackground => "stream and background must not both be set"

/-! ## Single checks -/

/-- The characters `str::trim` removes. -/
def isWhitespace (c : Char) : Bool :=
  let n := c.toNat
  (0x9 ≤ n && n ≤ 0xd) || n == 0x20 || n == 0x85 || n == 0xa0 || n == 0x1680 ||
    (0x2000 ≤ n && n ≤ 0x200a) || n == 0x2028 || n == 0x2029 || n == 0x202f || n == 0x205f ||
      n == 0x3000

/-- Nothing is left of the string when it is trimmed. -/
def isBlank (s : String) : Bool := s.toList.all isWhitespace

/-- Go on only if a condition holds. -/
def ensure {ε : Type} (ok : Bool) (e : ε) : Except ε Unit := if ok then .ok () else .error e

/-- Byte length of the value in its serialised form. -/
def MetadataValue.byteLen : MetadataValue → ℕ
  | string s => s.utf8ByteSize
  | number n => n.text.utf8ByteSize
  | bool b => if b then 4 else 5

/-- Validate a metadata map against the configured limits. -/
def validateMetadata (limits : ProtocolLimits) (metadata : Metadata) :
    Except RequestViolation Unit := do
  ensure (metadata.length ≤ limits.maxMetadataEntries)
    (.tooManyMetadataEntries metadata.length limits.maxMetadataEntries)
  metadata.forM fun entry ↦ do
    ensure (entry.1.utf8ByteSize ≤ limits.maxMetadataKeyBytes)
      (.metadataKeyTooLong entry.1 limits.maxMetadataKeyBytes)
    ensure (entry.2.byteLen ≤ limits.maxMetadataValueBytes)
      (.metadataValueTooLong entry.1 limits.maxMetadataValueBytes)

def Tool.name : Tool → String
  | function name _ _ _ => name

def Tool.parameters : Tool → Value
  | function _ _ parameters _ => parameters

/-- The context a request asks to inherit is named once, and by a name. -/
def validateConversation (previous : Option String) (conversation : Option ConversationRef) :
    Except RequestViolation Unit :=
  match conversation with
  | none => .ok ()
  | some conversation => do
    ensure (!isBlank conversation.named) .emptyConversationId
    ensure previous.isNone .previousIdAndConversation

/-- The items of a request, in number, size and content. -/
def validateInput (guard : UrlGuard) (limits : ProtocolLimits) (items : List ResponseItem) :
    Except RequestViolation Unit := do
  let _ ← (limits.validateItems items).mapError .limits
  items.zipIdx.forM fun x ↦ (x.1.validate guard limits).mapError (.item x.2)

/-! ## The request -/

/-- Full semantic validation; the normalised input items on success. -/
def CreateResponseRequest.validate (guard : UrlGuard) (limits : ProtocolLimits)
    (r : CreateResponseRequest) : Except RequestViolation (List ResponseItem) := do
  ensure (!isBlank r.model) .emptyModel
  ensure (!(r.stream && r.background)) .streamAndBackground
  ensure (r.instructions.all fun s ↦ s.utf8ByteSize ≤ limits.maxInstructionsBytes)
    (.instructionsTooLong limits.maxInstructionsBytes)
  ensure (r.previousResponseId.all fun s ↦ !isBlank s) .emptyPreviousId
  validateConversation r.previousResponseId r.conversation
  ensure (r.maxOutputTokens != some 0) .zeroMaxOutputTokens
  ensure (r.temperature.all (·.within 0 2)) .temperatureOutOfRange
  ensure (r.topP.all (·.within 0 1)) .topPOutOfRange
  validateMetadata limits (r.metadata.getD [])
  (r.tools.getD []).forM fun tool ↦
    (limits.validateDepth tool.parameters).mapError (.toolParameters tool.name)
  validateInput guard limits r.input.toItems
  return r.input.toItems

/-- The turn a request describes, with the items and the anchor it was found to have. -/
def CreateResponseRequest.turnSpec (r : CreateResponseRequest) (items : List ResponseItem)
    (anchor : ContextAnchor) : TurnSpec where
  params := {
    model := r.model
    instructions := r.instructions
    tools := r.tools.getD []
    toolChoice := r.toolChoice
    metadata := r.metadata.getD [] }
  inputItems := items
  store := r.store
  anchor := anchor

end NovaChat
