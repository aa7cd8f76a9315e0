import NovaChat.Protocol
import Mathlib.Algebra.BigOperators.Group.List.Basic

/-!
# Bounds on what a caller sends

Every bound in one record, and the checks that apply it: item counts and sizes, the nesting of free
JSON, the references of content parts.  Whether a URL may be fetched is decided by a guard that the
checks are given.
-/

namespace NovaChat

theorem defaultTotalBytes_le : 1024 * 1024 ≤ u64Max := by decide

/-- Every bound on caller-supplied input.  The total is compared with a sum of machine words, and is
one itself. -/
structure ProtocolLimits where
  maxItems : ℕ := 200
  maxItemBytes : ℕ := 256 * 1024
  maxTotalBytes : ℕ := 1024 * 1024
  maxJsonDepth : ℕ := 32
  maxInstructionsBytes : ℕ := 32 * 1024
  maxMetadataEntries : ℕ := 16
  maxMetadataKeyBytes : ℕ := 64
  maxMetadataValueBytes : ℕ := 512
  maxUrlBytes : ℕ := 2048
  maxBusinessKindBytes : ℕ := 64
  maxBusinessPayloadBytes : ℕ := 16 * 1024
  word : maxTotalBytes ≤ u64Max := by first | exact defaultTotalBytes_le | decide
  deriving Repr

inductive LimitViolation
  | tooManyItems (actual max : ℕ)
  | itemTooLarge (index actual max : ℕ)
  | totalTooLarge (actual max : ℕ)
  | tooDeep (actual max : ℕ)
  | empty
  deriving DecidableEq, Repr

def LimitViolation.text : LimitViolation → String
  | tooManyItems actual max => s!"input has {actual} items, limit is {max}"
  | itemTooLarge index actual max => s!"item {index} is {actual} bytes, limit is {max}"
  | totalTooLarge actual max => s!"input totals {actual} bytes, limit is {max}"
  | tooDeep actual max => s!"json nesting depth {actual} exceeds limit {max}"
  | empty => "input must not be empty"

/-! ## Nesting depth -/

/-- What is directly inside a value. -/
def Value.children : Value → List Value
  | array items => items
  | object map => map.map Prod.snd
  | _ => []

theorem Value.sum_children_lt (v : Value) : (v.children.map sizeOf).sum < sizeOf v := by
  have hitems : ∀ items : List Value, (items.map sizeOf).sum < 1 + sizeOf items := by
    intro items
    induction items with
    | nil => simp
    | cons item items ih =>
        simp only [List.map_cons, List.sum_cons, List.cons.sizeOf_spec]
        omega
  have hmap : ∀ map : List (String × Value),
      ((map.map Prod.snd).map sizeOf).sum < 1 + sizeOf map := by
    intro map
    induction map with
    | nil => simp
    | cons entry map ih =>
        obtain ⟨key, item⟩ := entry
        simp only [List.map_cons, List.sum_cons, List.cons.sizeOf_spec, Prod.mk.sizeOf_spec]
        omega
  cases v with
  | array items => simpa [children] using hitems items
  | object map => simpa [children] using hmap map
  | _ => simp [children]

/-- Push the children of a node, each one level deeper. -/
def pushChildren (items : List Value) (depth : ℕ) (stack : List (Value × ℕ)) :
    List (Value × ℕ) :=
  items.foldl (fun stack item ↦ (item, depth) :: stack) stack

theorem pushChildren_eq (items : List Value) (depth : ℕ) (stack : List (Value × ℕ)) :
    pushChildren items depth stack = (items.map fun item ↦ (item, depth)).reverse ++ stack := by
  unfold pushChildren
  induction items generalizing stack with
  | nil => rfl
  | cons item items ih => simp [ih]

/-- The loop of `json_depth`: take a node off the stack, note its depth, push its children. -/
def jsonDepthLoop : List (Value × ℕ) → ℕ → ℕ
  | [], maxDepth => maxDepth
  | (node, depth) :: stack, maxDepth =>
    jsonDepthLoop (pushChildren node.children (depth + 1) stack) (max maxDepth depth)
termination_by stack => (stack.map fun x ↦ sizeOf x.1).sum
decreasing_by
  have hchildren := node.sum_children_lt
  simp only [pushChildren_eq, List.map_append, List.map_reverse, List.map_map, List.sum_append,
    List.sum_reverse, List.map_cons, List.sum_cons]
  exact Nat.add_lt_add_right hchildren _

/-- Iterative depth measurement. -/
def jsonDepth (value : Value) : ℕ := jsonDepthLoop [(value, 1)] 0

/-- Guard free-form JSON against deeply nested documents. -/
def ProtocolLimits.validateDepth (limits : ProtocolLimits) (value : Value) :
    Except LimitViolation Unit :=
  if jsonDepth value > limits.maxJsonDepth then
    .error (.tooDeep (jsonDepth value) limits.maxJsonDepth)
  else .ok ()

/-! ## Item sizes -/

/-- The size of each item is checked in turn, and the sizes are added up. -/
def ProtocolLimits.totalBytes (limits : ProtocolLimits) :
    List ResponseItem → ℕ → ℕ → Except LimitViolation ℕ
  | [], _, total => .ok total
  | item :: items, index, total =>
    if item.byteLen > limits.maxItemBytes then
      .error (.itemTooLarge index item.byteLen limits.maxItemBytes)
    else limits.totalBytes items (index + 1) (satAdd total item.byteLen)

/-- The total byte size, when every bound on the items is met. -/
def ProtocolLimits.validateItems (limits : ProtocolLimits) (items : List ResponseItem) :
    Except LimitViolation ℕ :=
  if items.isEmpty then .error .empty
  else if items.length > limits.maxItems then
    .error (.tooManyItems items.length limits.maxItems)
  else
    match limits.totalBytes items 0 0 with
    | .error e => .error e
    | .ok total =>
      if total > limits.maxTotalBytes then .error (.totalTooLarge total limits.maxTotalBytes)
      else .ok total

/-! ## References of content parts -/

inductive UrlRejection
  | malformed
  | schemeNotAllowed (scheme : String)
  | missingHost
  | privateAddress
  | embeddedCredentials
  | tooLong (max : ℕ)
  deriving DecidableEq, Repr

def UrlRejection.text : UrlRejection → String
  | malformed => "malformed url"
  | schemeNotAllowed scheme => s!"scheme `{scheme}` is not allowed; only https is accepted"
  | missingHost => "url has no host"
  | privateAddress => "host resolves to a non-public address range"
  | embeddedCredentials => "credentials in url are not allowed"
  | tooLong max => s!"url exceeds {max} bytes"

/-- A guard says of a URL and a length bound whether the URL may be fetched. -/
abbrev UrlGuard := String → ℕ → Except UrlRejection Unit

inductive ContentViolation
  | missingReference (part : String)
  | rejectedUrl (part : String) (source : UrlRejection)
  deriving DecidableEq, Repr

def ContentViolation.text : ContentViolation → String
  | missingReference part => s!"{part} requires either a file id or a url reference"
  | rejectedUrl part source => s!"{part} url rejected: {source.text}"

/-- A part that refers to something has a reference, and its URL is vetted whenever it has one. -/
def checkReference (guard : UrlGuard) (limits : ProtocolLimits) (part : String)
    (url fileId : Option String) : Except ContentViolation Unit :=
  match url, fileId with
  | none, none => .error (.missingReference part)
  | some url, _ => (guard url limits.maxUrlBytes).mapError (.rejectedUrl part)
  | none, some _ => .ok ()

/-- Validate reference shape and URL safety. -/
def ContentPart.validateReferences (guard : UrlGuard) (limits : ProtocolLimits) :
    ContentPart → Except ContentViolation Unit
  | inputImage imageUrl fileId _ => checkReference guard limits "input_image" imageUrl fileId
  | inputFile fileId fileUrl _ => checkReference guard limits "input_file" fileUrl fileId
  | inputText _ | outputText _ | refusal _ => .ok ()

/-! ## Items -/

inductive ItemViolation
  | emptyMessageContent
  | emptyCallId
  | emptyFunctionName
  | content (source : ContentViolation)
  deriving DecidableEq, Repr

def ItemViolation.text : ItemViolation → String
  | emptyMessageContent => "message content must not be empty"
  | emptyCallId => "call_id must not be empty"
  | emptyFunctionName => "function name must not be empty"
  | content source => s!"item content invalid: {source.text}"

namespace ResponseItem

/-- The `type` an item is tagged with on the wire. -/
def itemType : ResponseItem → String
  | message .. => "message"
  | functionCall .. => "function_call"
  | functionCallOutput .. => "function_call_output"

/-- Chain closure predicate: every variant is accepted on input. -/
def isAcceptableAsInput : ResponseItem → Bool
  | message .. | functionCall .. | functionCallOutput .. => true

def validate (guard : UrlGuard) (limits : ProtocolLimits) :
    ResponseItem → Except ItemViolation Unit
  | message _ content _ _ =>
    if content.isEmpty then .error .emptyMessageContent
    else content.forM fun part ↦ (part.validateReferences guard limits).mapError .content
  | functionCall callId name _ _ _ =>
    if callId.isEmpty then .error .emptyCallId
    else if name.isEmpty then .error .emptyFunctionName
    else .ok ()
  | functionCallOutput callId _ _ _ =>
    if callId.isEmpty then .error .emptyCallId else .ok ()

/-- A plain user text turn. -/
def userText (text : String) : ResponseItem :=
  message .user [.inputText text] none none

end ResponseItem

end NovaChat
