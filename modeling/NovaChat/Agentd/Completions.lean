import NovaChat.Ports
import NovaChat.Wire.Request

/-!
# Completions requests

What the runner sends to a model provider, and the translation of a resolved item sequence into
provider messages.  The translation fails on exactly one kind of context: one with a tool output
that no earlier tool call announced.
-/

namespace NovaChat

/-! ## The provider's vocabulary -/

structure AssistantToolCall where
  id : String
  kind : String := "function"
  name : String
  arguments : String
  deriving DecidableEq, Repr

inductive CompletionsContent
  | text (text : String)
  | imageUrl (url : String)
  | fileRef (id : String)
  deriving DecidableEq, Repr

/-- A message in provider shape. -/
inductive CompletionsMessage
  | system (content : String)
  | user (content : List CompletionsContent)
  | assistant (content refusal : Option String) (toolCalls : List AssistantToolCall)
  | tool (toolCallId content : String)
  deriving DecidableEq, Repr

/-- A function offered to the model. -/
structure ToolSpec where
  kind : String := "function"
  name : String
  description : Option String
  parameters : Value
  strict : Option Bool

def ToolSpec.from : Tool → ToolSpec
  | .function name description parameters strict => { name, description, parameters, strict }

inductive CompletionsToolChoice
  | mode (m : ToolChoiceMode)
  | specific (kind name : String)
  deriving DecidableEq, Repr

def CompletionsToolChoice.from : ToolChoice → CompletionsToolChoice
  | .mode m => .mode m
  | .function name => .specific "function" name

/-- One completions request, ready to be scheduled. -/
structure CompletionsRequest where
  model : String
  messages : List CompletionsMessage
  tools : List ToolSpec := []
  toolChoice : Option CompletionsToolChoice := none
  maxCompletionTokens : Option ℕ := none
  temperature : Option FloatValue := none
  metadata : Metadata := []
  provenance : RequestProvenance

/-! ## Translation -/

inductive TranslationError
  | orphanToolOutput (callId : String)
  | emptyContext
  deriving DecidableEq, Repr

def TranslationError.text : TranslationError → String
  | orphanToolOutput callId =>
    s!"tool output for call `{callId}` has no preceding call in this context"
  | emptyContext => "context contains no messages to send"

/-- Concatenate the textual parts of an item. -/
def flattenText (parts : List ContentPart) : String :=
  parts.foldl (fun s p ↦ match p with
    | .inputText text | .outputText text => s ++ text
    | .inputImage .. | .inputFile .. | .refusal _ => s) ""

def contentPart : ContentPart → Option CompletionsContent
  | .inputText text | .outputText text => some (.text text)
  | .refusal _ => none
  | .inputImage (some url) _ _ => some (.imageUrl url)
  | .inputImage none (some id) _ => some (.fileRef id)
  | .inputImage none none _ => none
  | .inputFile (some id) _ _ => some (.fileRef id)
  | .inputFile none (some url) _ => some (.imageUrl url)
  | .inputFile none none _ => none

/-- The first refusal among the parts of an item. -/
def findRefusal (parts : List ContentPart) : Option String :=
  parts.findSome? fun
    | .refusal refusal => some refusal
    | _ => none

/-- The message of a message item. -/
def translateMessage (content : List ContentPart) : Role → CompletionsMessage
  | .system | .developer => .system (flattenText content)
  | .user => .user (content.filterMap contentPart)
  | .assistant => .assistant (some (flattenText content)) (findRefusal content) []

/-- A tool call joins the assistant message before it, if that one carries calls only. -/
def pushCall (out : List CompletionsMessage) (call : AssistantToolCall) :
    List CompletionsMessage :=
  match out.getLast? with
  | some (.assistant content refusal toolCalls) =>
    if content.isNone || toolCalls.isEmpty && content.isNone then
      out.dropLast ++ [.assistant content refusal (toolCalls ++ [call])]
    else out ++ [.assistant none none [call]]
  | _ => out ++ [.assistant none none [call]]

/-- The messages so far, and the calls they announced. -/
structure Translation where
  out : List CompletionsMessage := []
  knownCalls : List String := []

def translateItem (t : Translation) : ResponseItem → Except TranslationError Translation
  | .message role content _ _ => .ok { t with out := t.out ++ [translateMessage content role] }
  | .functionCall callId name arguments _ _ =>
    .ok ⟨pushCall t.out { id := callId, name, arguments }, t.knownCalls ++ [callId]⟩
  | .functionCallOutput callId output _ _ =>
    if t.knownCalls.contains callId then .ok { t with out := t.out ++ [.tool callId output] }
    else .error (.orphanToolOutput callId)

/-- Convert a resolved item sequence into provider messages. -/
def itemsToMessages (items : List ResponseItem) :
    Except TranslationError (List CompletionsMessage) :=
  (items.foldlM translateItem {}).map Translation.out

/-- Build a request from resolved context. -/
def CompletionsRequest.fromContext (model : String) (instructions : Option String)
    (items : List ResponseItem) (provenance : RequestProvenance) :
    Except TranslationError CompletionsRequest := do
  let head : List CompletionsMessage := match instructions with
    | some text => if text.isEmpty then [] else [.system text]
    | none => []
  let tail ← itemsToMessages items
  if (head ++ tail).isEmpty then .error .emptyContext
  else return { model, messages := head ++ tail, provenance }

/-! ## When it succeeds -/

/-- The call ids an item announces. -/
def ResponseItem.announced : ResponseItem → List String
  | functionCall callId _ _ _ _ => [callId]
  | message .. | functionCallOutput .. => []

/-- The call id an item answers, if it is a tool output. -/
def ResponseItem.answered : ResponseItem → Option String
  | functionCallOutput callId _ _ _ => some callId
  | message .. | functionCall .. => none

/-- The call ids announced in a sequence of items. -/
def callsOf (items : List ResponseItem) : List String := items.flatMap ResponseItem.announced

/-- The call ids answered in a sequence of items. -/
def answersOf (items : List ResponseItem) : List String := items.filterMap ResponseItem.answered

/-- Every tool output among `items` answers a call announced in `earlier` or before it. -/
def Paired (earlier items : List ResponseItem) : Prop :=
  ∀ before item after, items = before ++ item :: after →
    ∀ callId ∈ item.answered, callId ∈ callsOf (earlier ++ before)

section Paired

variable {earlier items xs ys : List ResponseItem} {item : ResponseItem}

theorem callsOf_append : callsOf (xs ++ ys) = callsOf xs ++ callsOf ys := List.flatMap_append

theorem answersOf_append : answersOf (xs ++ ys) = answersOf xs ++ answersOf ys :=
  List.filterMap_append

theorem mem_answersOf {callId : String} (hitem : item ∈ items) (hcall : callId ∈ item.answered) :
    callId ∈ answersOf items :=
  List.mem_filterMap.mpr ⟨item, hitem, hcall⟩

theorem paired_nil : Paired earlier [] := by
  intro before item after h
  cases before <;> cases h

theorem paired_cons : Paired earlier (item :: items) ↔
    (∀ callId ∈ item.answered, callId ∈ callsOf earlier) ∧ Paired (earlier ++ [item]) items := by
  constructor
  · intro h
    constructor
    · intro callId hcall
      simpa using h [] item items rfl callId hcall
    · intro before x after heq callId hcall
      have hearlier := h (item :: before) x after (by rw [heq]; rfl) callId hcall
      rwa [List.append_assoc]
  · rintro ⟨hitem, hitems⟩ before x after heq callId hcall
    cases before with
    | nil =>
        obtain ⟨rfl, -⟩ := List.cons.inj heq
        simpa using hitem callId hcall
    | cons y before =>
        obtain ⟨rfl, hrest⟩ := List.cons.inj heq
        have hearlier := hitems before x after hrest callId hcall
        rwa [List.append_assoc] at hearlier

theorem paired_append : Paired earlier (xs ++ ys) ↔
    Paired earlier xs ∧ Paired (earlier ++ xs) ys := by
  induction xs generalizing earlier with
  | nil => simp [paired_nil]
  | cons x xs ih =>
      rw [List.cons_append, paired_cons, paired_cons, ih, List.append_assoc]
      exact (and_assoc).symm

theorem paired_of_known (h : ∀ item ∈ items, ∀ callId ∈ item.answered, callId ∈ callsOf earlier) :
    Paired earlier items := by
  intro before item after heq callId hcall
  have hmem : item ∈ items := heq ▸ List.mem_append_right _ List.mem_cons_self
  rw [callsOf_append]
  exact List.mem_append_left _ (h item hmem callId hcall)

theorem Paired.behind (h : Paired [] items) (earlier : List ResponseItem) :
    Paired earlier items := by
  intro before item after heq callId hcall
  rw [callsOf_append]
  exact List.mem_append_right _ (h before item after heq callId hcall)

/-- A decision procedure for `Paired`, along the sequence. -/
def pairedBy : List String → List ResponseItem → Bool
  | _, [] => true
  | known, item :: items =>
    item.answered.all known.contains && pairedBy (known ++ item.announced) items

theorem pairedBy_iff : pairedBy (callsOf earlier) items = true ↔ Paired earlier items := by
  induction items generalizing earlier with
  | nil => simp [pairedBy, paired_nil]
  | cons item items ih =>
      have hknown : callsOf (earlier ++ [item]) = callsOf earlier ++ item.announced := by
        simp [callsOf]
      rw [paired_cons, ← ih, hknown]
      cases item <;> simp [pairedBy, ResponseItem.answered]

instance : Decidable (Paired earlier items) := decidable_of_iff _ pairedBy_iff

/-- A translation keeps the calls it has met. -/
theorem translateItem_knownCalls {t t' : Translation} (h : translateItem t item = .ok t') :
    t'.knownCalls = t.knownCalls ++ item.announced := by
  cases item with
  | functionCallOutput callId output id status =>
      simp only [translateItem] at h
      split at h
      · rw [← Except.ok.inj h]
        simp [ResponseItem.announced]
      · cases h
  | message role content id status =>
      rw [← Except.ok.inj h]
      simp [ResponseItem.announced]
  | functionCall callId name arguments id status =>
      rw [← Except.ok.inj h]
      simp [ResponseItem.announced]

theorem translateItem_isOk (t : Translation) : (translateItem t item).isOk = true ↔
    ∀ callId ∈ item.answered, callId ∈ t.knownCalls := by
  cases item with
  | functionCallOutput callId output id status =>
      by_cases h : callId ∈ t.knownCalls <;>
        simp [translateItem, ResponseItem.answered, h, Except.isOk, Except.toBool]
  | _ => simp [translateItem, ResponseItem.answered, Except.isOk, Except.toBool]

theorem foldlM_isOk {t : Translation} (ht : t.knownCalls = callsOf earlier) :
    (items.foldlM translateItem t).isOk = true ↔ Paired earlier items := by
  induction items generalizing t earlier with
  | nil => exact iff_of_true rfl paired_nil
  | cons item items ih =>
      rw [paired_cons, List.foldlM_cons, ← ht, ← translateItem_isOk t]
      cases hitem : translateItem t item with
      | error e => simp [Except.isOk, Except.toBool, Bind.bind, Except.bind]
      | ok t' =>
          have hknown : t'.knownCalls = callsOf (earlier ++ [item]) := by
            rw [translateItem_knownCalls hitem, ht]
            simp [callsOf]
          rw [← ih hknown]
          simp [Except.isOk, Except.toBool, Bind.bind, Except.bind]

theorem itemsToMessages_isOk : (itemsToMessages items).isOk = true ↔ Paired [] items := by
  rw [← foldlM_isOk (t := {}) rfl, itemsToMessages]
  cases items.foldlM translateItem {} <;> rfl

end Paired

end NovaChat
