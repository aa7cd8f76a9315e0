import NovaChat.Wire.Canonical
import NovaChat.Wire.Envelope
import NovaChat.Wire.Request

/-!
# Numbers read back

A float is written as a decimal and need not be the float that the parser makes of that decimal.  A
value is read back as it was written exactly when every number in it is.  In an event the numbers of
the service's own come back, and the ones a caller chose stand in the parameters of tools and among
the metadata of a response object.
-/

namespace NovaChat

section Values

variable (read : Number → Option Number)

mutual

/-- The value with every number as it is read back. -/
def reread : Value → Option Value
  | .null => some .null
  | .bool b => some (.bool b)
  | .string s => some (.string s)
  | .number n => (read n).map .number
  | .array items => (rereadItems items).map .array
  | .object map => (rereadEntries map).map .object

def rereadItems : List Value → Option (List Value)
  | [] => some []
  | v :: vs => (reread v).bind fun v' ↦ (rereadItems vs).map (v' :: ·)

def rereadEntries : List (String × Value) → Option (List (String × Value))
  | [] => some []
  | (key, v) :: map => (reread v).bind fun v' ↦ (rereadEntries map).map ((key, v') :: ·)

end

/-- The number is read back as it was written. -/
def ComesBack (n : Number) : Prop := read n = some n

variable {read}

theorem bind_map_cons_eq_some {α β : Type} {o : Option α} {os : Option (List β)} {f : α → β}
    {b : β} {bs : List β} :
    (o.bind fun a ↦ os.map (f a :: ·)) = some (b :: bs) ↔ o.map f = some b ∧ os = some bs := by
  cases o <;> cases os <;> simp

mutual

/-- A value is read back exactly when its numbers are. -/
theorem reread_eq_self_iff : ∀ {v : Value},
    reread read v = some v ↔ Numbers (ComesBack read) v
  | .null | .bool _ | .string _ => iff_of_true rfl trivial
  | .number n => by
      rw [reread, Numbers, ComesBack, Option.map_eq_some_iff]
      simp
  | .array items => by
      rw [reread, Numbers, ← rereadItems_eq_self_iff, Option.map_eq_some_iff]
      simp
  | .object map => by
      rw [reread, Numbers, ← rereadEntries_eq_self_iff, Option.map_eq_some_iff]
      simp

theorem rereadItems_eq_self_iff : ∀ {vs : List Value},
    rereadItems read vs = some vs ↔ NumbersItems (ComesBack read) vs
  | [] => iff_of_true rfl trivial
  | v :: vs => by
      rw [rereadItems, NumbersItems, ← reread_eq_self_iff, ← rereadItems_eq_self_iff]
      exact bind_map_cons_eq_some (f := fun v ↦ v).trans (by rw [Option.map_id'])

theorem rereadEntries_eq_self_iff : ∀ {map : List (String × Value)},
    rereadEntries read map = some map ↔ NumbersEntries (ComesBack read) map
  | [] => iff_of_true rfl trivial
  | (key, v) :: map => by
      rw [rereadEntries, NumbersEntries, bind_map_cons_eq_some (f := (key, ·)),
        Option.map_eq_some_iff, ← reread_eq_self_iff, ← rereadEntries_eq_self_iff]
      simp

end

theorem rereadEntries_append (map map' : List (String × Value)) :
    rereadEntries read (map ++ map') =
      (rereadEntries read map).bind fun m ↦ (rereadEntries read map').map (m ++ ·) := by
  induction map with
  | nil =>
      simp only [List.nil_append, rereadEntries, Option.bind_some]
      exact (congrFun Option.map_id _).symm
  | cons e map ih =>
      rw [List.cons_append, rereadEntries, rereadEntries, ih]
      cases reread read e.2 <;> cases rereadEntries read map <;> cases rereadEntries read map' <;>
        rfl

/-- Where each element is rewritten before it is rendered, so is a list of them. -/
theorem rereadItems_map {α : Type} {render : α → Value} {f : α → Option α}
    (h : ∀ a, reread read (render a) = (f a).map render) (l : List α) :
    rereadItems read (l.map render) = (l.mapM f).map (List.map render) := by
  induction l with
  | nil => rfl
  | cons a l ih =>
      rw [List.map_cons, rereadItems, h, ih, List.mapM_cons]
      cases f a <;> cases l.mapM f <;> rfl

end Values

theorem mapM_eq_self_iff {α : Type} {f : α → Option α} {l : List α} :
    l.mapM f = some l ↔ ∀ a ∈ l, f a = some a := by
  induction l with
  | nil => simp
  | cons a l ih =>
      rw [List.mapM_cons, List.forall_mem_cons, ← ih]
      cases f a <;> cases l.mapM f <;> simp

/-! ## Events -/

section Events

variable {P : Number → Prop} {read : Number → Option Number}

variable (read) in
def Tool.reread : Tool → Option Tool
  | .function name description parameters strict =>
    (NovaChat.reread read parameters).map (.function name description · strict)

variable (read) in
def MetadataValue.reread : MetadataValue → Option MetadataValue
  | .string s => some (.string s)
  | .number n => (read n).map .number
  | .bool b => some (.bool b)

variable (read) in
def ResponseObject.reread (o : ResponseObject) : Option ResponseObject := do
  let tools ← o.tools.mapM (Tool.reread read)
  let metadata ← o.metadata.mapM fun e ↦ (e.2.reread read).map (e.1, ·)
  return { o with tools, metadata }

variable (read) in
/-- The body with the numbers a caller chose as they are read back. -/
def EventBody.reread : EventBody → Option EventBody
  | .response object => (object.reread read).map .response
  | body => some body

/-- The numbers a caller chose have the property. -/
def EventBody.NumbersIn (P : Number → Prop) : EventBody → Prop
  | .response object => (∀ tool ∈ object.tools, Numbers P tool.parameters) ∧
      ∀ e ∈ object.metadata, Numbers P e.2.toValue
  | _ => True

theorem numbersEntries_bool (key : String) (o : Option Bool) :
    NumbersEntries P (optEntry key .bool o) := by
  cases o <;> simp [optEntry, NumbersEntries, Numbers]

theorem numbersEntries_ofNat {key : String} {o : Option ℕ} (h : ∀ n ∈ o, P (.int n)) :
    NumbersEntries P (optEntry key Value.ofNat o) := by
  cases o with
  | none => trivial
  | some n => exact ⟨h n rfl, trivial⟩

theorem numbersItems_iff {vs : List Value} : NumbersItems P vs ↔ ∀ v ∈ vs, Numbers P v := by
  induction vs with
  | nil => simp [NumbersItems]
  | cons v vs ih => rw [NumbersItems, ih, List.forall_mem_cons]

theorem numbers_tool {tool : Tool} (h : Numbers P tool.parameters) : Numbers P tool.toValue := by
  cases tool
  simpa [Tool.toValue, Tool.parameters, Numbers, NumbersEntries, numbersEntries_append,
    numbersEntries_string, numbersEntries_bool] using h

theorem numbers_response (hint : ∀ n : ℕ, n ≤ u64Max → P (.int n)) {o : ResponseObject}
    (ho : o.Typed) (htools : ∀ tool ∈ o.tools, Numbers P tool.parameters)
    (hmetadata : ∀ e ∈ o.metadata, Numbers P e.2.toValue) : Numbers P o.toValue := by
  have hconversation : NumbersEntries P
      (optEntry "conversation" ConversationRef.toValue o.conversation) := by
    rcases o.conversation with _ | _ | _ <;>
      simp [optEntry, ConversationRef.toValue, NumbersEntries, Numbers]
  have hinstructions : Numbers P ((o.instructions.map Value.string).getD .null) := by
    cases o.instructions <;> simp [Numbers]
  have htoolChoice : NumbersEntries P
      (optEntry "tool_choice" ToolChoice.toValue o.toolChoice) := by
    rcases o.toolChoice with _ | _ | _ <;>
      simp [optEntry, ToolChoice.toValue, NumbersEntries, Numbers]
  have hlisted : NumbersEntries P (ResponseObject.nonempty "tools"
      (fun tools ↦ .array (tools.map Tool.toValue)) o.tools) := by
    rw [ResponseObject.nonempty]
    split
    · trivial
    · refine ⟨numbersItems_iff.mpr fun v hv ↦ ?_, trivial⟩
      obtain ⟨tool, htool, rfl⟩ := List.mem_map.mp hv
      exact numbers_tool (htools tool htool)
  have hechoed : NumbersEntries P (ResponseObject.nonempty "metadata"
      (fun map ↦ .object (map.map fun e ↦ (e.1, e.2.toValue))) o.metadata) := by
    rw [ResponseObject.nonempty]
    split
    · trivial
    · refine ⟨numbersEntries_iff.mpr fun e he ↦ ?_, trivial⟩
      obtain ⟨e', he', rfl⟩ := List.mem_map.mp he
      exact hmetadata e' he'
  have husage : Numbers P o.usage.toValue :=
    ⟨hint _ ho.inputTokens, hint _ ho.outputTokens, hint _ (Nat.min_le_right _ _), trivial⟩
  have hitems : ∀ items : List ResponseItem, NumbersItems P (items.map ResponseItem.toValue) :=
    numbersItems_map numbers_item
  have hcreatedAt : Numbers P (.ofNat o.createdAt) := hint _ ho.createdAt
  simp only [ResponseObject.toValue, ResponseObject.entries, Numbers, NumbersEntries,
    numbersEntries_append, numbersEntries_string, List.cons_append, hconversation, hinstructions,
    htoolChoice, hlisted, hechoed, husage, hitems, hcreatedAt, and_self]

theorem numbers_wire (hint : ∀ n : ℕ, n ≤ u64Max → P (.int n)) {w : WireEvent}
    (hbody : w.body.Typed) (hseq : ∀ n ∈ w.sequenceNumber, n ≤ u64Max)
    (hnumbers : w.body.NumbersIn P) : Numbers P w.toValue := by
  have hattempt : Numbers P ((w.attempt.map fun a ↦ Value.ofNat a.val).getD .null) := by
    cases w.attempt with
    | none => trivial
    | some a => exact hint _ a.bounded
  have hnumber : NumbersEntries P (optEntry "sequence_number" Value.ofNat w.sequenceNumber) :=
    numbersEntries_ofNat fun n hn ↦ hint n (hseq n hn)
  have hindex : ∀ n : ℕ, n ≤ u32Max → Numbers P (.ofNat n) := fun n hn ↦
    hint n (hn.trans (by decide))
  have hentries : NumbersEntries P w.body.entries := by
    cases hw : w.body with
    | delta itemId outputIndex contentIndex piece =>
        rw [hw] at hbody
        have hcontent : NumbersEntries P (optEntry "content_index" Value.ofNat contentIndex) :=
          numbersEntries_ofNat fun n hn ↦ hindex n (hbody.2 n hn)
        simp only [EventBody.entries, NumbersEntries, Numbers, numbersEntries_append,
          List.cons_append, hindex _ hbody.1, hcontent, and_self]
    | item outputIndex added =>
        rw [hw] at hbody
        exact ⟨hindex _ hbody, numbers_item added, trivial⟩
    | arguments outputIndex itemId json =>
        rw [hw] at hbody
        exact ⟨hindex _ hbody, trivial, trivial, trivial⟩
    | text itemId outputIndex contentIndex whole =>
        rw [hw] at hbody
        exact ⟨trivial, hindex _ hbody.1, hindex _ hbody.2, trivial, trivial⟩
    | part itemId outputIndex contentIndex content =>
        rw [hw] at hbody
        exact ⟨trivial, hindex _ hbody.1, hindex _ hbody.2, numbers_part content, trivial⟩
    | response object =>
        rw [hw] at hbody hnumbers
        exact ⟨numbers_response hint hbody hnumbers.1 hnumbers.2, trivial⟩
  simp only [WireEvent.toValue, WireEvent.entries, Numbers, NumbersEntries, numbersEntries_append,
    List.cons_append, hattempt, hnumber, hentries, and_self]

theorem reread_tool (tool : Tool) :
    reread read tool.toValue = (tool.reread read).map Tool.toValue := by
  cases tool with
  | function name description parameters strict =>
      have hdescription : rereadEntries read (optEntry "description" .string description) =
          some (optEntry "description" .string description) :=
        rereadEntries_eq_self_iff.mpr (numbersEntries_string _ _)
      have hstrict : rereadEntries read (optEntry "strict" .bool strict) =
          some (optEntry "strict" .bool strict) :=
        rereadEntries_eq_self_iff.mpr (numbersEntries_bool _ _)
      simp only [Tool.toValue, Tool.reread, reread, rereadEntries, rereadEntries_append,
        List.cons_append, hdescription, hstrict, Option.bind_some, Option.map_some]
      cases reread read parameters <;> rfl

theorem reread_metadata (v : MetadataValue) :
    reread read v.toValue = (v.reread read).map MetadataValue.toValue := by
  cases v with
  | string s => rfl
  | number n =>
      rw [MetadataValue.toValue, MetadataValue.reread, reread, Option.map_map]
      rfl
  | bool b => rfl

theorem Tool.reread_eq_self_iff {tool : Tool} :
    tool.reread read = some tool ↔ Numbers (ComesBack read) tool.parameters := by
  cases tool with
  | function name description parameters strict =>
      rw [Tool.reread, Tool.parameters, ← NovaChat.reread_eq_self_iff, Option.map_eq_some_iff]
      simp

theorem rereadEntries_map (map : Metadata) :
    rereadEntries read (map.map fun e ↦ (e.1, e.2.toValue)) =
      (map.mapM fun e : String × MetadataValue ↦ (e.2.reread read).map (e.1, ·)).map
        (List.map fun e ↦ (e.1, e.2.toValue)) := by
  induction map with
  | nil => rfl
  | cons e map ih =>
      rw [List.map_cons, rereadEntries, reread_metadata, ih, List.mapM_cons]
      cases e.2.reread read <;>
        cases map.mapM (fun e : String × MetadataValue ↦ (e.2.reread read).map (e.1, ·)) <;> rfl

theorem MetadataValue.reread_eq_self_iff {v : MetadataValue} :
    v.reread read = some v ↔ Numbers (ComesBack read) v.toValue := by
  cases v with
  | string s => exact iff_of_true rfl trivial
  | number n =>
      rw [MetadataValue.reread, Option.map_eq_some_iff]
      simp [MetadataValue.toValue, Numbers, ComesBack]
  | bool b => exact iff_of_true rfl trivial

theorem EventBody.reread_eq_self_iff {body : EventBody} :
    body.reread read = some body ↔ body.NumbersIn (ComesBack read) := by
  cases body with
  | response object =>
      have htools : object.tools.mapM (Tool.reread read) = some object.tools ↔
          ∀ tool ∈ object.tools, Numbers (ComesBack read) tool.parameters :=
        mapM_eq_self_iff.trans (forall₂_congr fun _ _ ↦ Tool.reread_eq_self_iff)
      have hmetadata : (object.metadata.mapM fun e ↦ (e.2.reread read).map (e.1, ·)) =
          some object.metadata ↔ ∀ e ∈ object.metadata, Numbers (ComesBack read) e.2.toValue := by
        refine mapM_eq_self_iff.trans (forall₂_congr fun e _ ↦ ?_)
        rw [← MetadataValue.reread_eq_self_iff, Option.map_eq_some_iff]
        cases e
        simp
      rw [EventBody.NumbersIn, ← htools, ← hmetadata, EventBody.reread, ResponseObject.reread]
      cases object
      simp [Option.bind_eq_some_iff]
  | _ => exact iff_of_true rfl trivial

theorem rereadEntries_nonempty {α : Type} {f : α → Option α} {key : String}
    {render : List α → Value} (h : ∀ l, reread read (render l) = (l.mapM f).map render)
    (l : List α) : rereadEntries read (ResponseObject.nonempty key render l) =
      (l.mapM f).map (ResponseObject.nonempty key render) := by
  cases l with
  | nil => rfl
  | cons a l =>
      rw [ResponseObject.nonempty, if_neg (by simp), rereadEntries, h, List.mapM_cons]
      cases f a <;> cases l.mapM f <;> rfl

/-- Apart from the numbers a caller chose, a response object is read back as it was written. -/
theorem reread_response (hint : ∀ n : ℕ, n ≤ u64Max → ComesBack read (.int n)) {o : ResponseObject}
    (ho : o.Typed) : reread read o.toValue = (o.reread read).map ResponseObject.toValue := by
  have hrest : Numbers (ComesBack read) ({ o with tools := [], metadata := [] }).toValue :=
    numbers_response hint ⟨ho.1, ho.2, ho.3⟩ (fun _ h ↦ (List.not_mem_nil h).elim)
      fun _ h ↦ (List.not_mem_nil h).elim
  have htools : rereadEntries read (ResponseObject.nonempty "tools"
        (fun tools ↦ .array (tools.map Tool.toValue)) o.tools) =
      (o.tools.mapM (Tool.reread read)).map
        (ResponseObject.nonempty "tools" fun tools ↦ .array (tools.map Tool.toValue)) := by
    refine rereadEntries_nonempty (fun l ↦ ?_) o.tools
    rw [reread, rereadItems_map reread_tool, Option.map_map]
    rfl
  have hmetadata : rereadEntries read (ResponseObject.nonempty "metadata"
        (fun map ↦ .object (map.map fun e ↦ (e.1, e.2.toValue))) o.metadata) =
      (o.metadata.mapM fun e : String × MetadataValue ↦ (e.2.reread read).map (e.1, ·)).map
        (ResponseObject.nonempty "metadata"
          fun map ↦ .object (map.map fun e ↦ (e.1, e.2.toValue))) := by
    refine rereadEntries_nonempty (fun l ↦ ?_) o.metadata
    rw [reread, rereadEntries_map, Option.map_map]
    rfl
  simp only [ResponseObject.toValue, ResponseObject.entries, Numbers, NumbersEntries,
    numbersEntries_append, List.cons_append, true_and, and_true, and_assoc] at hrest
  obtain ⟨hcreated, hprevious, hconversation, hinstructions, hinput, houtput, hreasoning, -,
    hchoice, -, husage⟩ := hrest
  simp only [ResponseObject.toValue, ResponseObject.entries, reread, rereadEntries,
    rereadEntries_append, List.cons_append, reread_eq_self_iff.mpr hcreated,
    rereadEntries_eq_self_iff.mpr hprevious, rereadEntries_eq_self_iff.mpr hconversation,
    reread_eq_self_iff.mpr hinstructions, rereadItems_eq_self_iff.mpr hinput,
    rereadItems_eq_self_iff.mpr houtput, rereadEntries_eq_self_iff.mpr hreasoning, htools,
    rereadEntries_eq_self_iff.mpr hchoice, hmetadata, reread_eq_self_iff.mpr husage,
    Option.bind_some, Option.map_some, ResponseObject.reread]
  cases o.tools.mapM (Tool.reread read) <;>
    cases o.metadata.mapM (fun e ↦ (e.2.reread read).map (e.1, ·)) <;> rfl

theorem EventBody.Typed.reread {body body' : EventBody} (h : body.Typed)
    (hread : body.reread read = some body') : body'.Typed := by
  cases body with
  | response object =>
      obtain ⟨object', hobject, rfl⟩ := Option.map_eq_some_iff.mp hread
      obtain ⟨tools, -, hobject⟩ := Option.bind_eq_some_iff.mp hobject
      obtain ⟨metadata, -, hobject⟩ := Option.bind_eq_some_iff.mp hobject
      obtain rfl := Option.some.inj hobject
      exact ⟨h.1, h.2, h.3⟩
  | _ =>
      obtain rfl := Option.some.inj hread
      exact h

/-- Apart from the numbers a caller chose, an event is read back as it was written. -/
theorem reread_wire (hint : ∀ n : ℕ, n ≤ u64Max → ComesBack read (.int n)) {w : WireEvent}
    (hbody : w.body.Typed) (hseq : ∀ n ∈ w.sequenceNumber, n ≤ u64Max) :
    reread read w.toValue =
      (w.body.reread read).map fun body ↦ ({ w with body }).toValue := by
  cases hw : w.body with
  | response object =>
      rw [hw] at hbody
      have hattempt : reread read ((w.attempt.map fun a ↦ Value.ofNat a.val).getD .null) =
          some ((w.attempt.map fun a ↦ Value.ofNat a.val).getD .null) := by
        cases w.attempt with
        | none => rfl
        | some a => exact reread_eq_self_iff.mpr (hint _ a.bounded)
      have hnumber : rereadEntries read (optEntry "sequence_number" Value.ofNat w.sequenceNumber) =
          some (optEntry "sequence_number" Value.ofNat w.sequenceNumber) :=
        rereadEntries_eq_self_iff.mpr (numbersEntries_ofNat fun n hn ↦ hint n (hseq n hn))
      simp only [WireEvent.toValue, WireEvent.entries, hw, EventBody.entries, EventBody.reread,
        reread, rereadEntries, rereadEntries_append, List.cons_append, hattempt, hnumber,
        reread_response hint hbody, Option.bind_some, Option.map_some]
      cases object.reread read <;> rfl
  | _ =>
      rw [reread_eq_self_iff.mpr (numbers_wire hint hbody hseq (by rw [hw]; trivial))]
      cases w
      simp_all [EventBody.reread]

end Events

end NovaChat
