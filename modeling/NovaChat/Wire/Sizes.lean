import NovaChat.Wire.Request

/-!
# How much an accepted request carries

The validation bounds the bytes of an item and of all items together.  It counts every string of an
item except its id, so what it lets through is within the bounds as long as the ids fit into what
the rest leaves of them.
-/

namespace NovaChat

/-! ## The strings of an item -/

/-- The strings a caller puts into a part. -/
def ContentPart.strings : ContentPart → List String
  | inputText text | outputText text | refusal text => [text]
  | inputImage imageUrl fileId _ => imageUrl.toList ++ fileId.toList
  | inputFile fileId fileUrl filename => fileId.toList ++ fileUrl.toList ++ filename.toList

def ResponseItem.id : ResponseItem → Option String
  | message _ _ id _ | functionCall _ _ _ id _ | functionCallOutput _ _ id _ => id

/-- The strings a caller puts into an item, its id at the end. -/
def ResponseItem.strings : ResponseItem → List String
  | message _ content id _ => content.flatMap ContentPart.strings ++ id.toList
  | functionCall callId name arguments id _ => [callId, name, arguments] ++ id.toList
  | functionCallOutput callId output id _ => [callId, output] ++ id.toList

def bytesOf (strings : List String) : ℕ := (strings.map String.utf8ByteSize).sum

/-- The bytes of all the strings of an item. -/
def ResponseItem.carriedBytes (item : ResponseItem) : ℕ := bytesOf item.strings

theorem bytesOf_append (xs ys : List String) : bytesOf (xs ++ ys) = bytesOf xs + bytesOf ys := by
  simp [bytesOf]

theorem bytesOf_toList (v : Option String) : bytesOf v.toList = optLen v := by
  cases v <;> simp [bytesOf, optLen]

theorem ContentPart.bytesOf_strings (part : ContentPart) : bytesOf part.strings = part.byteLen := by
  cases part with
  | inputText text => simp [strings, bytesOf, byteLen]
  | outputText text => simp [strings, bytesOf, byteLen]
  | refusal text => simp [strings, bytesOf, byteLen]
  | inputImage imageUrl fileId detail =>
      rw [strings, bytesOf_append, bytesOf_toList, bytesOf_toList, byteLen]
  | inputFile fileId fileUrl filename =>
      simp only [strings, bytesOf_append, bytesOf_toList, byteLen]

/-- The code counts everything but the id. -/
theorem ResponseItem.carriedBytes_eq (item : ResponseItem) :
    item.carriedBytes = item.byteLen + optLen item.id := by
  have hparts : ∀ content : List ContentPart,
      bytesOf (content.flatMap ContentPart.strings) = (content.map ContentPart.byteLen).sum := by
    intro content
    induction content with
    | nil => rfl
    | cons part content ih =>
        rw [List.flatMap_cons, bytesOf_append, ih, ContentPart.bytesOf_strings, List.map_cons,
          List.sum_cons]
  cases item with
  | message role content id status =>
      rw [carriedBytes, strings, bytesOf_append, bytesOf_toList, hparts]
      rfl
  | functionCall callId name arguments id status =>
      rw [carriedBytes, strings, bytesOf_append, bytesOf_toList]
      simp [bytesOf, byteLen, ResponseItem.id, Nat.add_assoc]
  | functionCallOutput callId output id status =>
      rw [carriedBytes, strings, bytesOf_append, bytesOf_toList]
      simp [bytesOf, byteLen, ResponseItem.id]

/-! ## What is accepted -/

theorem mapError_eq_ok {ε ε' α : Type} {f : ε → ε'} {x : Except ε α} {a : α}
    (h : x.mapError f = .ok a) : x = .ok a := by
  cases x
  · cases h
  · exact congrArg Except.ok (Except.ok.inj h)

theorem bind_eq_ok {ε α β : Type} {x : Except ε α} {f : α → Except ε β} {b : β}
    (h : (x >>= f) = .ok b) : ∃ a, x = .ok a ∧ f a = .ok b := by
  cases x with
  | error e => cases h
  | ok a => exact ⟨a, rfl, h⟩

/-- What is accepted is what was sent, and its sizes have been checked. -/
theorem CreateResponseRequest.validate_ok {guard : UrlGuard} {limits : ProtocolLimits}
    {r : CreateResponseRequest} {items : List ResponseItem}
    (h : r.validate guard limits = .ok items) :
    items = r.input.toItems ∧ ∃ total, limits.validateItems items = .ok total := by
  unfold validate at h
  obtain ⟨-, -, h⟩ := bind_eq_ok h
  obtain ⟨-, -, h⟩ := bind_eq_ok h
  obtain ⟨-, -, h⟩ := bind_eq_ok h
  obtain ⟨-, -, h⟩ := bind_eq_ok h
  obtain ⟨-, -, h⟩ := bind_eq_ok h
  obtain ⟨-, -, h⟩ := bind_eq_ok h
  obtain ⟨-, -, h⟩ := bind_eq_ok h
  obtain ⟨-, -, h⟩ := bind_eq_ok h
  obtain ⟨-, -, h⟩ := bind_eq_ok h
  obtain ⟨-, -, h⟩ := bind_eq_ok h
  obtain ⟨_, hinput, h⟩ := bind_eq_ok h
  obtain rfl := Except.ok.inj h
  obtain ⟨total, htotal, -⟩ := bind_eq_ok hinput
  exact ⟨rfl, total, mapError_eq_ok htotal⟩

namespace ProtocolLimits

variable {limits : ProtocolLimits}

/-- The sizes are added up in a `usize`, after each has been checked. -/
theorem totalBytes_ok {items : List ResponseItem} {index start total : ℕ}
    (h : limits.totalBytes items index start = .ok total) (hstart : start ≤ u64Max) :
    total = min (start + (items.map ResponseItem.byteLen).sum) u64Max ∧
      ∀ item ∈ items, item.byteLen ≤ limits.maxItemBytes := by
  induction items generalizing index start with
  | nil =>
      obtain rfl := Except.ok.inj h
      exact ⟨by simpa using hstart, nofun⟩
  | cons item items ih =>
      unfold totalBytes at h
      split_ifs at h with hitem
      obtain ⟨htotal, hitems⟩ := ih h (Nat.min_le_right _ _)
      refine ⟨?_, ?_⟩
      · rw [htotal, List.map_cons, List.sum_cons, satAdd]
        omega
      · intro x hx
        rcases List.mem_cons.mp hx with rfl | hx
        · omega
        · exact hitems x hx

theorem validateItems_ok {items : List ResponseItem} {total : ℕ}
    (h : limits.validateItems items = .ok total) :
    min (items.map ResponseItem.byteLen).sum u64Max ≤ limits.maxTotalBytes ∧
      ∀ item ∈ items, item.byteLen ≤ limits.maxItemBytes := by
  unfold validateItems at h
  split_ifs at h
  split at h
  · cases h
  · next total' htotal =>
      split_ifs at h with hmax
      obtain ⟨heq, hitems⟩ := totalBytes_ok htotal (Nat.zero_le _)
      refine ⟨?_, hitems⟩
      rw [Nat.zero_add] at heq
      omega

variable (limits)

/-- All strings of the items together, and those of each item, are within the bounds. -/
def Bounds (items : List ResponseItem) : Prop :=
  (items.map ResponseItem.carriedBytes).sum ≤ limits.maxTotalBytes ∧
    ∀ item ∈ items, item.carriedBytes ≤ limits.maxItemBytes

/-- The ids fit into what the counted strings leave of the bounds, and no count was cut off at the
largest machine word. -/
def LeavesRoom (items : List ResponseItem) : Prop :=
  (items.map ResponseItem.byteLen).sum ≤ u64Max ∧
    (items.map fun item ↦ optLen item.id).sum ≤
        limits.maxTotalBytes - (items.map ResponseItem.byteLen).sum ∧
      ∀ item ∈ items, optLen item.id ≤ limits.maxItemBytes - item.byteLen

instance (items : List ResponseItem) : Decidable (limits.Bounds items) :=
  inferInstanceAs (Decidable (_ ∧ _))

end ProtocolLimits

/-- The items of an accepted request are within the bounds if and only if their ids fit into what
the validation, which does not count them, has left. -/
theorem accepted_bounded_iff {guard : UrlGuard} {limits : ProtocolLimits}
    {r : CreateResponseRequest} {items : List ResponseItem}
    (h : r.validate guard limits = .ok items) :
    limits.Bounds items ↔ limits.LeavesRoom items := by
  obtain ⟨-, total, htotal⟩ := r.validate_ok h
  obtain ⟨hchecked, hitems⟩ := ProtocolLimits.validateItems_ok htotal
  have hword := limits.word
  have hsum : (items.map ResponseItem.carriedBytes).sum =
      (items.map ResponseItem.byteLen).sum + (items.map fun item ↦ optLen item.id).sum := by
    rw [funext ResponseItem.carriedBytes_eq, List.sum_map_add]
  constructor
  · rintro ⟨hall, hone⟩
    rw [hsum] at hall
    refine ⟨by omega, by omega, fun item hitem ↦ ?_⟩
    have hcarried := hone item hitem
    rw [ResponseItem.carriedBytes_eq] at hcarried
    omega
  · rintro ⟨hwhole, hids, hone⟩
    -- The sum that was checked is the sum of the counted bytes, so these are within the bound.
    have hcounted : (items.map ResponseItem.byteLen).sum ≤ limits.maxTotalBytes := by
      rwa [Nat.min_eq_left hwhole] at hchecked
    refine ⟨by omega, fun item hitem ↦ ?_⟩
    have hcounted := hitems item hitem
    have hid := hone item hitem
    rw [ResponseItem.carriedBytes_eq]
    omega

/-! ## An id that is not counted -/

namespace Sample

/-- Room for four bytes. -/
def fourBytes : ProtocolLimits := { maxItemBytes := 4, maxTotalBytes := 4 }

/-- A message of two bytes, with an id. -/
def labelled (id : String) : CreateResponseRequest where
  model := "model"
  input := .items [.message .user [.inputText "hi"] (some id) none]

theorem labelled_accepted : (labelled "msg_12345678").validate (fun _ _ ↦ .ok ()) fourBytes =
    .ok (labelled "msg_12345678").input.toItems := by
  rfl

end Sample

/-- Two bytes of text and two of an id. -/
theorem accepted_bounded_iff_short :
    Sample.fourBytes.Bounds (Sample.labelled "m1").input.toItems :=
  (@accepted_bounded_iff (fun _ _ ↦ .ok ()) _ (Sample.labelled "m1") _ rfl).mpr
    ⟨by decide, by decide, by decide⟩

/-- Fourteen bytes pass where four are allowed. -/
theorem accepted_unbounded : ¬ ∀ (guard : UrlGuard) (limits : ProtocolLimits)
    (r : CreateResponseRequest) (items : List ResponseItem),
      r.validate guard limits = .ok items → limits.Bounds items := by
  intro hclaim
  have hbounds := hclaim _ _ _ _ Sample.labelled_accepted
  exact absurd hbounds (by decide)

end NovaChat
