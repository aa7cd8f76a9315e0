import NovaChat.Wire.Carrier

/-!
# Ids and their texts

An id is written as its parts with separators between them, and read back from there.  That no
node tag has an underscore makes the parts of a text unique, and that tags and uuids are short and
visible makes every id a default key.
-/

namespace NovaChat

theorem NodeTag.text_of_parse {raw : String} {t : NodeTag} (h : NodeTag.parse raw = .ok t) :
    t.text = raw := by
  unfold NodeTag.parse at h
  split_ifs at h
  rw [← Except.ok.inj h]

namespace ResponseId

variable {parseStr : String → Option Uuid}

theorem stripPrefix_eq_some {start text rest : List Char} :
    stripPrefix start text = some rest ↔ text = start ++ rest := by
  constructor
  · intro h
    induction start generalizing text with
    | nil => exact Option.some.inj h
    | cons c start ih =>
        cases text with
        | nil => cases h
        | cons d text =>
            rw [stripPrefix] at h
            split_ifs at h with hcd
            rw [hcd, ih h, List.cons_append]
  · rintro rfl
    exact stripPrefix_append start rest

/-- The first underscore is the one behind the node tag. -/
theorem parts_inj {t t' : NodeTag} {uuid uuid' : String}
    (h : "resp_" ++ t.text ++ "_" ++ uuid = "resp_" ++ t'.text ++ "_" ++ uuid') :
    t = t' ∧ uuid = uuid' := by
  have hlist : t.text.toList ++ '_' :: uuid.toList = t'.text.toList ++ '_' :: uuid'.toList := by
    simpa using congrArg String.toList h
  have htake := congrArg (List.takeWhile (· != '_')) hlist
  rw [List.takeWhile_append_of_pos (nodeTag_ne_underscore t),
    List.takeWhile_append_of_pos (nodeTag_ne_underscore t'),
    List.takeWhile_cons_of_neg (by decide), List.takeWhile_cons_of_neg (by decide),
    List.append_nil, List.append_nil] at htake
  rw [htake] at hlist
  have huuid := (List.cons.inj (List.append_cancel_left hlist)).2
  refine ⟨?_, String.toList_inj.mp huuid⟩
  cases t
  cases t'
  simpa using String.toList_inj.mp htake

/-- A text with an id in it consists of the start, the node tag, and a text of the uuid. -/
theorem parse_eq_ok {raw : String} {r : ResponseId} : parse parseStr raw = .ok r ↔
    ∃ uuid, raw = "resp_" ++ r.nodeTag.text ++ "_" ++ uuid ∧ parseStr uuid = some r.uuid := by
  constructor
  · intro h
    unfold parse at h
    split at h
    · cases h
    next rest hrest =>
      split at h
      · cases h
      next sep uuid hdrop =>
        have hsep : (sep != '_') = false := by
          have hhead := List.head?_dropWhile_not (· != '_') rest
          rw [hdrop] at hhead
          simpa using hhead
        cases hnode : NodeTag.parse (String.ofList (rest.takeWhile (· != '_'))) with
        | error e =>
            rw [hnode] at h
            cases h
        | ok t =>
            rw [hnode] at h
            cases huuid : parseStr (String.ofList uuid) with
            | none =>
                simp only [huuid] at h
                cases h
            | some u =>
                simp only [huuid] at h
                obtain rfl := Except.ok.inj h
                refine ⟨String.ofList uuid, ?_, huuid⟩
                have hraw := stripPrefix_eq_some.mp hrest
                have htag := NodeTag.text_of_parse hnode
                rw [← List.takeWhile_append_dropWhile (p := (· != '_')) (l := rest), hdrop] at hraw
                rw [← String.toList_inj, hraw]
                simp [htag, bne_eq_false_iff_eq.mp hsep]
  · rintro ⟨uuid, rfl, huuid⟩
    rw [parse_append, huuid]

end ResponseId

/-! ## Default keys -/

theorem IdempotencyKey.parse_text (key : IdempotencyKey) :
    IdempotencyKey.parse key.text = .ok key := by
  rw [IdempotencyKey.parse, dif_pos key.valid]

/-- Ids are read back from their texts, what is read as an id has its parts in one way, and a
default key passes for a key. -/
theorem ids_round_trip {parseStr : String → Option Uuid}
    (huuid : ∀ u : Uuid, parseStr u.text = some u) :
    (∀ r : ResponseId, ResponseId.parse parseStr r.text = .ok r) ∧
      Function.Injective ResponseId.text ∧
        (∀ raw r, ResponseId.parse parseStr raw = .ok r →
          ∃ uuid, parseStr uuid = some r.uuid ∧ ∀ (t : NodeTag) (uuid' : String),
            raw = "resp_" ++ t.text ++ "_" ++ uuid' ↔ t = r.nodeTag ∧ uuid' = uuid) ∧
          ∀ r : ResponseId, IdempotencyKey.parse r.text = .ok (IdempotencyKey.forResponse r) := by
  refine ⟨ResponseId.parse_text huuid, fun r r' h ↦ ?_, fun raw r h ↦ ?_,
    fun r ↦ IdempotencyKey.parse_text (.forResponse r)⟩
  · have hparse := ResponseId.parse_text huuid r
    rw [h, ResponseId.parse_text huuid r'] at hparse
    exact (Except.ok.inj hparse).symm
  · obtain ⟨uuid, rfl, hread⟩ := ResponseId.parse_eq_ok.mp h
    refine ⟨uuid, hread, fun t uuid' ↦ ⟨fun hraw ↦ ?_, ?_⟩⟩
    · obtain ⟨htag, hrest⟩ := ResponseId.parts_inj hraw
      exact ⟨htag.symm, hrest.symm⟩
    · rintro ⟨rfl, rfl⟩
      rfl

theorem ids_round_trip_hyphenated :
    (∀ r : ResponseId, ResponseId.parse Sample.parseStr r.text = .ok r) ∧
      Function.Injective ResponseId.text ∧
        (∀ raw r, ResponseId.parse Sample.parseStr raw = .ok r →
          ∃ uuid, Sample.parseStr uuid = some r.uuid ∧ ∀ (t : NodeTag) (uuid' : String),
            raw = "resp_" ++ t.text ++ "_" ++ uuid' ↔ t = r.nodeTag ∧ uuid' = uuid) ∧
          ∀ r : ResponseId, IdempotencyKey.parse r.text = .ok (IdempotencyKey.forResponse r) :=
  ids_round_trip Sample.parseStr_text

end NovaChat
