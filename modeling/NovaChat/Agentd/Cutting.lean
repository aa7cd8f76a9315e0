import NovaChat.Agentd.Chunking

/-!
# Any way to cut a stream

The bytes of a stream may be cut anywhere, also within a character.  A character that is cut comes
out as replacement characters, and a chunk that comes behind an end mark is read from there on: for
some texts neither ever matters, and these are the ones that every cut leaves alone.
-/

namespace NovaChat

open Interact Prog

/-! ## Characters that are cut -/

def replacement : Char := Char.ofNat 0xfffd

theorem readContinuations_length (n : ℕ) : ∀ (code : ℕ) (bytes : List UInt8),
    (readContinuations n code bytes).2.length ≤ bytes.length := by
  induction n with
  | zero => exact fun _ _ ↦ le_rfl
  | succ n ih =>
      intro code bytes
      cases bytes with
      | nil => exact le_rfl
      | cons b bytes =>
          rw [readContinuations]
          split_ifs
          · exact (ih _ bytes).trans (Nat.le_succ _)
          · exact le_rfl

theorem readChar_length (b : UInt8) (bytes : List UInt8) :
    (readChar b bytes).2.length ≤ bytes.length := by
  unfold readChar
  split
  · exact le_rfl
  · exact le_rfl
  · exact le_rfl
  next second rest _ _ =>
    split_ifs
    · have hlength := readContinuations_length (utf8CharWidth b.toNat - 2)
        (b.toNat % 2 ^ (7 - utf8CharWidth b.toNat) * 64 + (second.toNat - 0x80)) rest
      split <;> rename_i heq <;> rw [heq] at hlength <;> exact hlength.trans (Nat.le_succ _)
    · exact le_rfl

theorem decodeLossy_of_le (n : ℕ) : ∀ (m : ℕ) (bytes : List UInt8), bytes.length ≤ n →
    bytes.length ≤ m → decodeLossy n bytes = decodeLossy m bytes := by
  induction n with
  | zero =>
      intro m bytes hn _
      obtain rfl := List.length_eq_zero_iff.mp (Nat.le_zero.mp hn)
      cases m <;> rfl
  | succ n ih =>
      intro m bytes hn hm
      cases bytes with
      | nil => cases m <;> rfl
      | cons b bytes =>
          have hlength := readChar_length b bytes
          simp only [List.length_cons] at hn hm
          obtain ⟨m, rfl⟩ : ∃ k, m = k + 1 := ⟨m - 1, by omega⟩
          rw [decodeLossy, decodeLossy, ih m _ (by omega) (by omega)]

theorem fromUtf8Lossy_cons (b : UInt8) (bytes : List UInt8) : fromUtf8Lossy (b :: bytes) =
    (readChar b bytes).1 :: fromUtf8Lossy (readChar b bytes).2 := by
  rw [fromUtf8Lossy, List.length_cons, decodeLossy, fromUtf8Lossy,
    decodeLossy_of_le _ _ _ (readChar_length b bytes) le_rfl]

theorem fromUtf8Lossy_encode_append (text : List Char) (bytes : List UInt8) :
    fromUtf8Lossy (encode text ++ bytes) = text ++ fromUtf8Lossy bytes := by
  induction text with
  | nil => rfl
  | cons c text ih =>
      obtain ⟨b, rest, hencode, hread⟩ := readChar_encode c (encode text ++ bytes)
      have hcons : encode (c :: text) ++ bytes = b :: (rest ++ (encode text ++ bytes)) := by
        rw [encode, List.flatMap_cons, hencode]
        simp [encode]
      rw [hcons, fromUtf8Lossy_cons, hread, ih, List.cons_append]

/-- Nothing starts with a continuation byte. -/
theorem fromUtf8Lossy_continuations {tail : List UInt8}
    (htail : ∀ b ∈ tail, isContinuation b.toNat = true) (bytes : List UInt8) :
    fromUtf8Lossy (tail ++ bytes) =
      List.replicate tail.length replacement ++ fromUtf8Lossy bytes := by
  induction tail with
  | nil => rfl
  | cons b tail ih =>
      obtain ⟨hb, htail⟩ := List.forall_mem_cons.mp htail
      have hwidth : utf8CharWidth b.toNat = 0 := by
        simp only [isContinuation, Bool.and_eq_true, decide_eq_true_eq] at hb
        unfold utf8CharWidth
        split_ifs <;> omega
      have hread : readChar b (tail ++ bytes) = (replacement, tail ++ bytes) := by
        unfold readChar
        rw [hwidth]
        rfl
      rw [List.cons_append, fromUtf8Lossy_cons, hread, ih htail]
      rfl

theorem fromUtf8Lossy_of_continuations {tail : List UInt8}
    (htail : ∀ b ∈ tail, isContinuation b.toNat = true) :
    fromUtf8Lossy tail = List.replicate tail.length replacement := by
  have hread := fromUtf8Lossy_continuations htail []
  rwa [List.append_nil, show fromUtf8Lossy [] = [] from rfl, List.append_nil] at hread

/-- The continuation byte of six bits. -/
def continuation (k : ℕ) : UInt8 := UInt8.ofNat (k + 0x80)

theorem isContinuation_continuation {k : ℕ} (hk : k < 64) :
    isContinuation (continuation k).toNat = true := by
  rw [continuation, toNat_continuation hk]
  simp only [isContinuation, Bool.and_eq_true, decide_eq_true_eq]
  omega

/-- A character beyond ASCII is a first byte that tells the width, and continuation bytes. -/
theorem encode_long {c : Char} (hc : 0x80 ≤ c.toNat) : ∃ first k ks,
    String.utf8EncodeChar c = UInt8.ofNat first :: (k :: ks).map continuation ∧ first < 256 ∧
      (∀ j ∈ k :: ks, j < 64) ∧ utf8CharWidth first = ks.length + 2 ∧
        followsFirst first (k + 0x80) = true := by
  have hv : c.val.toNat < 0xd800 ∨ 0xdfff < c.val.toNat ∧ c.val.toNat < 0x110000 := c.valid
  change 0x80 ≤ c.val.toNat at hc
  unfold String.utf8EncodeChar
  generalize c.val.toNat = v at hc hv ⊢
  dsimp only
  split_ifs with h1 h2 h3
  · omega
  · refine ⟨_, _, [], rfl, by omega, ?_, utf8CharWidth_eq (.inr (.inl ⟨rfl, by omega, by omega⟩)),
      followsFirst_of_bounds (by omega) (by omega) (by omega) (by omega) (by omega)⟩
    simp only [List.forall_mem_cons, List.not_mem_nil, false_imp_iff, implies_true, and_true]
    omega
  · refine ⟨_, _, [_], rfl, by omega, ?_,
      utf8CharWidth_eq (.inr (.inr (.inl ⟨rfl, by omega, by omega⟩))),
      followsFirst_of_bounds (by omega) (by omega) (by omega) (by omega) (by omega)⟩
    simp only [List.forall_mem_cons, List.not_mem_nil, false_imp_iff, implies_true, and_true]
    omega
  · refine ⟨_, _, [_, _], rfl, by omega, ?_,
      utf8CharWidth_eq (.inr (.inr (.inr ⟨rfl, by omega, by omega⟩))),
      followsFirst_of_bounds (by omega) (by omega) (by omega) (by omega) (by omega)⟩
    simp only [List.forall_mem_cons, List.not_mem_nil, false_imp_iff, implies_true, and_true]
    omega

theorem readContinuations_short {n : ℕ} : ∀ {ks : List ℕ} {code : ℕ}, (∀ k ∈ ks, k < 64) →
    ks.length < n → readContinuations n code (ks.map continuation) = (none, []) := by
  induction n with
  | zero => exact fun _ hn ↦ absurd hn (Nat.not_lt_zero _)
  | succ n ih =>
      intro ks code hks hn
      cases ks with
      | nil => rfl
      | cons k ks =>
          obtain ⟨hk, hks⟩ := List.forall_mem_cons.mp hks
          rw [List.map_cons, continuation, readContinuations_cons hk]
          exact ih hks (by simpa using hn)

/-- The beginning of a character is read as one replacement character. -/
theorem fromUtf8Lossy_beginning {first k : ℕ} {ks taken : List ℕ} (hfirst : first < 256)
    (hks : ∀ j ∈ k :: ks, j < 64) (hwidth : utf8CharWidth first = ks.length + 2)
    (hfollows : followsFirst first (k + 0x80) = true) (htaken : taken <+: k :: ks)
    (hshort : taken.length < ks.length + 1) :
    fromUtf8Lossy (UInt8.ofNat first :: taken.map continuation) = [replacement] := by
  have htoNat : (UInt8.ofNat first).toNat = first := by
    rw [UInt8.toNat_ofNat']
    omega
  suffices hread : readChar (UInt8.ofNat first) (taken.map continuation) = (replacement, []) by
    rw [fromUtf8Lossy_cons, hread]
    rfl
  cases taken with
  | nil =>
      unfold readChar
      rw [htoNat, hwidth]
      rfl
  | cons k' taken =>
      obtain ⟨rfl, hbegin⟩ := List.cons_prefix_cons.mp htaken
      obtain ⟨hk, hks⟩ := List.forall_mem_cons.mp hks
      have hshort' : taken.length < ks.length := by simpa using hshort
      rw [List.map_cons, continuation,
        readChar_long hfirst hk hwidth (Nat.le_add_left _ _) hfollows,
        readContinuations_short (fun j hj ↦ hks j (hbegin.subset hj)) (by omega)]
      rfl

/-- What two chunks make of a character that is cut between them. -/
theorem fromUtf8Lossy_halves {c : Char} {front back : List UInt8} (hfront : front ≠ [])
    (hback : back ≠ []) (h : front ++ back = String.utf8EncodeChar c) : 0x80 ≤ c.toNat ∧
      fromUtf8Lossy front = [replacement] ∧ ∀ b ∈ back, isContinuation b.toNat = true := by
  have hc : 0x80 ≤ c.toNat := by
    by_contra hascii
    have hlength := congrArg List.length h
    rw [List.length_append, String.length_utf8EncodeChar,
      Char.utf8Size_eq_one_iff.mpr (UInt32.le_iff_toNat_le.mpr (Nat.le_of_lt_succ
        (Nat.not_le.mp hascii)))] at hlength
    have hpos := List.length_pos_iff.mpr hfront
    have hpos' := List.length_pos_iff.mpr hback
    omega
  obtain ⟨first, k, ks, hencode, hfirst, hks, hwidth, hfollows⟩ := encode_long hc
  rw [hencode] at h
  obtain ⟨b, front, rfl⟩ := List.exists_cons_of_ne_nil hfront
  obtain ⟨rfl, hrest⟩ := List.cons.inj h
  obtain ⟨taken, left, hsplit, rfl, rfl⟩ := List.map_eq_append_iff.mp hrest.symm
  have hmem : ∀ j ∈ left, j < 64 := fun j hj ↦ hks j (hsplit ▸ List.mem_append_right _ hj)
  have hlength : taken.length < ks.length + 1 := by
    have hlength := congrArg List.length hsplit
    have hpos : 0 < left.length := List.length_pos_iff.mpr (by simpa using hback)
    simp only [List.length_cons, List.length_append] at hlength
    omega
  refine ⟨hc, fromUtf8Lossy_beginning hfirst hks hwidth hfollows ⟨left, hsplit.symm⟩ hlength, ?_⟩
  intro b hb
  obtain ⟨j, hj, rfl⟩ := List.mem_map.mp hb
  exact isContinuation_continuation (hmem j hj)

/-- A text with replacement characters in the place of some characters beyond ASCII. -/
inductive Garbled : List Char → List Char → Prop
  | nil : Garbled [] []
  | keep {text text' : List Char} (c : Char) (h : Garbled text text') :
      Garbled (c :: text) (c :: text')
  | cut {text text' : List Char} {c : Char} (hc : 0x80 ≤ c.toNat) (n : ℕ)
      (h : Garbled text text') :
      Garbled (c :: text) (List.replicate (n + 1) replacement ++ text')

theorem Garbled.prepend {text text' : List Char} (h : Garbled text text') (before : List Char) :
    Garbled (before ++ text) (before ++ text') := by
  induction before with
  | nil => exact h
  | cons c before ih => exact .keep c ih

/-- A chunk ends between two characters, or within one. -/
theorem encode_eq_append {bytes more : List UInt8} : ∀ {text : List Char},
    bytes ++ more = encode text →
      (∃ before after, text = before ++ after ∧ bytes = encode before ∧ more = encode after) ∨
        ∃ before c after front back, text = before ++ c :: after ∧ front ≠ [] ∧ back ≠ [] ∧
          front ++ back = String.utf8EncodeChar c ∧ bytes = encode before ++ front ∧
            more = back ++ encode after := by
  intro text
  induction text generalizing bytes with
  | nil =>
      intro h
      obtain ⟨rfl, rfl⟩ := List.append_eq_nil_iff.mp h
      exact Or.inl ⟨[], [], rfl, rfl, rfl⟩
  | cons c text ih =>
      intro h
      have hcons : encode (c :: text) = String.utf8EncodeChar c ++ encode text := rfl
      rw [hcons] at h
      rcases List.append_eq_append_iff.mp h with ⟨back, hback, hmore⟩ | ⟨bytes', rfl, hrest⟩
      · by_cases hfront : bytes = []
        · subst hfront
          exact Or.inl ⟨[], c :: text, rfl, rfl, h⟩
        by_cases hwhole : back = []
        · subst hwhole
          refine Or.inl ⟨[c], text, rfl, ?_, hmore⟩
          rw [List.append_nil] at hback
          simpa [encode] using hback.symm
        · exact Or.inr ⟨[], c, text, bytes, back, rfl, hfront, hwhole, hback.symm, rfl, hmore⟩
      · rcases ih hrest.symm with ⟨before, after, rfl, rfl, rfl⟩ |
          ⟨before, c', after, front, back, rfl, hfront, hback, hchar, rfl, rfl⟩
        · exact Or.inl ⟨c :: before, after, rfl, rfl, rfl⟩
        · exact Or.inr ⟨c :: before, c', after, front, back, rfl, hfront, hback, hchar,
            (List.append_assoc _ _ _).symm, rfl⟩

/-- Whatever the chunks are, their text is garbled at most.  What is left of a character that was
cut comes first. -/
theorem garbled_decoded_behind (chunks : List (List UInt8)) :
    ∀ {tail : List UInt8} {text : List Char}, (∀ b ∈ tail, isContinuation b.toNat = true) →
      chunks.flatten = tail ++ encode text → ∃ text', Garbled text text' ∧
        decoded chunks = List.replicate tail.length replacement ++ text' := by
  induction chunks with
  | nil =>
      intro tail text _ h
      obtain ⟨rfl, htext⟩ := List.append_eq_nil_iff.mp h.symm
      obtain rfl : text = [] := encode_injective htext
      exact ⟨[], .nil, rfl⟩
  | cons chunk chunks ih =>
      intro tail text htail h
      rw [List.flatten_cons] at h
      rcases List.append_eq_append_iff.mp h with ⟨tail', rfl, hrest⟩ | ⟨bytes, rfl, hbytes⟩
      · obtain ⟨text', hgarbled, hdecoded⟩ :=
          ih (fun b hb ↦ htail b (List.mem_append_right _ hb)) hrest
        refine ⟨text', hgarbled, ?_⟩
        have hchunk := fromUtf8Lossy_of_continuations
          fun b hb ↦ htail b (List.mem_append_left _ hb)
        rw [decoded_cons, hchunk, hdecoded, List.length_append, List.replicate_add,
          List.append_assoc]
      · rw [decoded_cons, fromUtf8Lossy_continuations htail]
        rcases encode_eq_append hbytes.symm with ⟨before, after, rfl, rfl, hrest⟩ |
          ⟨before, c, after, front, back, rfl, hfront, hback, hchar, rfl, hrest⟩
        · obtain ⟨text', hgarbled, hdecoded⟩ := @ih [] _ nofun hrest
          refine ⟨before ++ text', hgarbled.prepend before, ?_⟩
          rw [fromUtf8Lossy_encode, hdecoded]
          simp
        · obtain ⟨hc, hread, hcontinues⟩ := fromUtf8Lossy_halves hfront hback hchar
          obtain ⟨text', hgarbled, hdecoded⟩ := ih hcontinues hrest
          refine ⟨before ++ (List.replicate (back.length + 1) replacement ++ text'),
            (hgarbled.cut hc back.length).prepend before, ?_⟩
          rw [fromUtf8Lossy_encode_append, hread, hdecoded, List.replicate_succ]
          simp

theorem garbled_decoded {chunks : List (List UInt8)} {text : List Char}
    (h : chunks.flatten = encode text) : Garbled text (decoded chunks) := by
  obtain ⟨text', hgarbled, hdecoded⟩ :=
    garbled_decoded_behind chunks (List.forall_mem_nil _) h
  rw [hdecoded]
  exact hgarbled

/-! ## Lines that are garbled -/

theorem Garbled.eq_of_ascii {line line' : List Char} (h : Garbled line line')
    (hascii : ∀ c ∈ line, c.toNat < 0x80) : line' = line := by
  induction h with
  | nil => rfl
  | keep c h ih => rw [ih fun c' hc' ↦ hascii c' (List.mem_cons_of_mem _ hc')]
  | cut hc n h ih => exact absurd (hascii _ List.mem_cons_self) (Nat.not_lt.mpr hc)

/-- What stands in front of every replacement character is as it was. -/
theorem Garbled.of_append {before after' : List Char} (hbefore : replacement ∉ before) :
    ∀ {line : List Char}, Garbled line (before ++ after') →
      ∃ after, line = before ++ after ∧ Garbled after after' := by
  induction before with
  | nil => exact fun h ↦ ⟨_, rfl, h⟩
  | cons c before ih =>
      intro line h
      obtain ⟨hc, hbefore⟩ := not_or.mp (mt List.mem_cons.mpr hbefore)
      generalize heq : c :: before ++ after' = line' at h
      cases h with
      | nil => cases heq
      | keep c' h =>
          obtain ⟨rfl, rfl⟩ := List.cons.inj heq
          obtain ⟨after, rfl, hafter⟩ := ih hbefore h
          exact ⟨after, rfl, hafter⟩
      | cut _ n h =>
          rw [List.replicate_succ] at heq
          exact absurd (List.cons.inj heq).1.symm hc

theorem splitLines_prepend {piece : List Char} (hpiece : '\n' ∉ piece) (text : List Char) :
    splitLines (piece ++ text) = piece.foldr extendLine (splitLines text) := by
  induction piece with
  | nil => rfl
  | cons c piece ih =>
      obtain ⟨hc, hpiece⟩ := not_or.mp (mt List.mem_cons.mpr hpiece)
      rw [List.cons_append, splitLines_cons_of_ne (Ne.symm hc), ih hpiece, List.foldr_cons]

theorem foldr_extendLine_cons (piece line rest : List Char) (lines : List (List Char)) :
    piece.foldr extendLine (line :: lines, rest) = ((piece ++ line) :: lines, rest) := by
  induction piece with
  | nil => rfl
  | cons c piece ih => rw [List.foldr_cons, ih, extendLine, List.cons_append]

theorem foldr_extendLine_nil (piece rest : List Char) :
    piece.foldr extendLine ([], rest) = ([], piece ++ rest) := by
  induction piece with
  | nil => rfl
  | cons c piece ih => rw [List.foldr_cons, ih, extendLine, List.cons_append]

/-- The lines of a garbled text are the lines of the text, garbled. -/
theorem Garbled.lines {text text' : List Char} (h : Garbled text text') :
    List.Forall₂ Garbled (splitLines text).1 (splitLines text').1 := by
  suffices hboth : List.Forall₂ Garbled (splitLines text).1
      (splitLines text').1 ∧
        Garbled (splitLines text).2 (splitLines text').2 from hboth.1
  induction h with
  | nil => exact ⟨.nil, .nil⟩
  | keep c h ih =>
      by_cases hc : c = '\n'
      · rw [hc, splitLines_newline, splitLines_newline]
        exact ⟨.cons .nil ih.1, ih.2⟩
      · rw [splitLines_cons_of_ne hc, splitLines_cons_of_ne hc]
        revert ih
        rcases splitLines _ with ⟨_ | ⟨line, lines⟩, rest⟩ <;>
          rcases splitLines _ with ⟨_ | ⟨line', lines'⟩, rest'⟩ <;> rintro ⟨ih, hrest⟩
        · exact ⟨.nil, .keep c hrest⟩
        · cases ih
        · cases ih
        · cases ih with
          | cons hline hlines => exact ⟨.cons (.keep c hline) hlines, hrest⟩
  | @cut text text' c hc n h ih =>
      have hnewline : c ≠ '\n' := by
        rintro rfl
        exact absurd hc (by decide)
      have hpiece : '\n' ∉ List.replicate (n + 1) replacement := fun hmem ↦
        absurd (List.eq_of_mem_replicate hmem) (by decide)
      rw [splitLines_cons_of_ne hnewline, splitLines_prepend hpiece]
      revert ih
      rcases splitLines text with ⟨_ | ⟨line, lines⟩, rest⟩ <;>
        rcases splitLines text' with ⟨_ | ⟨line', lines'⟩, rest'⟩ <;> rintro ⟨ih, hrest⟩
      · rw [foldr_extendLine_nil]
        exact ⟨.nil, .cut hc n hrest⟩
      · cases ih
      · cases ih
      · rw [foldr_extendLine_cons]
        cases ih with
        | cons hline hlines => exact ⟨.cons (.cut hc n hline) hlines, hrest⟩

/-! ## What a line says -/

namespace HttpChatCompletionsScheduler

theorem trim_append {line blank : List Char} (hblank : ∀ c ∈ blank, isWhitespace c = true) :
    trim (line ++ blank) = trim line := by
  have hcut : ∀ xs : List Char,
      (xs ++ blank).rdropWhile isWhitespace = xs.rdropWhile isWhitespace := fun xs ↦ by
    rw [List.rdropWhile, List.reverse_append, List.dropWhile_append_of_pos, List.rdropWhile]
    exact fun c hc ↦ hblank c (List.mem_reverse.mp hc)
  unfold trim
  rw [List.dropWhile_append]
  split_ifs with hempty
  · rw [List.isEmpty_iff.mp hempty, List.dropWhile_eq_nil_iff.mpr hblank]
  · exact hcut _

theorem trim_rdropWhile {p : Char → Bool} (hp : ∀ c, p c = true → isWhitespace c = true)
    (line : List Char) : trim (line.rdropWhile p) = trim line := by
  have hblank : ∀ c ∈ line.rtakeWhile p, isWhitespace c = true :=
    fun c hc ↦ hp c (List.mem_rtakeWhile_imp hc)
  rw [← trim_append hblank, List.rdropWhile_append_rtakeWhile]

theorem rdropWhile_append_cons {p : Char → Bool} {c : Char} (hc : p c = false)
    (before rest : List Char) :
    (before ++ c :: rest).rdropWhile p = before ++ c :: rest.rdropWhile p := by
  have hlast : (c :: before.reverse).dropWhile p = c :: before.reverse := by
    rw [List.dropWhile_cons, hc]
    rfl
  have hreverse : (before ++ c :: rest).reverse = rest.reverse ++ (c :: before.reverse) := by simp
  rw [List.rdropWhile, List.rdropWhile, hreverse, List.dropWhile_append, hlast]
  split_ifs with hempty
  · rw [List.isEmpty_iff.mp hempty]
    simp
  · simp

/-- A line has data where it starts, up to white space, with `data:`. -/
theorem dataOf_eq_some {line data : List Char} : dataOf line = some data ↔ ∃ blank rest,
    line = blank ++ ("data:".toList ++ rest) ∧ (∀ c ∈ blank, isWhitespace c = true) ∧
      data = trim rest := by
  have hline : trim (line.rdropWhile fun c ↦ c = '\n' || c = '\r') =
      (line.dropWhile isWhitespace).rdropWhile isWhitespace := by
    refine trim_rdropWhile (fun c hc ↦ ?_) line
    simp only [Bool.or_eq_true, decide_eq_true_eq] at hc
    rcases hc with rfl | rfl <;> rfl
  have hkeep : ∀ rest : List Char, ("data:".toList ++ rest).rdropWhile isWhitespace =
      "data:".toList ++ rest.rdropWhile isWhitespace :=
    rdropWhile_append_cons rfl "data".toList
  have hrest : ∀ rest : List Char, trim (("data:".toList ++ rest.rdropWhile isWhitespace).drop 5) =
      trim rest := fun rest ↦ trim_rdropWhile (fun _ ↦ id) rest
  unfold dataOf
  rw [hline]
  dsimp only
  constructor
  · intro h
    split_ifs at h with hstart
    obtain ⟨rest, hrest'⟩ := (List.isPrefixOf_iff_prefix.mp hstart).trans
      (List.rdropWhile_prefix isWhitespace _)
    refine ⟨line.takeWhile isWhitespace, rest, ?_, fun c hc ↦ List.mem_takeWhile_imp hc, ?_⟩
    · rw [hrest', List.takeWhile_append_dropWhile]
    · rw [← Option.some.inj h, ← hrest', hkeep, hrest]
  · rintro ⟨blank, rest, rfl, hblank, rfl⟩
    have hstart : ("data:".toList ++ rest).dropWhile isWhitespace = "data:".toList ++ rest := rfl
    rw [List.dropWhile_append_of_pos hblank, hstart, hkeep, hrest,
      if_pos (List.isPrefixOf_iff_prefix.mpr (List.prefix_append _ _))]

theorem dataOf_isSome {blank rest : List Char} (hblank : ∀ c ∈ blank, isWhitespace c = true) :
    dataOf (blank ++ ("data:".toList ++ rest)) = some (trim rest) :=
  dataOf_eq_some.mpr ⟨blank, rest, rfl, hblank, rfl⟩

theorem replacement_not_mem_start {blank : List Char}
    (hblank : ∀ c ∈ blank, isWhitespace c = true) : replacement ∉ blank ++ "data:".toList := by
  intro hmem
  rcases List.mem_append.mp hmem with hmem | hmem
  · exact absurd (hblank _ hmem) (by decide)
  · exact absurd hmem (by decide)

theorem dataOf_of_garbled {line line' data' : List Char} (h : Garbled line line')
    (hdata : dataOf line' = some data') : ∃ blank rest rest',
      line = blank ++ ("data:".toList ++ rest) ∧ line' = blank ++ ("data:".toList ++ rest') ∧
        (∀ c ∈ blank, isWhitespace c = true) ∧ Garbled rest rest' := by
  obtain ⟨blank, rest', rfl, hblank, -⟩ := dataOf_eq_some.mp hdata
  rw [← List.append_assoc] at h
  obtain ⟨rest, rfl, hrest⟩ := h.of_append (replacement_not_mem_start hblank)
  exact ⟨blank, rest, rest', List.append_assoc .., rfl, hblank, hrest⟩

theorem count_trim (line : List Char) :
    (trim line).count replacement = line.count replacement := by
  have hblank : ∀ {blank : List Char}, (∀ c ∈ blank, isWhitespace c = true) →
      blank.count replacement = 0 := fun h ↦
    List.count_eq_zero.mpr fun hmem ↦ absurd (h _ hmem) (by decide)
  have hfront : (line.dropWhile isWhitespace).count replacement = line.count replacement := by
    conv_rhs => rw [← List.takeWhile_append_dropWhile (p := isWhitespace) (l := line)]
    rw [List.count_append, hblank fun c hc ↦ List.mem_takeWhile_imp hc, Nat.zero_add]
  have hback := congrArg (List.count replacement)
    (List.rdropWhile_append_rtakeWhile (p := isWhitespace) (l := line.dropWhile isWhitespace))
  rw [List.count_append, hblank fun c hc ↦ List.mem_rtakeWhile_imp hc, hfront] at hback
  exact hback

theorem count_dataOf {line data : List Char} (h : dataOf line = some data) :
    data.count replacement = line.count replacement := by
  obtain ⟨blank, rest, rfl, hblank, rfl⟩ := dataOf_eq_some.mp h
  rw [← List.append_assoc, List.count_append,
    List.count_eq_zero.mpr (replacement_not_mem_start hblank), count_trim, Nat.zero_add]

/-- The data that a line hands to the decoder. -/
def payloadOf (line : List Char) : Option (List Char) := if isDone line then none else dataOf line

variable {scheduler : HttpChatCompletionsScheduler}

theorem eventOf_eq (line : List Char) : scheduler.eventOf line =
    (payloadOf line).bind fun data ↦ scheduler.fromStr (String.ofList data) := by
  unfold eventOf payloadOf
  split_ifs <;> rfl

theorem dataOf_of_isDone {line : List Char} (h : isDone line = true) :
    dataOf line = some "[DONE]".toList :=
  of_decide_eq_true h

theorem payloadOf_eq_some {line data : List Char} (h : payloadOf line = some data) :
    dataOf line = some data := by
  unfold payloadOf at h
  split_ifs at h
  exact h

theorem isDone_of_payloadOf {line data : List Char} (h : payloadOf line = none)
    (hdata : dataOf line = some data) : isDone line = true := by
  unfold payloadOf at h
  split_ifs at h with hdone
  · exact hdone
  · cases h.symm.trans hdata

/-! ## Texts that every cut leaves alone -/

/-- What the decoder is given of a text, and the end marks behind their `data:`, is ASCII; behind
the first end mark there is nothing for it, and without one there is nothing in the last line. -/
structure Seamless (text : List Char) : Prop where
  plain : ∀ line ∈ (splitLines text).1, (payloadOf line).isSome = true → ∀ c ∈ line, c.toNat < 0x80
  mark : ∀ line ∈ (splitLines text).1, isDone line = true →
    ∀ c ∈ line.dropWhile isWhitespace, c.toNat < 0x80
  silent : ∀ line ∈ afterDone (splitLines text).1, payloadOf line = none
  terminated : (splitLines text).1.any isDone = false → payloadOf (splitLines text).2 = none

/-- A garbled line hands the same to the decoder, and is no end mark unless the line is. -/
structure Reads (line line' : List Char) : Prop where
  payload : payloadOf line' = payloadOf line
  done : isDone line' = true → isDone line = true

theorem reads_of_garbled {line line' : List Char} (h : Garbled line line')
    (hplain : (payloadOf line).isSome = true → ∀ c ∈ line, c.toNat < 0x80)
    (hmark : isDone line = true → ∀ c ∈ line.dropWhile isWhitespace, c.toNat < 0x80) :
    Reads line line' := by
  cases hpayload : payloadOf line with
  | some data =>
      obtain rfl := h.eq_of_ascii (hplain (by rw [hpayload]; rfl))
      exact ⟨rfl, id⟩
  | none =>
      -- With data in the garbled line the line is an end mark, which is ASCII from there on.
      have hsame : ∀ data', dataOf line' = some data' → line' = line ∧ isDone line = true := by
        intro data' hdata'
        obtain ⟨blank, rest, rest', rfl, rfl, hblank, hrest⟩ := dataOf_of_garbled h hdata'
        have hdone := isDone_of_payloadOf hpayload (dataOf_isSome hblank)
        have hascii := hmark hdone
        rw [List.dropWhile_append_of_pos hblank] at hascii
        have hplain' : ∀ c ∈ rest, c.toNat < 0x80 := fun c hc ↦
          hascii c (List.mem_append_right "data:".toList hc)
        exact ⟨by rw [hrest.eq_of_ascii hplain'], hdone⟩
      refine ⟨?_, fun hdone ↦ (hsame _ (dataOf_of_isDone hdone)).2⟩
      rw [hpayload]
      refine Option.eq_none_iff_forall_ne_some.mpr fun data' hpayload' ↦ ?_
      obtain ⟨rfl, -⟩ := hsame data' (payloadOf_eq_some hpayload')
      cases hpayload.symm.trans hpayload'

theorem afterDone_cons (line : List Char) (lines : List (List Char)) :
    afterDone (line :: lines) = if isDone line then lines else afterDone lines := by
  unfold afterDone
  rw [List.dropWhile_cons]
  cases isDone line <;> rfl

section Reads

variable {lines lines' : List (List Char)}

theorem payloads_eq (h : List.Forall₂ Reads lines lines') :
    lines'.map payloadOf = lines.map payloadOf := by
  induction h with
  | nil => rfl
  | cons hline _ ih => rw [List.map_cons, List.map_cons, hline.payload, ih]

theorem silent_of_reads (h : List.Forall₂ Reads lines lines')
    (hsilent : ∀ line ∈ afterDone lines, payloadOf line = none) :
    ∀ line ∈ afterDone lines', payloadOf line = none := by
  induction h with
  | nil => exact hsilent
  | @cons line line' lines lines' hline hlines ih =>
      rw [afterDone_cons] at hsilent ⊢
      split_ifs with hdone'
      · rw [if_pos (hline.done hdone')] at hsilent
        have hnone : ∀ data ∈ lines.map payloadOf, data = none := by simpa using hsilent
        rw [← payloads_eq hlines] at hnone
        simpa using hnone
      · refine ih fun line hmem ↦ hsilent line ?_
        split_ifs
        · exact mem_of_mem_afterDone hmem
        · exact hmem

theorem filterMap_eventOf (lines : List (List Char)) : lines.filterMap scheduler.eventOf =
    (lines.map payloadOf).filterMap fun payload ↦
      payload.bind fun data ↦ scheduler.fromStr (String.ofList data) := by
  rw [List.filterMap_map]
  exact congrArg (List.filterMap · lines) (funext fun line ↦ eventOf_eq line)

theorem eventsIn_eq_filterMap (h : ∀ line ∈ afterDone lines, scheduler.eventOf line = none) :
    scheduler.eventsIn lines = lines.filterMap scheduler.eventOf := by
  induction lines with
  | nil => rfl
  | cons line lines ih =>
      rw [afterDone_cons] at h
      rw [eventsIn_cons, List.filterMap_cons]
      split_ifs at h ⊢ with hdone
      · rw [List.filterMap_eq_nil_iff.mpr h]
        simp [eventOf, hdone]
      · rw [ih h]
        cases scheduler.eventOf line <;> rfl

end Reads

theorem parseStream_of_seamless {text : List Char} (h : Seamless text)
    {chunks : List (List UInt8)} (hbytes : chunks.flatten = encode text)
    (request : CompletionsRequest) :
    scheduler.parseStream (chunks.map .ok) true request = scheduler.parseWhole text request := by
  have hlines : List.Forall₂ Reads (splitLines text).1 (splitLines (decoded chunks)).1 :=
    ((List.forall₂_and_left _ _).mpr ⟨fun _ hline ↦ hline, (garbled_decoded hbytes).lines⟩).imp
      fun line _ hline ↦ reads_of_garbled hline.2 (h.plain line hline.1) (h.mark line hline.1)
  have hnone : ∀ line, payloadOf line = none → scheduler.eventOf line = none := fun line hline ↦ by
    rw [eventOf_eq, hline]
    rfl
  have hsilent := silent_of_reads hlines h.silent
  apply parseStream_of_events
  rw [eventsIn_wholeLines fun hdone ↦ hnone _ (h.terminated hdone),
    eventsOf_chunks chunks [] List.not_mem_nil fun _ line hline ↦ hnone _ (hsilent line hline),
    List.nil_append, eventsIn_eq_filterMap fun line hline ↦ hnone _ (hsilent line hline),
    eventsIn_eq_filterMap fun line hline ↦ hnone _ (h.silent line hline), filterMap_eventOf,
    filterMap_eventOf, payloads_eq hlines]

/-! ## Chunks with one character each -/

/-- Such chunks are read to their end: no line begins within one, so none is left behind an end
mark. -/
theorem eventsOf_stepwise {chunks : List (List UInt8)}
    (hchunks : ∀ chunk ∈ chunks, fromUtf8Lossy chunk = ['\n'] ∨ '\n' ∉ fromUtf8Lossy chunk) :
    ∀ {buffer : List Char}, '\n' ∉ buffer → scheduler.eventsOf (chunks.map .ok) buffer =
      (splitLines (buffer ++ decoded chunks)).1.filterMap scheduler.eventOf := by
  induction chunks with
  | nil =>
      intro buffer hbuffer
      rw [decoded, List.flatMap_nil, List.append_nil, splitLines_of_no_newline hbuffer]
      rfl
  | cons chunk chunks ih =>
      intro buffer hbuffer
      obtain ⟨hchunk, hchunks⟩ := List.forall_mem_cons.mp hchunks
      rw [eventsOf_cons, decoded_cons]
      rcases hchunk with hchunk | hchunk
      · have hsplit : splitLines (buffer ++ ['\n']) = ([buffer], []) := splitLines_cons_line hbuffer
        have hlines : splitLines (buffer ++ (['\n'] ++ decoded chunks)) =
            (buffer :: (splitLines (decoded chunks)).1, (splitLines (decoded chunks)).2) :=
          splitLines_cons_line hbuffer
        have hleft : leftOver [buffer] [] = [] := by
          rw [leftOver_cons]
          split_ifs <;> rfl
        have hread : scheduler.eventsIn [buffer] = (scheduler.eventOf buffer).toList := by
          rw [eventsIn_cons]
          split_ifs with hdone
          · simp [eventOf, hdone]
          · exact List.append_nil _
        rw [hchunk, hsplit, hlines, hleft, hread, ih hchunks List.not_mem_nil, List.nil_append,
          List.filterMap_cons]
        cases scheduler.eventOf buffer <;> rfl
      · have hnewline : '\n' ∉ buffer ++ fromUtf8Lossy chunk := fun hmem ↦
          (List.mem_append.mp hmem).elim hbuffer hchunk
        rw [splitLines_of_no_newline hnewline, ← List.append_assoc, ← ih hchunks hnewline]
        rfl

/-- Every character in a chunk of its own. -/
def singly (text : List Char) : List (List UInt8) := text.map String.utf8EncodeChar

theorem fromUtf8Lossy_single (c : Char) : fromUtf8Lossy (String.utf8EncodeChar c) = [c] := by
  have hencode : encode [c] = String.utf8EncodeChar c := List.append_nil _
  rw [← hencode, fromUtf8Lossy_encode]

theorem decoded_singly (text : List Char) : decoded (singly text) = text := by
  rw [decoded, singly, List.flatMap_map]
  simp only [fromUtf8Lossy_single]
  exact List.flatMap_singleton' text

theorem flatten_singly (text : List Char) : (singly text).flatten = encode text := rfl

theorem stepwise_singly {text : List Char} : ∀ chunk ∈ singly text,
    fromUtf8Lossy chunk = ['\n'] ∨ '\n' ∉ fromUtf8Lossy chunk := by
  intro chunk hchunk
  obtain ⟨c, -, rfl⟩ := List.mem_map.mp hchunk
  rw [fromUtf8Lossy_single]
  by_cases hc : c = '\n'
  · exact Or.inl (by rw [hc])
  · exact Or.inr (by simpa using Ne.symm hc)

/-- Every character in a chunk of its own, and `c` in two. -/
def cutting (before : List Char) (c : Char) (after : List Char) : List (List UInt8) :=
  singly before ++
    ((String.utf8EncodeChar c).take 1 :: (String.utf8EncodeChar c).drop 1 :: singly after)

theorem flatten_cutting (before : List Char) (c : Char) (after : List Char) :
    (cutting before c after).flatten = encode (before ++ c :: after) := by
  rw [cutting, List.flatten_append, List.flatten_cons, List.flatten_cons, ← List.append_assoc,
    ← List.append_assoc, List.append_assoc _ (List.take _ _), List.take_append_drop]
  simp [flatten_singly, encode]

theorem fromUtf8Lossy_cut {c : Char} (hc : 0x80 ≤ c.toNat) : ∃ n,
    fromUtf8Lossy ((String.utf8EncodeChar c).take 1) = [replacement] ∧
      fromUtf8Lossy ((String.utf8EncodeChar c).drop 1) = List.replicate (n + 1) replacement := by
  obtain ⟨first, k, ks, hencode, -⟩ := encode_long hc
  obtain ⟨-, hfirst, hcontinues⟩ := fromUtf8Lossy_halves (c := c)
    (List.cons_ne_nil (UInt8.ofNat first) []) (List.cons_ne_nil (continuation k)
      (ks.map continuation)) hencode.symm
  rw [hencode]
  exact ⟨_, hfirst, fromUtf8Lossy_of_continuations hcontinues⟩

theorem decoded_cutting {c : Char} (hc : 0x80 ≤ c.toNat) (before after : List Char) : ∃ n,
    decoded (cutting before c after) =
      before ++ (List.replicate (n + 2) replacement ++ after) := by
  obtain ⟨n, hfirst, hrest⟩ := fromUtf8Lossy_cut hc
  have hbefore := decoded_singly before
  have hafter := decoded_singly after
  refine ⟨n, ?_⟩
  rw [decoded] at hbefore hafter ⊢
  rw [cutting, List.flatMap_append, List.flatMap_cons, List.flatMap_cons, hbefore, hafter, hfirst,
    hrest]
  rfl

theorem stepwise_cutting {c : Char} (hc : 0x80 ≤ c.toNat) (before after : List Char) :
    ∀ chunk ∈ cutting before c after,
      fromUtf8Lossy chunk = ['\n'] ∨ '\n' ∉ fromUtf8Lossy chunk := by
  obtain ⟨n, hfirst, hrest⟩ := fromUtf8Lossy_cut hc
  have hne : '\n' ≠ replacement := by decide
  intro chunk hchunk
  rw [cutting, List.mem_append, List.mem_cons, List.mem_cons] at hchunk
  rcases hchunk with hchunk | rfl | rfl | hchunk
  · exact stepwise_singly chunk hchunk
  · rw [hfirst]
    exact Or.inr fun hmem ↦ hne (List.mem_singleton.mp hmem)
  · rw [hrest]
    exact Or.inr fun hmem ↦ hne (List.eq_of_mem_replicate hmem)
  · exact stepwise_singly chunk hchunk

/-! ## A decoder that tells all data apart -/

def spoken (data : List Char) : String := String.ofList ('x' :: data)

/-- Every line of data is an event with a text of its own. -/
def echo : HttpChatCompletionsScheduler where
  provider _ _ := .unreachable ""
  fromStr text := some (Sample.deltaValue "content" (String.ofList ('x' :: text.toList)))

def said (line : List Char) : Option String := (payloadOf line).map spoken

theorem said_injective {line line' : List Char} (h : said line = said line') :
    payloadOf line = payloadOf line' := by
  refine Option.map_injective (fun data data' hdata ↦ ?_) h
  have hlist := congrArg String.toList hdata
  simpa [spoken] using hlist

theorem said_eq_none {line : List Char} : said line = none ↔ payloadOf line = none :=
  Option.map_eq_none_iff

theorem deltaText_content {text : String} (h : text ≠ "") :
    deltaText (choiceOf (Sample.deltaValue "content" text)) = some text := by
  have hlookup : ∀ v : Value, ([("content", v)] : List (String × Value)).lookup "content" =
      some v := fun _ ↦ rfl
  have hchoice : choiceOf (Sample.deltaValue "content" text) =
      .object [("delta", .object [("content", .string text)])] := rfl
  have htext : (Value.object [("content", .string text)]).index "content" = .string text := rfl
  have hasText : (Value.string text).asText = some text := by
    simp [Value.asText, Value.asStr, h]
  rw [hchoice]
  change ((Value.object [("content", .string text)]).index "content").asText.orElse _ = _
  rw [htext, hasText]
  rfl

theorem textsOf_echo (lines : List (List Char)) :
    textsOf (lines.filterMap echo.eventOf) = lines.filterMap said := by
  rw [textsOf, List.filterMap_filterMap]
  refine List.filterMap_congr fun line _ ↦ ?_
  rw [eventOf_eq, said]
  cases payloadOf line with
  | none => rfl
  | some data =>
      have hspoken : spoken data ≠ "" := fun h ↦ by simpa [spoken] using congrArg String.toList h
      have hevent : echo.fromStr (String.ofList data) =
          some (Sample.deltaValue "content" (spoken data)) := by
        simp only [echo, spoken, String.toList_ofList]
      rw [Option.bind_some, hevent, Option.bind_some, deltaText_content hspoken]
      rfl

theorem run_sendText (piece : Option String) :
    (sendText piece).run Sample.eager () = some (.ok (), ()) := by
  cases piece <;> rfl

theorem run_sendReasoning (piece : Option String) :
    (sendReasoning piece).run Sample.eager () = some (.ok (), ()) := by
  cases piece <;> rfl

theorem run_consumeAll (events : List Value) : ∀ s : Reading,
    (consumeAll events s).run Sample.eager () =
      some (.ok (events.foldl (fun s e ↦ absorb e s) s), ()) := by
  induction events with
  | nil => exact fun _ ↦ rfl
  | cons event events ih =>
      intro s
      have hconsume : (consume event s).run Sample.eager () = some (.ok (absorb event s), ()) := by
        unfold consume
        dsimp only
        rw [run_bind_of_eq (run_sendText _)]
        dsimp only
        rw [run_bind_of_eq (run_sendReasoning _)]
        rfl
      rw [consumeAll, run_bind_of_eq hconsume]
      exact ih _

theorem mute_outcomeOf (request : CompletionsRequest) (s : Reading) :
    (outcomeOf request s).OnlyCalls fun c ↦ ∀ text, c ≠ .textDelta text := by
  have hcalls : ∀ calls : List ToolCall,
      (announceCalls calls).OnlyCalls fun c ↦ ∀ text, c ≠ .textDelta text := by
    intro calls
    induction calls with
    | nil => trivial
    | cons c calls ih =>
        refine OnlyCalls.bind ⟨nofun, fun added ↦ ?_⟩ fun announced ↦ ?_
        · rcases added with e | (_ | _)
          · trivial
          · exact ⟨nofun, fun _ ↦ trivial⟩
          · trivial
        · rcases announced with e | ⟨⟩
          · trivial
          · exact ih
  unfold outcomeOf
  split
  · trivial
  · split_ifs
    · trivial
    · trivial
    · refine (hcalls _).bind fun announced ↦ ?_
      rcases announced with e | ⟨⟩ <;> trivial

/-- The texts that a parse sends to a sink that wants everything. -/
theorem piecesSent_parse (events : List Value) (request : CompletionsRequest)
    (finish : Except SchedulerError Reading → SinkProg (Except SchedulerError CompletionsOutcome))
    (hfinish : ∀ s, finish (.ok s) = outcomeOf request s) :
    piecesSent ((consumeAll events {} >>= finish).exchanges Sample.eager ()) = textsOf events := by
  have hrun := run_consumeAll events {}
  have hmute :
      piecesSent ((outcomeOf request (reading events)).exchanges Sample.eager ()) = [] := by
    refine List.filterMap_eq_nil_iff.mpr fun x hx ↦ ?_
    have hcall := exchanges_of_onlyCalls (mute_outcomeOf request _) hx
    split
    · next piece heq => exact absurd heq (hcall piece)
    · rfl
  rw [exchanges_bind_of_eq hrun, piecesSent_append, (path_consumeAll (Path.of_run hrun)).2,
    hfinish]
  exact (congrArg _ hmute).trans (List.append_nil _)

theorem textsOf_of_parse {chunks : List (List UInt8)} {text : List Char}
    {request : CompletionsRequest}
    (h : scheduler.parseStream (chunks.map .ok) true request = scheduler.parseWhole text request) :
    textsOf (scheduler.eventsOf (chunks.map .ok) []) =
      textsOf (scheduler.eventsIn (wholeLines text)) := by
  have hsame : piecesSent ((scheduler.parseStream (chunks.map .ok) true request).exchanges
      Sample.eager ()) = piecesSent ((scheduler.parseWhole text request).exchanges
        Sample.eager ()) := by rw [h]
  rw [parseStream_eq] at hsame
  refine (piecesSent_parse _ request _ fun s ↦ ?_).symm.trans
    (hsame.trans (piecesSent_parse _ request _ fun _ ↦ rfl))
  rw [transport_ok]
  rfl

/-! ## No other text is left alone -/

/-- Whatever the chunks are and whatever the decoder makes of the data, the chunks of the text are
parsed like the whole text. -/
def ChunkingIndependent (text : List Char) : Prop :=
  ∀ (scheduler : HttpChatCompletionsScheduler) (chunks : List (List UInt8))
    (request : CompletionsRequest), chunks.flatten = encode text →
      scheduler.parseStream (chunks.map .ok) true request = scheduler.parseWhole text request

theorem eq_of_filterMap_cons {α β : Type} {f : α → Option β} {a b : α} {l : List α}
    (h : (a :: l).filterMap f = (b :: l).filterMap f) : f a = f b := by
  rw [List.filterMap_cons, List.filterMap_cons] at h
  cases ha : f a <;> cases hb : f b <;> simp_all

namespace ChunkingIndependent

variable {text : List Char}

theorem said_stepwise (h : ChunkingIndependent text) {chunks : List (List UInt8)}
    (hbytes : chunks.flatten = encode text)
    (hchunks : ∀ chunk ∈ chunks, fromUtf8Lossy chunk = ['\n'] ∨ '\n' ∉ fromUtf8Lossy chunk) :
    (splitLines (decoded chunks)).1.filterMap said =
      ((wholeLines text).takeWhile fun line ↦ !isDone line).filterMap said := by
  have htexts := textsOf_of_parse (h echo chunks Sample.posed hbytes)
  rwa [eventsOf_stepwise hchunks List.not_mem_nil, List.nil_append, textsOf_echo, eventsIn,
    textsOf_echo] at htexts

/-- Chunks of one character are read to the end of the text, so there is nothing in it behind the
part that counts. -/
theorem said_lines (h : ChunkingIndependent text) :
    ((wholeLines text).takeWhile fun line ↦ !isDone line).filterMap said =
      (splitLines text).1.filterMap said := by
  rw [← h.said_stepwise (flatten_singly text) stepwise_singly, decoded_singly]

theorem silent (h : ChunkingIndependent text) :
    ∀ line ∈ afterDone (splitLines text).1, payloadOf line = none := by
  have hlines := h.said_lines
  intro line hline
  cases hdone : (splitLines text).1.any isDone with
  | false =>
      rw [afterDone_of_not_done hdone] at hline
      cases hline
  | true =>
      have htake : (wholeLines text).takeWhile (fun line ↦ !isDone line) =
          (splitLines text).1.takeWhile fun line ↦ !isDone line := by
        rw [wholeLines, List.takeWhile_append, if_neg]
        intro hlength
        have hself := (List.takeWhile_prefix (fun line ↦ !isDone line)).eq_of_length hlength
        obtain ⟨mark, hmark, hisDone⟩ := List.any_eq_true.mp hdone
        rw [← hself] at hmark
        simpa [hisDone] using List.mem_takeWhile_imp hmark
      rw [htake] at hlines
      have hsplit : (splitLines text).1.filterMap said =
          ((splitLines text).1.takeWhile fun line ↦ !isDone line).filterMap said ++
            ((splitLines text).1.dropWhile fun line ↦ !isDone line).filterMap said := by
        rw [← List.filterMap_append, List.takeWhile_append_dropWhile]
      have hnone := List.self_eq_append_right.mp (hlines.trans hsplit)
      exact said_eq_none.mp (List.filterMap_eq_nil_iff.mp hnone line (List.mem_of_mem_tail hline))

theorem terminated (h : ChunkingIndependent text)
    (hdone : (splitLines text).1.any isDone = false) : payloadOf (splitLines text).2 = none := by
  have hlines := h.said_lines
  have htake : (wholeLines text).takeWhile (fun line ↦ !isDone line) =
      (splitLines text).1 ++ [(splitLines text).2].takeWhile fun line ↦ !isDone line := by
    rw [wholeLines, List.takeWhile_append_of_pos]
    intro line hline
    simpa using List.any_eq_false.mp hdone line hline
  rw [htake, List.filterMap_append] at hlines
  have hnone := List.append_right_eq_self.mp hlines
  by_cases hlast : isDone (splitLines text).2 = true
  · rw [payloadOf, if_pos hlast]
  · refine said_eq_none.mp (List.filterMap_eq_nil_iff.mp hnone _ ?_)
    rw [List.takeWhile_cons, if_pos (by simpa using hlast)]
    exact List.mem_cons_self

/-- Replacement characters in a line leave the lines around it alone. -/
theorem splitLines_cut {before after : List (List Char)} {front back rest : List Char} {c : Char}
    (hlines : ∀ line ∈ before ++ (front ++ c :: back) :: after, '\n' ∉ line) (hrest : '\n' ∉ rest)
    (n : ℕ) : splitLines (joinLines before front ++ (List.replicate n replacement ++
        (back ++ '\n' :: joinLines after rest))) =
      (before ++ (front ++ (List.replicate n replacement ++ back)) :: after, rest) := by
  have hjoin : joinLines before front ++ (List.replicate n replacement ++
      (back ++ '\n' :: joinLines after rest)) =
        joinLines (before ++ (front ++ (List.replicate n replacement ++ back)) :: after) rest := by
    simp [joinLines]
  rw [hjoin]
  apply splitLines_joinLines _ hrest
  intro line hmem
  rcases List.mem_append.mp hmem with hmem | hmem
  · exact hlines line (List.mem_append_left _ hmem)
  · rcases List.mem_cons.mp hmem with rfl | hmem
    · have hold := hlines _ (List.mem_append_right _ List.mem_cons_self)
      have hne : '\n' ≠ replacement := by decide
      simp only [List.mem_append, List.mem_cons, List.mem_replicate, not_or] at hold ⊢
      exact ⟨hold.1, fun hmem ↦ hne hmem.2, hold.2.2⟩
    · exact hlines line (List.mem_append_right _ (List.mem_cons_of_mem _ hmem))

/-- A character beyond ASCII may be cut without a consequence for what its line hands over. -/
theorem payloadOf_cut (h : ChunkingIndependent text) {front back : List Char} {c : Char}
    (hc : 0x80 ≤ c.toNat) (hline : front ++ c :: back ∈ (splitLines text).1) : ∃ n,
      payloadOf (front ++ (List.replicate (n + 2) replacement ++ back)) =
        payloadOf (front ++ c :: back) := by
  obtain ⟨before, after, hlines⟩ := List.append_of_mem hline
  obtain ⟨hnewline, hrest⟩ := no_newline_splitLines text
  have htext : text = joinLines before front ++
      c :: (back ++ '\n' :: joinLines after (splitLines text).2) := by
    conv_lhs => rw [← joinLines_splitLines text, hlines]
    simp [joinLines]
  obtain ⟨n, hdecoded⟩ := decoded_cutting hc (joinLines before front)
    (back ++ '\n' :: joinLines after (splitLines text).2)
  rw [hlines] at hnewline
  have hsaid := (h.said_stepwise (htext ▸ flatten_cutting _ c _)
    (stepwise_cutting hc _ _)).trans h.said_lines
  rw [hdecoded, splitLines_cut hnewline hrest, hlines, List.filterMap_append,
    List.filterMap_append] at hsaid
  exact ⟨n, said_injective (eq_of_filterMap_cons (List.append_cancel_left hsaid))⟩

theorem plain (h : ChunkingIndependent text) : ∀ line ∈ (splitLines text).1,
    (payloadOf line).isSome = true → ∀ c ∈ line, c.toNat < 0x80 := by
  intro line hline hsome c hmem
  by_contra hc
  obtain ⟨front, back, rfl⟩ := List.append_of_mem hmem
  obtain ⟨data, hdata⟩ := Option.isSome_iff_exists.mp hsome
  obtain ⟨n, hcut⟩ := h.payloadOf_cut (Nat.not_lt.mp hc) hline
  have hcount := count_dataOf (payloadOf_eq_some (hcut.trans hdata))
  rw [count_dataOf (payloadOf_eq_some hdata), List.count_append, List.count_append,
    List.count_append, List.count_replicate_self, List.count_cons] at hcount
  split_ifs at hcount <;> omega

theorem mark (h : ChunkingIndependent text) : ∀ line ∈ (splitLines text).1,
    isDone line = true → ∀ c ∈ line.dropWhile isWhitespace, c.toNat < 0x80 := by
  intro line hline hdone c hmem
  by_contra hc
  obtain ⟨blank, rest, rfl, hblank, hrest⟩ := dataOf_eq_some.mp (dataOf_of_isDone hdone)
  rw [List.dropWhile_append_of_pos hblank] at hmem
  have hascii : "data:".toList.all (fun c ↦ decide (c.toNat < 0x80)) = true := rfl
  have hstart : c ∉ "data:".toList := fun hstart ↦
    hc (of_decide_eq_true (List.all_eq_true.mp hascii c hstart))
  obtain ⟨front, back, rfl⟩ :=
    List.append_of_mem ((List.mem_append.mp hmem).resolve_left hstart)
  have hline' : blank ++ ("data:".toList ++ (front ++ c :: back)) =
      (blank ++ ("data:".toList ++ front)) ++ c :: back := by simp
  rw [hline'] at hline hdone
  obtain ⟨n, hcut⟩ := h.payloadOf_cut (Nat.not_lt.mp hc) hline
  -- Garbled, the line is data still, with replacement characters, which no end mark has.
  have hdata : dataOf ((blank ++ ("data:".toList ++ front)) ++
      (List.replicate (n + 2) replacement ++ back)) =
        some (trim (front ++ (List.replicate (n + 2) replacement ++ back))) := by
    rw [List.append_assoc, List.append_assoc]
    exact dataOf_isSome hblank
  rw [payloadOf, payloadOf, if_pos hdone] at hcut
  have hmark := dataOf_of_isDone (isDone_of_payloadOf hcut hdata)
  have hcount := count_dataOf hmark
  have hzero : "[DONE]".toList.count replacement = 0 := rfl
  simp only [List.count_append, List.count_replicate_self] at hcount
  omega

end ChunkingIndependent

theorem chunkingIndependent_iff (text : List Char) :
    ChunkingIndependent text ↔ Seamless text :=
  ⟨fun h ↦ ⟨h.plain, h.mark, h.silent, h.terminated⟩,
    fun h _ _ request hbytes ↦ parseStream_of_seamless h hbytes request⟩

/-- The parse of a text does not depend on how it is cut, whatever the decoder makes of its data,
exactly where it is seamless; of any other text the chunks that do not disturb it are still parsed
like the whole. -/
theorem chunking_independence (text : List Char) :
    (ChunkingIndependent text ↔ Seamless text) ∧
      ∀ (scheduler : HttpChatCompletionsScheduler) (chunks : List (List UInt8))
        (request : CompletionsRequest), chunks.flatten = encode text →
          scheduler.Undisturbed text chunks →
            scheduler.parseStream (chunks.map .ok) true request =
              scheduler.parseWhole text request :=
  ⟨chunkingIndependent_iff text,
    fun _ _ request hbytes h ↦ parseStream_eq_parseWhole hbytes h request⟩

end HttpChatCompletionsScheduler

/-! ## A character in two chunks -/

namespace Sample

/-- An event with a piece of text. -/
def pieceEvent (text : String) : String :=
  "\x7b\"choices\":[\x7b\"delta\":\x7b\"content\":\"" ++ text ++ "\"\x7d\x7d]\x7d"

/-- Two replacement characters. -/
def garbled : String := "\uFFFD\uFFFD"

def reading : HttpChatCompletionsScheduler where
  provider _ _ := .unreachable ""
  fromStr text :=
    if text = pieceEvent "é" then some (deltaValue "content" "é")
    else if text = pieceEvent garbled then some (deltaValue "content" garbled)
    else none

def lineText : List Char := ("data: " ++ pieceEvent "é" ++ "\n").toList

/-- The stream, cut behind so many bytes. -/
def cutAt (n : ℕ) : List (List UInt8) := [(encode lineText).take n, (encode lineText).drop n]

/-- The texts of the outcome of a parse. -/
def textsOf (p : SinkProg (Except SchedulerError CompletionsOutcome)) : Option (List String) :=
  match p.run eager () with
  | some (.ok outcome, _) => some (outcome.items.map HttpChatCompletionsScheduler.textOfItem)
  | _ => none

theorem textsOf_cut : textsOf (reading.parseStream ((cutAt 40).map .ok) true posed) =
    some [garbled] := by
  decide +kernel

theorem textsOf_whole : textsOf (reading.parseWhole lineText posed) = some ["é"] := by
  decide +kernel

theorem cut_undisturbed : reading.Undisturbed lineText (cutAt 20) where
  characters := ⟨[lineText.take 20, lineText.drop 20], by decide +kernel⟩
  silent h := by
    have hnone : ((splitLines (fromUtf8Lossy (cutAt 20).dropLast.flatten)).1.any
        HttpChatCompletionsScheduler.isDone) = false := by decide +kernel
    rw [hnone] at h
    cases h
  terminated _ := by
    have hrest : (splitLines lineText).2 = [] := by decide +kernel
    rw [hrest]
    rfl

end Sample

/-- A character in two chunks comes out as two replacement characters. -/
theorem cut_garbled : ¬ ∀ (scheduler : HttpChatCompletionsScheduler) (text : List Char)
    (chunks : List (List UInt8)) (request : CompletionsRequest), chunks.flatten = encode text →
      scheduler.parseStream (chunks.map .ok) true request = scheduler.parseWhole text request := by
  intro hclaim
  have hsame := hclaim Sample.reading Sample.lineText (Sample.cutAt 40) Sample.posed
    (by simp [Sample.cutAt])
  have htexts := Sample.textsOf_cut
  rw [hsame, Sample.textsOf_whole] at htexts
  exact absurd htexts (by decide)

/-- A line with a character beyond ASCII is not seamless, but for the chunks that keep the
character whole. -/
theorem chunking_independence_cut :
    Sample.reading.parseStream ((Sample.cutAt 20).map .ok) true Sample.posed =
      Sample.reading.parseWhole Sample.lineText Sample.posed :=
  (HttpChatCompletionsScheduler.chunking_independence Sample.lineText).2 Sample.reading
    (Sample.cutAt 20) Sample.posed (by simp [Sample.cutAt]) Sample.cut_undisturbed

end NovaChat
