import NovaChat.Agentd.Assembly

/-!
# A stream in chunks

A stream is a text, and its bytes come in chunks.  The parse of the chunks is compared with the
parse of all lines of the text, the last one included, up to the end mark.
-/

namespace NovaChat

open Interact Prog

/-! ## Decoding -/

def encode (text : List Char) : List UInt8 := text.flatMap String.utf8EncodeChar

theorem toNat_continuation {k : ℕ} (hk : k < 64) : (UInt8.ofNat (k + 0x80)).toNat = k + 0x80 := by
  rw [UInt8.toNat_ofNat']
  omega

theorem readContinuations_cons {n code k : ℕ} (hk : k < 64) (rest : List UInt8) :
    readContinuations (n + 1) code (UInt8.ofNat (k + 0x80) :: rest) =
      readContinuations n (code * 64 + k) rest := by
  have hcontinues : isContinuation (k + 0x80) = true := by
    simp only [isContinuation, Bool.and_eq_true, decide_eq_true_eq]
    omega
  rw [readContinuations, toNat_continuation hk, if_pos hcontinues, Nat.add_sub_cancel]

theorem followsFirst_of_bounds {first second : ℕ} (hsecond : 0x80 ≤ second ∧ second ≤ 0xbf)
    (he0 : first = 0xe0 → 0xa0 ≤ second) (hed : first = 0xed → second ≤ 0x9f)
    (hf0 : first = 0xf0 → 0x90 ≤ second) (hf4 : first = 0xf4 → second ≤ 0x8f) :
    followsFirst first second = true := by
  unfold followsFirst isContinuation
  split <;> simp only [Bool.and_eq_true, decide_eq_true_eq] <;> simp_all

/-- The first byte tells the width, and the second follows it. -/
theorem readChar_long {first width k : ℕ} (hfirst : first < 256) (hk : k < 64)
    (hwidth : utf8CharWidth first = width) (h2 : 2 ≤ width)
    (hfollows : followsFirst first (k + 0x80) = true) (rest : List UInt8) :
    readChar (UInt8.ofNat first) (UInt8.ofNat (k + 0x80) :: rest) =
      match readContinuations (width - 2) (first % 2 ^ (7 - width) * 64 + k) rest with
      | (some code, rest) => (Char.ofNat code, rest)
      | (none, rest) => (Char.ofNat 0xfffd, rest) := by
  obtain ⟨n, rfl⟩ : ∃ n, width = n + 2 := ⟨width - 2, by omega⟩
  have htoNat : (UInt8.ofNat first).toNat = first := by
    rw [UInt8.toNat_ofNat']
    omega
  cases hread : readContinuations n (first % 2 ^ (7 - (n + 2)) * 64 + k) rest with
  | mk code tail =>
      cases code <;>
        simp only [readChar, htoNat, hwidth, toNat_continuation hk, hfollows, if_true,
          Nat.add_sub_cancel, hread]

theorem utf8CharWidth_eq {b width : ℕ} (h : width = 1 ∧ b < 0x80 ∨
    width = 2 ∧ 0xc2 ≤ b ∧ b ≤ 0xdf ∨ width = 3 ∧ 0xe0 ≤ b ∧ b ≤ 0xef ∨
      width = 4 ∧ 0xf0 ≤ b ∧ b ≤ 0xf4) : utf8CharWidth b = width := by
  unfold utf8CharWidth
  split_ifs <;> omega

/-- A character is read off its encoding. -/
theorem readChar_encode (c : Char) (rest : List UInt8) :
    ∃ b bytes, String.utf8EncodeChar c = b :: bytes ∧ readChar b (bytes ++ rest) = (c, rest) := by
  have hc : Char.ofNat c.val.toNat = c := Char.ofNat_toNat c
  have hv : c.val.toNat < 0xd800 ∨ 0xdfff < c.val.toNat ∧ c.val.toNat < 0x110000 := c.valid
  unfold String.utf8EncodeChar
  generalize c.val.toNat = v at hc hv ⊢
  dsimp only
  split_ifs with h1 h2 h3
  · refine ⟨_, _, rfl, ?_⟩
    have htoNat : (UInt8.ofNat v).toNat = v := by
      rw [UInt8.toNat_ofNat']
      omega
    have hwidth : utf8CharWidth v = 1 := utf8CharWidth_eq (by omega)
    simp only [readChar, htoNat, hwidth, hc, List.nil_append]
  · refine ⟨_, _, rfl, ?_⟩
    have hcode : (v / 64 % 0x20 + 0xc0) % 2 ^ (7 - 2) * 64 + v % 0x40 = v := by omega
    rw [List.cons_append, List.nil_append, readChar_long (by omega) (by omega)
      (utf8CharWidth_eq (.inr (.inl ⟨rfl, by omega, by omega⟩))) le_rfl
      (followsFirst_of_bounds (by omega) (by omega) (by omega) (by omega) (by omega)), hcode]
    simp only [Nat.sub_self, readContinuations, hc]
  · refine ⟨_, _, rfl, ?_⟩
    have hcode : ((v / 4096 % 0x10 + 0xe0) % 2 ^ (7 - 3) * 64 + v / 64 % 0x40) * 64 + v % 0x40 =
      v := by omega
    rw [List.cons_append, List.cons_append, List.nil_append, readChar_long (by omega) (by omega)
      (utf8CharWidth_eq (.inr (.inr (.inl ⟨rfl, by omega, by omega⟩)))) (by omega)
      (followsFirst_of_bounds (by omega) (by omega) (by omega) (by omega) (by omega)),
      readContinuations_cons (by omega), hcode]
    simp only [readContinuations, hc]
  · refine ⟨_, _, rfl, ?_⟩
    have hcode : (((v / 262144 % 0x08 + 0xf0) % 2 ^ (7 - 4) * 64 + v / 4096 % 0x40) * 64 +
      v / 64 % 0x40) * 64 + v % 0x40 = v := by omega
    rw [List.cons_append, List.cons_append, List.cons_append, List.nil_append,
      readChar_long (by omega) (by omega)
      (utf8CharWidth_eq (.inr (.inr (.inr ⟨rfl, by omega, by omega⟩)))) (by omega)
      (followsFirst_of_bounds (by omega) (by omega) (by omega) (by omega) (by omega)),
      readContinuations_cons (by omega), readContinuations_cons (by omega), hcode]
    simp only [readContinuations, hc]

theorem decodeLossy_encode (text : List Char) : ∀ n, (encode text).length ≤ n →
    decodeLossy n (encode text) = text := by
  induction text with
  | nil =>
      intro n _
      cases n <;> rfl
  | cons c text ih =>
      intro n hn
      obtain ⟨b, bytes, hbytes, hread⟩ := readChar_encode c (encode text)
      have hencode : encode (c :: text) = b :: (bytes ++ encode text) := by
        rw [encode, List.flatMap_cons, hbytes]
        rfl
      rw [hencode] at hn ⊢
      cases n with
      | zero => simp at hn
      | succ n =>
          simp only [List.length_cons, List.length_append] at hn
          rw [decodeLossy, hread, ih n (by omega)]

theorem fromUtf8Lossy_encode (text : List Char) : fromUtf8Lossy (encode text) = text :=
  decodeLossy_encode text _ le_rfl

theorem encode_injective : Function.Injective encode := fun text text' h ↦ by
  rw [← fromUtf8Lossy_encode text, h, fromUtf8Lossy_encode]

theorem encode_flatten (pieces : List (List Char)) :
    encode pieces.flatten = (pieces.map encode).flatten := by
  induction pieces with
  | nil => rfl
  | cons piece pieces ih =>
      rw [List.flatten_cons, List.map_cons, List.flatten_cons, ← ih]
      exact List.flatMap_append

/-- What chunks are decoded to, each by itself. -/
def decoded (chunks : List (List UInt8)) : List Char := chunks.flatMap fromUtf8Lossy

theorem decoded_cons (chunk : List UInt8) (chunks : List (List UInt8)) :
    decoded (chunk :: chunks) = fromUtf8Lossy chunk ++ decoded chunks := rfl

theorem decoded_map_encode (pieces : List (List Char)) :
    decoded (pieces.map encode) = pieces.flatten := by
  rw [decoded, List.flatMap_map]
  simp only [fromUtf8Lossy_encode, List.flatMap_id']

/-! ## Lines -/

theorem no_newline_splitLines (text : List Char) :
    (∀ line ∈ (splitLines text).1, '\n' ∉ line) ∧ '\n' ∉ (splitLines text).2 := by
  induction text with
  | nil => exact ⟨List.forall_mem_nil _, List.not_mem_nil⟩
  | cons c text ih =>
      by_cases hc : c = '\n'
      · rw [hc, splitLines_newline]
        refine ⟨fun line hline ↦ ?_, ih.2⟩
        rcases List.mem_cons.mp hline with rfl | hline
        · exact List.not_mem_nil
        · exact ih.1 line hline
      · rw [splitLines_cons_of_ne hc]
        rcases hsplit : splitLines text with ⟨_ | ⟨line, lines⟩, rest⟩ <;> rw [hsplit] at ih <;>
          simp only [extendLine]
        · exact ⟨List.forall_mem_nil _, by simpa [Ne.symm hc] using ih.2⟩
        · refine ⟨fun line' hline ↦ ?_, ih.2⟩
          rcases List.mem_cons.mp hline with rfl | hline
          · simpa [Ne.symm hc] using ih.1 line List.mem_cons_self
          · exact ih.1 line' (List.mem_cons_of_mem _ hline)

theorem splitLines_joinLines {lines : List (List Char)} {rest : List Char}
    (hlines : ∀ line ∈ lines, '\n' ∉ line) (hrest : '\n' ∉ rest) :
    splitLines (joinLines lines rest) = (lines, rest) := by
  induction lines with
  | nil => exact splitLines_of_no_newline hrest
  | cons line lines ih =>
      rw [joinLines_cons, splitLines_cons_line (hlines line List.mem_cons_self),
        ih fun l hl ↦ hlines l (List.mem_cons_of_mem _ hl)]

namespace HttpChatCompletionsScheduler

variable {scheduler : HttpChatCompletionsScheduler}

/-- The lines behind the end mark. -/
def afterDone (lines : List (List Char)) : List (List Char) :=
  (lines.dropWhile fun line ↦ !isDone line).tail

theorem eventsIn_append (lines later : List (List Char)) : scheduler.eventsIn (lines ++ later) =
    if lines.any isDone then scheduler.eventsIn lines
    else scheduler.eventsIn lines ++ scheduler.eventsIn later := by
  induction lines with
  | nil => rfl
  | cons line lines ih =>
      rw [List.cons_append, eventsIn_cons, eventsIn_cons, ih, List.any_cons]
      cases hdone : isDone line with
      | true => rfl
      | false =>
          simp only [Bool.false_eq_true, if_false, Bool.false_or]
          split_ifs <;> simp

theorem afterDone_append (lines later : List (List Char)) : afterDone (lines ++ later) =
    if lines.any isDone then afterDone lines ++ later else afterDone later := by
  induction lines with
  | nil => rfl
  | cons line lines ih =>
      unfold afterDone at ih ⊢
      rw [List.cons_append, List.dropWhile_cons, List.dropWhile_cons, List.any_cons]
      cases hdone : isDone line with
      | true => simp
      | false => simpa using ih

theorem eventsIn_eq_nil {lines : List (List Char)}
    (h : ∀ line ∈ lines, scheduler.eventOf line = none) : scheduler.eventsIn lines = [] :=
  List.filterMap_eq_nil_iff.mpr fun line hline ↦ h line ((List.takeWhile_subset _) hline)

theorem afterDone_of_not_done {lines : List (List Char)} (h : lines.any isDone = false) :
    afterDone lines = [] := by
  have happend := afterDone_append lines []
  rw [h, List.append_nil] at happend
  exact happend

theorem leftOver_of_not_done {lines : List (List Char)} {rest : List Char}
    (h : lines.any isDone = false) : leftOver lines rest = rest := by
  rw [leftOver, ← afterDone, afterDone_of_not_done h, joinLines_nil]

theorem mem_of_mem_afterDone {lines : List (List Char)} {line : List Char}
    (h : line ∈ afterDone lines) : line ∈ lines :=
  (List.dropWhile_suffix _).subset (List.mem_of_mem_tail h)

theorem splitLines_leftOver (text more : List Char) :
    (splitLines (leftOver (splitLines text).1 (splitLines text).2 ++ more)).1 =
      afterDone (splitLines text).1 ++ (splitLines ((splitLines text).2 ++ more)).1 := by
  obtain ⟨hlines, hrest⟩ := no_newline_splitLines text
  have hsplit : splitLines (joinLines (afterDone (splitLines text).1) (splitLines text).2) =
      (afterDone (splitLines text).1, (splitLines text).2) :=
    splitLines_joinLines (fun line hline ↦ hlines line (mem_of_mem_afterDone hline)) hrest
  rw [splitLines_append, leftOver, ← afterDone, hsplit]

/-! ## Chunks -/

theorem eventsOf_cons (chunk : List UInt8) (chunks : List (List UInt8)) (buffer : List Char) :
    scheduler.eventsOf ((chunk :: chunks).map .ok) buffer =
      scheduler.eventsIn (splitLines (buffer ++ fromUtf8Lossy chunk)).1 ++
        scheduler.eventsOf (chunks.map .ok)
          (leftOver (splitLines (buffer ++ fromUtf8Lossy chunk)).1
            (splitLines (buffer ++ fromUtf8Lossy chunk)).2) := rfl

theorem lines_cons (piece : List Char) (more buffer : List Char) :
    (splitLines (buffer ++ (piece ++ more))).1 = (splitLines (buffer ++ piece)).1 ++
      (splitLines ((splitLines (buffer ++ piece)).2 ++ more)).1 := by
  rw [← List.append_assoc, splitLines_append]

/-- Without events in the lines nothing is read, wherever the end marks are. -/
theorem eventsOf_eq_nil (chunks : List (List UInt8)) : ∀ buffer : List Char,
    (∀ line ∈ (splitLines (buffer ++ decoded chunks)).1, scheduler.eventOf line = none) →
      scheduler.eventsOf (chunks.map .ok) buffer = [] := by
  induction chunks with
  | nil => exact fun _ _ ↦ rfl
  | cons chunk chunks ih =>
      intro buffer hnone
      rw [decoded, List.flatMap_cons, lines_cons] at hnone
      rw [eventsOf_cons,
        eventsIn_eq_nil fun line hline ↦ hnone line (List.mem_append_left _ hline),
        List.nil_append]
      refine ih _ fun line hline ↦ ?_
      rw [splitLines_leftOver] at hline
      rcases List.mem_append.mp hline with hline | hline
      · exact hnone line (List.mem_append_left _ (mem_of_mem_afterDone hline))
      · exact hnone line (List.mem_append_right _ hline)

/-- The events of the chunks are those of the decoded lines, if nothing follows an end mark that
comes before the last chunk. -/
theorem eventsOf_chunks (chunks : List (List UInt8)) : ∀ buffer : List Char, '\n' ∉ buffer →
    ((splitLines (buffer ++ decoded chunks.dropLast)).1.any isDone = true →
      ∀ line ∈ afterDone (splitLines (buffer ++ decoded chunks)).1,
        scheduler.eventOf line = none) →
      scheduler.eventsOf (chunks.map .ok) buffer =
        scheduler.eventsIn (splitLines (buffer ++ decoded chunks)).1 := by
  induction chunks with
  | nil =>
      intro buffer hbuffer _
      rw [decoded, List.flatMap_nil, List.append_nil, splitLines_of_no_newline hbuffer]
      rfl
  | cons chunk chunks ih =>
      intro buffer hbuffer hsilent
      have hrest := (no_newline_splitLines (buffer ++ fromUtf8Lossy chunk)).2
      rw [decoded_cons, lines_cons] at hsilent ⊢
      rw [eventsOf_cons, eventsIn_append]
      rw [afterDone_append] at hsilent
      by_cases hdone : (splitLines (buffer ++ fromUtf8Lossy chunk)).1.any isDone = true
      · rw [if_pos hdone] at hsilent ⊢
        suffices hlater : scheduler.eventsOf (chunks.map .ok)
            (leftOver (splitLines (buffer ++ fromUtf8Lossy chunk)).1
              (splitLines (buffer ++ fromUtf8Lossy chunk)).2) = [] by
          rw [hlater, List.append_nil]
        cases chunks with
        | nil => rfl
        | cons chunk' chunks =>
            refine eventsOf_eq_nil _ _ fun line hline ↦ hsilent ?_ line ?_
            · rw [List.dropLast_cons_of_ne_nil (by simp), decoded, List.flatMap_cons, lines_cons,
                List.any_append, hdone, Bool.true_or]
            · rwa [splitLines_leftOver] at hline
      · rw [if_neg hdone] at hsilent ⊢
        rw [leftOver_of_not_done (by simpa using hdone)]
        congr 1
        refine ih _ hrest fun hearly ↦ hsilent ?_
        cases chunks with
        | nil =>
            rw [List.dropLast_nil, decoded, List.flatMap_nil, List.append_nil,
              splitLines_of_no_newline hrest] at hearly
            cases hearly
        | cons chunk' chunks =>
            rw [List.dropLast_cons_of_ne_nil (by simp), decoded, List.flatMap_cons, lines_cons,
              List.any_append]
            rw [decoded] at hearly
            rw [hearly, Bool.or_true]

/-! ## The whole text -/

/-- All lines of a text, the last one included. -/
def wholeLines (text : List Char) : List (List Char) := (splitLines text).1 ++ [(splitLines text).2]

/-- Consume the events of a text up to the end mark. -/
def parseWhole (scheduler : HttpChatCompletionsScheduler) (text : List Char)
    (request : CompletionsRequest) : SinkProg (Except SchedulerError CompletionsOutcome) := do
  match ← consumeAll (scheduler.eventsIn (wholeLines text)) {} with
  | .error e => return .error e
  | .ok s => outcomeOf request s

/-- No character is cut, nothing follows an end mark that comes before the last chunk, and without
an end mark the last line is no event. -/
structure Undisturbed (scheduler : HttpChatCompletionsScheduler) (text : List Char)
    (chunks : List (List UInt8)) : Prop where
  characters : ∃ pieces : List (List Char), chunks = pieces.map encode
  silent : (splitLines (fromUtf8Lossy chunks.dropLast.flatten)).1.any isDone = true →
    ∀ line ∈ afterDone (splitLines text).1, scheduler.eventOf line = none
  terminated : (splitLines text).1.any isDone = false →
    scheduler.eventOf (splitLines text).2 = none

theorem eventsIn_wholeLines {text : List Char}
    (h : (splitLines text).1.any isDone = false → scheduler.eventOf (splitLines text).2 = none) :
    scheduler.eventsIn (wholeLines text) = scheduler.eventsIn (splitLines text).1 := by
  rw [wholeLines, eventsIn_append]
  split_ifs with hdone
  · rfl
  · have hlast : scheduler.eventsIn [(splitLines text).2] = [] :=
      eventsIn_eq_nil fun line hline ↦ by
      obtain rfl := List.mem_singleton.mp hline
      exact h (by simpa using hdone)
    rw [hlast, List.append_nil]

theorem transport_ok (chunks : List (List UInt8)) : transport (chunks.map .ok) = .ok () := by
  induction chunks with
  | nil => rfl
  | cons chunk chunks ih => exact ih

/-- The parse depends on the events that are read. -/
theorem parseStream_of_events {text : List Char} {chunks : List (List UInt8)}
    (h : scheduler.eventsOf (chunks.map .ok) [] = scheduler.eventsIn (wholeLines text))
    (request : CompletionsRequest) :
    scheduler.parseStream (chunks.map .ok) true request = scheduler.parseWhole text request := by
  rw [parseStream_eq, transport_ok, h, parseWhole]
  congr 1
  funext r
  rcases r with e | s <;> rfl

/-- The chunks of an undisturbed stream are parsed like its whole text. -/
theorem parseStream_eq_parseWhole {text : List Char} {chunks : List (List UInt8)}
    (hbytes : chunks.flatten = encode text) (h : scheduler.Undisturbed text chunks)
    (request : CompletionsRequest) :
    scheduler.parseStream (chunks.map .ok) true request = scheduler.parseWhole text request := by
  obtain ⟨pieces, rfl⟩ := h.characters
  have htext : pieces.flatten = text := encode_injective (by rw [encode_flatten, hbytes])
  apply parseStream_of_events
  rw [eventsIn_wholeLines h.terminated]
  have hread := @eventsOf_chunks scheduler (pieces.map encode) [] List.not_mem_nil
  rw [← List.map_dropLast, decoded_map_encode, decoded_map_encode, List.nil_append,
    List.nil_append, htext] at hread
  apply hread
  intro hearly
  apply h.silent
  rwa [← List.map_dropLast, ← encode_flatten, fromUtf8Lossy_encode]

end HttpChatCompletionsScheduler

end NovaChat
