import NovaChat.Gateway.Sse
import NovaChat.Interact.Path
import NovaChat.Stream.Numbering

/-!
# Following a stream

A client stays on a stream for some reads, loses the connection somewhere between two frames, and
connects again with the id of the last frame it got.  Whatever it reads from is told the way a
numbered list grows, and the frames it gets are that list from its first cursor on, none of them
twice and none left out.
-/

namespace NovaChat

open Interact Prog Numbering

namespace Gateway

/-! ## The client -/

/-- One connection: the node it reaches, how many reads it lasts, and how many of its frames get
through. -/
structure Connection where
  node : ℕ
  reads : ℕ
  through : ℕ

/-- The frames of an answer. -/
def HttpResponse.frames (a : HttpResponse) : List Frame :=
  match a.body with
  | .stream frames => frames
  | _ => []

/-- The id of the last frame that has one. -/
def lastId (frames : List Frame) : Option String := (frames.filterMap Frame.id).getLast?

/-- Connect again and again, each time naming the last id that got through. -/
def follow (ask : Connection → Option String → Service HttpResponse) :
    List Connection → Option String → Service (List Frame)
  | [], _ => return []
  | connection :: connections, last => do
    let a ← ask connection last
    let got := a.frames.take connection.through
    let rest ← follow ask connections ((lastId got).or last)
    return got ++ rest

/-- The frames that tell an event. -/
def telling (frames : List Frame) : List Frame := frames.filter fun f ↦ f.id.isSome

/-! ## Cursors as text -/

theorem isWhitespace_of_isDigit {c : Char} (h : c.isDigit = true) : isWhitespace c = false := by
  obtain ⟨hlo, hhi⟩ : 48 ≤ c.toNat ∧ c.toNat ≤ 57 := by
    simp only [Char.isDigit, Bool.and_eq_true, decide_eq_true_eq] at h
    exact ⟨UInt32.le_iff_toNat_le.mp h.1, UInt32.le_iff_toNat_le.mp h.2⟩
  simp only [isWhitespace, Bool.or_eq_false_iff, Bool.and_eq_false_iff, decide_eq_false_iff_not,
    beq_eq_false_iff_ne]
  omega

theorem trim_toString (n : ℕ) : (trim (toString n)).toList = Nat.toDigits 10 n := by
  have hlist : (toString n).toList = Nat.toDigits 10 n := Nat.toList_repr
  have hdigit : ∀ c ∈ Nat.toDigits 10 n, isWhitespace c = false := fun c hc ↦
    isWhitespace_of_isDigit (Nat.isDigit_of_mem_toDigits (by decide) (by decide) hc)
  rw [trim, hlist, String.toList_ofList, List.dropWhile_eq_self_iff.mpr,
    List.rdropWhile_eq_self_iff.mpr]
  · intro hne
    rw [hdigit _ (List.getLast_mem hne)]
    decide
  · intro hlt
    rw [hdigit _ (List.getElem_mem hlt)]
    decide

theorem withoutPlus_of_isDigit {text : List Char} (h : ∀ c ∈ text, c.isDigit = true) :
    withoutPlus text = text := by
  unfold withoutPlus
  split
  · next rest => exact absurd (h '+' List.mem_cons_self) (by decide)
  · rfl

theorem parseU64_toDigits {n : ℕ} (h : n ≤ u64Max) : parseU64 (Nat.toDigits 10 n) = some n := by
  have hdigits : ∀ c ∈ Nat.toDigits 10 n, c.isDigit = true := fun c hc ↦
    Nat.isDigit_of_mem_toDigits (by decide) (by decide) hc
  have hvalue := @Nat.ofDigitChars_toDigits 10 n (by decide) (by decide)
  rw [Nat.ofDigitChars_eq_foldl] at hvalue
  simp only [parseU64, withoutPlus_of_isDigit hdigits, hvalue, List.all_eq_true.mpr hdigits]
  simp [h, Nat.toDigits_ne_nil]

/-- The id of a frame is read back as the number it was written from. -/
theorem resolveCursor_toString {n : ℕ} (h : n ≤ u64Max) (query : Option ℕ) :
    resolveCursor query (some (toString n)) = some n := by
  rw [resolveCursor, Option.bind_some, trim_toString, parseU64_toDigits h, Option.some_or]

/-! ## Segments -/

theorem prefix_append_drop {α : Type} {xs ys l : List α} (hxs : xs <+: l)
    (hys : ys <+: l.drop xs.length) : xs ++ ys <+: l := by
  obtain ⟨rest, rfl⟩ := hxs
  rw [List.drop_left] at hys
  exact (List.prefix_append_right_inj xs).mpr hys

section Told

variable {Event : Type} {source : SseSource Event} {all got : List Event} {frames : List Frame}
  {good : Exchange Call Call.Reply → Prop} {sound : Option ℕ → Prop}

/-- The frames of a segment, with a report of a failure behind them or not. -/
def Frames (source : SseSource Event) (got : List Event) (frames : List Frame) : Prop :=
  frames = got.map source.frame ∨
    ∃ failure, frames = got.map source.frame ++ [SseSource.errorFrame failure]

theorem telling_map (got : List Event) :
    telling (got.map source.frame) = got.map source.frame := by
  rw [telling, List.filter_eq_self]
  intro f hf
  obtain ⟨e, -, rfl⟩ := List.mem_map.mp hf
  rfl

theorem Frames.telling_take (h : Frames source got frames) (n : ℕ) :
    telling (frames.take n) = (got.take n).map source.frame := by
  rcases h with rfl | ⟨failure, rfl⟩
  · rw [← List.map_take, telling_map]
  · have herror : telling ([SseSource.errorFrame failure].take
        (n - (got.map source.frame).length)) = [] := by
      cases n - (got.map source.frame).length with
      | zero => rfl
      | succ m => simp [telling, SseSource.errorFrame]
    rw [List.take_append, telling, List.filter_append]
    change telling _ ++ telling _ = _
    rw [herror, List.append_nil, ← List.map_take, telling_map]

/-- The last id a client got is the number of the last event it was told. -/
theorem lastId_eq (h : telling frames = got.map source.frame) :
    lastId frames = got.getLast?.map fun e ↦ toString (source.seq e) := by
  have htelling : ∀ frames : List Frame,
      frames.filterMap Frame.id = (telling frames).filterMap Frame.id := by
    intro frames
    induction frames with
    | nil => rfl
    | cons f frames ih =>
        cases hid : f.id <;> simp [telling, hid] at ih ⊢ <;> exact ih
  have hids : (got.map source.frame).filterMap Frame.id =
      got.map fun e ↦ toString (source.seq e) := by
    rw [List.filterMap_map, ← List.filterMap_eq_map]
    rfl
  rw [lastId, htelling, h, hids, List.getLast?_map]

/-- As far as its exchanges are good, a source reads from a numbered list: a read at a sound cursor
brings what comes behind it. -/
structure Tells (source : SseSource Event) (all : List Event)
    (good : Exchange Call Call.Reply → Prop) (sound : Option ℕ → Prop) : Prop where
  numbered : From source.seq 0 all
  word : ∀ e ∈ all, source.seq e ≤ u64Max
  resumed : ∀ e ∈ all, sound (some (source.seq e))
  read : ∀ {cursor limit xs batch}, sound cursor → Path (source.read cursor limit) xs (.ok batch) →
    (∀ x ∈ xs, good x) → batch <+: all.drop (first cursor)

/-- Behind a segment the cursor is sound and stands right after it. -/
theorem Tells.after (h : Tells source all good sound) {cursor : Option ℕ} (hcursor : sound cursor)
    (hgot : got <+: all.drop (first cursor)) :
    sound (after source.seq got cursor) ∧
      first (after source.seq got cursor) = first cursor + got.length := by
  obtain ⟨rest, hrest⟩ := hgot
  have hfrom : From source.seq (first cursor) got := by
    have hdrop := h.numbered.drop (first cursor)
    rw [Nat.zero_add, ← hrest] at hdrop
    exact (from_append.mp hdrop).1
  refine ⟨?_, first_after hfrom⟩
  unfold Numbering.after
  cases hlast : got.getLast? with
  | none => exact hcursor
  | some e =>
      have hmem : e ∈ all := by
        apply List.mem_of_mem_drop (i := first cursor)
        rw [← hrest]
        exact List.mem_append_left _ (List.mem_of_getLast? hlast)
      exact h.resumed e hmem

theorem Tells.listen (h : Tells source all good sound) {batch : ℕ} : ∀ (reads : ℕ)
    {cursor : Option ℕ} {xs : List (Exchange Call Call.Reply)} {frames : List Frame},
    sound cursor → Path (source.listen batch reads cursor) xs frames → (∀ x ∈ xs, good x) →
      ∃ got, got <+: all.drop (first cursor) ∧ Frames source got frames := by
  intro reads
  induction reads with
  | zero =>
      intro cursor xs frames _ hpath _
      obtain ⟨-, rfl⟩ := path_ret.mp hpath
      exact ⟨[], List.nil_prefix, Or.inl rfl⟩
  | succ reads ih =>
      intro cursor xs frames hcursor hpath hgood
      obtain ⟨reply, ys, zs, rfl, hread, hrest⟩ := path_bind.mp hpath
      cases reply with
      | error failure =>
          obtain ⟨-, rfl⟩ := path_ret.mp hrest
          exact ⟨[], List.nil_prefix, Or.inr ⟨failure, rfl⟩⟩
      | ok events =>
          have hevents := h.read hcursor hread fun x hx ↦ hgood x (List.mem_append_left _ hx)
          by_cases hterminal : events.any source.isTerminal = true
          · simp only [hterminal, if_true] at hrest
            obtain ⟨-, rfl⟩ := path_ret.mp hrest
            exact ⟨events, hevents, Or.inl rfl⟩
          · simp only [hterminal, Bool.false_eq_true, if_false] at hrest
            obtain ⟨more, us, vs, rfl, hmore, hret⟩ := path_bind.mp hrest
            obtain ⟨-, rfl⟩ := path_ret.mp hret
            obtain ⟨hsound, hfirst⟩ := h.after hcursor hevents
            obtain ⟨got, hgot, hframes⟩ := ih hsound hmore fun x hx ↦
              hgood x (List.mem_append_right _ (List.mem_append_left _ hx))
            refine ⟨events ++ got, prefix_append_drop hevents ?_, ?_⟩
            · rw [List.drop_drop, ← hfirst]
              exact hgot
            · rw [Frames, List.map_append]
              rcases hframes with rfl | ⟨failure, rfl⟩
              · exact Or.inl rfl
              · exact Or.inr ⟨failure, (List.append_assoc ..).symm⟩

theorem Tells.openSse (h : Tells source all good sound) {batch reads : ℕ} {start : Option ℕ}
    {xs : List (Exchange Call Call.Reply)} {a : HttpResponse} (hstart : sound start)
    (hpath : Path (source.openSse batch reads start) xs a) (hgood : ∀ x ∈ xs, good x) :
    ∃ got, got <+: all.drop (first start) ∧ Frames source got a.frames := by
  obtain ⟨probe, ys, zs, rfl, -, hrest⟩ := path_bind.mp hpath
  cases probe with
  | error failure =>
      obtain ⟨-, rfl⟩ := path_ret.mp hrest
      exact ⟨[], List.nil_prefix, Or.inl rfl⟩
  | ok events =>
      obtain ⟨frames, us, vs, rfl, hlisten, hret⟩ := path_bind.mp hrest
      obtain ⟨-, rfl⟩ := path_ret.mp hret
      exact h.listen reads hstart hlisten fun x hx ↦
        hgood x (List.mem_append_right _ (List.mem_append_left _ hx))

/-- What gets through to a client that keeps coming back is one segment of the list, each event
told once. -/
theorem Tells.follow (h : Tells source all good sound) {query : Option ℕ}
    {ask : Connection → Option String → Service HttpResponse}
    (hask : ∀ {connection last xs a}, sound (resolveCursor query last) →
      Path (ask connection last) xs a → (∀ x ∈ xs, good x) →
      ∃ got, got <+: all.drop (first (resolveCursor query last)) ∧ Frames source got a.frames) :
    ∀ (connections : List Connection) {last : Option String}
      {xs : List (Exchange Call Call.Reply)} {frames : List Frame},
      sound (resolveCursor query last) → Path (Gateway.follow ask connections last) xs frames →
        (∀ x ∈ xs, good x) →
        ∃ got, got <+: all.drop (first (resolveCursor query last)) ∧
          telling frames = got.map source.frame := by
  intro connections
  induction connections with
  | nil =>
      intro last xs frames _ hpath _
      obtain ⟨-, rfl⟩ := path_ret.mp hpath
      exact ⟨[], List.nil_prefix, rfl⟩
  | cons connection connections ih =>
      intro last xs frames hsound hpath hgood
      obtain ⟨a, ys, zs, rfl, hanswer, hrest⟩ := path_bind.mp hpath
      obtain ⟨rest, us, vs, rfl, hmore, hret⟩ := path_bind.mp hrest
      obtain ⟨-, rfl⟩ := path_ret.mp hret
      obtain ⟨events, hevents, hframes⟩ := hask hsound hanswer fun x hx ↦
        hgood x (List.mem_append_left _ hx)
      -- What got through, and the cursor it leaves the client with.
      have htaken :
          events.take connection.through <+: all.drop (first (resolveCursor query last)) :=
        (List.take_prefix _ _).trans hevents
      have htold := hframes.telling_take connection.through
      have hcursor : resolveCursor query
          ((lastId (a.frames.take connection.through)).or last) =
            Numbering.after source.seq (events.take connection.through)
              (resolveCursor query last) := by
        rw [lastId_eq htold, Numbering.after]
        cases hlast : (events.take connection.through).getLast? with
        | none => rfl
        | some e =>
            have hmem : e ∈ all := List.mem_of_mem_drop <|
              htaken.subset (List.mem_of_getLast? hlast)
            exact resolveCursor_toString (h.word e hmem) query
      obtain ⟨hsound', hfirst⟩ := h.after hsound htaken
      rw [← hcursor] at hsound' hfirst
      obtain ⟨got, hgot, hrest⟩ := ih hsound' hmore fun x hx ↦
        hgood x (List.mem_append_right _ (List.mem_append_left _ hx))
      refine ⟨events.take connection.through ++ got, prefix_append_drop htaken ?_, ?_⟩
      · rw [List.drop_drop, ← hfirst]
        exact hgot
      · rw [telling, List.filter_append, List.map_append]
        change telling _ ++ telling _ = _
        rw [htold, hrest]

end Told

end Gateway

end NovaChat
