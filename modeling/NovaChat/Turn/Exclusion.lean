import NovaChat.Effects

/-!
# One turn at a time

The turn lock is meant to keep a conversation at one open response.  It does so in every run
in which no marker is taken over from a holder that is about to write its record, and no
written record goes unannounced: `Exclusive` is the invariant, and `open_turn_unique` reads
the result off it.  `takeover_race` is a run in which the first condition fails, and two
responses of one conversation are open at once.
-/

namespace NovaChat

open Interact

/-! ## Runs of turns -/

/-- Jobs of turns, every minted id fresh. -/
def TurnStep (tr : Trace) (_ : State) : Event Call Call.Reply Job → Prop
  | .start j => j.OfTurn ∧ ∀ id ∈ j.mints, id ∉ minted tr
  | .call _ _ _ => True

instance : DecidablePred Job.OfTurn
  | .create .. | .execute .. | .heartbeat _ | .cancel .. | .tick .. | .mode _ => .isTrue trivial
  | .delete .. | .stream .. | .purge _ | .createConversation .. => .isFalse id

instance (tr : Trace) (q : State) : DecidablePred (TurnStep tr q)
  | .start j => inferInstanceAs (Decidable (j.OfTurn ∧ ∀ id ∈ j.mints, id ∉ minted tr))
  | .call _ _ _ => .isTrue trivial

/-- A store without records whose conversations have no turn in flight. -/
structure MemStore.Quiescent (s : MemStore) : Prop where
  keyed : s.Keyed
  record : ∀ r, s.record r = none
  marker : ∀ c, s.marker c = none

/-- At most one response anchored at a conversation is queued or in progress. -/
def MemStore.OneOpenTurn (s : MemStore) : Prop :=
  ∀ c r r' x x', s.record r = some x → x.anchor = .conversation c → x.status.isTerminal = false →
    s.record r' = some x' → x'.anchor = .conversation c → x'.status.isTerminal = false → r = r'

/-! ## The conditions -/

/-- The conversation whose marker a job competes for. -/
def Job.conversation : Job → Option ConversationId
  | .create _ _ _ spec _ _ => spec.anchor.conversationId
  | _ => none

/-- The record a process is about to write. -/
def writing (x : Proc Call Call.Reply Job) : Option ResponseRecord :=
  match x.prog with
  | .call (.ledger (.create record _ _)) _ => some record
  | _ => none

/-- No process is about to write the record of `id`. -/
def NoWriter (q : State) (id : ResponseId) : Prop :=
  ∀ k record key now, q.pending k = some (.ledger (.create record key now)) →
    record.responseId ≠ id

instance (q : State) (id : ResponseId) : Decidable (NoWriter q id) :=
  decidable_of_iff (∀ x ∈ q.procs, ∀ record ∈ writing x, record.responseId ≠ id) <| by
    constructor
    · intro h k record key now hpending
      simp only [Pool.pending] at hpending
      split at hpending
      · next j c cont hk =>
          obtain rfl := Option.some.inj hpending
          exact h _ (List.mem_of_getElem? hk) record rfl
      · cases hpending
    · rintro h ⟨j, prog⟩ hx record hrecord
      obtain ⟨k, hk⟩ := List.getElem?_of_mem hx
      unfold writing at hrecord
      split at hrecord
      · next record' key now cont hprog =>
          obtain rfl := Option.some.inj hrecord
          refine h k record' key now (Pool.pending_of_procs (j := j) (k := cont) ?_)
          rw [hk, ← hprog]
      · cases hrecord

/-- The holder whose staleness an event decides: a create on a conversation looks up nothing
else. -/
def probed (q : State) : Event Call Call.Reply Job → Option ResponseId
  | .call i (.ledger (.get holder)) _ =>
    if (q.jobAt i).bind Job.conversation = none then none else some holder
  | _ => none

/-- The response an event announces. -/
def announced : Event Call Call.Reply Job → Option ResponseId
  | .call _ (.eventLog (.append event)) _ =>
    if event.kind = .created then some event.responseId else none
  | _ => none

/-- A holder is looked up only while nobody is about to write its record, and a written record
is announced. -/
def Decided (q : State) (e : Event Call Call.Reply Job) : Prop :=
  (∀ holder ∈ probed q e, NoWriter q holder) ∧ ∀ id ∈ announced e, q.world.Announceable id

def DecidedStep (tr : Trace) (q : State) (e : Event Call Call.Reply Job) : Prop :=
  TurnStep tr q e ∧ Decided q e

instance (tr : Trace) (q : State) : DecidablePred (DecidedStep tr q) := fun _ ↦
  inferInstanceAs (Decidable (_ ∧ _ ∧ _))

/-! ## What a stage holds -/

namespace Stage

/-- The id of a create that has not taken a marker. -/
def waiting : Stage → Option ResponseId
  | unanchored id _ | minted id _ | probing id _ _ | stealing id _ _ => some id
  | _ => none

/-- The responses whose marker this process may clear. -/
def Frees : Stage → ResponseId → Prop
  | stealing _ _ holder, r => r = holder
  | refused id, r => r = id
  | settling won, r => ∃ e ∈ won, e.id = r
  | _, _ => False

/-- The conversation whose marker the process is competing for. -/
def conversation : Stage → Option ConversationId
  | minted _ c | probing _ c _ | stealing _ c _ | admitting _ c => some c
  | _ => none

theorem unwritten_of_waiting {s : Stage} {id : ResponseId} (h : s.waiting = some id) :
    s.unwritten = some id := by
  cases s <;> first | exact h | cases h

theorem waiting_or_admitting {s : Stage} {id : ResponseId} (h : s.unwritten = some id) :
    s.waiting = some id ∨ ∃ c, s = .admitting id c := by
  cases s with
  | admitting id' c =>
      obtain rfl : id' = id := by simpa [unwritten] using h
      exact Or.inr ⟨c, rfl⟩
  | _ => exact Or.inl h

theorem first_cases (j : Job) :
    (first j = .idle ∧ j.mints = none) ∨ ∃ id, j.mints = some id ∧
      ((∃ c, first j = .minted id c) ∨ ∃ anchor, first j = .unanchored id anchor) := by
  cases j with
  | create cfg rounds tenant spec key uuid =>
      refine Or.inr ⟨⟨cfg.nodeTag, uuid⟩, rfl, ?_⟩
      cases h : spec.anchor.conversationId with
      | none => exact Or.inr ⟨spec.anchor, by simp [first, h]⟩
      | some c => exact Or.inl ⟨c, by simp [first, h]⟩
  | _ => exact Or.inl ⟨rfl, rfl⟩

theorem unwritten_first (j : Job) : (first j).unwritten = j.mints := by
  rcases first_cases j with ⟨h, h'⟩ | ⟨id, h', ⟨c, h⟩ | ⟨a, h⟩⟩ <;> rw [h, h'] <;> rfl

theorem not_frees_first (j : Job) (r : ResponseId) : ¬ (first j).Frees r := by
  rcases first_cases j with ⟨h, -⟩ | ⟨id, -, ⟨c, h⟩ | ⟨a, h⟩⟩ <;> rw [h] <;> exact fun hr ↦ hr

/-- What one stage may leave of an admission to the next: nothing, or its id and its conversation.
Nobody waits for a marker who did not before. -/
def Leaves (s s' : Stage) : Prop :=
  (s'.unwritten = none ∧ s'.conversation = none) ∨
    (s'.unwritten = s.unwritten ∧ s'.conversation = s.conversation ∧
      (s'.waiting = s.waiting ∨ s'.waiting = none))

theorem Leaves.same (s : Stage) : Leaves s s :=
  Or.inr ⟨rfl, rfl, Or.inl rfl⟩

theorem leaves_next (s : Stage) (c : Call) (r : c.Reply) : Leaves s (s.next c r) := by
  rcases c with _ | c | c | c | c | c
  · exact .same s
  · cases c <;> cases s <;> simp only [next] <;> (repeat' split) <;>
      first | exact .same _ | exact Or.inl ⟨rfl, rfl⟩
  · cases c <;> cases s <;> first | exact .same _ | (cases r <;> exact .same _)
  · cases c <;> cases s <;> simp only [next] <;> (repeat' split) <;>
      first
      | exact .same _
      | exact Or.inl ⟨rfl, rfl⟩
      | simp_all [Leaves, unwritten, conversation, waiting]
  · exact .same s
  · exact .same s

theorem conversation_next {s : Stage} {c : Call} {r : c.Reply} {id : ConversationId}
    (h : (s.next c r).conversation = some id) : s.conversation = some id := by
  rcases leaves_next s c r with ⟨-, hnone⟩ | ⟨-, hsame, -⟩
  · cases hnone.symm.trans h
  · exact hsame.symm.trans h

theorem unwritten_next {s : Stage} {c : Call} {r : c.Reply} {id : ResponseId}
    (h : (s.next c r).unwritten = some id) : s.unwritten = some id := by
  rcases leaves_next s c r with ⟨hnone, -⟩ | ⟨hsame, -⟩
  · cases hnone.symm.trans h
  · exact hsame.symm.trans h

theorem waiting_next {s : Stage} {c : Call} {r : c.Reply} {id : ResponseId}
    (h : (s.next c r).waiting = some id) : s.waiting = some id := by
  rcases leaves_next s c r with ⟨hnone, -⟩ | ⟨-, -, hsame | hnone⟩
  · cases hnone.symm.trans (unwritten_of_waiting h)
  · exact hsame.symm.trans h
  · cases hnone.symm.trans h

/-- The stages that may write a record. -/
def Writing (s : Stage) (id : ResponseId) : Prop :=
  (∃ c, s = .admitting id c) ∨ ∃ anchor, s = .unanchored id anchor

theorem Writing.unwritten {s : Stage} {id : ResponseId} (h : s.Writing id) :
    s.unwritten = some id := by
  rcases h with ⟨c, rfl⟩ | ⟨a, rfl⟩ <;> rfl

theorem next_create_refused {s : Stage} {record : ResponseRecord} (key : IdempotencyKey) (now : ℕ)
    (hs : s.Writing record.responseId) {r : Except LedgerError CreateOutcome}
    (hr : ∀ x, r ≠ .ok (.accepted x)) :
    s.next (.ledger (.create record key now)) r = .refused record.responseId ∨
      s.next (.ledger (.create record key now)) r = .idle := by
  rcases hs with ⟨c, rfl⟩ | ⟨a, rfl⟩ <;> rcases r with e | (y | y | _ | _) <;>
    first
    | exact Or.inl rfl
    | exact Or.inr rfl
    | exact absurd rfl (hr y)

theorem next_create_accepted (s : Stage) (record x : ResponseRecord) (key : IdempotencyKey)
    (now : ℕ) :
    s.next (.ledger (.create record key now)) (.ok (.accepted x)) =
      .admitted record.responseId := by
  cases s <;> rfl

end Stage

/-! ## The invariant -/

/-- No process will write a record under `r`, and none that exists is open. -/
structure Dead (ids : List ResponseId) (w : World) (ss : List Stage) (r : ResponseId) : Prop where
  known : r ∈ ids
  closed : ∀ x, w.store.record r = some x → x.status.isTerminal = true
  unwritten : w.store.record r = none →
    ∀ (i : ℕ) (s : Stage), ss[i]? = some s → s.unwritten ≠ some r

/-- Who holds a marker, who is on the way to one, and whose markers may be cleared. -/
structure Exclusive (ids : List ResponseId) (w : World) (ss : List Stage) : Prop where
  keyed : w.store.Keyed
  known_record : ∀ {r x}, w.store.record r = some x → r ∈ ids
  known_marker : ∀ {c r}, w.store.marker c = some r → r ∈ ids
  /-- An open turn holds the marker of its conversation. -/
  held : ∀ {r x c}, w.store.record r = some x → x.anchor = .conversation c →
    x.status.isTerminal = false → w.store.marker c = some r
  unwritten : ∀ {i : ℕ} {s : Stage} {id}, ss[i]? = some s → s.unwritten = some id →
    id ∈ ids ∧ w.store.record id = none
  distinct : ∀ {i j : ℕ} {s s' : Stage} {id}, ss[i]? = some s → ss[j]? = some s' →
    s.unwritten = some id → s'.unwritten = some id → i = j
  waiting : ∀ {i : ℕ} {s : Stage} {id}, ss[i]? = some s → s.waiting = some id →
    ∀ c, w.store.marker c ≠ some id
  admitting : ∀ {i : ℕ} {id c}, ss[i]? = some (.admitting id c) → w.store.marker c = some id
  /-- A holder being looked up took the marker, so it waits for none. -/
  probing : ∀ {i : ℕ} {id c h}, ss[i]? = some (.probing id c h) →
    h ∈ ids ∧ ∀ (j : ℕ) (s : Stage), ss[j]? = some s → s.waiting ≠ some h
  dead : ∀ {i : ℕ} {s : Stage} {r}, ss[i]? = some s → s.Frees r → Dead ids w ss r
  announced : ∀ {i : ℕ} {id}, ss[i]? ≠ some (.orphaned id)

theorem Exclusive.oneOpenTurn {ids : List ResponseId} {w : World} {ss : List Stage}
    (h : Exclusive ids w ss) : w.store.OneOpenTurn := by
  intro c r r' x x' hx hanchor hopen hx' hanchor' hopen'
  have hr := h.held hx hanchor hopen
  have hr' := h.held hx' hanchor' hopen'
  exact Option.some.inj (hr.symm.trans hr')

namespace Exclusive

variable {ids : List ResponseId} {w w' : World} {ss ss' : List Stage} {i : ℕ} {s s' : Stage}

/-- The rule for steps that write no record and take no marker: records advance, a marker may
be cleared by one who frees its holder, and the process goes on with no new claim. -/
theorem settle (h : Exclusive ids w ss) (hs : ss[i]? = some s)
    (hss : ∀ j, ss'[j]? = if i = j then some s' else ss[j]?)
    (hkeyed : w'.store.Keyed) (hrec : w.store.Advances w'.store)
    (hmark : ∀ c, w'.store.marker c = w.store.marker c ∨
      w'.store.marker c = none ∧ ∃ r, w.store.marker c = some r ∧ s.Frees r)
    (hunwritten : ∀ id, s'.unwritten = some id → s.unwritten = some id)
    (hwaiting : ∀ id, s'.waiting = some id → s.waiting = some id)
    (hadmitting : ∀ id c, s' ≠ .admitting id c)
    (hprobing : ∀ id c r, s' = .probing id c r →
      r ∈ ids ∧ ∀ (j : ℕ) (s : Stage), ss[j]? = some s → s.waiting ≠ some r)
    (hfrees : ∀ r, s'.Frees r → s.Frees r ∨ r ∈ ids ∧ s'.unwritten ≠ some r ∧
      (∀ x, w'.store.record r = some x → x.status.isTerminal = true) ∧
      (w'.store.record r = none → ∀ (j : ℕ) (s : Stage), j ≠ i → ss[j]? = some s →
        s.unwritten ≠ some r))
    (hannounced : ∀ id, s' ≠ .orphaned id) :
    Exclusive ids w' ss' := by
  -- Every stage of the new list has no more unwritten or waiting ids than the old one.
  have hold : ∀ {j : ℕ} {t : Stage}, ss'[j]? = some t → ∃ t', ss[j]? = some t' ∧
      (∀ id, t.unwritten = some id → t'.unwritten = some id) ∧
      (∀ id, t.waiting = some id → t'.waiting = some id) := by
    intro j t ht
    rw [hss] at ht
    split_ifs at ht with hij
    · obtain rfl := Option.some.inj ht
      exact ⟨s, hij ▸ hs, hunwritten, hwaiting⟩
    · exact ⟨t, ht, fun _ ↦ id, fun _ ↦ id⟩
  have hmarker : ∀ {c : ConversationId} {r : ResponseId},
      w'.store.marker c = some r → w.store.marker c = some r := by
    intro c r hc
    rcases hmark c with heq | ⟨hnone, -⟩
    · exact heq ▸ hc
    · rw [hnone] at hc
      cases hc
  have hdead : ∀ {r : ResponseId}, Dead ids w ss r → Dead ids w' ss' r := by
    intro r hr
    refine ⟨hr.known, fun x hx ↦ ?_, fun hnone j t ht hun ↦ ?_⟩
    · obtain ⟨y, hy, hadv⟩ := hrec.back hx
      have hterm := hr.closed y hy
      rw [hadv.terminal hterm]
      exact hterm
    · obtain ⟨t', ht', hsub, -⟩ := hold ht
      cases hy : w.store.record r with
      | none => exact hr.unwritten hy j t' ht' (hsub r hun)
      | some y =>
          obtain ⟨y', hy', -⟩ := hrec.some hy
          rw [hy'] at hnone
          cases hnone
  refine ⟨hkeyed, fun hx ↦ ?_, fun hc ↦ h.known_marker (hmarker hc), ?_, ?_, ?_, ?_, ?_, ?_, ?_, ?_⟩
  · obtain ⟨y, hy, -⟩ := hrec.back hx
    exact h.known_record hy
  · intro r x c hx hanchor hopen
    obtain ⟨y, hy, hadv⟩ := hrec.back hx
    have hyopen : y.status.isTerminal = false := by
      by_contra hterm
      rw [hadv.terminal (by simpa using hterm)] at hopen
      exact hterm hopen
    have hanchor' : y.anchor = .conversation c := by
      rw [← hanchor, ResponseRecord.anchor, ResponseRecord.anchor, hadv.spec]
    have hheld := h.held hy hanchor' hyopen
    rcases hmark c with heq | ⟨-, r', hr', hfree⟩
    · rw [heq, hheld]
    · -- Whoever may clear the marker knows that its holder is closed.
      obtain rfl : r' = r := Option.some.inj (hr'.symm.trans hheld)
      have := (h.dead hs hfree).closed y hy
      rw [this] at hyopen
      cases hyopen
  · intro j t id ht hun
    obtain ⟨t', ht', hsub, -⟩ := hold ht
    obtain ⟨hid, hnone⟩ := h.unwritten ht' (hsub id hun)
    exact ⟨hid, hrec.none hnone⟩
  · intro j k t t' id ht ht' hun hun'
    obtain ⟨u, hu, hsub, -⟩ := hold ht
    obtain ⟨u', hu', hsub', -⟩ := hold ht'
    exact h.distinct hu hu' (hsub id hun) (hsub' id hun')
  · intro j t id ht hw c hc
    obtain ⟨t', ht', -, hsub⟩ := hold ht
    exact h.waiting ht' (hsub id hw) c (hmarker hc)
  · intro j id c ht
    rw [hss] at ht
    split_ifs at ht with hij
    · exact absurd (Option.some.inj ht) (hadmitting id c)
    · have hheld := h.admitting ht
      rcases hmark c with heq | ⟨-, r', hr', hfree⟩
      · rw [heq, hheld]
      · obtain rfl : r' = id := Option.some.inj (hr'.symm.trans hheld)
        exact absurd rfl ((h.dead hs hfree).unwritten (h.unwritten ht rfl).2 j _ ht)
  · intro j id c r ht
    have hback : r ∈ ids ∧ ∀ (j : ℕ) (s : Stage), ss[j]? = some s → s.waiting ≠ some r := by
      rw [hss] at ht
      split_ifs at ht with hij
      · exact hprobing id c r (Option.some.inj ht)
      · exact h.probing ht
    refine ⟨hback.1, fun k t ht hw ↦ ?_⟩
    obtain ⟨t', ht', -, hsub⟩ := hold ht
    exact hback.2 k t' ht' (hsub r hw)
  · intro j t r ht hfree
    rw [hss] at ht
    split_ifs at ht with hij
    · obtain rfl := Option.some.inj ht
      rcases hfrees r hfree with hfree | ⟨hknown, hself, hclosed, hother⟩
      · exact hdead (h.dead hs hfree)
      · refine ⟨hknown, hclosed, fun hnone k t ht ↦ ?_⟩
        rw [hss] at ht
        split_ifs at ht with hik
        · exact Option.some.inj ht ▸ hself
        · exact hother hnone k t (Ne.symm hik) ht
    · exact hdead (h.dead ht hfree)
  · intro j id ht
    rw [hss] at ht
    split_ifs at ht
    · exact hannounced id (Option.some.inj ht)
    · exact h.announced ht

/-- `settle` for a process left with no id of its own. -/
theorem settle_written (h : Exclusive ids w ss) (hs : ss[i]? = some s)
    (hss : ∀ j, ss'[j]? = if i = j then some s' else ss[j]?)
    (hkeyed : w'.store.Keyed) (hrec : w.store.Advances w'.store)
    (hmark : ∀ c, w'.store.marker c = w.store.marker c ∨
      w'.store.marker c = none ∧ ∃ r, w.store.marker c = some r ∧ s.Frees r)
    (hwritten : s'.unwritten = none)
    (hfrees : ∀ r, s'.Frees r → s.Frees r ∨ r ∈ ids ∧
      (∀ x, w'.store.record r = some x → x.status.isTerminal = true) ∧
      (w'.store.record r = none → ∀ (j : ℕ) (s : Stage), j ≠ i → ss[j]? = some s →
        s.unwritten ≠ some r))
    (hannounced : ∀ id, s' ≠ .orphaned id) :
    Exclusive ids w' ss' := by
  refine h.settle hs hss hkeyed hrec hmark ?_ ?_ ?_ ?_ ?_ hannounced
  · simp [hwritten]
  · intro id hw
    rw [Stage.unwritten_of_waiting hw] at hwritten
    cases hwritten
  · rintro id c rfl
    cases hwritten
  · rintro id c r rfl
    cases hwritten
  · intro r hr
    rcases hfrees r hr with hr | ⟨hknown, hclosed, hother⟩
    · exact Or.inl hr
    · exact Or.inr ⟨hknown, by simp [hwritten], hclosed, hother⟩

theorem settle_alike (h : Exclusive ids w ss) (hs : ss[i]? = some s)
    (hss : ∀ j, ss'[j]? = if i = j then some s' else ss[j]?)
    (hkeyed : w'.store.Keyed) (hrec : w.store.Advances w'.store)
    (hmark : ∀ c, w'.store.marker c = w.store.marker c)
    (hwritten : s'.unwritten = none) (hfrees : ∀ r, s'.Frees r → s.Frees r)
    (hannounced : ∀ id, s' ≠ .orphaned id) : Exclusive ids w' ss' :=
  h.settle_written hs hss hkeyed hrec (fun c ↦ Or.inl (hmark c)) hwritten
    (fun r hr ↦ Or.inl (hfrees r hr)) hannounced

/-- Taking a marker that was free. -/
theorem acquire {id : ResponseId} {c : ConversationId} (h : Exclusive ids w ss)
    (hs : ss[i]? = some (.minted id c))
    (hss : ∀ j, ss'[j]? = if i = j then some (.admitting id c) else ss[j]?)
    (hkeyed : w'.store.Keyed) (hrec : ∀ r, w'.store.record r = w.store.record r)
    (hfree : w.store.marker c = none)
    (hmark : ∀ c', w'.store.marker c' = if c' = c then some id else w.store.marker c') :
    Exclusive ids w' ss' := by
  obtain ⟨hid, hnone⟩ := h.unwritten hs rfl
  have hold : ∀ {j : ℕ} {t : Stage}, ss'[j]? = some t → ∃ t', ss[j]? = some t' ∧
      t'.unwritten = t.unwritten ∧ (∀ r, t.waiting = some r → t'.waiting = some r ∧ j ≠ i) ∧
      ∀ r, t.Frees r → t'.Frees r := by
    intro j t ht
    rw [hss] at ht
    split_ifs at ht with hij
    · obtain rfl := Option.some.inj ht
      exact ⟨.minted id c, hij ▸ hs, rfl, fun r hr ↦ (by cases hr), fun r hr ↦ hr.elim⟩
    · exact ⟨t, ht, rfl, fun r hr ↦ ⟨hr, Ne.symm hij⟩, fun r hr ↦ hr⟩
  refine ⟨hkeyed, fun hx ↦ h.known_record (hrec _ ▸ hx), fun {c' r} hc ↦ ?_, ?_, ?_, ?_, ?_, ?_,
    ?_, ?_, ?_⟩
  · rw [hmark] at hc
    split_ifs at hc
    · exact Option.some.inj hc ▸ hid
    · exact h.known_marker hc
  · intro r x c' hx hanchor hopen
    have hheld := h.held (hrec r ▸ hx) hanchor hopen
    rw [hmark]
    split_ifs with hc
    · rw [hc, hfree] at hheld
      cases hheld
    · exact hheld
  · intro j t r ht hun
    obtain ⟨t', ht', heq, -⟩ := hold ht
    obtain ⟨hr, hnone⟩ := h.unwritten ht' (heq.trans hun)
    exact ⟨hr, (hrec r).trans hnone⟩
  · intro j k t t' r ht ht' hun hun'
    obtain ⟨u, hu, heq, -⟩ := hold ht
    obtain ⟨u', hu', heq', -⟩ := hold ht'
    exact h.distinct hu hu' (heq.trans hun) (heq'.trans hun')
  · intro j t r ht hw c' hc
    obtain ⟨t', ht', -, hback, -⟩ := hold ht
    obtain ⟨hw', hji⟩ := hback r hw
    rw [hmark] at hc
    split_ifs at hc
    · obtain rfl := Option.some.inj hc
      exact hji (h.distinct ht' hs (Stage.unwritten_of_waiting hw') rfl)
    · exact h.waiting ht' hw' c' hc
  · intro j id' c' ht
    rw [hss] at ht
    rw [hmark]
    split_ifs at ht with hij
    · obtain ⟨rfl, rfl⟩ : id = id' ∧ c = c' := by simpa using ht
      rw [if_pos rfl]
    · have hheld := h.admitting ht
      split_ifs with hc
      · rw [hc, hfree] at hheld
        cases hheld
      · exact hheld
  · intro j id' c' r ht
    rw [hss] at ht
    split_ifs at ht
    · cases Option.some.inj ht
    · refine ⟨(h.probing ht).1, fun k t ht' hw ↦ ?_⟩
      obtain ⟨t', ht'', -, hback, -⟩ := hold ht'
      exact (h.probing ht).2 k t' ht'' (hback r hw).1
  · intro j t r ht hfrees
    obtain ⟨t', ht', -, -, hback⟩ := hold ht
    obtain ⟨hknown, hclosed, hun⟩ := h.dead ht' (hback r hfrees)
    refine ⟨hknown, fun x hx ↦ hclosed x (hrec r ▸ hx), fun hnone k u hu hr ↦ ?_⟩
    obtain ⟨u', hu', heq, -⟩ := hold hu
    exact hun ((hrec r).symm.trans hnone) k u' hu' (heq.trans hr)
  · intro j id' ht
    rw [hss] at ht
    split_ifs at ht
    · cases Option.some.inj ht
    · exact h.announced ht

/-- Writing the record of an unwritten id, by the process that minted it. -/
theorem write {id : ResponseId} {x : ResponseRecord} (h : Exclusive ids w ss)
    (hs : ss[i]? = some s) (hun : s.unwritten = some id)
    (hss : ∀ j, ss'[j]? = if i = j then some (.admitted id) else ss[j]?)
    (hkeyed : w'.store.Keyed)
    (hrec : ∀ r, w'.store.record r = if r = id then some x else w.store.record r)
    (hmark : ∀ c, w'.store.marker c = w.store.marker c)
    (hanchor : ∀ c, x.anchor = .conversation c → w.store.marker c = some id) :
    Exclusive ids w' ss' := by
  obtain ⟨hid, hnone⟩ := h.unwritten hs hun
  -- The other processes are in the stages they were in, with other ids.
  have hold : ∀ {j : ℕ} {t : Stage}, ss'[j]? = some t →
      t = .admitted id ∨ ss[j]? = some t ∧ j ≠ i := by
    intro j t ht
    rw [hss] at ht
    split_ifs at ht with hij
    · exact Or.inl (Option.some.inj ht).symm
    · exact Or.inr ⟨ht, Ne.symm hij⟩
  refine ⟨hkeyed, fun {r y} hy ↦ ?_, fun hc ↦ h.known_marker (hmark _ ▸ hc), ?_, ?_, ?_, ?_, ?_,
    ?_, ?_, ?_⟩
  · rw [hrec] at hy
    split_ifs at hy with hr
    · exact hr ▸ hid
    · exact h.known_record hy
  · intro r y c hy hconv hopen
    rw [hmark]
    rw [hrec] at hy
    split_ifs at hy with hr
    · obtain rfl := Option.some.inj hy
      exact hr ▸ hanchor c hconv
    · exact h.held hy hconv hopen
  · intro j t r ht hr
    rcases hold ht with rfl | ⟨ht, hji⟩
    · cases hr
    · obtain ⟨hmem, hnone'⟩ := h.unwritten ht hr
      refine ⟨hmem, ?_⟩
      rw [hrec, if_neg, hnone']
      rintro rfl
      exact hji (h.distinct ht hs hr hun)
  · intro j k t t' r ht ht' hr hr'
    rcases hold ht with rfl | ⟨ht, -⟩
    · cases hr
    · rcases hold ht' with rfl | ⟨ht', -⟩
      · cases hr'
      · exact h.distinct ht ht' hr hr'
  · intro j t r ht hw c
    rw [hmark]
    rcases hold ht with rfl | ⟨ht, -⟩
    · cases hw
    · exact h.waiting ht hw c
  · intro j id' c ht
    rw [hmark]
    rcases hold ht with heq | ⟨ht, -⟩
    · cases heq
    · exact h.admitting ht
  · intro j id' c r ht
    rcases hold ht with heq | ⟨ht, -⟩
    · cases heq
    · refine ⟨(h.probing ht).1, fun k t ht' hw ↦ ?_⟩
      rcases hold ht' with rfl | ⟨ht', -⟩
      · cases hw
      · exact (h.probing ht).2 k t ht' hw
  · intro j t r ht hfrees
    rcases hold ht with rfl | ⟨ht, -⟩
    · exact hfrees.elim
    · obtain ⟨hknown, hclosed, hunw⟩ := h.dead ht hfrees
      have hne : r ≠ id := by
        rintro rfl
        exact hunw hnone i s hs hun
      refine ⟨hknown, fun y hy ↦ hclosed y ?_, fun hnone' k u hu hr ↦ ?_⟩
      · rwa [hrec, if_neg hne] at hy
      · rw [hrec, if_neg hne] at hnone'
        rcases hold hu with rfl | ⟨hu, -⟩
        · cases hr
        · exact hunw hnone' k u hu hr
  · intro j id' ht
    rcases hold ht with heq | ⟨ht, -⟩
    · cases heq
    · exact h.announced ht

/-- A new process, whose id nobody knows. -/
theorem start {j : Job} (h : Exclusive ids w ss) (hfresh : ∀ r, j.mints = some r → r ∉ ids) :
    Exclusive (ids ++ j.mints.toList) w (turn.advance Stage.first ss
      (.start j : Event Call Call.Reply Job)) := by
  have hold : ∀ {k : ℕ} {t : Stage}, (turn.advance Stage.first ss
      (.start j : Event Call Call.Reply Job))[k]? = some t →
      ss[k]? = some t ∨ k = ss.length ∧ t = Stage.first j :=
    fun ht ↦ Session.getElem?_advance_start ht
  have hnew : ∀ {r : ResponseId}, (Stage.first j).unwritten = some r →
      r ∉ ids ∧ r ∈ ids ++ j.mints.toList := by
    intro r hr
    rw [Stage.unwritten_first] at hr
    exact ⟨hfresh r hr, by simp [hr]⟩
  have hlift : ∀ {r : ResponseId}, r ∈ ids → r ∈ ids ++ j.mints.toList := by
    intro r hr
    simp [hr]
  have hnorec : ∀ {r : ResponseId}, r ∉ ids → w.store.record r = none := by
    intro r hr
    cases hx : w.store.record r with
    | none => rfl
    | some x => exact absurd (h.known_record hx) hr
  have hplain : (∀ r c, Stage.first j ≠ .admitting r c) ∧
      (∀ r c holder, Stage.first j ≠ .probing r c holder) ∧
      ∀ r, Stage.first j ≠ .orphaned r := by
    rcases Stage.first_cases j with ⟨heq, -⟩ | ⟨id, -, ⟨c, heq⟩ | ⟨a, heq⟩⟩ <;> simp [heq]
  refine ⟨h.keyed, fun hx ↦ hlift (h.known_record hx), fun hc ↦ hlift (h.known_marker hc), h.held,
    ?_, ?_, ?_, ?_, ?_, ?_, ?_⟩
  · intro k t r ht hr
    rcases hold ht with ht | ⟨-, rfl⟩
    · exact ⟨hlift (h.unwritten ht hr).1, (h.unwritten ht hr).2⟩
    · exact ⟨(hnew hr).2, hnorec (hnew hr).1⟩
  · intro k l t t' r ht ht' hr hr'
    rcases hold ht with ht | ⟨hk, rfl⟩ <;> rcases hold ht' with ht' | ⟨hl, rfl⟩
    · exact h.distinct ht ht' hr hr'
    · exact absurd (h.unwritten ht hr).1 (hnew hr').1
    · exact absurd (h.unwritten ht' hr').1 (hnew hr).1
    · rw [hk, hl]
  · intro k t r ht hw c hc
    rcases hold ht with ht | ⟨-, rfl⟩
    · exact h.waiting ht hw c hc
    · exact (hnew (Stage.unwritten_of_waiting hw)).1 (h.known_marker hc)
  · intro k r c ht
    rcases hold ht with ht | ⟨-, heq⟩
    · exact h.admitting ht
    · exact absurd heq.symm (hplain.1 r c)
  · intro k r c holder ht
    rcases hold ht with ht | ⟨-, heq⟩
    · refine ⟨hlift (h.probing ht).1, fun l t ht' hw ↦ ?_⟩
      rcases hold ht' with ht' | ⟨-, rfl⟩
      · exact (h.probing ht).2 l t ht' hw
      · exact (hnew (Stage.unwritten_of_waiting hw)).1 (h.probing ht).1
    · exact absurd heq.symm (hplain.2.1 r c holder)
  · intro k t r ht hr
    rcases hold ht with ht | ⟨-, rfl⟩
    · obtain ⟨hknown, hclosed, hun⟩ := h.dead ht hr
      refine ⟨hlift hknown, hclosed, fun hnone l u hu hur ↦ ?_⟩
      rcases hold hu with hu | ⟨-, rfl⟩
      · exact hun hnone l u hu hur
      · exact (hnew hur).1 hknown
    · exact absurd hr (Stage.not_frees_first j r)
  · intro k r ht
    rcases hold ht with ht | ⟨-, heq⟩
    · exact h.announced ht
    · exact absurd heq.symm (hplain.2.2 r)

/-! ### Calls -/

/-- The stages after process `i` has made call `c`. -/
def after (ss : List Stage) (i : ℕ) (c : Call) (w : World) : List Stage :=
  turn.advance Stage.first ss (.call i c (exec c w).1 : Event Call Call.Reply Job)

theorem getElem?_after (hs : ss[i]? = some s) (c : Call) (w : World) (j : ℕ) :
    (after ss i c w)[j]? = if i = j then some (s.next c (exec c w).1) else ss[j]? :=
  Session.getElem?_advance_call hs

/-- Calls that move no marker: what the process may free afterwards it could free before, or
has just won. -/
theorem call_frame {c : Call} (h : Exclusive ids w ss) (hs : ss[i]? = some s)
    (hrec : w.store.Advances (exec c w).2.store)
    (hmark : ∀ c', (exec c w).2.store.marker c' = w.store.marker c')
    (hwritten : (s.next c (exec c w).1).unwritten = none)
    (hfrees : ∀ r, (s.next c (exec c w).1).Frees r →
      s.Frees r ∨ c.wins r (exec c w).1 = true)
    (hannounced : ∀ id, s.next c (exec c w).1 ≠ .orphaned id) :
    Exclusive ids (exec c w).2 (after ss i c w) := by
  refine h.settle_written hs (getElem?_after hs c w) (exec_keyed c h.keyed) hrec
    (fun c' ↦ Or.inl (hmark c')) hwritten (fun r hr ↦ ?_) hannounced
  rcases hfrees r hr with hr | hr
  · exact Or.inl hr
  · obtain ⟨x, x', hx, -, hx', hterm, -⟩ := exec_wins hr
    refine Or.inr ⟨h.known_record hx, fun y hy ↦ ?_, fun hnone ↦ ?_⟩
    · obtain rfl : x' = y := Option.some.inj (hx'.symm.trans hy)
      exact hterm
    · rw [hx'] at hnone
      cases hnone

theorem call_quiet {c : Call} (h : Exclusive ids w ss) (hs : ss[i]? = some s) (hsteady : s.Steady)
    (hquiet : c.Quiet) : Exclusive ids (exec c w).2 (after ss i c w) := by
  have hss := getElem?_after hs c w
  rw [show s.next c (exec c w).1 = s from (idle_of_quiet hsteady hquiet).2 _ (exec_answers c w)]
    at hss
  have halike := exec_quiet hquiet w
  refine h.settle hs hss (exec_keyed c h.keyed) halike.advances
    (fun c' ↦ Or.inl (halike.marker c')) (fun _ hr ↦ hr) (fun _ hr ↦ hr) ?_ ?_
    (fun r hr ↦ Or.inl hr) ?_
  · rintro id c rfl
    exact hsteady
  · rintro id c r rfl
    exact hsteady.elim
  · rintro id rfl
    exact h.announced hs

theorem call_acquire {id : ResponseId} {c : ConversationId} (h : Exclusive ids w ss)
    (hs : ss[i]? = some (.minted id c)) (tenant : TenantId) (now : ℕ) :
    Exclusive ids (exec (.conversations (.acquireActive tenant c id now)) w).2
      (after ss i (.conversations (.acquireActive tenant c id now)) w) := by
  have hss := getElem?_after hs (.conversations (.acquireActive tenant c id now)) w
  rcases exec_acquireActive h.keyed tenant c id now with
    ⟨e, heq, hbusy⟩ | ⟨seq, hreply, hfree, hmark⟩
  · rw [heq] at hss ⊢
    cases e with
    | busy holder =>
        -- Whoever holds a marker is not waiting for one.
        obtain ⟨hholder, -⟩ := hbusy holder rfl
        refine h.settle hs hss h.keyed (.of_record fun _ ↦ rfl) (fun _ ↦ Or.inl rfl)
          (fun _ hr ↦ hr) (fun _ hr ↦ hr) (by rintro _ _ ⟨⟩) ?_ (fun _ hr ↦ hr.elim)
          (by rintro _ ⟨⟩)
        rintro _ _ _ ⟨⟩
        exact ⟨h.known_marker hholder, fun j t ht hw ↦ h.waiting ht hw _ hholder⟩
    | _ =>
        exact h.settle_alike hs hss h.keyed (.of_record fun _ ↦ rfl) (fun _ ↦ rfl) rfl
          (fun _ hr ↦ hr.elim) (by rintro _ ⟨⟩)
  · have hnone : w.store.marker c = none := hfree.resolve_right (h.waiting hs rfl c)
    rw [hreply] at hss
    exact h.acquire hs hss (exec_keyed _ h.keyed) (exec_conversations_record _ w) hnone hmark

/-- A lookup that finds its holder stale has found it dead, if nobody was about to write it. -/
theorem call_probe {id holder : ResponseId} {c : ConversationId} (h : Exclusive ids w ss)
    (hs : ss[i]? = some (.probing id c holder))
    (hwriter : ∀ (j : ℕ) id' c', ss[j]? = some (.admitting id' c') → id' ≠ holder) :
    Exclusive ids (exec (.ledger (.get holder)) w).2 (after ss i (.ledger (.get holder)) w) := by
  obtain ⟨hknown, hwait⟩ := h.probing hs
  have hss := getElem?_after hs (.ledger (.get holder)) w
  have hnext : (Stage.probing id c holder).next (.ledger (.get holder))
      (exec (.ledger (.get holder)) w).1 =
      if ResponsesService.stale (.ok (w.store.record holder)) then .stealing id c holder
      else .idle := rfl
  rw [hnext] at hss
  by_cases hstale : ResponsesService.stale (.ok (w.store.record holder)) = true
  · rw [if_pos hstale] at hss
    refine h.settle hs hss (exec_keyed _ h.keyed) (.of_record fun _ ↦ rfl) (fun _ ↦ Or.inl rfl)
      (fun _ hr ↦ hr) (fun _ hr ↦ hr) (by rintro _ _ ⟨⟩) (by rintro _ _ _ ⟨⟩) ?_
      (by rintro _ ⟨⟩)
    rintro r rfl
    refine Or.inr ⟨hknown, fun hr ↦ hwait i _ hs hr, fun x hx ↦ ?_, fun _ j t _ ht hr ↦ ?_⟩
    · have hx : w.store.record r = some x := hx
      simpa [ResponsesService.stale, found, hx] using hstale
    · rcases Stage.waiting_or_admitting hr with hw | ⟨c', rfl⟩
      · exact hwait j t ht hw
      · exact hwriter j r c' ht rfl
  · rw [if_neg hstale] at hss
    exact h.settle_alike hs hss (exec_keyed _ h.keyed) (.of_record fun _ ↦ rfl) (fun _ ↦ rfl) rfl
      (fun _ hr ↦ hr.elim) (by rintro _ ⟨⟩)

theorem cleared {s₁ s₂ : MemStore} {r : ResponseId} {c : ConversationId}
    (hheld : s₁.marker c = some r) (hfrees : s.Frees r)
    (hmark : ∀ c', s₂.marker c' = if c' = c then none else s₁.marker c') (c' : ConversationId) :
    s₂.marker c' = s₁.marker c' ∨
      s₂.marker c' = none ∧ ∃ r, s₁.marker c' = some r ∧ s.Frees r := by
  rw [hmark]
  split_ifs with hc
  · exact Or.inr ⟨rfl, r, hc ▸ hheld, hfrees⟩
  · exact Or.inl rfl

theorem call_steal {id holder : ResponseId} {c : ConversationId} (h : Exclusive ids w ss)
    (hs : ss[i]? = some (.stealing id c holder)) (tenant : TenantId) :
    Exclusive ids (exec (.conversations (.releaseStaleActive tenant c holder)) w).2
      (after ss i (.conversations (.releaseStaleActive tenant c holder)) w) := by
  have hss := getElem?_after hs (.conversations (.releaseStaleActive tenant c holder)) w
  have hkeyed := exec_keyed (.conversations (.releaseStaleActive tenant c holder)) h.keyed
  have hrec := MemStore.Advances.of_record (exec_conversations_record
    (.releaseStaleActive tenant c holder) w)
  have hmark : ∀ c', (exec (.conversations (.releaseStaleActive tenant c holder)) w).2.store.marker
        c' = w.store.marker c' ∨
      (exec (.conversations (.releaseStaleActive tenant c holder)) w).2.store.marker c' = none ∧
        ∃ r, w.store.marker c' = some r ∧ (Stage.stealing id c holder).Frees r := by
    rcases exec_releaseStaleActive h.keyed tenant c holder with heq | ⟨hheld, hmark⟩
    · exact fun c' ↦ Or.inl (by rw [heq])
    · exact cleared hheld rfl hmark
  cases hreply : (exec (.conversations (.releaseStaleActive tenant c holder)) w).1 with
  | error e =>
      rw [hreply] at hss
      exact h.settle_written hs hss hkeyed hrec hmark rfl (fun _ hr ↦ hr.elim) (by rintro _ ⟨⟩)
  | ok released =>
      rw [hreply] at hss
      exact h.settle hs hss hkeyed hrec hmark (fun _ hr ↦ hr) (fun _ hr ↦ hr)
        (by rintro _ _ ⟨⟩) (by rintro _ _ _ ⟨⟩) (fun _ hr ↦ hr.elim) (by rintro _ ⟨⟩)

/-- Giving back a marker the process may free. -/
theorem call_release {r : ResponseId} (h : Exclusive ids w ss) (hs : ss[i]? = some s)
    (hfrees : s.Frees r) (tenant : TenantId) (c : ConversationId) (status : ResponseStatus)
    (now : ℕ)
    (hwritten : (s.next (.conversations (.releaseActive tenant c r status now))
      (exec (.conversations (.releaseActive tenant c r status now)) w).1).unwritten = none)
    (hnext : ∀ r', (s.next (.conversations (.releaseActive tenant c r status now))
      (exec (.conversations (.releaseActive tenant c r status now)) w).1).Frees r' → s.Frees r')
    (hannounced : ∀ id, s.next (.conversations (.releaseActive tenant c r status now))
      (exec (.conversations (.releaseActive tenant c r status now)) w).1 ≠ .orphaned id) :
    Exclusive ids (exec (.conversations (.releaseActive tenant c r status now)) w).2
      (after ss i (.conversations (.releaseActive tenant c r status now)) w) := by
  refine h.settle_written hs (getElem?_after hs _ w) (exec_keyed _ h.keyed)
    (.of_record (exec_conversations_record _ w)) ?_ hwritten (fun r' hr ↦ Or.inl (hnext r' hr))
    hannounced
  rcases exec_releaseActive h.keyed tenant c r status now with heq | ⟨hheld, hmark⟩
  · exact fun c' ↦ Or.inl (by rw [heq])
  · exact cleared hheld hfrees hmark

/-- Writing the ledger from a stage that may write: the record appears under the marker its
creator holds, or nothing changes. -/
theorem call_write {record : ResponseRecord} (h : Exclusive ids w ss) (hs : ss[i]? = some s)
    (key : IdempotencyKey) (now : ℕ)
    (hanchor : (∃ c, s = .admitting record.responseId c ∧ record.anchor = .conversation c) ∨
      (∃ a, s = .unanchored record.responseId a) ∧ record.anchor.conversationId = none) :
    Exclusive ids (exec (.ledger (.create record key now)) w).2
      (after ss i (.ledger (.create record key now)) w) := by
  have hwriting : s.Writing record.responseId := by
    rcases hanchor with ⟨c, rfl, -⟩ | ⟨⟨a, rfl⟩, -⟩
    · exact Or.inl ⟨c, rfl⟩
    · exact Or.inr ⟨a, rfl⟩
  have hun := hwriting.unwritten
  obtain ⟨hmem, hnone⟩ := h.unwritten hs hun
  have hss := getElem?_after hs (.ledger (.create record key now)) w
  rcases exec_create record key now w with ⟨hrefused, heq⟩ | ⟨x, hreply, hsign, -, heq⟩
  · have hnext := Stage.next_create_refused key now hwriting hrefused
    rw [heq]
    refine h.settle_written hs hss h.keyed (.of_record fun _ ↦ rfl) (fun _ ↦ Or.inl rfl) ?_ ?_ ?_
    · rcases hnext with hnext | hnext <;> rw [hnext] <;> rfl
    · intro r hr
      have hr : r = record.responseId := by
        rcases hnext with hnext | hnext
        · rwa [hnext] at hr
        · rw [hnext] at hr
          exact hr.elim
      subst hr
      refine Or.inr ⟨hmem, fun x hx ↦ ?_, fun _ j t hji ht hr ↦ hji (h.distinct ht hs hr hun)⟩
      rw [hnone] at hx
      cases hx
    · rcases hnext with hnext | hnext <;> rw [hnext] <;> rintro _ ⟨⟩
  · have hx := MemResponseLedger.sign_spec hsign
    rw [hreply, Stage.next_create_accepted] at hss
    have hrec : ∀ r, (exec (.ledger (.create record key now)) w).2.store.record r =
        if r = record.responseId then some x else w.store.record r := by
      intro r
      rw [heq, show record.responseId = x.responseId by rw [hx]]
      exact MemResponseLedger.record_enqueue w.store x key r
    refine h.write hs hun hss (exec_keyed _ h.keyed) hrec
      (fun c ↦ (exec_ledgerOnly _ w).marker c) fun c hc ↦ ?_
    have hc : record.anchor = .conversation c := by
      rw [← hc, hx]
      rfl
    rcases hanchor with ⟨c', rfl, hanchor⟩ | ⟨-, hbare⟩
    · obtain rfl : c' = c := by simpa using hanchor.symm.trans hc
      exact h.admitting hs
    · rw [hc] at hbare
      cases hbare

/-- One call of one process, whatever its stage. -/
theorem call {c : Call} (h : Exclusive ids w ss) (hs : ss[i]? = some s) (hallowed : s.Allowed c)
    (hwriter : ∀ id c' holder, s = .probing id c' holder → ∀ (j : ℕ) id' c'',
      ss[j]? = some (.admitting id' c'') → id' ≠ holder)
    (hannounce : ∀ event, c = .eventLog (.append event) → event.attempt = none →
      event.kind = .created → ∃ seq, (exec (.eventLog (.append event)) w).1 = .ok seq) :
    Exclusive ids (exec c w).2 (after ss i c w) := by
  have hledger : ∀ {lc : LedgerCall} c', (exec (.ledger lc) w).2.store.marker c' =
      w.store.marker c' := fun c' ↦ (exec_ledgerOnly _ w).marker c'
  have hlog : ∀ {ec : EventLogCall}, w.store.Alike (exec (.eventLog ec) w).2.store :=
    fun {ec} ↦ .of_eq (exec_eventLog_store ec w)
  have hmap : ∀ {f : Settlement → Settlement} {won : List Settlement} {r : ResponseId},
      (∀ e, (f e).id = e.id) → (Stage.settling (won.map f)).Frees r →
      (Stage.settling won).Frees r := by
    rintro f won r hf ⟨e, he, rfl⟩
    obtain ⟨e', he', rfl⟩ := List.mem_map.mp he
    exact ⟨e', he', (hf e').symm⟩
  cases hallowed with
  | quiet hsteady hquiet => exact h.call_quiet hs hsteady hquiet
  | acquire tenant now => exact h.call_acquire hs tenant now
  | probe => exact h.call_probe hs (hwriter _ _ _ rfl)
  | steal tenant => exact h.call_steal hs tenant
  | write key now hid hanchor =>
      subst hid
      exact h.call_write hs key now (Or.inl ⟨_, rfl, hanchor⟩)
  | writeBare key now hid hanchor hbare =>
      subst hid
      exact h.call_write hs key now (Or.inr ⟨⟨_, rfl⟩, by rwa [← hanchor] at hbare⟩)
  | @announce id event hid hattempt hkind =>
      obtain ⟨seq, hseq⟩ := hannounce event rfl hattempt hkind
      refine h.call_frame hs hlog.advances hlog.marker ?_ ?_ ?_
      all_goals rw [hseq]
      · rfl
      · exact fun _ hr ↦ hr.elim
      · rintro _ ⟨⟩
  | giveBack tenant c' status now =>
      exact h.call_release hs rfl tenant c' status now rfl (fun _ hr ↦ hr.elim) (by rintro _ ⟨⟩)
  | abandon => exact absurd hs h.announced
  | claim agent now ttl =>
      refine h.call_frame hs (exec_ledger_advances (by trivial) w) hledger ?_ ?_ ?_
      all_goals
        generalize (exec (.ledger (.claim agent now ttl)) w).1 = reply
        rcases reply with e | _ | claimed
      all_goals first | rfl | exact fun _ hr ↦ hr.elim | (rintro _ ⟨⟩)
  | cancel tenant id now =>
      refine h.call_frame hs (exec_ledger_advances (by trivial) w) hledger ?_ ?_ ?_
      all_goals
        generalize (exec (.ledger (.cancel tenant id now)) w).1 = reply
        rcases reply with e | ⟨⟩
      · rfl
      · rfl
      · exact fun _ hr ↦ hr.elim
      · rintro r ⟨e, he, rfl⟩
        obtain rfl := List.mem_singleton.mp he
        exact Or.inr (by simp [Call.wins, Except.isOk, Except.toBool])
      · rintro _ ⟨⟩
      · rintro _ ⟨⟩
  | reap now ttl =>
      refine h.call_frame hs (exec_ledger_advances (by trivial) w) hledger ?_ ?_ ?_
      all_goals
        generalize (exec (.ledger (.reap now ttl)) w).1 = reply
        rcases reply with e | aborted
      · rfl
      · rfl
      · exact fun _ hr ↦ hr.elim
      · rintro r ⟨e, he, rfl⟩
        obtain ⟨a, ha, rfl⟩ := List.mem_map.mp he
        exact Or.inr (decide_eq_true (List.mem_map_of_mem ha))
      · rintro _ ⟨⟩
      · rintro _ ⟨⟩
  | @emit record event hid hattempt hkind =>
      refine h.call_frame hs hlog.advances hlog.marker ?_ ?_ ?_
      all_goals
        generalize (exec (.eventLog (.append event)) w).1 = reply
        cases reply
      all_goals first | rfl | exact fun _ hr ↦ hr.elim | (rintro _ ⟨⟩)
  | @complete record status usage now =>
      refine h.call_frame hs (exec_ledger_advances (by trivial) w) hledger ?_ ?_ ?_
      all_goals
        generalize (exec (.ledger (.complete record.responseId record.attempt status usage now))
          w).1 = reply
        rcases reply with e | ⟨⟩
      · rfl
      · rfl
      · exact fun _ hr ↦ hr.elim
      · rintro r ⟨e, he, rfl⟩
        obtain rfl := List.mem_singleton.mp he
        exact Or.inr (by simp [Call.wins, Except.isOk, Except.toBool])
      · rintro _ ⟨⟩
      · rintro _ ⟨⟩
  | look id =>
      exact h.call_frame hs (.of_record fun _ ↦ rfl) (fun _ ↦ rfl) rfl
        (fun _ hr ↦ Or.inl (hmap (Settlement.learn_id _ _) hr)) (by rintro _ ⟨⟩)
  | clock =>
      exact h.call_frame hs (.of_record fun _ ↦ rfl) (fun _ ↦ rfl) rfl
        (fun _ hr ↦ Or.inl hr) (by rintro _ ⟨⟩)
  | replay id cursor limit =>
      refine h.call_frame hs hlog.advances hlog.marker ?_ ?_ ?_
      all_goals
        generalize (exec (.eventLog (.readAfter id cursor limit)) w).1 = reply
        rcases reply with e | batch
      · rfl
      · rfl
      · exact fun _ hr ↦ Or.inl (hmap (Settlement.excuse_id _) hr)
      · exact fun _ hr ↦ Or.inl hr
      · rintro _ ⟨⟩
      · rintro _ ⟨⟩
  | sweep now =>
      exact h.call_frame hs hlog.advances hlog.marker rfl (fun _ hr ↦ Or.inl hr) (by rintro _ ⟨⟩)
  | archive tenant now he hpending hturn hhome hinput =>
      exact h.call_frame hs (.of_record (exec_conversations_record _ w))
        (exec_conversations_marker h.keyed trivial) rfl
        (fun _ hr ↦ Or.inl (hmap (Settlement.archived_id _ _) hr)) (by rintro _ ⟨⟩)
  | advance tenant c' he =>
      exact h.call_frame hs (.of_record (exec_conversations_record _ w))
        (exec_conversations_marker h.keyed trivial) rfl (fun _ hr ↦ Or.inl hr) (by rintro _ ⟨⟩)
  | @release won e tenant c' status now he hcleared =>
      exact h.call_release hs ⟨e, he, rfl⟩ tenant c' status now rfl (fun _ hr ↦ hr)
        (by rintro _ ⟨⟩)
  | @finish won e event he hid hattempt hkind =>
      refine h.call_frame hs hlog.advances hlog.marker ?_ ?_ ?_
      all_goals
        generalize (exec (.eventLog (.append event)) w).1 = reply
        cases reply
      all_goals first | rfl | exact fun _ hr ↦ Or.inl hr | (rintro _ ⟨⟩)
  | close now retain he =>
      exact h.call_frame hs hlog.advances hlog.marker rfl (fun _ hr ↦ Or.inl hr) (by rintro _ ⟨⟩)

end Exclusive

/-! ## Runs -/

theorem turn_keeps {w : World} {tr : Trace} {q : State}
    {ok : Trace → State → Event Call Call.Reply Job → Prop}
    (hok : ∀ tr q j, ok tr q (.start j) → j.OfTurn) (h : Run system ok (Pool.init w) tr q) :
    turn.Keeps (fun s _ ↦ s.Restful) q (turn.track Stage.first tr) := by
  refine (Run.invariant turn Stage.first (fun s _ ↦ s.Restful) (I := fun _ _ _ ↦ True)
    ?_ ?_ ?_ ?_ trivial h).2
  · exact fun tr q j hj ↦ follows_job (hok _ _ _ hj)
  · exact fun {tr q ss} c _ ↦ exec_answers c q.world
  · exact fun _ _ _ _ ↦ trivial
  · exact fun _ _ _ _ _ _ ↦ trivial

theorem pending_of_admitting {q : State} {ss : List Stage} {i : ℕ} {id : ResponseId}
    {c : ConversationId} (hk : turn.Keeps (fun s _ ↦ s.Restful) q ss)
    (hs : ss[i]? = some (.admitting id c)) :
    ∃ record key now, q.pending i = some (.ledger (.create record key now)) ∧
      record.responseId = id := by
  obtain ⟨⟨j, prog⟩, hi, hfollow⟩ := hk.proc hs
  cases prog with
  | ret a => exact hfollow.elim
  | stall => exact hfollow.elim
  | call call k =>
      obtain ⟨hallowed, -⟩ := hfollow
      cases hallowed with
      | quiet hsteady => exact hsteady.elim
      | write key now hid => exact ⟨_, key, now, Pool.pending_of_procs hi, hid⟩

/-- Whoever competes for a marker was started for its conversation. -/
def Competing (q : State) (ss : List Stage) : Prop :=
  ∀ (i : ℕ) (s : Stage) c, ss[i]? = some s → s.conversation = some c →
    (q.jobAt i).bind Job.conversation = some c

theorem competing_start {q : State} {ss : List Stage} {j : Job}
    (hk : turn.Keeps (fun s _ ↦ s.Restful) q ss) (h : Competing q ss) :
    Competing (q.start system j) (turn.advance Stage.first ss
      (.start j : Event Call Call.Reply Job)) := by
  intro i s c hs hc
  rcases Session.getElem?_advance_start hs with hs | ⟨hi, rfl⟩
  · have hjob := h i s c hs hc
    cases hat : q.jobAt i with
    | none => simp [hat] at hjob
    | some j' => rw [Pool.jobAt_start hat, ← hat, hjob]
  · have hat : (q.start system j).jobAt i = some j := by
      rw [hi, hk.length]
      simp [Pool.jobAt, Pool.start]
    rw [hat]
    cases j with
    | create cfg rounds tenant spec key uuid =>
        cases hconv : spec.anchor.conversationId with
        | none => simp [Stage.first, hconv, Stage.conversation] at hc
        | some c' =>
            simp only [Stage.first, hconv, Stage.conversation] at hc
            exact hconv.trans hc
    | _ => cases hc

theorem competing_call {q : State} {ss : List Stage} {i : ℕ} {j : Job} {c : Call}
    {k : c.Reply → Service Unit} {s : Stage} (hi : q.procs[i]? = some ⟨j, .call c k⟩)
    (hs : ss[i]? = some s) (h : Competing q ss) :
    Competing (q.turn system i j c k) (Exclusive.after ss i c q.world) := by
  intro i' t c' ht hc'
  rw [Pool.jobAt_turn hi]
  rw [Exclusive.getElem?_after hs] at ht
  split_ifs at ht with hii
  · obtain rfl := Option.some.inj ht
    exact hii ▸ h i s c' hs (Stage.conversation_next hc')
  · exact h i' t c' ht hc'

theorem exclusive_init {w : World} (hw : w.store.Quiescent) : Exclusive [] w [] where
  keyed := hw.keyed
  known_record hx := by rw [hw.record] at hx; cases hx
  known_marker hc := by rw [hw.marker] at hc; cases hc
  held hx := by rw [hw.record] at hx; cases hx
  unwritten hs := by cases hs
  distinct hs := by cases hs
  waiting hs := by cases hs
  admitting hs := by cases hs
  probing hs := by cases hs
  dead hs := by cases hs
  announced := by simp

/-- What `NoWriter` says of the stages. -/
theorem noWriter_admitting {q : State} {ss : List Stage} {i : ℕ} {s : Stage} {c : Call}
    (hk : turn.Keeps (fun s _ ↦ s.Restful) q ss) (hc : Competing q ss) (hs : ss[i]? = some s)
    (hallowed : s.Allowed c) {r : c.Reply}
    (h : ∀ holder ∈ probed q (.call i c r), NoWriter q holder) :
    ∀ id c' holder, s = .probing id c' holder → ∀ (j : ℕ) id' c'',
      ss[j]? = some (.admitting id' c'') → id' ≠ holder := by
  rintro id c' holder rfl l id' c'' hadm rfl
  obtain ⟨record, key, now, hpending, hid⟩ := pending_of_admitting hk hadm
  have hjob := hc i _ c' hs rfl
  cases hallowed with
  | quiet hsteady => exact hsteady.elim
  | probe =>
      refine h id' ?_ l record key now hpending hid
      simp [probed, hjob]

theorem exclusive_run {w : World} {tr : Trace} {q : State} (hw : w.store.Quiescent)
    (h : Run system DecidedStep (Pool.init w) tr q) :
    Exclusive (minted tr) q.world (turn.track Stage.first tr) := by
  refine (Run.invariant turn Stage.first (fun s _ ↦ s.Restful)
    (I := fun tr q ss ↦ Exclusive (minted tr) q.world ss ∧ Competing q ss)
    ?_ ?_ ?_ ?_ ?_ h).1.1
  · exact fun tr q j hok ↦ follows_job hok.1.1
  · exact fun {tr q ss} c _ ↦ exec_answers c q.world
  · intro tr q ss j hI hk hok
    rw [minted_start]
    exact ⟨hI.1.start hok.1.2, competing_start hk hI.2⟩
  · intro tr q ss i j c k s hI hk hi hs hallowed hok
    rw [minted_call]
    refine ⟨hI.1.call hs hallowed (noWriter_admitting hk hI.2 hs hallowed hok.2.1) ?_,
      competing_call hi hs hI.2⟩
    rintro event rfl hattempt hkind
    exact announceable_append hattempt
      (hok.2.2 event.responseId (by simp [NovaChat.announced, hkind]))
  · exact ⟨exclusive_init hw, fun i s c hs ↦ by cases hs⟩

/-- Where every takeover is of a response that nobody is about to write, and every written
record is announced, a conversation never has two open turns. -/
theorem open_turn_unique {w : World} {tr : Trace} {q : State} (hw : w.store.Quiescent)
    (h : Run system DecidedStep (Pool.init w) tr q) : q.world.store.OneOpenTurn :=
  (exclusive_run hw h).oneOpenTurn

theorem Sample.world_quiescent : Sample.world.store.Quiescent where
  keyed := Sample.world_keyed
  record _ := rfl
  marker c := by
    have hconv := MemConversationStore.conversation_insert {}
      (.new Sample.talk Sample.tenant [] 0) c
    have hworld : Sample.world.store.conversation c =
        if c = Sample.talk then some (.new Sample.talk Sample.tenant [] 0) else none := hconv
    simp only [MemStore.marker, hworld]
    split_ifs <;> rfl

/-- Whether a response is queued on the sample conversation. -/
def Sample.queued (q : State) (r : ResponseId) : Bool :=
  (q.world.store.record r).any fun x ↦
    decide (x.anchor = .conversation Sample.talk) && decide (x.status = .queued)

/-- A second create is refused while the first one is queued. -/
theorem open_turn_unique_refused : ∃ tr q,
    Run system DecidedStep (Pool.init Sample.world) tr q ∧ Sample.queued q (Sample.id 1) = true ∧
      q.world.store.OneOpenTurn := by
  obtain ⟨tr, q, h, htest⟩ := Run.exists_of_schedule system (Pool.init Sample.world)
    (fun tr q e ↦ decide (DecidedStep tr q e)) (fun _ q ↦ Sample.queued q (Sample.id 1))
    (fun tr q e ↦ of_decide_eq_true)
    (Sample.post 1 :: Sample.post 2 :: Sample.steps 0 6 ++ Sample.steps 1 5) (by decide +kernel)
  exact ⟨tr, q, h, htest, open_turn_unique Sample.world_quiescent h⟩

/-- The second create finds no record for the holder of the marker, takes the marker over, and
both write their records. -/
theorem takeover_race : ¬ ∀ (w : World) (tr : Trace) (q : State), w.store.Quiescent →
    Run system TurnStep (Pool.init w) tr q → q.world.store.OneOpenTurn := by
  intro hclaim
  obtain ⟨tr, q, h, htest⟩ := Run.exists_of_schedule system (Pool.init Sample.world)
    (fun tr q e ↦ decide (TurnStep tr q e))
    (fun _ q ↦ Sample.queued q (Sample.id 1) && Sample.queued q (Sample.id 2))
    (fun tr q e ↦ of_decide_eq_true)
    (Sample.post 1 :: Sample.post 2 :: Sample.steps 0 4 ++ Sample.steps 1 9 ++ Sample.steps 0 1)
    (by decide +kernel)
  simp only [Sample.queued, Bool.and_eq_true, Option.any_eq_true, decide_eq_true_eq] at htest
  obtain ⟨⟨x, hx, hanchor, hopen⟩, ⟨y, hy, hanchor', hopen'⟩⟩ := htest
  have heq := hclaim Sample.world tr q Sample.world_quiescent h Sample.talk (Sample.id 1)
    (Sample.id 2) x y hx hanchor (by rw [hopen]; rfl) hy hanchor' (by rw [hopen']; rfl)
  exact absurd heq (by decide)

end NovaChat
