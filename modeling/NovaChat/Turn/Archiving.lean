import NovaChat.Turn.Exclusion

/-!
# A turn is archived before the next one starts

The terminal paths close the ledger first, then archive the turn, and give the marker back
last.  `Ordered` is the invariant this order keeps up, as long as no marker is taken over from
a terminal response whose turn is still missing from the snapshot: then every turn that reads
the snapshot under the marker finds its predecessors in it.  `unarchived_takeover` is a run in
which a marker is taken over too early.
-/

namespace NovaChat

open Interact MemConversationStore

/-! ## Archived turns -/

/-- Whether the turn of `r` is in the snapshot of `c`. -/
def MemStore.Archived (s : MemStore) (c : ConversationId) (r : ResponseId) : Prop :=
  ((s.snapshot c).appended.lookup r).isSome = true

instance (s : MemStore) (c : ConversationId) (r : ResponseId) : Decidable (s.Archived c r) :=
  inferInstanceAs (Decidable (_ = true))

theorem entries_addTurn (snap : Snapshot) (r : ResponseId) (commit : TurnCommit) :
    snap.entries <+: (addTurn snap r commit).entries := by
  unfold addTurn
  split
  · exact List.prefix_refl _
  · exact List.prefix_append _ _

theorem appended_addTurn (snap : Snapshot) (r r' : ResponseId) (commit : TurnCommit) :
    ((addTurn snap r commit).appended.lookup r').isSome = true ↔
      r' = r ∨ (snap.appended.lookup r').isSome = true := by
  unfold addTurn
  split
  · next index h =>
      refine ⟨Or.inr, ?_⟩
      rintro (rfl | hr)
      · rw [h]
        rfl
      · exact hr
  · rw [HashMap.lookup_insert']
    split_ifs with hr <;> simp [hr]

theorem turnEntries_addTurn {snap : Snapshot} {r : ResponseId} (commit : TurnCommit)
    (h : snap.appended.lookup r = none) :
    turnEntries commit <:+: (addTurn snap r commit).entries := by
  simp only [addTurn, h]
  exact (List.suffix_append _ _).isInfix

/-- An append adds its response to what is archived, and takes nothing away. -/
theorem archived_appendTurn {w : World} (tenant : TenantId) (c : ConversationId) (r : ResponseId)
    (commit : TurnCommit) (now : ℕ) {c' : ConversationId} {r' : ResponseId}
    (h : w.store.Archived c' r') :
    (exec (.conversations (.appendTurn tenant c r commit now)) w).2.store.Archived c' r' := by
  rcases exec_appendTurn (w := w) tenant c r commit now with ⟨e, heq⟩ | ⟨index, -, hsnap⟩
  · rwa [heq]
  · rw [MemStore.Archived, hsnap]
    split_ifs with hc
    · subst hc
      exact (appended_addTurn _ _ _ _).mpr (Or.inr h)
    · exact h

/-! ## The conditions -/

/-- Whether a reply is not an error.  An occupied marker is an answer, not a failure. -/
def LedgerCall.succeeds : (c : LedgerCall) → c.Reply → Bool
  | .create .., r | .claim .., r | .heartbeat .., r | .complete .., r | .cancel .., r
  | .reap .., r | .recordPartialUsage .., r | .get _, r | .delete _, r | .deleteByTenant _, r
  | .checkAttempt .., r | .inFlight, r => r.isOk

def EventLogCall.succeeds : (c : EventLogCall) → c.Reply → Bool
  | .append _, r | .fenceCheck _, r | .insert _, r | .readAfter .., r | .close .., r
  | .sweepExpired _, r | .remove _, r => r.isOk

def ConversationCall.succeeds : (c : ConversationCall) → c.Reply → Bool
  | .acquireActive .., .error (.busy _) => true
  | .create _, r | .get .., r | .updateMetadata .., r | .delete .., r | .deleteByTenant _, r
  | .list _, r | .readSnapshot .., r | .appendTurn .., r | .advance .., r
  | .acquireActive .., r | .releaseActive .., r | .releaseStaleActive .., r
  | .appendEvent .., r | .readAfter .., r => r.isOk

def Call.succeeds : (c : Call) → c.Reply → Bool
  | .ledger c, r => c.succeeds r
  | .eventLog c, r => c.succeeds r
  | .conversations c, r => c.succeeds r
  | .nowMs, _ | .node _, _ | .mode _, _ => true

/-- Runs of turns in which every port call succeeds. -/
def SucceedingStep (tr : Trace) (q : State) (e : Event Call Call.Reply Job) : Prop :=
  TurnStep tr q e ∧ match e with
    | .start _ => True
    | .call _ c r => c.succeeds r = true

/-- The calls an archive and an announcement depend on. -/
def Call.Archives : Call → Prop
  | .conversations (.appendTurn ..) | .eventLog (.readAfter ..) => True
  | .eventLog (.append event) => event.kind = .created
  | _ => False

/-- The turn of `r`, if it is stored, is in the snapshot once the record is terminal. -/
def World.Caught (w : World) (r : ResponseId) : Prop :=
  ∀ x c, w.store.record r = some x → x.status.isTerminal = true → x.isStored = true →
    x.anchor = .conversation c → w.store.Archived c r

/-- A holder is looked up only while nobody is about to write its record, and not between its
terminal transition and its archive. -/
def OrderedStep (tr : Trace) (q : State) (e : Event Call Call.Reply Job) : Prop :=
  TurnStep tr q e ∧
  (match e with
    | .start _ => True
    | .call _ c r => c.Archives → c.succeeds r = true) ∧
  ∀ holder ∈ probed q e, NoWriter q holder ∧ q.world.Caught holder

/-! ## The invariant -/

/-- What a process knows of the turns it has to do with. -/
def Stage.Tells (w : World) : Stage → Prop
  | serving record => ∃ x, w.store.record record.responseId = some x ∧
      x.turnInfo = record.turnInfo
  | refused id => w.store.record id = none
  | stealing _ _ holder => w.Caught holder
  | settling won => ∀ e ∈ won, (e.archive = .pending ∨ e.archive = .stored) ∧
      (∀ t, e.turn = some t → ∃ x, w.store.record e.id = some x ∧ x.turnInfo = t) ∧
      (e.archive = .stored → w.Caught e.id)
  | _ => True

structure Ordered (w : World) (ss : List Stage) : Prop where
  /-- A terminal stored turn is archived, or its marker has not been given back. -/
  turns : ∀ {r x c}, w.store.record r = some x → x.status.isTerminal = true →
    x.isStored = true → x.anchor = .conversation c →
    w.store.marker c = some r ∨ w.store.Archived c r
  tells : ∀ {i : ℕ} {s : Stage}, ss[i]? = some s → s.Tells w

/-- What any step of a turn does to records and archives: neither loses anything, and a new
record is an open one that its process had announced by its stage. -/
structure Progress (w w' : World) (ss : List Stage) : Prop where
  kept : ∀ {r x}, w.store.record r = some x → ∃ x', w'.store.record r = some x' ∧ x.Advances x'
  fresh : ∀ {r x'}, w'.store.record r = some x' →
    (∃ x, w.store.record r = some x ∧ x.Advances x') ∨
      w.store.record r = none ∧ x'.status.isTerminal = false ∧
        ∃ (i : ℕ) (s : Stage), ss[i]? = some s ∧ s.unwritten = some r
  archived : ∀ {c r}, w.store.Archived c r → w'.store.Archived c r

theorem Progress.of_advances {w w' : World} {ss : List Stage} (hrec : w.store.Advances w'.store)
    (hsnap : ∀ c, w'.store.snapshot c = w.store.snapshot c) : Progress w w' ss where
  kept hx := hrec.some hx
  fresh hx := Or.inl (hrec.back hx)
  archived h := by rwa [MemStore.Archived, hsnap]

section Steps

variable {ids : List ResponseId} {w w' : World} {ss ss' : List Stage} {i : ℕ} {s s' : Stage}

theorem World.Caught.mono {r : ResponseId} (h : w.Caught r) (hp : Progress w w' ss)
    (hdead : Dead ids w ss r) : w'.Caught r := by
  intro x' c hx' hterm hstored hanchor
  rcases hp.fresh hx' with ⟨x, hx, hadv⟩ | ⟨hnone, -, j, t, ht, hun⟩
  · have heq := hadv.terminal (hdead.closed x hx)
    subst heq
    exact hp.archived (h _ c hx hterm hstored hanchor)
  · exact absurd hun (hdead.unwritten hnone j t ht)

/-- What the other processes know stays true. -/
theorem Stage.Tells.mono (h : s.Tells w) (he : Exclusive ids w ss) (hs : ss[i]? = some s)
    (hp : Progress w w' ss) : s.Tells w' := by
  cases s with
  | serving record =>
      obtain ⟨x, hx, hinfo⟩ := h
      obtain ⟨x', hx', hadv⟩ := hp.kept hx
      refine ⟨x', hx', ?_⟩
      rw [← hinfo]
      simp only [ResponseRecord.turnInfo, ResponseRecord.conversationId, hadv.spec]
  | refused id =>
      have hdead := he.dead hs rfl
      have h : w.store.record id = none := h
      show w'.store.record id = none
      cases hx' : w'.store.record id with
      | none => rfl
      | some x' =>
          rcases hp.fresh hx' with ⟨x, hx, -⟩ | ⟨hnone, -, j, t, ht, hun⟩
          · rw [h] at hx
            cases hx
          · exact absurd hun (hdead.unwritten hnone j t ht)
  | stealing id c holder => exact World.Caught.mono h hp (he.dead hs rfl)
  | settling won =>
      intro e hmem
      obtain ⟨harchive, hturn, hcaught⟩ := h e hmem
      refine ⟨harchive, fun t ht ↦ ?_, fun hst ↦ (hcaught hst).mono hp (he.dead hs ⟨e, hmem, rfl⟩)⟩
      obtain ⟨x, hx, hinfo⟩ := hturn t ht
      obtain ⟨x', hx', hadv⟩ := hp.kept hx
      refine ⟨x', hx', ?_⟩
      rw [← hinfo]
      simp only [ResponseRecord.turnInfo, ResponseRecord.conversationId, hadv.spec]
  | _ => trivial

namespace Ordered

/-- The rule for one step: a marker that is given up belongs to a response that is archived as
far as it has to be. -/
theorem step (h : Ordered w ss) (he : Exclusive ids w ss)
    (hss : ∀ j, ss'[j]? = if i = j then some s' else ss[j]?) (hp : Progress w w' ss)
    (hmark : ∀ c r, w.store.marker c = some r → w'.store.marker c = some r ∨ w'.Caught r)
    (htells : s'.Tells w') : Ordered w' ss' := by
  refine ⟨fun {r x' c} hx' hterm hstored hanchor ↦ ?_, fun {j t} ht ↦ ?_⟩
  · have hgiven : w.store.marker c = some r →
        w'.store.marker c = some r ∨ w'.store.Archived c r := by
      intro hheld
      rcases hmark c r hheld with hheld' | hcaught
      · exact Or.inl hheld'
      · exact Or.inr (hcaught x' c hx' hterm hstored hanchor)
    rcases hp.fresh hx' with ⟨x, hx, hadv⟩ | ⟨-, hopen, -⟩
    · have hanchor' : x.anchor = .conversation c := by
        rw [← hanchor, ResponseRecord.anchor, ResponseRecord.anchor, hadv.spec]
      cases hx'' : x.status.isTerminal with
      | false => exact hgiven (he.held hx hanchor' hx'')
      | true =>
          have hstored' : x.isStored = true := by
            rw [← hstored, ResponseRecord.isStored, ResponseRecord.isStored, hadv.spec]
          rcases h.turns hx hx'' hstored' hanchor' with hheld | harch
          · exact hgiven hheld
          · exact Or.inr (hp.archived harch)
    · rw [hterm] at hopen
      cases hopen
  · rw [hss] at ht
    split_ifs at ht with hij
    · exact Option.some.inj ht ▸ htells
    · exact (h.tells ht).mono he ht hp

theorem call_frame {c : Call} (h : Ordered w ss) (he : Exclusive ids w ss) (hs : ss[i]? = some s)
    (hrec : w.store.Advances (exec c w).2.store)
    (hmark : ∀ c', (exec c w).2.store.marker c' = w.store.marker c')
    (hsnap : ∀ c', (exec c w).2.store.snapshot c' = w.store.snapshot c')
    (htells : (s.next c (exec c w).1).Tells (exec c w).2) :
    Ordered (exec c w).2 (Exclusive.after ss i c w) := by
  refine h.step he (Exclusive.getElem?_after hs c w) (.of_advances hrec hsnap)
    (fun c' r hr ↦ Or.inl ((hmark c').trans hr)) htells

/-- `step` for calls that clear a marker, of a response with nothing left to archive. -/
theorem call_clear {cc : ConversationCall} {r : ResponseId} (h : Ordered w ss)
    (he : Exclusive ids w ss) (hs : ss[i]? = some s) (hcc : cc.Unarchiving)
    (hmark : (exec (.conversations cc) w).2 = w ∨ ∃ c, w.store.marker c = some r ∧
      ∀ c', (exec (.conversations cc) w).2.store.marker c' =
        if c' = c then none else w.store.marker c')
    (hcaught : w.Caught r) (hdead : Dead ids w ss r)
    (htells : (s.next (.conversations cc) (exec (.conversations cc) w).1).Tells
      (exec (.conversations cc) w).2) :
    Ordered (exec (.conversations cc) w).2 (Exclusive.after ss i (.conversations cc) w) := by
  have hp : Progress w (exec (.conversations cc) w).2 ss :=
    .of_advances (.of_record (exec_conversations_record cc w)) (exec_conversations_snapshot hcc)
  refine h.step he (Exclusive.getElem?_after hs _ w) hp (fun c' r' hr' ↦ ?_) htells
  rcases hmark with heq | ⟨c, hheld, hmark⟩
  · exact Or.inl (by rw [heq, hr'])
  · rw [hmark]
    split_ifs with hc
    · obtain rfl : r' = r := by
        rw [hc, hheld] at hr'
        exact (Option.some.inj hr').symm
      exact Or.inr (hcaught.mono hp hdead)
    · exact Or.inl hr'

/-- Archiving a turn that its process owes. -/
theorem call_archive {won : List Settlement} {e : Settlement} {t : TurnInfo} {c : ConversationId}
    {commit : TurnCommit} (h : Ordered w ss) (he : Exclusive ids w ss)
    (hs : ss[i]? = some (.settling won)) (tenant : TenantId) (now : ℕ) (hmem : e ∈ won)
    (hturn : e.turn = some t) (hhome : t.home = some c)
    (hok : Call.succeeds (.conversations (.appendTurn tenant c e.id commit now))
      (exec (.conversations (.appendTurn tenant c e.id commit now)) w).1 = true) :
    Ordered (exec (.conversations (.appendTurn tenant c e.id commit now)) w).2
      (Exclusive.after ss i (.conversations (.appendTurn tenant c e.id commit now)) w) := by
  obtain ⟨x, hx, hinfo⟩ := (h.tells hs e hmem).2.1 t hturn
  have hrec := exec_conversations_record (.appendTurn tenant c e.id commit now) w
  have hp : Progress w (exec (.conversations (.appendTurn tenant c e.id commit now)) w).2 ss :=
    { kept := fun {r y} hy ↦ ⟨y, (hrec r).trans hy, .refl y⟩
      fresh := fun {r y} hy ↦ Or.inl ⟨y, (hrec r).symm.trans hy, .refl y⟩
      archived := archived_appendTurn tenant c e.id commit now }
  rcases exec_appendTurn (w := w) tenant c e.id commit now with ⟨err, heq⟩ | ⟨index, hreply, hsnap⟩
  · rw [heq] at hok
    cases hok
  · -- The conversation of the record is the home the turn was archived to.
    have hcaught : (exec (.conversations (.appendTurn tenant c e.id commit now)) w).2.Caught
        e.id := by
      intro y c' hy _ hstored hanchor
      obtain rfl : x = y := Option.some.inj ((hx.symm.trans (hrec e.id).symm).trans hy)
      have hc : x.turnInfo.home = some c' := by
        rw [ResponseRecord.turnInfo_home, if_pos hstored]
        exact ContextAnchor.conversationId_eq_some.mpr hanchor
      obtain rfl : c = c' := Option.some.inj (hhome.symm.trans ((congrArg _ hinfo.symm).trans hc))
      rw [MemStore.Archived, hsnap, if_pos rfl]
      exact (appended_addTurn _ _ _ _).mpr (Or.inl rfl)
    refine h.step he (Exclusive.getElem?_after hs _ w) hp (fun c' r hr ↦ Or.inl ?_) ?_
    · exact (exec_conversations_marker he.keyed (by trivial) c').trans hr
    · have hnext : (Stage.settling won).next
          (.conversations (.appendTurn tenant c e.id commit now))
          (exec (.conversations (.appendTurn tenant c e.id commit now)) w).1 =
          .settling (won.map (Settlement.archived e.id true)) := by
        rw [hreply]
        rfl
      rw [hnext]
      intro e' hmem'
      obtain ⟨e₀, hmem₀, rfl⟩ := List.mem_map.mp hmem'
      have htells := (Stage.Tells.mono (h.tells hs) he hs hp) e₀ hmem₀
      unfold Settlement.archived
      by_cases hid : e₀.id = e.id
      · rw [if_pos hid]
        exact ⟨Or.inr rfl, htells.2.1, fun _ ↦ hid ▸ hcaught⟩
      · rw [if_neg hid]
        exact htells

theorem call_acquire {id : ResponseId} {c : ConversationId} (h : Ordered w ss)
    (he : Exclusive ids w ss) (hs : ss[i]? = some (.minted id c)) (tenant : TenantId) (now : ℕ) :
    Ordered (exec (.conversations (.acquireActive tenant c id now)) w).2
      (Exclusive.after ss i (.conversations (.acquireActive tenant c id now)) w) := by
  have hsnap := exec_conversations_snapshot (c := .acquireActive tenant c id now) (w := w) trivial
  refine h.step he (Exclusive.getElem?_after hs _ w)
    (.of_advances (.of_record (exec_conversations_record _ w)) hsnap) (fun c' r hr ↦ Or.inl ?_) ?_
  · rcases exec_acquireActive he.keyed tenant c id now with ⟨e, heq, -⟩ | ⟨seq, -, hfree, hmark⟩
    · rwa [heq]
    · rw [hmark]
      split_ifs with hc
      · subst hc
        rcases hfree with hfree | hfree <;> rw [hr] at hfree
        · cases hfree
        · exact hfree.symm ▸ rfl
      · exact hr
  · generalize (exec (.conversations (.acquireActive tenant c id now)) w).1 = reply
    rcases reply with (_ | holder | _ | _) | seq <;> trivial

theorem call_write {record : ResponseRecord} (h : Ordered w ss) (he : Exclusive ids w ss)
    (hs : ss[i]? = some s) (hwriting : s.Writing record.responseId)
    (hstatus : record.status = .queued) (key : IdempotencyKey) (now : ℕ) :
    Ordered (exec (.ledger (.create record key now)) w).2
      (Exclusive.after ss i (.ledger (.create record key now)) w) := by
  have hnone := (he.unwritten hs hwriting.unwritten).2
  have hsnap : ∀ c, (exec (.ledger (.create record key now)) w).2.store.snapshot c =
      w.store.snapshot c := fun c ↦ (exec_ledgerOnly _ w).snapshot c
  have hss := Exclusive.getElem?_after hs (.ledger (.create record key now)) w
  rcases exec_create record key now w with ⟨hrefused, heq⟩ | ⟨x, hreply, hsign, -, heq⟩
  · rw [heq]
    refine h.step he hss (.of_advances (.of_record fun _ ↦ rfl) fun _ ↦ rfl)
      (fun _ _ hr ↦ Or.inl hr) ?_
    rcases Stage.next_create_refused key now hwriting hrefused with hnext | hnext <;> rw [hnext]
    · exact hnone
    · trivial
  · rw [hreply, Stage.next_create_accepted] at hss
    have hx := MemResponseLedger.sign_spec hsign
    have hrec : ∀ r, (exec (.ledger (.create record key now)) w).2.store.record r =
        if r = record.responseId then some x else w.store.record r := by
      intro r
      rw [heq, show record.responseId = x.responseId by rw [hx]]
      exact MemResponseLedger.record_enqueue w.store x key r
    have hp : Progress w (exec (.ledger (.create record key now)) w).2 ss := by
      refine ⟨fun {r y} hy ↦ ⟨y, ?_, .refl y⟩, fun {r y} hy ↦ ?_, fun {c r} ha ↦ ?_⟩
      · rw [hrec, if_neg, hy]
        rintro rfl
        rw [hnone] at hy
        cases hy
      · rw [hrec] at hy
        split_ifs at hy with hr
        · obtain rfl := Option.some.inj hy
          refine Or.inr ⟨hr ▸ hnone, ?_, i, s, hs, hr ▸ hwriting.unwritten⟩
          rw [hx]
          show record.status.isTerminal = false
          rw [hstatus]
          rfl
        · exact Or.inl ⟨y, hy, .refl y⟩
      · rwa [MemStore.Archived, hsnap]
    exact h.step he hss hp (fun c r hr ↦ Or.inl (((exec_ledgerOnly _ w).marker c).trans hr)) trivial

/-- One call of one process, whatever its stage. -/
theorem call {c : Call} (h : Ordered w ss) (he : Exclusive ids w ss) (hs : ss[i]? = some s)
    (hallowed : s.Allowed c)
    (hcaught : ∀ id c' holder, s = .probing id c' holder → w.Caught holder)
    (hsucceeds : c.Archives → c.succeeds (exec c w).1 = true) :
    Ordered (exec c w).2 (Exclusive.after ss i c w) := by
  have hledger : ∀ {lc : LedgerCall} c', (exec (.ledger lc) w).2.store.marker c' =
      w.store.marker c' := fun c' ↦ (exec_ledgerOnly _ w).marker c'
  have hledger' : ∀ {lc : LedgerCall} c', (exec (.ledger lc) w).2.store.snapshot c' =
      w.store.snapshot c' := fun c' ↦ (exec_ledgerOnly _ w).snapshot c'
  have hlog : ∀ {ec : EventLogCall}, w.store.Alike (exec (.eventLog ec) w).2.store :=
    fun {ec} ↦ .of_eq (exec_eventLog_store ec w)
  have hlogged : ∀ {ec : EventLogCall}, s.Tells (exec (.eventLog ec) w).2 :=
    (h.tells hs).mono he hs (.of_advances hlog.advances hlog.snapshot)
  cases hallowed with
  | quiet hsteady hquiet =>
      have halike := exec_quiet hquiet w
      refine h.call_frame he hs halike.advances halike.marker halike.snapshot ?_
      rw [show s.next c (exec c w).1 = s from
        (idle_of_quiet hsteady hquiet).2 _ (exec_answers c w)]
      exact (h.tells hs).mono he hs (.of_advances halike.advances halike.snapshot)
  | acquire tenant now => exact h.call_acquire he hs tenant now
  | @probe id c' holder =>
      refine h.call_frame he hs (.of_record fun _ ↦ rfl) (fun _ ↦ rfl) (fun _ ↦ rfl) ?_
      simp only [Stage.next]
      split_ifs
      · exact hcaught id c' holder rfl
      · trivial
  | @steal id c' holder tenant =>
      refine h.call_clear he hs trivial ?_ (h.tells hs) (he.dead hs rfl) ?_
      · rcases exec_releaseStaleActive he.keyed tenant c' holder with heq | ⟨hheld, hmark⟩
        · exact Or.inl heq
        · exact Or.inr ⟨c', hheld, hmark⟩
      · generalize (exec (.conversations (.releaseStaleActive tenant c' holder)) w).1 = reply
        cases reply <;> trivial
  | write key now hid hanchor hstatus =>
      subst hid
      exact h.call_write he hs (Or.inl ⟨_, rfl⟩) hstatus key now
  | writeBare key now hid hanchor hbare hstatus =>
      subst hid
      exact h.call_write he hs (Or.inr ⟨_, rfl⟩) hstatus key now
  | @announce id event hid hattempt hkind =>
      refine h.call_frame he hs hlog.advances hlog.marker hlog.snapshot ?_
      generalize (exec (.eventLog (.append event)) w).1 = reply
      cases reply <;> trivial
  | @giveBack id tenant c' status now =>
      have hnone : w.store.record id = none := h.tells hs
      refine h.call_clear he hs trivial ?_ (fun x c hx ↦ ?_) (he.dead hs rfl) trivial
      · rcases exec_releaseActive he.keyed tenant c' id status now with heq | ⟨hheld, hmark⟩
        · exact Or.inl heq
        · exact Or.inr ⟨c', hheld, hmark⟩
      · rw [hnone] at hx
        cases hx
  | abandon => exact absurd hs he.announced
  | claim agent now ttl =>
      refine h.call_frame he hs (exec_ledger_advances (by trivial) w) hledger hledger' ?_
      cases hreply : (exec (.ledger (.claim agent now ttl)) w).1 with
      | error e => trivial
      | ok claimed =>
          cases claimed with
          | none => trivial
          | some claimed => exact ⟨claimed.record, exec_claim he.keyed hreply, rfl⟩
  | cancel tenant id now =>
      refine h.call_frame he hs (exec_ledger_advances (by trivial) w) hledger hledger' ?_
      generalize (exec (.ledger (.cancel tenant id now)) w).1 = reply
      rcases reply with e | ⟨⟩
      · trivial
      · intro e he
        obtain rfl := List.mem_singleton.mp he
        exact ⟨Or.inl rfl, (by rintro t ⟨⟩), (by rintro ⟨⟩)⟩
  | reap now ttl =>
      refine h.call_frame he hs (exec_ledger_advances (by trivial) w) hledger hledger' ?_
      cases hreply : (exec (.ledger (.reap now ttl)) w).1 with
      | error e => trivial
      | ok aborted =>
          intro e he
          obtain ⟨a, ha, rfl⟩ := List.mem_map.mp he
          refine ⟨Or.inl rfl, ?_, (by rintro ⟨⟩)⟩
          rintro t ⟨⟩
          exact exec_reap hreply ha
  | @emit record event hid hattempt hkind =>
      refine h.call_frame he hs hlog.advances hlog.marker hlog.snapshot ?_
      have hnext : (Stage.serving record).next (.eventLog (.append event))
          (exec (.eventLog (.append event)) w).1 = .serving record := by
        generalize (exec (.eventLog (.append event)) w).1 = reply
        cases reply <;> rfl
      rw [hnext]
      exact hlogged
  | @complete record status usage now =>
      have hadv := exec_ledger_advances (c := .complete record.responseId record.attempt status
        usage now) trivial w
      refine h.call_frame he hs hadv hledger hledger' ?_
      have htells : (Stage.serving record).Tells (exec (.ledger (.complete record.responseId
        record.attempt status usage now)) w).2 :=
          (h.tells hs).mono he hs (.of_advances hadv hledger')
      generalize (exec (.ledger (.complete record.responseId record.attempt status usage now))
          w).1 = reply
      rcases reply with e | ⟨⟩
      · trivial
      · intro e hmem
        obtain rfl := List.mem_singleton.mp hmem
        refine ⟨Or.inl rfl, ?_, (by rintro ⟨⟩)⟩
        rintro t ⟨⟩
        exact htells
  | @look won id =>
      refine h.call_frame he hs (.of_record fun _ ↦ rfl) (fun _ ↦ rfl) (fun _ ↦ rfl) ?_
      intro e hmem
      obtain ⟨e₀, hmem₀, rfl⟩ := List.mem_map.mp hmem
      obtain ⟨harchive, hturn, hst⟩ := h.tells hs e₀ hmem₀
      unfold Settlement.learn
      split_ifs with hid
      · refine ⟨harchive, fun t ht ↦ ?_, hst⟩
        obtain ⟨x, hx, rfl⟩ := Option.map_eq_some_iff.mp ht
        exact ⟨x, hid.1 ▸ hx, rfl⟩
      · exact ⟨harchive, hturn, hst⟩
  | clock =>
      exact h.call_frame he hs (.of_record fun _ ↦ rfl) (fun _ ↦ rfl) (fun _ ↦ rfl) (h.tells hs)
  | @replay won id cursor limit =>
      refine h.call_frame he hs hlog.advances hlog.marker hlog.snapshot ?_
      have hok := hsucceeds trivial
      cases hreply : (exec (.eventLog (.readAfter id cursor limit)) w).1 with
      | error e =>
          rw [hreply] at hok
          cases hok
      | ok batch => exact hlogged
  | sweep now => exact h.call_frame he hs hlog.advances hlog.marker hlog.snapshot hlogged
  | archive tenant now hmem hpending hturn hhome =>
      exact h.call_archive he hs tenant now hmem hturn hhome (hsucceeds trivial)
  | @advance won e tenant c' hmem =>
      have hrec := MemStore.Advances.of_record (exec_conversations_record
        (.advance tenant c' e.id) w)
      have hsnap := exec_conversations_snapshot (c := .advance tenant c' e.id) (w := w) trivial
      exact h.call_frame he hs hrec (exec_conversations_marker he.keyed trivial) hsnap
        ((h.tells hs).mono he hs (.of_advances hrec hsnap))
  | @release won e tenant c' status now hmem hcleared =>
      have hrec := MemStore.Advances.of_record (exec_conversations_record
        (.releaseActive tenant c' e.id status now) w)
      have hsnap := exec_conversations_snapshot (c := .releaseActive tenant c' e.id status now)
        (w := w) trivial
      obtain ⟨harchive, hturn, hst⟩ := h.tells hs e hmem
      refine h.call_clear he hs trivial ?_ ?_ (he.dead hs ⟨e, hmem, rfl⟩)
        ((h.tells hs).mono he hs (.of_advances hrec hsnap))
      · rcases exec_releaseActive he.keyed tenant c' e.id status now with heq | ⟨hheld, hmark⟩
        · exact Or.inl heq
        · exact Or.inr ⟨c', hheld, hmark⟩
      · -- Either the turn has no home, or its archive was tried and, as calls go, succeeded.
        obtain ⟨t, ht, hhome | htried⟩ := hcleared
        · intro x c hx _ hstored hanchor
          obtain ⟨y, hy, rfl⟩ := hturn t ht
          obtain rfl : y = x := Option.some.inj (hy.symm.trans hx)
          rw [ResponseRecord.turnInfo_home, if_pos hstored] at hhome
          rw [show y.conversationId = some c from
            ContextAnchor.conversationId_eq_some.mpr hanchor] at hhome
          cases hhome
        · exact hst (harchive.resolve_left htried)
  | @finish won e event hmem hid hattempt hkind =>
      refine h.call_frame he hs hlog.advances hlog.marker hlog.snapshot ?_
      have hnext : (Stage.settling won).next (.eventLog (.append event))
          (exec (.eventLog (.append event)) w).1 = .settling won := by
        generalize (exec (.eventLog (.append event)) w).1 = reply
        cases reply <;> rfl
      rw [hnext]
      exact hlogged
  | close now retain he' => exact h.call_frame he hs hlog.advances hlog.marker hlog.snapshot hlogged

end Ordered

end Steps

/-! ## Snapshots grow -/

theorem exec_entries {c : Call} (hc : ¬ c.Erases) (w : World) (c' : ConversationId) :
    (w.store.snapshot c').entries <+: ((exec c w).2.store.snapshot c').entries := by
  rcases c with _ | c | c | c | c | c
  · exact List.prefix_refl _
  · exact (exec_ledgerOnly c w).snapshot c' ▸ List.prefix_refl _
  · exact exec_eventLog_store c w ▸ List.prefix_refl _
  · by_cases hsame : c.Unarchiving
    · exact exec_conversations_snapshot hsame c' ▸ List.prefix_refl _
    · cases c with
      | appendTurn tenant id r commit now =>
          rcases exec_appendTurn (w := w) tenant id r commit now with ⟨e, heq⟩ | ⟨index, -, hsnap⟩
          · exact heq ▸ List.prefix_refl _
          · rw [hsnap]
            split_ifs with h
            · exact h ▸ entries_addTurn _ _ _
            · exact List.prefix_refl _
      | delete => exact absurd trivial hc
      | deleteByTenant => exact absurd trivial hc
      | _ => exact absurd trivial hsame
  · cases c <;> exact List.prefix_refl _
  · simp only [exec, MemStore.snapshot, execMode_inner]
    exact List.prefix_refl _

theorem not_erases_of_allowed {s : Stage} {c : Call} (h : s.Allowed c) : ¬ c.Erases := by
  cases h with
  | quiet _ hquiet => cases c <;>
      first | exact id | (rename_i c; cases c <;> first | exact id | exact hquiet.elim)
  | _ => exact id

theorem entries_run {w : World} {tr tr' : Trace} {q q' : State}
    (h : Run system TurnStep (Pool.init w) tr q)
    (h' : Run system (fun t ↦ TurnStep (tr ++ t)) q tr' q') (c : ConversationId) :
    (q.world.store.snapshot c).entries <+: (q'.world.store.snapshot c).entries := by
  induction h' with
  | nil => exact List.prefix_refl _
  | start _ _ ih => exact ih
  | turn hrun hi _ ih =>
      obtain ⟨s, hs, hfollow⟩ := (turn_keeps (fun _ _ _ hok ↦ hok.1) (h.append hrun)).session hi
      exact ih.trans (exec_entries (not_erases_of_allowed hfollow.1) _ c)

/-! ## Runs -/

theorem ordered_run {w : World} {tr : Trace} {q : State} (hw : w.store.Quiescent)
    (h : Run system OrderedStep (Pool.init w) tr q) :
    Ordered q.world (turn.track Stage.first tr) := by
  refine (Run.invariant turn Stage.first (fun s _ ↦ s.Restful)
    (I := fun tr q ss ↦ (Exclusive (minted tr) q.world ss ∧ Competing q ss) ∧ Ordered q.world ss)
    ?_ ?_ ?_ ?_ ?_ h).1.2
  · exact fun tr q j hok ↦ follows_job hok.1.1
  · exact fun {tr q ss} c _ ↦ exec_answers c q.world
  · rintro tr q ss j ⟨⟨he, hc⟩, ho⟩ hk hok
    rw [minted_start]
    refine ⟨⟨he.start hok.1.2, competing_start hk hc⟩, ho.turns, fun {i s} hs ↦ ?_⟩
    rcases Session.getElem?_advance_start hs with hs | ⟨-, rfl⟩
    · exact ho.tells hs
    · rcases Stage.first_cases j with ⟨heq, -⟩ | ⟨id, -, ⟨c, heq⟩ | ⟨a, heq⟩⟩ <;>
        rw [heq] <;> trivial
  · rintro tr q ss i j c k s ⟨⟨he, hc⟩, ho⟩ hk hi hs hallowed ⟨-, hsucceeds, hlookup⟩
    rw [minted_call]
    refine ⟨⟨he.call hs hallowed (noWriter_admitting hk hc hs hallowed fun holder hh ↦
      (hlookup holder hh).1) ?_, competing_call hi hs hc⟩, ho.call he hs hallowed ?_ hsucceeds⟩
    · rintro event rfl - hkind
      have hok := hsucceeds hkind
      cases hreply : (exec (.eventLog (.append event)) q.world).1 with
      | error e =>
          simp only [system, hreply] at hok
          cases hok
      | ok seq => exact ⟨seq, rfl⟩
    · rintro id c' holder rfl
      cases hallowed with
      | quiet hsteady => exact hsteady.elim
      | probe =>
          refine (hlookup holder ?_).2
          simp [probed, hc i _ c' hs rfl]
  · refine ⟨⟨exclusive_init hw, fun i s c hs ↦ by cases hs⟩, ?_, fun {i s} hs ↦ by cases hs⟩
    intro r x c hx
    have hnone : (Pool.init w : State).world.store.record r = none := hw.record r
    rw [hnone] at hx
    cases hx

theorem Sample.world_blank (c : ConversationId) (r : ResponseId) :
    ¬ Sample.world.store.Archived c r := by
  intro h
  cases h

end NovaChat
