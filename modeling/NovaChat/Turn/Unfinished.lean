import NovaChat.Interact.LeadsTo
import NovaChat.Interact.Local
import NovaChat.Lifecycle.Stages
import NovaChat.Turn.Provenance

/-!
# The input of an unfinished turn

A turn that is cancelled or reaped has no output of its own; what it reached is replayed from its
event buffer, and the turn is archived with its input in front.  The input does not come from the
buffer, yet the turn is archived only if the replay succeeds: a buffer that has not been created,
was swept, or has evicted what the replay asks for, costs the turn its input.
-/

namespace NovaChat

open Interact Prog MemConversationStore

/-! ## The replay -/

/-- The first event a read after `cursor` asks for. -/
def readFrom : Option ℕ → ℕ
  | none => 0
  | some after => satAdd after 1

/-- The log of `r` still has what a read after `cursor` asks for. -/
def EventLogStore.Serves (l : EventLogStore) (r : ResponseId) (cursor : Option ℕ) : Prop :=
  ∃ log ∈ l.logs.lookup r, log.swept = false ∧ log.evictedBefore ≤ readFrom cursor

instance (l : EventLogStore) (r : ResponseId) (cursor : Option ℕ) : Decidable (l.Serves r cursor) :=
  inferInstanceAs (Decidable (∃ log ∈ l.logs.lookup r, _ ∧ _))

/-- A read succeeds exactly on a log that serves it. -/
theorem readAfter_isOk {l : EventLogStore} {r : ResponseId} {cursor : Option ℕ} {limit : ℕ} :
    (MemResponseEventLog.readAfter l r cursor limit).isOk = true ↔ l.Serves r cursor := by
  unfold MemResponseEventLog.readAfter EventLogStore.Serves
  cases l.logs.lookup r with
  | none => simp [Except.isOk, Except.toBool]
  | some log =>
      simp only [Option.mem_def, Option.some.injEq, exists_eq_left']
      cases hswept : log.swept with
      | true => simp [Except.isOk, Except.toBool]
      | false =>
          cases cursor <;> simp only [Bool.false_eq_true, if_false, readFrom, true_and] <;>
            split_ifs <;> (simp_all [Except.isOk, Except.toBool]; try omega)

/-! ## What an operation on an unfinished turn is bound to do -/

/-- Whether a call has just closed `r` on behalf of somebody else than its executor. -/
def Call.aborts (r : ResponseId) : (c : Call) → c.Reply → Bool
  | .ledger (.cancel _ id _), reply => reply.isOk && decide (id = r)
  | .ledger (.reap _ _), .ok aborted => decide (r ∈ aborted.map AbortedClaim.responseId)
  | _, _ => false

/-- A call that archives a turn of `r` with this input. -/
def Call.Commits (c : ConversationId) (r : ResponseId) (input : List ResponseItem) : Call → Prop
  | .conversations (.appendTurn _ c' id commit _) => c' = c ∧ id = r ∧ commit.inputItems = input
  | _ => False

theorem Call.Commits.eq_appendTurn {c : ConversationId} {r : ResponseId}
    {input : List ResponseItem} {made : Call} (h : made.Commits c r input) :
    ∃ tenant commit now, made = .conversations (.appendTurn tenant c r commit now) := by
  unfold Call.Commits at h
  split at h
  · obtain ⟨rfl, rfl, -⟩ := h
    exact ⟨_, _, _, rfl⟩
  · exact h.elim

/-- The event log answers the reads of `r`, and the ledger knows its turn. -/
def Supplied (r : ResponseId) (t : TurnInfo) : Exchange Call Call.Reply → Prop
  | ⟨.ledger (.get id), reply⟩ => id = r → ∃ x, found reply = some x ∧ x.turnInfo = t
  | ⟨.ledger (.reap _ _), .ok aborted⟩ => ∀ a ∈ aborted, a.responseId = r → a.turnInfo = t
  | ⟨.eventLog (.readAfter id _ _), reply⟩ => id = r → reply.isOk = true
  | _ => True

/-- Calls that abort nothing. -/
def Call.Unaborting : Call → Prop
  | .ledger (.cancel ..) | .ledger (.reap ..) => False
  | _ => True

theorem not_aborts {c : Call} (hc : c.Unaborting) (r : ResponseId) (reply : c.Reply) :
    ¬ c.aborts r reply = true := by
  rcases c with _ | c | c | c | c | c <;> first | exact Bool.false_ne_true | skip
  cases c <;> first | exact hc.elim | exact Bool.false_ne_true

theorem unaborting_of_conversing {c : Call} (hc : c.Conversing) : c.Unaborting := by
  rcases hc with hc | ⟨call, rfl⟩
  · rcases c with _ | c | c | c | c | c <;> first | trivial | cases c <;> trivial
  · trivial

theorem unaborting_settleReaped (cfg : Config) (rounds now : ℕ) (claim : AbortedClaim) :
    (settleReaped cfg rounds now claim).OnlyCalls Call.Unaborting := by
  refine ⟨trivial, fun _ ↦ ⟨trivial, fun _ ↦ ?_⟩⟩
  cases claim.conversationId with
  | none => exact trivial
  | some c =>
      dsimp only
      split
      · exact ((archiving_archiveReplayed ..).mono fun _ hc ↦
          unaborting_of_conversing hc.conversing).bind
          fun _ ↦ ⟨trivial, fun _ ↦ trivial⟩
      · exact ⟨trivial, fun _ ↦ trivial⟩

theorem unaborting_settleAll (cfg : Config) (rounds now : ℕ) (claims : List AbortedClaim) :
    (settleAll cfg rounds now claims).OnlyCalls Call.Unaborting := by
  induction claims with
  | nil => exact trivial
  | cons claim claims ih => exact (unaborting_settleReaped cfg rounds now claim).bind fun _ ↦ ih

section Bound

variable {r : ResponseId} {t : TurnInfo} {c : ConversationId}

theorem replay_ok {rounds : ℕ} {us : Exchanges} {result : Except EventLogError (List ResponseItem)}
    (h : Path (replayCompletedItems rounds r) us result) (hus : ∀ x ∈ us, Supplied r t x) :
    ∃ items, result = .ok items := by
  refine Path.iterate (fun result ↦ ∃ items, result = .ok items)
    (fun s xs result hround hxs ↦ ?_) rounds _ us result h hus
  simp only [replayRound, EventLog.readAfter, perform_bind, path_call] at hround
  obtain ⟨reply, ys, rfl, hround⟩ := hround
  have hok : reply.isOk = true := hxs ⟨.eventLog (.readAfter r s.1 replayPage), reply⟩ (by simp) rfl
  rcases reply with e | (_ | ⟨e, es⟩)
  · cases hok
  · obtain ⟨-, heq⟩ := path_ret.mp hround
    exact ⟨_, Sum.inr.inj heq⟩
  · cases (path_ret.mp hround).2

theorem ensures_archiveReplayed (rounds : ℕ) (tenant : TenantId) (input : List ResponseItem)
    (status : ResponseStatus) (now : ℕ) :
    Ensures (Supplied r t) (fun x ↦ x.call.Commits c r input)
      (archiveReplayed rounds tenant c r input status now) := by
  refine .bind fun us result hus hsupplied ↦ ?_
  obtain ⟨items, rfl⟩ := replay_ok hus hsupplied
  exact .call fun _ _ ↦ Or.inl ⟨rfl, rfl, rfl⟩

/-- A cancellation that closes `r` archives its input. -/
theorem leadsTo_cancel (cfg : Config) (rounds : ℕ) (tenant : TenantId) (id : ResponseId)
    (hhome : t.home = some c) :
    LeadsTo (Supplied r t) (fun x ↦ x.call.aborts r x.reply = true)
      (fun x ↦ x.call.Commits c r t.input) (ResponsesService.cancel cfg rounds tenant id) := by
  refine .call (fun _ _ h ↦ by cases h) fun now ↦ .call (fun reply _ haborts ↦ ?_) fun reply ↦ ?_
  · rcases reply with e | ⟨⟩
    · cases haborts
    obtain rfl : id = r := by simpa [Call.aborts, Except.isOk, Except.toBool] using haborts
    refine .call fun reply hsupplied ↦ Or.inr ?_
    obtain ⟨x, hfound, rfl⟩ := hsupplied rfl
    rw [ResponseRecord.turnInfo_home] at hhome
    split_ifs at hhome with hstored
    show Ensures _ _ (ResponsesService.archiveCancelled rounds tenant id (found reply) now >>= _)
    refine .bind_left ?_ _
    simp only [hfound, ResponsesService.archiveCancelled, hstored, hhome]
    exact ensures_archiveReplayed rounds tenant _ _ now
  · rcases reply with e | ⟨⟩
    · exact .ret _
    · refine .of_onlyCalls (OnlyCalls.mono (P := Call.Unaborting) ?_ fun c hc ↦ not_aborts hc r)
      have hconv : ∀ c : Call, c.Conversing → c.Unaborting := fun _ ↦ unaborting_of_conversing
      refine ⟨trivial, fun reply ↦
        ((archiving_archiveCancelled ..).mono fun c hc ↦ hconv c hc.conversing).bind fun _ ↦
        ((conversing_releaseCancelled ..).mono hconv).bind fun _ ↦
          ⟨trivial, fun _ ↦ ⟨trivial, fun _ ↦ trivial⟩⟩⟩

theorem ensures_settleAll (cfg : Config) (rounds now : ℕ) (hhome : t.home = some c)
    {claims : List AbortedClaim} {claim : AbortedClaim} (hmem : claim ∈ claims)
    (hid : claim.responseId = r) (hturn : claim.turnInfo = t) :
    Ensures (Supplied r t) (fun x ↦ x.call.Commits c r t.input)
      (settleAll cfg rounds now claims) := by
  induction claims with
  | nil => cases hmem
  | cons first claims ih =>
      rcases List.mem_cons.mp hmem with rfl | hmem
      · subst hid hturn
        obtain ⟨hstore, hconv⟩ : claim.store = true ∧ claim.conversationId = some c := by
          unfold TurnInfo.home AbortedClaim.turnInfo at hhome
          split_ifs at hhome with hstore
          exact ⟨hstore, hhome⟩
        refine .bind_left (.call fun _ _ ↦ Or.inr (.call fun _ _ ↦ Or.inr ?_)) _
        simp only [hstore, hconv, if_true]
        exact .bind_left (ensures_archiveReplayed rounds _ _ _ now) _
      · exact .bind_right fun _ ↦ ih hmem

theorem leadsTo_tick (cfg : Config) (rounds : ℕ) (hhome : t.home = some c) :
    LeadsTo (Supplied r t) (fun x ↦ x.call.aborts r x.reply = true)
      (fun x ↦ x.call.Commits c r t.input) (tick cfg rounds) := by
  refine .call (fun _ _ h ↦ by cases h) fun now ↦ .call (fun reply hsupplied haborts ↦ ?_)
    fun reply ↦ ?_
  · rcases reply with e | aborted
    · cases haborts
    obtain ⟨claim, hmem, hid⟩ := List.mem_map.mp (of_decide_eq_true haborts)
    exact .bind_left (ensures_settleAll cfg rounds now hhome hmem hid (hsupplied claim hmem hid)) _
  · rcases reply with e | aborted
    · exact .ret _
    · refine .of_onlyCalls (OnlyCalls.mono (P := Call.Unaborting) ?_ fun c hc ↦ not_aborts hc r)
      exact (unaborting_settleAll ..).bind fun _ ↦ ⟨trivial, fun _ ↦ trivial⟩

end Bound

/-! ## What is archived -/

/-- The turn of `r` is in the snapshot of `c`, and begins with `input`. -/
def MemStore.HoldsTurn (s : MemStore) (c : ConversationId) (r : ResponseId)
    (input : List ResponseItem) : Prop :=
  s.Archived c r ∧ ∃ commit : TurnCommit, commit.inputItems = input ∧
    turnEntries commit <:+: (s.snapshot c).entries

theorem allowed_appendTurn {s : Stage} {tenant : TenantId} {c : ConversationId} {r : ResponseId}
    {commit : TurnCommit} {now : ℕ}
    (h : jobs.allowed s (.conversations (.appendTurn tenant c r commit now))) :
    ∃ won e t, s = .settling won ∧ e ∈ won ∧ e.id = r ∧ e.turn = some t ∧ t.home = some c ∧
      commit.inputItems = t.input := by
  rcases h with h | ⟨-, h⟩
  · cases h with
    | quiet _ hquiet => exact hquiet.elim
    | archive _ _ he _ hturn hhome hinput => exact ⟨_, _, _, rfl, he, rfl, hturn, hhome, hinput⟩
  · exact h.elim

section Runs

variable {ok : Trace → State → Event Call Call.Reply Job → Prop} {w : World} {tr : Trace}
  {q : State} {c : ConversationId} {r : ResponseId}

/-- What is archived begins with the input that was filed. -/
theorem holdsTurn_run (hok : ∀ tr q e, ok tr q e → MintStep tr q e) (hw : w.store.Unfiled)
    (hblank : ∀ c r, ¬ w.store.Archived c r) (h : Run system ok (Pool.init w) tr q)
    (ha : q.world.store.Archived c r) :
    ∃ o ∈ filings tr, o.id = r ∧ q.world.store.HoldsTurn c r o.turn.input := by
  induction h with
  | nil => exact absurd ha (hblank c r)
  | start _ _ ih =>
      obtain ⟨o, ho, hid, hholds⟩ := ih ha
      exact ⟨o, by rwa [filings_start], hid, hholds⟩
  | @turn tr q i j call k hrun hi _ ih =>
      have hmono : ∀ o ∈ filings tr, o ∈ filings (tr ++ [.call i call (exec call q.world).1]) := by
        intro o ho
        rw [filings_call]
        exact List.mem_append_left _ ho
      -- A turn that was there already is there still, if the snapshot only grew.
      have hkept : q.world.store.Archived c r → (q.world.store.snapshot c).entries <+:
          ((exec call q.world).2.store.snapshot c).entries →
          ∃ o ∈ filings (tr ++ [.call i call (exec call q.world).1]), o.id = r ∧
            (exec call q.world).2.store.HoldsTurn c r o.turn.input := by
        intro hold hgrows
        obtain ⟨o, ho, hid, -, commit, hinput, hinfix⟩ := ih hold
        exact ⟨o, hmono o ho, hid, ha, commit, hinput, hinfix.trans hgrows.isInfix⟩
      rcases exec_snapshot_cases call q.world c with
        ⟨tenant, r', commit, now, rfl⟩ | hsame | ⟨herased, -⟩
      · obtain ⟨s, hs, hfollow⟩ := (provenance_run hok hw hrun).2.session hi
        obtain ⟨won, e, t, rfl, he, rfl, hturn, -, hinput⟩ := allowed_appendTurn hfollow.1
        obtain ⟨tenant', hfiled⟩ := (provenance_run hok hw hrun).1.knows hs e he t hturn
        rcases exec_appendTurn (w := q.world) tenant c e.id commit now with
          ⟨err, heq⟩ | ⟨index, -, hsnap⟩
        · refine hkept ?_ ?_ <;> simp only [system, heq, Pool.turn] at ha ⊢
          · exact ha
          · exact List.prefix_refl _
        · have hadd : (exec (.conversations (.appendTurn tenant c e.id commit now))
              q.world).2.store.snapshot c = addTurn (q.world.store.snapshot c) e.id commit :=
            (hsnap c).trans (if_pos rfl)
          have hgrows := hadd ▸ entries_addTurn (q.world.store.snapshot c) e.id commit
          have ha' : ((addTurn (q.world.store.snapshot c) e.id commit).appended.lookup r).isSome =
              true := hadd ▸ ha
          rcases (appended_addTurn _ _ _ _).mp ha' with rfl | hold
          · cases hlook : (q.world.store.snapshot c).appended.lookup e.id with
            | some index => exact hkept (by rw [MemStore.Archived, hlook]; rfl) hgrows
            | none =>
                exact ⟨_, hmono _ hfiled, rfl, ha, commit, hinput,
                  hadd ▸ turnEntries_addTurn commit hlook⟩
          · exact hkept hold hgrows
      · exact hkept (by rw [MemStore.Archived, ← hsame]; exact ha) (hsame ▸ List.prefix_refl _)
      · have ha' : (({} : Snapshot).appended.lookup r).isSome = true := herased ▸ ha
        cases ha'

/-- While conversation `c` is there, it is not deleted. -/
def Remains (c : ConversationId) (q : State) : Event Call Call.Reply Job → Prop
  | .start _ => True
  | .call _ made _ => (q.world.store.conversation c).isSome = true →
      ((exec made q.world).2.store.conversation c).isSome = true

/-- A turn that was appended to a conversation is archived as long as the conversation is there. -/
theorem archived_run (hok : ∀ tr q e, ok tr q e → Remains c q e)
    (h : Run system ok (Pool.init w) tr q) {i : ℕ} {tenant : TenantId} {commit : TurnCommit}
    {now index : ℕ}
    (he : .call i (.conversations (.appendTurn tenant c r commit now)) (.ok index) ∈ tr) :
    q.world.store.Archived c r ∧ (q.world.store.conversation c).isSome = true := by
  induction h with
  | nil => cases he
  | start _ _ ih =>
      rcases List.mem_append.mp he with he | he
      · exact ih he
      · cases List.mem_singleton.mp he
  | @turn tr q k j call cont hrun _ hstep ih =>
      rcases List.mem_append.mp he with he | he
      · obtain ⟨harchived, hconv⟩ := ih he
        have hconv' : ((exec call q.world).2.store.conversation c).isSome = true :=
          hok _ _ _ hstep hconv
        refine ⟨?_, hconv'⟩
        rcases exec_snapshot_cases call q.world c with
          ⟨tenant', r', commit', now', rfl⟩ | hsame | ⟨-, hgone⟩
        · exact archived_appendTurn tenant' c r' commit' now' harchived
        · show ((exec call q.world).2.store.snapshot c).appended.lookup r |>.isSome
          rw [hsame]
          exact harchived
        · rw [hgone] at hconv'
          cases hconv'
      · obtain ⟨rfl, rfl, heq⟩ := Event.call.inj (List.mem_singleton.mp he)
        have hreply : (exec (.conversations (.appendTurn tenant c r commit now)) q.world).1 =
            .ok index := (eq_of_heq heq).symm
        rcases MemConversationStore.appendTurn_cases q.world.store tenant c r commit with
          ⟨e, heq⟩ | ⟨x, index', hx, heq⟩
        · simp [exec, execConversations, heq] at hreply
        · refine ⟨?_, ?_⟩
          · rcases exec_appendTurn (w := q.world) tenant c r commit now with
              ⟨e, heq'⟩ | ⟨index', -, hsnap⟩
            · rw [heq'] at hreply
              cases hreply
            · show ((exec (.conversations (.appendTurn tenant c r commit now))
                q.world).2.store.snapshot c).appended.lookup r |>.isSome
              rw [hsnap, if_pos rfl]
              exact (appended_addTurn _ _ _ _).mpr (Or.inl rfl)
          · show ((exec (.conversations (.appendTurn tenant c r commit now))
              q.world).2.store.conversation c).isSome = true
            simp only [exec, execConversations, heq, World.withStore_snd]
            exact Option.isSome_iff_exists.mpr ⟨x, (owned_eq_some.mp hx).1⟩

end Runs

/-! ## Every run -/

/-- The operations that close a response on behalf of somebody else. -/
def Job.Aborts : Job → Prop
  | .cancel .. | .tick .. => True
  | _ => False

/-- Process `i` never fails to append the turn of `r` to `c`. -/
def Appends (i : ℕ) (r : ResponseId) (c : ConversationId) : Event Call Call.Reply Job → Prop
  | .call k (.conversations (.appendTurn _ c' r' _ _)) reply =>
    k = i → c' = c → r' = r → reply.isOk = true
  | _ => True

/-- When process `i` reads the log of `r`, the log serves it, and when it looks `r` up, the record
is there. -/
def ReadsBack (i : ℕ) (r : ResponseId) (q : State) : Event Call Call.Reply Job → Prop
  | .call k (.eventLog (.readAfter id cursor _)) _ => k = i → id = r → q.world.log.Serves id cursor
  | .call k (.ledger (.get id)) _ =>
    k = i → id = r → (q.world.store.record id).isSome = true
  | _ => True

/-- Runs of all jobs over a conversation that stays, whose snapshot takes the turn. -/
def UnfinishedStep (i : ℕ) (r : ResponseId) (c : ConversationId) (tr : Trace) (q : State)
    (e : Event Call Call.Reply Job) : Prop :=
  MintStep tr q e ∧ Remains c q e ∧ Appends i r c e

def ReplayedStep (i : ℕ) (r : ResponseId) (c : ConversationId) (tr : Trace) (q : State)
    (e : Event Call Call.Reply Job) : Prop :=
  UnfinishedStep i r c tr q e ∧ ReadsBack i r q e

section Decidable

variable (i : ℕ) (r : ResponseId) (c : ConversationId) (tr : Trace) (q : State)

instance : DecidablePred (Remains c q)
  | .start _ => .isTrue trivial
  | .call _ made _ => inferInstanceAs (Decidable ((q.world.store.conversation c).isSome = true →
      ((exec made q.world).2.store.conversation c).isSome = true))

def appendsCheck (i : ℕ) (r : ResponseId) (c : ConversationId) :
    Event Call Call.Reply Job → Bool
  | .call k (.conversations (.appendTurn _ c' r' _ _)) reply =>
    decide (k = i → c' = c → r' = r → reply.isOk = true)
  | _ => true

theorem appendsCheck_iff {e : Event Call Call.Reply Job} :
    appendsCheck i r c e = true ↔ Appends i r c e := by
  unfold appendsCheck Appends
  split
  · exact decide_eq_true_iff
  · exact iff_of_true rfl trivial

def readsBackCheck (i : ℕ) (r : ResponseId) (q : State) : Event Call Call.Reply Job → Bool
  | .call k (.eventLog (.readAfter id cursor _)) _ =>
    decide (k = i → id = r → q.world.log.Serves id cursor)
  | .call k (.ledger (.get id)) _ =>
    decide (k = i → id = r → (q.world.store.record id).isSome = true)
  | _ => true

theorem readsBackCheck_iff {e : Event Call Call.Reply Job} :
    readsBackCheck i r q e = true ↔ ReadsBack i r q e := by
  unfold readsBackCheck ReadsBack
  split
  · exact decide_eq_true_iff
  · exact decide_eq_true_iff
  · exact iff_of_true rfl trivial

instance : DecidablePred (Appends i r c) := fun _ ↦ decidable_of_iff _ (appendsCheck_iff i r c)

instance : DecidablePred (ReadsBack i r q) := fun _ ↦ decidable_of_iff _ (readsBackCheck_iff i r q)

instance : DecidablePred (UnfinishedStep i r c tr q) := fun _ ↦
  inferInstanceAs (Decidable (_ ∧ _ ∧ _))

instance : DecidablePred (ReplayedStep i r c tr q) := fun _ ↦ inferInstanceAs (Decidable (_ ∧ _))

end Decidable

/-- Process `i` has closed `r` on behalf of somebody else. -/
def Aborted (i : ℕ) (r : ResponseId) (tr : Trace) : Prop :=
  ∃ x ∈ exchangesOf i tr, x.call.aborts r x.reply = true

instance (i : ℕ) (r : ResponseId) (tr : Trace) : Decidable (Aborted i r tr) :=
  inferInstanceAs (Decidable (∃ x ∈ exchangesOf i tr, _))

/-- What process `i` exchanged about `r` is as its turn needs it. -/
theorem supplied_run {i : ℕ} {r : ResponseId} {c : ConversationId} {w : World} {tr : Trace}
    {q : State} (hw : w.store.Unfiled) (h : Run system (ReplayedStep i r c) (Pool.init w) tr q)
    {o : Origin} (ho : o ∈ filings tr) (hid : o.id = r) {x : Exchange Call Call.Reply}
    (hx : x ∈ exchangesOf i tr) : Supplied r o.turn x := by
  subst hid
  have hp := (provenance_run (fun _ _ _ h ↦ h.1.1) hw h).1
  obtain ⟨made, reply⟩ := x
  have he := mem_exchangesOf.mp hx
  obtain ⟨tr₁, q₁, hrun, hok, hreply⟩ := h.of_mem he
  unfold Supplied
  split
  · next id reply heq =>
      obtain ⟨rfl, hsame⟩ := Exchange.mk.inj heq
      obtain rfl := eq_of_heq hsame
      rintro rfl
      obtain ⟨x, hrec⟩ := Option.isSome_iff_exists.mp (hok.2 rfl rfl)
      obtain rfl : reply = .ok (some x) := hreply.trans (congrArg Except.ok hrec)
      have hfiled : x.origin ∈ filings tr := hp.told he _ (List.mem_singleton_self _)
      have hkey := (provenance_run (fun _ _ _ h ↦ h.1.1) hw hrun).1.keyed.record hrec
      exact ⟨x, rfl, congrArg Origin.turn (hp.unique hfiled ho hkey)⟩
  · next now ttl aborted heq =>
      obtain ⟨rfl, hsame⟩ := Exchange.mk.inj heq
      obtain rfl := eq_of_heq hsame
      intro a ha hid
      have hfiled : a.origin ∈ filings tr := hp.told he _ (List.mem_map_of_mem ha)
      exact congrArg Origin.turn (hp.unique hfiled ho hid)
  · next id cursor limit reply heq =>
      obtain ⟨rfl, hsame⟩ := Exchange.mk.inj heq
      obtain rfl := eq_of_heq hsame
      rintro rfl
      rw [hreply]
      exact readAfter_isOk.mpr (hok.2 rfl rfl)
  · trivial

/-- Once a cancellation or a tick that closed `r` has returned, the conversation of `r` has its turn
with its input in front: in every run in which the operation found the record and a log that served
its replay. -/
theorem input_archived {w : World} {tr : Trace} {q : State} {i : ℕ} {j : Job} {r : ResponseId}
    {c : ConversationId} {o : Origin} (hw : w.store.Unfiled)
    (hblank : ∀ c r, ¬ w.store.Archived c r)
    (h : Run system (ReplayedStep i r c) (Pool.init w) tr q)
    (hdone : q.returned i = true) (hjob : q.jobAt i = some j) (hj : j.Aborts)
    (haborted : Aborted i r tr) (ho : o ∈ filings tr) (hid : o.id = r)
    (hhome : o.turn.home = some c) :
    q.world.store.HoldsTurn c r o.turn.input := by
  have hpath : Path j.prog (exchangesOf i tr) () := h.path hdone hjob
  obtain ⟨x, hx, haborts⟩ := haborted
  obtain ⟨ys, zs, hsplit⟩ := List.append_of_mem hx
  have hleads : LeadsTo (Supplied r o.turn) (fun x ↦ x.call.aborts r x.reply = true)
      (fun x ↦ x.call.Commits c r o.turn.input) j.prog := by
    cases j with
    | cancel cfg rounds tenant id => exact (leadsTo_cancel cfg rounds tenant id hhome).map _
    | tick cfg rounds => exact leadsTo_tick cfg rounds hhome
    | _ => exact hj.elim
  obtain ⟨⟨made, reply⟩, hz, hcommits⟩ := hleads ys x zs () (hsplit ▸ hpath)
    (fun y hy ↦ supplied_run hw h ho hid (hsplit ▸ hy)) haborts
  have hmem : (⟨made, reply⟩ : Exchange Call Call.Reply) ∈ exchangesOf i tr := by
    rw [hsplit]
    simp [hz]
  obtain ⟨tenant, commit, now, rfl⟩ := hcommits.eq_appendTurn
  have he := mem_exchangesOf.mp hmem
  obtain ⟨tr₁, q₁, -, hok, -⟩ := h.of_mem he
  rcases reply with e | index
  · cases hok.1.2.2 rfl rfl rfl
  obtain ⟨harchived, -⟩ := archived_run (fun _ _ _ h ↦ h.1.2.1) h he
  obtain ⟨o', ho', hid', hholds⟩ := holdsTurn_run (fun _ _ _ h ↦ h.1.1) hw hblank h harchived
  obtain rfl := (provenance_run (fun _ _ _ h ↦ h.1.1) hw h).1.unique ho' ho (hid'.trans hid.symm)
  exact hholds

/-- Cancel the sample turn. -/
def Sample.stop : Action Job := .start (.cancel cfg 4 tenant (id 1))

/-- Whether the cancellation of the sample turn, as process 1, has closed it and returned. -/
def Sample.stopped (tr : Trace) (q : State) : Bool :=
  q.returned 1 && (match q.jobAt 1 with
    | some (.cancel ..) => true
    | _ => false) && decide (Aborted 1 (id 1) tr) &&
    (filings tr).any fun o ↦ decide (o.id = id 1) && decide (o.turn.home = some talk) &&
      decide (o.turn.input = spec.inputItems)

theorem Sample.stopped_eq_true {tr : Trace} {q : State} (h : Sample.stopped tr q = true) :
    q.returned 1 = true ∧ (∃ j, q.jobAt 1 = some j ∧ j.Aborts) ∧ Aborted 1 (id 1) tr ∧
      ∃ o ∈ filings tr, o.id = id 1 ∧ o.turn.home = some talk ∧ o.turn.input = spec.inputItems := by
  simp only [Sample.stopped, Bool.and_eq_true, decide_eq_true_eq, List.any_eq_true] at h
  obtain ⟨⟨⟨hdone, hjob⟩, haborted⟩, o, ho, ⟨hid, hhome⟩, hinput⟩ := h
  refine ⟨hdone, ?_, haborted, o, ho, hid, hhome, hinput⟩
  split at hjob
  · next hj => exact ⟨_, hj, trivial⟩
  · cases hjob

/-- The turn is cancelled between its record and its announcement, when its log is still to be
created. -/
theorem input_lost : ¬ ∀ (w : World) (tr : Trace) (q : State) (i : ℕ) (j : Job) (r : ResponseId)
    (c : ConversationId) (o : Origin), w.store.Unfiled → (∀ c r, ¬ w.store.Archived c r) →
    Run system (UnfinishedStep i r c) (Pool.init w) tr q → q.returned i = true →
    q.jobAt i = some j → j.Aborts → Aborted i r tr → o ∈ filings tr → o.id = r →
    o.turn.home = some c → q.world.store.HoldsTurn c r o.turn.input := by
  intro hclaim
  obtain ⟨tr, q, h, htest⟩ := Run.exists_of_schedule system (Pool.init Sample.world)
    (fun tr q e ↦ decide (UnfinishedStep 1 (Sample.id 1) Sample.talk tr q e))
    (fun tr q ↦ Sample.stopped tr q &&
      decide (¬ q.world.store.Archived Sample.talk (Sample.id 1))) (fun _ _ _ ↦ of_decide_eq_true)
    (Sample.post 1 :: Sample.steps 0 5 ++ Sample.stop :: Sample.steps 1 8) (by decide +kernel)
  obtain ⟨hstopped, hmissing⟩ := Bool.and_eq_true_iff.mp htest
  obtain ⟨hdone, ⟨j, hjob, hj⟩, haborted, o, ho, hid, hhome, -⟩ := Sample.stopped_eq_true hstopped
  exact of_decide_eq_true hmissing (hclaim Sample.world tr q 1 j (Sample.id 1) Sample.talk o
    Sample.world_unfiled Sample.world_blank h hdone hjob hj haborted ho hid hhome).1

/-- Cancelled after its announcement, the turn keeps its input. -/
theorem input_archived_stopped : ∃ tr q,
    Run system (ReplayedStep 1 (Sample.id 1) Sample.talk) (Pool.init Sample.world) tr q ∧
      Aborted 1 (Sample.id 1) tr ∧
      q.world.store.HoldsTurn Sample.talk (Sample.id 1) Sample.spec.inputItems := by
  obtain ⟨tr, q, h, htest⟩ := Run.exists_of_schedule system (Pool.init Sample.world)
    (fun tr q e ↦ decide (ReplayedStep 1 (Sample.id 1) Sample.talk tr q e)) Sample.stopped
    (fun _ _ _ ↦ of_decide_eq_true)
    (Sample.post 1 :: Sample.steps 0 6 ++ Sample.stop :: Sample.steps 1 10) (by decide +kernel)
  obtain ⟨hdone, ⟨j, hjob, hj⟩, haborted, o, ho, hid, hhome, hinput⟩ := Sample.stopped_eq_true htest
  refine ⟨tr, q, h, haborted, hinput ▸ ?_⟩
  exact input_archived Sample.world_unfiled Sample.world_blank h hdone hjob hj haborted ho hid hhome

end NovaChat
