import NovaChat.Turn.Funnel

/-!
# The fence of an append

An append checks the fence under the ledger's lock and inserts under the log's lock, and the
two are separate steps.  Between them a terminal transition can move the fence.  Where none
does, every fenced event is inserted while its attempt is running, and no fenced event comes
after a terminal one; `fence_race` is a run in which one does.
-/

namespace NovaChat

open Interact

/-! ## Appends in two steps -/

/-- Carry out an append as the two locked halves it consists of. -/
def splitAppend : (c : Call) → Service c.Reply
  | .eventLog (.append event) => do
    match ← EventLog.fenceCheck event with
    | .error e => return .error e
    | .ok () => EventLog.insert event
  | c => Prog.perform c

/-- Undisturbed, the two halves are the append. -/
theorem run_splitAppend (c : Call) (w : World) :
    (splitAppend c).run exec w = some (exec c w) := by
  rcases c with _ | c | c | c | c | c
  · rfl
  · rfl
  · cases c with
    | append event =>
        have hfence : (exec (.eventLog (.fenceCheck event)) w) =
            (MemResponseEventLog.fenceCheck w.store event, w) := rfl
        simp only [splitAppend, EventLog.fenceCheck, Prog.perform_bind, Prog.run_call, hfence]
        cases hcheck : MemResponseEventLog.fenceCheck w.store event with
        | error e =>
            simp only [exec, execEventLog, MemResponseEventLog.append, hcheck]
            rfl
        | ok _ =>
            simp only [EventLog.insert, Prog.perform, Prog.run_call, Prog.run_ret, exec,
              execEventLog, MemResponseEventLog.append, hcheck]
    | _ => rfl
  · rfl
  · rfl
  · rfl

/-- The system in which the two halves of an append are two steps. -/
def splitSystem : System Call Call.Reply World Job where
  exec := exec
  prog j := j.prog.handle splitAppend

/-- The session of a turn whose appends are split: its stage, and the event whose insertion is
outstanding. -/
def splitTurn : Session Call Call.Reply where
  State := Stage × Option AppendEvent
  allowed
    | (_, some event), c => c = .eventLog (.insert event)
    | (s, none), .eventLog (.fenceCheck event) => s.Allowed (.eventLog (.append event))
    | (_, none), .eventLog (.append _) => False
    | (s, none), c => s.Allowed c
  answers := Call.Answers
  next
    | (s, none), .eventLog (.fenceCheck event), r =>
      match r with
      | .ok () => (s, some event)
      | .error e => (s.next (.eventLog (.append event)) (.error e), none)
    | (s, some event), .eventLog (.insert _), r => (s.next (.eventLog (.append event)) r, none)
    | (s, p), c, r => (s.next c r, p)
  rest st := st.1.Restful ∧ st.2 = none

theorem whole_of_allowed {s : Stage} {c : Call} (h : s.Allowed c) :
    (∃ event, c = .eventLog (.append event)) ∨ c.Whole := by
  cases h with
  | quiet _ hquiet =>
      rcases c with _ | c | c | c | c | c
      · exact Or.inr trivial
      · exact Or.inr trivial
      · cases c <;> first | exact hquiet.elim | exact Or.inr trivial
      · exact Or.inr trivial
      · exact Or.inr trivial
      · exact Or.inr trivial
  | announce => exact Or.inl ⟨_, rfl⟩
  | emit => exact Or.inl ⟨_, rfl⟩
  | finish => exact Or.inl ⟨_, rfl⟩
  | _ => exact Or.inr trivial

theorem splitTurn_whole {s : Stage} {c : Call} (hc : c.Whole) :
    (splitTurn.allowed (s, none) c ↔ s.Allowed c) ∧
      ∀ r, splitTurn.next (s, none) c r = (s.next c r, none) := by
  rcases c with _ | c | c | c | c | c
  · exact ⟨Iff.rfl, fun _ ↦ rfl⟩
  · exact ⟨Iff.rfl, fun _ ↦ rfl⟩
  · cases c <;> first | exact hc.elim | exact ⟨Iff.rfl, fun _ ↦ rfl⟩
  · exact ⟨Iff.rfl, fun _ ↦ rfl⟩
  · exact ⟨Iff.rfl, fun _ ↦ rfl⟩
  · exact ⟨Iff.rfl, fun _ ↦ rfl⟩

/-- A split process checks a fence, inserts what it checked, or makes a whole call. -/
theorem splitTurn_cases {s : Stage} {p : Option AppendEvent} {c : Call}
    (h : splitTurn.allowed (s, p) c) :
    (∃ event, p = some event ∧ c = .eventLog (.insert event)) ∨
      p = none ∧ ((∃ event, c = .eventLog (.fenceCheck event) ∧
        s.Allowed (.eventLog (.append event))) ∨ c.Whole ∧ s.Allowed c) := by
  cases p with
  | some event => exact Or.inl ⟨event, rfl, h⟩
  | none =>
      refine Or.inr ⟨rfl, ?_⟩
      by_cases hcheck : ∃ event, c = .eventLog (.fenceCheck event)
      · obtain ⟨event, rfl⟩ := hcheck
        exact Or.inl ⟨event, rfl, h⟩
      · have hallowed : s.Allowed c := by
          rcases c with _ | c | c | c | c | c
          · exact h
          · exact h
          · cases c with
            | append => exact h.elim
            | fenceCheck event => exact absurd ⟨event, rfl⟩ hcheck
            | _ => exact h
          · exact h
          · exact h
          · exact h
        rcases whole_of_allowed hallowed with ⟨event, rfl⟩ | hwhole
        · exact h.elim
        · exact Or.inr ⟨hwhole, hallowed⟩

/-- A program that keeps to the protocol of a turn still does with its appends split. -/
theorem follows_split {α : Type} {p : Service α} {post : Stage → α → Prop} {s : Stage}
    (h : turn.Follows post s p) :
    splitTurn.Follows (fun st a ↦ post st.1 a ∧ st.2 = none) (s, none)
      (p.handle splitAppend) := by
  induction p generalizing s with
  | ret a => exact ⟨h, rfl⟩
  | stall => exact ⟨h, rfl⟩
  | call c k ih =>
      obtain ⟨hallowed, hk⟩ := h
      rcases whole_of_allowed hallowed with ⟨event, rfl⟩ | hwhole
      · refine ⟨hallowed, fun r _ ↦ ?_⟩
        rcases r with e | ⟨⟩
        · exact ih _ (hk (.error e) trivial)
        · exact ⟨rfl, fun r _ ↦ ih r (hk r trivial)⟩
      · have hperform : splitAppend c = Prog.perform c := by
          rcases c with _ | c | c | c | c | c <;>
            first | rfl | (cases c <;> first | rfl | exact hwhole.elim)
        rw [Prog.handle_call, hperform]
        refine ⟨(splitTurn_whole hwhole).1.mpr hallowed, fun r hr ↦ ?_⟩
        rw [(splitTurn_whole hwhole).2 r]
        exact ih r (hk r hr)

/-! ## Running records -/

/-- Only a terminal transition moves the fence of a running record. -/
theorem inForce_ledger {c : LedgerCall} (hc : c.Settled) {w : World} {r : ResponseId} {a : Attempt}
    (h : w.InForce r a)
    (hwin : Call.wins r (.ledger c) (exec (.ledger c) w).1 = false) :
    (exec (.ledger c) w).2.InForce r a := by
  obtain ⟨x, hx, hrun, ha⟩ := h
  suffices hsame : (exec (.ledger c) w).2.store.record r = some x from ⟨x, hsame, hrun, ha⟩
  cases c with
  | create => exact hc.elim
  | delete => exact hc.elim
  | deleteByTenant => exact hc.elim
  | claim agent now ttl =>
      obtain ⟨-, ⟨-, hrec⟩ | ⟨id, y, hy, hqueued, -, hrec⟩⟩ :=
        MemResponseLedger.claim_cases w.store agent now ttl
      · exact (hrec r).trans hx
      · refine (hrec r).trans ?_
        rw [if_neg, hx]
        rintro rfl
        obtain rfl : x = y := Option.some.inj (hx.symm.trans hy)
        rw [hrun] at hqueued
        cases hqueued
  | heartbeat agent now => exact hx
  | complete id attempt status usage now =>
      rcases MemResponseLedger.complete_cases w.store id attempt status usage now with
        ⟨e, heq⟩ | ⟨y, -, -, -, -, -, heq⟩
      · simpa only [exec, execLedger, heq, World.withStore_snd] using hx
      · have hid : id ≠ r := by
          simpa [Call.wins, exec, execLedger, heq, Except.isOk, Except.toBool] using hwin
        simp only [exec, execLedger, heq, World.withStore_snd]
        rw [MemResponseLedger.record_putRecord, if_neg hid.symm, hx]
  | cancel tenant id now =>
      rcases MemResponseLedger.cancel_cases w.store tenant id now with
        ⟨e, heq⟩ | ⟨y, -, -, -, -, heq⟩
      · simpa only [exec, execLedger, heq, World.withStore_snd] using hx
      · have hid : id ≠ r := by
          simpa [Call.wins, exec, execLedger, heq, Except.isOk, Except.toBool] using hwin
        simp only [exec, execLedger, heq, World.withStore_snd]
        rw [MemResponseLedger.record_bookPartial, MemResponseLedger.record_putRecord,
          if_neg hid.symm, hx]
  | reap now ttl =>
      obtain ⟨aborted, hreply, -, -, -, hrec⟩ := MemResponseLedger.reap_spec w.store now ttl
      have hmem : r ∉ aborted.map AbortedClaim.responseId := by
        simpa [Call.wins, exec, execLedger, hreply] using hwin
      exact (hrec r).trans ((if_neg hmem).trans hx)
  | recordPartialUsage id attempt usage =>
      simp only [exec, execLedger, World.withStore_snd, MemResponseLedger.recordPartialUsage]
      split <;> exact hx
  | get id => exact hx
  | checkAttempt id attempt => exact hx
  | inFlight => exact hx

theorem inForce_of_allowed {s : Stage} {c : Call} {w : World} {r : ResponseId} {a : Attempt}
    (h : s.Allowed c) (hwrites : c.writes ≠ some r) (hf : w.InForce r a)
    (hwin : c.wins r (exec c w).1 = false) : (exec c w).2.InForce r a := by
  rcases settled_or_kept h hwrites w with ⟨lc, rfl, hlc⟩ | hkept
  · exact inForce_ledger hlc hf hwin
  · simpa only [World.InForce, hkept] using hf

/-! ## Rings -/

theorem exec_buffered {c : Call} (hc : c.Whole) (w : World) (r : ResponseId) :
    ((exec c w).2.log.buffered r).Sublist (w.log.buffered r) := by
  cases hlog' : (exec c w).2.log.logs.lookup r with
  | none => simp [EventLogStore.buffered, hlog']
  | some log' =>
      obtain ⟨log, hlog, hfades⟩ := exec_fades hc hlog'
      simpa [EventLogStore.buffered, hlog, hlog'] using hfades.ring

/-- An insertion puts at most its own event at the end of a ring. -/
theorem insert_buffered (event : AppendEvent) (w : World) (r : ResponseId) :
    ∃ new : Option ResponseEvent,
      ((exec (.eventLog (.insert event)) w).2.log.buffered r).Sublist
        (w.log.buffered r ++ new.toList) ∧
      ∀ b ∈ new, b.event = event ∧ event.responseId = r := by
  simp only [exec, execEventLog, World.withLog_snd]
  rcases MemResponseEventLog.insert_cases w.log event with ⟨e, -, heq⟩ | ⟨-, heq⟩
  · rw [heq]
    exact ⟨none, by simp, by simp⟩
  · rw [heq]
    by_cases hid : r = event.responseId
    · subst hid
      refine ⟨some ⟨(w.log.log event.responseId).nextSeq, event⟩, ?_, by simp⟩
      have hring : w.log.buffered event.responseId = (w.log.log event.responseId).ring := by
        unfold EventLogStore.buffered EventLogStore.log
        cases w.log.logs.lookup event.responseId <;> rfl
      rw [hring]
      simpa [EventLogStore.buffered, EventLogStore.pushed, HashMap.lookup_insert',
        ResponseLog.push] using List.drop_sublist _ _
    · exact ⟨none, by simp [EventLogStore.buffered, EventLogStore.pushed, hid], by simp⟩

/-! ## The conditions -/

/-- The event a process is about to insert. -/
def inserting (x : Proc Call Call.Reply Job) : Option AppendEvent :=
  match x.prog with
  | .call (.eventLog (.insert event)) _ => some event
  | _ => none

/-- No process is about to insert a fenced event of `r`. -/
def NoInserter (q : State) (r : ResponseId) : Prop :=
  ∀ x ∈ q.procs, ∀ event ∈ inserting x, event.responseId = r → event.attempt = none

/-- Jobs of turns, where `r` is minted once and before it has a record. -/
def SplitStep (r : ResponseId) (tr : Trace) (q : State) : Event Call Call.Reply Job → Prop
  | .start j => j.OfTurn ∧ (j.mints = some r → q.world.store.record r = none ∧ r ∉ minted tr)
  | .call _ _ _ => True

/-- The end of `r` is decided only while no process is between the two halves of a fenced
append to it. -/
def Held (r : ResponseId) (q : State) : Event Call Call.Reply Job → Prop
  | .start _ => True
  | .call _ c _ => c.wins r (exec c q.world).1 = true → NoInserter q r

def HeldStep (r : ResponseId) (tr : Trace) (q : State) (e : Event Call Call.Reply Job) : Prop :=
  SplitStep r tr q e ∧ Held r q e

instance (q : State) (r : ResponseId) : Decidable (NoInserter q r) :=
  inferInstanceAs (Decidable (∀ x ∈ q.procs, ∀ event ∈ inserting x, _ → _))

instance (r : ResponseId) (tr : Trace) (q : State) : DecidablePred (SplitStep r tr q)
  | .start j =>
    decidable_of_iff (j.OfTurn ∧
      (j.mints = some r → (q.world.store.record r).isNone = true ∧ r ∉ minted tr)) (by
        simp [SplitStep])
  | .call _ _ _ => .isTrue trivial

instance (r : ResponseId) (tr : Trace) (q : State) : DecidablePred (HeldStep r tr q)
  | .start j => inferInstanceAs (Decidable (SplitStep r tr q (.start j) ∧ True))
  | .call i c reply =>
    inferInstanceAs (Decidable (SplitStep r tr q (.call i c reply) ∧ (_ → NoInserter q r)))

/-- Every event about to be inserted with a fence finds its attempt running, and no fenced event
comes after a terminal one. -/
structure FenceHolds (r : ResponseId) (q : State) : Prop where
  inForce : ∀ x ∈ q.procs, ∀ event ∈ inserting x, event.responseId = r →
    ∀ a ∈ event.attempt, q.world.InForce r a
  ring : (q.world.log.buffered r).Pairwise fun b b' ↦
    b.kind.isTerminal = true → b'.event.attempt = none

/-! ## The invariant -/

namespace Stage

theorem unwritten_next_create (s : Stage) (record : ResponseRecord) (key : IdempotencyKey)
    (now : ℕ) (r : Except LedgerError CreateOutcome) :
    (s.next (.ledger (.create record key now)) r).unwritten = none := by
  rcases r with e | (y | y | _ | _) <;> cases s <;> rfl

theorem next_append_settling {s : Stage} {event : AppendEvent} {r : Except EventLogError ℕ}
    {won : List Settlement} (h : s.next (.eventLog (.append event)) r = .settling won) :
    s = .settling won := by
  cases s <;> first | exact h | (cases r <;> cases h)

end Stage

structure Fenced (r : ResponseId) (tr : Trace) (w : World) (ss : List splitTurn.State) : Prop where
  unwritten : ∀ {i : ℕ} {s p}, ss[i]? = some (s, p) → s.unwritten = some r →
    r ∈ minted tr ∧ w.store.record r = none
  sole : ∀ {i j : ℕ} {s t p p'}, ss[i]? = some (s, p) → ss[j]? = some (t, p') →
    s.unwritten = some r → t.unwritten = some r → i = j
  settling : ∀ {i : ℕ} {won p e}, ss[i]? = some (.settling won, p) → e ∈ won → e.id = r →
    w.Ended r
  inForce : ∀ {i : ℕ} {s event a}, ss[i]? = some (s, some event) → event.responseId = r →
    event.attempt = some a → w.InForce r a
  ending : ∀ {i : ℕ} {s event}, ss[i]? = some (s, some event) → event.responseId = r →
    event.kind.isTerminal = true → w.Ended r
  closed : ∀ b ∈ w.log.buffered r, b.kind.isTerminal = true → w.Ended r
  ring : (w.log.buffered r).Pairwise fun b b' ↦
    b.kind.isTerminal = true → b'.event.attempt = none

namespace Fenced

variable {r : ResponseId} {tr : Trace} {w w' : World} {ss ss' : List splitTurn.State}
  {i : ℕ} {s s' : Stage} {p p' : Option AppendEvent}

theorem start {j : Job} (h : Fenced r tr w ss)
    (hj : j.mints = some r → w.store.record r = none ∧ r ∉ minted tr) :
    Fenced r (tr ++ [.start j]) w (splitTurn.advance (fun j ↦ (Stage.first j, none)) ss
      (.start j : Event Call Call.Reply Job)) := by
  have hold : ∀ {i : ℕ} {s : Stage} {p : Option AppendEvent},
      (splitTurn.advance (fun j ↦ (Stage.first j, none)) ss
        (.start j : Event Call Call.Reply Job))[i]? = some (s, p) →
      ss[i]? = some (s, p) ∨ i = ss.length ∧ s = Stage.first j ∧ p = none := by
    intro i s p hs
    rcases Session.getElem?_advance_start hs with hs | ⟨hi, heq⟩
    · exact Or.inl hs
    · exact Or.inr ⟨hi, congrArg Prod.fst heq, congrArg Prod.snd heq⟩
  have hnew : ∀ {s : Stage}, s = Stage.first j → s.unwritten = some r → j.mints = some r := by
    rintro s rfl hun
    rwa [Stage.unwritten_first] at hun
  have hpending : ∀ {i : ℕ} {s : Stage} {event : AppendEvent},
      (splitTurn.advance (fun j ↦ (Stage.first j, none)) ss
        (.start j : Event Call Call.Reply Job))[i]? = some (s, some event) →
      ss[i]? = some (s, some event) := by
    intro i s event hs
    rcases hold hs with hs | ⟨-, -, heq⟩
    · exact hs
    · cases heq
  refine ⟨fun hs hun ↦ ?_, fun hs ht hun hun' ↦ ?_, fun hs he hid ↦ ?_,
    fun hs ↦ h.inForce (hpending hs), fun hs ↦ h.ending (hpending hs), h.closed, h.ring⟩
  · rw [minted_start]
    rcases hold hs with hs | ⟨-, hfirst, -⟩
    · obtain ⟨hmem, hnone⟩ := h.unwritten hs hun
      exact ⟨List.mem_append_left _ hmem, hnone⟩
    · have hmint := hnew hfirst hun
      exact ⟨List.mem_append_right _ (by simp [hmint]), (hj hmint).1⟩
  · rcases hold hs with hs | ⟨hi, hfirst, -⟩ <;> rcases hold ht with ht | ⟨hi', hfirst', -⟩
    · exact h.sole hs ht hun hun'
    · exact absurd (h.unwritten hs hun).1 (hj (hnew hfirst' hun')).2
    · exact absurd (h.unwritten ht hun').1 (hj (hnew hfirst hun)).2
    · rw [hi, hi']
  · rcases hold hs with hs | ⟨-, hfirst, -⟩
    · exact h.settling hs he hid
    · rcases Stage.first_cases j with ⟨heq, -⟩ | ⟨id, -, ⟨c, heq⟩ | ⟨a, heq⟩⟩ <;>
        rw [heq] at hfirst <;> cases hfirst

/-- What one process must see to when it moves: the others are untouched. -/
theorem move (h : Fenced r tr w ss) (hs : ss[i]? = some (s, p))
    (hss : ∀ j, ss'[j]? = if i = j then some (s', p') else ss[j]?)
    (hun : s'.unwritten = some r → s.unwritten = some r)
    (hblank : w.store.record r = none → w'.store.record r = none ∨
      s.unwritten = some r ∧ s'.unwritten ≠ some r)
    (hended : w.Ended r → w'.Ended r)
    (hforce : ∀ {j : ℕ} {t event a}, ss[j]? = some (t, some event) → event.responseId = r →
      event.attempt = some a → w.InForce r a → w'.InForce r a)
    (hsettling : ∀ won e, s' = .settling won → e ∈ won → e.id = r → w'.Ended r)
    (hpending : ∀ event ∈ p', event.responseId = r →
      (∀ a, event.attempt = some a → w'.InForce r a) ∧
      (event.kind.isTerminal = true → w'.Ended r))
    (hring : ∃ new : Option ResponseEvent,
      (w'.log.buffered r).Sublist (w.log.buffered r ++ new.toList) ∧
      ∀ b ∈ new, (∀ a, b.event.attempt = some a → w.InForce r a) ∧
        (b.kind.isTerminal = true → w.Ended r)) :
    Fenced r tr w' ss' := by
  have hof : ∀ {j : ℕ} {t : Stage} {event : AppendEvent}, ss'[j]? = some (t, some event) →
      p' = some event ∨ ss[j]? = some (t, some event) := by
    intro j t event ht
    rw [hss] at ht
    split_ifs at ht
    · exact Or.inl (congrArg Prod.snd (Option.some.inj ht))
    · exact Or.inr ht
  -- Any process with `r` unwritten had it unwritten before, and keeps its place.
  have hwas : ∀ {j : ℕ} {t : Stage} {p₁ : Option AppendEvent}, ss'[j]? = some (t, p₁) →
      t.unwritten = some r → ∃ t₀ p₀, ss[j]? = some (t₀, p₀) ∧ t₀.unwritten = some r ∧
        (i = j → s'.unwritten = some r) := by
    intro j t p₁ ht hunt
    rw [hss] at ht
    split_ifs at ht with hij
    · obtain rfl : s' = t := congrArg Prod.fst (Option.some.inj ht)
      exact ⟨s, p, hij ▸ hs, hun hunt, fun _ ↦ hunt⟩
    · exact ⟨t, p₁, ht, hunt, fun heq ↦ absurd heq hij⟩
  obtain ⟨new, hsub, hnew⟩ := hring
  refine ⟨fun {j t p₁} ht hunt ↦ ?_, fun {j k t t' p₁ p₂} ht ht' hunt hunt' ↦ ?_,
    fun {j won p₁ e} ht he hid ↦ ?_, fun {j t event a} ht hid ha ↦ ?_,
    fun {j t event} ht hid hterm ↦ ?_, fun b hb hterm ↦ ?_, ?_⟩
  · obtain ⟨t₀, p₀, ht₀, hunt₀, hsame⟩ := hwas ht hunt
    obtain ⟨hmem, hnone⟩ := h.unwritten ht₀ hunt₀
    rcases hblank hnone with hnone' | ⟨huns, huns'⟩
    · exact ⟨hmem, hnone'⟩
    · exact absurd (hsame (h.sole hs ht₀ huns hunt₀)) huns'
  · obtain ⟨t₀, p₀, ht₀, hunt₀, -⟩ := hwas ht hunt
    obtain ⟨t₁, p₁, ht₁, hunt₁, -⟩ := hwas ht' hunt'
    exact h.sole ht₀ ht₁ hunt₀ hunt₁
  · rw [hss] at ht
    split_ifs at ht
    · exact hsettling won e (congrArg Prod.fst (Option.some.inj ht)) he hid
    · exact hended (h.settling ht he hid)
  · rcases hof ht with hp | ht
    · exact (hpending event hp hid).1 a ha
    · exact hforce ht hid ha (h.inForce ht hid ha)
  · rcases hof ht with hp | ht
    · exact (hpending event hp hid).2 hterm
    · exact hended (h.ending ht hid hterm)
  · rcases List.mem_append.mp (hsub.subset hb) with hb | hb
    · exact hended (h.closed b hb hterm)
    · exact hended ((hnew b (Option.mem_toList.mp hb)).2 hterm)
  · refine List.Pairwise.sublist hsub (List.pairwise_append.mpr ⟨h.ring, ?_, ?_⟩)
    · cases new <;> simp
    · intro b hb b' hb' hterm
      cases ha : b'.event.attempt with
      | none => rfl
      | some a =>
          exact absurd ((hnew b' (Option.mem_toList.mp hb')).1 a ha)
            (h.closed b hb hterm).not_inForce

/-- One step of one process, half an append or a whole call. -/
theorem call {c : Call} (h : Fenced r tr w ss) (hs : ss[i]? = some (s, p))
    (hallowed : splitTurn.allowed (s, p) c)
    (hheld : c.wins r (exec c w).1 = true → ∀ (j : ℕ) t event, ss[j]? = some (t, some event) →
      event.responseId = r → event.attempt = none) :
    Fenced r tr (exec c w).2 (splitTurn.advance (fun j ↦ (Stage.first j, none)) ss
      (.call i c (exec c w).1 : Event Call Call.Reply Job)) := by
  have hss : ∀ {t : splitTurn.State}, splitTurn.next (s, p) c (exec c w).1 = t → ∀ j,
      (splitTurn.advance (fun j ↦ (Stage.first j, none)) ss
        (.call i c (exec c w).1 : Event Call Call.Reply Job))[j]? =
      if i = j then some t else ss[j]? := by
    rintro t rfl j
    exact Session.getElem?_advance_call hs
  -- After a refused or finished append a process is where the append left it.
  have happend : ∀ {event : AppendEvent} {reply : Except EventLogError ℕ},
      (∀ won e, s.next (.eventLog (.append event)) reply = .settling won → e ∈ won → e.id = r →
        w.Ended r) := by
    intro event reply won e hnext he hid
    exact h.settling (Stage.next_append_settling hnext ▸ hs) he hid
  rcases splitTurn_cases hallowed with
    ⟨event, rfl, rfl⟩ | ⟨rfl, ⟨event, rfl, happended⟩ | ⟨hwhole, hstage⟩⟩
  · obtain ⟨new, hsub, hnew⟩ := insert_buffered event w r
    refine h.move hs (hss rfl) Stage.unwritten_next Or.inl id (fun _ _ _ hf ↦ hf)
      happend (by simp) ⟨new, hsub, fun b hb ↦ ?_⟩
    obtain ⟨hb, hid⟩ := hnew b hb
    refine ⟨fun a ha ↦ ?_, fun hterm ↦ ?_⟩
    · rw [hb] at ha
      exact h.inForce hs hid ha
    · rw [ResponseEvent.kind, hb] at hterm
      exact h.ending hs hid hterm
  · have hquiet : ∃ new : Option ResponseEvent,
        (w.log.buffered r).Sublist (w.log.buffered r ++ new.toList) ∧
        ∀ b ∈ new, (∀ a, b.event.attempt = some a → w.InForce r a) ∧
          (b.kind.isTerminal = true → w.Ended r) := ⟨none, by simp, by simp⟩
    obtain ⟨reply, hreply⟩ : ∃ reply, (exec (.eventLog (.fenceCheck event)) w).1 = reply := ⟨_, rfl⟩
    cases reply with
    | error e =>
        refine h.move hs (hss (t := (s.next (.eventLog (.append event)) (.error e), none))
          (by rw [hreply]; rfl)) Stage.unwritten_next Or.inl id (fun _ _ _ hf ↦ hf) happend
          (by simp) hquiet
    | ok _ =>
        refine h.move hs (hss (t := (s, some event)) (by rw [hreply]; rfl)) id Or.inl id
          (fun _ _ _ hf ↦ hf) (fun won e heq he hid ↦ h.settling (heq ▸ hs) he hid) ?_ hquiet
        intro event' hevent hid
        obtain rfl : event = event' := Option.some.inj hevent
        refine ⟨fun a ha ↦ hid ▸ inForce_of_fenceCheck ha hreply, fun hterm ↦ ?_⟩
        cases happended with
        | quiet _ hq => exact hq.elim
        | announce _ _ hkind => rw [hkind] at hterm; cases hterm
        | emit _ _ hkind => rw [hkind] at hterm; cases hterm
        | finish he hid' => exact h.settling hs he (hid'.symm.trans hid)
  · have hanswers := exec_answers c w
    -- Whoever writes `r` finds no record of it.
    have hwriter : c.writes = some r → s.unwritten = some r ∧ w.store.record r = none ∧
        (s.next c (exec c w).1).unwritten = none := by
      intro hw
      have hun := Stage.unwritten_of_writes hstage hw
      refine ⟨hun, (h.unwritten hs hun).2, ?_⟩
      unfold Call.writes at hw
      split at hw
      · exact Stage.unwritten_next_create _ _ _ _ _
      · cases hw
    have hended : w.Ended r → (exec c w).2.Ended r := by
      rintro ⟨x, hx, hterm⟩
      refine ⟨x, terminal_persists hstage (fun hw ↦ ?_) hx hterm, hterm⟩
      rw [(hwriter hw).2.1] at hx
      cases hx
    refine h.move hs (hss ((splitTurn_whole hwhole).2 _)) Stage.unwritten_next (fun hnone ↦ ?_)
      hended (fun {j t event a} ht hid ha hf ↦ ?_) (fun won e hnext he hid ↦ ?_) (by simp)
      ⟨none, by simpa using exec_buffered hwhole w r, by simp⟩
    · by_cases hw : c.writes = some r
      · obtain ⟨hun, -, hnext⟩ := hwriter hw
        exact Or.inr ⟨hun, by simp [hnext]⟩
      · rcases settled_or_kept hstage hw w with ⟨lc, rfl, hlc⟩ | hkept
        · exact Or.inl ((exec_ledger_advances hlc w).none hnone)
        · exact Or.inl (hkept.trans hnone)
    · refine inForce_of_allowed hstage (fun hw ↦ ?_) hf ?_
      · obtain ⟨x, hx, -⟩ := hf
        rw [(hwriter hw).2.1] at hx
        cases hx
      · by_contra hwin
        rw [hheld (by simpa using hwin) j t event ht hid] at ha
        cases ha
    · rcases Stage.settling_next hstage hanswers hnext he with
        ⟨won₀, e₀, rfl, he₀, hid₀, -⟩ | ⟨hwin, -⟩
      · exact hended (h.settling hs he₀ (hid₀.trans hid))
      · rw [hid] at hwin
        obtain ⟨-, x', -, -, hx', hterm, -⟩ := exec_wins hwin
        exact ⟨x', hx', hterm⟩

end Fenced

/-! ## Runs -/

section Keeps

variable {q : State} {ss : List splitTurn.State}
  (hk : splitTurn.Keeps (fun st _ ↦ st.1.Restful ∧ st.2 = none) q ss)

include hk

/-- A process is about to insert exactly what its fence check has passed. -/
theorem pending_of_inserting {x : Proc Call Call.Reply Job} (hx : x ∈ q.procs)
    {event : AppendEvent} (h : inserting x = some event) :
    ∃ (i : ℕ) (s : Stage), ss[i]? = some (s, some event) := by
  obtain ⟨i, hi⟩ := List.getElem?_of_mem hx
  obtain ⟨⟨s, p⟩, hs, hfollow⟩ := hk.session hi
  obtain ⟨j, prog⟩ := x
  unfold inserting at h
  split at h
  · next event' k hprog =>
      obtain rfl := Option.some.inj h
      obtain rfl : prog = _ := hprog
      rcases splitTurn_cases hfollow.1 with ⟨e, rfl, heq⟩ | ⟨-, ⟨e, heq, -⟩ | ⟨hwhole, -⟩⟩
      · obtain rfl : event' = e := by simpa using heq
        exact ⟨i, s, hs⟩
      · cases heq
      · exact hwhole.elim
  · cases h

theorem inserting_of_pending {i : ℕ} {s : Stage} {event : AppendEvent}
    (hs : ss[i]? = some (s, some event)) : ∃ x ∈ q.procs, inserting x = some event := by
  obtain ⟨⟨j, prog⟩, hi, hfollow⟩ := hk.proc hs
  cases prog with
  | ret a => exact absurd hfollow.2 (by simp)
  | stall => exact absurd hfollow.2 (by simp)
  | call c k =>
      obtain rfl : c = .eventLog (.insert event) := hfollow.1
      exact ⟨_, List.mem_of_getElem? hi, rfl⟩

end Keeps

theorem fenced_init {r : ResponseId} {w : World}
    (hclosed : ∀ b ∈ w.log.buffered r, b.kind.isTerminal = true → w.Ended r)
    (hring : (w.log.buffered r).Pairwise fun b b' ↦
      b.kind.isTerminal = true → b'.event.attempt = none) : Fenced r [] w [] where
  unwritten hs := by cases hs
  sole hs := by cases hs
  settling hs := by cases hs
  inForce hs := by cases hs
  ending hs := by cases hs
  closed := hclosed
  ring := hring

/-- Where nobody ends `r` between a fence check for it and the insertion, fences hold. -/
theorem fence_holds {r : ResponseId} {w : World} {tr : Trace} {q : State}
    (hclosed : ∀ b ∈ w.log.buffered r, b.kind.isTerminal = true → w.Ended r)
    (hring : (w.log.buffered r).Pairwise fun b b' ↦
      b.kind.isTerminal = true → b'.event.attempt = none)
    (h : Run splitSystem (HeldStep r) (Pool.init w) tr q) : FenceHolds r q := by
  obtain ⟨hf, hk⟩ : Fenced r tr q.world (splitTurn.track _ tr) ∧ splitTurn.Keeps _ q _ := by
    refine Run.invariant splitTurn (fun j ↦ (Stage.first j, none))
      (fun st _ ↦ st.1.Restful ∧ st.2 = none) (I := fun tr q ss ↦ Fenced r tr q.world ss)
      ?_ ?_ ?_ ?_ (fenced_init hclosed hring) h
    · exact fun tr q j hok ↦ follows_split (follows_job hok.1.1)
    · exact fun {tr q ss} c _ ↦ exec_answers c q.world
    · exact fun {tr q ss} j hf _ hok ↦ hf.start hok.1.2
    · rintro tr q ss i j c k ⟨s, p⟩ hf hk - hs hallowed hok
      have hstep := hf.call hs hallowed fun hwin l t event ht hid ↦ by
        obtain ⟨x, hx, hins⟩ := inserting_of_pending hk ht
        exact hok.2 hwin x hx event hins hid
      refine ⟨fun hs hun ↦ ?_, hstep.sole, hstep.settling, hstep.inForce, hstep.ending,
        hstep.closed, hstep.ring⟩
      rw [minted_call]
      exact hstep.unwritten hs hun
  refine ⟨fun x hx event hins hid a ha ↦ ?_, hf.ring⟩
  obtain ⟨i, s, hs⟩ := pending_of_inserting hk hx hins
  exact hf.inForce hs hid ha

/-- The condition is exact: a step that breaks it leaves a fenced event to be inserted after the
end of its response. -/
theorem not_fenceHolds {r : ResponseId} {q : State} {i : ℕ} {j : Job} {c : Call}
    {k : c.Reply → Service Unit} (hi : q.procs[i]? = some ⟨j, .call c k⟩)
    (h : ¬ Held r q (.call i c (exec c q.world).1)) :
    ¬ FenceHolds r (q.turn splitSystem i j c k) := by
  obtain ⟨hwin, hinserter⟩ := Classical.not_imp.mp h
  obtain ⟨-, x', -, -, hx', hterm, -⟩ := exec_wins hwin
  unfold NoInserter at hinserter
  push Not at hinserter
  obtain ⟨x, hx, event, hins, hid, hfenced⟩ := hinserter
  obtain ⟨a, ha⟩ := Option.ne_none_iff_exists'.mp hfenced
  obtain ⟨l, hl⟩ := List.getElem?_of_mem hx
  have hil : i ≠ l := by
    rintro rfl
    obtain rfl := Option.some.inj (hi.symm.trans hl)
    unfold inserting at hins
    split at hins
    · next hprog =>
        obtain ⟨rfl, -⟩ := Prog.call.inj hprog
        cases hwin
    · cases hins
  have hmem : x ∈ (q.turn splitSystem i j c k).procs := by
    refine List.mem_of_getElem? (i := l) ?_
    simpa [Pool.turn, List.getElem?_set, hil] using hl
  intro hholds
  exact World.Ended.not_inForce (w := (exec c q.world).2) ⟨x', hx', hterm⟩
    (hholds.inForce x hmem event hins hid a ha)

/-- The kinds of the events buffered for the sample response, and whether each was fenced. -/
def Sample.ringOf (q : State) : List (ResponseEventKind × Bool) :=
  (q.world.log.buffered (Sample.id 1)).map fun b ↦ (b.kind, b.event.attempt.isSome)

/-- A runtime announces the attempt, and a cancellation ends it after that. -/
theorem fence_holds_cancelled : ∃ tr q,
    Run splitSystem (HeldStep (Sample.id 1)) (Pool.init Sample.world) tr q ∧
      Sample.ringOf q = [(.created, false), (.inProgress, true), (.failed, false)] ∧
      FenceHolds (Sample.id 1) q := by
  have hempty : ∀ r, Sample.world.log.buffered r = [] := fun _ ↦ rfl
  obtain ⟨tr, q, h, htest⟩ := Run.exists_of_schedule splitSystem (Pool.init Sample.world)
    (fun tr q e ↦ decide (HeldStep (Sample.id 1) tr q e))
    (fun _ q ↦ decide (Sample.ringOf q =
      [(.created, false), (.inProgress, true), (.failed, false)]))
    (fun tr q e ↦ of_decide_eq_true)
    (Sample.post 1 :: Sample.work :: .start (.cancel Sample.cfg 4 Sample.tenant (Sample.id 1)) ::
      Sample.steps 0 7 ++ Sample.steps 1 5 ++ Sample.steps 2 11) (by decide +kernel)
  exact ⟨tr, q, h, of_decide_eq_true htest, fence_holds (by simp [hempty]) (by simp [hempty]) h⟩

/-- Between the check and the insertion of a runtime's first event a cancellation goes through,
terminal event and all; the fenced event lands after it. -/
theorem fence_race : ¬ ∀ (r : ResponseId) (w : World) (tr : Trace) (q : State),
    w.log.buffered r = [] → Run splitSystem (SplitStep r) (Pool.init w) tr q → FenceHolds r q := by
  intro hclaim
  obtain ⟨tr, q, h, htest⟩ := Run.exists_of_schedule splitSystem (Pool.init Sample.world)
    (fun tr q e ↦ decide (SplitStep (Sample.id 1) tr q e))
    (fun _ q ↦ decide (Sample.ringOf q =
      [(.created, false), (.failed, false), (.inProgress, true)]))
    (fun tr q e ↦ of_decide_eq_true)
    (Sample.post 1 :: Sample.work :: .start (.cancel Sample.cfg 4 Sample.tenant (Sample.id 1)) ::
      Sample.steps 0 7 ++ Sample.steps 1 3 ++ Sample.steps 2 11 ++ Sample.steps 1 1)
    (by decide +kernel)
  have hring := (hclaim (Sample.id 1) Sample.world tr q rfl h).ring
  have hkinds : Sample.ringOf q =
      [(.created, false), (.failed, false), (.inProgress, true)] := of_decide_eq_true htest
  unfold Sample.ringOf at hkinds
  generalize q.world.log.buffered (Sample.id 1) = ring at hring hkinds
  obtain ⟨b₁, rest, rfl, -, hrest⟩ := List.map_eq_cons_iff.mp hkinds
  obtain ⟨b₂, rest, rfl, hb₂, hrest⟩ := List.map_eq_cons_iff.mp hrest
  obtain ⟨b₃, rest, rfl, hb₃, -⟩ := List.map_eq_cons_iff.mp hrest
  have hlate : b₃.event.attempt = none := by
    have hkind : b₂.kind = .failed := congrArg Prod.fst hb₂
    exact (List.pairwise_cons.mp (List.pairwise_cons.mp hring).2).1 b₃ (by simp)
      (by rw [hkind]; rfl)
  have hfenced : b₃.event.attempt.isSome = true := congrArg Prod.snd hb₃
  rw [hlate] at hfenced
  cases hfenced

end NovaChat
