import NovaChat.Turn.Archiving

/-!
# One funnel settles a response

Runtimes, cancellations and ticks race for the terminal transition of a response.  `winners`
records who got it; it only grows, and a record that is terminal admits no further winner.
Every later write about the response is traced back to a winner, and there is one commit.
-/

namespace NovaChat

open Interact MemConversationStore

/-! ## What a trace shows of one response -/

/-- The processes that made `r` terminal. -/
def winners (r : ResponseId) (tr : Trace) : List ℕ :=
  tr.filterMap fun
    | .start _ => none
    | .call i c reply => if c.wins r reply then some i else none

/-- The commit a call asks the snapshot of some conversation to take for `r`. -/
def Call.submits (r : ResponseId) : Call → Option TurnCommit
  | .conversations (.appendTurn _ _ id commit _) => if id = r then some commit else none
  | _ => none

/-- Every commit submitted for `r`. -/
def submitted (r : ResponseId) (tr : Trace) : List TurnCommit :=
  tr.filterMap fun
    | .start _ => none
    | .call _ c _ => c.submits r

/-- The turn a call added to the snapshot of `c`. -/
def Call.adds (c : ConversationId) : (call : Call) → call.Reply → Option (ResponseId × TurnCommit)
  | .conversations (.appendTurn _ c' id commit _), .ok _ =>
    if c' = c then some (id, commit) else none
  | _, _ => none

/-- The turns added to the snapshot of `c`, in order. -/
def history (c : ConversationId) (tr : Trace) : List (ResponseId × TurnCommit) :=
  tr.filterMap fun
    | .start _ => none
    | .call _ call reply => call.adds c reply

/-- A snapshot with a history replayed onto it. -/
def Snapshot.replay (snap : Snapshot) (turns : List (ResponseId × TurnCommit)) : Snapshot :=
  turns.foldl (fun snap t ↦ addTurn snap t.1 t.2) snap

/-- The writes that settle `r`: its archive, the tail, its marker and the end of its stream. -/
def Call.Settles (r : ResponseId) : Call → Prop
  | .conversations (.appendTurn _ _ id _ _) | .conversations (.advance _ _ id)
  | .conversations (.releaseActive _ _ id _ _) => id = r
  | .eventLog (.append event) =>
    event.responseId = r ∧ event.attempt = none ∧ event.kind.isTerminal = true
  | _ => False

section Snoc

variable (r : ResponseId) (c : ConversationId) (tr : Trace) (i : ℕ) (call : Call)
  (reply : call.Reply) (j : Job)

@[simp] theorem winners_start : winners r (tr ++ [.start j]) = winners r tr := by
  simp [winners]

@[simp] theorem winners_call : winners r (tr ++ [.call i call reply]) =
    winners r tr ++ if call.wins r reply then [i] else [] := by
  by_cases h : call.wins r reply = true <;> simp [winners, h]

@[simp] theorem submitted_start : submitted r (tr ++ [.start j]) = submitted r tr := by
  simp [submitted]

@[simp] theorem submitted_call : submitted r (tr ++ [.call i call reply]) =
    submitted r tr ++ (call.submits r).toList := by
  cases h : call.submits r <;> simp [submitted, h]

@[simp] theorem history_start : history c (tr ++ [.start j]) = history c tr := by
  simp [history]

@[simp] theorem history_call : history c (tr ++ [.call i call reply]) =
    history c tr ++ (call.adds c reply).toList := by
  cases h : call.adds c reply <;> simp [history, h]

end Snoc

theorem Snapshot.replay_append (snap : Snapshot) (ts us : List (ResponseId × TurnCommit)) :
    snap.replay (ts ++ us) = (snap.replay ts).replay us :=
  List.foldl_append

theorem adds_submits {r : ResponseId} {c : ConversationId} {call : Call} {reply : call.Reply}
    {commit : TurnCommit} (h : call.adds c reply = some (r, commit)) :
    call.submits r = some commit := by
  unfold Call.adds at h
  split at h
  · split_ifs at h
    obtain ⟨rfl, rfl⟩ : _ = r ∧ _ = commit := by simpa using h
    simp [Call.submits]
  · cases h

theorem Call.Erases.adds {call : Call} (h : call.Erases) (c : ConversationId)
    (reply : call.Reply) : call.adds c reply = none := by
  rcases call with _ | call | call | call | call | call <;> try exact h.elim
  cases call <;> first | rfl | exact h.elim

/-- What a call does to a snapshot, if it erases none. -/
theorem exec_snapshot {call : Call} (hcall : ¬ call.Erases) (w : World) (c : ConversationId) :
    (exec call w).2.store.snapshot c =
      (w.store.snapshot c).replay (call.adds c (exec call w).1).toList := by
  rcases call with _ | lc | ec | cc | nc | mc
  · rfl
  · exact (exec_ledgerOnly lc w).snapshot c
  · simp only [MemStore.snapshot, exec_eventLog_store]
    rfl
  · by_cases hsame : cc.Unarchiving
    · rw [exec_conversations_snapshot hsame]
      cases cc <;> first | rfl | exact hsame.elim
    · cases cc with
      | appendTurn tenant c' id commit now =>
          rcases exec_appendTurn (w := w) tenant c' id commit now with ⟨e, heq⟩ | ⟨n, hreply, hsnap⟩
          · rw [heq]
            rfl
          · rw [hsnap, hreply]
            by_cases hc : c = c'
            · subst hc
              simp [Call.adds, Snapshot.replay]
            · simp [Call.adds, Snapshot.replay, hc, Ne.symm hc]
      | delete => exact absurd trivial hcall
      | deleteByTenant => exact absurd trivial hcall
      | _ => exact absurd trivial hsame
  · cases nc <;> rfl
  · simp only [exec, MemStore.snapshot, execMode_inner]
    rfl

/-! ## What a stage may settle -/

namespace Stage

/-- The id of a create, from the start to the announcement. -/
def minting : Stage → Option ResponseId
  | unanchored id _ | minted id _ | probing id _ _ | stealing id _ _ | admitting id _
  | refused id | admitted id | orphaned id => some id
  | _ => none

theorem minting_of_unwritten {s : Stage} {id : ResponseId} (h : s.unwritten = some id) :
    s.minting = some id := by
  cases s <;> first | exact h | cases h

theorem unwritten_of_writes {s : Stage} {c : Call} {id : ResponseId} (h : s.Allowed c)
    (hc : c.writes = some id) : s.unwritten = some id := by
  cases h with
  | quiet _ hquiet =>
      rcases c with _ | c | c | c | c | c <;> try cases hc
      cases c <;> first | exact hquiet.elim | cases hc
  | write key now hid => exact hid ▸ hc
  | writeBare key now hid => exact hid ▸ hc
  | _ => cases hc

theorem minting_first (j : Job) : (first j).minting = j.mints := by
  rcases first_cases j with ⟨h, h'⟩ | ⟨id, h', ⟨c, h⟩ | ⟨a, h⟩⟩ <;> rw [h, h'] <;> rfl

/-- No reply gives a process a new id. -/
theorem minting_next {s : Stage} {c : Call} {r : c.Reply} {id : ResponseId} (h : s.Allowed c)
    (hans : c.Answers r) (hid : (s.next c r).minting = some id) : s.minting = some id := by
  cases h with
  | quiet hsteady hquiet =>
      rwa [show s.next c r = s from (idle_of_quiet hsteady hquiet).2 r hans] at hid
  | acquire tenant now => rcases r with (_ | holder | _ | _) | seq <;> first | exact hid | cases hid
  | probe =>
      simp only [next] at hid
      split_ifs at hid
      · exact hid
      · cases hid
  | steal tenant => rcases r with e | released <;> first | exact hid | cases hid
  | write key now hrec =>
      subst hrec
      rcases r with e | (y | y | _ | _) <;> exact hid
  | writeBare key now hrec =>
      subst hrec
      rcases r with e | (y | y | _ | _) <;> first | exact hid | cases hid
  | announce => rcases r with e | seq <;> first | exact hid | cases hid
  | giveBack => cases hid
  | abandon => cases hid
  | claim => rcases r with e | _ | claimed <;> cases hid
  | cancel => rcases r with e | ⟨⟩ <;> cases hid
  | reap => rcases r with e | aborted <;> cases hid
  | emit => cases r <;> cases hid
  | complete => rcases r with e | ⟨⟩ <;> cases hid
  | replay => cases r <;> cases hid
  | finish => cases r <;> cases hid
  | _ => cases hid

/-- A process settles what it was settling, or has just won; and only a turn not yet submitted
is still pending. -/
theorem settling_next {s : Stage} {c : Call} {r : c.Reply} {won' : List Settlement}
    (h : s.Allowed c)
    (hans : c.Answers r) (hnext : s.next c r = .settling won') {e : Settlement} (he : e ∈ won') :
    (∃ won e₀, s = .settling won ∧ e₀ ∈ won ∧ e₀.id = e.id ∧
        (e.archive = .pending → e₀.archive = .pending ∧ c.submits e.id = none)) ∨
      c.wins e.id r = true ∧ c.submits e.id = none := by
  have hsame : ∀ {won : List Settlement}, s = .settling won → s.next c r = s →
      (∀ id, c.submits id = none) →
      ∃ won e₀, s = .settling won ∧ e₀ ∈ won ∧ e₀.id = e.id ∧
        (e.archive = .pending → e₀.archive = .pending ∧ c.submits e.id = none) := by
    rintro won rfl heq hsub
    obtain rfl : won = won' := by simpa using heq.symm.trans hnext
    exact ⟨won, e, rfl, he, rfl, fun hp ↦ ⟨hp, hsub _⟩⟩
  cases h with
  | quiet hsteady hquiet =>
      rw [show s.next c r = s from (idle_of_quiet hsteady hquiet).2 r hans] at hnext
      subst hnext
      exact hsteady.elim
  | acquire => rcases r with (_ | holder | _ | _) | seq <;> cases hnext
  | probe =>
      simp only [next] at hnext
      split_ifs at hnext
  | steal => rcases r with e | released <;> cases hnext
  | write => rcases r with e | (y | y | _ | _) <;> cases hnext
  | writeBare => rcases r with e | (y | y | _ | _) <;> cases hnext
  | announce => rcases r with e | seq <;> cases hnext
  | giveBack => cases hnext
  | abandon => cases hnext
  | claim => rcases r with e | _ | claimed <;> cases hnext
  | cancel tenant id now =>
      rcases r with err | ⟨⟩
      · cases hnext
      · obtain rfl : [_] = won' := by simpa [next] using hnext
        obtain rfl := List.mem_singleton.mp he
        exact Or.inr ⟨by simp [Call.wins, Except.isOk, Except.toBool], rfl⟩
  | reap now ttl =>
      rcases r with err | aborted
      · cases hnext
      · obtain rfl := Stage.settling.inj hnext
        obtain ⟨a, ha, rfl⟩ := List.mem_map.mp he
        exact Or.inr ⟨decide_eq_true (List.mem_map_of_mem ha), rfl⟩
  | emit => cases r <;> cases hnext
  | complete =>
      rcases r with err | ⟨⟩
      · cases hnext
      · obtain rfl := Stage.settling.inj hnext
        obtain rfl := List.mem_singleton.mp he
        exact Or.inr ⟨by simp [Call.wins, Except.isOk, Except.toBool], rfl⟩
  | @look won id =>
      obtain rfl := Stage.settling.inj hnext
      obtain ⟨e₀, he₀, rfl⟩ := List.mem_map.mp he
      refine Or.inl ⟨won, e₀, rfl, he₀, (Settlement.learn_id _ _ _).symm, fun hp ↦ ⟨?_, rfl⟩⟩
      unfold Settlement.learn at hp
      split_ifs at hp <;> exact hp
  | clock => exact Or.inl (hsame rfl rfl fun _ ↦ rfl)
  | @replay won id cursor limit =>
      rcases r with err | batch
      · obtain rfl := Stage.settling.inj hnext
        obtain ⟨e₀, he₀, rfl⟩ := List.mem_map.mp he
        refine Or.inl ⟨won, e₀, rfl, he₀, (Settlement.excuse_id _ _).symm, fun hp ↦ ⟨?_, rfl⟩⟩
        unfold Settlement.excuse at hp
        split_ifs at hp
        exact hp
      · exact Or.inl (hsame rfl rfl fun _ ↦ rfl)
  | sweep => exact Or.inl (hsame rfl rfl fun _ ↦ rfl)
  | @archive won e₁ t c' commit tenant now =>
      obtain rfl := Stage.settling.inj hnext
      obtain ⟨e₀, he₀, rfl⟩ := List.mem_map.mp he
      refine Or.inl ⟨won, e₀, rfl, he₀, (Settlement.archived_id _ _ _).symm, fun hp ↦ ?_⟩
      unfold Settlement.archived at hp
      by_cases hid : e₀.id = e₁.id
      · rw [if_pos hid] at hp
        revert hp
        cases r.isOk <;> rintro ⟨⟩
      · rw [if_neg hid] at hp
        exact ⟨hp, by simp [Call.submits, Ne.symm hid]⟩
  | advance => exact Or.inl (hsame rfl rfl fun _ ↦ rfl)
  | release => exact Or.inl (hsame rfl rfl fun _ ↦ rfl)
  | finish =>
      refine Or.inl (hsame rfl ?_ fun _ ↦ rfl)
      cases r <;> rfl
  | close => exact Or.inl (hsame rfl rfl fun _ ↦ rfl)

/-- Only a process with an entry for `r`, or one that minted it, writes about it. -/
theorem settles_allowed {s : Stage} {c : Call} {r : ResponseId} (h : s.Allowed c)
    (hc : c.Settles r) (hminting : s.minting ≠ some r) :
    ∃ won e, s = .settling won ∧ e ∈ won ∧ e.id = r ∧
      (c.submits r ≠ none → e.archive = .pending) := by
  cases h with
  | quiet hsteady hquiet =>
      rcases c with _ | c | c | c | c | c <;> try exact hc.elim
      all_goals cases c <;> first | exact hc.elim | exact hquiet.elim
  | acquire => exact hc.elim
  | probe => exact hc.elim
  | steal => exact hc.elim
  | write => exact hc.elim
  | writeBare => exact hc.elim
  | announce hid hattempt hkind =>
      have hterm := hc.2.2
      rw [hkind] at hterm
      cases hterm
  | giveBack => exact absurd (congrArg some hc) hminting
  | abandon => exact absurd (congrArg some hc) hminting
  | claim => exact hc.elim
  | cancel => exact hc.elim
  | reap => exact hc.elim
  | emit hid hattempt =>
      rw [hc.2.1] at hattempt
      cases hattempt
  | complete => exact hc.elim
  | look => exact hc.elim
  | clock => exact hc.elim
  | replay => exact hc.elim
  | sweep => exact hc.elim
  | archive tenant now he hpending => exact ⟨_, _, rfl, he, hc, fun _ ↦ hpending⟩
  | advance tenant c' he => exact ⟨_, _, rfl, he, hc, fun hsub ↦ absurd rfl hsub⟩
  | release tenant c' status now he => exact ⟨_, _, rfl, he, hc, fun hsub ↦ absurd rfl hsub⟩
  | finish he hid => exact ⟨_, _, rfl, he, hid.symm.trans hc.1, fun hsub ↦ absurd rfl hsub⟩
  | close => exact hc.elim

end Stage

/-! ## The invariant -/

/-- Jobs of turns, none of which mints `r`. -/
def FunnelStep (r : ResponseId) (_ : Trace) (_ : State) : Event Call Call.Reply Job → Prop
  | .start j => j.OfTurn ∧ j.mints ≠ some r
  | .call _ _ _ => True

instance (r : ResponseId) (tr : Trace) (q : State) : DecidablePred (FunnelStep r tr q)
  | .start j => inferInstanceAs (Decidable (j.OfTurn ∧ j.mints ≠ some r))
  | .call _ _ _ => .isTrue trivial

structure Funnel (r : ResponseId) (tr : Trace) (w : World) (ss : List Stage) : Prop where
  foreign : ∀ {i : ℕ} {s : Stage}, ss[i]? = some s → s.minting ≠ some r
  once : (winners r tr).length ≤ 1
  closed : winners r tr ≠ [] → ∃ x, w.store.record r = some x ∧ x.status.isTerminal = true
  owner : ∀ {i : ℕ} {won e}, ss[i]? = some (.settling won) → e ∈ won → e.id = r →
    i ∈ winners r tr
  pending : ∀ {i : ℕ} {won e}, ss[i]? = some (.settling won) → e ∈ won → e.id = r →
    e.archive = .pending → submitted r tr = []
  single : (submitted r tr).length ≤ 1
  won : submitted r tr ≠ [] → winners r tr ≠ []
  settled : ∀ tr₁ i c reply tr₂, tr = tr₁ ++ .call i c reply :: tr₂ → c.Settles r →
    i ∈ winners r tr₁

/-- A call that does not write `r` leaves its record alone but for a ledger transition. -/
theorem settled_or_kept {s : Stage} {c : Call} {r : ResponseId} (h : s.Allowed c)
    (hwrites : c.writes ≠ some r) (w : World) :
    (∃ lc : LedgerCall, c = .ledger lc ∧ lc.Settled) ∨
      (exec c w).2.store.record r = w.store.record r := by
  rcases c with _ | c | c | c | c | c
  · exact Or.inr rfl
  · by_cases hc : c.Settled
    · exact Or.inl ⟨c, rfl, hc⟩
    · refine Or.inr ?_
      cases c with
      | create record key now =>
          rcases exec_create record key now w with ⟨-, heq⟩ | ⟨y, -, hsign, -, heq⟩
          · rw [heq]
          · rw [heq]
            refine (MemResponseLedger.record_enqueue w.store y key r).trans (if_neg ?_)
            rw [MemResponseLedger.sign_spec hsign]
            exact fun heq ↦ hwrites (congrArg some heq.symm)
      | delete => cases h with | quiet _ hquiet => exact hquiet.elim
      | deleteByTenant => cases h with | quiet _ hquiet => exact hquiet.elim
      | _ => exact absurd trivial hc
  · exact Or.inr (by rw [exec_eventLog_store])
  · exact Or.inr (exec_conversations_record c w r)
  · exact Or.inr (by cases c <;> rfl)
  · exact Or.inr (by simp only [exec, MemStore.record, execMode_inner])

theorem terminal_persists {s : Stage} {c : Call} {w : World} {r : ResponseId} {x : ResponseRecord}
    (h : s.Allowed c) (hwrites : c.writes ≠ some r) (hx : w.store.record r = some x)
    (hterm : x.status.isTerminal = true) : (exec c w).2.store.record r = some x := by
  rcases settled_or_kept h hwrites w with ⟨lc, rfl, hlc⟩ | hkept
  · exact (exec_ledger_advances hlc w).terminal hx hterm
  · exact hkept.trans hx

theorem Stage.submits_allowed {s : Stage} {c : Call} {r : ResponseId} {commit : TurnCommit}
    (h : s.Allowed c) (hc : c.submits r = some commit) :
    ∃ won e, s = .settling won ∧ e ∈ won ∧ e.id = r ∧ e.archive = .pending := by
  unfold Call.submits at hc
  split at hc
  · split_ifs at hc with hid
    cases h with
    | quiet _ hquiet => exact hquiet.elim
    | archive tenant now he hpending => exact ⟨_, _, rfl, he, hid, hpending⟩
  · cases hc

/-- One process at most wins `r`, and it alone submits a commit for it, once. -/
structure Sole (r : ResponseId) (tr : Trace) (ss : List Stage) : Prop where
  once : (winners r tr).length ≤ 1
  owner : ∀ {i : ℕ} {won e}, ss[i]? = some (.settling won) → e ∈ won → e.id = r →
    i ∈ winners r tr
  pending : ∀ {i : ℕ} {won e}, ss[i]? = some (.settling won) → e ∈ won → e.id = r →
    e.archive = .pending → submitted r tr = []
  single : (submitted r tr).length ≤ 1
  won : submitted r tr ≠ [] → winners r tr ≠ []

namespace Sole

variable {r : ResponseId} {tr : Trace} {ss : List Stage} {i : ℕ} {s : Stage} {c : Call}
  {reply : c.Reply}

theorem init (r : ResponseId) : Sole r [] [] where
  once := by simp [winners]
  owner hs := by cases hs
  pending hs := by cases hs
  single := by simp [submitted]
  won hne := absurd rfl hne

theorem start {j : Job} (h : Sole r tr ss) :
    Sole r (tr ++ [.start j]) (turn.advance Stage.first ss
      (.start j : Event Call Call.Reply Job)) := by
  have hold : ∀ {i : ℕ} {won : List Settlement}, (turn.advance Stage.first ss
      (.start j : Event Call Call.Reply Job))[i]? = some (.settling won) →
      ss[i]? = some (.settling won) := by
    intro i won hs
    rcases Session.getElem?_advance_start hs with hs | ⟨-, heq⟩
    · exact hs
    · rcases Stage.first_cases j with ⟨hfirst, -⟩ | ⟨id, -, ⟨c, hfirst⟩ | ⟨a, hfirst⟩⟩ <;>
        rw [hfirst] at heq <;> cases heq
  refine ⟨?_, fun hs he hid ↦ ?_, fun hs he hid hp ↦ ?_, ?_, ?_⟩
  · simpa using h.once
  · simpa using h.owner (hold hs) he hid
  · simpa using h.pending (hold hs) he hid hp
  · simpa using h.single
  · simpa using h.won

theorem unsubmitted (h : Sole r tr ss) (hw : winners r tr = []) : submitted r tr = [] := by
  by_contra hne
  exact h.won hne hw

theorem submits (h : Sole r tr ss) (hs : ss[i]? = some s) (hallowed : s.Allowed c)
    {commit : TurnCommit} (hsub : c.submits r = some commit) :
    i ∈ winners r tr ∧ submitted r tr = [] := by
  obtain ⟨won, e, rfl, he, hid, hp⟩ := Stage.submits_allowed hallowed hsub
  exact ⟨h.owner hs he hid, h.pending hs he hid hp⟩

/-- A call of the turn session keeps `r` in one hand, if it wins `r` only where nobody has. -/
theorem call (h : Sole r tr ss) (hs : ss[i]? = some s) (hallowed : s.Allowed c)
    (hans : c.Answers reply) (hfirst : c.wins r reply = true → winners r tr = []) :
    Sole r (tr ++ [.call i c reply]) (turn.advance Stage.first ss
      (.call i c reply : Event Call Call.Reply Job)) := by
  have hold : ∀ {j : ℕ} {won : List Settlement} {e : Settlement},
      (turn.advance Stage.first ss (.call i c reply : Event Call Call.Reply Job))[j]? =
        some (.settling won) → e ∈ won → e.id = r →
      (j ∈ winners r tr ∧
        (e.archive = .pending → submitted r tr = [] ∧ (i = j → c.submits r = none))) ∨
        i = j ∧ c.wins r reply = true ∧ c.submits r = none := by
    rintro j won e hss he rfl
    have hnext : (turn.advance Stage.first ss (.call i c reply : Event Call Call.Reply Job))[j]? =
        if i = j then some (s.next c reply) else ss[j]? := Session.getElem?_advance_call hs
    replace hss := hnext.symm.trans hss
    split_ifs at hss with hij
    · subst hij
      rcases Stage.settling_next hallowed hans (Option.some.inj hss) he with
        ⟨won₀, e₀, rfl, he₀, hid, hp⟩ | ⟨hwin, hsub⟩
      · refine Or.inl ⟨h.owner hs he₀ hid, fun hpend ↦ ?_⟩
        obtain ⟨hpend₀, hsub⟩ := hp hpend
        exact ⟨h.pending hs he₀ hid hpend₀, fun _ ↦ hsub⟩
      · exact Or.inr ⟨rfl, hwin, hsub⟩
    · exact Or.inl ⟨h.owner hss he rfl,
        fun hp ↦ ⟨h.pending hss he rfl hp, fun hij' ↦ absurd hij' hij⟩⟩
  refine ⟨?_, fun {j won e} hss he hid ↦ ?_, fun {j won e} hss he hid hp ↦ ?_, ?_, ?_⟩
  · rw [winners_call]
    split_ifs with hwin
    · simp [hfirst hwin]
    · simpa using h.once
  · rw [winners_call]
    rcases hold hss he hid with ⟨hown, -⟩ | ⟨rfl, hwin, -⟩
    · exact List.mem_append_left _ hown
    · simp [hwin]
  · rw [submitted_call]
    cases hsub : c.submits r with
    | none =>
        rcases hold hss he hid with ⟨-, hpend⟩ | ⟨rfl, hwin, -⟩
        · simp [(hpend hp).1]
        · simp [h.unsubmitted (hfirst hwin)]
    | some commit =>
        -- The only winner is the one that submits, so its entry is not pending any more.
        rcases hold hss he hid with ⟨hown, hpend⟩ | ⟨-, -, hnone⟩
        · obtain ⟨hi, -⟩ := h.submits hs hallowed hsub
          have hij : i = j := by
            obtain ⟨k, hk⟩ := List.length_eq_one_iff.mp
              (le_antisymm h.once (List.length_pos_of_mem hi))
            rw [hk, List.mem_singleton] at hi hown
            rw [hi, hown]
          rw [(hpend hp).2 hij] at hsub
          cases hsub
        · rw [hnone] at hsub
          cases hsub
  · rw [submitted_call]
    cases hsub : c.submits r with
    | none => simpa using h.single
    | some commit => simp [(h.submits hs hallowed hsub).2]
  · rw [submitted_call, winners_call]
    intro hne
    cases hsub : c.submits r with
    | none =>
        have hne : submitted r tr ≠ [] := by simpa [hsub] using hne
        exact fun hnil ↦ h.won hne (List.append_eq_nil_iff.mp hnil).1
    | some commit =>
        have hi := (h.submits hs hallowed hsub).1
        intro hnil
        rw [(List.append_eq_nil_iff.mp hnil).1] at hi
        cases hi

end Sole

namespace Funnel

variable {r : ResponseId} {tr : Trace} {w : World} {ss : List Stage}

theorem sole (h : Funnel r tr w ss) : Sole r tr ss :=
  ⟨h.once, h.owner, h.pending, h.single, h.won⟩

theorem start {j : Job} (h : Funnel r tr w ss) (hj : j.mints ≠ some r) :
    Funnel r (tr ++ [.start j]) w (turn.advance Stage.first ss
      (.start j : Event Call Call.Reply Job)) := by
  have hsole := h.sole.start (j := j)
  refine ⟨fun {i s} hs ↦ ?_, hsole.once, ?_, hsole.owner, hsole.pending, hsole.single, hsole.won,
    ?_⟩
  · rcases Session.getElem?_advance_start hs with hs | ⟨-, rfl⟩
    · exact h.foreign hs
    · rwa [Stage.minting_first]
  · simpa using h.closed
  · intro tr₁ i c reply tr₂ heq hset
    rcases snoc_eq_append_cons heq with ⟨-, hstart⟩ | ⟨tr₃, heq⟩
    · cases hstart
    · exact h.settled tr₁ i c reply tr₃ heq hset

theorem call {i : ℕ} {s : Stage} {c : Call} (h : Funnel r tr w ss) (hs : ss[i]? = some s)
    (hallowed : s.Allowed c) :
    Funnel r (tr ++ [.call i c (exec c w).1]) (exec c w).2 (Exclusive.after ss i c w) := by
  have hans := exec_answers c w
  have hforeign := h.foreign hs
  have hwrites : c.writes ≠ some r := fun hw ↦
    hforeign (Stage.minting_of_unwritten (Stage.unwritten_of_writes hallowed hw))
  -- A win finds the record open, so nobody has won before.
  have hfirst : c.wins r (exec c w).1 = true → winners r tr = [] := by
    intro hwin
    obtain ⟨x, x', hx, hopen, -⟩ := exec_wins hwin
    by_contra hne
    obtain ⟨y, hy, hterm⟩ := h.closed hne
    obtain rfl : x = y := Option.some.inj (hx.symm.trans hy)
    rw [hopen] at hterm
    cases hterm
  have hsole := h.sole.call hs hallowed hans hfirst
  refine ⟨fun {j t} ht ↦ ?_, hsole.once, fun hne ↦ ?_, hsole.owner, hsole.pending, hsole.single,
    hsole.won, ?_⟩
  · rw [Exclusive.getElem?_after hs] at ht
    split_ifs at ht with hij
    · obtain rfl := Option.some.inj ht
      exact fun hid ↦ hforeign (Stage.minting_next hallowed hans hid)
    · exact h.foreign ht
  · by_cases hwin : c.wins r (exec c w).1 = true
    · obtain ⟨-, x', -, -, hx', hterm, -⟩ := exec_wins hwin
      exact ⟨x', hx', hterm⟩
    · rw [winners_call, if_neg hwin, List.append_nil] at hne
      obtain ⟨x, hx, hterm⟩ := h.closed hne
      exact ⟨x, terminal_persists hallowed hwrites hx hterm, hterm⟩
  · intro tr₁ j c' reply tr₂ heq hset
    rcases snoc_eq_append_cons heq with ⟨rfl, hlast⟩ | ⟨tr₃, heq⟩
    · obtain ⟨rfl, rfl, -⟩ : i = j ∧ c = c' ∧ HEq (exec c w).1 reply := by simpa using hlast
      obtain ⟨won, e, rfl, he, hid, -⟩ := Stage.settles_allowed hallowed hset hforeign
      exact h.owner hs he hid
    · exact h.settled tr₁ j c' reply tr₃ heq hset

end Funnel

/-! ## Replayed snapshots -/

theorem appended_replay (r : ResponseId) : ∀ (turns : List (ResponseId × TurnCommit))
    (snap : Snapshot), ((snap.replay turns).appended.lookup r).isSome = true ↔
      (snap.appended.lookup r).isSome = true ∨ ∃ commit, (r, commit) ∈ turns := by
  intro turns
  induction turns with
  | nil => simp [Snapshot.replay]
  | cons t turns ih =>
      intro snap
      have hcons : snap.replay (t :: turns) = (addTurn snap t.1 t.2).replay turns := rfl
      rw [hcons, ih, appended_addTurn]
      constructor
      · rintro ((rfl | h) | ⟨commit, h⟩)
        · exact Or.inr ⟨t.2, by simp⟩
        · exact Or.inl h
        · exact Or.inr ⟨commit, by simp [h]⟩
      · rintro (h | ⟨commit, h⟩)
        · exact Or.inl (Or.inr h)
        · rcases List.mem_cons.mp h with rfl | h
          · exact Or.inl (Or.inl rfl)
          · exact Or.inr ⟨commit, h⟩

theorem entries_replay : ∀ (turns : List (ResponseId × TurnCommit)) (snap : Snapshot),
    snap.entries <+: (snap.replay turns).entries := by
  intro turns
  induction turns with
  | nil => exact fun snap ↦ List.prefix_refl _
  | cons t turns ih => exact fun snap ↦ (entries_addTurn snap t.1 t.2).trans (ih _)

/-- The one commit of a response is a piece of the snapshot it was replayed onto. -/
theorem turnEntries_replay {r : ResponseId} {commit : TurnCommit} :
    ∀ (turns : List (ResponseId × TurnCommit)) (snap : Snapshot),
      snap.appended.lookup r = none → (r, commit) ∈ turns →
      (∀ commit', (r, commit') ∈ turns → commit' = commit) →
      turnEntries commit <:+: (snap.replay turns).entries := by
  intro turns
  induction turns with
  | nil => exact fun snap _ h ↦ by cases h
  | cons t turns ih =>
      intro snap hnone hmem honly
      by_cases hr : t.1 = r
      · subst hr
        rw [← honly t.2 (by simp)]
        exact (turnEntries_addTurn t.2 hnone).trans (entries_replay turns _).isInfix
      · refine ih (addTurn snap t.1 t.2) ?_ ?_ fun commit' h ↦ honly commit' (by simp [h])
        · cases h : (addTurn snap t.1 t.2).appended.lookup r with
          | none => rfl
          | some index =>
              rcases (appended_addTurn snap t.1 r t.2).mp (by rw [h]; rfl) with heq | hsome
              · exact absurd heq.symm hr
              · rw [hnone] at hsome
                cases hsome
        · rcases List.mem_cons.mp hmem with rfl | h
          · exact absurd rfl hr
          · exact h

/-! ## Runs -/

theorem submitted_of_history {r : ResponseId} {c : ConversationId} {commit : TurnCommit}
    {tr : Trace} (h : (r, commit) ∈ history c tr) : commit ∈ submitted r tr := by
  obtain ⟨e, he, hadds⟩ := List.mem_filterMap.mp h
  refine List.mem_filterMap.mpr ⟨e, he, ?_⟩
  cases e with
  | start j => cases hadds
  | call i call reply => exact adds_submits hadds

theorem funnel_init (r : ResponseId) (w : World) : Funnel r [] w [] where
  foreign hs := by cases hs
  once := by simp [winners]
  closed hne := absurd rfl hne
  owner hs := by cases hs
  pending hs := by cases hs
  single := by simp [submitted]
  won hne := absurd rfl hne
  settled tr₁ i c reply tr₂ heq := by
    have hlen := congrArg List.length heq
    simp at hlen

theorem funnel_run {r : ResponseId} {w : World} {tr : Trace} {q : State}
    (h : Run system (FunnelStep r) (Pool.init w) tr q) :
    Funnel r tr q.world (turn.track Stage.first tr) := by
  refine (Run.invariant turn Stage.first (fun s _ ↦ s.Restful)
    (I := fun tr q ss ↦ Funnel r tr q.world ss) ?_ ?_ ?_ ?_ (funnel_init r w) h).1
  · exact fun tr q j hok ↦ follows_job hok.1
  · exact fun {tr q ss} c _ ↦ exec_answers c q.world
  · exact fun j hf _ hok ↦ hf.start hok.2
  · exact fun hf _ _ hs hallowed _ ↦ hf.call hs hallowed

/-- While only turns run, a snapshot is what was added to it. -/
theorem snapshot_run {w : World} {tr : Trace} {q : State}
    {ok : Trace → State → Event Call Call.Reply Job → Prop}
    (hok : ∀ tr q j, ok tr q (.start j) → j.OfTurn) (h : Run system ok (Pool.init w) tr q)
    (c : ConversationId) :
    q.world.store.snapshot c = (w.store.snapshot c).replay (history c tr) := by
  induction h with
  | nil => rfl
  | start _ _ ih => rwa [history_start]
  | turn hrun hi _ ih =>
      obtain ⟨s, hs, hfollow⟩ := (turn_keeps hok hrun).session hi
      rw [history_call, Snapshot.replay_append, ← ih]
      exact exec_snapshot (not_erases_of_allowed hfollow.1) _ c

/-- What one funnel means for `r`: a single winner, who alone settles it, and whose one commit
is what the snapshots have of its turn. -/
structure SingleWinner (r : ResponseId) (w : World) (tr : Trace) (q : State) : Prop where
  winner : (winners r tr).length ≤ 1
  settled : ∀ tr₁ i c reply tr₂, tr = tr₁ ++ .call i c reply :: tr₂ → c.Settles r →
    i ∈ winners r tr₁
  snapshot : ∀ c, q.world.store.snapshot c = (w.store.snapshot c).replay (history c tr)
  stored : ∀ c, q.world.store.Archived c r ↔ ∃ commit, (r, commit) ∈ history c tr
  committed : ∀ c commit, (r, commit) ∈ history c tr → submitted r tr = [commit] ∧
    turnEntries commit <:+: (q.world.store.snapshot c).entries

/-- In every run of turns over a response whose turn is not stored yet, one funnel settles it. -/
theorem single_winner {r : ResponseId} {w : World} {tr : Trace} {q : State}
    (hblank : ∀ c, ¬ w.store.Archived c r)
    (h : Run system (FunnelStep r) (Pool.init w) tr q) : SingleWinner r w tr q := by
  have hf := funnel_run h
  have hsnap := snapshot_run (fun _ _ _ hok ↦ hok.1) h
  have honly : ∀ c commit, (r, commit) ∈ history c tr → submitted r tr = [commit] := by
    intro c commit hmem
    have hsub := submitted_of_history hmem
    obtain ⟨commit', hone⟩ := List.length_eq_one_iff.mp
      (le_antisymm hf.single (List.length_pos_of_mem hsub))
    rw [hone, List.mem_singleton] at hsub
    rw [hone, hsub]
  refine ⟨hf.once, hf.settled, hsnap, fun c ↦ ?_, fun c commit hmem ↦ ⟨honly c commit hmem, ?_⟩⟩
  · rw [MemStore.Archived, hsnap, appended_replay]
    exact or_iff_right (hblank c)
  · rw [hsnap]
    refine turnEntries_replay _ _ (Option.not_isSome_iff_eq_none.mp (hblank c)) hmem
      fun commit' hmem' ↦ ?_
    simpa using (honly c commit' hmem').symm.trans (honly c commit hmem)

/-- The sample world with the turn of response 1 queued. -/
def Sample.queuedWorld : World :=
  (((ResponsesService.create Sample.cfg 4 Sample.tenant Sample.spec none ⟨1⟩).run exec
    Sample.world).map Prod.snd).getD {}

/-- A runtime completes the response; the cancellation that comes between loses. -/
theorem single_winner_completed : ∃ tr q,
    Run system (FunnelStep (Sample.id 1)) (Pool.init Sample.queuedWorld) tr q ∧
      winners (Sample.id 1) tr = [0] ∧ q.world.store.Archived Sample.talk (Sample.id 1) ∧
      SingleWinner (Sample.id 1) Sample.queuedWorld tr q := by
  have hblank : ∀ c, ¬ Sample.queuedWorld.store.Archived c (Sample.id 1) := by
    intro c hc
    cases hc
  obtain ⟨tr, q, h, htest⟩ := Run.exists_of_schedule system (Pool.init Sample.queuedWorld)
    (fun tr q e ↦ decide (FunnelStep (Sample.id 1) tr q e))
    (fun tr q ↦ decide (winners (Sample.id 1) tr = [0]) &&
      decide (q.world.store.Archived Sample.talk (Sample.id 1)))
    (fun tr q e ↦ of_decide_eq_true)
    (Sample.work :: .start (.cancel Sample.cfg 4 Sample.tenant (Sample.id 1)) ::
      Sample.steps 0 5 ++ Sample.steps 1 2 ++ Sample.steps 0 6) (by decide +kernel)
  simp only [Bool.and_eq_true, decide_eq_true_eq] at htest
  exact ⟨tr, q, h, htest.1, htest.2, single_winner hblank h⟩

end NovaChat
