import NovaChat.Admission.History
import NovaChat.Interact.Guard
import NovaChat.Lifecycle.Stages
import Mathlib.Data.List.Induction
import Mathlib.Data.List.Perm.Subperm

/-!
# The pending limit

A node holds a create against its limit by a count it asked the carrier for, and creates in a
second round trip.  Between the two, others may have been accepted: the create has been overtaken,
and what the node saw no longer bounds what is there.

The pool here is one of port calls as the clients carry them out, so that each step is one round
trip of some node to the carrier.
-/

namespace NovaChat

open Interact Prog

/-! ## Counting -/

/-- The responses that have not ended. -/
def MemStore.unended (s : MemStore) : List ResponseId :=
  (s.inner.records.entries.filter fun e ↦ !e.2.status.isTerminal).map Sigma.fst

section Counting

variable {s s' : MemStore} {r : ResponseId}

theorem length_unended (s : MemStore) : s.unended.length = s.inner.inFlightCount := by
  simp only [MemStore.unended, Inner.inFlightCount, HashMap.values, List.filter_map,
    List.length_map, Function.comp_def]

theorem nodup_unended (s : MemStore) : s.unended.Nodup :=
  List.Nodup.sublist (List.filter_sublist.map _) s.inner.records.nodupKeys

theorem mem_unended : r ∈ s.unended ↔ ∃ x, s.record r = some x ∧ x.status.isTerminal = false := by
  simp only [MemStore.unended, List.mem_map, List.mem_filter, Bool.not_eq_true']
  constructor
  · rintro ⟨⟨r', x⟩, ⟨hmem, hopen⟩, rfl⟩
    exact ⟨x, (HashMap.mem_entries_iff _ _ _).mp hmem, hopen⟩
  · rintro ⟨x, hx, hopen⟩
    exact ⟨⟨r, x⟩, ⟨(HashMap.mem_entries_iff _ _ _).mpr hx, hopen⟩, rfl⟩

theorem inFlightCount_le {extra : List ResponseId}
    (h : ∀ r ∈ s'.unended, r ∈ extra ∨ r ∈ s.unended) :
    s'.inner.inFlightCount ≤ s.inner.inFlightCount + extra.length := by
  rw [← length_unended, ← length_unended, Nat.add_comm, ← List.length_append]
  exact (List.Nodup.subperm (nodup_unended s') fun r hr ↦
    List.mem_append.mpr (h r hr)).length_le

end Counting

/-- A response that has not ended was just accepted, or had not ended before. -/
theorem unended_exec {c : Call} {w : World} {r : ResponseId}
    (h : r ∈ (exec c w).2.store.unended) :
    r ∈ (createdId ⟨c, (exec c w).1⟩).toList ∨ r ∈ w.store.unended := by
  obtain ⟨y, hy, hopen⟩ := mem_unended.mp h
  by_cases hwrites : c.writes = some r
  · unfold Call.writes at hwrites
    split at hwrites
    · next record key now =>
        rcases exec_create record key now w with ⟨-, heq⟩ | ⟨x, hx, hsign, -, -⟩
        · rw [heq] at h
          exact Or.inr h
        · left
          have hid : x.responseId = r := by
            rw [MemResponseLedger.sign_spec hsign]
            exact Option.some.inj hwrites
          rw [hx]
          simp [createdId, hid]
    · cases hwrites
  · obtain ⟨x, hx, hstage⟩ := record_stage hwrites hy
    refine Or.inr (mem_unended.mpr ⟨x, hx, ?_⟩)
    cases hterm : x.status.isTerminal with
    | false => rfl
    | true =>
        rw [hstage.advances.terminal hterm, hterm] at hopen
        cases hopen

theorem inFlightCount_exec (c : Call) (w : World) :
    (exec c w).2.store.inner.inFlightCount ≤
      w.store.inner.inFlightCount + (createdId ⟨c, (exec c w).1⟩).toList.length :=
  inFlightCount_le fun _ ↦ unended_exec

/-! ## Calls through a node's clients -/

/-- A port call made by a service of a node. -/
abbrev Use := ℕ × Call

/-- Every round trip to the carrier is one atomic step. -/
def clients : System Call Call.Reply World Use where
  exec := exec
  prog u := Client.carry u.1 u.2 >>= fun _ ↦ .ret ()

/-- What a client has asked when it creates: the limit was above every count it saw. -/
def Checked (u : Use) (xs : Exchanges) (c : Call) : Prop :=
  c.writes ≠ none → u.2.writes ≠ none ∧
    ∀ seen, (⟨.ledger .inFlight, .ok seen⟩ : Exchange Call Call.Reply) ∈ xs →
      ∃ limit, (⟨.node (.pendingLimit u.1), limit⟩ : Exchange Call Call.Reply) ∈ xs ∧ seen < limit

section Carry

variable {u : Use} {xs : Exchanges}

theorem checked_of_not_writes {c : Call} (hc : c.writes = none) : Checked u xs c :=
  fun h ↦ absurd hc h

theorem guarded_forward_create {node : ℕ} {record : ResponseRecord} {key : IdempotencyKey}
    {now : ℕ} (hxs : ∀ seen,
      (⟨.ledger .inFlight, .ok seen⟩ : Exchange Call Call.Reply) ∉ xs) :
    (Client.forward node (.ledger (.create record key now))).Guarded
      (Checked (node, .ledger (.create record key now))) xs := by
  refine ⟨checked_of_not_writes rfl, fun reply ↦ ?_⟩
  cases reply with
  | error e => trivial
  | ok inFlight =>
      refine ⟨checked_of_not_writes rfl, fun limit ↦ ?_⟩
      show Guarded _ _ (ite _ _ _)
      split
      · trivial
      · next hlt =>
          refine ⟨fun _ ↦ ⟨nofun, fun seen hseen ↦ ⟨limit, by simp, ?_⟩⟩, fun _ ↦ trivial⟩
          have heq : seen = inFlight := by simpa [hxs seen] using hseen
          rw [heq]
          exact Nat.lt_of_not_le hlt

theorem guarded_forward (node : ℕ) (c : Call)
    (hxs : ∀ seen, (⟨.ledger .inFlight, .ok seen⟩ : Exchange Call Call.Reply) ∉ xs) :
    (Client.forward node c).Guarded (Checked (node, c)) xs := by
  cases hc : c.writes with
  | none =>
      have hforward : Client.forward node c = perform c := by
        unfold Client.forward
        split
        · cases hc
        · rfl
      rw [hforward]
      exact ⟨checked_of_not_writes hc, fun _ ↦ trivial⟩
  | some r =>
      unfold Call.writes at hc
      split at hc
      · exact guarded_forward_create hxs
      · cases hc

theorem guarded_carry (node : ℕ) (c : Call) :
    (Client.carry node c).Guarded (Checked (node, c)) [] := by
  unfold Client.carry
  split
  · exact guarded_forward node c fun _ ↦ List.not_mem_nil
  · refine ⟨checked_of_not_writes rfl, fun readOnly ↦ ?_⟩
    show Guarded _ _ (ite _ _ _)
    split
    · trivial
    · exact guarded_forward node c fun seen h ↦ by cases List.mem_singleton.mp h

theorem guarded_clients (u : Use) : (clients.prog u).Guarded (Checked u) [] :=
  (guarded_carry u.1 u.2).bind fun _ _ _ ↦ trivial

end Carry

/-! ## Overtaking -/

/-- What one event does to the count process `i` goes by: it asks for it, and whatever is accepted
makes it out of date. -/
def sighted (i : ℕ) (seen : Option ℕ) : Event Call Call.Reply Use → Option ℕ
  | .start _ => seen
  | .call pid c reply =>
    if (createdId ⟨c, reply⟩).isSome then none
    else
      match c, reply with
      | .ledger .inFlight, .ok n => if pid = i then some n else seen
      | _, _ => seen

/-- The count process `i` goes by, unless it has been overtaken since it asked. -/
def sight (i : ℕ) (tr : List (Event Call Call.Reply Use)) : Option ℕ := tr.foldl (sighted i) none

section Sight

variable {i : ℕ} {tr : List (Event Call Call.Reply Use)} {n : ℕ}

@[simp] theorem sight_snoc (e : Event Call Call.Reply Use) :
    sight i (tr ++ [e]) = sighted i (sight i tr) e := by
  simp [sight]

theorem sighted_call {pid : ℕ} {c : Call} {reply : c.Reply} {seen : Option ℕ}
    (h : sighted i seen (.call pid c reply) = some n) :
    createdId ⟨c, reply⟩ = none ∧ (seen = some n ∨
      (⟨c, reply⟩ : Exchange Call Call.Reply) = ⟨.ledger .inFlight, .ok n⟩ ∧ pid = i) := by
  simp only [sighted] at h
  split at h
  · cases h
  · next hnone =>
      refine ⟨by simpa using hnone, ?_⟩
      split at h
      · split_ifs at h with hpid
        · exact Or.inr ⟨by rw [Option.some.inj h], hpid⟩
        · exact Or.inl h
      · exact Or.inl h

theorem call_of_sight (h : sight i tr = some n) : .call i (.ledger .inFlight) (.ok n) ∈ tr := by
  induction tr using List.reverseRecOn with
  | nil => cases h
  | append_singleton tr e ih =>
      rw [sight_snoc] at h
      cases e with
      | start u => exact List.mem_append_left _ (ih h)
      | call pid c reply =>
          rcases (sighted_call h).2 with hseen | ⟨heq, rfl⟩
          · exact List.mem_append_left _ (ih hseen)
          · obtain ⟨rfl, hreply⟩ := Exchange.mk.inj heq
            obtain rfl := eq_of_heq hreply
            exact List.mem_append_right _ (List.mem_singleton_self _)

end Sight

/-- Only node `node` creates.  Its limit stays `limit`, and the carrier's is no lower. -/
def OneNode (node limit : ℕ) (_ : List (Event Call Call.Reply Use))
    (q : Pool Call Call.Reply World Use) : Event Call Call.Reply Use → Prop
  | .start u => u.2.writes ≠ none → u.1 = node
  | .call .. => (q.world.nodes node).pendingLimit = limit ∧ limit ≤ q.world.store.pendingLimit

/-- The carrier would accept a record under a key. -/
structure World.Accepts (w : World) (record : ResponseRecord) (key : IdempotencyKey) : Prop where
  signed : ∃ x, MemResponseLedger.sign w.nfc w.integrity record = .ok x
  idem : w.store.inner.idem.lookup key = none
  writable : w.store.readOnly = false
  pending : w.store.inner.inFlightCount < w.store.pendingLimit
  room : HashMap.size w.store.inner.records < w.store.maxRecords

/-- A create the carrier would accept has not been overtaken since it asked for the count. -/
def InTime (tr : List (Event Call Call.Reply Use)) (q : Pool Call Call.Reply World Use) :
    Event Call Call.Reply Use → Prop
  | .call i (.ledger (.create record key _)) _ => q.world.Accepts record key → sight i tr ≠ none
  | _ => True

/-- A create that is accepted was acceptable. -/
theorem accepts_of_createdId {record : ResponseRecord} {key : IdempotencyKey} {now : ℕ} {w : World}
    {r : ResponseId}
    (h : createdId ⟨.ledger (.create record key now),
        (exec (.ledger (.create record key now)) w).1⟩ =
      some r) : w.Accepts record key := by
  rcases MemResponseLedger.create_cases w.nfc w.integrity w.store record key with
    ⟨reply, hreply, heq⟩ | ⟨x, hsign, hidem, hwritable, hpending, hroom, -⟩
  · have hexec : (exec (.ledger (.create record key now)) w).1 = reply := by
      simp [exec, execLedger, heq]
    rw [hexec] at h
    unfold createdId at h
    split at h
    · next hx =>
        obtain ⟨hcall, hheq⟩ := Exchange.mk.inj hx
        cases hcall
        exact absurd (eq_of_heq hheq) (hreply _)
    · cases h
  · exact ⟨⟨x, hsign⟩, hidem, hwritable, hpending, hroom⟩

/-! ## Every run -/

section Runs

variable {node limit : ℕ} {w : World} {tr : List (Event Call Call.Reply Use)}
  {q : Pool Call Call.Reply World Use}

/-- A count the node saw and has since held against its limit is below it. -/
theorem lt_limit_of_sight {ok : List (Event Call Call.Reply Use) → Pool Call Call.Reply World Use →
      Event Call Call.Reply Use → Prop} (hok : ∀ tr q e, ok tr q e → OneNode node limit tr q e)
    (h : Run clients ok (Pool.init w) tr q) {i : ℕ} {u : Use} {c : Call}
    {k : c.Reply → Service Unit} (hi : q.procs[i]? = some ⟨u, .call c k⟩) (hc : c.writes ≠ none)
    {n : ℕ} (hn : sight i tr = some n) : n < limit := by
  have hsteps := (guarded_clients u).steps (h.steps.1 i _ hi)
  rw [List.nil_append] at hsteps
  obtain ⟨hcreates, hchecked⟩ := hsteps.1 hc
  have hstart : ∀ tr q u, ok tr q (.start u) → (fun u : Use ↦ u.2.writes ≠ none → u.1 = node) u :=
    fun tr q u hstart ↦ hok tr q (.start u) hstart
  have hnode : u.1 = node := h.good_of_jobAt hstart (Pool.jobAt_of_procs hi) hcreates
  obtain ⟨limit', hlimit, hlt⟩ := hchecked n (mem_exchangesOf.mpr (call_of_sight hn))
  obtain ⟨tr₁, q₁, -, hpermitted, hreply⟩ := h.of_mem (mem_exchangesOf.mp hlimit)
  have heq : limit' = limit := by
    rw [hreply, hnode]
    exact (hok _ _ _ hpermitted).1
  rwa [heq] at hlt

/-- In every run in which no create that could be accepted has been overtaken, the limit holds. -/
theorem limit_kept (h₀ : w.store.inner.inFlightCount ≤ limit)
    (h : Run clients (fun tr q e ↦ OneNode node limit tr q e ∧ InTime tr q e)
      (Pool.init w) tr q) :
    q.world.store.inner.inFlightCount ≤ limit := by
  -- What a process goes by bounds what is there.
  suffices hinv : q.world.store.inner.inFlightCount ≤ limit ∧
      ∀ i n, sight i tr = some n → q.world.store.inner.inFlightCount ≤ n from hinv.1
  induction h with
  | nil => exact ⟨h₀, fun i n h ↦ by cases h⟩
  | start _ _ ih =>
      refine ⟨ih.1, fun i n h ↦ ?_⟩
      rw [sight_snoc] at h
      exact ih.2 i n h
  | @turn tr q i u c k hrun hi hstep ih =>
      obtain ⟨hcount, hsight⟩ := ih
      have hexec : (clients.exec c q.world).2.store.inner.inFlightCount ≤ _ :=
        inFlightCount_exec c q.world
      cases hcreated : createdId ⟨c, (exec c q.world).1⟩ with
      | none =>
          rw [hcreated] at hexec
          refine ⟨hexec.trans hcount, fun i' n hn ↦ ?_⟩
          rw [sight_snoc] at hn
          rcases (sighted_call hn).2 with hseen | ⟨heq, -⟩
          · exact hexec.trans (hsight i' n hseen)
          · obtain ⟨rfl, hreply⟩ := Exchange.mk.inj heq
            obtain rfl := Except.ok.inj (eq_of_heq hreply)
            exact hexec
      | some r =>
          refine ⟨?_, fun i' n hn ↦ ?_⟩
          · obtain ⟨record, key, now, x, rfl, -⟩ := createdId_exec hcreated
            rw [hcreated] at hexec
            -- The client went by a count that still bounds what is there, and held it against its
            -- limit.
            obtain ⟨n, hn⟩ :=
              Option.ne_none_iff_exists'.mp (hstep.2 (accepts_of_createdId hcreated))
            have hroom : q.world.store.inner.inFlightCount < limit :=
              (hsight i n hn).trans_lt (lt_limit_of_sight (fun _ _ _ h ↦ h.1) hrun hi nofun hn)
            exact hexec.trans hroom
          · rw [sight_snoc] at hn
            have hnone := (sighted_call hn).1
            rw [show createdId ⟨c, (clients.exec c q.world).1⟩ = some r from hcreated] at hnone
            cases hnone

/-- A create that is accepted once the limit is reached breaks it at once, if it brings a response
that has not ended under an id of its own. -/
theorem limit_broken {record : ResponseRecord} {key : IdempotencyKey} {now : ℕ}
    (haccepts : w.Accepts record key) (hfull : limit ≤ w.store.inner.inFlightCount)
    (hfresh : w.store.record record.responseId = none)
    (hopen : record.status.isTerminal = false) :
    limit < (exec (.ledger (.create record key now)) w).2.store.inner.inFlightCount := by
  obtain ⟨x, hsign⟩ := haccepts.signed
  have hx := MemResponseLedger.sign_spec hsign
  have hid : x.responseId = record.responseId := by rw [hx]
  have hstatus : x.status = record.status := by rw [hx]
  simp only [exec, execLedger, World.withStore_snd, MemResponseLedger.create_of_room hsign
    haccepts.idem haccepts.writable haccepts.pending haccepts.room]
  have hnodup : (record.responseId :: w.store.unended).Nodup := by
    refine List.nodup_cons.mpr ⟨fun hmem ↦ ?_, nodup_unended _⟩
    obtain ⟨y, hy, -⟩ := mem_unended.mp hmem
    cases hfresh.symm.trans hy
  have hsub : record.responseId :: w.store.unended ⊆
      (MemResponseLedger.enqueue w.store x key).unended := by
    intro r hr
    rw [mem_unended]
    simp only [MemResponseLedger.record_enqueue, hid]
    rcases List.mem_cons.mp hr with rfl | hr
    · exact ⟨x, if_pos rfl, hstatus ▸ hopen⟩
    · obtain ⟨y, hy, hyopen⟩ := mem_unended.mp hr
      refine ⟨y, ?_, hyopen⟩
      rw [if_neg]
      · exact hy
      · rintro rfl
        cases hfresh.symm.trans hy
  have hlength := (List.Nodup.subperm hnodup hsub).length_le
  rw [List.length_cons, length_unended, length_unended] at hlength
  omega

end Runs

/-! ## Two creates -/

def oneNodeCheck (node limit : ℕ) (_ : List (Event Call Call.Reply Use))
    (q : Pool Call Call.Reply World Use) : Event Call Call.Reply Use → Bool
  | .start u => u.2.writes.isNone || decide (u.1 = node)
  | .call .. =>
    decide ((q.world.nodes node).pendingLimit = limit ∧ limit ≤ q.world.store.pendingLimit)

def inTimeCheck (tr : List (Event Call Call.Reply Use)) : Event Call Call.Reply Use → Bool
  | .call i (.ledger (.create ..)) _ => (sight i tr).isSome
  | _ => true

section Checks

variable {node limit : ℕ} {tr : List (Event Call Call.Reply Use)}
  {q : Pool Call Call.Reply World Use} {e : Event Call Call.Reply Use}

theorem oneNode_of_check (h : oneNodeCheck node limit tr q e = true) :
    OneNode node limit tr q e := by
  cases e with
  | start u =>
      intro hwrites
      rcases Bool.or_eq_true_iff.mp h with hnone | hnode
      · exact absurd (Option.isNone_iff_eq_none.mp hnone) hwrites
      · exact of_decide_eq_true hnode
  | call i c reply =>
      show _ ∧ _
      exact of_decide_eq_true h

theorem inTime_of_check (h : inTimeCheck tr e = true) : InTime tr q e := by
  cases e with
  | start u => trivial
  | call i c reply =>
      rcases c with _ | c | c | c | c | c <;> try trivial
      cases c with
      | create record key now => exact fun _ ↦ Option.isSome_iff_ne_none.mp h
      | _ => trivial

end Checks

namespace Sample

/-- A node that lets one response be pending. -/
def tight : World := execMode {} (.setNodePendingLimit 0 1)

/-- A service of the node files a response. -/
def place (n : BitVec 128) : Action Use := .start (0, file n 0)

end Sample

/-- A create that finds room, and one that is refused. -/
theorem limit_kept_refused : ∃ tr q, Run clients
    (fun tr q e ↦ OneNode 0 1 tr q e ∧ InTime tr q e) (Pool.init Sample.tight) tr q ∧
      tr.length = 9 ∧ q.world.store.inner.inFlightCount ≤ 1 := by
  obtain ⟨tr, q, h, htest⟩ := @Run.exists_of_schedule _ _ _ _
    (fun tr q e ↦ OneNode 0 1 tr q e ∧ InTime tr q e) clients (Pool.init Sample.tight)
    (fun tr q e ↦ oneNodeCheck 0 1 tr q e && inTimeCheck tr e)
    (fun tr _ ↦ decide (tr.length = 9))
    (fun tr q e he ↦ by
      obtain ⟨hnode, htime⟩ := Bool.and_eq_true_iff.mp he
      exact ⟨oneNode_of_check hnode, inTime_of_check htime⟩)
    (Sample.place 1 :: List.replicate 4 (.turn 0) ++ Sample.place 2 ::
      List.replicate 3 (.turn 1)) (by decide +kernel)
  exact ⟨tr, q, h, of_decide_eq_true htest, limit_kept (by decide +kernel) h⟩

/-- Two creates that both saw an empty ledger are both accepted. -/
theorem limit_overrun : ¬ ∀ (node limit : ℕ) (w : World) (tr : List (Event Call Call.Reply Use))
    (q : Pool Call Call.Reply World Use), w.store.inner.inFlightCount ≤ limit →
      Run clients (OneNode node limit) (Pool.init w) tr q →
        q.world.store.inner.inFlightCount ≤ limit := by
  intro hclaim
  obtain ⟨tr, q, h, htest⟩ := @Run.exists_of_schedule _ _ _ _ (OneNode 0 1) clients
    (Pool.init Sample.tight) (oneNodeCheck 0 1)
    (fun _ q ↦ decide (q.world.store.inner.inFlightCount = 2)) (fun _ _ _ ↦ oneNode_of_check)
    (Sample.place 1 :: Sample.place 2 :: List.replicate 3 (.turn 0) ++
      List.replicate 4 (.turn 1) ++ [.turn 0]) (by decide +kernel)
  have hle := hclaim 0 1 _ tr q (by decide +kernel) h
  rw [of_decide_eq_true htest] at hle
  exact absurd hle (by decide)

end NovaChat
