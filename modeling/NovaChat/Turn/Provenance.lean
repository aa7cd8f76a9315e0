import NovaChat.Turn.Fence

/-!
# Where a turn comes from

Every job may run beside every other: turns, streams, deletions, purges and new conversations.  What
any of them learns of a response from the ledger was filed once, by the create that was accepted
for it, and stays true when the record is long gone.
-/

namespace NovaChat

open Interact Prog

/-! ## The session of every job -/

/-- The calls of the jobs that are no part of a turn: a new conversation is idle. -/
def Call.Apart : Call → Prop
  | .nowMs | .ledger (.get _) | .ledger (.delete _) | .ledger (.deleteByTenant _)
  | .eventLog (.readAfter ..) | .eventLog (.remove _) | .conversations (.deleteByTenant _)
  | .conversations (.appendEvent ..) => True
  | .conversations (.create x) => x.activeResponseId = none
  | _ => False

/-- The session of a turn, which a process outside turns never leaves its first stage of. -/
def jobs : Session Call Call.Reply where
  State := Stage
  allowed s c := s.Allowed c ∨ s = .idle ∧ c.Apart
  answers := Call.Answers
  next := Stage.next
  rest := Stage.Restful

theorem next_apart {c : Call} (hc : c.Apart) (r : c.Reply) : Stage.next .idle c r = .idle := by
  rcases c with _ | c | c | c | c | c
  · rfl
  · cases c <;> first | exact hc.elim | rfl
  · cases c <;> first | exact hc.elim | (cases r <;> rfl)
  · cases c <;> first | exact hc.elim | rfl
  · exact hc.elim
  · exact hc.elim

/-- What those calls add to a conversation: a new one has neither marker nor tail, and the only
event besides those of the turn lock is that of a deletion. -/
def Call.Beside : Call → Prop
  | .conversations (.create x) => x.activeResponseId = none ∧ x.lastResponseId = none
  | .conversations (.appendEvent _ _ kind _) => ∃ id, kind = .responseDeleted id
  | c => c.Apart

theorem Call.Beside.apart {c : Call} (hc : c.Beside) : c.Apart := by
  rcases c with _ | c | c | c | c | c
  · trivial
  · exact hc
  · exact hc
  · cases c <;> first | exact hc | exact hc.1 | trivial
  · exact hc
  · exact hc

theorem beside_openStream (rounds : ℕ) (id : ResponseId) (cursor : Option ℕ) :
    (Gateway.openStream rounds id cursor).OnlyCalls Call.Beside := by
  refine (pages_openStream rounds id cursor).mono fun c hc ↦ ?_
  obtain ⟨cursor', limit, rfl⟩ := hc
  trivial

theorem beside_streamImpl (rounds : ℕ) (id : ResponseId) (cursor : Option ℕ) (tenant : TenantId) :
    (Gateway.streamImpl rounds id cursor tenant).OnlyCalls Call.Beside := by
  refine ⟨trivial, fun r ↦ ?_⟩
  rcases r with e | (_ | x)
  · exact beside_openStream rounds id cursor
  · exact beside_openStream rounds id cursor
  · show OnlyCalls _ (ite _ _ _)
    split
    · exact trivial
    · exact beside_openStream rounds id cursor

theorem beside_delete (tenant : TenantId) (id : ResponseId) :
    (ResponsesService.delete tenant id).OnlyCalls Call.Beside := by
  refine ⟨trivial, fun found ↦ ⟨trivial, fun r ↦ ?_⟩⟩
  rcases r with e | deleted
  · exact trivial
  refine ⟨trivial, fun _ ↦ ?_⟩
  dsimp only
  split
  · exact ⟨trivial, fun _ ↦ ⟨⟨id, rfl⟩, fun _ ↦ trivial⟩⟩
  · exact trivial

/-- What jobs outside turns add to a conversation. -/
theorem beside_job {j : Job} (hj : ¬ j.OfTurn) : j.prog.OnlyCalls Call.Beside := by
  cases j with
  | stream rounds id cursor tenant =>
      exact (beside_streamImpl rounds id cursor tenant).bind fun _ ↦ trivial
  | delete tenant id => exact (beside_delete tenant id).bind fun _ ↦ trivial
  | purge tenant =>
      refine ⟨trivial, fun r ↦ ?_⟩
      rcases r with e | n
      · exact trivial
      · refine ⟨trivial, fun r ↦ ?_⟩
        rcases r with e | n <;> exact trivial
  | createConversation uuid tenant metadata =>
      exact ⟨trivial, fun _ ↦ ⟨⟨rfl, rfl⟩, fun _ ↦ trivial⟩⟩
  | _ => exact absurd trivial hj

theorem apart_job {j : Job} (hj : ¬ j.OfTurn) : j.prog.OnlyCalls Call.Apart :=
  (beside_job hj).mono fun _ ↦ Call.Beside.apart

theorem follows_jobs (j : Job) : jobs.Follows (fun s _ ↦ s.Restful) (Stage.first j) j.prog := by
  by_cases hj : j.OfTurn
  · exact Session.Follows.map (S := turn) (T := jobs) (f := id) (fun _ _ h _ ↦ Or.inl h)
      (fun _ _ h ↦ h) (fun _ _ _ _ ↦ rfl) (fun _ h ↦ h) (fun _ _ h ↦ h) (follows_job hj)
      (onlyCalls_true j.prog)
  · have hfirst : Stage.first j = .idle := by
      cases j <;> first | rfl | exact absurd trivial hj
    rw [hfirst]
    refine (Session.Follows.of_onlyCalls (apart_job hj) (fun c hc ↦ ?_) trivial).mono
      fun s _ hs ↦ ?_
    · exact ⟨Or.inr ⟨rfl, hc⟩, fun r _ ↦ next_apart hc r⟩
    · subst hs
      exact trivial

/-- The session that says no more than that every call satisfies `P`. -/
def obeying (P : Call → Prop) : Session Call Call.Reply where
  State := Unit
  allowed _ c := P c
  answers := Call.Answers
  next _ _ _ := ()
  rest _ := True

/-- The rule for invariants that need to know of the jobs only which calls they make. -/
theorem run_obeys {P : Call → Prop} (hturn : ∀ s c, Stage.Allowed s c → P c)
    (hbeside : ∀ c : Call, c.Beside → P c) {ok : Trace → State → Event Call Call.Reply Job → Prop}
    {I : Trace → State → Prop}
    (hstart : ∀ {tr q} j, I tr q → ok tr q (.start j) → I (tr ++ [.start j]) (q.start system j))
    (hcall : ∀ {tr q i j c k}, I tr q → q.procs[i]? = some ⟨j, .call c k⟩ → P c →
      ok tr q (.call i c (exec c q.world).1) →
      I (tr ++ [.call i c (exec c q.world).1]) (q.turn system i j c k))
    {w : World} (h0 : I [] (Pool.init w)) {tr : Trace} {q : State}
    (h : Run system ok (Pool.init w) tr q) : I tr q := by
  have hjob : ∀ j : Job, (obeying P).Follows (fun _ _ ↦ True) () j.prog := by
    intro j
    by_cases hj : j.OfTurn
    · exact Session.Follows.map (S := turn) (T := obeying P) (f := fun _ ↦ ())
        (fun s c hc _ ↦ hturn s c hc) (fun _ _ h ↦ h) (fun _ _ _ _ ↦ rfl) (fun _ _ ↦ trivial)
        (fun _ _ _ ↦ trivial) (follows_job hj) (onlyCalls_true j.prog)
    · exact (Session.Follows.of_onlyCalls (S := obeying P) (beside_job hj)
        (fun c hc ↦ ⟨hbeside c hc, fun _ _ ↦ rfl⟩) trivial).mono fun _ _ _ ↦ trivial
  refine (Run.invariant (obeying P) (fun _ ↦ ()) (fun _ _ ↦ True) (fun _ _ j _ ↦ hjob j)
    (I := fun tr q _ ↦ I tr q) ?_ ?_ ?_ h0 h).1
  · exact fun c _ ↦ exec_answers c _
  · exact fun j hI _ hok ↦ hstart j hI hok
  · exact fun hI _ hi _ hc hok ↦ hcall hI hi hc hok

theorem unwritten_of_jobs {s : Stage} {c : Call} {id : ResponseId} (h : jobs.allowed s c)
    (hc : c.writes = some id) : s.unwritten = some id := by
  rcases h with h | ⟨-, hapart⟩
  · exact Stage.unwritten_of_writes h hc
  · rcases c with _ | c | c | c | c | c <;> try cases hc
    cases c <;> first | exact hapart.elim | cases hc

/-! ## What is filed, and what is told -/

/-- Whose a response is, and what its turn is. -/
structure Origin where
  id : ResponseId
  tenant : TenantId
  turn : TurnInfo

def ResponseRecord.origin (x : ResponseRecord) : Origin := ⟨x.responseId, x.tenantId, x.turnInfo⟩

def AbortedClaim.origin (a : AbortedClaim) : Origin := ⟨a.responseId, a.tenantId, a.turnInfo⟩

theorem ResponseRecord.Advances.origin {x y : ResponseRecord} (h : x.Advances y) :
    y.origin = x.origin := by
  simp only [ResponseRecord.origin, ResponseRecord.turnInfo, ResponseRecord.conversationId,
    h.responseId, h.tenantId, h.spec]

/-- The response an accepted create has filed. -/
def filing : Event Call Call.Reply Job → Option Origin
  | .call _ (.ledger (.create ..)) (.ok (.accepted x)) => some x.origin
  | _ => none

/-- The responses that have been filed, oldest first. -/
def filings (tr : Trace) : List Origin := tr.filterMap filing

/-- What a reply of the ledger tells of responses. -/
def Call.tells : (c : Call) → c.Reply → List Origin
  | .ledger (.get _), .ok (some x) => [x.origin]
  | .ledger (.claim ..), .ok (some claimed) => [claimed.record.origin]
  | .ledger (.reap ..), .ok aborted => aborted.map AbortedClaim.origin
  | _, _ => []

section Traces

variable (tr : Trace) (j : Job) (i : ℕ) (c : Call) (r : c.Reply)

@[simp] theorem filings_nil : filings [] = [] := rfl

@[simp] theorem filings_start : filings (tr ++ [.start j]) = filings tr := by
  simp [filings, filing]

@[simp] theorem filings_call :
    filings (tr ++ [.call i c r]) = filings tr ++ (filing (.call i c r)).toList := by
  cases h : filing (.call i c r) <;> simp [filings, h]

end Traces

/-- A filing is a write that the ledger has accepted. -/
theorem filing_exec {i : ℕ} {c : Call} {w : World} {o : Origin}
    (h : filing (.call i c (exec c w).1) = some o) :
    ∃ record key now x, c = .ledger (.create record key now) ∧
      x = { record with integrity := x.integrity } ∧ x.origin = o ∧
      (exec c w).2 = { w with store := MemResponseLedger.enqueue w.store x key } := by
  unfold filing at h
  split at h
  · next record key now x heq =>
      obtain ⟨-, rfl, hreply⟩ := Event.call.inj heq
      rcases exec_create record key now w with ⟨hnot, -⟩ | ⟨y, hy, hsign, -, hstore⟩
      · exact absurd (eq_of_heq hreply) (hnot x)
      · obtain rfl : y = x := by simpa [hy] using eq_of_heq hreply
        exact ⟨record, key, now, y, rfl, MemResponseLedger.sign_spec hsign, Option.some.inj h,
          hstore⟩
  · cases h

/-- The minted ids of a run are new. -/
def MintStep (tr : Trace) (_ : State) : Event Call Call.Reply Job → Prop
  | .start j => ∀ id ∈ j.mints, id ∉ minted tr
  | .call _ _ _ => True

instance (tr : Trace) (q : State) : DecidablePred (MintStep tr q)
  | .start j => inferInstanceAs (Decidable (∀ id ∈ j.mints, id ∉ minted tr))
  | .call _ _ _ => .isTrue trivial

/-- What a process knows of the turns it has to do with was filed. -/
def Stage.Knows (os : List Origin) : Stage → Prop
  | serving record => record.origin ∈ os
  | settling won => ∀ e ∈ won, ∀ t, e.turn = some t → ∃ tenant, ⟨e.id, tenant, t⟩ ∈ os
  | _ => True

theorem Stage.Knows.mono {os os' : List Origin} {s : Stage} (h : s.Knows os)
    (hos : ∀ o ∈ os, o ∈ os') : s.Knows os' := by
  cases s with
  | serving record => exact hos _ h
  | settling won =>
      intro e he t ht
      obtain ⟨tenant, hmem⟩ := h e he t ht
      exact ⟨tenant, hos _ hmem⟩
  | _ => trivial

/-- A process that is told only what was filed knows only what was filed. -/
theorem Stage.Knows.next {os : List Origin} {s : Stage} {c : Call} {r : c.Reply}
    (h : s.Knows os) (htold : ∀ o ∈ c.tells r, o ∈ os) (hget : ∀ id x, c = .ledger (.get id) →
      HEq r (Except.ok (some x) : Except LedgerError (Option ResponseRecord)) →
      x.responseId = id) : (s.next c r).Knows os := by
  rcases c with _ | c | c | c | c | c
  · exact h
  · cases c with
    | create record key now =>
        rcases r with e | (x | x | _ | _) <;> cases s <;> trivial
    | claim agent now ttl =>
        rcases r with e | (_ | claimed)
        · trivial
        · trivial
        · exact htold _ (List.mem_singleton_self _)
    | complete id attempt status usage now =>
        cases s with
        | serving record =>
            rcases r with e | u
            · trivial
            · intro e he t ht
              obtain rfl := List.mem_singleton.mp he
              obtain rfl := Option.some.inj ht
              exact ⟨_, h⟩
        | _ => trivial
    | cancel tenant id now =>
        rcases r with e | u
        · trivial
        · intro e he t ht
          obtain rfl := List.mem_singleton.mp he
          cases ht
    | reap now ttl =>
        rcases r with e | aborted
        · trivial
        · intro e he t ht
          obtain ⟨a, ha, rfl⟩ := List.mem_map.mp he
          obtain rfl := Option.some.inj ht
          exact ⟨_, htold _ (List.mem_map_of_mem ha)⟩
    | get id =>
        cases s with
        | settling won =>
            intro e he t ht
            obtain ⟨e₀, he₀, rfl⟩ := List.mem_map.mp he
            unfold Settlement.learn at ht ⊢
            split_ifs at ht ⊢ with hlearn
            · obtain ⟨x, hx, rfl⟩ := Option.map_eq_some_iff.mp ht
              rcases r with e | (_ | y)
              · cases hx
              · cases hx
              · obtain rfl : y = x := Option.some.inj hx
                refine ⟨y.tenantId, ?_⟩
                have hid : y.responseId = id := hget id y rfl HEq.rfl
                rw [hlearn.1, ← hid]
                exact htold _ (List.mem_singleton_self _)
            · exact h e₀ he₀ t ht
        | probing id' c' holder =>
            simp only [Stage.next]
            split_ifs <;> trivial
        | _ => exact h
    | _ => exact h
  · cases c with
    | append event => cases s <;> first | exact h | (cases r <;> trivial)
    | readAfter id cursor limit =>
        cases s with
        | settling won =>
            rcases r with e | batch
            · intro e' he t ht
              obtain ⟨e₀, he₀, rfl⟩ := List.mem_map.mp he
              rw [Settlement.excuse_id]
              refine h e₀ he₀ t ?_
              unfold Settlement.excuse at ht
              split_ifs at ht <;> exact ht
            · exact h
        | _ => cases r <;> exact h
    | _ => exact h
  · cases c with
    | appendTurn tenant c' id commit now =>
        cases s with
        | settling won =>
            intro e' he t ht
            obtain ⟨e₀, he₀, rfl⟩ := List.mem_map.mp he
            rw [Settlement.archived_id]
            refine h e₀ he₀ t ?_
            unfold Settlement.archived at ht
            split_ifs at ht <;> exact ht
        | _ => exact h
    | releaseActive tenant c' id status now => cases s <;> first | exact h | trivial
    | releaseStaleActive tenant c' holder => cases s <;> cases r <;> trivial
    | acquireActive tenant c' id now =>
        cases s <;> rcases r with (_ | holder | _ | _) | seq <;> exact h
    | _ => exact h
  · exact h
  · exact h

/-- What the ledger has on file agrees with what was filed, once for each id. -/
structure Provenance (tr : Trace) (w : World) (ss : List Stage) : Prop where
  keyed : w.store.Keyed
  record : ∀ {r x}, w.store.record r = some x → x.origin ∈ filings tr
  known : ∀ {o}, o ∈ filings tr → o.id ∈ minted tr
  unique : ∀ {o o'}, o ∈ filings tr → o' ∈ filings tr → o.id = o'.id → o = o'
  unwritten : ∀ {i : ℕ} {s : Stage} {r}, ss[i]? = some s → s.unwritten = some r →
    r ∈ minted tr ∧ ∀ o ∈ filings tr, o.id ≠ r
  sole : ∀ {i j : ℕ} {s s' : Stage} {r}, ss[i]? = some s → ss[j]? = some s' →
    s.unwritten = some r → s'.unwritten = some r → i = j
  told : ∀ {i : ℕ} {c : Call} {reply : c.Reply}, .call i c reply ∈ tr →
    ∀ o ∈ c.tells reply, o ∈ filings tr
  knows : ∀ {i : ℕ} {s : Stage}, ss[i]? = some s → s.Knows (filings tr)

/-- What the store answers was filed. -/
theorem exec_tells {os : List Origin} {c : Call} {w : World} (hk : w.store.Keyed)
    (hrec : ∀ {r x}, w.store.record r = some x → x.origin ∈ os) {o : Origin}
    (h : o ∈ c.tells (exec c w).1) : o ∈ os := by
  rcases c with _ | c | c | c | c | c
  · cases h
  · cases c with
    | get id =>
        cases hx : w.store.record id with
        | none =>
            have hreply : (exec (.ledger (.get id)) w).1 = .ok none := congrArg Except.ok hx
            rw [hreply] at h
            cases h
        | some x =>
            have hreply : (exec (.ledger (.get id)) w).1 = .ok (some x) := congrArg Except.ok hx
            rw [hreply] at h
            obtain rfl := List.mem_singleton.mp h
            exact hrec hx
    | claim agent now ttl =>
        cases hreply : (exec (.ledger (.claim agent now ttl)) w).1 with
        | error e =>
            rw [hreply] at h
            cases h
        | ok claimed =>
            rw [hreply] at h
            rcases claimed with _ | claimed
            · cases h
            obtain rfl := List.mem_singleton.mp h
            obtain ⟨x, hx, hadv⟩ := (exec_ledger_advances (by trivial) w).back
              (exec_claim hk hreply)
            exact hadv.origin ▸ hrec hx
    | reap now ttl =>
        obtain ⟨aborted, hreply, -, -, hclaims, -⟩ := MemResponseLedger.reap_spec w.store now ttl
        have hreply : (exec (.ledger (.reap now ttl)) w).1 = .ok aborted := hreply
        rw [hreply] at h
        obtain ⟨a, ha, rfl⟩ := List.mem_map.mp h
        obtain ⟨x, hx, -, heq⟩ := hclaims a ha
        have horigin : a.origin = x.origin := by
          have hid : x.responseId = a.responseId := hk.record hx
          rw [heq]
          simp only [AbortedClaim.origin, ResponseRecord.origin, MemResponseLedger.abortedClaim,
            hid]
          rfl
        exact horigin ▸ hrec hx
    | _ => cases h
  · cases c <;> cases h
  · cases c <;> cases h
  · cases c <;> cases h
  · cases c <;> cases h

namespace Provenance

variable {tr : Trace} {w : World} {ss : List Stage} {i : ℕ} {s : Stage} {c : Call}

theorem start {q : State} {j : Job} (h : Provenance tr w ss) (hj : MintStep tr q (.start j)) :
    Provenance (tr ++ [.start j]) w (jobs.advance Stage.first ss (.start j : Event Call _ _)) := by
  have hfirst : ∀ {r : ResponseId}, (Stage.first j).unwritten = some r → r ∉ minted tr := by
    intro r hr
    rw [Stage.unwritten_first] at hr
    exact hj r hr
  refine ⟨h.keyed, fun hx ↦ ?_, fun ho ↦ ?_, fun ho ho' ↦ ?_, fun {k t r} ht hun ↦ ?_,
    fun {k l t t' r} ht ht' hun hun' ↦ ?_, fun {k c reply} he ↦ ?_, fun {k t} ht ↦ ?_⟩
  · rw [filings_start]
    exact h.record hx
  · rw [filings_start] at ho
    simp [h.known ho]
  · rw [filings_start] at ho ho'
    exact h.unique ho ho'
  · rw [filings_start, minted_start]
    rcases Session.getElem?_advance_start ht with hold | ⟨-, rfl⟩
    · obtain ⟨hmem, hnot⟩ := h.unwritten hold hun
      exact ⟨List.mem_append_left _ hmem, hnot⟩
    · refine ⟨?_, fun o ho heq ↦ hfirst hun (heq ▸ h.known ho)⟩
      rw [Stage.unwritten_first] at hun
      simp [hun]
  · rcases Session.getElem?_advance_start ht with hold | ⟨hk, rfl⟩ <;>
      rcases Session.getElem?_advance_start ht' with hold' | ⟨hl, rfl⟩
    · exact h.sole hold hold' hun hun'
    · exact absurd (h.unwritten hold hun).1 (hfirst hun')
    · exact absurd (h.unwritten hold' hun').1 (hfirst hun)
    · rw [hk, hl]
  · rw [filings_start]
    rcases List.mem_append.mp he with he | he
    · exact h.told he
    · simp at he
  · rw [filings_start]
    rcases Session.getElem?_advance_start ht with hold | ⟨-, rfl⟩
    · exact h.knows hold
    · rcases Stage.first_cases j with ⟨heq, -⟩ | ⟨id, -, ⟨c, heq⟩ | ⟨a, heq⟩⟩ <;>
        rw [heq] <;> trivial

theorem call (h : Provenance tr w ss) (hs : ss[i]? = some s) (hallowed : jobs.allowed s c) :
    Provenance (tr ++ [.call i c (exec c w).1]) (exec c w).2
      (jobs.advance Stage.first ss (.call i c (exec c w).1 : Event Call _ _)) := by
  have hss : ∀ j, (jobs.advance Stage.first ss
      (.call i c (exec c w).1 : Event Call Call.Reply Job))[j]? =
        if i = j then some (s.next c (exec c w).1) else ss[j]? :=
    fun j ↦ Session.getElem?_advance_call hs
  have hmono : ∀ o ∈ filings tr, o ∈ filings (tr ++ [.call i c (exec c w).1]) := by
    intro o ho
    rw [filings_call]
    exact List.mem_append_left _ ho
  have htells : ∀ o ∈ c.tells (exec c w).1, o ∈ filings tr := fun o ho ↦
    exec_tells h.keyed h.record ho
  -- A new filing is for an id that nobody had filed before, and nobody will again.
  have hnew : ∀ {o}, filing (.call i c (exec c w).1) = some o →
      s.unwritten = some o.id ∧ (s.next c (exec c w).1).unwritten = none := by
    intro o ho
    obtain ⟨record, key, now, x, rfl, hx, rfl, -⟩ := filing_exec ho
    have hid : x.responseId = record.responseId := by rw [hx]
    exact ⟨unwritten_of_jobs hallowed (congrArg some hid.symm),
      Stage.unwritten_next_create s record key now _⟩
  have hcases : ∀ {o}, o ∈ filings (tr ++ [.call i c (exec c w).1]) →
      o ∈ filings tr ∨ filing (.call i c (exec c w).1) = some o := by
    intro o ho
    rw [filings_call] at ho
    exact (List.mem_append.mp ho).imp id Option.mem_toList.mp
  have hfresh : ∀ {o o'}, o ∈ filings tr → filing (.call i c (exec c w).1) = some o' →
      o.id ≠ o'.id := fun ho ho' ↦ (h.unwritten hs (hnew ho').1).2 _ ho
  have hold : ∀ {k : ℕ} {t : Stage} {r : ResponseId}, (jobs.advance Stage.first ss
      (.call i c (exec c w).1 : Event Call Call.Reply Job))[k]? = some t →
      t.unwritten = some r → ∃ t₀, ss[k]? = some t₀ ∧ t₀.unwritten = some r := by
    intro k t r ht hun
    have ht := (hss k).symm.trans ht
    split_ifs at ht with hik
    · obtain rfl := Option.some.inj ht
      exact ⟨s, hik ▸ hs, Stage.unwritten_next hun⟩
    · exact ⟨t, ht, hun⟩
  refine ⟨exec_keyed c h.keyed, fun {r y} hy ↦ ?_, fun {o} ho ↦ ?_, fun {o o'} ho ho' heq ↦ ?_,
    fun {k t r} ht hun ↦ ?_, fun {k l t t' r} ht ht' hun hun' ↦ ?_, fun {k c' reply} he ↦ ?_,
    fun {k t} ht ↦ ?_⟩
  · by_cases hwrites : c.writes = some r
    · rcases c with _ | c | c | c | c | c <;> first | cases hwrites | skip
      cases c with
      | create record key now =>
          rcases exec_create record key now w with ⟨-, heq⟩ | ⟨x, hreply, -, -, heq⟩
          · rw [heq] at hy
            exact hmono _ (h.record hy)
          · have hx : (MemResponseLedger.enqueue w.store x key).record r = some y := by
              rw [heq] at hy
              exact hy
            rw [MemResponseLedger.record_enqueue] at hx
            split_ifs at hx
            · obtain rfl := Option.some.inj hx
              rw [filings_call, hreply]
              exact List.mem_append_right _ (List.mem_singleton_self _)
            · exact hmono _ (h.record hx)
      | _ => cases hwrites
    · obtain ⟨x, hx, hadv⟩ := record_back hwrites hy
      exact hmono _ (hadv.origin ▸ h.record hx)
  · rw [minted_call]
    rcases hcases ho with ho | ho
    · exact h.known ho
    · exact (h.unwritten hs (hnew ho).1).1
  · rcases hcases ho with ho | ho <;> rcases hcases ho' with ho' | ho'
    · exact h.unique ho ho' heq
    · exact absurd heq (hfresh ho ho')
    · exact absurd heq.symm (hfresh ho' ho)
    · exact Option.some.inj (ho.symm.trans ho')
  · rw [minted_call]
    obtain ⟨t₀, ht₀, hun₀⟩ := hold ht hun
    obtain ⟨hmem, hnot⟩ := h.unwritten ht₀ hun₀
    refine ⟨hmem, fun o ho ↦ ?_⟩
    rcases hcases ho with ho | ho
    · exact hnot o ho
    · rintro rfl
      obtain rfl := h.sole hs ht₀ (hnew ho).1 hun₀
      obtain rfl := Option.some.inj (((hss i).trans (if_pos rfl)).symm.trans ht)
      rw [(hnew ho).2] at hun
      cases hun
  · obtain ⟨t₀, ht₀, hun₀⟩ := hold ht hun
    obtain ⟨t₁, ht₁, hun₁⟩ := hold ht' hun'
    exact h.sole ht₀ ht₁ hun₀ hun₁
  · intro o ho
    rcases List.mem_append.mp he with he | he
    · exact hmono _ (h.told he o ho)
    · obtain ⟨-, rfl, heq⟩ := Event.call.inj (List.mem_singleton.mp he)
      obtain rfl := eq_of_heq heq
      exact hmono _ (htells o ho)
  · have ht := (hss k).symm.trans ht
    split_ifs at ht with hik
    · obtain rfl := Option.some.inj ht
      refine ((h.knows hs).next htells ?_).mono hmono
      rintro id x rfl hreply
      have hx : w.store.record id = some x := by
        have hreply : (Except.ok (w.store.record id) : Except LedgerError _) = .ok (some x) :=
          eq_of_heq hreply
        exact Except.ok.inj hreply
      exact h.keyed.record hx
    · exact (h.knows ht).mono hmono

end Provenance

/-- A store that has no records. -/
structure MemStore.Unfiled (s : MemStore) : Prop where
  keyed : s.Keyed
  record : ∀ r, s.record r = none

theorem Sample.world_unfiled : Sample.world.store.Unfiled :=
  ⟨Sample.world_keyed, fun _ ↦ rfl⟩

theorem provenance_run {ok : Trace → State → Event Call Call.Reply Job → Prop}
    (hok : ∀ tr q e, ok tr q e → MintStep tr q e) {w : World} {tr : Trace} {q : State}
    (hw : w.store.Unfiled) (h : Run system ok (Pool.init w) tr q) :
    Provenance tr q.world (jobs.track Stage.first tr) ∧
      jobs.Keeps (fun s _ ↦ s.Restful) q (jobs.track Stage.first tr) := by
  refine Run.invariant jobs Stage.first (fun s _ ↦ s.Restful)
    (I := fun tr q ss ↦ Provenance tr q.world ss) (fun tr q j _ ↦ follows_jobs j) ?_ ?_ ?_ ?_ h
  · exact fun {tr q ss} c _ ↦ exec_answers c q.world
  · exact fun {tr q ss} j hp _ hj ↦ hp.start (q := q) (hok _ _ _ hj)
  · exact fun {tr q ss i j c k s} hp _ _ hs hallowed _ ↦ hp.call hs hallowed
  · refine ⟨hw.keyed, fun {r x} hx ↦ ?_, ?_, ?_, ?_, ?_, ?_, ?_⟩
    · have hnone : (Pool.init w : State).world.store.record r = none := hw.record r
      rw [hnone] at hx
      cases hx
    · exact fun ho ↦ by cases ho
    · exact fun ho ↦ by cases ho
    · exact fun hs ↦ by cases hs
    · exact fun hs ↦ by cases hs
    · exact fun he ↦ by cases he
    · exact fun hs ↦ by cases hs

/-! ## One winner among all jobs -/

/-- A response that somebody has won was filed, and is open nowhere. -/
structure Shut (r : ResponseId) (tr : Trace) (w : World) : Prop where
  filed : ∃ o ∈ filings tr, o.id = r
  closed : ∀ {x}, w.store.record r = some x → x.status.isTerminal = true

theorem unwon_of_wins {r : ResponseId} {tr : Trace} {w : World} {c : Call}
    (h : winners r tr ≠ [] → Shut r tr w) (hwin : c.wins r (exec c w).1 = true) :
    winners r tr = [] := by
  obtain ⟨x, x', hx, hopen, -⟩ := exec_wins hwin
  by_contra hne
  rw [(h hne).closed hx] at hopen
  cases hopen

/-- What was decided stays so: a record that was filed is not filed again. -/
theorem shut_call {r : ResponseId} {tr : Trace} {w : World} {ss : List Stage} {i : ℕ} {s : Stage}
    {c : Call} (hp : Provenance tr w ss) (hs : ss[i]? = some s) (hallowed : jobs.allowed s c)
    (h : winners r tr ≠ [] → Shut r tr w)
    (hne : winners r (tr ++ [.call i c (exec c w).1]) ≠ []) :
    Shut r (tr ++ [.call i c (exec c w).1]) (exec c w).2 := by
  have hmono : ∀ o ∈ filings tr, o ∈ filings (tr ++ [.call i c (exec c w).1]) := by
    intro o ho
    rw [filings_call]
    exact List.mem_append_left _ ho
  by_cases hwin : c.wins r (exec c w).1 = true
  · obtain ⟨x, x', hx, -, hx', hterm, -⟩ := exec_wins hwin
    refine ⟨⟨x.origin, hmono _ (hp.record hx), hp.keyed.record hx⟩, fun hy ↦ ?_⟩
    obtain rfl := Option.some.inj (hx'.symm.trans hy)
    exact hterm
  · rw [winners_call, if_neg hwin, List.append_nil] at hne
    obtain ⟨⟨o, ho, hid⟩, hclosed⟩ := h hne
    refine ⟨⟨o, hmono o ho, hid⟩, fun {y} hy ↦ ?_⟩
    have hwrites : c.writes ≠ some r := fun hw ↦
      (hp.unwritten hs (unwritten_of_jobs hallowed hw)).2 o ho hid
    obtain ⟨x, hx, hadv⟩ := record_back hwrites hy
    rw [hadv.terminal (hclosed hx)]
    exact hclosed hx

/-- A call outside turns is nobody's win, and submits nothing. -/
theorem Sole.apart {r : ResponseId} {tr : Trace} {ss : List Stage} {i : ℕ} {c : Call}
    {reply : c.Reply} (h : Sole r tr ss) (hs : ss[i]? = some .idle) (hc : c.Apart) :
    Sole r (tr ++ [.call i c reply]) (jobs.advance Stage.first ss
      (.call i c reply : Event Call Call.Reply Job)) := by
  have hwin : c.wins r reply = false := by
    rcases c with _ | c | c | c | c | c <;> first | rfl | cases c <;> first | rfl | exact hc.elim
  have hsub : c.submits r = none := by
    rcases c with _ | c | c | c | c | c <;> first | rfl | cases c <;> first | rfl | exact hc.elim
  have hold : ∀ {j : ℕ} {won : List Settlement}, (jobs.advance Stage.first ss
      (.call i c reply : Event Call Call.Reply Job))[j]? = some (.settling won) →
      ss[j]? = some (.settling won) := by
    intro j won hj
    have hnext : (jobs.advance Stage.first ss (.call i c reply : Event Call Call.Reply Job))[j]? =
        if i = j then some (Stage.next .idle c reply) else ss[j]? :=
      Session.getElem?_advance_call (S := jobs) hs
    replace hj := hnext.symm.trans hj
    rw [next_apart hc] at hj
    split_ifs at hj
    · cases hj
    · exact hj
  refine ⟨?_, fun hj he hid ↦ ?_, fun hj he hid hp ↦ ?_, ?_, ?_⟩
  · simpa [hwin] using h.once
  · simpa [hwin] using h.owner (hold hj) he hid
  · simpa [hsub] using h.pending (hold hj) he hid hp
  · simpa [hsub] using h.single
  · simpa [hwin, hsub] using h.won

/-- Whatever jobs run, one process at most wins a response and submits its one commit. -/
theorem sole_run {ok : Trace → State → Event Call Call.Reply Job → Prop}
    (hok : ∀ tr q e, ok tr q e → MintStep tr q e) {w : World} {tr : Trace} {q : State}
    (hw : w.store.Unfiled) (h : Run system ok (Pool.init w) tr q) (r : ResponseId) :
    Sole r tr (jobs.track Stage.first tr) ∧ (winners r tr ≠ [] → Shut r tr q.world) := by
  have hinv : Provenance tr q.world (jobs.track Stage.first tr) ∧
      Sole r tr (jobs.track Stage.first tr) ∧ (winners r tr ≠ [] → Shut r tr q.world) := by
    refine (Run.invariant jobs Stage.first (fun s _ ↦ s.Restful)
      (I := fun tr q ss ↦ Provenance tr q.world ss ∧
        Sole r tr ss ∧ (winners r tr ≠ [] → Shut r tr q.world)) (fun tr q j _ ↦ follows_jobs j)
      ?_ ?_ ?_ ?_ h).1
    · exact fun {tr q ss} c _ ↦ exec_answers c q.world
    · rintro tr q ss j ⟨hp, hsole, hdecided⟩ - hj
      refine ⟨hp.start (q := q) (hok _ _ _ hj), hsole.start, fun hne ↦ ?_⟩
      rw [winners_start] at hne
      obtain ⟨hfiled, hclosed⟩ := hdecided hne
      exact ⟨by rwa [filings_start], hclosed⟩
    · rintro tr q ss i j c k s ⟨hp, hsole, hdecided⟩ - - hs hallowed -
      refine ⟨hp.call hs hallowed, ?_, shut_call hp hs hallowed hdecided⟩
      rcases hallowed with hturn | ⟨rfl, hapart⟩
      · exact hsole.call hs hturn (exec_answers c q.world) (unwon_of_wins hdecided)
      · exact hsole.apart hs hapart
    · exact ⟨(provenance_run hok hw .nil).1, .init r, fun hne ↦ absurd rfl hne⟩
  exact hinv.2

end NovaChat
