import NovaChat.Lifecycle.Stages

/-!
# The queue

What the queue is for is a first-in first-out line of the responses that wait.  What it holds is
more than that: an entry stays when its record is cancelled or removed, and a claim drops it when
it comes across it.  The two agree on the entries that count.
-/

namespace NovaChat

open Interact

/-- The line a claim serves: the accepted responses that wait, in the order of their creation. -/
def line (xs : Exchanges) (w : World) : List ResponseId := (created xs).filter w.store.waits

/-- The queue, stale entries left aside, is the line. -/
structure Lined (xs : Exchanges) (w : World) : Prop where
  entries : ∀ r ∈ w.store.inner.queued, r ∈ created xs
  waiting : w.store.inner.queued.filter w.store.waits = line xs w

theorem filter_filter_of_imp {α : Type} {p q : α → Bool} (h : ∀ a, q a = true → p a = true)
    (l : List α) : (l.filter p).filter q = l.filter q := by
  rw [List.filter_filter]
  refine List.filter_congr fun a _ ↦ ?_
  cases hq : q a
  · rfl
  · simp [h a hq]

theorem Lined.of_fewer {xs xs' : Exchanges} {w w' : World} (h : Lined xs w)
    (hqueued : w'.store.inner.queued = w.store.inner.queued) (hcreated : created xs' = created xs)
    (hwaits : ∀ r, w'.store.waits r = true → w.store.waits r = true) : Lined xs' w' where
  entries := by
    rw [hqueued, hcreated]
    exact h.entries
  waiting := by
    have hline := h.waiting
    unfold line at hline ⊢
    rw [hqueued, hcreated, ← filter_filter_of_imp hwaits w.store.inner.queued, hline,
      filter_filter_of_imp hwaits]

/-- A change that leaves the queue and the heartbeats alone. -/
structure RecordsOnly (s s' : MemStore) : Prop where
  queued : s'.inner.queued = s.inner.queued
  heartbeats : s'.inner.heartbeats = s.inner.heartbeats

theorem RecordsOnly.refl (s : MemStore) : RecordsOnly s s := ⟨rfl, rfl⟩

theorem RecordsOnly.trans {s s' s'' : MemStore} (h : RecordsOnly s s') (h' : RecordsOnly s' s'') :
    RecordsOnly s s'' :=
  ⟨h'.1.trans h.1, h'.2.trans h.2⟩

theorem recordsOnly_putRecord (s : MemStore) (id : ResponseId) (x : ResponseRecord) :
    RecordsOnly s (MemResponseLedger.putRecord s id x) := ⟨rfl, rfl⟩

theorem recordsOnly_bookPartial (s : MemStore) (id : ResponseId) (x : ResponseRecord) :
    RecordsOnly s (MemResponseLedger.bookPartial s id x) := by
  unfold MemResponseLedger.bookPartial
  split <;> exact ⟨rfl, rfl⟩

theorem recordsOnly_reapAll (nowMs : ℕ) : ∀ (ids : List ResponseId) (s : MemStore),
    RecordsOnly s (MemResponseLedger.reapAll nowMs ids s).2 := by
  intro ids
  induction ids with
  | nil => exact .refl
  | cons id ids ih =>
      intro s
      have hone : RecordsOnly s (MemResponseLedger.reapOne s id nowMs).2 := by
        unfold MemResponseLedger.reapOne
        split
        · exact .refl s
        · exact (recordsOnly_putRecord _ _ _).trans (recordsOnly_bookPartial _ _ _)
      exact hone.trans (ih _)

theorem queued_removeRecord (g : Inner) (id : ResponseId) :
    (g.removeRecord id).2.queued = g.queued ∧ (g.removeRecord id).2.heartbeats = g.heartbeats := by
  unfold Inner.removeRecord
  split <;> exact ⟨rfl, rfl⟩

theorem queued_removeAll : ∀ (ids : List ResponseId) (g : Inner),
    (MemResponseLedger.removeAll ids g).2.queued = g.queued ∧
      (MemResponseLedger.removeAll ids g).2.heartbeats = g.heartbeats := by
  intro ids
  induction ids with
  | nil => exact fun g ↦ ⟨rfl, rfl⟩
  | cons id ids ih =>
      intro g
      obtain ⟨hqueued, hheart⟩ := queued_removeRecord g id
      obtain ⟨hqueued', hheart'⟩ := ih (g.removeRecord id).2
      exact ⟨hqueued'.trans hqueued, hheart'.trans hheart⟩

/-- The calls that change the queue or the heartbeats. -/
def Call.Attends : Call → Prop
  | .ledger (.create ..) | .ledger (.claim ..) | .ledger (.heartbeat ..) => True
  | _ => False

theorem exec_recordsOnly {c : Call} (hc : ¬ c.Attends) (w : World) :
    RecordsOnly w.store (exec c w).2.store := by
  rcases c with _ | c | c | c | c | c
  · exact .refl _
  · cases c with
    | create => exact absurd trivial hc
    | claim => exact absurd trivial hc
    | heartbeat => exact absurd trivial hc
    | complete id attempt status usage now =>
        rcases MemResponseLedger.complete_cases w.store id attempt status usage now with
          ⟨e, heq⟩ | ⟨x, -, -, -, -, -, heq⟩ <;> simp only [exec, execLedger, heq]
        · exact .refl _
        · exact ⟨rfl, rfl⟩
    | cancel tenant id now =>
        rcases MemResponseLedger.cancel_cases w.store tenant id now with
          ⟨e, heq⟩ | ⟨x, -, -, -, -, heq⟩ <;> simp only [exec, execLedger, heq]
        · exact .refl _
        · exact (recordsOnly_putRecord _ _ _).trans (recordsOnly_bookPartial _ _ _)
    | reap now ttl => exact recordsOnly_reapAll _ _ _
    | recordPartialUsage id attempt usage =>
        simp only [exec, execLedger, World.withStore_snd, MemResponseLedger.recordPartialUsage]
        split <;> exact ⟨rfl, rfl⟩
    | get => exact .refl _
    | delete id =>
        simp only [exec, execLedger, World.withStore_snd, MemResponseLedger.delete]
        split
        · exact .refl _
        · exact ⟨(queued_removeRecord _ _).1, (queued_removeRecord _ _).2⟩
    | deleteByTenant tenant =>
        simp only [exec, execLedger, World.withStore_snd, MemResponseLedger.deleteByTenant]
        split
        · exact .refl _
        · exact ⟨(queued_removeAll _ _).1, (queued_removeAll _ _).2⟩
    | checkAttempt => exact .refl _
    | inFlight => exact .refl _
  · rw [exec_eventLog_store]
    exact .refl _
  · exact ⟨(exec_conversationOnly c w).queued, (exec_conversationOnly c w).heartbeats⟩
  · cases c <;> exact .refl _
  · exact ⟨congrArg Inner.queued (execMode_inner w c),
      congrArg Inner.heartbeats (execMode_inner w c)⟩

theorem waits_back {xs : Exchanges} {w : World} {c : Call} {r : ResponseId} (hc : c.FreshIn xs)
    (h : (exec c w).2.store.waits r = true) :
    w.store.waits r = true ∨ createdId ⟨c, (exec c w).1⟩ = some r := by
  obtain ⟨y, hy, hstatus⟩ := (MemStore.waits_eq_true _).mp h
  rcases record_cases hc hy with ⟨x, hx, hstage⟩ | ⟨hnew, -, -⟩
  · refine Or.inl ((MemStore.waits_eq_true _).mpr ⟨x, hx, ?_⟩)
    have hleads := hstage.leads
    rw [hstatus] at hleads
    generalize hs : x.status = s at hleads
    cases hleads with
    | stay => rfl
    | finish hterm => cases hterm
  · exact Or.inr hnew

/-- A create puts the response it accepts at the end of the line. -/
theorem Lined.create {xs : Exchanges} {w : World} (h : Lined xs w)
    {record : ResponseRecord} {key : IdempotencyKey} {now : ℕ}
    (hc : (Call.ledger (.create record key now)).FreshIn xs) :
    Lined (xs ++ [⟨.ledger (.create record key now),
      (exec (.ledger (.create record key now)) w).1⟩])
      (exec (.ledger (.create record key now)) w).2 := by
  obtain ⟨hstart, hfresh⟩ : record.Unstarted ∧ record.responseId ∉ created xs := hc
  rcases exec_create record key now w with ⟨hnot, heq⟩ | ⟨x, hx, hsign, -, heq⟩
  · have hnone : createdId ⟨.ledger (.create record key now),
        (exec (.ledger (.create record key now)) w).1⟩ = none := by
      unfold createdId
      split
      · next heq' => exact absurd (eq_of_heq (Exchange.mk.inj heq').2) (hnot _)
      · rfl
    exact h.of_fewer (by rw [heq]) (by rw [created_snoc, hnone]; simp)
      (fun r hr ↦ by rwa [heq] at hr)
  · have hxr := MemResponseLedger.sign_spec hsign
    have hid : x.responseId = record.responseId := by rw [hxr]
    have hstatus : x.status = .queued := by rw [hxr]; exact hstart.status
    have hcreated : created (xs ++ [⟨.ledger (.create record key now),
        (exec (.ledger (.create record key now)) w).1⟩]) = created xs ++ [x.responseId] := by
      rw [created_snoc, hx]
      rfl
    rw [heq]
    have hself : (MemResponseLedger.enqueue w.store x key).waits x.responseId = true :=
      (MemStore.waits_eq_true _).mpr
        ⟨x, by rw [MemResponseLedger.record_enqueue, if_pos rfl], hstatus⟩
    have hold : ∀ r ∈ created xs,
        (MemResponseLedger.enqueue w.store x key).waits r = w.store.waits r := by
      intro r hr
      have hne : r ≠ x.responseId := fun heq ↦ hfresh (by rw [← hid, ← heq]; exact hr)
      simp only [MemStore.waits, MemResponseLedger.record_enqueue, if_neg hne]
    refine ⟨fun r hr ↦ ?_, ?_⟩
    · rw [hcreated]
      rcases List.mem_append.mp hr with hr | hr
      · exact List.mem_append_left _ (h.entries r hr)
      · exact List.mem_append_right _ hr
    · unfold line
      rw [hcreated, List.filter_append, List.filter_congr hold]
      show (w.store.inner.queued ++ [x.responseId]).filter _ = _
      rw [List.filter_append, List.filter_congr fun r hr ↦ hold r (h.entries r hr), h.waiting]
      rfl

/-- A claim serves the head of the line, and returns nothing only when the line is empty. -/
theorem Lined.claim_reply {xs : Exchanges} {w : World} (h : Lined xs w) (agent : AgentId)
    (now ttl : ℕ) (hwritable : w.store.readOnly = false) :
    (line xs w = [] ∧ (exec (.ledger (.claim agent now ttl)) w).1 = .ok none ∧
      (exec (.ledger (.claim agent now ttl)) w).2 =
        { w with store := { w.store with inner := { w.store.inner with queued := [] } } }) ∨
    ∃ r x stale rest, line xs w = r :: rest.filter w.store.waits ∧
      w.store.inner.queued = stale ++ r :: rest ∧ w.store.record r = some x ∧
      x.status = .queued ∧
      (exec (.ledger (.claim agent now ttl)) w).1 = .ok (some
        ⟨MemResponseLedger.claimed x agent, satAdd now (asU64 ttl)⟩) ∧
      (exec (.ledger (.claim agent now ttl)) w).2 =
        { w with store := MemResponseLedger.take w.store r x rest agent now } := by
  have hclaim : exec (.ledger (.claim agent now ttl)) w =
      w.withStore (.ok (MemResponseLedger.claimLoop w.store agent now ttl w.store.inner.queued).1,
        (MemResponseLedger.claimLoop w.store agent now ttl w.store.inner.queued).2) := by
    simp [exec, execLedger, MemResponseLedger.claim, MemResponseLedger.guardWritable, hwritable]
  rw [hclaim]
  rcases MemResponseLedger.claimLoop_cases w.store agent now ttl w.store.inner.queued with
    ⟨heq, hnone⟩ | ⟨stale, r, rest, x, hqueue, hstale, hx, hstatus, heq⟩
  · refine Or.inl ⟨?_, by rw [heq]; rfl, by rw [heq]; rfl⟩
    rw [← h.waiting]
    exact List.filter_eq_nil_iff.mpr fun r hr ↦ by simp [hnone r hr]
  · refine Or.inr ⟨r, x, stale, rest, ?_, hqueue, hx, hstatus, by rw [heq]; rfl, by rw [heq]; rfl⟩
    have hwaits : w.store.waits r = true := (MemStore.waits_eq_true _).mpr ⟨x, hx, hstatus⟩
    have hnil : stale.filter w.store.waits = [] :=
      List.filter_eq_nil_iff.mpr fun r hr ↦ by simp [hstale r hr]
    rw [← h.waiting, hqueue, List.filter_append, hnil, List.filter_cons_of_pos hwaits]
    rfl

theorem created_snoc_of_not_create {xs : Exchanges} {c : Call} {w : World} (hc : c.writes = none) :
    created (xs ++ [⟨c, (exec c w).1⟩]) = created xs := by
  have hnone : createdId ⟨c, (exec c w).1⟩ = none := by
    rcases hid : createdId ⟨c, (exec c w).1⟩ with _ | r
    · rfl
    · obtain ⟨record, key, now, x, rfl, -⟩ := createdId_exec hid
      cases hc
  rw [created_snoc, hnone]
  simp

theorem waits_back_of_not_create {xs : Exchanges} {w : World} {c : Call} {r : ResponseId}
    (hc : c.FreshIn xs) (hwrites : c.writes = none) (h : (exec c w).2.store.waits r = true) :
    w.store.waits r = true := by
  rcases waits_back hc h with hwaits | hnew
  · exact hwaits
  · obtain ⟨record, key, now, x, rfl, -⟩ := createdId_exec hnew
    cases hwrites

theorem Lined.step {xs : Exchanges} {w : World} {c : Call} (h : Lined xs w) (hc : c.FreshIn xs) :
    Lined (xs ++ [⟨c, (exec c w).1⟩]) (exec c w).2 := by
  by_cases hq : c.Attends
  · unfold Call.Attends at hq
    split at hq
    · exact h.create hc
    · next agent now ttl =>
        have hcreated : created (xs ++ [⟨.ledger (.claim agent now ttl),
            (exec (.ledger (.claim agent now ttl)) w).1⟩]) = created xs :=
          created_snoc_of_not_create rfl
        have hback : ∀ r, (exec (.ledger (.claim agent now ttl)) w).2.store.waits r = true →
            w.store.waits r = true := fun r ↦ waits_back_of_not_create hc rfl
        cases hro : w.store.readOnly with
        | true =>
            have heq : (exec (.ledger (.claim agent now ttl)) w).2 = w := by
              simp [exec, execLedger, MemResponseLedger.claim, MemResponseLedger.guardWritable, hro]
            exact h.of_fewer (by rw [heq]) hcreated hback
        | false =>
            rcases h.claim_reply agent now ttl hro with
              ⟨hempty, -, heq⟩ | ⟨r, x, stale, rest, hline, hqueue, hx, hstatus, -, heq⟩
            · refine ⟨by rw [heq]; simp, ?_⟩
              unfold line at hempty ⊢
              rw [hcreated, ← filter_filter_of_imp hback (created xs), hempty, heq]
            · refine ⟨fun r' hr' ↦ ?_, ?_⟩
              · rw [heq] at hr'
                rw [hcreated]
                exact h.entries r' (by rw [hqueue]; simp [show r' ∈ rest from hr'])
              · -- The claimed response is at the head of the line and no longer waits.
                have hgone : (exec (.ledger (.claim agent now ttl)) w).2.store.waits r = false := by
                  rw [heq, MemStore.waits, MemResponseLedger.record_take, if_pos rfl]
                  rfl
                unfold line at hline ⊢
                rw [hcreated, ← filter_filter_of_imp hback (created xs), hline, List.filter_cons,
                  hgone, if_neg (by simp), filter_filter_of_imp hback, heq]
                rfl
    · exact h.of_fewer rfl (created_snoc_of_not_create rfl)
        (fun r ↦ waits_back_of_not_create hc rfl)
    · exact hq.elim
  · have hwrites : c.writes = none := by
      unfold Call.writes
      split
      · exact absurd trivial hq
      · rfl
    exact h.of_fewer (exec_recordsOnly hq w).queued (created_snoc_of_not_create hwrites)
      (fun r ↦ waits_back_of_not_create hc hwrites)

theorem Served.lined {w₀ w : World} {xs : Exchanges} (hempty : w₀.store.inner = {})
    (h : Served w₀ xs w) : Lined xs w := by
  refine h.invariant (fun ys v c hJ hc ↦ hJ.step hc) ⟨?_, ?_⟩
  · rw [hempty]
    simp
  · rw [hempty]
    rfl

/-! ## Claims -/

/-- The response a claim was given. -/
def claimedId : Exchange Call Call.Reply → Option ResponseId
  | ⟨.ledger (.claim ..), .ok (some claimed)⟩ => some claimed.record.responseId
  | _ => none

/-- The claimed responses, oldest claim first. -/
def claimedIds (xs : Exchanges) : List ResponseId := xs.filterMap claimedId

@[simp] theorem claimedIds_snoc (xs : Exchanges) (x : Exchange Call Call.Reply) :
    claimedIds (xs ++ [x]) = claimedIds xs ++ (claimedId x).toList := by
  cases h : claimedId x <;> simp [claimedIds, h]

/-- A claimed response waited until then. -/
theorem claimedId_exec {c : Call} {w : World} {r : ResponseId} (hk : w.store.Keyed)
    (h : claimedId ⟨c, (exec c w).1⟩ = some r) :
    w.store.waits r = true ∧ (exec c w).2.store.waits r = false := by
  unfold claimedId at h
  split at h
  · next agent now ttl claimed heq =>
      obtain ⟨rfl, hreply⟩ := Exchange.mk.inj heq
      obtain rfl := Option.some.inj h
      obtain ⟨-, ⟨hnone, -⟩ | ⟨id, x, hx, hstatus, hsome, hrec⟩⟩ :=
        MemResponseLedger.claim_cases w.store agent now ttl
      · exact absurd (eq_of_heq hreply) (hnone claimed)
      · have hcl : ClaimedResponse.mk (MemResponseLedger.claimed x agent)
            (satAdd now (asU64 ttl)) = claimed := by
          simpa using hsome.symm.trans (eq_of_heq hreply)
        obtain rfl : id = claimed.record.responseId := by
          rw [← hcl]
          exact (hk.record hx).symm
        refine ⟨(MemStore.waits_eq_true _).mpr ⟨x, hx, hstatus⟩, ?_⟩
        show (MemResponseLedger.claim w.store agent now ttl).2.waits _ = false
        rw [MemStore.waits, hrec, if_pos rfl]
        rfl
  · cases h

/-- No response is claimed twice, and what was claimed waits no longer. -/
structure Once (xs : Exchanges) (w : World) : Prop where
  nodup : (claimedIds xs).Nodup
  gone : ∀ r ∈ claimedIds xs, r ∈ created xs ∧ w.store.waits r = false

theorem Once.step {xs : Exchanges} {w : World} {c : Call} (h : Once xs w) (ho : Orderly xs w)
    (hc : c.FreshIn xs) : Once (xs ++ [⟨c, (exec c w).1⟩]) (exec c w).2 := by
  have hold : ∀ r ∈ claimedIds xs, r ∈ created (xs ++ [⟨c, (exec c w).1⟩]) ∧
      (exec c w).2.store.waits r = false := by
    intro r hr
    obtain ⟨hcreated, hgone⟩ := h.gone r hr
    refine ⟨mem_created_snoc hcreated, Bool.eq_false_iff.mpr fun hwaits ↦ ?_⟩
    rcases waits_back hc hwaits with hwaits | hnew
    · rw [hgone] at hwaits
      cases hwaits
    · obtain ⟨record, key, now, x, rfl, hid, -⟩ := createdId_exec hnew
      obtain ⟨-, hfresh⟩ : record.Unstarted ∧ record.responseId ∉ created xs := hc
      exact hfresh (hid ▸ hcreated)
  rcases hcl : claimedId ⟨c, (exec c w).1⟩ with _ | r
  · have heq : claimedIds (xs ++ [⟨c, (exec c w).1⟩]) = claimedIds xs := by
      rw [claimedIds_snoc, hcl]
      simp
    exact ⟨heq ▸ h.nodup, fun r hr ↦ hold r (heq ▸ hr)⟩
  · obtain ⟨hwaits, hgone⟩ := claimedId_exec ho.keyed hcl
    have hnew : r ∉ claimedIds xs := fun hr ↦ by
      have := (h.gone r hr).2
      rw [hwaits] at this
      cases this
    have heq : claimedIds (xs ++ [⟨c, (exec c w).1⟩]) = claimedIds xs ++ [r] := by
      rw [claimedIds_snoc, hcl]
      rfl
    obtain ⟨x, hx, -⟩ := (MemStore.waits_eq_true _).mp hwaits
    refine ⟨?_, fun r' hr' ↦ ?_⟩
    · rw [heq]
      exact List.nodup_append.mpr ⟨h.nodup, List.nodup_singleton r, fun a ha b hb ↦ by
        rw [List.mem_singleton.mp hb]
        rintro rfl
        exact hnew ha⟩
    · rw [heq] at hr'
      rcases List.mem_append.mp hr' with hr' | hr'
      · exact hold r' hr'
      · obtain rfl := List.mem_singleton.mp hr'
        exact ⟨mem_created_snoc (ho.created hx), hgone⟩

/-- Each response is claimed at most once, and every claim of a writable store serves the earliest
created of those that wait. -/
theorem claims_fifo {w₀ w : World} {xs : Exchanges} (hempty : w₀.store.inner = {})
    (h : Served w₀ xs w) :
    (claimedIds xs).Nodup ∧
    (w.store.readOnly = false → ∀ agent now ttl,
      ((∃ r x, w.store.record r = some x ∧ x.status = .queued) →
        ∃ before r after x, created xs = before ++ r :: after ∧
          (∀ r' ∈ before, ∀ x', w.store.record r' = some x' → x'.status ≠ .queued) ∧
          w.store.record r = some x ∧ x.status = .queued ∧
          (exec (.ledger (.claim agent now ttl)) w).1 =
            .ok (some ⟨MemResponseLedger.claimed x agent, satAdd now (asU64 ttl)⟩)) ∧
      ((exec (.ledger (.claim agent now ttl)) w).1 = .ok none →
        ∀ r x, w.store.record r = some x → x.status ≠ .queued)) := by
  have ho := Served.orderly hempty h
  have hlined := Served.lined hempty h
  have honce : Once xs w := by
    refine (h.invariant (J := fun ys v ↦ Orderly ys v ∧ Once ys v)
      (fun ys v c hJ hc ↦ ⟨hJ.1.step hc, hJ.2.step hJ.1 hc⟩) ?_).2
    exact ⟨Served.orderly hempty .nil, List.nodup_nil, fun _ hr ↦ by cases hr⟩
  have hmem : ∀ r x, w.store.record r = some x → x.status = .queued → r ∈ line xs w :=
    fun r x hx hstatus ↦ List.mem_filter.mpr
      ⟨ho.created hx, (MemStore.waits_eq_true _).mpr ⟨x, hx, hstatus⟩⟩
  refine ⟨honce.nodup, fun hwritable agent now ttl ↦ ?_⟩
  rcases hlined.claim_reply agent now ttl hwritable with
    ⟨hnil, hreply, -⟩ | ⟨r, x, stale, rest, hline, -, hx, hstatus, hreply, -⟩
  · have hnone : ∀ r x, w.store.record r = some x → x.status ≠ .queued := fun r x hx hstatus ↦ by
      have := hmem r x hx hstatus
      rw [hnil] at this
      cases this
    exact ⟨fun ⟨r, x, hx, hstatus⟩ ↦ absurd hstatus (hnone r x hx), fun _ ↦ hnone⟩
  · refine ⟨fun _ ↦ ?_, fun hcontra ↦ by rw [hreply] at hcontra; cases hcontra⟩
    -- The head of the line is the first of the accepted responses that waits.
    obtain ⟨before, after, hcreated, hbefore, -⟩ :=
      List.filter_eq_cons_iff.mp hline
    refine ⟨before, r, after, x, hcreated, fun r' hr' x' hx' hqueued ↦ ?_, hx, hstatus, hreply⟩
    exact hbefore r' hr' ((MemStore.waits_eq_true _).mpr ⟨x', hx', hqueued⟩)

/-- A cancelled response stands in the queue before one that waits. -/
def Sample.queueing : Exchanges × World :=
  Sample.served [Sample.file 1 0, Sample.file 2 1,
    .ledger (.cancel Sample.tenant (Sample.id 1) 2)]

theorem claims_fifo_queueing :
    (claimedIds Sample.queueing.1).Nodup ∧
      ∃ before r after x, created Sample.queueing.1 = before ++ r :: after ∧
        (∀ r' ∈ before, ∀ x', Sample.queueing.2.store.record r' = some x' →
          x'.status ≠ .queued) ∧
        Sample.queueing.2.store.record r = some x ∧ x.status = .queued ∧
        (exec (.ledger (.claim Sample.agent 5 60)) Sample.queueing.2).1 =
          .ok (some ⟨MemResponseLedger.claimed x Sample.agent, satAdd 5 (asU64 60)⟩) := by
  have hserved : Served {} Sample.queueing.1 Sample.queueing.2 :=
    Sample.served_spec (by decide +kernel)
  obtain ⟨hnodup, hclaim⟩ := claims_fifo rfl hserved
  refine ⟨hnodup, (hclaim (by decide +kernel) Sample.agent 5 60).1 ⟨Sample.id 2, ?_⟩⟩
  exact (MemStore.waits_eq_true _).mp (by decide +kernel)

end NovaChat
