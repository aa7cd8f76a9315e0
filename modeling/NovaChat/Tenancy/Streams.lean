import NovaChat.Admission.History
import NovaChat.Tenancy.Watch

/-!
# Who reads a response's stream

The stream handler asks the ledger who owns a response and reads the event log.  The two stores
have lifetimes of their own: a log can outlive its record, and then nobody owns it.  The
custody invariant says that a readable log has a record, or somebody about to remove it.
-/

namespace NovaChat

open Interact Prog

/-! ## Who creates and who reads -/

/-- The responses whose creation has begun, each with its tenant. -/
def creators (tr : Trace) : List (ResponseId × TenantId) :=
  tr.filterMap fun
    | .start j => j.creates
    | .call .. => none

/-- The responses somebody has asked to stream. -/
def readers (tr : Trace) : List (ResponseId × TenantId) :=
  tr.filterMap fun
    | .start j => j.streams
    | .call .. => none

/-- The response an accepted create has written. -/
def reveals : Event Call Call.Reply Job → Option ResponseId
  | .call _ (.ledger (.create record _ _)) (.ok (.accepted _)) => some record.responseId
  | _ => none

/-- The responses that have been written, and may be known to anyone. -/
def revealed (tr : Trace) : List ResponseId := tr.filterMap reveals

section Traces

variable (tr : Trace) (j : Job) (i : ℕ) (c : Call) (r : c.Reply)

@[simp] theorem creators_start : creators (tr ++ [.start j]) = creators tr ++ j.creates.toList := by
  cases h : j.creates <;> simp [creators, h]

@[simp] theorem creators_call : creators (tr ++ [.call i c r]) = creators tr := by
  simp [creators]

@[simp] theorem readers_start : readers (tr ++ [.start j]) = readers tr ++ j.streams.toList := by
  cases h : j.streams <;> simp [readers, h]

@[simp] theorem readers_call : readers (tr ++ [.call i c r]) = readers tr := by
  simp [readers]

@[simp] theorem revealed_start : revealed (tr ++ [.start j]) = revealed tr := by
  simp [revealed, reveals]

@[simp] theorem revealed_call :
    revealed (tr ++ [.call i c r]) = revealed tr ++ (reveals (.call i c r)).toList := by
  cases h : reveals (.call i c r) <;> simp [revealed, h]

end Traces

theorem creates_mints (j : Job) : j.creates.map Prod.fst = j.mints := by
  cases j <;> rfl

theorem minted_of_creators {tr : Trace} {p : ResponseId × TenantId} (h : p ∈ creators tr) :
    p.1 ∈ minted tr := by
  obtain ⟨e, he, hcreates⟩ := List.mem_filterMap.mp h
  refine List.mem_filterMap.mpr ⟨e, he, ?_⟩
  cases e with
  | start j => exact (creates_mints j).symm.trans (congrArg (Option.map Prod.fst) hcreates)
  | call => cases hcreates

/-! ## The conditions -/

/-- Some event of `r` can be read. -/
def World.Readable (w : World) (r : ResponseId) : Prop :=
  ∃ log ∈ w.log.logs.lookup r, log.swept = false

/-- The response whose log a process is about to remove. -/
def removing (x : Proc Call Call.Reply Job) : Option ResponseId :=
  match x.prog with
  | .call (.eventLog (.remove id)) _ => some id
  | _ => none

/-- Some process is about to remove the log of `r`. -/
def Removing (q : State) (r : ResponseId) : Prop :=
  ∃ x ∈ q.procs, removing x = some r

/-- A minted id is new, and until its record is written other tenants do not know it. -/
def FreshStep (tr : Trace) (_ : State) : Event Call Call.Reply Job → Prop
  | .start j =>
    (∀ id ∈ j.mints, id ∉ minted tr ∧ ∀ p ∈ readers tr, p.1 ≠ id) ∧
      ∀ p ∈ j.streams, ∀ p' ∈ creators tr, p'.1 = p.1 → p'.2 = p.2 ∨ p.1 ∈ revealed tr
  | .call _ _ _ => True

/-- The records a purge is about to remove. -/
def purged (q : State) : Event Call Call.Reply Job → List ResponseId
  | .call _ (.ledger (.deleteByTenant tenant)) _ =>
    if MemResponseLedger.guardWritable q.world.store = .ok () then
      (q.world.store.inner.byTenant.lookup tenant).getD []
    else []
  | _ => []

/-- The response whose log is about to get an unfenced event. -/
def joined (q : State) : Event Call Call.Reply Job → Option ResponseId
  | .call _ (.eventLog (.append event)) _ =>
    if event.attempt = none ∧ q.world.Announceable event.responseId then some event.responseId
    else none
  | _ => none

/-- The response a stream is about to read. -/
def streamed (q : State) : Event Call Call.Reply Job → Option ResponseId
  | .call i (.eventLog (.readAfter r _ _)) _ =>
    if ((q.jobAt i).bind Job.streams).isSome = true then some r else none
  | _ => none

/-- A purge leaves no log behind; an unfenced event joins a log that has a record, or is about
to be removed; and nobody streams between the two halves of a deletion. -/
structure Guarded (q : State) (e : Event Call Call.Reply Job) : Prop where
  purge : ∀ r ∈ purged q e, ¬ q.world.Readable r
  join : ∀ r ∈ joined q e, (q.world.store.record r).isSome = true ∨ Removing q r
  read : ∀ r ∈ streamed q e, (q.world.store.record r).isSome = true ∨ ¬ Removing q r

def OwnedStep (tr : Trace) (q : State) (e : Event Call Call.Reply Job) : Prop :=
  FreshStep tr q e ∧ Guarded q e

section Decidable

variable (tr : Trace) (q : State)

instance (w : World) (r : ResponseId) : Decidable (w.Readable r) :=
  inferInstanceAs (Decidable (∃ log ∈ w.log.logs.lookup r, log.swept = false))

instance (r : ResponseId) : Decidable (Removing q r) :=
  inferInstanceAs (Decidable (∃ x ∈ q.procs, removing x = some r))

instance : DecidablePred (FreshStep tr q)
  | .start j => inferInstanceAs (Decidable
      ((∀ id ∈ j.mints, id ∉ minted tr ∧ ∀ p ∈ readers tr, p.1 ≠ id) ∧
        ∀ p ∈ j.streams, ∀ p' ∈ creators tr, p'.1 = p.1 → p'.2 = p.2 ∨ p.1 ∈ revealed tr))
  | .call _ _ _ => .isTrue trivial

end Decidable

instance (q : State) (e : Event Call Call.Reply Job) : Decidable (Guarded q e) :=
  decidable_of_iff
    ((∀ r ∈ purged q e, ¬ q.world.Readable r) ∧
      (∀ r ∈ joined q e, (q.world.store.record r).isSome = true ∨ Removing q r) ∧
      ∀ r ∈ streamed q e, (q.world.store.record r).isSome = true ∨ ¬ Removing q r)
    ⟨fun h ↦ ⟨h.1, h.2.1, h.2.2⟩, fun h ↦ ⟨h.purge, h.join, h.read⟩⟩

instance (tr : Trace) (q : State) : DecidablePred (OwnedStep tr q) := fun _ ↦
  inferInstanceAs (Decidable (_ ∧ _))

/-! ## What is delivered -/

/-- Who is about to be delivered events of which response. -/
def delivers (q : State) : Event Call Call.Reply Job → Option (ResponseId × TenantId)
  | .call i (.eventLog (.readAfter r _ _)) (.ok (_ :: _)) =>
    ((q.jobAt i).bind Job.streams).map fun p ↦ (r, p.2)
  | _ => none

/-- The record of `r` is there, and `tenant` is the one who created it. -/
def OwnedBy (tr : Trace) (q : State) (r : ResponseId) (tenant : TenantId) : Prop :=
  (∃ x, q.world.store.record r = some x ∧ x.tenantId = tenant) ∧
    ∀ p ∈ creators tr, p.1 = r → p.2 = tenant

/-! ## What the handler returns -/

/-- What the reads of a stream have returned so far. -/
def collecting (r : ResponseId) : Session Call Call.Reply where
  State := List ResponseEvent
  allowed _ c := c = .ledger (.get r) ∨ ∃ cursor limit, c = .eventLog (.readAfter r cursor limit)
  answers _ _ := True
  next
    | seen, .eventLog (.readAfter _ _ _), .ok batch => seen ++ batch
    | seen, _, _ => seen
  rest _ := True

/-- Every event handed out is among those seen. -/
def Returned (seen : List ResponseEvent) (out : List ResponseEvent × Gateway.StreamEnd) : Prop :=
  ∀ e ∈ out.1, e ∈ seen

/-- The handler returns nothing but what its reads of the response returned. -/
theorem streamImpl_returns_read (rounds : ℕ) (r : ResponseId) (cursor : Option ℕ)
    (tenant : TenantId) :
    (collecting r).Follows Returned []
      (Gateway.streamImpl rounds r cursor tenant) := by
  have hround : ∀ (seen : List ResponseEvent) (s : Option ℕ × List ResponseEvent),
      (∀ e ∈ s.2, e ∈ seen) → (collecting r).Follows
        (fun (seen : List ResponseEvent) out ↦ Sum.elim (fun s ↦ ∀ e ∈ s.2, e ∈ seen)
          (Returned seen) out) seen (Gateway.streamRound r s) := by
    intro seen s hs
    refine ⟨Or.inr ⟨_, _, rfl⟩, fun reply _ ↦ ?_⟩
    rcases reply with e | batch
    · exact hs
    cases batch with
    | nil => exact fun e he ↦ List.mem_append_left _ (hs e he)
    | cons e es =>
        have hgrown : ∀ b ∈ s.2 ++ (e :: es), b ∈ seen ++ (e :: es) := by
          intro b hb
          rcases List.mem_append.mp hb with hb | hb
          · exact List.mem_append_left _ (hs b hb)
          · exact List.mem_append_right _ hb
        show (collecting r).Follows _ (seen ++ (e :: es)) (ite _ _ _)
        split <;> exact hgrown
  have hopen : (collecting r).Follows Returned []
      (Gateway.openStream rounds r cursor) := by
    refine ⟨Or.inr ⟨_, _, rfl⟩, fun reply _ ↦ ?_⟩
    rcases reply with e | batch
    · exact fun e he ↦ by cases he
    · exact Session.Follows.iterate (S := collecting r) (fun _ _ _ ↦ trivial) hround rounds
        (i := (cursor, [])) (fun e he ↦ by cases he)
  refine ⟨Or.inl rfl, fun reply _ ↦ ?_⟩
  rcases reply with e | (_ | x)
  · exact hopen
  · exact hopen
  · show (collecting r).Follows _ [] (ite _ _ _)
    split
    · exact fun e he ↦ by cases he
    · exact hopen

/-! ## Readable logs -/

/-- Only an append can make a log readable, and only one that passes its fence. -/
theorem readable_back {c : Call} {w : World} {r : ResponseId}
    (hc : c.Whole ∨ ∃ event, c = .eventLog (.append event)) (h : (exec c w).2.Readable r) :
    w.Readable r ∨ ∃ event, c = .eventLog (.append event) ∧ event.responseId = r ∧
      ((∃ a, w.InForce r a) ∨ event.attempt = none ∧ w.Announceable r) := by
  obtain ⟨log', hlog', hswept'⟩ := h
  rcases hc with hwhole | ⟨event, rfl⟩
  · obtain ⟨log, hlog, hfades⟩ := exec_fades hwhole hlog'
    refine Or.inl ⟨log, hlog, ?_⟩
    by_contra hswept
    rw [hfades.swept (by simpa using hswept)] at hswept'
    cases hswept'
  · rcases append_cases event w with ⟨e, heq, -⟩ | ⟨hfence, hroom, heq⟩
    · rw [heq] at hlog'
      exact Or.inl ⟨log', hlog', hswept'⟩
    · by_cases hid : r = event.responseId
      · subst hid
        refine Or.inr ⟨event, rfl, rfl, ?_⟩
        cases hattempt : event.attempt with
        | none =>
            refine Or.inr ⟨rfl, ?_, hroom⟩
            by_contra hro
            simp [fenceCheck_unfenced hattempt, hro] at hfence
        | some a =>
            refine Or.inl ⟨a, inForce_of_fenceCheck hattempt ?_⟩
            simpa only [exec, execEventLog] using hfence
      · rw [heq] at hlog'
        simp only [EventLogStore.pushed, HashMap.lookup_insert', hid, if_false] at hlog'
        exact Or.inl ⟨log', hlog', hswept'⟩

theorem readable_of_read {w : World} {r : ResponseId} {cursor : Option ℕ} {limit : ℕ}
    {e : ResponseEvent} {es : List ResponseEvent}
    (h : (exec (.eventLog (.readAfter r cursor limit)) w).1 = .ok (e :: es)) : w.Readable r := by
  simp only [exec, execEventLog, MemResponseEventLog.readAfter] at h
  cases hlog : w.log.logs.lookup r with
  | none => simp [hlog] at h
  | some log =>
      refine ⟨log, hlog, ?_⟩
      cases hswept : log.swept with
      | false => rfl
      | true => simp [hlog, hswept] at h

theorem not_readable_remove (w : World) (r : ResponseId) :
    ¬ (exec (.eventLog (.remove r)) w).2.Readable r := by
  rintro ⟨log, hlog, -⟩
  simp only [exec, execEventLog, World.withLog_snd, MemResponseEventLog.remove] at hlog
  cases hr : w.log.logs.lookup r with
  | none => simp [hr] at hlog
  | some log' => simp [hr] at hlog

/-! ## The invariant -/

/-- Every record has its creator, and every readable log its record. -/
structure Custody (tr : Trace) (w : World) (ss : List Watch) : Prop where
  record : ∀ {r x}, w.store.record r = some x → (r, x.tenantId) ∈ creators tr
  unique : ∀ {r t t'}, (r, t) ∈ creators tr → (r, t') ∈ creators tr → t = t'
  known : ∀ {r}, r ∈ revealed tr → ∃ t, (r, t) ∈ creators tr
  unwritten : ∀ {i : ℕ} {o s r}, ss[i]? = some (.turning o s) → s.unwritten = some r →
    (∃ t ∈ o, (r, t) ∈ creators tr) ∧ w.store.record r = none ∧ r ∉ revealed tr
  sole : ∀ {i j : ℕ} {o o' s s' r}, ss[i]? = some (.turning o s) →
    ss[j]? = some (.turning o' s') → s.unwritten = some r → s'.unwritten = some r → i = j
  guarded : ∀ {r}, w.Readable r →
    (∃ x, w.store.record r = some x) ∨ ∃ i : ℕ, ss[i]? = some (.removing r)
  asking : ∀ {i : ℕ} {r t}, ss[i]? = some (.asking r t) → (∃ p ∈ readers tr, p.1 = r) ∧
    ∀ t', (r, t') ∈ creators tr → t' = t ∨ r ∈ revealed tr
  /-- Past the ownership check stands a reader of its own response, or of one that is gone. -/
  watching : ∀ {i : ℕ} {r t}, ss[i]? = some (.watching r t) → (∃ p ∈ readers tr, p.1 = r) ∧
    ((∀ t', (r, t') ∈ creators tr → t' = t) ∨ w.store.record r = none ∧
      ∀ (j : ℕ) (o : Option TenantId) (s : Stage), ss[j]? = some (.turning o s) →
        s.unwritten ≠ some r)

namespace Custody

variable {tr : Trace} {w : World} {ss : List Watch} {i : ℕ} {s : Watch}

theorem creates_of_first (j : Job) {o : Option TenantId} {t : Stage} {r : ResponseId}
    (h : Watch.first j = .turning o t) (hun : t.unwritten = some r) :
    ∃ tenant ∈ o, j.creates = some (r, tenant) := by
  cases j with
  | create cfg rounds tenant spec key uuid =>
      obtain ⟨rfl, rfl⟩ := Watch.turning.inj h
      rw [Stage.unwritten_first] at hun
      obtain rfl : (⟨cfg.nodeTag, uuid⟩ : ResponseId) = r := Option.some.inj hun
      exact ⟨tenant, rfl, rfl⟩
  | stream => cases h
  | delete => cases h
  | purge => cases h
  | createConversation => cases h
  | _ =>
      obtain ⟨-, rfl⟩ := Watch.turning.inj h
      cases hun

theorem streams_of_first {j : Job} {r : ResponseId} {t : TenantId}
    (h : Watch.first j = .asking r t) : j.streams = some (r, t) ∧ j.creates = none := by
  cases j with
  | stream rounds id cursor tenant =>
      obtain ⟨rfl, rfl⟩ := Watch.asking.inj h
      exact ⟨rfl, rfl⟩
  | _ => cases h

theorem start {q : State} {j : Job} (h : Custody tr w ss) (hj : FreshStep tr q (.start j)) :
    Custody (tr ++ [.start j]) w (ss ++ [Watch.first j]) := by
  obtain ⟨hmints, hstreams⟩ := hj
  have hcreates : ∀ {p : ResponseId × TenantId}, p ∈ j.creates → p.1 ∈ j.mints := by
    intro p hp
    rw [← creates_mints]
    exact Option.mem_map_of_mem Prod.fst hp
  have hnew : ∀ {p p' : ResponseId × TenantId}, p ∈ j.creates → p' ∈ creators tr → p.1 ≠ p'.1 :=
    fun hp hp' heq ↦ (hmints _ (hcreates hp)).1 (heq ▸ minted_of_creators hp')
  have hcases : ∀ {k : ℕ} {t : Watch}, (ss ++ [Watch.first j])[k]? = some t →
      ss[k]? = some t ∨ k = ss.length ∧ t = Watch.first j := by
    intro k t ht
    have ht' : (watch.advance Watch.first ss (.start j : Event Call Call.Reply Job))[k]? = some t :=
      ht
    exact Session.getElem?_advance_start ht'
  have hmem : ∀ {p : ResponseId × TenantId}, p ∈ creators (tr ++ [.start j]) ↔
      p ∈ creators tr ∨ p ∈ j.creates := by
    intro p
    simp
  have hfirst : ∀ {o : Option TenantId} {t : Stage} {r : ResponseId},
      Watch.first j = .turning o t → t.unwritten = some r →
      (∃ tenant ∈ o, (r, tenant) ∈ j.creates) ∧ ∀ p ∈ creators tr, p.1 ≠ r := by
    intro o t r ht hun
    obtain ⟨tenant, ho, hcr⟩ := creates_of_first j ht hun
    exact ⟨⟨tenant, ho, hcr⟩, fun p hp ↦ (hnew hcr hp).symm⟩
  refine ⟨fun hx ↦ hmem.mpr (Or.inl (h.record hx)), fun {r t t'} ht ht' ↦ ?_, fun {r} hr ↦ ?_,
    ?_, ?_, ?_, ?_, ?_⟩
  · rcases hmem.mp ht with hold | hcr <;> rcases hmem.mp ht' with hold' | hcr'
    · exact h.unique hold hold'
    · exact (hnew hcr' hold rfl).elim
    · exact (hnew hcr hold' rfl).elim
    · exact congrArg Prod.snd (Option.some.inj (hcr.symm.trans hcr'))
  · rw [revealed_start] at hr
    obtain ⟨t, ht⟩ := h.known hr
    exact ⟨t, hmem.mpr (Or.inl ht)⟩
  · intro k o t r ht hun
    rw [revealed_start]
    rcases hcases ht with hold | ⟨-, heq⟩
    · obtain ⟨⟨tenant, ho, hcr⟩, hnone⟩ := h.unwritten hold hun
      exact ⟨⟨tenant, ho, hmem.mpr (Or.inl hcr)⟩, hnone⟩
    · obtain ⟨⟨tenant, ho, hcr⟩, hfresh⟩ := hfirst heq.symm hun
      refine ⟨⟨tenant, ho, hmem.mpr (Or.inr hcr)⟩, ?_, fun hr ↦ ?_⟩
      · cases hx : w.store.record r with
        | none => rfl
        | some x => exact absurd rfl (hfresh _ (h.record hx))
      · obtain ⟨t, ht⟩ := h.known hr
        exact hfresh _ ht rfl
  · intro k l o o' t t' r ht ht' hun hun'
    rcases hcases ht with hold | ⟨hk, heq⟩ <;> rcases hcases ht' with hold' | ⟨hl, heq'⟩
    · exact h.sole hold hold' hun hun'
    · obtain ⟨⟨tenant, -, hcr⟩, -⟩ := h.unwritten hold hun
      exact absurd rfl ((hfirst heq'.symm hun').2 _ hcr)
    · obtain ⟨⟨tenant, -, hcr⟩, -⟩ := h.unwritten hold' hun'
      exact absurd rfl ((hfirst heq.symm hun).2 _ hcr)
    · rw [hk, hl]
  · intro r hr
    rcases h.guarded hr with hx | ⟨k, hk⟩
    · exact Or.inl hx
    · exact Or.inr ⟨k, by rw [List.getElem?_append_left (List.getElem?_eq_some_iff.mp hk).1, hk]⟩
  · intro k r t ht
    simp only [readers_start, revealed_start]
    rcases hcases ht with hold | ⟨-, heq⟩
    · obtain ⟨⟨p, hp, rfl⟩, howner⟩ := h.asking hold
      refine ⟨⟨p, List.mem_append_left _ hp, rfl⟩, fun t' ht' ↦ ?_⟩
      rcases hmem.mp ht' with ht' | ht'
      · exact howner t' ht'
      · exact absurd rfl ((hmints _ (hcreates ht')).2 p hp)
    · obtain ⟨hstream, hnone⟩ := streams_of_first heq.symm
      refine ⟨⟨(r, t), by simp [hstream], rfl⟩, fun t' ht' ↦ ?_⟩
      rcases hmem.mp ht' with ht' | ht'
      · exact hstreams _ hstream _ ht' rfl
      · rw [hnone] at ht'
        cases ht'
  · intro k r t ht
    simp only [readers_start]
    rcases hcases ht with hold | ⟨-, heq⟩
    · obtain ⟨⟨p, hp, rfl⟩, howner⟩ := h.watching hold
      refine ⟨⟨p, List.mem_append_left _ hp, rfl⟩, ?_⟩
      have hold' : ∀ t', (p.1, t') ∈ creators (tr ++ [.start j]) → (p.1, t') ∈ creators tr := by
        intro t' ht'
        rcases hmem.mp ht' with ht' | ht'
        · exact ht'
        · exact absurd rfl ((hmints _ (hcreates ht')).2 p hp)
      rcases howner with hown | ⟨hnone, hun⟩
      · exact Or.inl fun t' ht' ↦ hown t' (hold' t' ht')
      · refine Or.inr ⟨hnone, fun l o u hu hun' ↦ ?_⟩
        rcases hcases hu with hu | ⟨-, heq⟩
        · exact hun l o u hu hun'
        · obtain ⟨⟨tenant, -, hcr⟩, -⟩ := hfirst heq.symm hun'
          exact (hmints _ (hcreates hcr)).2 p hp rfl
    · cases j <;> cases heq

variable {w' : World} {ss' : List Watch} {s' : Watch} {c : Call}

/-- The rule for steps that write no record.  Readable logs are accounted for by the caller. -/
theorem move (h : Custody tr w ss) (hs : ss[i]? = some s)
    (hss : ∀ j, ss'[j]? = if i = j then some s' else ss[j]?)
    (hrec : ∀ r x', w'.store.record r = some x' →
      ∃ x, w.store.record r = some x ∧ x.tenantId = x'.tenantId)
    (hguard : ∀ r, w'.Readable r →
      (∃ x, w'.store.record r = some x) ∨ ∃ j : ℕ, ss'[j]? = some (.removing r))
    (hun : ∀ o t r, s' = .turning o t → t.unwritten = some r →
      ∃ t₀, s = .turning o t₀ ∧ t₀.unwritten = some r)
    (hasking : ∀ r t, s' = .asking r t → s = .asking r t)
    (hwatching : ∀ r t, s' = .watching r t → s = .watching r t ∨ (∃ p ∈ readers tr, p.1 = r) ∧
      ((∀ t', (r, t') ∈ creators tr → t' = t) ∨ w.store.record r = none ∧
        ∀ (j : ℕ) (o : Option TenantId) (s : Stage), ss[j]? = some (.turning o s) →
          s.unwritten ≠ some r)) : Custody tr w' ss' := by
  have hnone : ∀ {r : ResponseId}, w.store.record r = none → w'.store.record r = none := by
    intro r hr
    cases hx' : w'.store.record r with
    | none => rfl
    | some x' =>
        obtain ⟨x, hx, -⟩ := hrec r x' hx'
        rw [hr] at hx
        cases hx
  -- A stage that has yet to write its record had yet to write it before the step.
  have hold : ∀ {j : ℕ} {o : Option TenantId} {t : Stage} {r : ResponseId},
      ss'[j]? = some (.turning o t) → t.unwritten = some r →
      ∃ t₀, ss[j]? = some (.turning o t₀) ∧ t₀.unwritten = some r := by
    intro j o t r ht hr
    rw [hss] at ht
    split_ifs at ht with hij
    · obtain ⟨t₀, hs₀, ht₀⟩ := hun o t r (Option.some.inj ht) hr
      exact ⟨t₀, hij ▸ hs₀ ▸ hs, ht₀⟩
    · exact ⟨t, ht, hr⟩
  refine ⟨fun {r x'} hx' ↦ ?_, h.unique, h.known, ?_, ?_, fun {r} hr ↦ hguard r hr, ?_, ?_⟩
  · obtain ⟨x, hx, htenant⟩ := hrec r x' hx'
    exact htenant ▸ h.record hx
  · intro j o t r ht hr
    obtain ⟨t₀, ht₀, hr₀⟩ := hold ht hr
    obtain ⟨hcr, hrnone, hrev⟩ := h.unwritten ht₀ hr₀
    exact ⟨hcr, hnone hrnone, hrev⟩
  · intro j k o o' t t' r ht ht' hr hr'
    obtain ⟨t₀, ht₀, hr₀⟩ := hold ht hr
    obtain ⟨t₁, ht₁, hr₁⟩ := hold ht' hr'
    exact h.sole ht₀ ht₁ hr₀ hr₁
  · intro j r t ht
    rw [hss] at ht
    split_ifs at ht with hij
    · exact h.asking (hij ▸ hasking r t (Option.some.inj ht) ▸ hs)
    · exact h.asking ht
  · intro j r t ht
    have hbefore : (∃ p ∈ readers tr, p.1 = r) ∧ ((∀ t', (r, t') ∈ creators tr → t' = t) ∨
        w.store.record r = none ∧ ∀ (j : ℕ) (o : Option TenantId) (s : Stage),
          ss[j]? = some (.turning o s) → s.unwritten ≠ some r) := by
      rw [hss] at ht
      split_ifs at ht with hij
      · rcases hwatching r t (Option.some.inj ht) with hsame | hnew
        · exact h.watching (hij ▸ hsame ▸ hs)
        · exact hnew
      · exact h.watching ht
    refine ⟨hbefore.1, hbefore.2.imp id fun hgone ↦ ⟨hnone hgone.1, fun k o u hu hr ↦ ?_⟩⟩
    obtain ⟨u₀, hu₀, hr₀⟩ := hold hu hr
    exact hgone.2 k o u₀ hu₀ hr₀

/-- The step that writes a record: its creator is known, and nobody waits for it any more. -/
theorem write (h : Custody tr w ss) {o : Option TenantId} {t t' : Stage}
    (hs : ss[i]? = some (.turning o t))
    (hss : ∀ j, ss'[j]? = if i = j then some (.turning o t') else ss[j]?) {x : ResponseRecord}
    (hun : t.unwritten = some x.responseId) (hun' : t'.unwritten = none)
    (htenant : ∀ tenant ∈ o, x.tenantId = tenant)
    (hrec : ∀ r, w'.store.record r = if r = x.responseId then some x else w.store.record r)
    (hlog : w'.log = w.log) {e : Event Call Call.Reply Job}
    (hcr : creators (tr ++ [e]) = creators tr)
    (hrd : readers (tr ++ [e]) = readers tr)
    (hrev : revealed (tr ++ [e]) = revealed tr ++ [x.responseId]) :
    Custody (tr ++ [e]) w' ss' := by
  obtain ⟨⟨tenant, ho, hmem⟩, -, -⟩ := h.unwritten hs hun
  have hown : (x.responseId, x.tenantId) ∈ creators tr := htenant tenant ho ▸ hmem
  have hold : ∀ {j : ℕ} {o' : Option TenantId} {u : Stage} {r : ResponseId},
      ss'[j]? = some (.turning o' u) → u.unwritten = some r →
      ss[j]? = some (.turning o' u) ∧ r ≠ x.responseId := by
    intro j o' u r hu hr
    rw [hss] at hu
    split_ifs at hu with hij
    · obtain ⟨-, rfl⟩ := Watch.turning.inj (Option.some.inj hu)
      rw [hun'] at hr
      cases hr
    · refine ⟨hu, ?_⟩
      rintro rfl
      exact hij (h.sole hs hu hun hr)
  have hother : ∀ {j : ℕ} {u : Watch}, ss'[j]? = some u → (∀ o' u', u ≠ .turning o' u') →
      ss[j]? = some u := by
    intro j u hu hne
    rw [hss] at hu
    split_ifs at hu with hij
    · exact absurd (Option.some.inj hu).symm (hne o t')
    · exact hu
  refine ⟨fun {r y} hy ↦ ?_, ?_, fun {r} hr ↦ ?_, ?_, ?_, fun {r} hr ↦ ?_, ?_, ?_⟩
  · rw [hcr]
    rw [hrec] at hy
    split_ifs at hy with hr
    · obtain rfl := Option.some.inj hy
      exact hr ▸ hown
    · exact h.record hy
  · rw [hcr]
    exact h.unique
  · rw [hcr]
    rw [hrev] at hr
    rcases List.mem_append.mp hr with hr | hr
    · exact h.known hr
    · obtain rfl := List.mem_singleton.mp hr
      exact ⟨_, hown⟩
  · intro j o' u r hu hr
    obtain ⟨hu, hne⟩ := hold hu hr
    obtain ⟨hcreator, hnone, hunknown⟩ := h.unwritten hu hr
    rw [hcr, hrev, hrec, if_neg hne]
    exact ⟨hcreator, hnone, by simpa [hne] using hunknown⟩
  · intro j k o' o'' u u' r hu hu' hr hr'
    exact h.sole (hold hu hr).1 (hold hu' hr').1 hr hr'
  · have hr₀ : w.Readable r := by
      obtain ⟨log, hlook, hswept⟩ := hr
      exact ⟨log, hlog ▸ hlook, hswept⟩
    rcases h.guarded hr₀ with ⟨y, hy⟩ | ⟨j, hj⟩
    · rw [hrec]
      split_ifs
      · exact Or.inl ⟨x, rfl⟩
      · exact Or.inl ⟨y, hy⟩
    · refine Or.inr ⟨j, ?_⟩
      rw [hss, if_neg, hj]
      rintro rfl
      rw [hs] at hj
      cases hj
  · intro j r u hu
    rw [hcr, hrd, hrev]
    obtain ⟨hread, howner⟩ := h.asking (hother hu fun _ _ ↦ by simp)
    exact ⟨hread, fun t₁ ht₁ ↦ (howner t₁ ht₁).imp id (List.mem_append_left _)⟩
  · intro j r u hu
    rw [hcr, hrd]
    obtain ⟨hread, howner⟩ := h.watching (hother hu fun _ _ ↦ by simp)
    refine ⟨hread, howner.imp id fun hgone ↦ ⟨?_, fun k o' v hv hr ↦ ?_⟩⟩
    · rw [hrec, if_neg, hgone.1]
      rintro rfl
      exact hgone.2 i o t hs hun
    · exact hgone.2 k o' v (hold hv hr).1 hr

theorem create_of_reveals {reply : c.Reply} {id : ResponseId}
    (h : reveals (.call i c reply) = some id) :
    ∃ record key now, c = .ledger (.create record key now) ∧ record.responseId = id := by
  unfold reveals at h
  split at h
  · next heq =>
      obtain ⟨-, rfl, -⟩ := Event.call.inj heq
      exact ⟨_, _, _, rfl, Option.some.inj h⟩
  · cases h

/-- A call that reveals nothing leaves no record it did not find. -/
theorem record_of_hidden {r : ResponseId} {x' : ResponseRecord}
    (hhidden : reveals (.call i c (exec c w).1) = none)
    (hx' : (exec c w).2.store.record r = some x') :
    ∃ x, w.store.record r = some x ∧ x.tenantId = x'.tenantId := by
  by_cases hwrites : c.writes = some r
  · rcases c with _ | c | c | c | c | c <;> first | cases hwrites | skip
    cases c with
    | create record key now =>
        rcases exec_create record key now w with ⟨-, heq⟩ | ⟨y, hy, -⟩
        · rw [heq] at hx'
          exact ⟨x', hx', rfl⟩
        · rw [hy] at hhidden
          cases hhidden
    | _ => cases hwrites
  · obtain ⟨x, hx, hadv⟩ := record_back hwrites hx'
    exact ⟨x, hx, hadv.tenantId.symm⟩

theorem whole_or_append (hallowed : s.Allowed c) :
    c.Whole ∨ ∃ event, c = .eventLog (.append event) := by
  cases s with
  | turning o t => exact (whole_of_allowed hallowed.1).symm
  | aside =>
      rcases c with _ | c | c | c | c | c <;> first | exact Or.inl trivial | exact hallowed.elim
  | watching r t =>
      obtain ⟨cursor, limit, rfl⟩ := hallowed
      exact Or.inl trivial
  | ended => exact hallowed.elim
  | _ =>
      obtain rfl := hallowed
      exact Or.inl trivial

/-- A process about to remove a log still is after another's call, and a deletion that has lost
its record is. -/
theorem guarded_next (h : Custody tr w ss) (hs : ss[i]? = some s) (hallowed : s.Allowed c)
    (hss : ∀ j, ss'[j]? = if i = j then some (s.next c (exec c w).1) else ss[j]?)
    (hpurge : ∀ tenant, c = .ledger (.deleteByTenant tenant) →
      MemResponseLedger.guardWritable w.store = .ok () →
      ∀ r ∈ (w.store.inner.byTenant.lookup tenant).getD [], ¬ w.Readable r)
    (happend : ∀ event, c = .eventLog (.append event) → event.attempt = none →
      w.Announceable event.responseId → (∃ x, w.store.record event.responseId = some x) ∨
        ∃ j : ℕ, ss[j]? = some (.removing event.responseId))
    {r : ResponseId} (hr : (exec c w).2.Readable r) :
    (∃ x, (exec c w).2.store.record r = some x) ∨ ∃ j : ℕ, ss'[j]? = some (.removing r) := by
  have hremoving : (∃ j : ℕ, ss[j]? = some (.removing r)) →
      ∃ j : ℕ, ss'[j]? = some (.removing r) := by
    rintro ⟨j, hj⟩
    refine ⟨j, ?_⟩
    rw [hss, if_neg, hj]
    rintro rfl
    obtain rfl : s = .removing r := Option.some.inj (hs.symm.trans hj)
    obtain rfl := hallowed
    exact not_readable_remove w r hr
  rcases readable_back (whole_or_append hallowed) hr with hbefore | ⟨event, rfl, rfl, hpass⟩
  · rcases h.guarded hbefore with ⟨x, hx⟩ | hj
    · rcases record_kept (c := c) hx with hkept | ⟨rfl, hguard⟩ | ⟨tenant, rfl, hguard, hmem⟩
      · exact Or.inl hkept
      · refine Or.inr ⟨i, ?_⟩
        rw [hss, if_pos rfl]
        cases s with
        | deleting r' =>
            obtain rfl : r = r' := by simpa [Watch.Allowed] using hallowed
            simp [Watch.next, exec, execLedger, MemResponseLedger.delete, hguard, Except.isOk,
              Except.toBool]
        | turning o t => exact absurd hallowed.1 (by rintro ⟨⟩; assumption)
        | aside => exact hallowed.elim
        | ended => exact hallowed.elim
        | watching => exact absurd hallowed (by simp [Watch.Allowed])
        | _ => exact absurd hallowed (by simp [Watch.Allowed])
      · exact absurd hbefore (hpurge tenant rfl hguard r hmem)
    · exact Or.inr (hremoving hj)
  · have hstore : (exec (.eventLog (.append event)) w).2.store = w.store := exec_eventLog_store _ _
    rcases hpass with ⟨a, x, hx, -⟩ | ⟨hattempt, hann⟩
    · exact Or.inl ⟨x, hstore ▸ hx⟩
    · rcases happend event rfl hattempt hann with ⟨x, hx⟩ | hj
      · exact Or.inl ⟨x, hstore ▸ hx⟩
      · exact Or.inr (hremoving hj)

/-- Nobody starts to ask, and only the ownership check lets a reader through. -/
theorem next_asking {r : ResponseId} {t : TenantId} (hallowed : s.Allowed c) (reply : c.Reply) :
    s.next c reply ≠ .asking r t := by
  intro h
  cases s with
  | asking r' t' =>
      obtain rfl := hallowed
      simp only [Watch.next, Watch.checked] at h
      split_ifs at h
  | deleting r' =>
      obtain rfl := hallowed
      simp only [Watch.next] at h
      split_ifs at h
  | ended => exact hallowed.elim
  | watching r' t' =>
      obtain ⟨cursor, limit, rfl⟩ := hallowed
      cases h
  | aside => cases h
  | _ => cases h

theorem next_watching (h : Custody tr w ss) (hs : ss[i]? = some s) (hallowed : s.Allowed c)
    {r : ResponseId} {t : TenantId} (hnext : s.next c (exec c w).1 = .watching r t) :
    s = .watching r t ∨ (∃ p ∈ readers tr, p.1 = r) ∧
      ((∀ t', (r, t') ∈ creators tr → t' = t) ∨ w.store.record r = none ∧
        ∀ (j : ℕ) (o : Option TenantId) (s : Stage), ss[j]? = some (.turning o s) →
          s.unwritten ≠ some r) := by
  cases s with
  | asking r' t' =>
      obtain rfl := hallowed
      obtain ⟨hread, howner⟩ := h.asking hs
      have hcheck : Watch.checked r' t' (.ok (w.store.record r')) = .watching r t := hnext
      unfold Watch.checked at hcheck
      split at hcheck
      swap
      · cases hcheck
      next hall =>
      obtain ⟨rfl, rfl⟩ := Watch.watching.inj hcheck
      refine Or.inr ⟨hread, ?_⟩
      cases hx : w.store.record r' with
      | some x =>
          have htenant : x.tenantId = t' := by simpa [found, hx] using hall
          exact Or.inl fun t₁ ht₁ ↦ (h.unique ht₁ (h.record hx)).trans htenant
      | none =>
          by_cases hall : ∀ t₁, (r', t₁) ∈ creators tr → t₁ = t'
          · exact Or.inl hall
          · push Not at hall
            obtain ⟨t₁, ht₁, hne⟩ := hall
            have hrev : r' ∈ revealed tr := (howner t₁ ht₁).resolve_left hne
            exact Or.inr ⟨rfl, fun j o u hu hun ↦ (h.unwritten hu hun).2.2 hrev⟩
  | deleting r' =>
      obtain rfl := hallowed
      simp only [Watch.next] at hnext
      split_ifs at hnext
  | ended => exact hallowed.elim
  | watching r' t' =>
      obtain ⟨cursor, limit, rfl⟩ := hallowed
      exact Or.inl hnext
  | aside => cases hnext
  | _ => cases hnext

theorem next_turning (hallowed : s.Allowed c) {reply : c.Reply} {o : Option TenantId} {t : Stage}
    (hnext : s.next c reply = .turning o t) : ∃ t₀, s = .turning o t₀ ∧ t = t₀.next c reply := by
  cases s with
  | turning o' t₀ =>
      obtain ⟨rfl, rfl⟩ := Watch.turning.inj hnext
      exact ⟨t₀, rfl, rfl⟩
  | asking r' t' =>
      obtain rfl := hallowed
      simp only [Watch.next, Watch.checked] at hnext
      split_ifs at hnext
  | deleting r' =>
      obtain rfl := hallowed
      simp only [Watch.next] at hnext
      split_ifs at hnext
  | ended => exact hallowed.elim
  | watching r' t' =>
      obtain ⟨cursor, limit, rfl⟩ := hallowed
      cases hnext
  | aside => cases hnext
  | _ => cases hnext

theorem call (h : Custody tr w ss) (hs : ss[i]? = some s) (hallowed : s.Allowed c)
    (hpurge : ∀ tenant, c = .ledger (.deleteByTenant tenant) →
      MemResponseLedger.guardWritable w.store = .ok () →
      ∀ r ∈ (w.store.inner.byTenant.lookup tenant).getD [], ¬ w.Readable r)
    (happend : ∀ event, c = .eventLog (.append event) → event.attempt = none →
      w.Announceable event.responseId → (∃ x, w.store.record event.responseId = some x) ∨
        ∃ j : ℕ, ss[j]? = some (.removing event.responseId)) :
    Custody (tr ++ [.call i c (exec c w).1]) (exec c w).2
      (watch.advance Watch.first ss (.call i c (exec c w).1 : Event Call Call.Reply Job)) := by
  have hss : ∀ j, (watch.advance Watch.first ss
      (.call i c (exec c w).1 : Event Call Call.Reply Job))[j]? =
        if i = j then some (s.next c (exec c w).1) else ss[j]? :=
    fun j ↦ Session.getElem?_advance_call hs
  cases hrev : reveals (.call i c (exec c w).1) with
  | none =>
      have hmove := h.move hs hss (fun r x' ↦ record_of_hidden hrev)
        (fun r ↦ h.guarded_next hs hallowed hss hpurge happend) (fun o t r hnext hun ↦ ?_)
        (fun r t hnext ↦ absurd hnext (next_asking hallowed _))
        (fun r t ↦ h.next_watching hs hallowed)
      · refine ⟨?_, ?_, ?_, ?_, hmove.sole, hmove.guarded, ?_, ?_⟩ <;>
          simp only [creators_call, readers_call, revealed_call, hrev, Option.toList_none,
            List.append_nil]
        · exact hmove.record
        · exact hmove.unique
        · exact hmove.known
        · exact hmove.unwritten
        · exact hmove.asking
        · exact hmove.watching
      · obtain ⟨t₀, rfl, rfl⟩ := next_turning hallowed hnext
        exact ⟨t₀, rfl, Stage.unwritten_next hun⟩
  | some id =>
      obtain ⟨record, key, now, rfl, rfl⟩ := create_of_reveals hrev
      rcases exec_create record key now w with ⟨hrefused, -⟩ | ⟨x, hreply, hsign, -, heq⟩
      · generalize (exec (.ledger (.create record key now)) w).1 = reply at hrev hrefused
        rcases reply with e | (y | y | _ | _) <;> first | exact absurd rfl (hrefused y) | cases hrev
      · have hx := MemResponseLedger.sign_spec hsign
        have hid : x.responseId = record.responseId := by rw [hx]
        obtain ⟨o, t, rfl⟩ : ∃ o t, s = .turning o t := by
          cases s with
          | turning o t => exact ⟨o, t, rfl⟩
          | watching => exact absurd hallowed (by simp [Watch.Allowed])
          | aside => exact hallowed.elim
          | ended => exact hallowed.elim
          | _ => exact absurd hallowed (by simp [Watch.Allowed])
        refine h.write hs hss (x := x) ?_ (Stage.unwritten_next_create t record key now _)
          (fun tenant ho ↦ ?_) (fun r ↦ ?_) ?_ (creators_call _ _ _ _) (readers_call _ _ _ _) ?_
        · exact hid ▸ Stage.unwritten_of_writes hallowed.1 rfl
        · rw [hx]
          exact hallowed.2 tenant ho record key now rfl
        · rw [heq]
          exact MemResponseLedger.record_enqueue w.store x key r
        · rw [heq]
        · rw [revealed_call, hrev, hid]
          rfl

end Custody

/-! ## Every run -/

section Keeps

variable {q : State} {ss : List Watch}
  (hk : watch.Keeps (fun s _ ↦ s.Restful) q ss)

include hk

/-- A process is about to remove a log exactly in the stage after the loss of its record. -/
theorem removing_iff {r : ResponseId} : Removing q r ↔ ∃ i : ℕ, ss[i]? = some (.removing r) := by
  constructor
  · rintro ⟨⟨j, prog⟩, hx, hrem⟩
    obtain ⟨i, hi⟩ := List.getElem?_of_mem hx
    obtain ⟨s, hs, hfollow⟩ := hk.session hi
    unfold removing at hrem
    split at hrem
    · next id k hprog =>
        obtain rfl := Option.some.inj hrem
        obtain rfl : prog = _ := hprog
        have hallowed : s.Allowed (.eventLog (.remove id)) := hfollow.1
        refine ⟨i, hs.trans (congrArg some ?_)⟩
        cases s with
        | removing r =>
            obtain rfl : id = r := by simpa [Watch.Allowed] using hallowed
            rfl
        | turning o t => exact absurd hallowed.1 (by rintro ⟨⟩; assumption)
        | aside => exact hallowed.elim
        | ended => exact hallowed.elim
        | watching => exact absurd hallowed (by simp [Watch.Allowed])
        | _ => exact absurd hallowed (by simp [Watch.Allowed])
    · cases hrem
  · rintro ⟨i, hs⟩
    obtain ⟨⟨j, prog⟩, hi, hfollow⟩ := hk.proc hs
    cases prog with
    | ret a => exact hfollow.elim
    | stall => exact hfollow.elim
    | call c k =>
        obtain rfl : c = .eventLog (.remove r) := hfollow.1
        exact ⟨_, List.mem_of_getElem? hi, rfl⟩

end Keeps

/-- The session of a stream is about the response and the reader it was opened for. -/
def Job.Fits (j : Job) (s : Watch) : Prop :=
  ∀ p ∈ j.streams, s = .asking p.1 p.2 ∨ s = .watching p.1 p.2 ∨ s = .ended

theorem Job.fits_first (j : Job) : j.Fits (Watch.first j) := by
  intro p hp
  cases j with
  | stream rounds id cursor tenant =>
      obtain rfl : (id, tenant) = p := Option.some.inj hp
      exact Or.inl rfl
  | _ => cases hp

theorem Job.Fits.next {j : Job} {s : Watch} {c : Call} (h : j.Fits s) (hallowed : s.Allowed c)
    (reply : c.Reply) : j.Fits (s.next c reply) := by
  intro p hp
  rcases h p hp with rfl | rfl | rfl
  · obtain rfl := hallowed
    have hnext : (Watch.asking p.1 p.2).next (.ledger (.get p.1)) reply =
        Watch.checked p.1 p.2 reply := rfl
    rw [hnext, Watch.checked]
    split
    · exact Or.inr (Or.inl rfl)
    · exact Or.inr (Or.inr rfl)
  · obtain ⟨cursor, limit, rfl⟩ := hallowed
    exact Or.inr (Or.inl rfl)
  · exact hallowed.elim

/-- A world in which nothing has been created. -/
structure World.Blank (w : World) : Prop where
  record : ∀ r, w.store.record r = none
  log : ∀ r, w.log.logs.lookup r = none

theorem custody_init {w : World} (hw : w.Blank) : Custody [] w [] where
  record hx := by
    rw [hw.record] at hx
    cases hx
  unique ht := by cases ht
  known hr := by cases hr
  unwritten hs := by cases hs
  sole hs := by cases hs
  guarded hr := by
    obtain ⟨log, hlog, -⟩ := hr
    rw [hw.log] at hlog
    cases hlog
  asking hs := by cases hs
  watching hs := by cases hs

theorem custody_run {w : World} {tr : Trace} {q : State} (hw : w.Blank)
    (h : Run system OwnedStep (Pool.init w) tr q) :
    (Custody tr q.world (watch.track Watch.first tr) ∧
      ∀ (i : ℕ) (j : Job) (s : Watch), q.jobAt i = some j →
        (watch.track Watch.first tr)[i]? = some s → j.Fits s) ∧
      watch.Keeps (fun s _ ↦ s.Restful) q (watch.track Watch.first tr) := by
  refine Run.invariant watch Watch.first (fun s _ ↦ s.Restful)
    (I := fun tr q ss ↦ Custody tr q.world ss ∧
      ∀ (i : ℕ) (j : Job) (s : Watch), q.jobAt i = some j → ss[i]? = some s → j.Fits s)
    (fun tr q j _ ↦ follows_watch j) ?_ ?_ ?_
    ⟨custody_init hw, fun i j s _ hs ↦ by cases hs⟩ h
  · exact fun {tr q ss} c _ ↦ exec_answers c q.world
  · rintro tr q ss j ⟨hc, hfits⟩ hk hok
    refine ⟨hc.start hok.1, fun i j' s hj hs ↦ ?_⟩
    obtain ⟨x, hx, rfl⟩ : ∃ x, (q.start system j).procs[i]? = some x ∧ x.job = j' := by
      simpa [Pool.jobAt] using hj
    rcases Session.getElem?_advance_start hs with
      hold | ⟨rfl, rfl⟩
    · have hlt : i < q.procs.length := hk.length ▸ (List.getElem?_eq_some_iff.mp hold).1
      refine hfits i x.job s (Pool.jobAt_of_procs ?_) hold
      simpa [Pool.start, List.getElem?_append_left hlt] using hx
    · obtain rfl : x = ⟨j, system.prog j⟩ := by
        simpa [Pool.start, hk.length, eq_comm] using hx
      exact j.fits_first
  · rintro tr q ss i j c k s ⟨hc, hfits⟩ hk hi hs hallowed hok
    refine ⟨hc.call hs hallowed ?_ ?_, fun i' j' s' hj hs' ↦ ?_⟩
    · rintro tenant rfl hguard r hr
      exact hok.2.purge r (by simpa [purged, hguard] using hr)
    · rintro event rfl hattempt hann
      rcases hok.2.join event.responseId (by simp [joined, hattempt, hann]) with hx | hrem
      · exact Or.inl (Option.isSome_iff_exists.mp hx)
      · exact Or.inr ((removing_iff hk).mp hrem)
    · rw [Pool.jobAt_turn hi] at hj
      have hget : some s' = if i = i' then some (s.next c (exec c q.world).1) else ss[i']? :=
        hs'.symm.trans (Session.getElem?_advance_call hs)
      split_ifs at hget with hii
      · obtain rfl := Option.some.inj hget
        subst hii
        exact (hfits i j' s hj hs).next hallowed _
      · exact hfits i' j' s' hj hget.symm

theorem readable_of_delivers {q : State} {w : World} {i : ℕ} {c : Call} {reply : c.Reply}
    {r : ResponseId} {tenant : TenantId} (hreply : (exec c w).1 = reply)
    (h : delivers q (.call i c reply) = some (r, tenant)) :
    w.Readable r ∧ (∃ cursor limit, c = .eventLog (.readAfter r cursor limit)) ∧
      ∃ p ∈ (q.jobAt i).bind Job.streams, p.2 = tenant := by
  unfold delivers at h
  split at h
  · next heq =>
      obtain ⟨rfl, rfl, heq⟩ := Event.call.inj heq
      obtain rfl := eq_of_heq heq
      obtain ⟨p, hp, hpair⟩ := Option.map_eq_some_iff.mp h
      obtain ⟨rfl, rfl⟩ := Prod.mk.inj hpair
      exact ⟨readable_of_read hreply, ⟨_, _, rfl⟩, p, hp, rfl⟩
  · cases h

/-- In runs whose steps keep every log guarded, whoever is delivered events of a response has
created it, and its record has not been deleted. -/
theorem stream_owned {w : World} {tr : Trace} {q q' : State} {a : Action Job}
    {e : Event Call Call.Reply Job} {r : ResponseId} {tenant : TenantId} (hw : w.Blank)
    (h : Run system OwnedStep (Pool.init w) tr q) (hact : q.act system a = some (e, q'))
    (hok : OwnedStep tr q e) (hdeliver : delivers q e = some (r, tenant)) :
    OwnedBy tr q r tenant := by
  obtain ⟨⟨hc, hfits⟩, hk⟩ := custody_run hw h
  cases a with
  | start j =>
      obtain ⟨rfl, -⟩ : Event.start j = e ∧ q.start system j = q' := by
        simpa [Pool.act] using hact
      cases hdeliver
  | turn i =>
      simp only [Pool.act] at hact
      split at hact
      swap
      · cases hact
      next j c k hi =>
      obtain ⟨rfl, -⟩ : Event.call i c (exec c q.world).1 = e ∧ q.turn system i j c k = q' := by
        simpa [system] using hact
      obtain ⟨hread, ⟨cursor, limit, rfl⟩, p, hp, rfl⟩ := readable_of_delivers rfl hdeliver
      obtain ⟨s, hs, hfollow⟩ := hk.session hi
      have hallowed : s.Allowed (.eventLog (.readAfter r cursor limit)) := hfollow.1
      have hjob : q.jobAt i = some j := Pool.jobAt_of_procs hi
      have hstream : j.streams = some p := by simpa [hjob] using hp
      obtain ⟨x, hx⟩ : ∃ x, q.world.store.record r = some x := by
        rcases hok.2.read r (by simp [streamed, hjob, hstream]) with hx | hrem
        · exact Option.isSome_iff_exists.mp hx
        · exact (hc.guarded hread).resolve_right fun hj ↦ hrem ((removing_iff hk).mpr hj)
      rcases hfits i j s hjob hs p hstream with rfl | rfl | rfl
      · cases hallowed
      · obtain rfl : r = p.1 := by
          obtain ⟨cursor', limit', heq⟩ := hallowed
          exact (EventLogCall.readAfter.inj (Call.eventLog.inj heq)).1
        rcases (hc.watching hs).2 with hown | ⟨hnone, -⟩
        · exact ⟨⟨x, hx, hown _ (hc.record hx)⟩, fun p' hp' heq ↦ hown p'.2 (heq ▸ hp')⟩
        · rw [hx] at hnone
          cases hnone
      · exact hallowed.elim

theorem Sample.world_blank_streams : Sample.world.Blank :=
  ⟨fun _ ↦ rfl, fun _ ↦ rfl⟩

/-- A stream of the sample response, about to make its next call. -/
def Sample.delivered (q : State) (pid : ℕ) (tenant : TenantId) : Bool :=
  (q.act system (.turn pid)).any fun p ↦ decide (delivers q p.1 = some (id 1, tenant))

/-- The tenant streams its own response. -/
theorem stream_owned_creator : ∃ tr q e,
    Run system OwnedStep (Pool.init Sample.world) tr q ∧
      delivers q e = some (Sample.id 1, Sample.tenant) ∧
      OwnedBy tr q (Sample.id 1) Sample.tenant := by
  obtain ⟨tr, q, h, htest⟩ := Run.exists_of_schedule system (Pool.init Sample.world)
    (fun tr q e ↦ decide (OwnedStep tr q e))
    (fun tr q ↦ Sample.delivered q 1 Sample.tenant &&
      (q.act system (.turn 1)).any fun p ↦ decide (OwnedStep tr q p.1))
    (fun tr q e ↦ of_decide_eq_true)
    (.start (.create Sample.cfg 4 Sample.tenant Sample.rootSpec none ⟨1⟩) ::
      .start (.stream 4 (Sample.id 1) none Sample.tenant) ::
      Sample.steps 0 3 ++ Sample.steps 1 1) (by decide +kernel)
  simp only [Sample.delivered, Bool.and_eq_true] at htest
  obtain ⟨hdel, hok⟩ := htest
  obtain ⟨⟨e, q'⟩, hact, hdel⟩ := (Option.any_eq_true _ _).mp hdel
  rw [hact] at hok
  exact ⟨tr, q, e, h, of_decide_eq_true hdel, stream_owned Sample.world_blank_streams h hact
    (of_decide_eq_true hok) (of_decide_eq_true hdel)⟩

/-- After a purge of its creator the log of a response is there for everyone. -/
theorem purged_stream : ¬ ∀ (w : World) (tr : Trace) (q q' : State) (a : Action Job)
    (e : Event Call Call.Reply Job) (r : ResponseId) (tenant : TenantId), w.Blank →
    Run system FreshStep (Pool.init w) tr q → q.act system a = some (e, q') → FreshStep tr q e →
    delivers q e = some (r, tenant) → OwnedBy tr q r tenant := by
  intro hclaim
  obtain ⟨tr, q, h, htest⟩ := Run.exists_of_schedule system (Pool.init Sample.world)
    (fun tr q e ↦ decide (FreshStep tr q e))
    (fun tr q ↦ Sample.delivered q 2 Sample.otherTenant &&
      (q.act system (.turn 2)).any (fun p ↦ decide (FreshStep tr q p.1)) &&
      (q.world.store.record (Sample.id 1)).isNone)
    (fun tr q e ↦ of_decide_eq_true)
    (.start (.create Sample.cfg 4 Sample.tenant Sample.rootSpec none ⟨1⟩) ::
      Sample.steps 0 3 ++ .start (.purge Sample.tenant) :: Sample.steps 1 2 ++
      .start (.stream 4 (Sample.id 1) none Sample.otherTenant) :: Sample.steps 2 1)
    (by decide +kernel)
  simp only [Sample.delivered, Bool.and_eq_true] at htest
  obtain ⟨⟨hdel, hok⟩, hnone⟩ := htest
  obtain ⟨⟨e, q'⟩, hact, hdel⟩ := (Option.any_eq_true _ _).mp hdel
  rw [hact] at hok
  obtain ⟨⟨x, hx, -⟩, -⟩ := hclaim Sample.world tr q q' (.turn 2) e (Sample.id 1)
    Sample.otherTenant Sample.world_blank_streams h hact (of_decide_eq_true hok)
    (of_decide_eq_true hdel)
  rw [hx] at hnone
  cases hnone

end NovaChat
