import NovaChat.Admission.History

/-!
# Creates that are not accepted

What a create that ends otherwise leaves behind: on its conversation, where the turn lock has
announced a turn before admission was decided, and in the stores, where one shared compensation
gives the marker back and nothing else.
-/

namespace NovaChat

open Interact Prog MemConversationStore

/-! ## On the conversation -/

/-- The stream, the marker, the tail and the snapshot of a conversation are as they were. -/
structure World.Untouched (w w' : World) (c : ConversationId) : Prop where
  stream : w'.store.stream c = w.store.stream c
  marker : w'.store.marker c = w.store.marker c
  tail : (w'.store.conversation c).bind Conversation.lastResponseId =
    (w.store.conversation c).bind Conversation.lastResponseId
  snapshot : w'.store.snapshot c = w.store.snapshot c

theorem World.Untouched.refl (w : World) (c : ConversationId) : w.Untouched w c :=
  ⟨rfl, rfl, rfl, rfl⟩

theorem not_barred_of_stranded {s : MemStore} {tenant : TenantId} {c : ConversationId}
    {id : ResponseId} (h : s.Stranded tenant c id) : ¬ s.Barred tenant c id := by
  obtain ⟨hguard, -, x, holder, hx, hholder, -, hgone⟩ := h
  rintro (hbar | hbar | ⟨y, hy, hbar⟩)
  · exact hbar hguard
  · rw [hx] at hbar
    cases hbar
  · obtain rfl : x = y := Option.some.inj (hx.symm.trans hy)
    rcases hbar with ⟨hnone, -⟩ | ⟨holder', hholder', -, hbusy⟩
    · rw [hholder] at hnone
      cases hnone
    · obtain rfl : holder = holder' := Option.some.inj (hholder.symm.trans hholder')
      exact hbusy hgone

/-- Admission looks at nothing a change of conversations touches. -/
theorem admissible_converses {w w' : World} (h : w.Converses w') (record : ResponseRecord)
    (key : IdempotencyKey) : w'.Admissible record key ↔ w.Admissible record key := by
  obtain ⟨hrecords, hlog⟩ : w'.store.inner.records = w.store.inner.records ∧ w'.log = w.log :=
    ⟨h.store.records, h.log⟩
  have hinflight : w'.store.inner.inFlightCount = w.store.inner.inFlightCount := by
    rw [Inner.inFlightCount, Inner.inFlightCount, hrecords]
  constructor
  · rintro ⟨hsign, hidem, hwritable, hpending, hroom, hann⟩
    exact ⟨by rwa [h.nfc, h.integrity] at hsign, h.store.idem ▸ hidem, h.store.readOnly ▸ hwritable,
      by rwa [hinflight, h.store.pendingLimit] at hpending,
      by rwa [hrecords, h.store.maxRecords] at hroom, by rwa [hlog] at hann⟩
  · rintro ⟨hsign, hidem, hwritable, hpending, hroom, hann⟩
    exact ⟨by rwa [h.nfc, h.integrity], by rwa [h.store.idem], by rwa [h.store.readOnly],
      by rwa [hinflight, h.store.pendingLimit], by rwa [hrecords, h.store.maxRecords],
      by rwa [hlog]⟩

section Untouched

variable {w : World} {cfg : Config} {rounds : ℕ} {tenant : TenantId} {spec : TurnSpec}
  {key : Option IdempotencyKey} {uuid : Uuid} {c : ConversationId}

/-- What the claim on refused creates says of one create: it is accepted, or its conversation is
as it was. -/
def RefusedUntouched (cfg : Config) (rounds : ℕ) (tenant : TenantId) (spec : TurnSpec)
    (key : Option IdempotencyKey) (uuid : Uuid) (c : ConversationId) (w : World) : Prop :=
  ∀ out w', (ResponsesService.create cfg rounds tenant spec key uuid).run exec w = some (out, w') →
    (∀ x, out ≠ .ok (.accepted x)) → w.Untouched w' c

/-- A create on a conversation always has the context resolved, in one read. -/
theorem resolved_conversation (w : World) (cfg : Config) (rounds : ℕ) (tenant : TenantId)
    (c : ConversationId) : ∃ r,
    (ResponsesService.resolveContext cfg rounds tenant (.conversation c)).run exec w = some (r, w) ∧
      ((∃ resolved, r = .ok resolved) ↔ w.Fits cfg tenant (.conversation c)) := by
  have hrun : ∀ rounds, (ResponsesService.resolveContext cfg rounds tenant (.conversation c)).run
      exec w = (ResponsesService.resolveContext cfg 0 tenant (.conversation c)).run exec w :=
    fun _ ↦ rfl
  obtain ⟨r, hr⟩ : ∃ r,
      (ResponsesService.resolveContext cfg 0 tenant (.conversation c)).run exec w =
      some (r, w) := by
    simp only [ResponsesService.resolveContext, ResponsesService.resolveAnchor,
      ResponsesService.readSnapshot, Conversations.readSnapshot, perform_bind, call_bind, run_call]
    simp only [exec, execConversations]
    cases readSnapshot w.store tenant c with
    | error e => exact ⟨_, rfl⟩
    | ok resolved => exact ⟨_, rfl⟩
  refine ⟨r, (hrun rounds).trans hr, ?_⟩
  constructor
  · rintro ⟨resolved, rfl⟩
    exact ⟨0, resolved, hr⟩
  · rintro ⟨n, resolved, hn⟩
    exact ⟨resolved, (Prod.mk.inj (Option.some.inj (hr.symm.trans ((hrun n).symm.trans hn)))).1⟩

/-- A create by itself leaves its conversation as it was, unless accepted, exactly where it is
refused before the lock is touched or nothing after the lock can refuse it. -/
theorem refusedUntouched_iff (hk : w.store.Keyed) (hanchor : spec.anchor = .conversation c)
    (hfresh : w.store.marker c ≠ some ⟨cfg.nodeTag, uuid⟩) :
    RefusedUntouched cfg rounds tenant spec key uuid c w ↔
      ¬ w.Fits cfg tenant (.conversation c) ∨ w.store.Barred tenant c ⟨cfg.nodeTag, uuid⟩ ∨
        w.store.Lockable tenant c ⟨cfg.nodeTag, uuid⟩ ∧
          w.Admissible (ResponsesService.proposed cfg tenant spec key ⟨cfg.nodeTag, uuid⟩ w.clock)
            (key.getD (.forResponse ⟨cfg.nodeTag, uuid⟩)) := by
  set id : ResponseId := ⟨cfg.nodeTag, uuid⟩ with hid
  have hreads : ∀ c w, c.Reads → exec c w = exec c w := fun _ _ _ ↦ rfl
  have hconv : spec.anchor.conversationId = some c := by rw [hanchor]; rfl
  obtain ⟨r, hresolve, hfits⟩ := resolved_conversation w cfg rounds tenant c
  rw [← hanchor] at hresolve
  rcases r with e | resolved
  · -- The context is refused, and nothing has happened.
    refine iff_of_true (fun out w' hrun _ ↦ ?_) (Or.inl fun hfit ↦ ?_)
    · rw [run_create_misfit hreads hresolve] at hrun
      obtain ⟨-, rfl⟩ := Prod.mk.inj (Option.some.inj hrun)
      exact .refl w c
    · obtain ⟨resolved, h⟩ := hfits.mpr hfit
      cases h
  have hfit : w.Fits cfg tenant (.conversation c) := hfits.mp ⟨resolved, rfl⟩
  obtain ⟨r, w₁, hlock, htake, hend⟩ := run_acquireTurn hk tenant c id
  have hlock' : (ResponsesService.acquireFor tenant spec.anchor.conversationId id).run exec w =
      some (r, w₁) := by rw [hconv]; exact hlock
  rcases hend with ⟨hbarred, hr, rfl⟩ | ⟨hstranded, hr, hmoved⟩ | ⟨hlockable, rfl⟩
  · obtain ⟨e, rfl⟩ : ∃ e, r = .error e := by
      rcases r with e | ⟨⟩
      · exact ⟨e, rfl⟩
      · exact absurd rfl hr
    refine iff_of_true (fun out w' hrun _ ↦ ?_) (Or.inr (Or.inl hbarred))
    rw [run_create_unlocked hreads hresolve hlock'] at hrun
    obtain ⟨-, rfl⟩ := Prod.mk.inj (Option.some.inj hrun)
    exact .refl w₁ c
  · -- The holder's marker is gone and ours could not be announced.
    obtain ⟨e, rfl⟩ : ∃ e, r = .error e := by
      rcases r with e | ⟨⟩
      · exact ⟨e, rfl⟩
      · exact absurd rfl hr
    refine iff_of_false (fun hall ↦ ?_) ?_
    · exact hmoved (hall _ w₁ (run_create_unlocked hreads hresolve hlock') (by simp)).marker
    · rintro (h | h | ⟨h, -⟩)
      · exact h hfit
      · exact not_barred_of_stranded hstranded h
      · exact not_lockable_of_stranded hstranded h
  · cases htake with
    | taken hconverses hmarker hstream =>
    have hgrown : (w₁.store.stream c).nextSeq = (w.store.stream c).nextSeq + 1 :=
      hstream.resolve_left hfresh
    obtain ⟨out, w₂, hadmit, haccepted, hle⟩ := run_admitOrRelease w₁ tenant
      spec.anchor.conversationId
      (ResponsesService.proposed cfg tenant spec key id w.clock) (key.getD (.forResponse id))
      w.clock
    have hrun := (run_create_locked hreads hresolve hlock').trans hadmit
    rw [admissible_converses hconverses] at haccepted
    constructor
    · intro hall
      refine Or.inr (Or.inr ⟨hlockable, haccepted.mp ?_⟩)
      by_contra hnot
      push Not at hnot
      have hsame := congrArg ConversationEventStream.nextSeq (hall out w₂ hrun hnot).stream
      have := hle c hconv
      omega
    · rintro (h | h | ⟨-, hadm⟩)
      · exact absurd hfit h
      · exact absurd hlockable (not_lockable_of_barred h)
      · obtain ⟨x, rfl⟩ := haccepted.mpr hadm
        intro out w' hrun' hnot
        obtain ⟨rfl, -⟩ := Prod.mk.inj (Option.some.inj (hrun.symm.trans hrun'))
        exact absurd rfl (hnot x)

end Untouched

/-- Whether a create was accepted. -/
def accepted : Except ServiceError CreateOutcome → Bool
  | .ok (.accepted _) => true
  | _ => false

/-- A repeat of another turn's key takes the lock, announces itself, and is turned down. -/
theorem announced_duplicate : ¬ ∀ (w₀ : World) (history : List Call) (cfg : Config) (rounds : ℕ)
    (tenant : TenantId) (spec : TurnSpec) (key : Option IdempotencyKey) (uuid : Uuid)
    (c : ConversationId), w₀.store.Keyed → spec.anchor = .conversation c →
    (w₀.after history).store.marker c ≠ some ⟨cfg.nodeTag, uuid⟩ →
    RefusedUntouched cfg rounds tenant spec key uuid c (w₀.after history) := by
  intro hclaim
  have h := hclaim Sample.world (Sample.createCalls Sample.tenant Sample.rootSpec 1) Sample.cfg 4
    Sample.tenant Sample.spec (some Sample.key) ⟨2⟩ Sample.talk Sample.world_keyed rfl (by decide)
  have hrun : ((ResponsesService.create Sample.cfg 4 Sample.tenant Sample.spec (some Sample.key)
      ⟨2⟩).run exec (Sample.world.after (Sample.createCalls Sample.tenant Sample.rootSpec 1))).map
      (fun out ↦ (accepted out.1, (out.2.store.stream Sample.talk).nextSeq)) = some (false, 2) := by
    decide +kernel
  obtain ⟨⟨out, w'⟩, hout, hpair⟩ := Option.map_eq_some_iff.mp hrun
  obtain ⟨hrefused, hseq⟩ := Prod.mk.inj hpair
  have hsame := (h out w' hout (by rintro x rfl; cases hrefused)).stream
  have hbefore :
      ((Sample.world.after (Sample.createCalls Sample.tenant Sample.rootSpec 1)).store.stream
      Sample.talk).nextSeq = 0 := by decide +kernel
  rw [← hsame, hseq] at hbefore
  cases hbefore

/-- A create on a conversation whose turn is still running leaves it alone. -/
theorem refusedUntouched_busy : RefusedUntouched Sample.cfg 4 Sample.tenant Sample.spec none ⟨2⟩
    Sample.talk (Sample.world.after (Sample.createCalls Sample.tenant Sample.spec 1)) := by
  refine (refusedUntouched_iff (keyed_after Sample.world_keyed _) rfl (by decide)).mpr
    (Or.inr (Or.inl (Or.inr (Or.inr ⟨_, rfl, Or.inr ⟨Sample.id 1, rfl, by decide, ?_⟩⟩))))
  intro hgone
  have hterm := hgone (Sample.record Sample.tenant Sample.spec 1) rfl
  cases hterm

end NovaChat
