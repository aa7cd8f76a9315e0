import NovaChat.Agentd.Scripted

/-!
# When a run gives itself up

A run that ends as superseded leaves its response to whoever took it over.  So it had better be
sure: the sink has told it to stop, or the probe that its attempt is over.
-/

namespace NovaChat

open Interact Prog

/-- What tells a runner that its attempt is over. -/
def SinkCall.Ends : (c : SinkCall) → c.Reply → Prop
  | .cancelled, reply => reply = true
  | .textDelta _, reply | .reasoningTextDelta _, reply | .outputItemAdded _, reply
  | .outputItemDone _, reply | .functionCallArgumentsDelta _ _, reply
  | .functionCallArgumentsDone _ _, reply | .contentPartAdded _ _, reply
  | .outputTextDone _, reply | .contentPartDone _ _ _, reply => reply = .ok .stop

/-- A runner whose outcomes are final, and which takes its attempt for superseded only where it was
told so. -/
structure AgentRunner.Steadfast (runner : AgentRunner) : Prop where
  told : ∀ {task xs}, Path (runner task) xs (.error .superseded) → ∃ x ∈ xs, x.call.Ends x.reply
  final : ∀ {task xs outcome}, Path (runner task) xs (.ok outcome) →
    outcome.status.isTerminal = true

/-- Results in `G` come of being told to stop. -/
abbrev SinkProg.Told {α : Type} (G : α → Prop) (p : SinkProg α) : Prop :=
  Prompted (fun x : Exchange SinkCall SinkCall.Reply ↦ x.call.Ends x.reply) G p

/-- A scheduler that is superseded. -/
abbrev Supersedes {α : Type} : Except SchedulerError α → Prop := Fails (· = .superseded)

/-! ## Sending -/

section Sending

variable {c : SinkCall} {text : String}

theorem supersedes_verdict {reply : Except SinkError SinkVerdict}
    (h : Supersedes (HttpChatCompletionsScheduler.verdict reply)) : reply = .ok .stop := by
  rcases reply with e | (_ | _)
  · cases h
  · exact h.elim
  · rfl

theorem told_sendText (piece : Option String) :
    SinkProg.Told Supersedes (HttpChatCompletionsScheduler.sendText piece) := by
  cases piece with
  | none => exact id
  | some piece =>
      intro reply
      by_cases h : reply = .ok .stop
      · exact Or.inl h
      · exact Or.inr fun hfails ↦ h (supersedes_verdict hfails)

theorem told_sendReasoning (piece : Option String) :
    SinkProg.Told Supersedes (HttpChatCompletionsScheduler.sendReasoning piece) := by
  cases piece with
  | none => exact id
  | some piece =>
      intro reply
      by_cases h : reply = .ok .stop
      · exact Or.inl h
      · exact Or.inr fun hfails ↦ h (supersedes_verdict hfails)

theorem told_toolCall (call : ToolCall) :
    SinkProg.Told Supersedes (HttpChatCompletionsScheduler.toolCall call) := by
  intro added
  rcases added with e | (_ | _)
  · exact Or.inr nofun
  · refine Or.inr fun done ↦ ?_
    by_cases h : done = .ok .stop
    · exact Or.inl h
    · exact Or.inr fun hfails ↦ h (supersedes_verdict hfails)
  · exact Or.inl rfl

/-- A verdict that is not looked at supersedes nothing. -/
theorem told_deliver (p : SinkProg (Except SinkError SinkVerdict)) :
    SinkProg.Told Supersedes (deliver p) := by
  refine (prompted_never p).bind fun reply _ ↦ ?_
  cases reply <;> exact nofun

theorem told_sendPieces : ∀ pieces : List String, SinkProg.Told Supersedes (sendPieces pieces)
  | [] => id
  | piece :: pieces => (told_sendText (some piece)).andThen fun _ ↦ told_sendPieces pieces

theorem told_streamMessage (text : String) (chunks : ℕ) :
    SinkProg.Told Supersedes (streamMessage text chunks) := by
  apply Prompted.andThen (told_deliver _)
  intro _
  apply Prompted.andThen (told_deliver _)
  intro _
  apply Prompted.andThen (told_sendPieces _)
  intro _
  apply Prompted.andThen (told_deliver _)
  intro _
  apply Prompted.andThen (told_deliver _)
  intro _
  apply Prompted.andThen (told_deliver _)
  exact fun _ ↦ id

end Sending

/-! ## The schedulers -/

theorem EchoScheduler.told_schedule (scheduler : EchoScheduler) (request : CompletionsRequest) :
    SinkProg.Told Supersedes (scheduler.schedule request) :=
  (told_streamMessage _ _).andThen fun _ ↦ id

theorem ScriptedScheduler.told_schedule (scheduler : ScriptedScheduler)
    (request : CompletionsRequest) :
    SinkProg.Told Supersedes (scheduler.schedule request) := by
  unfold ScriptedScheduler.schedule
  split
  · exact nofun
  · next script _ =>
    cases script with
    | text | truncated => exact (told_streamMessage _ _).andThen fun _ ↦ id
    | toolCall => exact (told_toolCall _).andThen fun _ ↦ id
    | stall before =>
        show SinkProg.Told _ (ite _ _ _)
        split
        · exact nofun
        · refine (told_streamMessage _ _).andThen fun _ ↦ ?_
          exact nofun
    | hang => trivial
    | _ => exact nofun

namespace HttpChatCompletionsScheduler

theorem told_consume (event : Value) (s : Reading) :
    SinkProg.Told Supersedes (consume event s) := by
  refine (told_sendText _).bind fun sent hsent ↦ ?_
  rcases sent with e | ⟨⟩
  · exact hsent
  refine (told_sendReasoning _).bind fun sent hsent ↦ ?_
  rcases sent with e | ⟨⟩
  · exact hsent
  · exact id

variable (scheduler : HttpChatCompletionsScheduler)

theorem told_readLines (n : ℕ) : ∀ (buffer : List Char) (s : Reading),
    SinkProg.Told Supersedes (scheduler.readLines n buffer s) := by
  induction n with
  | zero => exact fun _ _ ↦ id
  | succ n ih =>
      intro buffer s
      unfold readLines
      split
      · dsimp only
        split
        · exact ih _ _
        · split
          · exact id
          · split
            · exact ih _ _
            · refine (told_consume _ s).bind fun r hr ↦ ?_
              rcases r with e | s
              · exact hr
              · exact ih _ s
      · exact id

theorem told_readChunks : ∀ (chunks : List (Except String (List UInt8)))
    (buffer : List Char) (s : Reading),
    SinkProg.Told Supersedes (scheduler.readChunks chunks buffer s)
  | [], _, _ => id
  | .error _ :: _, _, _ => nofun
  | .ok _ :: chunks, _, s => by
      refine (told_readLines scheduler _ _ s).bind fun r hr ↦ ?_
      rcases r with e | ⟨buffer, s⟩
      · exact hr
      · exact told_readChunks chunks buffer s

theorem told_announceCalls : ∀ calls : List ToolCall,
    SinkProg.Told Supersedes (announceCalls calls)
  | [] => id
  | c :: calls => by
      refine (told_toolCall c).bind fun r hr ↦ ?_
      rcases r with e | ⟨⟩
      · exact hr
      · exact told_announceCalls calls

theorem told_outcomeOf (request : CompletionsRequest) (s : Reading) :
    SinkProg.Told Supersedes (outcomeOf request s) := by
  unfold outcomeOf
  split
  · exact id
  · split
    · split
      · exact nofun
      · exact id
    · refine (told_announceCalls _).bind fun r hr ↦ ?_
      rcases r with e | ⟨⟩
      · exact hr
      · exact id

/-- A provider can make the scheduler fail, but not supersede it. -/
theorem told_schedule (round : ℕ) (request : CompletionsRequest) :
    SinkProg.Told Supersedes (scheduler.schedule round request) := by
  unfold schedule
  split
  · exact nofun
  · exact nofun
  · exact nofun
  · next body _ =>
    show ¬ Supersedes (parseJson body request)
    unfold parseJson
    split
    · exact nofun
    · dsimp only
      split
      · exact nofun
      · exact id
  · refine (told_readChunks scheduler _ _ _).bind fun r hr ↦ ?_
    rcases r with e | s
    · exact hr
    show SinkProg.Told _ (ite _ _ _)
    split
    · exact told_outcomeOf _ _
    · trivial

end HttpChatCompletionsScheduler

/-! ## The runner -/

namespace MockAgentRunner

/-- The scheduler is one of the three there are. -/
inductive Stocked (m : MockAgentRunner) (n : ℕ) : Prop
  | echo (scheduler : EchoScheduler) (h : m.schedule n = scheduler.schedule)
  | scripted (scheduler : ScriptedScheduler) (h : m.schedule n = scheduler.schedule)
  | http (scheduler : HttpChatCompletionsScheduler) (h : m.schedule n = scheduler.schedule n)

variable {m : MockAgentRunner}

theorem Stocked.told_schedule {n : ℕ} (h : m.Stocked n) (request : CompletionsRequest) :
    SinkProg.Told Supersedes (m.schedule n request) := by
  cases h with
  | echo scheduler h => exact h ▸ scheduler.told_schedule request
  | scripted scheduler h => exact h ▸ scheduler.told_schedule request
  | http scheduler h => exact h ▸ scheduler.told_schedule n request

/-- A run that is superseded. -/
abbrev GivesUp {α : Type} : Except AgentError α → Prop := Fails (· = .superseded)

theorem told_probe (n : ℕ) : SinkProg.Told (· = true) (probe n) := by
  induction n with
  | zero => exact nofun
  | succ n ih =>
      intro cancelled
      cases cancelled
      · exact Or.inr ih
      · exact Or.inl rfl

/-- A race is lost to the probe, or comes to what its program comes to. -/
theorem told_race {α : Type} {G : α → Prop} {polls : ℕ → ℕ} {p : SinkProg α}
    (hp : SinkProg.Told G p) (step : ℕ) :
    SinkProg.Told (fun r ↦ ∀ a, r = some a → G a) (race polls step p) := by
  induction p generalizing step with
  | ret a =>
      refine (told_probe _).bind fun cancelled hgo ↦ ?_
      obtain rfl := Bool.eq_false_iff.mpr hgo
      exact fun hall ↦ hp (hall a rfl)
  | call c k ih =>
      refine (told_probe _).bind fun cancelled hgo ↦ ?_
      obtain rfl := Bool.eq_false_iff.mpr hgo
      exact fun r ↦ (hp r).imp_right fun hr ↦ ih r hr (step + 1)
  | stall =>
      refine (told_probe _).bind fun cancelled hgo ↦ ?_
      obtain rfl := Bool.eq_false_iff.mpr hgo
      trivial

theorem told_announce (item : ResponseItem) (usage : Usage) :
    SinkProg.Told GivesUp (announce item usage) := by
  intro added
  rcases added with e | (_ | _)
  · exact Or.inr nofun
  · refine Or.inr fun done ↦ ?_
    rcases done with e | (_ | _)
    · exact Or.inr nofun
    · exact Or.inr id
    · exact Or.inl rfl
  · exact Or.inl rfl

theorem told_callTools (round : ℕ) (usage : Usage) :
    ∀ (calls : List ((String × String × String) × ℕ)) (conversation : List ResponseItem),
      SinkProg.Told GivesUp (m.callTools round usage calls conversation)
  | [], _ => id
  | ((callId, name, arguments), position) :: calls, conversation => by
      rw [callTools]
      refine (told_probe _).bind fun cancelled hgo ↦ ?_
      obtain rfl := Bool.eq_false_iff.mpr hgo
      simp only [Bool.false_eq_true, if_false]
      split
      · intro hfails
        cases hfails
      · refine (told_announce _ _).bind fun r hr ↦ ?_
        rcases r with e | ⟨⟩
        · exact hr
        · exact told_callTools round usage calls _

theorem told_round (hm : ∀ n, m.Stocked n) (task : AgentTask) (s : Loop) :
    SinkProg.Told (Sum.elim (fun _ ↦ False) GivesUp) (m.round task s) := by
  unfold round
  split
  · exact nofun
  refine (told_race ((hm _).told_schedule _) 0).bind fun answer hanswer ↦ ?_
  rcases answer with _ | (e | outcome)
  · exact absurd nofun hanswer
  · cases e with
    | superseded => exact absurd (fun a ha ↦ Option.some.inj ha ▸ rfl) hanswer
    | _ => exact nofun
  · dsimp only
    split
    · exact nofun
    unfold settle
    split
    · exact id
    · exact id
    · exact id
    · split
      · exact id
      · split
        · exact nofun
        · refine (told_callTools _ _ _ _).bind fun r hr ↦ ?_
          rcases r with e | conversation
          · exact hr
          · exact id

/-- With the schedulers there are, a run of any tools gives itself up as superseded only where it
was told to stop, and every outcome of it is final. -/
theorem steadfast (hm : ∀ n, m.Stocked n) : AgentRunner.Steadfast m.run where
  told {task xs} hpath :=
    (Prompted.iterate (fun s ↦ told_round hm task s) _ _).path (G := GivesUp) hpath rfl
  final hpath := by
    rcases outcome_status hpath with h | h <;> rw [h] <;> rfl

end MockAgentRunner

end NovaChat
