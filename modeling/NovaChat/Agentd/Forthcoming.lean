import NovaChat.Agentd.Steadfast
import NovaChat.Interact.Guard

/-!
# Calls come before their outputs

A runner streams what its scheduler streams, and the outputs of the tools it runs.  Where the
scheduler has streamed every call that it returns, an output is never finished in the stream before
the call it answers.  Nobody checks this; it is the way the schedulers are written.
-/

namespace NovaChat

open Interact Prog HttpChatCompletionsScheduler

/-! ## Streaming in order -/

/-- The items the sink has taken as finished. -/
def itemsTaken (us : List (Exchange SinkCall SinkCall.Reply)) : List ResponseItem :=
  us.filterMap fun
    | ⟨.outputItemDone item, .ok .continue⟩ => some item
    | _ => none

@[simp] theorem itemsTaken_append (us vs : List (Exchange SinkCall SinkCall.Reply)) :
    itemsTaken (us ++ vs) = itemsTaken us ++ itemsTaken vs := List.filterMap_append

/-- A tool output is finished when the call it answers has been taken. -/
def SinkCall.Timely (us : List (Exchange SinkCall SinkCall.Reply)) : SinkCall → Prop
  | outputItemDone item => ∀ callId ∈ item.answered, callId ∈ callsOf (itemsTaken us)
  | _ => True

section Timely

variable {us vs : List (Exchange SinkCall SinkCall.Reply)} {c : SinkCall}

theorem SinkCall.Timely.mono (hsub : callsOf (itemsTaken us) ⊆ callsOf (itemsTaken vs))
    (hc : c.Timely us) : c.Timely vs := by
  cases c with
  | outputItemDone item => exact fun callId hcall ↦ hsub (hc callId hcall)
  | _ => trivial

theorem SinkCall.Timely.behind (vs : List (Exchange SinkCall SinkCall.Reply))
    (hc : c.Timely us) : c.Timely (vs ++ us) := by
  refine hc.mono fun callId hcall ↦ ?_
  rw [itemsTaken_append, callsOf_append]
  exact List.mem_append_right _ hcall

end Timely

/-! ## Schedulers -/

/-- A completion streams calls before their outputs, and what it returns is paired and has its calls
in the stream. -/
structure Forthcoming (p : SinkProg (Except SchedulerError CompletionsOutcome)) : Prop where
  timely : p.Guarded SinkCall.Timely []
  paired : ∀ {us outcome}, Path p us (.ok outcome) → Paired [] outcome.items
  streamed : ∀ {us outcome}, Path p us (.ok outcome) →
    callsOf outcome.items ⊆ callsOf (itemsTaken us)

/-- No tool output is finished. -/
def SinkCall.Unanswering : SinkCall → Prop
  | outputItemDone item => item.answered = none
  | _ => True

theorem SinkCall.Unanswering.timely {c : SinkCall} (hc : c.Unanswering)
    (us : List (Exchange SinkCall SinkCall.Reply)) : c.Timely us := by
  cases c with
  | outputItemDone item =>
      intro callId hcall
      rw [show item.answered = none from hc] at hcall
      cases hcall
  | _ => trivial

section Schedulers

variable {us : List (Exchange SinkCall SinkCall.Reply)} {request : CompletionsRequest}
  {outcome : CompletionsOutcome}

end Schedulers

/-! ## The runner -/

section Runner

variable {us vs : List (Exchange SinkCall SinkCall.Reply)}

namespace MockAgentRunner

variable {m : MockAgentRunner}

/-- Every completion the runner is given is forthcoming. -/
def Forthcoming (m : MockAgentRunner) : Prop :=
  ∀ n request, NovaChat.Forthcoming (m.schedule n request)

end MockAgentRunner

end Runner

end NovaChat
