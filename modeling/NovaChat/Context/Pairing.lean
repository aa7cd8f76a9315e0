import NovaChat.Context.Rereading
import NovaChat.Storage.Turns

/-!
# What a conversation can be answered from

A stored conversation is translated into provider messages before every turn, and the translation
refuses a tool output without its call.  What a turn produces has no such output.  But nothing
checks for one on the way in: validation looks at items one by one, and a turn that fails on its
input is archived as well.  From then on every turn of the conversation is refused, however plain.
-/

namespace NovaChat

open Interact MemConversationStore

/-- The items a conversation's snapshot holds. -/
def World.items (w : World) (c : ConversationId) : List ResponseItem :=
  (w.store.snapshot c).entries.map ContextEntry.item

/-- Every conversation can be translated together with every user message that comes next. -/
def World.Translates (w : World) : Prop :=
  ∀ c content id status,
    (itemsToMessages (w.items c ++ [.message .user content id status])).isOk = true

/-- The turn a call archives on `c` that was not archived before. -/
def Call.archives (w : World) (c : ConversationId) (call : Call) (reply : call.Reply) :
    Option (ResponseId × TurnCommit) :=
  (call.adds c reply).filter fun t ↦ ((w.store.snapshot c).appended.lookup t.1).isNone

section Step

variable {w : World} {c : ConversationId} {call : Call} {reply : call.Reply} {r : ResponseId}
  {commit : TurnCommit}

theorem archives_eq_some : call.archives w c reply = some (r, commit) ↔
    call.adds c reply = some (r, commit) ∧ (w.store.snapshot c).appended.lookup r = none := by
  rw [Call.archives, Option.filter_eq_some_iff, Option.isNone_iff_eq_none]

theorem items_addTurn {snap : Snapshot} (h : snap.appended.lookup r = none) :
    (addTurn snap r commit).entries.map ContextEntry.item =
      snap.entries.map ContextEntry.item ++ (commit.inputItems ++ commit.outputItems) := by
  simp only [addTurn, h, List.map_append, turnEntries_item]

/-- The items of a conversation change by a turn, or go with it. -/
theorem exec_items (call : Call) (w : World) (c : ConversationId) :
    (∃ r commit, call.archives w c (exec call w).1 = some (r, commit) ∧
      (exec call w).2.items c = w.items c ++ (commit.inputItems ++ commit.outputItems)) ∨
    call.archives w c (exec call w).1 = none ∧
      ((exec call w).2.items c = w.items c ∨ call.Erases ∧ (exec call w).2.items c = []) := by
  by_cases herases : call.Erases
  · refine Or.inr ⟨by rw [Call.archives, herases.adds]; rfl, ?_⟩
    unfold World.items
    rcases exec_snapshot_cases call w c with ⟨_, _, _, _, rfl⟩ | hsame | ⟨hgone, -⟩
    · exact herases.elim
    · exact Or.inl (by rw [hsame])
    · exact Or.inr ⟨herases, by rw [hgone]; rfl⟩
  · have hsnap := exec_snapshot herases w c
    unfold World.items
    rw [hsnap]
    cases hadds : call.adds c (exec call w).1 with
    | none => exact Or.inr ⟨by rw [Call.archives, hadds]; rfl, Or.inl rfl⟩
    | some t =>
        obtain ⟨r, commit⟩ := t
        cases hplace : (w.store.snapshot c).appended.lookup r with
        | none =>
            exact Or.inl ⟨r, commit, archives_eq_some.mpr ⟨hadds, hplace⟩, items_addTurn hplace⟩
        | some i =>
            refine Or.inr ⟨?_, Or.inl ?_⟩
            · simp [Call.archives, hadds, hplace]
            · simp [Snapshot.replay, addTurn, hplace]

end Step

/-! ## Every run -/

section Runs

variable {w : World} {tr : Trace} {q q' : State} {i : ℕ} {call : Call}

end Runs

/-- A conversation with an unpaired output stays as it is. -/
theorem unpaired_stays {w : World} {call : Call} {c : ConversationId} (hcall : ¬ call.Erases)
    (h : ¬ Paired [] (w.items c)) : ¬ Paired [] ((exec call w).2.items c) := by
  intro hafter
  rcases exec_items call w c with ⟨r, commit, -, hitems⟩ | ⟨-, hsame | ⟨herases, -⟩⟩
  · rw [hitems] at hafter
    exact h (paired_append.mp hafter).1
  · exact h (hsame ▸ hafter)
  · exact hcall herases

/-! ## Samples -/

namespace Sample

def calling : ScriptedScheduler := { default := some (.toolCall "calculate" "6 * 7") }

def answering : ScriptedScheduler := { default := some (.text "42") }

/-- A mock agent that calls one tool and then answers. -/
def mock : MockAgentRunner where
  schedule n := if n = 0 then calling.schedule else answering.schedule
  callTool _ _ _ _ := .ok "42"
  guard _ _ := .ok ()

def mocked : Action Job := .start (.execute { runner := mock.run } 4 agent)

def reply (callId : String) : CreateResponseRequest where
  model := "model"
  input := .items [.functionCallOutput callId "42" none none]
  conversation := some (.id talk.text)

def plain : CreateResponseRequest where
  model := "model"
  input := .text "what is 6 * 7?"
  conversation := some (.id talk.text)

/-- File the turn a request describes. -/
def posted (request : CreateResponseRequest) (n : BitVec 128) : Action Job :=
  .start (.create cfg 4 tenant
    (request.turnSpec request.input.toItems (.conversation talk)) none ⟨n⟩)

/-- A turn calls a tool and answers.  The next one answers the call again, and is cancelled behind a
call and its output. -/
def replied : List (Action Job) :=
  posted plain 1 :: steps 0 6 ++ mocked :: steps 1 21 ++ posted (reply "call_scripted_1") 2 ::
    steps 2 6 ++ mocked :: steps 3 8 ++ .start (.cancel cfg 4 tenant (id 2)) :: steps 4 10

def orphaned : List (Action Job) :=
  posted (reply "call-1") 1 :: steps 0 6 ++ mocked :: steps 1 6

end Sample

end NovaChat
