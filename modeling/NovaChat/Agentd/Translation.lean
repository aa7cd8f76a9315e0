import NovaChat.Agentd.Completions
import Mathlib.Data.List.SplitBy

/-!
# What the messages say

A context says one thing after the other: messages, calls, and outputs of calls.  Read back, the
provider messages say the same in the same order, with one message for each run of calls.
-/

namespace NovaChat

/-! ## Reading back -/

/-- One thing that is said in a context. -/
inductive Utterance
  | message (role : Role) (text : String)
  | call (callId name arguments : String)
  | output (callId output : String)
  deriving DecidableEq, Repr

/-- The text of a part, if it has one. -/
def ContentPart.textual : ContentPart → Option String
  | inputText text | outputText text => some text
  | refusal _ | inputImage .. | inputFile .. => none

/-- The role under which a provider reads a message. -/
def Role.provided : Role → Role
  | developer => system
  | user => user
  | assistant => assistant
  | system => system

def ResponseItem.utterance : ResponseItem → Utterance
  | message role content _ _ =>
    .message role.provided (String.join (content.filterMap ContentPart.textual))
  | functionCall callId name arguments _ _ => .call callId name arguments
  | functionCallOutput callId output _ _ => .output callId output

def CompletionsContent.textual : CompletionsContent → Option String
  | text content => some content
  | imageUrl _ | fileRef _ => none

def AssistantToolCall.utterance (call : AssistantToolCall) : Utterance :=
  .call call.id call.name call.arguments

/-- What a provider message says, its text before its calls. -/
def CompletionsMessage.utterances : CompletionsMessage → List Utterance
  | system content => [.message .system content]
  | user content => [.message .user (String.join (content.filterMap CompletionsContent.textual))]
  | assistant content _ toolCalls =>
    (content.map (Utterance.message .assistant)).toList ++
      toolCalls.map AssistantToolCall.utterance
  | tool toolCallId content => [.output toolCallId content]

theorem flattenText_eq (parts : List ContentPart) :
    flattenText parts = String.join (parts.filterMap ContentPart.textual) := by
  have hfold : ∀ (f : String → ContentPart → String),
      (∀ s part, f s part = s ++ part.textual.getD "") → ∀ s : String,
        parts.foldl f s = s ++ String.join (parts.filterMap ContentPart.textual) := by
    intro f hf
    induction parts with
    | nil => exact fun s ↦ by simp
    | cons part parts ih =>
        intro s
        rw [List.foldl_cons, ih, hf, List.filterMap_cons, String.append_assoc]
        cases part <;> simp [ContentPart.textual]
  refine (hfold _ (fun s part ↦ ?_) "").trans String.empty_append
  cases part <;> simp [ContentPart.textual]

theorem textual_contentPart (parts : List ContentPart) :
    (parts.filterMap contentPart).filterMap CompletionsContent.textual =
      parts.filterMap ContentPart.textual := by
  rw [List.filterMap_filterMap]
  refine List.filterMap_congr fun part _ ↦ ?_
  rcases part with _ | _ | _ | ⟨_ | _, _ | _, _⟩ | ⟨_ | _, _ | _, _⟩ <;> rfl

theorem utterances_translateMessage (role : Role) (content : List ContentPart)
    (id : Option String) (status : Option ItemStatus) :
    (translateMessage content role).utterances =
      [(ResponseItem.message role content id status).utterance] := by
  cases role with
  | user =>
      simp only [translateMessage, CompletionsMessage.utterances, textual_contentPart,
        ResponseItem.utterance, Role.provided]
  | _ =>
      simp [translateMessage, CompletionsMessage.utterances, flattenText_eq,
        ResponseItem.utterance, Role.provided]

/-! ## Runs of calls -/

def ResponseItem.isCall : ResponseItem → Bool
  | functionCall .. => true
  | message .. | functionCallOutput .. => false

/-- A context in runs: calls that follow each other are one run, everything else is by itself. -/
def callRuns (items : List ResponseItem) : List (List ResponseItem) :=
  items.splitBy fun item next ↦ item.isCall && next.isCall

section Runs

variable {α : Type} {r : α → α → Bool} {l group : List α} {groups : List (List α)} {a : α}

/-- The last group takes up what is related to its end. -/
theorem splitBy_concat (h : l.splitBy r = groups ++ [group])
    (ha : ∀ x ∈ group.getLast?, r x a = true) :
    (l ++ [a]).splitBy r = groups ++ [group ++ [a]] := by
  obtain ⟨hflat, hne, hchains, hborders⟩ := List.splitBy_eq_iff.mp h
  rw [List.splitBy_eq_iff]
  refine ⟨?_, ?_, ?_, ?_⟩
  · rw [hflat]
    simp
  · simpa using fun hmem ↦ hne (List.mem_append_left _ hmem)
  · intro group' hgroup'
    rcases List.mem_append.mp hgroup' with hgroup' | hgroup'
    · exact hchains _ (List.mem_append_left _ hgroup')
    · obtain rfl := List.mem_singleton.mp hgroup'
      refine List.isChain_append.mpr ⟨hchains _ (List.mem_append_right _ List.mem_cons_self),
        List.isChain_singleton _, fun x hx y hy ↦ ?_⟩
      obtain rfl := Option.some.inj hy
      exact ha x hx
  · rw [List.isChain_append] at hborders ⊢
    refine ⟨hborders.1, List.isChain_singleton _, fun x hx y hy ↦ ?_⟩
    obtain ⟨hx', hgroup, hborder⟩ := hborders.2.2 x hx group rfl
    obtain rfl := Option.some.inj hy
    refine ⟨hx', by simp, ?_⟩
    rwa [List.head_append_of_ne_nil]

theorem splitBy_concat_of_not (ha : ∀ x ∈ l.getLast?, r x a = false) :
    (l ++ [a]).splitBy r = l.splitBy r ++ [[a]] :=
  List.splitBy_append_cons [] ha

theorem getLast?_of_splitBy (h : l.splitBy r = groups ++ [group]) :
    l.getLast? = group.getLast? := by
  obtain ⟨hflat, hne, -⟩ := List.splitBy_eq_iff.mp h
  have hgroup : group ≠ [] := fun hnil ↦ hne (hnil ▸ List.mem_append_right _ List.mem_cons_self)
  rw [hflat, List.flatten_append, List.flatten_singleton, List.getLast?_append_of_ne_nil _ hgroup]

end Runs

/-! ## One more item -/

/-- An assistant message that a call joins. -/
def CompletionsMessage.callsOnly : CompletionsMessage → Bool
  | assistant none _ _ => true
  | assistant (some _) _ _ | system _ | user _ | tool .. => false

section Push

variable {run items xs : List ResponseItem} {item : ResponseItem} {last : CompletionsMessage}
  {out : List CompletionsMessage} {call : AssistantToolCall} {t t' : Translation}

theorem isCall_of_utterance {u : Utterance} (h : item.utterance = u) :
    item.isCall = true ↔ ∃ callId name arguments, u = .call callId name arguments := by
  subst h
  cases item <;> simp [ResponseItem.isCall, ResponseItem.utterance]

theorem assistant_of_callsOnly (hlast : last.callsOnly = true) :
    ∃ refusal calls, last = .assistant none refusal calls := by
  cases last with
  | assistant content refusal calls =>
      cases content with
      | none => exact ⟨refusal, calls, rfl⟩
      | some text => cases hlast
  | _ => cases hlast

theorem isCall_of_callsOnly (hlast : last.callsOnly = true)
    (h : last.utterances = run.map ResponseItem.utterance) : ∀ item ∈ run, item.isCall = true := by
  intro item hitem
  obtain ⟨refusal, calls, rfl⟩ := assistant_of_callsOnly hlast
  have hmem : item.utterance ∈ calls.map AssistantToolCall.utterance := by
    have hall : item.utterance ∈ run.map ResponseItem.utterance := List.mem_map_of_mem hitem
    rwa [← h] at hall
  obtain ⟨call, -, hcall⟩ := List.mem_map.mp hmem
  exact (isCall_of_utterance hcall.symm).mpr ⟨call.id, call.name, call.arguments, rfl⟩

/-- Where something else than a call is said first, the run is that alone. -/
theorem not_isCall_of_not_callsOnly (hlast : last.callsOnly = false)
    (h : last.utterances = run.map ResponseItem.utterance)
    (hchain : run.IsChain fun item next ↦ (item.isCall && next.isCall) = true) :
    ∀ item ∈ run.getLast?, item.isCall = false := by
  obtain ⟨u, us, hu, hfirst⟩ : ∃ u us, last.utterances = u :: us ∧
      ¬ ∃ callId name arguments, u = .call callId name arguments := by
    rcases last with _ | _ | ⟨_ | _, refusal, calls⟩ | _ <;>
      first | exact ⟨_, _, rfl, nofun⟩ | cases hlast
  obtain ⟨item, rest, rfl, hitem, -⟩ := List.map_eq_cons_iff.mp (h.symm.trans hu)
  have hnot : item.isCall = false := by
    simpa using mt (isCall_of_utterance hitem).mp hfirst
  cases rest with
  | nil =>
      intro item' hitem'
      obtain rfl := Option.some.inj hitem'
      exact hnot
  | cons next rest =>
      have hboth := (List.isChain_cons_cons.mp hchain).1
      rw [hnot] at hboth
      cases hboth

theorem pushCall_concat_of_callsOnly (out : List CompletionsMessage) (call : AssistantToolCall)
    (hlast : last.callsOnly = true) : ∃ message, pushCall (out ++ [last]) call = out ++ [message] ∧
      message.utterances = last.utterances ++ [call.utterance] := by
  obtain ⟨refusal, calls, rfl⟩ := assistant_of_callsOnly hlast
  refine ⟨.assistant none refusal (calls ++ [call]), ?_, ?_⟩
  · simp [pushCall]
  · simp [CompletionsMessage.utterances]

theorem pushCall_of_not_callsOnly (hlast : ∀ last ∈ out.getLast?, last.callsOnly = false) :
    pushCall out call = out ++ [.assistant none none [call]] := by
  unfold pushCall
  cases hout : out.getLast? with
  | none => rfl
  | some last =>
      have hnot := hlast last hout
      cases last with
      | assistant content refusal calls =>
          cases content with
          | none => cases hnot
          | some text => simp
      | _ => rfl

/-- The runs of what has been translated are what the messages say, and its calls are known. -/
structure Translates (items : List ResponseItem) (t : Translation) : Prop where
  known : t.knownCalls = callsOf items
  out : t.out.map CompletionsMessage.utterances =
    (callRuns items).map (List.map ResponseItem.utterance)

theorem Translates.pushCall (h : Translates items t) (hcall : call.utterance = item.utterance) :
    (pushCall t.out call).map CompletionsMessage.utterances =
      (callRuns (items ++ [item])).map (List.map ResponseItem.utterance) := by
  have hitem : item.isCall = true :=
    (isCall_of_utterance hcall.symm).mpr ⟨call.id, call.name, call.arguments, rfl⟩
  have hout := h.out
  rcases List.eq_nil_or_concat t.out with hnil | ⟨out, last, hlast⟩
  · rw [hnil, List.map_nil, eq_comm, List.map_eq_nil_iff] at hout
    obtain rfl := List.splitBy_eq_nil.mp hout
    have hruns : callRuns ([] ++ [item]) = [[item]] := rfl
    rw [hnil, pushCall_of_not_callsOnly (by simp), List.nil_append, hruns]
    simp [CompletionsMessage.utterances, hcall]
  · rw [List.concat_eq_append] at hlast
    rw [hlast, List.map_append, List.map_singleton, eq_comm, List.map_eq_append_iff] at hout
    obtain ⟨runs, tail, hruns, hbefore, htail⟩ := hout
    obtain ⟨run, rfl, hrun⟩ := List.map_eq_singleton_iff.mp htail
    have hsplit := List.splitBy_eq_iff.mp hruns
    have hchain := hsplit.2.2.1 run (List.mem_append_right _ List.mem_cons_self)
    cases hcalls : last.callsOnly with
    | true =>
        obtain ⟨message, hpush, hsaid⟩ :=
          pushCall_concat_of_callsOnly out call hcalls
        have hrelated : ∀ x ∈ run.getLast?, (x.isCall && item.isCall) = true := by
          intro x hx
          rw [isCall_of_callsOnly hcalls hrun.symm x (List.mem_of_getLast? hx), hitem]
          rfl
        rw [hlast, hpush, callRuns, splitBy_concat hruns hrelated]
        simp [hsaid, hbefore, hrun, hcall]
    | false =>
        have hunrelated : ∀ x ∈ items.getLast?, (x.isCall && item.isCall) = false := by
          intro x hx
          rw [getLast?_of_splitBy hruns] at hx
          rw [not_isCall_of_not_callsOnly hcalls hrun.symm hchain x hx]
          rfl
        have hruns' : callRuns (items ++ [item]) = callRuns items ++ [[item]] :=
          splitBy_concat_of_not hunrelated
        rw [pushCall_of_not_callsOnly (by simpa [hlast] using hcalls), hruns', List.map_append,
          List.map_append, h.out]
        simp [CompletionsMessage.utterances, hcall]

theorem Translates.push (h : Translates items t) {message : CompletionsMessage}
    (hitem : item.isCall = false) (hmessage : message.utterances = [item.utterance]) :
    (t.out ++ [message]).map CompletionsMessage.utterances =
      (callRuns (items ++ [item])).map (List.map ResponseItem.utterance) := by
  have hruns : callRuns (items ++ [item]) = callRuns items ++ [[item]] :=
    splitBy_concat_of_not fun x _ ↦ by rw [hitem, Bool.and_false]
  rw [hruns, List.map_append, List.map_append, h.out]
  simp [hmessage]

theorem Translates.step (h : Translates items t) (hstep : translateItem t item = .ok t') :
    Translates (items ++ [item]) t' := by
  have hknown : t'.knownCalls = callsOf (items ++ [item]) := by
    rw [translateItem_knownCalls hstep, h.known, callsOf_append]
    simp [callsOf]
  refine ⟨hknown, ?_⟩
  cases item with
  | message role content id status =>
      obtain rfl := Except.ok.inj hstep
      exact h.push rfl (utterances_translateMessage role content id status)
  | functionCall callId name arguments id status =>
      obtain rfl := Except.ok.inj hstep
      exact h.pushCall rfl
  | functionCallOutput callId output id status =>
      rw [translateItem] at hstep
      split_ifs at hstep
      obtain rfl := Except.ok.inj hstep
      exact h.push rfl rfl

theorem Translates.foldlM (h : Translates xs t) (hrun : items.foldlM translateItem t = .ok t') :
    Translates (xs ++ items) t' := by
  induction items generalizing xs t with
  | nil =>
      obtain rfl := Except.ok.inj hrun
      rwa [List.append_nil]
  | cons item items ih =>
      rw [List.foldlM_cons] at hrun
      cases hstep : translateItem t item with
      | error e =>
          rw [hstep] at hrun
          cases hrun
      | ok t₁ =>
          rw [hstep] at hrun
          have hrest := ih (h.step hstep) hrun
          rwa [List.append_assoc] at hrest

end Push

/-! ## The whole context -/

section Whole

variable {items : List ResponseItem} {messages : List CompletionsMessage}

theorem utterances_itemsToMessages (h : itemsToMessages items = .ok messages) :
    messages.map CompletionsMessage.utterances =
      (callRuns items).map (List.map ResponseItem.utterance) := by
  rw [itemsToMessages] at h
  cases hrun : items.foldlM translateItem {} with
  | error e =>
      rw [hrun] at h
      cases h
  | ok t =>
      rw [hrun] at h
      obtain rfl := Except.ok.inj h
      have hstart : Translates [] {} := ⟨rfl, rfl⟩
      exact (hstart.foldlM hrun).out

theorem flatMap_utterances (h : itemsToMessages items = .ok messages) :
    messages.flatMap CompletionsMessage.utterances = items.map ResponseItem.utterance := by
  rw [List.flatMap, utterances_itemsToMessages h, ← List.map_flatten, callRuns,
    List.flatten_splitBy]

/-- Every tool message comes behind an assistant message with the call that it answers. -/
def CallsFirst (messages : List CompletionsMessage) : Prop :=
  ∀ before callId output after, messages = before ++ .tool callId output :: after →
    ∃ content refusal toolCalls, .assistant content refusal toolCalls ∈ before ∧
      ∃ call ∈ toolCalls, call.id = callId

/-- Some output has no call with its id before it. -/
def Orphaned (items : List ResponseItem) : Prop :=
  ∃ before callId output id status after,
    items = before ++ .functionCallOutput callId output id status :: after ∧
      ∀ name arguments id status, .functionCall callId name arguments id status ∉ before

theorem mem_callsOf {callId : String} : callId ∈ callsOf items ↔
    ∃ name arguments id status, .functionCall callId name arguments id status ∈ items := by
  constructor
  · intro h
    obtain ⟨item, hitem, hcall⟩ := List.mem_flatMap.mp h
    cases item with
    | functionCall callId' name arguments id status =>
        obtain rfl := List.mem_singleton.mp hcall
        exact ⟨name, arguments, id, status, hitem⟩
    | _ => cases hcall
  · rintro ⟨name, arguments, id, status, hitem⟩
    exact List.mem_flatMap.mpr ⟨_, hitem, List.mem_cons_self⟩

theorem orphaned_iff : Orphaned items ↔ ¬ Paired [] items := by
  constructor
  · rintro ⟨before, callId, output, id, status, after, heq, hnone⟩ hpaired
    obtain ⟨name, arguments, id', status', hmem⟩ :=
      mem_callsOf.mp (hpaired before _ after heq callId rfl)
    exact hnone name arguments id' status' hmem
  · intro h
    unfold Paired at h
    push Not at h
    obtain ⟨before, item, after, heq, callId, hanswered, hnone⟩ := h
    cases item with
    | functionCallOutput callId' output id status =>
        obtain rfl := Option.some.inj hanswered
        refine ⟨before, callId', output, id, status, after, heq, ?_⟩
        exact fun name arguments id status hmem ↦
          hnone (mem_callsOf.mpr ⟨name, arguments, id, status, hmem⟩)
    | _ => cases hanswered

theorem callsFirst_itemsToMessages (h : itemsToMessages items = .ok messages) :
    CallsFirst messages := by
  rintro before callId output after rfl
  have hpaired : Paired [] items := itemsToMessages_isOk.mp (by rw [h]; rfl)
  have hsaid := flatMap_utterances h
  rw [List.flatMap_append, List.flatMap_cons, eq_comm, List.map_eq_append_iff] at hsaid
  obtain ⟨earlier, rest, rfl, hearlier, hrest⟩ := hsaid
  obtain ⟨item, later, rfl, hitem, -⟩ := List.map_eq_cons_iff.mp hrest
  cases item with
  | message => cases hitem
  | functionCall => cases hitem
  | functionCallOutput callId' output' id status =>
      injection hitem with hid
      obtain ⟨name, arguments, id', status', hmem⟩ :=
        mem_callsOf.mp (hpaired earlier _ later rfl callId' rfl)
      have hcall : .call callId' name arguments ∈ before.flatMap CompletionsMessage.utterances := by
        rw [← hearlier]
        exact List.mem_map_of_mem hmem
      obtain ⟨message, hmessage, hsaid⟩ := List.mem_flatMap.mp hcall
      cases message with
      | assistant content refusal toolCalls =>
          refine ⟨content, refusal, toolCalls, hmessage, ?_⟩
          rcases List.mem_append.mp hsaid with htext | hcalls
          · cases content <;> simp at htext
          · obtain ⟨call, hcall, hsame⟩ := List.mem_map.mp hcalls
            injection hsame with hcallId
            exact ⟨call, hcall, hcallId.trans hid⟩
      | _ => simp [CompletionsMessage.utterances] at hsaid

theorem itemsToMessages_fails_iff :
    (∃ e, itemsToMessages items = .error e) ↔ Orphaned items := by
  rw [orphaned_iff, ← itemsToMessages_isOk]
  cases itemsToMessages items with
  | error e => exact iff_of_true ⟨e, rfl⟩ nofun
  | ok messages => exact iff_of_false nofun fun h ↦ h rfl

/-- The messages say what the items say, in their order, with one message for each run of calls,
and no output comes before its call. -/
structure Preserved (items : List ResponseItem) (messages : List CompletionsMessage) : Prop where
  order : messages.flatMap CompletionsMessage.utterances = items.map ResponseItem.utterance
  runs : messages.map CompletionsMessage.utterances =
    (callRuns items).map (List.map ResponseItem.utterance)
  callsFirst : CallsFirst messages

/-- The translation preserves a context, and fails exactly where an output has no call before
it. -/
theorem translation_preserves (items : List ResponseItem) :
    (∀ messages, itemsToMessages items = .ok messages → Preserved items messages) ∧
      ((∃ e, itemsToMessages items = .error e) ↔ Orphaned items) :=
  ⟨fun _ h ↦ ⟨flatMap_utterances h, utterances_itemsToMessages h, callsFirst_itemsToMessages h⟩,
    itemsToMessages_fails_iff⟩

end Whole

/-- Two calls in a row, and their outputs. -/
theorem translation_preserves_twoCalls : Preserved
    [.message .developer [.inputText "be ", .inputText "brief"] none none,
      .functionCall "a" "f" "1" none none, .functionCall "b" "g" "2" none none,
      .functionCallOutput "b" "r" none none, .functionCallOutput "a" "s" none none]
    [.system "be brief",
      .assistant none none [{ id := "a", name := "f", arguments := "1" },
        { id := "b", name := "g", arguments := "2" }],
      .tool "b" "r", .tool "a" "s"] :=
  (translation_preserves _).1 _ (by decide)

end NovaChat
