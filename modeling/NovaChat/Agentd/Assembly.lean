import NovaChat.Agentd.Events

/-!
# What a parse returns

Text, refusal and tool calls are collected side by side, and one of them becomes the outcome.  The
outcome is compared with what was streamed.
-/

namespace NovaChat

open Interact Prog

namespace HttpChatCompletionsScheduler

/-! ## Tool calls -/

def positionOf (fragment : Value) : ℕ := (fragment.index "index").asU64.getD 0

def idOf (fragment : Value) : Option String := (fragment.index "id").asText

def nameOf (fragment : Value) : Option String := ((fragment.index "function").index "name").asText

def argumentsOf (fragment : Value) : String :=
  ((fragment.index "function").index "arguments").asStr.getD ""

/-- The call that the fragments for a position make up: their last id and name, and all their
arguments. -/
def callAt (fragments : List Value) (position : ℕ) : ToolCall :=
  let own := fragments.filter fun fragment ↦ positionOf fragment = position
  { id := (own.filterMap idOf).getLast?.getD ""
    name := (own.filterMap nameOf).getLast?.getD ""
    arguments := String.join (own.map argumentsOf) }

/-- Merge a fragment into the call it is for. -/
def mergeInto (fragment : Value) (entry : ToolCall) : ToolCall where
  id := (idOf fragment).getD entry.id
  name := (nameOf fragment).getD entry.name
  arguments := entry.arguments ++ argumentsOf fragment

/-- Blank calls stand for the positions before a new one. -/
def padded (calls : List ToolCall) (position : ℕ) : List ToolCall :=
  calls ++ List.replicate (position + 1 - calls.length) ({} : ToolCall)

theorem mergeToolCall_eq (calls : List ToolCall) (fragment : Value) :
    mergeToolCall calls fragment =
      (padded calls (positionOf fragment)).modify (positionOf fragment) (mergeInto fragment) := rfl

theorem length_padded (calls : List ToolCall) (position : ℕ) :
    (padded calls position).length = max calls.length (position + 1) := by
  rw [padded, List.length_append, List.length_replicate]
  omega

theorem getD_padded (calls : List ToolCall) (position i : ℕ) :
    (padded calls position)[i]?.getD {} = calls[i]?.getD {} := by
  rcases lt_or_ge i calls.length with hi | hi
  · rw [padded, List.getElem?_append_left hi]
  · rw [padded, List.getElem?_append_right hi, List.getElem?_replicate, List.getElem?_eq_none hi]
    split_ifs <;> rfl

theorem getD_mergeToolCall (calls : List ToolCall) (fragment : Value) (i : ℕ) :
    (mergeToolCall calls fragment)[i]?.getD {} =
      if positionOf fragment = i then mergeInto fragment (calls[i]?.getD {})
      else calls[i]?.getD {} := by
  have hpad := getD_padded calls (positionOf fragment) i
  rw [mergeToolCall_eq, List.getElem?_modify]
  split_ifs with hposition
  · have hlt : i < (padded calls (positionOf fragment)).length := by
      rw [length_padded, hposition]
      omega
    rw [List.getElem?_eq_getElem hlt] at hpad ⊢
    exact congrArg (mergeInto fragment) hpad
  · simpa using hpad

theorem callAt_snoc (fragments : List Value) (fragment : Value) (i : ℕ) :
    callAt (fragments ++ [fragment]) i =
      if positionOf fragment = i then mergeInto fragment (callAt fragments i)
      else callAt fragments i := by
  unfold callAt
  split_ifs with hposition
  · cases hid : idOf fragment <;> cases hname : nameOf fragment <;>
      simp [hposition, hid, hname, mergeInto, String.join_append]
  · simp [hposition]

/-- How many calls the fragments make room for: one more than the largest position. -/
def roomFor (fragments : List Value) : ℕ :=
  fragments.foldl (fun room fragment ↦ max room (positionOf fragment + 1)) 0

@[simp] theorem roomFor_snoc (fragments : List Value) (fragment : Value) :
    roomFor (fragments ++ [fragment]) = max (roomFor fragments) (positionOf fragment + 1) := by
  simp [roomFor]

theorem positionOf_lt_roomFor {fragments : List Value} {fragment : Value}
    (h : fragment ∈ fragments) : positionOf fragment < roomFor fragments := by
  induction fragments using List.reverseRecOn with
  | nil => cases h
  | append_singleton fragments other ih =>
      rw [roomFor_snoc]
      rcases List.mem_append.mp h with h | h
      · have := ih h
        omega
      · obtain rfl := List.mem_singleton.mp h
        omega

theorem roomFor_le {fragments : List Value} {n : ℕ}
    (h : ∀ fragment ∈ fragments, positionOf fragment < n) : roomFor fragments ≤ n := by
  induction fragments using List.reverseRecOn with
  | nil => exact Nat.zero_le _
  | append_singleton fragments fragment ih =>
      have hlast := h fragment (by simp)
      have hrest := ih fun other hother ↦ h other (List.mem_append_left _ hother)
      rw [roomFor_snoc]
      omega

/-- The calls that are collected are those that the fragments make up, at every position up to the
largest. -/
theorem foldl_mergeToolCall (fragments : List Value) :
    fragments.foldl mergeToolCall [] = (List.range (roomFor fragments)).map (callAt fragments) := by
  have hgetD : ∀ (f : ℕ → ToolCall) (n i : ℕ), n ≤ i → ((List.range n).map f)[i]?.getD {} =
      ({} : ToolCall) := by
    intro f n i hi
    rw [List.getElem?_eq_none (by simpa using hi)]
    rfl
  induction fragments using List.reverseRecOn with
  | nil => rfl
  | append_singleton fragments fragment ih =>
      rw [List.foldl_append, List.foldl_cons, List.foldl_nil, ih]
      set calls := (List.range (roomFor fragments)).map (callAt fragments) with hcalls
      have hlength : (mergeToolCall calls fragment).length = roomFor (fragments ++ [fragment]) := by
        rw [mergeToolCall_eq, List.length_modify, length_padded, roomFor_snoc, hcalls,
          List.length_map, List.length_range]
      refine List.ext_getElem (by simpa using hlength) fun i hi hi' ↦ ?_
      have hmerged := getD_mergeToolCall calls fragment i
      have hold : calls[i]?.getD {} = callAt fragments i := by
        rcases lt_or_ge i (roomFor fragments) with hlt | hge
        · simp [hcalls, hlt]
        · -- No fragment is for a position beyond the room, and a blank call is there.
          rw [hgetD _ _ _ hge, callAt, List.filter_eq_nil_iff.mpr]
          · rfl
          · intro other hother
            have := positionOf_lt_roomFor hother
            simp only [decide_eq_true_eq]
            omega
      rw [List.getElem?_eq_getElem hi, Option.getD_some, hold, ← callAt_snoc] at hmerged
      rw [hmerged, List.getElem_map, List.getElem_range]

/-! ## What is streamed -/

/-- The pieces of text that went to the sink. -/
def piecesSent (xs : List (Exchange SinkCall SinkCall.Reply)) : List String :=
  xs.filterMap fun x ↦
    match x.call with
    | .textDelta piece => some piece
    | _ => none

section Paths

variable {scheduler : HttpChatCompletionsScheduler}
  {xs : List (Exchange SinkCall SinkCall.Reply)}

theorem piecesSent_append (xs ys : List (Exchange SinkCall SinkCall.Reply)) :
    piecesSent (xs ++ ys) = piecesSent xs ++ piecesSent ys := List.filterMap_append

theorem path_sendText {piece : Option String} (h : Path (sendText piece) xs (.ok ())) :
    piecesSent xs = piece.toList := by
  cases piece with
  | none =>
      obtain ⟨rfl, -⟩ := path_ret.mp h
      rfl
  | some piece =>
      obtain ⟨reply, ys, rfl, hreply⟩ := path_call.mp h
      obtain ⟨rfl, -⟩ := path_ret.mp hreply
      rfl

theorem path_sendReasoning {piece : Option String} {r : Except SchedulerError Unit}
    (h : Path (sendReasoning piece) xs r) : piecesSent xs = [] := by
  cases piece with
  | none =>
      obtain ⟨rfl, -⟩ := path_ret.mp h
      rfl
  | some piece =>
      obtain ⟨reply, ys, rfl, hreply⟩ := path_call.mp h
      obtain ⟨rfl, -⟩ := path_ret.mp hreply
      rfl

theorem path_consume {event : Value} {s s' : Reading} (h : Path (consume event s) xs (.ok s')) :
    s' = absorb event s ∧ piecesSent xs = (deltaText (choiceOf event)).toList := by
  obtain ⟨sent, ys, zs, rfl, htext, h⟩ := path_bind.mp h
  rcases sent with e | ⟨⟩
  · cases (path_ret.mp h).2
  obtain ⟨sent, us, vs, rfl, hreasoning, h⟩ := path_bind.mp h
  rcases sent with e | ⟨⟩
  · cases (path_ret.mp h).2
  obtain ⟨rfl, heq⟩ := path_ret.mp h
  refine ⟨Except.ok.inj heq, ?_⟩
  rw [piecesSent_append, piecesSent_append, path_sendText htext, path_sendReasoning hreasoning]
  exact List.append_nil _

theorem path_consumeAll {events : List Value} : ∀ {s s' : Reading}
    {xs : List (Exchange SinkCall SinkCall.Reply)}, Path (consumeAll events s) xs (.ok s') →
      s' = events.foldl (fun s e ↦ absorb e s) s ∧ piecesSent xs = textsOf events := by
  induction events with
  | nil =>
      intro s s' xs h
      obtain ⟨rfl, heq⟩ := path_ret.mp h
      exact ⟨Except.ok.inj heq, rfl⟩
  | cons event events ih =>
      intro s s' xs h
      obtain ⟨r, ys, zs, rfl, hconsume, h⟩ := path_bind.mp h
      rcases r with e | s₁
      · cases (path_ret.mp h).2
      obtain ⟨rfl, hpieces⟩ := path_consume hconsume
      obtain ⟨rfl, hrest⟩ := ih h
      refine ⟨rfl, ?_⟩
      rw [piecesSent_append, hpieces, hrest, textsOf, textsOf, List.filterMap_cons]
      cases deltaText (choiceOf event) <;> rfl

/-- Tool calls are announced as items. -/
theorem path_announceCalls {calls : List ToolCall} : ∀ {r : Except SchedulerError Unit}
    {xs : List (Exchange SinkCall SinkCall.Reply)}, Path (announceCalls calls) xs r →
      piecesSent xs = [] := by
  induction calls with
  | nil =>
      intro r xs h
      obtain ⟨rfl, -⟩ := path_ret.mp h
      rfl
  | cons c calls ih =>
      intro r xs h
      obtain ⟨announced, ys, zs, rfl, hcall, h⟩ := path_bind.mp h
      have hsent : piecesSent ys = [] := by
        obtain ⟨added, us, rfl, hadded⟩ := path_call.mp hcall
        rcases added with e | (_ | _)
        · obtain ⟨rfl, -⟩ := path_ret.mp hadded
          rfl
        · obtain ⟨done, vs, rfl, hdone⟩ := path_call.mp hadded
          obtain ⟨rfl, -⟩ := path_ret.mp hdone
          rfl
        · obtain ⟨rfl, -⟩ := path_ret.mp hadded
          rfl
      rw [piecesSent_append, hsent]
      rcases announced with e | ⟨⟩
      · obtain ⟨rfl, -⟩ := path_ret.mp h
        rfl
      · exact ih h

end Paths

/-! ## The outcome -/

/-- The text in a message's parts. -/
def textOfItem : ResponseItem → String
  | .message _ content _ _ => String.join <| content.filterMap fun
      | .inputText text | .outputText text => some text
      | _ => none
  | _ => ""

/-- The provider did not say that it was done: it stopped for the length, or without a reason. -/
def cutOff (events : List Value) : Bool :=
  match (finishesOf events).getLast? with
  | none | some "length" => true
  | some _ => false

/-- A call is complete once the provider has gone on to another one, or has said that it is done. -/
def complete (events : List Value) (position : ℕ) : Bool :=
  ((callFragments events).any fun fragment ↦ positionOf fragment = position) &&
    !(cutOff events &&
      (callFragments events).getLast?.any fun fragment ↦ positionOf fragment = position)

/-- The complete calls of a stream, in the order of their positions. -/
def completeCalls (events : List Value) : List ToolCall :=
  ((List.range (roomFor (callFragments events))).filter (complete events)).map
    (callAt (callFragments events))

/-- What a runner takes from a call: id, name and arguments. -/
def partsOf (call : ToolCall) : String × String × String :=
  (call.id, call.name, call.arguments)

/-- What was streamed is in the outcome: the text, and the complete calls in order and once each;
and the outcome says so when it was cut off. -/
structure Agrees (events : List Value) (sent : List String) (outcome : CompletionsOutcome) :
    Prop where
  text : String.join (outcome.items.map textOfItem) = String.join sent
  calls : MockAgentRunner.toolCalls outcome.items = (completeCalls events).map partsOf
  finish : (finishesOf events).getLast? = some "length" → outcome.finish = .length

/-- A stream has its text alone, or its refusal alone, or its calls alone, whole and without gaps
between their positions. -/
structure Unmixed (events : List Value) : Prop where
  alone : refusalsOf events ≠ [] ∨ callFragments events ≠ [] →
    textsOf events = [] ∧ (finishesOf events).getLast? ≠ some "length"
  refused : refusalsOf events ≠ [] → ∀ position, complete events position = false
  whole : refusalsOf events = [] → ∀ fragment ∈ callFragments events,
    cutOff events = false ∧
      ∀ position < positionOf fragment, ∃ other ∈ callFragments events, positionOf other = position

theorem complete_eq_false {events : List Value} (h : callFragments events = []) (position : ℕ) :
    complete events position = false := by
  simp [complete, h]

/-- No call is complete exactly if none is listed. -/
theorem completeCalls_eq_nil {events : List Value} :
    completeCalls events = [] ↔ ∀ position, complete events position = false := by
  rw [completeCalls, List.map_eq_nil_iff, List.filter_eq_nil_iff]
  constructor
  · intro h position
    cases hcomplete : complete events position with
    | false => rfl
    | true =>
        obtain ⟨fragment, hfragment, hposition⟩ :=
          List.any_eq_true.mp (Bool.and_eq_true_iff.mp hcomplete).1
        obtain rfl := of_decide_eq_true hposition
        exact absurd hcomplete (h _ (List.mem_range.mpr (positionOf_lt_roomFor hfragment)))
  · exact fun h position _ ↦ by simp [h position]

/-- All positions up to the largest are complete exactly if the stream was not cut off and left none
of them out. -/
theorem filter_complete {events : List Value} :
    (List.range (roomFor (callFragments events))).filter (complete events) =
        List.range (roomFor (callFragments events)) ↔
      ∀ fragment ∈ callFragments events, cutOff events = false ∧
        ∀ position < positionOf fragment,
          ∃ other ∈ callFragments events, positionOf other = position := by
  rw [List.filter_eq_self]
  constructor
  · intro h fragment hfragment
    constructor
    · cases hcut : cutOff events with
      | false => rfl
      | true =>
          -- The position of the last fragment is not complete.
          obtain ⟨last, hlast⟩ := Option.isSome_iff_exists.mp
            (List.getLast?_isSome.mpr (List.ne_nil_of_mem hfragment))
          have hmem := List.mem_of_getLast? hlast
          have hcomplete := h _ (List.mem_range.mpr (positionOf_lt_roomFor hmem))
          simp [complete, hcut, hlast] at hcomplete
    · intro position hposition
      have hlt := positionOf_lt_roomFor hfragment
      have hcomplete := h position (List.mem_range.mpr (by omega))
      obtain ⟨other, hother, heq⟩ := List.any_eq_true.mp (Bool.and_eq_true_iff.mp hcomplete).1
      exact ⟨other, hother, of_decide_eq_true heq⟩
  · intro h position hposition
    obtain ⟨fragment, hfragment, hle⟩ : ∃ fragment ∈ callFragments events,
        position ≤ positionOf fragment := by
      by_contra hnone
      push Not at hnone
      exact absurd (List.mem_range.mp hposition) (not_lt.mpr (roomFor_le hnone))
    obtain ⟨hwhole, hall⟩ := h fragment hfragment
    have hsome : ∃ other ∈ callFragments events, positionOf other = position := by
      rcases Nat.lt_or_eq_of_le hle with hlt | rfl
      · exact hall position hlt
      · exact ⟨fragment, hfragment, rfl⟩
    simpa [complete, hwhole] using hsome

/-- Which of what has been read becomes the outcome. -/
inductive Chosen (events : List Value) (outcome : CompletionsOutcome) : Prop
  | refusal (h : refusalsOf events ≠ []) (htext : ∀ item ∈ outcome.items, textOfItem item = "")
      (hcalls : MockAgentRunner.toolCalls outcome.items = []) (hfinish : outcome.finish = .refusal)
  | calls (h : refusalsOf events = []) (hsome : callFragments events ≠ [])
      (htext : ∀ item ∈ outcome.items, textOfItem item = "")
      (hcalls : MockAgentRunner.toolCalls outcome.items =
        ((callFragments events).foldl mergeToolCall []).map partsOf)
      (hfinish : outcome.finish = .toolCalls)
  | text (h : refusalsOf events = []) (hnone : callFragments events = [])
      (htext : String.join (outcome.items.map textOfItem) = String.join (textsOf events))
      (hcalls : MockAgentRunner.toolCalls outcome.items = [])
      (hfinish : outcome.finish = (reading events).finish)

section Outcomes

variable {scheduler : HttpChatCompletionsScheduler} {events : List Value}
  {xs : List (Exchange SinkCall SinkCall.Reply)} {outcome : CompletionsOutcome}

theorem reading_toolCalls_eq_nil : (reading events).toolCalls = [] ↔ callFragments events = [] := by
  rw [reading_toolCalls]
  constructor
  · intro h
    refine List.eq_nil_iff_forall_not_mem.mpr fun fragment hfragment ↦ ?_
    have hlt := positionOf_lt_roomFor hfragment
    rw [foldl_mergeToolCall, List.map_eq_nil_iff, List.range_eq_nil] at h
    omega
  · intro h
    rw [h]
    rfl

theorem toolCalls_ofCalls (calls : List ToolCall) (usage : Usage) :
    MockAgentRunner.toolCalls (CompletionsOutcome.toolCalls calls usage).items =
      calls.map partsOf := by
  simp [MockAgentRunner.toolCalls, CompletionsOutcome.toolCalls, List.filterMap_map,
    partsOf]

theorem textOfItem_message (text : String) : textOfItem (assistantTextMessage text) = text := by
  simp [assistantTextMessage, textOfItem, String.join]

/-- Nothing more is streamed of the text. -/
theorem path_outcomeOf {request : CompletionsRequest}
    (h : Path (outcomeOf request (reading events)) xs (.ok outcome)) :
    Chosen events outcome ∧ piecesSent xs = [] := by
  have hrefused := reading_refusal events
  unfold outcomeOf at h
  split at h
  · next reason hreason =>
      obtain ⟨rfl, heq⟩ := path_ret.mp h
      obtain rfl := Except.ok.inj heq
      have hsome : refusalsOf events ≠ [] := by simpa [hreason] using hrefused
      refine ⟨.refusal hsome ?_ rfl rfl, rfl⟩
      intro item hitem
      obtain rfl := List.mem_singleton.mp hitem
      rfl
  next hnone =>
    replace hnone : refusalsOf events = [] := by simpa [hnone] using hrefused
    split at h
    · next hcalls =>
        rw [List.isEmpty_iff, reading_toolCalls_eq_nil] at hcalls
        split at h
        · cases (path_ret.mp h).2
        · obtain ⟨rfl, heq⟩ := path_ret.mp h
          obtain rfl := Except.ok.inj heq
          refine ⟨.text hnone hcalls ?_ rfl rfl, rfl⟩
          rw [List.map_singleton, textOfItem_message, reading_text]
          simp [String.join]
    · next hcalls =>
        rw [List.isEmpty_iff, reading_toolCalls_eq_nil] at hcalls
        obtain ⟨announced, ys, zs, rfl, hannounced, hrest⟩ := path_bind.mp h
        rcases announced with e | ⟨⟩
        · cases (path_ret.mp hrest).2
        obtain ⟨rfl, heq⟩ := path_ret.mp hrest
        obtain rfl := Except.ok.inj heq
        refine ⟨.calls hnone hcalls ?_ ?_ rfl, ?_⟩
        · intro item hitem
          obtain ⟨c, -, rfl⟩ := List.mem_map.mp hitem
          rfl
        · rw [toolCalls_ofCalls, reading_toolCalls]
        · rw [List.append_nil, path_announceCalls hannounced]

/-- What a parse returns is chosen from the events it has read, and their texts were sent. -/
theorem path_parseStream {chunks : List (Except String (List UInt8))} {ends : Bool}
    {request : CompletionsRequest}
    (h : Path (scheduler.parseStream chunks ends request) xs (.ok outcome)) :
    Chosen (scheduler.eventsOf chunks []) outcome ∧
      piecesSent xs = textsOf (scheduler.eventsOf chunks []) := by
  rw [parseStream_eq] at h
  obtain ⟨r, ys, zs, rfl, hconsume, hrest⟩ := path_bind.mp h
  rcases r with e | s
  · cases (path_ret.mp hrest).2
  obtain ⟨rfl, hpieces⟩ := path_consumeAll hconsume
  cases htransport : transport chunks with
  | error e =>
      rw [htransport] at hrest
      cases (path_ret.mp hrest).2
  | ok _ =>
      rw [htransport] at hrest
      cases ends with
      | false => exact (path_stall hrest).elim
      | true =>
          obtain ⟨hchosen, hsent⟩ := path_outcomeOf hrest
          exact ⟨hchosen, by rw [piecesSent_append, hpieces, hsent, List.append_nil]⟩

theorem join_textsOf_eq_empty : String.join (textsOf events) = "" ↔ textsOf events = [] := by
  constructor
  · intro h
    refine List.eq_nil_iff_forall_not_mem.mpr fun piece hpiece ↦ ?_
    obtain ⟨event, -, hdelta⟩ := List.mem_filterMap.mp hpiece
    obtain ⟨before, after, heq⟩ := List.append_of_mem hpiece
    rw [heq] at h
    simp [String.join_append, String.join_cons] at h
    exact deltaText_ne hdelta h.2.1
  · intro h
    rw [h]
    rfl

theorem join_eq_empty {items : List ResponseItem} (h : ∀ item ∈ items, textOfItem item = "") :
    String.join (items.map textOfItem) = "" := by
  rw [List.map_congr_left h]
  induction items with
  | nil => rfl
  | cons item items ih =>
      rw [List.map_cons, String.join_cons, ih fun x hx ↦ h x (List.mem_cons_of_mem _ hx)]
      rfl

/-- The outcome agrees with the stream exactly if the stream is unmixed. -/
theorem agrees_iff {chunks : List (Except String (List UInt8))} {ends : Bool}
    {request : CompletionsRequest}
    (h : Path (scheduler.parseStream chunks ends request) xs (.ok outcome))
    (hevents : scheduler.eventsOf chunks [] = events) :
    Agrees events (piecesSent xs) outcome ↔ Unmixed events := by
  obtain ⟨hchosen, hsent⟩ := path_parseStream h
  rw [hevents] at hchosen hsent
  rw [hsent]
  cases hchosen with
  | refusal hrefusals htext hcalls hfinish =>
      constructor
      · intro hagrees
        have hempty := hagrees.text
        rw [join_eq_empty htext] at hempty
        refine ⟨fun _ ↦ ⟨join_textsOf_eq_empty.mp hempty.symm, fun hlast ↦ ?_⟩, fun _ ↦ ?_,
          fun hnone ↦ absurd hnone hrefusals⟩
        · have hlength := hagrees.finish hlast
          rw [hfinish] at hlength
          cases hlength
        · exact completeCalls_eq_nil.mp
            (List.map_eq_nil_iff.mp (hagrees.calls.symm.trans hcalls))
      · intro hunmixed
        obtain ⟨htexts, hlast⟩ := hunmixed.alone (.inl hrefusals)
        refine ⟨?_, ?_, fun hlength ↦ absurd hlength hlast⟩
        · rw [join_eq_empty htext, htexts]
          rfl
        · rw [hcalls, completeCalls_eq_nil.mpr (hunmixed.refused hrefusals)]
          rfl
  | calls hrefusals hsome htext hcalls hfinish =>
      rw [foldl_mergeToolCall] at hcalls
      constructor
      · intro hagrees
        have hempty := hagrees.text
        rw [join_eq_empty htext] at hempty
        refine ⟨fun _ ↦ ⟨join_textsOf_eq_empty.mp hempty.symm, fun hlast ↦ ?_⟩,
          fun hne ↦ absurd hrefusals hne, fun _ ↦ filter_complete.mp ?_⟩
        · have hlength := hagrees.finish hlast
          rw [hfinish] at hlength
          cases hlength
        · -- As many calls are complete as there are positions, so all of them are.
          have hlength := congrArg List.length (hcalls.symm.trans hagrees.calls)
          simp only [completeCalls, List.length_map] at hlength
          exact List.filter_sublist.eq_of_length hlength.symm
      · intro hunmixed
        obtain ⟨htexts, hlast⟩ := hunmixed.alone (.inr hsome)
        refine ⟨?_, ?_, fun hlength ↦ absurd hlength hlast⟩
        · rw [join_eq_empty htext, htexts]
          rfl
        · rw [hcalls, completeCalls, filter_complete.mpr (hunmixed.whole hrefusals)]
  | text hrefusals hnone htext hcalls hfinish =>
      refine ⟨fun _ ↦ ⟨fun hsome ↦ ?_, fun hne ↦ absurd hrefusals hne, fun _ ↦ ?_⟩,
        fun _ ↦ ⟨htext, ?_, ?_⟩⟩
      · exact absurd hsome (not_or.mpr ⟨not_not.mpr hrefusals, not_not.mpr hnone⟩)
      · rw [hnone]
        nofun
      · rw [hcalls, completeCalls_eq_nil.mpr (complete_eq_false hnone)]
        rfl
      · exact fun hlast ↦ hfinish.trans ((reading_finish events).mpr hlast)

end Outcomes

end HttpChatCompletionsScheduler

/-! ## A refusal behind a text -/

namespace Sample

def textEvent : String := "\x7b\"choices\":[\x7b\"delta\":\x7b\"content\":\"hi\"\x7d\x7d]\x7d"

def refusalEvent : String := "\x7b\"choices\":[\x7b\"delta\":\x7b\"refusal\":\"no\"\x7d\x7d]\x7d"

/-- What a delta is wrapped into. -/
def deltaValue (key text : String) : Value :=
  .object [("choices", .array [.object [("delta", .object [(key, .string text)])]])]

/-- An event with two tool calls, and the end of the answer. -/
def callsEvent : String :=
  "\x7b\"choices\":[\x7b\"delta\":\x7b\"tool_calls\":[" ++
    "\x7b\"index\":0,\"id\":\"call-1\"," ++
      "\"function\":\x7b\"name\":\"calculate\",\"arguments\":\"1\"\x7d\x7d," ++
    "\x7b\"index\":1,\"id\":\"call-2\"," ++
      "\"function\":\x7b\"name\":\"calculate\",\"arguments\":\"1\"\x7d\x7d" ++
    "]\x7d,\"finish_reason\":\"tool_calls\"\x7d]\x7d"

def fragmentValue (index : ℕ) (id : String) : Value :=
  .object [("index", .number (.int index)), ("id", .string id), ("function",
    .object [("name", .string "calculate"), ("arguments", .string "1")])]

def callsValue : Value :=
  .object [("choices", .array [.object [
    ("delta", .object [
      ("tool_calls", .array [fragmentValue 0 "call-1", fragmentValue 1 "call-2"])]),
    ("finish_reason", .string "tool_calls")]])]

def provided : HttpChatCompletionsScheduler where
  provider _ _ := .unreachable ""
  fromStr text :=
    if text = callsEvent then some callsValue
    else if text = refusalEvent then some (deltaValue "refusal" "no")
    else if text = textEvent then some (deltaValue "content" "hi")
    else none

def posed : CompletionsRequest where
  model := "model"
  messages := []
  provenance := ⟨⟨node, ⟨0⟩⟩, Attempt.unclaimed.next, 0⟩

/-- A chunk with the data lines of some events. -/
def chunkOf (events : List String) : List (Except String (List UInt8)) :=
  [.ok (String.join (events.map fun e ↦ "data: " ++ e ++ "\n")).toUTF8.toList]

/-- A sink that wants everything. -/
def eager : (c : SinkCall) → Unit → c.Reply × Unit
  | .cancelled, _ => (false, ())
  | .textDelta _, _ | .reasoningTextDelta _, _ | .outputItemAdded _, _ | .outputItemDone _, _
  | .functionCallArgumentsDelta _ _, _ | .functionCallArgumentsDone _ _, _
  | .contentPartAdded _ _, _ | .outputTextDone _, _ | .contentPartDone _ _ _, _ =>
    (.ok .continue, ())

def parsed (events : List String) : SinkProg (Except SchedulerError CompletionsOutcome) :=
  provided.parseStream (chunkOf events) true posed

/-- What is sent when some events are parsed, and the text and finish of the outcome. -/
def parsedTo (events : List String) : Option (List String × List String × FinishReason) :=
  match (parsed events).run eager () with
  | some (.ok outcome, _) =>
    some (HttpChatCompletionsScheduler.piecesSent ((parsed events).exchanges eager ()),
      outcome.items.map HttpChatCompletionsScheduler.textOfItem, outcome.finish)
  | _ => none

theorem path_of_parsedTo {events sent texts : List String} {finish : FinishReason}
    (h : parsedTo events = some (sent, texts, finish)) :
    ∃ xs outcome, Path (parsed events) xs (.ok outcome) ∧
      HttpChatCompletionsScheduler.piecesSent xs = sent ∧
        outcome.items.map HttpChatCompletionsScheduler.textOfItem = texts := by
  unfold parsedTo at h
  split at h
  · next outcome _ hrun =>
      simp only [Option.some.injEq, Prod.mk.injEq] at h
      exact ⟨_, outcome, Path.of_run hrun, h.1, h.2.1⟩
  · cases h

theorem parsed_refusal : parsedTo [textEvent, refusalEvent] = some (["hi"], [""], .refusal) := by
  decide +kernel

theorem parsed_calls : parsedTo [callsEvent] = some ([], ["", ""], .toolCalls) := by
  decide +kernel

theorem calls_unmixed : HttpChatCompletionsScheduler.Unmixed
    (provided.eventsOf (chunkOf [callsEvent]) []) where
  alone _ := by decide +kernel
  refused hne := absurd (by decide +kernel) hne
  whole _ := by decide +kernel

end Sample

open HttpChatCompletionsScheduler in
/-- Two calls that were streamed to their end are the calls of the outcome. -/
theorem agrees_iff_calls : ∃ xs outcome,
    Path (Sample.parsed [Sample.callsEvent]) xs (.ok outcome) ∧
      MockAgentRunner.toolCalls outcome.items =
        [("call-1", "calculate", "1"), ("call-2", "calculate", "1")] := by
  obtain ⟨xs, outcome, hpath, -⟩ := Sample.path_of_parsedTo Sample.parsed_calls
  refine ⟨xs, outcome, hpath, ((agrees_iff hpath rfl).mpr Sample.calls_unmixed).calls.trans ?_⟩
  decide +kernel

open HttpChatCompletionsScheduler in
/-- The outcome of a text and a refusal has the refusal alone. -/
theorem text_dropped : ¬ ∀ (scheduler : HttpChatCompletionsScheduler)
    (chunks : List (Except String (List UInt8))) (ends : Bool) (request : CompletionsRequest)
    (xs : List (Exchange SinkCall SinkCall.Reply)) (outcome : CompletionsOutcome),
      Path (scheduler.parseStream chunks ends request) xs (.ok outcome) →
        Agrees (scheduler.eventsOf chunks []) (piecesSent xs) outcome := by
  intro hclaim
  obtain ⟨xs, outcome, hpath, hsent, htexts⟩ := Sample.path_of_parsedTo Sample.parsed_refusal
  have htext := (hclaim _ _ _ _ _ _ hpath).text
  rw [hsent, htexts] at htext
  exact absurd htext (by decide)

end NovaChat
