import NovaChat.Gateway.Following
import NovaChat.Interact.Exchanged
import NovaChat.Stream.Paging
import NovaChat.Tenancy.Endpoints
import Mathlib.Data.List.Infix

/-!
# Resuming a conversation's stream

A conversation says one thing after another and takes nothing back.  Clients come and go on its
event endpoint, at any node, while anybody does anything else; what gets through to one of them is
what was said from its first cursor on, once each.
-/

namespace NovaChat

open Interact Prog Numbering Gateway MemConversationStore

/-! ## What a conversation has said -/

/-- What a read of the conversation brought is what had been said behind its cursor. -/
def Relayed (c : ConversationId) (all : List ConversationEvent) :
    Exchange Call Call.Reply → Prop
  | ⟨.conversations (.readAfter _ id cursor _), .ok batch⟩ =>
    id = c → Word cursor → cursor ≠ some u64Max → batch <+: all.drop (first cursor)
  | _ => True

/-- The conversation, as long as it is there, shows all it has said. -/
structure Displays (all : List ConversationEvent) (t : Talk) : Prop where
  shown : ∀ x, t.conversation = some x → t.stream.events = all ∧ t.stream.nextSeq = all.length
  gone : t.conversation = none → t.stream = {}

/-- `all` is what the conversation has said, and stays when the conversation goes. -/
structure Spoken (c : ConversationId) (all : List ConversationEvent) (xs : Exchanges)
    (w : World) : Prop where
  numbered : From ConversationEvent.seq 0 all
  word : all.length ≤ u64Max
  showing : Displays all (w.store.talk c)
  unborn : c ∉ opened xs → all = []
  reported : ∀ x ∈ xs, Relayed c all x

section Displays

variable {c : ConversationId} {all : List ConversationEvent} {bound : ℕ} {call : Call}
  {t t' : Talk}

theorem Displays.push {x y : Conversation} {stream stream' : ConversationEventStream}
    (h : Displays all ⟨some x, stream⟩) {kind : ConversationEventKind} {now : ℕ}
    (hevents : stream'.events = (stream.push c kind now).events)
    (hnext : stream'.nextSeq = stream.nextSeq + 1) :
    Displays (all ++ [⟨c, all.length, kind, now⟩]) ⟨some y, stream'⟩ := by
  obtain ⟨hshown, hcount⟩ := h.shown x rfl
  refine ⟨fun _ _ ↦ ⟨?_, ?_⟩, fun hnone ↦ by cases hnone⟩
  · have hcount' : stream.nextSeq = all.length := hcount
    have hshown' : stream.events = all := hshown
    rw [hevents, ConversationEventStream.push, hshown', hcount']
  · have hcount' : stream.nextSeq = all.length := hcount
    rw [hnext, hcount', List.length_append, List.length_singleton]

/-- A step says one thing more or nothing; where there is no conversation it says nothing. -/
theorem Displays.step (hstep : TalkStep bound c call t t') (h : Displays all t)
    (hnum : From ConversationEvent.seq 0 all) (hword : all.length ≤ u64Max)
    (hbound : bound ≤ u64Max)
    (hnew : ∀ x, call = .conversations (.create x) → x.id = c → t.conversation = none → all = []) :
    ∃ more, all <+: more ∧ From ConversationEvent.seq 0 more ∧ more.length ≤ u64Max ∧
      Displays more t' ∧ (t.conversation = none → more = all) := by
  -- What is said more when there is room for it.
  have hmore : ∀ {x y : Conversation} {stream stream' : ConversationEventStream}
      {kind : ConversationEventKind} {now : ℕ}, Displays all ⟨some x, stream⟩ →
      stream.nextSeq < bound → stream'.events = (stream.push c kind now).events →
      stream'.nextSeq = stream.nextSeq + 1 →
      ∃ more, all <+: more ∧ From ConversationEvent.seq 0 more ∧ more.length ≤ u64Max ∧
        Displays more ⟨some y, stream'⟩ ∧ ((some x : Option Conversation) = none → more = all) := by
    intro x y stream stream' kind now hshows hroom hevents hnext
    have hcount : stream.nextSeq = all.length := (hshows.shown x rfl).2
    refine ⟨all ++ [⟨c, all.length, kind, now⟩], List.prefix_append _ _, ?_, ?_,
      hshows.push hevents hnext, fun hnone ↦ by cases hnone⟩
    · exact from_snoc.mpr ⟨hnum, (Nat.zero_add _).symm⟩
    · rw [List.length_append, List.length_singleton]
      omega
  cases hstep with
  | stay => exact ⟨all, List.prefix_rfl, hnum, hword, h, fun _ ↦ rfl⟩
  | @create x hid t =>
      refine ⟨all, List.prefix_rfl, hnum, hword, ⟨fun y hy ↦ ?_, fun hnone ↦ by cases hnone⟩,
        fun _ ↦ rfl⟩
      cases hx : t.conversation with
      | none =>
          have hempty := hnew x rfl hid hx
          subst hempty
          rw [h.gone hx]
          exact ⟨rfl, rfl⟩
      | some z => exact h.shown z hx
  | describe x stream =>
      exact ⟨all, List.prefix_rfl, hnum, hword,
        ⟨fun _ _ ↦ h.shown x rfl, fun hnone ↦ by cases hnone⟩, fun _ ↦ rfl⟩
  | advance x stream =>
      exact ⟨all, List.prefix_rfl, hnum, hword,
        ⟨fun _ _ ↦ h.shown x rfl, fun hnone ↦ by cases hnone⟩, fun _ ↦ rfl⟩
  | remove hcall x stream =>
      exact ⟨all, List.prefix_rfl, hnum, hword,
        ⟨fun _ hx ↦ absurd hx (by simp), fun _ ↦ rfl⟩, fun _ ↦ rfl⟩
  | occupy hfree hroom => exact hmore h hroom rfl rfl
  | vacate hheld hroom => exact hmore h hroom rfl rfl
  | takeOver hheld =>
      exact ⟨all, List.prefix_rfl, hnum, hword,
        ⟨fun _ _ ↦ h.shown _ rfl, fun hnone ↦ by cases hnone⟩, fun _ ↦ rfl⟩
  | note hroom => exact hmore h hroom rfl rfl

end Displays

section Spoken

variable {c : ConversationId} {all more : List ConversationEvent} {xs : Exchanges} {w : World}
  {call : Call}

theorem Relayed.mono {x : Exchange Call Call.Reply} (hall : all <+: more)
    (h : Relayed c all x) : Relayed c more x := by
  unfold Relayed at h ⊢
  split at h
  · exact fun hid hword hmax ↦ (h hid hword hmax).trans (List.IsPrefix.drop hall _)
  · trivial

theorem readAfter_prefix (h : Spoken c all xs w) {tenant : TenantId} {cursor : Option ℕ}
    {limit : ℕ} {batch : List ConversationEvent} (hword : Word cursor)
    (hmax : cursor ≠ some u64Max)
    (hread : MemConversationStore.readAfter w.store tenant c cursor limit = .ok batch) :
    batch <+: all.drop (first cursor) := by
  have hunchecked := readAfterIn_unchecked w.store tenant c cursor limit
  cases havail : guardAvailable w.store with
  | error e => simp [MemConversationStore.readAfter, havail] at hread
  | ok u =>
      cases howned : owned w.store tenant c with
      | none => simp [MemConversationStore.readAfter, havail, howned] at hread
      | some x =>
          rw [readAfterIn_of_owned havail (by rw [howned]; rfl), position_of_ne hword hmax, hread,
            show (w.store.stream c).events = all from
              (h.showing.shown x (owned_eq_some.mp howned).1).1] at hunchecked
          rw [← Except.ok.inj (Option.some.inj hunchecked)]
          exact List.take_prefix _ _

/-- A read reports what is there. -/
theorem relayed_exec (h : Spoken c all xs w) : Relayed c all ⟨call, (exec call w).1⟩ := by
  rcases call with _ | call | call | call | call | call
  · trivial
  · trivial
  · trivial
  · cases call with
    | readAfter tenant id cursor limit =>
        simp only [exec, execConversations]
        cases hread : MemConversationStore.readAfter w.store tenant id cursor limit with
        | error e => trivial
        | ok batch =>
            rintro rfl hword hmax
            exact readAfter_prefix h hword hmax hread
    | _ => trivial
  · trivial
  · trivial

/-- Every call leaves what was said, and says at most one thing more. -/
theorem Spoken.step (h : Spoken c all xs w) (hfiled : Filed xs w)
    (hbound : w.store.maxEventsPerConversation ≤ u64Max) (hnew : call.NewIn xs) :
    ∃ more, Spoken c more (xs ++ [⟨call, (exec call w).1⟩]) (exec call w).2 := by
  have hunborn : ∀ x, call = .conversations (.create x) → x.id = c →
      (w.store.talk c).conversation = none → all = [] := by
    rintro x rfl rfl -
    exact h.unborn hnew
  obtain ⟨more, hall, hnum, hword, hshows, hsame⟩ :=
    h.showing.step (exec_talkStep call hfiled.keyed c) h.numbered h.word hbound hunborn
  refine ⟨more, hnum, hword, hshows, fun hnotyet ↦ ?_, fun x hx ↦ ?_⟩
  · have hbefore : c ∉ opened xs := by
      rw [opened_snoc] at hnotyet
      exact fun hmem ↦ hnotyet (List.mem_append_left _ hmem)
    rw [hsame, h.unborn hbefore]
    cases hx : w.store.conversation c with
    | none => exact hx
    | some x => exact absurd (hfiled.opened hx) hbefore
  · rcases List.mem_append.mp hx with hx | hx
    · exact (h.reported x hx).mono hall
    · rw [List.mem_singleton.mp hx]
      exact (relayed_exec h).mono hall

end Spoken

/-- In every history each conversation has said something, one thing after another. -/
theorem spoken_of_history {w₀ w : World} {xs : Exchanges} (hempty : w₀.store = {})
    (h : History exec (fun zs c ↦ c.NewIn zs ∧ c.Bounds) w₀ xs w) (c : ConversationId) :
    ∃ all, Spoken c all xs w := by
  have hinv :
      Filed xs w ∧ w.store.maxEventsPerConversation ≤ u64Max ∧ ∃ all, Spoken c all xs w := by
    refine h.invariant (J := fun xs w ↦ Filed xs w ∧ w.store.maxEventsPerConversation ≤ u64Max ∧
      ∃ all, Spoken c all xs w) ?_ ?_
    · rintro xs t call ⟨hfiled, hbound, all, hall⟩ ⟨hnew, hcall⟩
      refine ⟨hfiled.step hnew, ?_, hall.step hfiled hbound hnew⟩
      rw [exec_maxEvents]
      split
      · next limit => exact max_le hcall (by decide)
      · exact hbound
    · refine ⟨filed_empty (by rw [hempty]), by rw [hempty]; decide, [], from_nil, Nat.zero_le _, ?_,
        fun _ ↦ rfl, fun x hx ↦ by cases hx⟩
      rw [hempty]
      exact ⟨fun x hx ↦ by simp [MemStore.talk, MemStore.conversation] at hx, fun _ ↦ rfl⟩
  exact hinv.2.2

/-! ## Clients of the event endpoint -/

/-- What a frame tells of an event. -/
def talkFrame (e : ConversationEvent) : Frame :=
  ⟨e.kind.asStr, some (toString e.seq), String.ofList (compact e.toValue)⟩

section Clients

variable {c : ConversationId} {all : List ConversationEvent} {xs : Exchanges} {w : World}
  {app : AppState} {tenant : TenantId}

/-- As far as its reads report what was said, a conversation's source tells it. -/
theorem Spoken.tells (h : Spoken c all xs w) (tenant : TenantId) :
    Tells (conversationSource tenant c) all (Relayed c all)
      fun cursor ↦ Word cursor ∧ cursor ≠ some u64Max := by
  have hlt : ∀ e ∈ all, e.seq < u64Max := by
    intro e he
    have hrange := h.numbered.mem_iff.mp ⟨e, he, rfl⟩
    have hword := h.word
    omega
  constructor
  · exact h.numbered
  · exact fun e he ↦ (hlt e he).le
  · intro e he
    refine ⟨fun n hn ↦ ?_, fun hmax ↦ ?_⟩
    · obtain rfl : e.seq = n := by simpa [conversationSource] using hn
      exact (hlt e he).le
    · exact absurd (Option.some.inj hmax) (hlt e he).ne
  · rintro cursor limit ys batch ⟨hword, hmax⟩ hpath hgood
    obtain ⟨reply, zs, rfl, hret⟩ := path_call.mp hpath
    obtain ⟨rfl, hbatch⟩ := path_ret.mp hret
    cases reply with
    | error e => cases hbatch
    | ok events =>
        obtain rfl := Except.ok.inj hbatch
        exact hgood _ List.mem_cons_self rfl hword hmax

/-- The event endpoint reaches the carrier past every switch of its node. -/
theorem handler_events (node reads : ℕ) (headers : Headers) (id : String) (query : Option ℕ) :
    Visit.handler app node headers (.events reads id query) =
      ConversationRoutes.events app reads id query headers := by
  apply handle_eq_self
  cases htenant : tenantOrReject app.keys headers with
  | error rejection =>
      rw [handle_of_rejected htenant]
      trivial
  | ok tenant =>
      refine onlyCalls_orReject htenant fun handler h ↦ ?_
      obtain ⟨id, -, h⟩ := bind_eq_ok h
      obtain rfl := Except.ok.inj h
      exact onlyCalls_openSse (fun _ _ ↦ rfl) _ reads _

theorem frames_of_rejected {keys : KeyTable} {headers : Headers} {rejection : HttpResponse}
    (h : tenantOrReject keys headers = .error rejection) : rejection.frames = [] := by
  unfold tenantOrReject at h
  split at h
  · cases h
  · rw [← Except.error.inj h]
    rfl
  · rw [← Except.error.inj h]
    rfl

/-- What an answer of the event endpoint tells is what was said behind its cursor. -/
theorem Spoken.answer (h : Spoken c all xs w) {headers : Headers} {id : String} {reads : ℕ}
    {query : Option ℕ} (hid : ConversationId.parse app.parseStr id = .ok c)
    (hsound : Word (resolveCursor query headers.lastEventId) ∧
      resolveCursor query headers.lastEventId ≠ some u64Max)
    {ys : Exchanges} {a : HttpResponse}
    (hpath : Path (ConversationRoutes.events app reads id query headers) ys a)
    (hgood : ∀ x ∈ ys, Relayed c all x) :
    ∃ got, got <+: all.drop (first (resolveCursor query headers.lastEventId)) ∧
      Frames (conversationSource tenant c) got a.frames := by
  cases htenant : tenantOrReject app.keys headers with
  | error rejection =>
      have hret : ConversationRoutes.events app reads id query headers = .ret rejection :=
        handle_of_rejected htenant (.events reads id query)
      rw [hret] at hpath
      obtain ⟨-, rfl⟩ := path_ret.mp hpath
      exact ⟨[], List.nil_prefix, Or.inl (frames_of_rejected htenant)⟩
  | ok other =>
      have hopen : ConversationRoutes.events app reads id query headers =
          (conversationSource other c).openSse app.conversationEventsPage reads
            (resolveCursor query headers.lastEventId) := by
        simp only [ConversationRoutes.events, htenant, ConversationRoutes.parseId, hid,
          parseOrNotFound]
        rfl
      rw [hopen] at hpath
      exact (h.tells other).openSse hsound hpath hgood

end Clients

/-- Everybody's calls bring conversations under new ids, and bounds that are machine words. -/
def FreshIds {Job : Type} (tr : List (Event Call Call.Reply Job))
    (_ : Pool Call Call.Reply World Job) : Event Call Call.Reply Job → Prop
  | .start _ => True
  | .call _ c _ => c.NewIn (exchanged tr) ∧ c.Bounds

/-- In every run, whatever else goes on in it, a client that follows a conversation from a cursor,
is cut off anywhere and comes back with the id of the last frame it got, gets exactly a stretch of
what the conversation said from that cursor on: nothing twice, nothing out of order, nothing left
out between. -/
theorem resumption_exact (app : AppState) {Job : Type} (prog : Job → Service Unit) {w : World}
    (hempty : w.store = {}) {tr : List (Event Call Call.Reply Job)}
    {q : Pool Call Call.Reply World Job} (h : Run ⟨exec, prog⟩ FreshIds (Pool.init w) tr q)
    {c : ConversationId} {id : String} (hid : ConversationId.parse app.parseStr id = .ok c)
    {query : Option ℕ} (hquery : Word query) (hmax : query ≠ some u64Max)
    {authorization : Option String} {connections : List Connection} {i : ℕ} {frames : List Frame}
    (hpath : Path (follow (fun k last ↦ Visit.handler app k.node
      { authorization := authorization, lastEventId := last } (.events k.reads id query))
        connections none) (exchangesOf i tr) frames) :
    ∃ all, From ConversationEvent.seq 0 all ∧
      (∀ x, q.world.store.conversation c = some x → (q.world.store.stream c).events = all) ∧
      ∃ got, got <+: all.drop (first query) ∧ telling frames = got.map talkFrame := by
  have hhistory : History exec (fun zs c ↦ c.NewIn zs ∧ c.Bounds) w (exchanged tr) q.world :=
    h.history fun _ _ _ _ _ hok ↦ hok
  obtain ⟨all, hall⟩ := spoken_of_history hempty hhistory c
  have hgood : ∀ x ∈ exchangesOf i tr, Relayed c all x := fun x hx ↦
    hall.reported x ((exchangesOf_sublist tr i).subset hx)
  refine ⟨all, hall.numbered, fun x hx ↦ (hall.showing.shown x hx).1, ?_⟩
  have hstart : Word (resolveCursor query none) ∧ resolveCursor query none ≠ some u64Max :=
    ⟨hquery, hmax⟩
  refine (hall.tells localTenant).follow ?_ connections hstart hpath hgood
  intro connection last ys a hsound hanswer hys
  rw [handler_events] at hanswer
  exact hall.answer hid hsound hanswer hys

def freshIds {Job : Type} (tr : List (Event Call Call.Reply Job)) :
    Event Call Call.Reply Job → Bool
  | .start _ => true
  | .call _ c _ => c.newIn (exchanged tr) && !Sample.isMode c

theorem freshIds_of_check {Job : Type} {tr : List (Event Call Call.Reply Job)}
    {q : Pool Call Call.Reply World Job} {e : Event Call Call.Reply Job}
    (h : freshIds tr e = true) : FreshIds tr q e := by
  cases e with
  | start j => trivial
  | call i c r =>
      obtain ⟨hnew, hmode⟩ := Bool.and_eq_true_iff.mp h
      refine ⟨Call.newIn_iff.mp hnew, ?_⟩
      cases c with
      | mode c => cases hmode
      | _ => trivial

namespace Sample

/-- Open the sample conversation and announce three things on it. -/
def announcer : Service Unit := do
  let _ ← ConversationsService.create ⟨0⟩ tenant []
  let _ ← ConversationsService.appendEvent tenant talk (.business "first" .null)
  let _ ← ConversationsService.appendEvent tenant talk (.business "second" .null)
  let _ ← ConversationsService.appendEvent tenant talk (.business "third" .null)
  return ()

/-- A client that loses its first connection after one frame, and goes on at another node. -/
def client : Service (List Frame) :=
  follow (fun k last ↦ Visit.handler app k.node
    { authorization := some "Bearer key-aaaaaaa", lastEventId := last }
    (.events k.reads talk.text none)) [⟨0, 1, 1⟩, ⟨1, 2, 5⟩] none

/-- The client, or the one who announces. -/
def guest : Bool → Service Unit
  | true => Job.forget client
  | false => announcer

def viewing : List (Action Bool) :=
  .start false :: .start true ::
    ([0, 0, 0, 0, 0, 0, 1, 1, 1, 0, 0, 1, 1].map Action.turn)

end Sample

theorem resumption_exact_client : ∃ tr q frames,
    Run (System.mk exec Sample.guest) FreshIds (Pool.init {}) tr q ∧
      Path Sample.client (exchangesOf 1 tr) frames ∧ ∃ all, From ConversationEvent.seq 0 all ∧
        (∀ x, q.world.store.conversation Sample.talk = some x →
          (q.world.store.stream Sample.talk).events = all) ∧
        ∃ got, got <+: all.drop (first none) ∧ telling frames = got.map talkFrame := by
  obtain ⟨tr, q, h, htest⟩ := @Run.exists_of_schedule _ _ _ _ FreshIds
    (System.mk exec Sample.guest) (Pool.init {}) (fun tr _ e ↦ freshIds tr e)
    (fun _ q ↦ q.returned 1 && decide (q.jobAt 1 = some true))
    (fun _ _ _ ↦ freshIds_of_check) Sample.viewing (by decide +kernel)
  obtain ⟨hreturned, hjob⟩ := Bool.and_eq_true_iff.mp htest
  obtain ⟨frames, ys, zs, hsplit, hclient, hret⟩ :=
    path_bind.mp (h.path hreturned (of_decide_eq_true hjob))
  obtain ⟨rfl, -⟩ := path_ret.mp hret
  rw [List.append_nil] at hsplit
  rw [← hsplit] at hclient
  exact ⟨tr, q, frames, h, hclient, resumption_exact Sample.app Sample.guest rfl h
    (by decide +kernel) (fun _ hn ↦ absurd hn (by simp)) (by simp) hclient⟩

end NovaChat
