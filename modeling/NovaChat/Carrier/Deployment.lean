import NovaChat.Carrier.Rpc
import NovaChat.Interact.Remote
import NovaChat.System

/-!
# Nodes around one carrier

The services of any number of nodes reach the shared world over a network only.  A request can be
lost, its reply can be lost, and a node that has given up on it does not know which.
-/

namespace NovaChat

open Interact

namespace MemClient

variable (debug : Response → String)

/-- Carry a call out at the carrier, or on its node if it stays there. -/
def exec (c : Call) (w : World) : c.Reply × World :=
  match call debug c with
  | none => NovaChat.exec c w
  | some rpc =>
    (rpc.reply (.ok (MemServer.dispatch w rpc.request).1), (MemServer.dispatch w rpc.request).2)

/-- The events of a reply come back as they were sent. -/
theorem mapM_intoResponseEvent : ∀ events : List ResponseEvent,
    ((events.map WireEvent.ofResponseEvent).mapM fun e ↦
      e.intoResponseEvent.mapError fun e ↦ EventLogError.store (.internal e.text)) = .ok events
  | [] => rfl
  | e :: events => by
      rw [List.map_cons, List.mapM_cons, mapM_intoResponseEvent events]
      rfl

theorem exec_ledger (c : LedgerCall) (w : World) :
    exec debug (.ledger c) w = NovaChat.exec (.ledger c) w := by
  show ((ledgerCall debug c).reply (.ok (MemServer.dispatch w (ledgerCall debug c).request).1),
    (MemServer.dispatch w (ledgerCall debug c).request).2) = execLedger w c
  cases c <;> simp only [ledgerCall, ofLedger, MemServer.dispatch] <;>
    generalize execLedger w _ = r <;> rcases r with ⟨_ | _, _⟩ <;> rfl

theorem exec_eventLog (c : EventLogCall) (w : World) :
    exec debug (.eventLog c) w = NovaChat.exec (.eventLog c) w := by
  cases c with
  | fenceCheck | insert => rfl
  | readAfter id after limit =>
      simp only [exec, call, eventLogCall, MemServer.dispatch, NovaChat.exec]
      generalize execEventLog w (.readAfter id after limit) = r
      rcases r with ⟨e | events, w'⟩
      · rfl
      · exact congrArg (·, w') (mapM_intoResponseEvent events)
  | _ =>
      simp only [exec, call, eventLogCall, ofEventLog, MemServer.dispatch, NovaChat.exec,
        WireEvent.toAppendEvent, WireEvent.ofAppendEvent]
      generalize execEventLog w _ = r
      rcases r with ⟨_ | _, _⟩ <;> rfl

theorem exec_conversations (c : ConversationCall) (w : World) :
    exec debug (.conversations c) w = NovaChat.exec (.conversations c) w := by
  show ((conversationCall debug c).reply
      (.ok (MemServer.dispatch w (conversationCall debug c).request).1),
    (MemServer.dispatch w (conversationCall debug c).request).2) = execConversations w c
  cases c <;> simp only [conversationCall, ofConversations, MemServer.dispatch] <;>
    generalize execConversations w _ = r <;> rcases r with ⟨_ | _, _⟩ <;> rfl

/-- What a call returns is what the carrier's own port returns. -/
theorem exec_eq : exec debug = NovaChat.exec := by
  funext c w
  cases c with
  | ledger c => exact exec_ledger debug c w
  | eventLog c => exact exec_eventLog debug c w
  | conversations c => exact exec_conversations debug c w
  | nowMs | node | mode => rfl

end MemClient

/-- A job and the node it runs on. -/
structure Placed where
  node : ℕ
  job : Job

/-- The services of the nodes, their calls carried out at the carrier. -/
def deployment (debug : Response → String) : System Call Call.Reply World Placed where
  exec := MemClient.exec debug
  prog p := p.job.prog.handle (Client.carry p.node)

/-- The same services, next to the shared world. -/
def colocated : System Call Call.Reply World Placed where
  exec := exec
  prog p := p.job.prog.handle (Client.carry p.node)

/-- A call crosses the network if it is a request; it fails as a failed transport makes it. -/
def network (debug : Response → String) : Wire Call Call.Reply where
  remote c := (MemClient.call debug c).isSome
  fails c r := ∃ rpc, MemClient.call debug c = some rpc ∧ ∃ e, r = rpc.reply (.error e)

theorem deployment_eq (debug : Response → String) : deployment debug = colocated := by
  rw [deployment, MemClient.exec_eq]
  rfl

/-- What a deployment comes to, seen from the shared world: an atomic execution of the same
services in which calls can fail, and none at all if no node has given up on a call. -/
structure Colocates (debug : Response → String) (w : World)
    (tr : List (Signal Call Call.Reply Placed)) (n : Network Call Call.Reply World Placed)
    (tr' : List (Happening Call Call.Reply Placed)) (q : Pool Call Call.Reply World Placed)
    (lost : ℕ → Option Call) : Prop where
  alike : Alike colocated (network debug) w tr n (fun _ _ ↦ none) tr' q lost
  calm : (∀ s ∈ tr, ¬ s.IsFault) → Run colocated (fun _ _ _ ↦ True) (Pool.init w)
    (tr'.filterMap Happening.event) q
  history : History exec (fun _ _ ↦ True) w (tr.filterMap Signal.done) n.world
  once : (tr.filterMap Signal.parcel).Nodup
  within : ∀ before after i f c r, tr = before ++ .answer i f c r :: after →
    ∃ sent since, before = sent ++ .send i c :: since ∧ .serve f c r ∈ since ∧
      ∀ s ∈ since, ¬ s.By i

/-- Services around a carrier do what they would do next to it: each request is carried out at most
once, between its sending and its answer, and what fails is either not carried out, or carried
out unanswered, or carried out later by itself. Requests and replies are taken to be read back as
they were written; a float in them need not be. -/
theorem deployment_colocates {debug : Response → String} {w : World}
    {tr : List (Signal Call Call.Reply Placed)} {n : Network Call Call.Reply World Placed}
    (h : NetRun (deployment debug) (network debug) w tr n) :
    ∃ tr' q lost, Colocates debug w tr n tr' q lost := by
  rw [deployment_eq] at h
  have hnone : ∀ (i : ℕ) (c : Call) (r : c.Reply),
      (fun _ _ ↦ none : ℕ → (c : Call) → Option c.Reply) i c = some r →
        (network debug).fails c r := fun _ _ _ ↦ nofun
  obtain ⟨tr', q, lost, halike⟩ := h.alike hnone
  exact ⟨tr', q, lost, halike, fun hcalm ↦ (halike.run.run (halike.calm hcalm fun _ _ ↦ rfl)).2,
    h.history, h.once, fun _ _ _ _ _ _ ↦ h.within⟩

/-- A beat is given up on, and arrives all the same. -/
theorem deployment_colocates_timeout : ∃ tr n,
    NetRun (deployment fun _ ↦ "") (network fun _ ↦ "") {} tr n ∧
    (∃ s ∈ tr, s.IsFault) ∧ n.world.store.inner.heartbeats.lookup Sample.agent = some 0 ∧
    ∃ tr' q lost, Colocates (fun _ ↦ "") {} tr n tr' q lost := by
  have hstart := (NetRun.nil : NetRun (deployment fun _ ↦ "") (network fun _ ↦ "") {} [] _).start
    ⟨0, .heartbeat Sample.agent⟩
  have hsend := (hstart.inside (i := 0) rfl rfl).send (i := 0) rfl rfl
  have hlate := (hsend.giveUp (i := 0) (f := 0) rfl ⟨_, rfl, "timeout", rfl⟩).serve (f := 0) rfl
  refine ⟨_, _, hlate, ?_, by decide +kernel, deployment_colocates hlate⟩
  exact ⟨_, List.mem_append_left _ (List.mem_append_right _ (List.mem_singleton_self _)), trivial⟩

end NovaChat
