import NovaChat.Client
import NovaChat.Gateway
import NovaChat.Interact.Pool
import NovaChat.Runtime.Runtime
import NovaChat.World

/-!
# The system

The operations that run side by side, each with the inputs it is started with, as jobs of one
pool over the world.  Ids a service mints are inputs of the job, and a run says that they are
fresh.
-/

namespace NovaChat

open Interact

inductive Job
  | create (cfg : Config) (rounds : ℕ) (tenant : TenantId) (spec : TurnSpec)
      (idempotencyKey : Option IdempotencyKey) (uuid : Uuid)
  | execute (rt : AgentRuntime) (rounds : ℕ) (agent : AgentId)
  | heartbeat (agent : AgentId)
  | cancel (cfg : Config) (rounds : ℕ) (tenant : TenantId) (id : ResponseId)
  | tick (cfg : Config) (rounds : ℕ)
  | delete (tenant : TenantId) (id : ResponseId)
  | stream (rounds : ℕ) (id : ResponseId) (cursor : Option ℕ) (tenant : TenantId)
  | purge (tenant : TenantId)
  | createConversation (uuid : Uuid) (tenant : TenantId) (metadata : Metadata)
  | mode (c : ModeCall)

namespace Job

/-- Run a program for its calls only. -/
def forget {α : Type} (p : Service α) : Service Unit := p >>= fun _ ↦ .ret ()

def prog : Job → Service Unit
  | create cfg rounds tenant spec key uuid =>
    forget (ResponsesService.create cfg rounds tenant spec key uuid)
  | execute rt rounds agent => nowMs >>= fun now ↦ forget (rt.runOnce rounds agent now)
  | heartbeat agent => NovaChat.heartbeat agent
  | cancel cfg rounds tenant id => forget (ResponsesService.cancel cfg rounds tenant id)
  | tick cfg rounds => NovaChat.tick cfg rounds
  | delete tenant id => forget (ResponsesService.delete tenant id)
  | stream rounds id cursor tenant => forget (Gateway.streamImpl rounds id cursor tenant)
  | purge tenant => forget (Gateway.purgeTenant tenant)
  | createConversation uuid tenant metadata =>
    forget (ConversationsService.create uuid tenant metadata)
  | mode c => Prog.perform (Call.mode c)

/-- The response id a job mints. -/
def mints : Job → Option ResponseId
  | create cfg _ _ _ _ uuid => some ⟨cfg.nodeTag, uuid⟩
  | _ => none

end Job

/-- Every port call is one atomic step. -/
def system : System Call Call.Reply World Job where
  exec := exec
  prog := Job.prog

abbrev Trace := List (Event Call Call.Reply Job)

abbrev State := Pool Call Call.Reply World Job

/-- The response ids minted by the jobs started so far. -/
def minted (tr : Trace) : List ResponseId :=
  tr.filterMap fun
    | .start j => j.mints
    | .call .. => none

@[simp] theorem minted_nil : minted [] = [] := rfl

@[simp] theorem minted_start (tr : Trace) (j : Job) :
    minted (tr ++ [.start j]) = minted tr ++ j.mints.toList := by
  cases h : j.mints <;> simp [minted, h]

@[simp] theorem minted_call (tr : Trace) (i : ℕ) (c : Call) (r : c.Reply) :
    minted (tr ++ [.call i c r]) = minted tr := by
  simp [minted]

/-! ## A sample -/

namespace Sample

def tenant : TenantId := ⟨"tenant-a", by decide⟩

def cfg : Config := { nodeTag := ⟨"node-1", by decide⟩ }

def talk : ConversationId := ⟨⟨0⟩⟩

def spec : TurnSpec where
  params := { model := "model" }
  inputItems := [.message .user [.inputText "hello"] none none]
  store := true
  anchor := .conversation talk

/-- The sample turn outside conversations. -/
def rootSpec : TurnSpec := { spec with anchor := .root }

/-- The id minted from `n` on the sample node. -/
def id (n : BitVec 128) : ResponseId := ⟨cfg.nodeTag, ⟨n⟩⟩

/-- A world whose only content is one conversation. -/
def world : World :=
  { store := (MemConversationStore.create {} (.new talk tenant [] 0)).2 }

/-- Start a turn of the sample conversation. -/
def post (n : BitVec 128) : Action Job := .start (.create cfg 4 tenant spec none ⟨n⟩)

/-- A runtime whose runner answers at once. -/
def runtime : AgentRuntime where
  runner _ := .ret (.ok ⟨[.message .assistant [.outputText "hi"] none none], {}, .completed⟩)

def agent : AgentId := ⟨⟨0⟩⟩

def work : Action Job := .start (.execute runtime 4 agent)

/-- Let one process make several calls. -/
def steps (pid n : ℕ) : List (Action Job) := List.replicate n (.turn pid)

end Sample

end NovaChat
