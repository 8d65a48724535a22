/-
  One managed MCP server (mcp.rs).

  * `McpRestartPolicy` and `shouldRestart` say when a process that ended is started again;
  * `McpClientState` is the lifecycle of a server, `ShutdownEscalation` what is done next to a
    process that is to end and has not;
  * `McpClient` is a server's state: the requests sent to it and not answered, with the jobs that
    await them, and its restarts.
-/
import Pmacs.Mcp.Process
import Pmacs.Lsp.Runtime

namespace Pmacs

open Lib

namespace Mcp

abbrev McpServerId := ℕ

abbrev McpError := LspError

/-! ## Restarts -/

/-- What to do when the process of a server ends. -/
inductive McpRestartPolicy where
  | never
  | onCrash
  | always
deriving DecidableEq, Repr

/-- Whether to respawn after an end. -/
def shouldRestart (policy : McpRestartPolicy) (clean wasShutdown : Bool) : Bool :=
  if wasShutdown then false
  else
    match policy with
    | .never => false
    | .onCrash => !clean
    | .always => true

structure McpServerSpec where
  label : String
  restart : McpRestartPolicy

/-! ## Lifecycle -/

inductive McpClientState where
  | starting
  | initializing (initRequestId started : ℕ)
  | initialized (capabilities : Value) (serverInfo : Option Value)
      (protocolVersion : Option String) (initializedAt : ℕ)
  | shuttingDown
  | stopped (ended : ℕ)
  | crashed (reason : String) (ended : ℕ)

namespace McpClientState

def isInitialized : McpClientState → Bool
  | .initialized .. => true
  | _ => false

def isShuttingDown : McpClientState → Bool
  | .shuttingDown => true
  | _ => false

def isTerminal : McpClientState → Bool
  | .stopped _ | .crashed .. => true
  | _ => false

def isCrashed : McpClientState → Bool
  | .crashed .. => true
  | _ => false

def stateLabel : McpClientState → String
  | .starting => "starting"
  | .initializing .. => "initializing"
  | .initialized .. => "initialized"
  | .shuttingDown => "shutting-down"
  | .stopped _ => "stopped"
  | .crashed .. => "crashed"

end McpClientState

/-- What is done next to a child that has not exited after the end of its stdin. -/
inductive ShutdownEscalation where
  | sigtermAt (time : ℕ)
  | sigkillAt (time : ℕ)
deriving DecidableEq, Repr

/-! ## Requests in flight -/

/-- A request in flight: the slot of the resource cache that it fills, and the jobs that await
    it, each with the token of its job. -/
structure PendingExternal where
  method : String
  cacheKey : Option (McpServerId × String)
  awaiters : List JobId

inductive ResourceCacheState where
  | inFlight (requestId : ℕ)
  | cached (result : Value)

structure McpClient where
  spec : McpServerSpec
  state : McpClientState
  process : Option ProcessId
  /-- The output that completes no line yet. -/
  stdout : Bytes
  nextRequestId : ℕ
  pendingInternal : Assoc ℕ String
  pendingExternal : Assoc ℕ PendingExternal
  attempt : ℕ
  nextRestartAt : Option ℕ
  shutdownEscalation : Option ShutdownEscalation
  /-- The requests that were abandoned, so that a late answer is dropped. -/
  cancelledRids : List ℕ

namespace McpClient

def new (spec : McpServerSpec) : McpClient :=
  ⟨spec, .starting, none, [], 1, ∅, ∅, 0, none, none, []⟩

/-- What a server said it can do, once it is initialized. -/
def capabilities (c : McpClient) : Option Value :=
  match c.state with
  | .initialized capabilities _ _ _ => some capabilities
  | _ => none

/-- A client whose next process is about to be spawned; request ids go on. -/
def renewed (c : McpClient) : McpClient :=
  { c with
    attempt := c.attempt + 1
    nextRestartAt := none
    shutdownEscalation := none
    stdout := []
    pendingInternal := ∅
    pendingExternal := ∅
    cancelledRids := []
    state := .starting }

end McpClient

end Mcp

end Pmacs
