/-
  One managed language server (lsp.rs).

  * `LspServerSpec` says how to run it, `LspClientState` is its lifecycle;
  * `LspClient` is its state: the requests it has been sent and not answered, the
    notifications held back until it is initialized, its restarts.
-/
import Pmacs.Lsp.Process

namespace Pmacs

open Lib

abbrev LspServerId := ℕ

/-- What to do when the process of a server ends unexpectedly. -/
inductive LspRestartPolicy where
  | never
  | onCrash
  | always
deriving DecidableEq, Repr

def LspRestartPolicy.shouldRestart : LspRestartPolicy → Bool
  | .onCrash | .always => true
  | .never => false

/-- How to run a server. `greeting` is what its `initialize` request carries: its root, its
    options, the capabilities of the editor. -/
structure LspServerSpec where
  label : String
  languageId : String
  greeting : Value
  settings : Option Value
  restart : LspRestartPolicy
  checkSources : List String

/-- The lifecycle of a server. -/
inductive LspClientState where
  | starting
  | initializing (initRequestId started : ℕ)
  | initialized (capabilities : Value) (serverInfo : Option Value) (initializedAt : ℕ)
  | shuttingDown (shutdownRequestId : Option ℕ)
  | stopped (ended : ℕ)
  | crashed (reason : String) (ended : ℕ)

namespace LspClientState

def isReadyForRequest : LspClientState → Bool
  | .initialized .. => true
  | _ => false

def isTerminal : LspClientState → Bool
  | .stopped _ | .crashed .. => true
  | _ => false

def isBeforeHandshake : LspClientState → Bool
  | .starting | .initializing .. => true
  | _ => false

def isShuttingDown : LspClientState → Bool
  | .shuttingDown _ => true
  | _ => false

def stateLabel : LspClientState → String
  | .starting => "starting"
  | .initializing .. => "initializing"
  | .initialized .. => "initialized"
  | .shuttingDown _ => "shutting-down"
  | .stopped _ => "stopped"
  | .crashed .. => "crashed"

end LspClientState

structure LspClient where
  spec : LspServerSpec
  state : LspClientState
  process : Option ProcessId
  nextRequestId : ℕ
  /-- The requests sent and not answered, with their methods. -/
  pending : Assoc ℕ String
  attempt : ℕ
  nextRestartAt : Option ℕ
  /-- The requests that were abandoned, so that a late answer is dropped. -/
  cancelledRids : List ℕ
  deferredNotifications : List (String × Value)
  positionEncoding : PositionEncoding

namespace LspClient

def new (spec : LspServerSpec) : LspClient :=
  ⟨spec, .starting, none, 1, ∅, 0, none, [], [], .utf16⟩

/-- What a server said it can do, once it is initialized. -/
def capabilities (c : LspClient) : Option Value :=
  match c.state with
  | .initialized capabilities _ _ => some capabilities
  | _ => none

def addRequest (c : LspClient) (method : String) : LspClient :=
  { c with
    nextRequestId := c.nextRequestId + 1
    pending := c.pending.insert c.nextRequestId method }

/-- Give up on a request: an answer to it that still comes is dropped. -/
def abandon (c : LspClient) (rid : ℕ) : LspClient :=
  { c with
    pending := c.pending.erase rid
    cancelledRids := if rid ∈ c.cancelledRids then c.cancelledRids else rid :: c.cancelledRids }

/-- A client whose next process is about to be spawned. -/
def renewed (c : LspClient) : LspClient :=
  { c with
    attempt := c.attempt + 1
    nextRestartAt := none
    pending := ∅
    cancelledRids := []
    deferredNotifications := []
    state := .starting }

end LspClient

/-- The encoding a server picked; UTF-16 unless it said otherwise. -/
def PositionEncoding.fromNegotiated : Option String → PositionEncoding
  | some "utf-8" => .utf8
  | _ => .utf16

def wantsIncrementalSync (capabilities : Value) : Bool :=
  match capabilities.get "textDocumentSync" with
  | none => false
  | some sync => sync.asU64 = some 2 || (sync.get "change").bind Value.asU64 = some 2

/-- Whether a server asked for the text of a save; none when it asked for no notice. -/
def saveIncludeText (capabilities : Value) : Option Bool :=
  match (capabilities.get "textDocumentSync").bind (·.get "save") with
  | some (.bool true) => some false
  | some (.object options) =>
    some ((((Value.object options).get "includeText").bind Value.asBool).getD false)
  | _ => none

end Pmacs
