/-
  What the language servers say, and what becomes of it (lsp.rs).

  * `handleResponse` is an answer: to the handshake, to a shutdown, or to a request whose
    answer is absorbed and whose jobs are settled;
  * `drainProcessEvents` handles what was reported of a server's process, one event after
    the other; `tick` does so for every server, sweeps and restarts.
-/
import Pmacs.Lsp.Manager

namespace Pmacs

open Lib

namespace LspManager

/-! ## Answers -/

variable (m : LspManager) (sid : LspServerId)

def pushInitialConfiguration : LspManager :=
  match (m.clients.lookup sid).bind (·.spec.settings) with
  | none => m
  | some settings =>
    m.sendQuietly sid (.notification "workspace/didChangeConfiguration"
      (.object [("settings", settings)]))

/-- The handshake is answered: whatever the answer and the state, the server is
    initialized from now on, and what was held back is sent. -/
def initializeAnswered (result : Option Value) : LspManager :=
  let capabilities := ((result.getD .null).get "capabilities").getD .null
  let serverInfo := (result.getD .null).get "serverInfo"
  let m := m.sendQuietly sid (.notification "initialized" (.object []))
  let m := m.pushInitialConfiguration sid
  let m := m.modifyClient sid fun c => { c with
    positionEncoding :=
      .fromNegotiated ((capabilities.get "positionEncoding").bind Value.asStr)
    state := .initialized capabilities serverInfo m.now }
  (m.flushDeferredNotifications sid).pushEvent sid (.initialized capabilities)

/-- The shutdown is answered: the server is told to exit. -/
def shutdownAnswered : LspManager :=
  let m := m.sendQuietly sid (.notification "exit" .null)
  let m := m.modifyClient sid fun c => { c with state := .shuttingDown none }
  m.pushEvent sid .shuttingDown

/-- What the manager knows of the server that answers about a document. -/
def answerContext (uri : String) : AnswerContext :=
  ⟨toString sid, m.positionEncoding sid, m.documents.lookup (sid, uri)⟩

def absorbAnswer (rid : ℕ) (result : Option Value) (error : Option LspError) : LspManager :=
  match m.pendingRoutes.lookup (sid, rid) with
  | none => m
  | some route =>
    let m := { m with pendingRoutes := m.pendingRoutes.erase (sid, rid) }
    match error, result with
    | none, some value =>
      { m with stores :=
          m.stores.absorbRoutedResponse (m.answerContext sid route.uri) route value }
    | _, _ => m

/-- How an answer settles a job: an error fails it, and no result is null. -/
def answerOutcome (method : String) (result : Option Value) : Option LspError → JobOutcome
  | some e => .failed ("LSP " ++ method ++ " error " ++ toString e.code ++ ": " ++ e.message)
  | none => .complete (result.getD .null)

def settleAnswer (rid : ℕ) (result : Option Value) (error : Option LspError) : LspManager :=
  match m.pendingExternal.lookup (sid, rid) with
  | none => m
  | some p => { m with
      pendingExternal := m.pendingExternal.erase (sid, rid)
      runtime := m.runtime.completeAll
        (p.awaiters.map fun job => (job, answerOutcome p.method result error)) }

def handleAnswer (rid : ℕ) (method : String)
    (result : Option Value) (error : Option LspError) : LspManager :=
  if method = "" then m.pushEvent sid (.protocolError (.unknownRequest rid))
  else if method = "initialize" then m.initializeAnswered sid result
  else if method = "shutdown" then m.shutdownAnswered sid
  else
    ((m.absorbAnswer sid rid result error).settleAnswer sid rid result error).pushEvent sid
      (.response rid (result.getD .null) error method)

/-- An answer; one to an abandoned request is dropped. -/
def handleResponse (id : Value) (result : Option Value) (error : Option LspError) : LspManager :=
  match id.asU64 with
  | none => m.pushEvent sid (.protocolError .responseIdNotU64)
  | some rid =>
    match m.clients.lookup sid with
    | none => m
    | some client =>
      if rid ∈ client.cancelledRids then
        m.modifyClient sid fun c => { c with cancelledRids := c.cancelledRids.filter (· ≠ rid) }
      else
        (m.modifyClient sid fun c => { c with pending := c.pending.erase rid }).handleAnswer sid rid
          ((client.pending.lookup rid).getD "") result error

/-! ## Requests and notifications of a server -/

/-- A request of a server: its configuration is answered, anything else is shown. -/
def handleRequest (id : Value) (method : String) (params : Value) : LspManager :=
  if method = "workspace/configuration" then
    let settings := ((m.clients.lookup sid).bind (·.spec.settings)).getD .null
    let items := ((params.get "items").bind Value.asArray).getD []
    let answers := items.map fun item =>
      resolveConfigSection settings ((item.get "section").bind Value.asStr)
    (m.sendResponse sid id (.ok (.array answers))).2
  else m.pushEvent sid (.request id method params)

/-- Absorb a publish of a server, unless it is about a document that was forgotten. -/
def absorbPublishDiagnostics (m : LspManager) (sid : LspServerId) (params : Value) : LspManager :=
  match (params.get "uri").bind Value.asStr with
  | none => m
  | some uri =>
    if (sid, uri) ∈ m.forgottenDocuments then m
    else
      match (params.get "diagnostics").bind Value.asArray with
      | none => m
      | some published =>
        let ctx : PublishContext :=
          { enc := m.positionEncoding sid
            checkSources := ((m.clients.lookup sid).map (·.spec.checkSources)).getD []
            synced := m.documents.lookup (sid, uri)
            disk := m.diskDocuments.lookup (sid, uri) }
        { m with stores := { m.stores with
            diagnostics := Pmacs.absorbPublishDiagnostics m.stores.tokens ctx m.stores.diagnostics
              uri (published.map LspDiagnostic.ofValue) } }

def handleNotification (method : String) (params : Value) : LspManager :=
  let m := if method = "textDocument/publishDiagnostics" then m.absorbPublishDiagnostics sid params
    else m
  m.pushEvent sid (.notification method params)

def dispatchInbound : Inbound → LspManager
  | .response id result error => m.handleResponse sid id result error
  | .request id method params => m.handleRequest sid id method params
  | .notification method params => m.handleNotification sid method params
  | .malformed => m.pushEvent sid (.protocolError .notAMessage)
  | .frameError =>
    let m := m.pushEvent sid (.protocolError .frameError)
    match (m.clients.lookup sid).bind (·.process) with
    | none => m
    | some pid => { m with supervisor := m.supervisor.terminate pid }

/-! ## Processes -/

/-- The process of a server has started: it is sent the handshake. -/
def onStarted (pid atTime : ℕ) : LspManager :=
  match m.clients.lookup sid with
  | none => m
  | some client =>
    let rid := client.nextRequestId
    let client := { client.addRequest "initialize" with state := .initializing rid atTime }
    let sent := { m with clients := m.clients.insert sid client }.sendFrameTo client
      (.request rid "initialize" client.spec.greeting)
    let m := match sent.1 with
      | .ok () => sent.2
      | .error e => sent.2.pushEvent sid (.protocolError (.initializeNotSent e))
    m.pushEvent sid (.started pid)

/-- The process of a server has ended: as it was asked to, or as a crash that may be
    restarted. Every job parked on the server is cancelled. -/
def onExit (atTime : ℕ) (reason : String) : LspManager :=
  match m.clients.lookup sid with
  | none => m
  | some client =>
    let wasShutdown := client.state.isShuttingDown
    let restart := !wasShutdown && client.spec.restart.shouldRestart
    let client := { client with
      state := if wasShutdown then .stopped atTime else .crashed reason atTime
      process := none
      nextRestartAt := if restart then some (atTime + m.restartBackoff) else client.nextRestartAt }
    let m := { m with
      clients := m.clients.insert sid client
      supervisor := match (m.clients.lookup sid).bind (·.process) with
        | none => m.supervisor
        | some pid => m.supervisor.forget pid }
    let m := (m.drainExternalCancelled sid).dropDocuments sid
    m.pushEvent sid (if wasShutdown then .stopped else .crashed reason)

def handleProcessEvent (ev : ProcessEvent) : LspManager :=
  match ev.kind with
  | .started pid => m.onStarted sid pid ev.atTime
  | .stdout frame => m.dispatchInbound sid frame
  | .stderr => m.pushEvent sid .stderr
  | .exited code => m.onExit sid ev.atTime ("exit code " ++ toString code)
  | .signaled signal => m.onExit sid ev.atTime ("signal " ++ signal)
  | .crashed error => m.onExit sid ev.atTime ("crashed: " ++ error)

def handleNext : LspManager :=
  match ((m.clients.lookup sid).bind (·.process)).bind m.supervisor.takeEvent with
  | none => m
  | some (ev, supervisor) => { m with supervisor }.handleProcessEvent sid ev

/-- Handle events until none is left of those that were reported. -/
def handleEvents (sid : LspServerId) : ℕ → LspManager → LspManager
  | 0, m => m
  | n + 1, m => handleEvents sid n (m.handleNext sid)

/-- How many events were reported of a server's process and not handled. -/
def unreadEvents : ℕ :=
  ((((m.clients.lookup sid).bind (·.process)).bind m.supervisor.processes.lookup).map
    (·.unread.length)).getD 0

/-- Handle what was reported of a server's process. -/
def drainProcessEvents : LspManager :=
  handleEvents sid (m.unreadEvents sid) m

def tick (servers : List LspServerId) : LspManager :=
  servers.foldl (fun m sid =>
    ((m.drainProcessEvents sid).drainCancelledExternals sid).maybeRestart sid) m

end LspManager

end Pmacs
