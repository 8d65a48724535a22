/-
  What the MCP servers say, and what becomes of it (mcp.rs).

  * `handleResponse` is an answer: to the handshake, to a request whose jobs are settled, or to
    one that was abandoned;
  * `drainProcessEvents` handles what was reported of a server's process, one event after the
    other; `tick` does so for every server, gives up on requests, ends and restarts processes.
-/
import Pmacs.Mcp.Manager

namespace Pmacs

open Lib

namespace Mcp

namespace McpManager

/-! ## Answers -/

def preferredProtocolVersion : String := "2025-11-25"

def supportedProtocolVersions : List String := ["2025-11-25", "2024-11-05"]

variable (m : McpManager) (sid : McpServerId)

/-- Ask for the end of a server's process; the end is reported later. -/
def terminateAfterProtocolError : McpManager :=
  match (m.clients.lookup sid).bind (·.process) with
  | none => m
  | some pid => { m with supervisor := m.supervisor.terminate pid }

def kindName : Option Value → String
  | none => "<missing>"
  | some .null => "null"
  | some (.bool _) => "boolean"
  | some (.int _) | some (.float _) => "number"
  | some (.string _) => "string"
  | some (.array _) => "array"
  | some (.object _) => "object"

/-- Why an answer to the handshake is refused; its capabilities where it is accepted. -/
def readInitializeAnswer (result : Option Value) (error : Option McpError) :
    Except ProtocolViolation Value :=
  match error with
  | some e => .error (.refusedInitialize e)
  | none =>
    let answer := result.getD .null
    let version := (answer.get "protocolVersion").bind Value.asStr
    if version.any (· ∈ supportedProtocolVersions) then
      match answer.get "capabilities" with
      | some (.object fields) => .ok (.object fields)
      | other => .error (.noCapabilities (kindName other))
    else .error (.unsupportedProtocol (version.getD "<missing>"))

/-- The answer to the handshake. Whatever the state, an accepted one leads to `Initialized`, and
    one that is not to the end of the process. -/
def handleInitializeResponse (result : Option Value) (error : Option McpError) : McpManager :=
  match readInitializeAnswer result error with
  | .error violation => (m.pushEvent sid (.protocolError violation)).terminateAfterProtocolError sid
  | .ok capabilities =>
    let answer := result.getD .null
    let m := m.sendQuietly sid (.notification "notifications/initialized" (.object []))
    let m := m.modifyClient sid fun c => { c with
      state := .initialized capabilities (answer.get "serverInfo")
        ((answer.get "protocolVersion").bind Value.asStr) m.now }
    m.pushEvent sid (.initialized capabilities)

def toolErrorPart (part : Value) : String :=
  if (part.get "type").bind Value.asStr = some "text" then
    ((part.get "text").bind Value.asStr).getD ""
  else "[non-text content omitted]"

def extractToolErrorMessage (result : Value) : String :=
  match (result.get "content").bind Value.asArray with
  | none => "tool errored (no content provided)"
  | some [] => "tool errored (empty content)"
  | some parts => "\n".intercalate (parts.map toolErrorPart)

/-- How an answer settles a request: an error fails it, and so does a failed tool. -/
def answerOutcome (method : String) (result : Option Value) : Option McpError → JobOutcome
  | some e => .failed ("[" ++ toString e.code ++ "] " ++ e.message)
  | none =>
    match result with
    | none => .complete .null
    | some value =>
      if method = "tools/call" ∧ (value.get "isError").bind Value.asBool = some true then
        .failed (extractToolErrorMessage value)
      else .complete value

/-- An answer to a request id: to one of the manager, to one that jobs await, or to one that was
    abandoned, which is dropped. -/
def answerRequest (client : McpClient) (rid : ℕ)
    (result : Option Value) (error : Option McpError) : McpManager :=
  match client.pendingInternal.lookup rid with
  | some method =>
    let m := m.setClient sid { client with pendingInternal := client.pendingInternal.erase rid }
    if method = "initialize" then m.handleInitializeResponse sid result error
    else m.pushEvent sid (.protocolError (.unrecognisedInternal method))
  | none =>
    match client.pendingExternal.lookup rid with
    | some p =>
      let m := m.setClient sid { client with pendingExternal := client.pendingExternal.erase rid }
      (m.settleInFlightWith p.cacheKey rid p.awaiters
        (answerOutcome p.method result error)).pushEvent sid
          (.response rid (result.getD .null) error p.method)
    | none =>
      if rid ∈ client.cancelledRids then
        m.setClient sid { client with cancelledRids := client.cancelledRids.filter (· ≠ rid) }
      else m.pushEvent sid (.protocolError (.unknownRequest rid))

def handleResponse (id : Value) (result : Option Value) (error : Option McpError) : McpManager :=
  match id.asU64 with
  | none => m.pushEvent sid (.protocolError (.responseIdNotU64 id))
  | some rid =>
    match m.clients.lookup sid with
    | none => m
    | some client => m.answerRequest sid client rid result error

/-! ## Messages -/

def handleNotification (method : String) (params : Value) : McpManager :=
  { m with notificationQueue :=
    if method ∈ m.notificationSubscriptions then m.notificationQueue ++ [(method, sid, params)]
    else m.notificationQueue }.pushEvent sid (.notification method params)

/-- Report a message of another version; it is read all the same. -/
def checkVersion (body : Value) : McpManager :=
  match (body.get "jsonrpc").bind Value.asStr with
  | none => m.pushEvent sid (.protocolError .noVersion)
  | some version =>
    if version = "2.0" then m
    else m.pushEvent sid (.protocolError (.unexpectedVersion version))

def handleInbound : Inbound → McpManager
  | .response id result error => m.handleResponse sid id result error
  | .request id method params => m.pushEvent sid (.request id method params)
  | .notification method params => m.handleNotification sid method params
  | .malformed | .frameError => m.pushEvent sid (.protocolError .notAMessage)

def dispatchInbound (body : Bytes) : McpManager :=
  match m.parse body with
  | .error e => m.pushEvent sid (.protocolError (.notJson e))
  | .ok (.object fields) =>
    (m.checkVersion sid (.object fields)).handleInbound sid (.ofValue (some (.object fields)))
  | .ok _ => m.pushEvent sid (.protocolError .notAnObject)

/-- Output of a server: the lines that it completes are read one after the other. -/
def onStdout (bytes : Bytes) : McpManager :=
  match m.clients.lookup sid with
  | none => m
  | some client =>
    let drained := drainFrames (client.stdout ++ bytes)
    drained.1.foldl (fun m body => m.dispatchInbound sid body)
      (m.setClient sid { client with stdout := drained.2 })

/-! ## Processes -/

def greeting : Value :=
  .object [("protocolVersion", .string preferredProtocolVersion), ("capabilities", .object []),
    ("clientInfo", .object [("name", .string "pmacs"), ("version", .string "2.0.0")])]

/-- The process of a server has started: it is sent the handshake. -/
def onStarted (pid atTime : ℕ) : McpManager :=
  match m.clients.lookup sid with
  | none => m
  | some client =>
    let rid := client.nextRequestId
    let client := { client with
      nextRequestId := rid + 1
      state := .initializing rid atTime
      pendingInternal := client.pendingInternal.insert rid "initialize" }
    let sent := (m.setClient sid client).send client (.request rid "initialize" greeting)
    let m := match sent.1 with
      | .ok () => sent.2
      | .error e => sent.2.pushEvent sid (.protocolError (.initializeNotSent e))
    m.pushEvent sid (.started pid)

/-- The process of a server has ended: as it was asked to, by itself, or as a crash. Every job
    parked on the server is cancelled, and its cache is dropped. -/
def onExit (atTime : ℕ) (reason : String) (clean : Bool) : McpManager :=
  match m.clients.lookup sid with
  | none => m
  | some client =>
    let wasShutdown := client.state.isShuttingDown
    let stopped := wasShutdown || clean
    let restart := shouldRestart client.spec.restart clean wasShutdown
    let ended := { client with
      state := if stopped then .stopped atTime else .crashed reason atTime
      process := none
      pendingExternal := ∅
      pendingInternal := ∅
      cancelledRids := []
      nextRestartAt := if restart then some (atTime + m.restartBackoff) else client.nextRestartAt }
    let m := { m.setClient sid ended with
      supervisor := match client.process with
        | none => m.supervisor
        | some pid => m.supervisor.forget pid }
    ((m.cancelDrained client.pendingExternal).dropResourceCacheFor sid).pushEvent sid
      (if stopped then .stopped else .crashed reason)

def handleProcessEvent (ev : ProcessEvent) : McpManager :=
  match ev.kind with
  | .started pid => m.onStarted sid pid ev.atTime
  | .stdout bytes => m.onStdout sid bytes
  | .stderr bytes => m.pushEvent sid (.stderr bytes)
  | .ansi => m.pushEvent sid (.protocolError .ansiFromPipe)
  | .exited code => m.onExit sid ev.atTime ("exit code " ++ toString code) (decide (code = 0))
  | .signaled signal => m.onExit sid ev.atTime ("signal " ++ signal) false
  | .crashed error => m.onExit sid ev.atTime ("crashed: " ++ error) false
  | .restarting => m.pushEvent sid (.protocolError .restartedBelow)

def nextEvent : Option (ProcessEvent × ProcessSupervisor) :=
  ((m.clients.lookup sid).bind (·.process)).bind m.supervisor.takeEvent

def handleNext : McpManager :=
  match m.nextEvent sid with
  | none => m
  | some (ev, supervisor) => { m with supervisor }.handleProcessEvent sid ev

/-- Handle events until none is left of those that were reported. -/
def handleEvents (sid : McpServerId) : ℕ → McpManager → McpManager
  | 0, m => m
  | n + 1, m => handleEvents sid n (m.handleNext sid)

/-- How many events were reported of a server's process and not handled. -/
def unreadEvents : ℕ :=
  ((((m.clients.lookup sid).bind (·.process)).bind m.supervisor.processes.lookup).map
    (·.unread.length)).getD 0

/-- Handle what was reported of a server's process. -/
def drainProcessEvents : McpManager :=
  handleEvents sid (m.unreadEvents sid) m

def tick (servers : List McpServerId) : McpManager :=
  servers.foldl (fun m sid =>
    (((m.drainProcessEvents sid).drainCancelledExternals sid).maybeTerminateShuttingDown
      sid).maybeRestart sid) m

end McpManager

end Mcp

end Pmacs
