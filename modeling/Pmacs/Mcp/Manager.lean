/-
  The registry of MCP servers (mcp.rs): its state, and what the editor asks of it.

  * `McpManager` is the state; `settleInFlightWith` settles a request and its cache slot;
  * `spawn`, `stop` and `forget` move a server through its lifecycle, `startGeneration` starts a
    process of it;
  * `sendRequest`, `invokeTool`, `getPrompt` and `readResource` send a request that a job awaits;
    only the last one goes through the cache, which `invalidateResource` drops an entry of;
  * `drainCancelledExternals` gives up on the requests that nobody awaits any more.

  Maps are gone through in the order of their entries, where the source has none.
-/
import Pmacs.Mcp.Client

namespace Pmacs

open Lib

namespace Mcp

/-! ## State -/

/-- What a server did wrong. -/
inductive ProtocolViolation where
  | initializeNotSent (reason : String)
  | ansiFromPipe
  | restartedBelow
  | notJson (reason : String)
  | notAnObject
  | unexpectedVersion (version : String)
  | noVersion
  | notAMessage
  | responseIdNotU64 (id : Value)
  | unknownRequest (rid : ℕ)
  | unrecognisedInternal (method : String)
  | refusedInitialize (error : McpError)
  | unsupportedProtocol (reported : String)
  | noCapabilities (observed : String)

/-- What the editor is told about a server. -/
inductive McpEventKind where
  | started (pid : ℕ)
  | initialized (capabilities : Value)
  | notification (method : String) (params : Value)
  | request (id : Value) (method : String) (params : Value)
  | response (id : ℕ) (result : Value) (error : Option McpError) (method : String)
  | stopped
  | crashed (reason : String)
  | restarting (attempt : ℕ)
  | stderr (bytes : Bytes)
  | protocolError (violation : ProtocolViolation)

structure McpManager where
  /-- How JSON is read. -/
  parse : Bytes → Except String Value
  supervisor : ProcessSupervisor
  runtime : AsyncRuntime
  clients : Assoc McpServerId McpClient
  /-- The events not taken yet. -/
  pending : List (McpServerId × McpEventKind)
  restartBackoff : ℕ
  shutdownGrace : ℕ
  resourceCache : Assoc (McpServerId × String) ResourceCacheState
  notificationSubscriptions : List String
  notificationQueue : List (String × McpServerId × Value)
  /-- `Instant::now`. -/
  now : ℕ
  nextServerId : McpServerId

namespace McpManager

/-- A manager that has no server, with times in milliseconds. -/
def new (parse : Bytes → Except String Value) : McpManager :=
  { parse, supervisor := .new, runtime := .new, clients := ∅, pending := [], restartBackoff := 500
    shutdownGrace := 1000, resourceCache := ∅, notificationSubscriptions := []
    notificationQueue := [], now := 0, nextServerId := 1 }

variable (m : McpManager) (sid : McpServerId)

def pushEvent (kind : McpEventKind) : McpManager :=
  { m with pending := m.pending ++ [(sid, kind)] }

variable (client : McpClient)

def setClient : McpManager :=
  { m with clients := m.clients.insert sid client }

def modifyClient (f : McpClient → McpClient) : McpManager :=
  match m.clients.lookup sid with
  | none => m
  | some client => m.setClient sid (f client)

def unknownServer : String := s!"unknown server: McpServerId({sid})"

def notReady (state : McpClientState) : String :=
  s!"server McpServerId({sid}) is not ready for requests (state: " ++ state.stateLabel ++ ")"

/-! ## Sending -/

def sendFrameTo (supervisor : ProcessSupervisor) (client : McpClient) (frame : Frame) :
    Except String Unit × ProcessSupervisor :=
  match client.process with
  | none => (.error "server has no live process", supervisor)
  | some pid => supervisor.writeStdin pid frame

def send (frame : Frame) : Except String Unit × McpManager :=
  let sent := sendFrameTo m.supervisor client frame
  (sent.1, { m with supervisor := sent.2 })

/-- Write a frame to a server, whether or not its process takes it. -/
def sendQuietly (frame : Frame) : McpManager :=
  match m.clients.lookup sid with
  | none => m
  | some client => (m.send client frame).2

def sendNotification (method : String) (params : Value) : Except String Unit × McpManager :=
  match m.clients.lookup sid with
  | none => (.error (unknownServer sid), m)
  | some client =>
    if client.state.isTerminal then
      (.error (s!"server McpServerId({sid}) is not running (state: " ++ client.state.stateLabel ++
        ")"), m)
    else m.send client (.notification method params)

def sendResponse (id : Value) (result : Except McpError Value) : Except String Unit × McpManager :=
  match m.clients.lookup sid with
  | none => (.error (unknownServer sid), m)
  | some client => m.send client (.response id result)

/-! ## Settling -/

/-- How an awaiter is settled: one whose token is flipped is cancelled, whatever the outcome. -/
def awaiterOutcome (rt : AsyncRuntime) (outcome : JobOutcome) (job : JobId) : JobOutcome :=
  if rt.isCancelled job then .cancelled else outcome

def inFlightFor (cache : Assoc (McpServerId × String) ResourceCacheState)
    (key : McpServerId × String) (rid : ℕ) : Bool :=
  match cache.lookup key with
  | some (.inFlight requestId) => decide (requestId = rid)
  | _ => false

/-- The cache after a request is settled: only a success for which the cache waits is kept. -/
def settleCache (cache : Assoc (McpServerId × String) ResourceCacheState)
    (key : McpServerId × String) (rid : ℕ) (outcome : JobOutcome) :
    Assoc (McpServerId × String) ResourceCacheState :=
  if inFlightFor cache key rid then
    match outcome with
    | .complete value => cache.insert key (.cached value)
    | .failed _ | .cancelled => cache.erase key
  else cache

/-- Settle a request that is no longer in flight: its awaiters, and its cache slot. -/
def settleInFlightWith (cacheKey : Option (McpServerId × String)) (rid : ℕ)
    (awaiters : List JobId) (outcome : JobOutcome) : McpManager :=
  let m := { m with runtime :=
    m.runtime.completeAll (awaiters.map fun job => (job, awaiterOutcome m.runtime outcome job)) }
  match cacheKey with
  | none => m
  | some key => { m with resourceCache := settleCache m.resourceCache key rid outcome }

def cancelDrained (drained : Assoc ℕ PendingExternal) : McpManager :=
  drained.entries.foldl
    (fun m e => m.settleInFlightWith e.2.cacheKey e.1 e.2.awaiters .cancelled) m

def dropResourceCacheFor : McpManager :=
  { m with resourceCache := Assoc.retain (fun key _ => decide (key.1 ≠ sid)) m.resourceCache }

/-! ## Lifecycle -/

/-- Start a process of a client that is not in the registry now. What was in flight is
    cancelled, whether or not the process is spawned. -/
def startGeneration : Except String McpClient × McpManager :=
  let m := (m.cancelDrained client.pendingExternal).dropResourceCacheFor sid
  let spawned := m.supervisor.spawn
  let m := { m with supervisor := spawned.2 }
  match spawned.1 with
  | .error e => (.error e, m)
  | .ok pid => (.ok { client.renewed with process := some pid }, m)

def spawn (spec : McpServerSpec) : Except String McpServerId × McpManager :=
  let sid := m.nextServerId
  let started := { m with nextServerId := m.nextServerId + 1 }.startGeneration sid (.new spec)
  match started.1 with
  | .error e => (.error e, started.2)
  | .ok client => (.ok sid, started.2.setClient sid client)

/-- Initiate a shutdown: the child's stdin is closed, and what is done next is armed. -/
def stop : Except String Unit × McpManager :=
  match m.clients.lookup sid with
  | none => (.error (unknownServer sid), m)
  | some client =>
    let client := { client with
      spec := { client.spec with restart := .never }, nextRestartAt := none }
    if client.state.isTerminal || client.state.isShuttingDown then
      (.ok (), m.setClient sid client)
    else
      (.ok (), { m.setClient sid { client with
          state := .shuttingDown
          shutdownEscalation := some (.sigtermAt (m.now + m.shutdownGrace)) } with
        supervisor := match client.process with
          | none => m.supervisor
          | some pid => m.supervisor.closeStdin pid })

def forget : Except String Unit × McpManager :=
  match m.clients.lookup sid with
  | none => (.error (unknownServer sid), m)
  | some client =>
    if client.state.isTerminal then
      (.ok (), { m with
        clients := m.clients.erase sid
        pending := m.pending.filter (·.1 ≠ sid) }.dropResourceCacheFor sid)
    else (.error s!"server McpServerId({sid}) is not in a terminal state", m)

/-- What is done to a server that is to end and has not: SIGTERM, then SIGKILL. -/
def maybeTerminateShuttingDown : McpManager :=
  match m.clients.lookup sid with
  | none => m
  | some client =>
    if client.state.isShuttingDown then
      match client.shutdownEscalation with
      | some (.sigtermAt time) =>
        if time ≤ m.now then
          { m.setClient sid { client with
              shutdownEscalation := some (.sigkillAt (m.now + m.shutdownGrace)) } with
            supervisor := match client.process with
              | none => m.supervisor
              | some pid => m.supervisor.terminate pid }
        else m
      | some (.sigkillAt time) =>
        if time ≤ m.now then
          { m.setClient sid { client with shutdownEscalation := none } with
            supervisor := match client.process with
              | none => m.supervisor
              | some pid => m.supervisor.kill pid }
        else m
      | none => m
    else m

def restartDue : Bool :=
  client.state.isCrashed && match client.nextRestartAt with
    | some time => decide (time ≤ m.now)
    | none => false

/-- What becomes of a server whose process was to be spawned again. -/
def respawned :
    Except String McpClient → McpManager
  | .ok client => m.setClient sid client
  | .error e =>
    (m.setClient sid { client.renewed with
      state := .crashed ("respawn failed: " ++ e) m.now
      nextRestartAt := if shouldRestart client.spec.restart false false then
        some (m.now + m.restartBackoff) else none }).pushEvent sid (.crashed ("respawn failed: " ++ e))

/-- Restart a server that crashed and whose back-off is over. -/
def maybeRestart : McpManager :=
  match m.clients.lookup sid with
  | none => m
  | some client =>
    if m.restartDue client then
      let m := m.pushEvent sid (.restarting (client.attempt + 1))
      let started := { m with clients := m.clients.erase sid }.startGeneration sid client
      started.2.respawned sid client started.1
    else m

/-! ## Requests that a job awaits -/

/-- Send a request to a client that a fresh job awaits, rolled back where it is not written. -/
def dispatch (asker method : String) (params : Value) (cacheKey : Option (McpServerId × String)) :
    Except String JobId × McpManager :=
  let rid := client.nextRequestId
  let registered := m.runtime.registerExternal none
  let parked := { client with
    nextRequestId := rid + 1
    pendingExternal := client.pendingExternal.insert rid ⟨method, cacheKey, [registered.1]⟩ }
  let sent := sendFrameTo m.supervisor parked (.request rid method params)
  match sent.1 with
  | .ok () =>
    (.ok registered.1, { m.setClient sid parked with supervisor := sent.2, runtime := registered.2 })
  | .error e =>
    (.error e, { m.setClient sid
        { parked with pendingExternal := parked.pendingExternal.erase rid } with
      supervisor := sent.2
      runtime := registered.2.completeExternal registered.1 (.failed (asker ++ ": " ++ e)) })

/-- Send a request to a server that is initialized. -/
def dispatchReady (asker method : String) (params : Value) : Except String JobId × McpManager :=
  match m.clients.lookup sid with
  | none => (.error (unknownServer sid), m)
  | some client =>
    if client.state.isInitialized then m.dispatch sid client asker method params none
    else (.error (notReady sid client.state), m)

def sendRequest (method : String) (params : Value) : Except String JobId × McpManager :=
  m.dispatchReady sid "send_request" method params

def invokeTool (name : String) (arguments : Value) : Except String JobId × McpManager :=
  m.dispatchReady sid "invoke_tool" "tools/call"
    (.object [("name", .string name), ("arguments", arguments)])

def getPrompt (name : String) (arguments : Value) : Except String JobId × McpManager :=
  m.dispatchReady sid "get_prompt" "prompts/get"
    (.object [("name", .string name), ("arguments", arguments)])

/-- Ask a client for a resource, and have the cache wait for it. -/
def dispatchRead (uri : String) : Except String JobId × McpManager :=
  let sent := m.dispatch sid client "read_resource" "resources/read"
    (.object [("uri", .string uri)]) (some (sid, uri))
  match sent.1 with
  | .error e => (.error e, sent.2)
  | .ok job => (.ok job, { sent.2 with
      resourceCache := sent.2.resourceCache.insert (sid, uri) (.inFlight client.nextRequestId) })

/-- Read a resource: from the cache, with a request in flight, or with a fresh one. -/
def readResource (uri : String) : Except String JobId × McpManager :=
  match m.clients.lookup sid with
  | none => (.error (unknownServer sid), m)
  | some client =>
    if client.state.isInitialized then
      match m.resourceCache.lookup (sid, uri) with
      | some (.cached result) =>
        let registered := m.runtime.registerExternal none
        (.ok registered.1, { m with
          runtime := registered.2.completeExternal registered.1 (.complete result) })
      | some (.inFlight rid) =>
        let registered := m.runtime.registerExternal none
        match client.pendingExternal.lookup rid with
        | some p =>
          let p := { p with awaiters := p.awaiters ++ [registered.1] }
          (.ok registered.1, { m.setClient sid
              { client with pendingExternal := client.pendingExternal.insert rid p } with
            runtime := registered.2 })
        | none =>
          { m with
            resourceCache := m.resourceCache.erase (sid, uri)
            runtime := registered.2.completeExternal registered.1 .cancelled }.dispatchRead sid
              client uri
      | none => m.dispatchRead sid client uri
    else (.error (notReady sid client.state), m)

/-- Drop a cache entry; a request in flight for it goes on. -/
def invalidateResource (uri : String) : McpManager :=
  { m with resourceCache := m.resourceCache.erase (sid, uri) }

/-! ## Abandoned requests -/

/-- Tell a server that a request is not awaited any more, if it still listens. -/
def sendCancellationNotification (rid : ℕ) : McpManager :=
  match m.clients.lookup sid with
  | none => m
  | some client =>
    if client.state.isTerminal || client.state.isShuttingDown then m
    else (m.send client (.notification "notifications/cancelled"
      (.object [("requestId", .nat rid), ("reason", .string "cancelled by pmacs handle")]))).2

/-- Give up on a request that nobody awaits any more. -/
def recordAbandoned (rid : ℕ) : McpManager :=
  (m.sendCancellationNotification sid rid).modifyClient sid fun c => { c with
    cancelledRids := if rid ∈ c.cancelledRids then c.cancelledRids else rid :: c.cancelledRids }

def cancelledAwaiters (rt : AsyncRuntime) (p : PendingExternal) : List JobId :=
  p.awaiters.filter rt.isCancelled

/-- A request without the jobs whose tokens are flipped. -/
def stillPending (rt : AsyncRuntime) (p : PendingExternal) : PendingExternal :=
  { p with awaiters := p.awaiters.filter fun job => !rt.isCancelled job }

/-- Settle the jobs of a server whose tokens are flipped, and give up on the requests that
    nobody awaits any more. -/
def drainCancelledExternals : McpManager :=
  match m.clients.lookup sid with
  | none => m
  | some client =>
    let swept := Assoc.mapVal (fun _ p => stillPending m.runtime p) client.pendingExternal
    let abandoned := swept.entries.filter fun e => e.2.awaiters.isEmpty
    let gone := client.pendingExternal.entries.flatMap fun e => cancelledAwaiters m.runtime e.2
    let m := { m.setClient sid { client with
        pendingExternal := Assoc.retain (fun _ p => !p.awaiters.isEmpty) swept } with
      runtime := m.runtime.completeAll (gone.map fun job => (job, .cancelled)) }
    let m := abandoned.foldl (fun m e => m.recordAbandoned sid e.1) m
    abandoned.foldl (fun m e => m.settleInFlightWith e.2.cacheKey e.1 [] .cancelled) m

end McpManager

end Mcp

end Pmacs
