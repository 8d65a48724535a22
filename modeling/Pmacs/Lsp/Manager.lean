/-
  The registry of language servers (lsp.rs): its state, and what the editor asks of it.

  * `LspManager` is the state; `sendRequest`, `sendNotification` and `sendResponse` send;
  * `spawn`, `stop` and `forget` move a server through its lifecycle, `startGeneration`
    starts a process of it;
  * `request` sends a request that a job awaits, `LspRequest.ask` what each of the typed
    requests sends and where its answer goes;
  * `abandonRequest`, `drainExternalCancelled` and `drainCancelledExternals` give up on
    requests, `forgetUri` on a document.

  Maps are gone through in the order of their entries, where the source has none.
-/
import Pmacs.Lsp.Client
import Pmacs.Lsp.Routes
import Pmacs.Lsp.Runtime

namespace Pmacs

open Lib

/-! ## State -/

/-- A request in flight and the jobs parked on it, each with the token of its job. -/
structure PendingExternal where
  method : String
  awaiters : List JobId
  dispatchedAt : ℕ

/-- What a server did wrong. -/
inductive ProtocolViolation where
  | initializeNotSent (reason : String)
  | frameError
  | notAMessage
  | responseIdNotU64
  | unknownRequest (rid : ℕ)

/-- What the editor is told about a server. -/
inductive LspEventKind where
  | started (pid : ℕ)
  | initialized (capabilities : Value)
  | notification (method : String) (params : Value)
  | request (id : Value) (method : String) (params : Value)
  | response (id : ℕ) (result : Value) (error : Option LspError) (method : String)
  | shuttingDown
  | stopped
  | crashed (reason : String)
  | restarting (attempt : ℕ)
  | stderr
  | protocolError (violation : ProtocolViolation)

structure LspManager where
  supervisor : ProcessSupervisor
  runtime : AsyncRuntime
  clients : Assoc LspServerId LspClient
  /-- The events not taken yet. -/
  events : List (LspServerId × LspEventKind)
  pendingRoutes : Assoc (LspServerId × ℕ) ResponseRoute
  pendingExternal : Assoc (LspServerId × ℕ) PendingExternal
  /-- The text a server holds of a document. -/
  documents : Assoc (LspServerId × String) (List Char)
  /-- The text on disk, with its edit number. -/
  diskDocuments : Assoc (LspServerId × String) (List Char × ℕ)
  forgottenDocuments : List (LspServerId × String)
  stores : ResultStores
  restartBackoff : ℕ
  requestTimeout : ℕ
  /-- `Instant::now`. -/
  now : ℕ
  nextServerId : LspServerId

variable (m : LspManager) (sid : LspServerId)

namespace LspManager

scoped instance : LawfulBEq (LspServerId × String) := inferInstance

/-- A manager that has no server, with times in milliseconds. -/
def new (readsEmpty : ResultFamily → Value → Bool) : LspManager :=
  { supervisor := .new, runtime := .new, clients := ∅, events := [], pendingRoutes := ∅
    pendingExternal := ∅, documents := ∅, diskDocuments := ∅, forgottenDocuments := []
    stores := .new readsEmpty, restartBackoff := 500, requestTimeout := 10000, now := 0
    nextServerId := 1 }

def pushEvent (kind : LspEventKind) : LspManager :=
  { m with events := m.events ++ [(sid, kind)] }

def modifyClient (f : LspClient → LspClient) : LspManager :=
  match m.clients.lookup sid with
  | none => m
  | some client => { m with clients := m.clients.insert sid (f client) }

def unknownServer : String := s!"unknown server: LspServerId({sid})"

/-! ## Sending -/

def sendFrameTo (client : LspClient) (frame : Frame) : Except String Unit × LspManager :=
  match client.process with
  | none => (.error "server has no live process", m)
  | some pid =>
    let sent := m.supervisor.writeStdin pid frame
    (sent.1, { m with supervisor := sent.2 })

/-- Write a frame to a server, whether or not its process takes it. -/
def sendQuietly (frame : Frame) : LspManager :=
  match m.clients.lookup sid with
  | none => m
  | some client => (m.sendFrameTo client frame).2

/-- Send a request; its id is pending also when the process does not take it. -/
def sendRequest (method : String) (params : Value) : Except String ℕ × LspManager :=
  match m.clients.lookup sid with
  | none => (.error (unknownServer sid), m)
  | some client =>
    if client.state.isReadyForRequest then
      let rid := client.nextRequestId
      let client := client.addRequest method
      let sent := { m with clients := m.clients.insert sid client }.sendFrameTo client
        (.request rid method params)
      (sent.1.map fun _ => rid, sent.2)
    else
      let label := client.state.stateLabel
      (.error s!"server LspServerId({sid}) is not ready for requests (state: {label})", m)

/-- Send a notification; before the handshake it is held back. -/
def sendNotification (method : String) (params : Value) : Except String Unit × LspManager :=
  match m.clients.lookup sid with
  | none => (.error (unknownServer sid), m)
  | some client =>
    if client.state.isTerminal then
      let label := client.state.stateLabel
      (.error s!"server LspServerId({sid}) is not running (state: {label})", m)
    else if client.state.isBeforeHandshake then
      (.ok (), m.modifyClient sid fun c =>
        { c with deferredNotifications := c.deferredNotifications ++ [(method, params)] })
    else m.sendFrameTo client (.notification method params)

def sendResponse (id : Value) (result : Except LspError Value) : Except String Unit × LspManager :=
  match m.clients.lookup sid with
  | none => (.error (unknownServer sid), m)
  | some client => m.sendFrameTo client (.response id result)

/-- Send what was held back, in the order it was issued. -/
def flushDeferredNotifications : LspManager :=
  match m.clients.lookup sid with
  | none => m
  | some client =>
    let m := m.modifyClient sid fun c => { c with deferredNotifications := [] }
    client.deferredNotifications.foldl (fun m n => m.sendQuietly sid (.notification n.1 n.2)) m

/-! ## Giving up on requests -/

def requestsOf : List (ℕ × PendingExternal) :=
  (m.pendingExternal.entries.filter fun e => e.1.1 = sid).map fun e => (e.1.2, e.2)

/-- Settle every job parked on a server as cancelled. -/
def drainExternalCancelled : LspManager :=
  { m with
    pendingExternal := m.pendingExternal.retain fun key _ => key.1 ≠ sid
    runtime := m.runtime.completeAll
      ((m.requestsOf sid).flatMap fun r => r.2.awaiters.map fun job => (job, .cancelled)) }

def sendCancelRequest (rid : ℕ) : LspManager :=
  (m.sendNotification sid "$/cancelRequest" (.object [("id", .nat rid)])).2

/-- Abandon one request: its route and its pending entry go, a late answer to it will be
    dropped, and the server is told. -/
def abandonRequest (rid : ℕ) : LspManager :=
  ({ m with pendingRoutes := m.pendingRoutes.erase (sid, rid) }.modifyClient sid
    fun c => c.abandon rid).sendCancelRequest sid rid

def abandonAll (rids : List ℕ) : LspManager :=
  rids.foldl (fun m rid => m.abandonRequest sid rid) m

variable (p : PendingExternal)

def timedOut : Bool :=
  decide (m.now - p.dispatchedAt ≥ m.requestTimeout)

/-- How the sweep settles a job of a request: cancelled where its token is flipped, failed
    where the request timed out; none for a job it leaves. -/
def sweepOutcome (job : JobId) : Option JobOutcome :=
  if m.runtime.isCancelled job then some .cancelled
  else if m.timedOut p then some (.failed ("LSP " ++ p.method ++ ": request timed out after " ++
      toString m.requestTimeout ++ "ms"))
  else none

def swept : List (JobId × JobOutcome) :=
  p.awaiters.filterMap fun job => (m.sweepOutcome p job).map (job, ·)

def leftBySweep : PendingExternal :=
  { p with awaiters := p.awaiters.filter fun job => (m.sweepOutcome p job).isNone }

/-- The jobs of a server that the sweep settles: first those that were cancelled, then
    those whose request timed out. -/
def sweptOf : List (JobId × JobOutcome) :=
  let settled : List (JobId × JobOutcome) := (m.requestsOf sid).flatMap fun r => m.swept r.2
  settled.filter (·.2.isCancelled) ++ settled.filter (!·.2.isCancelled)

/-- What the sweep leaves of the requests in flight. -/
def pendingAfterSweep : Assoc (LspServerId × ℕ) PendingExternal :=
  let left : Assoc (LspServerId × ℕ) PendingExternal :=
    m.pendingExternal.mapVal fun key p => if key.1 = sid then m.leftBySweep p else p
  left.retain fun key p => key.1 ≠ sid || !p.awaiters.isEmpty

/-- Settle the jobs of a server that were cancelled or timed out; a request that no job
    waits for any more is abandoned. -/
def drainCancelledExternals : LspManager :=
  let abandoned :=
    ((m.requestsOf sid).filter fun r => (m.leftBySweep r.2).awaiters.isEmpty).map (·.1)
  { m with
    pendingExternal := m.pendingAfterSweep sid
    runtime := m.runtime.completeAll (m.sweptOf sid) }.abandonAll sid abandoned

/-! ## Lifecycle -/

def dropDocuments : LspManager :=
  { m with
    documents := m.documents.retain fun key _ => key.1 ≠ sid
    diskDocuments := m.diskDocuments.retain fun key _ => key.1 ≠ sid }

/-- Drop what belongs to one process of a server: its routes, its documents, what was
    forgotten of it; the jobs parked on it are cancelled. -/
def dropGeneration : LspManager :=
  let m := { m with pendingRoutes := m.pendingRoutes.retain fun key _ => key.1 ≠ sid }
  let m := (m.drainExternalCancelled sid).dropDocuments sid
  { m with forgottenDocuments := m.forgottenDocuments.filter (·.1 ≠ sid) }

def startGeneration (client : LspClient) : Except String Unit × LspClient × LspManager :=
  let client := client.renewed
  let m := m.dropGeneration sid
  match m.supervisor.spawn with
  | (.error e, supervisor) => (.error e, client, { m with supervisor })
  | (.ok pid, supervisor) => (.ok (), { client with process := some pid }, { m with supervisor })

def spawn (spec : LspServerSpec) : Except String LspServerId × LspManager :=
  let sid := m.nextServerId
  match { m with nextServerId := sid + 1 }.startGeneration sid (.new spec) with
  | (.error e, _, m) => (.error e, m)
  | (.ok (), client, m) => (.ok sid, { m with clients := m.clients.insert sid client })

/-- Ask a server to shut down, or end its process where it is not initialized. It is not
    run again. -/
def stop : Except String Unit × LspManager :=
  match m.clients.lookup sid with
  | none => (.error (unknownServer sid), m)
  | some client =>
    let client :=
      { client with spec := { client.spec with restart := .never }, nextRestartAt := none }
    if client.state.isTerminal then
      (.ok (), { m with clients := m.clients.insert sid client })
    else if client.state.isReadyForRequest then
      let rid := client.nextRequestId
      let client := { client.addRequest "shutdown" with state := .shuttingDown (some rid) }
      { m with clients := m.clients.insert sid client }.sendFrameTo client
        (.request rid "shutdown" .null)
    else
      let supervisor := match client.process with
        | none => m.supervisor
        | some pid => m.supervisor.terminate pid
      (.ok (), { m with
        supervisor
        clients := m.clients.insert sid { client with state := .shuttingDown none } })

def forget : Except String Unit × LspManager :=
  match m.clients.lookup sid with
  | none => (.error (unknownServer sid), m)
  | some client =>
    if client.state.isTerminal then
      (.ok (), { m with
        clients := m.clients.erase sid
        events := m.events.filter (·.1 ≠ sid) }.dropGeneration sid)
    else (.error s!"server LspServerId({sid}) is not in a terminal state", m)

/-- Run a crashed server again when it is due; a process that cannot be spawned is a crash
    of its own. -/
def maybeRestart : LspManager :=
  match m.clients.lookup sid with
  | none => m
  | some client =>
    match client.state, client.nextRestartAt with
    | .crashed _ _, some due =>
      if due ≤ m.now then
        let m := m.pushEvent sid (.restarting (client.attempt + 1))
        match { m with clients := m.clients.erase sid }.startGeneration sid client with
        | (.error e, client, m) =>
          let reason := s!"respawn failed: {e}"
          let client := { client with
            state := .crashed reason m.now
            nextRestartAt :=
              if client.spec.restart.shouldRestart then some (m.now + m.restartBackoff) else none }
          { m with clients := m.clients.insert sid client }.pushEvent sid (.crashed reason)
        | (.ok (), client, m) => { m with clients := m.clients.insert sid client }
      else m
    | _, _ => m

/-! ## Requests that jobs await -/

/-- What a request asks, the document or query it is superseded by, and where its answer
    goes. -/
structure Ask where
  method : String
  params : Value
  topic : String
  route : Option ResponseRoute

/-- Park a new job on a request just sent; it supersedes the one before on its topic. -/
def registerAwaiter (rid : ℕ) (method topic : String) : JobId × LspManager :=
  let registered := m.runtime.registerExternal (some s!"lsp:{method}:{sid}:{topic}")
  (registered.1, { m with
    runtime := registered.2
    pendingExternal := m.pendingExternal.insert (sid, rid) ⟨method, [registered.1], m.now⟩ })

def addRoute (rid : ℕ) :
    Option ResponseRoute → LspManager
  | none => m
  | some route => { m with pendingRoutes := m.pendingRoutes.insert (sid, rid) route }

def request (ask : Ask) : Except String JobId × LspManager :=
  match m.sendRequest sid ask.method ask.params with
  | (.error e, m) => (.error e, m)
  | (.ok rid, m) =>
    let registered := m.registerAwaiter sid rid ask.method ask.topic
    (.ok registered.1, registered.2.addRoute sid rid ask.route)

end LspManager

/-- The typed requests (`request_completion` and so on). -/
inductive LspRequest where
  | completion (uri : String) (line col : ℕ)
  | hover (uri : String) (line col : ℕ)
  | signatureHelp (uri : String) (line col : ℕ)
  | definition (uri : String) (line col : ℕ)
  | locations (kind : LocationKind) (uri : String) (line col : ℕ)
  | documentSymbol (uri : String)
  | workspaceSymbol (query : String)
  | documentHighlight (uri : String) (line col : ℕ)
  | formatting (uri : String) (tabSize : ℕ) (insertSpaces : Bool)
  | rename (uri : String) (line col : ℕ) (newName : String)
  | prepareRename (uri : String) (line col : ℕ)
  | codeAction (uri : String) (first last : ℕ × ℕ) (diagnostics : List Value)
  | inlayHint (uri : String) (first last : ℕ × ℕ)
  | semanticTokens (uri : String)
  | semanticTokensRange (uri : String) (first last : ℕ × ℕ)
  | semanticTokensDelta (uri previousResultId : String)
  | executeCommand (command : String) (arguments : List Value)

namespace LspManager

/-! ## Positions and anchors -/

def positionEncoding (m : LspManager) (sid : LspServerId) : PositionEncoding :=
  ((m.clients.lookup sid).map (·.positionEncoding)).getD .utf16

/-- A position in the columns a server counts; without the text, the byte as it is. -/
def outboundPosition (uri : String) (line byteCol : ℕ) : Value :=
  let character := match (m.documents.lookup (sid, uri)).bind fun doc => (textLines doc)[line]? with
    | some l => byteToChar l byteCol (m.positionEncoding sid)
    | none => byteCol
  .object [("line", .nat line), ("character", .nat character)]

def outboundRange (uri : String) (first last : ℕ × ℕ) : Value :=
  .object [("start", m.outboundPosition sid uri first.1 first.2),
    ("end", m.outboundPosition sid uri last.1 last.2)]

/-- The text a server answers for, and its edit number. -/
def semanticTokenAnchor (uri : String) : List Char × ℕ :=
  ((m.documents.lookup (sid, uri)).getD [], m.stores.tokens.syncedSeq uri)

def textDocument (uri : String) : String × Value := ("textDocument", .object [("uri", .string uri)])

def ask : LspRequest → Ask
  | .completion uri line col =>
    let anchor := m.semanticTokenAnchor sid uri
    ⟨"textDocument/completion",
      .object [textDocument uri, ("position", m.outboundPosition sid uri line col)], uri,
      some (.completion uri anchor.1 anchor.2)⟩
  | .hover uri line col =>
    ⟨"textDocument/hover",
      .object [textDocument uri, ("position", m.outboundPosition sid uri line col)], uri,
      some (.hover uri)⟩
  | .signatureHelp uri line col =>
    ⟨"textDocument/signatureHelp",
      .object [textDocument uri, ("position", m.outboundPosition sid uri line col)], uri,
      some (.signature uri)⟩
  | .definition uri line col =>
    ⟨"textDocument/definition",
      .object [textDocument uri, ("position", m.outboundPosition sid uri line col)], uri,
      some (.definition uri)⟩
  | .locations kind uri line col =>
    let position := [textDocument uri, ("position", m.outboundPosition sid uri line col)]
    let extra := match kind with
      | .references => [("context", .object [("includeDeclaration", .bool true)])]
      | _ => []
    ⟨kind.method, .object (position ++ extra), uri, some (.locations uri kind)⟩
  | .documentSymbol uri =>
    ⟨"textDocument/documentSymbol", .object [textDocument uri], uri, some (.documentSymbol uri)⟩
  | .workspaceSymbol query =>
    ⟨"workspace/symbol", .object [("query", .string query)], query, some (.workspaceSymbol query)⟩
  | .documentHighlight uri line col =>
    ⟨"textDocument/documentHighlight",
      .object [textDocument uri, ("position", m.outboundPosition sid uri line col)], uri,
      some (.documentHighlight uri)⟩
  | .formatting uri tabSize insertSpaces =>
    ⟨"textDocument/formatting",
      .object [textDocument uri,
        ("options", .object [("tabSize", .nat tabSize), ("insertSpaces", .bool insertSpaces)])],
      uri, some (.formatting uri)⟩
  | .rename uri line col newName =>
    ⟨"textDocument/rename",
      .object [textDocument uri, ("position", m.outboundPosition sid uri line col),
        ("newName", .string newName)], uri, some (.rename uri)⟩
  | .prepareRename uri line col =>
    ⟨"textDocument/prepareRename",
      .object [textDocument uri, ("position", m.outboundPosition sid uri line col)], uri,
      some (.prepareRename uri)⟩
  | .codeAction uri first last diagnostics =>
    ⟨"textDocument/codeAction",
      .object [textDocument uri, ("range", m.outboundRange sid uri first last),
        ("context", .object [("diagnostics", .array diagnostics)])], uri,
      some (.codeAction uri)⟩
  | .inlayHint uri first last =>
    let anchor := m.semanticTokenAnchor sid uri
    ⟨"textDocument/inlayHint",
      .object [textDocument uri, ("range", m.outboundRange sid uri first last)], uri,
      some (.inlayHint uri anchor.1 anchor.2)⟩
  | .semanticTokens uri =>
    let anchor := m.semanticTokenAnchor sid uri
    ⟨"textDocument/semanticTokens/full", .object [textDocument uri], uri,
      some (.semanticTokens uri anchor.1 anchor.2 none)⟩
  | .semanticTokensRange uri first last =>
    let anchor := m.semanticTokenAnchor sid uri
    ⟨"textDocument/semanticTokens/range",
      .object [textDocument uri, ("range", m.outboundRange sid uri first last)], uri,
      some (.semanticTokens uri anchor.1 anchor.2 (some (first, last)))⟩
  | .semanticTokensDelta uri previousResultId =>
    let anchor := m.semanticTokenAnchor sid uri
    ⟨"textDocument/semanticTokens/full/delta",
      .object [textDocument uri, ("previousResultId", .string previousResultId)], uri,
      some (.semanticTokensDelta uri anchor.1 anchor.2)⟩
  | .executeCommand command arguments =>
    ⟨"workspace/executeCommand",
      .object [("command", .string command), ("arguments", .array arguments)], command, none⟩

/-! ## Forgetting a document -/

def cancelRequest (rid : ℕ) : LspManager :=
  let m := match m.pendingExternal.lookup (sid, rid) with
    | none => m
    | some p => { m with
        pendingExternal := m.pendingExternal.erase (sid, rid)
        runtime := m.runtime.completeAll (p.awaiters.map fun job => (job, .cancelled)) }
  m.abandonRequest sid rid

def requestsFor (uri : String) : List ℕ :=
  (m.pendingRoutes.entries.filter fun e =>
    e.1.1 = sid && e.2.scopedUri = some uri).map (·.1.2)

/-- Drop every trace of a document of a server, and refuse what the server still says of
    it unasked. -/
def forgetUri (m : LspManager) (sid : LspServerId) (uri : String) :
    Except String Unit × LspManager :=
  match m.clients.lookup sid with
  | none => (.error (unknownServer sid), m)
  | some _ =>
    let m := { m with forgottenDocuments :=
      if (sid, uri) ∈ m.forgottenDocuments then m.forgottenDocuments
      else (sid, uri) :: m.forgottenDocuments }
    let m := (m.requestsFor sid uri).foldl (fun m rid => m.cancelRequest sid rid) m
    (.ok (), { m with
      stores := m.stores.forgetUri (toString sid) uri
      documents := m.documents.erase (sid, uri)
      diskDocuments := m.diskDocuments.erase (sid, uri) })

end LspManager

end Pmacs
