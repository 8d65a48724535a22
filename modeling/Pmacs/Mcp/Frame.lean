/-
  What the operations of the registry of MCP servers leave alone.

  * `Told`: a supervisor of which something was asked, and nothing else;
  * `Life` is what a client knows of its lifecycle, `McpManager.lifeOf` that of a server;
  * `Talks`: only processes were told something, and events were added; `Calm`: and requests
    were sent, settled or given up, while no server's life changed.
-/
import Pmacs.Mcp.Run

namespace Pmacs

open Lib AList Function List Option

namespace Mcp

variable {c : McpClient} {m m' : McpManager} {sid : McpServerId}

/-! ## Processes that are told something -/

/-- A process of which something was asked. -/
structure Process.Told (p p' : Process) : Prop where
  phase : p'.phase = p.phase
  unread : p'.unread = p.unread
  commands : ∀ c ∈ p.commands, c ∈ p'.commands

theorem Process.Told.refl (p : Process) : p.Told p := ⟨rfl, rfl, fun _ h => h⟩

theorem Process.Told.trans {p p' p'' : Process} (h : p.Told p') (h' : p'.Told p'') : p.Told p'' :=
  ⟨h'.phase.trans h.phase, h'.unread.trans h.unread, fun c hc => h'.commands c (h.commands c hc)⟩

variable (s : ProcessSupervisor)

namespace ProcessSupervisor

/-- A supervisor of which something was asked. -/
structure Told (s s' : ProcessSupervisor) : Prop where
  nextId : s'.nextId = s.nextId
  spawnError : s'.spawnError = s.spawnError
  missing : ∀ {pid}, s.processes.lookup pid = none → s'.processes.lookup pid = none
  found : ∀ {pid p}, s.processes.lookup pid = some p →
    ∃ p', s'.processes.lookup pid = some p' ∧ p.Told p'

theorem Told.refl (s : ProcessSupervisor) : s.Told s :=
  ⟨rfl, rfl, fun h => h, fun h => ⟨_, h, .refl _⟩⟩

theorem Told.trans {s s' s'' : ProcessSupervisor} (h : s.Told s') (h' : s'.Told s'') :
    s.Told s'' := by
  refine ⟨h'.nextId.trans h.nextId, h'.spawnError.trans h.spawnError, fun hn => h'.missing (h.missing hn),
    ?_⟩
  intro pid p hp
  obtain ⟨p', hp', htold⟩ := h.found hp
  obtain ⟨p'', hp'', htold'⟩ := h'.found hp'
  exact ⟨p'', hp'', htold.trans htold'⟩

variable (id : ProcessId) {f : Process → Process}

theorem lookup_modify (pid : ProcessId) : (s.modify id f).processes.lookup pid =
      if pid = id then (s.processes.lookup id).map f else s.processes.lookup pid := by
  unfold modify
  by_cases hpid : pid = id
  · rw [if_pos hpid, hpid]
    cases h : s.processes.lookup id with
    | none => exact h
    | some p => exact lookup_insert _
  rw [if_neg hpid]
  cases s.processes.lookup id with
  | none => rfl
  | some p => exact lookup_insert_ne hpid

@[simp]
theorem nextId_modify (f : Process → Process) : (s.modify id f).nextId = s.nextId := by
  unfold modify
  split <;> rfl

@[simp]
theorem spawnError_modify : (s.modify id f).spawnError = s.spawnError := by
  unfold modify
  split <;> rfl

theorem told_modify (hf : ∀ p : Process, p.Told (f p)) : s.Told (s.modify id f) := by
  refine ⟨nextId_modify s id f, spawnError_modify s id, ?_, ?_⟩
  · intro pid hpid; rw [lookup_modify]
    split
    · rename_i h; rw [← h, hpid]; rfl
    · exact hpid
  intro pid p hp; rw [lookup_modify]
  split
  · rename_i h; rw [← h, hp]; exact ⟨f p, rfl, hf p⟩
  · exact ⟨p, hp, .refl p⟩

theorem told_command {c : Command} : s.Told (s.command id c) := by
  refine told_modify s id fun p => ?_
  by_cases h : p.phase = .ended
  · rw [if_pos h]; exact .refl p
  · rw [if_neg h]; exact ⟨rfl, rfl, fun c hc => mem_append_left _ hc⟩

theorem asked_command {id : ProcessId} (c : Command) {p : Process}
    (h : s.processes.lookup id = some p) : ∃ p', (s.command id c).processes.lookup id = some p' ∧
      (c ∈ p'.commands ∨ p'.phase = .ended) := by
  rw [command, lookup_modify, if_pos rfl, h]
  by_cases hp : p.phase = .ended
  · exact ⟨p, by rw [map_some, if_pos hp], .inr hp⟩
  · exact ⟨_, by rw [map_some, if_neg hp], .inl (mem_append_right _ (mem_singleton_self c))⟩

theorem told_writeStdin {frame : Frame} : s.Told (s.writeStdin id frame).2 := by
  unfold writeStdin
  split
  · exact .refl s
  split_ifs
  · exact .refl s
  · exact .refl s
  split
  · exact .refl s
  · exact told_command s id

theorem told_closeStdin : s.Told (s.closeStdin id) :=
  (told_modify s id fun p => show p.Told { p with stdinOpen := false } from
    ⟨rfl, rfl, fun _ hc => hc⟩).trans (told_command _ id)

end ProcessSupervisor

/-! ## Lifecycles -/

/-- What a client knows of its lifecycle. -/
structure Life where
  restart : McpRestartPolicy
  state : McpClientState
  process : Option ProcessId
  attempt : ℕ
  nextRestartAt : Option ℕ
  shutdownEscalation : Option ShutdownEscalation

def McpClient.life (c : McpClient) : Life :=
  ⟨c.spec.restart, c.state, c.process, c.attempt, c.nextRestartAt, c.shutdownEscalation⟩

namespace McpManager

def lifeOf (m : McpManager) (sid : McpServerId) : Option Life :=
  (m.clients.lookup sid).map McpClient.life

theorem lifeOf_eq_some {l : Life} :
    m.lifeOf sid = some l ↔ ∃ c, m.clients.lookup sid = some c ∧ c.life = l :=
  map_eq_some_iff

theorem lifeOf_of_lookup (h : m.clients.lookup sid = some c) : m.lifeOf sid = some c.life := by
  rw [lifeOf, h]
  rfl

theorem lifeOf_of_none (h : m.clients.lookup sid = none) : m.lifeOf sid = none := by
  rw [lifeOf, h]
  rfl

theorem lifeOf_insert (h : m'.clients = m.clients.insert sid c) :
    m'.lifeOf = Function.update m.lifeOf sid (some c.life) := by
  funext sid'
  by_cases hsid : sid' = sid
  · subst hsid; rw [lifeOf, h, lookup_insert, update_self]; rfl
  · rw [lifeOf, h, lookup_insert_ne hsid, update_of_ne hsid]; rfl

theorem lifeOf_erase (h : m'.clients = m.clients.erase sid) :
    m'.lifeOf = Function.update m.lifeOf sid none := by
  funext sid'
  by_cases hsid : sid' = sid
  · subst hsid; rw [lifeOf, h, lookup_erase, update_self]; rfl
  · rw [lifeOf, h, lookup_erase_ne hsid, update_of_ne hsid]; rfl

theorem lifeOf_setClient (m : McpManager) (sid : McpServerId) (c : McpClient) :
    (m.setClient sid c).lifeOf = Function.update m.lifeOf sid (some c.life) := lifeOf_insert rfl

theorem lifeOf_setClient_same {c' : McpClient} (h : m.clients.lookup sid = some c)
    (hlife : c'.life = c.life) : (m.setClient sid c').lifeOf = m.lifeOf := by
  rw [lifeOf_setClient, hlife, ← lifeOf_of_lookup h, update_eq_self]

/-- Only processes were told something, and events were added. -/
structure Talks (m m' : McpManager) : Prop where
  parse : m'.parse = m.parse
  runtime : m'.runtime = m.runtime
  clients : m'.clients = m.clients
  restartBackoff : m'.restartBackoff = m.restartBackoff
  shutdownGrace : m'.shutdownGrace = m.shutdownGrace
  resourceCache : m'.resourceCache = m.resourceCache
  now : m'.now = m.now
  nextServerId : m'.nextServerId = m.nextServerId
  supervisor : m.supervisor.Told m'.supervisor

theorem Talks.refl (m : McpManager) : Talks m m :=
  ⟨rfl, rfl, rfl, rfl, rfl, rfl, rfl, rfl, .refl _⟩

theorem Talks.trans {m'' : McpManager} (h : Talks m m') (h' : Talks m' m'') : Talks m m'' :=
  ⟨h'.parse.trans h.parse, h'.runtime.trans h.runtime, h'.clients.trans h.clients,
    h'.restartBackoff.trans h.restartBackoff, h'.shutdownGrace.trans h.shutdownGrace,
    h'.resourceCache.trans h.resourceCache, h'.now.trans h.now,
    h'.nextServerId.trans h.nextServerId, h.supervisor.trans h'.supervisor⟩

/-- Only requests were sent, settled or given up: no server's life changed. -/
structure Calm (m m' : McpManager) : Prop where
  parse : m'.parse = m.parse
  lifeOf : m'.lifeOf = m.lifeOf
  restartBackoff : m'.restartBackoff = m.restartBackoff
  shutdownGrace : m'.shutdownGrace = m.shutdownGrace
  now : m'.now = m.now
  nextServerId : m'.nextServerId = m.nextServerId
  supervisor : m.supervisor.Told m'.supervisor

theorem Calm.refl (m : McpManager) : Calm m m := ⟨rfl, rfl, rfl, rfl, rfl, rfl, .refl _⟩

theorem Calm.trans {m'' : McpManager} (h : Calm m m') (h' : Calm m' m'') : Calm m m'' :=
  ⟨h'.parse.trans h.parse, h'.lifeOf.trans h.lifeOf, h'.restartBackoff.trans h.restartBackoff,
    h'.shutdownGrace.trans h.shutdownGrace, h'.now.trans h.now,
    h'.nextServerId.trans h.nextServerId, h.supervisor.trans h'.supervisor⟩

theorem Talks.calm (h : Talks m m') : Calm m m' := by
  refine ⟨h.parse, ?_, h.restartBackoff, h.shutdownGrace, h.now, h.nextServerId, h.supervisor⟩
  funext sid
  rw [McpManager.lifeOf, h.clients, McpManager.lifeOf]

/-! ## What is only told -/

theorem talks_pushEvent (m : McpManager) (sid : McpServerId) (kind : McpEventKind) :
    Talks m (m.pushEvent sid kind) := ⟨rfl, rfl, rfl, rfl, rfl, rfl, rfl, rfl, .refl _⟩

theorem talks_supervisor (m : McpManager) {s : ProcessSupervisor} (h : m.supervisor.Told s) :
    Talks m { m with supervisor := s } := ⟨rfl, rfl, rfl, rfl, rfl, rfl, rfl, rfl, h⟩

variable {client : McpClient}

theorem told_sendFrameTo {frame : Frame} : s.Told (sendFrameTo s client frame).2 := by
  unfold sendFrameTo
  split
  · exact .refl s
  · exact ProcessSupervisor.told_writeStdin s _

theorem talks_send (m : McpManager) (client : McpClient) (frame : Frame) :
    Talks m (m.send client frame).2 := talks_supervisor m (told_sendFrameTo _)

theorem talks_sendQuietly (m : McpManager) (sid : McpServerId) (frame : Frame) :
    Talks m (m.sendQuietly sid frame) := by
  unfold sendQuietly
  split
  · exact .refl m
  · exact talks_send m _ frame

theorem talks_sendNotification (m : McpManager) (sid : McpServerId) (method : String)
    (params : Value) : Talks m (m.sendNotification sid method params).2 := by
  unfold sendNotification
  split
  · exact .refl m
  split
  · exact .refl m
  · exact talks_send m _ _

theorem talks_sendResponse (m : McpManager) (sid : McpServerId) (id : Value)
    (result : Except McpError Value) : Talks m (m.sendResponse sid id result).2 := by
  unfold sendResponse
  split
  · exact .refl m
  · exact talks_send m _ _

theorem talks_sendCancellationNotification (m : McpManager) (sid : McpServerId) (rid : ℕ) :
    Talks m (m.sendCancellationNotification sid rid) := by
  unfold sendCancellationNotification
  split
  · exact .refl m
  split
  · exact .refl m
  · exact talks_send m _ _

theorem talks_terminateAfterProtocolError (m : McpManager) (sid : McpServerId) :
    Talks m (m.terminateAfterProtocolError sid) := by
  unfold terminateAfterProtocolError
  split
  · exact .refl m
  · exact talks_supervisor m (ProcessSupervisor.told_command _ _)

theorem talks_handleNotification {method : String}
    {params : Value} : Talks m (m.handleNotification sid method params) :=
  ⟨rfl, rfl, rfl, rfl, rfl, rfl, rfl, rfl, .refl _⟩

theorem talks_checkVersion (m : McpManager) (sid : McpServerId) (body : Value) :
    Talks m (m.checkVersion sid body) := by
  unfold checkVersion
  split
  · exact talks_pushEvent m sid _
  split
  · exact .refl m
  · exact talks_pushEvent m sid _

/-! ## What only deals with requests -/

/-- A client put in the place of one with the same life, and jobs or cache entries changed. -/
theorem calm_setClient {c' : McpClient}
    (h : m.clients.lookup sid = some c) (hlife : c'.life = c.life) (runtime : AsyncRuntime)
    (cache : Assoc (McpServerId × String) ResourceCacheState) :
    Calm m { m.setClient sid c' with runtime, resourceCache := cache } :=
  ⟨rfl, lifeOf_setClient_same h hlife, rfl, rfl, rfl, rfl, .refl _⟩

theorem calm_runtime (m : McpManager) (runtime : AsyncRuntime)
    (cache : Assoc (McpServerId × String) ResourceCacheState) :
    Calm m { m with runtime, resourceCache := cache } := ⟨rfl, rfl, rfl, rfl, rfl, rfl, .refl _⟩

theorem calm_settleInFlightWith (m : McpManager) (cacheKey : Option (McpServerId × String))
    (rid : ℕ) (awaiters : List JobId) (outcome : JobOutcome) :
    Calm m (m.settleInFlightWith cacheKey rid awaiters outcome) := by
  cases cacheKey with
  | none | some => exact calm_runtime m _ _

theorem calm_cancelDrained (m : McpManager) (drained : Assoc ℕ PendingExternal) :
    Calm m (m.cancelDrained drained) := by
  unfold cancelDrained
  induction drained.entries generalizing m with
  | nil => exact .refl m
  | cons e entries ih => exact (calm_settleInFlightWith m _ _ _ _).trans (ih _)

theorem calm_dropResourceCacheFor (m : McpManager) (sid : McpServerId) :
    Calm m (m.dropResourceCacheFor sid) := calm_runtime m _ _

theorem calm_modifyClient {f : McpClient → McpClient}
    (hf : ∀ c, (f c).life = c.life) : Calm m (m.modifyClient sid f) := by
  unfold modifyClient
  split
  · exact .refl m
  · rename_i c hc; exact calm_setClient hc (hf c) _ _

theorem calm_recordAbandoned {rid : ℕ} : Calm m (m.recordAbandoned sid rid) :=
  (talks_sendCancellationNotification m sid rid).calm.trans (calm_modifyClient fun _ => rfl)

theorem calm_foldl {α : Type} {f : McpManager → α → McpManager} (hf : ∀ m a, Calm m (f m a))
    (l : List α) (m : McpManager) : Calm m (l.foldl f m) := by
  induction l generalizing m with
  | nil => exact .refl m
  | cons a l ih => exact (hf m a).trans (ih _)

theorem calm_drainCancelledExternals (m : McpManager) (sid : McpServerId) :
    Calm m (m.drainCancelledExternals sid) := by
  unfold drainCancelledExternals
  split
  · exact .refl m
  rename_i client hclient
  refine Calm.trans ?_ (calm_foldl (fun m e => calm_settleInFlightWith m _ _ _ _) _ _)
  refine Calm.trans ?_ (calm_foldl (fun m e => calm_recordAbandoned) _ _)
  refine calm_setClient hclient ?_ _ _; rfl

theorem calm_dispatch (h : m.clients.lookup sid = some client)
    (asker method : String) (params : Value) (cacheKey : Option (McpServerId × String)) :
    Calm m (m.dispatch sid client asker method params cacheKey).2 := by
  unfold dispatch
  dsimp only
  split <;> exact ⟨rfl, lifeOf_setClient_same h rfl, rfl, rfl, rfl, rfl, told_sendFrameTo _⟩

theorem calm_dispatchReady {asker method : String}
    {params : Value} : Calm m (m.dispatchReady sid asker method params).2 := by
  unfold dispatchReady
  split
  · exact .refl m
  rename_i client hclient
  split
  · exact calm_dispatch hclient _ _ _ _
  · exact .refl m

theorem calm_dispatchRead (h : m.clients.lookup sid = some client)
    (uri : String) : Calm m (m.dispatchRead sid client uri).2 := by
  unfold dispatchRead
  dsimp only
  have hdispatch := calm_dispatch h "read_resource" "resources/read"
    (.object [("uri", .string uri)]) (some (sid, uri))
  split
  · exact hdispatch
  · exact hdispatch.trans (calm_runtime _ _ _)

theorem calm_readResource {uri : String} : Calm m (m.readResource sid uri).2 := by
  unfold readResource
  split
  · exact .refl m
  rename_i client hclient
  split
  · split
    · exact calm_runtime m _ _
    · split
      · refine calm_setClient hclient ?_ _ _; rfl
      have hdropped := calm_runtime m ((m.runtime.registerExternal none).2.completeExternal
          (m.runtime.registerExternal none).1 .cancelled) (m.resourceCache.erase (sid, uri))
      refine hdropped.trans ?_
      exact calm_dispatchRead (m := { m with
        runtime := (m.runtime.registerExternal none).2.completeExternal
          (m.runtime.registerExternal none).1 .cancelled
        resourceCache := m.resourceCache.erase (sid, uri) }) hclient uri
    · exact calm_dispatchRead hclient uri
  · exact .refl m

theorem calm_invalidateResource {uri : String} :
    Calm m (m.invalidateResource sid uri) := calm_runtime m _ _

end McpManager

end Mcp

end Pmacs
