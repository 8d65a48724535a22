/-
  The lifecycle of the MCP servers: what each operation does to it.

  * `Life.stop`, `Life.exit`, `Life.respawn` and so on are the moves of a server's life;
  * `Hears`: only the state of one server's life changed; `Heard`: so it is after a line of its
    output, and after all of them (`dispatchLines_heard`).
-/
import Pmacs.Mcp.Frame

namespace Pmacs

open Lib

namespace Mcp

/-! ## The moves of a life -/

namespace Life

/-- A server is to stop: it is never restarted, and if it runs, its process is to end; SIGTERM is
    due at `time`. -/
def stop (time : ℕ) (l : Life) : Life :=
  if l.state.isTerminal || l.state.isShuttingDown then
    { l with restart := .never, nextRestartAt := none }
  else
    { l with
      restart := .never, nextRestartAt := none, state := .shuttingDown
      shutdownEscalation := some (.sigtermAt time) }

/-- A process that was asked to end and has not is asked more harshly. -/
def escalate (now grace : ℕ) (l : Life) : Life :=
  if l.state.isShuttingDown then
    match l.shutdownEscalation with
    | some (.sigtermAt time) =>
      if time ≤ now then { l with shutdownEscalation := some (.sigkillAt (now + grace)) } else l
    | some (.sigkillAt time) => if time ≤ now then { l with shutdownEscalation := none } else l
    | none => l
  else l

/-- The process of a server has ended. -/
def exit (atTime : ℕ) (reason : String) (clean : Bool) (backoff : ℕ) (l : Life) : Life :=
  { l with
    state :=
      if l.state.isShuttingDown || clean then .stopped atTime else .crashed reason atTime
    process := none
    nextRestartAt :=
      if shouldRestart l.restart clean l.state.isShuttingDown then some (atTime + backoff)
      else l.nextRestartAt }

def restartDue (now : ℕ) (l : Life) : Bool :=
  l.state.isCrashed && match l.nextRestartAt with
    | some time => decide (time ≤ now)
    | none => false

def respawn (pid : ProcessId) (l : Life) : Life :=
  { l with
    state := .starting, process := some pid, attempt := l.attempt + 1, nextRestartAt := none
    shutdownEscalation := none }

/-- A server whose process could not be spawned again. -/
def respawnFailed (now backoff : ℕ) (reason : String) (l : Life) : Life :=
  { l with
    state := .crashed ("respawn failed: " ++ reason) now
    attempt := l.attempt + 1
    nextRestartAt := if shouldRestart l.restart false false then some (now + backoff) else none
    shutdownEscalation := none }

end Life

/-! ## The handshake in the output of a server -/

/-- What a line of output answers: a request id, with a result or an error. -/
def readAnswer (parse : Bytes → Except String Value) (body : Bytes) :
    Option (ℕ × Option Value × Option McpError) :=
  match parse body with
  | .ok (.object fields) =>
    match Inbound.ofValue (some (.object fields)) with
    | .response id result error => id.asU64.map (·, result, error)
    | _ => none
  | _ => none

def acceptsAnswer (pending : Assoc ℕ String) (rid : ℕ) (result : Option Value)
    (error : Option McpError) : Bool :=
  match pending.lookup rid, McpManager.readInitializeAnswer result error with
  | some method, .ok _ => decide (method = "initialize")
  | _, _ => false

def acceptsIn (parse : Bytes → Except String Value) (pending : Assoc ℕ String) :
    List Bytes → Bool
  | [] => false
  | body :: rest =>
    match readAnswer parse body with
    | none => acceptsIn parse pending rest
    | some (rid, result, error) =>
      acceptsAnswer pending rid result error ||
        acceptsIn parse (if (pending.lookup rid).isSome then pending.erase rid else pending) rest

namespace McpManager

variable {client : McpClient} {m : McpManager} {sid : McpServerId}

theorem dispatchInbound_of_none {body : Bytes} (sid : McpServerId)
    (h : readAnswer m.parse body = none) : Talks m (m.dispatchInbound sid body) := by
  unfold readAnswer at h
  unfold dispatchInbound
  split
  · exact talks_pushEvent m sid _
  · rename_i fields hparse; rw [hparse] at h; dsimp only at h
    refine (talks_checkVersion m sid (.object fields)).trans ?_
    generalize Inbound.ofValue (some (.object fields)) = inbound at h ⊢
    cases inbound with
    | response id result error =>
      have hid : id.asU64 = none := Option.map_eq_none_iff.1 h; unfold handleInbound handleResponse
      dsimp only; rw [hid]; exact talks_pushEvent _ sid _
    | request | malformed | frameError => exact talks_pushEvent _ sid _
    | notification method params => exact talks_handleNotification
  · exact talks_pushEvent m sid _

theorem dispatchInbound_of_answer
    {body : Bytes} {rid : ℕ} {result : Option Value} {error : Option McpError}
    (hclient : m.clients.lookup sid = some client)
    (h : readAnswer m.parse body = some (rid, result, error)) : ∃ m', Talks m m' ∧
      m.dispatchInbound sid body = m'.answerRequest sid client rid result error := by
  unfold readAnswer at h
  split at h
  · rename_i fields hparse
    split at h
    · rename_i id result' error' hinbound; rw [Option.map_eq_some_iff] at h
      obtain ⟨_, hid, heq⟩ := h; cases heq
      refine ⟨m.checkVersion sid (.object fields), talks_checkVersion m sid _, ?_⟩
      have hclient' : (m.checkVersion sid (.object fields)).clients.lookup sid = some client := by
        rw [(talks_checkVersion m sid _).clients]; exact hclient
      unfold dispatchInbound; rw [hparse]; dsimp only
      rw [hinbound]; unfold handleInbound handleResponse; dsimp only
      rw [hid]; rw [hclient']
    · cases h
  · cases h

/-- Only the state of one server's life changed. -/
structure Hears (sid : McpServerId) (state : McpClientState) (m m' : McpManager) : Prop where
  parse : m'.parse = m.parse
  lifeOf : m'.lifeOf =
    Function.update m.lifeOf sid ((m.lifeOf sid).map fun l => { l with state := state })
  restartBackoff : m'.restartBackoff = m.restartBackoff
  shutdownGrace : m'.shutdownGrace = m.shutdownGrace
  now : m'.now = m.now
  nextServerId : m'.nextServerId = m.nextServerId
  supervisor : m.supervisor.Told m'.supervisor

theorem Calm.hears {m' : McpManager} (h : Calm m m')
    (hclient : m.clients.lookup sid = some client) : Hears sid client.state m m' := by
  refine ⟨h.parse, ?_, h.restartBackoff, h.shutdownGrace, h.now, h.nextServerId, h.supervisor⟩
  have hlife : m.lifeOf sid = some client.life := lifeOf_of_lookup hclient
  rw [h.lifeOf, hlife]
  exact (hlife ▸ Function.update_eq_self sid m.lifeOf).symm

theorem Hears.trans {m' m'' : McpManager} {st st' : McpClientState}
    (h : Hears sid st m m') (h' : Hears sid st' m' m'') : Hears sid st' m m'' := by
  refine ⟨h'.parse.trans h.parse, ?_, h'.restartBackoff.trans h.restartBackoff,
    h'.shutdownGrace.trans h.shutdownGrace, h'.now.trans h.now,
    h'.nextServerId.trans h.nextServerId, h.supervisor.trans h'.supervisor⟩
  rw [h'.lifeOf, h.lifeOf, Function.update_self, Function.update_idem, Option.map_map]
  rfl

/-- A client after a line of its server, of which the pending handshakes are `pending`. -/
structure Heard (m : McpManager) (sid : McpServerId) (state : McpClientState)
    (pending : Assoc ℕ String) (m' : McpManager) : Prop where
  hears : Hears sid state m m'
  client : ∃ c, m'.clients.lookup sid = some c ∧ c.state = state ∧ c.pendingInternal = pending

/-- The answer to the handshake: the server is initialized, or its process is to end. -/
theorem handleInitializeResponse_heard
    (hclient : m.clients.lookup sid = some client) (result : Option Value)
    (error : Option McpError) :
    (∃ caps, readInitializeAnswer result error = .ok caps ∧ ∃ state, state.isInitialized = true ∧
      Heard m sid state client.pendingInternal (m.handleInitializeResponse sid result error)) ∨
    ((∀ caps, readInitializeAnswer result error ≠ .ok caps) ∧
      Heard m sid client.state client.pendingInternal
        (m.handleInitializeResponse sid result error)) := by
  unfold handleInitializeResponse
  split
  · rename_i violation hread
    refine .inr ⟨fun caps h => (by cases hread.symm.trans h), ?_⟩
    have htalks := (talks_pushEvent m sid (.protocolError violation)).trans
      (talks_terminateAfterProtocolError _ sid)
    exact ⟨htalks.calm.hears hclient, client, by rw [htalks.clients]; exact hclient, rfl, rfl⟩
  rename_i caps hread
  refine .inl ⟨caps, hread, ?_⟩; dsimp only
  have hsend := talks_sendQuietly m sid (.notification "notifications/initialized" (.object []))
  generalize m.sendQuietly sid (.notification "notifications/initialized" (.object [])) = m₁
    at hsend
  have hclient₁ : m₁.clients.lookup sid = some client := by rw [hsend.clients]; exact hclient
  refine ⟨.initialized caps ((result.getD .null).get "serverInfo")
    (((result.getD .null).get "protocolVersion").bind Value.asStr) m₁.now, rfl, ?_, ?_⟩
  · rw [modifyClient, hclient₁]
    refine ⟨hsend.parse, ?_, hsend.restartBackoff, hsend.shutdownGrace, hsend.now,
      hsend.nextServerId, hsend.supervisor⟩
    refine (lifeOf_setClient m₁ sid _).trans ?_; rw [hsend.calm.lifeOf, lifeOf_of_lookup hclient]
    rfl
  · rw [modifyClient, hclient₁]; exact ⟨_, AList.lookup_insert _, rfl, rfl⟩

theorem settleInFlightWith_clients (m : McpManager) (cacheKey : Option (McpServerId × String))
    {rid : ℕ} (awaiters : List JobId) (outcome : JobOutcome) :
    (m.settleInFlightWith cacheKey rid awaiters outcome).clients = m.clients := by
  cases cacheKey <;> rfl

variable (hclient : m.clients.lookup sid = some client)
include hclient

/-- An answer: the server is initialized where it accepts the handshake, and nowhere else. -/
theorem answerRequest_heard (rid : ℕ) (result : Option Value)
    (error : Option McpError) : ∃ state, Heard m sid state
        (if (client.pendingInternal.lookup rid).isSome then client.pendingInternal.erase rid
          else client.pendingInternal) (m.answerRequest sid client rid result error) ∧
      if acceptsAnswer client.pendingInternal rid result error then state.isInitialized = true
      else state = client.state := by
  unfold answerRequest acceptsAnswer
  cases hpending : client.pendingInternal.lookup rid with
  | some method =>
    dsimp only [Option.isSome]; rw [if_pos rfl]
    have hset := calm_setClient hclient
      (show McpClient.life { client with
        pendingInternal := client.pendingInternal.erase rid } = client.life from rfl)
      m.runtime m.resourceCache
    have hself : (m.setClient sid { client with
        pendingInternal := client.pendingInternal.erase rid }).clients.lookup sid =
        some { client with pendingInternal := client.pendingInternal.erase rid } :=
      AList.lookup_insert _
    split
    · rename_i hmethod
      rcases handleInitializeResponse_heard hself result error with
        ⟨caps, hread, state, hstate, hheard⟩ | ⟨hread, hheard⟩
      · refine ⟨state, ⟨(hset.hears hclient).trans hheard.hears, hheard.client⟩, ?_⟩; rw [hread]
        rw [if_pos (decide_eq_true hmethod)]; exact hstate
      refine ⟨client.state, ⟨(hset.hears hclient).trans hheard.hears, hheard.client⟩, ?_⟩
      cases hanswer : readInitializeAnswer result error with
      | ok caps => exact absurd hanswer (hread caps)
      | error violation => rfl
    rename_i hmethod
    have htalks := talks_pushEvent (m.setClient sid { client with
      pendingInternal := client.pendingInternal.erase rid }) sid
      (.protocolError (.unrecognisedInternal method))
    refine ⟨client.state, ⟨(hset.trans htalks.calm).hears hclient, _, hself, rfl, rfl⟩, ?_⟩
    cases readInitializeAnswer result error with
    | ok caps => rw [if_neg (by simpa using hmethod)]
    | error violation => rfl
  | none =>
    dsimp only [Option.isSome]; rw [if_neg Bool.false_ne_true]
    refine ⟨client.state, ?_, rfl⟩
    split
    · rename_i p hp
      have hset := calm_setClient hclient
        (show McpClient.life { client with
          pendingExternal := client.pendingExternal.erase rid } = client.life from rfl)
        m.runtime m.resourceCache
      have hsettle := calm_settleInFlightWith (m.setClient sid { client with
        pendingExternal := client.pendingExternal.erase rid }) p.cacheKey rid p.awaiters
        (answerOutcome p.method result error)
      refine ⟨((hset.trans hsettle).trans (talks_pushEvent _ sid _).calm).hears hclient,
        { client with pendingExternal := client.pendingExternal.erase rid }, ?_, rfl, rfl⟩
      show (settleInFlightWith _ _ _ _ _).clients.lookup sid = _
      rw [settleInFlightWith_clients]; exact AList.lookup_insert _
    split
    · have hset := calm_setClient hclient
        (show McpClient.life { client with
          cancelledRids := client.cancelledRids.filter (· ≠ rid) } = client.life from rfl)
        m.runtime m.resourceCache
      exact ⟨hset.hears hclient, _, AList.lookup_insert _, rfl, rfl⟩
    · exact ⟨(talks_pushEvent m sid _).calm.hears hclient, client, hclient, rfl, rfl⟩

/-- **Output**: the server is initialized where a line accepts the handshake, and nothing else of
    its life changes. -/
theorem dispatchLines_heard (lines : List Bytes) : ∃ state,
      Hears sid state m (lines.foldl (fun m body => m.dispatchInbound sid body) m) ∧
      (acceptsIn m.parse client.pendingInternal lines = false → state = client.state) ∧
      (state = client.state ∨ state.isInitialized = true) := by
  induction lines generalizing m client with
  | nil => exact ⟨client.state, (Calm.refl m).hears hclient, fun _ => rfl, .inl rfl⟩
  | cons body lines ih =>
    rw [List.foldl_cons, acceptsIn]
    cases hread : readAnswer m.parse body with
    | none =>
      have htalks := dispatchInbound_of_none sid hread
      have hclient' : (m.dispatchInbound sid body).clients.lookup sid = some client := by
        rw [htalks.clients]; exact hclient
      obtain ⟨state, hhears, hstate, hor⟩ := ih hclient'; rw [htalks.parse] at hstate
      exact ⟨state, (htalks.calm.hears hclient).trans hhears, hstate, hor⟩
    | some answer =>
      obtain ⟨rid, result, error⟩ := answer
      obtain ⟨m', htalks, heq⟩ := dispatchInbound_of_answer hclient hread
      have hclient' : m'.clients.lookup sid = some client := by rw [htalks.clients]; exact hclient
      obtain ⟨state, hheard, hstate⟩ := answerRequest_heard hclient' rid result error
      have hhears : Hears sid state m (m.dispatchInbound sid body) := by
        rw [heq]; exact (htalks.calm.hears hclient).trans hheard.hears
      obtain ⟨client', hclient', hst, hpending⟩ := hheard.client; rw [← heq] at hclient'
      obtain ⟨state', hhears', hstate', hor⟩ := ih hclient'; rw [hhears.parse, hpending] at hstate'
      refine ⟨state', hhears.trans hhears', ?_, ?_⟩
      · intro haccepts; rw [Bool.or_eq_false_iff] at haccepts; rw [haccepts.1] at hstate
        rw [hstate' haccepts.2, hst]; exact hstate
      rcases hor with hor | hor
      · rw [hor, hst]
        split at hstate
        · exact .inr hstate
        · exact .inl hstate
      · exact .inr hor

end McpManager

end Mcp

end Pmacs
