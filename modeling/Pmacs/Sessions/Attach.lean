/-
  Sessions attached, lost and resumed (daemon.rs, presence.rs).

  * `Daemon`: the registry, the views of the frontends, and what happened to them: the sessions
    registered, the runs of `frontend.detached`, the views dropped with leave, and the view each
    token sent was sent for.
  * `handleSessionEstablished`: one attach, up to where its bootstrap gets (`Bootstrap`).
  * `Daemon.custody`: the view in each place, a registered session or the retained map, and
    `Daemon.placeToken`, the token it is there under.
-/
import Pmacs.Sessions.Registry
import Pmacs.Lib.Custody

namespace Pmacs.Sessions

open Lib Option

abbrev ViewId := ℕ

abbrev CellSize := ℕ × ℕ

def sessionMinVersion : ℕ := 27

def panelMinVersion : ℕ := 21

/-- A frontend's view, told apart from every other by `id`. Its windows are its own. -/
structure FrontendView where
  id : ViewId
  foldProjection : Bool
  panelCapable : Bool
  frameGeometry : Option CellSize
  documentViewport : Option (BufferId × Position × Position)
deriving DecidableEq

variable (d : Daemon) (id : FrontendId) (state : SessionState) (token : Option SessionToken)

def SessionState.withToken : SessionState :=
  { state with token := token }

def SessionState.mintsToken : Bool :=
  sessionMinVersion ≤ state.negotiatedProtocolVersion &&
    state.negotiatedCapabilities.semanticRender

def peerDeclaredPanelSupport : Bool :=
  !state.negotiatedCapabilities.semanticRender ||
    panelMinVersion ≤ state.negotiatedProtocolVersion

namespace SessionRegistry

variable {V : Type}

variable (r : SessionRegistry V)

/-- Held only for a registered session. -/
def setDepartureFlag (id : FrontendId) : SessionRegistry V :=
  match r.sessions.lookup id with
  | some session => { r with sessions := r.sessions.insert id { session with departing := true } }
  | none => r

def installStream (id : FrontendId) : SessionRegistry V :=
  match r.sessions.lookup id with
  | some session => { r with sessions := r.sessions.insert id { session with stream := true } }
  | none => r

def shutStream (id : FrontendId) : SessionRegistry V :=
  match r.sessions.lookup id with
  | some session => { r with sessions := r.sessions.insert id { session with stream := false } }
  | none => r

/-- Held only for a registered session. -/
def beginDrain (id : FrontendId) (now : ℕ) : SessionRegistry V :=
  if (r.sessions.lookup id).isSome then { r with drains := r.drains.insert id now } else r

/-- `write_output`, where the write fails: nothing more is written, and the session drains. -/
def writeOutputFailed (id : FrontendId) (now : ℕ) : SessionRegistry V :=
  match r.sessions.lookup id with
  | some session => if session.stream then (r.shutStream id).beginDrain id now else r
  | none => r

def drainsPast (deadline now : ℕ) : List FrontendId :=
  (r.drains.entries.filter fun e => deadline ≤ now - e.2).map (·.1)

/-- Whether the session's departure flag is held, which its reader sets. -/
def holdsFlag (id : FrontendId) : Bool :=
  (r.sessions.lookup id).any (·.departing)

/-! ### What is read of the sessions -/

theorem sessionState_insert (id j : FrontendId) (session : Session) :
    sessionState { r with sessions := r.sessions.insert id session } j =
      if j = id then some session.state else r.sessionState j := by
  by_cases h : j = id
  · subst h; simp [sessionState]
  · simp [sessionState, h]

theorem sessionState_update {r : SessionRegistry V} {id : FrontendId} {session : Session}
    (h : r.sessions.lookup id = some session) {session' : Session}
    (hstate : session'.state = session.state) :
    sessionState { r with sessions := r.sessions.insert id session' } = r.sessionState := by
  funext j
  rw [sessionState_insert]
  split
  · next hj => rw [hj, hstate, sessionState, h, map_some]
  · rfl

@[simp]
theorem sessionState_registerSession {id j : FrontendId}
    {state : SessionState} : (r.registerSession id state).sessionState j =
      if j = id then some state else r.sessionState j := by
  unfold registerSession
  cases r.sessions.lookup id <;> exact sessionState_insert ..

@[simp]
theorem sessionState_setDepartureFlag (id : FrontendId) :
    (r.setDepartureFlag id).sessionState = r.sessionState := by
  unfold setDepartureFlag
  split
  · next h => exact sessionState_update h rfl
  · rfl

@[simp]
theorem sessionState_installStream {id : FrontendId} :
    (r.installStream id).sessionState = r.sessionState := by
  unfold installStream
  split
  · next h => exact sessionState_update h rfl
  · rfl

@[simp]
theorem sessionState_shutStream {id : FrontendId} :
    (r.shutStream id).sessionState = r.sessionState := by
  unfold shutStream
  split
  · next h => exact sessionState_update h rfl
  · rfl

@[simp]
theorem sessionState_writeOutputFailed (id : FrontendId) (now : ℕ) :
    (r.writeOutputFailed id now).sessionState = r.sessionState := by
  unfold writeOutputFailed beginDrain
  repeat' split
  all_goals first | rfl | exact sessionState_shutStream r

@[simp]
theorem sessionState_unregisterSession (id j : FrontendId) :
    (r.unregisterSession id).sessionState j = if j = id then none else r.sessionState j := by
  by_cases h : j = id
  · subst h; simp [sessionState, unregisterSession]
  · simp [sessionState, unregisterSession, h]

@[simp]
theorem retained_registerSession (id : FrontendId)
    (state : SessionState) : (r.registerSession id state).retained = r.retained := rfl

@[simp]
theorem retained_setDepartureFlag (id : FrontendId) :
    (r.setDepartureFlag id).retained = r.retained := by
  unfold setDepartureFlag
  split <;> rfl

@[simp]
theorem retained_installStream {id : FrontendId} : (r.installStream id).retained = r.retained := by
  unfold installStream
  split <;> rfl

@[simp]
theorem retained_shutStream {id : FrontendId} : (r.shutStream id).retained = r.retained := by
  unfold shutStream
  split <;> rfl

@[simp]
theorem retained_unregisterSession {id : FrontendId} :
    (r.unregisterSession id).retained = r.retained := rfl

@[simp]
theorem retained_writeOutputFailed (id : FrontendId) (now : ℕ) :
    (r.writeOutputFailed id now).retained = r.retained := by
  unfold writeOutputFailed beginDrain
  repeat' split
  all_goals first | rfl | exact retained_shutStream r

end SessionRegistry

/-! ## The daemon -/

/-- `flags` are the sessions whose departure flag is set. From `registered` on is what happened:
    the sessions registered, the runs of `frontend.detached`, the views dropped by a departure
    announced or by retention passing, and the view each token was sent for. -/
structure Daemon where
  registry : SessionRegistry FrontendView
  views : Assoc FrontendId FrontendView
  flags : List FrontendId
  minted : SessionToken
  made : ViewId
  now : ℕ
  registered : List FrontendId
  hooks : List FrontendId
  ended : List ViewId
  names : Assoc SessionToken ViewId

/-- How far an attach gets: it fails before its session is registered, the result of its target
    or its token cannot be written, or everything is written. -/
inductive Bootstrap where
  | failed
  | unsent
  | written
deriving DecidableEq

namespace Daemon

def start : Daemon := ⟨.new, ∅, [], 0, 0, 0, [], [], [], ∅⟩

/-- `build_fresh_frontend_view`. -/
def freshView (foldProjection panelCapable : Bool) : FrontendView :=
  ⟨d.made, foldProjection, panelCapable, none, none⟩

def isDeparting : Bool :=
  d.registry.holdsFlag id && decide (id ∈ d.flags)

/-- The view an attach starts on: the one retained for its token, with this session's projection
    and panel facts and no geometry, or a fresh one. -/
def attachView (retained : Option FrontendView) : Daemon × FrontendView :=
  let foldProjection := !state.negotiatedCapabilities.semanticRender
  let panelCapable := peerDeclaredPanelSupport state
  match retained with
  | some view =>
    (d, { view with
      foldProjection := foldProjection
      panelCapable := panelCapable
      frameGeometry := none
      documentViewport := none })
  | none => ({ d with made := d.made + 1 }, d.freshView foldProjection panelCapable)

def syncAttachSize (size : CellSize) : Daemon :=
  match d.views.lookup id with
  | some view =>
    if !state.negotiatedCapabilities.semanticRender && view.panelCapable then
      { d with views := d.views.insert id { view with frameGeometry := some size } }
    else d
  | none => d

/-- A session whose bootstrap's last writes failed leaves nothing. -/
def cleanupProvisionalSession : Daemon :=
  { d with
    registry := (d.registry.shutStream id).unregisterSession id
    views := d.views.erase id }

/-- From `register_session` on, up to the last writes. -/
def register (size : CellSize) : Daemon :=
  { d with
    registry := (d.registry.registerSession id state).setDepartureFlag id
    registered := id :: d.registered }.syncAttachSize id state size

def nameView (names : Assoc SessionToken ViewId) (token : Option SessionToken) (view : ViewId) :
    Assoc SessionToken ViewId :=
  match token with
  | some token => names.insert token view
  | none => names

/-- The session takes its stream, and its token is on the wire. -/
def install (view : ViewId) : Daemon :=
  { d with
    registry := d.registry.installStream id
    names := nameView d.names token view }

def takePresented (resume : Option SessionToken) : Daemon × Option FrontendView :=
  match resume with
  | some token =>
    ({ d with registry := (d.registry.takeRetained token).1 }, (d.registry.takeRetained token).2)
  | none => (d, none)

def mintFor : Daemon × Option SessionToken :=
  if state.mintsToken then ({ d with minted := d.minted + 1 }, some d.minted) else (d, none)

/-- An attach under way: the daemon, the session's state with its token, and its view. -/
structure Started where
  daemon : Daemon
  state : SessionState
  view : FrontendView

/-- The view is taken or built, the token minted, and the view registered. -/
def beginAttach (resume : Option SessionToken) : Started :=
  let (d, retained) := d.takePresented resume
  let (d, token) := d.mintFor state
  let (d, view) := d.attachView state retained
  ⟨{ d with views := d.views.insert id view }, state.withToken token, view⟩

/-- The socket of a live token is refused; else the attach goes as far as its bootstrap gets.
    Returns the token sent, if one was. -/
def handleSessionEstablished
    (size : CellSize) (resume : Option SessionToken) (bootstrap : Bootstrap) :
    Daemon × Option SessionToken :=
  match resume.bind d.registry.sessionHolding with
  | some _ => (d, none)
  | none =>
    let s := d.beginAttach id state resume
    match bootstrap with
    | .failed => ({ s.daemon with views := s.daemon.views.erase id }, none)
    | .unsent => ((s.daemon.register id s.state size).cleanupProvisionalSession id, none)
    | .written =>
      ((s.daemon.register id s.state size).install id s.state.token s.view.id, s.state.token)

def giveUpView (departing : Bool) (retention : ℕ) : Daemon :=
  match d.views.lookup id with
  | none => d
  | some view =>
    let d := { d with views := d.views.erase id }
    match token with
    | some token =>
      if !departing && retention ≠ 0 then
        { d with registry := d.registry.retainView token view d.now }
      else { d with ended := view.id :: d.ended }
    | none => d

/-- A frontend with no registered session is a no-op. -/
def detachFrontend (retention : ℕ) : Daemon :=
  match d.registry.sessionState id with
  | none => d
  | some session =>
    let departing := d.isDeparting id
    let d := { d with registry := d.registry.unregisterSession id }
    let d := d.giveUpView id session.token departing retention
    { d with hooks := id :: d.hooks }

def detachPast (deadline retention : ℕ) : Daemon :=
  (d.registry.drainsPast deadline d.now).foldl (fun d id => d.detachFrontend id retention) d

/-- A frontend whose own quit asked to leave. -/
def detachRequested (retention : ℕ) : Daemon :=
  match d.registry.sessionState id with
  | none => d
  | some _ =>
    let d := if d.registry.holdsFlag id then { d with flags := id :: d.flags } else d
    { d with registry := d.registry.shutStream id }.detachFrontend id retention

/-- Views retained for the whole retention give up their windows. -/
def expire (retention : ℕ) : Daemon :=
  { d with
    registry := d.registry.expireRetained retention d.now
    ended := (d.registry.retained.entries.filter fun e =>
      retention ≤ d.now - e.2.since).map (·.2.view.id) ++ d.ended }

/-- What a frontend declares changes its view, while its session is registered. -/
def declare (size : Option CellSize)
    (viewport : Option (BufferId × Position × Position)) : Daemon :=
  match d.registry.sessionState id, d.views.lookup id with
  | some _, some view =>
    let view := { view with
      frameGeometry := size.or view.frameGeometry
      documentViewport := viewport.or view.documentViewport }
    { d with views := d.views.insert id view }
  | _, _ => d

end Daemon

/-! ## Places -/

/-- Where the daemon keeps a view: as a registered session's, or retained under a token. -/
inductive Place where
  | session (id : FrontendId)
  | retained (token : SessionToken)
deriving DecidableEq

namespace Daemon

def custody : Custody Place ViewId
  | .session id => (d.registry.sessionState id).bind fun _ => (d.views.lookup id).map (·.id)
  | .retained token => (d.registry.retained.lookup token).map (·.view.id)

def placeToken : Place → Option SessionToken
  | .session id => (d.registry.sessionState id).bind (·.token)
  | .retained token => some token

end Daemon

end Pmacs.Sessions
