/-
  The daemon's registry of sessions (presence.rs).

  * `SessionRegistry`: the registered sessions, the presence last broadcast of each source, the
    views kept for lost sessions, and the sessions that drain.
  * `registerSession`, `unregisterSession`: a session is registered and unregistered whole.
  * `sweep`: the presence broadcasts of one call.
-/
import Pmacs.Lib.Assoc

namespace Pmacs.Sessions

open Lib

abbrev FrontendId := ℕ
abbrev BufferId := ℕ
abbrev Position := ℕ

/-- Sixteen bytes that are never given out twice. -/
abbrev SessionToken := ℕ

structure NegotiatedCapabilities where
  multiFrontend : Bool
  crdtReplica : Bool
  semanticRender : Bool
deriving DecidableEq

structure SessionState where
  negotiatedProtocolVersion : ℕ
  negotiatedCapabilities : NegotiatedCapabilities
  token : Option SessionToken
deriving DecidableEq

/-- A session: what it negotiated, whether it has a stream to write, and whether its reader's
    departure flag is held with it. -/
structure Session where
  state : SessionState
  stream : Bool
  departing : Bool
deriving DecidableEq

def Session.new (state : SessionState) : Session := ⟨state, false, false⟩

/-! ## Presence -/

structure SelectionSnapshot where
  anchor : Position
  active : Position
deriving DecidableEq

structure PresenceSnapshot where
  bufferId : BufferId
  cursor : Position
  selection : Option SelectionSnapshot
deriving DecidableEq

/-- `InstanceMessage::PresenceUpdate`. -/
structure PresenceUpdate where
  frontendId : FrontendId
  bufferId : BufferId
  cursor : Position
  selection : Option SelectionSnapshot
deriving DecidableEq

def PresenceSnapshot.update (snapshot : PresenceSnapshot) (source : FrontendId) : PresenceUpdate :=
  ⟨source, snapshot.bufferId, snapshot.cursor, snapshot.selection⟩

structure BroadcastEntry where
  recipient : FrontendId
  message : PresenceUpdate
deriving DecidableEq

structure RetainedView (V : Type) where
  view : V
  since : ℕ

structure SessionRegistry (V : Type) where
  lastBroadcast : Assoc FrontendId PresenceSnapshot
  sessions : Assoc FrontendId Session
  retained : Assoc SessionToken (RetainedView V)
  drains : Assoc FrontendId ℕ

namespace SessionRegistry

variable {V : Type}

def new : SessionRegistry V := ⟨∅, ∅, ∅, ∅⟩

variable (r : SessionRegistry V) (id : FrontendId)

def sessionState : Option SessionState :=
  (r.sessions.lookup id).map (·.state)

/-- Registering an id already registered replaces its state and keeps the rest. -/
def registerSession (state : SessionState) : SessionRegistry V :=
  { r with
    sessions := match r.sessions.lookup id with
      | some session => r.sessions.insert id { session with state := state }
      | none => r.sessions.insert id (Session.new state) }

def unregisterSession : SessionRegistry V :=
  { r with
    sessions := r.sessions.erase id
    lastBroadcast := r.lastBroadcast.erase id
    drains := r.drains.erase id }

/-- Whether a session is registered that is told of others' presence. -/
def isMulti : Bool :=
  (r.sessions.lookup id).any fun session => session.state.negotiatedCapabilities.multiFrontend

def recipients (source : FrontendId) : List FrontendId :=
  (r.sessions.entries.filter fun e =>
    e.1 ≠ source ∧ e.2.state.negotiatedCapabilities.multiFrontend).map (·.1)

def sweepSource (source : FrontendId) (snapshot : PresenceSnapshot) :
    SessionRegistry V × List BroadcastEntry :=
  if r.lastBroadcast.lookup source = some snapshot then (r, [])
  else
    let r := { r with lastBroadcast := r.lastBroadcast.insert source snapshot }
    (r, (r.recipients source).map fun recipient => ⟨recipient, snapshot.update source⟩)

/-- The broadcasts for the sources' snapshots, one source after the other. -/
def sweep : List (FrontendId × PresenceSnapshot) → SessionRegistry V →
    SessionRegistry V × List BroadcastEntry
  | [], r => (r, [])
  | (source, snapshot) :: current, r =>
    let (r, out) := r.sweepSource source snapshot
    let (r, rest) := sweep current r
    (r, out ++ rest)

theorem mem_recipients {r : SessionRegistry V} {source id : FrontendId} :
    id ∈ r.recipients source ↔ id ≠ source ∧ r.isMulti id = true := by
  unfold recipients isMulti
  rw [Option.any_eq_true]
  constructor
  · rintro h; obtain ⟨e, he, rfl⟩ := List.mem_map.1 h; obtain ⟨hmem, hp⟩ := List.mem_filter.1 he
    rw [decide_eq_true_eq] at hp; exact ⟨hp.1, e.2, Assoc.mem_entries_iff.1 hmem, hp.2⟩
  rintro ⟨hne, session, hlookup, hmulti⟩
  refine List.mem_map.2 ⟨⟨id, session⟩, List.mem_filter.2 ⟨Assoc.mem_entries_iff.2 hlookup, ?_⟩,
    rfl⟩
  simp [hne, hmulti]

/-! ## Views kept -/

def retainView (token : SessionToken) (view : V) (now : ℕ) : SessionRegistry V :=
  { r with retained := r.retained.insert token ⟨view, now⟩ }

def sessionHolding (token : SessionToken) : Option FrontendId :=
  (r.sessions.entries.find? fun e => e.2.state.token = some token).map (·.1)

def takeRetained (token : SessionToken) : SessionRegistry V × Option V :=
  ({ r with retained := r.retained.erase token },
    (r.retained.lookup token).map (·.view))

/-- Every view retained for `ttl` or longer is removed. -/
def expireRetained (ttl now : ℕ) : SessionRegistry V :=
  { r with retained := Assoc.retain (fun _ kept => !(ttl ≤ now - kept.since)) r.retained }

end SessionRegistry

end Pmacs.Sessions
