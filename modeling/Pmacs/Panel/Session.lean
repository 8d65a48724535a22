/-
  A session's panel: its pointer events and its projections (daemon.rs, editor.rs).

  * `panelEventEpochsAreCurrent`, `panelMappingIsCurrent`: the daemon's ladder.
  * `replayPanelPointer`, `drainPendingRelease`: the gestures of the left button.
  * `PanelSession`: the editor, the projection, and everything that was delivered and written.
-/
import Pmacs.Panel.Frame

namespace Pmacs.Panel

open Lib

variable {P M : Type}

/-! ## Events -/

inductive MouseKind where
  | down (button : MouseButton)
  | up (button : MouseButton)
  | drag (button : MouseButton)
  | move
  | scrollUp
  | scrollDown
  | scrollLeft
  | scrollRight
deriving DecidableEq

def MouseKind.isWheel : MouseKind → Bool
  | scrollUp | scrollDown | scrollLeft | scrollRight => true
  | _ => false

/-- `PanelPointer`, or `PanelPointerMapped` with the mapping generation it echoes. -/
structure PanelPointer where
  geometryEpoch : ℕ
  panelEpoch : ℕ
  bufferId : BufferId
  coord : CellCoord
  kind : MouseKind
  mappingGeneration : Option ℕ
deriving DecidableEq

/-- The mapped family, and not a wheel: what is checked against the mapping. -/
def PanelPointer.checked (ev : PanelPointer) : Bool :=
  ev.mappingGeneration.isSome && !ev.kind.isWheel

/-- What a frame presents, as events echo it. -/
structure Authority where
  geometryEpoch : ℕ
  panelEpoch : ℕ
  mappingGeneration : Option ℕ
deriving DecidableEq

def PanelFramePayload.authority : PanelFramePayload P → Option Authority
  | .present frame => some ⟨frame.geometryEpoch, frame.panelEpoch, none⟩
  | .absent => none
  | .presentMapped frame generation => some ⟨frame.geometryEpoch, frame.panelEpoch, some generation⟩

/-- What is delivered to a target, and what is written to the peer with the editor it was made
    from. A press comes with the authority it was accepted under. -/
inductive Effect (P M : Type) where
  | press (domain : PanelGestureDomain M) (coord : CellCoord) (authority : Option Authority)
  | drag (domain : PanelGestureDomain M) (coord : CellCoord)
  | release (domain : PanelGestureDomain M) (coord : CellCoord)
  | content (kind : MouseKind) (coord : CellCoord)
  | wrote (payload : PanelFramePayload P) (e : Editor P M)

/-! ## The ladder -/

variable (s : SemanticRenderState P M)

variable (e : Editor P M)

namespace SemanticRenderState

def panelDeclarationMatches (geometryEpoch panelEpoch : ℕ)
    (livePresentation : Option (WindowId × BufferId)) : Bool :=
  match livePresentation with
  | none => false
  | some live =>
    s.panelPresentation.any (fun presentation =>
      (presentation.windowId, presentation.bufferId) = live) &&
    s.panelDeclaration.any fun frame =>
      frame.geometryEpoch = geometryEpoch && frame.panelEpoch = panelEpoch

def panelEventEpochsAreCurrent (s : SemanticRenderState P M)
    (geometryEpoch panelEpoch : ℕ) : Bool :=
  s.panelDeclarationMatches geometryEpoch panelEpoch e.side &&
    e.frameGeometry.any fun geometry => geometry.geometryEpoch = geometryEpoch

/-- Zero is refused before wheels are exempt, and a wheel does not read the key. -/
def panelMappingIsCurrent (s : SemanticRenderState P M) (kind : MouseKind)
    (echoed : ℕ) : SemanticRenderState P M × Bool :=
  if echoed = 0 then (s, false)
  else if kind.isWheel then (s, true)
  else
    let read := s.panelMappingGeneration e.panelMappingSnapshot
    (read.1, read.2 = some echoed)

/-- The family is that of the session's version; the mapping is read for an event that passed
    everything else. -/
def ladder (version : ℕ) (e : Editor P M) (s : SemanticRenderState P M) (ev : PanelPointer) :
    SemanticRenderState P M × Bool :=
  if panelMinVersion ≤ version ∧ e.panelCapable ∧
      panelEventEpochsAreCurrent e s ev.geometryEpoch ev.panelEpoch then
    match ev.mappingGeneration with
    | none => (s, version < panelMappingMinVersion)
    | some echoed =>
      if panelMappingMinVersion ≤ version then panelMappingIsCurrent e s ev.kind echoed
      else (s, false)
  else (s, false)

/-! ## Gestures -/

/-- `consume_accepted_gesture`, `note_gesture_content_cell`, `arm_accepted_gesture`. -/
def consumeAcceptedGesture : SemanticRenderState P M :=
  { s with acceptedGesture := none }

def noteGestureContentCell (coord : CellCoord) : SemanticRenderState P M :=
  { s with acceptedGesture := s.acceptedGesture.map fun gesture => { gesture with coord := coord } }

def armAcceptedGesture (gesture : AcceptedPanelGesture M) : SemanticRenderState P M :=
  { s.cancelAcceptedGesture with
    acceptedGesture := some gesture
    assertFailed := s.assertFailed || s.acceptedGesture.isSome || s.pendingRelease.isSome }

def drainPendingRelease : SemanticRenderState P M × List (Effect P M) :=
  match s.pendingRelease with
  | none => (s, [])
  | some record => ({ s with pendingRelease := none }, [.release record.domain record.coord])

/-- The authority of the frame shipped last, under the mapping seen last. -/
def authority : Option Authority :=
  s.panelDeclaration.map fun frame =>
    ⟨frame.geometryEpoch, frame.panelEpoch, s.panelMapping.map (·.2)⟩

end SemanticRenderState

structure ResolvedPanelTarget where
  side : WindowId
  bufferId : BufferId
  isTerminal : Bool
  contentRows : ℕ
  cols : ℕ
deriving DecidableEq

inductive PanelPointerDisposition where
  | refused
  | consumed (target : ResolvedPanelTarget)
  | accepted (target : ResolvedPanelTarget)
deriving DecidableEq

/-- The panel's last row is its mode line: a terminal's takes nothing there, a document's
    releases and wheels only. -/
def classifyPanelPointer (bufferId : BufferId) (coord : CellCoord)
    (kind : MouseKind) : PanelPointerDisposition :=
  match e.gridSize with
  | none => .refused
  | some size =>
    if coord.row ≥ size.rows ∨ coord.col ≥ size.cols then .refused
    else if size.rows - 1 = 0 then .refused
    else
      match e.side with
      | none => .refused
      | some (side, shown) =>
        if shown ≠ bufferId then .refused
        else
          let resolved : ResolvedPanelTarget :=
            ⟨side, bufferId, e.isTerminal bufferId, size.rows - 1, size.cols⟩
          let reserved : Bool := match kind with
            | .down _ | .drag _ | .move => true
            | _ => false
          if coord.row ≥ size.rows - 1 ∧ (e.isTerminal bufferId ∨ reserved) then
            .consumed resolved
          else .accepted resolved

/-- `terminal_projection_size`: the caps of a terminal's grid. -/
def terminalProjectionSize (content : CellSize) : CellSize :=
  let cols := min content.cols 512
  let rows := min content.rows 512
  ⟨min rows (262144 / max cols 1), cols⟩

/-- The domain that a left press resolves into; none where it began nothing. -/
def applyPanelPointer (target : ResolvedPanelTarget) (coord : CellCoord) :
    Option (PanelGestureDomain M) :=
  if target.isTerminal then
    match e.terminalGesture coord with
    | .none => none
    | .child modes => some (.terminalChild target.side target.bufferId modes)
    | .local =>
      some (.terminalLocal target.side target.bufferId
        (terminalProjectionSize ⟨target.contentRows, target.cols⟩))
  else if e.anchors coord then some (.document target.side)
  else none

namespace SemanticRenderState

/-- A left press: a live gesture is ended and its release delivered before, and only a press that
    began something is armed. -/
def replayDown (s : SemanticRenderState P M) (target : ResolvedPanelTarget)
    (ev : PanelPointer) : SemanticRenderState P M × List (Effect P M) :=
  let (s, paid) :=
    if s.acceptedGesture.isSome then s.cancelAcceptedGesture.drainPendingRelease else (s, [])
  match applyPanelPointer e target ev.coord with
  | none => (s, paid)
  | some domain =>
    (s.armAcceptedGesture ⟨.left, ev.coord, ev.bufferId, domain⟩,
      paid ++ [.press domain ev.coord s.authority])

/-- A left release: the ordinary completion in content, the recorded one on chrome. -/
def replayUp (inContent : Bool) (ev : PanelPointer) : SemanticRenderState P M × List (Effect P M) :=
  match s.acceptedGesture with
  | none => (s, [])
  | some record =>
    (s.consumeAcceptedGesture,
      [.release record.domain (if inContent then ev.coord else record.coord)])

/-- An event after the entry drain. -/
def replayClassified (s : SemanticRenderState P M) (ev : PanelPointer) :
    SemanticRenderState P M × List (Effect P M) :=
  match classifyPanelPointer e ev.bufferId ev.coord ev.kind, ev.kind with
  | .refused, _ => (s, [])
  | .accepted target, .down .left => s.replayDown e target ev
  | .consumed _, .down .left => (s, [])
  | .accepted _, .drag .left =>
    match s.acceptedGesture with
    | none => (s, [])
    | some record => (s.noteGestureContentCell ev.coord, [.drag record.domain ev.coord])
  | .consumed _, .drag .left => (s, [])
  | .accepted _, .up .left => s.replayUp true ev
  | .consumed _, .up .left => s.replayUp false ev
  | .accepted _, kind => (s, [.content kind ev.coord])
  | .consumed _, _ => (s, [])

def replayPanelPointer (s : SemanticRenderState P M) (ev : PanelPointer) :
    SemanticRenderState P M × List (Effect P M) :=
  let (s, paid) := s.drainPendingRelease
  let (s, effects) := s.replayClassified e ev
  (s, paid ++ effects)

/-- `project_semantic_frame`: what projection owes is paid before its messages are written. -/
def projectSemanticFrame [DecidableEq P] (validGrid : CellSize → P → Bool) (e : Editor P M)
    (s : SemanticRenderState P M) : SemanticRenderState P M × List (Effect P M) :=
  let (s, message) := s.emitPanelFrame validGrid e
  let (s, paid) := s.drainPendingRelease
  (s, paid ++ message.toList.map fun payload => .wrote payload e)

end SemanticRenderState

/-! ## A session -/

/-- A session of one version: the editor as its panel reads it, its projection until it detaches,
    and everything delivered and written, in order. -/
structure PanelSession (P M : Type) where
  version : ℕ
  editor : Editor P M
  semantic : Option (SemanticRenderState P M)
  log : List (Effect P M)

namespace PanelSession

def start (version : ℕ) (e : Editor P M) : PanelSession P M :=
  ⟨version, { e with frameGeometry := none }, some (.forPeer version), []⟩

def acceptFrameGeometry (geometryEpoch : ℕ) (total : CellSize) : Editor P M :=
  { e with frameGeometry := (acceptGeometry e.frameGeometry geometryEpoch total).1 }

variable (c : PanelSession P M)

/-- `FrontendCellGeometry`. -/
def declareGeometry (geometryEpoch : ℕ) (total : CellSize) : PanelSession P M :=
  if c.semantic.isSome ∧ panelMinVersion ≤ c.version ∧ c.editor.panelCapable then
    { c with editor := acceptFrameGeometry c.editor geometryEpoch total }
  else c

/-- Windows, buffers, mappings and grids become others; what is declared stays. -/
def edited (e : Editor P M) : PanelSession P M :=
  { c with editor := { e with frameGeometry := c.editor.frameGeometry } }

def passes (ev : PanelPointer) : Bool :=
  c.semantic.any fun s => (s.ladder c.version c.editor ev).2

def pointer (ev : PanelPointer) : PanelSession P M :=
  match c.semantic with
  | none => c
  | some s =>
    let (s, passed) := s.ladder c.version c.editor ev
    if passed then
      let (s, effects) := s.replayPanelPointer c.editor ev
      { c with semantic := some s, log := c.log ++ effects }
    else { c with semantic := some s }

def project [DecidableEq P] (validGrid : CellSize → P → Bool) (c : PanelSession P M) :
    PanelSession P M :=
  match c.semantic with
  | none => c
  | some s =>
    let (s, effects) := s.projectSemanticFrame validGrid c.editor
    { c with semantic := some s, log := c.log ++ effects }

/-- `detach_frontend`: the live gesture is ended and its release delivered before the projection
    goes. -/
def detach : PanelSession P M :=
  match c.semantic with
  | none => c
  | some s =>
    { c with semantic := none, log := c.log ++ s.cancelAcceptedGesture.drainPendingRelease.2 }

/-- What happens to a session. -/
inductive Event (P M : Type) where
  | edited (e : Editor P M)
  | geometry (geometryEpoch : ℕ) (total : CellSize)
  | pointer (ev : PanelPointer)
  | project
  | detach

variable [DecidableEq P] (validGrid : CellSize → P → Bool)

def step (c : PanelSession P M) : Event P M → PanelSession P M
  | .edited e => c.edited e
  | .geometry geometryEpoch total => c.declareGeometry geometryEpoch total
  | .pointer ev => c.pointer ev
  | .project => c.project validGrid
  | .detach => c.detach

def run (c : PanelSession P M) (events : List (Event P M)) : PanelSession P M :=
  events.foldl (step validGrid) c

/-- A state of some run of a session. -/
def Reachable (c : PanelSession P M) : Prop :=
  ∃ version e events, c = (start version e).run validGrid events

theorem Reachable.induct {Q : PanelSession P M → Prop} (hstart : ∀ version e, Q (start version e))
    (hstep : ∀ c event, Q c → Q (c.step validGrid event)) {c : PanelSession P M}
    (h : Reachable validGrid c) : Q c := by
  obtain ⟨version, e, events, rfl⟩ := h
  have hrun : ∀ (events : List (Event P M)) (c : PanelSession P M), Q c →
      Q (c.run validGrid events) := by
    intro events
    induction events with
    | nil => exact fun c hc => hc
    | cons event events ih => exact fun c hc => ih _ (hstep c event hc)
  exact hrun events _ (hstart version e)

end PanelSession

end Pmacs.Panel
