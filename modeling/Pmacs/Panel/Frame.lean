/-
  The panel frames of one frontend's projection (semantic_render.rs).

  * `Editor`: what the projection reads of the editor.
  * `SemanticRenderState`: the panel half of a session's projection.
  * `panelMappingGeneration`: the key of what a cell denotes, advanced where that changed.
  * `emitPanelFrame`, `publishAbsentPanel`: what a projection ships.
-/
import Pmacs.Lib.Integers
import Pmacs.Window.Layout

namespace Pmacs.Panel

open Lib

abbrev WindowId := ℕ
abbrev BufferId := ℕ

def panelMinVersion : ℕ := 21

/-- The first version whose panel frames and events carry a mapping generation. -/
def panelMappingMinVersion : ℕ := 25

/-! ## What is read of the editor -/

inductive WrapMode where
  | wrap
  | truncate
deriving DecidableEq

structure LogicalCellAnchor where
  logicalLineId : ℕ
  cellOffset : ℕ
deriving DecidableEq

/-- What decides the byte or the child's cell that a panel cell denotes. -/
inductive PanelMappingContent where
  | document (revision : Option ℕ) (viewTop viewLeft : ℕ) (mode : WrapMode) (contentCols : ℕ)
      (foldProjection : Bool) (folds : List (ℕ × ℕ))
  | terminal (mappingRevision : ℕ) (anchor : Option LogicalCellAnchor)
deriving DecidableEq

structure PanelMappingSnapshot where
  bufferId : BufferId
  rows : ℕ
  cols : ℕ
  content : PanelMappingContent
deriving DecidableEq

/-- How a terminal took a gesture: reported to its child under its modes, or handled locally. -/
inductive TerminalGestureRoute (M : Type) where
  | none
  | child (modes : M)
  | local
deriving DecidableEq

section
variable (P M : Type)

/-- The editor as one frontend's panel reads it: the live side window and its buffer, the grid
    derived for it, what its cells denote, what is painted in it, and what its target makes of a
    press. `P` is a painted grid, `M` a child's modes. -/
structure Editor where
  panelCapable : Bool
  frameGeometry : Option DeclaredFrameGeometry
  side : Option (WindowId × BufferId)
  gridSize : Option CellSize
  content : PanelMappingContent
  painted : Option P
  isTerminal : BufferId → Bool
  terminalGesture : CellCoord → TerminalGestureRoute M
  anchors : CellCoord → Bool

structure PanelProjection where
  windowId : WindowId
  bufferId : BufferId
  size : CellSize
  painted : P
deriving DecidableEq

structure PanelFrame where
  bufferId : BufferId
  panelEpoch : ℕ
  geometryEpoch : ℕ
  size : CellSize
  painted : P
deriving DecidableEq

inductive PanelFramePayload where
  | present (frame : PanelFrame P)
  | absent
  | presentMapped (frame : PanelFrame P) (mappingGeneration : ℕ)
deriving DecidableEq

end

section
variable {P M : Type}

namespace Editor

def panelMappingSnapshot (e : Editor P M) : Option PanelMappingSnapshot := do
  let size ← e.gridSize
  let (_, bufferId) ← e.side
  return ⟨bufferId, size.rows, size.cols, e.content⟩

/-- None for what is not presentable. -/
def preparePanelProjection (e : Editor P M) : Option (PanelProjection P) := do
  let size ← e.gridSize
  let (windowId, bufferId) ← e.side
  let painted ← e.painted
  return ⟨windowId, bufferId, size, painted⟩

theorem side_of_projection {e : Editor P M} {p : PanelProjection P}
    (h : e.preparePanelProjection = some p) : e.side = some (p.windowId, p.bufferId) := by
  simp only [preparePanelProjection, Option.bind_eq_bind, Option.bind_eq_some_iff,
    Option.pure_def, Option.some.injEq] at h
  obtain ⟨size, -, ⟨w, b⟩, hside, painted, -, rfl⟩ := h
  exact hside

end Editor

namespace PanelFramePayload

def frame : PanelFramePayload P → Option (PanelFrame P)
  | present frame | presentMapped frame _ => some frame
  | absent => none

def mappingGeneration : PanelFramePayload P → Option ℕ
  | presentMapped _ generation => some generation
  | _ => none

end PanelFramePayload

end

/-! ## The panel half of a projection -/

inductive MouseButton where
  | left
  | right
  | middle
deriving DecidableEq

/-- What a press resolved into, which its drags and its release follow. -/
inductive PanelGestureDomain (M : Type) where
  | document (window : WindowId)
  | terminalChild (window : WindowId) (bufferId : BufferId) (modes : M)
  | terminalLocal (window : WindowId) (bufferId : BufferId) (viewport : CellSize)
deriving DecidableEq

/-- An accepted press that is not completed, with its last content cell. -/
structure AcceptedPanelGesture (M : Type) where
  button : MouseButton
  coord : CellCoord
  bufferId : BufferId
  domain : PanelGestureDomain M
deriving DecidableEq

structure PanelPresentation where
  windowId : WindowId
  bufferId : BufferId
  panelEpoch : ℕ
  geometryEpoch : ℕ
deriving DecidableEq

/-- A session's projection, as far as its panel goes. `assertFailed` is set where a debug
    assertion fails, as when a release that is still owed is overwritten; no function reads it. -/
structure SemanticRenderState (P M : Type) where
  peerKnowsPanelFrames : Bool
  peerKnowsMappedPanel : Bool
  lastPanelPayload : PanelFramePayload P
  panelMapping : Option (PanelMappingSnapshot × ℕ)
  panelMappingExhausted : Bool
  acceptedGesture : Option (AcceptedPanelGesture M)
  pendingRelease : Option (AcceptedPanelGesture M)
  panelGestureCancellations : ℕ
  panelEpochUsed : ℕ
  panelPresentation : Option PanelPresentation
  assertFailed : Bool

variable {P M : Type}

namespace SemanticRenderState

def forPeer (negotiatedProtocolVersion : ℕ) : SemanticRenderState P M where
  peerKnowsPanelFrames := panelMinVersion ≤ negotiatedProtocolVersion
  peerKnowsMappedPanel := panelMappingMinVersion ≤ negotiatedProtocolVersion
  lastPanelPayload := .absent
  panelMapping := none
  panelMappingExhausted := false
  acceptedGesture := none
  pendingRelease := none
  panelGestureCancellations := 0
  panelEpochUsed := 0
  panelPresentation := none
  assertFailed := false

variable (validGrid : CellSize → P → Bool) (s : SemanticRenderState P M)

def panelDeclaration : Option (PanelFrame P) :=
  s.lastPanelPayload.frame

def cancelAcceptedGesture : SemanticRenderState P M :=
  match s.acceptedGesture with
  | none => s
  | some record => { s with
      acceptedGesture := none
      pendingRelease := some record
      panelGestureCancellations := min (s.panelGestureCancellations + 1) u64Max
      assertFailed := s.assertFailed || s.pendingRelease.isSome }

/-- The key of the present mapping: advanced if it is another than the one last seen, none past
    the last key. -/
def panelMappingGeneration (snapshot : Option PanelMappingSnapshot) :
    SemanticRenderState P M × Option ℕ :=
  if s.panelMappingExhausted then (s, none)
  else
    match snapshot with
    | none => (s, none)
    | some snapshot =>
      match s.panelMapping with
      | none => ({ s with panelMapping := some (snapshot, 1) }, some 1)
      | some (seen, generation) =>
        if seen = snapshot then ({ s with panelMapping := some (snapshot, generation) }, some generation)
        else
          let s := s.cancelAcceptedGesture
          match checkedAdd u64Max generation 1 with
          | none => ({ s with panelMappingExhausted := true }, none)
          | some next => ({ s with panelMapping := some (snapshot, next) }, some next)

/-- `Absent` takes away the authority of what was presented; a second one is not sent. -/
def publishAbsentPanel [DecidableEq P] : SemanticRenderState P M × Option (PanelFramePayload P) :=
  let s := s.cancelAcceptedGesture
  let s := { s with panelPresentation := none }
  if s.lastPanelPayload = .absent then (s, none)
  else ({ s with lastPanelPayload := .absent }, some .absent)

/-- A gesture belongs to the presentation and the geometry it was pressed on. -/
def cancelReplaced (identity : WindowId × BufferId) (geometryEpoch : ℕ) : SemanticRenderState P M :=
  match s.panelPresentation with
  | none => s
  | some presentation =>
    if (presentation.windowId, presentation.bufferId) ≠ identity ∨
        presentation.geometryEpoch ≠ geometryEpoch then s.cancelAcceptedGesture
    else s

/-- The epoch of a presentation that goes on, or a fresh one. -/
def panelEpoch (s : SemanticRenderState P M) (identity : WindowId × BufferId) : Option ℕ :=
  match s.panelPresentation with
  | none => checkedAdd u64Max s.panelEpochUsed 1
  | some presentation =>
    if (presentation.windowId, presentation.bufferId) = identity then some presentation.panelEpoch
    else checkedAdd u64Max s.panelEpochUsed 1

/-- The payload of a frame: stamped with the key of the mapping for a peer that knows it. -/
def stamp (e : Editor P M) (frame : PanelFrame P) :
    SemanticRenderState P M × Option (PanelFramePayload P) :=
  if s.peerKnowsMappedPanel then
    let read := s.panelMappingGeneration e.panelMappingSnapshot
    (read.1, read.2.map fun generation => .presentMapped frame generation)
  else (s, some (.present frame))

/-- `PanelFrame::validate`, over the check of a grid. -/
def validate (frame : PanelFrame P) : Bool :=
  frame.panelEpoch ≠ 0 && frame.geometryEpoch ≠ 0 && validGrid frame.size frame.painted

/-- A payload equal to the last is not sent again, and one whose frame is not valid not at all. -/
def ship [DecidableEq P]
    (windowId : WindowId) (frame : PanelFrame P) (payload : PanelFramePayload P) :
    SemanticRenderState P M × Option (PanelFramePayload P) :=
  if s.lastPanelPayload = payload then (s, none)
  else if validate validGrid frame then
    ({ s with
      panelEpochUsed := max s.panelEpochUsed frame.panelEpoch
      panelPresentation :=
        some ⟨windowId, frame.bufferId, frame.panelEpoch, frame.geometryEpoch⟩
      lastPanelPayload := payload }, some payload)
  else (s, none)

def emitPanelFrame [DecidableEq P] (e : Editor P M)
    (s : SemanticRenderState P M) : SemanticRenderState P M × Option (PanelFramePayload P) :=
  if !s.peerKnowsPanelFrames || !e.panelCapable then (s, none)
  else
    match e.frameGeometry, e.preparePanelProjection with
    | some geometry, some projection =>
      let identity := (projection.windowId, projection.bufferId)
      let s := s.cancelReplaced identity geometry.geometryEpoch
      match s.panelEpoch identity with
      | none => s.publishAbsentPanel
      | some panelEpoch =>
        let frame : PanelFrame P :=
          ⟨projection.bufferId, panelEpoch, geometry.geometryEpoch, projection.size,
            projection.painted⟩
        match s.stamp e frame with
        | (s, none) => s.publishAbsentPanel
        | (s, some payload) => s.ship validGrid projection.windowId frame payload
    | _, _ => s.publishAbsentPanel

def projectedFrame (geometry : DeclaredFrameGeometry) (projection : PanelProjection P)
    (panelEpoch : ℕ) : PanelFrame P :=
  ⟨projection.bufferId, panelEpoch, geometry.geometryEpoch, projection.size, projection.painted⟩

/-- Everything that a projection does: nothing, an absent panel, or the frame of the live side
    window under the accepted geometry, after what it replaces was cancelled and it was stamped. -/
theorem emitPanelFrame_cases [DecidableEq P] (e : Editor P M)
    (s : SemanticRenderState P M) :
    s.emitPanelFrame validGrid e = (s, none) ∨
    s.emitPanelFrame validGrid e = s.publishAbsentPanel ∨
    ∃ geometry projection replaced, e.frameGeometry = some geometry ∧
      e.preparePanelProjection = some projection ∧
      replaced = s.cancelReplaced (projection.windowId, projection.bufferId)
        geometry.geometryEpoch ∧
      (s.emitPanelFrame validGrid e = replaced.publishAbsentPanel ∨
        ∃ panelEpoch stamped,
          replaced.panelEpoch (projection.windowId, projection.bufferId) = some panelEpoch ∧
          stamped = (replaced.stamp e (projectedFrame geometry projection panelEpoch)).1 ∧
          ((replaced.stamp e (projectedFrame geometry projection panelEpoch)).2 = none ∧
            s.emitPanelFrame validGrid e = stamped.publishAbsentPanel ∨
          ∃ payload,
            (replaced.stamp e (projectedFrame geometry projection panelEpoch)).2 = some payload ∧
            s.emitPanelFrame validGrid e = stamped.ship validGrid projection.windowId
              (projectedFrame geometry projection panelEpoch) payload)) := by
  unfold emitPanelFrame
  split
  · exact .inl rfl
  split
  · rename_i geometry projection hgeo hprojection
    refine .inr (.inr ⟨geometry, projection, _, hgeo, hprojection, rfl, ?_⟩); dsimp only
    split
    · exact .inl rfl
    rename_i panelEpoch hpanelEpoch
    split
    · rename_i stamped hstamp
      exact .inr ⟨panelEpoch, stamped, hpanelEpoch, (congrArg Prod.fst hstamp).symm,
        .inl ⟨congrArg Prod.snd hstamp, rfl⟩⟩
    rename_i stamped payload hstamp
    exact .inr ⟨panelEpoch, stamped, hpanelEpoch, (congrArg Prod.fst hstamp).symm,
      .inr ⟨payload, congrArg Prod.snd hstamp, rfl⟩⟩
  · exact .inr (.inl rfl)

end SemanticRenderState

end Pmacs.Panel
