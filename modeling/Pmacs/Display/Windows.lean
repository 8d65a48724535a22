/-
  Splitting, focusing and closing windows (editor_core.rs).

  * `trySplitActive`, `focusStep`, `closeActive`, `closeOthers`: the commands of the acting
    frontend;
  * `removeSideWindow`, `killBuffer`: the closing of side windows and what it leaves focused;
  * `declareFrameGeometry`, `acceptFrameGeometry`, `reconcilePanelLayoutCore`: the size of a
    frontend's frame and whether its side window can be shown in it.
-/
import Pmacs.Display.Core

namespace Pmacs.Display

open Lib

namespace EditorCore

/-! ## Splitting -/

variable (c : EditorCore)

/-- Show a split of the active window: the same buffer in it, or a new one. -/
def splitActive (orientation : Orientation) (sameBuffer : Bool) : Option (EditorCore × WindowId) :=
  match c.activeView with
  | none => none
  | some view =>
    match c.windows view.active with
    | none => none
    | some aw =>
      let opened :=
        if sameBuffer then (c.registry.get aw.bufferId).map fun text => (c.registry, aw.bufferId, text)
        else some ((c.registry.create []).1, (c.registry.create []).2, [])
      match opened with
      | none => none
      | some (registry, bufferId, text) =>
        let (c, newId) := { c with registry := registry }.addWindow (.new bufferId (.new text))
        some (c.setView c.activeFrontendKey { view with
          layout := view.layout.splitWindow view.active orientation newId }, newId)

def trySplitActive (orientation : Orientation) (sameBuffer : Bool) : Option (Answer WindowId) :=
  match c.activeWindowId with
  | none => none
  | some active =>
    if c.isSide active then
      some (c, .error (.other "window.split: not available in a side window"))
    else (c.splitActive orientation sameBuffer).map fun s => (s.1, .ok s.2)

/-! ## Focus -/

/-- Step to the next window, past a side window that is hidden. -/
def focusStep (c : EditorCore) (forward : Bool) : Option EditorCore :=
  match c.activeView with
  | none => none
  | some view =>
    let fid := c.activeFrontendKey
    let hiddenPanel := if view.panelHidden then c.sideWindowFor fid else none
    let next := view.layout.focusStep view.active forward fun id => some id ≠ hiddenPanel
    some ((c.setActive fid next).noteFocusTransition view.active next)

/-! ## Closing -/

/-- Close the active window, unless it is the last document window. -/
def closeActive : Option (EditorCore × Bool) :=
  match c.activeView with
  | none => none
  | some view =>
    let fid := c.activeFrontendKey
    let target := view.active
    let remaining := view.layout.iterIds.filter fun id => id ≠ target && !c.isSide id
    if !c.isSide target && remaining.isEmpty then some (c, false)
    else
      let layout := (view.layout.closeWindow target).getD view.layout
      let panelHidden := if c.isSide target then false else view.panelHidden
      let c := (c.setView fid { view with layout := layout, panelHidden := panelHidden }).removeWindow
        target
      match (layout.iterIds.find? fun id => !c.isSide id).or layout.iterIds.head? with
      | none => none
      | some next => some ((c.setActive fid next).noteFocusTransition target next, true)

def closeOthers : Option (Answer Unit) :=
  match c.activeView with
  | none => none
  | some view =>
    let keep := view.active
    if c.isSide keep then
      some (c, .error (.other "window.close-others: not available in a side window"))
    else
      let doomed := view.layout.iterIds.filter fun id => id ≠ keep
      let layout := (view.layout.keepOnly keep).getD view.layout
      let c := c.setView c.activeFrontendKey { view with layout := layout, panelHidden := false }
      some (doomed.foldl removeWindow c, .ok ())

/-! ## Side windows -/

def forgetOrigin (side : WindowId) : EditorCore :=
  c.mapWindows fun w =>
    if w.params.originDocument = some side then w.setOriginDocument none else w

variable (fid : FrontendId)

def removeSideWindow (side : WindowId) : Option EditorCore :=
  match c.views.lookup fid with
  | none => some c
  | some view =>
    match view.layout.closeWindow side with
    | none => some c
    | some layout =>
      let view := { view with layout := layout, panelHidden := false }
      if view.active = side then
        match layout.iterIds.head? with
        | none => none
        | some fallback =>
          let c := (c.setView fid { view with active := fallback }).removeWindow side
          let c := match c.nonSideTarget fid with
            | .ok target => c.setActive fid target
            | .error _ => c
          some (c.forgetOrigin side)
      else some (((c.setView fid view).removeWindow side).forgetOrigin side)

/-! ## Buffers that go -/

/-- The buffer a window goes to in place of `victim`. `scratch` is what `find_by_name` answers
    for `*scratch*`. -/
def fallbackBufferFor (scratch : Option BufferId) (victim : BufferId) : EditorCore × BufferId :=
  let usable := fun id => id ≠ victim && c.registry.contains id
  match scratch.filter usable with
  | some id => (c, id)
  | none =>
    match c.registry.order.find? usable with
    | some id => (c, id)
    | none =>
      let (registry, id) := c.registry.create []
      ({ c with registry := registry }, id)

def doomedSides (bufferId : BufferId) : List (FrontendId × WindowId) :=
  c.views.entries.filterMap fun e =>
    ((e.2.layout.sideLeaf c.isSide).filter fun side => c.shows side bufferId).map fun side =>
      (e.1, side)

def removeSides : List (FrontendId × WindowId) → EditorCore → Option EditorCore
  | [], c => some c
  | (fid, side) :: rest, c => (c.removeSideWindow fid side).bind (removeSides rest)

/-- Remove a buffer: side windows on it are closed, other windows go to a fallback. -/
def killBuffer (scratch : Option BufferId) (midEdit : Bool)
    (bufferId : BufferId) : Option (Answer Unit) :=
  if !c.registry.contains bufferId then
    some (c, .error (.other s!"buffer BufferId({bufferId}) not found"))
  else if c.registry.order.length ≤ 1 then
    some (c, .error (.other "cannot kill the last remaining buffer"))
  else
    let (c, fallback) := c.fallbackBufferFor scratch bufferId
    match removeSides (c.doomedSides bufferId) c with
    | none => none
    | some c =>
      match c.registry.get fallback with
      | none => some (c, .error (.registry (.missing fallback)))
      | some text =>
        let c := c.mapWindows fun w =>
          if w.bufferId = bufferId then w.switchTo fallback text else w
        match c.registry.remove bufferId midEdit with
        | .ok registry => some ({ c with registry := registry }, .ok ())
        | .error e => some (c, .error (.registry e))

/-! ## The size of a frame -/

/-- Keep the size of a grid frontend's frame, under an epoch of its own. -/
def declareFrameGeometry (total : CellSize) : EditorCore × GeometryUpdate :=
  match c.views.lookup fid with
  | none => (c, .rejected)
  | some view =>
    if view.frameGeometry.any fun geometry => geometry.total = total then (c, .duplicate)
    else
      let next := match view.frameGeometry with
        | none => some 1
        | some geometry =>
          if geometry.geometryEpoch < u64Max then some (geometry.geometryEpoch + 1) else none
      match next with
      | none => (c.setView fid { view with frameGeometry := none }, .rejected)
      | some next => (c.setView fid { view with frameGeometry := some ⟨next, total⟩ }, .advanced)

/-- Keep the size of a semantic frontend's frame, under the epoch it declares. -/
def acceptFrameGeometry (geometryEpoch : ℕ) (total : CellSize) : EditorCore × GeometryUpdate :=
  match c.views.lookup fid with
  | none => (c, .rejected)
  | some view =>
    let (geometry, update) := acceptGeometry view.frameGeometry geometryEpoch total
    (if update = .advanced then c.setView fid { view with frameGeometry := geometry } else c, update)

/-- The rows the document windows beside the side window need. -/
def documentMinRows : ℕ :=
  match c.views.lookup fid with
  | none => LayoutNode.minWindowOuterRows
  | some view =>
    (((c.sideWindowFor fid).bind view.layout.documentSubtree).getD view.layout.root).subtreeMinRows

/-- The rows the side window gets of `areaRows`; none when it has to be hidden. -/
def panelAllocation (areaRows : ℕ) : Option ℕ :=
  ((c.sideWindowFor fid).bind c.windows).bind fun side =>
    side.params.fixedRows.bind fun requested =>
      let alloc := min requested (areaRows - c.documentMinRows fid)
      if LayoutNode.minWindowOuterRows ≤ alloc then some alloc else none

def frontendAreaRows (view : FrontendView) : Option ℕ :=
  view.frameGeometry.bind fun geometry =>
    if 2 ≤ geometry.total.rows ∧ 0 < geometry.total.cols then some (geometry.total.rows - 1)
    else none

/-- `MAX_PANEL_VISIBLE_CELLS` -/
def maxPanelVisibleCells : ℕ := 262144

def presentablePanelGrid : Option CellSize :=
  (c.views.lookup fid).bind fun view =>
    (c.sideWindowFor fid).bind fun _ =>
      view.frameGeometry.bind fun geometry =>
        if geometry.total.cols = 0 then none
        else
          (frontendAreaRows view).bind fun areaRows =>
            (c.panelAllocation fid areaRows).bind fun rows =>
              let rows := min rows (maxPanelVisibleCells / max geometry.total.cols 1)
              if LayoutNode.minWindowOuterRows ≤ rows then some ⟨rows, geometry.total.cols⟩
              else none

structure PanelReconciliation where
  hidden : Bool
  changed : Bool
  releasedTerminal : Option WindowId

/-- Hide the side window when its frame cannot show it, and move the focus out of it. -/
def reconcilePanelLayoutCore : EditorCore × PanelReconciliation :=
  match c.views.lookup fid with
  | none => (c, ⟨false, false, none⟩)
  | some view =>
    match c.sideWindowFor fid with
    | none => (c.setView fid { view with panelHidden := false }, ⟨false, view.panelHidden, none⟩)
    | some side =>
      let hidden := (c.presentablePanelGrid fid).isNone
      let c := c.setView fid { view with panelHidden := hidden }
      let changed := view.panelHidden != hidden
      if !hidden then (c, ⟨false, changed, none⟩)
      else if view.active = side then
        (match c.nonSideTarget fid with
          | .ok target => c.setActive fid target
          | .error _ => c, ⟨true, changed, some side⟩)
      else (c, ⟨true, changed, none⟩)

/-! ## Frontends that come and go -/

def registerFrontendView (view : FrontendView) : EditorCore :=
  c.setView fid view

def takeFrontendView : EditorCore × Option FrontendView :=
  ({ c with
    views := c.views.erase fid
    jumpRing := Function.update c.jumpRing fid []
    activeFrontend := if c.activeFrontend = fid then LOCAL else c.activeFrontend },
    c.views.lookup fid)

def stillShown : List WindowId :=
  c.views.entries.flatMap fun e => e.2.layout.iterIds

def discardViewWindows (view : FrontendView) : EditorCore :=
  (view.layout.iterIds.filter fun id => id ∉ c.stillShown).foldl removeWindow c

def unregisterFrontendView : EditorCore :=
  match c.takeFrontendView fid with
  | (c, some view) => c.discardViewWindows view
  | (c, none) => c

/-- A view of its own for a frontend that attaches: one window on `LOCAL`'s document. -/
def buildFreshFrontendView (panelCapable : Bool) : Option (EditorCore × FrontendView) :=
  match (c.primaryDocumentWindow LOCAL).bind c.windows with
  | none => none
  | some document =>
    match c.registry.get document.bufferId with
    | none => none
    | some text =>
      let (c, id) := c.addWindow (.new document.bufferId (.new text))
      some (c, ⟨.single id, id, panelCapable, none, false⟩)

end EditorCore

end Pmacs.Display
