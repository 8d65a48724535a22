/-
  Displaying a buffer and quitting a window (editor_core.rs, window_panel.rs).

  * `resolvePlacement`: where a request lands. An exact window first, then the side window, then
    a document window;
  * `displayBuffer` installs the buffer there; `quitWindow` takes a presentation back;
    `setParams` writes the parameters that are settable;
  * `panelCommitDedicationRefusal`: inside a panel commit, none of the three dedicates the side
    window of the commit's frontend;
  * `commitDestinationRefusal`: what a commit is refused for before its body runs.
-/
import Pmacs.Display.Windows

namespace Pmacs.Display

open Lib

structure DisplayRequest where
  bufferId : BufferId
  window : Option WindowId
  side : Option Side
  height : Option ℕ
  dedicated : Option Bool
  select : Option Bool
  defaultPanelRows : ℕ

inductive PlacementKind where
  | ordinary
  | side (created replacing : Bool)
deriving DecidableEq, Repr

def PlacementKind.isSide : PlacementKind → Bool
  | ordinary => false
  | side _ _ => true

structure Placement where
  target : WindowId
  kind : PlacementKind
deriving DecidableEq, Repr

structure DisplayOutcome where
  target : WindowId
  savedActive : WindowId
  select : Bool
  createdSide : Bool

inductive QuitOutcome where
  | deleted (focus : Option WindowId)
  | restored (target : WindowId) (bufferId : BufferId)

/-- The rows a panel is given; none is not a height. -/
def clampPanelRows (rows : ℕ) : Except Refusal ℕ :=
  if rows = 0 then .error (.other "panel height must be at least 1 row")
  else .ok (max rows LayoutNode.minWindowOuterRows)

namespace EditorCore

/-! ## Dedication -/

variable (c : EditorCore)

/-- Whether a window will take a buffer; `none` is a buffer that does not exist yet. -/
def windowAcceptsBuffer (window : WindowId) (incoming : Option BufferId) : Bool :=
  (c.windows window).any fun w => !w.params.dedicated || incoming.any fun id => w.bufferId = id

variable (fid : FrontendId)

/-- Whether a request for the side would land in a document window, as things are. -/
def panelPlacementCanFallBack : Bool :=
  match c.views.lookup fid with
  | none => false
  | some view =>
    if !view.panelCapable then true
    else ((c.sideWindowFor fid).bind c.windows).any fun side => side.params.dedicated

/-- Any enclosing panel commit of a frontend keeps its side window undedicated. -/
def panelCommitDedicationRefusal : Option String :=
  if !c.commitContracts.any fun contract =>
      contract.profile = .panel && contract.destination.frontend = fid then none
  else some ("cannot dedicate the side window inside a \"panel\" commit_to --- the commit's " ++
    "preflight was relaxed because this frontend places side requests in the panel, " ++
    "and dedicating the one slot would silently redirect the result into a document " ++
    "window instead (dedicate outside the commit, or use the \"document\" profile)")

/-! ## Where a request lands -/

/-- A document window: one that shows the buffer, or the first that will take it. -/
def resolveOrdinary (view : FrontendView) (request : DisplayRequest) : Except Refusal Placement :=
  match view.layout.iterIds.find? fun id => !c.isSide id && c.shows id request.bufferId with
  | some existing => .ok ⟨existing, .ordinary⟩
  | none =>
    let candidates := (c.nonSideTarget fid).toOption.toList ++
      view.layout.iterIds.filter fun id => !c.isSide id
    match candidates.find? fun id => c.windowAcceptsBuffer id (some request.bufferId) with
    | some candidate => .ok ⟨candidate, .ordinary⟩
    | none => .error (.other "display: no eligible document window is available")

def resolveExact (view : FrontendView) (request : DisplayRequest)
    (target : WindowId) : Except Refusal Placement :=
  if target ∉ view.layout.iterIds then
    .error (.other s!"display: window {target} does not belong to this frontend")
  else
    match c.windows target with
    | none => .error (.other s!"display: window {target} is not live")
    | some window =>
      if !c.windowAcceptsBuffer target (some request.bufferId) then
        .error (.other s!"display: window {target} is dedicated to another buffer")
      else if request.height.isSome && !window.isSide then
        .error (.other "display: `height` requires a side window")
      else if window.isSide then .ok ⟨target, .side false (window.bufferId != request.bufferId)⟩
      else .ok ⟨target, .ordinary⟩

variable (request : DisplayRequest)

/-- The precedence of a request: an exact window, the side window, a document window. -/
def resolvePlacement : Except Refusal Placement :=
  if request.window.isSome && request.side.isSome then
    .error (.other "display: `window` and `side` are mutually exclusive")
  else
    match c.views.lookup fid with
    | none => .error (.other s!"frontend FrontendId({fid}) has no window layout")
    | some view =>
      match request.window with
      | some target => c.resolveExact view request target
      | none =>
        if request.side.isSome && view.panelCapable then
          match c.sideWindowFor fid with
          | none => .ok ⟨c.nextWindow, .side true false⟩
          | some side =>
            match c.windows side with
            | none => .error (.other "display: side window is not live")
            | some window =>
              if window.bufferId = request.bufferId then .ok ⟨side, .side false false⟩
              else if !window.params.dedicated then .ok ⟨side, .side false true⟩
              -- the one side window is dedicated to another buffer
              else c.resolveOrdinary fid view request
        else if request.side.isNone && request.height.isSome then
          .error (.other "display: `height` requires a side window")
        else c.resolveOrdinary fid view request

/-! ## Installing it -/

/-- Show a buffer in a window; one it shows already stays as it is. -/
def installBufferInWindow (windowId : WindowId) (bufferId : BufferId) : Answer Unit :=
  match c.registry.get bufferId with
  | none => (c, .error (.registry (.missing bufferId)))
  | some text =>
    match c.windows windowId with
    | none => (c, .error (.other s!"window WindowId({windowId}) is not live"))
    | some window =>
      if window.bufferId = bufferId then (c, .ok ())
      else (c.setWindow windowId (window.switchTo bufferId text), .ok ())

def ordinaryDedication (sameBuffer dedicated : Bool) : Bool :=
  match request.dedicated with
  | some requested =>
    if request.side.isNone then requested else if sameBuffer then dedicated else false
  | none => if sameBuffer then dedicated else false

variable (target : WindowId)

/-- Into a document window. What was asked for the side is dropped. -/
def applyOrdinary : Answer Unit :=
  let sameBuffer := c.shows target request.bufferId
  match c.installBufferInWindow target request.bufferId with
  | (c, .error e) => (c, .error e)
  | (c, .ok ()) =>
    (c.modifyWindow target fun w =>
      { w with params := { w.params with
        dedicated := ordinaryDedication request sameBuffer w.params.dedicated } }, .ok ())

def applyCreated : Answer Unit :=
  match clampPanelRows (request.height.getD request.defaultPanelRows) with
  | .error e => (c, .error e)
  | .ok rows =>
    match c.registry.get request.bufferId with
    | none => (c, .error (.registry (.missing request.bufferId)))
    | some text =>
      let window := { Window.new request.bufferId (.new text) with
        params := ⟨some (request.side.getD .bottom), some rows, request.dedicated.getD false,
          some .delete, (c.nonSideTarget fid).toOption⟩ }
      let c := { c.setWindow target window with nextWindow := max c.nextWindow (target + 1) }
      (c.modifyView fid fun view => { view with layout := view.layout.installSideLeaf target },
        .ok ())

def presentation (w : Window) : QuitAction :=
  .restore w.bufferId (w.params.fixedRows.getD LayoutNode.minWindowOuterRows) w.params.dedicated
    w.cursor w.viewTop w.goalCol w.selection (w.params.quitAction.getD .delete)

def applyReused (replacing : Bool) : Answer Unit :=
  match c.windows target with
  | none => (c, .error (.other "display: side window vanished"))
  | some outgoing =>
    match c.installBufferInWindow target request.bufferId with
    | (c, .error e) => (c, .error e)
    | (c, .ok ()) =>
      match request.height.mapM clampPanelRows with
      | .error e => (c, .error e)
      | .ok height =>
        (c.modifyWindow target fun w =>
          let params := { w.params with fixedRows := height.or w.params.fixedRows }
          { w with params :=
            if replacing then
              { params with
                dedicated := request.dedicated.getD false
                quitAction := some ((presentation outgoing).truncateTo maxPanelQuitDepth) }
            else { params with dedicated := request.dedicated.getD params.dedicated } }, .ok ())

def applyPlacement (placement : Placement) : Answer Unit :=
  match placement.kind with
  | .ordinary => c.applyOrdinary request placement.target
  | .side true _ => c.applyCreated fid request placement.target
  | .side false replacing => c.applyReused request placement.target replacing

/-- The first phase of a display: choose a window and install the buffer. -/
def displayBuffer : Answer DisplayOutcome :=
  match c.views.lookup fid with
  | none => (c, .error (.other s!"frontend FrontendId({fid}) has no window layout"))
  | some view =>
    match c.resolvePlacement fid request with
    | .error e => (c, .error e)
    | .ok placement =>
      let refusal :=
        if request.dedicated = some true ∧ placement.kind.isSide then
          c.panelCommitDedicationRefusal fid
        else none
      match refusal with
      | some reason => (c, .error (.dedication ("display: " ++ reason)))
      | none =>
        match c.applyPlacement fid request placement with
        | (c, .error e) => (c, .error e)
        | (c, .ok ()) =>
          (c, .ok ⟨placement.target, view.active,
            request.select.getD (!placement.kind.isSide),
            match placement.kind with
            | .side created _ => created
            | .ordinary => false⟩)

/-! ## Quitting -/

/-- Close the side window, and focus the window it was entered from. -/
def quitDelete : Option (Answer QuitOutcome) :=
  let origin := (c.windows target).bind fun w => w.params.originDocument
  (c.removeSideWindow fid target).map fun c =>
    let valid := fun origin =>
      ((c.views.lookup fid).any fun view => origin ∈ view.layout.iterIds) && !c.isSide origin
    let c := match origin.filter valid with
      | some origin => c.setActive fid origin
      | none => c
    (c, .ok (.deleted ((c.views.lookup fid).map FrontendView.active)))

def bufferLen (bufferId : BufferId) : ℕ :=
  ((c.registry.get bufferId).map List.length).getD 0

/-- What quitting a window does; a presentation whose buffer is gone cannot be taken back. -/
def quitAction (c : EditorCore) (target : WindowId) : Except Refusal QuitAction :=
  match c.windows target with
  | none => .error (.other s!"window {target} is not live")
  | some window =>
    match window.params.quitAction with
    | none => .error (.other "window.quit: this window has no quit action")
    | some .delete => .ok .delete
    | some (.restore bufferId fixedRows dedicated cursor viewTop goalCol selection next) =>
      if c.registry.contains bufferId then
        .ok (.restore bufferId fixedRows dedicated cursor viewTop goalCol selection next)
      else .ok .delete

def quitWindow : Option (Answer QuitOutcome) :=
  match c.quitAction target with
  | .error e => some (c, .error e)
  | .ok .delete => c.quitDelete fid target
  | .ok (.restore bufferId fixedRows dedicated cursor viewTop goalCol selection next) =>
    let refusal :=
      if dedicated && c.isSide target then c.panelCommitDedicationRefusal fid else none
    match refusal with
    | some reason => some (c, .error (.dedication ("window.quit: " ++ reason)))
    | none =>
      match c.installBufferInWindow target bufferId with
      | (c, .error e) => some (c, .error e)
      | (c, .ok ()) =>
        let len := c.bufferLen bufferId
        let c := c.modifyWindow target fun w =>
          { w with
            params := { w.params with
              fixedRows := some (max fixedRows LayoutNode.minWindowOuterRows)
              dedicated := dedicated
              quitAction := some next }
            cursor := min cursor len
            viewTop := viewTop
            goalCol := goalCol
            selection := selection.filter fun anchor => anchor ≤ len }
        some (c, .ok (.restored target bufferId))

/-! ## Parameters -/

def setParams (fixedRows : Option ℕ) (dedicated : Option Bool) : Answer Unit :=
  match fixedRows.mapM clampPanelRows with
  | .error e => (c, .error e)
  | .ok height =>
    let refusal :=
      if dedicated = some true ∧ c.isSide target then c.panelCommitDedicationRefusal fid else none
    match refusal with
    | some reason => (c, .error (.dedication ("pmacs.window.set_params: " ++ reason)))
    | none =>
      match c.windows target with
      | none => (c, .error (.other "pmacs.window.set_params: window not live"))
      | some window =>
        (c.setWindow target { window with params := { window.params with
          fixedRows := height.or window.params.fixedRows
          dedicated := dedicated.getD window.params.dedicated } }, .ok ())

/-! ## Commits -/

/-- The document profile's checks: the window is there, live, on the buffer it was captured
    with, and takes another. -/
def documentDestinationRefusal (dest : ViewDestination) : Option String :=
  match dest.window with
  | none => some ("destination has no document window (capture it from a frontend that has " ++
      "one, or commit with the \"panel\" profile)")
  | some window =>
    if !(c.views.lookup dest.frontend).any fun view => window ∈ view.layout.iterIds then
      some s!"window {window} is gone"
    else if (c.windows window).any fun w => some w.bufferId ≠ dest.buffer then
      some s!"window {window} now shows another buffer"
    else if !c.windowAcceptsBuffer window none then some s!"window {window} is dedicated"
    else none

/-- What a commit is refused for. A panel commit on a frontend that places side requests in its
    panel needs no document window. -/
def commitDestinationRefusal (dest : ViewDestination) (profile : CommitProfile) : Option String :=
  if (c.views.lookup dest.frontend).isNone then some "requesting frontend is gone"
  else if profile = .panel ∧ c.panelPlacementCanFallBack dest.frontend = false then none
  else c.documentDestinationRefusal dest

/-- The contract of a body is dropped with every one pushed after it. -/
def exitCommitContract (depth : ℕ) : EditorCore :=
  { c with commitContracts := c.commitContracts.take depth }

def pushCommitContract (contract : CommitContract) : EditorCore :=
  { c with commitContracts := c.commitContracts ++ [contract] }

end EditorCore

end Pmacs.Display
