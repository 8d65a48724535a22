/-
  The windows of the editor and the frontends that show them (window.rs, editor_core.rs).

  * `Window`, with its display parameters: which side it is pinned to, whether it is dedicated,
    and what quitting it does; `FrontendView`: the window tree of a frontend and its focus.
  * `EditorCore` keeps the windows in one table and a view for each frontend.
  * A function that fails by an `expect` is none; one that returns an error text gives it with
    the core it leaves.
-/
import Pmacs.Lib.Assoc
import Pmacs.Terminal.Cell
import Pmacs.Window.TextView
import Pmacs.Window.Tree

namespace Pmacs.Display

open Lib

abbrev BufferId := ℕ
abbrev FrontendId := ℕ

def LOCAL : FrontendId := 1

/-! ## Buffers -/

structure Registry where
  order : List BufferId
  text : BufferId → Text
  next : BufferId

inductive RegistryError where
  | missing (id : BufferId)
  | concurrentEdit (id : BufferId)
deriving DecidableEq, Repr

namespace Registry

variable (r : Registry)

def contains (id : BufferId) : Bool := id ∈ r.order

def get (id : BufferId) : Option Text :=
  if id ∈ r.order then some (r.text id) else none

/-- A new buffer; its name is the registry's to settle. -/
def create (text : Text) : Registry × BufferId :=
  (⟨r.order ++ [r.next], Function.update r.text r.next text, r.next + 1⟩, r.next)

/-- A buffer that is being edited is not removed. -/
def remove (id : BufferId) (midEdit : Bool) : Except RegistryError Registry :=
  if id ∈ r.order then
    if midEdit then .error (.concurrentEdit id)
    else .ok { r with order := r.order.filter (· ≠ id) }
  else .error (.missing id)

def setText (id : BufferId) (text : Text) : Registry :=
  { r with text := Function.update r.text id text }

end Registry

/-! ## Windows -/

inductive Side where
  | bottom
deriving DecidableEq, Repr

inductive QuitAction where
  | delete
  | restore (bufferId fixedRows : ℕ) (dedicated : Bool) (cursor viewTop : ℕ)
      (goalCol selection : Option ℕ) (next : QuitAction)

/-- Keep the newest presentations of a chain, `cap` of them at most. -/
def QuitAction.truncateTo : ℕ → QuitAction → QuitAction
  | 0, _ => delete
  | _ + 1, delete => delete
  | cap + 1, restore bufferId fixedRows dedicated cursor viewTop goalCol selection next =>
    restore bufferId fixedRows dedicated cursor viewTop goalCol selection (next.truncateTo cap)

/-- `MAX_PANEL_QUIT_DEPTH` -/
def maxPanelQuitDepth : ℕ := 64

structure WindowParams where
  side : Option Side
  fixedRows : Option ℕ
  dedicated : Bool
  quitAction : Option QuitAction
  originDocument : Option WindowId

def WindowParams.default : WindowParams := ⟨none, none, false, none, none⟩

structure Window where
  bufferId : BufferId
  textView : TextView
  cursor : ℕ
  selection : Option ℕ
  viewTop : ℕ
  goalCol : Option ℕ
  params : WindowParams

variable (c : EditorCore) (w : Window)

namespace Window

variable (bufferId : BufferId)

def new (textView : TextView) : Window :=
  ⟨bufferId, textView, 0, none, 0, none, .default⟩

def isSide : Bool := w.params.side.isSome

variable (origin : Option WindowId)

def setOriginDocument : Window :=
  { w with params := { w.params with originDocument := origin } }

def switchTo (text : Text) : Window :=
  { w with
    bufferId := bufferId
    textView := .new text
    cursor := 0
    selection := none
    viewTop := 0
    goalCol := none }

@[simp]
theorem switchTo_bufferId {text : Text} :
    (w.switchTo bufferId text).bufferId = bufferId := rfl

end Window

/-! ## Frontends -/

structure FrontendView where
  layout : Layout
  active : WindowId
  panelCapable : Bool
  frameGeometry : Option DeclaredFrameGeometry
  panelHidden : Bool

/-- Where the result of asynchronous work belongs. -/
structure ViewDestination where
  frontend : FrontendId
  window : Option WindowId
  buffer : Option BufferId

inductive CommitProfile where
  | document
  | panel
deriving DecidableEq, Repr

structure CommitContract where
  destination : ViewDestination
  profile : CommitProfile

structure JumpEntry where
  windowId : WindowId
  bufferId : BufferId
  position : ℕ
  sideOrigin : Bool

structure EditorCore where
  registry : Registry
  windows : WindowId → Option Window
  nextWindow : WindowId
  views : Assoc FrontendId FrontendView
  activeFrontend : FrontendId
  jumpRing : FrontendId → List JumpEntry
  commitContracts : List CommitContract

/-- Why an operation is refused: it would dedicate the side window of a panel commit, the
    registry refuses, or anything else. -/
inductive Refusal where
  | dedication (text : String)
  | registry (error : RegistryError)
  | other (text : String)
deriving DecidableEq, Repr

abbrev Answer (α : Type) := EditorCore × Except Refusal α

namespace EditorCore

/-! ## The tables -/

variable (fid : FrontendId) (id : WindowId)

def setWindow (w : Window) : EditorCore :=
  { c with windows := Function.update c.windows id (some w) }

def removeWindow : EditorCore :=
  { c with windows := Function.update c.windows id none }

def mapWindows (f : Window → Window) : EditorCore :=
  { c with windows := fun id => (c.windows id).map f }

def modifyWindow (f : Window → Window) : EditorCore :=
  match c.windows id with
  | some w => c.setWindow id (f w)
  | none => c

def setView (view : FrontendView) : EditorCore :=
  { c with views := c.views.insert fid view }

/-- Apply `f` to a frontend's view, if it has one. -/
def modifyView (f : FrontendView → FrontendView) : EditorCore :=
  match c.views.lookup fid with
  | some view => c.setView fid (f view)
  | none => c

def addWindow : EditorCore × WindowId :=
  ({ c.setWindow c.nextWindow w with nextWindow := c.nextWindow + 1 }, c.nextWindow)

def isSide (c : EditorCore) (id : WindowId) : Bool := (c.windows id).any Window.isSide

def shows (bufferId : BufferId) : Bool :=
  (c.windows id).any fun w => w.bufferId = bufferId

/-! ## The acting frontend -/

/-- The frontend that acts: `LOCAL` when the active one has no view. -/
def activeFrontendKey : FrontendId :=
  if (c.views.lookup c.activeFrontend).isSome then c.activeFrontend else LOCAL

def activeView : Option FrontendView := c.views.lookup c.activeFrontendKey

def activeWindowId : Option WindowId := c.activeView.map FrontendView.active

def activeWindow : Option Window := c.activeWindowId.bind c.windows

def setActive : EditorCore :=
  c.modifyView fid fun view => { view with active := id }

/-! ## Side windows -/

def sideWindowFor : Option WindowId :=
  (c.views.lookup fid).bind fun view => view.layout.sideLeaf c.isSide

/-- The document window of a frontend: its focus, or what the side window was entered from, or
    the first there is. -/
def nonSideTarget : Except String WindowId :=
  match c.views.lookup fid with
  | none => .error s!"frontend FrontendId({fid}) has no window layout"
  | some view =>
    if !c.isSide view.active then .ok view.active
    else
      let origin := ((c.windows view.active).bind fun w => w.params.originDocument).filter
        fun origin => origin ∈ view.layout.iterIds ∧ c.isSide origin = false
      match origin with
      | some origin => .ok origin
      | none =>
        match view.layout.iterIds.find? fun id => !c.isSide id with
        | some first => .ok first
        | none => .error "no document window is available"

def primaryDocumentWindow : Option WindowId :=
  (c.views.lookup fid).bind fun view =>
    if !c.isSide view.active then some view.active else (c.nonSideTarget fid).toOption

def noteFocusTransition (from_ to_ : WindowId) : EditorCore :=
  if from_ = to_ then c
  else if c.isSide from_ || !c.isSide to_ then c
  else c.modifyWindow to_ fun w => w.setOriginDocument (some from_)

def focusWindow (target : WindowId) : EditorCore :=
  match c.views.lookup fid with
  | none => c
  | some view => (c.setActive fid target).noteFocusTransition view.active target

/-! ## Starting up -/

/-- One window on a buffer `*scratch*`. -/
def start : EditorCore :=
  let registry := (Registry.create ⟨[], fun _ => [], 0⟩ []).1
  { registry := registry
    windows := Function.update (fun _ => none) 0 (some (.new 0 (.new [])))
    nextWindow := 1
    views := (∅ : Assoc FrontendId FrontendView).insert LOCAL
      ⟨.single 0, 0, true, none, false⟩
    activeFrontend := LOCAL
    jumpRing := fun _ => []
    commitContracts := [] }

end EditorCore

end Pmacs.Display
