/-
  The runs of the editor core (daemon.rs, editor.rs, window_panel.rs).

  * `Typing`: the editing commands of the active window; `Event`: these, the window commands,
    frontends that come and go, edits that are announced, and the commits of asynchronous work;
  * `Host`: the core, the views kept for frontends that lost their socket, and the guards of the
    commits that are running;
  * `Host.step` is none where the code panics.
-/
import Pmacs.Display.Desktop

namespace Pmacs.Display

open Lib

/-! ## Events -/

/-- An editing command. -/
inductive Typing where
  | insertChar (bytes : Text)
  | insertCharOverRegion (bytes : Text)
  | insertBytesOverRegion (bytes : Text)
  | backspace
  | deleteForward
  | deleteWordBackward (word : Text → ℕ → ℕ)
  | deleteWordForward (word : Text → ℕ → ℕ)
  | deleteRegion
  | completionPopupAccept (anchor : ℕ) (text : Text)
  | queryReplaceApplyCurrent (start stop : ℕ) (replacement : Text)
  | editActive (op : TextEdit)

/-- A position that is set without an edit. -/
inductive Motion where
  | setCursorByte (byte : ℕ)
  | moveToLine (line : ℕ)
  | setViewTop (folds : ℕ → ℕ) (top : ℕ)
  | beginSelection (anchor : ℕ)
  | clearSelection
  | selectAll

inductive Event where
  | dispatched (fid : FrontendId)
  | split (orientation : Orientation) (sameBuffer : Bool)
  | closedActive
  | closedOthers
  | focusStepped (forward : Bool)
  | focused (fid : FrontendId) (target : WindowId)
  | quit (fid : FrontendId) (target : WindowId)
  | displayed (fid : FrontendId) (request : DisplayRequest)
  | sideRemoved (fid : FrontendId) (side : WindowId)
  | killed (scratch : Option BufferId) (midEdit : Bool) (bufferId : BufferId)
  | reconciled (fid : FrontendId)
  | declared (fid : FrontendId) (total : CellSize)
  | accepted (fid : FrontendId) (geometryEpoch : ℕ) (total : CellSize)
  | paramsSet (fid : FrontendId) (target : WindowId) (fixedRows : Option ℕ)
      (dedicated : Option Bool)
  | switched (fid : FrontendId) (bufferId : BufferId)
  | aligned (fid : FrontendId) (bufferId : BufferId)
  | created (text : Text)
  | attached (panelCapable : Bool) (desktop : Option SavedDesktop)
  | resumed (token : ℕ) (panelCapable : Bool)
  | detached (fid : FrontendId)
  /-- The socket of a session that holds a token is lost. -/
  | lost (fid : FrontendId) (token : ℕ)
  | expired (token : ℕ)
  | typed (intercept : Intercept) (typing : Typing)
  | announced (bufferId : BufferId) (edit : TextEdit)
  | imported (source : FrontendId) (bufferId : BufferId) (edit : TextEdit)
  | history (edit : Option TextEdit)
  | reverted (edit : Option TextEdit)
  | moved (motion : Motion)
  | jumpPushed
  | jumpedBack
  | commitEntered (dest : ViewDestination) (profile : CommitProfile)
  /-- A commit's body returned, or raised. -/
  | commitLeft

variable (c : EditorCore)

namespace EditorCore

def typing (intercept : Intercept) : Typing → Option EditorCore
  | .insertChar bytes => c.insertChar intercept bytes
  | .insertCharOverRegion bytes => c.insertCharOverRegion intercept bytes
  | .insertBytesOverRegion bytes => c.insertBytesOverRegion intercept bytes
  | .backspace => c.backspace intercept
  | .deleteForward => c.deleteForward intercept
  | .deleteWordBackward word => deleteWordBackward word c intercept
  | .deleteWordForward word => deleteWordForward word c intercept
  | .deleteRegion => c.deleteRegion intercept
  | .completionPopupAccept anchor text => c.completionPopupAccept intercept anchor text
  | .queryReplaceApplyCurrent start stop replacement =>
    c.queryReplaceApplyCurrent intercept start stop replacement
  | .editActive op => c.editActive intercept op

def motion : Motion → Option EditorCore
  | .setCursorByte byte => c.setCursorByte byte
  | .moveToLine line => c.moveToLine line
  | .setViewTop folds top => c.setViewTop folds top
  | .beginSelection anchor => c.beginSelection anchor
  | .clearSelection => c.clearSelection
  | .selectAll => c.selectAll

end EditorCore

section commands

open EditorCore

def Typing.op : Typing → Text → Window → Option TextEdit
  | insertChar bytes, _, w => some ⟨w.cursor, w.cursor, bytes⟩
  | insertCharOverRegion bytes, _, w | insertBytesOverRegion bytes, _, w => match w.region with
    | some (lo, hi) => some ⟨lo, hi, bytes⟩
    | none => some ⟨w.cursor, w.cursor, bytes⟩
  | backspace, text, w =>
    if w.cursor = 0 ∨ prevCodepoint text w.cursor = w.cursor then none
    else some ⟨prevCodepoint text w.cursor, w.cursor, []⟩
  | deleteWordBackward word, text, w =>
    if w.cursor = 0 ∨ word text w.cursor = w.cursor then none
    else some ⟨word text w.cursor, w.cursor, []⟩
  | deleteForward, text, w =>
    if text.length ≤ w.cursor ∨ nextCodepoint text w.cursor = w.cursor then none
    else some ⟨w.cursor, nextCodepoint text w.cursor, []⟩
  | deleteWordForward word, text, w =>
    if text.length ≤ w.cursor ∨ word text w.cursor = w.cursor then none
    else some ⟨w.cursor, word text w.cursor, []⟩
  | deleteRegion, _, w => w.region.map fun r => ⟨r.1, r.2, []⟩
  | completionPopupAccept anchor text, buffer, w =>
    if anchor ≤ w.cursor ∧ w.cursor ≤ buffer.length then some ⟨anchor, w.cursor, text⟩ else none
  | queryReplaceApplyCurrent start stop replacement, _, _ => some ⟨start, stop, replacement⟩
  | editActive op, _, _ => some op

/-- Where a command leaves its window when the edit landed, in the text after it. -/
def Typing.settle : Typing → Text → TextEdit → Window → Window
  | insertChar bytes, _, _, w => { w with cursor := w.cursor + bytes.length }
  | insertCharOverRegion _, text, op, w | insertBytesOverRegion _, text, op, w
  | completionPopupAccept _ _, text, op, w => settleAfter text op w
  | backspace, text, op, w | deleteWordBackward _, text, op, w => settleAtStart text op w
  | deleteForward, text, op, w | deleteWordForward _, text, op, w
  | editActive _, text, op, w => settleNowhere text op w
  | deleteRegion, text, op, w => dropGoal text (settleAfter text op w)
  | queryReplaceApplyCurrent _ _ _, text, op, w =>
    dropGoal text { w with cursor := min (op.start + op.inserted.length) text.length }

def Typing.dropsGoal : Typing → Bool
  | deleteRegion | queryReplaceApplyCurrent _ _ _ | editActive _ => false
  | _ => true

def Motion.apply : Motion → Text → Window → Window
  | setCursorByte byte, text, w => { w with cursor := min byte text.length, goalCol := none }
  | moveToLine line, text, w =>
    let target := min line (max w.textView.lineCount 1 - 1)
    { w with cursor := (w.textView.lineOffset target).getD text.length, goalCol := none }
  | setViewTop folds top, _, w =>
    let clamped := min top (w.textView.lineCount - 1)
    { w with viewTop := min (folds clamped) clamped }
  | beginSelection anchor, _, w => { w with selection := some anchor }
  | clearSelection, _, w => { w with selection := none }
  | selectAll, text, w => { w with selection := some 0, cursor := text.length, goalCol := none }

end commands

namespace EditorCore

theorem typing_eq (intercept : Intercept) (typing : Typing) :
    c.typing intercept typing = if typing.dropsGoal then c.typeAt intercept typing.op typing.settle
      else c.editAt intercept typing.op typing.settle := by
  cases typing with
  | insertChar | insertCharOverRegion | insertBytesOverRegion | backspace | deleteForward
  | deleteWordBackward | deleteWordForward | deleteRegion | completionPopupAccept
  | queryReplaceApplyCurrent | editActive => rfl

theorem motion_eq (motion : Motion) : c.motion motion = c.modifyActive motion.apply := by
  cases motion with
  | setCursorByte | moveToLine | setViewTop | beginSelection | clearSelection | selectAll => rfl

/-- Whether a window is of a frontend's own layout (`lookup_window`). -/
def ownsWindow (fid : FrontendId) (target : WindowId) : Bool :=
  (c.views.lookup fid).any fun view => target ∈ view.layout.iterIds

end EditorCore

/-! ## The host -/

/-- What a commit restores when it ends. -/
structure ScopedFrontendGuard where
  previousActive : FrontendId
  contractDepth : ℕ

structure Host where
  core : EditorCore
  retained : Assoc ℕ FrontendView
  nextFrontend : FrontendId
  guards : List ScopedFrontendGuard

namespace Host

def start : Host := ⟨.start, ∅, 2, []⟩

def withCore (h : Host) (c : EditorCore) : Host := { h with core := c }

def registerSession (h : Host) (c : EditorCore) (view : FrontendView) : Host :=
  { h with
    core := { c.registerFrontendView h.nextFrontend view with activeFrontend := h.nextFrontend }
    nextFrontend := h.nextFrontend + 1 }

/-- `commit_to`: check the destination, then run the body under its contract. -/
def enterCommit (h : Host) (dest : ViewDestination) (profile : CommitProfile) : Host :=
  match h.core.commitDestinationRefusal dest profile with
  | some _ => h
  | none =>
    { h with
      core := { h.core.pushCommitContract ⟨dest, profile⟩ with activeFrontend := dest.frontend }
      guards := ⟨h.core.activeFrontend, h.core.commitContracts.length⟩ :: h.guards }

def leaveCommit (h : Host) : Host :=
  match h.guards with
  | [] => h
  | guard :: guards =>
    { h with
      core := { h.core.exitCommitContract guard.contractDepth with
        activeFrontend := guard.previousActive }
      guards := guards }

def step (h : Host) : Event → Option Host
  | .dispatched fid => some (h.withCore { h.core with activeFrontend := fid })
  | .split orientation sameBuffer =>
    (h.core.trySplitActive orientation sameBuffer).map fun answer => h.withCore answer.1
  | .closedActive => h.core.closeActive.map fun answer => h.withCore answer.1
  | .closedOthers => h.core.closeOthers.map fun answer => h.withCore answer.1
  | .focusStepped forward => (h.core.focusStep forward).map h.withCore
  | .focused fid target =>
    if h.core.ownsWindow fid target then some (h.withCore (h.core.focusWindow fid target))
    else some h
  | .quit fid target =>
    if h.core.ownsWindow fid target then
      (h.core.quitWindow fid target).map fun answer => h.withCore answer.1
    else some h
  | .displayed fid request => some (h.withCore (h.core.displayBuffer fid request).1)
  | .sideRemoved fid side =>
    if h.core.isSide side then (h.core.removeSideWindow fid side).map h.withCore else some h
  | .killed scratch midEdit bufferId =>
    (h.core.killBuffer scratch midEdit bufferId).map fun answer => h.withCore answer.1
  | .reconciled fid => some (h.withCore (h.core.reconcilePanelLayoutCore fid).1)
  | .declared fid total => some (h.withCore (h.core.declareFrameGeometry fid total).1)
  | .accepted fid geometryEpoch total =>
    some (h.withCore (h.core.acceptFrameGeometry fid geometryEpoch total).1)
  | .paramsSet fid target fixedRows dedicated =>
    if h.core.ownsWindow fid target then
      some (h.withCore (h.core.setParams fid target fixedRows dedicated).1)
    else some h
  | .switched fid bufferId => some (h.withCore (h.core.switchActiveBufferFor fid bufferId).1)
  | .aligned fid bufferId => some (h.withCore (h.core.alignPrimaryDocumentWindow fid bufferId))
  | .created text => some (h.withCore { h.core with registry := (h.core.registry.create text).1 })
  | .attached panelCapable desktop =>
    (h.core.attachView desktop panelCapable).map fun built => h.registerSession built.1 built.2
  | .resumed token panelCapable =>
    match h.retained.lookup token with
    | none => some h
    | some view =>
      some ({ h with retained := h.retained.erase token }.registerSession h.core
        { view with panelCapable := panelCapable, frameGeometry := none })
  | .detached fid =>
    if fid = LOCAL then some h else some (h.withCore (h.core.unregisterFrontendView fid))
  | .lost fid token =>
    if fid = LOCAL then some h
    else match h.core.takeFrontendView fid with
      | (c, some view) => some { h with core := c, retained := h.retained.insert token view }
      | (c, none) => some (h.withCore c)
  | .expired token =>
    match h.retained.lookup token with
    | none => some h
    | some view =>
      some { h with
        core := h.core.discardViewWindows view
        retained := h.retained.erase token }
  | .typed intercept typing => (h.core.typing intercept typing).map h.withCore
  | .announced bufferId edit => some (h.withCore (h.core.announce bufferId edit))
  | .imported source bufferId edit => some (h.withCore (h.core.remoteCrdtOp source bufferId edit))
  | .history edit => (h.core.historyStep edit).map h.withCore
  | .reverted edit => (h.core.revertActiveBuffer edit).map h.withCore
  | .moved motion => (h.core.motion motion).map h.withCore
  | .jumpPushed => h.core.pushJump.map h.withCore
  | .jumpedBack => h.core.jumpBack.map fun answer => h.withCore answer.1
  | .commitEntered dest profile => some (h.enterCommit dest profile)
  | .commitLeft => some h.leaveCommit

def run (h : Host) : List Event → Option Host
  | [] => some h
  | event :: events => (h.step event).bind fun h => h.run events

end Host

end Pmacs.Display
