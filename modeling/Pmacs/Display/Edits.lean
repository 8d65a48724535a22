/-
  The edits of the editor core and the windows that hear of them (editor_core.rs, daemon.rs).

  * `applyActiveEdit` tells the line cache of every window on the buffer; `notifyBufferEdit`
    clamps the windows' positions as well.
  * The editing primitives are `editAt`: an edit of the active window's buffer, then a move of
    that window's cursor. What lands is the buffer's to say: its intercepts may refuse an edit
    or put another in its place (`Intercept`).
  * `undo`, `redo`, `revertActiveBuffer` and the Lua mutators announce an edit that landed;
    `remoteCrdtOp` moves the cursors first.
-/
import Pmacs.Display.Placement

namespace Pmacs.Display

open Lib

/-- What a buffer makes of an edit: nothing, or the edit that lands. -/
abbrev Intercept := TextEdit → Option TextEdit

variable (c : EditorCore) (w : Window) (intercept : Intercept)

/-- The edit that lands in a text. An edit out of its range is refused. -/
def landed (op : TextEdit) (text : Text) : Option TextEdit :=
  (intercept op).filter fun edit => edit.Fits text

/-! ## Codepoints -/

def codepointStart (text : Text) : ℕ → ℕ
  | 0 => 0
  | p + 1 => if (text.getD (p + 1) 0 &&& 0xC0) ≠ 0x80 then p + 1 else codepointStart text p

def prevCodepoint (text : Text) (pos : ℕ) : ℕ :=
  if pos = 0 then 0 else codepointStart text (pos - 1)

def utf8CodepointLen (lead : UInt8) : ℕ :=
  if lead < 0xC0 then 1 else if lead < 0xE0 then 2 else if lead < 0xF0 then 3 else 4

def nextCodepoint (text : Text) (pos : ℕ) : ℕ :=
  if text.length ≤ pos then text.length
  else min (pos + utf8CodepointLen (text.getD pos 0)) text.length

variable (bufferId : BufferId) (edit : TextEdit)

namespace Window

def region : Option (ℕ × ℕ) :=
  w.selection.bind fun anchor =>
    if anchor < w.cursor then some (anchor, w.cursor)
    else if w.cursor < anchor then some (w.cursor, anchor)
    else none

/-- Clamp the cursor and the anchor to a length; a selection that the clamp empties goes. -/
def clampCursorAndSelection (len : ℕ) : Window :=
  { w with
    cursor := min w.cursor len
    selection := w.selection.bind fun anchor =>
      if min anchor len = min w.cursor len ∧
          (min anchor len ≠ anchor ∨ min w.cursor len ≠ w.cursor) then none
      else some (min anchor len) }

/-- Hear of an edit: the line cache alone. -/
def hearEdit (text : Text) (edit : TextEdit) : Window :=
  { w with textView := w.textView.onEdit text edit }

/-- Hear of an edit: the line cache, the cursor, the selection and the first line shown. -/
def notifyEdit (text : Text) (edit : TextEdit) : Window :=
  let w := (w.hearEdit text edit).clampCursorAndSelection text.length
  { w with viewTop := min w.viewTop (w.textView.lineCount - 1) }

/-- Where a cursor goes when another source edits, to the right of what is inserted. -/
def followEdit : Window :=
  { w with cursor :=
    if w.cursor < edit.start then w.cursor
    else if edit.stop < w.cursor then w.cursor - (edit.stop - edit.start) + edit.inserted.length
    else edit.start + edit.inserted.length }

/-- The source's own cursor after its edit; a selection that was empty goes. -/
def ownEdit : Window :=
  { w with
    selection := if w.selection = some w.cursor then none else w.selection
    cursor := edit.start + edit.inserted.length }

end Window

namespace EditorCore

def mapShowing (f : WindowId → Window → Window) : EditorCore :=
  { c with windows := fun id => (c.windows id).map fun w =>
    if w.bufferId = bufferId then f id w else w }

def setText (c : EditorCore) (bufferId : BufferId) (text : Text) : EditorCore :=
  { c with registry := c.registry.setText bufferId text }

/-! ## The two paths of an edit to the windows -/

/-- An edit of the active buffer: every window on it hears of it. -/
def applyActiveEdit (op : TextEdit) : EditorCore × Option TextEdit :=
  match c.registry.get bufferId with
  | none => (c, none)
  | some text =>
    match landed intercept op text with
    | none => (c, none)
    | some edit =>
      ((c.setText bufferId (edit.apply text)).mapShowing bufferId fun _ w =>
        w.hearEdit (edit.apply text) edit, some edit)

/-- An edit that landed already: every window on the buffer is told, and clamped. -/
def notifyBufferEdit : EditorCore :=
  match c.registry.get bufferId with
  | none => c
  | some text => c.mapShowing bufferId fun _ w => w.notifyEdit text edit

/-- An edit made elsewhere (history, revert, a Lua mutator, an error report), then announced. -/
def announce : EditorCore :=
  match c.registry.get bufferId with
  | none => c
  | some text =>
    if edit.Fits text then (c.setText bufferId (edit.apply text)).notifyBufferEdit bufferId edit
    else c

/-- A remote import: the cursors follow it, and then it is announced. -/
def remoteCrdtOp (source : FrontendId) (bufferId : BufferId) (edit : TextEdit) : EditorCore :=
  match c.registry.get bufferId with
  | none => c
  | some text =>
    if edit.Fits text then
      let sourceActive := (c.views.lookup source).map FrontendView.active
      ((c.setText bufferId (edit.apply text)).mapShowing bufferId fun id w =>
        if some id = sourceActive then w.ownEdit edit else w.followEdit edit).notifyBufferEdit
          bufferId edit
    else c

/-! ## Primitives -/

def modifyActive (f : Text → Window → Window) : Option EditorCore :=
  match c.activeWindowId with
  | none => none
  | some id =>
    match c.windows id with
    | none => none
    | some w => some (c.setWindow id (f ((c.registry.get w.bufferId).getD []) w))

def dropGoal (_ : Text) (w : Window) : Window := { w with goalCol := none }

def editAt (op : Text → Window → Option TextEdit)
    (settle : Text → TextEdit → Window → Window) : Option EditorCore :=
  match c.activeWindowId with
  | none => none
  | some id =>
    match c.windows id with
    | none => none
    | some w =>
      match (c.registry.get w.bufferId).bind fun text => op text w with
      | none => some c
      | some op =>
        match c.applyActiveEdit intercept w.bufferId op with
        | (c, none) => some c
        | (c, some _) => some (c.modifyWindow id (settle ((c.registry.get w.bufferId).getD []) op))

/-- An edit that drops the goal column first, whether it lands or not. -/
def typeAt (op : Text → Window → Option TextEdit)
    (settle : Text → TextEdit → Window → Window) : Option EditorCore :=
  (c.modifyActive dropGoal).bind fun c => c.editAt intercept op settle

/-- Put the cursor right after what was asked to be inserted, the selection gone. -/
def settleAfter (_ : Text) (op : TextEdit) (w : Window) : Window :=
  { w with cursor := op.start + op.inserted.length, selection := none }

def settleAtStart (_ : Text) (op : TextEdit) (w : Window) : Window := { w with cursor := op.start }

def settleNowhere (_ : Text) (_ : TextEdit) (w : Window) : Window := w

def insertChar (bytes : Text) : Option EditorCore :=
  c.typeAt intercept (fun _ w => some ⟨w.cursor, w.cursor, bytes⟩) fun _ _ w =>
    { w with cursor := w.cursor + bytes.length }

def insertCharOverRegion (bytes : Text) :
    Option EditorCore :=
  c.typeAt intercept (fun _ w => match w.region with
    | some (lo, hi) => some ⟨lo, hi, bytes⟩
    | none => some ⟨w.cursor, w.cursor, bytes⟩) settleAfter

def insertBytesOverRegion (bytes : Text) :
    Option EditorCore := c.insertCharOverRegion intercept bytes

def deleteBackward (motion : Text → ℕ → ℕ) (c : EditorCore) (intercept : Intercept) :
    Option EditorCore :=
  c.typeAt intercept (fun text w =>
    if w.cursor = 0 ∨ motion text w.cursor = w.cursor then none
    else some ⟨motion text w.cursor, w.cursor, []⟩) settleAtStart

def deleteForwardTo (motion : Text → ℕ → ℕ) (c : EditorCore) (intercept : Intercept) :
    Option EditorCore :=
  c.typeAt intercept (fun text w =>
    if text.length ≤ w.cursor ∨ motion text w.cursor = w.cursor then none
    else some ⟨w.cursor, motion text w.cursor, []⟩) settleNowhere

def backspace : EditorCore → Intercept → Option EditorCore := deleteBackward prevCodepoint

def deleteForward : EditorCore → Intercept → Option EditorCore := deleteForwardTo nextCodepoint

/-- `word` is `backward_word`. -/
def deleteWordBackward (word : Text → ℕ → ℕ) : EditorCore → Intercept → Option EditorCore :=
  deleteBackward word

/-- `word` is `forward_word`. -/
def deleteWordForward (word : Text → ℕ → ℕ) : EditorCore → Intercept → Option EditorCore :=
  deleteForwardTo word

def deleteRegion : Option EditorCore :=
  c.editAt intercept (fun _ w => w.region.map fun r => ⟨r.1, r.2, []⟩) fun text op w =>
    dropGoal text (settleAfter text op w)

/-- Accept a completion: replace what was typed from the anchor on. -/
def completionPopupAccept (anchor : ℕ) (text : Text) : Option EditorCore :=
  c.typeAt intercept (fun buffer w =>
    if anchor ≤ w.cursor ∧ w.cursor ≤ buffer.length then some ⟨anchor, w.cursor, text⟩ else none)
    settleAfter

/-- Replace the current match, and put the cursor after it, in the buffer. -/
def queryReplaceApplyCurrent (start stop : ℕ) (replacement : Text) : Option EditorCore :=
  c.editAt intercept (fun _ _ => some ⟨start, stop, replacement⟩) fun text op w =>
    dropGoal text { w with cursor := min (op.start + op.inserted.length) text.length }

def editActive (op : TextEdit) : Option EditorCore :=
  c.editAt intercept (fun _ _ => some op) settleNowhere

/-! ## Positions -/

/-- Undo and redo drop the goal column, and announce the edit if there is one. -/
def historyStep (edit : Option TextEdit) : Option EditorCore :=
  match c.activeWindow with
  | none => none
  | some w =>
    (c.modifyActive dropGoal).map fun c =>
      match edit with
      | none => c
      | some edit => c.announce w.bufferId edit

def revertActiveBuffer (edit : Option TextEdit) : Option EditorCore :=
  match c.activeWindow with
  | none => none
  | some w => some (match edit with
    | none => c
    | some edit => c.announce w.bufferId edit)

def setCursorByte (byte : ℕ) : Option EditorCore :=
  c.modifyActive fun text w => { w with cursor := min byte text.length, goalCol := none }

def moveToLine (line : ℕ) : Option EditorCore :=
  c.modifyActive fun text w =>
    let target := min line (max w.textView.lineCount 1 - 1)
    { w with cursor := (w.textView.lineOffset target).getD text.length, goalCol := none }

/-- `folds` takes a line to the visible one that heads it, which is no later. -/
def setViewTop (folds : ℕ → ℕ) (top : ℕ) : Option EditorCore :=
  c.modifyActive fun _ w =>
    let clamped := min top (w.textView.lineCount - 1)
    { w with viewTop := min (folds clamped) clamped }

def beginSelection (anchor : ℕ) : Option EditorCore :=
  c.modifyActive fun _ w => { w with selection := some anchor }

def clearSelection : Option EditorCore :=
  c.modifyActive fun _ w => { w with selection := none }

def selectAll : Option EditorCore :=
  c.modifyActive fun text w =>
    { w with selection := some 0, cursor := text.length, goalCol := none }

/-! ## Switching -/

def switchActiveBufferFor (fid : FrontendId) (bufferId : BufferId) : Answer Unit :=
  match c.registry.get bufferId with
  | none => (c, .error (.registry (.missing bufferId)))
  | some text =>
    match (c.views.lookup fid).map FrontendView.active with
    | none => (c, .error (.other s!"frontend FrontendId({fid}) has no active window"))
    | some id =>
      match c.windows id with
      | none => (c, .error (.other s!"frontend FrontendId({fid}) has no active window"))
      | some w => (c.setWindow id (w.switchTo bufferId text), .ok ())

/-- Show the buffer a semantic frontend declared in its document window. The first line shown
    stays as it was. -/
def alignPrimaryDocumentWindow (fid : FrontendId) (bufferId : BufferId) : EditorCore :=
  match c.primaryDocumentWindow fid with
  | none => c
  | some id =>
    match c.windows id with
    | none => c
    | some w =>
      if w.bufferId = bufferId then c
      else
        match c.registry.get bufferId with
        | none => c
        | some text => c.setWindow id { w.switchTo bufferId text with
          viewTop := w.viewTop, goalCol := w.goalCol }

/-! ## The jump ring -/

/-- `JUMP_RING_CAP` -/
def jumpRingCap : ℕ := 64

def pushJump : Option EditorCore :=
  match c.activeWindowId with
  | none => none
  | some id =>
    match c.windows id with
    | none => none
    | some w =>
      let ring := c.jumpRing c.activeFrontend
      let ring := if jumpRingCap ≤ ring.length then ring.drop 1 else ring
      let ring := ring ++ [⟨id, w.bufferId, w.cursor, w.isSide⟩]
      some { c with jumpRing := Function.update c.jumpRing c.activeFrontend ring }

def sideWindowIsHidden (fid : FrontendId) (win : WindowId) : Bool :=
  c.isSide win && (c.views.lookup fid).any FrontendView.panelHidden

/-- Put the cursor of the active window at a position that was kept. -/
def landJump (entry : JumpEntry) : Option (EditorCore × Bool) :=
  (c.setCursorByte entry.position).map fun c => (c, true)

/-- Go back to the newest place of the ring that is still there; `ring` is newest first. -/
def jumpBackTo (c : EditorCore) (fid : FrontendId) :
    List JumpEntry → Option (EditorCore × Bool)
  | [] => some ({ c with jumpRing := Function.update c.jumpRing fid [] }, false)
  | entry :: ring =>
    let c₁ := { c with jumpRing := Function.update c.jumpRing fid ring.reverse }
    if !c.registry.contains entry.bufferId then c.jumpBackTo fid ring
    else if ((c.views.lookup fid).any fun view => entry.windowId ∈ view.layout.iterIds) &&
        c.shows entry.windowId entry.bufferId && !c.sideWindowIsHidden fid entry.windowId then
      (c₁.focusWindow fid entry.windowId).landJump entry
    else if entry.sideOrigin then c.jumpBackTo fid ring
    else if c.activeWindow.any fun w => w.bufferId = entry.bufferId then c₁.landJump entry
    else
      match c₁.switchActiveBufferFor fid entry.bufferId with
      | (c₁, .ok ()) => c₁.landJump entry
      | (_, .error _) => c.jumpBackTo fid ring

def jumpBack : Option (EditorCore × Bool) :=
  c.jumpBackTo c.activeFrontend (c.jumpRing c.activeFrontend).reverse

end EditorCore

end Pmacs.Display
