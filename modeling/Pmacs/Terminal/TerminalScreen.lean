/-
  The emulated screen (screen.rs).

  * `TerminalScreen`: the main and the alternate grid, the cursor, modes and counters.
  * `applyEvent`: one event of the parser.  The reply to a device request, which changes
    nothing on the screen, is left out, and so is the clock of synchronized output.
  * Joining a line's rows and cutting it anew on a resize is in Reflow.lean.

  No result is a panic: an index out of range, or a subtraction below zero.
-/
import Pmacs.Lib.Integers
import Pmacs.Terminal.Event
import Pmacs.Terminal.RowCells

namespace Pmacs

open Lib

/-- `MAX_TERMINAL_HISTORY_CELLS`. -/
def maxTerminalHistoryCells : ℕ := 4000000

/-- `MAX_TERMINAL_GRAPHEME_BYTES`. -/
def maxTerminalGraphemeBytes : ℕ := 256

/-- `MAX_TERMINAL_METADATA_BYTES`. -/
def maxTerminalMetadataBytes : ℕ := 1024

/-- `MAX_TERMINAL_ROWS` and `MAX_TERMINAL_COLS`. -/
def maxTerminalSide : ℕ := 512

/-- `MAX_TERMINAL_VISIBLE_CELLS`. -/
def maxTerminalVisibleCells : ℕ := 262144

variable (n : ℕ)

/-- `u64::saturating_add(1)`. -/
def saturatingSucc : ℕ := if n < u64Max then n + 1 else n

/-- `String::len`. -/
def utf8Len (cs : List Char) : ℕ := (cs.map Char.utf8Size).sum

inductive MouseTrackingMode where
  | off
  | x10
  | button
  | any
deriving DecidableEq, Repr

structure TerminalModes where
  insert : Bool
  origin : Bool
  autowrap : Bool
  applicationCursor : Bool
  applicationKeypad : Bool
  cursorVisible : Bool
  bracketedPaste : Bool
  focusReporting : Bool
  synchronizedOutput : Bool
  mouseTracking : MouseTrackingMode
  mouseSgr : Bool
deriving DecidableEq, Repr

def TerminalModes.default : TerminalModes :=
  ⟨false, false, true, false, false, true, false, false, false, .off, false⟩

/-- A row of a grid: a piece of the logical line, `cellOffset` cells into it. -/
structure TerminalRow where
  cells : List Cell
  logicalLineId : ℕ
  cellOffset : ℕ
  softWrapped : Bool
deriving DecidableEq, Repr

def TerminalRow.new (cols logicalLineId : ℕ) (style : Style) : TerminalRow :=
  ⟨List.replicate cols (blank style), logicalLineId, 0, false⟩

/-- The rows as they are published. -/
structure ScreenProjection where
  size : CellSize
  alternateActive : Bool
  history : List TerminalRow
  visibleRows : List TerminalRow
  cursor : Option CellCoord
  title : Option (List Char)
  generation : ℕ
  mappingRevision : ℕ
deriving DecidableEq, Repr

namespace TerminalScreen

structure Cursor where
  row : ℕ
  col : ℕ
  pendingWrap : Bool
deriving DecidableEq, Repr

def Cursor.default : Cursor := ⟨0, 0, false⟩

structure SavedCursor where
  cursor : Cursor
  style : Style
  g0 : CharacterSet
  g1 : CharacterSet
  useG1 : Bool
deriving DecidableEq, Repr

structure Grid where
  rows : List TerminalRow
  history : List TerminalRow
deriving DecidableEq, Repr

/-- `Grid::new`, and the next line id after its rows. -/
def Grid.new (size : CellSize) (nextId : ℕ) : Grid × ℕ :=
  (⟨(List.range size.rows).map fun i =>
      TerminalRow.new size.cols (min (nextId + i) u64Max) .default, []⟩,
    min (nextId + size.rows) u64Max)

end TerminalScreen

structure TerminalScreen where
  size : CellSize
  main : TerminalScreen.Grid
  alt : TerminalScreen.Grid
  altActive : Bool
  cursor : TerminalScreen.Cursor
  savedMainCursor : Option TerminalScreen.SavedCursor
  savedAltCursor : Option TerminalScreen.SavedCursor
  savedMain1049 : Option TerminalScreen.SavedCursor
  inactiveMainCursor : TerminalScreen.Cursor
  inactiveAltCursor : TerminalScreen.Cursor
  style : Style
  modes : TerminalModes
  scrollTop : ℕ
  scrollBottom : ℕ
  tabStops : Finset ℕ
  title : Option (List Char)
  generation : ℕ
  mappingRevision : ℕ
  published : ScreenProjection
  nextLineId : ℕ
  scrollbackRows : ℕ
  g0 : CharacterSet
  g1 : CharacterSet
  useG1 : Bool
  bellCount : ℕ
  mouseX10 : Bool
  mouseButton : Bool
  mouseAny : Bool
  lastGrapheme : Option (ℕ × ℕ)

/-- `validate_size`. -/
def validSize (size : CellSize) : Prop :=
  0 < size.rows ∧ 0 < size.cols ∧ size.rows ≤ maxTerminalSide ∧ size.cols ≤ maxTerminalSide ∧
    size.rows * size.cols ≤ maxTerminalVisibleCells

instance (size : CellSize) : Decidable (validSize size) := inferInstanceAs (Decidable (_ ∧ _))

def defaultTabStops (cols : ℕ) : Finset ℕ := (Finset.range cols).filter fun c => 0 < c ∧ c % 8 = 0

/-- `sanitize_title`: control characters go, and the end that is too long. -/
def sanitizeTitle (value : List Char) : List Char :=
  let value := value.map fun ch => if isControl ch then ' ' else ch
  ((value.inits.filter fun start => utf8Len start ≤ maxTerminalMetadataBytes).getLast?).getD []

def decSpecialGraphics : Char → Char
  | '`' => '◆'
  | 'a' => '▒'
  | 'f' => '°'
  | 'g' => '±'
  | 'j' => '┘'
  | 'k' => '┐'
  | 'l' => '┌'
  | 'm' => '└'
  | 'n' => '┼'
  | 'o' => '⎺'
  | 'p' => '⎻'
  | 'q' => '─'
  | 'r' => '⎼'
  | 's' => '⎽'
  | 't' => '├'
  | 'u' => '┤'
  | 'v' => '┴'
  | 'w' => '┬'
  | 'x' => '│'
  | 'y' => '≤'
  | 'z' => '≥'
  | '{' => 'π'
  | '|' => '≠'
  | '}' => '£'
  | '~' => '·'
  | ch => ch

namespace TerminalScreen

/-- `TerminalScreen::new`, for a valid size. -/
def new (size : CellSize) (scrollbackRows : ℕ) : TerminalScreen :=
  let main := Grid.new size 1
  let alt := Grid.new size main.2
  { size := size
    main := main.1
    alt := alt.1
    altActive := false
    cursor := .default
    savedMainCursor := none
    savedAltCursor := none
    savedMain1049 := none
    inactiveMainCursor := .default
    inactiveAltCursor := .default
    style := .default
    modes := .default
    scrollTop := 0
    scrollBottom := size.rows - 1
    tabStops := defaultTabStops size.cols
    title := none
    generation := 0
    mappingRevision := 0
    published := ⟨size, false, [], main.1.rows, some ⟨0, 0⟩, none, 0, 0⟩
    nextLineId := alt.2
    scrollbackRows := scrollbackRows
    g0 := .ascii
    g1 := .ascii
    useG1 := false
    bellCount := 0
    mouseX10 := false
    mouseButton := false
    mouseAny := false
    lastGrapheme := none }

/-! ## Parts -/

variable (s : TerminalScreen)

def active : Grid := if s.altActive then s.alt else s.main

def setRows (rows : List TerminalRow) (s : TerminalScreen) : TerminalScreen :=
  if s.altActive then { s with alt := { s.alt with rows := rows } }
  else { s with main := { s.main with rows := rows } }

variable (row : ℕ)

def modifyRow (f : TerminalRow → TerminalRow) (s : TerminalScreen) :
    Option TerminalScreen := do
  let r ← s.active.rows[row]?
  return s.setRows (s.active.rows.set row (f r))

def editCells (f : List Cell → Option (List Cell)) (s : TerminalScreen) :
    Option TerminalScreen := do
  let r ← s.active.rows[row]?
  let cells ← f r.cells
  return s.setRows (s.active.rows.set row { r with cells := cells })

/-- `active().rows[row].cells[col]`. -/
def cellAt (col : ℕ) : Option Cell := do
  let r ← s.active.rows[row]?
  r.cells[col]?

def changed : TerminalScreen :=
  { s with
    generation := saturatingSucc s.generation
    mappingRevision := saturatingSucc s.mappingRevision }

def displayOnlyChanged : TerminalScreen :=
  { s with generation := saturatingSucc s.generation }

def currentProjection : ScreenProjection where
  size := s.size
  alternateActive := s.altActive
  history := if s.altActive then [] else s.main.history
  visibleRows := s.active.rows
  cursor := if s.modes.cursorVisible then some ⟨s.cursor.row, s.cursor.col⟩ else none
  title := s.title
  generation := s.generation
  mappingRevision := s.mappingRevision

def publish : TerminalScreen := { s with published := s.currentProjection }

def captureCursor : SavedCursor := ⟨s.cursor, s.style, s.g0, s.g1, s.useG1⟩

def clampCursor (c : Cursor) (size : CellSize) : Cursor :=
  ⟨min c.row (size.rows - 1), min c.col (size.cols - 1), false⟩

def restoreCursor (saved : SavedCursor) (s : TerminalScreen) : TerminalScreen :=
  { s with
    cursor := clampCursor saved.cursor s.size
    style := saved.style
    g0 := saved.g0
    g1 := saved.g1
    useG1 := saved.useG1 }.displayOnlyChanged

def times (f : TerminalScreen → Option TerminalScreen) : ℕ → TerminalScreen → Option TerminalScreen
  | 0, s => some s
  | n + 1, s => f s >>= times f n

/-! ## Rows -/

/-- `new_row`, and the screen whose next id it took. -/
def newRow : TerminalRow × TerminalScreen :=
  (TerminalRow.new s.size.cols s.nextLineId s.style,
    { s with nextLineId := saturatingSucc s.nextLineId })

/-- A row is taken out at `out` and a new one put in at `into`. -/
def shiftRows (out into : ℕ) (s : TerminalScreen) : Option TerminalScreen :=
  let rows := s.active.rows
  if out < rows.length ∧ into < rows.length then
    some (s.newRow.2.setRows ((rows.eraseIdx out).insertIdx into s.newRow.1))
  else none

/-- The loop of `enforce_history_budget`, which drops rows at the front. -/
def trimHistory (scrollbackRows cols : ℕ) : List TerminalRow → List TerminalRow
  | [] => []
  | row :: rows =>
    if scrollbackRows < rows.length + 1 ∨ maxTerminalHistoryCells < (rows.length + 1) * cols then
      trimHistory scrollbackRows cols rows
    else row :: rows

def enforceHistoryBudget : TerminalScreen :=
  { s with
    main := { s.main with history := trimHistory s.scrollbackRows s.size.cols s.main.history } }

/-- `break_chain_after`'s new ids and offsets for the rows that go on with line `oldId`, and
    the next id after them. -/
def relabelChain (cols oldId : ℕ) : (id nextId offset : ℕ) → List TerminalRow →
    List TerminalRow × ℕ
  | _, nextId, _, [] => ([], nextId)
  | id, nextId, offset, row :: rows =>
    if row.logicalLineId ≠ oldId then (row :: rows, nextId)
    else
      let rest :=
        if row.softWrapped then
          relabelChain cols oldId id nextId (min (offset + cols) u32Max) rows
        else relabelChain cols oldId nextId (saturatingSucc nextId) 0 rows
      ({ row with logicalLineId := id, cellOffset := offset } :: rest.1, rest.2)

def breakChainAfter (s : TerminalScreen) : Option TerminalScreen := do
  let rows := s.active.rows
  let r ← rows[row]?
  if rows[row + 1]?.any (·.logicalLineId == r.logicalLineId) then
    let (tail, nextId) := relabelChain s.size.cols r.logicalLineId s.nextLineId
      (saturatingSucc s.nextLineId) 0 (rows.drop (row + 1))
    return { s with nextLineId := nextId }.setRows (rows.take (row + 1) ++ tail)
  else return s

/-- A row scrolled off the top of the main screen is kept. -/
def keepRow (removed : TerminalRow) (s : TerminalScreen) : TerminalScreen :=
  if s.altActive = false ∧ s.scrollTop = 0 ∧ s.scrollBottom + 1 = s.size.rows then
    { s with main := { s.main with history := s.main.history ++ [removed] } }
  else s

variable (continuation : Option (ℕ × ℕ))

def continueLine (row : TerminalRow) : TerminalRow :=
  match continuation with
  | some (id, offset) => { row with logicalLineId := id, cellOffset := offset }
  | none => row

/-- One turn of `scroll_up_internal`'s loop. -/
def scrollRow (s : TerminalScreen) : Option TerminalScreen := do
  let rows := s.active.rows
  let removed ← rows[s.scrollTop]?
  let s := s.keepRow removed
  if s.scrollBottom < rows.length then
    return s.newRow.2.setRows ((rows.eraseIdx s.scrollTop).insertIdx s.scrollBottom
      (continueLine continuation s.newRow.1))
  else none

/-- The loop: the last new row is the one that goes on. -/
def scrollRows (continuation : Option (ℕ × ℕ)) : ℕ → TerminalScreen → Option TerminalScreen
  | 0, s => some s
  | n + 1, s => do
    let s ← scrollRow (if n = 0 then continuation else none) s
    scrollRows continuation n s

def scrollUpInternal (s : TerminalScreen) :
    Option TerminalScreen := do
  let region ← checkedSub s.scrollBottom s.scrollTop
  let s ← scrollRows continuation (min n (region + 1)) s
  return { s with cursor := { s.cursor with row := s.scrollBottom } }.enforceHistoryBudget

def scrollUp : Option TerminalScreen := do
  let s' ← scrollUpInternal (max n 1) none s
  return { s' with cursor := s.cursor }.changed

def scrollDown : Option TerminalScreen := do
  let region ← checkedSub s.scrollBottom s.scrollTop
  let s ← times (shiftRows s.scrollBottom s.scrollTop) (min (max n 1) (region + 1)) s
  return s.changed

/-- `insert_lines`, outside the scrolling region too, where it does nothing. -/
def insertLines : Option TerminalScreen :=
  if s.cursor.row < s.scrollTop ∨ s.scrollBottom < s.cursor.row then some s
  else do
    let s ← times (shiftRows s.scrollBottom s.cursor.row)
      (min (max n 1) (s.scrollBottom - s.cursor.row + 1)) s
    return s.changed

def deleteLines : Option TerminalScreen :=
  if s.cursor.row < s.scrollTop ∨ s.scrollBottom < s.cursor.row then some s
  else do
    let s ← times (shiftRows s.cursor.row s.scrollBottom)
      (min (max n 1) (s.scrollBottom - s.cursor.row + 1)) s
    return s.changed

/-! ## Lines -/

/-- `soft_wrap`.  The offset is a `u32`. -/
def softWrap : Option TerminalScreen := do
  let row := s.cursor.row
  let r ← s.active.rows[row]?
  let offset := (r.cellOffset + s.size.cols) % 2 ^ 32
  let s ← s.modifyRow row fun r => { r with softWrapped := true }
  let s := { s with cursor := ⟨row, 0, false⟩ }
  if row = s.scrollBottom then
    let s ← s.scrollUpInternal 1 (some (r.logicalLineId, offset))
    return s.changed
  else
    let s ← s.modifyRow (row + 1) fun next =>
      { next with logicalLineId := r.logicalLineId, cellOffset := offset }
    return { s with cursor := ⟨row + 1, 0, false⟩ }.changed

def lineFeed : Option TerminalScreen := do
  let row := s.cursor.row
  let s := { s with cursor := { s.cursor with pendingWrap := false } }
  let s ← s.modifyRow row fun r => { r with softWrapped := false }
  let s ← s.breakChainAfter row
  if row = s.scrollBottom then
    let s ← s.scrollUpInternal 1 none
    return s.changed
  else if row + 1 < s.size.rows then
    return { s with cursor := { s.cursor with row := row + 1 } }.changed
  else return s.changed

def reverseIndex : Option TerminalScreen :=
  let s := { s with cursor := { s.cursor with pendingWrap := false } }
  if s.cursor.row = s.scrollTop then s.scrollDown 1
  else if 0 < s.cursor.row then
    some { s with cursor := { s.cursor with row := s.cursor.row - 1 } }.changed
  else some s

def horizontalTab : TerminalScreen :=
  { s with
    cursor := ⟨s.cursor.row,
      (s.tabStops.filter (s.cursor.col < ·)).min.untopD (s.size.cols - 1), false⟩
      }.displayOnlyChanged

/-! ## Cursor motion -/

/-- `move_vertical`; a bound below another panics. -/
def moveVertical (up : Bool) (n : ℕ) (s : TerminalScreen) : Option TerminalScreen :=
  let lo := if s.modes.origin then s.scrollTop else 0
  let hi := if s.modes.origin then s.scrollBottom else s.size.rows - 1
  let moved := if up then s.cursor.row - n else s.cursor.row + n
  if lo ≤ hi then
    some { s with
      cursor := ⟨max lo (min moved hi), s.cursor.col, false⟩ }.displayOnlyChanged
  else none

def moveHorizontal (back : Bool) (n : ℕ) (s : TerminalScreen) : TerminalScreen :=
  let moved := if back then s.cursor.col - n else s.cursor.col + n
  { s with cursor := ⟨s.cursor.row, min moved (s.size.cols - 1), false⟩ }.displayOnlyChanged

def setCol (col : ℕ) (s : TerminalScreen) : TerminalScreen :=
  { s with
    cursor := ⟨s.cursor.row, min (col - 1) (s.size.cols - 1), false⟩ }.displayOnlyChanged

def setRow (s : TerminalScreen) : TerminalScreen :=
  let base := if s.modes.origin then s.scrollTop else 0
  let hi := if s.modes.origin then s.scrollBottom else s.size.rows - 1
  { s with
    cursor := ⟨min (base + (row - 1)) hi, s.cursor.col, false⟩ }.displayOnlyChanged

def setPosition (col : ℕ) (s : TerminalScreen) : TerminalScreen := (s.setRow row).setCol col

/-! ## Erasure -/

/-- Whether the row above goes on with the line of row `row`. -/
def continues : Bool :=
  s.active.rows[row - 1]?.any fun above =>
    above.softWrapped && s.active.rows[row]?.any (·.logicalLineId == above.logicalLineId)

/-- Row `row` no longer goes on with the line of the row above. -/
def unchainRow (s : TerminalScreen) : Option TerminalScreen :=
  if 0 < row ∧ s.continues row then
    s.modifyRow (row - 1) (fun r => { r with softWrapped := false }) >>= breakChainAfter (row - 1)
  else some s

def clearRow (s : TerminalScreen) : Option TerminalScreen := do
  let s ← s.unchainRow row
  let s ← s.modifyRow row fun r =>
    { r with cells := List.replicate r.cells.length (blank s.style), softWrapped := false }
  s.breakChainAfter row

/-- `clear_row` of `n` rows from `start` on. -/
def clearRows (start n : ℕ) (s : TerminalScreen) : Option TerminalScreen :=
  (List.range' start n).foldlM (fun s row => s.clearRow row) s

variable (mode : EraseMode)

/-- The match of `erase_line`. -/
def eraseInLine (s : TerminalScreen) : Option TerminalScreen :=
  let row := s.cursor.row
  let cols := s.size.cols
  match mode with
  | .all | .saved => s.clearRow row
  | .toEnd => s.editCells row (clearRange s.style cols s.cursor.col cols)
  | .toStart => s.editCells row (clearRange s.style cols 0 (s.cursor.col + 1))

def eraseLine (s : TerminalScreen) : Option TerminalScreen := do
  let s ← s.eraseInLine mode
  return { s with cursor := { s.cursor with pendingWrap := false } }.changed

/-- The match of `erase_display`. -/
def eraseInDisplay (s : TerminalScreen) : Option TerminalScreen :=
  match mode with
  | .toEnd => s.eraseLine .toEnd >>= clearRows (s.cursor.row + 1) (s.size.rows - (s.cursor.row + 1))
  | .toStart => s.clearRows 0 s.cursor.row >>= eraseLine .toStart
  | .all => s.clearRows 0 s.size.rows
  | .saved => some (if s.altActive then s else { s with main := { s.main with history := [] } })

def eraseDisplay (s : TerminalScreen) : Option TerminalScreen := do
  let s ← s.eraseInDisplay mode
  return s.changed

def eraseCharacters : Option TerminalScreen := do
  let stop := min (s.cursor.col + max n 1) s.size.cols
  let s ← s.editCells s.cursor.row (clearRange s.style s.size.cols s.cursor.col stop)
  return s.changed

section
variable (M : TextMetrics)

def insertCharacters (n : ℕ) (s : TerminalScreen) : Option TerminalScreen := do
  let room ← checkedSub s.size.cols s.cursor.col
  let s ← s.editCells s.cursor.row (insertCells M s.style s.cursor.col (min (max n 1) room))
  return { s with cursor := { s.cursor with pendingWrap := false } }.changed

def deleteCharacters (n : ℕ) (s : TerminalScreen) : Option TerminalScreen := do
  let room ← checkedSub s.size.cols s.cursor.col
  let s ← s.editCells s.cursor.row
    (deleteCells M s.style s.size.cols s.cursor.col (min (max n 1) room))
  return { s with cursor := { s.cursor with pendingWrap := false } }.changed

/-! ## Text -/

def mapCharacter (ch : Char) : Char :=
  if (if s.useG1 then s.g1 else s.g0) = .decSpecialGraphics then decSpecialGraphics ch else ch

/-- Where the cursor stands after a glyph `width` columns wide at `col`. -/
def afterGlyph (col width : ℕ) : Cursor :=
  if s.size.cols ≤ col + width then ⟨row, s.size.cols - 1, s.modes.autowrap⟩
  else ⟨row, col + width, false⟩

def makeRoom (width : ℕ) (s : TerminalScreen) : Option TerminalScreen :=
  if s.modes.insert then s.insertCharacters M width else some s

/-- `write_character`, from its insertion on. -/
def putCharacter (ch : Char) (width : ℕ) (s : TerminalScreen) : Option TerminalScreen := do
  let s ← s.makeRoom M width
  let r ← s.active.rows[s.cursor.row]?
  let x ← r.cells[s.cursor.col]?
  let glyphChanged := glyphChanged r.cells s.cursor.col width x ch
  let s' ← s.editCells s.cursor.row (putCells s.style s.size.cols s.cursor.col width ch)
  let s' := { s' with
    cursor := s.afterGlyph s.cursor.row s.cursor.col width
    lastGrapheme := some (s.cursor.row, s.cursor.col) }
  return if glyphChanged then s'.changed else s'.displayOnlyChanged

/-- `write_character`.  A wide character that has no room is written as another. -/
def writeCharacter (ch : Char) (width : ℕ) (s : TerminalScreen) : Option TerminalScreen :=
  let cols := s.size.cols
  let fits := ¬(width = 2 ∧ cols = 1)
  let ch := if fits then ch else '\uFFFD'
  let width := if fits then width else 1
  if width = 2 ∧ cols ≤ s.cursor.col + 1 ∧ s.modes.autowrap = false then
    s.putCharacter M '\uFFFD' 1
  else if s.cursor.pendingWrap ∨ width = 2 ∧ cols ≤ s.cursor.col + 1 then
    s.softWrap >>= putCharacter M ch width
  else s.putCharacter M ch width

def writeLeadingCombining (ch : Char) (s : TerminalScreen) : Option TerminalScreen := do
  let row := s.cursor.row
  let col := s.cursor.col
  let s ← s.editCells row (clearWideAt s.style s.size.cols col)
  if utf8Len [' ', ch] ≤ maxTerminalGraphemeBytes then
    let s ← s.editCells row (setCell col ⟨.cluster [' ', ch], s.style⟩)
    return { s with lastGrapheme := some (row, col) }.changed
  else return s

/-- The branch of `replace_previous_grapheme` that takes a cluster that has become wide in
    the last column to the next row. -/
def wrapPreviousGrapheme (lead : ℕ) (style : Style) (cluster : List Char)
    (s : TerminalScreen) : Option TerminalScreen := do
  let cols := s.size.cols
  let s ← s.editCells row (setCell lead (blank s.style))
  let s ← { s with cursor := ⟨row, cols - 1, true⟩ }.softWrap
  let newRow := s.cursor.row
  let s ← s.editCells newRow fun cells =>
    setCell 0 ⟨.cluster cluster, style⟩ cells >>= setCell 1 ⟨.continuation, style⟩
  return { s with
    cursor := if cols = 2 then ⟨newRow, 1, s.modes.autowrap⟩ else ⟨newRow, 2, false⟩
    lastGrapheme := some (newRow, 0) }.changed

def replacePreviousGrapheme (row lead : ℕ) (cluster : List Char) (s : TerminalScreen) :
    Option TerminalScreen := do
  let cols := s.size.cols
  let width := max 1 (min (M.strWidth cluster) 2)
  let x ← s.cellAt row lead
  if width = 2 ∧ cols = 1 then
    let s ← s.editCells row (setCell lead ⟨.char '\uFFFD', x.style⟩)
    return { s with
      cursor := ⟨row, 0, s.modes.autowrap⟩
      lastGrapheme := some (row, lead) }.changed
  else if width = 2 ∧ cols ≤ lead + 1 ∧ s.modes.autowrap = false then
    let s ← s.editCells row (setCell lead ⟨.char '\uFFFD', x.style⟩)
    return { s with cursor := ⟨row, lead, false⟩, lastGrapheme := some (row, lead) }.changed
  else if width = 2 ∧ cols ≤ lead + 1 then s.wrapPreviousGrapheme row lead x.style cluster
  else
    let s ← s.editCells row
      (replaceCells x.style s.style cols lead (M.glyphWidth x.glyph) width cluster)
    return { s with
      cursor := s.afterGlyph row lead width
      lastGrapheme := some (row, lead) }.changed

/-- The cluster that `ch` makes with the grapheme written last, when it makes one with it. -/
def joined (s : TerminalScreen) (ch : Char) : Option (Option (ℕ × ℕ × List Char)) :=
  match s.lastGrapheme with
  | none => some none
  | some (row, lead) => do
    let x ← s.cellAt row lead
    let candidate := x.glyph.text ++ [ch]
    return if M.oneGrapheme candidate then some (row, lead, candidate) else none

/-- One turn of `write_text`'s loop, for a character mapped already. -/
def writeMapped (ch : Char) (s : TerminalScreen) : Option TerminalScreen :=
  if isControl ch then some s
  else do
    match ← s.joined M ch with
    -- a cluster too long drops the character
    | some (row, lead, candidate) =>
      if maxTerminalGraphemeBytes < utf8Len candidate then return s
      else s.replacePreviousGrapheme M row lead candidate
    | none =>
      let width := min (M.charWidth ch) 2
      if width = 0 then s.writeLeadingCombining ch else s.writeCharacter M ch width

def writeChar (s : TerminalScreen) (ch : Char) : Option TerminalScreen :=
  s.writeMapped M (s.mapCharacter ch)

def writeText (text : List Char) (s : TerminalScreen) : Option TerminalScreen :=
  text.foldlM (writeChar M) s

end

/-! ## Modes -/

def setScrollingRegion (top : ℕ) (bottom : Option ℕ) (s : TerminalScreen) : TerminalScreen :=
  let top := top - 1
  let bottom := bottom.getD s.size.rows - 1
  if top < bottom ∧ bottom < s.size.rows then
    { s with
      scrollTop := top
      scrollBottom := bottom
      cursor := ⟨if s.modes.origin then top else 0, 0, false⟩ }.changed
  else s

/-- The alternate screen is entered: but for the mode 47 it is a new one. -/
def enterAlternate (mode : AlternateScreenMode) (s : TerminalScreen) : TerminalScreen :=
  let s := { s with inactiveMainCursor := s.cursor }
  let s := if mode = .mode1049 then { s with savedMain1049 := some s.captureCursor } else s
  let s :=
    if mode = .mode47 then { s with cursor := s.inactiveAltCursor }
    else
      { s with
        alt := (Grid.new s.size s.nextLineId).1
        nextLineId := (Grid.new s.size s.nextLineId).2
        cursor := .default }
  { s with altActive := true }

def leaveAlternate (mode : AlternateScreenMode) (s : TerminalScreen) : TerminalScreen :=
  let s := { s with inactiveAltCursor := s.cursor, altActive := false }
  if mode = .mode1049 then
    match s.savedMain1049 with
    | some saved => { s with savedMain1049 := none }.restoreCursor saved
    | none => { s with cursor := s.inactiveMainCursor }
  else { s with cursor := s.inactiveMainCursor }

def setAlternate (mode : AlternateScreenMode) (enabled : Bool) (s : TerminalScreen) :
    TerminalScreen :=
  if enabled = s.altActive then s
  else
    let s := if enabled then s.enterAlternate mode else s.leaveAlternate mode
    { s with
      scrollTop := 0
      scrollBottom := s.size.rows - 1
      cursor := clampCursor s.cursor s.size }.changed

def resolveMouseTracking (s : TerminalScreen) : TerminalScreen :=
  let mode : MouseTrackingMode :=
    if s.mouseAny then .any else if s.mouseButton then .button
    else if s.mouseX10 then .x10 else .off
  { s with modes := { s.modes with mouseTracking := mode } }

/-- The switch of `set_mode`. -/
def switchMode (mode : TerminalMode) (enabled : Bool) (s : TerminalScreen) : TerminalScreen :=
  match mode with
  | .insert => { s with modes := { s.modes with insert := enabled } }
  | .origin =>
    { s with
      modes := { s.modes with origin := enabled }
      cursor := { s.cursor with row := if enabled then s.scrollTop else 0, col := 0 } }
  | .autoWrap => { s with modes := { s.modes with autowrap := enabled } }
  | .applicationCursor => { s with modes := { s.modes with applicationCursor := enabled } }
  | .applicationKeypad => { s with modes := { s.modes with applicationKeypad := enabled } }
  | .cursorVisible => { s with modes := { s.modes with cursorVisible := enabled } }
  | .bracketedPaste => { s with modes := { s.modes with bracketedPaste := enabled } }
  | .focusReporting => { s with modes := { s.modes with focusReporting := enabled } }
  | .synchronizedOutput =>
    let s := if enabled && !s.modes.synchronizedOutput then s.publish else s
    let s := { s with modes := { s.modes with synchronizedOutput := enabled } }
    if enabled then s else s.publish
  | .mouseX10 => { s with mouseX10 := enabled }.resolveMouseTracking
  | .mouseButton => { s with mouseButton := enabled }.resolveMouseTracking
  | .mouseAny => { s with mouseAny := enabled }.resolveMouseTracking
  | .mouseSgr => { s with modes := { s.modes with mouseSgr := enabled } }

def setMode (mode : TerminalMode) (enabled : Bool) (s : TerminalScreen) : TerminalScreen :=
  let s := s.switchMode mode enabled
  { s with cursor := { s.cursor with pendingWrap := false } }.changed

def saveCursor : TerminalScreen :=
  if s.altActive then { s with savedAltCursor := some s.captureCursor }
  else { s with savedMainCursor := some s.captureCursor }

def saved : Option SavedCursor :=
  if s.altActive then s.savedAltCursor else s.savedMainCursor

def designateCharacterSet (slot : CharacterSetSlot) (charset : CharacterSet)
    (s : TerminalScreen) : TerminalScreen :=
  match slot with
  | .g0 => { s with g0 := charset }.displayOnlyChanged
  | .g1 => { s with g1 := charset }.displayOnlyChanged

/-! ## Events -/

section
variable (M : TextMetrics)

/-- The match of `apply_event`. -/
def perform (s : TerminalScreen) : AnsiEvent → Option TerminalScreen
  | .text text => s.writeText M text
  | .setStyle style => some { s with style := style }.displayOnlyChanged
  | .carriageReturn => some { s with cursor := ⟨s.cursor.row, 0, false⟩ }.displayOnlyChanged
  | .backspace =>
    some { s with cursor := ⟨s.cursor.row, s.cursor.col - 1, false⟩ }.displayOnlyChanged
  | .bell => some { s with bellCount := saturatingSucc s.bellCount }.displayOnlyChanged
  | .lineFeed | .index => s.lineFeed
  | .nextLine => { s with cursor := { s.cursor with col := 0 } }.lineFeed
  | .reverseIndex => s.reverseIndex
  | .horizontalTab => some s.horizontalTab
  | .setTabStop => some { s with tabStops := insert s.cursor.col s.tabStops }.displayOnlyChanged
  | .clearTabStop => some { s with tabStops := s.tabStops.erase s.cursor.col }.displayOnlyChanged
  | .clearAllTabStops => some { s with tabStops := ∅ }.displayOnlyChanged
  | .cursorUp n => s.moveVertical true n
  | .cursorDown n => s.moveVertical false n
  | .cursorForward n => some (s.moveHorizontal false n)
  | .cursorBackward n => some (s.moveHorizontal true n)
  | .cursorNextLine n => do
    let s ← s.moveVertical false n
    return { s with cursor := { s.cursor with col := 0 } }
  | .cursorPreviousLine n => do
    let s ← s.moveVertical true n
    return { s with cursor := { s.cursor with col := 0 } }
  | .cursorHorizontalAbsolute col => some (s.setCol col)
  | .cursorVerticalAbsolute row => some (s.setRow row)
  | .cursorPosition row col => some (s.setPosition row col)
  | .eraseDisplay mode => s.eraseDisplay mode
  | .eraseLineMode mode => s.eraseLine mode
  | .eraseCharacters n => s.eraseCharacters n
  | .insertCharacters n => s.insertCharacters M n
  | .deleteCharacters n => s.deleteCharacters M n
  | .insertLines n => s.insertLines n
  | .deleteLines n => s.deleteLines n
  | .scrollUp n => s.scrollUp n
  | .scrollDown n => s.scrollDown n
  | .setScrollingRegion top bottom => some (s.setScrollingRegion top bottom)
  | .saveCursor => some s.saveCursor
  | .restoreCursor => some (match s.saved with
    | some saved => s.restoreCursor saved
    | none => s)
  | .alternateScreen mode enabled => some (s.setAlternate mode enabled)
  | .setMode mode enabled => some (s.setMode mode enabled)
  | .designateCharacterSet slot charset => some (s.designateCharacterSet slot charset)
  | .shiftOut => some { s with useG1 := true }.displayOnlyChanged
  | .shiftIn => some { s with useG1 := false }.displayOnlyChanged
  | .setTitle title => some { s with title := some (sanitizeTitle title) }.displayOnlyChanged
  | .eraseToEol => s.eraseLine .toEnd
  | .eraseLine => s.eraseLine .all
  | .alternateScreenEnter => some (s.setAlternate .mode1049 true)
  | .alternateScreenExit => some (s.setAlternate .mode1049 false)
  | .deviceRequest _ | .bracketedPasteBegin | .bracketedPasteEnd | .promptStart | .promptEnd
  | .commandStart | .outputStart => some s

/-- `apply_event`: only text goes on with the grapheme written last. -/
def applyEvent (s : TerminalScreen) (event : AnsiEvent) : Option TerminalScreen :=
  match event with
  | .text text => s.writeText M text
  | event => { s with lastGrapheme := none }.perform M event

end

end TerminalScreen

end Pmacs
