/-
  Resizing the screen (screen.rs).

  * `joinRows`: the logical lines of the main screen, cut into rows of the old width.
  * `reflowLine`: a line cut into rows of the new width, and where the cursor gets to.
  * `resize`, `step`: a resize, and what a screen is driven by.
-/
import Pmacs.Terminal.TerminalScreen

namespace Pmacs

open Lib

/-- A line put together from its rows; `base` is the offset of the first of them. -/
structure LogicalLine where
  id : ℕ
  base : ℕ
  cells : List Cell
deriving DecidableEq, Repr

structure CursorPlace where
  id : ℕ
  offset : ℕ
deriving DecidableEq, Repr

/-! ## Joining -/

def usedCells (cols : ℕ) (cursor : CursorPlace) (row : TerminalRow) : ℕ :=
  let cursorUsed :=
    if row.logicalLineId = cursor.id ∧ row.cellOffset ≤ cursor.offset ∧
        cursor.offset < row.cellOffset + cols then
      cursor.offset - row.cellOffset + 1
    else 0
  if row.softWrapped then cols else max (lastNonblank row.cells) cursorUsed

/-- `cells[..n]`. -/
def sliceTo (n : ℕ) (cells : List Cell) : Option (List Cell) :=
  if n ≤ cells.length then some (cells.take n) else none

/-- `cells.resize(n, fill)`. -/
def resizeCells (n : ℕ) (fill : Cell) (cells : List Cell) : List Cell :=
  cells.take n ++ List.replicate (n - cells.length) fill

/-- One turn of the joining loop, with the lines so far, the last of them first, and whether
    the row before was soft-wrapped. -/
def joinRow (cols : ℕ) (fill : Cell) (cursor : CursorPlace) (acc : List LogicalLine × Bool)
    (row : TerminalRow) : Option (List LogicalLine × Bool) := do
  let used ← sliceTo (usedCells cols cursor row) row.cells
  match acc with
  | (line :: lines, true) =>
    if line.id = row.logicalLineId then
      -- panics on a row whose offset lies before its line's first
      let start ← checkedSub row.cellOffset line.base
      return ({ line with cells := resizeCells start fill line.cells ++ used } :: lines,
        row.softWrapped)
    else return (⟨row.logicalLineId, row.cellOffset, used⟩ :: line :: lines, row.softWrapped)
  | (lines, _) => return (⟨row.logicalLineId, row.cellOffset, used⟩ :: lines, row.softWrapped)

def joinRows (cols : ℕ) (fill : Cell) (cursor : CursorPlace) (rows : List TerminalRow) :
    Option (List LogicalLine) := do
  let (lines, _) ← rows.foldlM (joinRow cols fill cursor) ([], false)
  return lines.reverse

/-! ## Cutting -/

/-- The variables of the cutting loop: the rows so far, the row being filled and the column
    it is filled to, how many columns of its line lie in the rows before it, and the cursor's
    offset in the line cut anew. -/
structure Reflow where
  rows : List TerminalRow
  part : List Cell
  physical : ℕ
  col : ℕ
  mapped : ℕ
deriving DecidableEq, Repr

structure ReflowLine where
  id : ℕ
  base : ℕ
  cols : ℕ
  fill : Cell
  cursorSource : Option ℕ

def Reflow.row (st : Reflow) (l : ReflowLine) (softWrapped : Bool) : TerminalRow :=
  ⟨st.part, l.id, (l.base + st.physical) % 2 ^ 32, softWrapped⟩

def Reflow.wrap (st : Reflow) (l : ReflowLine) : Reflow :=
  ⟨st.rows ++ [st.row l true], List.replicate l.cols l.fill, st.physical + l.cols, 0, st.mapped⟩

section
variable (M : TextMetrics)

def sourceWidth (x : Cell) : ℕ := max (M.glyphWidth x.glyph) 1

/-- The glyph a cell is cut to, and its width: in a single column there is no room for a
    wide one. -/
def displayGlyph (cols : ℕ) (x : Cell) : Glyph × ℕ :=
  if min (sourceWidth M x) 2 = 2 ∧ cols = 1 then (.char '\uFFFD', 1)
  else (x.glyph, min (sourceWidth M x) 2)

/-- The turn of the loop for the cell at `source`, which is no second column; `more` says
    whether cells come after it. -/
def reflowCell (l : ReflowLine) (source : ℕ) (more : Bool) (x : Cell) (st : Reflow) :
    Option Reflow := do
  let width := (displayGlyph M l.cols x).2
  let st := if width = 2 ∧ l.cols < st.col + 2 then st.wrap l else st
  let mapped := match l.cursorSource with
    | some cursor =>
      if source ≤ cursor ∧ cursor < source + sourceWidth M x then
        l.base + st.physical + st.col + min (cursor - source) (width - 1)
      else st.mapped
    | none => st.mapped
  let part ← setCell st.col ⟨(displayGlyph M l.cols x).1, x.style⟩ st.part
  let part ← whenWide width (setCell (st.col + 1) ⟨.continuation, x.style⟩) part
  let st := { st with part := part, col := st.col + width, mapped := mapped }
  return if st.col = l.cols ∧ more then st.wrap l else st

/-- The loop, over the cells from `source` on, the first `skip` of which are passed over. -/
def reflowCells (l : ReflowLine) : (source skip : ℕ) → List Cell → Reflow → Option Reflow
  | _, _, [], st => some st
  | source, skip + 1, _ :: cells, st => reflowCells l (source + 1) skip cells st
  | source, 0, x :: cells, st =>
    if x.isContinuation then reflowCells l (source + 1) 0 cells st
    else do
      let st ← reflowCell M l source (decide (sourceWidth M x < cells.length + 1)) x st
      reflowCells l (source + 1) (sourceWidth M x - 1) cells st

/-- A line is cut: the rows so far and the cursor's offset go on. -/
def reflowLine (cols : ℕ) (style : Style) (cursor : CursorPlace)
    (acc : List TerminalRow × ℕ) (line : LogicalLine) : Option (List TerminalRow × ℕ) := do
  let cells := sanitizeRow M style line.cells
  if cells = [] then return (acc.1 ++ [TerminalRow.new cols line.id style], acc.2)
  else
    let l : ReflowLine := ⟨line.id, line.base, cols, blank style,
      if line.id = cursor.id then some (cursor.offset - line.base) else none⟩
    let st ← reflowCells M l 0 0 cells ⟨acc.1, List.replicate cols (blank style), 0, 0, acc.2⟩
    return (st.rows ++ [st.row l false], st.mapped)

/-- `count` new rows, from the id `nextId` on. -/
def freshRows (cols nextId count : ℕ) (style : Style) : List TerminalRow :=
  (List.range count).map fun i => TerminalRow.new cols (min (nextId + i) u64Max) style

def findCursor (cols : ℕ) (cursor : CursorPlace) (rows : List TerminalRow) :
    Option TerminalScreen.Cursor :=
  let here (row : TerminalRow) : Bool := row.logicalLineId = cursor.id ∧
    row.cellOffset ≤ cursor.offset ∧ cursor.offset < row.cellOffset + cols
  match rows.findIdx? here with
  | some i => some ⟨i, cursor.offset - (rows[i]?.elim 0 (·.cellOffset)), false⟩
  | none => none

namespace TerminalScreen

def mainCursor (s : TerminalScreen) : Cursor :=
  if s.altActive then s.inactiveMainCursor else s.cursor

def cursorPlace (s : TerminalScreen) : Option CursorPlace := do
  let r ← s.main.rows[min s.mainCursor.row (s.main.rows.length - 1)]?
  return ⟨r.logicalLineId, r.cellOffset + s.mainCursor.col⟩

variable (size : CellSize)

/-- The rows the main screen is cut to, and the cursor's offset in its line. -/
def reflowedRows (s : TerminalScreen) : Option (List TerminalRow × ℕ) := do
  let cursor ← s.cursorPlace
  let lines ← joinRows s.size.cols (blank s.style) cursor (s.main.history ++ s.main.rows)
  lines.foldlM (reflowLine M size.cols s.style cursor) ([], cursor.offset)

/-- The main screen holds the last rows, and its history the ones before. -/
def splitRows (rows : List TerminalRow) (s : TerminalScreen) : TerminalScreen :=
  let rows := rows ++ freshRows size.cols s.nextLineId (size.rows - rows.length) s.style
  { s with
    main := ⟨rows.drop (rows.length - size.rows), rows.take (rows.length - size.rows)⟩ }

def reflowMain (s : TerminalScreen) : Option TerminalScreen := do
  let cursor ← s.cursorPlace
  let (rows, mapped) ← s.reflowedRows M size
  let s := { s.splitRows size rows with
    nextLineId := min (s.nextLineId + (size.rows - rows.length)) u64Max }
  let cursor := (findCursor size.cols ⟨cursor.id, mapped⟩ s.main.rows).getD
    ⟨size.rows - 1, 0, false⟩
  return if s.altActive then { s with inactiveMainCursor := cursor }
    else { s with cursor := cursor }

def resizeGridClip (grid : Grid) (size : CellSize) (nextId : ℕ) (style : Style) : Grid × ℕ :=
  let rows := (grid.rows.map fun r => { r with cells := clipCells M style size.cols r.cells }).take
    size.rows
  (⟨rows ++ (List.range (size.rows - rows.length)).map fun i =>
      TerminalRow.new size.cols ((nextId + i) % 2 ^ 64) style, []⟩,
    (nextId + (size.rows - rows.length)) % 2 ^ 64)

/-- The tab stops after a resize: default ones are set in the new columns. -/
def resizeTabStops (old new : ℕ) (stops : Finset ℕ) : Finset ℕ :=
  stops.filter (· < new) ∪
    (Finset.range new).filter fun c => old < new ∧ (old + 7) / 8 * 8 ≤ c ∧ c % 8 = 0

/-- `resize`, for a valid size that is not the screen's own. -/
def resizeTo (s : TerminalScreen) : Option TerminalScreen := do
  let s ← { s with lastGrapheme := none }.reflowMain M size
  let alt := resizeGridClip M s.alt size s.nextLineId s.style
  return { s with
    alt := alt.1
    nextLineId := alt.2
    size := size
    scrollTop := 0
    scrollBottom := size.rows - 1
    cursor := clampCursor s.cursor size
    tabStops := resizeTabStops s.size.cols size.cols s.tabStops }.enforceHistoryBudget.changed

/-- `resize`: an invalid size is an error and changes nothing. -/
def resize (s : TerminalScreen) : Option (Except CellSize TerminalScreen) :=
  if ¬validSize size then some (.error size)
  else if size = s.size then some (.ok s)
  else (s.resizeTo M size).map .ok

end TerminalScreen

inductive ScreenInput where
  | event (event : AnsiEvent)
  | resize (size : CellSize)
deriving DecidableEq, Repr

namespace TerminalScreen

/-- One event or resize; a panic has no result. -/
def step (s : TerminalScreen) : ScreenInput → Option TerminalScreen
  | .event event => s.applyEvent M event
  | .resize size =>
    match s.resize M size with
    | some (.ok s) => some s
    | some (.error _) => some s
    | none => none

/-- The screens that events and resizes lead to from a new one of a valid size, when every
    step meets a condition. -/
inductive Reached (M : TextMetrics) (Ok : TerminalScreen → ScreenInput → Prop) :
    TerminalScreen → Prop
  | new {size : CellSize} (h : validSize size) (scrollbackRows : ℕ) :
    Reached M Ok (new size scrollbackRows)
  | step {s s' : TerminalScreen} {input : ScreenInput} (h : Reached M Ok s) (hok : Ok s input)
    (hstep : s.step M input = some s') : Reached M Ok s'

/-- The screens that any events and resizes lead to. -/
abbrev Reachable (M : TextMetrics) : TerminalScreen → Prop := Reached M fun _ _ => True

theorem Reached.run_checked {M : TextMetrics} {Ok : TerminalScreen → ScreenInput → Prop}
    [∀ s input, Decidable (Ok s input)] {s s' : TerminalScreen} {inputs : List ScreenInput}
    (h : Reached M Ok s)
    (hrun : inputs.foldlM (fun s input => if Ok s input then s.step M input else none) s = some s') :
    Reached M Ok s' ∧ inputs.foldlM (TerminalScreen.step M) s = some s' := by
  induction inputs generalizing s with
  | nil => exact ⟨Option.some.inj hrun ▸ h, hrun⟩
  | cons input inputs ih =>
    obtain ⟨t, ht, hrun⟩ := Option.bind_eq_some_iff.1 hrun
    obtain ⟨hok, hstep⟩ := Option.ite_none_right_eq_some.1 ht
    obtain ⟨hreached, hfold⟩ := ih (h.step hok hstep) hrun
    exact ⟨hreached, by rw [List.foldlM_cons, hstep]; exact hfold⟩

theorem Reached.run {M : TextMetrics} {s s' : TerminalScreen} {inputs : List ScreenInput}
    (h : Reachable M s) (hrun : inputs.foldlM (TerminalScreen.step M) s = some s') :
    Reachable M s' := by
  induction inputs generalizing s with
  | nil => exact Option.some.inj hrun ▸ h
  | cons input inputs ih =>
    obtain ⟨t, ht, hrun⟩ := Option.bind_eq_some_iff.1 hrun; exact ih (h.step trivial ht) hrun

end TerminalScreen

end

end Pmacs
