/-
  Cell grids, what is painted over them and how two of them differ (pmacs-protocol's
  cell.rs, cell.rs, overlay_paint.rs, overlay_color.rs).

  * `paintOverlay`: a peer's cursor, label letter or selected cell, painted over a frame.
  * `diff`: the runs of changed cells, row by row.
-/
import Pmacs.Terminal.Cell

namespace Pmacs

variable {size : CellSize} {cells : List FrameCell} {col row : ℕ}

/-- What a graphical frontend draws over a cell; a terminal ignores it. -/
inductive Attachment where
  | imageCell (imageId subX subY : ℕ)
deriving DecidableEq, Repr

structure FrameCell extends Cell where
  attachment : Option Attachment
deriving DecidableEq, Repr

def FrameCell.default : FrameCell := ⟨Cell.default, none⟩

/-- A cell some glyph starts in, as opposed to the second column of a wide one. -/
def FrameCell.Leading (x : FrameCell) : Prop := x.glyph ≠ .continuation

instance (x : FrameCell) : Decidable x.Leading := inferInstanceAs (Decidable (_ ≠ _))

/-- A run of changed cells on one row. -/
structure DiffSpan where
  start : CellCoord
  cells : List FrameCell
deriving DecidableEq, Repr

/-- `CellGrid::get`, on a row-major buffer. -/
def cellAt (cells : List FrameCell) (stride row col : ℕ) : FrameCell :=
  cells.getD (row * stride + col) .default

/-! ## Overlays -/

/-- Something painted for another frontend: its cursor, the letter beside the cursor, or
    one cell of its selection. -/
inductive Overlay where
  | cursor (row col : ℕ) (color : Color)
  | label (cursorRow col : ℕ) (frontendId : ℕ) (color : Color)
  | selected (row col : ℕ) (color : Color)
deriving DecidableEq, Repr

def labelForFrontendId (raw : ℕ) : Option Char :=
  if 2 ≤ raw ∧ raw ≤ 27 then some (Char.ofNat ('A'.toNat + (raw - 2))) else none

/-- Changes the cell at `(row, col)`, when there is one. -/
def paintCell (size : CellSize) (row col : ℕ) (f : FrameCell → FrameCell)
    (cells : List FrameCell) : List FrameCell :=
  if row < size.rows ∧ col < size.cols then cells.modify (row * size.cols + col) f else cells

def paintCursorCell (size : CellSize) (row col : ℕ) (color : Color) :
    List FrameCell → List FrameCell :=
  paintCell size row col fun x =>
    { x with style := { x.style with fg := color, reverse := !x.style.reverse } }

def labelRow (cursorRow : ℕ) : ℕ := if cursorRow = 0 then cursorRow + 1 else cursorRow - 1

def paintLabelCell (size : CellSize) (cursorRow col : ℕ) (label : Char) (color : Color) :
    List FrameCell → List FrameCell :=
  paintCell size (labelRow cursorRow) col fun x =>
    { x with glyph := .char label, style := { x.style with fg := color, bold := true } }

/-- The cell write of `paint_selection_in_window`. -/
def paintSelectedCell (size : CellSize) (row col : ℕ) (color : Color) :
    List FrameCell → List FrameCell :=
  paintCell size row col fun x =>
    { x with
      style := { x.style with
        underline := .single
        fg := if x.style.fg = .default then color else x.style.fg } }

def paintOverlay (size : CellSize) (cells : List FrameCell) : Overlay → List FrameCell
  | .cursor row col color => paintCursorCell size row col color cells
  | .label cursorRow col frontendId color =>
    match labelForFrontendId frontendId with
    | some label => paintLabelCell size cursorRow col label color cells
    | none => cells
  | .selected row col color => paintSelectedCell size row col color cells

/-- `paint_other_frontend_overlays`, as the cells it paints in turn. -/
def paintOtherFrontendOverlays (size : CellSize) (cells : List FrameCell)
    (overlays : List Overlay) : List FrameCell :=
  overlays.foldl (paintOverlay size) cells

/-! ## Difference -/

/-- The span of the run of cells that ends before `col`, if there is one. -/
def closeRun (row col : ℕ) (run : List FrameCell) : List DiffSpan :=
  if run = [] then [] else [⟨⟨row, col - run.length⟩, run⟩]

/-- The spans of one row from column `col` on, `left` columns before its end; `run` is the
    run of changed cells that `col` may extend. -/
def diffRow (prev next : List FrameCell) (stride row : ℕ) :
    (left col : ℕ) → (run : List FrameCell) → List DiffSpan
  | 0, col, run => closeRun row col run
  | left + 1, col, run =>
    if cellAt prev stride row col = cellAt next stride row col then
      closeRun row col run ++ diffRow prev next stride row left (col + 1) []
    else diffRow prev next stride row left (col + 1) (run ++ [cellAt next stride row col])

def diff (prev next : List FrameCell) (stride : ℕ) (size : CellSize) : List DiffSpan :=
  (List.range size.rows).flatMap fun row => diffRow prev next stride row size.cols 0 []

/-! ## Painted grids -/

variable {f : FrameCell → FrameCell}

theorem length_paintCell : (paintCell size row col f cells).length = cells.length := by
  unfold paintCell
  split <;> simp

theorem length_paintOverlay (o : Overlay) : (paintOverlay size cells o).length = cells.length := by
  cases o with
  | cursor | selected => exact length_paintCell
  | label _ _ frontendId _ =>
    simp only [paintOverlay]
    cases labelForFrontendId frontendId with
    | none => rfl
    | some => exact length_paintCell

@[simp] theorem length_paintOtherFrontendOverlays {size : CellSize} (overlays : List Overlay)
    (cells : List FrameCell) :
    (paintOtherFrontendOverlays size cells overlays).length = cells.length := by
  induction overlays generalizing cells with
  | nil => rfl
  | cons o overlays ih =>
    show (paintOtherFrontendOverlays size (paintOverlay size cells o) overlays).length = _
    rw [ih, length_paintOverlay]

theorem index_lt (hr : row < size.rows) (hc : col < size.cols) :
    row * size.cols + col < size.rows * size.cols := by
  have := Nat.mul_le_mul_right size.cols (Nat.succ_le_of_lt hr)
  rw [Nat.succ_mul] at this
  omega

theorem index_inj {cols row' col' : ℕ} (hc : col < cols) (hc' : col' < cols)
    (h : row * cols + col = row' * cols + col') : row = row' ∧ col = col' := by
  have hdiv (r : ℕ) {c : ℕ} (h : c < cols) : (r * cols + c) / cols = r := by
    rw [add_comm, Nat.add_mul_div_right _ _ (by omega), Nat.div_eq_of_lt h, zero_add]
  have hrow : row = row' := by rw [← hdiv row hc, h, hdiv row' hc']
  subst hrow
  exact ⟨rfl, by omega⟩

theorem cellAt_paintCell {row' col' : ℕ}
    (hlen : cells.length = size.rows * size.cols) (hr : row' < size.rows) (hc : col' < size.cols) :
    cellAt (paintCell size row col f cells) size.cols row' col' =
      if row' = row ∧ col' = col then f (cellAt cells size.cols row' col')
      else cellAt cells size.cols row' col' := by
  have hlt := index_lt hr hc
  have hget (l : List FrameCell) (hl : l.length = size.rows * size.cols) :
      cellAt l size.cols row' col' = l.get ⟨row' * size.cols + col', hl ▸ hlt⟩ := by
    have hlt' : row' * size.cols + col' < l.length := hl ▸ hlt; unfold cellAt
    rw [List.getD_eq_getElem _ _ hlt', List.get_eq_getElem]
  rw [hget _ (length_paintCell.trans hlen), hget _ hlen, List.get_eq_getElem, List.get_eq_getElem]
  unfold paintCell
  by_cases hin : row < size.rows ∧ col < size.cols
  · simp only [hin, and_self, ↓reduceIte, List.getElem_modify]
    by_cases he : row' = row ∧ col' = col
    · rcases he with ⟨rfl, rfl⟩
      simp
    have hne : row * size.cols + col ≠ row' * size.cols + col' :=
      fun h => he (by obtain ⟨h1, h2⟩ := index_inj hin.2 hc h; exact ⟨h1.symm, h2.symm⟩)
    simp [he, hne]
  have he : ¬(row' = row ∧ col' = col) := by
    rintro ⟨rfl, rfl⟩; exact hin ⟨hr, hc⟩
  simp [hin, he]

end Pmacs
