/-
  What joining and cutting the lines of a screen does to the shape of its rows (screen.rs).

  * `Ordered`: the rows that are joined to a line start no earlier than its first.
  * `joinRows_isSome_iff`: joining panics on all other rows.
  * `reflowCells_safe`: cutting a line keeps an invariant that each cell keeps.
  * `reflowLine_safe`: the rows cut are all of the new width.
-/
import Pmacs.Lib.Fallible
import Pmacs.Terminal.Reflow
import Pmacs.Terminal.ScreenGeometry

namespace Pmacs

open Lib List Option

/-! ## Joining -/

/-- The line that the row after goes on with, when it is a row of the same line: the line's id
    and the offset of its first row. -/
def openLine (chain : Option (ℕ × ℕ)) (row : TerminalRow) : Option (ℕ × ℕ) :=
  if row.softWrapped then
    match chain with
    | some (id, base) =>
      if id = row.logicalLineId then some (id, base) else some (row.logicalLineId, row.cellOffset)
    | none => some (row.logicalLineId, row.cellOffset)
  else none

/-- Rows that go on with a line start no earlier than its first row. -/
def OrderedFrom : Option (ℕ × ℕ) → List TerminalRow → Prop
  | _, [] => True
  | chain, row :: rows =>
    (∀ base, chain = some (row.logicalLineId, base) → base ≤ row.cellOffset) ∧
      OrderedFrom (openLine chain row) rows

abbrev Ordered (rows : List TerminalRow) : Prop := OrderedFrom none rows

def joinChain : List LogicalLine × Bool → Option (ℕ × ℕ)
  | (line :: _, true) => some (line.id, line.base)
  | _ => none

section
variable {cols : ℕ} {fill : Cell} {cursor : CursorPlace} {row : TerminalRow}
  {acc acc' : List LogicalLine × Bool}

theorem lastNonblank_le (cells : List Cell) : lastNonblank cells ≤ cells.length :=
  ( rdropWhile_prefix isBlank cells).length_le

section
variable (h : HasLength cols row.cells)
include h

theorem usedCells_le : usedCells cols cursor row ≤ cols := by
  have hle := lastNonblank_le row.cells
  unfold usedCells
  dsimp only
  split_ifs <;> omega

theorem sliceTo_usedCells : sliceTo (usedCells cols cursor row) row.cells =
      some (row.cells.take (usedCells cols cursor row)) :=
  if_pos ((usedCells_le h).trans_eq h.symm)

theorem joinRow_onto {line : LogicalLine}
    {lines : List LogicalLine} (hid : line.id = row.logicalLineId) :
    joinRow cols fill cursor (line :: lines, true) row =
      (checkedSub row.cellOffset line.base).map fun start =>
        ({ line with
          cells := resizeCells start fill line.cells ++
            row.cells.take (usedCells cols cursor row) } :: lines, row.softWrapped) := by
  unfold joinRow
  rw [sliceTo_usedCells h, bind_eq_bind, bind_some]
  simp only [hid, ↓reduceIte]
  cases checkedSub row.cellOffset line.base <;> rfl

theorem joinRow_start (hchain : ∀ base, joinChain acc ≠ some (row.logicalLineId, base)) :
    joinRow cols fill cursor acc row =
      some (⟨row.logicalLineId, row.cellOffset, row.cells.take (usedCells cols cursor row)⟩ ::
        acc.1, row.softWrapped) := by
  unfold joinRow
  rw [sliceTo_usedCells h, bind_eq_bind, bind_some]
  split
  · rename_i line lines
    by_cases hid : line.id = row.logicalLineId
    · exact absurd (by rw [joinChain, hid]) (hchain line.base)
    · rw [if_neg hid]; rfl
  · rfl

end

theorem joinChain_some {id base : ℕ} (h : joinChain acc = some (id, base)) :
    ∃ line lines, acc = (line :: lines, true) ∧ line.id = id ∧ line.base = base := by
  unfold joinChain at h
  split at h
  · rename_i line lines; cases h; exact ⟨line, lines, rfl, rfl, rfl⟩
  · cases h

theorem joinRow_cases (h : HasLength cols row.cells) : (joinRow cols fill cursor acc row = none ∧
        ∃ base, joinChain acc = some (row.logicalLineId, base) ∧ row.cellOffset < base) ∨
      (∀ base, joinChain acc = some (row.logicalLineId, base) → base ≤ row.cellOffset) ∧
        ∃ acc', joinRow cols fill cursor acc row = some acc' ∧
          joinChain acc' = openLine (joinChain acc) row := by
  by_cases hchain : ∃ base, joinChain acc = some (row.logicalLineId, base)
  · obtain ⟨base, hchain⟩ := hchain; obtain ⟨line, lines, rfl, hid, rfl⟩ := joinChain_some hchain
    rw [joinRow_onto h hid, hchain]
    by_cases hle : line.base ≤ row.cellOffset
    · rw [checkedSub_of_le hle]
      refine .inr ⟨fun base hbase => ?_, _, rfl, ?_⟩
      · cases hbase; exact hle
      · cases hwrapped : row.softWrapped <;> simp [joinChain, openLine, hwrapped, hid]
    · refine .inl ⟨by simp [checkedSub, hle], line.base, rfl, not_le.1 hle⟩
  rw [not_exists] at hchain
  refine .inr ⟨fun base hbase => absurd hbase (hchain base), _, joinRow_start h hchain, ?_⟩
  cases hwrapped : row.softWrapped
  · simp [joinChain, openLine, hwrapped]
  cases hacc : joinChain acc with
  | none => simp [joinChain, openLine, hwrapped]
  | some chain =>
    have hid : chain.1 ≠ row.logicalLineId := by
      rintro hid; exact hchain chain.2 (hid ▸ hacc)
    simp [joinChain, openLine, hwrapped, hid]

theorem joinFrom_isSome_iff : ∀ {rows : List TerminalRow} {acc : List LogicalLine × Bool},
    (∀ r ∈ rows, HasLength cols r.cells) →
    ((rows.foldlM (joinRow cols fill cursor) acc).isSome ↔ OrderedFrom (joinChain acc) rows)
  | [], _, _ => by simp [OrderedFrom]
  | row :: rows, acc, h => by
    rw [foldlM_cons, OrderedFrom, bind_eq_bind]
    rcases @joinRow_cases cols fill cursor row acc (h row mem_cons_self)
      with ⟨hnone, base, hchain, hlt⟩ | ⟨hle, acc', hsome, hchain⟩
    · rw [hnone, bind_none]; simp only [isSome_none, Bool.false_eq_true, false_iff, not_and]
      exact fun hle => absurd (hle base hchain) (not_le.2 hlt)
    rw [hsome, bind_some, joinFrom_isSome_iff fun r hr => h r (mem_cons_of_mem _ hr), hchain]
    exact ⟨fun h => ⟨hle, h⟩, fun h => h.2⟩

/-- **Where joining panics**: at a row that starts before its line's first. -/
theorem joinRows_isSome_iff {rows : List TerminalRow} (h : ∀ r ∈ rows, HasLength cols r.cells) :
    (joinRows cols fill cursor rows).isSome ↔ Ordered rows := by
  refine Iff.trans ?_ (@joinFrom_isSome_iff cols fill cursor rows ([], false) h)
  unfold joinRows
  cases rows.foldlM (joinRow cols fill cursor) ([], false) <;> simp

end

/-! ## Cutting -/

/-- The row that a glyph so wide is put in. -/
def Reflow.fit (st : Reflow) (l : ReflowLine) (width : ℕ) : Reflow :=
  if width = 2 ∧ l.cols < st.col + 2 then st.wrap l else st

/-- The cursor's offset in the line cut anew, once the cell at `source` is put in. -/
def Reflow.mapCursor (M : TextMetrics) (l : ReflowLine) (source : ℕ) (x : Cell) (st : Reflow) : ℕ :=
  match l.cursorSource with
  | some cursor =>
    if source ≤ cursor ∧ cursor < source + sourceWidth M x then
      l.base + st.physical + st.col + min (cursor - source) ((displayGlyph M l.cols x).2 - 1)
    else st.mapped
  | none => st.mapped

/-- A row that is full is done when there is more. -/
def Reflow.finish (l : ReflowLine) (more : Bool) (st : Reflow) : Reflow :=
  if st.col = l.cols ∧ more then st.wrap l else st

section
variable {M : TextMetrics} {l : ReflowLine} {source : ℕ} {more : Bool} {x : Cell}
  {st st' : Reflow}

theorem displayGlyph_width (cols : ℕ) (x : Cell) :
    (displayGlyph M cols x).2 = 1 ∨ (displayGlyph M cols x).2 = 2 ∧ cols ≠ 1 := by
  unfold displayGlyph sourceWidth
  split_ifs with hnarrow
  · exact .inl rfl
  · omega

theorem sourceWidth_pos (x : Cell) : 0 < sourceWidth M x := Nat.le_max_right _ _

theorem sourceWidth_le_two (x : Cell) : sourceWidth M x ≤ 2 := by
  unfold sourceWidth TextMetrics.glyphWidth
  cases x.glyph <;> dsimp only <;> omega

/-- The turn of the loop for a cell: the glyph is put in the row that it fits in. -/
theorem reflowCell_eq (l : ReflowLine) (source : ℕ) (more : Bool) {x : Cell} (st : Reflow) :
    reflowCell M l source more x st =
      (setCell (st.fit l (displayGlyph M l.cols x).2).col ⟨(displayGlyph M l.cols x).1, x.style⟩
        (st.fit l (displayGlyph M l.cols x).2).part).bind fun part =>
      (whenWide (displayGlyph M l.cols x).2
        (setCell ((st.fit l (displayGlyph M l.cols x).2).col + 1) ⟨.continuation, x.style⟩)
          part).bind fun part =>
      some ({ st.fit l (displayGlyph M l.cols x).2 with
        part := part
        col := (st.fit l (displayGlyph M l.cols x).2).col + (displayGlyph M l.cols x).2
        mapped := (st.fit l (displayGlyph M l.cols x).2).mapCursor M l source x
          : Reflow }.finish l more) := rfl

/-- The row filled and those done are of the new width. -/
structure Shape (l : ReflowLine) (st : Reflow) : Prop where
  part : HasLength l.cols st.part
  rows : ∀ r ∈ st.rows, HasLength l.cols r.cells

theorem Shape.wrap (h : Shape l st) : Shape l (st.wrap l) where
  part := by simp [HasLength, Reflow.wrap]
  rows r hr := by
    rcases mem_append.1 hr with hr | hr
    · exact h.rows r hr
    · rw [mem_singleton.1 hr]; exact h.part

theorem Shape.fit (h : Shape l st) (width : ℕ) : Shape l (st.fit l width) := by
  unfold Reflow.fit
  split_ifs
  · exact h.wrap
  · exact h

theorem fit_room (hcol : st.col < l.cols) {width : ℕ}
    (hwidth : width = 1 ∨ width = 2 ∧ l.cols ≠ 1) : (st.fit l width).col + width ≤ l.cols := by
  unfold Reflow.fit
  split_ifs with hwrap
  · show 0 + width ≤ l.cols
    omega
  · omega

theorem Shape.finish (h : Shape l st) (hcol : st.col ≤ l.cols) (hcols : 0 < l.cols) :
    Shape l (st.finish l more) ∧ (more = true → (st.finish l more).col < l.cols) := by
  unfold Reflow.finish
  split_ifs with hfull
  · exact ⟨h.wrap, fun _ => hcols⟩
  · exact ⟨h, fun hmore => lt_of_le_of_ne hcol fun heq => hfull ⟨heq, hmore⟩⟩

theorem reflowCell_safe (h : Shape l st) (hcol : st.col < l.cols) :
    Yields (reflowCell M l source more x st) fun st' =>
      Shape l st' ∧ (more = true → st'.col < l.cols) := by
  have hfit := h.fit (displayGlyph M l.cols x).2
  have hwidth := @displayGlyph_width M l.cols x
  have hroom := fit_room hcol hwidth
  rw [reflowCell_eq]
  refine (setCell_safe hfit.part (by omega)).bind fun part hpart => ?_
  refine (whenWide_safe hpart fun hwide => setCell_safe hpart (by omega)).bind
    fun part' hpart' => yields_some ?_
  exact Shape.finish ⟨hpart', hfit.rows⟩ hroom (Nat.zero_lt_of_lt hcol)

/-- An invariant that each cell keeps, in a row with room for it, holds of the whole line: the
    cells that are passed over are those that have no room. -/
theorem reflowCells_safe {I : Reflow → Prop}
    (hcell : ∀ {source more x st}, x.isContinuation = false → I st → st.col < l.cols →
      Yields (reflowCell M l source more x st) fun st' =>
        I st' ∧ (more = true → st'.col < l.cols)) :
    ∀ {cells : List Cell} {source skip : ℕ} {st : Reflow}, I st →
      (st.col < l.cols ∨ cells.length ≤ skip) →
      Yields (reflowCells M l source skip cells st) I
  | [], _, _, _, h, _ => by exact yields_some h
  | x :: cells, source, skip + 1, st, h, hroom => by
    unfold reflowCells
    exact reflowCells_safe hcell h (hroom.imp_right fun hle => Nat.le_of_succ_le_succ hle)
  | x :: cells, source, 0, st, h, hroom => by
    have hcol : st.col < l.cols := hroom.resolve_right (Nat.not_succ_le_zero _); unfold reflowCells
    split_ifs with hcont
    · exact reflowCells_safe hcell h (.inl hcol)
    refine (hcell (by simpa using hcont) h hcol).bind fun st' hst' => ?_
    refine reflowCells_safe hcell hst'.1 ?_
    by_cases hmore : sourceWidth M x < cells.length + 1
    · exact .inl (hst'.2 (decide_eq_true hmore))
    · exact .inr (by omega)

theorem reflowLine_safe {cols : ℕ} (hcols : 0 < cols) {style : Style} {cursor : CursorPlace}
    {acc : List TerminalRow × ℕ} {line : LogicalLine} (hacc : ∀ r ∈ acc.1, HasLength cols r.cells) :
    Yields (reflowLine M cols style cursor acc line) fun acc' =>
      ∀ r ∈ acc'.1, HasLength cols r.cells := by
  have hsnoc {rows : List TerminalRow} {row : TerminalRow} (hrows : ∀ r ∈ rows, HasLength cols r.cells)
      (hrow : HasLength cols row.cells) : ∀ r ∈ rows ++ [row], HasLength cols r.cells := by
    intro r hr
    rcases mem_append.1 hr with hr | hr
    · exact hrows r hr
    · rw [mem_singleton.1 hr]; exact hrow
  unfold reflowLine
  by_cases hempty : sanitizeRow M style line.cells = []
  · rw [if_pos hempty]; exact yields_some (hsnoc hacc (by simp [HasLength, TerminalRow.new]))
  rw [if_neg hempty]
  refine Yields.bind (reflowCells_safe (I := Shape _) (fun _ h hcol => reflowCell_safe h hcol)
    ⟨by simp [HasLength], hacc⟩ (.inl hcols)) fun st hst => yields_some (hsnoc hst.rows hst.part)

end

end Pmacs
