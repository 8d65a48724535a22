/-
  One row of a terminal's cells and what is done to it (screen.rs).

  * `glyphWidth`, `sanitizeRow`, `clearWideAt`, `clearRange`, `insertCells`, `deleteCells`:
    the row under a write, an erasure or a shift.  An index out of range panics: no result.
  * `Paired`: second columns stand right of wide glyphs and nowhere else.
  * `paired_sanitizeRow`: a row that was put in order is paired, whatever it held.
-/
import Pmacs.Terminal.Cell

namespace Pmacs

open List Option

/-- What a terminal asks of Unicode: the columns a scalar or a string takes, and whether a
    string is a single grapheme cluster. -/
structure TextMetrics where
  charWidth : Char → ℕ
  strWidth : List Char → ℕ
  oneGrapheme : List Char → Bool

/-- A space and the character that stands for another are one column wide. -/
structure TextMetrics.Plain (M : TextMetrics) : Prop where
  space : M.charWidth ' ' = 1
  replacement : M.charWidth '\uFFFD' = 1

/-! ## Cells -/

def blank (style : Style) : Cell := ⟨.char ' ', style⟩

def isBlank (x : Cell) : Bool := x.glyph == .char ' ' && x.style == .default

def lastNonblank (cells : List Cell) : ℕ := (cells.rdropWhile isBlank).length

/-- `glyph_bytes`, as characters. -/
def Glyph.text : Glyph → List Char
  | .char c => [c]
  | .cluster cs => cs
  | .continuation => []

def Cell.isContinuation (x : Cell) : Bool := x.glyph == .continuation

def TextMetrics.glyphWidth (M : TextMetrics) : Glyph → ℕ
  | .char c => min (M.charWidth c) 2
  | .cluster cs => min (M.strWidth cs) 2
  | .continuation => 0

def TextMetrics.isWide (M : TextMetrics) (x : Cell) : Bool := M.glyphWidth x.glyph == 2

/-! ## Rows -/

/-- `cells[col] = x`. -/
def setCell (col : ℕ) (x : Cell) (cells : List Cell) : Option (List Cell) :=
  if col < cells.length then some (cells.set col x) else none

/-- `cells[start..stop].fill(x)`. -/
def fillCells (start stop : ℕ) (x : Cell) (cells : List Cell) : Option (List Cell) :=
  if start ≤ stop ∧ stop ≤ cells.length then
    some (cells.take start ++ List.replicate (stop - start) x ++ cells.drop stop)
  else none

def whenWide (width : ℕ) (f : List Cell → Option (List Cell)) (cells : List Cell) :
    Option (List Cell) :=
  if width = 2 then f cells else some cells

/-- The first pass of `sanitize_row`: `left` is the cell before, as the pass left it. -/
def dropOrphans (M : TextMetrics) (style : Style) : (left : Option Cell) → List Cell → List Cell
  | _, [] => []
  | left, x :: cells =>
    let x := if x.isContinuation && !left.any M.isWide then blank style else x
    x :: dropOrphans M style (some x) cells

def dropHalves (M : TextMetrics) (style : Style) : List Cell → List Cell
  | [] => []
  | x :: cells =>
    (if M.isWide x && !cells.head?.any Cell.isContinuation then blank style else x)
      :: dropHalves M style cells

def sanitizeRow (M : TextMetrics) (style : Style) (cells : List Cell) : List Cell :=
  dropHalves M style (dropOrphans M style none cells)

def wideLead (cells : List Cell) (col : ℕ) : Option ℕ := do
  let x ← cells[col]?
  return if x.isContinuation ∧ 0 < col then col - 1 else col

/-- `clear_wide_at`, in a grid `cols` columns wide. -/
def clearWideAt (style : Style) (cols col : ℕ) (cells : List Cell) : Option (List Cell) :=
  if cols ≤ col then some cells
  else do
    let lead ← wideLead cells col
    let wide := cells[lead + 1]?.any Cell.isContinuation
    let cells ← setCell lead (blank style) cells
    if wide then setCell (lead + 1) (blank style) cells else return cells

def clearRange (style : Style) (cols start stop : ℕ) (cells : List Cell) : Option (List Cell) :=
  if stop ≤ start then some cells
  else do
    let cells ← clearWideAt style cols start cells
    let cells ← clearWideAt style cols (stop - 1) cells
    fillCells start stop (blank style) cells

/-- The row under `insert_characters`. -/
def insertCells (M : TextMetrics) (style : Style) (col n : ℕ) (cells : List Cell) :
    Option (List Cell) := do
  let cells := sanitizeRow M style cells
  if col + n ≤ cells.length then
    let cells ← fillCells col (col + n) (blank style)
      (cells.take col ++ (cells.drop col).rotate (cells.length - col - n))
    return sanitizeRow M style cells
  else none

/-- The row under `delete_characters`, in a grid `cols` columns wide. -/
def deleteCells (M : TextMetrics) (style : Style) (cols col n : ℕ) (cells : List Cell) :
    Option (List Cell) := do
  let cells := sanitizeRow M style cells
  if col + n ≤ cells.length then
    let cells ← fillCells (cols - n) cells.length (blank style)
      (cells.take col ++ (cells.drop col).rotate n)
    return sanitizeRow M style cells
  else none

/-- The writes of `write_character` into its row. -/
def putCells (style : Style) (cols col width : ℕ) (ch : Char) (cells : List Cell) :
    Option (List Cell) := do
  let cells ← clearWideAt style cols col cells
  let cells ← whenWide width (clearWideAt style cols (col + 1)) cells
  let cells ← setCell col ⟨.char ch, style⟩ cells
  whenWide width (setCell (col + 1) ⟨.continuation, style⟩) cells

/-- `glyph_changed`: the cells do not read `ch` at `col` already. -/
def glyphChanged (cells : List Cell) (col width : ℕ) (x : Cell) (ch : Char) : Bool :=
  x.glyph != .char ch || (width == 2 && !cells[col + 1]?.any Cell.isContinuation)

/-- The last part of `replace_previous_grapheme`, in its row: the cluster and its second
    column, or a blank where the second column of the old glyph was. -/
def replaceCells (style fill : Style) (cols lead oldWidth width : ℕ) (cluster : List Char)
    (cells : List Cell) : Option (List Cell) := do
  let cells ← setCell lead ⟨.cluster cluster, style⟩ cells
  if width = 2 then setCell (lead + 1) ⟨.continuation, style⟩ cells
  else if oldWidth = 2 ∧ lead + 1 < cols then setCell (lead + 1) (blank fill) cells
  else some cells

/-- A row of `resize_grid_clip`. -/
def clipCells (M : TextMetrics) (style : Style) (cols : ℕ) (cells : List Cell) : List Cell :=
  sanitizeRow M style (cells.take cols ++ List.replicate (cols - cells.length) (blank style))

/-! ## Lengths -/

section
variable {M : TextMetrics} {style : Style} {cols col start stop n : ℕ} {x : Cell}
  {cells cells' : List Cell}

theorem setCell_eq (h : col < cells.length) : setCell col x cells = some (cells.set col x) :=
  if_pos h

theorem setCell_some (h : setCell col x cells = some cells') :
    col < cells.length ∧ cells' = cells.set col x := by
  unfold setCell at h
  split_ifs at h with hcol
  exact ⟨hcol, (some.inj h).symm⟩

theorem fillCells_some (h : fillCells start stop x cells = some cells') :
    start ≤ stop ∧ stop ≤ cells.length ∧
      cells' = cells.take start ++ List.replicate (stop - start) x ++ cells.drop stop := by
  unfold fillCells at h
  split_ifs at h with hin
  exact ⟨hin.1, hin.2, (some.inj h).symm⟩

theorem length_fillCells (h : fillCells start stop x cells = some cells') :
    cells'.length = cells.length := by
  obtain ⟨hle, hstop, rfl⟩ := fillCells_some h
  simp only [length_append, length_take, length_replicate, length_drop]
  omega

@[simp] theorem length_dropOrphans (left : Option Cell) :
    (dropOrphans M style left cells).length = cells.length := by
  induction cells generalizing left with
  | nil => rfl
  | cons x cells ih => simp [dropOrphans, ih]

@[simp] theorem length_dropHalves : (dropHalves M style cells).length = cells.length := by
  induction cells with
  | nil => rfl
  | cons x cells ih => simp [dropHalves, ih]

@[simp] theorem length_sanitizeRow : (sanitizeRow M style cells).length = cells.length := by
  simp [sanitizeRow]

section
variable (h : clearWideAt style cols col cells = some cells')
include h

/-- What `clear_wide_at` does to a row it reaches. -/
theorem clearWideAt_some (hcol : col < cols) : ∃ lead, col < cells.length ∧ lead < cells.length ∧
      (lead = col ∨ lead + 1 = col ∧ cells[col]?.any Cell.isContinuation = true) ∧
      (lead = col → cells[col]?.any Cell.isContinuation = true → col = 0) ∧
      cells' = if cells[lead + 1]?.any Cell.isContinuation then
          (cells.set lead (blank style)).set (lead + 1) (blank style)
        else cells.set lead (blank style) := by
  unfold clearWideAt at h
  rw [if_neg (by omega)] at h
  simp only [wideLead, bind, pure, bind_eq_some_iff, some.injEq] at h
  obtain ⟨lead, ⟨y, hy, hlead⟩, blanked, hset, h⟩ := h
  obtain ⟨hlt, rfl⟩ := setCell_some hset
  have hcell : cells[col]?.any Cell.isContinuation = y.isContinuation := by rw [hy]; rfl
  refine ⟨lead, (List.getElem?_eq_some_iff.1 hy).1, hlt, ?_, ?_, ?_⟩
  · rw [hcell]
    split_ifs at hlead with hcont
    · exact .inr ⟨by omega, hcont.1⟩
    · exact .inl hlead.symm
  · rintro rfl hcont; rw [hcell] at hcont
    split_ifs at hlead with hboth
    · omega
    by_contra hzero
    exact hboth ⟨hcont, by omega⟩
  split_ifs at h ⊢ with hwide
  · exact (setCell_some h).2
  · exact (some.inj h).symm

theorem length_clearWideAt : cells'.length = cells.length := by
  by_cases hcol : col < cols
  · obtain ⟨lead, -, -, -, -, rfl⟩ := clearWideAt_some h hcol
    split <;> simp
  · rw [clearWideAt, if_pos (by omega), some.injEq] at h; rw [h]

end

theorem insertCells_some (h : insertCells M style col n cells = some cells') :
    ∃ shifted, cells' = sanitizeRow M style shifted ∧ shifted.length = cells.length := by
  simp only [insertCells, bind, pure] at h
  split_ifs at h with hle
  obtain ⟨filled, hfill, heq⟩ := bind_eq_some_iff.1 h
  refine ⟨filled, (some.inj heq).symm, ?_⟩
  rw [length_fillCells hfill, length_append, length_take, length_rotate,
    length_drop, length_sanitizeRow]
  omega

theorem deleteCells_some (h : deleteCells M style cols col n cells = some cells') :
    ∃ shifted, cells' = sanitizeRow M style shifted ∧ shifted.length = cells.length := by
  simp only [deleteCells, bind, pure] at h
  split_ifs at h with hle
  obtain ⟨filled, hfill, heq⟩ := bind_eq_some_iff.1 h
  refine ⟨filled, (some.inj heq).symm, ?_⟩
  rw [length_fillCells hfill, length_append, length_take, length_rotate,
    length_drop, length_sanitizeRow]
  omega

@[simp] theorem length_clipCells : (clipCells M style cols cells).length = cols := by
  simp only [clipCells, length_sanitizeRow, length_append, length_take, length_replicate]
  omega

end

/-! ## Wide pairs -/

/-- A second column stands at `i`. -/
def continuationAt (cells : List Cell) (i : ℕ) : Bool := cells[i]?.any Cell.isContinuation

/-- A wide glyph stands at `i`. -/
def wideAt (M : TextMetrics) (cells : List Cell) (i : ℕ) : Bool := cells[i]?.any M.isWide

/-- Right of a wide glyph there is its second column, and second columns are nowhere else. -/
structure Paired (M : TextMetrics) (cells : List Cell) : Prop where
  first : continuationAt cells 0 = false
  next : ∀ i, continuationAt cells (i + 1) = wideAt M cells i

instance (M : TextMetrics) (cells : List Cell) : Decidable (Paired M cells) :=
  decidable_of_iff (continuationAt cells 0 = false ∧
      ∀ i < cells.length, continuationAt cells (i + 1) = wideAt M cells i)
    ⟨fun h => ⟨h.1, fun i => (lt_or_ge i cells.length).elim (h.2 i) fun hi => by
      rw [continuationAt, wideAt, List.getElem?_eq_none (by omega), List.getElem?_eq_none hi]; rfl⟩,
    fun h => ⟨h.first, fun i _ => h.next i⟩⟩

section
variable {M : TextMetrics} {style : Style} {cols col start stop n i : ℕ} {x y : Cell}
  {cells cells' : List Cell}

theorem TextMetrics.Plain.isWide_blank (hM : M.Plain) : M.isWide (blank style) = false := by
  simp [isWide, glyphWidth, blank, hM.space]

@[simp] theorem isContinuation_blank : (blank style).isContinuation = false := rfl

theorem TextMetrics.isWide_of_continuation (h : x.isContinuation = true) : M.isWide x = false := by
  have hglyph : x.glyph = .continuation := by simpa [Cell.isContinuation] using h
  simp [isWide, hglyph, glyphWidth]

theorem wideAt_of_continuationAt (h : continuationAt cells i = true) :
    wideAt M cells i = false := by
  unfold continuationAt at h
  unfold wideAt
  cases hx : cells[i]? with
  | none => rfl
  | some x => rw [hx] at h; exact M.isWide_of_continuation h

theorem continuationAt_of_le (h : cells.length ≤ i) : continuationAt cells i = false := by
  simp [continuationAt, getElem?_eq_none h]

theorem continuationAt_set (hcol : col < cells.length) : continuationAt (cells.set col x) i =
      if col = i then x.isContinuation else continuationAt cells i := by
  unfold continuationAt
  rw [getElem?_set]
  split_ifs <;> simp

theorem wideAt_set (hcol : col < cells.length) :
    wideAt M (cells.set col x) i = if col = i then M.isWide x else wideAt M cells i := by
  unfold wideAt
  rw [getElem?_set]
  split_ifs <;> simp

theorem Paired.succ_lt (h : Paired M cells) (hwide : wideAt M cells i = true) :
    i + 1 < cells.length := by
  by_contra hle
  rw [← h.next i, continuationAt_of_le (by omega)] at hwide
  cases hwide

theorem paired_replicate (hM : M.Plain) : Paired M (List.replicate n (blank style)) := by
  have hcont (i : ℕ) : continuationAt (List.replicate n (blank style)) i = false := by
    unfold continuationAt; rw [getElem?_replicate]
    split_ifs <;> rfl
  refine ⟨hcont 0, fun i => ?_⟩
  rw [hcont, wideAt, getElem?_replicate]
  split_ifs with hi
  · exact hM.isWide_blank.symm
  · rfl

/-- A narrow glyph is written where neither half of a wide one stands. -/
theorem Paired.set (h : Paired M cells) (hcol : col < cells.length)
    (hcont : continuationAt cells col = false) (hwide : wideAt M cells col = false)
    (hx : x.isContinuation = false) (hnarrow : M.isWide x = false) :
    Paired M (cells.set col x) := by
  refine ⟨?_, fun i => ?_⟩
  · rw [continuationAt_set hcol]
    split_ifs
    · exact hx
    · exact h.first
  rw [continuationAt_set hcol, wideAt_set hcol]; have hnext := h.next i
  split_ifs with hr hl hl
  · omega
  · rw [hx, ← hnext, ← hr, hcont]
  · rw [hnarrow, hnext, ← hl, hwide]
  · exact hnext

/-- Two cells that go together are written over cells of which neither's pair goes on outside. -/
theorem Paired.set_pair (h : Paired M cells) (hcol : col + 1 < cells.length)
    (hcont : continuationAt cells col = false) (hwide : wideAt M cells (col + 1) = false)
    (hx : x.isContinuation = false) (hxy : M.isWide x = y.isContinuation)
    (hy : M.isWide y = false) : Paired M ((cells.set col x).set (col + 1) y) := by
  have hlen : col + 1 < (cells.set col x).length := by simpa using hcol
  refine ⟨?_, fun i => ?_⟩
  · rw [continuationAt_set hlen, if_neg (by omega), continuationAt_set (by omega)]
    split_ifs
    · exact hx
    · exact h.first
  have hnext := h.next i
  rw [continuationAt_set hlen, wideAt_set hlen, continuationAt_set (by omega),
    wideAt_set (by omega)]
  by_cases hi : col = i
  · subst hi; rw [if_pos rfl, if_neg (by omega), if_pos rfl, hxy]
  rw [if_neg (fun he => hi (by omega)), if_neg hi]
  by_cases hi' : col = i + 1
  · rw [if_pos hi', if_neg (by omega), hx, ← hnext, ← hi', hcont]
  rw [if_neg hi']
  by_cases hi'' : col + 1 = i
  · rw [if_pos hi'', hy, hnext, ← hi'', hwide]
  · rw [if_neg hi'', hnext]

/-- A wide glyph is written in the place of a first column or a narrow glyph: the pairs
    stay whole exactly when no other wide glyph begins in its second column. -/
theorem Paired.set_wide_iff (h : Paired M cells) (hcol : col + 1 < cells.length)
    (hcont : continuationAt cells col = false) (hx : M.isWide x = true)
    (hy : y.isContinuation = true) :
    Paired M ((cells.set col x).set (col + 1) y) ↔ wideAt M cells (col + 1) = false := by
  have hlen : col + 1 < (cells.set col x).length := by simpa using hcol
  have hxc : x.isContinuation = false := by
    by_contra hne
    rw [M.isWide_of_continuation (by simpa using hne)] at hx; cases hx
  constructor
  · intro h'; have hnext := h'.next (col + 1)
    rwa [continuationAt_set hlen, if_neg (by omega), continuationAt_set (by omega),
      if_neg (by omega), h.next, wideAt_set hlen, if_pos rfl, M.isWide_of_continuation hy] at hnext
  intro hwide
  exact h.set_pair hcol hcont hwide hxc (hx.trans hy.symm) (M.isWide_of_continuation hy)

theorem Paired.set_narrow_pair (h : Paired M cells) (hwide : wideAt M cells col = true)
    (hx : x.isContinuation = false) (hnarrow : M.isWide x = false) (hy : y.isContinuation = false)
    (hnarrow' : M.isWide y = false) : Paired M ((cells.set col x).set (col + 1) y) := by
  have hsecond : continuationAt cells (col + 1) = true := by rw [h.next, hwide]
  have hcont : continuationAt cells col = false := by
    by_contra hne
    rw [wideAt_of_continuationAt (by simpa using hne)] at hwide; cases hwide
  exact h.set_pair (h.succ_lt hwide) hcont (wideAt_of_continuationAt hsecond) hx
    (hnarrow.trans hy.symm) hnarrow'

/-! ### Erasure -/

/-- Where no second column stands, the glyph there is cleared with the second column behind
    it. -/
theorem clearWideAt_some_of_lead (hcont : continuationAt cells col = false) (hcol : col < cols)
    (h : clearWideAt style cols col cells = some cells') : col < cells.length ∧ cells' =
      if continuationAt cells (col + 1) then
        (cells.set col (blank style)).set (col + 1) (blank style)
      else cells.set col (blank style) := by
  obtain ⟨lead, hin, -, hwhere, -, rfl⟩ := clearWideAt_some h hcol
  rcases hwhere with rfl | ⟨-, hc⟩
  · exact ⟨hin, rfl⟩
  · rw [continuationAt, hc] at hcont; cases hcont

/-- What clearing the glyph at a column leaves: the pairs whole, nothing of a wide glyph in
    that column, and no second column that was not there. -/
structure Cleared (M : TextMetrics) (cells : List Cell) (col : ℕ) (cells' : List Cell) : Prop where
  paired : Paired M cells'
  notContinuation : continuationAt cells' col = false
  notWide : wideAt M cells' col = false
  fewer : ∀ i, continuationAt cells' i = true → continuationAt cells i = true
  narrower : ∀ i, wideAt M cells' i = true → wideAt M cells i = true

theorem Paired.clearWideAt (hM : M.Plain) (h : Paired M cells) (hcol : col < cols)
    (hclear : clearWideAt style cols col cells = some cells') : Cleared M cells col cells' := by
  obtain ⟨lead, hin, hlead, hwhere, hzero, rfl⟩ := clearWideAt_some hclear hcol
  have hsecond : cells[lead + 1]?.any Cell.isContinuation = wideAt M cells lead := h.next lead
  have hfirst : cells[col]?.any Cell.isContinuation = continuationAt cells col := rfl
  rw [hfirst] at hwhere hzero
  rw [hsecond]
  have hblank : M.isWide (blank style) = false := hM.isWide_blank
  have hcont : continuationAt cells lead = false := by
    by_contra hne
    rw [Bool.not_eq_false] at hne
    rcases hwhere with rfl | ⟨rfl, hc⟩
    · rw [hzero rfl hne, h.first] at hne; cases hne
    · rw [h.next, wideAt_of_continuationAt hne] at hc; cases hc
  by_cases hwide : wideAt M cells lead = true
  · have hlt := h.succ_lt hwide
    have hlen : lead + 1 < (cells.set lead (blank style)).length := by simpa using hlt
    rw [if_pos hwide]
    refine { paired := h.set_narrow_pair hwide rfl hblank rfl hblank, notContinuation := ?_,
             notWide := ?_, fewer := fun i => ?_, narrower := fun i => ?_ }
    · rw [continuationAt_set hlen, continuationAt_set hlead]
      rcases hwhere with rfl | ⟨rfl, -⟩ <;> simp
    · rw [wideAt_set hlen, wideAt_set hlead]
      rcases hwhere with rfl | ⟨rfl, -⟩ <;> simp [hblank]
    · rw [continuationAt_set hlen, continuationAt_set hlead]
      split_ifs <;> simp
    rw [wideAt_set hlen, wideAt_set hlead]
    split_ifs <;> simp [hblank]
  rw [Bool.not_eq_true] at hwide
  obtain rfl : lead = col := by
    rcases hwhere with rfl | ⟨rfl, hc⟩
    · rfl
    · rw [h.next, hwide] at hc; cases hc
  rw [if_neg (by simp [hwide])]
  refine { paired := h.set hlead hcont hwide rfl hblank, notContinuation := ?_,
           notWide := ?_, fewer := fun i => ?_, narrower := fun i => ?_ }
  · simp [continuationAt_set hlead]
  · simp [wideAt_set hlead, hblank]
  · rw [continuationAt_set hlead]
    split_ifs <;> simp
  rw [wideAt_set hlead]
  split_ifs <;> simp [hblank]

theorem Paired.fillCells (hM : M.Plain) (h : Paired M cells) (hlt : start < stop)
    (hcont : continuationAt cells start = false) (hwide : wideAt M cells (stop - 1) = false)
    (hfill : fillCells start stop (blank style) cells = some cells') : Paired M cells' := by
  obtain ⟨hle, hstop, rfl⟩ := fillCells_some hfill
  have hget (i : ℕ) : (cells.take start ++ List.replicate (stop - start) (blank style) ++
      cells.drop stop)[i]? = if start ≤ i ∧ i < stop then some (blank style) else cells[i]? := by
    rw [append_assoc, getElem?_append, getElem?_append, getElem?_replicate,
      getElem?_drop, length_take, length_replicate, getElem?_take]
    split_ifs <;> first | rfl | omega | (congr 1; omega)
  refine ⟨?_, fun i => ?_⟩
  · rw [continuationAt, hget]
    split_ifs
    · rfl
    · exact h.first
  have hnext := h.next i; unfold continuationAt wideAt at hnext ⊢; rw [hget, hget]
  split_ifs with hr hl hl
  · exact hM.isWide_blank.symm
  · obtain rfl : start = i + 1 := by omega
    exact hcont.symm.trans hnext
  · obtain rfl : i = stop - 1 := by omega
    rw [hnext]; exact hwide.trans hM.isWide_blank.symm
  · exact hnext

theorem Paired.clearRange (hM : M.Plain) (h : Paired M cells) (hstop : stop ≤ cols)
    (hclear : clearRange style cols start stop cells = some cells') : Paired M cells' := by
  unfold Pmacs.clearRange at hclear
  split_ifs at hclear with hle
  · exact some.inj hclear ▸ h
  simp only [bind, bind_eq_some_iff] at hclear
  obtain ⟨a, ha, b, hb, hfill⟩ := hclear
  have hfirst := h.clearWideAt hM (by omega) ha
  have hlast := hfirst.paired.clearWideAt hM (by omega) hb
  refine hlast.paired.fillCells hM (by omega) ?_ hlast.notWide hfill
  by_contra hne
  have := hlast.fewer start (by simpa using hne)
  rw [hfirst.notContinuation] at this
  cases this

/-! ### Putting a row in order -/

/-- After the first pass a second column stands right of a wide glyph. -/
theorem continuationAt_dropOrphans (left : Option Cell) :
    (continuationAt (dropOrphans M style left cells) 0 = true → left.any M.isWide = true) ∧
      ∀ i, continuationAt (dropOrphans M style left cells) (i + 1) = true →
        wideAt M (dropOrphans M style left cells) i = true := by
  induction cells generalizing left with
  | nil => exact ⟨nofun, nofun⟩
  | cons x cells ih =>
    obtain ⟨hfirst, hnext⟩ := ih
      (some (if x.isContinuation && !left.any M.isWide then blank style else x))
    refine ⟨fun h => ?_, fun i => ?_⟩
    · by_contra hleft
      simp only [dropOrphans, continuationAt, getElem?_cons_zero, any_some] at h
      split_ifs at h with hx
      · cases h
      · exact hx (by simp [h, hleft])
    cases i with
    | zero => exact hfirst
    | succ i => exact hnext i

/-- The second pass takes the wide glyphs without a second column. -/
theorem dropHalves_at (hM : M.Plain) (i : ℕ) :
    continuationAt (dropHalves M style cells) i = continuationAt cells i ∧
      wideAt M (dropHalves M style cells) i =
        (wideAt M cells i && continuationAt cells (i + 1)) := by
  induction cells generalizing i with
  | nil => exact ⟨rfl, rfl⟩
  | cons x cells ih =>
    cases i with
    | succ i => exact ih i
    | zero =>
      have hhead : continuationAt (x :: cells) 1 = cells.head?.any Cell.isContinuation := by
        cases cells <;> rfl
      rw [hhead]; simp only [dropHalves, continuationAt, wideAt, getElem?_cons_zero, any_some]
      split_ifs with hx
      · rw [Bool.and_eq_true, Bool.not_eq_true'] at hx
        refine ⟨?_, by rw [hM.isWide_blank, hx.2, Bool.and_false]⟩
        by_contra hne
        rw [isContinuation_blank, eq_comm, Bool.not_eq_false] at hne
        rw [M.isWide_of_continuation hne] at hx; exact absurd hx.1 (by decide)
      refine ⟨rfl, ?_⟩
      cases hw : M.isWide x with
      | false => rfl
      | true => rw [hw] at hx; simpa using hx

/-- **A row that was put in order is paired.** -/
theorem paired_sanitizeRow (hM : M.Plain) : Paired M (sanitizeRow M style cells) := by
  obtain ⟨hfirst, hnext⟩ := @continuationAt_dropOrphans M style cells none
  refine ⟨?_, fun i => ?_⟩
  · rw [sanitizeRow, (dropHalves_at hM 0).1]
    by_contra hne
    exact absurd (hfirst (by simpa using hne)) (by simp)
  rw [sanitizeRow, (dropHalves_at hM (i + 1)).1, (dropHalves_at hM i).2]
  cases hcont : continuationAt (dropOrphans M style none cells) (i + 1) with
  | false => rw [Bool.and_false]
  | true => rw [hnext i hcont]; rfl

end

/-! ### Writing over -/

section
variable {cells cells' : List Cell} {col cols width i : ℕ} {x : Cell} {style : Style} {ch : Char}

/-- The glyphs of a row over which a glyph is written that it reads already: a second column
    right behind is blanked, in a grid that wide. -/
theorem glyphs_putCells (hx : cells[col]? = some x)
    (hsame : glyphChanged cells col width x ch = false) (hwidth : width = 1 ∨ width = 2)
    (hroom : width = 2 → col + 1 < cols)
    (h : putCells style cols col width ch cells = some cells') : cells'.map (·.glyph) =
      if col + width ≤ cols ∧ continuationAt cells (col + width) = true then
        (cells.map (·.glyph)).set (col + width) (.char ' ') else cells.map (·.glyph) := by
  simp only [glyphChanged, Bool.or_eq_false_iff, bne_eq_false_iff_eq] at hsame
  obtain ⟨hglyph, hsecond⟩ := hsame
  have hread : continuationAt cells col = false := by
    simp [continuationAt, hx, Cell.isContinuation, hglyph]
  simp only [putCells, bind, bind_eq_some_iff] at h
  obtain ⟨a, ha, b, hb, c, hc, h⟩ := h
  obtain ⟨hcol, rfl⟩ := setCell_some hc
  have hget : (cells.map (·.glyph))[col]? = some (.char ch) := by simp [hx, hglyph]
  rcases hwidth with rfl | rfl
  · obtain rfl : a = b := some.inj hb; obtain rfl : _ = cells' := some.inj h
    by_cases hlt : col < cols
    · obtain ⟨hin, rfl⟩ := clearWideAt_some_of_lead hread hlt ha; have hroom : col + 1 ≤ cols := hlt
      split_ifs with hcont
      all_goals
        apply ext_getElem?; intro i
        grind [blank]
    -- outside the grid nothing is cleared
    rw [clearWideAt, if_pos (by omega), some.injEq] at ha
    apply ext_getElem?; intro i
    grind
  have hcols := hroom rfl
  have hcont : continuationAt cells (col + 1) = true := by
    simpa [continuationAt] using hsecond
  obtain ⟨hin, rfl⟩ := clearWideAt_some_of_lead hread (by omega) ha; rw [if_pos hcont] at hb
  have hin' : col + 1 < cells.length := by
    by_contra hle
    rw [continuationAt_of_le (by omega)] at hcont; cases hcont
  have hlen : col + 1 < (cells.set col (blank style)).length := by simpa using hin'
  have hfirst : continuationAt ((cells.set col (blank style)).set (col + 1) (blank style))
      (col + 1) = false := by
    rw [continuationAt_set hlen, if_pos rfl]; rfl
  have hnext : continuationAt ((cells.set col (blank style)).set (col + 1) (blank style))
      (col + 1 + 1) = continuationAt cells (col + 2) := by
    rw [continuationAt_set hlen, if_neg (by omega), continuationAt_set (by omega),
      if_neg (by omega)]
  obtain ⟨-, rfl⟩ := clearWideAt_some_of_lead hfirst hcols hb; obtain ⟨-, rfl⟩ := setCell_some h
  have hroom' : col + 2 ≤ cols := hcols
  have hget' : (cells.map (·.glyph))[col + 1]? = some .continuation := by
    cases hy : cells[col + 1]? with
    | none => simp [continuationAt, hy] at hcont
    | some y => rw [continuationAt, hy] at hcont; simpa [hy, Cell.isContinuation] using hcont
  split_ifs with hstray
  all_goals
    apply ext_getElem?; intro i
    grind [blank]

end

end Pmacs
