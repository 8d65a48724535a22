/-
  Cutting a logical line into rows of another width (screen.rs).

  * `paired_joined`, `rowCells_eq_joined`: a line joined of paired rows is paired, and its cells
    are theirs but for blanks at the end.
  * `CutOf`: the rows of a line: its cells one after another, filled up with blanks.
  * `reflowLine_cut`: what a resize makes of a paired line, when no wide glyph would begin in
    the last column of a row.
-/
import Pmacs.Terminal.LogicalLines

namespace Pmacs

open Lib List Option

/-! ## Paired rows -/

section
variable {M : TextMetrics} {style : Style} {cells cells' : List Cell} {n i : ℕ}

theorem continuationAt_append : continuationAt (cells ++ cells') i = if i <
    cells.length then continuationAt cells i else continuationAt cells' (i - cells.length) := by
  unfold continuationAt
  rw [getElem?_append]
  split_ifs <;> rfl

theorem wideAt_append : wideAt M (cells ++ cells') i =
    if i < cells.length then wideAt M cells i else wideAt M cells' (i - cells.length) := by
  unfold wideAt
  rw [getElem?_append]
  split_ifs <;> rfl

theorem Paired.append (h : Paired M cells) (h' : Paired M cells') : Paired M (cells ++ cells') := by
  refine ⟨?_, fun i => ?_⟩
  · rw [continuationAt_append]
    split_ifs with hlen
    · exact h.first
    · rw [Nat.zero_sub]; exact h'.first
  rw [continuationAt_append, wideAt_append]
  split_ifs with hnext hthis hthis
  · exact h.next i
  · omega
  · have hlast : wideAt M cells i = false := by
      by_contra hne
      exact hnext (h.succ_lt (by simpa using hne))
    rw [hlast, show i + 1 - cells.length = 0 by omega]; exact h'.first
  · rw [show i + 1 - cells.length = i - cells.length + 1 by omega]; exact h'.next _

theorem continuationAt_take : continuationAt (cells.take n) i =
    (decide (i < n) && continuationAt cells i) := by
  unfold continuationAt
  rw [getElem?_take]
  split_ifs with h <;> simp [h]

theorem wideAt_take : wideAt M (cells.take n) i = (decide (i < n) && wideAt M cells i) := by
  unfold wideAt
  rw [getElem?_take]
  split_ifs with h <;> simp [h]

theorem Paired.take (h : Paired M cells) (hn : continuationAt cells n = false) :
    Paired M (cells.take n) := by
  refine ⟨by rw [continuationAt_take, h.first, Bool.and_false], fun i => ?_⟩
  rw [continuationAt_take, wideAt_take, h.next]
  by_cases hi : i + 1 < n
  · rw [decide_eq_true hi, decide_eq_true (by omega : i < n)]
  rw [decide_eq_false hi, Bool.false_and]
  by_cases hi' : i < n
  · obtain rfl : n = i + 1 := by omega
    rw [h.next] at hn; rw [hn, Bool.and_false]
  · rw [decide_eq_false hi', Bool.false_and]

theorem paired_nil : Paired M [] := ⟨rfl, fun _ => rfl⟩

theorem Paired.flatten : ∀ {rows : List (List Cell)}, (∀ row ∈ rows, Paired M row) →
    Paired M rows.flatten
  | [], _ => paired_nil
  | row :: rows, h => by
    exact (h row mem_cons_self).append
      (Paired.flatten fun row' hrow' => h row' (mem_cons_of_mem _ hrow'))

/-! ### A row that is in order -/

theorem dropOrphans_of_paired : ∀ {cells : List Cell} {left : Option Cell},
    (continuationAt cells 0 = true → left.any M.isWide = true) →
    (∀ i, continuationAt cells (i + 1) = true → wideAt M cells i = true) →
    dropOrphans M style left cells = cells
  | [], _, _, _ => rfl
  | x :: cells, left, hfirst, hnext => by
    have hx : (x.isContinuation && !left.any M.isWide) = false := by
      cases hcont : x.isContinuation with
      | false => rfl
      | true => rw [hfirst (by simpa [continuationAt] using hcont)]; rfl
    rw [dropOrphans, hx, if_neg Bool.false_ne_true,
      dropOrphans_of_paired (fun h => ?_) fun i h => hnext (i + 1) h]
    simpa [wideAt] using hnext 0 h

theorem dropHalves_of_paired : ∀ {cells : List Cell},
    (∀ i, wideAt M cells i = true → continuationAt cells (i + 1) = true) →
    dropHalves M style cells = cells
  | [], _ => rfl
  | x :: cells, hnext => by
    have hx : (M.isWide x && !cells.head?.any Cell.isContinuation) = false := by
      cases hwide : M.isWide x with
      | false => rfl
      | true =>
        have hcont : continuationAt cells 0 = true := hnext 0 (by simpa [wideAt] using hwide)
        rw [continuationAt, ← head?_eq_getElem?] at hcont; rw [hcont]; rfl
    rw [dropHalves, hx, if_neg Bool.false_ne_true, dropHalves_of_paired fun i h => hnext (i + 1) h]

theorem sanitizeRow_of_paired (h : Paired M cells) : sanitizeRow M style cells = cells := by
  rw [sanitizeRow, dropOrphans_of_paired (fun hc => ?_) fun i hc => (h.next i) ▸ hc,
    dropHalves_of_paired fun i hw => (h.next i).trans hw]
  rw [h.first] at hc
  cases hc

end

/-! ## Joined lines -/

section
variable {M : TextMetrics} {cols : ℕ} {cursor : CursorPlace} {row : TerminalRow}
  {chain : List TerminalRow} {cells : List Cell} {n : ℕ}

theorem blank_of_mem_drop (hn : lastNonblank cells ≤ n) :
    ∀ x ∈ cells.drop n, x.glyph = .char ' ' := by
  intro x hx
  have hblank : isBlank x = true := by
    have hparts : cells.rdropWhile isBlank ++ cells.rtakeWhile isBlank = cells :=
      rdropWhile_append_rtakeWhile
    have hdrop : cells.drop (lastNonblank cells) = cells.rtakeWhile isBlank :=
      (congrArg (List.drop (lastNonblank cells)) hparts.symm).trans drop_left
    refine mem_rtakeWhile_imp (l := cells) ?_; rw [← hdrop]; exact drop_subset_drop_left _ hn hx
  unfold isBlank at hblank
  rw [Bool.and_eq_true, beq_iff_eq] at hblank
  exact hblank.1

theorem lastNonblank_le_used (h : HasLength cols row.cells) :
    lastNonblank row.cells ≤ usedCells cols cursor row := by
  have hle := lastNonblank_le row.cells
  unfold usedCells
  dsimp only
  split_ifs
  · exact hle.trans_eq h
  · exact le_max_left _ _
  · exact le_max_left _ _

theorem paired_usedPart (hlen : HasLength cols row.cells) (h : Paired M row.cells) :
    Paired M (usedPart cols cursor row) := by
  refine h.take ?_
  by_contra hne
  rw [Bool.not_eq_false, continuationAt, Option.any_eq_true] at hne
  obtain ⟨x, hx, hcont⟩ := hne
  have hmem : x ∈ row.cells.drop (usedCells cols cursor row) := by
    refine mem_of_getElem? (i := 0) ?_; rw [getElem?_drop, add_zero, hx]
  rw [Cell.isContinuation, blank_of_mem_drop (lastNonblank_le_used hlen) x hmem] at hcont
  cases hcont

variable (hlen : ∀ r ∈ chain, HasLength cols r.cells)
include hlen

theorem paired_joined
    (h : ∀ r ∈ chain, Paired M r.cells) : Paired M (joinedLine cols cursor chain).cells := by
  refine Paired.flatten fun cells hcells => ?_
  obtain ⟨r, hr, rfl⟩ := mem_map.1 hcells
  exact paired_usedPart (hlen r hr) (h r hr)

theorem rowCells_eq_joined (hchain : chain.IsChain fun x y => goesOn x y) :
    ∃ blanks : List Cell, (∀ x ∈ blanks, x.glyph = .char ' ') ∧
      rowCells chain = (joinedLine cols cursor chain).cells ++ blanks := by
  induction chain with
  | nil => exact ⟨[], fun x hx => (nomatch hx), rfl⟩
  | cons row chain ih =>
    have hrow := hlen row mem_cons_self
    cases chain with
    | nil =>
      refine ⟨row.cells.drop (usedCells cols cursor row),
        blank_of_mem_drop (lastNonblank_le_used hrow), ?_⟩
      simp [rowCells, joinedLine, usedPart]
    | cons next chain =>
      obtain ⟨hon, hchain⟩ := isChain_cons_cons.1 hchain
      obtain ⟨blanks, hblanks, hcells⟩ := ih (fun r hr => hlen r (mem_cons_of_mem _ hr)) hchain
      refine ⟨blanks, hblanks, ?_⟩
      have hused := @usedPart_wrapped cols cursor row hrow (id_of_goesOn hon).1
      have hrest : rowCells (row :: next :: chain) = row.cells ++ rowCells (next :: chain) := rfl
      rw [hrest, hcells]; simp [joinedLine, hused]

end

/-! ## Cutting -/

def rowCount (cols n : ℕ) : ℕ := max 1 ((n + cols - 1) / cols)

/-- The offset of row `j` of a line that is cut. -/
def rowStart (cols : ℕ) (line : LogicalLine) (j : ℕ) : ℕ :=
  if line.cells = [] then 0 else (line.base + j * cols) % 2 ^ 32

/-- The rows of a line: its cells one after another, filled up with blanks. -/
structure CutOf (cols : ℕ) (fill : Cell) (line : LogicalLine) (cut : List TerminalRow) : Prop where
  chain : cut.IsChain fun x y => goesOn x y
  ended : ∀ r ∈ cut.getLast?, r.softWrapped = false
  id : ∀ r ∈ cut, r.logicalLineId = line.id
  width : ∀ r ∈ cut, HasLength cols r.cells
  count : cut.length = rowCount cols line.cells.length
  offset : ∀ j r, cut[j]? = some r → r.cellOffset = rowStart cols line j
  faces : ∃ n, (rowCells cut).map Cell.face = (line.cells ++ List.replicate n fill).map Cell.face

/-- No wide glyph begins in the last column of a row. -/
def NoStraddle (M : TextMetrics) (cols : ℕ) (cells : List Cell) : Prop :=
  ∀ i, wideAt M cells i = true → (i + 1) % cols ≠ 0

instance (M : TextMetrics) (cols : ℕ) (cells : List Cell) : Decidable (NoStraddle M cols cells) :=
  decidable_of_iff (∀ i < cells.length, wideAt M cells i = true → (i + 1) % cols ≠ 0)
    ⟨fun h i hwide => h i (by
      by_contra hi; rw [wideAt, List.getElem?_eq_none (by omega)] at hwide; cases hwide) hwide,
    fun h i _ => h i⟩

/-- The cutting loop between two glyphs, the cells before `source` being cut: the rows done
    since the loop began, and the row being filled. -/
structure CutTo (l : ReflowLine) (before : List TerminalRow) (mapped₀ : ℕ) (cells : List Cell)
    (source : ℕ) (done : List TerminalRow) (st : Reflow) : Prop where
  rows : st.rows = before ++ done
  row : ∀ j r, done[j]? = some r → HasLength l.cols r.cells ∧ r.logicalLineId = l.id ∧
    r.softWrapped = true ∧ r.cellOffset = (l.base + j * l.cols) % 2 ^ 32
  part : HasLength l.cols st.part
  rest : st.part.drop st.col = List.replicate (l.cols - st.col) l.fill
  faces : (rowCells done ++ st.part.take st.col).map Cell.face =
    (cells.take source).map Cell.face
  physical : st.physical = done.length * l.cols
  place : st.physical + st.col = source
  col : st.col ≤ l.cols
  mapped : st.mapped = match l.cursorSource with
    | some cursor => if cursor < source then l.base + cursor else mapped₀
    | none => mapped₀

/-- The row being filled has room for the glyph that comes next, and it was begun for one. -/
structure CutReady (l : ReflowLine) (cells : List Cell) (source : ℕ) (st : Reflow) : Prop where
  room : source < cells.length → st.col < l.cols
  begun : st.col = 0 → source = 0 ∨ source < cells.length

section
variable {M : TextMetrics} {l : ReflowLine} {before done : List TerminalRow} {mapped₀ source : ℕ}
  {cells : List Cell} {st st' : Reflow} {x : Cell}

theorem displayGlyph_eq (hcols : 2 ≤ l.cols) (x : Cell) :
    displayGlyph M l.cols x = (x.glyph, sourceWidth M x) := by
  have := @sourceWidth_le_two M x
  unfold displayGlyph
  rw [if_neg (by omega), min_eq_left this]

theorem sourceWidth_eq {x : Cell} : sourceWidth M x = if M.isWide x then 2 else 1 := by
  unfold sourceWidth
  have hle : M.glyphWidth x.glyph ≤ 2 := by
    unfold TextMetrics.glyphWidth; cases x.glyph <;> dsimp only <;> omega
  split_ifs with hwide
  · rw [TextMetrics.isWide, beq_iff_eq] at hwide; omega
  · rw [TextMetrics.isWide, beq_iff_eq] at hwide; omega

theorem CutTo.finish (h : CutTo l before mapped₀ cells source done st) (hcol : 0 < st.col) :
    ∃ done', CutTo l before mapped₀ cells source done'
        (st.finish l (decide (source < cells.length))) ∧
      CutReady l cells source (st.finish l (decide (source < cells.length))) := by
  unfold Reflow.finish
  by_cases hfull : st.col = l.cols ∧ decide (source < cells.length) = true
  · rw [if_pos hfull]; obtain ⟨hcols, hmore⟩ := hfull; have hmore := of_decide_eq_true hmore
    have hpart : st.part.take st.col = st.part := take_of_length_le (h.part.trans hcols.symm).le
    refine ⟨done ++ [st.row l true], ?_, ?_⟩
    · refine { rows := ?_, row := ?_, part := ?_, rest := ?_, faces := ?_, physical := ?_,
               place := ?_, col := Nat.zero_le _, mapped := h.mapped }
      · show st.rows ++ _ = _
        rw [h.rows, append_assoc]
      · intro j r hr
        rcases Nat.lt_or_ge j done.length with hj | hj
        · rw [getElem?_append_left hj] at hr; exact h.row j r hr
        rw [getElem?_append_right hj, getElem?_singleton] at hr
        split_ifs at hr with hlast
        obtain rfl := some.inj hr
        refine ⟨h.part, rfl, rfl, ?_⟩; show (l.base + st.physical) % 2 ^ 32 = _
        rw [h.physical, show j = done.length by omega]
      · exact length_replicate
      · simp [Reflow.wrap]
      · have hfaces := h.faces; rw [hpart] at hfaces
        simpa [rowCells, Reflow.wrap, Reflow.row] using hfaces
      · show st.physical + l.cols = _
        rw [h.physical, length_append, length_singleton, Nat.add_mul, Nat.one_mul]
      show st.physical + l.cols + 0 = source
      have := h.place; omega
    · exact ⟨fun _ => by show 0 < l.cols; omega, fun _ => .inr hmore⟩
  rw [if_neg hfull]
  refine ⟨done, h, fun hmore => ?_, fun hzero => absurd hzero (by omega)⟩
  exact lt_of_le_of_ne h.col fun heq => hfull ⟨heq, decide_eq_true hmore⟩

theorem CutTo.mapCursor (h : CutTo l before mapped₀ cells source done st) (hcols : 2 ≤ l.cols)
    (x : Cell) : st.mapCursor M l source x = match l.cursorSource with
      | some cursor => if cursor < source + sourceWidth M x then l.base + cursor else mapped₀
      | none => mapped₀ := by
  have hmapped := h.mapped
  have hplace := h.place
  unfold Reflow.mapCursor
  cases hsource : l.cursorSource with
  | none => rwa [hsource] at hmapped
  | some cursor =>
    rw [hsource] at hmapped; have hpos := @sourceWidth_pos M x; rw [displayGlyph_eq hcols]
    dsimp only at hmapped ⊢
    split_ifs at hmapped ⊢ <;> omega

theorem take_set_succ {i : ℕ} (hi : i < cells.length) :
    (cells.set i x).take (i + 1) = cells.take i ++ [x] := by
  rw [take_add_one, getElem?_set_self hi, take_set_of_le le_rfl]
  rfl

section
variable (h : CutTo l before mapped₀ cells source done st)
include h

theorem CutTo.put {w mapped : ℕ}
    {part : List Cell}
    (hpart : HasLength l.cols part) (hroom : st.col + w ≤ l.cols)
    (hrest : part.drop (st.col + w) = st.part.drop (st.col + w))
    (hput : (part.take (st.col + w)).map Cell.face =
      (st.part.take st.col).map Cell.face ++ ((cells.drop source).take w).map Cell.face)
    (hmapped : mapped = match l.cursorSource with
      | some cursor => if cursor < source + w then l.base + cursor else mapped₀
      | none => mapped₀) :
    CutTo l before mapped₀ cells (source + w) done
      { st with part := part, col := st.col + w, mapped := mapped } where
  rows := h.rows
  row := h.row
  part := hpart
  rest := by rw [hrest, ← drop_drop, h.rest, drop_replicate, Nat.sub_sub]
  faces := by
    have hfaces := h.faces; rw [map_append] at hfaces
    rw [map_append, hput, ← append_assoc, hfaces, take_add, map_append]
  physical := h.physical
  place := by
    have := h.place; show st.physical + (st.col + w) = source + w
    omega
  col := hroom
  mapped := hmapped

theorem CutTo.cell
    (hready : CutReady l cells source st) (hcols : 2 ≤ l.cols) (hpaired : Paired M cells)
    (hstraddle : NoStraddle M l.cols cells) (hx : cells[source]? = some x) :
    ∃ st' done', reflowCell M l source (decide (source + sourceWidth M x < cells.length)) x st =
        some st' ∧ CutTo l before mapped₀ cells (source + sourceWidth M x) done' st' ∧
      CutReady l cells (source + sourceWidth M x) st' := by
  have hlt := (List.getElem?_eq_some_iff.1 hx).1
  have hcol := hready.room hlt
  have hwide : wideAt M cells source = M.isWide x := by rw [wideAt, hx]; rfl
  -- a wide glyph has room, since it begins in no last column
  have hroom : sourceWidth M x = 2 → st.col + 2 ≤ l.cols := by
    intro htwo; rw [sourceWidth_eq] at htwo
    have hw : M.isWide x = true := by
      by_contra hne
      rw [if_neg hne] at htwo; cases htwo
    have hmod := hstraddle source (hwide.trans hw)
    by_contra hle
    have hlast : st.col + 1 = l.cols := by omega
    refine hmod ?_
    rw [← h.place, h.physical, add_assoc, hlast, ← Nat.succ_mul, Nat.mul_mod_left]
  have hfit : st.fit l (sourceWidth M x) = st := by
    unfold Reflow.fit; rw [if_neg]; rintro ⟨htwo, hfull⟩
    have := hroom htwo; omega
  have hpos := @sourceWidth_pos M x
  have hlen : st.col < st.part.length := by rw [h.part]; exact hcol
  have hsource : cells.drop source = x :: cells.drop (source + 1) := by
    rw [drop_eq_getElem_cons hlt, (List.getElem?_eq_some_iff.1 hx).2]
  suffices hpart : ∃ part, (setCell st.col x st.part).bind
      (whenWide (sourceWidth M x) (setCell (st.col + 1) ⟨.continuation, x.style⟩)) = some part ∧
      HasLength l.cols part ∧ st.col + sourceWidth M x ≤ l.cols ∧
      part.drop (st.col + sourceWidth M x) = st.part.drop (st.col + sourceWidth M x) ∧
      (part.take (st.col + sourceWidth M x)).map Cell.face = (st.part.take st.col).map Cell.face ++
        ((cells.drop source).take (sourceWidth M x)).map Cell.face by
    obtain ⟨part, hput, hpartLen, hroom', hrest, hfaces⟩ := hpart
    obtain ⟨a, ha, hb⟩ := bind_eq_some_iff.1 hput
    obtain ⟨done', hdone, hready'⟩ :=
      (h.put hpartLen hroom' hrest hfaces (h.mapCursor hcols x)).finish (by dsimp only; omega)
    refine ⟨_, done', ?_, hdone, hready'⟩; rw [reflowCell_eq, displayGlyph_eq hcols]
    rw [hfit]; simp [ha, hb]
  rw [setCell_eq hlen, bind_some, sourceWidth_eq, hsource]
  by_cases hw : M.isWide x = true
  · rw [if_pos hw]
    have hsecond : continuationAt cells (source + 1) = true := by rw [hpaired.next, hwide, hw]
    rw [continuationAt, Option.any_eq_true] at hsecond; obtain ⟨y, hy, hycont⟩ := hsecond
    have hyface : y.face = Cell.face ⟨.continuation, x.style⟩ := by
      rw [Cell.isContinuation, beq_iff_eq] at hycont; simp [Cell.face, Cell.isContinuation, hycont]
    have htwo : sourceWidth M x = 2 := by rw [sourceWidth_eq, if_pos hw]
    have hcol2 := hroom htwo
    have hlen' : st.col + 1 < (st.part.set st.col x).length := by rw [length_set, h.part]; omega
    have hnext : cells.drop (source + 1) = y :: cells.drop (source + 2) := by
      obtain ⟨hlt', rfl⟩ := List.getElem?_eq_some_iff.1 hy; rw [drop_eq_getElem_cons hlt']
    refine ⟨_, by rw [whenWide, if_pos rfl, setCell_eq hlen'], ?_, hcol2, ?_, ?_⟩
    · rw [HasLength, length_set, length_set, h.part]
    · rw [drop_set, if_pos (by omega), drop_set, if_pos (by omega)]
    rw [show st.col + 2 = st.col + 1 + 1 from rfl, take_set_succ hlen', take_set_succ hlen, hnext]
    simp [hyface]
  rw [if_neg hw]
  refine ⟨_, by rw [whenWide, if_neg (by decide)], ?_, hcol, ?_, ?_⟩
  · rw [HasLength, length_set, h.part]
  · rw [drop_set, if_pos (by omega)]
  · rw [take_set_succ hlen]; simp

end

theorem reflowCells_cut (hcols : 2 ≤ l.cols) (hpaired : Paired M cells)
    (hstraddle : NoStraddle M l.cols cells) : ∀ {n source : ℕ} {done : List TerminalRow}
    {st : Reflow}, cells.length - source = n → source ≤ cells.length →
    continuationAt cells source = false → CutTo l before mapped₀ cells source done st →
    CutReady l cells source st →
    ∃ st' done', reflowCells M l source 0 (cells.drop source) st = some st' ∧
      CutTo l before mapped₀ cells cells.length done' st' ∧ CutReady l cells cells.length st' := by
  intro n
  induction n using Nat.strong_induction_on with
  | _ n ih =>
  intro source done st hn hle hfirst h hready
  rcases hle.eq_or_lt with rfl | hlt
  · refine ⟨st, done, ?_, h, hready⟩; rw [drop_length, reflowCells]
  have hx : cells[source]? = some cells[source] := getElem?_eq_getElem hlt
  have hcont : (cells[source]).isContinuation = false := by simpa [continuationAt, hx] using hfirst
  have hwide : wideAt M cells source = M.isWide cells[source] := by rw [wideAt, hx]; rfl
  obtain ⟨st', done', hcell, h', hready'⟩ := h.cell hready hcols hpaired hstraddle hx
  have hpos := @sourceWidth_pos M cells[source]
  have hmore : decide (sourceWidth M cells[source] < (cells.drop (source + 1)).length + 1) =
      decide (source + sourceWidth M cells[source] < cells.length) := by
    rw [length_drop]; exact decide_eq_decide.2 (by omega)
  -- the cells the glyph takes are passed over
  have hgoes : source + sourceWidth M cells[source] ≤ cells.length ∧
      continuationAt cells (source + sourceWidth M cells[source]) = false ∧
      reflowCells M l (source + 1) (sourceWidth M cells[source] - 1) (cells.drop (source + 1)) st' =
        reflowCells M l (source + sourceWidth M cells[source]) 0
          (cells.drop (source + sourceWidth M cells[source])) st' := by
    rw [sourceWidth_eq]
    by_cases hw : M.isWide cells[source] = true
    · have hroom := hpaired.succ_lt (hwide.trans hw)
      have hsecond : continuationAt cells (source + 1) = true := by rw [hpaired.next, hwide, hw]
      rw [if_pos hw]
      refine ⟨hroom, ?_, ?_⟩
      · rw [show source + 2 = source + 1 + 1 from rfl, hpaired.next]
        exact wideAt_of_continuationAt hsecond
      · rw [drop_eq_getElem_cons hroom]; simp only [reflowCells]
    rw [if_neg hw]
    refine ⟨hlt, ?_, rfl⟩; rw [hpaired.next, hwide]; simpa using hw
  obtain ⟨hle', hfirst', heq⟩ := hgoes
  obtain ⟨st'', done'', hrest, h'', hready''⟩ :=
    ih (cells.length - (source + sourceWidth M cells[source])) (by omega) rfl hle' hfirst' h'
      hready'
  refine ⟨st'', done'', ?_, h'', hready''⟩
  rw [drop_eq_getElem_cons hlt, reflowCells, if_neg (by simp [hcont]), hmore, hcell,
    bind_eq_bind, bind_some, heq, hrest]

theorem isChain_concat {rows : List TerminalRow} {last : TerminalRow}
    (h : ∀ r ∈ rows, r.softWrapped = true ∧ r.logicalLineId = last.logicalLineId) :
    (rows ++ [last]).IsChain fun x y => goesOn x y := by
  induction rows with
  | nil => exact isChain_singleton last
  | cons row rows ih =>
    have hrow := h row mem_cons_self; have hrest := ih fun r hr => h r (mem_cons_of_mem _ hr)
    cases rows with
    | nil => exact isChain_cons_cons.2 ⟨by simp [goesOn, hrow], hrest⟩
    | cons next rows =>
      have hnext := h next (mem_cons_of_mem _ mem_cons_self)
      exact isChain_cons_cons.2 ⟨by simp [goesOn, hrow, hnext], hrest⟩

theorem CutTo.cutOf {line : LogicalLine} (hid : l.id = line.id) (hbase : l.base = line.base)
    (hne : line.cells ≠ []) (h : CutTo l before mapped₀ line.cells line.cells.length done st)
    (hready : CutReady l line.cells line.cells.length st) :
    CutOf l.cols l.fill line (done ++ [st.row l false]) := by
  have hlen : 0 < line.cells.length := length_pos_iff.2 hne
  have hcol : 0 < st.col := by
    by_contra hzero
    have := hready.begun (by omega); omega
  have hdone (r : TerminalRow) (hr : r ∈ done) : HasLength l.cols r.cells ∧
      r.logicalLineId = l.id ∧ r.softWrapped = true := by
    obtain ⟨j, hj⟩ := mem_iff_getElem?.1 hr; obtain ⟨hwidth, hrid, hwrapped, -⟩ := h.row j r hj
    exact ⟨hwidth, hrid, hwrapped⟩
  have hmem {P : TerminalRow → Prop} (hrows : ∀ r ∈ done, P r) (hlast : P (st.row l false)) :
      ∀ r ∈ done ++ [st.row l false], P r := by
    intro r hr
    rcases mem_append.1 hr with hr | hr
    · exact hrows r hr
    · exact mem_singleton.1 hr ▸ hlast
  refine { chain := ?_, ended := ?_, id := ?_, width := ?_, count := ?_, offset := ?_, faces := ?_ }
  · exact isChain_concat fun r hr => ⟨(hdone r hr).2.2, (hdone r hr).2.1⟩
  · intro r hr; rw [getLast?_append_of_ne_nil _ (cons_ne_nil _ _)] at hr; obtain rfl := some.inj hr
    rfl
  · exact hmem (fun r hr => (hdone r hr).2.1.trans hid) hid
  · exact hmem (fun r hr => (hdone r hr).1) h.part
  · have hplace := h.place; have hle := h.col; rw [h.physical] at hplace
    rw [length_append, length_singleton, rowCount, ← hplace]
    have hdiv : (done.length * l.cols + st.col + l.cols - 1) / l.cols = done.length + 1 := by
      rw [show done.length * l.cols + st.col + l.cols - 1 =
        (st.col - 1) + (done.length + 1) * l.cols by rw [Nat.succ_mul]; omega,
        Nat.add_mul_div_right _ _ (by omega), Nat.div_eq_of_lt (by omega), zero_add]
    omega
  · intro j r hr; rw [rowStart, if_neg hne, ← hbase]
    rcases lt_or_ge j done.length with hj | hj
    · rw [getElem?_append_left hj] at hr; exact (h.row j r hr).2.2.2
    rw [getElem?_append_right hj, getElem?_singleton] at hr
    split_ifs at hr with hlast
    obtain rfl := some.inj hr; show (l.base + st.physical) % 2 ^ 32 = _
    rw [h.physical, show j = done.length by omega]
  refine ⟨l.cols - st.col, ?_⟩; have hfaces := h.faces; rw [take_length, map_append] at hfaces
  have hlast : rowCells [st.row l false] = st.part.take st.col ++
      List.replicate (l.cols - st.col) l.fill := by
    rw [← h.rest, take_append_drop]; simp [rowCells, Reflow.row]
  rw [rowCells_append, hlast, ← append_assoc, map_append, map_append, hfaces, map_append]

def mapLine (cursor : CursorPlace) (line : LogicalLine) (mapped : ℕ) : ℕ :=
  if line.id = cursor.id ∧ cursor.offset - line.base < line.cells.length then
    line.base + (cursor.offset - line.base)
  else mapped

/-- **What a resize makes of a line**, when no wide glyph would begin in a last column. -/
theorem reflowLine_cut {cols : ℕ} (hcols : 2 ≤ cols) {style : Style} {cursor : CursorPlace}
    {acc : List TerminalRow × ℕ} {line : LogicalLine} (hpaired : Paired M line.cells)
    (hstraddle : NoStraddle M cols line.cells) : ∃ cut, CutOf cols (blank style) line cut ∧
      reflowLine M cols style cursor acc line = some (acc.1 ++ cut, mapLine cursor line acc.2) := by
  unfold reflowLine
  rw [sanitizeRow_of_paired hpaired]
  dsimp only
  by_cases hempty : line.cells = []
  · refine ⟨[TerminalRow.new cols line.id style], ?_, by simp [mapLine, hempty]⟩
    refine { chain := isChain_singleton _, ended := ?_, id := ?_, width := ?_, count := ?_,
             offset := ?_, faces := ⟨cols, ?_⟩ }
    · rintro r hr; obtain rfl := some.inj hr; rfl
    · simp [TerminalRow.new]
    · simp [TerminalRow.new, HasLength]
    · have : (0 + cols - 1) / cols = 0 := Nat.div_eq_of_lt (by omega)
      rw [hempty, length_nil, rowCount, this]; rfl
    · intro j r hr; rw [getElem?_singleton] at hr
      split_ifs at hr
      obtain rfl := some.inj hr; rw [rowStart, if_pos hempty]; rfl
    · simp [rowCells, hempty, TerminalRow.new]
  rw [if_neg hempty]
  have hstart : CutTo ⟨line.id, line.base, cols, blank style,
      if line.id = cursor.id then some (cursor.offset - line.base) else none⟩ acc.1 acc.2
      line.cells 0 [] ⟨acc.1, List.replicate cols (blank style), 0, 0, acc.2⟩ :=
    { rows := (append_nil _).symm
      row := by rintro _ _ ⟨⟩
      part := length_replicate
      rest := rfl
      faces := rfl
      physical := (Nat.zero_mul _).symm
      place := rfl
      col := Nat.zero_le _
      mapped := by split_ifs <;> rfl }
  obtain ⟨st, done, hcells, hcut, hready⟩ := reflowCells_cut hcols hpaired hstraddle rfl
    (Nat.zero_le _) hpaired.first hstart ⟨fun _ => Nat.zero_lt_of_lt hcols, fun _ => .inl rfl⟩
  refine ⟨_, hcut.cutOf rfl rfl hempty hready, ?_⟩; rw [drop_zero] at hcells
  rw [hcells, bind_eq_bind, bind_some, hcut.rows, append_assoc, hcut.mapped]; unfold mapLine
  by_cases hid : line.id = cursor.id
  · simp [hid]
  · simp [hid]

/-- **What a resize makes of the lines**, one after another. -/
theorem reflowLines_cut {cols : ℕ} (hcols : 2 ≤ cols) {style : Style} {cursor : CursorPlace} :
    ∀ {lines : List LogicalLine} {acc : List TerminalRow × ℕ},
    (∀ line ∈ lines, Paired M line.cells ∧ NoStraddle M cols line.cells) →
    ∃ cuts, List.Forall₂ (CutOf cols (blank style)) lines cuts ∧
      lines.foldlM (reflowLine M cols style cursor) acc =
        some (acc.1 ++ cuts.flatten, lines.foldl (fun mapped line => mapLine cursor line mapped) acc.2)
  | [], acc, _ => ⟨[], .nil, by simp⟩
  | line :: lines, acc, h => by
    obtain ⟨hpaired, hstraddle⟩ := h line mem_cons_self
    obtain ⟨cut, hcut, hline⟩ := @reflowLine_cut M cols hcols style cursor acc line hpaired hstraddle
    obtain ⟨cuts, hcuts, hrest⟩ := @reflowLines_cut cols hcols style cursor lines
      (acc.1 ++ cut, mapLine cursor line acc.2) fun l hl => h l (mem_cons_of_mem _ hl)
    refine ⟨cut :: cuts, .cons hcut hcuts, ?_⟩
    rw [foldlM_cons, hline, bind_eq_bind, bind_some, hrest]; simp

end

end Pmacs
