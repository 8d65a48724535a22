/-
  The logical lines across a resize (screen.rs).

  * `Reflowable`: the rows are paired and follow on each other, no wide glyph would begin in
    the last new column, and the cursor's row stays on the screen.
  * `LinesKept`: the lines and the cursor's place in them are kept, but for what the history's
    budget takes at the front.
  * `step_keepsLines`: a resize of such a screen, and one back, keep its lines.
-/
import Pmacs.Terminal.ReflowLines
import Pmacs.Terminal.WidePairs

namespace Pmacs

open Lib List

/-! ## Places -/

section
variable {M : TextMetrics} {cols : ℕ} {cursor : CursorPlace} {row : TerminalRow}
  {chain : List TerminalRow} {t c : ℕ}

variable {all : List TerminalRow} {count n nextId q : ℕ}

theorem cellOffset_of_chain : ∀ {chain : List TerminalRow} {t : ℕ},
    chain.IsChain (fun x y => goesOn x y) → Contiguous cols chain → chain[t]? = some row →
    row.cellOffset = chain.head?.elim 0 (·.cellOffset) + t * cols
  | [], t, _, _, hrow => by simp at hrow
  | first :: chain, 0, _, _, hrow => by obtain rfl := Option.some.inj hrow; simp
  | [first], t + 1, _, _, hrow => by simp at hrow
  | first :: next :: chain, t + 1, hchain, hrows, hrow => by
    obtain ⟨hon, hchain⟩ := isChain_cons_cons.1 hchain
    obtain ⟨hnext, hrows⟩ := isChain_cons_cons.1 hrows
    rw [cellOffset_of_chain hchain hrows hrow]
    simp only [head?_cons, Option.elim_some, hnext hon, Nat.succ_mul]; omega

/-- The cells of a joined line: those of its rows that were taken. -/
theorem getElem?_joined : ∀ {chain : List TerminalRow} {t : ℕ},
    (∀ r ∈ chain, HasLength cols r.cells) → chain.IsChain (fun x y => goesOn x y) →
    chain[t]? = some row → c < usedCells cols cursor row →
    ((chain.map (usedPart cols cursor)).flatten)[t * cols + c]? = row.cells[c]?
  | [], t, _, _, hrow, _ => by simp at hrow
  | first :: chain, 0, hlen, _, hrow, hc => by
    obtain rfl := Option.some.inj hrow
    have hle : usedCells cols cursor first ≤ cols := usedCells_le (hlen first mem_cons_self)
    have hfirst := hlen first mem_cons_self
    rw [map_cons, flatten_cons, Nat.zero_mul, Nat.zero_add,
      getElem?_append_left (by rw [usedPart, length_take, hfirst]; omega), usedPart,
      getElem?_take, if_pos hc]
  | [first], t + 1, _, _, hrow, _ => by simp at hrow
  | first :: next :: chain, t + 1, hlen, hchain, hrow, hc => by
    obtain ⟨hon, hchain⟩ := isChain_cons_cons.1 hchain
    have hfirst := hlen first mem_cons_self
    have hused := @usedPart_wrapped cols cursor first hfirst (id_of_goesOn hon).1
    rw [map_cons, flatten_cons, hused, getElem?_append_right
      (by rw [hfirst, Nat.succ_mul]; omega), hfirst, Nat.succ_mul,
      show t * cols + cols + c - cols = t * cols + c by omega]
    exact getElem?_joined (fun r hr => hlen r (mem_cons_of_mem _ hr)) hchain hrow hc

variable (hlen : ∀ r ∈ chain, HasLength cols r.cells)
include hlen

theorem getElem?_rowCells (hrow : chain[t]? = some row)
    (hc : c < cols) : (rowCells chain)[t * cols + c]? = row.cells[c]? := by
  refine getElem?_flatten_of_length (fun cells hcells => ?_) hc ?_
  · obtain ⟨r, hr, rfl⟩ := mem_map.1 hcells; exact hlen r hr
  · rw [getElem?_map, hrow]; rfl

theorem rowCells_drop (t : ℕ) : rowCells (chain.drop t) = (rowCells chain).drop (t * cols) := by
  rw [rowCells, map_drop, drop_flatten_of_length (n := cols) (fun cells hcells => ?_)]
  · rfl
  · obtain ⟨r, hr, rfl⟩ := mem_map.1 hcells; exact hlen r hr

end

def cutRows (old cols : ℕ) (cursor : CursorPlace) (chains : List (List TerminalRow)) : ℕ :=
  (chains.map fun chain => rowCount cols (joinedLine old cursor chain).cells.length).sum

/-! ## Lines from the cursor on -/

/-- The rows from the cursor on, when it is in column `col` of the first. -/
def fromColumn (col : ℕ) : List TerminalRow → List TerminalRow
  | [] => []
  | row :: rows => { row with cells := row.cells.drop col } :: rows

namespace TerminalScreen

/-- Where the cursor's row is among the rows of the history and the main screen. -/
def cursorIndex (s : TerminalScreen) : ℕ := s.main.history.length + s.cursor.row

def linesFromCursor (s : TerminalScreen) : List (ℕ × List Cell) :=
  logicalLines (fromColumn s.cursor.col (s.mainRows.drop s.cursorIndex))

/-- The history is as long as its budget allows. -/
def HistoryFull (s : TerminalScreen) : Prop :=
  s.scrollbackRows < s.main.history.length + 1 ∨
    maxTerminalHistoryCells < (s.main.history.length + 1) * s.size.cols

instance (s : TerminalScreen) : Decidable s.HistoryFull := inferInstanceAs (Decidable (_ ∨ _))

/-- The logical lines are kept, but for empty new ones at the end and for what the history's
    budget takes at the front; the cursor is on the same glyph, at the same offset of the same
    line. -/
structure LinesKept (s s' : TerminalScreen) : Prop where
  lines : ∃ fresh : List (ℕ × List Cell), (∀ line ∈ fresh, line.2 = []) ∧
    (logicalLines s'.mainRows = logicalLines s.mainRows ++ fresh ∨
      s'.HistoryFull ∧ FrontCut (logicalLines s.mainRows ++ fresh) (logicalLines s'.mainRows)) ∧
    s'.linesFromCursor = s.linesFromCursor ++ fresh
  place : s'.cursorPlace = s.cursorPlace
  glyph : (s'.cellAt s'.cursor.row s'.cursor.col).map (·.glyph) =
    (s.cellAt s.cursor.row s.cursor.col).map (·.glyph)

/-- The cursor's row stays on the screen and is the first there that its offset lies in.
    `before`, `own` and `after` are the chains before the cursor's, its own and those after. -/
structure CursorStays (old : ℕ) (size : CellSize) (cursor : CursorPlace)
    (before : List (List TerminalRow)) (own : List TerminalRow) (after : List (List TerminalRow)) :
    Prop where
  offset : cursor.offset < 2 ^ 32
  visible : cutRows old size.cols cursor (own :: after) ≤
    size.rows + (cursor.offset - (joinedLine old cursor own).base) / size.cols
  alone : ∀ front chain back, before = front ++ chain :: back → chainId chain = cursor.id →
    ∀ j < rowCount size.cols (joinedLine old cursor chain).cells.length,
      cutRows old size.cols cursor (chain :: back ++ own :: after) ≤ size.rows + j →
        let start := rowStart size.cols (joinedLine old cursor chain) j
        ¬(start ≤ cursor.offset ∧ cursor.offset < start + size.cols)
  later : ∀ chain ∈ after, chainId chain = cursor.id →
    (joinedLine old cursor chain).cells ≠ [] → (joinedLine old cursor chain).base ≤ cursor.offset

/-- What a resize asks of the screen to keep its lines. -/
structure Reflowable (M : TextMetrics) (s : TerminalScreen) (size : CellSize) : Prop where
  paired : ∀ r ∈ s.mainRows, Paired M r.cells
  contiguous : Contiguous s.size.cols s.mainRows
  straddle : ∀ chain ∈ chains s.mainRows, NoStraddle M size.cols (rowCells chain)
  cursor : ∀ cursor ∈ s.cursorPlace, ∀ before own after,
    chains s.mainRows = before ++ own :: after → before.flatten.length ≤ s.cursorIndex →
    s.cursorIndex < before.flatten.length + own.length →
    CursorStays s.size.cols size cursor before own after

instance {old : ℕ} {size : CellSize} {cursor : CursorPlace} {before after : List (List TerminalRow)}
    {own : List TerminalRow} : Decidable (CursorStays old size cursor before own after) :=
  decidable_of_iff (_ ∧ _ ∧ _ ∧ _)
    ⟨fun h => ⟨h.1, h.2.1, h.2.2.1, h.2.2.2⟩, fun h => ⟨h.offset, h.visible, h.alone, h.later⟩⟩

instance {M : TextMetrics} {s : TerminalScreen} {size : CellSize} :
    Decidable (Reflowable M s size) :=
  decidable_of_iff (_ ∧ _ ∧ _ ∧ _) ⟨fun h => ⟨h.1, h.2.1, h.2.2.1, h.2.2.2⟩,
    fun h => ⟨h.paired, h.contiguous, h.straddle, h.cursor⟩⟩

end TerminalScreen

/-! ## The rows after a resize -/

variable {rows : List TerminalRow}

section
variable {M : TextMetrics} {cols : ℕ} {fill : Cell} {cursor : CursorPlace} {line : LogicalLine}
  {chain cut : List TerminalRow} {G : List (List TerminalRow)}

theorem runs_of_ended (h : ∀ g ∈ G, g ≠ [] ∧ (g.IsChain fun x y => goesOn x y) ∧
    ∀ r ∈ g.getLast?, r.softWrapped = false) : Runs goesOn G := by
  induction G with
  | nil => exact .nil
  | cons g G ih =>
    obtain ⟨hne, hchain, hended⟩ := h g mem_cons_self
    refine .cons hne hchain (fun x hx y _ => ?_) (ih fun g' hg' => h g' (mem_cons_of_mem _ hg'))
    rw [goesOn, hended x hx, Bool.false_and]

theorem rowCount_pos (cols n : ℕ) : 0 < rowCount cols n := lt_of_lt_of_le one_pos
    (le_max_left _ _)

theorem CutOf.ne_nil (h : CutOf cols fill line cut) : cut ≠ [] := by
  rintro rfl
  have hcount := h.count
  have := rowCount_pos cols line.cells.length
  rw [length_nil] at hcount
  omega

theorem CutOf.chainId (h : CutOf cols fill line cut) : chainId cut = line.id := by
  obtain ⟨r, cut, rfl⟩ := exists_cons_of_ne_nil h.ne_nil
  exact h.id r mem_cons_self

theorem blank_of_mem_replicate {style : Style} :
    ∀ x ∈ replicate n (blank style), x.glyph = .char ' ' := by
  intro x hx
  rw [eq_of_mem_replicate hx]
  rfl

theorem CutOf.text {style : Style} (h : CutOf cols (blank style) line cut) {old : ℕ}
    (hchain : chain.IsChain fun x y => goesOn x y) (hold : ∀ r ∈ chain, HasLength old r.cells)
    (hline : line = joinedLine old cursor chain) (hn : n ≤ line.cells.length) :
    lineText ((rowCells cut).drop n) = lineText ((rowCells chain).drop n) := by
  obtain ⟨k, hfaces⟩ := h.faces
  obtain ⟨blanks, hblanks, hcells⟩ := @rowCells_eq_joined old cursor chain hold hchain
  rw [← hline] at hcells
  have hcut : lineText ((rowCells cut).drop n) =
      lineText ((line.cells ++ replicate k (blank style)).drop n) := by
    refine lineText_congr ?_; rw [map_drop, map_drop, hfaces]
  rw [hcut, hcells, drop_append_of_le_length hn, drop_append_of_le_length hn,
    lineText_append_blanks blank_of_mem_replicate, lineText_append_blanks hblanks]

/-! ### The cursor -/

/-- The cursor's offset lies in a row. -/
def Covers (cols : ℕ) (cursor : CursorPlace) (row : TerminalRow) : Prop :=
  row.logicalLineId = cursor.id ∧ row.cellOffset ≤ cursor.offset ∧
    cursor.offset < row.cellOffset + cols

theorem findCursor_eq {i : ℕ} (hrow : rows[i]? = some row) (hcovers : Covers cols cursor row)
    (hfirst : ∀ j < i, ∀ r, rows[j]? = some r → ¬Covers cols cursor r) :
    findCursor cols cursor rows = some ⟨i, cursor.offset - row.cellOffset, false⟩ := by
  obtain ⟨hi, hget⟩ := List.getElem?_eq_some_iff.1 hrow
  have hfind : rows.findIdx? (fun row : TerminalRow => decide (row.logicalLineId = cursor.id ∧
      row.cellOffset ≤ cursor.offset ∧ cursor.offset < row.cellOffset + cols)) = some i := by
    refine findIdx?_eq_some_iff_getElem.2 ⟨hi, ?_, fun j hj => ?_⟩
    · rw [hget]; exact decide_eq_true hcovers
    · rw [decide_eq_true_eq]; exact hfirst j hj _ (getElem?_eq_getElem (hj.trans hi))
  unfold findCursor
  dsimp only
  rw [hfind]
  dsimp only
  rw [hrow]
  rfl

variable {lines : List LogicalLine} {all : List TerminalRow}

/-- Lines that begin no later than the cursor leave its offset as it is. -/
theorem foldl_mapLine_self
    (h : ∀ line ∈ lines, line.id = cursor.id → line.cells ≠ [] → line.base ≤ cursor.offset) :
    lines.foldl (fun mapped line => mapLine cursor line mapped) cursor.offset = cursor.offset := by
  induction lines with
  | nil => rfl
  | cons line lines ih =>
    have hline : mapLine cursor line cursor.offset = cursor.offset := by
      unfold mapLine
      split_ifs with hin
      · have hne : line.cells ≠ [] := by
          rintro hempty; rw [hempty, length_nil] at hin; omega
        have := h line mem_cons_self hin.1 hne; omega
      · rfl
    rw [foldl_cons, hline, ih fun l hl => h l (mem_cons_of_mem _ hl)]

theorem forall₂_append_cons {α β : Type*} {R : α → β → Prop} {a : α} :
    ∀ {before after : List α} {bs : List β}, List.Forall₂ R (before ++ a :: after) bs →
      ∃ bs₁ b bs₂, bs = bs₁ ++ b :: bs₂ ∧ List.Forall₂ R before bs₁ ∧ R a b ∧
        List.Forall₂ R after bs₂
  | [], _, _, h => by
    rw [nil_append, forall₂_cons_left_iff] at h; obtain ⟨b, bs₂, hb, hrest, rfl⟩ := h
    exact ⟨[], b, bs₂, rfl, .nil, hb, hrest⟩
  | _ :: before, _, _, h => by
    rw [cons_append, forall₂_cons_left_iff] at h; obtain ⟨b₀, bs', hb₀, hrest, rfl⟩ := h
    obtain ⟨bs₁, b, bs₂, rfl, h₁, hb, h₂⟩ := forall₂_append_cons hrest
    exact ⟨b₀ :: bs₁, b, bs₂, rfl, .cons hb₀ h₁, hb, h₂⟩

variable {cuts : List (List TerminalRow)}

theorem length_cuts (h : List.Forall₂ (CutOf cols fill) lines cuts) :
    cuts.flatten.length = (lines.map fun line => rowCount cols line.cells.length).sum := by
  induction h with
  | nil => rfl
  | cons hcut _ ih =>
    rw [flatten_cons, length_append, ih, map_cons, sum_cons, hcut.count]

theorem exists_of_mem_cuts (h : List.Forall₂ (CutOf cols fill) lines cuts) :
    ∀ cut ∈ cuts, ∃ line ∈ lines, CutOf cols fill line cut := by
  induction h with
  | nil => exact nofun
  | cons hline _ ih =>
    intro cut hcut
    rcases mem_cons.1 hcut with rfl | hcut
    · exact ⟨_, mem_cons_self, hline⟩
    · obtain ⟨line, hmem, hline⟩ := ih cut hcut; exact ⟨line, mem_cons_of_mem _ hmem, hline⟩

theorem CutOf.offset_le (h : CutOf cols fill line cut) (hne : line.cells ≠ [])
    (hbase : line.base ≤ cursor.offset) (hsmall : cursor.offset < 2 ^ 32) {j : ℕ}
    (hj : j ≤ (cursor.offset - line.base) / cols) (hrow : cut[j]? = some row) :
    row.cellOffset = line.base + j * cols := by
  have hle : j * cols ≤ cursor.offset - line.base :=
    (Nat.mul_le_mul_right cols hj).trans (Nat.div_mul_le_self _ _)
  rw [h.offset j row hrow, rowStart, if_neg hne, Nat.mod_eq_of_lt (by omega)]

theorem cutRows_cons {old : ℕ} (chain : List TerminalRow) {chains : List (List TerminalRow)} :
    cutRows old cols cursor (chain :: chains) =
      rowCount cols (joinedLine old cursor chain).cells.length + cutRows old cols cursor chains :=
  sum_cons

theorem cutRows_append {old : ℕ} {chains chains' : List (List TerminalRow)} :
    cutRows old cols cursor (chains ++ chains') =
      cutRows old cols cursor chains + cutRows old cols cursor chains' := by
  rw [cutRows, map_append, sum_append]; rfl

/-- **Where the cursor gets to**: `q` rows into its line, which are on the screen. -/
theorem findCursor_cuts {old : ℕ} {size : CellSize} {before after : List (List TerminalRow)}
    {own : List TerminalRow} {cb ca : List (List TerminalRow)} {co fresh : List TerminalRow}
    (hcols : 0 < size.cols) (hstays : TerminalScreen.CursorStays old size cursor before own after)
    (hb : List.Forall₂ (CutOf size.cols fill) (before.map (joinedLine old cursor)) cb)
    (ho : CutOf size.cols fill (joinedLine old cursor own) co)
    (ha : List.Forall₂ (CutOf size.cols fill) (after.map (joinedLine old cursor)) ca)
    (hid : chainId own = cursor.id) (hbase : (joinedLine old cursor own).base ≤ cursor.offset)
    (hin : cursor.offset - (joinedLine old cursor own).base <
      (joinedLine old cursor own).cells.length)
    (hfresh : fresh.length = size.rows - (cb ++ co :: ca).flatten.length)
    (hall : all = (cb ++ co :: ca).flatten ++ fresh)
    (hq : q = (cursor.offset - (joinedLine old cursor own).base) / size.cols) :
    ∃ r, co[q]? = some r ∧ all[cb.flatten.length + q]? = some r ∧
      r.cellOffset = (joinedLine old cursor own).base + q * size.cols ∧
      all.length - size.rows ≤ cb.flatten.length + q ∧
      findCursor size.cols cursor (all.drop (all.length - size.rows)) =
        some ⟨cb.flatten.length + q - (all.length - size.rows), cursor.offset - r.cellOffset,
          false⟩ := by
  have hne : (joinedLine old cursor own).cells ≠ [] := by
    rintro hempty; rw [hempty, length_nil] at hin; omega
  have hflat : all = cb.flatten ++ (co ++ (ca.flatten ++ fresh)) := by rw [hall]; simp
  have hlen : all.length = (cb ++ co :: ca).flatten.length + fresh.length := by
    rw [hall, length_append]
  have hparts : (cb ++ co :: ca).flatten.length =
      cb.flatten.length + (co.length + ca.flatten.length) := by simp
  have hca : ca.flatten.length = cutRows old size.cols cursor after := by
    rw [length_cuts ha, map_map]; rfl
  have hvisible := hstays.visible
  rw [cutRows_cons] at hvisible
  have hcount := ho.count
  have hqlt : q < co.length := by
    have hdiv : q ≤ ((joinedLine old cursor own).cells.length - 1) / size.cols :=
      hq ▸ Nat.div_le_div_right (by omega)
    have hceil : ((joinedLine old cursor own).cells.length + size.cols - 1) / size.cols =
        ((joinedLine old cursor own).cells.length - 1) / size.cols + 1 := by
      rw [show (joinedLine old cursor own).cells.length + size.cols - 1 =
        (joinedLine old cursor own).cells.length - 1 + size.cols by omega,
        Nat.add_div_right _ hcols]
    rw [hcount, rowCount, hceil]; omega
  have hr : co[q]? = some co[q] := getElem?_eq_getElem hqlt
  have hoffset := ho.offset_le hne hbase hstays.offset hq.le hr
  have hmem : all[cb.flatten.length + q]? = some co[q] := by
    rw [hflat, getElem?_append_right (Nat.le_add_right _ _), Nat.add_sub_cancel_left,
      getElem?_append_left hqlt, hr]
  have hsplit : all.length - size.rows ≤ cb.flatten.length + q := by omega
  refine ⟨co[q], hr, hmem, hoffset, hsplit, ?_⟩
  have hmod : q * size.cols ≤ cursor.offset - (joinedLine old cursor own).base ∧
      cursor.offset - (joinedLine old cursor own).base < q * size.cols + size.cols :=
    hq ▸ ⟨Nat.div_mul_le_self _ _, Nat.lt_div_mul_add hcols⟩
  refine findCursor_eq ?_ ⟨?_, ?_, ?_⟩ fun j hj r hrow hcovers => ?_
  · rw [getElem?_drop, Nat.add_sub_cancel' hsplit, hmem]
  · exact (ho.id _ (getElem_mem hqlt)).trans hid
  · omega
  · omega
  obtain ⟨place, hplace⟩ : ∃ place, place = all.length - size.rows + j := ⟨_, rfl⟩
  rw [getElem?_drop, ← hplace] at hrow; obtain ⟨hcid, hle, hlt⟩ := hcovers
  rcases lt_or_ge place cb.flatten.length with hfront | hback
  · -- a row of a line before
    rw [hflat, getElem?_append_left hfront] at hrow
    obtain ⟨cuts, cut, cuts', rfl, hlow, hhigh⟩ := exists_block hfront
    obtain ⟨lines, line, lines', hlines, -, hcutOf, hback⟩ := forall₂_append_cons hb.flip
    obtain ⟨front, rest, rfl, rfl, hrest⟩ := map_eq_append_iff.1 hlines
    obtain ⟨chain, back, rfl, rfl, rfl⟩ := map_eq_cons_iff.1 hrest
    rw [flatten_append, getElem?_append_right hlow, flatten_cons,
      getElem?_append_left (by omega)] at hrow
    have hstart := hcutOf.offset _ r hrow; have hcutLength := hcutOf.count
    have hbackLength : cuts'.flatten.length = cutRows old size.cols cursor back := by
      rw [length_cuts hback.flip, map_map]; rfl
    refine hstays.alone front chain back rfl
      ((hcutOf.id r (mem_of_getElem? hrow)).symm.trans hcid) (place - cuts.flatten.length) ?_ ?_ ?_
    · omega
    · rw [cutRows_append, cutRows_cons, cutRows_cons]
      simp only [flatten_append, flatten_cons, length_append] at hlen hparts
      omega
    · rw [← hstart]; exact ⟨hle, hlt⟩
  -- a row of the cursor's line, before the cursor's
  rw [hflat, getElem?_append_right hback, getElem?_append_left (by omega)] at hrow
  have hearly := ho.offset_le hne hbase hstays.offset (by omega) hrow
  have hstep : (place - cb.flatten.length) * size.cols + size.cols ≤ q * size.cols := by
    rw [← Nat.succ_mul]; exact Nat.mul_le_mul_right _ (by omega)
  omega

end

/-! ## The lines after a resize -/

section
variable {M : TextMetrics} {cols old c count : ℕ} {cursor : CursorPlace} {style : Style}
  {g : List TerminalRow} {G cuts : List (List TerminalRow)}

theorem map_lineOf_cuts {cs : List (List TerminalRow)}
    (h : List.Forall₂ (CutOf cols (blank style)) (cs.map (joinedLine old cursor)) cuts)
    (hcs : ∀ chain ∈ cs, (chain.IsChain fun x y => goesOn x y) ∧
      ∀ r ∈ chain, HasLength old r.cells) : cuts.map lineOf = cs.map lineOf := by
  induction cs generalizing cuts with
  | nil => rw [map_nil, forall₂_nil_left_iff] at h; rw [h]
  | cons chain cs ih =>
    rw [map_cons, forall₂_cons_left_iff] at h; obtain ⟨cut, cuts, hcut, hrest, rfl⟩ := h
    obtain ⟨hchain, hold⟩ := hcs chain mem_cons_self
    have htext := hcut.text hchain hold rfl (Nat.zero_le _)
    rw [drop_zero, drop_zero] at htext
    rw [map_cons, map_cons, ih hrest fun g hg => hcs g (mem_cons_of_mem _ hg),
      lineOf, hcut.chainId, htext]
    rfl

theorem fromColumn_flatten (hg : g ≠ []) :
    fromColumn c (g :: G).flatten = (fromColumn c g :: G).flatten := by
  obtain ⟨row, rows, rfl⟩ := exists_cons_of_ne_nil hg
  rfl

theorem chainId_fromColumn : chainId (fromColumn c g) = chainId g := by
  cases g <;> rfl

theorem rowCells_fromColumn (hlen : ∀ r ∈ g, HasLength cols r.cells) (hc : c ≤ cols) :
    rowCells (fromColumn c g) = (rowCells g).drop c := by
  cases g with
  | nil => simp [fromColumn, rowCells]
  | cons row rows =>
    have hrow := hlen row mem_cons_self
    show row.cells.drop c ++ rowCells rows = (row.cells ++ rowCells rows).drop c
    rw [drop_append_of_le_length (hc.trans_eq hrow.symm)]

theorem Runs.fromColumn (h : Runs goesOn (g :: G)) : Runs goesOn (fromColumn c g :: G) := by
  cases h with
  | cons hne hchain hapart h =>
    cases g with
    | nil => exact absurd rfl hne
    | cons row rows =>
      cases rows with
      | nil =>
        refine .cons (cons_ne_nil _ _) (isChain_singleton _) (fun x hx y hy => ?_) h
        obtain rfl := Option.some.inj hx; exact hapart row rfl y hy
      | cons next rows =>
        obtain ⟨hon, hrest⟩ := isChain_cons_cons.1 hchain
        exact .cons (cons_ne_nil _ _) (isChain_cons_cons.2 ⟨hon, hrest⟩) hapart h

theorem text_freshRows :
    ∀ line ∈ (freshRows cols nextId count style).map (fun r => lineOf [r]), line.2 = [] := by
  intro line hline
  obtain ⟨r, hr, rfl⟩ := mem_map.1 hline
  obtain ⟨i, -, rfl⟩ := mem_map.1 hr
  have htext : lineText ([] ++ _) = lineText [] :=
    lineText_append_blanks (@blank_of_mem_replicate cols style)
  show lineText (rowCells [TerminalRow.new cols _ style]) = []
  simpa [rowCells, TerminalRow.new, lineText] using htext

theorem trimHistory_eq (scrollback cols : ℕ) : ∀ rows : List TerminalRow,
    ∃ k ≤ rows.length, TerminalScreen.trimHistory scrollback cols rows = rows.drop k ∧
      (k ≠ 0 → scrollback < (rows.drop k).length + 1 ∨
        maxTerminalHistoryCells < ((rows.drop k).length + 1) * cols)
  | [] => ⟨0, le_rfl, rfl, fun h => absurd rfl h⟩
  | row :: rows => by
    unfold TerminalScreen.trimHistory
    split_ifs with hover
    · obtain ⟨k, hk, heq, hfull⟩ := trimHistory_eq scrollback cols rows
      refine ⟨k + 1, Nat.succ_le_succ hk, heq, fun _ => ?_⟩
      by_cases hzero : k = 0
      · subst hzero; exact hover
      · exact hfull hzero
    · exact ⟨0, Nat.zero_le _, rfl, fun h => absurd rfl h⟩

theorem logicalLines_from {cols c : ℕ} {G₁ G₂ : List (List TerminalRow)} {g : List TerminalRow}
    (hruns : Runs goesOn (G₁ ++ g :: G₂)) (hlen : ∀ r ∈ g, HasLength cols r.cells)
    (ht : t < g.length) (hc : c ≤ cols) :
    logicalLines (fromColumn c ((G₁ ++ g :: G₂).flatten.drop (G₁.flatten.length + t))) =
      (chainId g, lineText ((rowCells g).drop (t * cols + c))) :: G₂.map lineOf := by
  have hg : g.drop t ≠ [] := by simpa using ht
  have hrest : (G₁ ++ g :: G₂).flatten.drop (G₁.flatten.length + t) =
      (g.drop t :: G₂).flatten := by
    rw [flatten_append, flatten_cons, ← drop_drop, drop_left,
      drop_append_of_le_length ht.le, flatten_cons]
  have hchain : g.IsChain fun x y => goesOn x y := by
    cases hruns.right with
    | cons _ hchain _ _ => exact hchain
  have hid : chainId (g.drop t) = chainId g := by
    rw [chainId, head?_drop, getElem?_eq_getElem ht]
    exact chainId_of_mem hchain _ (getElem_mem ht)
  rw [hrest, fromColumn_flatten hg, logicalLines, chains,
    (Runs.fromColumn (c := c) (hruns.right.drop_cons ht)).splitBy, map_cons, lineOf,
    chainId_fromColumn, hid,
    rowCells_fromColumn (fun r hr => hlen r (mem_of_mem_drop hr)) hc, rowCells_drop hlen,
    drop_drop]

end

namespace TerminalScreen

section
variable {M : TextMetrics} {s s' : TerminalScreen} {size : CellSize} {cursor : CursorPlace}
  {before after cb ca : List (List TerminalRow)} {own co all : List TerminalRow} {count : ℕ}

/-- The main screen's rows and what they are cut to, around the cursor's line. -/
structure Recut (s : TerminalScreen) (size : CellSize) (cursor : CursorPlace)
    (before : List (List TerminalRow)) (own : List TerminalRow) (after : List (List TerminalRow))
    (cb : List (List TerminalRow)) (co : List TerminalRow) (ca : List (List TerminalRow)) :
    Prop where
  chains : chains s.mainRows = before ++ own :: after
  low : before.flatten.length ≤ s.cursorIndex
  high : s.cursorIndex < before.flatten.length + own.length
  before : List.Forall₂ (CutOf size.cols (blank s.style)) (before.map (joinedLine s.size.cols cursor))
    cb
  own : CutOf size.cols (blank s.style) (joinedLine s.size.cols cursor own) co
  after : List.Forall₂ (CutOf size.cols (blank s.style)) (after.map (joinedLine s.size.cols cursor))
    ca

/-- The cursor's row, in the main screen and in its chain. -/
structure OnRow (s : TerminalScreen) (cursor : CursorPlace) (own : List TerminalRow) (t : ℕ)
    (row : TerminalRow) : Prop where
  onMain : s.main.rows[s.cursor.row]? = some row
  inOwn : own[t]? = some row
  id : row.logicalLineId = cursor.id
  offset : row.cellOffset + s.cursor.col = cursor.offset
  base : row.cellOffset = own.head?.elim 0 (·.cellOffset) + t * s.size.cols

theorem chain_of_mem_chains {g : List TerminalRow} (h : g ∈ Pmacs.chains rows) :
    (g.IsChain fun x y => goesOn x y) ∧ g ≠ [] ∧ ∀ r ∈ g, r ∈ rows :=
  ⟨isChain_of_mem_splitBy h, ne_nil_of_mem_splitBy h,
    fun _ hr => flatten_chains rows ▸ mem_flatten_of_mem h hr⟩

theorem cursorPlace_eq (h : Geometry s) (hmain : s.altActive = false) :
    ∃ row, s.main.rows[s.cursor.row]? = some row ∧
      s.cursorPlace = some ⟨row.logicalLineId, row.cellOffset + s.cursor.col⟩ := by
  have hrow := h.row
  have hlt : s.cursor.row < s.main.rows.length := by rw [h.mainLength]; exact hrow
  refine ⟨s.main.rows[s.cursor.row], getElem?_eq_getElem hlt, ?_⟩
  have hcursor : s.mainCursor = s.cursor := by rw [mainCursor, hmain]; rfl
  rw [cursorPlace, hcursor, min_eq_left (by omega), getElem?_eq_getElem hlt]
  rfl

/-- The cursor's row is as many rows into its chain as it is behind those before. -/
theorem onRow_of_chains (hrows : Contiguous s.size.cols s.mainRows)
    (hchains : chains s.mainRows = before ++ own :: after)
    (hlow : before.flatten.length ≤ s.cursorIndex)
    (hhigh : s.cursorIndex < before.flatten.length + own.length)
    (hrow : s.main.rows[s.cursor.row]? = some row) :
    OnRow s ⟨row.logicalLineId, row.cellOffset + s.cursor.col⟩ own
      (s.cursorIndex - before.flatten.length) row := by
  have hflat : s.mainRows = before.flatten ++ (own ++ after.flatten) := by
    rw [← flatten_chains s.mainRows, hchains]; simp
  have hown : own[s.cursorIndex - before.flatten.length]? = some row := by
    have hmain : s.mainRows[s.cursorIndex]? = some row := by
      rw [mainRows, cursorIndex, getElem?_append_right (Nat.le_add_right _ _),
        Nat.add_sub_cancel_left, hrow]
    rwa [hflat, getElem?_append_right hlow, getElem?_append_left (by omega)] at hmain
  have hmem : own ∈ chains s.mainRows := by
    rw [hchains]; exact mem_append_right _ mem_cons_self
  have hcontiguous : Contiguous s.size.cols own := by
    rw [hflat] at hrows; exact hrows.right_of_append.left_of_append
  exact ⟨hrow, hown, rfl, rfl, cellOffset_of_chain (chain_of_mem_chains hmem).1 hcontiguous hown⟩

theorem usedCells_cursor (hcol : s.cursor.col < s.size.cols) (hid : row.logicalLineId = cursor.id)
    (hoffset : row.cellOffset + s.cursor.col = cursor.offset) :
    s.cursor.col < usedCells s.size.cols cursor row := by
  have hin : row.logicalLineId = cursor.id ∧ row.cellOffset ≤ cursor.offset ∧
      cursor.offset < row.cellOffset + s.size.cols := ⟨hid, by omega, by omega⟩
  unfold usedCells
  by_cases hwrapped : row.softWrapped = true
  · rw [if_pos hwrapped]; exact hcol
  · rw [if_neg hwrapped, if_pos hin]; exact lt_max_of_lt_right (by omega)

/-! ### What a resize leaves -/

/-- What a resize leaves of the main screen: the rows `all` cut anew and new ones, the last on
    the screen and the others in the history as far as its budget goes, and the cursor. -/
structure Resized (s' : TerminalScreen) (size : CellSize) (all : List TerminalRow) (p c : ℕ) :
    Prop where
  onMain : s'.altActive = false
  newSize : s'.size = size
  rows : s'.main.rows = all.drop (all.length - size.rows)
  history : s'.main.history = trimHistory s'.scrollbackRows size.cols
    (all.take (all.length - size.rows))
  cursorRow : s'.cursor.row = p - (all.length - size.rows)
  cursorCol : s'.cursor.col = c
  low : all.length - size.rows ≤ p

theorem Resized.mainRows {p c : ℕ} (h : Resized s' size all p c) :
    ∃ k, s'.mainRows = all.drop k ∧ (k ≠ 0 → s'.HistoryFull) ∧
      s'.mainRows.drop s'.cursorIndex = all.drop p := by
  obtain ⟨k, hk, htrim, hfull⟩ := trimHistory_eq s'.scrollbackRows size.cols
    (all.take (all.length - size.rows))
  have hlen : (all.take (all.length - size.rows)).length = all.length - size.rows := by
    rw [length_take]; omega
  have hhistory : s'.main.history = (all.take (all.length - size.rows)).drop k :=
    h.history.trans htrim
  have hrows : s'.mainRows = all.drop k := by
    rw [TerminalScreen.mainRows, hhistory, h.rows, ← drop_append_of_le_length hk,
      take_append_drop]
  refine ⟨k, hrows, fun hne => ?_, ?_⟩
  · have hover := hfull hne
    rwa [← htrim, ← h.history, ← h.newSize] at hover
  have hlow := h.low
  rw [hrows, drop_drop, cursorIndex, hhistory, length_drop, hlen, h.cursorRow]
  congr 1
  omega

theorem OnRow.cell (h : OnRow s cursor own t row) (hg : Geometry s)
    (hchain : own.IsChain fun x y => goesOn x y) (hlen : ∀ r ∈ own, HasLength s.size.cols r.cells) :
    (joinedLine s.size.cols cursor own).base ≤ cursor.offset ∧
      cursor.offset - (joinedLine s.size.cols cursor own).base = t * s.size.cols + s.cursor.col ∧
      ∃ x, row.cells[s.cursor.col]? = some x ∧ (joinedLine s.size.cols cursor own).cells[
        cursor.offset - (joinedLine s.size.cols cursor own).base]? = some x := by
  have hbase := h.base
  have hoffset := h.offset
  have hjoined : (joinedLine s.size.cols cursor own).base = own.head?.elim 0 (·.cellOffset) := rfl
  have hplace : cursor.offset - (joinedLine s.size.cols cursor own).base =
      t * s.size.cols + s.cursor.col := by omega
  have hwidth : s.cursor.col < row.cells.length := by
    rw [hlen row (mem_of_getElem? h.inOwn)]; exact hg.col
  refine ⟨by omega, hplace, row.cells[s.cursor.col], getElem?_eq_getElem hwidth, ?_⟩
  have hcell := getElem?_joined hlen hchain h.inOwn (usedCells_cursor hg.col h.id h.offset)
  rw [hplace, ← getElem?_eq_getElem hwidth]
  exact hcell

theorem Recut.runs (h : Recut s size cursor before own after cb co ca) :
    Runs goesOn (cb ++ co :: (ca ++
      (freshRows size.cols nextId count s.style).map fun r => [r])) := by
  have hcut {line : LogicalLine} {cut : List TerminalRow}
      (h : CutOf size.cols (blank s.style) line cut) : cut ≠ [] ∧
      (cut.IsChain fun x y => goesOn x y) ∧ ∀ r ∈ cut.getLast?, r.softWrapped = false :=
    ⟨h.ne_nil, h.chain, h.ended⟩
  refine runs_of_ended fun g hg => ?_
  rcases mem_append.1 hg with hg | hg
  · obtain ⟨line, -, hline⟩ := exists_of_mem_cuts h.before g hg; exact hcut hline
  rcases mem_cons.1 hg with rfl | hg
  · exact hcut h.own
  rcases mem_append.1 hg with hg | hg
  · obtain ⟨line, -, hline⟩ := exists_of_mem_cuts h.after g hg; exact hcut hline
  obtain ⟨r, hr, rfl⟩ := mem_map.1 hg; obtain ⟨i, -, rfl⟩ := mem_map.1 hr
  refine ⟨cons_ne_nil _ _, isChain_singleton _, fun r hr => ?_⟩
  obtain rfl := Option.some.inj hr; rfl

theorem flatten_singletons : (rows.map fun r => [r]).flatten = rows := by
  induction rows with
  | nil => rfl
  | cons r rows ih => rw [map_cons, flatten_cons, ih]; rfl

/-- **What is cut has the lines that were there.** -/
theorem Recut.lines (h : Recut s size cursor before own after cb co ca) (hg : Geometry s) :
    cb.map lineOf = before.map lineOf ∧ lineOf co = lineOf own ∧
      ca.map lineOf = after.map lineOf := by
  have hmem {chain : List TerminalRow} (hchain : chain ∈ before ++ own :: after) :
      (chain.IsChain fun x y => goesOn x y) ∧ ∀ r ∈ chain, HasLength s.size.cols r.cells := by
    rw [← h.chains] at hchain; obtain ⟨hon, -, hrows⟩ := chain_of_mem_chains hchain
    exact ⟨hon, fun r hr => hg.hasLength_mainRows r (hrows r hr)⟩
  have hown : [co].map lineOf = [own].map lineOf := map_lineOf_cuts (.cons h.own .nil)
    fun chain hchain =>
      hmem (mem_append_right _ (mem_singleton.1 hchain ▸ mem_cons_self))
  exact ⟨map_lineOf_cuts h.before fun chain hchain => hmem (mem_append_left _ hchain),
    (cons.inj hown).1,
    map_lineOf_cuts h.after fun chain hchain =>
      hmem (mem_append_right _ (mem_cons_of_mem _ hchain))⟩

theorem glyph_of_cut {line : LogicalLine} {x : Cell} {c : ℕ} {r : TerminalRow}
    (h : CutOf size.cols (blank s.style) line co) (hr : co[q]? = some r)
    (hc : c < size.cols) (hn : q * size.cols + c = n) (hx : line.cells[n]? = some x) :
    r.cells[c]?.map (·.glyph) = some x.glyph := by
  obtain ⟨k, hfaces⟩ := h.faces
  have hface := congrArg (fun faces => faces[n]?.map Prod.fst) hfaces
  rwa [getElem?_map, getElem?_map,
    List.getElem?_append_left (List.getElem?_eq_some_iff.1 hx).1, hx, ← hn,
    getElem?_rowCells h.width hr hc, Option.map_map, Option.map_some] at hface

/-- **The lines are kept**: those of the rows that are cut, and the cursor's place in them. -/
theorem linesKept_of_recut {r : TerminalRow} (hg : Geometry s) (hmain : s.altActive = false)
    (hcols : 0 < size.cols) (hcut : Recut s size cursor before own after cb co ca)
    (hrow : OnRow s cursor own (s.cursorIndex - before.flatten.length) row)
    (hplace : s.cursorPlace = some cursor)
    (hall : all = (cb ++ co :: ca).flatten ++ freshRows size.cols nextId count s.style)
    (hr : co[q]? = some r)
    (hoffset : r.cellOffset = (joinedLine s.size.cols cursor own).base + q * size.cols)
    (hq : q = (cursor.offset - (joinedLine s.size.cols cursor own).base) / size.cols)
    (hafter : Resized s' size all (cb.flatten.length + q) (cursor.offset - r.cellOffset)) :
    LinesKept s s' := by
  obtain ⟨fresh, hfresh⟩ : ∃ fresh, fresh =
    (freshRows size.cols nextId count s.style).map fun r => [r] := ⟨_, rfl⟩
  have hruns : Runs goesOn (cb ++ co :: (ca ++ fresh)) := hfresh ▸ hcut.runs
  have hflat : all = (cb ++ co :: (ca ++ fresh)).flatten := by
    rw [hall, hfresh]; simp [flatten_singletons]
  have hmem : own ∈ chains s.mainRows := by
    rw [hcut.chains]; exact mem_append_right _ mem_cons_self
  obtain ⟨hchain, -, hownRows⟩ := chain_of_mem_chains hmem
  have hlen : ∀ r ∈ own, HasLength s.size.cols r.cells := fun r hr =>
    hg.hasLength_mainRows r (hownRows r hr)
  obtain ⟨hbase, hn, x, hx, hjoined⟩ := hrow.cell hg hchain hlen
  have hmod : q * size.cols ≤ cursor.offset - (joinedLine s.size.cols cursor own).base ∧
      cursor.offset - (joinedLine s.size.cols cursor own).base < q * size.cols + size.cols :=
    hq ▸ ⟨Nat.div_mul_le_self _ _, Nat.lt_div_mul_add hcols⟩
  have hcol : cursor.offset - r.cellOffset < size.cols := by omega
  have hnew : q * size.cols + (cursor.offset - r.cellOffset) =
      cursor.offset - (joinedLine s.size.cols cursor own).base := by omega
  obtain ⟨hlinesBefore, hlineOwn, hlinesAfter⟩ := hcut.lines hg
  obtain ⟨k, hrows, hfull, hdrop⟩ := hafter.mainRows
  have hcursorRow : s'.main.rows[s'.cursor.row]? = some r := by
    have hlow := hafter.low
    rw [hafter.rows, hafter.cursorRow, getElem?_drop, Nat.add_sub_cancel' hlow, hall,
      flatten_append, flatten_cons, append_assoc,
      getElem?_append_right (Nat.le_add_right _ _), Nat.add_sub_cancel_left,
      List.append_assoc, List.getElem?_append_left (List.getElem?_eq_some_iff.1 hr).1, hr]
  refine { lines := ⟨fresh.map lineOf, ?_, ?_, ?_⟩, place := ?_, glyph := ?_ }
  · rw [hfresh, map_map]; exact text_freshRows
  · have hG : (cb ++ co :: (ca ++ fresh)).map lineOf =
        logicalLines s.mainRows ++ fresh.map lineOf := by
      rw [logicalLines, hcut.chains]; simp [hlinesBefore, hlineOwn, hlinesAfter]
    have hleft : logicalLines s'.mainRows =
        (dropRuns k (cb ++ co :: (ca ++ fresh))).map lineOf := by
      rw [hrows, hflat, logicalLines, chains, hruns.splitBy_drop]
    by_cases hzero : k = 0
    · refine .inl ?_
      rw [hrows, hzero, drop_zero, hflat, logicalLines, chains, hruns.splitBy, hG]
    · refine .inr ⟨hfull hzero, ?_⟩; rw [hleft, ← hG]; exact frontCut_dropRuns hruns k
  · have hold : s.mainRows.drop s.cursorIndex = (before ++ own :: after).flatten.drop
        (before.flatten.length + (s.cursorIndex - before.flatten.length)) := by
      rw [← hcut.chains, flatten_chains, Nat.add_sub_cancel' hcut.low]
    have hownRuns : Runs goesOn (before ++ own :: after) := hcut.chains ▸ runs_chains
    have hlow := hcut.low; have hhigh := hcut.high
    rw [linesFromCursor, linesFromCursor, hafter.cursorCol, hdrop, hflat,
      logicalLines_from hruns hcut.own.width (List.getElem?_eq_some_iff.1 hr).1 hcol.le, hold,
      logicalLines_from hownRuns hlen (by omega) hg.col.le, hnew, ← hn,
      hcut.own.text hchain hlen rfl (List.getElem?_eq_some_iff.1 hjoined).1.le,
      hcut.own.chainId, map_append, hlinesAfter]
    rfl
  · have hlt := (List.getElem?_eq_some_iff.1 hcursorRow).1
    have hcursor : s'.mainCursor = s'.cursor := by rw [mainCursor, hafter.onMain]; rfl
    have hrid : r.logicalLineId = cursor.id := (hcut.own.id r (mem_of_getElem? hr)).trans
        ((chainId_of_mem hchain row (mem_of_getElem? hrow.inOwn)).symm.trans hrow.id)
    rw [hplace, cursorPlace, hcursor, min_eq_left (by omega), hcursorRow]
    show some (CursorPlace.mk r.logicalLineId (r.cellOffset + s'.cursor.col)) = _
    rw [hafter.cursorCol, hrid, show r.cellOffset + (cursor.offset - r.cellOffset) = cursor.offset by
      omega]
  have hactive' : s'.active.rows = s'.main.rows := by rw [active, hafter.onMain]; rfl
  have hactive : s.active.rows = s.main.rows := by rw [active, hmain]; rfl
  rw [cellAt, cellAt, hactive, hactive', hcursorRow, hrow.onMain, hafter.cursorCol,
    Option.bind_eq_bind, Option.bind_some, Option.bind_some, hx,
    glyph_of_cut hcut.own hr hcol hnew hjoined]
  rfl

/-! ### What a resize computes -/

theorem foldl_mapLine_own {before after : List LogicalLine} {own : LogicalLine} {mapped : ℕ}
    (hid : own.id = cursor.id) (hbase : own.base ≤ cursor.offset)
    (hin : cursor.offset - own.base < own.cells.length)
    (hlater : ∀ line ∈ after, line.id = cursor.id → line.cells ≠ [] → line.base ≤ cursor.offset) :
    (before ++ own :: after).foldl (fun mapped line => mapLine cursor line mapped) mapped =
      cursor.offset := by
  have hown : ∀ m, mapLine cursor own m = cursor.offset := by
    intro m; rw [mapLine, if_pos ⟨hid, hin⟩]; omega
  rw [foldl_append, foldl_cons, hown, foldl_mapLine_self hlater]

/-- **The rows that a reflowable screen is cut to.** -/
theorem reflowedRows_cut (hg : Geometry s) (hcols : 2 ≤ size.cols) (hre : Reflowable M s size)
    (hplace : s.cursorPlace = some cursor) (hchains : chains s.mainRows = before ++ own :: after)
    (hlow : before.flatten.length ≤ s.cursorIndex)
    (hhigh : s.cursorIndex < before.flatten.length + own.length) (hrow : OnRow s cursor own t row) :
    ∃ cb co ca, Recut s size cursor before own after cb co ca ∧
      s.reflowedRows M size = some ((cb ++ co :: ca).flatten, cursor.offset) := by
  have hmem {chain : List TerminalRow} (hchain : chain ∈ chains s.mainRows) :
      (chain.IsChain fun x y => goesOn x y) ∧ (∀ r ∈ chain, HasLength s.size.cols r.cells) ∧
        ∀ r ∈ chain, Paired M r.cells := by
    obtain ⟨hon, -, hrows⟩ := chain_of_mem_chains hchain
    exact ⟨hon, fun r hr => hg.hasLength_mainRows r (hrows r hr), fun r hr =>
      hre.paired r (hrows r hr)⟩
  have hown : own ∈ chains s.mainRows := by
    rw [hchains]; exact mem_append_right _ mem_cons_self
  obtain ⟨hchain, hlen, -⟩ := hmem hown
  obtain ⟨hbase, -, x, -, hjoined⟩ := hrow.cell hg hchain hlen
  have hid : chainId own = cursor.id :=
    (chainId_of_mem hchain row (mem_of_getElem? hrow.inOwn)).symm.trans hrow.id
  have hlines : ∀ line ∈ (chains s.mainRows).map (joinedLine s.size.cols cursor),
      Paired M line.cells ∧ NoStraddle M size.cols line.cells := by
    intro line hline; obtain ⟨chain, hmemChain, rfl⟩ := mem_map.1 hline
    obtain ⟨hon, hwidth, hpaired⟩ := hmem hmemChain
    refine ⟨paired_joined hwidth hpaired, fun i hwide => ?_⟩
    obtain ⟨blanks, -, hcells⟩ := @rowCells_eq_joined s.size.cols cursor chain hwidth hon
    refine hre.straddle chain hmemChain i ?_
    have hi : i < (joinedLine s.size.cols cursor chain).cells.length := by
      rw [wideAt, Option.any_eq_true] at hwide; obtain ⟨y, hy, -⟩ := hwide
      exact (List.getElem?_eq_some_iff.1 hy).1
    rw [hcells, wideAt_append, if_pos hi]; exact hwide
  obtain ⟨cuts, hcuts, hfold⟩ := @reflowLines_cut M size.cols hcols s.style cursor _
    ([], cursor.offset) hlines
  rw [hchains, map_append, map_cons] at hcuts
  obtain ⟨cb, co, ca, rfl, hcb, hco, hca⟩ := forall₂_append_cons hcuts
  have hstays := hre.cursor cursor hplace before own after hchains hlow hhigh
  refine ⟨cb, co, ca, ⟨hchains, hlow, hhigh, hcb, hco, hca⟩, ?_⟩
  have hjoin : joinRows s.size.cols (blank s.style) cursor (s.main.history ++ s.main.rows) =
      some ((chains s.mainRows).map (joinedLine s.size.cols cursor)) :=
    joinRows_eq hg.hasLength_mainRows hre.contiguous
  have hmapped := @foldl_mapLine_own cursor (before.map (joinedLine s.size.cols cursor))
    (after.map (joinedLine s.size.cols cursor)) _ cursor.offset hid hbase
    (List.getElem?_eq_some_iff.1 hjoined).1 fun line hline => by
      obtain ⟨chain, hmemChain, rfl⟩ := mem_map.1 hline; exact hstays.later chain hmemChain
  rw [hchains, map_append, map_cons] at hfold hjoin
  rw [hmapped] at hfold
  rw [reflowedRows, hplace, Option.bind_eq_bind, Option.bind_some, hjoin]
  exact hfold

theorem reflowMain_eq {mapped : ℕ} {place : Cursor}
    (hplace : s.cursorPlace = some cursor) (hrows : s.reflowedRows M size = some (rows, mapped))
    (hmain : s.altActive = false)
    (hall : all = rows ++ freshRows size.cols s.nextLineId (size.rows - rows.length) s.style)
    (hfind : findCursor size.cols ⟨cursor.id, mapped⟩ (all.drop (all.length - size.rows)) =
      some place) :
    s.reflowMain M size = some { s with
      main := ⟨all.drop (all.length - size.rows), all.take (all.length - size.rows)⟩
      nextLineId := min (s.nextLineId + (size.rows - rows.length)) u64Max
      cursor := place } := by
  unfold reflowMain
  simp only [hplace, hrows, Option.bind_eq_bind, Option.bind_some, splitRows]
  rw [← hall, hfind]
  simp [hmain]

theorem resizeTo_of_reflow {t : TerminalScreen}
    (h : ({ s with lastGrapheme := none } : TerminalScreen).reflowMain M size = some t) :
    ∃ s', s.resizeTo M size = some s' ∧ s'.altActive = t.altActive ∧ s'.size = size ∧
      s'.main.rows = t.main.rows ∧
      s'.main.history = trimHistory s'.scrollbackRows size.cols t.main.history ∧
      s'.cursor = clampCursor t.cursor size := by
  rw [resizeTo, h]
  exact ⟨_, rfl, rfl, rfl, rfl, rfl, rfl⟩

/-- **What a resize leaves of a reflowable screen.** -/
theorem resizeTo_resized (hg : Geometry s) (hmain : s.altActive = false) (hsize : validSize size)
    (hcols : 2 ≤ size.cols) (hre : Reflowable M s size) :
    ∃ s', s.resizeTo M size = some s' ∧ s'.altActive = false ∧ LinesKept s s' := by
  obtain ⟨row, hrow, hplace⟩ := cursorPlace_eq hg hmain
  have hlt : s.cursorIndex < (chains s.mainRows).flatten.length := by
    rw [flatten_chains, TerminalScreen.mainRows, cursorIndex, length_append]
    have := (List.getElem?_eq_some_iff.1 hrow).1; omega
  obtain ⟨before, own, after, hchains, hlow, hhigh⟩ := exists_block hlt
  have honRow := onRow_of_chains hre.contiguous hchains hlow hhigh hrow
  obtain ⟨cursor, hcursor⟩ : ∃ cursor : CursorPlace,
    cursor = ⟨row.logicalLineId, row.cellOffset + s.cursor.col⟩ := ⟨_, rfl⟩
  rw [← hcursor] at honRow hplace
  obtain ⟨cb, co, ca, hcut, hreflowed⟩ := reflowedRows_cut hg hcols hre hplace hchains hlow hhigh
    honRow
  have hstays := hre.cursor cursor hplace before own after hchains hlow hhigh
  have hown : own ∈ chains s.mainRows := by
    rw [hchains]; exact mem_append_right _ mem_cons_self
  obtain ⟨hchain, -, hownRows⟩ := chain_of_mem_chains hown
  obtain ⟨hbase, -, x, -, hjoined⟩ := honRow.cell hg hchain fun r hr =>
    hg.hasLength_mainRows r (hownRows r hr)
  obtain ⟨fresh, hfresh⟩ : ∃ fresh, fresh = freshRows size.cols s.nextLineId
    (size.rows - (cb ++ co :: ca).flatten.length) s.style := ⟨_, rfl⟩
  obtain ⟨all, hall⟩ : ∃ all, all = (cb ++ co :: ca).flatten ++ fresh := ⟨_, rfl⟩
  obtain ⟨q, hq⟩ : ∃ q, q = (cursor.offset - (joinedLine s.size.cols cursor own).base) /
    size.cols := ⟨_, rfl⟩
  have hid : chainId own = cursor.id :=
    (chainId_of_mem hchain row (mem_of_getElem? honRow.inOwn)).symm.trans honRow.id
  have hcolsPos : 0 < size.cols := by omega
  obtain ⟨r, hr, hget, hoffset, hsplit, hfind⟩ := findCursor_cuts hcolsPos hstays
    hcut.before hcut.own hcut.after hid hbase (List.getElem?_eq_some_iff.1 hjoined).1
    (show fresh.length = _ by rw [hfresh, freshRows, length_map, length_range]) hall hq
  have hmod : q * size.cols ≤ cursor.offset - (joinedLine s.size.cols cursor own).base ∧
      cursor.offset - (joinedLine s.size.cols cursor own).base < q * size.cols + size.cols :=
    hq ▸ ⟨Nat.div_mul_le_self _ _, Nat.lt_div_mul_add hcolsPos⟩
  have hlenAll : cb.flatten.length + q < all.length := (List.getElem?_eq_some_iff.1 hget).1
  have hmainReflow := reflowMain_eq (s := { s with lastGrapheme := none }) hplace hreflowed hmain
    (hfresh ▸ hall) hfind
  obtain ⟨s', hresize, honMain, hnewSize, hrows, hhistory, hcursor'⟩ :=
    resizeTo_of_reflow hmainReflow
  refine ⟨s', hresize, honMain.trans hmain, ?_⟩
  refine linesKept_of_recut hg hmain hcolsPos hcut honRow hplace (hfresh ▸ hall) hr hoffset hq ?_
  have hrowsPos := hsize.1
  refine { onMain := honMain.trans hmain, newSize := hnewSize, rows := hrows,
           history := hhistory, cursorRow := ?_, cursorCol := ?_, low := hsplit }
  · rw [hcursor']; show min (cb.flatten.length + q - (all.length - size.rows)) (size.rows - 1) = _
    omega
  rw [hcursor']; show min (cursor.offset - r.cellOffset) (size.cols - 1) = _
  omega

/-! ## Resizing -/

theorem LinesKept.refl (s : TerminalScreen) : LinesKept s s where
  lines := ⟨[], nofun, .inl (append_nil _).symm, (append_nil _).symm⟩
  place := rfl
  glyph := rfl

theorem LinesKept.exact (h : LinesKept s s') (hroom : ¬s'.HistoryFull) :
    ∃ fresh : List (ℕ × List Cell), (∀ line ∈ fresh, line.2 = []) ∧
      logicalLines s'.mainRows = logicalLines s.mainRows ++ fresh := by
  obtain ⟨fresh, hempty, hlines | ⟨hfull, -⟩, -⟩ := h.lines
  · exact ⟨fresh, hempty, hlines⟩
  · exact absurd hfull hroom

theorem LinesKept.exact_trans {s'' : TerminalScreen} (h : LinesKept s s') (h' : LinesKept s' s'')
    (hroom : ¬s'.HistoryFull) (hroom' : ¬s''.HistoryFull) :
    ∃ fresh : List (ℕ × List Cell), (∀ line ∈ fresh, line.2 = []) ∧
      logicalLines s''.mainRows = logicalLines s.mainRows ++ fresh := by
  obtain ⟨fresh, hempty, hlines⟩ := h.exact hroom
  obtain ⟨fresh', hempty', hlines'⟩ := h'.exact hroom'
  refine ⟨fresh ++ fresh', fun line hline => ?_, by rw [hlines', hlines, append_assoc]⟩
  rcases mem_append.1 hline with hline | hline
  · exact hempty line hline
  · exact hempty' line hline

theorem resize_linesKept (hg : Geometry s) (hmain : s.altActive = false) (hsize : validSize size)
    (hcols : 2 ≤ size.cols) (hre : size = s.size ∨ Reflowable M s size) :
    ∃ s', s.step M (.resize size) = some s' ∧ s'.altActive = false ∧ LinesKept s s' := by
  rw [step_resize]
  by_cases hsame : size = s.size
  · rw [if_neg fun h => h.2 hsame]; exact ⟨s, rfl, hmain, .refl s⟩
  · rw [if_pos ⟨hsize, hsame⟩]; exact resizeTo_resized hg hmain hsize hcols (hre.resolve_left hsame)

/-- **Resizing keeps the lines** of a reflowable screen, to its own size those of any, and the
    cursor's place in them; there and back, when the history has room, all of them are there
    again. -/
theorem step_keepsLines (h : Reachable M s) (hmain : s.altActive = false)
    (hsize : validSize size) (hcols : 2 ≤ size.cols) (hre : size = s.size ∨ Reflowable M s size) :
    ∃ s', s.step M (.resize size) = some s' ∧ LinesKept s s' ∧
      ∀ back, validSize back → 2 ≤ back.cols → back = s'.size ∨ Reflowable M s' back →
        ∃ s'', s'.step M (.resize back) = some s'' ∧ LinesKept s' s'' ∧
          s''.cursorPlace = s.cursorPlace ∧ (¬s'.HistoryFull → ¬s''.HistoryFull →
            ∃ fresh : List (ℕ × List Cell), (∀ line ∈ fresh, line.2 = []) ∧
              logicalLines s''.mainRows = logicalLines s.mainRows ++ fresh) := by
  obtain ⟨s', hstep, hmain', hkept⟩ := resize_linesKept h.geometry hmain hsize hcols hre
  refine ⟨s', hstep, hkept, fun back hback hbackCols hre' => ?_⟩
  have hg' := (h.step trivial hstep).geometry
  obtain ⟨s'', hstep', -, hkept'⟩ := resize_linesKept hg' hmain' hback hbackCols hre'
  exact ⟨s'', hstep', hkept', hkept'.place.trans hkept.place, hkept.exact_trans hkept'⟩

end

/-- A line that goes on in the second row, with a wide character in the first. -/
def wrappedInputs : List ScreenInput := [.event (.text ['a', '中', 'b', 'c'])]

/-- In rows of three columns, and back in rows of four. -/
theorem step_keepsLines_wrapped : ∃ s s' s'',
    wrappedInputs.foldlM (step heartMetrics) (new ⟨2, 4⟩ 5) = some s ∧
      s.step heartMetrics (.resize ⟨2, 3⟩) = some s' ∧ LinesKept s s' ∧
      s'.step heartMetrics (.resize ⟨2, 4⟩) = some s'' ∧ LinesKept s' s'' := by
  have hrun : ((wrappedInputs.foldlM (step heartMetrics) (new ⟨2, 4⟩ 5)).bind fun s =>
      (s.step heartMetrics (.resize ⟨2, 3⟩)).map fun s' =>
        (s.altActive, decide (Reflowable heartMetrics s ⟨2, 3⟩),
          decide (Reflowable heartMetrics s' ⟨2, 4⟩))) = some (false, true, true) := by
    decide +kernel
  obtain ⟨s, hs, hrun⟩ := Option.bind_eq_some_iff.1 hrun
  obtain ⟨s', hs', hvalues⟩ := Option.map_eq_some_iff.1 hrun
  simp only [Prod.mk.injEq, decide_eq_true_eq] at hvalues
  obtain ⟨hmain, hre, hre'⟩ := hvalues
  have hnew : Reachable heartMetrics (new ⟨2, 4⟩ 5) := .new (by decide) 5
  obtain ⟨t, ht, hkept, hback⟩ := step_keepsLines (hnew.run hs) hmain (by decide) (by decide)
    (.inr hre)
  obtain rfl : s' = t := Option.some.inj (hs'.symm.trans ht)
  obtain ⟨s'', hs'', hkept', -⟩ := hback ⟨2, 4⟩ (by decide) (by decide) (.inr hre')
  exact ⟨s, s', s'', hs, hs', hkept, hs'', hkept'⟩

/-- A wide character at the end of the row. -/
def wideEndInputs : List ScreenInput := [.event (.text ['a', 'b', '中'])]

/-- In rows of three columns the wide character begins a row of its own, and the column left
    before it becomes part of the line. -/
theorem step_not_keepsLines :
    ¬∀ (s : TerminalScreen) (size : CellSize), Reachable heartMetrics s → s.altActive = false →
      validSize size → 2 ≤ size.cols →
      ∃ s', s.step heartMetrics (.resize size) = some s' ∧ LinesKept s s' := by
  intro hall
  have hrun : ((wideEndInputs.foldlM (step heartMetrics) (new ⟨4, 4⟩ 100)).bind fun s =>
      (s.step heartMetrics (.resize ⟨4, 3⟩)).map fun s' =>
        (s.altActive, (logicalLines s.mainRows).head?.map (·.2.length),
          (logicalLines s'.mainRows).head?.map (·.2.length), decide (s'.HistoryFull))) =
      some (false, some 3, some 4, false) := by decide +kernel
  obtain ⟨s, hs, hrun⟩ := Option.bind_eq_some_iff.1 hrun
  obtain ⟨s', hs', hvalues⟩ := Option.map_eq_some_iff.1 hrun
  simp only [Prod.mk.injEq, decide_eq_false_iff_not] at hvalues
  obtain ⟨hmain, hbefore, hafter, hfull⟩ := hvalues
  have hnew : Reachable heartMetrics (new ⟨4, 4⟩ 100) := .new (by decide) 100
  obtain ⟨t, ht, hkept⟩ := hall s ⟨4, 3⟩ (hnew.run hs) hmain (by decide) (by decide)
  obtain rfl : s' = t := Option.some.inj (hs'.symm.trans ht)
  obtain ⟨fresh, -, hlines | ⟨hover, -⟩, -⟩ := hkept.lines
  · rw [hlines, head?_append_of_ne_nil _ (fun h => by rw [h] at hbefore; cases hbefore),
      hbefore] at hafter
    cases hafter
  · exact hfull hover

end TerminalScreen

end Pmacs
