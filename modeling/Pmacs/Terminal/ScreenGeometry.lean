/-
  The shape of the screen and where its steps panic (screen.rs).

  * `Geometry`: both grids are as large as the screen says, and what points into them does.
  * `*_safe`: a step of a screen of that shape succeeds and keeps it.
-/
import Pmacs.Lib.Fallible
import Pmacs.Terminal.ScreenFrames

namespace Pmacs

open Lib List Option

/-! ## Rows -/

variable {f : List Cell → Option (List Cell)}

section
variable {M : TextMetrics} {style fill : Style} {cols col start stop n width oldWidth : ℕ}
  {x : Cell} {cells : List Cell} {ch : Char} {cluster : List Char}

abbrev HasLength (n : ℕ) (cells : List Cell) : Prop := cells.length = n

variable (h : HasLength cols cells)
include h

theorem setCell_safe (hcol : col < cols) : Yields (setCell col x cells) (HasLength cols) := by
  rw [setCell_eq (by omega)]
  exact yields_some (by simpa [HasLength] using h)

theorem clearWideAt_safe : Yields (clearWideAt style cols col cells) (HasLength cols) := by
  by_cases hcol : cols ≤ col
  · rw [clearWideAt, if_pos hcol]; exact yields_some h
  have hlt : col < cells.length := by omega
  suffices hsome : ∃ cells', clearWideAt style cols col cells = some cells' by
    obtain ⟨cells', hcells⟩ := hsome
    exact ⟨cells', hcells, by rw [HasLength, length_clearWideAt hcells, h]⟩
  rw [clearWideAt, if_neg hcol]
  simp only [wideLead, getElem?_eq_getElem hlt, bind, pure, bind_some]
  rw [setCell_eq (by split_ifs <;> omega)]
  split_ifs with hlead hcont hcont
  all_goals try exact ⟨_, rfl⟩
  · refine ⟨_, setCell_eq ?_⟩; rw [length_set]
    by_contra hle
    rw [getElem?_eq_none (by omega)] at hcont; cases hcont
  refine ⟨_, setCell_eq ?_⟩; rw [length_set]
  by_contra hle
  rw [getElem?_eq_none (by omega)] at hcont; cases hcont

theorem fillCells_safe (hle : start ≤ stop) (hstop : stop ≤ cols) :
    Yields (fillCells start stop x cells) (HasLength cols) := by
  have heq : fillCells start stop x cells = some _ := if_pos ⟨hle, by omega⟩
  exact ⟨_, heq, by rw [HasLength, length_fillCells heq, h]⟩

theorem clearRange_safe (hstop : stop ≤ cols) :
    Yields (clearRange style cols start stop cells) (HasLength cols) := by
  unfold clearRange
  split_ifs with hle
  · exact yields_some h
  exact (clearWideAt_safe h).bind fun a ha => (clearWideAt_safe ha).bind fun b hb =>
    fillCells_safe hb (by omega) hstop

theorem rotated_length (hcol : col ≤ cols) (k : ℕ) :
    HasLength cols ((sanitizeRow M style cells).take col ++
      ((sanitizeRow M style cells).drop col).rotate k) := by
  simp only [HasLength, length_append, length_take, length_rotate, length_drop, length_sanitizeRow]
  omega

theorem insertCells_safe (hn : col + n ≤ cols) :
    Yields (insertCells M style col n cells) (HasLength cols) := by
  have hroom : col + n ≤ (sanitizeRow M style cells).length := by rw [length_sanitizeRow]; omega
  simp only [insertCells, bind, pure]
  rw [if_pos hroom]
  refine (fillCells_safe (rotated_length h (by omega) _) (by omega) hn).bind fun filled hfilled => yields_some ?_
  rw [HasLength, length_sanitizeRow, hfilled]

theorem deleteCells_safe (hn : col + n ≤ cols) :
    Yields (deleteCells M style cols col n cells) (HasLength cols) := by
  have hroom : col + n ≤ (sanitizeRow M style cells).length := by rw [length_sanitizeRow]; omega
  simp only [deleteCells, bind, pure]
  rw [if_pos hroom]
  refine (fillCells_safe (rotated_length h (by omega) n) (by rw [length_sanitizeRow]; omega)
    (by rw [length_sanitizeRow]; omega)).bind fun filled hfilled => yields_some ?_
  rw [HasLength, length_sanitizeRow, hfilled]

theorem whenWide_safe (hf : width = 2 →
    Yields (f cells) (HasLength cols)) : Yields (whenWide width f cells) (HasLength cols) := by
  unfold whenWide
  split_ifs with hwide
  · exact hf hwide
  · exact yields_some h

theorem putCells_safe (hcol : col < cols) (hwide : width = 2 → col + 1 < cols) :
    Yields (putCells style cols col width ch cells) (HasLength cols) :=
  (clearWideAt_safe h).bind fun _ ha =>
    (whenWide_safe ha fun _ => clearWideAt_safe ha).bind fun _ hb =>
      (setCell_safe hb hcol).bind fun _ hc =>
        whenWide_safe hc fun hw => setCell_safe hc (hwide hw)

theorem replaceCells_safe (hcol : col < cols) (hwide : width = 2 → col + 1 < cols) :
    Yields (replaceCells style fill cols col oldWidth width cluster cells) (HasLength cols) := by
  refine (setCell_safe h hcol).bind fun a ha => ?_
  split_ifs with hw hold
  · exact setCell_safe ha (hwide hw)
  · exact setCell_safe ha hold.2
  · exact yields_some ha

end

namespace TerminalScreen

/-- Both grids are as large as the screen says, and what points into them does. -/
structure Geometry (s : TerminalScreen) : Prop where
  size : validSize s.size
  mainLength : s.main.rows.length = s.size.rows
  altLength : s.alt.rows.length = s.size.rows
  mainRows : ∀ r ∈ s.main.rows, HasLength s.size.cols r.cells
  altRows : ∀ r ∈ s.alt.rows, HasLength s.size.cols r.cells
  history : ∀ r ∈ s.main.history, HasLength s.size.cols r.cells
  row : s.cursor.row < s.size.rows
  col : s.cursor.col < s.size.cols
  top : s.scrollTop ≤ s.scrollBottom
  bottom : s.scrollBottom < s.size.rows
  stops : ∀ c ∈ s.tabStops, c < s.size.cols
  last : ∀ row lead, s.lastGrapheme = some (row, lead) → row < s.size.rows ∧ lead < s.size.cols

section
variable {M : TextMetrics} {s s' : TerminalScreen} {row n : ℕ} {continuation : Option (ℕ × ℕ)}

section
variable (h : Geometry s)
include h

theorem Geometry.rows_pos : 0 < s.size.rows := h.size.1

theorem Geometry.cols_pos : 0 < s.size.cols := h.size.2.1

theorem Geometry.activeLength : s.active.rows.length = s.size.rows := by
  unfold active
  split_ifs
  · exact h.altLength
  · exact h.mainLength

theorem Geometry.activeRows : ∀ r ∈ s.active.rows, HasLength s.size.cols r.cells := by
  unfold active
  split_ifs
  · exact h.altRows
  · exact h.mainRows

theorem Geometry.withCursor {c : Cursor} (hrow : c.row < s.size.rows)
    (hcol : c.col < s.size.cols) : Geometry { s with cursor := c } :=
  { h with row := hrow, col := hcol }

end

theorem Geometry.changed (h : Geometry s) : Geometry s.changed := { h with }

theorem Geometry.displayOnlyChanged (h : Geometry s) : Geometry s.displayOnlyChanged := { h with }

theorem Geometry.withNextLineId (h : Geometry s) (id : ℕ) :
    Geometry { s with nextLineId := id } := { h with }

theorem Geometry.setRows (h : Geometry s) {rows : List TerminalRow}
    (hlen : rows.length = s.size.rows) (hrows : ∀ r ∈ rows, HasLength s.size.cols r.cells) :
    Geometry (s.setRows rows) := by
  unfold TerminalScreen.setRows
  split_ifs
  · exact { h with altLength := hlen, altRows := hrows }
  · exact { h with mainLength := hlen, mainRows := hrows }

theorem hasLength_newRow (s : TerminalScreen) : HasLength s.size.cols s.newRow.1.cells := by
  simp [HasLength, newRow, TerminalRow.new]

theorem Geometry.newRow (h : Geometry s) : Geometry s.newRow.2 := h.withNextLineId _

/-! ### Grids -/

theorem modifyRow_safe (h : Geometry s) (hrow : row < s.size.rows) {f : TerminalRow → TerminalRow}
    (hf : ∀ r, (f r).cells.length = r.cells.length) :
    Yields (s.modifyRow row f) fun s' => OnGrid s s' ∧ Geometry s' := by
  have hlt : row < s.active.rows.length := by rw [h.activeLength]; exact hrow
  have hr : s.active.rows[row]? = some s.active.rows[row] := getElem?_eq_getElem hlt
  have heq : s.modifyRow row f =
      some (s.setRows (s.active.rows.set row (f s.active.rows[row]))) := by
    unfold modifyRow; rw [hr]; rfl
  refine ⟨_, heq, onGrid_modifyRow heq, h.setRows ?_ fun r' hr' => ?_⟩
  · rw [length_set, h.activeLength]
  rcases mem_or_eq_of_mem_set hr' with hmem | rfl
  · exact h.activeRows r' hmem
  · rw [HasLength, hf]; exact h.activeRows _ (getElem_mem hlt)

theorem editCells_safe (h : Geometry s) (hrow : row < s.size.rows)
    (hf : ∀ cells, HasLength s.size.cols cells → Yields (f cells) (HasLength s.size.cols)) :
    Yields (s.editCells row f) fun s' => OnGrid s s' ∧ Geometry s' := by
  have hlt : row < s.active.rows.length := by rw [h.activeLength]; exact hrow
  have hr : s.active.rows[row]? = some s.active.rows[row] := getElem?_eq_getElem hlt
  obtain ⟨cells, hcells, hlen⟩ := hf _ (h.activeRows _ (getElem_mem hlt))
  have heq : s.editCells row f =
      some (s.setRows (s.active.rows.set row { s.active.rows[row] with cells := cells })) := by
    unfold editCells; simp [hr, bind, pure, hcells]
  refine ⟨_, heq, onGrid_editCells heq, h.setRows ?_ fun r' hr' => ?_⟩
  · rw [length_set, h.activeLength]
  rcases mem_or_eq_of_mem_set hr' with hmem | rfl
  · exact h.activeRows r' hmem
  · exact hlen

theorem shiftRows_safe (h : Geometry s) {out into : ℕ} (hout : out < s.size.rows)
    (hin : into < s.size.rows) :
    Yields (s.shiftRows out into) fun s' => OnGrid s s' ∧ Geometry s' := by
  have hlen := h.activeLength
  have heq : s.shiftRows out into = some _ := if_pos ⟨hlen ▸ hout, hlen ▸ hin⟩
  have herase : (s.active.rows.eraseIdx out).length = s.size.rows - 1 := by
    rw [length_eraseIdx_of_lt (by omega), hlen]
  refine ⟨_, heq, onGrid_shiftRows heq, h.newRow.setRows ?_ fun r hr => ?_⟩
  · rw [length_insertIdx_of_le_length (by omega), herase]; exact Nat.sub_add_cancel h.rows_pos
  rcases eq_or_mem_of_mem_insertIdx hr with rfl | hmem
  · exact hasLength_newRow s
  · exact h.activeRows r (mem_of_mem_eraseIdx hmem)

theorem times_safe {f : TerminalScreen → Option TerminalScreen} {I : TerminalScreen → Prop}
    (hf : ∀ s, I s → Yields (f s) I) : ∀ {n : ℕ} {s}, I s → Yields (times f n s) I
  | 0, _, hs => yields_some hs
  | _ + 1, s, hs => (hf s hs).bind fun _ ht => times_safe hf ht

theorem times_shiftRows_safe (h : Geometry s) {out into : ℕ} (hout : out < s.size.rows)
    (hin : into < s.size.rows) :
    Yields (times (shiftRows out into) n s) fun s' => OnGrid s s' ∧ Geometry s' := by
  refine times_safe (fun t ht => ?_) ⟨.refl s, h⟩
  obtain ⟨hgrid, hgeo⟩ := ht
  have hsize : t.size = s.size := by obtain ⟨main, alt, nextId, rfl⟩ := hgrid; rfl
  exact (shiftRows_safe hgeo (hsize ▸ hout) (hsize ▸ hin)).mono fun u hu => ⟨hgrid.trans hu.1, hu.2⟩

theorem relabelChain_cells (cols oldId : ℕ) : ∀ (rows : List TerminalRow) (id nextId offset : ℕ),
    (relabelChain cols oldId id nextId offset rows).1.map (·.cells) = rows.map (·.cells)
  | [], _, _, _ => rfl
  | row :: rows, id, nextId, offset => by
    unfold relabelChain
    split_ifs
    · rfl
    · simp [relabelChain_cells cols oldId rows]
    · simp [relabelChain_cells cols oldId rows]

theorem breakChainAfter_cells (h : s.breakChainAfter row = some s') :
    s'.active.rows.map (·.cells) = s.active.rows.map (·.cells) := by
  rcases breakChainAfter_some h with rfl | ⟨r, -, rfl⟩
  · rfl
  · rw [active_setRows, map_append, relabelChain_cells, ← map_append, take_append_drop]

theorem breakChainAfter_safe (h : Geometry s) (hrow : row < s.size.rows) :
    Yields (s.breakChainAfter row) fun s' => OnGrid s s' ∧ Geometry s' := by
  have hlt : row < s.active.rows.length := by rw [h.activeLength]; exact hrow
  have hr : s.active.rows[row]? = some s.active.rows[row] := getElem?_eq_getElem hlt
  suffices hsome : ∃ s', s.breakChainAfter row = some s' by
    obtain ⟨s', heq⟩ := hsome; have hcells := breakChainAfter_cells heq
    refine ⟨s', heq, onGrid_breakChainAfter heq, ?_⟩
    rcases breakChainAfter_some heq with rfl | ⟨r, -, rfl⟩
    · exact h
    rw [active_setRows] at hcells
    refine (h.withNextLineId _).setRows ?_ fun r' hr' => ?_
    · have := congrArg List.length hcells; rw [length_map, length_map] at this
      rw [this, h.activeLength]
    have hmem : r'.cells ∈ s.active.rows.map (·.cells) := hcells ▸ mem_map_of_mem hr'
    obtain ⟨r'', hr'', heq⟩ := mem_map.1 hmem; rw [HasLength, ← heq]
    exact h.activeRows r'' hr''
  unfold breakChainAfter
  simp only [hr, bind, pure, bind_some]
  split_ifs <;> exact ⟨_, rfl⟩

theorem Geometry.keepRow (h : Geometry s) {removed : TerminalRow}
    (hremoved : HasLength s.size.cols removed.cells) : Geometry (s.keepRow removed) := by
  unfold TerminalScreen.keepRow
  split_ifs
  · refine { h with history := fun r hr => ?_ }
    rcases mem_append.1 hr with hr | hr
    · exact h.history r hr
    · rw [mem_singleton.1 hr]; exact hremoved
  · exact h

theorem cells_continueLine (r : TerminalRow) : (continueLine continuation r).cells = r.cells := by
  unfold continueLine
  split <;> rfl

theorem scrollRow_safe (h : Geometry s) :
    Yields (s.scrollRow continuation) fun s' => OnGrid s s' ∧ Geometry s' := by
  have hlen := h.activeLength
  have hbottom : s.scrollBottom < s.active.rows.length := hlen ▸ h.bottom
  have htop : s.scrollTop < s.active.rows.length := lt_of_le_of_lt h.top hbottom
  have hr : s.active.rows[s.scrollTop]? = some s.active.rows[s.scrollTop] :=
    getElem?_eq_getElem htop
  suffices hsome : ∃ s', s.scrollRow continuation = some s' by
    obtain ⟨s', heq⟩ := hsome
    refine ⟨s', heq, onGrid_scrollRow heq, ?_⟩
    obtain ⟨removed, hremoved, -, rfl⟩ := scrollRow_some heq
    have hkeep := h.keepRow (h.activeRows removed (mem_of_getElem? hremoved))
    obtain ⟨main, alt, nextId, hgrid⟩ := onGrid_keepRow removed s
    have hsize : (s.keepRow removed).size = s.size := by rw [hgrid]
    have herase : (s.active.rows.eraseIdx s.scrollTop).length = s.size.rows - 1 := by
      rw [length_eraseIdx_of_lt htop, hlen]
    have hrows := h.rows_pos
    refine hkeep.newRow.setRows ?_ fun r hr => ?_
    · have : (s.keepRow removed).newRow.2.size = s.size := hsize
      rw [this, length_insertIdx_of_le_length (by omega), herase]; omega
    have : (s.keepRow removed).newRow.2.size = s.size := hsize; rw [this]
    rcases eq_or_mem_of_mem_insertIdx hr with rfl | hmem
    · rw [HasLength, cells_continueLine]; exact hasLength_newRow s
    · exact h.activeRows r (mem_of_mem_eraseIdx hmem)
  unfold scrollRow
  simp only [hr, bind, pure, bind_some]
  obtain ⟨main, alt, nextId, hgrid⟩ := onGrid_keepRow s.active.rows[s.scrollTop] s
  have hsame : (s.keepRow s.active.rows[s.scrollTop]).scrollBottom = s.scrollBottom := by rw [hgrid]
  rw [if_pos (by rw [hsame]; exact hbottom)]
  exact ⟨_, rfl⟩

theorem scrollRows_safe : ∀ {n : ℕ} {s : TerminalScreen}, Geometry s →
    Yields (s.scrollRows continuation n) fun s' => OnGrid s s' ∧ Geometry s'
  | 0, s, h => yields_some ⟨.refl s, h⟩
  | _ + 1, _, h => (scrollRow_safe h).bind fun _ ht =>
    (scrollRows_safe ht.2).mono fun _ hu => ⟨ht.1.trans hu.1, hu.2⟩

theorem mem_trimHistory {scrollback cols : ℕ} {r : TerminalRow} :
    ∀ {rows : List TerminalRow}, r ∈ trimHistory scrollback cols rows → r ∈ rows
  | [], h => h
  | row :: rows, h => by
    unfold trimHistory at h
    split_ifs at h
    · exact mem_cons_of_mem _ (mem_trimHistory h)
    · exact h

theorem Geometry.enforceHistoryBudget (h : Geometry s) : Geometry s.enforceHistoryBudget :=
  { h with history := fun r hr => h.history r (mem_trimHistory hr) }

theorem scrollUpInternal_safe (h : Geometry s) :
    Yields (s.scrollUpInternal n continuation) fun s' =>
      OnGrid { s with cursor := { s.cursor with row := s.scrollBottom } } s' ∧ Geometry s' := by
  suffices hsome : Yields (s.scrollUpInternal n continuation) Geometry by
    obtain ⟨s', heq, hgeo⟩ := hsome; exact ⟨s', heq, onGrid_scrollUpInternal heq, hgeo⟩
  unfold scrollUpInternal
  rw [checkedSub_of_le h.top]
  refine (scrollRows_safe h).bind fun t ht => yields_some ?_
  have hmoved : Geometry { t with cursor := { t.cursor with row := t.scrollBottom } } :=
    ht.2.withCursor ht.2.bottom ht.2.col
  exact hmoved.enforceHistoryBudget

theorem unchainRow_safe (h : Geometry s) (hrow : row < s.size.rows) :
    Yields (s.unchainRow row) fun s' => OnGrid s s' ∧ Geometry s' := by
  unfold unchainRow
  split_ifs with hcont
  · refine Yields.bind (modifyRow_safe h (by omega) fun _ => rfl) fun t ht => ?_
    obtain ⟨main, alt, nextId, rfl⟩ := ht.1
    exact (breakChainAfter_safe ht.2 (by dsimp only; omega)).mono fun u hu => ⟨ht.1.trans hu.1, hu.2⟩
  · exact yields_some ⟨.refl s, h⟩

theorem clearRow_safe (h : Geometry s) (hrow : row < s.size.rows) :
    Yields (s.clearRow row) fun s' => OnGrid s s' ∧ Geometry s' := by
  refine (unchainRow_safe h hrow).bind fun t ht => ?_
  obtain ⟨main, alt, nextId, rfl⟩ := ht.1
  refine Yields.bind (modifyRow_safe ht.2 hrow fun r => by simp) fun u hu => ?_
  obtain ⟨main', alt', nextId', rfl⟩ := hu.1
  exact (breakChainAfter_safe hu.2 hrow).mono fun v hv => ⟨(ht.1.trans hu.1).trans hv.1, hv.2⟩

theorem clearRows_safe : ∀ {n start : ℕ} {s : TerminalScreen}, Geometry s →
    start + n ≤ s.size.rows →
    Yields (s.clearRows start n) fun s' => OnGrid s s' ∧ Geometry s'
  | 0, _, s, h, _ => yields_some ⟨.refl s, h⟩
  | n + 1, start, s, h, hn => by
    refine (clearRow_safe h (by omega)).bind fun t ht => ?_; obtain ⟨main, alt, nextId, rfl⟩ := ht.1
    exact (clearRows_safe ht.2 (by dsimp only; omega)).mono fun u hu => ⟨ht.1.trans hu.1, hu.2⟩

/-! ### Events -/

variable (h : Geometry s)
include h

theorem scrollUp_safe : Yields (s.scrollUp n) Geometry := by
  refine (scrollUpInternal_safe h).bind fun t ht => yields_some ?_
  obtain ⟨main, alt, nextId, rfl⟩ := ht.1
  exact Geometry.changed (Geometry.withCursor ht.2 h.row h.col)

theorem scrollDown_safe : Yields (s.scrollDown n) Geometry := by
  unfold scrollDown
  rw [checkedSub_of_le h.top]
  exact (times_shiftRows_safe h h.bottom (h.top.trans_lt h.bottom)).bind
    fun t ht => yields_some ht.2.changed

theorem insertLines_safe : Yields (s.insertLines n) Geometry := by
  unfold insertLines
  split_ifs
  · exact yields_some h
  · exact (times_shiftRows_safe h h.bottom h.row).bind fun t ht => yields_some ht.2.changed

theorem deleteLines_safe : Yields (s.deleteLines n) Geometry := by
  unfold deleteLines
  split_ifs
  · exact yields_some h
  · exact (times_shiftRows_safe h h.row h.bottom).bind fun t ht => yields_some ht.2.changed

theorem lineFeed_safe : Yields s.lineFeed Geometry := by
  have hpending : Geometry { s with cursor := { s.cursor with pendingWrap := false } } :=
    h.withCursor h.row h.col
  refine Yields.bind (modifyRow_safe hpending h.row fun _ => rfl) fun t ht => ?_
  obtain ⟨main, alt, nextId, rfl⟩ := ht.1
  refine Yields.bind (breakChainAfter_safe ht.2 h.row) fun u hu => ?_
  obtain ⟨main', alt', nextId', rfl⟩ := hu.1
  split_ifs with hbottom hlast
  · exact (scrollUpInternal_safe hu.2).bind fun v hv => yields_some hv.2.changed
  · exact yields_some (Geometry.changed (Geometry.withCursor hu.2 hlast h.col))
  · exact yields_some hu.2.changed

theorem reverseIndex_safe : Yields s.reverseIndex Geometry := by
  have hpending : Geometry { s with cursor := { s.cursor with pendingWrap := false } } :=
    h.withCursor h.row h.col
  unfold reverseIndex
  dsimp only
  split_ifs with htop hfirst
  · exact scrollDown_safe hpending
  · have hrow := h.row
    refine yields_some (Geometry.changed (Geometry.withCursor hpending ?_ h.col)); dsimp only; omega
  · exact yields_some hpending

theorem moveVertical_safe {up : Bool} : Yields (s.moveVertical up n) Geometry := by
  have hrow := h.rows_pos
  have hbottom := h.bottom
  have htop := h.top
  unfold moveVertical
  dsimp only
  split_ifs with horigin
  all_goals first | omega | skip
  all_goals
    refine yields_some (Geometry.displayOnlyChanged (h.withCursor ?_ h.col)); dsimp only; omega

variable {mode : EraseMode}

theorem eraseInLine_safe : Yields (s.eraseInLine mode) fun s' => OnGrid s s' ∧ Geometry s' := by
  cases mode with
  | all | saved => exact clearRow_safe h h.row
  | toEnd => exact editCells_safe h h.row fun _ hc => clearRange_safe hc le_rfl
  | toStart => exact editCells_safe h h.row fun _ hc => clearRange_safe hc h.col

theorem eraseLine_safe : Yields (s.eraseLine mode) fun s' => s'.size = s.size ∧ Geometry s' := by
  refine (eraseInLine_safe h).bind fun t ht => yields_some ?_
  obtain ⟨main, alt, nextId, rfl⟩ := ht.1
  exact ⟨rfl, Geometry.changed (Geometry.withCursor ht.2 h.row h.col)⟩

theorem eraseDisplay_safe : Yields (s.eraseDisplay mode) Geometry := by
  have hrow := h.row
  suffices herase : Yields (s.eraseInDisplay mode) Geometry from
    herase.bind fun t ht => yields_some ht.changed
  cases mode with
  | toEnd =>
    refine Yields.bind (eraseLine_safe h) fun t ht => ?_
    exact (clearRows_safe ht.2 (by rw [ht.1]; omega)).mono fun u hu => hu.2
  | toStart =>
    refine Yields.bind (clearRows_safe h (by omega)) fun t ht => ?_
    exact (eraseLine_safe ht.2).mono fun u hu => hu.2
  | all => exact (clearRows_safe h (by omega)).mono fun u hu => hu.2
  | saved =>
    refine yields_some ?_
    split_ifs
    · exact h
    · exact { h with history := fun r hr => nomatch hr }

theorem eraseCharacters_safe : Yields (s.eraseCharacters n) Geometry :=
  (editCells_safe h h.row fun _ hc => clearRange_safe hc (min_le_right _ _)).bind
    fun _ ht => yields_some ht.2.changed

theorem insertCharacters_safe :
    Yields (s.insertCharacters M n) fun s' => s'.size = s.size ∧ s'.cursor.col = s.cursor.col ∧
      Geometry s' := by
  have hcol := h.col
  unfold insertCharacters
  rw [checkedSub_of_le hcol.le, bind_eq_bind, bind_some]
  refine Yields.bind (editCells_safe h h.row fun _ hc => insertCells_safe hc (by omega))
    fun t ht => yields_some ?_
  obtain ⟨main, alt, nextId, rfl⟩ := ht.1
  exact ⟨rfl, rfl, Geometry.changed (Geometry.withCursor ht.2 h.row h.col)⟩

theorem deleteCharacters_safe : Yields (s.deleteCharacters M n) Geometry := by
  have hcol := h.col
  unfold deleteCharacters
  rw [checkedSub_of_le hcol.le, bind_eq_bind, bind_some]
  refine Yields.bind (editCells_safe h h.row fun _ hc => deleteCells_safe hc (by omega))
    fun t ht => yields_some ?_
  obtain ⟨main, alt, nextId, rfl⟩ := ht.1
  exact Geometry.changed (Geometry.withCursor ht.2 h.row h.col)

end

/-! ### Text -/

/-- A line wrapped in row `row` has a row to go on in. -/
def CanWrap (s : TerminalScreen) (row : ℕ) : Prop := row = s.scrollBottom ∨ row + 1 < s.size.rows

/-- A cluster that has become wide in the last column goes on in the next row. -/
def WrapsCluster (M : TextMetrics) (s : TerminalScreen) (lead : ℕ) (cluster : List Char) : Prop :=
  2 ≤ M.strWidth cluster ∧ s.size.cols ≠ 1 ∧ s.size.cols ≤ lead + 1 ∧ s.modes.autowrap = true

/-- A character wraps the last row, which is not the last row of the scrolling region. -/
def Falls (M : TextMetrics) (s : TerminalScreen) (ch : Char) : Prop :=
  let ch := s.mapCharacter ch
  isControl ch = false ∧
    ((∃ row lead cluster, s.joined M ch = some (some (row, lead, cluster)) ∧
        utf8Len cluster ≤ maxTerminalGraphemeBytes ∧ WrapsCluster M s lead cluster ∧
        ¬CanWrap s row) ∨
      s.joined M ch = some none ∧ M.charWidth ch ≠ 0 ∧ WrapsFirst s (min (M.charWidth ch) 2) ∧
        ¬CanWrap s s.cursor.row)

section
variable {M : TextMetrics} {s s' : TerminalScreen} {row lead width : ℕ} {ch : Char}
  {cluster : List Char} {style : Style}

section
variable (h : Geometry s)
include h

theorem softWrap_safe (hwrap : CanWrap s s.cursor.row) :
    Yields s.softWrap fun s' => s'.size = s.size ∧ s'.cursor.col = 0 ∧ Geometry s' := by
  have hr : s.active.rows[s.cursor.row]? = some _ :=
    getElem?_eq_getElem (by rw [h.activeLength]; exact h.row)
  unfold softWrap
  simp only [hr, bind, bind_some]
  refine Yields.bind (modifyRow_safe h h.row fun _ => rfl) fun t ht => ?_
  obtain ⟨main, alt, nextId, rfl⟩ := ht.1
  have hstart := Geometry.withCursor ht.2 (c := ⟨s.cursor.row, 0, false⟩) h.row h.cols_pos
  split_ifs with hbottom
  · refine (scrollUpInternal_safe hstart).bind fun u hu => yields_some ?_
    obtain ⟨main', alt', nextId', rfl⟩ := hu.1; exact ⟨rfl, rfl, hu.2.changed⟩
  have hnext : s.cursor.row + 1 < s.size.rows := hwrap.resolve_left hbottom
  refine Yields.bind (modifyRow_safe hstart hnext fun _ => rfl) fun u hu => yields_some ?_
  obtain ⟨main', alt', nextId', rfl⟩ := hu.1
  exact ⟨rfl, rfl, Geometry.changed (Geometry.withCursor hu.2 hnext h.cols_pos)⟩

theorem softWrap_panics (hwrap : ¬CanWrap s s.cursor.row) : s.softWrap = none := by
  have hrow := h.row
  unfold CanWrap at hwrap
  rw [not_or] at hwrap
  cases hs : s.softWrap with
  | none => rfl
  | some s' =>
    simp only [softWrap, bind, pure, bind_eq_some_iff] at hs; obtain ⟨r, -, t, ht, hs⟩ := hs
    obtain ⟨main, alt, nextId, heq⟩ := onGrid_modifyRow ht
    have hlen : t.active.rows.length = s.size.rows := by
      obtain ⟨r', -, rfl⟩ := modifyRow_some ht; rw [active_setRows, length_set, h.activeLength]
    have hbottom : t.scrollBottom = s.scrollBottom := by rw [heq]
    rw [if_neg (by rw [hbottom]; exact hwrap.1)] at hs; obtain ⟨u, hu, -⟩ := bind_eq_some_iff.1 hs
    obtain ⟨r', hr', -⟩ := modifyRow_some hu; have := (List.getElem?_eq_some_iff.1 hr').1
    have hlen' : ({ t with cursor := ⟨s.cursor.row, 0, false⟩ } : TerminalScreen).active.rows.length =
        s.size.rows := hlen
    omega

theorem afterGlyph_col (row col width : ℕ) :
    (s.afterGlyph row col width).row = row ∧ (s.afterGlyph row col width).col < s.size.cols := by
  have := h.cols_pos
  unfold afterGlyph
  split_ifs
  · exact ⟨rfl, by dsimp only; omega⟩
  · exact ⟨rfl, by dsimp only; omega⟩

theorem makeRoom_safe : Yields (s.makeRoom M width) fun s' =>
      s'.size = s.size ∧ s'.cursor.col = s.cursor.col ∧ Geometry s' := by
  unfold makeRoom
  split_ifs
  · exact insertCharacters_safe h
  · exact yields_some ⟨rfl, rfl, h⟩

theorem Geometry.withLast (hrow : row < s.size.rows) (hlead : lead < s.size.cols) :
    Geometry { s with lastGrapheme := some (row, lead) } := by
  refine { h with last := fun row' lead' heq => ?_ }
  cases heq
  exact ⟨hrow, hlead⟩

theorem Geometry.written {c : Cursor} (hcrow : c.row < s.size.rows)
    (hccol : c.col < s.size.cols) (hrow : row < s.size.rows) (hlead : lead < s.size.cols) :
    Geometry { s with cursor := c, lastGrapheme := some (row, lead) } :=
  (h.withCursor hcrow hccol).withLast hrow hlead

theorem putCharacter_safe (hroom : width = 2 → s.cursor.col + 1 < s.size.cols) :
    Yields (s.putCharacter M ch width) Geometry := by
  refine Yields.bind (makeRoom_safe h) fun t ht => ?_
  obtain ⟨hsize, hcol, hgeo⟩ := ht
  have hrow : t.cursor.row < t.active.rows.length := by rw [hgeo.activeLength]; exact hgeo.row
  have hr : t.active.rows[t.cursor.row]? = some t.active.rows[t.cursor.row] :=
    getElem?_eq_getElem hrow
  have hlen := hgeo.activeRows _ (getElem_mem hrow)
  have hx : (t.active.rows[t.cursor.row]).cells[t.cursor.col]? = some _ :=
    getElem?_eq_getElem (by rw [hlen]; exact hgeo.col)
  simp only [hr, hx, bind, bind_some]
  refine Yields.bind (editCells_safe hgeo hgeo.row fun _ hc => putCells_safe hc hgeo.col
    fun hw => ?_) fun u hu => yields_some ?_
  · rw [hcol, hsize]; exact hroom hw
  obtain ⟨main, alt, nextId, rfl⟩ := hu.1
  have hafter := afterGlyph_col hgeo t.cursor.row t.cursor.col width
  have hafterRow : (t.afterGlyph t.cursor.row t.cursor.col width).row < t.size.rows := by
    rw [hafter.1]; exact hgeo.row
  split_ifs
  · exact Geometry.changed (Geometry.written hu.2 hafterRow hafter.2 hgeo.row hgeo.col)
  · exact Geometry.displayOnlyChanged (Geometry.written hu.2 hafterRow hafter.2 hgeo.row hgeo.col)

theorem writeCharacter_safe (hfalls : s.WrapsFirst width → CanWrap s s.cursor.row) :
    Yields (s.writeCharacter M ch width) Geometry := by
  have hcols := h.cols_pos
  rw [writeCharacter_eq]
  split_ifs with hwraps
  · refine Yields.bind (softWrap_safe h (hfalls hwraps)) fun t ht => putCharacter_safe ht.2.2 ?_
    intro hw; unfold fitted at hw
    split_ifs at hw with hroom
    · cases hw
    rw [ht.1, ht.2.1]
    by_contra hone
    exact hroom ⟨hw, .inl (by omega)⟩
  · exact putCharacter_safe h fun hw => room_of_not_wrapsFirst hwraps hw

theorem writeLeadingCombining_safe : Yields (s.writeLeadingCombining ch) Geometry := by
  refine Yields.bind (editCells_safe h h.row fun _ hc => clearWideAt_safe hc) fun t ht => ?_
  obtain ⟨main, alt, nextId, rfl⟩ := ht.1
  split_ifs
  · refine Yields.bind (editCells_safe ht.2 h.row fun _ hc => setCell_safe hc h.col)
      fun u hu => yields_some ?_
    obtain ⟨main', alt', nextId', rfl⟩ := hu.1
    exact Geometry.changed (Geometry.withLast hu.2 h.row h.col)
  · exact yields_some ht.2

theorem wrapPreviousGrapheme_safe (hrow : row < s.size.rows)
    (hlead : lead < s.size.cols) (hcols : s.size.cols ≠ 1) (hwrap : CanWrap s row) :
    Yields (s.wrapPreviousGrapheme row lead style cluster) Geometry := by
  have hpos := h.cols_pos
  refine Yields.bind (editCells_safe h hrow fun _ hc => setCell_safe hc hlead) fun t ht => ?_
  obtain ⟨main, alt, nextId, rfl⟩ := ht.1
  have hstart := Geometry.withCursor ht.2 (c := ⟨row, s.size.cols - 1, true⟩) hrow
    (by dsimp only; omega)
  refine Yields.bind (softWrap_safe hstart hwrap) fun u hu => ?_
  obtain ⟨hsize, -, hgeo⟩ := hu
  have hsize' : u.size = s.size := hsize
  refine Yields.bind (editCells_safe hgeo hgeo.row fun _ hc =>
    Yields.bind (setCell_safe hc hgeo.cols_pos) fun _ hc' =>
      setCell_safe hc' (by rw [hsize']; omega)) fun v hv => yields_some ?_
  obtain ⟨main', alt', nextId', rfl⟩ := hv.1
  refine Geometry.changed (Geometry.written hv.2 ?_ ?_ hgeo.row hgeo.cols_pos)
  · split_ifs <;> exact hgeo.row
  rw [hsize']
  split_ifs <;> dsimp only <;> omega

end

theorem Geometry.cellAt (h : Geometry s) (hrow : row < s.size.rows) (hlead : lead < s.size.cols) :
    ∃ x, s.cellAt row lead = some x := by
  have hrow' : row < s.active.rows.length := by rw [h.activeLength]; exact hrow
  have hlen : (s.active.rows[row]).cells.length = s.size.cols := h.activeRows _ (getElem_mem hrow')
  unfold TerminalScreen.cellAt
  rw [getElem?_eq_getElem hrow', bind_eq_bind, bind_some]
  exact ⟨_, getElem?_eq_getElem (by omega)⟩

section
variable (h : Geometry s)
include h

theorem replacePreviousGrapheme_safe (hrow : row < s.size.rows)
    (hlead : lead < s.size.cols) (hwrap : WrapsCluster M s lead cluster → CanWrap s row) :
    Yields (s.replacePreviousGrapheme M row lead cluster) Geometry := by
  have hpos := h.cols_pos
  obtain ⟨x, hx⟩ := h.cellAt hrow hlead
  unfold replacePreviousGrapheme
  rw [hx, bind_eq_bind, bind_some]
  split_ifs with hone hclip hlast
  · refine Yields.bind (editCells_safe h hrow fun _ hc => setCell_safe hc hlead)
      fun t ht => yields_some ?_
    obtain ⟨main, alt, nextId, rfl⟩ := ht.1
    exact Geometry.changed (Geometry.written ht.2 hrow hpos hrow hlead)
  · refine Yields.bind (editCells_safe h hrow fun _ hc => setCell_safe hc hlead)
      fun t ht => yields_some ?_
    obtain ⟨main, alt, nextId, rfl⟩ := ht.1
    exact Geometry.changed (Geometry.written ht.2 hrow hlead hrow hlead)
  · have hcols : s.size.cols ≠ 1 := fun hc => hone ⟨hlast.1, hc⟩
    refine wrapPreviousGrapheme_safe h hrow hlead hcols (hwrap ⟨by omega, hcols, hlast.2, ?_⟩)
    by_contra hauto
    exact hclip ⟨hlast.1, hlast.2, by simpa using hauto⟩
  refine Yields.bind (editCells_safe h hrow fun _ hc => replaceCells_safe hc hlead
    fun hw => not_le.1 fun hle => hlast ⟨hw, hle⟩) fun t ht => yields_some ?_
  obtain ⟨main, alt, nextId, rfl⟩ := ht.1
  have hafter := afterGlyph_col h row lead (max 1 (min (M.strWidth cluster) 2))
  refine Geometry.changed (Geometry.written ht.2 ?_ hafter.2 hrow hlead)
  exact hafter.1.trans_lt hrow

theorem joined_safe : Yields (s.joined M ch) fun answer =>
    ∀ row lead cluster, answer = some (row, lead, cluster) →
      row < s.size.rows ∧ lead < s.size.cols := by
  unfold joined
  cases hlast : s.lastGrapheme with
  | none => exact yields_some nofun
  | some place =>
    obtain ⟨row, lead⟩ := place; obtain ⟨hrow, hlead⟩ := h.last row lead hlast
    obtain ⟨x, hx⟩ := h.cellAt hrow hlead; simp only [hx, bind, pure, bind_some]
    refine yields_some fun row' lead' cluster heq => ?_
    split_ifs at heq
    cases heq; exact ⟨hrow, hlead⟩

theorem writeChar_safe (hfalls : ¬Falls M s ch) : Yields (s.writeChar M ch) Geometry := by
  unfold writeChar writeMapped
  by_cases hcontrol : isControl (s.mapCharacter ch) = true
  · rw [if_pos hcontrol]; exact yields_some h
  have hcontrol' : isControl (s.mapCharacter ch) = false := by simpa using hcontrol
  obtain ⟨answer, hjoined, hin⟩ := @joined_safe M s (s.mapCharacter ch) h
  rw [hjoined, bind_eq_bind, bind_some]
  cases answer with
  | some join =>
    obtain ⟨row, lead, cluster⟩ := join; obtain ⟨hrow, hlead⟩ := hin row lead cluster rfl
    dsimp only
    split_ifs with hlong
    · exact yields_some h
    refine replacePreviousGrapheme_safe h hrow hlead fun hwraps => ?_
    by_contra hcan
    exact hfalls ⟨hcontrol', .inl ⟨row, lead, cluster, hjoined, not_lt.1 hlong, hwraps, hcan⟩⟩
  | none =>
    dsimp only
    split_ifs with hzero
    · exact writeLeadingCombining_safe h
    refine writeCharacter_safe h fun hwraps => ?_
    by_contra hcan
    exact hfalls ⟨hcontrol', .inr ⟨hjoined, by omega, hwraps, hcan⟩⟩

/-- **Where a character panics**: it would go on below the last row. -/
theorem writeChar_panics (hfalls : Falls M s ch) : s.writeChar M ch = none := by
  obtain ⟨hcontrol, hcase⟩ := hfalls
  unfold writeChar writeMapped
  rw [if_neg (by simp [hcontrol])]
  rcases hcase with ⟨row, lead, cluster, hjoined, hshort, hwraps, hcan⟩ |
    ⟨hjoined, hw, hwraps, hcan⟩
  · obtain ⟨answer, hjoined', hin⟩ := @joined_safe M s (s.mapCharacter ch) h
    obtain rfl := some.inj (hjoined.symm.trans hjoined')
    obtain ⟨hrow, hlead⟩ := hin row lead cluster rfl; obtain ⟨x, hx⟩ := h.cellAt hrow hlead
    obtain ⟨hwide, hone, hlast, hauto⟩ := hwraps; have hpos := h.cols_pos
    have htwo : max 1 (min (M.strWidth cluster) 2) = 2 := by omega
    rw [hjoined, bind_eq_bind, bind_some]
    simp only [if_neg (not_lt.2 hshort), replacePreviousGrapheme, hx, bind, pure, bind_some,
      htwo, hone, hlast, hauto, true_and, and_false, ↓reduceIte, Bool.true_eq_false]
    unfold wrapPreviousGrapheme
    obtain ⟨t, ht, hgrid, hgeo⟩ := editCells_safe h hrow
      (f := setCell lead (blank s.style)) fun _ hc => setCell_safe hc hlead
    obtain ⟨main, alt, nextId, rfl⟩ := hgrid; simp only [ht, bind, bind_some]
    have hstart := Geometry.withCursor hgeo (c := ⟨row, s.size.cols - 1, true⟩) hrow
      (by dsimp only; omega)
    rw [softWrap_panics hstart hcan]; rfl
  rw [hjoined, bind_eq_bind, bind_some]
  rw [if_neg (by omega), writeCharacter_eq, if_pos hwraps, softWrap_panics h hcan]; rfl

end

theorem writeText_safe : ∀ {text : List Char} {s : TerminalScreen}, Geometry s →
    (∀ p ∈ textOn M s text, ¬Falls M p.1 p.2) → Yields (s.writeText M text) Geometry
  | [], s, h, _ => yields_some h
  | ch :: text, s, h, hfalls => by
    have hfirst := writeChar_safe h (hfalls (s, ch) mem_cons_self); obtain ⟨t, ht, hgeo⟩ := hfirst
    rw [writeText, foldlM_cons, ht]
    exact writeText_safe hgeo fun p hp => hfalls p ((mem_textOn_cons ht).2 (.inr hp))

theorem writeText_panics_iff : ∀ {text : List Char} {s : TerminalScreen}, Geometry s →
    (s.writeText M text = none ↔ ∃ p ∈ textOn M s text, Falls M p.1 p.2)
  | [], s, h => by simp [writeText, textOn]
  | ch :: text, s, h => by
    by_cases hfalls : Falls M s ch
    · refine iff_of_true ?_ ⟨(s, ch), mem_cons_self, hfalls⟩
      rw [writeText, foldlM_cons, writeChar_panics h hfalls]; rfl
    obtain ⟨t, ht, hgeo⟩ := writeChar_safe h hfalls; rw [writeText, foldlM_cons, ht]
    refine (writeText_panics_iff hgeo).trans ⟨?_, ?_⟩
    · rintro ⟨p, hp, hf⟩; exact ⟨p, (mem_textOn_cons ht).2 (.inr hp), hf⟩
    rintro ⟨p, hp, hf⟩
    rcases (mem_textOn_cons ht).1 hp with rfl | hp
    · exact absurd hf hfalls
    · exact ⟨p, hp, hf⟩

end

end TerminalScreen

end Pmacs
