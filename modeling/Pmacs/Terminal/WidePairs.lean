/-
  Wide glyphs and their second columns on the screen (screen.rs).

  * `AllPaired`: in every row of both grids and of the history, second columns stand right of
    wide glyphs and nowhere else.
  * `Tears`: the characters that break this: one that makes the cluster before it wide, over a
    column in which another wide glyph begins.
  * `run_paired`: it holds in every run without such a character.
-/
import Pmacs.Terminal.ScreenPanics

namespace Pmacs

open Lib List Option

/-! ## Rows -/

section
variable {M : TextMetrics} {style fill : Style} {cols col lead width oldWidth : ℕ} {x : Cell}
  {cells cells' : List Cell} {ch : Char} {cluster : List Char} {mode : EraseMode}
  {f : List Cell → Option (List Cell)} {r : TerminalRow}

theorem TextMetrics.isWide_iff {x : Cell} : M.isWide x = true ↔ M.glyphWidth x.glyph = 2 := by
  simp [isWide]

theorem isWide_of_width (h : M.glyphWidth x.glyph ≠ 2) : M.isWide x = false := by
  simpa [TextMetrics.isWide] using h

theorem Paired.putGlyph (h : Paired M cells) (hx : x.isContinuation = false)
    (hwidth : M.isWide x = true ↔ width = 2) (hcont : continuationAt cells col = false)
    (hwide : wideAt M cells col = false) (hnext : width = 2 → wideAt M cells (col + 1) = false) :
    Ensures ((setCell col x cells).bind (whenWide width (setCell (col + 1) ⟨.continuation, style⟩)))
      (Paired M) := by
  intro cells' hcells
  obtain ⟨a, ha, hcells⟩ := bind_eq_some_iff.1 hcells
  obtain ⟨hcol, rfl⟩ := setCell_some ha
  unfold whenWide at hcells
  split_ifs at hcells with htwo
  · obtain ⟨hcol', rfl⟩ := setCell_some hcells; rw [length_set] at hcol'
    exact (h.set_wide_iff hcol' hcont (hwidth.2 htwo) rfl).2 (hnext htwo)
  obtain rfl : _ = cells' := some.inj hcells
  exact h.set hcol hcont hwide hx (by simpa using mt hwidth.1 htwo)

/-- A character is written: what wide glyphs it cuts are cleared. -/
theorem Paired.putCells (hM : M.Plain) (h : Paired M cells) (hcol : col < cols)
    (hwidth : M.glyphWidth (.char ch) = width) (hroom : width = 2 → col + 1 < cols) :
    Ensures (putCells style cols col width ch cells) (Paired M) := by
  intro cells' hcells
  simp only [Pmacs.putCells, bind, bind_eq_some_iff] at hcells
  obtain ⟨a, ha, b, hb, c, hc, hcells⟩ := hcells
  have hfirst := h.clearWideAt hM hcol ha
  have hglyph : M.isWide ⟨.char ch, style⟩ = true ↔ width = 2 := by
    rw [TextMetrics.isWide_iff, hwidth]
  have hput : (setCell col ⟨.char ch, style⟩ b).bind
      (whenWide width (setCell (col + 1) ⟨.continuation, style⟩)) = some cells' :=
    bind_eq_some_iff.2 ⟨c, hc, hcells⟩
  by_cases htwo : width = 2
  · rw [whenWide, if_pos htwo] at hb; have hsecond := hfirst.paired.clearWideAt hM (hroom htwo) hb
    refine hsecond.paired.putGlyph rfl hglyph ?_ ?_ (fun _ => hsecond.notWide) _ hput
    · by_contra hne
      have := hsecond.fewer col (by simpa using hne); rw [hfirst.notContinuation] at this
      cases this
    by_contra hne
    have := hsecond.narrower col (by simpa using hne); rw [hfirst.notWide] at this; cases this
  rw [whenWide, if_neg htwo] at hb; obtain rfl : a = b := some.inj hb
  exact hfirst.paired.putGlyph rfl hglyph hfirst.notContinuation hfirst.notWide
    (fun hw => absurd hw htwo) _ hput

theorem Paired.replaceCells (hM : M.Plain) (h : Paired M cells) (hx : cells[lead]? = some x)
    (hcont : x.isContinuation = false) (hold : M.glyphWidth x.glyph = oldWidth)
    (hwidth : max 1 (min (M.strWidth cluster) 2) = width) (hlen : cells.length = cols)
    (hnext : width = 2 → wideAt M cells (lead + 1) = false) :
    Ensures (replaceCells style fill cols lead oldWidth width cluster cells) (Paired M) := by
  have hread : continuationAt cells lead = false := by rw [continuationAt, hx]; exact hcont
  have hglyph : M.glyphWidth (.cluster cluster) = min (M.strWidth cluster) 2 := rfl
  intro cells' hcells
  simp only [Pmacs.replaceCells, bind, bind_eq_some_iff] at hcells
  obtain ⟨a, ha, hcells⟩ := hcells
  obtain ⟨hlead, rfl⟩ := setCell_some ha
  split_ifs at hcells with htwo hnarrowed
  · obtain ⟨hlead', rfl⟩ := setCell_some hcells; rw [length_set] at hlead'
    exact (h.set_wide_iff hlead' hread (TextMetrics.isWide_iff.2 (by dsimp only; omega)) rfl).2
      (hnext htwo)
  · obtain ⟨-, rfl⟩ := setCell_some hcells
    have hwas : wideAt M cells lead = true := by
      rw [wideAt, hx]; exact TextMetrics.isWide_iff.2 (hold.trans hnarrowed.1)
    exact h.set_narrow_pair hwas rfl (isWide_of_width (by dsimp only; omega)) rfl hM.isWide_blank
  obtain rfl : _ = cells' := some.inj hcells
  have hwas : wideAt M cells lead = false := by
    by_contra hne
    have hlt := h.succ_lt (by simpa using hne)
    rw [wideAt, hx, any_some, Bool.not_eq_false, TextMetrics.isWide_iff] at hne
    exact hnarrowed ⟨hold.symm.trans hne, by omega⟩
  exact h.set hlead hread hwas rfl (isWide_of_width (by dsimp only; omega))

end

namespace TerminalScreen

/-- In every row second columns stand right of wide glyphs and nowhere else. -/
structure AllPaired (M : TextMetrics) (s : TerminalScreen) : Prop where
  main : ∀ r ∈ s.main.rows, Paired M r.cells
  alt : ∀ r ∈ s.alt.rows, Paired M r.cells
  history : ∀ r ∈ s.main.history, Paired M r.cells

section
variable {M : TextMetrics} {s s' : TerminalScreen} {row n : ℕ} {continuation : Option (ℕ × ℕ)}

theorem AllPaired.active (h : AllPaired M s) : ∀ r ∈ s.active.rows, Paired M r.cells := by
  unfold TerminalScreen.active
  split_ifs
  · exact h.alt
  · exact h.main

theorem AllPaired.setRows (h : AllPaired M s) {rows : List TerminalRow}
    (hrows : ∀ r ∈ rows, Paired M r.cells) : AllPaired M (s.setRows rows) := by
  unfold TerminalScreen.setRows
  split_ifs
  · exact { h with alt := hrows }
  · exact { h with main := hrows }

theorem AllPaired.changed (h : AllPaired M s) : AllPaired M s.changed := { h with }

theorem AllPaired.withCursor (h : AllPaired M s) (c : Cursor) :
    AllPaired M { s with cursor := c } := { h with }

theorem AllPaired.withNextLineId (h : AllPaired M s) (id : ℕ) :
    AllPaired M { s with nextLineId := id } := { h with }

theorem paired_newRow (hM : M.Plain) : Paired M s.newRow.1.cells :=
  paired_replicate hM

/-! ### Grids -/

/-- What a step on the grids leaves: the screen but for them, and the rows paired. -/
abbrev PairedGrid (M : TextMetrics) (s s' : TerminalScreen) : Prop := OnGrid s s' ∧ AllPaired M s'

theorem modifyRow_paired (h : AllPaired M s) {f : TerminalRow → TerminalRow} (hf : ∀ r,
    Paired M r.cells → Paired M (f r).cells) : Ensures (s.modifyRow row f) (PairedGrid M s) := by
  intro s' hs'
  refine ⟨onGrid_modifyRow hs', ?_⟩
  obtain ⟨r, hr, rfl⟩ := modifyRow_some hs'
  refine h.setRows fun r' hr' => ?_
  rcases mem_or_eq_of_mem_set hr' with hmem | rfl
  · exact h.active r' hmem
  · exact hf r (h.active r (mem_of_getElem? hr))

theorem editCells_paired (h : AllPaired M s)
    (hf : ∀ r, s.active.rows[row]? = some r → Paired M r.cells → Ensures (f r.cells) (Paired M)) :
    Ensures (s.editCells row f) (PairedGrid M s) := by
  intro s' hs'
  refine ⟨onGrid_editCells hs', ?_⟩
  obtain ⟨r, cells, hr, hcells, rfl⟩ := editCells_some hs'
  refine h.setRows fun r' hr' => ?_
  rcases mem_or_eq_of_mem_set hr' with hmem | rfl
  · exact h.active r' hmem
  · exact hf r hr (h.active r (mem_of_getElem? hr)) cells hcells

theorem shiftRows_paired (hM : M.Plain) (h : AllPaired M s) {out into : ℕ} :
    Ensures (s.shiftRows out into) (PairedGrid M s) := by
  intro s' hs'
  refine ⟨onGrid_shiftRows hs', ?_⟩
  obtain ⟨-, -, rfl⟩ := shiftRows_some hs'
  refine AllPaired.setRows (h.withNextLineId _) fun r hr => ?_
  rcases eq_or_mem_of_mem_insertIdx hr with rfl | hmem
  · exact paired_newRow hM
  · exact h.active r (mem_of_mem_eraseIdx hmem)

theorem times_shiftRows_paired (hM : M.Plain) {out into : ℕ} : ∀ {n : ℕ} {s : TerminalScreen},
    AllPaired M s → Ensures (times (shiftRows out into) n s) (PairedGrid M s)
  | 0, s, h => ensures_some ⟨.refl s, h⟩
  | _ + 1, _, h => (shiftRows_paired hM h).bind fun _ ht =>
    (times_shiftRows_paired hM ht.2).mono fun _ hu => ⟨ht.1.trans hu.1, hu.2⟩

theorem breakChainAfter_paired (h : AllPaired M s) :
    Ensures (s.breakChainAfter row) (PairedGrid M s) := by
  intro s' hs'
  refine ⟨onGrid_breakChainAfter hs', ?_⟩
  have hcells := breakChainAfter_cells hs'
  rcases breakChainAfter_some hs' with rfl | ⟨r, -, rfl⟩
  · exact h
  rw [active_setRows] at hcells
  refine AllPaired.setRows (h.withNextLineId _) fun r' hr' => ?_
  obtain ⟨r'', hr'', heq⟩ := mem_map.1 (hcells ▸ mem_map_of_mem hr')
  exact heq ▸ h.active r'' hr''

theorem AllPaired.keepRow (h : AllPaired M s) {removed : TerminalRow}
    (hremoved : Paired M removed.cells) : AllPaired M (s.keepRow removed) := by
  unfold TerminalScreen.keepRow
  split_ifs
  · refine { h with history := fun r hr => ?_ }
    rcases mem_append.1 hr with hr | hr
    · exact h.history r hr
    · rw [mem_singleton.1 hr]; exact hremoved
  · exact h

theorem scrollRow_paired (hM : M.Plain) (h : AllPaired M s) :
    Ensures (s.scrollRow continuation) (PairedGrid M s) := by
  intro s' hs'
  refine ⟨onGrid_scrollRow hs', ?_⟩
  obtain ⟨removed, hremoved, -, rfl⟩ := scrollRow_some hs'
  have hkeep := h.keepRow (h.active removed (mem_of_getElem? hremoved))
  refine AllPaired.setRows (hkeep.withNextLineId _) fun r hr => ?_
  rcases eq_or_mem_of_mem_insertIdx hr with rfl | hmem
  · rw [cells_continueLine]; exact paired_newRow hM
  · exact h.active r (mem_of_mem_eraseIdx hmem)

theorem scrollRows_paired (hM : M.Plain) : ∀ {n : ℕ} {s : TerminalScreen}, AllPaired M s →
    Ensures (s.scrollRows continuation n) (PairedGrid M s)
  | 0, s, h => ensures_some ⟨.refl s, h⟩
  | _ + 1, _, h => (scrollRow_paired hM h).bind fun _ ht =>
    (scrollRows_paired hM ht.2).mono fun _ hu => ⟨ht.1.trans hu.1, hu.2⟩

theorem AllPaired.enforceHistoryBudget (h : AllPaired M s) : AllPaired M s.enforceHistoryBudget :=
  { h with history := fun r hr => h.history r (mem_trimHistory hr) }

theorem scrollUpInternal_paired (hM : M.Plain) (h : AllPaired M s) :
    Ensures (s.scrollUpInternal n continuation)
      (PairedGrid M { s with cursor := { s.cursor with row := s.scrollBottom } }) := by
  intro s' hs'
  refine ⟨onGrid_scrollUpInternal hs', ?_⟩
  obtain ⟨t, -, ht, rfl⟩ := scrollUpInternal_some hs'
  have hpaired := (scrollRows_paired hM h t ht).2
  exact (hpaired.withCursor _).enforceHistoryBudget

theorem unchainRow_paired (h : AllPaired M s) : Ensures (s.unchainRow row) (PairedGrid M s) := by
  unfold unchainRow
  split_ifs with hcont
  · exact Ensures.bind (modifyRow_paired h fun _ hr => hr) fun t ht =>
      (breakChainAfter_paired ht.2).mono fun u hu => ⟨ht.1.trans hu.1, hu.2⟩
  · exact ensures_some ⟨.refl s, h⟩

theorem clearRow_paired (hM : M.Plain) (h : AllPaired M s) :
    Ensures (s.clearRow row) (PairedGrid M s) :=
  (unchainRow_paired h).bind fun _ ht =>
    Ensures.bind (modifyRow_paired ht.2 fun _ _ => paired_replicate hM) fun _ hu =>
      (breakChainAfter_paired hu.2).mono fun _ hv => ⟨(ht.1.trans hu.1).trans hv.1, hv.2⟩

theorem clearRows_paired (hM : M.Plain) : ∀ {n start : ℕ} {s : TerminalScreen}, AllPaired M s →
    Ensures (s.clearRows start n) (PairedGrid M s)
  | 0, _, s, h => ensures_some ⟨.refl s, h⟩
  | n + 1, start, s, h => by
    exact (clearRow_paired hM h).bind fun t ht =>
      (clearRows_paired hM ht.2).mono fun u hu => ⟨ht.1.trans hu.1, hu.2⟩

end

/-! ## Events -/

/-- What a step that is no text leaves: the rows paired, and the grapheme written last. -/
abbrev PairedStep (M : TextMetrics) (s s' : TerminalScreen) : Prop :=
  s'.lastGrapheme = s.lastGrapheme ∧ AllPaired M s'

section
variable {M : TextMetrics} {s s' : TerminalScreen} {n : ℕ}

theorem OnGrid.last (h : OnGrid s s') : s'.lastGrapheme = s.lastGrapheme := by
  obtain ⟨main, alt, nextId, rfl⟩ := h
  rfl

theorem PairedGrid.step (h : PairedGrid M s s') : PairedStep M s s' := ⟨h.1.last, h.2⟩

section
variable (hM : M.Plain)
include hM

theorem scrollUp_paired (h : AllPaired M s) : Ensures (s.scrollUp n) (PairedStep M s) :=
  (scrollUpInternal_paired hM h).bind fun _ ht =>
    ensures_some ⟨ht.1.last, (ht.2.withCursor _).changed⟩

theorem scrollDown_paired (h : AllPaired M s) : Ensures (s.scrollDown n) (PairedStep M s) := by
  unfold scrollDown
  cases checkedSub s.scrollBottom s.scrollTop with
  | none => exact fun _ hs' => nomatch hs'
  | some region =>
    rw [bind_eq_bind, bind_some]
    exact Ensures.bind (times_shiftRows_paired hM h) fun t ht =>
      ensures_some ⟨ht.1.last, ht.2.changed⟩

theorem insertLines_paired (h : AllPaired M s) : Ensures (s.insertLines n) (PairedStep M s) := by
  unfold insertLines
  split_ifs
  · exact ensures_some ⟨rfl, h⟩
  · exact (times_shiftRows_paired hM h).bind fun t ht => ensures_some ⟨ht.1.last, ht.2.changed⟩

theorem deleteLines_paired (h : AllPaired M s) : Ensures (s.deleteLines n) (PairedStep M s) := by
  unfold deleteLines
  split_ifs
  · exact ensures_some ⟨rfl, h⟩
  · exact (times_shiftRows_paired hM h).bind fun t ht => ensures_some ⟨ht.1.last, ht.2.changed⟩

theorem lineFeed_paired (h : AllPaired M s) : Ensures s.lineFeed (PairedStep M s) := by
  refine Ensures.bind (modifyRow_paired (h.withCursor _) fun _ hr => hr) fun t ht => ?_
  refine (breakChainAfter_paired ht.2).bind fun u hu => ?_
  have hlast : u.lastGrapheme = s.lastGrapheme := (ht.1.trans hu.1).last
  split_ifs with hbottom hnext
  · exact (scrollUpInternal_paired hM hu.2).bind fun v hv =>
      ensures_some ⟨hv.1.last.trans hlast, hv.2.changed⟩
  · exact ensures_some ⟨hlast, (hu.2.withCursor _).changed⟩
  · exact ensures_some ⟨hlast, hu.2.changed⟩

theorem reverseIndex_paired (h : AllPaired M s) : Ensures s.reverseIndex (PairedStep M s) := by
  unfold reverseIndex
  dsimp only
  split_ifs
  · exact scrollDown_paired hM (h.withCursor _)
  · exact ensures_some ⟨rfl, (h.withCursor _).changed⟩
  · exact ensures_some ⟨rfl, h.withCursor _⟩

end

theorem moveVertical_paired (h : AllPaired M s) {up : Bool} :
    Ensures (s.moveVertical up n) (PairedStep M s) := by
  unfold moveVertical
  dsimp only
  intro s' hs'
  split_ifs at hs'
  all_goals
    cases hs'; exact ⟨rfl, { h with }⟩

variable (hM : M.Plain)
include hM

theorem eraseInLine_paired (h : AllPaired M s) (hcol : s.cursor.col < s.size.cols) :
    Ensures (s.eraseInLine mode) (PairedGrid M s) := by
  cases mode with
  | all | saved => exact clearRow_paired hM h
  | toEnd => exact editCells_paired h fun _ _ hr _ hcells => hr.clearRange hM le_rfl hcells
  | toStart => exact editCells_paired h fun _ _ hr _ hcells => hr.clearRange hM hcol hcells

theorem eraseLine_paired (h : AllPaired M s) (hcol : s.cursor.col < s.size.cols) :
    Ensures (s.eraseLine mode) (PairedStep M s) :=
  (eraseInLine_paired hM h hcol).bind fun _ ht =>
    ensures_some ⟨ht.1.last, (ht.2.withCursor _).changed⟩

theorem eraseDisplay_paired (h : AllPaired M s) (hcol : s.cursor.col < s.size.cols) :
    Ensures (s.eraseDisplay mode) (PairedStep M s) := by
  suffices herase : Ensures (s.eraseInDisplay mode) (PairedStep M s) from
    herase.bind fun t ht => ensures_some ⟨ht.1, ht.2.changed⟩
  cases mode with
  | toEnd =>
    exact (eraseLine_paired hM h hcol).bind fun t ht =>
      (clearRows_paired hM ht.2).mono fun u hu => ⟨hu.1.last.trans ht.1, hu.2⟩
  | toStart =>
    refine Ensures.bind (clearRows_paired hM h) fun t ht => ?_; have hlast := ht.1.last
    obtain ⟨main, alt, nextId, rfl⟩ := ht.1
    exact (eraseLine_paired hM ht.2 hcol).mono fun u hu => ⟨hu.1.trans hlast, hu.2⟩
  | all => exact (clearRows_paired hM h).mono fun u hu => hu.step
  | saved =>
    refine ensures_some ?_
    split_ifs
    · exact ⟨rfl, h⟩
    · exact ⟨rfl, { h with history := fun r hr => nomatch hr }⟩

theorem eraseCharacters_paired (h : AllPaired M s) :
    Ensures (s.eraseCharacters n) (PairedStep M s) :=
  Ensures.bind (editCells_paired h fun _ _ hr _ hcells =>
    hr.clearRange hM (min_le_right _ _) hcells) fun _ ht =>
      ensures_some ⟨ht.1.last, ht.2.changed⟩

theorem insertCharacters_paired (h : AllPaired M s) : Ensures (s.insertCharacters M n) fun s' =>
      PairedStep M s s' ∧ s'.size = s.size ∧ s'.cursor.col = s.cursor.col := by
  intro s' hs'
  obtain ⟨room, -, hs'⟩ := bind_eq_some_iff.1 hs'
  obtain ⟨t, ht, hs'⟩ := bind_eq_some_iff.1 hs'
  obtain rfl : _ = s' := some.inj hs'
  have hpaired := editCells_paired h (fun r _ _ cells hcells => by
    obtain ⟨shifted, rfl, -⟩ := insertCells_some hcells; exact paired_sanitizeRow hM) t ht
  obtain ⟨main, alt, nextId, rfl⟩ := hpaired.1
  exact ⟨⟨rfl, (hpaired.2.withCursor _).changed⟩, rfl, rfl⟩

theorem deleteCharacters_paired (h : AllPaired M s) :
    Ensures (s.deleteCharacters M n) (PairedStep M s) := by
  intro s' hs'
  obtain ⟨room, -, hs'⟩ := bind_eq_some_iff.1 hs'
  obtain ⟨t, ht, hs'⟩ := bind_eq_some_iff.1 hs'
  obtain rfl : _ = s' := some.inj hs'
  have hpaired := editCells_paired h (fun r _ _ cells hcells => by
    obtain ⟨shifted, rfl, -⟩ := deleteCells_some hcells; exact paired_sanitizeRow hM) t ht
  exact ⟨hpaired.1.last, (hpaired.2.withCursor _).changed⟩

end

/-! ## Text -/

/-- A cluster that has become wide takes the column behind it, where another wide glyph
    begins. -/
def TakesNext (M : TextMetrics) (s : TerminalScreen) (row lead : ℕ) (cluster : List Char) : Prop :=
  2 ≤ M.strWidth cluster ∧ lead + 1 < s.size.cols ∧
    ∃ r, s.active.rows[row]? = some r ∧ wideAt M r.cells (lead + 1) = true

instance (M : TextMetrics) (s : TerminalScreen) (row lead : ℕ) (cluster : List Char) :
    Decidable (TakesNext M s row lead cluster) := inferInstanceAs (Decidable (_ ∧ _))

/-- A cluster that has become wide in the last column takes the first two columns of the next
    row, where another wide glyph begins in the second. -/
def TakesBelow (M : TextMetrics) (s : TerminalScreen) (row lead : ℕ) (cluster : List Char) : Prop :=
  WrapsCluster M s lead cluster ∧ row ≠ s.scrollBottom ∧
    ∃ r, s.active.rows[row + 1]? = some r ∧ wideAt M r.cells 1 = true

instance (M : TextMetrics) (s : TerminalScreen) (row lead : ℕ) (cluster : List Char) :
    Decidable (TakesBelow M s row lead cluster) :=
  have : Decidable (WrapsCluster M s lead cluster) := inferInstanceAs (Decidable (_ ∧ _))
  inferInstanceAs (Decidable (_ ∧ _))

/-- A character makes the grapheme before it wide over the first half of another wide one, or
    it makes a space that it is put on wide. -/
def Tears (M : TextMetrics) (s : TerminalScreen) (ch : Char) : Prop :=
  let ch := s.mapCharacter ch
  isControl ch = false ∧
    ((∃ row lead cluster, s.joined M ch = some (some (row, lead, cluster)) ∧
        utf8Len cluster ≤ maxTerminalGraphemeBytes ∧
        (TakesNext M s row lead cluster ∨ TakesBelow M s row lead cluster)) ∨
      s.joined M ch = some none ∧ M.charWidth ch = 0 ∧ 2 ≤ M.strWidth [' ', ch])

instance {p : ℕ → ℕ → List Char → Prop} [∀ row lead cluster, Decidable (p row lead cluster)]
    (joined : Option (Option (ℕ × ℕ × List Char))) : Decidable
      (∃ row lead cluster, joined = some (some (row, lead, cluster)) ∧ p row lead cluster) :=
  match joined with
  | some (some (row, lead, cluster)) => decidable_of_iff (p row lead cluster) (by simp)
  | some none => isFalse (by simp)
  | none => isFalse (by simp)

instance (M : TextMetrics) (s : TerminalScreen) (ch : Char) : Decidable (Tears M s ch) :=
  inferInstanceAs (Decidable (_ ∧ (_ ∨ _)))

/-- The grapheme written last is no second column. -/
def LastSolid (s : TerminalScreen) : Prop :=
  ∀ row lead x, s.lastGrapheme = some (row, lead) → s.cellAt row lead = some x →
    x.isContinuation = false

/-- The rows are paired and the grapheme written last is a glyph. -/
structure Whole (M : TextMetrics) (s : TerminalScreen) : Prop where
  paired : AllPaired M s
  last : LastSolid s

section
variable {M : TextMetrics} {s s' : TerminalScreen} {row lead width : ℕ} {ch : Char}
  {cluster : List Char} {style : Style} {x : Cell}

variable {col : ℕ}

theorem cellAt_eq (row : ℕ) :
    s.cellAt row col = s.active.rows[row]?.bind fun r => r.cells[col]? := rfl

theorem row_editCells (h : s.editCells row f = some s') :
    ∃ r cells, s.active.rows[row]? = some r ∧ f r.cells = some cells ∧
      s'.active.rows[row]? = some { r with cells := cells } := by
  obtain ⟨r, cells, hr, hcells, rfl⟩ := editCells_some h
  refine ⟨r, cells, hr, hcells, ?_⟩
  rw [active_setRows, List.getElem?_set_self (List.getElem?_eq_some_iff.1 hr).1]

theorem cellAt_of_row (h : s.active.rows[row]? = some r) (col : ℕ) :
    s.cellAt row col = r.cells[col]? := by
  rw [cellAt_eq, h]
  rfl

theorem lastSolid_of_cellAt (hlast : s.lastGrapheme = some (row, lead))
    (hcell : s.cellAt row lead = some x) (hx : x.isContinuation = false) : LastSolid s := by
  intro row' lead' x' hlast' hcell'
  rw [hlast] at hlast'
  cases hlast'
  rw [hcell] at hcell'
  cases hcell'
  exact hx

theorem lastSolid_none (h : s.lastGrapheme = none) : LastSolid s := by
  intro row lead x hlast
  rw [h] at hlast
  cases hlast

theorem getElem?_putGlyph {y : Cell} {a : List Cell} (ha : setCell col x cells = some a)
    (h : cells' = a ∨ setCell (col + 1) y a = some cells') : cells'[col]? = some x := by
  obtain ⟨hcol, rfl⟩ := setCell_some ha
  rcases h with rfl | h
  · exact List.getElem?_set_self hcol
  · obtain ⟨-, rfl⟩ := setCell_some h; rw [getElem?_set_ne (by omega), List.getElem?_set_self hcol]

theorem putCells_solid (h : putCells style cols col width ch cells = some cells') :
    cells'[col]? = some ⟨.char ch, style⟩ := by
  simp only [putCells, bind, bind_eq_some_iff] at h
  obtain ⟨a, -, b, -, c, hc, h⟩ := h
  unfold whenWide at h
  split_ifs at h
  · exact getElem?_putGlyph hc (.inr h)
  · exact getElem?_putGlyph hc (y := ⟨.continuation, style⟩) (.inl (some.inj h).symm)

theorem replaceCells_solid {fill : Style} {oldWidth : ℕ}
    (h : replaceCells style fill cols col oldWidth width cluster cells = some cells') :
    cells'[col]? = some ⟨.cluster cluster, style⟩ := by
  simp only [replaceCells, bind, bind_eq_some_iff] at h
  obtain ⟨a, ha, h⟩ := h
  split_ifs at h
  · exact getElem?_putGlyph ha (.inr h)
  · exact getElem?_putGlyph ha (.inr h)
  · exact getElem?_putGlyph ha (y := blank fill) (.inl (some.inj h).symm)

/-! ### Wrapping -/

theorem active_enforceHistoryBudget : s.enforceHistoryBudget.active.rows = s.active.rows := by
  show (if s.altActive then s.alt else { s.main with history := _ }).rows = s.active.rows
  unfold TerminalScreen.active
  split_ifs <;> rfl

theorem scrollUpInternal_next {continuation : Option (ℕ × ℕ)}
    (h : s.scrollUpInternal 1 continuation = some s')
    (hr : s'.active.rows[s.scrollBottom]? = some r) :
    r.cells = List.replicate s.size.cols (blank s.style) := by
  obtain ⟨t, -, ht, rfl⟩ := scrollUpInternal_some h
  obtain ⟨u, hu, ht⟩ := bind_eq_some_iff.1 ht
  obtain rfl : u = t := some.inj ht
  rw [active_enforceHistoryBudget] at hr
  change u.active.rows[s.scrollBottom]? = some r at hr
  obtain ⟨removed, -, hbottom, rfl⟩ := scrollRow_some hu
  rw [active_setRows, getElem?_insertIdx_self] at hr
  obtain ⟨-, hr⟩ := ite_none_right_eq_some.1 hr
  obtain rfl := some.inj hr
  rw [cells_continueLine]
  rfl

/-- Where a line goes on: in the row below, as it was, or in a new one. -/
theorem softWrap_next (h : s.softWrap = some s') :
    (s.cursor.row ≠ s.scrollBottom ∧ s'.cursor.row = s.cursor.row + 1 ∧
        ∀ r', s'.active.rows[s.cursor.row + 1]? = some r' →
          ∃ r, s.active.rows[s.cursor.row + 1]? = some r ∧ r'.cells = r.cells) ∨
      s.cursor.row = s.scrollBottom ∧ s'.cursor.row = s.scrollBottom ∧
        ∀ r', s'.active.rows[s.scrollBottom]? = some r' →
          r'.cells = List.replicate s.size.cols (blank s.style) := by
  simp only [softWrap, bind, pure, bind_eq_some_iff] at h
  obtain ⟨r, hr, t, ht, h⟩ := h
  have hrows : t.active.rows[s.cursor.row + 1]? = s.active.rows[s.cursor.row + 1]? := by
    obtain ⟨r', -, rfl⟩ := modifyRow_some ht; rw [active_setRows, getElem?_set_ne (by omega)]
  obtain ⟨main, alt, nextId, rfl⟩ := onGrid_modifyRow ht
  split_ifs at h with hbottom
  · obtain ⟨u, hu, h⟩ := bind_eq_some_iff.1 h; obtain rfl : u.changed = s' := some.inj h
    refine .inr ⟨hbottom, ?_, fun r' hr' => ?_⟩
    · obtain ⟨main', alt', nextId', rfl⟩ := onGrid_scrollUpInternal hu; rfl
    · have hnew := scrollUpInternal_next hu (r := r') hr'; exact hnew
  obtain ⟨u, hu, h⟩ := bind_eq_some_iff.1 h; obtain rfl := some.inj h
  refine .inl ⟨hbottom, rfl, fun r' hr' => ?_⟩; obtain ⟨r'', hr'', rfl⟩ := modifyRow_some hu
  change (setRows _ _).active.rows[_]? = some r' at hr'
  rw [active_setRows, List.getElem?_set_self (List.getElem?_eq_some_iff.1 hr'').1] at hr'
  obtain rfl := some.inj hr'; exact ⟨r'', hrows.symm.trans hr'', rfl⟩

theorem softWrap_paired (hM : M.Plain) (h : AllPaired M s) : Ensures s.softWrap (AllPaired M) := by
  refine Ensures.bind (Q := fun _ => True) (fun _ _ => trivial) fun r _ => ?_
  refine Ensures.bind (modifyRow_paired h fun _ hr => hr) fun t ht => ?_
  dsimp only
  split_ifs
  · exact Ensures.bind (scrollUpInternal_paired hM (ht.2.withCursor _)) fun u hu =>
      ensures_some hu.2.changed
  exact Ensures.bind (modifyRow_paired (ht.2.withCursor _) fun _ hr => hr) fun u hu =>
    ensures_some (hu.2.withCursor _).changed

theorem softWrap_geometry (h : Geometry s) :
    Ensures s.softWrap fun s' => s'.size = s.size ∧ s'.cursor.col = 0 ∧ Geometry s' := by
  by_cases hwrap : CanWrap s s.cursor.row
  · exact (softWrap_safe h hwrap).ensures
  · rw [softWrap_panics h hwrap]; exact fun _ hs' => nomatch hs'

/-! ### Characters -/

theorem editCells_whole (h : AllPaired M s)
    (hf : ∀ r, s.active.rows[row]? = some r → Paired M r.cells → Ensures (f r.cells) (Paired M))
    (hx : x.isContinuation = false)
    (hread : ∀ cells, Ensures (f cells) fun cells' => cells'[lead]? = some x) :
    Ensures (s.editCells row f) fun s' => OnGrid s s' ∧
      ∀ c, Whole M { s' with cursor := c, lastGrapheme := some (row, lead) } := by
  intro s' hs'
  obtain ⟨hgrid, hpaired⟩ := editCells_paired h hf s' hs'
  obtain ⟨r, cells, -, hcells, hrow⟩ := row_editCells hs'
  have hcell := (cellAt_of_row hrow lead).trans (hread r.cells cells hcells)
  exact ⟨hgrid, fun c => ⟨{ hpaired with }, lastSolid_of_cellAt rfl hcell hx⟩⟩

theorem setCell_reads (cells : List Cell) :
    Ensures (setCell col x cells) fun cells' => cells'[col]? = some x := by
  intro cells' hcells
  obtain ⟨hcol, rfl⟩ := setCell_some hcells
  exact List.getElem?_set_self hcol

theorem Whole.changed (h : Whole M s) : Whole M s.changed := ⟨{ h.paired with }, h.last⟩

theorem Whole.displayOnlyChanged (h : Whole M s) : Whole M s.displayOnlyChanged :=
  ⟨{ h.paired with }, h.last⟩

section
variable (hM : M.Plain)
include hM

theorem makeRoom_paired (h : AllPaired M s) : Ensures (s.makeRoom M width) fun s' =>
      AllPaired M s' ∧ s'.size = s.size ∧ s'.cursor.col = s.cursor.col := by
  unfold makeRoom
  split_ifs
  · exact (insertCharacters_paired hM h).mono fun t ht => ⟨ht.1.2, ht.2⟩
  · exact ensures_some ⟨h, rfl, rfl⟩

theorem putCharacter_whole (h : AllPaired M s) (hcol : s.cursor.col < s.size.cols)
    (hwidth : M.glyphWidth (.char ch) = width) (hroom : width = 2 →
    s.cursor.col + 1 < s.size.cols) : Ensures (s.putCharacter M ch width) (Whole M) := by
  intro s' hs'
  obtain ⟨t, r, y, u, ht, -, -, hu, rfl⟩ := putCharacter_some hs'
  obtain ⟨hpaired, hsize, hcolumn⟩ := makeRoom_paired hM h t ht
  have hput := editCells_whole hpaired (fun r _ hr => hr.putCells hM
    (by rw [hcolumn, hsize]; exact hcol) hwidth (by rw [hcolumn, hsize]; exact hroom)) rfl
    (fun cells cells' => putCells_solid) u hu
  split_ifs
  · exact (hput.2 _).changed
  · exact (hput.2 _).displayOnlyChanged

theorem writeCharacter_whole (hg : Geometry s) (h : AllPaired M s)
    (hwidth : M.glyphWidth (.char ch) = width) :
    Ensures (s.writeCharacter M ch width) (Whole M) := by
  have hfit : M.glyphWidth (.char (s.fitted ch width).1) = (s.fitted ch width).2 := by
    unfold fitted
    split_ifs
    · simp [TextMetrics.glyphWidth, hM.replacement]
    · exact hwidth
  rw [writeCharacter_eq]
  split_ifs with hwraps
  · intro s' hs'; obtain ⟨t, ht, hs'⟩ := bind_eq_some_iff.1 hs'
    obtain ⟨hsize, hcol, hgeo⟩ := softWrap_geometry hg t ht
    refine putCharacter_whole hM (softWrap_paired hM h t ht) hgeo.col hfit (fun hw => ?_) s' hs'
    rw [hsize, hcol]; have hpos := hg.cols_pos
    by_contra hone
    unfold fitted at hw
    split_ifs at hw with hroom
    · cases hw
    · exact hroom ⟨hw, .inl (by omega)⟩
  · exact putCharacter_whole hM h hg.col hfit fun hw => room_of_not_wrapsFirst hwraps hw

/-- A character put on a space of its own, which is one column wide. -/
theorem writeLeadingCombining_whole (hg : Geometry s) (h : Whole M s)
    (hwidth : M.strWidth [' ', ch] < 2) : Ensures (s.writeLeadingCombining ch) (Whole M) := by
  have hshort : utf8Len [' ', ch] ≤ maxTerminalGraphemeBytes := by
    have hch := ch.utf8Size_le_four; have hspace : Char.utf8Size ' ' = 1 := rfl
    simp only [utf8Len, maxTerminalGraphemeBytes, map_cons, map_nil, sum_cons, sum_nil]
    omega
  intro s' hs'
  obtain ⟨t, ht, hs'⟩ := bind_eq_some_iff.1 hs'
  obtain ⟨r, cells, hr, hclear, hrow⟩ := row_editCells ht
  have hcleared := (h.paired.active r (mem_of_getElem? hr)).clearWideAt hM hg.col hclear
  have hpaired := editCells_paired h.paired (fun r _ hr cells hcells =>
    (hr.clearWideAt hM hg.col hcells).paired) t ht
  rw [if_pos hshort] at hs'
  obtain ⟨u, hu, hs'⟩ := bind_eq_some_iff.1 hs'
  obtain rfl := some.inj hs'
  have hput := editCells_whole hpaired.2 (fun r hr _ cells hcells => by
    obtain ⟨hlt, rfl⟩ := setCell_some hcells; obtain rfl := some.inj (hrow.symm.trans hr)
    exact hcleared.paired.set hlt hcleared.notContinuation hcleared.notWide rfl
      (isWide_of_width (by dsimp only [TextMetrics.glyphWidth]; omega))) rfl setCell_reads u hu
  obtain ⟨main, alt, nextId, rfl⟩ := hput.1
  exact (hput.2 _).changed

theorem wideAt_replicate {n i : ℕ} : wideAt M (List.replicate n (blank style)) i = false := by
  rw [wideAt, getElem?_replicate]
  split_ifs
  · exact hM.isWide_blank
  · rfl

/-- The row that a line wrapped in row `row` goes on in begins with no wide glyph in its second
    column, when the row below does not. -/
theorem softWrap_second (h : s.softWrap = some s')
    (hbelow : s.cursor.row ≠ s.scrollBottom → ∀ r, s.active.rows[s.cursor.row + 1]? = some r →
      wideAt M r.cells 1 = false)
    (hr : s'.active.rows[s'.cursor.row]? = some r) : wideAt M r.cells 1 = false := by
  rcases softWrap_next h with ⟨hne, hrow, hnext⟩ | ⟨-, hrow, hnew⟩
  · rw [hrow] at hr; obtain ⟨r', hr', hcells⟩ := hnext r hr; rw [hcells]
    exact hbelow hne r' hr'
  · rw [hrow] at hr; rw [hnew r hr]; exact wideAt_replicate hM

theorem wrapPreviousGrapheme_whole (h : AllPaired M s)
    (hclear : ∀ r, s.active.rows[row]? = some r → Paired M r.cells →
      Ensures (setCell lead (blank s.style) r.cells) (Paired M))
    (hwide : 2 ≤ M.strWidth cluster) (hbelow : row ≠ s.scrollBottom →
      ∀ r, s.active.rows[row + 1]? = some r → wideAt M r.cells 1 = false) :
    Ensures (s.wrapPreviousGrapheme row lead style cluster) (Whole M) := by
  refine Ensures.bind (fun t ht => ?_ : Ensures _ fun t => AllPaired M t ∧
    t.scrollBottom = s.scrollBottom ∧ t.active.rows[row + 1]? = s.active.rows[row + 1]?)
    fun t ht => ?_
  · obtain ⟨hgrid, hpaired⟩ := editCells_paired h hclear t ht
    obtain ⟨r, cells, -, -, rfl⟩ := editCells_some ht
    refine ⟨hpaired, ?_, by rw [active_setRows, getElem?_set_ne (by omega)]⟩
    obtain ⟨main, alt, nextId, heq⟩ := hgrid; rw [heq]
  obtain ⟨hpaired, hbottom, hrow⟩ := ht; intro s' hs'
  obtain ⟨u, hu, hs'⟩ := bind_eq_some_iff.1 hs'
  have hsecond {r : TerminalRow} (hr : u.active.rows[u.cursor.row]? = some r) :
      wideAt M r.cells 1 = false :=
    softWrap_second hM hu (fun hne r hr => hbelow (hbottom ▸ hne) r (hrow ▸ hr)) hr
  refine Ensures.bind (editCells_whole (softWrap_paired hM (hpaired.withCursor _) u hu)
    (x := ⟨.cluster cluster, style⟩) (fun r hr hp cells hcells => ?_) rfl
    (fun cells cells' hcells => ?_)) (fun v hv => ensures_some (hv.2 _).changed) s' hs'
  · obtain ⟨a, ha, hcells⟩ := bind_eq_some_iff.1 hcells; obtain ⟨-, rfl⟩ := setCell_some ha
    obtain ⟨hlt, rfl⟩ := setCell_some hcells; rw [length_set] at hlt
    have hw : M.isWide ⟨.cluster cluster, style⟩ = true :=
      TextMetrics.isWide_iff.2 (min_eq_right hwide)
    exact (hp.set_wide_iff hlt hp.first hw rfl).2 (hsecond hr)
  · obtain ⟨a, ha, hcells⟩ := bind_eq_some_iff.1 hcells; exact getElem?_putGlyph ha (.inr hcells)

theorem replacePreviousGrapheme_whole (hg : Geometry s) (h : Whole M s)
    (hlast : s.lastGrapheme = some (row, lead)) (hnext : ¬TakesNext M s row lead cluster)
    (hbelow : ¬TakesBelow M s row lead cluster) :
    Ensures (s.replacePreviousGrapheme M row lead cluster) (Whole M) := by
  obtain ⟨hrow, hlead⟩ := hg.last row lead hlast
  obtain ⟨x, hx⟩ := hg.cellAt hrow hlead
  have hsolid := h.last row lead x hlast hx
  -- what a glyph put in the place of the old one finds
  have hfinds (r : TerminalRow) (hr : s.active.rows[row]? = some r) :
      r.cells[lead]? = some x ∧ r.cells.length = s.size.cols := by
    refine ⟨by rw [← cellAt_of_row hr, hx], hg.activeRows r (mem_of_getElem? hr)⟩
  have hnarrow (hend : s.size.cols ≤ lead + 1) (r : TerminalRow)
      (hr : s.active.rows[row]? = some r) (y : Cell) (hy : y.isContinuation = false)
      (hyw : M.isWide y = false) (hpaired : Paired M r.cells) :
      Ensures (setCell lead y r.cells) (Paired M) := by
    intro cells hcells; obtain ⟨hlt, rfl⟩ := setCell_some hcells
    obtain ⟨hread, hlen⟩ := hfinds r hr
    refine hpaired.set hlt (by rw [continuationAt, hread]; exact hsolid) ?_ hy hyw
    by_contra hne
    have := hpaired.succ_lt (by simpa using hne); omega
  unfold replacePreviousGrapheme
  rw [hx, bind_eq_bind, bind_some]
  have hreplacement (st : Style) : M.isWide ⟨.char '\uFFFD', st⟩ = false :=
    isWide_of_width (by simp [TextMetrics.glyphWidth, hM.replacement])
  split_ifs with hone hclip hwraps
  · exact Ensures.bind (editCells_whole h.paired (fun r hr hp =>
      hnarrow (by omega) r hr _ rfl (hreplacement _) hp) rfl setCell_reads) fun t ht =>
        ensures_some (ht.2 _).changed
  · exact Ensures.bind (editCells_whole h.paired (fun r hr hp =>
      hnarrow (by omega) r hr _ rfl (hreplacement _) hp) rfl setCell_reads) fun t ht =>
        ensures_some (ht.2 _).changed
  · have hcols : s.size.cols ≠ 1 := fun hc => hone ⟨hwraps.1, hc⟩
    have hauto : s.modes.autowrap = true := by
      by_contra hoff
      exact hclip ⟨hwraps.1, hwraps.2, by simpa using hoff⟩
    refine wrapPreviousGrapheme_whole hM h.paired
      (fun r hr hp => hnarrow hwraps.2 r hr _ rfl hM.isWide_blank hp) (by omega) fun hne r hr => ?_
    by_contra hw
    exact hbelow ⟨⟨by omega, hcols, hwraps.2, hauto⟩, hne, r, hr, by simpa using hw⟩
  refine Ensures.bind (editCells_whole h.paired (fun r hr hp => ?_) rfl
    fun cells cells' => replaceCells_solid) fun t ht => ensures_some (ht.2 _).changed
  obtain ⟨hread, hlen⟩ := hfinds r hr
  refine hp.replaceCells hM hread hsolid rfl rfl hlen fun htwo => ?_
  by_contra hne
  have hroom : lead + 1 < s.size.cols := by
    by_contra hle
    exact hwraps ⟨htwo, by omega⟩
  exact hnext ⟨by omega, hroom, r, hr, by simpa using hne⟩

end

theorem joined_last {answer : ℕ × ℕ × List Char} (h : s.joined M ch = some (some answer)) :
    s.lastGrapheme = some (answer.1, answer.2.1) := by
  unfold joined at h
  cases hlast : s.lastGrapheme with
  | none => rw [hlast] at h; cases h
  | some place =>
    rw [hlast] at h; obtain ⟨x, -, h⟩ := bind_eq_some_iff.1 h; have h := some.inj h
    split_ifs at h
    cases h; rfl

theorem writeChar_whole (hM : M.Plain) (hg : Geometry s) (h : Whole M s) (htears : ¬Tears M s ch) :
    Ensures (s.writeChar M ch) (Whole M) := by
  intro s' hs'
  rcases writeChar_cases hs' with ⟨-, rfl⟩ | ⟨hcontrol, hcase⟩
  · exact h
  rcases hcase with ⟨row, lead, cluster, hjoined, hcase⟩ | ⟨hjoined, hcase⟩
  · rcases hcase with ⟨-, rfl⟩ | ⟨hshort, hs'⟩
    · exact h
    refine replacePreviousGrapheme_whole hM hg h (joined_last hjoined) (fun ht => ?_)
      (fun ht => ?_) s' hs'
    · exact htears ⟨hcontrol, .inl ⟨row, lead, cluster, hjoined, hshort, .inl ht⟩⟩
    · exact htears ⟨hcontrol, .inl ⟨row, lead, cluster, hjoined, hshort, .inr ht⟩⟩
  rcases hcase with ⟨hzero, hs'⟩ | ⟨-, hs'⟩
  · refine writeLeadingCombining_whole hM hg h (not_le.1 fun hwide => ?_) s' hs'
    exact htears ⟨hcontrol, .inr ⟨hjoined, hzero, hwide⟩⟩
  · exact writeCharacter_whole hM hg h.paired rfl s' hs'

theorem writeChar_geometry (h : Geometry s) : Ensures (s.writeChar M ch) Geometry := by
  by_cases hfalls : Falls M s ch
  · rw [writeChar_panics h hfalls]; exact fun _ hs' => nomatch hs'
  · exact (writeChar_safe h hfalls).ensures

theorem writeText_whole (hM : M.Plain) : ∀ {text : List Char} {s : TerminalScreen}, Geometry s →
    Whole M s → (∀ p ∈ textOn M s text, ¬Tears M p.1 p.2) →
    Ensures (s.writeText M text) (Whole M)
  | [], _, _, h, _ => ensures_some h
  | ch :: text, s, hg, h, htears => by
    intro s' hs'; obtain ⟨t, ht, hs'⟩ := bind_eq_some_iff.1 hs'
    have hfirst := writeChar_whole hM hg h (htears (s, ch) mem_cons_self) t ht
    exact writeText_whole hM (writeChar_geometry hg t ht) hfirst
      (fun p hp => htears p ((mem_textOn_cons ht).2 (.inr hp))) s' hs'

end

/-! ## Steps -/

section
variable {M : TextMetrics} {s s' : TerminalScreen}

theorem paired_gridNew (hM : M.Plain) (size : CellSize) (nextId : ℕ) :
    ∀ r ∈ (Grid.new size nextId).1.rows, Paired M r.cells := by
  intro r hr
  obtain ⟨i, -, rfl⟩ := mem_map.1 hr
  exact paired_replicate hM

theorem allPaired_new (hM : M.Plain) (size : CellSize) (scrollbackRows : ℕ) :
    AllPaired M (new size scrollbackRows) where
  main := paired_gridNew hM size 1
  alt := paired_gridNew hM size _
  history _ hr := nomatch hr

theorem AllPaired.setAlternate (hM : M.Plain) (h : AllPaired M s) (mode : AlternateScreenMode)
    (enabled : Bool) : PairedStep M s (s.setAlternate mode enabled) := by
  have hnew := paired_gridNew hM s.size s.nextLineId
  unfold TerminalScreen.setAlternate
  split_ifs with hsame henabled
  · exact ⟨rfl, h⟩
  · cases mode with
    | mode47 => exact ⟨rfl, h.main, h.alt, h.history⟩
    | mode1047 | mode1049 => exact ⟨rfl, h.main, hnew, h.history⟩
  cases mode with
  | mode47 | mode1047 => exact ⟨rfl, h.main, h.alt, h.history⟩
  | mode1049 =>
    unfold leaveAlternate; rw [if_pos rfl]
    split
    · exact ⟨rfl, h.main, h.alt, h.history⟩
    · exact ⟨rfl, h.main, h.alt, h.history⟩

theorem AllPaired.setMode (h : AllPaired M s) (mode : TerminalMode) (enabled : Bool) :
    PairedStep M s (s.setMode mode enabled) := by
  unfold TerminalScreen.setMode
  cases mode with
  | synchronizedOutput =>
    unfold switchMode
    split_ifs <;> exact ⟨rfl, h.main, h.alt, h.history⟩
  | _ => exact ⟨rfl, h.main, h.alt, h.history⟩

theorem perform_paired (hM : M.Plain) (hg : Geometry s) (h : AllPaired M s) {event : AnsiEvent}
    (htext : ∀ text, event ≠ .text text) : Ensures (s.perform M event) (PairedStep M s) := by
  have hcol {up : Bool} {n : ℕ} : Ensures ((s.moveVertical up n).bind fun t =>
      some { t with cursor := { t.cursor with col := 0 } }) (PairedStep M s) :=
    (moveVertical_paired h).bind fun t ht => ensures_some ⟨ht.1, ht.2.withCursor _⟩
  cases event with
  | text text => exact absurd rfl (htext text)
  | lineFeed | index => exact lineFeed_paired hM h
  | nextLine => exact lineFeed_paired hM (h.withCursor _)
  | reverseIndex => exact reverseIndex_paired hM h
  | cursorUp | cursorDown => exact moveVertical_paired h
  | cursorNextLine | cursorPreviousLine => exact hcol
  | eraseDisplay mode => exact eraseDisplay_paired hM h hg.col
  | eraseLineMode | eraseToEol | eraseLine => exact eraseLine_paired hM h hg.col
  | eraseCharacters n => exact eraseCharacters_paired hM h
  | insertCharacters n => exact (insertCharacters_paired hM h).mono fun _ ht => ht.1
  | deleteCharacters n => exact deleteCharacters_paired hM h
  | insertLines n => exact insertLines_paired hM h
  | deleteLines n => exact deleteLines_paired hM h
  | scrollUp n => exact scrollUp_paired hM h
  | scrollDown n => exact scrollDown_paired hM h
  | alternateScreen mode enabled => exact ensures_some (h.setAlternate hM mode enabled)
  | alternateScreenEnter | alternateScreenExit => exact ensures_some (h.setAlternate hM _ _)
  | setMode mode enabled => exact ensures_some (h.setMode mode enabled)
  | setScrollingRegion top bottom =>
    refine ensures_some ?_; unfold setScrollingRegion; dsimp only
    split_ifs <;> exact ⟨rfl, h.main, h.alt, h.history⟩
  | restoreCursor =>
    refine ensures_some ?_
    cases s.saved with
    | none => exact ⟨rfl, h⟩
    | some saved => exact ⟨rfl, h.main, h.alt, h.history⟩
  | saveCursor =>
    refine ensures_some ?_; unfold saveCursor
    split_ifs <;> exact ⟨rfl, h.main, h.alt, h.history⟩
  | designateCharacterSet slot charset =>
    cases slot <;> exact ensures_some ⟨rfl, h.main, h.alt, h.history⟩
  | _ => exact ensures_some ⟨rfl, h.main, h.alt, h.history⟩

end

/-! ## Resizes -/

section
variable {M : TextMetrics} {s s' : TerminalScreen}

/-- The row being filled is paired, with nothing of a wide glyph from the column on that it is
    filled to. -/
structure PairedPart (M : TextMetrics) (l : ReflowLine) (st : Reflow) : Prop where
  shape : Shape l st
  rows : ∀ r ∈ st.rows, Paired M r.cells
  part : Paired M st.part
  free : ∀ i, st.col ≤ i → continuationAt st.part i = false ∧ wideAt M st.part i = false

variable {l : ReflowLine} {st st' : Reflow} {source : ℕ} {more : Bool} {x : Cell} {style : Style}

theorem free_replicate (hM : M.Plain) {n i : ℕ} :
    continuationAt (List.replicate n (blank style)) i = false ∧
      wideAt M (List.replicate n (blank style)) i = false := by
  refine ⟨?_, wideAt_replicate hM⟩
  cases i with
  | zero => exact (paired_replicate hM).first
  | succ i => rw [(paired_replicate hM).next, wideAt_replicate hM]

theorem PairedPart.wrap (hM : M.Plain) (h : PairedPart M l st) (hfill : l.fill = blank style) :
    PairedPart M l (st.wrap l) where
  shape := h.shape.wrap
  rows r hr := by
    rcases mem_append.1 hr with hr | hr
    · exact h.rows r hr
    · rw [mem_singleton.1 hr]; exact h.part
  part := by
    show Paired M (List.replicate l.cols l.fill)
    rw [hfill]; exact paired_replicate hM
  free i _ := by rw [Reflow.wrap, hfill]; exact free_replicate hM

theorem PairedPart.fit (hM : M.Plain) (h : PairedPart M l st) (hfill : l.fill = blank style)
    (width : ℕ) : PairedPart M l (st.fit l width) := by
  unfold Reflow.fit
  split_ifs
  · exact h.wrap hM hfill
  · exact h

theorem displayGlyph_glyphWidth (hM : M.Plain) (cols : ℕ) (hx : x.isContinuation = false) :
    Cell.isContinuation ⟨(displayGlyph M cols x).1, x.style⟩ = false ∧
      (M.isWide ⟨(displayGlyph M cols x).1, x.style⟩ = true ↔ (displayGlyph M cols x).2 = 2) := by
  unfold displayGlyph
  split_ifs with hone
  · refine ⟨rfl, ?_⟩; rw [TextMetrics.isWide_iff]; simp [TextMetrics.glyphWidth, hM.replacement]
  refine ⟨hx, ?_⟩; rw [TextMetrics.isWide_iff]
  have hle : M.glyphWidth x.glyph ≤ 2 := by
    unfold TextMetrics.glyphWidth; cases x.glyph <;> dsimp only <;> omega
  dsimp only [sourceWidth]; omega

theorem PairedPart.finish (hM : M.Plain) (h : PairedPart M l st) (hfill : l.fill = blank style) :
    PairedPart M l (st.finish l more) := by
  unfold Reflow.finish
  split_ifs
  · exact h.wrap hM hfill
  · exact h

theorem reflowCell_paired (hM : M.Plain) (hfill : l.fill = blank style)
    (hx : x.isContinuation = false) (h : PairedPart M l st) (hcol : st.col < l.cols) :
    Yields (reflowCell M l source more x st) fun st' =>
      PairedPart M l st' ∧ (more = true → st'.col < l.cols) := by
  obtain ⟨st', heq, hshape, hroom⟩ := @reflowCell_safe M l source more x st h.shape hcol
  refine ⟨st', heq, ?_, hroom⟩
  have hfit := h.fit hM hfill (displayGlyph M l.cols x).2
  obtain ⟨hglyph, hwide⟩ := displayGlyph_glyphWidth hM l.cols hx
  rw [reflowCell_eq] at heq
  obtain ⟨a, ha, heq⟩ := bind_eq_some_iff.1 heq
  obtain ⟨b, hb, heq⟩ := bind_eq_some_iff.1 heq
  obtain rfl := some.inj heq
  have hwidth := @displayGlyph_width M l.cols x
  obtain ⟨hcont, hnarrow⟩ := hfit.free _ le_rfl
  have hpart : Paired M b := hfit.part.putGlyph hglyph hwide hcont hnarrow
    (fun _ => (hfit.free _ (Nat.le_succ _)).2) b (bind_eq_some_iff.2 ⟨a, ha, hb⟩)
  have hlen := hfit.shape.part
  obtain ⟨hlt, rfl⟩ := setCell_some ha
  unfold whenWide at hb
  split_ifs at hb with htwo
  · obtain ⟨hlt', rfl⟩ := setCell_some hb
    refine PairedPart.finish hM
      ⟨⟨by simpa [HasLength] using hlen, hfit.shape.rows⟩, hfit.rows, hpart, fun i hi => ?_⟩ hfill
    dsimp only at hi ⊢
    rw [continuationAt_set hlt', wideAt_set hlt', continuationAt_set hlt, wideAt_set hlt,
      if_neg (by omega), if_neg (by omega), if_neg (by omega), if_neg (by omega)]
    exact hfit.free i (by omega)
  obtain rfl := some.inj hb
  refine PairedPart.finish hM
    ⟨⟨by simpa [HasLength] using hlen, hfit.shape.rows⟩, hfit.rows, hpart, fun i hi => ?_⟩ hfill
  dsimp only at hi ⊢
  rw [continuationAt_set hlt, wideAt_set hlt, if_neg (by omega), if_neg (by omega)]
  exact hfit.free i (by omega)

theorem reflowLine_paired (hM : M.Plain) (hcols : 0 < cols) {cursor : CursorPlace}
    {acc : List TerminalRow × ℕ} {line : LogicalLine}
    (hlen : ∀ r ∈ acc.1, HasLength cols r.cells) (hacc : ∀ r ∈ acc.1, Paired M r.cells) :
    Yields (reflowLine M cols style cursor acc line) fun acc' =>
      (∀ r ∈ acc'.1, HasLength cols r.cells) ∧ ∀ r ∈ acc'.1, Paired M r.cells := by
  obtain ⟨acc', heq, hlen'⟩ := @reflowLine_safe M cols hcols style cursor acc line hlen
  refine ⟨acc', heq, hlen', ?_⟩
  unfold reflowLine at heq
  by_cases hempty : sanitizeRow M style line.cells = []
  · rw [if_pos hempty] at heq; obtain rfl := some.inj heq; intro r hr
    rcases mem_append.1 hr with hr | hr
    · exact hacc r hr
    · rw [mem_singleton.1 hr]; exact paired_replicate hM
  rw [if_neg hempty] at heq; obtain ⟨st, hst, heq⟩ := bind_eq_some_iff.1 heq
  obtain rfl := some.inj heq
  have hpart := (reflowCells_safe (I := PairedPart M _)
    (fun hx h hcol => reflowCell_paired hM rfl hx h hcol)
    ⟨⟨length_replicate, hlen⟩, hacc, paired_replicate hM, fun i _ => free_replicate hM⟩
    (.inl hcols)).ensures st hst
  intro r hr
  rcases mem_append.1 hr with hr | hr
  · exact hpart.rows r hr
  · rw [mem_singleton.1 hr]; exact hpart.part

theorem reflowedRows_paired (hM : M.Plain) {size : CellSize} (hcols : 0 < size.cols) :
    Ensures (s.reflowedRows M size) fun acc => ∀ r ∈ acc.1, Paired M r.cells := by
  have hline (cursor : CursorPlace) (acc : List TerminalRow × ℕ)
      (h : (∀ r ∈ acc.1, HasLength size.cols r.cells) ∧ ∀ r ∈ acc.1, Paired M r.cells)
      (line : LogicalLine) : Ensures (reflowLine M size.cols s.style cursor acc line) fun acc =>
        (∀ r ∈ acc.1, HasLength size.cols r.cells) ∧ ∀ r ∈ acc.1, Paired M r.cells :=
    (reflowLine_paired hM hcols h.1 h.2).ensures
  refine Ensures.bind (Q := fun _ => True) (fun _ _ => trivial) fun cursor _ => ?_
  refine Ensures.bind (Q := fun _ => True) (fun _ _ => trivial) fun lines _ => ?_
  refine (ensures_foldlM (fun acc h line _ => hline cursor acc h line) ?_).mono fun acc h => h.2
  exact ⟨nofun, nofun⟩

theorem resizeTo_paired (hM : M.Plain) {size : CellSize} (hcols : 0 < size.cols) :
    Ensures (s.resizeTo M size) (Whole M) := by
  intro s' hs'
  simp only [resizeTo, reflowMain, bind, pure, bind_eq_some_iff, some.injEq] at hs'
  obtain ⟨t, ⟨cursor, -, acc, hacc, ht⟩, rfl⟩ := hs'
  have hrows := reflowedRows_paired hM hcols acc hacc
  have hmain (nextId count : ℕ) (style : Style) :
      ∀ r ∈ acc.1 ++ freshRows size.cols nextId count style, Paired M r.cells := by
    intro r hr
    rcases mem_append.1 hr with hr | hr
    · exact hrows r hr
    · obtain ⟨i, -, rfl⟩ := mem_map.1 hr; exact paired_replicate hM
  have halt (grid : Grid) (nextId : ℕ) (style : Style) :
      ∀ r ∈ (resizeGridClip M grid size nextId style).1.rows, Paired M r.cells := by
    intro r hr
    rcases mem_append.1 hr with hr | hr
    · obtain ⟨r', -, rfl⟩ := mem_map.1 (mem_of_mem_take hr); exact paired_sanitizeRow hM
    · obtain ⟨i, -, rfl⟩ := mem_map.1 hr; exact paired_replicate hM
  subst ht
  refine ⟨AllPaired.changed (AllPaired.enforceHistoryBudget ⟨?_, halt _ _ _, ?_⟩), ?_⟩
  · split_ifs
    all_goals exact fun r hr => hmain _ _ _ r (mem_of_mem_drop hr)
  · split_ifs
    all_goals exact fun r hr => hmain _ _ _ r (mem_of_mem_take hr)
  refine lastSolid_none ?_
  split_ifs <;> rfl

/-! ## Runs -/

/-- A step that tears no pair: it is no text with a character that does. -/
def KeepsPairs (M : TextMetrics) (s : TerminalScreen) : ScreenInput → Prop
  | .event (.text text) => ∀ p ∈ textOn M s text, ¬Tears M p.1 p.2
  | _ => True

instance (M : TextMetrics) (s : TerminalScreen) (input : ScreenInput) :
    Decidable (KeepsPairs M s input) :=
  let written := match input with
    | .event (.text text) => textOn M s text
    | _ => []
  decidable_of_iff (∀ p ∈ written, ¬Tears M p.1 p.2) (by
    unfold KeepsPairs written
    split <;> simp)

theorem step_whole (hM : M.Plain) (hg : Geometry s) (h : Whole M s) {input : ScreenInput}
    (hkeeps : KeepsPairs M s input) : Ensures (s.step M input) (Whole M) := by
  cases input with
  | event event =>
    by_cases htext : ∃ text, event = .text text
    · obtain ⟨text, rfl⟩ := htext; exact writeText_whole hM hg h hkeeps
    rw [not_exists] at htext
    have hstart : Geometry { s with lastGrapheme := none } :=
      { hg with last := fun _ _ heq => nomatch heq }
    have hperform := (perform_paired hM hstart ⟨h.paired.main, h.paired.alt, h.paired.history⟩
      htext).mono fun t ht => (⟨ht.2, lastSolid_none ht.1⟩ : Whole M t)
    cases event with
    | text text => exact absurd rfl (htext text)
    | _ => exact hperform
  | resize size =>
    rw [step_resize]
    split_ifs with hnew
    · exact resizeTo_paired hM hnew.1.2.1
    · exact ensures_some h

/-- **Wide pairs.**  In every run none of whose steps tears a pair, second columns stand right
    of wide glyphs and nowhere else, in every row of every screen that is reached. -/
theorem run_paired (hM : M.Plain) (h : Reached M (KeepsPairs M) s) : AllPaired M s := by
  suffices hwhole : Whole M s from hwhole.paired
  induction h with
  | new _ scrollbackRows => exact ⟨allPaired_new hM _ _, lastSolid_none rfl⟩
  | step h hok hstep ih => exact step_whole hM h.geometry ih hok _ hstep

end

theorem plain_heartMetrics : heartMetrics.Plain where
  space := by decide
  replacement := by decide

/-- A letter is written over the second half of a wide character, a heart below it is made wide,
    and the rows become too short for the wide characters at their ends. -/
def overwrittenInputs : List ScreenInput :=
  [.event (.text ['中', 'x', '中']), .event (.cursorPosition 1 2), .event (.text ['y']),
    .event (.cursorPosition 2 1), .event (.text ['❤', '\uFE0F', 'z', '中']), .resize ⟨3, 4⟩]

theorem run_paired_overwritten : ∃ s,
    overwrittenInputs.foldlM (step heartMetrics) (new ⟨2, 5⟩ 3) = some s ∧
      AllPaired heartMetrics s := by
  have hrun : (overwrittenInputs.foldlM (fun s input =>
      if KeepsPairs heartMetrics s input then s.step heartMetrics input else none)
      (new ⟨2, 5⟩ 3)).isSome = true := by decide +kernel
  obtain ⟨s, hs⟩ := isSome_iff_exists.1 hrun
  have hnew : Reached heartMetrics (KeepsPairs heartMetrics) (new ⟨2, 5⟩ 3) := .new (by decide) 3
  obtain ⟨hreached, hfold⟩ := hnew.run_checked hs
  exact ⟨s, hfold, run_paired plain_heartMetrics hreached⟩

/-- A heart before a wide character is made wide. -/
def heartInputs : List ScreenInput :=
  [.event (.cursorPosition 1 2), .event (.text ['中']), .event (.cursorPosition 1 1),
    .event (.text ['❤', '\uFE0F'])]

/-- The second column of the wide character is left behind the heart's. -/
theorem run_not_paired :
    ¬∀ s : TerminalScreen, Reachable heartMetrics s → AllPaired heartMetrics s := by
  intro hall
  have hrun : ((heartInputs.foldlM (step heartMetrics) (new ⟨2, 5⟩ 0)).bind fun s =>
      s.main.rows[0]?.map fun r => (continuationAt r.cells 2, wideAt heartMetrics r.cells 1)) =
        some (true, false) := by decide +kernel
  obtain ⟨s, hs, hrun⟩ := bind_eq_some_iff.1 hrun
  obtain ⟨r, hr, hcells⟩ := map_eq_some_iff.1 hrun
  have hnew : Reachable heartMetrics (new ⟨2, 5⟩ 0) := .new (by decide) 0
  have hpaired := (hall s (hnew.run hs)).main r (mem_of_getElem? hr)
  obtain ⟨hcont, hwide⟩ := Prod.mk.inj hcells
  rw [hpaired.next, hwide] at hcont
  cases hcont

end TerminalScreen

end Pmacs
