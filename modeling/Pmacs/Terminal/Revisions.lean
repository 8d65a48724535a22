/-
  When the mapping revision moves (screen.rs).

  * `Denotation`: what the coordinates of the active screen denote.
  * `Revised`: a change of it moves the mapping revision, and the generation with it.
  * `step_revised_iff`: a step is revised unless it writes a text of quiet characters,
    one of which strays.
-/
import Pmacs.Terminal.ScreenFrames

namespace Pmacs

structure Denotation where
  size : CellSize
  altActive : Bool
  /-- The glyphs, line id and offset of every visible row. -/
  rows : List (List Glyph × ℕ × ℕ)
  history : List TerminalRow
deriving DecidableEq

/-- A second column is at `(row, col)`. -/
def Denotation.continuationAt (d : Denotation) (row col : ℕ) : Prop :=
  ∃ r, d.rows[row]? = some r ∧ r.1[col]? = some .continuation

/-- Second columns are lost, and nothing else becomes one. -/
def Denotation.Loses (d d' : Denotation) : Prop :=
  (∀ row col, d'.continuationAt row col → d.continuationAt row col) ∧
    ∃ row col, d.continuationAt row col ∧ ¬d'.continuationAt row col

variable {d : Denotation}

theorem Denotation.Loses.ne {d' : Denotation} (h : d.Loses d') : d' ≠ d := by
  rintro rfl
  obtain ⟨-, row, col, hin, hout⟩ := h
  exact hout hin

theorem Denotation.Loses.trans {d' d'' : Denotation} (h : d.Loses d') (h' : d'.Loses d'') :
    d.Loses d'' := by
  obtain ⟨hle, row, col, hin, hout⟩ := h
  exact ⟨fun i j hc => hle i j (h'.1 i j hc), row, col, hin, fun hc => hout (h'.1 row col hc)⟩

def Denotation.setGlyphs (d : Denotation) (row : ℕ) (glyphs : List Glyph) : Denotation :=
  { d with rows := d.rows.modify row fun r => (glyphs, r.2) }

variable {row : ℕ} {r : List Glyph × ℕ × ℕ}

theorem Denotation.setGlyphs_self (h : d.rows[row]? = some r) : d.setGlyphs row r.1 = d := by
  have hrows : (d.rows.modify row fun r' => (r.1, r'.2)) = d.rows := by
    apply List.ext_getElem?; intro i; rw [List.getElem?_modify]
    split_ifs with hi
    · subst hi; rw [h]; rfl
    · exact id_map _
  rw [setGlyphs, hrows]

theorem Denotation.loses_setGlyphs {col : ℕ}
    (h : d.rows[row]? = some r) (hcol : r.1[col]? = some .continuation) :
    d.Loses (d.setGlyphs row (r.1.set col (.char ' '))) := by
  have hrow : (d.setGlyphs row (r.1.set col (.char ' '))).rows[row]? =
      some (r.1.set col (.char ' '), r.2) := by simp [setGlyphs, h]
  refine ⟨fun i j hc => ?_, row, col, ⟨r, h, hcol⟩, ?_⟩
  · obtain ⟨r', hr', hj⟩ := hc
    by_cases hi : row = i
    · subst hi; obtain rfl := Option.some.inj (hr'.symm.trans hrow); rw [List.getElem?_set] at hj
      split_ifs at hj with hij
      · cases hj
      · exact ⟨r, h, hj⟩
    simp only [setGlyphs, List.getElem?_modify, if_neg hi] at hr'
    exact ⟨r', (id_map _).symm.trans hr', hj⟩
  rintro ⟨r', hr', hj⟩; obtain rfl := Option.some.inj (hr'.symm.trans hrow)
  rw [List.getElem?_set, if_pos rfl] at hj
  split_ifs at hj
  cases hj

namespace TerminalScreen

open Lib List Option

def rowDenotes (r : TerminalRow) : List Glyph × ℕ × ℕ :=
  (r.cells.map (·.glyph), r.logicalLineId, r.cellOffset)

def denotes (s : TerminalScreen) : Denotation :=
  ⟨s.size, s.altActive, s.active.rows.map rowDenotes, s.main.history⟩

/-- A change of what is denoted moves the mapping revision, below its largest value; and the
    generation does not go back, and goes on, below its largest value, when the mapping
    revision does. -/
structure Revised (s s' : TerminalScreen) : Prop where
  moves : s'.denotes ≠ s.denotes → s.mappingRevision < u64Max →
    s.mappingRevision < s'.mappingRevision
  forward : Forward s s'

/-- Nothing that is denoted changed. -/
structure Still (s s' : TerminalScreen) : Prop where
  same : s'.denotes = s.denotes
  forward : Forward s s'

section
variable {M : TextMetrics} {s s' t : TerminalScreen} {ch : Char} {n : ℕ}

theorem Bumped.revised (h : Bumped s s') : Revised s s' :=
  ⟨fun _ => h.mapping_lt, h.forward⟩

theorem Still.revised (h : Still s s') : Revised s s' :=
  ⟨fun hne => absurd h.same hne, h.forward⟩

theorem still_displayOnlyChanged (hd : t.denotes = s.denotes)
    (hm : t.mappingRevision = s.mappingRevision) (hg : t.generation = s.generation) :
    Still s t.displayOnlyChanged :=
  ⟨hd, (Forward.of_eq hm hg).trans (forward_displayOnlyChanged)⟩

/-! ## Steps that end in `changed` -/

theorem OnGrid.bumped (h : OnGrid s t) : Bumped s t.changed := ⟨t, h.forward, rfl⟩

theorem forward_cursor (s : TerminalScreen) (c : Cursor) : Forward s { s with cursor := c } :=
  .of_eq rfl rfl

theorem OnGrid.bumped_cursor (h : OnGrid s t) {c : Cursor} :
    Bumped s { t with cursor := c }.changed :=
  ⟨{ t with cursor := c }, h.forward.trans (forward_cursor t c), rfl⟩

theorem bumped_scrollUpInternal {continuation : Option (ℕ × ℕ)}
    (h : s.scrollUpInternal n continuation = some t) : Bumped s t.changed :=
  ⟨t, (forward_cursor s _).trans (onGrid_scrollUpInternal h).forward, rfl⟩

theorem bumped_scrollUp (h : s.scrollUp n = some s') : Bumped s s' := by
  simp only [scrollUp, bind, pure, bind_eq_some_iff, some.injEq] at h
  obtain ⟨t, ht, rfl⟩ := h
  refine ⟨{ t with cursor := s.cursor }, ?_, rfl⟩
  exact ((forward_cursor s _).trans (onGrid_scrollUpInternal ht).forward).trans
    (forward_cursor t s.cursor)

theorem bumped_scrollDown (h : s.scrollDown n = some s') : Bumped s s' := by
  simp only [scrollDown, bind, pure, bind_eq_some_iff, some.injEq] at h
  obtain ⟨region, -, t, ht, rfl⟩ := h
  exact (onGrid_times onGrid_shiftRows ht).bumped

theorem insertLines_cases (h : s.insertLines n = some s') : Bumped s s' ∨ s' = s := by
  unfold insertLines at h
  split_ifs at h with hout
  · exact .inr (some.inj h).symm
  simp only [bind, pure, bind_eq_some_iff, some.injEq] at h; obtain ⟨t, ht, rfl⟩ := h
  exact .inl (onGrid_times onGrid_shiftRows ht).bumped

theorem deleteLines_cases (h : s.deleteLines n = some s') : Bumped s s' ∨ s' = s := by
  unfold deleteLines at h
  split_ifs at h with hout
  · exact .inr (some.inj h).symm
  simp only [bind, pure, bind_eq_some_iff, some.injEq] at h; obtain ⟨t, ht, rfl⟩ := h
  exact .inl (onGrid_times onGrid_shiftRows ht).bumped

theorem bumped_softWrap (h : s.softWrap = some s') : Bumped s s' := by
  simp only [softWrap, bind, pure, bind_eq_some_iff] at h
  obtain ⟨r, -, a, ha, h⟩ := h
  have hforward := (onGrid_modifyRow ha).forward.trans (forward_cursor a ⟨s.cursor.row, 0, false⟩)
  split_ifs at h with hbottom
  · obtain ⟨b, hb, h⟩ := bind_eq_some_iff.1 h; obtain rfl := some.inj h
    exact hforward.bumped (bumped_scrollUpInternal hb)
  obtain ⟨b, hb, h⟩ := bind_eq_some_iff.1 h; obtain rfl := some.inj h
  exact hforward.bumped ((onGrid_modifyRow hb).bumped_cursor)

theorem bumped_lineFeed (h : s.lineFeed = some s') : Bumped s s' := by
  simp only [lineFeed, bind, pure, bind_eq_some_iff] at h
  obtain ⟨a, ha, b, hb, h⟩ := h
  have hgrid := (onGrid_modifyRow ha).trans (onGrid_breakChainAfter hb)
  have hforward : Forward s b := (forward_cursor s _).trans hgrid.forward
  split_ifs at h with hbottom hlast
  · obtain ⟨c, hc, h⟩ := bind_eq_some_iff.1 h; obtain rfl := some.inj h
    exact hforward.bumped (bumped_scrollUpInternal hc)
  · obtain rfl := some.inj h; exact ⟨_, hforward.trans (forward_cursor b _), rfl⟩
  · obtain rfl := some.inj h; exact ⟨b, hforward, rfl⟩

theorem reverseIndex_cases (h : s.reverseIndex = some s') : Bumped s s' ∨ Still s s' := by
  unfold reverseIndex at h
  dsimp only at h
  split_ifs at h with htop hfirst
  · exact .inl ((forward_cursor s _).bumped (bumped_scrollDown h))
  · obtain rfl := some.inj h; exact .inl ⟨_, forward_cursor s _, rfl⟩
  · obtain rfl := some.inj h; exact .inr ⟨rfl, .of_eq rfl rfl⟩

theorem bumped_eraseLine {mode : EraseMode} (h : s.eraseLine mode = some s') : Bumped s s' := by
  simp only [eraseLine, bind, pure, bind_eq_some_iff, some.injEq] at h
  obtain ⟨t, ht, rfl⟩ := h
  have hgrid : OnGrid s t := by
    cases mode with
    | all | saved => exact onGrid_clearRow ht
    | toEnd | toStart => exact onGrid_editCells ht
  exact hgrid.bumped_cursor

theorem bumped_eraseDisplay {mode : EraseMode} (h : s.eraseDisplay mode = some s') :
    Bumped s s' := by
  simp only [eraseDisplay, bind, pure, bind_eq_some_iff, some.injEq] at h
  obtain ⟨t, ht, rfl⟩ := h
  refine ⟨t, ?_, rfl⟩
  cases mode with
  | toEnd =>
    obtain ⟨a, ha, ht⟩ := bind_eq_some_iff.1 ht
    exact (bumped_eraseLine ha).forward.trans (onGrid_clearRows ht).forward
  | toStart =>
    obtain ⟨a, ha, ht⟩ := bind_eq_some_iff.1 ht
    exact (onGrid_clearRows ha).forward.trans (bumped_eraseLine ht).forward
  | all => exact (onGrid_clearRows ht).forward
  | saved =>
    obtain rfl := some.inj ht
    split_ifs
    · exact .refl s
    · exact Forward.of_eq rfl rfl

theorem bumped_eraseCharacters (h : s.eraseCharacters n = some s') : Bumped s s' := by
  simp only [eraseCharacters, bind, pure, bind_eq_some_iff, some.injEq] at h
  obtain ⟨t, ht, rfl⟩ := h
  exact (onGrid_editCells ht).bumped

theorem bumped_insertCharacters (h : s.insertCharacters M n = some s') : Bumped s s' := by
  simp only [insertCharacters, bind, pure, bind_eq_some_iff, some.injEq] at h
  obtain ⟨room, -, t, ht, rfl⟩ := h
  exact (onGrid_editCells ht).bumped_cursor

theorem bumped_deleteCharacters (h : s.deleteCharacters M n = some s') : Bumped s s' := by
  simp only [deleteCharacters, bind, pure, bind_eq_some_iff, some.injEq] at h
  obtain ⟨room, -, t, ht, rfl⟩ := h
  exact (onGrid_editCells ht).bumped_cursor

theorem setAlternate_cases (mode : AlternateScreenMode) (enabled : Bool) (s : TerminalScreen) :
    Bumped s (s.setAlternate mode enabled) ∨ s.setAlternate mode enabled = s := by
  unfold setAlternate
  split_ifs with hsame henabled
  · exact .inr rfl
  · refine .inl ⟨_, ?_, rfl⟩; unfold enterAlternate
    split_ifs <;> exact .of_eq rfl rfl
  have hleave : Forward s (s.leaveAlternate mode) := by
    unfold leaveAlternate; dsimp only
    split_ifs
    · split
      · refine Forward.trans ?_ (forward_displayOnlyChanged); exact .of_eq rfl rfl
      · exact .of_eq rfl rfl
    · exact .of_eq rfl rfl
  refine .inl ⟨_, hleave.trans ?_, rfl⟩; exact .of_eq rfl rfl

theorem bumped_setMode (mode : TerminalMode) (enabled : Bool) (s : TerminalScreen) :
    Bumped s (s.setMode mode enabled) := by
  have hswitch : Forward s (s.switchMode mode enabled) := by
    cases mode with
    | synchronizedOutput =>
      unfold switchMode
      split_ifs <;> exact .of_eq rfl rfl
    | _ => exact .of_eq rfl rfl
  exact ⟨_, hswitch.trans (forward_cursor _ _), rfl⟩

theorem setScrollingRegion_cases (top : ℕ) (bottom : Option ℕ) (s : TerminalScreen) :
    Bumped s (s.setScrollingRegion top bottom) ∨ s.setScrollingRegion top bottom = s := by
  unfold setScrollingRegion
  by_cases hin : top - 1 < bottom.getD s.size.rows - 1 ∧ bottom.getD s.size.rows - 1 < s.size.rows
  · rw [if_pos hin]
    refine .inl ⟨_, ?_, rfl⟩; exact .of_eq rfl rfl
  · rw [if_neg hin]; exact .inr rfl

theorem bumped_resizeTo {size : CellSize} (h : s.resizeTo M size = some s') : Bumped s s' := by
  simp only [resizeTo, reflowMain, bind, pure, bind_eq_some_iff, some.injEq] at h
  obtain ⟨t, ⟨cursor, -, rows, -, ht⟩, rfl⟩ := h
  refine ⟨_, ?_, rfl⟩
  subst ht
  split_ifs <;> exact .of_eq rfl rfl

theorem moveVertical_still {up : Bool} (h : s.moveVertical up n = some s') : Still s s' := by
  unfold moveVertical at h
  dsimp only at h
  split_ifs at h with hle
  all_goals
    obtain rfl := some.inj h; exact still_displayOnlyChanged rfl rfl rfl

/-! ## Characters -/

/-- The row that the cursor is on reads a glyph in the cursor's column already. -/
def Reads (s : TerminalScreen) (ch : Char) (width : ℕ) : Prop :=
  ∃ r x, s.active.rows[s.cursor.row]? = some r ∧ r.cells[s.cursor.col]? = some x ∧
    glyphChanged r.cells s.cursor.col width x ch = false

/-- A character is written over itself. -/
def Rewrites (M : TextMetrics) (s : TerminalScreen) (ch : Char) : Prop :=
  let width := min (M.charWidth ch) 2
  s.joined M ch = some none ∧ width ≠ 0 ∧ ¬s.WrapsFirst width ∧ s.modes.insert = false ∧
    s.Reads (s.fitted ch width).1 (s.fitted ch width).2

/-- A character that moves no mapping: it is dropped, as a control character or because the
    cluster gets too long, or written over itself. -/
def Quiet (M : TextMetrics) (s : TerminalScreen) (ch : Char) : Prop :=
  isControl (s.mapCharacter ch) = true ∨
    (∃ row lead cluster, s.joined M (s.mapCharacter ch) = some (some (row, lead, cluster)) ∧
      maxTerminalGraphemeBytes < utf8Len cluster) ∨
    Rewrites M s (s.mapCharacter ch)

/-- Right behind the character that is written over itself a second column stands. -/
def Strays (M : TextMetrics) (s : TerminalScreen) (ch : Char) : Prop :=
  let width := (s.fitted (s.mapCharacter ch) (min (M.charWidth (s.mapCharacter ch)) 2)).2
  isControl (s.mapCharacter ch) = false ∧ Rewrites M s (s.mapCharacter ch) ∧
    s.cursor.col + width ≤ s.size.cols ∧
    ∃ r, s.active.rows[s.cursor.row]? = some r ∧
      continuationAt r.cells (s.cursor.col + width) = true

/-! ### Quiet characters -/

theorem denotes_editCells {f : List Cell → Option (List Cell)} {r : TerminalRow}
    {cells : List Cell} (hr : s.active.rows[row]? = some r) (hcells : f r.cells = some cells)
    (h : s.editCells row f = some t) :
    t.denotes = s.denotes.setGlyphs row (cells.map (·.glyph)) := by
  obtain ⟨r', cells', hr', hcells', rfl⟩ := editCells_some h
  obtain rfl : r = r' := some.inj (hr.symm.trans hr')
  obtain rfl : cells = cells' := some.inj (hcells.symm.trans hcells')
  have hrows : (s.active.rows.set row { r with cells := cells }).map rowDenotes =
      (s.active.rows.map rowDenotes).modify row fun r' => (cells.map (·.glyph), r'.2) := by
    apply List.ext_getElem?; intro i
    rw [map_set, List.getElem?_set, List.getElem?_modify, getElem?_map]
    split_ifs with hi hlen
    · subst hi; rw [hr]; rfl
    · subst hi; rw [getElem?_eq_none (by simpa using hlen)]; rfl
    · exact (id_map _).symm
  unfold denotes Denotation.setGlyphs
  rw [active_setRows, hrows]
  unfold setRows
  split_ifs <;> rfl

/-- Right behind `width` columns at the cursor a second column stands. -/
def StrayBehind (s : TerminalScreen) (width : ℕ) : Prop :=
  s.cursor.col + width ≤ s.size.cols ∧ ∃ r, s.active.rows[s.cursor.row]? = some r ∧
    continuationAt r.cells (s.cursor.col + width) = true

theorem putCharacter_reads (h : s.putCharacter M ch n = some s') (hinsert : s.modes.insert = false)
    (hreads : s.Reads ch n) (hn : n = 1 ∨ n = 2) (hroom : n = 2 → s.cursor.col + 1 < s.size.cols) :
    s'.mappingRevision = s.mappingRevision ∧ Forward s s' ∧
      (s.StrayBehind n → s.denotes.Loses s'.denotes) ∧
      (¬s.StrayBehind n → s'.denotes = s.denotes) := by
  obtain ⟨t, r, x, u, ht, hr, hx, hu, rfl⟩ := putCharacter_some h
  rw [makeRoom, hinsert] at ht
  obtain rfl : s = t := some.inj ht
  obtain ⟨r', x', hr', hx', hsame⟩ := hreads
  obtain rfl : r = r' := some.inj (hr.symm.trans hr')
  obtain rfl : x = x' := some.inj (hx.symm.trans hx')
  have hgrid := onGrid_editCells hu
  obtain ⟨r', cells, hr', hcells, -⟩ := editCells_some hu
  obtain rfl : r = r' := some.inj (hr.symm.trans hr')
  have hglyphs := glyphs_putCells hx hsame hn hroom hcells
  have hdenotes := denotes_editCells hr hcells hu
  have hrow : s.denotes.rows[s.cursor.row]? = some (rowDenotes r) := by simp [denotes, hr]
  rw [hsame, if_neg (by simp)]
  refine ⟨?_, ?_, ?_, ?_⟩
  · obtain ⟨main, alt, nextId, rfl⟩ := hgrid; rfl
  · refine (hgrid.forward.trans ?_).trans (forward_displayOnlyChanged); exact .of_eq rfl rfl
  · rintro ⟨hcol, r', hr', hstray⟩; obtain rfl : r = r' := some.inj (hr.symm.trans hr')
    rw [if_pos ⟨hcol, hstray⟩] at hglyphs; rw [hglyphs] at hdenotes
    have hcont : (rowDenotes r).1[s.cursor.col + n]? = some .continuation := by
      unfold continuationAt at hstray
      cases hy : r.cells[s.cursor.col + n]? with
      | none => simp [hy] at hstray
      | some y => simpa [rowDenotes, hy, Cell.isContinuation] using hstray
    exact hdenotes ▸ Denotation.loses_setGlyphs hrow hcont
  intro hstray; rw [if_neg fun hboth => hstray ⟨hboth.1, r, hr, hboth.2⟩] at hglyphs
  rw [hglyphs] at hdenotes; exact hdenotes.trans ( Denotation.setGlyphs_self hrow)

/-- **A quiet character.**  It moves no mapping, and changes what is denoted just when it
    strays. -/
theorem writeChar_quiet (h : s.writeChar M ch = some s') (hquiet : Quiet M s ch) :
    s'.mappingRevision = s.mappingRevision ∧ Forward s s' ∧
      (Strays M s ch → s.denotes.Loses s'.denotes) ∧ (¬Strays M s ch → s'.denotes = s.denotes) := by
  have hdropped (heq : s' = s) (hnot : ¬Strays M s ch) :
      s'.mappingRevision = s.mappingRevision ∧ Forward s s' ∧
        (Strays M s ch → s.denotes.Loses s'.denotes) ∧
        (¬Strays M s ch → s'.denotes = s.denotes) := by
    subst heq; exact ⟨rfl, .refl _, fun hs => absurd hs hnot, fun _ => rfl⟩
  rcases writeChar_cases h with ⟨hcontrol, heq⟩ | ⟨hcontrol, hrest⟩
  · refine hdropped heq fun hs => ?_; rw [hs.1] at hcontrol; cases hcontrol
  rcases hquiet with hq | ⟨row, lead, cluster, hjoined, hlong⟩ | hrewrites
  · rw [hcontrol] at hq; cases hq
  · have hnot : ¬Strays M s ch := fun hs => by rw [hs.2.1.1] at hjoined; cases hjoined
    rcases hrest with ⟨_, _, _, hjoined', hcase⟩ | ⟨hjoined', -⟩
    · rw [hjoined] at hjoined'; cases hjoined'
      rcases hcase with ⟨-, heq⟩ | ⟨hshort, -⟩
      · exact hdropped heq hnot
      · omega
    · rw [hjoined] at hjoined'; cases hjoined'
  obtain ⟨hjoined, hzero, hwraps, hinsert, hreads⟩ := hrewrites
  rcases hrest with ⟨_, _, _, hjoined', -⟩ | ⟨-, ⟨hw, -⟩ | ⟨hw, hwrite⟩⟩
  · rw [hjoined] at hjoined'; cases hjoined'
  · omega
  rw [writeCharacter_eq, if_neg hwraps] at hwrite
  have hn := @fitted_width s (s.mapCharacter ch) (min (M.charWidth (s.mapCharacter ch)) 2)
    (by omega)
  obtain ⟨hm, hf, hloses, hsame⟩ := putCharacter_reads hwrite hinsert hreads hn
    (room_of_not_wrapsFirst hwraps)
  refine ⟨hm, hf, fun hs => hloses hs.2.2, fun hs => hsame fun hstray => hs ?_⟩
  exact ⟨hcontrol, ⟨hjoined, hzero, hwraps, hinsert, hreads⟩, hstray⟩

/-! ### Other characters -/

/-- The mapping revision moved, below its largest value. -/
structure Noticed (s s' : TerminalScreen) : Prop where
  forward : Forward s s'
  mapping_lt : s.mappingRevision < u64Max → s.mappingRevision < s'.mappingRevision

theorem Bumped.noticed (h : Bumped s s') : Noticed s s' := ⟨h.forward, h.mapping_lt⟩

theorem Noticed.trans (h : Noticed s t) (h' : Forward t s') : Noticed s s' :=
  ⟨h.forward.trans h', fun hlt => (h.mapping_lt hlt).trans_le h'.mapping⟩

theorem Forward.noticed (h : Forward s t) (h' : Noticed t s') : Noticed s s' := by
  refine ⟨h.trans h'.forward, fun hlt => ?_⟩
  by_cases hmax : t.mappingRevision < u64Max
  · exact h.mapping.trans_lt (h'.mapping_lt hmax)
  · have := h.mapping; have := h'.forward.mapping; omega

theorem makeRoom_cases (h : s.makeRoom M n = some t) :
    Bumped s t ∨ s.modes.insert = false ∧ t = s := by
  unfold makeRoom at h
  split_ifs at h with hinsert
  · exact .inl (bumped_insertCharacters h)
  · exact .inr ⟨by simpa using hinsert, (some.inj h).symm⟩

theorem forward_putCharacter (h : s.putCharacter M ch n = some s') : Forward s s' := by
  obtain ⟨t, r, x, u, ht, -, -, hu, rfl⟩ := putCharacter_some h
  have hroom : Forward s t := by
    rcases makeRoom_cases ht with hb | ⟨-, rfl⟩
    · exact hb.forward
    · exact .refl _
  refine (hroom.trans (onGrid_editCells hu).forward).trans ?_
  split_ifs
  · refine Forward.trans ?_ (forward_changed); exact .of_eq rfl rfl
  · refine Forward.trans ?_ (forward_displayOnlyChanged); exact .of_eq rfl rfl

theorem putCharacter_noticed (h : s.putCharacter M ch n = some s')
    (hnot : ¬(s.modes.insert = false ∧ s.Reads ch n)) : Noticed s s' := by
  have hforward := forward_putCharacter h
  obtain ⟨t, r, x, u, ht, hr, hx, hu, rfl⟩ := putCharacter_some h
  have htail : Forward t (if glyphChanged r.cells t.cursor.col n x ch then
      { u with
        cursor := t.afterGlyph t.cursor.row t.cursor.col n
        lastGrapheme := some (t.cursor.row, t.cursor.col) }.changed
    else
      { u with
        cursor := t.afterGlyph t.cursor.row t.cursor.col n
        lastGrapheme := some (t.cursor.row, t.cursor.col) }.displayOnlyChanged) := by
    refine (onGrid_editCells hu).forward.trans ?_
    split_ifs
    · refine Forward.trans ?_ (forward_changed); exact .of_eq rfl rfl
    · refine Forward.trans ?_ (forward_displayOnlyChanged); exact .of_eq rfl rfl
  rcases makeRoom_cases ht with hb | ⟨hinsert, rfl⟩
  · exact hb.noticed.trans htail
  cases hchanged : glyphChanged r.cells t.cursor.col n x ch with
  | false => exact absurd ⟨hinsert, r, x, hr, hx, hchanged⟩ hnot
  | true =>
    refine Bumped.noticed ⟨_, ?_, rfl⟩
    refine (onGrid_editCells hu).forward.trans ?_; exact .of_eq rfl rfl

theorem bumped_writeLeadingCombining (h : s.writeLeadingCombining ch = some s') : Bumped s s' := by
  have hlen : utf8Len [' ', ch] ≤ maxTerminalGraphemeBytes := by
    have := Char.utf8Size_le_four ch
    simp only [utf8Len, map_cons, map_nil, sum_cons, sum_nil, maxTerminalGraphemeBytes]
    have hspace : (' ' : Char).utf8Size = 1 := by decide
    omega
  simp only [writeLeadingCombining, bind, pure, bind_eq_some_iff, if_pos hlen, some.injEq] at h
  obtain ⟨a, ha, b, hb, rfl⟩ := h
  refine ⟨_, ((onGrid_editCells ha).forward.trans (onGrid_editCells hb).forward).trans ?_, rfl⟩
  exact .of_eq rfl rfl

theorem bumped_replacePreviousGrapheme {lead : ℕ} {cluster : List Char}
    (h : s.replacePreviousGrapheme M row lead cluster = some s') : Bumped s s' := by
  simp only [replacePreviousGrapheme, bind, pure, bind_eq_some_iff] at h
  obtain ⟨x, -, h⟩ := h
  split_ifs at h with hone hclip hwrap
  · obtain ⟨a, ha, h⟩ := bind_eq_some_iff.1 h; obtain rfl := some.inj h
    refine ⟨_, (onGrid_editCells ha).forward.trans ?_, rfl⟩; exact .of_eq rfl rfl
  · obtain ⟨a, ha, h⟩ := bind_eq_some_iff.1 h; obtain rfl := some.inj h
    refine ⟨_, (onGrid_editCells ha).forward.trans ?_, rfl⟩; exact .of_eq rfl rfl
  · simp only [wrapPreviousGrapheme, bind, pure, bind_eq_some_iff, some.injEq] at h
    obtain ⟨a, ha, b, hb, c, hc, rfl⟩ := h
    have hfirst := (onGrid_editCells ha).forward.trans
      (forward_cursor a ⟨row, s.size.cols - 1, true⟩)
    refine ⟨_, ((hfirst.trans (bumped_softWrap hb).forward).trans
      (onGrid_editCells hc).forward).trans ?_, rfl⟩
    exact .of_eq rfl rfl
  obtain ⟨a, ha, h⟩ := bind_eq_some_iff.1 h; obtain rfl := some.inj h
  refine ⟨_, (onGrid_editCells ha).forward.trans ?_, rfl⟩; exact .of_eq rfl rfl

theorem writeChar_noticed (h : s.writeChar M ch = some s') (hquiet : ¬Quiet M s ch) :
    Noticed s s' := by
  rcases writeChar_cases h with ⟨hcontrol, -⟩ | ⟨-, hrest⟩
  · exact absurd (.inl hcontrol) hquiet
  rcases hrest with ⟨row, lead, cluster, hjoined, ⟨hlong, -⟩ | ⟨-, hreplace⟩⟩ | ⟨hjoined, hcase⟩
  · exact absurd (.inr (.inl ⟨row, lead, cluster, hjoined, hlong⟩)) hquiet
  · exact (bumped_replacePreviousGrapheme hreplace).noticed
  rcases hcase with ⟨-, hlead⟩ | ⟨hw, hwrite⟩
  · exact (bumped_writeLeadingCombining hlead).noticed
  rw [writeCharacter_eq] at hwrite
  split_ifs at hwrite with hwraps
  · obtain ⟨t, ht, hput⟩ := bind_eq_some_iff.1 hwrite
    exact (bumped_softWrap ht).noticed.trans (forward_putCharacter hput)
  refine putCharacter_noticed hwrite fun hboth => hquiet (.inr (.inr ?_))
  exact ⟨hjoined, by omega, hwraps, hboth⟩

theorem forward_writeChar (h : s.writeChar M ch = some s') : Forward s s' := by
  by_cases hquiet : Quiet M s ch
  · exact (writeChar_quiet h hquiet).2.1
  · exact (writeChar_noticed h hquiet).forward

/-! ## Texts and other events -/

/-- A step moves no mapping that could move, but changes what is denoted: it writes a text
    of quiet characters, one of which strays. -/
def Unnoticed (M : TextMetrics) (s : TerminalScreen) : ScreenInput → Prop
  | .event (.text text) => s.mappingRevision < u64Max ∧
      (∀ p ∈ textOn M s text, Quiet M p.1 p.2) ∧ ∃ p ∈ textOn M s text, Strays M p.1 p.2
  | _ => False

theorem forward_writeText : ∀ {text : List Char} {s s' : TerminalScreen},
    s.writeText M text = some s' → Forward s s'
  | [], s, s', h => by obtain rfl : s = s' := some.inj h; exact .refl s
  | ch :: text, s, s', h => by
    obtain ⟨t, ht, h⟩ := bind_eq_some_iff.1 h
    exact (forward_writeChar ht).trans (forward_writeText h)

theorem writeText_quiet : ∀ {text : List Char} {s s' : TerminalScreen},
    s.writeText M text = some s' → (∀ p ∈ textOn M s text, Quiet M p.1 p.2) →
      s'.mappingRevision = s.mappingRevision ∧
        ((∃ p ∈ textOn M s text, Strays M p.1 p.2) → s.denotes.Loses s'.denotes) ∧
        (¬(∃ p ∈ textOn M s text, Strays M p.1 p.2) → s'.denotes = s.denotes)
  | [], s, s', h, _ => by
    obtain rfl : s = s' := some.inj h
    refine ⟨rfl, ?_, fun _ => rfl⟩; rintro ⟨_, hp, -⟩; cases hp
  | ch :: text, s, s', h, hquiet => by
    obtain ⟨t, ht, h⟩ := bind_eq_some_iff.1 h
    have hmem {p : TerminalScreen × Char} := @mem_textOn_cons M s ch text t ht p
    obtain ⟨hm, -, hloses, hsame⟩ := writeChar_quiet ht (hquiet (s, ch) (hmem.2 (.inl rfl)))
    obtain ⟨hm', hloses', hsame'⟩ := writeText_quiet h fun p hp => hquiet p (hmem.2 (.inr hp))
    refine ⟨hm'.trans hm, ?_, fun hnone => ?_⟩
    · rintro ⟨p, hp, hstrays⟩
      -- one character strays, and the others lose what they lose
      by_cases hfirst : Strays M s ch <;>
        by_cases hrest : ∃ p ∈ textOn M t text, Strays M p.1 p.2
      · exact (hloses hfirst).trans (hloses' hrest)
      · rw [hsame' hrest]; exact hloses hfirst
      · rw [← hsame hfirst]; exact hloses' hrest
      rcases hmem.1 hp with rfl | hp
      · exact absurd hstrays hfirst
      · exact absurd ⟨p, hp, hstrays⟩ hrest
    rw [hsame' fun ⟨p, hp, hs⟩ => hnone ⟨p, hmem.2 (.inr hp), hs⟩,
      hsame fun hs => hnone ⟨(s, ch), hmem.2 (.inl rfl), hs⟩]

theorem writeText_noticed : ∀ {text : List Char} {s s' : TerminalScreen},
    s.writeText M text = some s' → ¬(∀ p ∈ textOn M s text, Quiet M p.1 p.2) → Noticed s s'
  | [], s, s', h, hnot => absurd (fun _ hp => nomatch hp) hnot
  | ch :: text, s, s', h, hnot => by
    obtain ⟨t, ht, h⟩ := bind_eq_some_iff.1 h
    by_cases hquiet : Quiet M s ch
    · refine (forward_writeChar ht).noticed (writeText_noticed h fun hall => hnot fun p hp => ?_)
      rcases (mem_textOn_cons ht).1 hp with rfl | hp
      · exact hquiet
      · exact hall p hp
    · exact (writeChar_noticed ht hquiet).trans (forward_writeText h)

/-- Whatever is not text either ends in `changed` or leaves what is denoted. -/
theorem perform_cases {event : AnsiEvent} (htext : ∀ text, event ≠ .text text)
    (h : s.perform M event = some s') : Bumped s s' ∨ Still s s' := by
  have hkept (heq : s' = s) : Bumped s s' ∨ Still s s' := by subst heq; exact .inr ⟨rfl, .refl _⟩
  have hcol {up : Bool} {n : ℕ} (h : (s.moveVertical up n).bind (fun t =>
      some { t with cursor := { t.cursor with col := 0 } }) = some s') : Still s s' := by
    obtain ⟨t, ht, h⟩ := bind_eq_some_iff.1 h; obtain rfl := some.inj h
    have hstill := moveVertical_still ht
    exact ⟨hstill.same, hstill.forward.trans (forward_cursor t _)⟩
  cases event with
  | text text => exact absurd rfl (htext text)
  | lineFeed | index => exact .inl (bumped_lineFeed h)
  | nextLine => exact .inl ((forward_cursor s _).bumped (bumped_lineFeed h))
  | reverseIndex => exact reverseIndex_cases h
  | cursorUp | cursorDown => exact .inr (moveVertical_still h)
  | cursorNextLine | cursorPreviousLine => exact .inr (hcol h)
  | eraseDisplay mode => exact .inl (bumped_eraseDisplay h)
  | eraseLineMode | eraseToEol | eraseLine => exact .inl (bumped_eraseLine h)
  | eraseCharacters n => exact .inl (bumped_eraseCharacters h)
  | insertCharacters n => exact .inl (bumped_insertCharacters h)
  | deleteCharacters n => exact .inl (bumped_deleteCharacters h)
  | insertLines n => exact (insertLines_cases h).elim .inl hkept
  | deleteLines n => exact (deleteLines_cases h).elim .inl hkept
  | scrollUp n => exact .inl (bumped_scrollUp h)
  | scrollDown n => exact .inl (bumped_scrollDown h)
  | setScrollingRegion top bottom =>
    obtain rfl := some.inj h; exact (setScrollingRegion_cases top bottom s).elim .inl hkept
  | alternateScreen mode enabled =>
    obtain rfl := some.inj h; exact (setAlternate_cases mode enabled s).elim .inl hkept
  | alternateScreenEnter | alternateScreenExit =>
    obtain rfl := some.inj h; exact (setAlternate_cases _ _ s).elim .inl hkept
  | setMode mode enabled =>
    obtain rfl := some.inj h; exact .inl (bumped_setMode mode enabled s)
  | restoreCursor =>
    obtain rfl := some.inj h
    cases s.saved with
    | none => exact .inr ⟨rfl, .refl _⟩
    | some saved => exact .inr (still_displayOnlyChanged rfl rfl rfl)
  | saveCursor =>
    obtain rfl := some.inj h
    refine .inr ?_; unfold saveCursor
    split_ifs <;> exact ⟨rfl, .of_eq rfl rfl⟩
  | designateCharacterSet slot charset =>
    obtain rfl := some.inj h
    cases slot <;> exact .inr (still_displayOnlyChanged rfl rfl rfl)
  | deviceRequest | bracketedPasteBegin | bracketedPasteEnd | promptStart | promptEnd
  | commandStart | outputStart =>
    exact hkept (some.inj h).symm
  | cursorPosition row col =>
    obtain rfl := some.inj h
    refine .inr ⟨rfl, Forward.trans ?_ (forward_displayOnlyChanged)⟩
    exact Forward.trans (forward_displayOnlyChanged) (.of_eq rfl rfl)
  | _ => obtain rfl := some.inj h; exact .inr (still_displayOnlyChanged rfl rfl rfl)

/-- **A step moves the mapping revision with what is denoted**, but for a text of quiet
    characters one of which strays. -/
theorem step_revised_iff {input : ScreenInput} (h : s.step M input = some s') :
    Revised s s' ↔ ¬Unnoticed M s input := by
  cases input with
  | resize size =>
    refine iff_of_true ?_ id
    have hkept (heq : s' = s) : Revised s s' := heq ▸ ⟨fun hne => absurd rfl hne, .refl _⟩
    simp only [step, resize] at h
    by_cases hvalid : validSize size
    · split_ifs at h with hsame
      · exact hkept (some.inj h).symm
      cases hto : s.resizeTo M size with
      | none => simp [hto] at h
      | some t =>
        rw [hto] at h; obtain rfl : t = s' := some.inj h
        exact (bumped_resizeTo hto).revised
    · rw [if_pos hvalid] at h; exact hkept (some.inj h).symm
  | event event =>
    by_cases htext : ∃ text, event = .text text
    · obtain ⟨text, rfl⟩ := htext; have hforward := forward_writeText (M := M) h
      by_cases hquiet : ∀ p ∈ textOn M s text, Quiet M p.1 p.2
      · obtain ⟨hm, hloses, hsame⟩ := writeText_quiet h hquiet
        by_cases hstrays : ∃ p ∈ textOn M s text, Strays M p.1 p.2
        · constructor
          · rintro hrevised ⟨hlt, -, -⟩; exact (hrevised.moves (hloses hstrays).ne hlt).ne' hm
          intro hnoticed
          refine ⟨fun _ hlt => absurd ⟨hlt, hquiet, hstrays⟩ hnoticed, hforward⟩
        refine iff_of_true ⟨fun hne => absurd (hsame hstrays) hne, hforward⟩ ?_
        exact fun hunnoticed => hstrays hunnoticed.2.2
      have hnoticed := writeText_noticed h hquiet
      exact iff_of_true ⟨fun _ => hnoticed.mapping_lt, hforward⟩ fun hu => hquiet hu.2.1
    have hnot (text : List Char) : event ≠ .text text := fun heq => htext ⟨text, heq⟩
    have hperform : { s with lastGrapheme := none }.perform M event = some s' := by
      cases event with
      | text text => exact absurd rfl (hnot text)
      | _ => exact h
    have hclear : Forward s { s with lastGrapheme := none } := .of_eq rfl rfl
    have hrevised : Revised s s' := by
      rcases perform_cases hnot hperform with hb | hs
      · exact (hclear.bumped hb).revised
      · exact Still.revised ⟨hs.same, hclear.trans hs.forward⟩
    refine iff_of_true hrevised ?_
    cases event with
    | text text => exact absurd rfl (hnot text)
    | _ => exact id

end

/-! ## A stray second column -/

/-- A terminal's Unicode in small: one wide character, and a selector that makes the heart
    before it wide. -/
def heartMetrics : TextMetrics where
  charWidth ch := if ch = '中' then 2 else if ch = '\uFE0F' then 0 else 1
  strWidth cs := if cs = ['❤', '\uFE0F'] then 2 else 1
  oneGrapheme cs := cs.length == 1 || cs == ['❤', '\uFE0F']

theorem step_revised_iff_letter :
    ∃ s', (new ⟨1, 2⟩ 0).step heartMetrics (.event (.text ['x'])) = some s' ∧
      (Revised (new ⟨1, 2⟩ 0) s' ↔ ¬Unnoticed heartMetrics (new ⟨1, 2⟩ 0) (.event (.text ['x']))) :=
  ⟨_, rfl, step_revised_iff rfl⟩

/-- A heart is written before a wide character and made wide, which leaves the character's
    second column alone; then a letter is written in the heart's second column. -/
def strayInputs : List ScreenInput :=
  [.event (.cursorPosition 1 2), .event (.text ['中']), .event (.cursorPosition 1 1),
    .event (.text ['❤', '\uFE0F']), .event (.cursorPosition 1 2), .event (.text ['x']),
    .event (.cursorPosition 1 2)]

/-- The letter is written again, and the second column behind it goes. -/
theorem step_not_revised :
    ¬∀ s s' : TerminalScreen, ∀ input : ScreenInput, Reachable heartMetrics s →
      s.step heartMetrics input = some s' → Revised s s' := by
  intro hall
  have hrun : ((strayInputs.foldlM (step heartMetrics) (new ⟨2, 5⟩ 0)).bind fun s =>
      (s.step heartMetrics (.event (.text ['x']))).map fun s' =>
        decide (s'.denotes ≠ s.denotes ∧ s.mappingRevision < u64Max ∧
          s'.mappingRevision = s.mappingRevision)) = some true := by decide +kernel
  obtain ⟨s, hs, hrun⟩ := bind_eq_some_iff.1 hrun
  obtain ⟨s', hs', hfacts⟩ := map_eq_some_iff.1 hrun
  obtain ⟨hne, hlt, heq⟩ := of_decide_eq_true hfacts
  have hnew : Reachable heartMetrics (new ⟨2, 5⟩ 0) := .new (by decide) 0
  have hreached := hnew.run hs
  exact ((hall s s' _ hreached hs').moves hne hlt).ne' heq

end TerminalScreen

end Pmacs
