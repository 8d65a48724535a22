/-
  When the screen panics (screen.rs).

  * `Ordered`: the rows of a line that a resize joins start no earlier than its first.
  * `StepOk`: no character wraps the last row below the scrolling region, and the rows to
    join are ordered.
  * `run_safe`: every screen that is reached has its shape, and its next step panics just
    when it is not of that kind.
-/
import Pmacs.Terminal.ReflowShape
import Pmacs.Terminal.Revisions

namespace Pmacs

open Lib List Option Finset

namespace TerminalScreen

section
variable {M : TextMetrics} {s s' : TerminalScreen}

/-! ## Events -/

theorem gridNew_geometry (size : CellSize) (nextId : ℕ) :
    (Grid.new size nextId).1.rows.length = size.rows ∧
      ∀ r ∈ (Grid.new size nextId).1.rows, HasLength size.cols r.cells := by
  refine ⟨by simp [Grid.new], fun r hr => ?_⟩
  obtain ⟨i, -, rfl⟩ := mem_map.1 hr
  simp [HasLength, TerminalRow.new]

variable {size : CellSize}

theorem geometry_new (h : validSize size) (scrollbackRows : ℕ) :
    Geometry (new size scrollbackRows) where
  size := h
  mainLength := (gridNew_geometry size 1).1
  altLength := (gridNew_geometry size _).1
  mainRows := (gridNew_geometry size 1).2
  altRows := (gridNew_geometry size _).2
  history _ hr := nomatch hr
  row := h.1
  col := h.2.1
  top := Nat.zero_le _
  bottom := Nat.sub_lt h.1 one_pos
  stops _ hc := Finset.mem_range.1 (Finset.mem_filter.1 hc).1
  last _ _ heq := nomatch heq

theorem clampCursor_lt (c : Cursor) (h : validSize size) :
    (clampCursor c size).row < size.rows ∧ (clampCursor c size).col < size.cols := by
  have hrows := h.1
  have hcols := h.2.1
  unfold clampCursor
  dsimp only
  omega

theorem Geometry.restoreCursor (h : Geometry s) (saved : SavedCursor) :
    Geometry (s.restoreCursor saved) :=
  { h with
    row := (clampCursor_lt saved.cursor h.size).1
    col := (clampCursor_lt saved.cursor h.size).2 }

/-- The screens are switched: the cursor is put in the grid and the whole of it scrolls. -/
theorem Geometry.switched (h : Geometry s) {t : TerminalScreen} {c : Cursor}
    (hsize : t.size = s.size) (hmain : t.main = s.main)
    (haltLength : t.alt.rows.length = s.size.rows)
    (haltRows : ∀ r ∈ t.alt.rows, HasLength s.size.cols r.cells) (hstops : t.tabStops = s.tabStops)
    (hlast : t.lastGrapheme = s.lastGrapheme) :
    Geometry { t with
      scrollTop := 0, scrollBottom := t.size.rows - 1, cursor := clampCursor c t.size } where
  size := hsize ▸ h.size
  mainLength := by rw [hmain, hsize, h.mainLength]
  altLength := by rw [hsize, haltLength]
  mainRows := by rw [hmain, hsize]; exact h.mainRows
  altRows := by rw [hsize]; exact haltRows
  history := by rw [hmain, hsize]; exact h.history
  row := (clampCursor_lt c (hsize ▸ h.size)).1
  col := (clampCursor_lt c (hsize ▸ h.size)).2
  top := Nat.zero_le _
  bottom := Nat.sub_lt (hsize ▸ h.rows_pos) one_pos
  stops := by rw [hstops, hsize]; exact h.stops
  last := by rw [hlast, hsize]; exact h.last

theorem Geometry.setAlternate (h : Geometry s) (mode : AlternateScreenMode) (enabled : Bool) :
    Geometry (s.setAlternate mode enabled) := by
  have hnew := gridNew_geometry s.size s.nextLineId
  unfold TerminalScreen.setAlternate
  split_ifs with hsame henabled
  · exact h
  · cases mode with
    | mode47 => exact Geometry.changed (h.switched rfl rfl h.altLength h.altRows rfl rfl)
    | mode1047 | mode1049 => exact Geometry.changed (h.switched rfl rfl hnew.1 hnew.2 rfl rfl)
  cases mode with
  | mode47 | mode1047 => exact Geometry.changed (h.switched rfl rfl h.altLength h.altRows rfl rfl)
  | mode1049 =>
    unfold leaveAlternate; rw [if_pos rfl]
    split
    · exact Geometry.changed (h.switched rfl rfl h.altLength h.altRows rfl rfl)
    · exact Geometry.changed (h.switched rfl rfl h.altLength h.altRows rfl rfl)

theorem Geometry.setMode (h : Geometry s) (mode : TerminalMode) (enabled : Bool) :
    Geometry (s.setMode mode enabled) := by
  unfold TerminalScreen.setMode
  cases mode with
  | origin =>
    refine Geometry.changed { h with row := ?_, col := h.cols_pos }; unfold switchMode; dsimp only
    split_ifs
    · exact h.top.trans_lt h.bottom
    · exact h.rows_pos
  | synchronizedOutput =>
    unfold switchMode
    split_ifs <;> exact Geometry.changed { h with }
  | _ => exact Geometry.changed { h with }

theorem Geometry.setScrollingRegion (h : Geometry s) (top : ℕ) (bottom : Option ℕ) :
    Geometry (s.setScrollingRegion top bottom) := by
  unfold TerminalScreen.setScrollingRegion
  by_cases hin : top - 1 < bottom.getD s.size.rows - 1 ∧ bottom.getD s.size.rows - 1 < s.size.rows
  · rw [if_pos hin]
    refine Geometry.changed { h with
      row := ?_, col := h.cols_pos, top := hin.1.le, bottom := hin.2 }
    dsimp only
    split_ifs <;> omega
  · rw [if_neg hin]; exact h

theorem Geometry.horizontalTab (h : Geometry s) : Geometry s.horizontalTab := by
  refine Geometry.displayOnlyChanged (h.withCursor h.row ?_)
  dsimp only
  cases hmin : (s.tabStops.filter (s.cursor.col < ·)).min with
  | top => exact Nat.sub_lt h.cols_pos one_pos
  | coe stop =>
    exact h.stops stop (mem_filter.1 (mem_of_min hmin)).1

theorem Geometry.setCol (h : Geometry s) (col : ℕ) : Geometry (s.setCol col) := by
  refine Geometry.displayOnlyChanged (Geometry.withCursor h h.row ?_)
  exact (min_le_right _ _).trans_lt (Nat.sub_lt h.cols_pos one_pos)

theorem Geometry.setRow (h : Geometry s) (row : ℕ) : Geometry (s.setRow row) := by
  refine Geometry.displayOnlyChanged (Geometry.withCursor h ?_ h.col)
  refine (min_le_right _ _).trans_lt ?_
  split_ifs
  · exact h.bottom
  · exact Nat.sub_lt h.rows_pos one_pos

/-- **Whatever is not text** neither panics nor harms the screen's shape. -/
theorem perform_safe (h : Geometry s) {event : AnsiEvent} (htext : ∀ text, event ≠ .text text) :
    Yields (s.perform M event) Geometry := by
  have hrows := h.rows_pos
  have hcols := h.cols_pos
  have hcol {up : Bool} {n : ℕ} : Yields ((s.moveVertical up n).bind fun t =>
      some { t with cursor := { t.cursor with col := 0 } }) Geometry :=
    (moveVertical_safe h).bind fun t ht => yields_some (Geometry.withCursor ht ht.row ht.cols_pos)
  cases event with
  | text text => exact absurd rfl (htext text)
  | lineFeed | index => exact lineFeed_safe h
  | nextLine => exact lineFeed_safe (h.withCursor h.row hcols)
  | reverseIndex => exact reverseIndex_safe h
  | horizontalTab => exact yields_some h.horizontalTab
  | setTabStop =>
    refine yields_some (Geometry.displayOnlyChanged { h with stops := fun c hc => ?_ })
    rcases mem_insert.1 hc with rfl | hc
    · exact h.col
    · exact h.stops c hc
  | clearTabStop =>
    exact yields_some (Geometry.displayOnlyChanged
      { h with stops := fun c hc => h.stops c (mem_of_mem_erase hc) })
  | clearAllTabStops =>
    exact yields_some (Geometry.displayOnlyChanged
      { h with stops := fun c hc => absurd hc (notMem_empty c) })
  | carriageReturn =>
    exact yields_some (Geometry.displayOnlyChanged (Geometry.withCursor h h.row hcols))
  | backspace =>
    exact yields_some (Geometry.displayOnlyChanged
      (Geometry.withCursor h h.row ((Nat.sub_le _ _).trans_lt h.col)))
  | cursorUp | cursorDown => exact moveVertical_safe h
  | cursorNextLine | cursorPreviousLine => exact hcol
  | cursorForward | cursorBackward =>
    refine yields_some (Geometry.displayOnlyChanged (Geometry.withCursor h h.row ?_))
    exact (min_le_right _ _).trans_lt (Nat.sub_lt hcols one_pos)
  | cursorHorizontalAbsolute col => exact yields_some (h.setCol col)
  | cursorVerticalAbsolute row => exact yields_some (h.setRow row)
  | cursorPosition row col => exact yields_some ((h.setRow row).setCol col)
  | eraseDisplay mode => exact eraseDisplay_safe h
  | eraseLineMode | eraseToEol | eraseLine => exact (eraseLine_safe h).mono fun _ ht => ht.2
  | eraseCharacters n => exact eraseCharacters_safe h
  | insertCharacters n => exact (insertCharacters_safe h).mono fun _ ht => ht.2.2
  | deleteCharacters n => exact deleteCharacters_safe h
  | insertLines n => exact insertLines_safe h
  | deleteLines n => exact deleteLines_safe h
  | scrollUp n => exact scrollUp_safe h
  | scrollDown n => exact scrollDown_safe h
  | setScrollingRegion top bottom => exact yields_some (h.setScrollingRegion top bottom)
  | alternateScreen mode enabled => exact yields_some (h.setAlternate mode enabled)
  | alternateScreenEnter | alternateScreenExit => exact yields_some (h.setAlternate _ _)
  | setMode mode enabled => exact yields_some (h.setMode mode enabled)
  | restoreCursor =>
    refine yields_some ?_
    cases s.saved with
    | none => exact h
    | some saved => exact h.restoreCursor saved
  | saveCursor =>
    refine yields_some ?_; unfold saveCursor
    split_ifs <;> exact { h with }
  | designateCharacterSet slot charset =>
    cases slot <;> exact yields_some (Geometry.displayOnlyChanged { h with })
  | deviceRequest | bracketedPasteBegin | bracketedPasteEnd | promptStart | promptEnd
  | commandStart | outputStart =>
    exact yields_some h
  | _ => exact yields_some (Geometry.displayOnlyChanged { h with })

/-! ## Resizes -/

theorem resizeGridClip_geometry (grid : Grid) (size : CellSize) (nextId : ℕ) (style : Style) :
    (resizeGridClip M grid size nextId style).1.rows.length = size.rows ∧
      ∀ r ∈ (resizeGridClip M grid size nextId style).1.rows, HasLength size.cols r.cells := by
  unfold resizeGridClip
  refine ⟨?_, fun r hr => ?_⟩
  · rw [length_append, length_map, length_range, length_take]; omega
  rcases mem_append.1 hr with hr | hr
  · obtain ⟨r', -, rfl⟩ := mem_map.1 (mem_of_mem_take hr); exact length_clipCells
  · obtain ⟨i, -, rfl⟩ := mem_map.1 hr; simp [HasLength, TerminalRow.new]

theorem mem_freshRows {cols nextId count : ℕ} {style : Style} {r : TerminalRow}
    (hr : r ∈ freshRows cols nextId count style) : HasLength cols r.cells := by
  obtain ⟨i, -, rfl⟩ := mem_map.1 hr
  simp [HasLength, TerminalRow.new]

theorem splitRows_geometry {rows : List TerminalRow} (s : TerminalScreen)
    (h : ∀ r ∈ rows, HasLength size.cols r.cells) :
    (s.splitRows size rows).main.rows.length = size.rows ∧
      (∀ r ∈ (s.splitRows size rows).main.rows, HasLength size.cols r.cells) ∧
        ∀ r ∈ (s.splitRows size rows).main.history, HasLength size.cols r.cells := by
  have hall : ∀ r ∈ rows ++ freshRows size.cols s.nextLineId (size.rows - rows.length) s.style,
      HasLength size.cols r.cells := by
    intro r hr
    rcases mem_append.1 hr with hr | hr
    · exact h r hr
    · exact mem_freshRows hr
  refine ⟨?_, fun r hr => hall r (mem_of_mem_drop hr), fun r hr => hall r (mem_of_mem_take hr)⟩
  simp only [splitRows, freshRows, length_drop, length_append, length_map, length_range]
  omega

theorem lt_of_mem_resizeTabStops {old new c : ℕ} {stops : Finset ℕ}
    (h : c ∈ resizeTabStops old new stops) : c < new := by
  rcases mem_union.1 h with h | h
  · exact (mem_filter.1 h).2
  · exact Finset.mem_range.1 (Finset.mem_filter.1 h).1

def mainRows (s : TerminalScreen) : List TerminalRow := s.main.history ++ s.main.rows

theorem Geometry.hasLength_mainRows (h : Geometry s) :
    ∀ r ∈ s.mainRows, HasLength s.size.cols r.cells := by
  intro r hr
  rcases mem_append.1 hr with hr | hr
  · exact h.history r hr
  · exact h.mainRows r hr

theorem Geometry.cursorPlace (h : Geometry s) : ∃ cursor, s.cursorPlace = some cursor := by
  have hrows := h.rows_pos
  have hlt : min s.mainCursor.row (s.main.rows.length - 1) < s.main.rows.length := by
    rw [h.mainLength]; omega
  exact ⟨_, by rw [TerminalScreen.cursorPlace, getElem?_eq_getElem hlt]; rfl⟩

theorem reflowedRows_cases (h : Geometry s) (hcols : 0 < size.cols) :
    ¬Ordered s.mainRows ∧ s.reflowedRows M size = none ∨
      Ordered s.mainRows ∧ Yields (s.reflowedRows M size) fun acc =>
        ∀ r ∈ acc.1, HasLength size.cols r.cells := by
  obtain ⟨cursor, hcursor⟩ := h.cursorPlace
  have hjoin := @joinRows_isSome_iff s.size.cols (blank s.style) cursor s.mainRows
    h.hasLength_mainRows
  unfold reflowedRows
  rw [hcursor, bind_eq_bind, bind_some]
  change _ ∧ (joinRows _ _ _ s.mainRows >>= _) = none ∨
    _ ∧ Yields (joinRows _ _ _ s.mainRows >>= _) _
  cases hlines : joinRows s.size.cols (blank s.style) cursor s.mainRows with
  | none =>
    rw [hlines] at hjoin
    refine .inl ⟨fun hordered => ?_, rfl⟩; cases hjoin.2 hordered
  | some lines =>
    rw [hlines] at hjoin
    refine .inr ⟨hjoin.1 rfl, ?_⟩
    exact yields_foldlM (fun acc hacc line _ => reflowLine_safe hcols hacc) nofun

/-- The main screen is cut anew: nothing else changes but the cursor. -/
theorem reflowMain_cases (h : Geometry s) (hcols : 0 < size.cols) :
    ¬Ordered s.mainRows ∧ s.reflowMain M size = none ∨
      Ordered s.mainRows ∧ Yields (s.reflowMain M size) fun t => ∃ rows nextId c c',
        (∀ r ∈ rows, HasLength size.cols r.cells) ∧
          t = { s.splitRows size rows with
            nextLineId := nextId, cursor := c, inactiveMainCursor := c' } := by
  obtain ⟨cursor, hcursor⟩ := h.cursorPlace
  unfold reflowMain
  rw [hcursor]
  rcases reflowedRows_cases (M := M) h hcols with ⟨hordered, hnone⟩ | ⟨hordered, hrows⟩
  · rw [hnone]; exact .inl ⟨hordered, rfl⟩
  refine .inr ⟨hordered, hrows.bind fun acc hacc => yields_some ⟨acc.1, ?_⟩⟩
  split_ifs
  · exact ⟨_, _, _, hacc, rfl⟩
  · exact ⟨_, _, _, hacc, rfl⟩

theorem resizeTo_cases (h : Geometry s) (hsize : validSize size) :
    ¬Ordered s.mainRows ∧ s.resizeTo M size = none ∨
      Ordered s.mainRows ∧ Yields (s.resizeTo M size) Geometry := by
  have hstart : Geometry { s with lastGrapheme := none } :=
    { h with last := fun _ _ heq => nomatch heq }
  unfold resizeTo
  rcases reflowMain_cases (M := M) hstart hsize.2.1 with ⟨hordered, hnone⟩ | ⟨hordered, hmain⟩
  · rw [hnone]; exact .inl ⟨hordered, rfl⟩
  refine .inr ⟨hordered, hmain.bind fun t ht => yields_some ?_⟩
  obtain ⟨rows, nextId, c, c', hlen, rfl⟩ := ht
  obtain ⟨hmainLen, hmainRows, hhistory⟩ := splitRows_geometry { s with lastGrapheme := none } hlen
  have hclip := resizeGridClip_geometry (M := M) s.alt size nextId s.style
  refine Geometry.changed (Geometry.enforceHistoryBudget
    ⟨hsize, hmainLen, hclip.1, hmainRows, hclip.2, hhistory, ?_, ?_, ?_, ?_, ?_, ?_⟩)
  · exact (clampCursor_lt _ hsize).1
  · exact (clampCursor_lt _ hsize).2
  · exact Nat.zero_le _
  · exact Nat.sub_lt hsize.1 one_pos
  · exact fun c hc => lt_of_mem_resizeTabStops hc
  · exact nofun

/-! ## Runs -/

/-- What a step asks of the screen: no character of a text goes on below the last row, and the
    rows a resize joins are in order. -/
def StepOk (M : TextMetrics) (s : TerminalScreen) : ScreenInput → Prop
  | .event (.text text) => ∀ p ∈ textOn M s text, ¬Falls M p.1 p.2
  | .event _ => True
  | .resize size => validSize size → size ≠ s.size → Ordered s.mainRows

theorem step_resize {s : TerminalScreen} {size : CellSize} : s.step M (.resize size) =
      if validSize size ∧ size ≠ s.size then s.resizeTo M size else some s := by
  simp only [step, resize]
  by_cases hsize : validSize size
  · by_cases hsame : size = s.size
    · rw [if_neg (not_not.2 hsize), if_pos hsame, if_neg (fun h => h.2 hsame)]
    rw [if_neg (not_not.2 hsize), if_neg hsame, if_pos ⟨hsize, hsame⟩]
    cases s.resizeTo M size <;> rfl
  · rw [if_pos hsize, if_neg fun h => hsize h.1]

/-- **A step panics just where it is not of that kind**, and no other harms the screen. -/
theorem step_cases (h : Geometry s) (input : ScreenInput) :
    ¬StepOk M s input ∧ s.step M input = none ∨
      StepOk M s input ∧ Yields (s.step M input) Geometry := by
  cases input with
  | event event =>
    by_cases htext : ∃ text, event = .text text
    · obtain ⟨text, rfl⟩ := htext
      by_cases hok : StepOk M s (.event (.text text))
      · exact .inr ⟨hok, writeText_safe h hok⟩
      · refine .inl ⟨hok, (writeText_panics_iff h).2 ?_⟩; simpa [StepOk] using hok
    rw [not_exists] at htext
    have hstart : Geometry { s with lastGrapheme := none } :=
      { h with last := fun _ _ heq => nomatch heq }
    have hperform := perform_safe (M := M) hstart htext
    cases event with
    | text text => exact absurd rfl (htext text)
    | _ => exact .inr ⟨trivial, hperform⟩
  | resize size =>
    rw [step_resize]
    by_cases hnew : validSize size ∧ size ≠ s.size
    · rw [if_pos hnew]
      rcases resizeTo_cases (M := M) h hnew.1 with ⟨hordered, hnone⟩ | ⟨hordered, hgeo⟩
      · exact .inl ⟨fun hok => hordered (hok hnew.1 hnew.2), hnone⟩
      · exact .inr ⟨fun _ _ => hordered, hgeo⟩
    · rw [if_neg hnew]; exact .inr ⟨fun hvalid hne => absurd ⟨hvalid, hne⟩ hnew, yields_some h⟩

theorem Reached.geometry {Ok : TerminalScreen → ScreenInput → Prop} (h : Reached M Ok s) :
    Geometry s := by
  induction h with
  | new hsize scrollbackRows => exact geometry_new hsize scrollbackRows
  | step _ _ hstep ih =>
    rename_i input _ _
    rcases step_cases (M := M) ih input with ⟨-, hnone⟩ | ⟨-, t, ht, hgeo⟩
    · rw [hnone] at hstep; cases hstep
    · rw [ht] at hstep; cases hstep; exact hgeo

/-- **Where a run panics.**  Every screen a run leads to has its shape, and its next step
    panics just when it is not of the kind `StepOk`. -/
theorem run_safe (h : Reachable M s) (input : ScreenInput) :
    Geometry s ∧ ((s.step M input).isSome ↔ StepOk M s input) := by
  refine ⟨h.geometry, ?_⟩
  rcases step_cases (M := M) h.geometry input with ⟨hok, hnone⟩ | ⟨hok, t, ht, -⟩
  · simp [hnone, hok]
  · simp [ht, hok]

end

/-- The cursor is put below the scrolling region, in the screen's last row. -/
def belowInputs : List ScreenInput :=
  [.event (.setScrollingRegion 1 (some 2)), .event (.cursorPosition 3 1)]

/-- A text of five characters, for which the row has four columns. -/
theorem run_safe_below : ∃ s, belowInputs.foldlM (step heartMetrics) (new ⟨3, 4⟩ 0) = some s ∧
    Geometry s ∧ ((s.step heartMetrics (.event (.text ['a', 'b', 'c', 'd', 'e']))).isSome ↔
      StepOk heartMetrics s (.event (.text ['a', 'b', 'c', 'd', 'e']))) := by
  have hrun : (belowInputs.foldlM (step heartMetrics) (new ⟨3, 4⟩ 0)).isSome = true := by
    decide +kernel
  obtain ⟨s, hs⟩ := isSome_iff_exists.1 hrun
  have hnew : Reachable heartMetrics (new ⟨3, 4⟩ 0) := .new (by decide) 0
  exact ⟨s, hs, run_safe (hnew.run hs) _⟩

theorem run_not_safe : ¬∀ s : TerminalScreen, ∀ input : ScreenInput, Reachable heartMetrics s →
      (s.step heartMetrics input).isSome ∧ Geometry s := by
  intro hall
  have hrun : (belowInputs.foldlM (step heartMetrics) (new ⟨3, 4⟩ 0)).map (fun s =>
      (s.step heartMetrics (.event (.text ['a', 'b', 'c', 'd', 'e']))).isSome) = some false := by
    decide +kernel
  obtain ⟨s, hs, hnone⟩ := map_eq_some_iff.1 hrun
  have hnew : Reachable heartMetrics (new ⟨3, 4⟩ 0) := .new (by decide) 0
  rw [(hall s _ (hnew.run hs)).1] at hnone
  cases hnone

end TerminalScreen

end Pmacs
