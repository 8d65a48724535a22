/-
  What the steps of a screen leave alone (screen.rs).

  * `OnGrid`: a step on the grids and line ids only.
  * `Forward`, `Bumped`: the counters after a step, and after one that ends in `changed`.
-/
import Pmacs.Terminal.Reflow

namespace Pmacs.TerminalScreen

open Lib List Option

/-- The grids and the next line id may differ, and nothing else. -/
def OnGrid (s s' : TerminalScreen) : Prop :=
  ∃ main alt nextId, s' = { s with main := main, alt := alt, nextLineId := nextId }

section
variable {s s' s'' : TerminalScreen} {row n : ℕ} {continuation : Option (ℕ × ℕ)}

@[refl] theorem OnGrid.refl (s : TerminalScreen) : OnGrid s s := ⟨_, _, _, rfl⟩

theorem OnGrid.trans (h : OnGrid s s') (h' : OnGrid s' s'') : OnGrid s s'' := by
  obtain ⟨main, alt, nextId, rfl⟩ := h
  obtain ⟨main', alt', nextId', rfl⟩ := h'
  exact ⟨main', alt', nextId', rfl⟩

theorem onGrid_setRows {rows : List TerminalRow} : OnGrid s (s.setRows rows) := by
  unfold setRows
  split_ifs
  · exact ⟨_, _, _, rfl⟩
  · exact ⟨_, _, _, rfl⟩

@[simp] theorem active_setRows (rows : List TerminalRow) (s : TerminalScreen) :
    (s.setRows rows).active.rows = rows := by
  unfold setRows active
  split_ifs <;> simp

theorem modifyRow_some {f : TerminalRow → TerminalRow} (h : s.modifyRow row f = some s') :
    ∃ r, s.active.rows[row]? = some r ∧ s' = s.setRows (s.active.rows.set row (f r)) := by
  simp only [modifyRow, bind, pure, bind_eq_some_iff, some.injEq] at h
  obtain ⟨r, hr, rfl⟩ := h
  exact ⟨r, hr, rfl⟩

variable {f : List Cell → Option (List Cell)}

theorem editCells_some (h : s.editCells row f = some s') :
    ∃ r cells, s.active.rows[row]? = some r ∧ f r.cells = some cells ∧
      s' = s.setRows (s.active.rows.set row { r with cells := cells }) := by
  simp only [editCells, bind, pure, bind_eq_some_iff, some.injEq] at h
  obtain ⟨r, hr, cells, hcells, rfl⟩ := h
  exact ⟨r, cells, hr, hcells, rfl⟩

theorem onGrid_modifyRow {f : TerminalRow → TerminalRow} (h : s.modifyRow row f = some s') :
    OnGrid s s' := by
  obtain ⟨r, -, rfl⟩ := modifyRow_some h
  exact onGrid_setRows

theorem onGrid_editCells (h : s.editCells row f = some s') : OnGrid s s' := by
  obtain ⟨r, cells, -, -, rfl⟩ := editCells_some h
  exact onGrid_setRows

theorem onGrid_newRow (s : TerminalScreen) : OnGrid s s.newRow.2 := ⟨_, _, _, rfl⟩

theorem shiftRows_some {out into : ℕ} (h : s.shiftRows out into = some s') :
    out < s.active.rows.length ∧ into < s.active.rows.length ∧
      s' = s.newRow.2.setRows ((s.active.rows.eraseIdx out).insertIdx into s.newRow.1) := by
  unfold shiftRows at h
  dsimp only at h
  split_ifs at h with hin
  exact ⟨hin.1, hin.2, (some.inj h).symm⟩

theorem onGrid_shiftRows {out into : ℕ} (h : s.shiftRows out into = some s') : OnGrid s s' := by
  obtain ⟨-, -, rfl⟩ := shiftRows_some h
  exact (onGrid_newRow s).trans (onGrid_setRows)

theorem onGrid_times {f : TerminalScreen → Option TerminalScreen}
    (hf : ∀ {s s'}, f s = some s' → OnGrid s s') :
    ∀ {n : ℕ} {s s'}, times f n s = some s' → OnGrid s s'
  | 0, s, s', h => by rw [times, some.injEq] at h; exact h ▸ .refl s
  | n + 1, s, s', h => by
    obtain ⟨t, ht, h⟩ := bind_eq_some_iff.1 h; exact (hf ht).trans (onGrid_times hf h)

theorem breakChainAfter_some (h : s.breakChainAfter row = some s') :
    s' = s ∨ ∃ r, s.active.rows[row]? = some r ∧
      s' = { s with
          nextLineId := (relabelChain s.size.cols r.logicalLineId s.nextLineId
            (saturatingSucc s.nextLineId) 0 (s.active.rows.drop (row + 1))).2 }.setRows
        (s.active.rows.take (row + 1) ++ (relabelChain s.size.cols r.logicalLineId s.nextLineId
          (saturatingSucc s.nextLineId) 0 (s.active.rows.drop (row + 1))).1) := by
  simp only [breakChainAfter, bind, pure, bind_eq_some_iff] at h
  obtain ⟨r, hr, h⟩ := h
  split_ifs at h with hnext
  · exact .inr ⟨r, hr, (some.inj h).symm⟩
  · exact .inl (some.inj h).symm

theorem onGrid_breakChainAfter (h : s.breakChainAfter row = some s') : OnGrid s s' := by
  rcases breakChainAfter_some h with rfl | ⟨r, -, rfl⟩
  · exact .refl _
  · refine OnGrid.trans ?_ (onGrid_setRows); exact ⟨_, _, _, rfl⟩

theorem onGrid_keepRow (removed : TerminalRow) (s : TerminalScreen) :
    OnGrid s (s.keepRow removed) := by
  unfold keepRow
  split_ifs
  · exact ⟨_, _, _, rfl⟩
  · exact .refl s

theorem scrollRow_some (h : s.scrollRow continuation = some s') :
    ∃ removed, s.active.rows[s.scrollTop]? = some removed ∧ s.scrollBottom < s.active.rows.length ∧
      s' = (s.keepRow removed).newRow.2.setRows ((s.active.rows.eraseIdx s.scrollTop).insertIdx
        s.scrollBottom (continueLine continuation s.newRow.1)) := by
  simp only [scrollRow, bind, pure, bind_eq_some_iff] at h
  obtain ⟨removed, hremoved, h⟩ := h
  obtain ⟨main, alt, nextId, hkeep⟩ := onGrid_keepRow removed s
  have hbottom : (s.keepRow removed).scrollBottom = s.scrollBottom := by rw [hkeep]
  have htop : (s.keepRow removed).scrollTop = s.scrollTop := by rw [hkeep]
  have hnew : (s.keepRow removed).newRow.1 = s.newRow.1 := by
    unfold keepRow
    split_ifs <;> rfl
  rw [hbottom, htop, hnew] at h
  split_ifs at h with hlt
  exact ⟨removed, hremoved, hlt, (some.inj h).symm⟩

theorem onGrid_scrollRow (h : s.scrollRow continuation = some s') : OnGrid s s' := by
  obtain ⟨removed, -, -, rfl⟩ := scrollRow_some h
  exact (onGrid_keepRow _ _).trans ((onGrid_newRow _).trans (onGrid_setRows))

theorem onGrid_scrollRows : ∀ {n : ℕ} {s s' : TerminalScreen},
    s.scrollRows continuation n = some s' → OnGrid s s'
  | 0, s, s', h => by rw [scrollRows, some.injEq] at h; exact h ▸ .refl s
  | n + 1, s, s', h => by
    obtain ⟨t, ht, h⟩ := bind_eq_some_iff.1 h
    exact (onGrid_scrollRow ht).trans (onGrid_scrollRows h)

theorem scrollUpInternal_some (h : s.scrollUpInternal n continuation = some s') :
    ∃ t, s.scrollTop ≤ s.scrollBottom ∧
      s.scrollRows continuation (min n (s.scrollBottom - s.scrollTop + 1)) = some t ∧
      s' = { t with cursor := { t.cursor with row := t.scrollBottom } }.enforceHistoryBudget := by
  simp only [scrollUpInternal, checkedSub, bind, pure, bind_eq_some_iff, some.injEq] at h
  obtain ⟨region, hregion, t, ht, rfl⟩ := h
  split_ifs at hregion with hle
  rw [← some.inj hregion] at ht
  exact ⟨t, hle, ht, rfl⟩

theorem onGrid_scrollUpInternal (h : s.scrollUpInternal n continuation = some s') :
    OnGrid { s with cursor := { s.cursor with row := s.scrollBottom } } s' := by
  obtain ⟨t, -, ht, rfl⟩ := scrollUpInternal_some h
  obtain ⟨main, alt, nextId, rfl⟩ := onGrid_scrollRows ht
  exact ⟨_, _, _, rfl⟩

theorem onGrid_unchainRow (h : s.unchainRow row = some s') : OnGrid s s' := by
  unfold unchainRow at h
  split_ifs at h with hcont
  · obtain ⟨a, ha, h⟩ := bind_eq_some_iff.1 h
    exact (onGrid_modifyRow ha).trans (onGrid_breakChainAfter h)
  · exact some.inj h ▸ .refl s

theorem clearRow_some (h : s.clearRow row = some s') : ∃ t u, s.unchainRow row = some t ∧
      t.modifyRow row (fun r => { r with
        cells := List.replicate r.cells.length (blank t.style), softWrapped := false }) = some u ∧
      u.breakChainAfter row = some s' := by
  simp only [clearRow, bind, bind_eq_some_iff] at h
  obtain ⟨t, ht, u, hu, h⟩ := h
  exact ⟨t, u, ht, hu, h⟩

theorem onGrid_clearRow (h : s.clearRow row = some s') : OnGrid s s' := by
  obtain ⟨t, u, ht, hu, h⟩ := clearRow_some h
  exact (onGrid_unchainRow ht).trans ((onGrid_modifyRow hu).trans (onGrid_breakChainAfter h))

theorem onGrid_clearRows : ∀ {n start : ℕ} {s s' : TerminalScreen},
    s.clearRows start n = some s' → OnGrid s s'
  | 0, start, s, s', h => by obtain rfl : s = s' := some.inj h; exact .refl s
  | n + 1, start, s, s', h => by
    obtain ⟨t, ht, h⟩ := bind_eq_some_iff.1 h
    exact (onGrid_clearRow ht).trans (onGrid_clearRows h)

end

/-! ## Text -/

/-- A wide glyph has no room: there is one column, or the row has one left and does not
    wrap. -/
def NoRoom (s : TerminalScreen) (width : ℕ) : Prop :=
  width = 2 ∧ (s.size.cols = 1 ∨ s.size.cols ≤ s.cursor.col + 1 ∧ s.modes.autowrap = false)

instance (s : TerminalScreen) (width : ℕ) : Decidable (s.NoRoom width) :=
  inferInstanceAs (Decidable (_ ∧ _))

def fitted (s : TerminalScreen) (ch : Char) (width : ℕ) : Char × ℕ :=
  if s.NoRoom width then ('\uFFFD', 1) else (ch, width)

/-- The row is wrapped before a glyph is written. -/
def WrapsFirst (s : TerminalScreen) (width : ℕ) : Prop :=
  if width = 2 ∧ s.size.cols ≠ 1 ∧ s.size.cols ≤ s.cursor.col + 1 then s.modes.autowrap = true
  else s.cursor.pendingWrap = true

instance (s : TerminalScreen) (width : ℕ) : Decidable (s.WrapsFirst width) := by
  unfold WrapsFirst
  infer_instance

section
variable {M : TextMetrics} {s s' : TerminalScreen} {ch : Char} {width : ℕ}

theorem writeCharacter_eq (ch : Char) (width : ℕ) :
    s.writeCharacter M ch width = if s.WrapsFirst width then
        s.softWrap >>= putCharacter M (s.fitted ch width).1 (s.fitted ch width).2
      else s.putCharacter M (s.fitted ch width).1 (s.fitted ch width).2 := by
  unfold writeCharacter fitted NoRoom WrapsFirst
  by_cases hw : width = 2
  · subst hw
    by_cases hcols : s.size.cols = 1
    · simp [hcols]
    by_cases hlast : s.size.cols ≤ s.cursor.col + 1
    · by_cases hauto : s.modes.autowrap = true <;> simp [hcols, hlast, hauto]
    · simp [hcols, hlast]
  · simp [hw]

theorem fitted_width (hn : width = 1 ∨ width = 2) :
    (s.fitted ch width).2 = 1 ∨ (s.fitted ch width).2 = 2 := by
  unfold fitted
  split_ifs
  · exact .inl rfl
  · exact hn

theorem room_of_not_wrapsFirst (hwraps : ¬s.WrapsFirst width) (h : (s.fitted ch width).2 = 2) :
    s.cursor.col + 1 < s.size.cols := by
  unfold fitted at h
  unfold WrapsFirst at hwraps
  by_contra hlast
  by_cases hroom : s.NoRoom width
  · rw [if_pos hroom] at h; cases h
  rw [if_neg hroom] at h; obtain rfl : width = 2 := h
  have hcols : s.size.cols ≠ 1 := fun hc => hroom ⟨rfl, .inl hc⟩
  rw [if_pos ⟨rfl, hcols, by omega⟩] at hwraps
  exact hroom ⟨rfl, .inr ⟨by omega, by simpa using hwraps⟩⟩

/-- **What one character of a text does.** -/
theorem writeChar_cases (h : s.writeChar M ch = some s') :
    (isControl (s.mapCharacter ch) = true ∧ s' = s) ∨ isControl (s.mapCharacter ch) = false ∧
      ((∃ row lead cluster, s.joined M (s.mapCharacter ch) = some (some (row, lead, cluster)) ∧
          (maxTerminalGraphemeBytes < utf8Len cluster ∧ s' = s ∨
            utf8Len cluster ≤ maxTerminalGraphemeBytes ∧
              s.replacePreviousGrapheme M row lead cluster = some s')) ∨
        s.joined M (s.mapCharacter ch) = some none ∧ (M.charWidth (s.mapCharacter ch) = 0 ∧
              s.writeLeadingCombining (s.mapCharacter ch) = some s' ∨
            M.charWidth (s.mapCharacter ch) ≠ 0 ∧ s.writeCharacter M (s.mapCharacter ch)
              (min (M.charWidth (s.mapCharacter ch)) 2) = some s')) := by
  unfold writeChar writeMapped at h
  by_cases hcontrol : isControl (s.mapCharacter ch) = true
  · rw [if_pos hcontrol] at h; exact .inl ⟨hcontrol, (some.inj h).symm⟩
  rw [if_neg hcontrol] at h
  refine .inr ⟨by simpa using hcontrol, ?_⟩; obtain ⟨answer, hjoined, h⟩ := bind_eq_some_iff.1 h
  rw [hjoined]
  cases answer with
  | some join =>
    obtain ⟨row, lead, cluster⟩ := join
    refine .inl ⟨row, lead, cluster, rfl, ?_⟩; dsimp only at h
    split_ifs at h with hlong
    · exact .inl ⟨hlong, (some.inj h).symm⟩
    · exact .inr ⟨not_lt.1 hlong, h⟩
  | none =>
    refine .inr ⟨rfl, ?_⟩; dsimp only at h
    split_ifs at h with hzero
    · exact .inl ⟨by omega, h⟩
    · exact .inr ⟨by omega, h⟩

theorem putCharacter_some (h : s.putCharacter M ch width = some s') :
    ∃ t r x u, s.makeRoom M width = some t ∧ t.active.rows[t.cursor.row]? = some r ∧
      r.cells[t.cursor.col]? = some x ∧
      t.editCells t.cursor.row (putCells t.style t.size.cols t.cursor.col width ch) = some u ∧
      s' = if glyphChanged r.cells t.cursor.col width x ch then
          { u with
            cursor := t.afterGlyph t.cursor.row t.cursor.col width
            lastGrapheme := some (t.cursor.row, t.cursor.col) }.changed
        else
          { u with
            cursor := t.afterGlyph t.cursor.row t.cursor.col width
            lastGrapheme := some (t.cursor.row, t.cursor.col) }.displayOnlyChanged := by
  simp only [putCharacter, bind, pure, bind_eq_some_iff, some.injEq] at h
  obtain ⟨t, ht, r, hr, x, hx, u, hu, h⟩ := h
  exact ⟨t, r, x, u, ht, hr, hx, hu, h.symm⟩

def textOn (M : TextMetrics) : TerminalScreen → List Char → List (TerminalScreen × Char)
  | _, [] => []
  | s, ch :: text => (s, ch) :: (s.writeChar M ch).elim [] fun s => textOn M s text

theorem mem_textOn_cons {text : List Char} {t : TerminalScreen} (h : s.writeChar M ch = some t)
    {p : TerminalScreen × Char} :
    p ∈ textOn M s (ch :: text) ↔ p = (s, ch) ∨ p ∈ textOn M t text := by
  simp [textOn, h]

end

/-! ## Counters -/

theorem le_saturatingSucc (n : ℕ) : n ≤ saturatingSucc n := by
  unfold saturatingSucc
  split <;> omega

theorem lt_saturatingSucc {n : ℕ} (h : n < u64Max) : n < saturatingSucc n := by
  rw [saturatingSucc, if_pos h]
  omega

/-- The counters do not go back, and the generation goes on with the mapping. -/
structure Forward (s s' : TerminalScreen) : Prop where
  mapping : s.mappingRevision ≤ s'.mappingRevision
  generation : s.generation ≤ s'.generation
  along : s.mappingRevision < s'.mappingRevision → s.generation < u64Max →
    s.generation < s'.generation

section
variable {s s' s'' : TerminalScreen}

theorem Forward.of_eq (hm : s'.mappingRevision = s.mappingRevision)
    (hg : s'.generation = s.generation) : Forward s s' :=
  ⟨hm.ge, hg.ge, fun h => absurd h (by omega)⟩

@[refl] theorem Forward.refl (s : TerminalScreen) : Forward s s := .of_eq rfl rfl

theorem Forward.trans (h : Forward s s') (h' : Forward s' s'') : Forward s s'' where
  mapping := h.mapping.trans h'.mapping
  generation := h.generation.trans h'.generation
  along hm hg := by
    have hle := h'.generation
    by_cases hfirst : s.mappingRevision < s'.mappingRevision
    · exact (h.along hfirst hg).trans_le hle
    have hgle := h.generation
    by_cases hlt : s.generation < s'.generation
    · omega
    · exact hgle.trans_lt (h'.along (by omega) (by omega))

theorem OnGrid.forward (h : OnGrid s s') : Forward s s' := by
  obtain ⟨main, alt, nextId, rfl⟩ := h
  exact .of_eq rfl rfl

theorem forward_changed : Forward s s.changed where
  mapping := le_saturatingSucc _
  generation := le_saturatingSucc _
  along _ hg := lt_saturatingSucc hg

theorem forward_displayOnlyChanged : Forward s s.displayOnlyChanged where
  mapping := le_rfl
  generation := le_saturatingSucc _
  along h := absurd h (lt_irrefl _)

/-- The last thing a step did was to say that the content changed. -/
def Bumped (s s' : TerminalScreen) : Prop := ∃ t, Forward s t ∧ s' = t.changed

theorem Bumped.forward (h : Bumped s s') : Forward s s' := by
  obtain ⟨t, ht, rfl⟩ := h
  exact ht.trans (forward_changed)

theorem Forward.bumped (h : Forward s s') (h' : Bumped s' s'') : Bumped s s'' := by
  obtain ⟨t, ht, rfl⟩ := h'
  exact ⟨t, h.trans ht, rfl⟩

theorem Bumped.mapping_lt (h : Bumped s s') (hlt : s.mappingRevision < u64Max) :
    s.mappingRevision < s'.mappingRevision := by
  obtain ⟨t, ht, rfl⟩ := h
  by_cases hmax : t.mappingRevision < u64Max
  · exact ht.mapping.trans_lt (lt_saturatingSucc hmax)
  · exact hlt.trans_le ((not_lt.1 hmax).trans (le_saturatingSucc _))

end

end Pmacs.TerminalScreen
