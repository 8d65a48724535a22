/-
  Writing the changed cells of one row to a terminal.

  * `Partway`: a line that shows the new row up to a column and, from there on, the cells
    that are not to change.
  * `Partway.put`, `Running.cell`: writing one glyph, or one cell of a run, moves the column
    on by one.
  * `diffRow_shows`: the spans of a row turn the line that shows the old row into one that
    shows the new.
-/
import Pmacs.Terminal.Screen

namespace Pmacs

open Screen

/-! ## Lines -/

/-- The halves of wide glyphs come in pairs. -/
def LinePaired (line : ℕ → ScreenCell) : Prop :=
  (line 0).isRight = false ∧ ∀ c, (line c).isLeft = (line (c + 1)).isRight

theorem ScreenCell.not_right_of_left {x : ScreenCell} (h : x.isLeft = true) :
    x.isRight = false := by
  cases x <;> simp_all [isLeft, isRight]

@[simp] theorem ScreenCell.blanked_isLeft (x : ScreenCell) : x.blanked.isLeft = false := rfl

@[simp] theorem ScreenCell.blanked_isRight (x : ScreenCell) : x.blanked.isRight = false := rfl

section
variable {W : GlyphWidth} {line : ℕ → ScreenCell} {c : ℕ} {g : Glyph} {s : Style}

@[simp] theorem putGlyph_self :
    putGlyph W line c g s c = if W.wide g then .left g s else .single g s := by
  simp [putGlyph]

/-- A glyph leaves a column alone that it does not cover, nor the other half of what it
    covers. -/
theorem putGlyph_of_ne {i : ℕ} (hi : i ≠ c) (hw : W.wide g → i ≠ c + 1)
    (hl : i + 1 = c → (line i).isLeft = false) (hr : (line i).isRight = false) :
    putGlyph W line c g s i = line i := by
  unfold putGlyph
  rw [if_neg hi, if_neg (fun h => hw h.1 h.2), if_neg, if_neg]
  · simp [hr]
  · rintro ⟨h, h'⟩; simp [hl h] at h'

theorem putGlyph_isLeft {i : ℕ} : (putGlyph W line c g s i).isLeft = if i = c then W.wide g
      else if (W.wide g ∧ i = c + 1) ∨ i + 1 = c then false else (line i).isLeft := by
  unfold putGlyph
  by_cases hi : i = c
  · subst hi; cases h : W.wide g <;> simp [ScreenCell.isLeft]
  rw [if_neg hi, if_neg hi]
  by_cases hw : W.wide g ∧ i = c + 1
  · rw [if_pos hw, if_pos (.inl hw)]; rfl
  rw [if_neg hw]
  by_cases hl : i + 1 = c ∧ (line i).isLeft
  · rw [if_pos hl, if_pos (.inr hl.1)]; rfl
  have hl' (h : i + 1 = c) : (line i).isLeft = false := by simpa [h] using hl
  rw [if_neg hl]
  by_cases hr : i = c + W.columns g ∧ (line i).isRight
  · have hleft : (line i).isLeft = false := by
      cases h : (line i).isLeft with
      | false => rfl
      | true => simp [ScreenCell.not_right_of_left h] at hr
    rw [if_pos hr, hleft]; simp
  rw [if_neg hr]
  split
  · rename_i h; exact hl' (h.resolve_left hw)
  · rfl

theorem putGlyph_isRight {i : ℕ} : (putGlyph W line c g s i).isRight =
      if i = c ∨ i = c + W.columns g then false
      else if W.wide g ∧ i = c + 1 then true else (line i).isRight := by
  unfold putGlyph
  by_cases hi : i = c
  · subst hi; cases h : W.wide g <;> simp [ScreenCell.isRight]
  by_cases hw : W.wide g ∧ i = c + 1
  · have hne : ¬(i = c ∨ i = c + W.columns g) := by simp [GlyphWidth.columns, hw]
    rw [if_neg hi, if_pos hw, if_neg hne, if_pos hw]; rfl
  rw [if_neg hi, if_neg hw, if_neg hw]
  by_cases hl : i + 1 = c ∧ (line i).isLeft
  · rw [if_pos hl, if_neg (by omega), ScreenCell.not_right_of_left hl.2]; rfl
  rw [if_neg hl]
  by_cases hr : i = c + W.columns g
  · rw [if_pos (Or.inr hr : i = c ∨ _)]
    cases h : (line i).isRight with
    | true => rw [if_pos ⟨hr, rfl⟩]; rfl
    | false => rw [if_neg (by simp), h]
  · rw [if_neg (fun h => hr h.1), if_neg (fun h => h.elim hi hr)]

theorem LinePaired.put (h : LinePaired line) : LinePaired (putGlyph W line c g s) := by
  refine ⟨?_, fun i => ?_⟩
  · rw [putGlyph_isRight, h.1]; simp
  rw [putGlyph_isLeft, putGlyph_isRight, ← h.2 i]; unfold GlyphWidth.columns
  cases hw : W.wide g <;> simp <;> grind

end

/-! ## Rows -/

/-- A cell whose glyph takes two columns. -/
def FrameCell.Wide (W : GlyphWidth) (x : FrameCell) : Prop :=
  x.Leading ∧ W.wide x.glyph.printable = true

instance (W : GlyphWidth) (x : FrameCell) : Decidable (x.Wide W) :=
  inferInstanceAs (Decidable (_ ∧ _))

def FrameCell.head (W : GlyphWidth) (x : FrameCell) : ScreenCell :=
  if W.wide x.glyph.printable then .left x.glyph.printable x.style.shown
  else .single x.glyph.printable x.style.shown

variable {W : GlyphWidth}

theorem FrameCell.head_not_right {x : FrameCell} : (x.head W).isRight = false := by
  unfold head
  split <;> rfl

theorem FrameCell.head_isLeft {x : FrameCell} : (x.head W).isLeft = W.wide x.glyph.printable := by
  unfold head
  split <;> simp_all [ScreenCell.isLeft]

/-- Every wide glyph of a row is followed by its second column. -/
def RowWhole (W : GlyphWidth) (cols : ℕ) (x : ℕ → FrameCell) : Prop :=
  ∀ c < cols, (x c).Wide W → c + 1 < cols ∧ ¬(x (c + 1)).Leading

instance (W : GlyphWidth) (cols : ℕ) (x : ℕ → FrameCell) : Decidable (RowWhole W cols x) :=
  inferInstanceAs (Decidable (∀ c < cols, _))

/-- How far past column `c` the cursor stands when the changed cells before `c` are
    written: a wide glyph takes it one column further than its cell. -/
def overhang (W : GlyphWidth) (old new : ℕ → FrameCell) : ℕ → ℕ
  | 0 => 0
  | c + 1 => if old c ≠ new c ∧ (new c).Wide W then 1 else 0

/-- A second column that changed, with a change right of it, changed along with the wide
    glyph it belongs to. -/
def RowAligned (W : GlyphWidth) (cols : ℕ) (old new : ℕ → FrameCell) : Prop :=
  ∀ c < cols, c + 1 < cols → old c ≠ new c → old (c + 1) ≠ new (c + 1) → ¬(new c).Leading →
    overhang W old new c = 1

instance (W : GlyphWidth) (cols : ℕ) (old new : ℕ → FrameCell) :
    Decidable (RowAligned W cols old new) :=
  inferInstanceAs (Decidable (∀ c < cols, _))

/-- A line that shows the new row before column `c`, and what stays of the old one from
    there on. -/
structure Partway (W : GlyphWidth) (cols : ℕ) (old new : ℕ → FrameCell)
    (line : ℕ → ScreenCell) (c : ℕ) : Prop where
  paired : LinePaired line
  done : ∀ i < c, (new i).Leading → line i = (new i).head W
  kept : ∀ i, c ≤ i → i < cols → old i = new i → (new i).Leading → line i = (new i).head W

section
variable {cols : ℕ} {old new : ℕ → FrameCell} {line : ℕ → ScreenCell} {c : ℕ}

/-- A cell that is not to be drawn, or is there already, is passed over. -/
theorem Partway.skip (h : Partway W cols old new line c) (hc : c < cols)
    (hs : (new c).Leading → old c = new c) : Partway W cols old new line (c + 1) where
  paired := h.paired
  done := by
    intro i hi hl
    rcases Nat.lt_succ_iff_lt_or_eq.1 hi with hi | rfl
    · exact h.done i hi hl
    · exact h.kept i le_rfl hc (hs hl) hl
  kept := fun i hi => h.kept i (by omega)

/-- Writing the glyph of a cell in its own column moves the line on by one cell. -/
theorem Partway.put (h : Partway W cols old new line c) (hw : RowWhole W cols new)
    (hc : c < cols) (hl : (new c).Leading) : Partway W cols old new
      (putGlyph W line c (new c).glyph.printable (new c).style.shown) (c + 1) := by
  -- a cell whose first column the line shows keeps it
  have hkeep {i : ℕ} (hi : i ≠ c) (hi' : i < cols) (hli : (new i).Leading)
      (he : line i = (new i).head W) :
      putGlyph W line c (new c).glyph.printable (new c).style.shown i = (new i).head W := by
    rw [putGlyph_of_ne hi, he]
    · rintro hwide rfl; exact (hw c hc ⟨hl, hwide⟩).2 hli
    · rintro rfl; rw [he, FrameCell.head_isLeft, Bool.eq_false_iff]; intro hwide
      exact (hw i hi' ⟨hli, hwide⟩).2 hl
    · rw [he, FrameCell.head_not_right]
  refine ⟨h.paired.put, fun i hi hli => ?_, fun i hi hi' ho hli => ?_⟩
  · rcases Nat.lt_succ_iff_lt_or_eq.1 hi with hi | rfl
    · exact hkeep (by omega) (by omega) hli (h.done i hi hli)
    · exact putGlyph_self
  · exact hkeep (by omega) hi' hli (h.kept i (by omega) hi' ho hli)

end

/-! ## Runs -/

/-- A terminal in the middle of a row: the other lines are as they were. -/
structure Midway (W : GlyphWidth) (cols : ℕ) (old new : ℕ → FrameCell) (row : ℕ)
    (before now : Screen) (c : ℕ) : Prop where
  others : ∀ r, r ≠ row → now.lines r = before.lines r
  partway : Partway W cols old new (now.lines row) c

/-- A terminal in the middle of a run: its cursor is where the next changed cell goes, and
    it draws in the style last applied. -/
structure Running (W : GlyphWidth) (cols : ℕ) (old new : ℕ → FrameCell) (row : ℕ)
    (before now : Screen) (c : ℕ) (lastStyle : Option Style) : Prop
    extends Midway W cols old new row before now c where
  at_row : now.row = row
  at_col : c < cols → old c ≠ new c → now.col = c + overhang W old new c
  styled : ∀ s, lastStyle = some s → now.style = s.shown

section
variable {cols : ℕ} {old new : ℕ → FrameCell} {row : ℕ} {before now : Screen} {c : ℕ}
  {lastStyle : Option Style}

theorem Running.restyle (h : Running W cols old new row before now c lastStyle) (s : Style) :
    Running W cols old new row before
      (now.run W (if lastStyle = some s then [] else applyStyle s)) c (some s) := by
  split
  · rename_i hs; subst hs; exact h
  rw [run_applyStyle]
  refine { others := h.others, partway := h.partway, at_row := h.at_row, at_col := h.at_col,
           styled := ?_ }
  intro s' hs'; cases hs'; rfl

theorem overhang_changed (h : old c ≠ new c) :
    overhang W old new (c + 1) = if (new c).Wide W then 1 else 0 := by
  simp [overhang, h]

/-- **One cell of a run.** -/
theorem Running.cell (h : Running W cols old new row before now c (some (new c).style))
    (hw : RowWhole W cols new) (ha : RowAligned W cols old new) (hc : c < cols)
    (hd : old c ≠ new c) :
    Running W cols old new row before (now.run W (emitGlyph (new c).glyph)) (c + 1)
      (some (new c).style) := by
  have hcol := h.at_col hc hd
  by_cases hl : (new c).Leading
  · -- a glyph is written where its cell is: no wide glyph stands just before it
    have hover : overhang W old new c = 0 := by
      cases c with
      | zero => rfl
      | succ c => refine if_neg fun hwide => ?_; exact (hw c (by omega) hwide.2).2 hl
    have hemit : emitGlyph (new c).glyph = [.print (new c).glyph.printable] := by
      cases hg : (new c).glyph with
      | continuation => exact absurd hg hl
      | char | cluster => rfl
    rw [hover, add_zero] at hcol; rw [hemit, run_cons, run_nil]
    refine { others := ?_, partway := ?_, at_row := h.at_row, at_col := ?_, styled := h.styled }
    · intro r hr; simp only [step, h.at_row, if_neg hr]; exact h.others r hr
    · simp only [step, h.at_row, ↓reduceIte, hcol, h.styled _ rfl]
      exact h.partway.put hw hc hl
    intro _ _; rw [overhang_changed hd]
    simp only [step, hcol, GlyphWidth.columns, FrameCell.Wide, hl, true_and]
    split <;> rfl
  -- nothing is written for a second column
  have hemit : emitGlyph (new c).glyph = [] := by
    unfold FrameCell.Leading at hl; rw [not_not] at hl; rw [hl]
    rfl
  rw [hemit, run_nil]
  refine { others := h.others, partway := ?_, at_row := h.at_row, at_col := ?_,
           styled := h.styled }
  · exact h.partway.skip hc fun hl' => absurd hl' hl
  intro hc' hd'
  rw [overhang_changed hd, if_neg fun hwide => hl hwide.1, hcol, ha c hc hc' hd hd' hl]

/-- The escapes of a run that has been written up to column `c` and not yet closed. -/
def openedRun (row c : ℕ) (run : List FrameCell) : List Escape :=
  .moveTo ((c - run.length) % 2 ^ 16) (row % 2 ^ 16) :: (run.foldl emitCell ([], none)).1

variable {run : List FrameCell}

theorem emitSpan_eq (h : run ≠ []) :
    emitSpan ⟨⟨row, c - run.length⟩, run⟩ = openedRun row c run ++ [.resetColor, .reset] := by
  simp [emitSpan, openedRun, h]

/-- The terminal the open run leaves is in the middle of its row. -/
def RunOk (W : GlyphWidth) (cols : ℕ) (old new : ℕ → FrameCell) (row : ℕ)
    (before now : Screen) (c : ℕ) (run : List FrameCell) : Prop :=
  if run = [] then Midway W cols old new row before now c ∧ overhang W old new c = 0
  else Running W cols old new row before (now.run W (openedRun row c run)) c
    (run.foldl emitCell ([], none)).2

variable (h : RunOk W cols old new row before now c run)
include h

theorem RunOk.close :
    Midway W cols old new row before (now.run W ((closeRun row c run).flatMap emitSpan)) c := by
  unfold RunOk at h
  unfold closeRun
  split at h
  · rename_i hrun; simpa [hrun] using h.1
  rename_i hrun
  rw [if_neg hrun, List.flatMap_singleton, emitSpan_eq hrun, run_append, run_resets]
  exact ⟨h.others, h.partway⟩

theorem RunOk.extend (hw : RowWhole W cols new) (ha : RowAligned W cols old new)
    (hrow : row < 2 ^ 16) (hcols : cols ≤ 2 ^ 16) (hc : c < cols) (hd : old c ≠ new c) :
    RunOk W cols old new row before now (c + 1) (run ++ [new c]) := by
  unfold RunOk at h ⊢
  rw [if_neg (by simp)]
  -- where the cell's own escapes are run from
  have hrunning : Running W cols old new row before (now.run W (openedRun row c run)) c
      (run.foldl emitCell ([], none)).2 := by
    split at h
    · rename_i hrun; subst hrun
      refine { others := h.1.others, partway := h.1.partway, at_row := ?_, at_col := ?_,
               styled := ?_ }
      · exact Nat.mod_eq_of_lt hrow
      · intro _ _; rw [h.2]; exact Nat.mod_eq_of_lt (by omega)
      · nofun
    · exact h
  have hopened : openedRun row (c + 1) (run ++ [new c]) = openedRun row c run
      ++ (if (run.foldl emitCell ([], none)).2 = some (new c).style then []
          else applyStyle (new c).style) ++ emitGlyph (new c).glyph := by
    simp [openedRun, emitCell, Nat.add_sub_add_right]
  rw [hopened, run_append, run_append, List.foldl_append]
  exact (hrunning.restyle (new c).style).cell hw ha hc hd

end

/-- **The spans of a row turn the old row into the new**, from wherever a run is open. -/
theorem diffRow_shows {cols : ℕ} {prev next : List FrameCell} {row : ℕ}
    {before : Screen} (hw : RowWhole W cols (cellAt next cols row))
    (ha : RowAligned W cols (cellAt prev cols row) (cellAt next cols row))
    (hrow : row < 2 ^ 16) (hcols : cols ≤ 2 ^ 16) :
    ∀ (left c : ℕ) (run : List FrameCell) (now : Screen), c + left = cols →
      RunOk W cols (cellAt prev cols row) (cellAt next cols row) row before now c run →
      Midway W cols (cellAt prev cols row) (cellAt next cols row) row before
        (now.run W ((diffRow prev next cols row left c run).flatMap emitSpan)) cols
  | 0, c, run, now, hc, h => by subst hc; exact h.close
  | left + 1, c, run, now, hc, h => by
    unfold diffRow
    split
    · rename_i he; rw [List.flatMap_append, run_append]
      refine diffRow_shows hw ha hrow hcols left (c + 1) [] _ (by omega) ?_; have hclose := h.close
      refine ⟨⟨hclose.others, hclose.partway.skip (by omega) fun _ => he⟩, ?_⟩; simp [overhang, he]
    rename_i hd
    exact diffRow_shows hw ha hrow hcols left (c + 1) _ now (by omega)
      (h.extend hw ha hrow hcols (by omega) hd)

end Pmacs
