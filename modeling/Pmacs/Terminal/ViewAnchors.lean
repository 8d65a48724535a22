/-
  One view of a terminal (view.rs), scrolled and given other sizes.

  * `resolveAnchor`, `viewGeometry`: the row an anchor is in, and the rows a view shows.
  * `declareViewSize`, `scrollView`: what the calls do to a view; `ViewedTerminal`: a screen and
    one view of it.
  * `IsTop`: the row a view is to show at its top; `Anchored`: what a call makes of it.
  * `run_anchored`: it holds in runs whose calls are `Fit`.
-/
import Pmacs.Terminal.Revisions

namespace Pmacs

open Lib List Option
open TerminalScreen (heartMetrics)

/-! ## Anchors -/

structure LogicalCellAnchor where
  logicalLineId : ℕ
  cellOffset : ℕ
deriving DecidableEq, Repr

/-- The order by which eviction is told. -/
def LogicalCellAnchor.Before (a b : LogicalCellAnchor) : Prop :=
  a.logicalLineId < b.logicalLineId ∨
    a.logicalLineId = b.logicalLineId ∧ a.cellOffset < b.cellOffset

instance LogicalCellAnchor.decidableBefore (a b : LogicalCellAnchor) : Decidable (a.Before b) :=
  inferInstanceAs (Decidable (_ ∨ _))

structure TerminalSelection where
  anchor : LogicalCellAnchor
  head : LogicalCellAnchor
deriving DecidableEq, Repr

/-- A view; without a `top` it follows the live tail. -/
structure TerminalViewState where
  top : Option LogicalCellAnchor
  selection : Option TerminalSelection
  drag : Option LogicalCellAnchor
  alternateActive : Option Bool
  lastBellCount : ℕ
  viewportSize : Option CellSize
  selectionFrozeTop : Bool
deriving DecidableEq, Repr

structure ResolvedCell where
  row : ℕ
  col : ℕ

structure ViewGeometry where
  start : ℕ
  topPadding : ℕ
  scrollOffset : ℕ

namespace TerminalRow

def rowLead (row : TerminalRow) : LogicalCellAnchor := ⟨row.logicalLineId, row.cellOffset⟩

/-- The cell of the anchor is in the row. -/
def Covers (row : TerminalRow) (anchor : LogicalCellAnchor) : Prop :=
  row.logicalLineId = anchor.logicalLineId ∧ row.cellOffset ≤ anchor.cellOffset ∧
    anchor.cellOffset < min (row.cellOffset + row.cells.length % 2 ^ 32) u32Max

instance (row : TerminalRow) (anchor : LogicalCellAnchor) : Decidable (row.Covers anchor) :=
  inferInstanceAs (Decidable (_ ∧ _))

/-- The loop of `canonical_col`. -/
def canonicalColFrom (cells : List Cell) : ℕ → ℕ
  | 0 => 0
  | col + 1 =>
    if cells[col + 1]?.any (·.glyph = .continuation) then canonicalColFrom cells col else col + 1

def canonicalCol (row : TerminalRow) (col : ℕ) : ℕ :=
  canonicalColFrom row.cells (min col (row.cells.length - 1))

end TerminalRow

/-- `projection_ref`: while synchronized output is held, the rows last published. -/
def TerminalScreen.projectionRef (s : TerminalScreen) : ScreenProjection :=
  if s.modes.synchronizedOutput then s.published else s.currentProjection

variable (state : TerminalViewState) (p : ScreenProjection)

def ScreenProjection.retainedRows : List TerminalRow :=
  p.history ++ p.visibleRows

def resolveAnchor (rows : List TerminalRow) (anchor : LogicalCellAnchor) : Option ResolvedCell := do
  let i ← rows.findIdx? fun row => row.Covers anchor
  let row ← rows[i]?
  return ⟨i, row.canonicalCol (anchor.cellOffset - row.cellOffset)⟩

def anchorFor (rows : List TerminalRow) (resolved : ResolvedCell) : Option LogicalCellAnchor :=
  rows[resolved.row]?.map fun row =>
    ⟨row.logicalLineId, min (row.cellOffset + resolved.col % 2 ^ 32) u32Max⟩

def clampOrClear (rows : List TerminalRow) (anchor : LogicalCellAnchor) :
    Option LogicalCellAnchor :=
  match resolveAnchor rows anchor with
  | some resolved => anchorFor rows resolved
  | none => (rows.head?.map (·.rowLead)).filter (anchor.Before ·)

def viewGeometry (rows : List TerminalRow) (state : TerminalViewState) (viewportRows : ℕ) :
    ViewGeometry :=
  let follow := state.top.isNone && state.selection.isNone
  let tailStart := rows.length - viewportRows
  let start := if follow then tailStart
    else ((state.top.bind (resolveAnchor rows)).map (·.row)).getD tailStart
  { start := start
    topPadding := if follow && rows.length < viewportRows then viewportRows - rows.length else 0
    scrollOffset := min (rows.length - (start + viewportRows)) u32Max }

/-! ## Calls -/

def validViewport (size : CellSize) : Prop :=
  0 < size.rows ∧ 0 < size.cols ∧ size.rows ≤ maxTerminalSide ∧ size.cols ≤ maxTerminalSide ∧
    size.rows * size.cols ≤ maxTerminalVisibleCells

instance (size : CellSize) : Decidable (validViewport size) :=
  inferInstanceAs (Decidable (_ ∧ _))

def clampSelection (rows : List TerminalRow) (selection : TerminalSelection) :
    Option TerminalSelection := do
  let anchor ← clampOrClear rows selection.anchor
  let head ← clampOrClear rows selection.head
  if anchor = head ∧ (anchor ≠ selection.anchor ∨ head ≠ selection.head) then none
  else some ⟨anchor, head⟩

def normalizeState : TerminalViewState :=
  let state := if state.alternateActive.any (· ≠ p.alternateActive) then
      { state with top := none, selection := none, drag := none, selectionFrozeTop := false }
    else state
  let selection := state.selection.bind (clampSelection p.retainedRows)
  { state with
    alternateActive := some p.alternateActive
    top := state.top.bind (clampOrClear p.retainedRows)
    selection := selection
    drag := if selection.isNone then none else state.drag.bind (clampOrClear p.retainedRows)
    selectionFrozeTop := selection.isSome && state.selectionFrozeTop }

def rearmFollowOnGrowth (viewportRows : ℕ) : TerminalViewState :=
  if state.top.isNone || state.selection.isSome || viewportRows == 0 then state
  else if (viewGeometry p.retainedRows state viewportRows).scrollOffset = 0 then
    { state with top := none, selectionFrozeTop := false }
  else state

def declareViewSize (size : CellSize) : TerminalViewState :=
  { rearmFollowOnGrowth (normalizeState state p) p size.rows with viewportSize := some size }

/-- The row that `lines` rows towards history, or towards the tail, leads to. -/
def scrolled (rows viewportRows : ℕ) (lines : ℤ) (start : ℕ) : ℕ :=
  if 0 < lines then start - lines.natAbs else min (start + lines.natAbs) (rows - viewportRows)

/-- `scroll_view`, of a call that is not refused: the view, and whether it moved. -/
def scrollView (size : CellSize) (lines : ℤ) : TerminalViewState × Bool :=
  let state := { normalizeState state p with viewportSize := some size }
  let rows := p.retainedRows
  let start := (viewGeometry rows state size.rows).start
  let next := scrolled rows.length size.rows lines start
  if rows.isEmpty || next == start then (state, false)
  else ({ state with top := if next = rows.length - size.rows ∧ state.selection = none then none
        else rows[next]?.map (·.rowLead) }, true)

inductive ViewCall where
  | declare (size : CellSize)
  | scroll (size : CellSize) (lines : ℤ)

namespace ViewCall

def size : ViewCall → CellSize
  | declare size => size
  | scroll size _ => size

def scroll? : ViewCall → Option (CellSize × ℤ)
  | declare _ => none
  | scroll size lines => some (size, lines)

def Effective : ViewCall → Prop
  | declare size => validViewport size
  | scroll size lines => lines ≠ 0 ∧ validViewport size

instance (c : ViewCall) : Decidable c.Effective :=
  match c with
  | declare size => inferInstanceAs (Decidable (validViewport size))
  | scroll _ _ => inferInstanceAs (Decidable (_ ∧ _))

/-- The row that is to be shown at the top, of `rows` retained, where it was `start`. -/
def target (rows start : ℕ) : ViewCall → ℕ
  | declare size => min start (rows - size.rows)
  | scroll size lines => scrolled rows size.rows lines start

end ViewCall

structure ViewedTerminal where
  screen : TerminalScreen
  view : Option TerminalViewState

inductive ViewInput where
  | screen (input : ScreenInput)
  | call (c : ViewCall)

def ViewInput.call? : ViewInput → Option ViewCall
  | screen _ => none
  | call c => some c

namespace ViewedTerminal

def rows (t : ViewedTerminal) : List TerminalRow := t.screen.projectionRef.retainedRows

def entry (t : ViewedTerminal) : TerminalViewState :=
  t.view.getD ⟨none, none, none, some t.screen.projectionRef.alternateActive, t.screen.bellCount,
    none, false⟩

def after (t : ViewedTerminal) : ViewCall → TerminalViewState
  | .declare size => declareViewSize t.entry t.screen.projectionRef size
  | .scroll size lines => (scrollView t.entry t.screen.projectionRef size lines).1

def call (t : ViewedTerminal) (c : ViewCall) : ViewedTerminal :=
  if c.Effective then { t with view := some (t.after c) } else t

def step (M : TextMetrics) (t : ViewedTerminal) : ViewInput → Option ViewedTerminal
  | .screen input => (t.screen.step M input).map ({ t with screen := · })
  | .call c => some (t.call c)

/-- The terminals that output, resizes and calls lead to, when every call meets a condition. -/
inductive Reached (M : TextMetrics) (Ok : ViewedTerminal → ViewCall → Prop) :
    ViewedTerminal → Prop
  | new {size : CellSize} (h : validSize size) (scrollbackRows : ℕ) :
    Reached M Ok ⟨.new size scrollbackRows, none⟩
  | step {t t' : ViewedTerminal} {input : ViewInput} (h : Reached M Ok t)
    (hok : ∀ c, input = .call c → Ok t c) (hstep : t.step M input = some t') : Reached M Ok t'

/-- The row a view is to show at its top: the one its anchor's cell is in, the oldest one when
    the cell is gone, and the first of the tail when it follows. -/
def IsTop (t : ViewedTerminal) (viewportRows i : ℕ) : Prop :=
  match t.entry.top with
  | none => i = t.rows.length - viewportRows
  | some a => (∃ row, t.rows[i]? = some row ∧ row.Covers a) ∨
      (∀ row ∈ t.rows, ¬row.Covers a) ∧ i = 0

/-- A call shows the row it is to, an anchor is a cell of the row shown, and a view that reaches
    the live tail follows it. -/
structure Anchored (t : ViewedTerminal) (c : ViewCall) : Prop where
  top : ∀ i, t.IsTop c.size.rows i →
    (viewGeometry t.rows (t.after c) c.size.rows).start = c.target t.rows.length i
  cell : ∀ a, (t.after c).top = some a → ∃ row,
    t.rows[(viewGeometry t.rows (t.after c) c.size.rows).start]? = some row ∧ row.Covers a
  follows : (viewGeometry t.rows (t.after c) c.size.rows).scrollOffset = 0 →
    (t.after c).top = none

end ViewedTerminal

/-- A row has its first cell, and no other row has a cell of it. -/
def Sole (rows : List TerminalRow) (i : ℕ) : Prop :=
  ∀ row, rows[i]? = some row → row.Covers row.rowLead ∧
    ∀ j other a, rows[j]? = some other → row.Covers a → other.Covers a → j = i

/-- A scroll of a view at row `i` ends no lower than the tail, does not leave an anchored view where
    it reaches the tail, and moves it to no row that another has a cell of. -/
def ViewedTerminal.Lands (t : ViewedTerminal) (size : CellSize) (lines : ℤ) (i : ℕ) : Prop :=
  scrolled t.rows.length size.rows lines i ≤ t.rows.length - size.rows ∧
  (scrolled t.rows.length size.rows lines i = t.rows.length - size.rows →
    t.entry.top = none ∨ scrolled t.rows.length size.rows lines i ≠ i) ∧
  (scrolled t.rows.length size.rows lines i < t.rows.length - size.rows →
    scrolled t.rows.length size.rows lines i ≠ i →
      Sole t.rows (scrolled t.rows.length size.rows lines i))

/-- The screen is the one the view was on; no two rows have a cell of the one shown; an anchor that
    is gone is of an older cell than the oldest row's first; and a scroll lands. -/
structure ViewedTerminal.Fit (t : ViewedTerminal) (c : ViewCall) : Prop where
  sameScreen : t.entry.alternateActive = some t.screen.projectionRef.alternateActive
  retained : ∀ a i row, t.entry.top = some a → t.rows[i]? = some row → row.Covers a → Sole t.rows i
  evicted : ∀ a, t.entry.top = some a → (∀ row ∈ t.rows, ¬row.Covers a) → Sole t.rows 0 ∧
    ∃ oldest, t.rows.head? = some oldest ∧ a.Before oldest.rowLead
  lands : ∀ size lines i, c = .scroll size lines → t.IsTop size.rows i → t.Lands size lines i

/-! ## Checking a call -/

/-- The rows have a cell in common. -/
def TerminalRow.Overlaps (row other : TerminalRow) : Prop :=
  row.logicalLineId = other.logicalLineId ∧ max row.cellOffset other.cellOffset <
    min (min (row.cellOffset + row.cells.length % 2 ^ 32) u32Max)
      (min (other.cellOffset + other.cells.length % 2 ^ 32) u32Max)

instance (row other : TerminalRow) : Decidable (row.Overlaps other) :=
  inferInstanceAs (Decidable (_ ∧ _))

theorem TerminalRow.overlaps_iff {row other : TerminalRow} :
    row.Overlaps other ↔ ∃ a, row.Covers a ∧ other.Covers a := by
  constructor
  · rintro ⟨hid, hlt⟩
    exact ⟨⟨row.logicalLineId, max row.cellOffset other.cellOffset⟩,
      ⟨rfl, le_max_left _ _, hlt.trans_le (min_le_left _ _)⟩,
      hid.symm, le_max_right _ _, hlt.trans_le (min_le_right _ _)⟩
  · rintro ⟨a, ⟨hid, hle, hlt⟩, hid', hle', hlt'⟩
    have hmax := max_le hle hle'
    exact ⟨hid.trans hid'.symm, lt_min (hmax.trans_lt hlt) (hmax.trans_lt hlt')⟩

theorem sole_iff {rows : List TerminalRow} {i : ℕ} : Sole rows i ↔
    ∀ row ∈ rows[i]?, row.Covers row.rowLead ∧
      ∀ j < rows.length, ∀ other ∈ rows[j]?, row.Overlaps other → j = i := by
  refine forall₂_congr fun row _ => and_congr_right fun _ => ⟨?_, ?_⟩
  · intro h j _ other hother hover
    obtain ⟨a, hrow, hcovers⟩ := TerminalRow.overlaps_iff.1 hover
    exact h j other a hother hrow hcovers
  · intro h j other a hother hrow hcovers
    exact h j (List.getElem?_eq_some_iff.1 hother).1 other hother
      (TerminalRow.overlaps_iff.2 ⟨a, hrow, hcovers⟩)

instance (rows : List TerminalRow) (i : ℕ) : Decidable (Sole rows i) :=
  decidable_of_iff' _ sole_iff

namespace ViewedTerminal

instance (t : ViewedTerminal) (n i : ℕ) : Decidable (t.IsTop n i) := by
  unfold IsTop
  cases t.entry.top <;> infer_instance

instance (t : ViewedTerminal) (size : CellSize) (lines : ℤ) (i : ℕ) :
    Decidable (t.Lands size lines i) :=
  inferInstanceAs (Decidable (_ ∧ (_ → _) ∧ (_ → _ → _)))

theorem IsTop.le {t : ViewedTerminal} {n i : ℕ} (h : t.IsTop n i) : i ≤ t.rows.length := by
  unfold IsTop at h
  cases htop : t.entry.top with
  | none => rw [htop] at h; have : i = t.rows.length - n := h; omega
  | some a =>
    rw [htop] at h; obtain ⟨row, hrow, -⟩ | ⟨-, rfl⟩ := h
    · exact (List.getElem?_eq_some_iff.1 hrow).1.le
    · exact Nat.zero_le _

theorem fit_iff {t : ViewedTerminal} {c : ViewCall} : t.Fit c ↔
    t.entry.alternateActive = some t.screen.projectionRef.alternateActive ∧
    (∀ a ∈ t.entry.top, ∀ i < t.rows.length, ∀ row ∈ t.rows[i]?, row.Covers a → Sole t.rows i) ∧
    (∀ a ∈ t.entry.top, (∀ row ∈ t.rows, ¬row.Covers a) → Sole t.rows 0 ∧
      ∃ oldest, t.rows.head? = some oldest ∧ a.Before oldest.rowLead) ∧
    ∀ p ∈ c.scroll?, ∀ i ≤ t.rows.length, t.IsTop p.1.rows i → t.Lands p.1 p.2 i := by
  constructor
  · rintro ⟨hsame, hretained, hevicted, hlands⟩
    refine ⟨hsame, fun a ha i _ row => hretained a i row ha, hevicted, fun p hp i _ => ?_⟩
    cases c with
    | declare size => cases hp
    | scroll size lines => cases hp; exact hlands size lines i rfl
  · rintro ⟨hsame, hretained, hevicted, hlands⟩
    refine ⟨hsame, fun a i row ha hrow => ?_, hevicted, fun size lines i hc htop => ?_⟩
    · exact hretained a ha i (List.getElem?_eq_some_iff.1 hrow).1 row hrow
    · subst hc; exact hlands _ rfl i htop.le htop

instance (t : ViewedTerminal) (c : ViewCall) : Decidable (t.Fit c) :=
  decidable_of_iff' _ fit_iff

theorem Reached.run_checked {M : TextMetrics} {Ok : ViewedTerminal → ViewCall → Prop}
    [∀ t c, Decidable (Ok t c)] {t t' : ViewedTerminal} {inputs : List ViewInput}
    (h : Reached M Ok t) (hrun : inputs.foldlM (fun t input =>
      if ∀ c ∈ input.call?, Ok t c then t.step M input else none) t = some t') :
    Reached M Ok t' ∧ inputs.foldlM (ViewedTerminal.step M) t = some t' := by
  induction inputs generalizing t with
  | nil => exact ⟨Option.some.inj hrun ▸ h, hrun⟩
  | cons input inputs ih =>
    obtain ⟨u, hu, hrun⟩ := Option.bind_eq_some_iff.1 hrun
    obtain ⟨hok, hstep⟩ := Option.ite_none_right_eq_some.1 hu
    have hcall : ∀ c, input = .call c → Ok t c := by rintro c rfl; exact hok c rfl
    obtain ⟨hreached, hfold⟩ := ih (h.step hcall hstep) hrun
    exact ⟨hreached, by rw [List.foldlM_cons, hstep]; exact hfold⟩

end ViewedTerminal

/-! ## The row of an anchor -/

variable {rows : List TerminalRow} {a : LogicalCellAnchor} {row : TerminalRow} {i n : ℕ}

theorem resolveAnchor_of_sole (hsole : Sole rows i) (hrow : rows[i]? = some row)
    (h : row.Covers a) :
    resolveAnchor rows a = some ⟨i, row.canonicalCol (a.cellOffset - row.cellOffset)⟩ := by
  have hfind : rows.findIdx? (fun row => row.Covers a) = some i := by
    rw [findIdx?_eq_some_iff_getElem]; obtain ⟨hi, rfl⟩ := List.getElem?_eq_some_iff.1 hrow
    refine ⟨hi, decide_eq_true h, fun j hj hcovers => ?_⟩
    have hji := (hsole _ hrow).2 j _ a (getElem?_eq_getElem (by omega)) h
      (of_decide_eq_true hcovers)
    omega
  simp [resolveAnchor, hfind, hrow]

theorem resolveAnchor_of_gone (h : ∀ row ∈ rows, ¬row.Covers a) : resolveAnchor rows a = none := by
  have hfind : rows.findIdx? (fun row => row.Covers a) = none := by
    rw [findIdx?_eq_none_iff]; exact fun row hrow => decide_eq_false (h row hrow)
  simp [resolveAnchor, hfind]

theorem canonicalColFrom_le (cells : List Cell) :
    ∀ col, TerminalRow.canonicalColFrom cells col ≤ col
  | 0 => le_refl 0
  | col + 1 => by
    rw [TerminalRow.canonicalColFrom]
    split_ifs
    · exact (canonicalColFrom_le cells col).trans (Nat.le_succ col)
    · exact le_rfl

theorem clampOrClear_of_sole (hsole : Sole rows i) (hrow : rows[i]? = some row)
    (h : row.Covers a) : ∃ b, clampOrClear rows a = some b ∧ row.Covers b := by
  have hle : row.canonicalCol (a.cellOffset - row.cellOffset) ≤ a.cellOffset - row.cellOffset :=
    (canonicalColFrom_le _ _).trans (min_le_left _ _)
  simp only [clampOrClear, resolveAnchor_of_sole hsole hrow h, anchorFor, hrow, map_some]
  generalize row.canonicalCol (a.cellOffset - row.cellOffset) = col at hle
  obtain ⟨-, hlow, hhigh⟩ := h
  have hmod := Nat.mod_le col (2 ^ 32)
  refine ⟨_, rfl, rfl, ?_, ?_⟩ <;> dsimp only <;> omega

/-- Row `i` is at the top of a view, by the state of the view. -/
def Shows (rows : List TerminalRow) (viewportRows : ℕ) (top : Option LogicalCellAnchor) (i : ℕ) :
    Prop :=
  match top with
  | none => i = rows.length - viewportRows
  | some a => Sole rows i ∧ ∃ row, rows[i]? = some row ∧ row.Covers a

variable {v : TerminalViewState}

theorem Shows.start (h : Shows rows n v.top i)
    (hsel : v.selection = none) : (viewGeometry rows v n).start = i := by
  cases htop : v.top with
  | none => rw [htop] at h; simpa [viewGeometry, htop, hsel] using h.symm
  | some a =>
    rw [htop] at h; obtain ⟨hsole, row, hrow, hcovers⟩ := h
    simp [viewGeometry, htop, resolveAnchor_of_sole hsole hrow hcovers]

theorem scrollOffset_eq_zero : (viewGeometry rows v n).scrollOffset = 0 ↔
      rows.length ≤ (viewGeometry rows v n).start + n := by
  simp only [viewGeometry, u32Max]
  omega

/-! ## What a call does -/

theorem normalizeState_selection (h : v.selection = none)
    (p : ScreenProjection) : (normalizeState v p).selection = none := by
  rw [normalizeState]
  split_ifs <;> simp [h]

theorem rearmFollowOnGrowth_selection (v : TerminalViewState) (p : ScreenProjection) (n : ℕ) :
    (rearmFollowOnGrowth v p n).selection = v.selection := by
  rw [rearmFollowOnGrowth]
  split_ifs <;> rfl

theorem scrollView_selection (v : TerminalViewState) (p : ScreenProjection) (size : CellSize)
    (lines : ℤ) : (scrollView v p size lines).1.selection = (normalizeState v p).selection := by
  simp only [scrollView]
  split_ifs <;> rfl

namespace ViewedTerminal

variable {t t' : ViewedTerminal} {c : ViewCall} {M : TextMetrics}
  {Ok : ViewedTerminal → ViewCall → Prop}

theorem after_selection (h : t.entry.selection = none) (c : ViewCall) :
    (t.after c).selection = none := by
  have hnormal := normalizeState_selection h t.screen.projectionRef
  cases c with
  | declare size => exact (rearmFollowOnGrowth_selection _ _ _).trans hnormal
  | scroll size lines => exact (scrollView_selection _ _ _ _).trans hnormal

theorem Reached.entry_selection (h : Reached M Ok t) : t.entry.selection = none := by
  induction h with
  | new => rfl
  | @step t t' input h hok hstep ih =>
    cases input with
    | screen input =>
      obtain ⟨screen, -, rfl⟩ := map_eq_some_iff.1 hstep; rw [entry] at ih ⊢
      cases hview : t.view with
      | none => rfl
      | some v => rwa [hview] at ih
    | call c =>
      obtain rfl := Option.some.inj hstep; rw [call]
      split_ifs
      · exact after_selection ih c
      · exact ih

theorem exists_isTop (t : ViewedTerminal) (n : ℕ) : ∃ i, t.IsTop n i := by
  unfold IsTop
  cases t.entry.top with
  | none => exact ⟨_, rfl⟩
  | some a =>
    by_cases hgone : ∀ row ∈ t.rows, ¬row.Covers a
    · exact ⟨0, .inr ⟨hgone, rfl⟩⟩
    push Not at hgone
    obtain ⟨row, hrow, hcovers⟩ := hgone; obtain ⟨i, hi⟩ := mem_iff_getElem?.1 hrow
    exact ⟨i, .inl ⟨row, hi, hcovers⟩⟩

theorem Fit.normalized (hfit : t.Fit c) (htop : t.IsTop n i) :
    Shows t.rows n (normalizeState t.entry t.screen.projectionRef).top i ∧
      (t.entry.top = none → (normalizeState t.entry t.screen.projectionRef).top = none) := by
  have hsame : ¬(t.entry.alternateActive.any
      (· ≠ t.screen.projectionRef.alternateActive)) = true := by rw [hfit.sameScreen]; simp
  rw [normalizeState, if_neg hsame]
  change Shows t.rows n (t.entry.top.bind (clampOrClear t.rows)) i ∧
    (_ → t.entry.top.bind (clampOrClear t.rows) = none)
  unfold IsTop at htop
  cases hentry : t.entry.top with
  | none => rw [hentry] at htop; exact ⟨htop, fun _ => rfl⟩
  | some a =>
    rw [hentry] at htop
    refine ⟨?_, nofun⟩; rw [bind_some]
    rcases htop with ⟨row, hrow, hcovers⟩ | ⟨hgone, rfl⟩
    · have hsole := hfit.retained a i row hentry hrow hcovers
      obtain ⟨b, hb, hcoversb⟩ := clampOrClear_of_sole hsole hrow hcovers; rw [hb]
      exact ⟨hsole, row, hrow, hcoversb⟩
    obtain ⟨hsole, oldest, hhead, hbefore⟩ := hfit.evicted a hentry hgone
    have hclamp : clampOrClear t.rows a = some oldest.rowLead := by
      simp [clampOrClear, resolveAnchor_of_gone hgone, hhead, hbefore]
    have hzero : t.rows[0]? = some oldest := by rw [← head?_eq_getElem?, hhead]
    rw [hclamp]; exact ⟨hsole, oldest, hzero, (hsole oldest hzero).1⟩

theorem after_scroll_top {size : CellSize} {lines : ℤ}
    (hnormal : (normalizeState t.entry t.screen.projectionRef).selection = none)
    (hshows : Shows t.rows size.rows (normalizeState t.entry t.screen.projectionRef).top i) :
    (t.after (.scroll size lines)).top =
      if t.rows = [] ∨ scrolled t.rows.length size.rows lines i = i then
        (normalizeState t.entry t.screen.projectionRef).top
      else if scrolled t.rows.length size.rows lines i = t.rows.length - size.rows then none
      else t.rows[scrolled t.rows.length size.rows lines i]?.map (·.rowLead) := by
  have hstart : (viewGeometry t.rows { normalizeState t.entry t.screen.projectionRef with
      viewportSize := some size } size.rows).start = i := Shows.start hshows hnormal
  rw [after, scrollView]
  rw [show t.screen.projectionRef.retainedRows = t.rows from rfl, hstart, hnormal]
  simp only [Bool.or_eq_true, List.isEmpty_iff, beq_iff_eq, and_true]
  split_ifs <;> rfl

/-- After a call a view shows the row it is to, and is anchored only where it does not reach the
    tail. -/
theorem Fit.after_shows (hfit : t.Fit c) (hc : c.Effective) (hsel : t.entry.selection = none)
    (htop : t.IsTop c.size.rows i) :
    Shows t.rows c.size.rows (t.after c).top (c.target t.rows.length i) ∧
      ((t.after c).top ≠ none → c.target t.rows.length i + c.size.rows < t.rows.length) := by
  obtain ⟨hshows, hnone⟩ := hfit.normalized htop
  have hnormal := normalizeState_selection hsel t.screen.projectionRef
  cases c with
  | declare size =>
    simp only [after, declareViewSize, ViewCall.target, ViewCall.size] at hshows ⊢
    generalize normalizeState t.entry t.screen.projectionRef = v at hshows hnormal ⊢
    have hstart := hshows.start hnormal
    have hpos : size.rows ≠ 0 := (show validViewport size from hc).1.ne'
    have hoffset := @scrollOffset_eq_zero t.rows size.rows v; rw [hstart] at hoffset
    cases hv : v.top with
    | none =>
      rw [hv] at hshows; obtain rfl : i = t.rows.length - size.rows := hshows
      simp only [rearmFollowOnGrowth, hv, isNone_none, Bool.true_or, if_true]
      exact ⟨min_self _, fun h => absurd rfl h⟩
    | some b =>
      have hopen : (v.top.isNone || v.selection.isSome || size.rows == 0) = false := by
        simp [hv, hnormal, hpos]
      rw [rearmFollowOnGrowth, hopen, if_neg Bool.false_ne_true,
        show t.screen.projectionRef.retainedRows = t.rows from rfl]
      by_cases hreach : t.rows.length ≤ i + size.rows
      · rw [if_pos (hoffset.2 hreach)]; exact ⟨min_eq_right (by omega), fun h => absurd rfl h⟩
      rw [if_neg fun h => hreach (hoffset.1 h)]
      rw [show min i (t.rows.length - size.rows) = i by omega]; exact ⟨hshows, fun _ => by omega⟩
  | scroll size lines =>
    obtain ⟨hle, htail, hsole⟩ := hfit.lands size lines i rfl htop
    simp only [ViewCall.target, ViewCall.size] at hshows ⊢; rw [after_scroll_top hnormal hshows]
    by_cases hempty : t.rows = []
    · cases hv : (normalizeState t.entry t.screen.projectionRef).top with
      | none =>
        rw [hempty, length_nil] at hle ⊢
        refine ⟨?_, fun h => absurd rfl h⟩; show scrolled 0 size.rows lines i = 0 - size.rows
        omega
      | some b =>
        rw [hv] at hshows; obtain ⟨-, row, hrow, -⟩ := hshows; rw [hempty] at hrow
        cases hrow
    generalize hnext : scrolled t.rows.length size.rows lines i = next at hle htail hsole ⊢
    by_cases hmove : next = i
    · -- the view stays
      rw [if_pos (.inr hmove), hmove]
      refine ⟨hshows, fun hne => ?_⟩
      have hlt : next ≠ t.rows.length - size.rows := fun heq =>
        (htail heq).elim (fun h => hne (hnone h)) (absurd hmove)
      omega
    rw [if_neg (not_or.2 ⟨hempty, hmove⟩)]
    split_ifs with htail'
    · exact ⟨htail', fun h => absurd rfl h⟩
    have hlt : next < t.rows.length := by omega
    have hrow := getElem?_eq_getElem hlt; have hsole' := hsole (by omega) hmove; rw [hrow]
    exact ⟨⟨hsole', _, hrow, (hsole' _ hrow).1⟩, fun _ => by omega⟩

theorem Fit.anchored (hfit : t.Fit c) (hc : c.Effective) (hsel : t.entry.selection = none) :
    t.Anchored c := by
  have hafter := after_selection hsel c
  obtain ⟨i, htop⟩ := t.exists_isTop c.size.rows
  obtain ⟨hshows, hshort⟩ := hfit.after_shows hc hsel htop
  refine ⟨fun j hj => ?_, fun a ha => ?_, fun hreach => ?_⟩
  · exact (hfit.after_shows hc hsel hj).1.start hafter
  · rw [hshows.start hafter]; rw [ha] at hshows; exact hshows.2
  by_contra hne
  have hlt := hshort hne; rw [scrollOffset_eq_zero, hshows.start hafter] at hreach; omega

/-- Scrolling back: `k` rows towards history and, when output was appended and the oldest `e` rows
    evicted, as many towards the tail show the same row again, if neither call is clamped. -/
def Restores (t : ViewedTerminal) : Prop :=
  ∀ (size : CellSize) (k e i : ℕ) (output : List TerminalRow) (t' : ViewedTerminal), 0 < k →
    validViewport size → t.Fit (.scroll size k) → t.IsTop size.rows i → k + e ≤ i →
    t'.view = (t.call (.scroll size k)).view → t'.rows = t.rows.drop e ++ output →
    t'.Fit (.scroll size (-k)) →
    (∀ j, t'.IsTop size.rows j → j + k ≤ t'.rows.length - size.rows) →
    (viewGeometry t'.rows (t'.after (.scroll size (-k))) size.rows).start = i - e ∧
      t'.rows[i - e]? = t.rows[i]?

theorem restores (hsel : t.entry.selection = none) : t.Restores := by
  intro size k e i output t' hk hvalid hfit htop hup hview hrows hfit' hdown
  have hc : (ViewCall.scroll size k).Effective := ⟨by omega, hvalid⟩
  have hc' : (ViewCall.scroll size (-k)).Effective := ⟨by omega, hvalid⟩
  obtain ⟨hshows, -⟩ := hfit.after_shows hc hsel htop
  have hentry : t'.entry = t.after (.scroll size k) := by rw [entry, hview, call, if_pos hc]; rfl
  have hsel' : t'.entry.selection = none := by rw [hentry]; exact after_selection hsel _
  have hpos : 0 < size.rows := hvalid.1
  have hup' : (ViewCall.scroll size k).target t.rows.length i = i - k := by
    simp [ViewCall.target, scrolled, hk]
  rw [hup'] at hshows
  have hi : i < t.rows.length := by
    unfold IsTop at htop
    cases htop' : t.entry.top with
    | none => rw [htop'] at htop; have : i = t.rows.length - size.rows := htop; omega
    | some a =>
      rw [htop'] at htop
      obtain ⟨row, hrow, -⟩ | ⟨-, rfl⟩ := htop
      · exact (List.getElem?_eq_some_iff.1 hrow).1
      · omega
  have hget (j : ℕ) (hj : e ≤ j) (hlt : j < t.rows.length) : t'.rows[j - e]? = t.rows[j]? := by
    rw [hrows, getElem?_append_left (by rw [length_drop]; omega), getElem?_drop,
      Nat.add_sub_cancel' hj]
  refine ⟨?_, hget i (by omega) hi⟩
  have htop' : t'.IsTop size.rows (i - k - e) := by
    cases ha : (t.after (.scroll size k)).top with
    | none =>
      have hfollow : t'.IsTop size.rows (t'.rows.length - size.rows) := by
        unfold IsTop; rw [hentry, ha]
      have := hdown _ hfollow; omega
    | some a =>
      rw [ha] at hshows; obtain ⟨-, row, hrow, hcovers⟩ := hshows; unfold IsTop
      rw [hentry, ha]; exact .inl ⟨row, (hget (i - k) (by omega) (by omega)).trans hrow, hcovers⟩
  have hstart := (hfit'.anchored hc' hsel').top _ htop'
  have := hdown _ htop'
  refine hstart.trans ?_
  simp only [ViewCall.target, scrolled, Int.natAbs_neg, Int.natAbs_natCast]
  rw [if_neg (by omega), min_eq_left (by omega)]
  omega

/-- **A view keeps its place.** In runs of output, resizes and calls that fit, each call shows the
    row that the view is anchored to, wherever it is now, and the oldest one when that is gone; a
    view that reaches the tail follows it; and scrolling back undoes scrolling. -/
theorem run_anchored (h : Reached M Fit t) :
    (∀ c : ViewCall, c.Effective → t.Fit c → t.Anchored c) ∧ t.Restores :=
  ⟨fun _ hc hfit => hfit.anchored hc h.entry_selection, restores h.entry_selection⟩

def ViewInput.line (cs : List Char) : List ViewInput :=
  [.screen (.event .nextLine), .screen (.event (.text cs))]

/-- A wrapped line with a wide character and two more, one row back, and another line. -/
def scrolledInputs : List ViewInput :=
  ViewInput.line ['a', 'b', 'c', 'd', '中'] ++ ViewInput.line ['e'] ++ ViewInput.line ['f'] ++
    ViewInput.call (.scroll ⟨2, 3⟩ 1) :: ViewInput.line ['g']

theorem run_anchored_scrolled : ∃ t t' : ViewedTerminal,
    scrolledInputs.foldlM (step heartMetrics) ⟨.new ⟨2, 3⟩ 5, none⟩ = some t ∧
    (ViewInput.line ['h'] ++ ViewInput.line ['i']).foldlM (step heartMetrics)
      (t.call (.scroll ⟨2, 3⟩ 1)) = some t' ∧
    t.entry.top ≠ none ∧ t.Anchored (.scroll ⟨2, 3⟩ 1) ∧
    (viewGeometry t'.rows (t'.after (.scroll ⟨2, 3⟩ (-1))) 2).start = 1 ∧
    t'.rows[1]? = t.rows[2]? := by
  have hrun : ∃ t, scrolledInputs.foldlM (fun t input => if ∀ c ∈ input.call?, Fit t c then
        step heartMetrics t input else none) ⟨.new ⟨2, 3⟩ 5, none⟩ = some t ∧
      ∃ t', (ViewInput.line ['h'] ++ ViewInput.line ['i']).foldlM (step heartMetrics)
        (t.call (.scroll ⟨2, 3⟩ 1)) = some t' ∧ t.entry.top ≠ none ∧
      (t.Fit (.scroll ⟨2, 3⟩ 1) ∧ t.IsTop 2 2) ∧
      (t'.view = (t.call (.scroll ⟨2, 3⟩ 1)).view ∧
        t'.rows = t.rows.drop 1 ++ t'.rows.drop 5) ∧ t'.Fit (.scroll ⟨2, 3⟩ (-1)) ∧
      ∀ j ≤ t'.rows.length, t'.IsTop 2 j → j + 1 ≤ t'.rows.length - 2 := by decide +kernel
  obtain ⟨t, ht, t', ht', hne, ⟨hfit, htop⟩, ⟨hview, hrows⟩, hfit', hdown⟩ := hrun
  have hnew : Reached heartMetrics Fit ⟨.new ⟨2, 3⟩ 5, none⟩ := .new (by decide) 5
  obtain ⟨hreached, hfold⟩ := hnew.run_checked ht
  obtain ⟨hanchored, hrestores⟩ := run_anchored hreached
  exact ⟨t, t', hfold, ht', hne, hanchored _ (by decide) hfit, hrestores ⟨2, 3⟩ 1 1 2 _ t'
    (by decide) (by decide) hfit htop (by decide) hview hrows hfit' fun j hj => hdown j hj.le hj⟩

theorem Reached.run (h : Reached M (fun _ _ => True) t) {inputs : List ViewInput}
    (hrun : inputs.foldlM (ViewedTerminal.step M) t = some t') :
    Reached M (fun _ _ => True) t' := by
  induction inputs generalizing t with
  | nil => exact Option.some.inj hrun ▸ h
  | cons input inputs ih =>
    obtain ⟨u, hu, hrun⟩ := bind_eq_some_iff.1 hrun; exact ih (h.step (fun _ _ => trivial) hu) hrun

/-- One row of two, scrolled up; then the history is cleared. -/
def clearedInputs : List ViewInput :=
  [.screen (.event .lineFeed), .screen (.event .lineFeed), .call (.scroll ⟨1, 2⟩ 1),
    .screen (.event (.eraseDisplay .saved))]

/-- **Scrolled down to the tail, the view stays anchored there.** -/
theorem run_not_anchored : ¬∀ t : ViewedTerminal, Reached heartMetrics (fun _ _ => True) t →
      ∀ c : ViewCall, c.Effective → t.Anchored c := by
  intro hall
  have hrun : ((clearedInputs.foldlM (ViewedTerminal.step heartMetrics)
      ⟨.new ⟨1, 2⟩ 5, none⟩).map fun t =>
      decide ((viewGeometry t.rows (t.after (.scroll ⟨1, 2⟩ (-1))) 1).scrollOffset = 0 ∧
        (t.after (.scroll ⟨1, 2⟩ (-1))).top ≠ none)) = some true := by decide +kernel
  obtain ⟨t, ht, hfacts⟩ := map_eq_some_iff.1 hrun
  obtain ⟨hreach, hne⟩ := of_decide_eq_true hfacts
  have hnew : Reached heartMetrics (fun _ _ => True) ⟨.new ⟨1, 2⟩ 5, none⟩ := .new (by decide) 5
  exact hne ((hall t (hnew.run ht) (.scroll ⟨1, 2⟩ (-1)) (by decide)).follows hreach)

end ViewedTerminal

end Pmacs
