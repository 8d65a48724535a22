/-
  The visible lines of a folded buffer (fold_view.rs, view.rs).

  * `VisibleLineMap.build` merges the lines that folds hide; the map answers from what it merged,
    and `rowOffsetOf`, `lineAtRowOffset` are the rows of a viewport over it;
  * `Hidden`: a fold hides a line, which is all there is to say of the folds;
  * `Refines`: the answers of a map are those of a set of hidden lines (`build_refines`).

  Line numbers are those of a table in memory: `usize` holds them, and the line after.
-/
import Pmacs.Lib.Ranges

namespace Pmacs

open Lib Function List Option

structure HiddenComponent where
  firstHidden : ℕ
  lastHidden : ℕ
  headPosition : ℕ
deriving DecidableEq, Repr

variable (folds : List Lib.Range) (lineAtOffset : ℕ → ℕ)

namespace HiddenComponent

def headLine (c : HiddenComponent) : ℕ := c.firstHidden - 1

/-- The order that `build` sorts by. -/
def Le (a b : HiddenComponent) : Prop :=
  a.firstHidden < b.firstHidden ∨ a.firstHidden = b.firstHidden ∧ a.lastHidden ≤ b.lastHidden

instance (a b : HiddenComponent) : Decidable (Le a b) := inferInstanceAs (Decidable (_ ∨ _))

/-- What a fold hides; one that spans no whole line hides nothing. -/
def ofFold (fold : Lib.Range) : Option HiddenComponent :=
  if lineAtOffset fold.start < lineAtOffset fold.stop then
    some ⟨lineAtOffset fold.start + 1, lineAtOffset fold.stop, fold.start⟩
  else none

/-- Put a component behind the others, merged into the last one when it overlaps or touches it. -/
def push (components : List HiddenComponent) (c : HiddenComponent) : List HiddenComponent :=
  match components.getLast? with
  | some prev =>
    if c.firstHidden ≤ prev.lastHidden + 1 then
      components.dropLast ++ [{ prev with lastHidden := max prev.lastHidden c.lastHidden }]
    else components ++ [c]
  | none => components ++ [c]

end HiddenComponent

open HiddenComponent

structure VisibleLineMap where
  components : List HiddenComponent
deriving DecidableEq, Repr

namespace VisibleLineMap

def build : VisibleLineMap :=
  ⟨((folds.filterMap (ofFold lineAtOffset)).insertionSort Le).foldl push []⟩

def isIdentity (m : VisibleLineMap) : Bool := m.components.isEmpty

def componentOf (m : VisibleLineMap) (line : ℕ) : Option HiddenComponent :=
  let after := (m.components.takeWhile fun c => c.firstHidden ≤ line).length
  if after = 0 then none
  else (m.components[after - 1]?).filter fun c => line ≤ c.lastHidden

def isHidden (m : VisibleLineMap) (line : ℕ) : Bool := (m.componentOf line).isSome

def isHead (m : VisibleLineMap) (line : ℕ) : Bool :=
  m.components.any fun c => c.firstHidden = line + 1

def visibleHeadOf (m : VisibleLineMap) (line : ℕ) : ℕ := (m.componentOf line).elim line headLine

def visiblePosition (m : VisibleLineMap) (line pos : ℕ) : ℕ :=
  (m.componentOf line).elim pos headPosition

def nextVisible (m : VisibleLineMap) (line : ℕ) : ℕ :=
  (m.componentOf (line + 1)).elim (line + 1) fun c => c.lastHidden + 1

def prevVisible (m : VisibleLineMap) : ℕ → ℕ
  | 0 => 0
  | prev + 1 => m.visibleHeadOf prev

/-- Hidden lines of `[start, stop)`. -/
def hiddenIn (m : VisibleLineMap) (start stop : ℕ) : ℕ :=
  ((m.components.filter fun c => c.firstHidden < stop ∧ start ≤ c.lastHidden).map fun c =>
    min c.lastHidden (stop - 1) + 1 - max c.firstHidden start).sum

def visibleRowsBetween (m : VisibleLineMap) (start stop : ℕ) : ℕ :=
  if stop ≤ start then 0 else stop - start - m.hiddenIn start stop

def visibleLineCount (m : VisibleLineMap) (totalLines : ℕ) : ℕ :=
  totalLines - min (m.hiddenIn 0 totalLines) totalLines

def nthVisibleFrom (m : VisibleLineMap) (line n : ℕ) : ℕ := m.nextVisible^[n] (m.visibleHeadOf line)

/-- `Viewport::row_offset_of`: rows are counted in 32 bits. -/
def rowOffsetOf (folds : Option VisibleLineMap) (startLine line : ℕ) : Option ℕ :=
  if line < startLine then none
  else
    let rows := match folds with
      | some m =>
        if m.isIdentity then some (line - startLine)
        else if m.isHidden line then none
        else some (m.visibleRowsBetween startLine line)
      | none => some (line - startLine)
    rows.filter fun rows => rows < 2 ^ 32

/-- `Viewport::line_at_row_offset`. -/
def lineAtRowOffset (folds : Option VisibleLineMap) (startLine rowOffset : ℕ) : ℕ :=
  match folds with
  | some m => if m.isIdentity then startLine + rowOffset else m.nthVisibleFrom startLine rowOffset
  | none => startLine + rowOffset

/-! ## Sets of hidden lines -/

/-- A fold hides the lines below its head, up to its last one. -/
def Hidden (line : ℕ) : Prop :=
  ∃ fold ∈ folds, lineAtOffset fold.start < line ∧ line ≤ lineAtOffset fold.stop

instance (folds : List Lib.Range) (lineAtOffset : ℕ → ℕ) : DecidablePred (Hidden folds lineAtOffset) :=
  fun _ => by
    unfold Hidden
    infer_instance

/-- What a map answers is what is so of a set of hidden lines. -/
structure Refines (m : VisibleLineMap) (hidden : ℕ → Prop) [DecidablePred hidden] : Prop where
  isHidden : ∀ line, m.isHidden line = true ↔ hidden line
  isHead : ∀ line, m.isHead line = true ↔ ¬hidden line ∧ hidden (line + 1)
  visibleHeadOf : ∀ line, IsGreatest {l | l ≤ line ∧ ¬hidden l} (m.visibleHeadOf line)
  nextVisible : ∀ line, IsLeast {l | line < l ∧ ¬hidden l} (m.nextVisible line)
  prevVisible : ∀ line, IsGreatest {l | l < line + 1 ∧ ¬hidden l} (m.prevVisible (line + 1))
  prevVisibleZero : m.prevVisible 0 = 0
  visibleRowsBetween : ∀ start stop, m.visibleRowsBetween start stop =
    ((Finset.Ico start stop).filter fun l => ¬hidden l).card
  visibleLineCount : ∀ n, m.visibleLineCount n = ((Finset.range n).filter fun l => ¬hidden l).card
  nthVisibleFrom : ∀ line n l, m.nthVisibleFrom line n = l ↔
    ¬hidden l ∧ m.visibleHeadOf line ≤ l ∧ m.visibleRowsBetween (m.visibleHeadOf line) l = n
  rowOffsets : ∀ startLine line row, ¬hidden startLine → ¬hidden line → row < 2 ^ 32 →
    (rowOffsetOf (some m) startLine line = some row ↔
      lineAtRowOffset (some m) startLine row = line)

/-! ## The components of a map -/

/-- The components are apart, each under a line, and hide what is hidden. -/
structure Projects (m : VisibleLineMap) (hidden : ℕ → Prop) : Prop where
  apart : m.components.Pairwise fun a b => a.lastHidden + 1 < b.firstHidden
  proper : ∀ c ∈ m.components, 0 < c.firstHidden ∧ c.firstHidden ≤ c.lastHidden
  hides : ∀ line, hidden line ↔ ∃ c ∈ m.components, c.firstHidden ≤ line ∧ line ≤ c.lastHidden

namespace Projects

variable {m : VisibleLineMap} {hidden : ℕ → Prop} {line : ℕ} {c : HiddenComponent}

section
variable (h : m.Projects hidden)
include h

theorem componentOf_eq_some : m.componentOf line = some c ↔
    c ∈ m.components ∧ c.firstHidden ≤ line ∧ line ≤ c.lastHidden := by
  unfold componentOf
  dsimp only
  constructor
  · intro hc
    split_ifs at hc with hafter
    obtain ⟨hget, hlast⟩ := filter_eq_some_iff.1 hc
    have hmem : c ∈ m.components.takeWhile fun c => c.firstHidden ≤ line := by
      obtain ⟨rest, hrest⟩ := takeWhile_prefix (l := m.components)
        (fun c => decide (c.firstHidden ≤ line))
      generalize m.components.takeWhile (fun c => decide (c.firstHidden ≤ line)) = front
        at hget hafter hrest ⊢
      rw [← hrest, getElem?_append_left (by omega)] at hget; exact mem_of_getElem? hget
    have hfirst := mem_takeWhile_imp hmem
    exact ⟨mem_of_getElem? hget, of_decide_eq_true hfirst, of_decide_eq_true hlast⟩
  rintro ⟨hmem, hfirst, hlast⟩
  -- the components before it start before it, the next one behind it
  obtain ⟨before, behind, heq⟩ := append_of_mem hmem; have hapart := h.apart
  rw [heq, pairwise_append, pairwise_cons] at hapart; obtain ⟨-, ⟨hbehind, -⟩, hbefore⟩ := hapart
  have htake : (m.components.takeWhile fun c => c.firstHidden ≤ line) = before ++ [c] := by
    rw [heq, takeWhile_append_of_pos fun a ha => ?_, takeWhile_cons_of_pos (by simpa)]
    · congr 2
      cases behind with
      | nil => rfl
      | cons next behind =>
        have := hbehind next mem_cons_self
        exact takeWhile_cons_of_neg (by simp only [decide_eq_true_eq]; omega)
    have hlt := hbefore a ha c mem_cons_self; have := h.proper a (heq ▸ mem_append_left _ ha)
    simp only [decide_eq_true_eq]; omega
  rw [htake, length_append, length_singleton, if_neg (Nat.succ_ne_zero _),
    Nat.add_sub_cancel, heq, getElem?_append_right (Nat.le_refl _), Nat.sub_self,
    getElem?_cons_zero, filter_some, if_pos (decide_eq_true hlast)]

theorem componentOf_eq_none : m.componentOf line = none ↔ ¬hidden line := by
  rw [h.hides, eq_none_iff_forall_ne_some]
  constructor
  · rintro hnone ⟨c, hc⟩; exact hnone c (h.componentOf_eq_some.2 hc)
  · exact fun hnot c hc => hnot ⟨c, h.componentOf_eq_some.1 hc⟩

/-- Two components that hide one line, or lines next to one another, are one. -/
theorem unique {c' : HiddenComponent} (hc : c ∈ m.components)
    (hc' : c' ∈ m.components) (hle : c.firstHidden ≤ c'.lastHidden + 1)
    (hle' : c'.firstHidden ≤ c.lastHidden + 1) : c = c' := by
  by_contra hne
  have hsymm : m.components.Pairwise fun a b =>
      a.lastHidden + 1 < b.firstHidden ∨ b.lastHidden + 1 < a.firstHidden := h.apart.imp .inl
  have : Std.Symm fun a b : HiddenComponent =>
      a.lastHidden + 1 < b.firstHidden ∨ b.lastHidden + 1 < a.firstHidden := ⟨fun _ _ => Or.symm⟩
  have := hsymm.forall hc hc' hne
  omega

theorem around (hc : c ∈ m.components) : ¬hidden c.headLine ∧ ¬hidden (c.lastHidden + 1) := by
  have hproper := h.proper c hc
  unfold headLine
  rw [h.hides, h.hides]
  constructor <;> rintro ⟨c', hc', hfirst, hlast⟩ <;>
    obtain rfl := h.unique hc hc' (by omega) (by omega) <;> omega

end

theorem visibleHeadOf (h : m.Projects hidden) (line : ℕ) :
    IsGreatest {l | l ≤ line ∧ ¬hidden l} (m.visibleHeadOf line) := by
  unfold VisibleLineMap.visibleHeadOf
  cases hc : m.componentOf line with
  | none => exact ⟨⟨le_rfl, h.componentOf_eq_none.1 hc⟩, fun l hl => hl.1⟩
  | some c =>
    obtain ⟨hmem, hfirst, hlast⟩ := h.componentOf_eq_some.1 hc; have hproper := h.proper c hmem
    refine ⟨⟨?_, (h.around hmem).1⟩, fun l hl => ?_⟩
    · simp only [elim_some, headLine]; omega
    by_contra hlt
    simp only [elim_some, headLine] at hlt
    exact hl.2 ((h.hides l).2 ⟨c, hmem, by omega, hl.1.trans hlast⟩)

theorem nextVisible (h : m.Projects hidden) (line : ℕ) :
    IsLeast {l | line < l ∧ ¬hidden l} (m.nextVisible line) := by
  unfold VisibleLineMap.nextVisible
  cases hc : m.componentOf (line + 1) with
  | none => exact ⟨⟨Nat.lt_succ_self _, h.componentOf_eq_none.1 hc⟩, fun l hl => hl.1⟩
  | some c =>
    obtain ⟨hmem, hfirst, hlast⟩ := h.componentOf_eq_some.1 hc
    refine ⟨⟨?_, (h.around hmem).2⟩, fun l hl => ?_⟩
    · simp only [elim_some]; omega
    by_contra hlt
    simp only [elim_some] at hlt; have : line < l := hl.1
    exact hl.2 ((h.hides l).2 ⟨c, hmem, by omega, by omega⟩)

theorem isHead (h : m.Projects hidden) (line : ℕ) :
    m.isHead line = true ↔ ¬hidden line ∧ hidden (line + 1) := by
  rw [VisibleLineMap.isHead, List.any_eq_true]
  constructor
  · rintro ⟨c, hc, hfirst⟩; rw [decide_eq_true_eq] at hfirst; have hproper := h.proper c hc
    have hhead : c.headLine = line := by unfold headLine; omega
    exact ⟨hhead ▸ (h.around hc).1, (h.hides _).2 ⟨c, hc, by omega, by omega⟩⟩
  rintro ⟨hline, hnext⟩; obtain ⟨c, hc, hfirst, hlast⟩ := (h.hides _).1 hnext
  refine ⟨c, hc, decide_eq_true ?_⟩
  by_contra hne
  exact hline ((h.hides line).2 ⟨c, hc, by omega, by omega⟩)

/-! ### Counting -/

variable [DecidablePred hidden]

theorem hiddenIn (h : m.Projects hidden) (start stop : ℕ) :
    m.hiddenIn start stop = ((Finset.Ico start stop).filter hidden).card := by
  obtain ⟨components⟩ := m
  induction components generalizing hidden with
  | nil =>
    have hnone : (Finset.Ico start stop).filter hidden = ∅ :=
      Finset.filter_eq_empty_iff.2 fun l _ hl => by simpa using (h.hides l).1 hl
    rw [hnone]; rfl
  | cons c rest ih =>
    have hapart := h.apart; rw [pairwise_cons] at hapart
    let hidden' : ℕ → Prop := fun l => ∃ c ∈ rest, c.firstHidden ≤ l ∧ l ≤ c.lastHidden
    have hrest : (VisibleLineMap.mk rest).Projects hidden' :=
      ⟨hapart.2, fun a ha => h.proper a (mem_cons_of_mem _ ha), fun l => Iff.rfl⟩
    -- what the first component hides, and what the others do
    have hsplit : (Finset.Ico start stop).filter hidden =
        (Finset.Ico (max c.firstHidden start) (min (c.lastHidden + 1) stop)) ∪
          (Finset.Ico start stop).filter hidden' := by
      ext l
      rw [Finset.mem_filter, Finset.mem_union, Finset.mem_filter, h.hides, Finset.mem_Ico,
        Finset.mem_Ico]
      simp only [mem_cons, exists_eq_or_imp]
      constructor
      · rintro ⟨hl, hc | hr⟩
        · exact .inl (by omega)
        · exact .inr ⟨hl, hr⟩
      rintro (hl | ⟨hl, hr⟩)
      · exact ⟨by omega, .inl (by omega)⟩
      · exact ⟨hl, .inr hr⟩
    have hdisjoint : Disjoint (Finset.Ico (max c.firstHidden start) (min (c.lastHidden + 1) stop))
        ((Finset.Ico start stop).filter hidden') := by
      rw [Finset.disjoint_left]; intro l hl hl'; rw [Finset.mem_Ico] at hl
      obtain ⟨-, c', hc', hfirst, -⟩ := Finset.mem_filter.1 hl'; have := hapart.1 c' hc'; omega
    have hcons : (VisibleLineMap.mk (c :: rest)).hiddenIn start stop =
        (min (c.lastHidden + 1) stop - max c.firstHidden start) +
          (VisibleLineMap.mk rest).hiddenIn start stop := by
      have hproper := h.proper c mem_cons_self; unfold VisibleLineMap.hiddenIn; rw [filter_cons]
      split_ifs with hc <;> simp only [decide_eq_true_eq] at hc
      · rw [map_cons, sum_cons]
        congr 1
        omega
      · rw [show min (c.lastHidden + 1) stop - max c.firstHidden start = 0 by omega, zero_add]
    rw [hcons, ih hrest, hsplit, Finset.card_union_of_disjoint hdisjoint, Nat.card_Ico]

theorem visibleRowsBetween (h : m.Projects hidden) (start stop : ℕ) :
    m.visibleRowsBetween start stop = ((Finset.Ico start stop).filter fun l => ¬hidden l).card := by
  have hadd := Finset.card_filter_add_card_filter_not (s := Finset.Ico start stop) hidden
  rw [Nat.card_Ico] at hadd
  unfold VisibleLineMap.visibleRowsBetween
  rw [h.hiddenIn]
  split_ifs <;> omega

theorem visibleLineCount (h : m.Projects hidden) (n : ℕ) :
    m.visibleLineCount n = ((Finset.range n).filter fun l => ¬hidden l).card := by
  have hadd := Finset.card_filter_add_card_filter_not (s := Finset.range n) hidden
  rw [Finset.card_range] at hadd
  rw [VisibleLineMap.visibleLineCount, h.hiddenIn, ← Finset.range_eq_Ico]
  omega

theorem rows_lt (h : m.Projects hidden) {start l l' : ℕ} (hl : ¬hidden l) (hstart : start ≤ l)
    (hlt : l < l') : m.visibleRowsBetween start l < m.visibleRowsBetween start l' := by
  rw [h.visibleRowsBetween, h.visibleRowsBetween]
  refine Finset.card_lt_card ((Finset.ssubset_iff_of_subset ?_).2 ⟨l, ?_, ?_⟩)
  · exact Finset.filter_subset_filter _ (Finset.Ico_subset_Ico le_rfl hlt.le)
  · exact Finset.mem_filter.2 ⟨Finset.mem_Ico.2 ⟨hstart, hlt⟩, hl⟩
  · simp

theorem rows_nextVisible (h : m.Projects hidden) {start l : ℕ} (hl : ¬hidden l)
    (hstart : start ≤ l) :
    m.visibleRowsBetween start (m.nextVisible l) = m.visibleRowsBetween start l + 1 := by
  obtain ⟨⟨hlt, -⟩, hleast⟩ := h.nextVisible l
  have hnext : (Finset.Ico start (m.nextVisible l)).filter (fun l => ¬hidden l) =
      insert l ((Finset.Ico start l).filter fun l => ¬hidden l) := by
    ext x
    rw [Finset.mem_insert, Finset.mem_filter, Finset.mem_filter, Finset.mem_Ico, Finset.mem_Ico]
    constructor
    · rintro ⟨hx, hvisible⟩
      rcases lt_trichotomy x l with hxl | rfl | hxl
      · exact .inr ⟨⟨hx.1, hxl⟩, hvisible⟩
      · exact .inl rfl
      · exact absurd (hleast ⟨hxl, hvisible⟩) (by omega)
    rintro (rfl | ⟨hx, hvisible⟩)
    · exact ⟨⟨hstart, hlt⟩, hl⟩
    · exact ⟨⟨hx.1, hx.2.trans hlt⟩, hvisible⟩
  rw [h.visibleRowsBetween, h.visibleRowsBetween, hnext, Finset.card_insert_of_notMem (by simp)]

theorem iterate_nextVisible (h : m.Projects hidden) {start : ℕ} (hstart : ¬hidden start) (n : ℕ) :
    ¬hidden (m.nextVisible^[n] start) ∧ start ≤ m.nextVisible^[n] start ∧
      m.visibleRowsBetween start (m.nextVisible^[n] start) = n := by
  induction n with
  | zero => exact ⟨hstart, le_rfl, if_pos le_rfl⟩
  | succ n ih =>
    obtain ⟨hvisible, hle, hrows⟩ := ih
    obtain ⟨hlt, hnext⟩ := (h.nextVisible (m.nextVisible^[n] start)).1; rw [iterate_succ_apply']
    exact ⟨hnext, hle.trans hlt.le, by rw [h.rows_nextVisible hvisible hle, hrows]⟩

theorem nthVisibleFrom (h : m.Projects hidden) (line n l : ℕ) : m.nthVisibleFrom line n = l ↔
    ¬hidden l ∧ m.visibleHeadOf line ≤ l ∧ m.visibleRowsBetween (m.visibleHeadOf line) l = n := by
  obtain ⟨hvisible, hle, hrows⟩ := h.iterate_nextVisible (h.visibleHeadOf line).1.2 n
  constructor
  · rintro rfl; exact ⟨hvisible, hle, hrows⟩
  rintro ⟨hl, hhead, hn⟩
  rcases lt_trichotomy (m.nextVisible^[n] (m.visibleHeadOf line)) l with hlt | heq | hlt
  · have := h.rows_lt hvisible hle hlt; omega
  · exact heq
  · have := h.rows_lt hl hhead hlt; omega

theorem rowOffsets (h : m.Projects hidden) {startLine line row : ℕ} (hstart : ¬hidden startLine)
    (hline : ¬hidden line) (hrow : row < 2 ^ 32) : rowOffsetOf (some m) startLine line = some row ↔
      lineAtRowOffset (some m) startLine row = line := by
  have hhead : m.visibleHeadOf startLine = startLine := by
    rw [VisibleLineMap.visibleHeadOf, h.componentOf_eq_none.2 hstart, elim_none]
  have hshown : m.isHidden line = false := by
    rw [VisibleLineMap.isHidden, h.componentOf_eq_none.2 hline, isSome_none]
  have hnth := h.nthVisibleFrom startLine row line
  rw [hhead] at hnth
  unfold rowOffsetOf lineAtRowOffset
  dsimp only
  by_cases hid : m.isIdentity = true
  · split_ifs with hlt
    · simp only [false_iff]; omega
    · rw [filter_eq_some_iff, some_inj, decide_eq_true_eq]; omega
  rw [if_neg hid, if_neg hid, hshown, hnth, if_neg Bool.false_ne_true]
  split_ifs with hlt
  · simp only [false_iff]; omega
  rw [filter_eq_some_iff, some_inj, decide_eq_true_eq]
  exact ⟨fun hrows => ⟨hline, not_lt.1 hlt, hrows.1⟩, fun hrows => ⟨hrows.2.2, hrow⟩⟩

theorem refines (h : m.Projects hidden) : m.Refines hidden where
  isHidden line := by
    rw [VisibleLineMap.isHidden, ← not_iff_not, ← h.componentOf_eq_none, Bool.not_eq_true,
      isSome_eq_false_iff, isNone_iff_eq_none]
  isHead := h.isHead
  visibleHeadOf := h.visibleHeadOf
  nextVisible := h.nextVisible
  prevVisible line := by
    have hhead := h.visibleHeadOf line; simp only [← Nat.lt_succ_iff] at hhead; exact hhead
  prevVisibleZero := rfl
  visibleRowsBetween := h.visibleRowsBetween
  visibleLineCount := h.visibleLineCount
  nthVisibleFrom := h.nthVisibleFrom
  rowOffsets _ _ _ := h.rowOffsets

end Projects

/-! ## What is built -/

def span (c : HiddenComponent) : Lib.Range := ⟨c.firstHidden, c.lastHidden + 1⟩

theorem foldl_push (cs acc : List HiddenComponent) (last : HiddenComponent) :
    (cs.foldl push (acc ++ [last])).map span =
      acc.map span ++ Range.merge (span last) (cs.map span) := by
  induction cs generalizing acc last with
  | nil => rw [foldl_nil, map_append, map_nil, Range.merge, map_singleton]
  | cons c cs ih =>
    rw [foldl_cons, push, getLast?_concat, dropLast_concat, map_cons, Range.merge]
    dsimp only
    by_cases htouch : c.firstHidden ≤ last.lastHidden + 1
    · rw [if_pos htouch, if_pos (show (span c).start ≤ (span last).stop from htouch), ih]
      have hmax : max (last.lastHidden + 1) (c.lastHidden + 1) =
        max last.lastHidden c.lastHidden + 1 := by omega
      rw [span, span, span, hmax]
    rw [if_neg htouch, if_neg (show ¬(span c).start ≤ (span last).stop from htouch), ih,
      map_append, map_singleton, append_assoc]
    rfl

theorem foldl_push_forall {p : HiddenComponent → Prop}
    (hmerge : ∀ c last, p c → p { c with lastHidden := max c.lastHidden last })
    (cs acc : List HiddenComponent) (hacc : ∀ c ∈ acc, p c) (hcs : ∀ c ∈ cs, p c) :
    ∀ c ∈ cs.foldl push acc, p c := by
  induction cs generalizing acc with
  | nil => exact hacc
  | cons c cs ih =>
    have hsingle : ∀ a ∈ acc ++ [c], p a := fun a ha => by
      rcases mem_append.1 ha with ha | ha
      · exact hacc a ha
      · exact mem_singleton.1 ha ▸ hcs c mem_cons_self
    refine ih _ (fun a ha => ?_) fun a ha => hcs a (mem_cons_of_mem _ ha); unfold push at ha
    split at ha
    · rename_i prev hprev
      split_ifs at ha
      · rcases mem_append.1 ha with ha | ha
        · exact hacc a (mem_of_mem_dropLast ha)
        · rw [mem_singleton.1 ha]; exact hmerge _ _ (hacc prev (mem_of_getLast? hprev))
      · exact hsingle a ha
    · exact hsingle a ha

theorem ofFold_eq_some {lineAtOffset : ℕ → ℕ} {fold : Lib.Range} {c : HiddenComponent} :
    ofFold lineAtOffset fold = some c ↔ lineAtOffset fold.start < lineAtOffset fold.stop ∧
      c = ⟨lineAtOffset fold.start + 1, lineAtOffset fold.stop, fold.start⟩ := by
  unfold ofFold
  split_ifs with hlt <;> simp [hlt, eq_comm]

theorem headPosition_build {folds : List Lib.Range} {lineAtOffset : ℕ → ℕ} :
    ∀ c ∈ (build folds lineAtOffset).components,
      c.firstHidden = lineAtOffset c.headPosition + 1 ∧ c.firstHidden ≤ c.lastHidden := by
  refine foldl_push_forall (fun c last h => ⟨h.1, h.2.trans (le_max_left _ _)⟩) _ []
    nofun fun c hc => ?_
  obtain ⟨fold, -, hfold⟩ := mem_filterMap.1 ((mem_insertionSort Le).1 hc)
  obtain ⟨hlt, rfl⟩ := ofFold_eq_some.1 hfold
  exact ⟨rfl, hlt⟩

theorem map_span_build : (build folds lineAtOffset).components.map span =
      Range.coalesce ((folds.filterMap (ofFold lineAtOffset)).map span) := by
  have hfilter : ((folds.filterMap (ofFold lineAtOffset)).map span).filter
      (fun r => r.start < r.stop) = (folds.filterMap (ofFold lineAtOffset)).map span := by
    refine filter_eq_self.2 fun r hr => decide_eq_true ?_; obtain ⟨c, hc, rfl⟩ := List.mem_map.1 hr
    obtain ⟨fold, -, hfold⟩ := mem_filterMap.1 hc; obtain ⟨hlt, rfl⟩ := ofFold_eq_some.1 hfold
    exact Nat.succ_lt_succ hlt
  have hsort := map_insertionSort (r := Le) (s := Range.Le) span
    (folds.filterMap (ofFold lineAtOffset)) fun a _ b _ => by
      unfold Le Range.Le span; dsimp only; omega
  rw [build, Range.coalesce, hfilter, ← hsort]
  cases (folds.filterMap (ofFold lineAtOffset)).insertionSort Le with
  | nil => rfl
  | cons c cs => exact foldl_push cs [] c

theorem build_projects : (build folds lineAtOffset).Projects (Hidden folds lineAtOffset) := by
  have hspan := map_span_build folds lineAtOffset
  have hmem (line : ℕ) : Hidden folds lineAtOffset line ↔
      ∃ r ∈ (build folds lineAtOffset).components.map span, line ∈ r := by
    rw [hspan, Range.mem_coalesce]
    constructor
    · rintro ⟨fold, hfold, hlt, hle⟩
      refine ⟨_, mem_map_of_mem (mem_filterMap.2 ⟨fold, hfold, if_pos (hlt.trans_le hle)⟩), ?_⟩
      exact ⟨hlt, Nat.lt_succ_of_le hle⟩
    rintro ⟨r, hr, hline⟩; obtain ⟨c, hc, rfl⟩ := List.mem_map.1 hr
    obtain ⟨fold, hfold, hsome⟩ := mem_filterMap.1 hc; obtain ⟨-, rfl⟩ := ofFold_eq_some.1 hsome
    exact ⟨fold, hfold, hline.1, Nat.le_of_lt_succ hline.2⟩
  refine ⟨?_, fun c hc => ?_, fun line => ?_⟩
  · have hapart := hspan ▸ Range.coalesce_apart _; exact pairwise_map.1 hapart
  · obtain ⟨hfirst, hlast⟩ := headPosition_build c hc; exact ⟨hfirst ▸ Nat.succ_pos _, hlast⟩
  rw [hmem]; simp only [List.mem_map, exists_exists_and_eq_and]
  exact exists_congr fun c => and_congr_right fun _ =>
    and_congr_right fun _ => Nat.lt_succ_iff

/-- **The map of the folds** answers as the set of the lines that they hide. -/
theorem build_refines (folds : List Lib.Range) (lineAtOffset : ℕ → ℕ) :
    (build folds lineAtOffset).Refines (Hidden folds lineAtOffset) ∧
      ∀ line pos, Hidden folds lineAtOffset line → ¬Hidden folds lineAtOffset
        (lineAtOffset ((build folds lineAtOffset).visiblePosition line pos)) := by
  have h := build_projects folds lineAtOffset
  refine ⟨h.refines, fun line pos hline => ?_⟩
  obtain ⟨c, hc⟩ := ne_none_iff_exists'.1 (mt h.componentOf_eq_none.1 (not_not_intro hline))
  obtain ⟨hmem, -, -⟩ := h.componentOf_eq_some.1 hc
  have hhead : c.headLine = lineAtOffset c.headPosition := by
    rw [headLine, (headPosition_build c hmem).1, Nat.add_sub_cancel]
  rw [visiblePosition, hc, elim_some, ← hhead]
  exact (h.around hmem).1

theorem nthVisibleFrom_hidden : ¬∀ (folds : List Lib.Range) (lineAtOffset : ℕ → ℕ) (h n : ℕ),
    (build folds lineAtOffset).visibleRowsBetween h
      ((build folds lineAtOffset).nthVisibleFrom h n) = n :=
  fun h => absurd (h [⟨0, 2⟩] id 1 1) (by decide)

end VisibleLineMap

end Pmacs
