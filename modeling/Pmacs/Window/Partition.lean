/-
  The rectangles of a layout cut its area up.

  * `childExtents_sum`: the extents of a split's children add up to its own;
  * `computeNode_tiles`: the windows of a node tile its area;
  * `compute_partitions`: every window has one rectangle, and they tile the area.
-/
import Pmacs.Lib.Tiling
import Pmacs.Window.Layout

namespace Pmacs

open Lib AList List Option

def Rect.cells (r : Rect) : Set CellCoord :=
  {c | r.origin.row ≤ c.row ∧ c.row < r.origin.row + r.size.rows ∧
    r.origin.col ≤ c.col ∧ c.col < r.origin.col + r.size.cols}

@[simp]
theorem Rect.mem_cells {r : Rect} {c : CellCoord} :
    c ∈ r.cells ↔ r.origin.row ≤ c.row ∧ c.row < r.origin.row + r.size.rows ∧
      r.origin.col ≤ c.col ∧ c.col < r.origin.col + r.size.cols := Iff.rfl

/-- A rectangle whose far corner is on the grid. -/
structure Rect.Fits (r : Rect) : Prop where
  rows : r.origin.row + r.size.rows ≤ u32Max
  cols : r.origin.col + r.size.cols ≤ u32Max

/-- One rectangle for every window, pairwise disjoint, which cover the area. -/
structure Layout.Partitions (layout : Layout) (area : Rect) (out : Assoc WindowId Rect) : Prop where
  windows : out.keys.Perm layout.iterIds
  disjoint : ∀ id id' r r', out.lookup id = some r → out.lookup id' = some r' → id ≠ id' →
    Disjoint r.cells r'.cells
  cover : ∀ c, c ∈ area.cells ↔ ∃ id r, out.lookup id = some r ∧ c ∈ r.cells

namespace LayoutNode

/-- Whether a child shares what the fixed children of its split leave: in a vertical split every
    child does. -/
def isFlexible (fixed : Assoc WindowId ℕ) (orientation : Orientation) (child : LayoutNode) : Bool :=
  orientation = .vertical || (child.fixedRows fixed).isNone

/-- The sum of the weights of the flexible children from child `i` on. -/
def flexibleSum (weights : List ℕ) : List Bool → ℕ → ℕ
  | [], _ => 0
  | flexible :: rest, i =>
    (if flexible then weight weights i else 0) + flexibleSum weights rest (i + 1)

mutual

/-- A tree whose splits have a flexible child each, and flexible children whose weights add up to
    a `u32`. -/
def WellFormed (fixed : Assoc WindowId ℕ) : LayoutNode → Prop
  | leaf _ => True
  | split orientation weights children =>
    (∃ child ∈ children, child.isFlexible fixed orientation = true) ∧
      flexibleSum weights (children.map (isFlexible fixed orientation)) 0 ≤ u32Max ∧
      AllWellFormed fixed children

def AllWellFormed (fixed : Assoc WindowId ℕ) : List LayoutNode → Prop
  | [] => True
  | child :: children => child.WellFormed fixed ∧ AllWellFormed fixed children

end

/-! ## Extents -/

/-- The rows that fixed children take. -/
def taken (extents : List (Option ℕ)) : ℕ := (extents.map fun e => e.getD 0).sum

@[simp]
theorem taken_cons (e : Option ℕ) {extents : List (Option ℕ)} :
    taken (e :: extents) = e.getD 0 + taken extents := sum_cons

theorem takeFixed_spec (fixed : Assoc WindowId ℕ) {primary : ℕ} (hprimary : primary ≤ u32Max) :
    ∀ (children : List LayoutNode) {fixedTotal : ℕ}, fixedTotal ≤ primary →
      ∃ extents, takeFixed fixed primary children fixedTotal =
          some (extents, fixedTotal + taken extents) ∧
        extents.map isNone = children.map (isFlexible fixed .horizontal) ∧
        fixedTotal + taken extents ≤ primary
  | [], fixedTotal, hle => ⟨[], rfl, rfl, hle⟩
  | child :: children, fixedTotal, hle => by
    cases hrows : child.fixedRows fixed with
    | some rows =>
      have hnext : fixedTotal + min rows (primary - fixedTotal) ≤ primary := by omega
      obtain ⟨extents, hextents, hflexible, hsum⟩ :=
        takeFixed_spec fixed hprimary children hnext
      refine ⟨some (min rows (primary - fixedTotal)) :: extents, ?_,
        by simp [hflexible, isFlexible, hrows], ?_⟩
      · simp only [takeFixed, hrows, checkedAdd_of_le (le_trans hnext hprimary),
          bind_eq_bind, bind_some, hextents, taken_cons, getD_some, add_assoc]
      · simp only [taken_cons, getD_some]; omega
    | none =>
      obtain ⟨extents, hextents, hflexible, hsum⟩ := takeFixed_spec fixed hprimary children hle
      refine ⟨none :: extents, ?_, by simp [hflexible, isFlexible, hrows], by simpa using hsum⟩
      simp only [takeFixed, hrows, hextents, taken_cons, getD_none, zero_add]; rfl

variable {weights : List ℕ}

theorem flexibleSum_fixed {rows i : ℕ} {extents : List Bool} :
    flexibleSum weights ((some rows).isNone :: extents) i = flexibleSum weights extents (i + 1) :=
  Nat.zero_add _

theorem flexibleSum_flexible {i : ℕ} {extents : List Bool} :
    flexibleSum weights ((none : Option ℕ).isNone :: extents) i =
      weight weights i + flexibleSum weights extents (i + 1) := rfl

theorem flexibleTotal_eq {extents : List (Option ℕ)} {i total : ℕ}
    (h : total + flexibleSum weights (extents.map isNone) i ≤ u32Max) :
    flexibleTotal weights extents i total =
      some (total + flexibleSum weights (extents.map isNone) i) := by
  induction extents generalizing i total with
  | nil => rfl
  | cons e extents ih =>
    cases e with
    | some rows => rw [map_cons, flexibleSum_fixed] at h ⊢; exact ih h
    | none =>
      rw [map_cons, flexibleSum_flexible, ← add_assoc] at h ⊢
      have hadd : total + weight weights i ≤ u32Max := by omega
      simp only [flexibleTotal, checkedAdd_of_le hadd]; exact ih h

theorem lastFlexible_eq_none {extents : List (Option ℕ)} :
    lastFlexible extents = none ↔ none ∉ extents := by
  induction extents with
  | nil => simp [lastFlexible]
  | cons e extents ih =>
    cases hlast : lastFlexible extents with
    | some i =>
      have hmem : none ∈ extents := by
        by_contra hnot
        rw [ih.2 hnot] at hlast; cases hlast
      simp [lastFlexible, hlast, hmem]
    | none => have hnot := ih.1 hlast; cases e <;> simp [lastFlexible, hlast, hnot]

theorem shareOut_fixed (weights : List ℕ) (remainder total : ℕ) (last : Option ℕ)
    {extents : List (Option ℕ)} (h : none ∉ extents) (i flexibleUsed : ℕ) :
    shareOut weights remainder total last extents i flexibleUsed =
      some (extents.map fun e => e.getD 0) := by
  induction extents generalizing i with
  | nil => rfl
  | cons e extents ih =>
    cases e with
    | none => simp at h
    | some rows =>
      have hrest := ih (fun hmem => h (mem_cons_of_mem _ hmem)) (i + 1); simp only [shareOut, hrest]
      rfl

/-- The share of a flexible child that is not the last: no more than its part of the
    remainder. -/
theorem share_le {remainder w total : ℕ} :
    remainder * w / total * total ≤ remainder * w := Nat.div_mul_le_self _ _

/-- While a flexible child is to come, what was used is at most the part of the remainder
    that belongs to the weights seen. -/
theorem shareOut_spec {remainder total : ℕ} (hremainder : remainder ≤ u32Max)
    (htotal : total ≤ u32Max) :
    ∀ {extents : List (Option ℕ)} {i flexibleUsed seen : ℕ}, none ∈ extents →
      seen + flexibleSum weights (extents.map isNone) i = total →
      flexibleUsed * total ≤ remainder * seen →
        ∃ es, shareOut weights remainder total ((lastFlexible extents).map (· + i)) extents i
            flexibleUsed = some es ∧ es.length = extents.length ∧
          flexibleUsed + es.sum = taken extents + remainder
  | some rows :: extents, i, flexibleUsed, seen, hflexible, hseen, hused => by
    have hmem : none ∈ extents := by simpa using hflexible
    rw [map_cons, flexibleSum_fixed] at hseen
    obtain ⟨es, hes, hlen, hsum⟩ := shareOut_spec hremainder htotal hmem hseen hused
    have hlast : (lastFlexible (some rows :: extents)).map (· + i) =
        (lastFlexible extents).map (· + (i + 1)) := by
      cases hl : lastFlexible extents with
      | none => exact absurd hmem (lastFlexible_eq_none.1 hl)
      | some k => simp [lastFlexible, hl]; omega
    refine ⟨rows :: es, ?_, by simp [hlen], ?_⟩
    · rw [hlast, shareOut, hes]; rfl
    · simp only [sum_cons, taken_cons, getD_some]; omega
  | none :: extents, i, flexibleUsed, seen, hflexible, hseen, hused => by
    rw [map_cons, flexibleSum_flexible] at hseen
    have hweight : 1 ≤ weight weights i := Nat.le_max_right _ _
    have hpos : 0 < total := by omega
    have hle : flexibleUsed ≤ remainder := by
      have hpart : flexibleUsed * total ≤ remainder * total :=
        Nat.le_trans hused (Nat.mul_le_mul_left _ (by omega))
      exact Nat.le_of_mul_le_mul_right hpart hpos
    cases hl : lastFlexible extents with
    | none =>
      -- the last flexible child takes what is left
      have hnot := lastFlexible_eq_none.1 hl
      have hall : flexibleUsed + (remainder - flexibleUsed) ≤ u32Max := by omega
      refine ⟨(remainder - flexibleUsed) :: extents.map fun e => e.getD 0, ?_, by simp, ?_⟩
      · simp [lastFlexible, hl, shareOut, checkedSub_of_le hle, checkedAdd_of_le hall, shareOut_fixed weights remainder total _ hnot]
      · simp only [sum_cons, taken_cons, getD_none]; rw [taken]; omega
    | some k =>
      have hmem : none ∈ extents := by
        by_contra hnot
        rw [lastFlexible_eq_none.2 hnot] at hl; cases hl
      have hproduct : remainder * weight weights i ≤ u64Max := by
        refine Nat.le_trans (Nat.mul_le_mul hremainder (by omega : weight weights i ≤ u32Max)) ?_
        decide
      have hshare : remainder * weight weights i / total ≤ remainder := by
        refine Nat.div_le_of_le_mul ?_; rw [Nat.mul_comm total]
        exact Nat.mul_le_mul_left _ (by omega)
      have hused' : (flexibleUsed + remainder * weight weights i / total) * total ≤
          remainder * (seen + weight weights i) := by
        rw [Nat.add_mul, Nat.mul_add]; exact Nat.add_le_add hused share_le
      have hle' : flexibleUsed + remainder * weight weights i / total ≤ remainder := by
        have hpart := Nat.le_trans hused' (Nat.mul_le_mul_left remainder
          (by omega : seen + weight weights i ≤ total))
        exact Nat.le_of_mul_le_mul_right hpart hpos
      have hseen' : seen + weight weights i + flexibleSum weights (extents.map isNone) (i + 1) =
          total := by omega
      obtain ⟨es, hes, hlen, hsum⟩ := shareOut_spec hremainder htotal hmem hseen' hused'
      rw [hl, map_some] at hes; have hne : i ≠ k + (i + 1) := by omega
      refine ⟨remainder * weight weights i / total :: es, ?_, by simp [hlen], ?_⟩
      · have hlast : k + 1 + i = k + (i + 1) := by omega
        simp [lastFlexible, hl, shareOut, hlast, hne, Nat.ne_of_gt hpos, checkedMul_of_le hproduct, if_pos (Nat.le_trans hshare hremainder), checkedAdd_of_le (Nat.le_trans hle' hremainder), hes]
      · simp only [sum_cons, taken_cons, getD_none]; omega

theorem taken_flexible (children : List LayoutNode) : taken (children.map fun _ => none) = 0 := by
  induction children with
  | nil => rfl
  | cons child children ih => simpa using ih

variable {children : List LayoutNode}

theorem fixedExtents_spec {fixed : Assoc WindowId ℕ} {orientation : Orientation}
    {primary : ℕ} (hprimary : primary ≤ u32Max) :
    ∃ extents, fixedExtents fixed orientation children primary = some (extents, taken extents) ∧
      extents.map isNone = children.map (isFlexible fixed orientation) ∧
      taken extents ≤ primary := by
  cases orientation with
  | horizontal =>
    obtain ⟨extents, hextents, hflexible, hle⟩ :=
      takeFixed_spec fixed hprimary children (Nat.zero_le primary)
    rw [zero_add] at hextents hle; exact ⟨extents, hextents, hflexible, hle⟩
  | vertical =>
    refine ⟨children.map fun _ => none, ?_, ?_, ?_⟩
    · rw [fixedExtents, taken_flexible]
    · rw [List.map_map]; exact map_congr_left fun _ _ => rfl
    · rw [taken_flexible]; exact Nat.zero_le _

/-- **The extents of a split's children** add up to its own, without a wrap. -/
theorem childExtents_sum {fixed : Assoc WindowId ℕ} {orientation : Orientation}
    {primary : ℕ} (hprimary : primary ≤ u32Max)
    (hflexible : ∃ child ∈ children, child.isFlexible fixed orientation = true)
    (hweights : flexibleSum weights (children.map (isFlexible fixed orientation)) 0 ≤ u32Max) :
    ∃ es, childExtents fixed orientation weights children primary = some es ∧
      es.length = children.length ∧ es.sum = primary := by
  obtain ⟨extents, hextents, hmap, hle⟩ := fixedExtents_spec hprimary
  have hlen : extents.length = children.length := by simpa using congrArg length hmap
  have hmem : none ∈ extents := by
    have hnone : true ∈ extents.map isNone := by rw [hmap]; exact mem_map.2 hflexible
    obtain ⟨e, he, heq⟩ := mem_map.1 hnone
    rwa [← isNone_iff_eq_none.1 heq]
  set total := flexibleSum weights (extents.map isNone) 0 with htotal
  rw [← hmap, ← htotal] at hweights
  have htotal' : flexibleTotal weights extents 0 0 = some total := by
    have heq := @flexibleTotal_eq weights extents 0 0 (by rw [zero_add]; exact hweights)
    rwa [zero_add] at heq
  have hremainder := le_trans (Nat.sub_le primary (taken extents)) hprimary
  have hused : 0 * total ≤ (primary - taken extents) * 0 := by simp
  obtain ⟨es, hes, hlen', hsum'⟩ := shareOut_spec hremainder hweights hmem (zero_add _) hused
  have hlast : (lastFlexible extents).map (· + 0) = lastFlexible extents := by simp
  rw [hlast] at hes
  refine ⟨es, ?_, hlen'.trans hlen, by omega⟩
  simp [childExtents, hextents, htotal', hes]

/-! ## Areas -/

variable (orientation : Orientation) (area : Rect)

/-- What a split gives the child that starts at `cursor`. -/
def strip (cursor extent : ℕ) : Rect :=
  match orientation with
  | .horizontal => ⟨⟨area.origin.row + cursor, area.origin.col⟩, ⟨extent, area.size.cols⟩⟩
  | .vertical => ⟨⟨area.origin.row, area.origin.col + cursor⟩, ⟨area.size.rows, extent⟩⟩

variable {cursor extent : ℕ}

theorem childArea_eq {orientation : Orientation} {area : Rect} (h : area.Fits)
    (hcursor : cursor ≤ primary orientation area) :
    childArea orientation area cursor extent = some (strip orientation area cursor extent) := by
  have hrows := h.rows
  have hcols := h.cols
  cases orientation with
  | horizontal =>
    have hle : area.origin.row + cursor ≤ u32Max := by simp only [primary] at hcursor; omega
    simp [childArea, checkedAdd_of_le hle, strip]
  | vertical =>
    have hle : area.origin.col + cursor ≤ u32Max := by simp only [primary] at hcursor; omega
    simp [childArea, checkedAdd_of_le hle, strip]

theorem strip_fits {orientation : Orientation} {area : Rect} (h : area.Fits)
    (hle : cursor + extent ≤ primary orientation area) :
    (strip orientation area cursor extent).Fits := by
  have hrows := h.rows
  have hcols := h.cols
  cases orientation <;> simp only [primary] at hle <;> constructor <;> simp only [strip] <;> omega

theorem strip_zero : (strip orientation area cursor 0).cells = ∅ := by
  rw [Set.eq_empty_iff_forall_notMem]
  intro c
  cases orientation <;> simp only [strip, Rect.mem_cells] <;> omega

theorem strip_all : strip orientation area 0 (primary orientation area) = area := by
  cases orientation <;> rfl

theorem strip_add {extent' : ℕ} : (strip orientation area cursor (extent + extent')).cells =
      (strip orientation area cursor extent).cells ∪
        (strip orientation area (cursor + extent) extent').cells := by
  ext c
  cases orientation <;> simp only [strip, Rect.mem_cells, Set.mem_union] <;> omega

theorem strip_disjoint {extent' : ℕ} : Disjoint (strip orientation area cursor extent).cells
      (strip orientation area (cursor + extent) extent').cells := by
  rw [Set.disjoint_left]
  intro c
  cases orientation <;> simp only [strip, Rect.mem_cells] <;> omega

/-! ## Windows -/

mutual

/-- **The windows of a node** are placed in the order of the tree, and tile its area. -/
theorem computeNode_tiles {fixed : Assoc WindowId ℕ} :
    ∀ {node : LayoutNode} {area : Rect}, node.WellFormed fixed → area.Fits →
      ∀ out : Assoc WindowId Rect, ∃ ps : List (WindowId × Rect),
        node.computeNode fixed area out = some (Assoc.insertAll ps out) ∧
          ps.map Prod.fst = node.ids ∧ Tiles area.cells (ps.map fun p => p.2.cells)
  | leaf id, area, _, _, out => ⟨[(id, area)], rfl, rfl, .single _⟩
  | split orientation weights children, area, hwf, hfits, out => by
    rw [WellFormed] at hwf; obtain ⟨hflexible, hweights, hall⟩ := hwf
    have hprimary : primary orientation area ≤ u32Max := by
      have hrows := hfits.rows; have hcols := hfits.cols
      cases orientation <;> simp only [primary] <;> omega
    obtain ⟨es, hes, hlen, hsum⟩ := childExtents_sum hprimary hflexible hweights
    obtain ⟨ps, hps, hids, htiles⟩ :=
      @computeChildren_tiles fixed orientation children area hall hfits es hlen 0 (by omega) out
    refine ⟨ps, ?_, hids, ?_⟩
    · simp [computeNode, hes, hps]
    · rwa [hsum, strip_all] at htiles

theorem computeChildren_tiles {fixed : Assoc WindowId ℕ} {orientation : Orientation} :
    ∀ {children : List LayoutNode} {area : Rect}, AllWellFormed fixed children → area.Fits →
      ∀ {es : List ℕ}, es.length = children.length → ∀ {cursor : ℕ},
        cursor + es.sum ≤ primary orientation area →
          ∀ out : Assoc WindowId Rect, ∃ ps : List (WindowId × Rect),
            computeChildren fixed orientation area children es cursor out =
                some (Assoc.insertAll ps out) ∧
              ps.map Prod.fst = idsOfChildren children ∧
              Tiles (strip orientation area cursor es.sum).cells (ps.map fun p => p.2.cells)
  | [], area, _, _, [], _, cursor, _, out => by
    refine ⟨[], by simp [computeChildren, Assoc.insertAll], rfl, ?_⟩; rw [sum_nil, strip_zero]
    exact .nil
  | child :: children, area, hwf, hfits, e :: es, hlen, cursor, hle, out => by
    rw [AllWellFormed] at hwf; rw [sum_cons] at hle ⊢
    have hprimary : primary orientation area ≤ u32Max := by
      have hrows := hfits.rows; have hcols := hfits.cols
      cases orientation <;> simp only [primary] <;> omega
    obtain ⟨ps, hps, hids, htiles⟩ := computeNode_tiles hwf.1
      (strip_fits hfits (by omega : cursor + e ≤ primary orientation area)) out
    obtain ⟨qs, hqs, hids', htiles'⟩ := @computeChildren_tiles fixed orientation children
      area hwf.2 hfits es (Nat.succ.inj hlen) (cursor + e) (by omega) (Assoc.insertAll ps out)
    refine ⟨ps ++ qs, ?_, ?_, ?_⟩
    · simp [computeChildren, childArea_eq hfits (by omega : cursor ≤ primary orientation area), hps, checkedAdd_of_le (by omega : cursor + e ≤ u32Max), hqs, Assoc.insertAll_append]
    · rw [map_append, hids, hids', idsOfChildren]
    rw [map_append, strip_add]
    exact htiles.append htiles' (strip_disjoint orientation area)

end

end LayoutNode

/-- **The rectangles of a layout** whose windows are distinct: one for each, pairwise
    disjoint, which cover the area. -/
theorem compute_partitions {layout : Layout} {area : Rect} {fixed : Assoc WindowId ℕ}
    (hids : layout.iterIds.Nodup) (hwf : layout.root.WellFormed fixed) (hfits : area.Fits) :
    ∃ out, layout.compute area fixed = some out ∧ layout.Partitions area out := by
  obtain ⟨ps, hps, hmap, htiles⟩ := LayoutNode.computeNode_tiles hwf hfits ∅
  have hnodup : (ps.map Prod.fst).Nodup := by rw [hmap]; exact hids
  have hlookup : ∀ id r, (Assoc.insertAll ps ∅).lookup id = some r ↔ (id, r) ∈ ps := by
    intro id r; rw [Assoc.lookup_insertAll hnodup]; simp
  refine ⟨_, hps, ?_, ?_, ?_⟩
  · rw [perm_ext_iff_of_nodup (keys_nodup _) hids]; intro id
    have hmem : id ∈ layout.iterIds ↔ id ∈ ps.map Prod.fst := by rw [hmap]; rfl
    rw [← AList.mem_keys, ← AList.lookup_isSome, hmem, Option.isSome_iff_exists]; simp [hlookup]
  · intro id id' r r' hr hr' hne; rw [hlookup] at hr hr'
    have hsymm : Std.Symm fun p q : WindowId × Rect => Disjoint p.2.cells q.2.cells :=
      ⟨fun _ _ h => h.symm⟩
    have hpair := pairwise_map.1 htiles.disjoint
    refine hpair.forall hr hr' ?_; intro heq; exact hne (congrArg Prod.fst heq)
  · intro c; rw [htiles.cover]; simp [hlookup]

/-- A window above a panel of two rows, side by side with another. -/
theorem compute_partitions_panel : ∃ out, Layout.compute ⟨.split .vertical [2, 1]
        [.split .horizontal [1, 1] [.leaf 1, .leaf 2], .leaf 3]⟩ ⟨⟨0, 0⟩, ⟨24, 80⟩⟩
        (AList.singleton 2 2) = some out ∧ Layout.Partitions ⟨.split .vertical [2, 1]
        [.split .horizontal [1, 1] [.leaf 1, .leaf 2], .leaf 3]⟩ ⟨⟨0, 0⟩, ⟨24, 80⟩⟩ out := by
  refine compute_partitions (by decide) ?_ ⟨by decide, by decide⟩
  simp [LayoutNode.WellFormed, LayoutNode.AllWellFormed, LayoutNode.isFlexible,
    LayoutNode.fixedRows, LayoutNode.flexibleSum, LayoutNode.weight, AList.singleton, AList.lookup,
    u32Max]

/-- Trees and areas without a partition: a split without children, a window that is in
    the tree twice, weights of which the zero ones count, and an area past the last row. -/
theorem compute_not_partitions :
    (∀ out, Layout.compute ⟨.split .vertical [] []⟩ ⟨⟨0, 0⟩, ⟨1, 1⟩⟩ ∅ = some out →
      ¬ Layout.Partitions ⟨.split .vertical [] []⟩ ⟨⟨0, 0⟩, ⟨1, 1⟩⟩ out) ∧
    (∀ out, Layout.compute ⟨.split .vertical [1, 1] [.leaf 1, .leaf 1]⟩ ⟨⟨0, 0⟩, ⟨1, 2⟩⟩ ∅ =
        some out →
      ¬ Layout.Partitions ⟨.split .vertical [1, 1] [.leaf 1, .leaf 1]⟩ ⟨⟨0, 0⟩, ⟨1, 2⟩⟩ out) ∧
    Layout.compute ⟨.split .vertical [2 ^ 32 - 1, 0] [.leaf 1, .leaf 2]⟩ ⟨⟨0, 0⟩, ⟨1, 2⟩⟩ ∅ = none ∧
    Layout.compute ⟨.split .horizontal [1, 1] [.leaf 1, .leaf 2]⟩ ⟨⟨2 ^ 32 - 1, 0⟩, ⟨2, 1⟩⟩ ∅ =
      none := by
  refine ⟨?_, ?_, rfl, rfl⟩
  · rintro out h hp; cases h; obtain ⟨id, r, hr, _⟩ := (hp.cover ⟨0, 0⟩).1 (by simp)
    cases hr
  rintro out h hp; cases h; have hlen := hp.windows.length_eq
  revert hlen
  decide

end Pmacs
