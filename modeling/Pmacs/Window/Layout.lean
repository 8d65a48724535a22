/-
  The window tree and the rectangles of its windows (window.rs).

  * `LayoutNode` is the tree, `Layout.compute` the rectangle of each of its windows;
  * arithmetic is checked: `compute` is none where a `u32` or a `u64` would wrap, as it
    panics in a build with overflow checks;
  * `childExtents` is what a split gives each of its children: the fixed rows first,
    then shares of the rest by weight, the last flexible child taking what is left.
-/
import Pmacs.Lib.Assoc
import Pmacs.Lib.Integers
import Pmacs.Terminal.Cell

namespace Pmacs

open Lib

structure Rect where
  origin : CellCoord
  size : CellSize
deriving DecidableEq, Repr

abbrev WindowId := ℕ

inductive Orientation where
  | horizontal
  | vertical
deriving DecidableEq, Repr

/-- A node of the window tree. A split keeps a weight for each of its children. -/
inductive LayoutNode where
  | leaf (id : WindowId)
  | split (orientation : Orientation) (weights : List ℕ) (children : List LayoutNode)

structure Layout where
  root : LayoutNode

/-! ## The size of a frame -/

structure DeclaredFrameGeometry where
  geometryEpoch : ℕ
  total : CellSize
deriving DecidableEq

inductive GeometryUpdate where
  | advanced
  | duplicate
  | rejected
deriving DecidableEq, Repr

/-- What a declaration makes of the one before it: an epoch that is not greater is not taken. -/
def acceptGeometry (stored : Option DeclaredFrameGeometry) (geometryEpoch : ℕ) (total : CellSize) :
    Option DeclaredFrameGeometry × GeometryUpdate :=
  if geometryEpoch = 0 then (stored, .rejected)
  else
    match stored with
    | none => (some ⟨geometryEpoch, total⟩, .advanced)
    | some before =>
      if geometryEpoch < before.geometryEpoch then (stored, .rejected)
      else if geometryEpoch = before.geometryEpoch then
        (stored, if before.total = total then .duplicate else .rejected)
      else (some ⟨geometryEpoch, total⟩, .advanced)

/-! ## Rectangles -/

namespace LayoutNode

def fixedRows (fixed : Assoc WindowId ℕ) : LayoutNode → Option ℕ
  | leaf id => fixed.lookup id
  | split _ _ _ => none

/-- Pass 1: the rows that the fixed children of a horizontal split take, from the
    `fixedTotal` taken before them on. -/
def takeFixed (fixed : Assoc WindowId ℕ) (primary : ℕ) :
    List LayoutNode → ℕ → Option (List (Option ℕ) × ℕ)
  | [], fixedTotal => some ([], fixedTotal)
  | child :: children, fixedTotal =>
    match child.fixedRows fixed with
    | some rows => do
      let take := min rows (primary - fixedTotal)
      let fixedTotal ← checkedAdd u32Max fixedTotal take
      let (extents, fixedTotal) ← takeFixed fixed primary children fixedTotal
      some (some take :: extents, fixedTotal)
    | none => do
      let (extents, fixedTotal) ← takeFixed fixed primary children fixedTotal
      some (none :: extents, fixedTotal)

/-- What pass 1 gives the children, and what it gives them in all: only a horizontal
    split divides rows. -/
def fixedExtents (fixed : Assoc WindowId ℕ) (orientation : Orientation)
    (children : List LayoutNode) (primary : ℕ) : Option (List (Option ℕ) × ℕ) :=
  match orientation with
  | .horizontal => takeFixed fixed primary children 0
  | .vertical => some (children.map fun _ => none, 0)

/-- The weight of child `i`, one when it has none or zero. -/
def weight (weights : List ℕ) (i : ℕ) : ℕ := max (weights[i]?.getD 1) 1

/-- The sum of the weights of the flexible children from child `i` on. -/
def flexibleTotal (weights : List ℕ) : List (Option ℕ) → ℕ → ℕ → Option ℕ
  | [], _, total => some total
  | some _ :: extents, i, total => flexibleTotal weights extents (i + 1) total
  | none :: extents, i, total => do
    let total ← checkedAdd u32Max total (weight weights i)
    flexibleTotal weights extents (i + 1) total

def lastFlexible : List (Option ℕ) → Option ℕ
  | [] => none
  | extent :: extents =>
    match lastFlexible extents with
    | some i => some (i + 1)
    | none => if extent.isNone then some 0 else none

/-- Pass 2: the extent of every child from child `i` on. -/
def shareOut (weights : List ℕ) (remainder total : ℕ) (last : Option ℕ) :
    List (Option ℕ) → ℕ → ℕ → Option (List ℕ)
  | [], _, _ => some []
  | some rows :: extents, i, flexibleUsed => do
    let rest ← shareOut weights remainder total last extents (i + 1) flexibleUsed
    some (rows :: rest)
  | none :: extents, i, flexibleUsed => do
    let e ←
      if some i = last then checkedSub remainder flexibleUsed
      else if total = 0 then some 0
      else do
        let product ← checkedMul u64Max remainder (weight weights i)
        -- `u32::try_from(..).unwrap_or(remainder)`
        some (if product / total ≤ u32Max then product / total else remainder)
    let flexibleUsed ← checkedAdd u32Max flexibleUsed e
    let rest ← shareOut weights remainder total last extents (i + 1) flexibleUsed
    some (e :: rest)

def childExtents (fixed : Assoc WindowId ℕ) (orientation : Orientation) (weights : List ℕ)
    (children : List LayoutNode) (primary : ℕ) : Option (List ℕ) := do
  let (extents, fixedTotal) ← fixedExtents fixed orientation children primary
  let remainder := primary - fixedTotal
  let total ← flexibleTotal weights extents 0 0
  shareOut weights remainder total (lastFlexible extents) extents 0 0

def primary (orientation : Orientation) (area : Rect) : ℕ :=
  match orientation with
  | .horizontal => area.size.rows
  | .vertical => area.size.cols

/-- The area of a child that starts at `cursor`. -/
def childArea (orientation : Orientation) (area : Rect) (cursor extent : ℕ) : Option Rect :=
  match orientation with
  | .horizontal => do
    let row ← checkedAdd u32Max area.origin.row cursor
    some ⟨⟨row, area.origin.col⟩, ⟨extent, area.size.cols⟩⟩
  | .vertical => do
    let col ← checkedAdd u32Max area.origin.col cursor
    some ⟨⟨area.origin.row, col⟩, ⟨area.size.rows, extent⟩⟩

mutual

def computeNode (fixed : Assoc WindowId ℕ) :
    LayoutNode → Rect → Assoc WindowId Rect → Option (Assoc WindowId Rect)
  | leaf id, area, out => some (out.insert id area)
  | split orientation weights children, area, out => do
    let extents ← childExtents fixed orientation weights children (primary orientation area)
    computeChildren fixed orientation area children extents 0 out

/-- Place the children of a split one after the other, the first at `cursor`. -/
def computeChildren (fixed : Assoc WindowId ℕ) (orientation : Orientation) (area : Rect) :
    List LayoutNode → List ℕ → ℕ → Assoc WindowId Rect → Option (Assoc WindowId Rect)
  | child :: children, extent :: extents, cursor, out => do
    let childArea ← childArea orientation area cursor extent
    let out ← computeNode fixed child childArea out
    let cursor ← checkedAdd u32Max cursor extent
    computeChildren fixed orientation area children extents cursor out
  | _, _, _, out => some out

end

mutual

def ids : LayoutNode → List WindowId
  | leaf id => [id]
  | split _ _ children => idsOfChildren children

def idsOfChildren : List LayoutNode → List WindowId
  | [] => []
  | child :: children => child.ids ++ idsOfChildren children

end

end LayoutNode

/-- The rectangle of every window; none where the arithmetic would wrap. -/
def Layout.compute (layout : Layout) (area : Rect) (fixed : Assoc WindowId ℕ) :
    Option (Assoc WindowId Rect) := layout.root.computeNode fixed area ∅

def Layout.iterIds (layout : Layout) : List WindowId := layout.root.ids

end Pmacs
