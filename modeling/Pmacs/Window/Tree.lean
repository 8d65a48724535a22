/-
  The edits of a window tree (window.rs).

  * `splitNode`, `removeLeaf`, `collapseSingleChildSplits`: the edits of a node, none where the
    source reports that the window was not there;
  * `Layout.splitWindow`, `closeWindow`, `keepOnly`, `installSideLeaf`: those of a layout, and
    `focusStep`, `sideLeaf`, `documentSubtree`, which read it.
-/
import Pmacs.Window.Layout

namespace Pmacs

open Lib List Option

variable {target : WindowId}

namespace LayoutNode

/-! ## Splitting a leaf -/

mutual

/-- Replace the leaf of `target` with a split of it and a new window. -/
def splitNode (target : WindowId) (orientation : Orientation) (newWindow : WindowId) :
    LayoutNode → Option LayoutNode
  | leaf id =>
    if id = target then some (split orientation [1, 1] [leaf id, leaf newWindow]) else none
  | split o weights children =>
    (splitChildren target orientation newWindow children).map (split o weights)

/-- Split in the first child that holds `target`. -/
def splitChildren (target : WindowId) (orientation : Orientation) (newWindow : WindowId) :
    List LayoutNode → Option (List LayoutNode)
  | [] => none
  | child :: children =>
    match child.splitNode target orientation newWindow with
    | some child => some (child :: children)
    | none => (splitChildren target orientation newWindow children).map (child :: ·)

end

/-! ## Removing a leaf -/

/-- Whether a node is the leaf of `target`. -/
def isLeafOf (target : WindowId) : LayoutNode → Bool
  | leaf id => id = target
  | split _ _ _ => false

mutual

/-- Remove the leaf of `target`: among a split's own children first, then below them. -/
def removeLeaf (target : WindowId) : LayoutNode → Option LayoutNode
  | leaf _ => none
  | split o weights children =>
    match children.findIdx? (isLeafOf target) with
    | some idx => some (split o (weights.eraseIdx idx) (children.eraseIdx idx))
    | none => (removeChildren target children).map (split o weights)

/-- Remove from the first child that holds `target`. -/
def removeChildren (target : WindowId) : List LayoutNode → Option (List LayoutNode)
  | [] => none
  | child :: children =>
    match child.removeLeaf target with
    | some child => some (child :: children)
    | none => (removeChildren target children).map (child :: ·)

end

mutual

def collapseSingleChildSplits : LayoutNode → LayoutNode
  | leaf id => leaf id
  | split o weights children =>
    match collapseChildren children with
    | [only] => only
    | children => split o weights children

def collapseChildren : List LayoutNode → List LayoutNode
  | [] => []
  | child :: children => child.collapseSingleChildSplits :: collapseChildren children

end

/-! ## The rows a node needs -/

/-- `MIN_WINDOW_OUTER_ROWS`: one row of text and the mode line. -/
def minWindowOuterRows : ℕ := 2

mutual

def subtreeMinRows : LayoutNode → ℕ
  | leaf _ => minWindowOuterRows
  | split .horizontal _ children => sumMinRows children
  | split .vertical _ children => maxMinRows children

def sumMinRows : List LayoutNode → ℕ
  | [] => 0
  | child :: children => child.subtreeMinRows + sumMinRows children

def maxMinRows : List LayoutNode → ℕ
  | [] => 0
  | child :: children => max child.subtreeMinRows (maxMinRows children)

end

/-! ## What the edits do to the windows of a node -/

variable {orientation : Orientation}

mutual

theorem splitNode_ids {newWindow : WindowId} :
    ∀ {node node' : LayoutNode}, node.splitNode target orientation newWindow = some node' →
      ∃ before after, node.ids = before ++ target :: after ∧
        node'.ids = before ++ target :: newWindow :: after
  | leaf id, node', h => by
    rw [splitNode] at h
    split at h
    case isTrue hid =>
      cases h; subst hid; exact ⟨[], [], rfl, rfl⟩
    case isFalse => cases h
  | split o weights children, node', h => by
    rw [splitNode, map_eq_some_iff] at h; obtain ⟨children', hchildren, rfl⟩ := h
    exact splitChildren_ids hchildren

theorem splitChildren_ids {newWindow : WindowId} : ∀ {children children' : List LayoutNode},
      splitChildren target orientation newWindow children = some children' →
      ∃ before after, idsOfChildren children = before ++ target :: after ∧
        idsOfChildren children' = before ++ target :: newWindow :: after
  | [], children', h => by cases h
  | child :: children, children', h => by
    rw [splitChildren] at h
    cases hchild : child.splitNode target orientation newWindow with
    | some child' =>
      rw [hchild] at h; cases h; obtain ⟨before, after, hids, hids'⟩ := splitNode_ids hchild
      exact ⟨before, after ++ idsOfChildren children, by simp [idsOfChildren, hids],
        by simp [idsOfChildren, hids']⟩
    | none =>
      rw [hchild, map_eq_some_iff] at h; obtain ⟨rest, hrest, rfl⟩ := h
      obtain ⟨before, after, hids, hids'⟩ := splitChildren_ids hrest
      exact ⟨child.ids ++ before, after, by simp [idsOfChildren, hids],
        by simp [idsOfChildren, hids']⟩

end

theorem ids_of_isLeafOf {node : LayoutNode} (h : node.isLeafOf target) : node.ids = [target] := by
  cases node with
  | leaf id => rw [ids, of_decide_eq_true h]
  | split o weights children => cases h

theorem idsOfChildren_append (children rest : List LayoutNode) :
    idsOfChildren (children ++ rest) = idsOfChildren children ++ idsOfChildren rest := by
  induction children with
  | nil => rfl
  | cons child children ih => simp [idsOfChildren, ih]

variable {children : List LayoutNode}

theorem idsOfChildren_eraseIdx {idx : ℕ} (h : children.findIdx? (isLeafOf target) = some idx) :
    ∃ before after, idsOfChildren children = before ++ target :: after ∧
      idsOfChildren (children.eraseIdx idx) = before ++ after := by
  rw [findIdx?_eq_some_iff_getElem] at h
  obtain ⟨hlt, hleaf, -⟩ := h
  have hsplit : children = children.take idx ++ children[idx] :: children.drop (idx + 1) := by
    rw [getElem_cons_drop, take_append_drop]
  refine ⟨idsOfChildren (children.take idx), idsOfChildren (children.drop (idx + 1)), ?_, ?_⟩
  · conv_lhs => rw [hsplit]
    rw [idsOfChildren_append, idsOfChildren, ids_of_isLeafOf hleaf]; rfl
  · rw [eraseIdx_eq_take_drop_succ, idsOfChildren_append]

mutual

theorem removeLeaf_ids : ∀ {node node' : LayoutNode}, node.removeLeaf target = some node' →
      ∃ before after, node.ids = before ++ target :: after ∧ node'.ids = before ++ after
  | leaf id, node', h => by cases h
  | split o weights children, node', h => by
    rw [removeLeaf] at h
    cases hidx : children.findIdx? (isLeafOf target) with
    | some idx => rw [hidx] at h; cases h; exact idsOfChildren_eraseIdx hidx
    | none =>
      rw [hidx, map_eq_some_iff] at h; obtain ⟨children', hchildren, rfl⟩ := h
      exact removeChildren_ids hchildren

theorem removeChildren_ids :
    ∀ {children children' : List LayoutNode}, removeChildren target children = some children' →
      ∃ before after, idsOfChildren children = before ++ target :: after ∧
        idsOfChildren children' = before ++ after
  | [], children', h => by cases h
  | child :: children, children', h => by
    rw [removeChildren] at h
    cases hchild : child.removeLeaf target with
    | some child' =>
      rw [hchild] at h; cases h; obtain ⟨before, after, hids, hids'⟩ := removeLeaf_ids hchild
      exact ⟨before, after ++ idsOfChildren children, by simp [idsOfChildren, hids],
        by simp [idsOfChildren, hids']⟩
    | none =>
      rw [hchild, map_eq_some_iff] at h; obtain ⟨rest, hrest, rfl⟩ := h
      obtain ⟨before, after, hids, hids'⟩ := removeChildren_ids hrest
      exact ⟨child.ids ++ before, after, by simp [idsOfChildren, hids],
        by simp [idsOfChildren, hids']⟩

end

theorem exists_isLeafOf (h : children.findIdx? (isLeafOf target) = none) :
    ∀ child ∈ children, ¬ child.isLeafOf target := by
  intro child hchild
  have := findIdx?_eq_none_iff.1 h child hchild
  simp [this]

mutual

/-- Only a window that is not there, or one that is all there is, is not removed. -/
theorem removeLeaf_none : ∀ {node : LayoutNode}, node.removeLeaf target = none →
      target ∉ node.ids ∨ node.isLeafOf target
  | leaf id, _ => by
    by_cases hid : id = target
    · exact .inr (by simp [isLeafOf, hid])
    · exact .inl (fun hmem => hid (mem_singleton.1 hmem).symm)
  | split o weights children, h => by
    rw [removeLeaf] at h
    cases hidx : children.findIdx? (isLeafOf target) with
    | some idx => rw [hidx] at h; cases h
    | none =>
      rw [hidx, map_eq_none_iff] at h; exact .inl (removeChildren_none (exists_isLeafOf hidx) h)

theorem removeChildren_none :
    ∀ {children : List LayoutNode}, (∀ child ∈ children, ¬ child.isLeafOf target) →
      removeChildren target children = none → target ∉ idsOfChildren children
  | [], _, _ => not_mem_nil
  | child :: children, hleaf, h => by
    rw [removeChildren] at h
    cases hchild : child.removeLeaf target with
    | some child' => rw [hchild] at h; cases h
    | none =>
      rw [hchild, map_eq_none_iff] at h
      have hrest := removeChildren_none (fun c hc => hleaf c (mem_cons_of_mem _ hc)) h
      have hhead : target ∉ child.ids := by
        rcases removeLeaf_none hchild with hhead | hhead
        · exact hhead
        · exact absurd hhead (hleaf child mem_cons_self)
      intro hmem
      rcases mem_append.1 hmem with hmem | hmem
      · exact hhead hmem
      · exact hrest hmem

end

mutual

theorem collapse_ids : ∀ node : LayoutNode, node.collapseSingleChildSplits.ids = node.ids
  | leaf id => rfl
  | split o weights children => by
    have hchildren := collapseChildren_ids children; rw [collapseSingleChildSplits]
    split
    case h_1 only honly =>
      rw [honly] at hchildren; rw [ids, ← hchildren, idsOfChildren, idsOfChildren, append_nil]
    case h_2 =>
      exact hchildren

theorem collapseChildren_ids :
    ∀ children : List LayoutNode, idsOfChildren (collapseChildren children) = idsOfChildren children
  | [] => rfl
  | child :: children => by
    rw [collapseChildren, idsOfChildren, idsOfChildren, collapse_ids child,
      collapseChildren_ids children]

end

end LayoutNode

/-! ## The layout -/

namespace Layout

open LayoutNode

def single (window : WindowId) : Layout := ⟨.leaf window⟩

variable (layout : Layout)

def sideLeaf (sides : WindowId → Bool) : Option WindowId :=
  layout.iterIds.find? sides

variable (side : WindowId)

/-- What the root wraps beside `side`. -/
def documentSubtree : Option LayoutNode :=
  match layout.root with
  | .split .horizontal _ [document, .leaf id] => if id = side then some document else none
  | _ => none

/-- Wrap the root in a horizontal split whose last child is `side`. -/
def installSideLeaf : Layout :=
  ⟨.split .horizontal [1, 1] [layout.root, .leaf side]⟩

/-- Split the leaf of `target`, if there is one. -/
def splitWindow (target : WindowId) (orientation : Orientation) (newWindow : WindowId) : Layout :=
  ⟨(layout.root.splitNode target orientation newWindow).getD layout.root⟩

/-- Remove the leaf of `target`; none when there is none to remove. -/
def closeWindow (target : WindowId) : Option Layout :=
  (layout.root.removeLeaf target).map fun root => ⟨root.collapseSingleChildSplits⟩

/-- Collapse to one window; none when it is not a leaf. -/
def keepOnly (keep : WindowId) : Option Layout :=
  if keep ∈ layout.iterIds then some ⟨.leaf keep⟩ else none

def stepIndex (start step n : ℕ) (forward : Bool) : ℕ :=
  if forward then (start + step) % n else (start + n - step % n) % n

/-- The next eligible window from `current` on, around the end. -/
def focusStep (current : WindowId) (forward : Bool) (eligible : WindowId → Bool) : WindowId :=
  let ids := layout.iterIds
  match ids.head? with
  | none => current
  | some first =>
    match ids.idxOf? current with
    | none => (ids.find? eligible).getD first
    | some start =>
      let n := ids.length
      ((List.range' 1 n).findSome? fun step =>
        (ids[stepIndex start step n forward]?).filter eligible).getD current

/-! ## What the edits do to the windows of a layout -/

@[simp]
theorem installSideLeaf_iterIds :
    (layout.installSideLeaf side).iterIds = layout.iterIds ++ [side] := by
  simp [installSideLeaf, iterIds, ids, idsOfChildren]

theorem splitWindow_iterIds (target : WindowId) (orientation : Orientation) (newWindow : WindowId) :
    (layout.splitWindow target orientation newWindow).iterIds = layout.iterIds ∨
    ∃ before after, layout.iterIds = before ++ target :: after ∧
      (layout.splitWindow target orientation newWindow).iterIds =
        before ++ target :: newWindow :: after := by
  unfold splitWindow iterIds
  cases hsplit : layout.root.splitNode target orientation newWindow with
  | none => exact .inl rfl
  | some root => exact .inr (splitNode_ids hsplit)

variable {layout' : Layout}

theorem closeWindow_iterIds {layout : Layout} (h : layout.closeWindow target = some layout') :
    ∃ before after, layout.iterIds = before ++ target :: after ∧
      layout'.iterIds = before ++ after := by
  rw [closeWindow, map_eq_some_iff] at h
  obtain ⟨root, hroot, rfl⟩ := h
  obtain ⟨before, after, hids, hids'⟩ := removeLeaf_ids hroot
  exact ⟨before, after, hids, by rw [iterIds, collapse_ids, hids']⟩

theorem closeWindow_none {layout : Layout} (h : layout.closeWindow target = none) :
    target ∉ layout.iterIds ∨ layout.iterIds = [target] := by
  rw [closeWindow, map_eq_none_iff] at h
  rcases removeLeaf_none h with hmem | hleaf
  · exact .inl hmem
  · exact .inr (ids_of_isLeafOf hleaf)

theorem keepOnly_eq_some {layout : Layout} {keep : WindowId}
    (h : layout.keepOnly keep = some layout') : layout' = single keep ∧ keep ∈ layout.iterIds := by
  unfold keepOnly at h
  split at h
  case isTrue hmem =>
    cases h; exact ⟨rfl, hmem⟩
  case isFalse => cases h

theorem focusStep_mem {layout : Layout} {current : WindowId} (h : current ∈ layout.iterIds)
    (forward : Bool) (eligible : WindowId → Bool) :
    layout.focusStep current forward eligible ∈ layout.iterIds := by
  unfold focusStep
  dsimp only
  cases hhead : layout.iterIds.head? with
  | none => exact h
  | some first =>
    cases hidx : layout.iterIds.idxOf? current with
    | none => exact absurd h (idxOf?_eq_none_iff.1 hidx)
    | some start =>
      dsimp only
      cases hfind : (List.range' 1 layout.iterIds.length).findSome? fun step =>
          (layout.iterIds[stepIndex start step layout.iterIds.length forward]?).filter eligible with
      | none => exact h
      | some id =>
        obtain ⟨step, -, hstep⟩ := exists_of_findSome?_eq_some hfind
        obtain ⟨hget, -⟩ := filter_eq_some_iff.1 hstep; exact mem_of_getElem? hget

/-! ## The root that wraps a side window -/

variable {document : LayoutNode}

theorem documentSubtree_eq_some {layout : Layout} {side : WindowId} :
    layout.documentSubtree side = some document ↔
      ∃ weights, layout.root = .split .horizontal weights [document, .leaf side] := by
  constructor
  · intro h; unfold documentSubtree at h
    split at h
    case h_1 weights document' id hroot =>
      split at h
      case isTrue hid =>
        cases h; exact ⟨weights, by rw [hroot, hid]⟩
      case isFalse => cases h
    case h_2 => cases h
  · rintro ⟨weights, hroot⟩; simp [documentSubtree, hroot]

theorem iterIds_of_documentSubtree {layout : Layout} {side : WindowId}
    (h : layout.documentSubtree side = some document) :
    layout.iterIds = document.ids ++ [side] := by
  obtain ⟨weights, hroot⟩ := documentSubtree_eq_some.1 h
  simp [iterIds, hroot, ids, idsOfChildren]

@[simp]
theorem installSideLeaf_documentSubtree :
    (layout.installSideLeaf side).documentSubtree side = some layout.root :=
  documentSubtree_eq_some.2 ⟨[1, 1], rfl⟩

theorem documentSubtree_unique {layout : Layout} {side side' : WindowId}
    (h : (layout.documentSubtree side).isSome) (h' : (layout.documentSubtree side').isSome) :
    side = side' := by
  obtain ⟨document, hdocument⟩ := isSome_iff_exists.1 h
  obtain ⟨document', hdocument'⟩ := isSome_iff_exists.1 h'
  obtain ⟨weights, hroot⟩ := documentSubtree_eq_some.1 hdocument
  obtain ⟨weights', hroot'⟩ := documentSubtree_eq_some.1 hdocument'
  rw [hroot] at hroot'
  cases hroot'
  rfl

/-- A split of a document window leaves the side window where it is. -/
theorem splitWindow_wrapped {layout : Layout} {side : WindowId}
    (h : (layout.documentSubtree side).isSome) (hne : target ≠ side) (orientation : Orientation)
    (newWindow : WindowId) :
    ((layout.splitWindow target orientation newWindow).documentSubtree side).isSome := by
  obtain ⟨document, hdocument⟩ := isSome_iff_exists.1 h
  obtain ⟨weights, hroot⟩ := documentSubtree_eq_some.1 hdocument
  rw [isSome_iff_exists]
  simp only [documentSubtree_eq_some, splitWindow, hroot, splitNode, splitChildren]
  cases document.splitNode target orientation newWindow with
  | some document' => exact ⟨document', weights, rfl⟩
  | none => exact ⟨document, weights, by simp [hne.symm]⟩

/-- So does the removal of a document window that is not the last. -/
theorem closeWindow_wrapped {layout : Layout} {side other : WindowId}
    (h : (layout.documentSubtree side).isSome) (hne : target ≠ side)
    (hother : other ∈ layout.iterIds) (hotherTarget : other ≠ target) (hotherSide : other ≠ side)
    (hclose : layout.closeWindow target = some layout') :
    (layout'.documentSubtree side).isSome := by
  obtain ⟨document, hdocument⟩ := isSome_iff_exists.1 h
  obtain ⟨weights, hroot⟩ := documentSubtree_eq_some.1 hdocument
  have hmem : other ∈ document.ids := by
    rw [iterIds_of_documentSubtree hdocument] at hother; simpa [hotherSide] using hother
  have hleaf : document.isLeafOf target = false := by
    rw [Bool.eq_false_iff]; intro hleaf; rw [ids_of_isLeafOf hleaf] at hmem
    exact hotherTarget (mem_singleton.1 hmem)
  have hside : (leaf side).isLeafOf target = false := decide_eq_false hne.symm
  have hidx : [document, .leaf side].findIdx? (isLeafOf target) = none := by
    simp [findIdx?_cons, hleaf, hside]
  rw [closeWindow, hroot, removeLeaf, hidx] at hclose
  rw [isSome_iff_exists]
  simp only [documentSubtree_eq_some]
  cases hremove : document.removeLeaf target with
  | none => simp [removeChildren, hremove, removeLeaf] at hclose
  | some document' =>
    simp only [removeChildren, hremove, map_some, some.injEq] at hclose; subst hclose
    exact ⟨document'.collapseSingleChildSplits, weights, rfl⟩

end Layout

end Pmacs
