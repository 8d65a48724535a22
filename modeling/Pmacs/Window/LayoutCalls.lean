/-
  The calls that edit a layout, and the trees they build (window.rs).

  * `LayoutNode.Shaped`: every split has at least two children and a weight for each;
  * `Layout.Built`: the layouts that calls with fresh windows build;
  * `Layout.built_sound`: their windows are distinct, and what each call does to them;
  * `Layout.closeWindow_splitWindow`: closing what a split brought undoes the split.
-/
import Pmacs.Window.Tree

namespace Pmacs

open List Option LayoutNode

namespace LayoutNode

/-! ## The shape of a tree -/

mutual

/-- Every split has at least two children and a weight for each. -/
def Shaped : LayoutNode → Prop
  | leaf _ => True
  | split _ weights children =>
    2 ≤ children.length ∧ weights.length = children.length ∧ AllShaped children

def AllShaped : List LayoutNode → Prop
  | [] => True
  | child :: children => child.Shaped ∧ AllShaped children

end

section
variable {target newWindow : WindowId} {orientation : Orientation} {children : List LayoutNode}

theorem allShaped_iff : AllShaped children ↔ ∀ child ∈ children, child.Shaped := by
  induction children with
  | nil => simp [AllShaped]
  | cons child children ih => simp [AllShaped, ih]

/-! ### Splitting -/

mutual

theorem splitNode_shaped : ∀ {node node' : LayoutNode}, node.Shaped →
    node.splitNode target orientation newWindow = some node' → node'.Shaped
  | leaf id, node', _, h => by
    rw [splitNode] at h
    split_ifs at h
    obtain rfl := some.inj h; exact ⟨le_rfl, rfl, trivial, trivial, trivial⟩
  | split o weights children, node', hshaped, h => by
    rw [splitNode, map_eq_some_iff] at h; obtain ⟨children', hchildren, rfl⟩ := h
    obtain ⟨htwo, hweights, hall⟩ := hshaped
    obtain ⟨hall', hlen⟩ := splitChildren_shaped hall hchildren
    exact ⟨hlen ▸ htwo, hweights.trans hlen.symm, hall'⟩

theorem splitChildren_shaped : ∀ {children children' : List LayoutNode}, AllShaped children →
    splitChildren target orientation newWindow children = some children' →
    AllShaped children' ∧ children'.length = children.length
  | [], children', _, h => by cases h
  | child :: children, children', hall, h => by
    rw [splitChildren] at h
    cases hchild : child.splitNode target orientation newWindow with
    | some child' =>
      rw [hchild] at h; cases h; exact ⟨⟨splitNode_shaped hall.1 hchild, hall.2⟩, rfl⟩
    | none =>
      rw [hchild, map_eq_some_iff] at h; obtain ⟨rest, hrest, rfl⟩ := h
      obtain ⟨hall', hlen⟩ := splitChildren_shaped hall.2 hrest
      exact ⟨⟨hall.1, hall'⟩, congrArg Nat.succ hlen⟩

end

mutual

theorem splitNode_none : ∀ {node : LayoutNode},
    node.splitNode target orientation newWindow = none → target ∉ node.ids
  | leaf id, h => by
    rw [splitNode] at h
    split_ifs at h with hid
    exact fun hmem => hid (mem_singleton.1 hmem).symm
  | split o weights children, h => by
    rw [splitNode, map_eq_none_iff] at h; exact splitChildren_none h

theorem splitChildren_none : ∀ {children : List LayoutNode},
    splitChildren target orientation newWindow children = none → target ∉ idsOfChildren children
  | [], _ => not_mem_nil
  | child :: children, h => by
    rw [splitChildren] at h
    cases hchild : child.splitNode target orientation newWindow with
    | some child' => rw [hchild] at h; cases h
    | none =>
      rw [hchild, map_eq_none_iff] at h; intro hmem
      rcases mem_append.1 hmem with hmem | hmem
      · exact splitNode_none hchild hmem
      · exact splitChildren_none h hmem

end

/-! ### Removing -/

mutual

theorem collapse_of_shaped : ∀ {node : LayoutNode}, node.Shaped →
    node.collapseSingleChildSplits = node
  | leaf id, _ => rfl
  | split o weights children, h => by
    obtain ⟨htwo, -, hall⟩ := h; rw [collapseSingleChildSplits, collapseChildren_of_shaped hall]
    match children, htwo with
    | _ :: _ :: _, _ => rfl

theorem collapseChildren_of_shaped : ∀ {children : List LayoutNode}, AllShaped children →
    collapseChildren children = children
  | [], _ => rfl
  | child :: children, h => by
    rw [collapseChildren, collapse_of_shaped h.1, collapseChildren_of_shaped h.2]

end

/-- A split whose children are shaped: a single one takes its place. -/
theorem shaped_of_children {o : Orientation} {weights : List ℕ}
    (hone : 1 ≤ children.length) (hweights : weights.length = children.length)
    (hall : AllShaped children) :
    (match children with
      | [only] => only
      | children => split o weights children).Shaped := by
  match children, hone with
  | [only], _ => exact hall.1
  | first :: second :: rest, _ => exact ⟨by simp, hweights, hall⟩

mutual

/-- **Removing keeps the shape** once single children are put in their splits' place. -/
theorem collapse_removeLeaf_shaped : ∀ {node node' : LayoutNode}, node.Shaped →
    node.removeLeaf target = some node' → node'.collapseSingleChildSplits.Shaped
  | leaf id, node', _, h => by cases h
  | split o weights children, node', hshaped, h => by
    obtain ⟨htwo, hweights, hall⟩ := hshaped; rw [removeLeaf] at h
    cases hidx : children.findIdx? (isLeafOf target) with
    | some idx =>
      rw [hidx] at h; cases h
      have hlt : idx < children.length := (findIdx?_eq_some_iff_findIdx_eq.1 hidx).1
      have hrest : AllShaped (children.eraseIdx idx) :=
        allShaped_iff.2 fun child hchild => allShaped_iff.1 hall child (eraseIdx_subset hchild)
      rw [collapseSingleChildSplits, collapseChildren_of_shaped hrest]
      refine shaped_of_children ?_ ?_ hrest
      · rw [length_eraseIdx_of_lt hlt]; omega
      · rw [length_eraseIdx_of_lt hlt, length_eraseIdx_of_lt (hweights ▸ hlt), hweights]
    | none =>
      rw [hidx, map_eq_some_iff] at h; obtain ⟨children', hchildren, rfl⟩ := h
      obtain ⟨hall', hlen⟩ := collapse_removeChildren_shaped hall hchildren
      exact shaped_of_children (by omega) (hweights.trans hlen.symm) hall'

theorem collapse_removeChildren_shaped : ∀ {children children' : List LayoutNode},
    AllShaped children → removeChildren target children = some children' →
    AllShaped (collapseChildren children') ∧ (collapseChildren children').length = children.length
  | [], children', _, h => by cases h
  | child :: children, children', hall, h => by
    rw [removeChildren] at h
    cases hchild : child.removeLeaf target with
    | some child' =>
      rw [hchild] at h; cases h; rw [collapseChildren, collapseChildren_of_shaped hall.2]
      exact ⟨⟨collapse_removeLeaf_shaped hall.1 hchild, hall.2⟩, rfl⟩
    | none =>
      rw [hchild, map_eq_some_iff] at h; obtain ⟨rest, hrest, rfl⟩ := h
      obtain ⟨hall', hlen⟩ := collapse_removeChildren_shaped hall.2 hrest
      rw [collapseChildren, collapse_of_shaped hall.1]
      exact ⟨⟨hall.1, hall'⟩, congrArg Nat.succ hlen⟩

end

/-! ### Removing what a split brought -/

theorem removeLeaf_fresh {node : LayoutNode} (h : newWindow ∉ node.ids) :
    node.isLeafOf newWindow = false ∧ node.removeLeaf newWindow = none := by
  constructor
  · rw [Bool.eq_false_iff]; exact fun hleaf => h (by simp [ids_of_isLeafOf hleaf])
  · rw [eq_none_iff_forall_ne_some]; intro node' hnode
    obtain ⟨before, after, hids, -⟩ := removeLeaf_ids hnode
    exact h (by simp [hids])

mutual

/-- The window that a split brought comes out again, and what is left collapses to the node
    that was split. -/
theorem removeLeaf_splitNode : ∀ {node node' : LayoutNode}, node.Shaped → newWindow ∉ node.ids →
    node.splitNode target orientation newWindow = some node' →
    node'.isLeafOf newWindow = false ∧
      (node'.removeLeaf newWindow).map collapseSingleChildSplits = some node
  | leaf id, node', _, hfresh, h => by
    rw [splitNode] at h
    split_ifs at h
    obtain rfl := some.inj h
    have hne : id ≠ newWindow := fun hid => hfresh (mem_singleton.2 hid.symm)
    simp [removeLeaf, isLeafOf, hne, findIdx?_cons, collapseSingleChildSplits, collapseChildren]
  | split o weights children, node', hshaped, hfresh, h => by
    rw [splitNode, map_eq_some_iff] at h; obtain ⟨children', hchildren, rfl⟩ := h
    obtain ⟨hleaf, hremove⟩ := removeChildren_splitChildren hshaped.2.2 hfresh hchildren
    obtain ⟨rest, hrest, hcollapse⟩ := map_eq_some_iff.1 hremove
    refine ⟨rfl, ?_⟩
    simp only [removeLeaf, hleaf, hrest, map_some, collapseSingleChildSplits, hcollapse]
    match children, hshaped.1 with
    | _ :: _ :: _, _ => rfl

theorem removeChildren_splitChildren : ∀ {children children' : List LayoutNode},
    AllShaped children → newWindow ∉ idsOfChildren children →
    splitChildren target orientation newWindow children = some children' →
    children'.findIdx? (isLeafOf newWindow) = none ∧
      (removeChildren newWindow children').map collapseChildren = some children
  | [], children', _, _, h => by cases h
  | child :: children, children', hall, hfresh, h => by
    obtain ⟨hhead, htail⟩ := not_or.1 (mem_append.not.1 hfresh)
    rw [splitChildren] at h
    cases hchild : child.splitNode target orientation newWindow with
    | some child' =>
      rw [hchild] at h; cases h
      obtain ⟨hleaf, hremove⟩ := removeLeaf_splitNode hall.1 hhead hchild
      obtain ⟨child'', hchild'', hcollapse⟩ := map_eq_some_iff.1 hremove
      have hrest : children.findIdx? (isLeafOf newWindow) = none := by
        cases hidx : children.findIdx? (isLeafOf newWindow) with
        | none => rfl
        | some idx =>
          obtain ⟨before, after, hids, -⟩ := idsOfChildren_eraseIdx hidx
          exact absurd (by simp [hids]) htail
      simp [findIdx?_cons, hleaf, hrest, removeChildren, hchild'', collapseChildren, hcollapse,
        collapseChildren_of_shaped hall.2]
    | none =>
      rw [hchild, map_eq_some_iff] at h; obtain ⟨rest, hrest, rfl⟩ := h
      obtain ⟨hleaf, hremove⟩ := removeChildren_splitChildren hall.2 htail hrest
      obtain ⟨rest', hrest', hcollapse⟩ := map_eq_some_iff.1 hremove
      obtain ⟨hfreshLeaf, hnone⟩ := removeLeaf_fresh hhead
      simp [findIdx?_cons, hfreshLeaf, hleaf, removeChildren, hnone, hrest', collapseChildren,
        hcollapse, collapse_of_shaped hall.1]

end

end

end LayoutNode

/-! ## Calls -/

inductive LayoutCall where
  | splitWindow (target : WindowId) (orientation : Orientation) (newWindow : WindowId)
  | closeWindow (target : WindowId)
  | installSideLeaf (side : WindowId)
  | keepOnly (keep : WindowId)

def LayoutCall.named : LayoutCall → Option WindowId
  | splitWindow target _ _ => some target
  | closeWindow target => some target
  | installSideLeaf _ => none
  | keepOnly keep => some keep

def LayoutCall.brought : LayoutCall → Option WindowId
  | splitWindow _ _ newWindow => some newWindow
  | installSideLeaf side => some side
  | closeWindow _ => none
  | keepOnly _ => none

namespace Layout

/-- The layout after a call; one that reports failure leaves it as it is. -/
def call (layout : Layout) : LayoutCall → Layout
  | .splitWindow target orientation newWindow => layout.splitWindow target orientation newWindow
  | .closeWindow target => (layout.closeWindow target).getD layout
  | .installSideLeaf side => layout.installSideLeaf side
  | .keepOnly keep => (layout.keepOnly keep).getD layout

/-- The layouts that calls build from a single window, when those they bring are fresh. -/
inductive Built : Layout → Prop
  | single (window : WindowId) : Built (single window)
  | call {layout : Layout} (h : Built layout) (c : LayoutCall)
    (hfresh : ∀ window ∈ c.brought, window ∉ layout.iterIds) : Built (layout.call c)

section
variable {layout : Layout}

/-! ### What one call does -/

variable {target : WindowId}

theorem splitWindow_mem (h : target ∈ layout.iterIds)
    (orientation : Orientation) (newWindow : WindowId) :
    ∃ before after, layout.iterIds = before ++ target :: after ∧
      (layout.splitWindow target orientation newWindow).iterIds =
        before ++ target :: newWindow :: after := by
  unfold splitWindow iterIds
  cases hsplit : layout.root.splitNode target orientation newWindow with
  | none => exact absurd h (splitNode_none hsplit)
  | some root => exact splitNode_ids hsplit

theorem closeWindow_mem (h : target ∈ layout.iterIds) (honly : layout.iterIds ≠ [target]) :
    ∃ layout' before after, layout.closeWindow target = some layout' ∧
      layout.iterIds = before ++ target :: after ∧ layout'.iterIds = before ++ after := by
  cases hclose : layout.closeWindow target with
  | none =>
    rcases closeWindow_none hclose with hmem | hsingle
    · exact absurd h hmem
    · exact absurd hsingle honly
  | some layout' =>
    obtain ⟨before, after, hids, hids'⟩ := closeWindow_iterIds hclose
    exact ⟨layout', before, after, rfl, hids, hids'⟩

/-- A call that names a window which is not there changes nothing. -/
theorem call_unknown {c : LayoutCall} (hnamed : c.named = some target)
    (h : target ∉ layout.iterIds) : layout.call c = layout := by
  cases c with
  | splitWindow named orientation newWindow =>
    obtain rfl := some.inj hnamed; rw [call, splitWindow]
    cases hsplit : layout.root.splitNode named orientation newWindow with
    | none => rfl
    | some root =>
      obtain ⟨before, after, hids, -⟩ := splitNode_ids hsplit
      exact absurd (by rw [iterIds, hids]; simp) h
  | closeWindow named =>
    obtain rfl := some.inj hnamed; rw [call]
    cases hclose : layout.closeWindow named with
    | none => rfl
    | some layout' =>
      obtain ⟨before, after, hids, -⟩ := closeWindow_iterIds hclose
      exact absurd (by rw [hids]; simp) h
  | installSideLeaf side => cases hnamed
  | keepOnly keep =>
    obtain rfl := some.inj hnamed
    show ((if keep ∈ layout.iterIds then some ⟨.leaf keep⟩ else none).getD layout) = layout
    rw [if_neg h]; rfl

theorem call_nodup (h : layout.iterIds.Nodup) {c : LayoutCall}
    (hfresh : ∀ window ∈ c.brought, window ∉ layout.iterIds) : (layout.call c).iterIds.Nodup := by
  cases c with
  | splitWindow target orientation newWindow =>
    have hnew : newWindow ∉ layout.iterIds := hfresh newWindow rfl
    rcases splitWindow_iterIds layout target orientation newWindow
      with hsame | ⟨before, after, hids, hids'⟩
    · exact hsame ▸ h
    rw [hids] at h hnew
    have hperm : (before ++ target :: newWindow :: after).Perm
        (newWindow :: (before ++ target :: after)) := by
      rw [← singleton_append, ← append_assoc]
      refine perm_middle.trans ?_; rw [append_assoc, singleton_append]
    show (layout.splitWindow target orientation newWindow).iterIds.Nodup
    rw [hids', hperm.nodup_iff]; exact nodup_cons.2 ⟨hnew, h⟩
  | closeWindow target =>
    rw [call]
    cases hclose : layout.closeWindow target with
    | none => exact h
    | some layout' =>
      obtain ⟨before, after, hids, hids'⟩ := closeWindow_iterIds hclose; rw [hids] at h
      rw [getD_some, hids']
      exact h.sublist ((List.Sublist.refl before).append (sublist_cons_self _ _))
  | installSideLeaf side =>
    have hnew : side ∉ layout.iterIds := hfresh side rfl
    show (layout.installSideLeaf side).iterIds.Nodup
    rw [installSideLeaf_iterIds, (perm_append_singleton side layout.iterIds).nodup_iff]
    exact nodup_cons.2 ⟨hnew, h⟩
  | keepOnly keep =>
    rw [call]
    cases hkeep : layout.keepOnly keep with
    | none => exact h
    | some layout' => obtain ⟨rfl, -⟩ := keepOnly_eq_some hkeep; exact nodup_singleton keep

theorem call_shaped (h : layout.root.Shaped) (c : LayoutCall) : (layout.call c).root.Shaped := by
  cases c with
  | splitWindow target orientation newWindow =>
    rw [call, splitWindow]
    cases hsplit : layout.root.splitNode target orientation newWindow with
    | none => exact h
    | some root => exact splitNode_shaped h hsplit
  | closeWindow target =>
    rw [call]
    cases hclose : layout.closeWindow target with
    | none => exact h
    | some layout' =>
      rw [closeWindow, map_eq_some_iff] at hclose; obtain ⟨root, hroot, rfl⟩ := hclose
      exact collapse_removeLeaf_shaped h hroot
  | installSideLeaf side => exact ⟨le_rfl, rfl, h, trivial, trivial⟩
  | keepOnly keep =>
    rw [call]
    cases hkeep : layout.keepOnly keep with
    | none => exact h
    | some layout' => obtain ⟨rfl, -⟩ := keepOnly_eq_some hkeep; exact trivial

/-- **The layouts that calls build.**  Their windows are distinct and every split has its
    children and their weights.  A split adds one window, right after the one it names; closing
    a window that is not the only one removes it and no other; a call that names a window which
    is not there changes nothing. -/
theorem built_sound (h : Built layout) : layout.iterIds.Nodup ∧ layout.root.Shaped ∧
    (∀ target ∈ layout.iterIds, ∀ orientation newWindow, ∃ before after,
      layout.iterIds = before ++ target :: after ∧
      (layout.call (.splitWindow target orientation newWindow)).iterIds =
        before ++ target :: newWindow :: after) ∧
    (∀ target ∈ layout.iterIds, layout.iterIds ≠ [target] → ∃ before after,
      layout.iterIds = before ++ target :: after ∧
      (layout.call (.closeWindow target)).iterIds = before ++ after) ∧
    ∀ c target, c.named = some target → target ∉ layout.iterIds → layout.call c = layout := by
  have hinv : layout.iterIds.Nodup ∧ layout.root.Shaped := by
    induction h with
    | single window => exact ⟨nodup_singleton window, trivial⟩
    | call _ c hfresh ih => exact ⟨call_nodup ih.1 hfresh, call_shaped ih.2 c⟩
  refine ⟨hinv.1, hinv.2, fun target hmem => splitWindow_mem hmem, fun target hmem honly => ?_,
    fun c target => call_unknown⟩
  obtain ⟨layout', before, after, hclose, hids, hids'⟩ := closeWindow_mem hmem honly
  refine ⟨before, after, hids, ?_⟩
  rw [call, hclose]
  exact hids'

theorem Built.shaped (h : Built layout) : layout.root.Shaped := by
  induction h with
  | single window => exact trivial
  | call _ c _ ih => exact call_shaped ih c

/-- **Closing what a split brought undoes the split** in every layout that calls build: each
    window, orientation and weight is as it was. -/
theorem closeWindow_splitWindow (h : Built layout) (hmem : target ∈ layout.iterIds)
    {newWindow : WindowId} (hfresh : newWindow ∉ layout.iterIds) (orientation : Orientation) :
    (layout.splitWindow target orientation newWindow).closeWindow newWindow = some layout := by
  rw [closeWindow, splitWindow]
  cases hsplit : layout.root.splitNode target orientation newWindow with
  | none => exact absurd hmem (LayoutNode.splitNode_none hsplit)
  | some root =>
    obtain ⟨-, hremove⟩ := LayoutNode.removeLeaf_splitNode h.shaped hfresh hsplit
    obtain ⟨root', hroot', hcollapse⟩ := map_eq_some_iff.1 hremove
    rw [getD_some, hroot', map_some, hcollapse]

end

theorem built_sound_three : (((single 1).call (.splitWindow 1 .vertical 2)).call
      (.splitWindow 1 .horizontal 3)).iterIds.Nodup :=
  (built_sound (((Built.single 1).call _ (by decide)).call _ (by decide))).1

/-- Four windows, in splits of both orientations one inside the other. -/
theorem closeWindow_splitWindow_nested :
    let layout := ((single 1).call (.splitWindow 1 .vertical 2)).call (.splitWindow 2 .horizontal 3)
    (layout.splitWindow 3 .vertical 4).closeWindow 4 = some layout :=
  closeWindow_splitWindow (((Built.single 1).call _ (by decide)).call _ (by decide))
    (by decide) (by decide) .vertical

end Layout

end Pmacs
