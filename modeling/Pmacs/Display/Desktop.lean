/-
  The view a saved desktop gives a frontend that attaches (desktop.rs, daemon.rs).

  * `buildRestoreNode` makes a window for each saved leaf whose file opened; a split that keeps
    one child is that child;
  * `pickActiveWindow`: the leaf that had the focus, or the one nearest to it that is left;
  * `Builds`: what the making of windows does to the core, and `builds_buildRestoreNode`.
-/
import Pmacs.Display.Frame

namespace Pmacs.Display

open Lib LayoutNode List Option

/-- A saved window tree. A leaf has the buffer its file opened as, if it did. -/
inductive SavedNode where
  | leaf (buffer : Option BufferId) (cursor viewTop : ℕ)
  | split (orientation : Orientation) (weights : List ℕ) (children : List SavedNode)

structure SavedDesktop where
  root : SavedNode
  activeLeaf : ℕ

namespace EditorCore

mutual

/-- Make the windows of a saved tree. The answer has a slot for each leaf, empty when its file
    did not open, and the tree of the windows made. -/
def buildRestoreNode : SavedNode → EditorCore →
    EditorCore × List (Option WindowId) × Option LayoutNode
  | .leaf none _ _, c => (c, [none], none)
  | .leaf (some bufferId) cursor viewTop, c =>
    match c.registry.get bufferId with
    | none => (c, [], none)
    | some text =>
      let textView := TextView.new text
      let (c, id) := c.addWindow { Window.new bufferId textView with
        cursor := min cursor text.length
        viewTop := min viewTop (textView.lineCount - 1) }
      (c, [some id], some (.leaf id))
  | .split orientation weights children, c =>
    match buildRestoreChildren children weights c with
    | (c, slots, []) => (c, slots, none)
    | (c, slots, [(node, _)]) => (c, slots, some node)
    | (c, slots, kept) => (c, slots, some (.split orientation (kept.map (·.2)) (kept.map (·.1))))

def buildRestoreChildren : List SavedNode → List ℕ → EditorCore →
    EditorCore × List (Option WindowId) × List (LayoutNode × ℕ)
  | [], _, c => (c, [], [])
  | child :: children, weights, c =>
    let (c, slots, node) := buildRestoreNode child c
    let (c, rest, kept) := buildRestoreChildren children weights.tail c
    (c, slots ++ rest, node.toList.map (fun node => (node, max (weights.headD 1) 1)) ++ kept)

end

/-- The leaf that was active, or the nearest that is left, a later one first. -/
def pickActiveWindow (slots : List (Option WindowId)) (want : ℕ) : Option WindowId :=
  match slots[want]?.join with
  | some id => some id
  | none =>
    let left := (List.range slots.length).filter fun i => slots[i]?.join.isSome
    (left.argmin fun i => 2 * (max i want - min i want) + if i < want then 1 else 0).bind fun i =>
      slots[i]?.join

/-- The view of a desktop, none when none of its files opened. -/
def restoreForAttach (c : EditorCore) (saved : SavedDesktop) (panelCapable : Bool) :
    EditorCore × Option FrontendView :=
  match buildRestoreNode saved.root c with
  | (c, _, none) => (c, none)
  | (c, slots, some root) =>
    (c, ((pickActiveWindow slots saved.activeLeaf).or (slots.findSome? id)).map fun active =>
      ⟨⟨root⟩, active, panelCapable, none, false⟩)

/-- The view of a frontend that attaches: its desktop's, or one on `LOCAL`'s document. -/
def attachView (c : EditorCore) (desktop : Option SavedDesktop) (panelCapable : Bool) :
    Option (EditorCore × FrontendView) :=
  match desktop with
  | none => c.buildFreshFrontendView panelCapable
  | some saved =>
    match c.restoreForAttach saved panelCapable with
    | (c, some view) => some (c, view)
    | (c, none) => c.buildFreshFrontendView panelCapable

/-! ## The windows that are made -/

/-- A text of that length and so many lines has room for where a window is. -/
structure Room (length lines : ℕ) (w : Window) : Prop where
  cursor : w.cursor ≤ length
  selection : ∀ anchor, w.selection = some anchor → anchor ≤ length
  viewTop : w.viewTop < lines

/-- A document window, as it is made. -/
structure Made (c : EditorCore) (w : Window) : Prop where
  params : w.params = .default
  shown : ∃ text, c.registry.get w.bufferId = some text ∧ w.textView = .new text ∧
    Room text.length text.lines w

/-- Windows were made, under ids that no window had. -/
structure Builds (c c' : EditorCore) (ids : List WindowId) : Prop where
  rest : { c' with windows := c.windows, nextWindow := c.nextWindow } = c
  nextWindow : c.nextWindow ≤ c'.nextWindow
  fresh : ∀ id ∈ ids, c.nextWindow ≤ id ∧ id < c'.nextWindow
  nodup : ids.Nodup
  made : ∀ id ∈ ids, ∃ w, c'.windows id = some w ∧ Made c w
  others : ∀ id ∉ ids, c'.windows id = c.windows id

variable {c c' c'' : EditorCore} {made made' : List WindowId}

theorem Builds.refl (c : EditorCore) : Builds c c [] where
  rest := rfl
  nextWindow := le_rfl
  fresh _ h := absurd h not_mem_nil
  nodup := nodup_nil
  made _ h := absurd h not_mem_nil
  others _ _ := rfl

theorem Builds.registry (h : Builds c c' made) : c'.registry = c.registry := by
  rw [← h.rest]

theorem Builds.views (h : Builds c c' made) : c'.views = c.views := by
  rw [← h.rest]

theorem Builds.trans (h : Builds c c' made) (h' : Builds c' c'' made') :
    Builds c c'' (made ++ made') where
  rest := by
    calc { c'' with windows := c.windows, nextWindow := c.nextWindow }
        = { { c'' with windows := c'.windows, nextWindow := c'.nextWindow } with
            windows := c.windows, nextWindow := c.nextWindow } := rfl
      _ = { c' with windows := c.windows, nextWindow := c.nextWindow } := by rw [h'.rest]
      _ = c := h.rest
  nextWindow := le_trans h.nextWindow h'.nextWindow
  fresh id hid := by
    rcases mem_append.1 hid with hid | hid
    · exact ⟨(h.fresh id hid).1, lt_of_lt_of_le (h.fresh id hid).2 h'.nextWindow⟩
    · exact ⟨le_trans h.nextWindow (h'.fresh id hid).1, (h'.fresh id hid).2⟩
  nodup := by
    refine nodup_append'.2 ⟨h.nodup, h'.nodup, fun id hid hid' => ?_⟩
    exact absurd (h.fresh id hid).2 (not_lt.2 (h'.fresh id hid').1)
  made id hid := by
    by_cases hid' : id ∈ made'
    · obtain ⟨w, hw, hmade⟩ := h'.made id hid'
      exact ⟨w, hw, ⟨hmade.params, by rw [← h.registry]; exact hmade.shown⟩⟩
    obtain ⟨w, hw, hmade⟩ := h.made id ((mem_append.1 hid).resolve_right hid')
    exact ⟨w, by rw [h'.others id hid', hw], hmade⟩
  others id hid := by rw [mem_append, not_or] at hid; rw [h'.others id hid.2, h.others id hid.1]

theorem builds_addWindow {w : Window} (hmade : Made c w) :
    Builds c (c.addWindow w).1 [c.nextWindow] where
  rest := rfl
  nextWindow := Nat.le_succ _
  fresh id hid := by rw [mem_singleton.1 hid]; exact ⟨le_rfl, Nat.lt_succ_self _⟩
  nodup := nodup_singleton _
  made id hid := by
    rw [mem_singleton.1 hid]; exact ⟨w, setWindow_windows_self c c.nextWindow w, hmade⟩
  others id hid := setWindow_windows_of_ne c c.nextWindow w fun h => hid (mem_singleton.2 h)

theorem idsOfChildren_kept (node : Option LayoutNode) (weight : ℕ) (kept : List (LayoutNode × ℕ)) :
    idsOfChildren ((node.toList.map (fun node => (node, weight)) ++ kept).map (·.1)) =
      (node.map ids).getD [] ++ idsOfChildren (kept.map (·.1)) := by
  cases node with
  | none | some => rfl

mutual

theorem builds_buildRestoreNode : ∀ (saved : SavedNode) (c : EditorCore),
    Builds c (buildRestoreNode saved c).1 (((buildRestoreNode saved c).2.2.map ids).getD []) ∧
      (buildRestoreNode saved c).2.1.filterMap id =
        ((buildRestoreNode saved c).2.2.map ids).getD []
  | .leaf none _ _, c => ⟨.refl c, rfl⟩
  | .leaf (some bufferId) cursor viewTop, c => by
    rw [buildRestoreNode]
    cases hget : c.registry.get bufferId with
    | none => exact ⟨.refl c, rfl⟩
    | some text =>
      refine ⟨builds_addWindow ⟨rfl, text, hget, rfl, ?_⟩, rfl⟩
      have htop : min viewTop ((TextView.new text).lineCount - 1) < text.lines := by
        have hlines := TextView.lines_pos text; have hcount := TextView.lineCount_new text; omega
      exact ⟨min_le_right _ _, nofun, htop⟩
  | .split orientation weights children, c => by
    have hchildren := builds_buildRestoreChildren children weights c; rw [buildRestoreNode]
    generalize buildRestoreChildren children weights c = built at hchildren ⊢
    obtain ⟨c₁, slots, kept⟩ := built
    rcases kept with _ | ⟨⟨node, weight⟩, _ | ⟨second, kept⟩⟩
    · exact hchildren
    · rwa [map_singleton, idsOfChildren, idsOfChildren, append_nil] at hchildren
    · exact hchildren

theorem builds_buildRestoreChildren : ∀ (children : List SavedNode) (weights : List ℕ)
    (c : EditorCore),
    Builds c (buildRestoreChildren children weights c).1
      (idsOfChildren ((buildRestoreChildren children weights c).2.2.map (·.1))) ∧
      (buildRestoreChildren children weights c).2.1.filterMap id =
        idsOfChildren ((buildRestoreChildren children weights c).2.2.map (·.1))
  | [], _, c => ⟨.refl c, rfl⟩
  | child :: children, weights, c => by
    have hchild := builds_buildRestoreNode child c; rw [buildRestoreChildren]
    generalize buildRestoreNode child c = built at hchild ⊢; obtain ⟨c₁, slots, node⟩ := built
    have hrest := builds_buildRestoreChildren children weights.tail c₁; dsimp only at hchild ⊢
    generalize buildRestoreChildren children weights.tail c₁ = built at hrest ⊢
    obtain ⟨c₂, rest, kept⟩ := built
    rw [idsOfChildren_kept, filterMap_append, hchild.2, hrest.2]
    exact ⟨hchild.1.trans hrest.1, rfl⟩

end

theorem pickActiveWindow_mem {slots : List (Option WindowId)} {want : ℕ} {active : WindowId}
    (h : pickActiveWindow slots want = some active) : active ∈ slots.filterMap id := by
  have hslot : ∀ i : ℕ, slots[i]?.join = some active → active ∈ slots.filterMap id := by
    intro i hi; rw [join_eq_some_iff] at hi
    exact mem_filterMap.2 ⟨some active, mem_of_getElem? hi, rfl⟩
  unfold pickActiveWindow at h
  split at h
  case h_1 id' hid =>
    cases h; exact hslot want hid
  case h_2 =>
    obtain ⟨i, -, hi⟩ := bind_eq_some_iff.1 h; exact hslot i hi

/-- The view of a desktop has its own windows, and its focus on one of them. -/
theorem builds_restoreForAttach (c : EditorCore) (saved : SavedDesktop) (panelCapable : Bool) :
    ∃ ids, Builds c (c.restoreForAttach saved panelCapable).1 ids ∧
      ∀ view, (c.restoreForAttach saved panelCapable).2 = some view →
        view.layout.iterIds = ids ∧ view.active ∈ ids := by
  have hroot := builds_buildRestoreNode saved.root c
  unfold restoreForAttach
  generalize buildRestoreNode saved.root c = built at hroot ⊢
  obtain ⟨c₁, slots, root⟩ := built
  cases root with
  | none => exact ⟨[], hroot.1, nofun⟩
  | some root =>
    refine ⟨root.ids, hroot.1, fun view h => ?_⟩
    obtain ⟨active, hactive, rfl⟩ := map_eq_some_iff.1 h
    refine ⟨rfl, ?_⟩
    have hslots : slots.filterMap id = root.ids := hroot.2; rw [← hslots]
    rcases or_eq_some_iff.1 hactive with hpick | ⟨-, hfirst⟩
    · exact pickActiveWindow_mem hpick
    obtain ⟨slot, hslot, hid⟩ := exists_of_findSome?_eq_some hfirst
    exact mem_filterMap.2 ⟨slot, hslot, hid⟩

end EditorCore

end Pmacs.Display
