/-
  The views and the window table agree.

  * `LayoutOk`: what holds of each layout; `Ok`: this for the view of every frontend and for the
    views that are kept, and that no two of them share a window;
  * `Ok.of_places`: an operation that changes one view, moves views or makes windows;
  * `LayoutOk.close`, `LayoutOk.split`, `LayoutOk.install`: the changes to a layout.
-/
import Pmacs.Display.Run

namespace Pmacs.Display

open Lib List Option Layout

namespace EditorCore

variable {c c' : EditorCore} {retained retained' : Assoc ℕ FrontendView} {fid : FrontendId}
  {view view' : FrontendView} {layout layout' : Layout}

/-! ## The invariant -/

/-- A layout of live windows, each in it once. One at least is no side window, and a side window
    is beside all others. -/
structure LayoutOk (c : EditorCore) (layout : Layout) : Prop where
  live : ∀ id ∈ layout.iterIds, (c.kind id).isSome
  nodup : layout.iterIds.Nodup
  document : ∃ id ∈ layout.iterIds, c.isSide id = false
  side : ∀ id ∈ layout.iterIds, c.isSide id → (layout.documentSubtree id).isSome

structure ViewOk (c : EditorCore) (view : FrontendView) : Prop where
  active : view.active ∈ view.layout.iterIds
  layout : LayoutOk c view.layout

/-- The windows are older than the next id, show registered buffers, and are quit only on a
    side. -/
structure TableOk (c : EditorCore) : Prop where
  old : ∀ id w, c.windows id = some w → id < c.nextWindow
  shown : ∀ id w, c.windows id = some w → c.registry.contains w.bufferId
  quits : ∀ id w, c.windows id = some w → w.params.quitAction.isSome → w.isSide
  registry : ∀ id ∈ c.registry.order, id < c.registry.next

/-- Where a view can be. -/
inductive Place where
  | shown (fid : FrontendId)
  | kept (token : ℕ)
deriving DecidableEq

def viewAt (c : EditorCore) (retained : Assoc ℕ FrontendView) : Place → Option FrontendView
  | .shown fid => c.views.lookup fid
  | .kept token => retained.lookup token

structure Ok (retained : Assoc ℕ FrontendView) (c : EditorCore) : Prop where
  table : TableOk c
  views : ∀ p view, c.viewAt retained p = some view → ViewOk c view
  apart : ∀ p q view view' id, c.viewAt retained p = some view →
    c.viewAt retained q = some view' → id ∈ view.layout.iterIds → id ∈ view'.layout.iterIds → p = q
  localView : (c.views.lookup LOCAL).isSome

/-! ## Layouts -/

variable {id : WindowId}

theorem kind_eq_some (h : (c.kind id).isSome) : c.kind id = some (c.isSide id) := by
  obtain ⟨side, hside⟩ := isSome_iff_exists.1 h
  rw [isSide_eq, hside]
  cases side with
  | true | false => rfl

theorem live_window (h : (c.kind id).isSome) : ∃ w, c.windows id = some w := by
  rw [kind_isSome] at h
  exact isSome_iff_exists.1 h

theorem TableOk.lt (h : TableOk c) (hid : (c.kind id).isSome) : id < c.nextWindow := by
  obtain ⟨w, hw⟩ := live_window hid
  exact h.old id w hw

theorem LayoutOk.congr (h : LayoutOk c layout)
    (hkind : ∀ id ∈ layout.iterIds, c'.kind id = c.kind id) : LayoutOk c' layout where
  live id hid := by rw [hkind id hid]; exact h.live id hid
  nodup := h.nodup
  document := by
    obtain ⟨id, hid, hside⟩ := h.document
    exact ⟨id, hid, by rw [isSide_congr (hkind id hid), hside]⟩
  side id hid hside := by rw [isSide_congr (hkind id hid)] at hside; exact h.side id hid hside

theorem ViewOk.congr (h : ViewOk c view)
    (hkind : ∀ id ∈ view.layout.iterIds, c'.kind id = c.kind id) : ViewOk c' view :=
  ⟨h.active, h.layout.congr hkind⟩

theorem LayoutOk.close {target other : WindowId} (h : LayoutOk c layout)
    (htarget : target ∈ layout.iterIds) (hother : other ∈ layout.iterIds) (hne : other ≠ target)
    (hdocument : c.isSide other = false) : ∃ layout', layout.closeWindow target = some layout' ∧
      (∀ id, id ∈ layout'.iterIds ↔ id ∈ layout.iterIds ∧ id ≠ target) ∧ LayoutOk c layout' := by
  cases hclose : layout.closeWindow target with
  | none =>
    rcases closeWindow_none hclose with hgone | honly
    · exact absurd htarget hgone
    · rw [honly] at hother; exact absurd (mem_singleton.1 hother) hne
  | some layout' =>
    obtain ⟨before, after, hids, hids'⟩ := closeWindow_iterIds hclose; have hnodup := h.nodup
    rw [hids] at hnodup
    have hmem : ∀ id, id ∈ layout'.iterIds ↔ id ∈ layout.iterIds ∧ id ≠ target := by
      intro id; have hgone := (nodup_middle.1 hnodup).notMem; rw [hids, hids']
      constructor
      · intro hid
        refine ⟨?_, fun heq => hgone (heq ▸ hid)⟩
        rcases mem_append.1 hid with hid | hid
        · exact mem_append_left _ hid
        · exact mem_append_right _ (mem_cons_of_mem _ hid)
      · rintro ⟨hid, hne⟩; simpa [hne] using hid
    refine ⟨layout', rfl, hmem, ?_, ?_, ?_, ?_⟩
    · exact fun id hid => h.live id ((hmem id).1 hid).1
    · rw [hids']; exact (nodup_middle.1 hnodup).of_cons
    · exact ⟨other, (hmem other).2 ⟨hother, hne⟩, hdocument⟩
    intro id hid hside; obtain ⟨hmem', hne'⟩ := (hmem id).1 hid
    refine closeWindow_wrapped (h.side id hmem' hside) hne'.symm hother hne ?_ hclose
    rintro rfl; rw [hdocument] at hside; cases hside

theorem LayoutOk.single (hkind : c.kind id = some false) :
    LayoutOk c (.single id) where
  live j hj := by rw [mem_singleton.1 hj, hkind]; rfl
  nodup := nodup_singleton _
  document := ⟨id, mem_singleton_self _, by rw [isSide_eq, hkind]; rfl⟩
  side j hj hside := by rw [mem_singleton.1 hj, isSide_eq, hkind] at hside; cases hside

theorem LayoutOk.split {target new : WindowId} (h : LayoutOk c layout)
    (htarget : c.isSide target = false) (hnew : new ∉ layout.iterIds)
    (hkind : c'.kind new = some false) (hold : ∀ id ∈ layout.iterIds, c'.kind id = c.kind id)
    (orientation : Orientation) : LayoutOk c' (layout.splitWindow target orientation new) ∧
      (∀ id ∈ layout.iterIds, id ∈ (layout.splitWindow target orientation new).iterIds) ∧
      ∀ id ∈ (layout.splitWindow target orientation new).iterIds,
        id ∈ layout.iterIds ∨ id = new := by
  have hcongr := h.congr hold
  have hmem : (∀ id ∈ layout.iterIds, id ∈ (layout.splitWindow target orientation new).iterIds) ∧
      ∀ id ∈ (layout.splitWindow target orientation new).iterIds,
        id ∈ layout.iterIds ∨ id = new := by
    rcases splitWindow_iterIds layout target orientation new with hsame |
      ⟨before, after, hids, hids'⟩
    · rw [hsame]; exact ⟨fun id hid => hid, fun id hid => .inl hid⟩
    rw [hids, hids']
    constructor
    · intro id hid; simp only [mem_append, mem_cons] at hid ⊢; tauto
    · intro id hid; simp only [mem_append, mem_cons] at hid ⊢; tauto
  refine ⟨⟨?_, ?_, ?_, ?_⟩, hmem⟩
  · intro id hid
    rcases hmem.2 id hid with hid | rfl
    · exact hcongr.live id hid
    · rw [hkind]; rfl
  · rcases splitWindow_iterIds layout target orientation new with hsame |
      ⟨before, after, hids, hids'⟩
    · rw [hsame]; exact h.nodup
    have hnodup := h.nodup; rw [hids'] at ⊢; rw [hids] at hnodup hnew
    rw [show before ++ target :: new :: after = (before ++ [target]) ++ new :: after by simp,
      nodup_middle, nodup_cons]
    constructor
    · simpa using hnew
    · simpa using hnodup
  · obtain ⟨id, hid, hside⟩ := hcongr.document; exact ⟨id, hmem.1 id hid, hside⟩
  intro id hid hside
  rcases hmem.2 id hid with hid | rfl
  · refine splitWindow_wrapped (hcongr.side id hid hside) ?_ orientation new; rintro rfl
    rw [isSide_congr (hold _ hid), htarget] at hside; cases hside
  · rw [isSide_eq, hkind] at hside; cases hside

theorem LayoutOk.install {side : WindowId} (h : LayoutOk c layout)
    (hnone : ∀ id ∈ layout.iterIds, c.isSide id = false) (hnew : side ∉ layout.iterIds)
    (hkind : (c'.kind side).isSome) (hold : ∀ id ∈ layout.iterIds, c'.kind id = c.kind id) :
    LayoutOk c' (layout.installSideLeaf side) := by
  have hcongr := h.congr hold
  refine ⟨?_, ?_, ?_, ?_⟩
  · intro id hid
    rcases mem_append.1 hid with hid | hid
    · exact hcongr.live id hid
    · rw [mem_singleton.1 hid]; exact hkind
  · refine nodup_append'.2 ⟨h.nodup, nodup_singleton _, ?_⟩
    exact fun id hid hid' => hnew (mem_singleton.1 hid' ▸ hid)
  · obtain ⟨id, hid, hside⟩ := hcongr.document
    exact ⟨id, by rw [installSideLeaf_iterIds]; exact mem_append_left _ hid, hside⟩
  intro id hid hside
  rcases mem_append.1 hid with hid | hid
  · rw [isSide_congr (hold id hid), hnone id hid] at hside; cases hside
  · rw [mem_singleton.1 hid, installSideLeaf_documentSubtree]; rfl

/-! ## The table -/

theorem TableOk.keeps (h : TableOk c) (hkeeps : Keeps c c') : TableOk c' where
  old id w' hw' := by
    rw [hkeeps.nextWindow]
    refine h.lt ?_; rw [← hkeeps.kind id, kind_isSome, hw']; rfl
  shown id w' hw' := by
    rw [hkeeps.contains]
    rcases hkeeps.shown id w' hw' with ⟨w, hw, hbuffer⟩ | hcontains
    · rw [hbuffer]; exact h.shown id w hw
    · exact hcontains
  quits id w' hw' hquit := by
    rcases hkeeps.quits id w' hw' hquit with hside | ⟨w, hw, hbefore⟩
    · exact hside
    · rw [hkeeps.isSide_window hw hw']; exact h.quits id w hw hbefore
  registry := by rw [hkeeps.order, hkeeps.nextBuffer]; exact h.registry

theorem TableOk.sub (h : TableOk c) (hwindows : ∀ id w, c'.windows id = some w →
    c.windows id = some w) (hnext : c'.nextWindow = c.nextWindow)
    (hregistry : c'.registry = c.registry) : TableOk c' where
  old id w hw := by rw [hnext]; exact h.old id w (hwindows id w hw)
  shown id w hw := by rw [hregistry]; exact h.shown id w (hwindows id w hw)
  quits id w hw hquit := h.quits id w (hwindows id w hw) hquit
  registry := by rw [hregistry]; exact h.registry

theorem TableOk.setView (h : TableOk c) (fid : FrontendId) (view : FrontendView) :
    TableOk (c.setView fid view) := ⟨h.old, h.shown, h.quits, h.registry⟩

theorem TableOk.removeWindow (h : TableOk c) (id : WindowId) : TableOk (c.removeWindow id) := by
  refine h.sub (fun j w hw => ?_) rfl rfl
  by_cases hj : j = id
  · rw [hj, removeWindow_windows_self] at hw; cases hw
  · rwa [removeWindow_windows_of_ne _ _ hj] at hw

theorem TableOk.builds (h : TableOk c) {made : List WindowId} (hbuilds : Builds c c' made) :
    TableOk c' := by
  have hcases : ∀ id w, c'.windows id = some w →
      (id ∈ made ∧ Made c w) ∨ c.windows id = some w := by
    intro id w hw
    by_cases hid : id ∈ made
    · obtain ⟨w', hw', hmade⟩ := hbuilds.made id hid; rw [hw] at hw'; cases hw'
      exact .inl ⟨hid, hmade⟩
    · exact .inr (by rw [← hw, hbuilds.others id hid])
  refine ⟨?_, ?_, ?_, ?_⟩
  · intro id w hw
    rcases hcases id w hw with ⟨hid, -⟩ | hw
    · exact (hbuilds.fresh id hid).2
    · exact lt_of_lt_of_le (h.old id w hw) hbuilds.nextWindow
  · intro id w hw; rw [hbuilds.registry]
    rcases hcases id w hw with ⟨-, hmade⟩ | hw
    · obtain ⟨text, hget, -⟩ := hmade.shown; exact contains_of_get hget
    · exact h.shown id w hw
  · intro id w hw hquit
    rcases hcases id w hw with ⟨-, hmade⟩ | hw
    · rw [hmade.params] at hquit; cases hquit
    · exact h.quits id w hw hquit
  · rw [hbuilds.registry]; exact h.registry

theorem TableOk.create (h : TableOk c) (text : Text) :
    TableOk { c with registry := (c.registry.create text).1 } where
  old := h.old
  shown id w hw := by
    have hcontains := of_decide_eq_true (h.shown id w hw)
    exact decide_eq_true (mem_append_left _ hcontains)
  quits := h.quits
  registry id hid := by
    simp only [Registry.create, mem_append, mem_singleton] at hid ⊢
    rcases hid with hid | rfl
    · exact Nat.lt_succ_of_lt (h.registry id hid)
    · exact Nat.lt_succ_self _

/-! ## One operation -/

/-- The windows of every view but the one at `p₀` come from the view at another place, and the
    ones at `p₀` from one too, unless they are new. -/
theorem Ok.of_places (h : Ok retained c) (htable : TableOk c') (p₀ : Place) (from_ : Place → Place)
    (hplaces : ∀ p view, c'.viewAt retained' p = some view → ViewOk c' view ∧
      ∀ id ∈ view.layout.iterIds, (p = p₀ ∧ c.nextWindow ≤ id) ∨
        ∃ view, c.viewAt retained (from_ p) = some view ∧ id ∈ view.layout.iterIds)
    (hinj : ∀ p q, (c'.viewAt retained' p).isSome → (c'.viewAt retained' q).isSome →
      from_ p = from_ q → p = q)
    (hlocal : (c'.views.lookup LOCAL).isSome) : Ok retained' c' where
  table := htable
  views p view hview := (hplaces p view hview).1
  apart p q v w id hv hw hid hid' := by
    have hold : ∀ p view, c.viewAt retained p = some view → id ∈ view.layout.iterIds →
        id < c.nextWindow :=
      fun p view hview hid => h.table.lt ((h.views p view hview).layout.live id hid)
    rcases (hplaces p v hv).2 id hid with ⟨hp, hnew⟩ | ⟨v', hv', hmem⟩
    · rcases (hplaces q w hw).2 id hid' with ⟨hq, -⟩ | ⟨w', hw', hmem'⟩
      · rw [hp, hq]
      · exact absurd (hold _ w' hw' hmem') (not_lt.2 hnew)
    rcases (hplaces q w hw).2 id hid' with ⟨-, hnew⟩ | ⟨w', hw', hmem'⟩
    · exact absurd (hold _ v' hv' hmem) (not_lt.2 hnew)
    · exact hinj p q (by rw [hv]; rfl) (by rw [hw]; rfl) (h.apart _ _ v' w' id hv' hw' hmem hmem')
  localView := hlocal

theorem Ok.keeps (h : Ok retained c) (hkeeps : Keeps c c') : Ok retained c' := by
  have hviewAt : ∀ p, c'.viewAt retained p = c.viewAt retained p := by
    intro p
    cases p with
    | shown fid => rw [viewAt, viewAt, hkeeps.views]
    | kept token => rfl
  refine ⟨h.table.keeps hkeeps, ?_, ?_, by rw [hkeeps.views]; exact h.localView⟩
  · intro p view hview; rw [hviewAt] at hview
    exact (h.views p view hview).congr fun id _ => hkeeps.kind id
  · intro p q v w id; rw [hviewAt, hviewAt]; exact h.apart p q v w id

section
variable (h : Ok retained c)
include h

theorem Ok.same (htable : TableOk c') (hwindows : c'.windows = c.windows)
    (hviews : c'.views = c.views) : Ok retained c' := by
  have hviewAt : ∀ p, c'.viewAt retained p = c.viewAt retained p := by
    intro p
    cases p with
    | shown fid => rw [viewAt, viewAt, hviews]
    | kept token => rfl
  refine ⟨htable, ?_, ?_, by rw [hviews]; exact h.localView⟩
  · intro p view hview; rw [hviewAt] at hview
    refine (h.views p view hview).congr fun id _ => ?_; rw [kind, hwindows]; rfl
  · intro p q v w id; rw [hviewAt, hviewAt]; exact h.apart p q v w id

theorem Ok.setRegistry {registry : Registry}
    (htable : TableOk { c with registry := registry }) :
    Ok retained { c with registry := registry } := h.same htable rfl rfl

/-- One frontend's view is changed. The other windows are of the kind they were, and a window
    that the view has now it had before, or is new. -/
theorem Ok.act (htable : TableOk c') (hview : ViewOk c' view')
    (hself : c'.views.lookup fid = some view')
    (hothers : ∀ g ≠ fid, c'.views.lookup g = c.views.lookup g) (hkind : ∀ id, (c.kind id).isSome →
      (∀ view, c.views.lookup fid = some view → id ∉ view.layout.iterIds) → c'.kind id = c.kind id)
    (hids : ∀ id ∈ view'.layout.iterIds,
      (∃ view, c.views.lookup fid = some view ∧ id ∈ view.layout.iterIds) ∨ c.nextWindow ≤ id) :
    Ok retained c' := by
  have hkept : ∀ p view, p ≠ .shown fid → c.viewAt retained p = some view → ViewOk c' view := by
    intro p view hp hview
    refine (h.views p view hview).congr fun id hid => ?_
    refine hkind id ((h.views p view hview).layout.live id hid) fun v hv hmem => ?_
    exact hp (h.apart p (.shown fid) view v id hview hv hid hmem)
  refine h.of_places htable (.shown fid) id ?_ (fun p q _ _ heq => heq) ?_
  · intro p v hv
    cases p with
    | kept token =>
      have hv' : c.viewAt retained (.kept token) = some v := hv
      exact ⟨hkept _ v (by simp) hv', fun id hid => .inr ⟨v, hv', hid⟩⟩
    | shown g =>
      have hv' : c'.views.lookup g = some v := hv
      by_cases hg : g = fid
      · subst hg; rw [hself] at hv'; cases hv'
        refine ⟨hview, fun id hid => ?_⟩
        rcases hids id hid with hold | hnew
        · exact .inr hold
        · exact .inl ⟨rfl, hnew⟩
      rw [hothers g hg] at hv'
      exact ⟨hkept (.shown g) v (by simpa using hg) hv', fun id hid => .inr ⟨v, hv', hid⟩⟩
  by_cases hlocal : LOCAL = fid
  · rw [hlocal, hself]; rfl
  · rw [hothers LOCAL hlocal]; exact h.localView

theorem Ok.viewOk (hview : c.views.lookup fid = some view) : ViewOk c view :=
  h.views (.shown fid) view hview

end

/-- A view's focus and its other fields are changed, and its layout stays. -/
theorem Ok.setView (h : Ok retained c) (hview : c.views.lookup fid = some view)
    (hlayout : view'.layout = view.layout) (hactive : view'.active ∈ view.layout.iterIds) :
    Ok retained (c.setView fid view') := by
  refine @Ok.act c _ retained fid view' h (h.table.setView fid view')
    ⟨by rw [hlayout]; exact hactive, by rw [hlayout]; exact (h.viewOk hview).layout.congr fun _ _ => rfl⟩
    (setView_lookup_self c fid view') (fun g hg => setView_lookup_of_ne c fid view' hg)
    (fun id _ _ => rfl) fun id hid => .inl ⟨view, hview, by rw [← hlayout]; exact hid⟩

theorem Ok.setActive (h : Ok retained c) (hview : c.views.lookup fid = some view)
    (hid : id ∈ view.layout.iterIds) : Ok retained (c.setActive fid id) := by
  rw [setActive_of_lookup hview]
  exact h.setView hview rfl hid

end EditorCore

end Pmacs.Display
