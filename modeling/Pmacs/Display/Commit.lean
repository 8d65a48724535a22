/-
  What a panel commit rests on (editor_core.rs, window_panel.rs).

  * `Free`: the frontend places side requests in its panel; `Frees`: an operation dedicates no
    side window of it;
  * `side_placement`: then a request for the side lands in no document window.
-/
import Pmacs.Display.Agreement

namespace Pmacs.Display

open Lib List Option

namespace EditorCore

variable {c c' c'' : EditorCore} {retained : Assoc ℕ FrontendView} {f fid : FrontendId}
  {view view' : FrontendView}

/-! ## The panel of a frontend -/

/-- A side window that only shows the buffer it shows. -/
def DedicatedSide (c : EditorCore) (id : WindowId) : Prop :=
  ∃ w, c.windows id = some w ∧ w.isSide ∧ w.params.dedicated

/-- Side requests of a frontend land in its side window, or make one. -/
def Free (f : FrontendId) (c : EditorCore) : Prop :=
  ∀ view, c.views.lookup f = some view →
    view.panelCapable ∧ ∀ id ∈ view.layout.iterIds, ¬ c.DedicatedSide id

/-- Every dedicated side window of a frontend was one before. -/
structure Frees (f : FrontendId) (c c' : EditorCore) : Prop where
  contracts : c'.commitContracts = c.commitContracts
  view : ∀ view', c'.views.lookup f = some view' → ∃ view, c.views.lookup f = some view ∧
    view'.panelCapable = view.panelCapable ∧
    ∀ id ∈ view'.layout.iterIds, c'.DedicatedSide id →
      id ∈ view.layout.iterIds ∧ c.DedicatedSide id

theorem Free.frees (h : Free f c) (hfrees : Frees f c c') : Free f c' := by
  intro view' hview'
  obtain ⟨view, hview, hcapable, hsides⟩ := hfrees.view view' hview'
  obtain ⟨hcap, hfree⟩ := h view hview
  refine ⟨by rw [hcapable]; exact hcap, fun id hid hdedicated => ?_⟩
  obtain ⟨hmem, hbefore⟩ := hsides id hid hdedicated
  exact hfree id hmem hbefore

theorem Frees.refl (f : FrontendId) (c : EditorCore) : Frees f c c :=
  ⟨rfl, fun view hview => ⟨view, hview, rfl, fun _ hid hdedicated => ⟨hid, hdedicated⟩⟩⟩

theorem Frees.trans (h : Frees f c c') (h' : Frees f c' c'') : Frees f c c'' := by
  refine ⟨h'.contracts.trans h.contracts, fun view'' hview'' => ?_⟩
  obtain ⟨view', hview', hcapable', hsides'⟩ := h'.view view'' hview''
  obtain ⟨view, hview, hcapable, hsides⟩ := h.view view' hview'
  refine ⟨view, hview, hcapable'.trans hcapable, fun id hid hdedicated => ?_⟩
  obtain ⟨hmem, hbefore⟩ := hsides' id hid hdedicated
  exact hsides id hmem hbefore

/-! ## Operations that dedicate no side window -/

/-- The views are the same, and no side window is newly dedicated. -/
theorem frees_windows (hcontracts : c'.commitContracts = c.commitContracts)
    (hviews : c'.views = c.views)
    (hsides : ∀ view, c.views.lookup f = some view → ∀ id ∈ view.layout.iterIds,
      c'.DedicatedSide id → c.DedicatedSide id) : Frees f c c' := by
  refine ⟨hcontracts, fun view hview => ?_⟩
  rw [hviews] at hview
  exact ⟨view, hview, rfl, fun id hid hdedicated => ⟨hid, hsides view hview id hid hdedicated⟩⟩

theorem frees_setView (hview : c.views.lookup fid = some view)
    (hcapable : view'.panelCapable = view.panelCapable) (hids : ∀ id ∈ view'.layout.iterIds,
    id ∈ view.layout.iterIds) : Frees f c (c.setView fid view') := by
  refine ⟨rfl, fun v hv => ?_⟩
  by_cases hf : f = fid
  · subst hf; rw [setView_lookup_self] at hv; cases hv
    exact ⟨view, hview, hcapable, fun id hid hdedicated => ⟨hids id hid, hdedicated⟩⟩
  rw [setView_lookup_of_ne _ _ _ hf] at hv
  exact ⟨v, hv, rfl, fun id hid hdedicated => ⟨hid, hdedicated⟩⟩

theorem frees_setActive (f fid : FrontendId) (c : EditorCore) (id : WindowId) :
    Frees f c (c.setActive fid id) := by
  cases hview : c.views.lookup fid with
  | none => rw [setActive, modifyView, hview]; exact .refl f c
  | some view => rw [setActive_of_lookup hview]; exact frees_setView hview rfl fun id hid => hid

theorem frees_sub (hcontracts : c'.commitContracts = c.commitContracts)
    (hviews : c'.views = c.views)
    (hwindows : ∀ id w', c'.windows id = some w' → ∃ w, c.windows id = some w ∧
      w'.isSide = w.isSide ∧ w'.params.dedicated = w.params.dedicated) : Frees f c c' := by
  refine frees_windows hcontracts hviews fun view _ id _ => ?_
  rintro ⟨w', hw', hside, hdedicated⟩
  obtain ⟨w, hw, hside', hdedicated'⟩ := hwindows id w' hw'
  exact ⟨w, hw, by rw [← hside']; exact hside, by rw [← hdedicated']; exact hdedicated⟩

theorem Writes.frees (h : Writes c c') (f : FrontendId) : Frees f c c' := by
  refine frees_sub h.commitContracts h.views fun id w' hw' => ?_
  obtain ⟨w, hw, hparams⟩ := h.window hw'
  exact ⟨w, hw, by rw [Window.isSide, hparams]; rfl, by rw [hparams]⟩

theorem frees_removeWindow (f : FrontendId) (c : EditorCore) (id : WindowId) :
    Frees f c (c.removeWindow id) := by
  refine frees_sub rfl rfl fun j w hw => ⟨w, ?_, rfl, rfl⟩
  by_cases hj : j = id
  · rw [hj, removeWindow_windows_self] at hw; cases hw
  · rwa [removeWindow_windows_of_ne _ _ hj] at hw

theorem frees_foldl_removeWindow (f : FrontendId) (ids : List WindowId) (c : EditorCore) :
    Frees f c (ids.foldl removeWindow c) := by
  induction ids generalizing c with
  | nil => exact .refl f c
  | cons id ids ih => exact (frees_removeWindow f c id).trans (ih (c.removeWindow id))

variable {g : Window → Window}

theorem frees_mapWindows
    (hg : ∀ w, (g w).isSide = w.isSide ∧ (g w).params.dedicated = w.params.dedicated) :
    Frees f c (c.mapWindows g) := by
  refine frees_sub rfl rfl fun id w' hw' => ?_
  obtain ⟨w, hw, rfl⟩ := map_eq_some_iff.1 hw'
  exact ⟨w, hw, (hg w).1, (hg w).2⟩

theorem frees_setWindow {id : WindowId} {w w' : Window} (hw : c.windows id = some w)
    (hside : w'.isSide = w.isSide)
    (hdedicated : ∀ view, c.views.lookup f = some view → id ∈ view.layout.iterIds →
      w.isSide → w'.params.dedicated → w.params.dedicated) : Frees f c (c.setWindow id w') := by
  refine frees_windows rfl rfl fun view hview j hj => ?_
  rintro ⟨v, hv, hv_side, hv_dedicated⟩
  by_cases hji : j = id
  · subst hji; rw [setWindow_windows_self, some.injEq] at hv; subst hv
    rw [hside] at hv_side; exact ⟨w, hw, hv_side, hdedicated view hview hj hv_side hv_dedicated⟩
  · rw [setWindow_windows_of_ne _ _ _ hji] at hv; exact ⟨v, hv, hv_side, hv_dedicated⟩

theorem frees_modifyWindow {id : WindowId} (hside : ∀ w, (g w).isSide = w.isSide)
    (hdedicated : ∀ view, c.views.lookup f = some view → id ∈ view.layout.iterIds →
      ∀ w, c.windows id = some w → w.isSide → (g w).params.dedicated → w.params.dedicated) :
    Frees f c (c.modifyWindow id g) := by
  unfold modifyWindow
  cases hw : c.windows id with
  | none => exact .refl f c
  | some w =>
    exact frees_setWindow hw (hside w) fun view hview hid => hdedicated view hview hid w hw

theorem frees_noteFocusTransition (from_ to_ : WindowId) :
    Frees f c (c.noteFocusTransition from_ to_) := by
  unfold noteFocusTransition
  split
  · exact .refl f c
  split
  · exact .refl f c
  · exact frees_modifyWindow (fun _ => rfl) fun _ _ _ _ _ _ hdedicated => hdedicated

theorem frees_forgetOrigin (f : FrontendId) (c : EditorCore) (side : WindowId) :
    Frees f c (c.forgetOrigin side) := by
  refine frees_mapWindows fun w => ?_
  split
  · exact ⟨rfl, rfl⟩
  · exact ⟨rfl, rfl⟩

theorem frees_focusWindow (f : FrontendId) (c : EditorCore) (fid : FrontendId)
    (target : WindowId) : Frees f c (c.focusWindow fid target) := by
  unfold focusWindow
  cases c.views.lookup fid with
  | none => exact .refl f c
  | some view =>
    exact (frees_setActive f fid c target).trans (frees_noteFocusTransition view.active target)

theorem frees_focusStep (f : FrontendId) {forward : Bool} (h : c.focusStep forward = some c') :
    Frees f c c' := by
  unfold focusStep at h
  cases hview : c.activeView with
  | none => rw [hview] at h; cases h
  | some view =>
    rw [hview] at h; cases h
    exact (frees_setActive f _ c _).trans (frees_noteFocusTransition view.active _)

theorem frees_split (hview : c.views.lookup fid = some view) {registry : Registry}
    {bufferId : BufferId} {text : Text} (orientation : Orientation) :
    Frees f c (({ c with registry := registry }.addWindow (.new bufferId (.new text))).1.setView
      fid { view with
        layout := view.layout.splitWindow view.active orientation c.nextWindow }) := by
  refine ⟨rfl, fun v hv => ?_⟩
  generalize hcore : ({ c with registry := registry }.addWindow (.new bufferId (.new text))).1 = c₁
    at hv ⊢
  have hviews : c₁.views = c.views := by rw [← hcore]; rfl
  have hnew : c₁.windows c.nextWindow = some (.new bufferId (.new text)) := by
    rw [← hcore]; exact setWindow_windows_self { c with registry := registry } c.nextWindow _
  have hold : ∀ id, id ≠ c.nextWindow → c₁.windows id = c.windows id := by
    intro id hne; rw [← hcore]
    exact setWindow_windows_of_ne { c with registry := registry } c.nextWindow _ hne
  have hsides : ∀ v id, (c₁.setView fid v).DedicatedSide id →
      id ≠ c.nextWindow ∧ c.DedicatedSide id := by
    rintro v id ⟨w, hw, hside, hdedicated⟩; replace hw : c₁.windows id = some w := hw
    by_cases hid : id = c.nextWindow
    · rw [hid, hnew] at hw; cases hw; cases hside
    · rw [hold id hid] at hw; exact ⟨hid, w, hw, hside, hdedicated⟩
  by_cases hf : f = fid
  · subst hf; rw [setView_lookup_self] at hv; cases hv
    refine ⟨view, hview, rfl, fun id hid hdedicated => ?_⟩
    obtain ⟨hne, hbefore⟩ := hsides _ id hdedicated
    refine ⟨?_, hbefore⟩
    rcases Layout.splitWindow_iterIds view.layout view.active orientation c.nextWindow with
      hsame | ⟨before, after, hids, hids'⟩
    · rw [← hsame]; exact hid
    rw [hids'] at hid; rw [hids]; simp only [mem_append, mem_cons] at hid ⊢
    tauto
  rw [setView_lookup_of_ne _ _ _ hf, hviews] at hv
  exact ⟨v, hv, rfl, fun id hid hdedicated => ⟨hid, (hsides _ id hdedicated).2⟩⟩

variable {orientation : Orientation}

theorem frees_splitActive (f : FrontendId) {sameBuffer : Bool}
    {answer : EditorCore × WindowId} (h : c.splitActive orientation sameBuffer = some answer) :
    Frees f c answer.1 := by
  obtain ⟨view, registry, bufferId, text, hview, -, -, hanswer⟩ := splitActive_cases h
  rw [hanswer]
  exact frees_split hview orientation

theorem frees_trySplitActive {sameBuffer : Bool}
    {answer : Answer WindowId} (h : c.trySplitActive orientation sameBuffer = some answer) :
    Frees f c answer.1 := by
  unfold trySplitActive at h
  cases hactive : c.activeWindowId with
  | none => rw [hactive] at h; cases h
  | some active =>
    rw [hactive] at h; dsimp only at h
    split at h
    · cases h; exact .refl f c
    · obtain ⟨split, hsplit, rfl⟩ := map_eq_some_iff.1 h; exact frees_splitActive f hsplit

variable {target : WindowId}

theorem closeWindow_sub {layout layout' : Layout} (h : layout.closeWindow target = some layout') :
    ∀ id ∈ layout'.iterIds, id ∈ layout.iterIds := by
  obtain ⟨before, after, hids, hids'⟩ := Layout.closeWindow_iterIds h
  intro id hid
  rw [hids'] at hid
  rw [hids]
  rcases mem_append.1 hid with hid | hid
  · exact mem_append_left _ hid
  · exact mem_append_right _ (mem_cons_of_mem _ hid)

variable {answer : EditorCore × Bool}

theorem frees_closeActive (h : c.closeActive = some answer) : Frees f c answer.1 := by
  unfold closeActive at h
  cases hview : c.activeView with
  | none => rw [hview] at h; cases h
  | some view =>
    rw [hview] at h; dsimp only at h
    split at h
    · cases h; exact .refl f c
    split at h
    · cases h
    cases h
    refine Frees.trans ?_ (frees_noteFocusTransition _ _)
    refine Frees.trans ?_ (frees_setActive f _ _ _)
    refine Frees.trans ?_ (frees_removeWindow f _ _)
    refine frees_setView hview rfl fun id hid => ?_
    cases hclose : view.layout.closeWindow view.active with
    | none => rwa [hclose] at hid
    | some layout' => rw [hclose] at hid; exact closeWindow_sub hclose id hid

theorem frees_closeOthers {answer : Answer Unit}
    (h : c.closeOthers = some answer) : Frees f c answer.1 := by
  unfold closeOthers at h
  cases hview : c.activeView with
  | none => rw [hview] at h; cases h
  | some view =>
    rw [hview] at h; dsimp only at h
    split at h
    · cases h; exact .refl f c
    cases h
    refine Frees.trans ?_ (frees_foldl_removeWindow f _ _)
    refine frees_setView hview rfl fun id hid => ?_
    cases hkeep : view.layout.keepOnly view.active with
    | none => rwa [hkeep] at hid
    | some layout' =>
      rw [hkeep] at hid; obtain ⟨rfl, hmem⟩ := Layout.keepOnly_eq_some hkeep
      rw [mem_singleton.1 hid]; exact hmem

theorem frees_removeSideWindow (f : FrontendId) {side : WindowId}
    (h : c.removeSideWindow fid side = some c') : Frees f c c' := by
  unfold removeSideWindow at h
  cases hview : c.views.lookup fid with
  | none => rw [hview] at h; cases h; exact .refl f c
  | some view =>
    rw [hview] at h; dsimp only at h
    cases hclose : view.layout.closeWindow side with
    | none => rw [hclose] at h; cases h; exact .refl f c
    | some layout =>
      rw [hclose] at h; dsimp only at h
      have hremove : ∀ active, Frees f c ((c.setView fid
          { view with layout := layout, panelHidden := false, active := active }).removeWindow
            side) := by
        intro active
        refine Frees.trans ?_ (frees_removeWindow f _ side)
        exact frees_setView hview rfl (closeWindow_sub hclose)
      split at h
      · split at h
        · cases h
        case h_2 fallback _ =>
          cases h
          refine Frees.trans ?_ (frees_forgetOrigin f _ side)
          split
          · exact (hremove fallback).trans (frees_setActive f fid _ _)
          · exact hremove fallback
      · cases h; exact (hremove view.active).trans (frees_forgetOrigin f _ side)

theorem frees_removeSides (f : FrontendId) {sides : List (FrontendId × WindowId)}
    (h : removeSides sides c = some c') : Frees f c c' := by
  induction sides generalizing c with
  | nil => cases h; exact .refl f _
  | cons e sides ih =>
    obtain ⟨c₁, hremove, hrest⟩ := bind_eq_some_iff.1 h
    exact (frees_removeSideWindow f hremove).trans (ih hrest)

theorem frees_setRegistry (f : FrontendId) (c : EditorCore) (registry : Registry) :
    Frees f c { c with registry := registry } :=
  frees_sub rfl rfl fun _ w hw => ⟨w, hw, rfl, rfl⟩

theorem frees_switchShowing (f : FrontendId) (c : EditorCore) (bufferId fallback : BufferId)
    (text : Text) : Frees f c (c.mapWindows fun w =>
      if w.bufferId = bufferId then w.switchTo fallback text else w) := by
  refine frees_mapWindows fun w => ?_
  split
  · exact ⟨rfl, rfl⟩
  · exact ⟨rfl, rfl⟩

theorem frees_killBuffer {scratch : Option BufferId} {midEdit : Bool}
    {bufferId : BufferId} {answer : Answer Unit}
    (h : c.killBuffer scratch midEdit bufferId = some answer) : Frees f c answer.1 := by
  unfold killBuffer at h
  split at h
  · cases h; exact .refl f c
  split at h
  · cases h; exact .refl f c
  have hfallback : Frees f c (c.fallbackBufferFor scratch bufferId).1 := by
    unfold fallbackBufferFor; dsimp only
    split
    · exact .refl f c
    split
    · exact .refl f c
    · exact frees_setRegistry f c _
  generalize c.fallbackBufferFor scratch bufferId = fallback at h hfallback
  obtain ⟨c₁, fallback⟩ := fallback; dsimp only at h hfallback
  cases hremove : removeSides (c₁.doomedSides bufferId) c₁ with
  | none => rw [hremove] at h; cases h
  | some c₂ =>
    rw [hremove] at h; have hremoved := hfallback.trans (frees_removeSides f hremove)
    dsimp only at h
    split at h
    · cases h; exact hremoved
    have hmapped := fun text => hremoved.trans (frees_switchShowing f c₂ bufferId fallback text)
    split at h
    · cases h; exact (hmapped _).trans (frees_setRegistry f _ _)
    · cases h; exact hmapped _

/-! ## Frames, and views that go -/

theorem frees_declareFrameGeometry (f : FrontendId) (c : EditorCore) (fid : FrontendId)
    (total : CellSize) : Frees f c (c.declareFrameGeometry fid total).1 := by
  unfold declareFrameGeometry
  cases hview : c.views.lookup fid with
  | none => exact .refl f c
  | some view =>
    dsimp only
    split
    · exact .refl f c
    cases view.frameGeometry with
    | none => exact frees_setView hview rfl fun id hid => hid
    | some geometry =>
      dsimp only
      by_cases hlt : geometry.geometryEpoch < u64Max
      · rw [if_pos hlt]; exact frees_setView hview rfl fun id hid => hid
      · rw [if_neg hlt]; exact frees_setView hview rfl fun id hid => hid

theorem frees_acceptFrameGeometry (f : FrontendId) (c : EditorCore) (fid : FrontendId)
    (geometryEpoch : ℕ) (total : CellSize) :
    Frees f c (c.acceptFrameGeometry fid geometryEpoch total).1 := by
  unfold acceptFrameGeometry
  cases hview : c.views.lookup fid with
  | none => exact .refl f c
  | some view =>
    dsimp only
    split
    · exact frees_setView hview rfl fun id hid => hid
    · exact .refl f c

theorem frees_reconcile (f : FrontendId) (c : EditorCore) (fid : FrontendId) :
    Frees f c (c.reconcilePanelLayoutCore fid).1 := by
  unfold reconcilePanelLayoutCore
  cases hview : c.views.lookup fid with
  | none => exact .refl f c
  | some view =>
    dsimp only
    cases c.sideWindowFor fid with
    | none => exact frees_setView hview rfl fun id hid => hid
    | some side =>
      dsimp only; generalize (c.presentablePanelGrid fid).isNone = hidden
      have hset : Frees f c (c.setView fid { view with panelHidden := hidden }) :=
        frees_setView hview rfl fun id hid => hid
      split
      · exact hset
      split
      · dsimp only
        split
        · exact hset.trans (frees_setActive f fid _ _)
        · exact hset
      · exact hset

theorem frees_take (f : FrontendId) (c : EditorCore) (fid : FrontendId) :
    Frees f c (c.takeFrontendView fid).1 := by
  refine ⟨rfl, fun view hview => ?_⟩
  by_cases hf : f = fid
  · rw [hf, takeFrontendView_lookup_self] at hview; cases hview
  rw [takeFrontendView_lookup_of_ne hf] at hview
  exact ⟨view, hview, rfl, fun id hid hdedicated => ⟨hid, hdedicated⟩⟩

theorem frees_discard (f : FrontendId) (c : EditorCore) (view : FrontendView) :
    Frees f c (c.discardViewWindows view) := frees_foldl_removeWindow f _ c

theorem frees_unregister (f : FrontendId) (c : EditorCore) (fid : FrontendId) :
    Frees f c (c.unregisterFrontendView fid) := by
  have htake := frees_take f c fid
  unfold unregisterFrontendView
  generalize c.takeFrontendView fid = taken at htake ⊢
  obtain ⟨c₁, _ | view⟩ := taken
  · exact htake
  · exact htake.trans (frees_discard f c₁ view)

/-! ## Typing, moving and jumping -/

theorem frees_pushJump (f : FrontendId) (h : c.pushJump = some c') : Frees f c c' := by
  unfold pushJump at h
  split at h
  · cases h
  split at h
  · cases h
  · cases h; exact frees_sub rfl rfl fun _ w hw => ⟨w, hw, rfl, rfl⟩

theorem frees_landJump {entry : JumpEntry}
    (h : c.landJump entry = some answer) : Frees f c answer.1 := by
  obtain ⟨c', hset, rfl⟩ := map_eq_some_iff.1 h
  exact (writes_modifyActive (quiet_motion (.setCursorByte entry.position)) hset).frees f

theorem frees_jumpBackTo {ring : List JumpEntry}
    (h : c.jumpBackTo fid ring = some answer) : Frees f c answer.1 := by
  have hring : ∀ entries, Frees f c { c with jumpRing := Function.update c.jumpRing fid entries } :=
    fun entries => frees_sub rfl rfl fun _ w hw => ⟨w, hw, rfl, rfl⟩
  induction ring with
  | nil => cases h; exact hring []
  | cons entry ring ih =>
    have hring₁ := hring ring.reverse; rw [jumpBackTo] at h
    split at h
    · exact ih h
    split at h
    · exact (hring₁.trans (frees_focusWindow f _ fid entry.windowId)).trans (frees_landJump h)
    split at h
    · exact ih h
    split at h
    · exact hring₁.trans (frees_landJump h)
    have hswitch := (writes_switchActiveBufferFor
      { c with jumpRing := Function.update c.jumpRing fid ring.reverse } fid entry.bufferId).frees f
    generalize EditorCore.switchActiveBufferFor _ fid entry.bufferId = answer at hswitch h
    obtain ⟨c₂, e | _⟩ := answer
    · exact ih h
    · exact (hring₁.trans hswitch).trans (frees_landJump h)

/-! ## What a panel commit refuses -/

/-- A panel commit of the frontend is running. -/
def Restricted (f : FrontendId) (c : EditorCore) : Prop :=
  ∃ contract ∈ c.commitContracts, contract.profile = .panel ∧ contract.destination.frontend = f

theorem restricted_iff : Restricted f c ↔ (c.panelCommitDedicationRefusal f).isSome := by
  have hany : (c.commitContracts.any fun contract =>
      contract.profile = .panel && contract.destination.frontend = f) ↔ Restricted f c := by
    rw [List.any_eq_true]; simp only [Bool.and_eq_true, decide_eq_true_eq]; rfl
  rw [← hany]
  unfold panelCommitDedicationRefusal
  cases c.commitContracts.any fun contract =>
    contract.profile = .panel && contract.destination.frontend = f with
  | true => simp
  | false => simp

variable {request : DisplayRequest}

theorem frees_applyCreated (h : Ok retained c) (hrefused : request.dedicated = some true →
    fid ≠ f) : Frees f c (c.applyCreated fid request c.nextWindow).1 := by
  rcases applyCreated_cases c fid request c.nextWindow with ⟨e, heq⟩ | ⟨rows, text, -, heq⟩
  · rw [heq]; exact .refl f c
  rw [heq]
  set window := c.sideWindow fid request rows text
  set c₁ := c.withWindow c.nextWindow window
  have hsides : ∀ id, id ≠ c.nextWindow → c₁.DedicatedSide id → c.DedicatedSide id := by
    rintro id hne ⟨w, hw, hside, hw_dedicated⟩
    exact ⟨w, (setWindow_windows_of_ne c _ window hne).symm.trans hw, hside, hw_dedicated⟩
  have hfresh : ∀ view, c.views.lookup f = some view → ∀ id ∈ view.layout.iterIds,
      id ≠ c.nextWindow := by
    intro view hview id hid
    exact Nat.ne_of_lt (h.table.lt ((h.viewOk hview).layout.live id hid))
  unfold modifyView
  split
  case h_2 =>
    exact frees_windows rfl rfl fun view hview id hid => hsides id (hfresh view hview id hid)
  case h_1 view hview =>
    refine ⟨rfl, fun v hv => ?_⟩
    by_cases hf : f = fid
    · subst hf; rw [setView_lookup_self] at hv; cases hv
      refine ⟨view, hview, rfl, fun id hid hid_dedicated => ?_⟩
      replace hid_dedicated : c₁.DedicatedSide id := hid_dedicated
      rw [Layout.installSideLeaf_iterIds] at hid
      rcases mem_append.1 hid with hid | hid
      · exact ⟨hid, hsides id (hfresh view hview id hid) hid_dedicated⟩
      -- the window that is made is not dedicated
      obtain ⟨w, hw, -, hw_dedicated⟩ := hid_dedicated
      rw [mem_singleton.1 hid, show c₁.windows c.nextWindow = some window from
        setWindow_windows_self c _ window] at hw
      cases hw; replace hw_dedicated : request.dedicated.getD false = true := hw_dedicated
      cases hrequest : request.dedicated with
      | none => rw [hrequest] at hw_dedicated; cases hw_dedicated
      | some requested =>
        rw [hrequest, getD_some] at hw_dedicated; rw [hw_dedicated] at hrequest
        exact absurd rfl (hrefused hrequest)
    rw [setView_lookup_of_ne _ _ _ hf] at hv
    exact ⟨v, hv, rfl, fun id hid hid_dedicated =>
      ⟨hid, hsides id (hfresh v hv id hid) hid_dedicated⟩⟩

theorem frees_applyReused
    {target : WindowId} (replacing : Bool) (hrefused : request.dedicated = some true →
      ∀ view, c.views.lookup f = some view → target ∉ view.layout.iterIds) :
    Frees f c (c.applyReused request target replacing).1 := by
  unfold applyReused
  cases c.windows target with
  | none => exact .refl f c
  | some outgoing =>
    have hinstall := writes_installBufferInWindow c target request.bufferId; dsimp only
    generalize c.installBufferInWindow target request.bufferId = installed at hinstall ⊢
    obtain ⟨c₁, e | _⟩ := installed
    · exact hinstall.frees f
    dsimp only
    cases request.height.mapM clampPanelRows with
    | error e => exact hinstall.frees f
    | ok height =>
      refine (hinstall.frees f).trans (frees_modifyWindow (fun w => ?_) ?_)
      · cases replacing with
        | true | false => rfl
      intro view hview hmem w hw hside hdedicated
      have hnot : request.dedicated ≠ some true := by
        intro hrequest; have hviews : c₁.views = c.views := hinstall.views; rw [hviews] at hview
        exact hrefused hrequest view hview hmem
      cases hrequest : request.dedicated with
      | none =>
        rw [hrequest] at hdedicated
        cases replacing with
        | true => cases hdedicated
        | false => exact hdedicated
      | some requested =>
        have hrequested : requested = false := by
          rw [hrequest] at hnot
          cases requested with
          | true => exact absurd rfl hnot
          | false => rfl
        rw [hrequest, hrequested] at hdedicated
        cases replacing with
        | true | false => cases hdedicated

theorem frees_applyOrdinary
    (hdocument : c.isSide target = false) : Frees f c (c.applyOrdinary request target).1 := by
  unfold applyOrdinary
  have hinstall := writes_installBufferInWindow c target request.bufferId
  dsimp only
  generalize c.installBufferInWindow target request.bufferId = installed at hinstall ⊢
  obtain ⟨c₁, e | _⟩ := installed
  · exact hinstall.frees f
  refine (hinstall.frees f).trans (frees_modifyWindow (fun w => rfl) ?_)
  intro view _ _ w hw hside _; rw [← hinstall.keeps.isSide, isSide, hw] at hdocument
  exact absurd hside (Bool.eq_false_iff.1 hdocument)

/-- A display by a frontend inside a panel commit of it dedicates no side window of it. -/
theorem frees_displayBuffer (h : Ok retained c) (hcommit : Restricted f c) (fid : FrontendId)
    (request : DisplayRequest) : Frees f c (c.displayBuffer fid request).1 := by
  have hrefused : (request.dedicated = some true → c.panelCommitDedicationRefusal fid = none) →
      request.dedicated = some true → fid ≠ f := by
    rintro hallowed hrequest rfl
    rw [restricted_iff, hallowed hrequest] at hcommit; cases hcommit
  refine displayBuffer_leaves (.refl f c) (fun target => frees_applyOrdinary) ?_
    fun _ hallowed => frees_applyCreated h (hrefused hallowed)
  intro target replacing view' _ hview' hmem hallowed
  refine frees_applyReused replacing fun hrequest v hv hmem' => ?_
  have hplace : Place.shown fid = .shown f :=
    h.apart (.shown fid) (.shown f) view' v target hview' hv hmem hmem'
  cases hplace; exact hrefused hallowed hrequest rfl

theorem frees_quitWindow (h : Ok retained c) (hcommit : Restricted f c)
    (howns : c.ownsWindow fid target) {answer : Answer QuitOutcome}
    (hquit : c.quitWindow fid target = some answer) : Frees f c answer.1 := by
  rcases quitWindow_cases hquit with ⟨e, rfl⟩ | ⟨c₁, hremove, hanswer, -⟩ |
    ⟨bufferId, dedicated, outcome, g, hallowed, hkeeps, rfl⟩
  · exact .refl f c
  · have hfrees := frees_removeSideWindow f hremove
    rcases hanswer with hanswer | ⟨origin, hanswer⟩
    · rw [hanswer]; exact hfrees
    · rw [hanswer]; exact hfrees.trans (frees_setActive f fid c₁ _)
  have hinstall := writes_installBufferInWindow c target bufferId
  refine (hinstall.frees f).trans (frees_modifyWindow (fun w => (hkeeps w).1) ?_)
  intro view hview hmem w hw hside hdedicated
  obtain ⟨view', hview', hmem'⟩ := ownsWindow_iff.1 howns
  rw [hinstall.views] at hview
  have hplace : Place.shown fid = .shown f :=
    h.apart (.shown fid) (.shown f) view' view target hview' hview hmem' hmem
  cases hplace
  have hside' : c.isSide target = true := by rw [← hinstall.keeps.isSide, isSide, hw]; exact hside
  rw [(hkeeps w).2] at hdedicated
  rw [restricted_iff, hallowed (by rw [hside', hdedicated]; rfl)] at hcommit; cases hcommit

theorem frees_setParams (h : Ok retained c) (hcommit : Restricted f c)
    (howns : c.ownsWindow fid target) (fixedRows : Option ℕ) (dedicated : Option Bool) :
    Frees f c (c.setParams fid target fixedRows dedicated).1 := by
  unfold setParams
  cases fixedRows.mapM clampPanelRows with
  | error e => exact .refl f c
  | ok height =>
    dsimp only
    generalize hrefusal : (if dedicated = some true ∧ c.isSide target then
      c.panelCommitDedicationRefusal fid else none) = refusal
    cases refusal with
    | some reason => exact .refl f c
    | none =>
      cases hw : c.windows target with
      | none => exact .refl f c
      | some window =>
        refine frees_setWindow hw rfl fun view hview hmem hside hdedicated => ?_
        cases hrequest : dedicated with
        | none => rwa [hrequest] at hdedicated
        | some requested =>
          rw [hrequest, getD_some] at hdedicated; have htrue : requested = true := hdedicated
          obtain ⟨view', hview', hmem'⟩ := ownsWindow_iff.1 howns
          have hplace : Place.shown fid = .shown f :=
            h.apart (.shown fid) (.shown f) view' view target hview' hview hmem' hmem
          cases hplace
          have hside' : c.isSide target = true := by rw [isSide, hw]; exact hside
          rw [if_pos ⟨by rw [hrequest, htrue], hside'⟩] at hrefusal
          rw [restricted_iff, hrefusal] at hcommit; cases hcommit

/-! ## Where a side request lands -/

/-- A side request of a frontend whose panel takes it lands in no document window. -/
theorem side_placement (h : Free f c) (hside : request.side.isSome) {placement : Placement}
    (hresolve : c.resolvePlacement f request = .ok placement) : placement.kind.isSide := by
  unfold resolvePlacement at hresolve
  split at hresolve
  · cases hresolve
  case isFalse hboth =>
    cases hview : c.views.lookup f with
    | none => rw [hview] at hresolve; cases hresolve
    | some view =>
      obtain ⟨hcapable, hfree⟩ := h view hview
      have hwindow : request.window = none := by
        rw [hside, Bool.and_true] at hboth; exact not_isSome_iff_eq_none.1 hboth
      rw [hview, hwindow] at hresolve; dsimp only at hresolve
      rw [hside, hcapable, Bool.and_true, if_pos rfl] at hresolve
      cases hwindowFor : c.sideWindowFor f with
      | none => rw [hwindowFor] at hresolve; cases hresolve; rfl
      | some side =>
        rw [hwindowFor] at hresolve; dsimp only at hresolve
        obtain ⟨v, hv, hmem, hpinned⟩ := sideWindowFor_eq_some hwindowFor; rw [hview] at hv
        cases hv
        cases hw : c.windows side with
        | none => rw [hw] at hresolve; cases hresolve
        | some window =>
          rw [hw] at hresolve; dsimp only at hresolve
          split at hresolve
          · cases hresolve; rfl
          split at hresolve
          · cases hresolve; rfl
          case isFalse hdedicated =>
            rw [Bool.not_eq_true', Bool.not_eq_false] at hdedicated; rw [isSide, hw] at hpinned
            exact absurd ⟨window, hw, hpinned, hdedicated⟩ (hfree side hmem)

end EditorCore

end Pmacs.Display
