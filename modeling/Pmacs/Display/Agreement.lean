/-
  The views and the window table agree along every run.

  * `ok_attach`, `ok_resume`, `ok_unregister`, `ok_lose`, `ok_expire`: views that come and go;
  * `exists_typing`, `exists_motion`, `ok_jumpBackTo`: what is typed, and the jumps;
  * `ok_step`: every event keeps the agreement, and none panics;
  * `views_consistent`: what holds of every view after every run.
-/
import Pmacs.Display.Operations
import Pmacs.Lib.Fallible

namespace Pmacs.Display

open Lib AList Function List Option

namespace EditorCore

variable {c c' : EditorCore} {retained : Assoc ℕ FrontendView} {fid : FrontendId}
  {view view' : FrontendView}

/-! ## Views that come -/

variable {id : WindowId}

theorem Builds.kind_old {made : List WindowId} (h : Builds c c' made) (htable : TableOk c)
    (hid : (c.kind id).isSome) : c'.kind id = c.kind id := by
  unfold kind
  rw [h.others id fun hmem =>
    lt_irrefl _ (lt_of_lt_of_le (htable.lt hid) (h.fresh id hmem).1)]

theorem Builds.kind_made {made : List WindowId} (h : Builds c c' made)
    (hid : id ∈ made) : c'.kind id = some false := by
  obtain ⟨w, hw, hmade⟩ := h.made id hid
  unfold kind
  rw [hw, map_some, Window.isSide, hmade.params]
  rfl

theorem Ok.builds (h : Ok retained c) {made : List WindowId} (hbuilds : Builds c c' made) :
    Ok retained c' := by
  have hviewAt : ∀ p, c'.viewAt retained p = c.viewAt retained p := by
    intro p
    cases p with
    | shown fid => rw [viewAt, viewAt, hbuilds.views]
    | kept token => rfl
  refine h.of_places (h.table.builds hbuilds) (.shown LOCAL) id ?_ (fun p q _ _ heq => heq)
    (by rw [hbuilds.views]; exact h.localView)
  intro p v hv
  rw [hviewAt] at hv
  have hok := h.views p v hv
  exact ⟨hok.congr fun id hid => hbuilds.kind_old h.table (hok.layout.live id hid),
    fun id hid => .inr ⟨v, hv, hid⟩⟩

section
variable (h : Ok retained c)
include h

/-- `LOCAL` has a document for a fresh view to be made on. -/
theorem builds_buildFreshFrontendView (panelCapable : Bool) :
    ∃ built, c.buildFreshFrontendView panelCapable = some built ∧
      Builds c built.1 built.2.layout.iterIds ∧ built.2.active ∈ built.2.layout.iterIds := by
  obtain ⟨view, hview⟩ := isSome_iff_exists.1 h.localView
  have hok := h.viewOk hview
  obtain ⟨document, hdocument, hmem⟩ : ∃ document, c.primaryDocumentWindow LOCAL = some document ∧
      document ∈ view.layout.iterIds := by
    rw [primaryDocumentWindow, hview, bind_some]
    split
    · exact ⟨view.active, rfl, hok.active⟩
    obtain ⟨target, htarget, hmem, -⟩ := nonSideTarget_ok hview hok.active hok.layout.document
    exact ⟨target, by rw [htarget]; rfl, hmem⟩
  obtain ⟨w, hw⟩ := live_window (hok.layout.live document hmem)
  obtain ⟨text, hget⟩ := get_of_shown h.table hw
  rw [buildFreshFrontendView, hdocument, bind_some, hw]
  dsimp only
  rw [hget]
  refine ⟨_, rfl, builds_addWindow ⟨rfl, text, hget, rfl, Nat.zero_le _, ?_, ?_⟩,
    mem_singleton_self _⟩
  · exact nofun
  · exact TextView.lines_pos text

theorem builds_attachView (desktop : Option SavedDesktop) (panelCapable : Bool) :
    ∃ built made, c.attachView desktop panelCapable = some built ∧ Builds c built.1 made ∧
      built.2.active ∈ built.2.layout.iterIds ∧ built.2.layout.iterIds.Nodup ∧
      ∀ id ∈ built.2.layout.iterIds, id ∈ made := by
  unfold attachView
  cases desktop with
  | none =>
    obtain ⟨built, hbuilt, hbuilds, hactive⟩ := builds_buildFreshFrontendView h panelCapable
    exact ⟨built, _, hbuilt, hbuilds, hactive, hbuilds.nodup, fun id hid => hid⟩
  | some saved =>
    obtain ⟨made, hbuilds, hview⟩ := builds_restoreForAttach c saved panelCapable; dsimp only
    generalize c.restoreForAttach saved panelCapable = restored at hbuilds hview ⊢
    obtain ⟨c₁, _ | view⟩ := restored
    · obtain ⟨built, hbuilt, hbuilds', hactive⟩ :=
        builds_buildFreshFrontendView (h.builds hbuilds) panelCapable
      exact ⟨built, _, hbuilt, hbuilds.trans hbuilds', hactive, hbuilds'.nodup,
        fun id hid => mem_append_right _ hid⟩
    obtain ⟨hids, hactive⟩ := hview view rfl
    exact ⟨(c₁, view), made, rfl, hbuilds, by rw [hids]; exact hactive,
      by rw [hids]; exact hbuilds.nodup, fun id hid => by rw [← hids]; exact hid⟩

/-- The view of a frontend that attaches is of windows of its own. -/
theorem ok_attach {made : List WindowId} (hbuilds : Builds c c' made)
    (hactive : view.active ∈ view.layout.iterIds) (hnodup : view.layout.iterIds.Nodup)
    (hmade : ∀ id ∈ view.layout.iterIds, id ∈ made) :
    Ok retained (c'.registerFrontendView fid view) := by
  have hkind : ∀ id ∈ view.layout.iterIds,
      (c'.registerFrontendView fid view).kind id = some false :=
    fun id hid => hbuilds.kind_made (hmade id hid)
  refine h.act ((h.table.builds hbuilds).setView fid view) ⟨hactive, ?_⟩
    (setView_lookup_self c' fid view) (fun g hg => ?_)
    (fun id hid _ => hbuilds.kind_old h.table hid) fun id hid => .inr (hbuilds.fresh id
      (hmade id hid)).1
  · refine ⟨?_, hnodup, ⟨view.active, hactive, ?_⟩, ?_⟩
    · intro id hid; rw [hkind id hid]; rfl
    · rw [isSide_eq, hkind view.active hactive]; rfl
    · intro id hid hside; rw [isSide_eq, hkind id hid] at hside; cases hside
  · rw [registerFrontendView, setView_lookup_of_ne _ _ _ hg, hbuilds.views]

theorem ok_resume {token : ℕ} (hview : retained.lookup token = some view)
    (hlayout : view'.layout = view.layout) (hactive : view'.active = view.active) :
    Ok (retained.erase token) (c.registerFrontendView fid view') := by
  have hself := setView_lookup_self c fid view'
  have hkept : ∀ t, t ≠ token → (retained.erase token).lookup t = retained.lookup t :=
    fun t ht => lookup_erase_ne ht
  have hgone : (retained.erase token).lookup token = none := lookup_erase token retained
  refine h.of_places (h.table.setView fid view') (.shown fid)
    (fun p => if p = .shown fid then .kept token else p) ?_ ?_ ?_
  · intro p v hv
    by_cases hp : p = .shown fid
    · rw [hp] at hv; have hv' : v = view' := (some.inj (hself.symm.trans hv)).symm
      rw [if_pos hp, hv', hlayout]; have hok := h.views (.kept token) view hview
      refine ⟨⟨by rw [hactive, hlayout]; exact hok.active, ?_⟩, fun id hid => .inr ⟨view, hview, hid⟩⟩
      rw [hlayout]; exact hok.layout.congr fun _ _ => rfl
    have hv' : c.viewAt retained p = some v := by
      cases p with
      | shown g => rw [← hv]; exact (setView_lookup_of_ne c fid view' (by simpa using hp)).symm
      | kept t =>
        have ht : t ≠ token := by
          rintro rfl; rw [viewAt, hgone] at hv; cases hv
        rw [← hv]; exact (hkept t ht).symm
    rw [if_neg hp]
    exact ⟨(h.views p v hv').congr fun _ _ => rfl, fun id hid => .inr ⟨v, hv', hid⟩⟩
  · intro p q hp hq heq
    have hnot : ∀ p, (viewAt (c.registerFrontendView fid view') (retained.erase token) p).isSome →
        p ≠ .kept token := by
      rintro p hsome rfl; rw [viewAt, hgone] at hsome; cases hsome
    by_cases hp' : p = .shown fid
    · by_cases hq' : q = .shown fid
      · rw [hp', hq']
      · rw [if_pos hp', if_neg hq'] at heq; exact absurd heq.symm (hnot q hq)
    by_cases hq' : q = .shown fid
    · rw [if_neg hp', if_pos hq'] at heq; exact absurd heq (hnot p hp)
    · rwa [if_neg hp', if_neg hq'] at heq
  by_cases hlocal : LOCAL = fid
  · rw [hlocal, registerFrontendView, hself]; rfl
  · rw [registerFrontendView, setView_lookup_of_ne _ _ _ hlocal]; exact h.localView

/-! ## Views that go -/

theorem ok_discard {retained' : Assoc ℕ FrontendView} {p₀ : Place}
    (hview : c.viewAt retained p₀ = some view) (htable : TableOk c')
    (hplaces : ∀ p v, c'.viewAt retained' p = some v → p ≠ p₀ ∧ c.viewAt retained p = some v)
    (hkind : ∀ id ∉ view.layout.iterIds, c'.kind id = c.kind id)
    (hlocal : (c'.views.lookup LOCAL).isSome) : Ok retained' c' := by
  refine h.of_places htable p₀ id ?_ (fun p q _ _ heq => heq) hlocal
  intro p v hv
  obtain ⟨hne, hv'⟩ := hplaces p v hv
  refine ⟨(h.views p v hv').congr fun id hid => hkind id fun hmem => ?_,
    fun id hid => .inr ⟨v, hv', hid⟩⟩
  exact hne (h.apart p p₀ v view id hv' hview hid hmem)

end

theorem discardViewWindows_eq (c : EditorCore) (view : FrontendView) :
    ∃ gone : List WindowId, (∀ id ∈ gone, id ∈ view.layout.iterIds) ∧ c.discardViewWindows view =
      { c with windows := fun j => if j ∈ gone then none else c.windows j } :=
  ⟨view.layout.iterIds.filter fun id => id ∉ c.stillShown,
    fun _ hid => mem_of_mem_filter hid, foldl_removeWindow_eq⟩

theorem discardViewWindows_views {c : EditorCore} :
    (c.discardViewWindows view).views = c.views := by
  obtain ⟨gone, -, heq⟩ := c.discardViewWindows_eq view
  rw [heq]

theorem discardViewWindows_kind (hid : id ∉ view.layout.iterIds) :
    (c.discardViewWindows view).kind id = c.kind id := by
  obtain ⟨gone, hgone, heq⟩ := c.discardViewWindows_eq view
  rw [heq]
  unfold kind
  dsimp only
  rw [if_neg fun hmem => hid (hgone id hmem)]

theorem TableOk.discard (h : TableOk c) : TableOk (c.discardViewWindows view) := by
  obtain ⟨gone, -, heq⟩ := c.discardViewWindows_eq view
  rw [heq]
  refine h.sub (fun id w hw => ?_) rfl rfl
  dsimp only at hw
  split at hw
  · cases hw
  · exact hw

theorem takeFrontendView_lookup_of_ne {g : FrontendId} (h : g ≠ fid) :
    (c.takeFrontendView fid).1.views.lookup g = c.views.lookup g := lookup_erase_ne h

theorem takeFrontendView_lookup_self : (c.takeFrontendView fid).1.views.lookup fid = none :=
  lookup_erase fid c.views

theorem TableOk.take (h : TableOk c) (fid : FrontendId) : TableOk (c.takeFrontendView fid).1 :=
  ⟨h.old, h.shown, h.quits, h.registry⟩

theorem viewAt_of_take {p : Place} (hv : (c.takeFrontendView fid).1.viewAt retained p = some view) :
    p ≠ .shown fid ∧ c.viewAt retained p = some view := by
  cases p with
  | kept token => exact ⟨by simp, hv⟩
  | shown g =>
    by_cases hg : g = fid
    · rw [hg, viewAt, takeFrontendView_lookup_self] at hv; cases hv
    · exact ⟨by simpa using hg, by rw [← hv]; exact (takeFrontendView_lookup_of_ne hg).symm⟩

section
variable (h : Ok retained c)
include h

theorem ok_take (hlocal : fid ≠ LOCAL) : Ok retained (c.takeFrontendView fid).1 := by
  refine h.of_places (h.table.take fid) (.shown fid) id (fun p v hv => ?_)
    (fun p q _ _ heq => heq) ?_
  · have hv' := (viewAt_of_take hv).2
    exact ⟨(h.views p v hv').congr fun _ _ => rfl, fun id hid => .inr ⟨v, hv', hid⟩⟩
  · rw [takeFrontendView_lookup_of_ne hlocal.symm]; exact h.localView

theorem ok_unregister (hlocal : fid ≠ LOCAL) : Ok retained (c.unregisterFrontendView fid) := by
  have hlocalView : ((c.takeFrontendView fid).1.views.lookup LOCAL).isSome := by
    rw [takeFrontendView_lookup_of_ne hlocal.symm]; exact h.localView
  unfold unregisterFrontendView
  cases hview : c.views.lookup fid with
  | none =>
    rw [show c.takeFrontendView fid = ((c.takeFrontendView fid).1, none) from
      Prod.ext rfl hview]
    exact ok_take h hlocal
  | some view =>
    rw [show c.takeFrontendView fid = ((c.takeFrontendView fid).1, some view) from
      Prod.ext rfl hview]
    have hplace : c.viewAt retained (.shown fid) = some view := hview
    refine ok_discard h hplace ((h.table.take fid).discard) (fun p v hv => ?_)
      (fun id hid => discardViewWindows_kind hid) ?_
    · refine viewAt_of_take ?_; rw [← hv]
      cases p with
      | shown g => rw [viewAt, viewAt, discardViewWindows_views]
      | kept token => rfl
    · rw [discardViewWindows_views]; exact hlocalView

theorem ok_lose (hlocal : fid ≠ LOCAL) (hview : c.views.lookup fid = some view)
    (token : ℕ) : Ok (retained.insert token view) (c.takeFrontendView fid).1 := by
  have hlocalView : ((c.takeFrontendView fid).1.views.lookup LOCAL).isSome := by
    rw [takeFrontendView_lookup_of_ne hlocal.symm]; exact h.localView
  have hnot : ∀ p v, (c.takeFrontendView fid).1.viewAt (retained.insert token view) p = some v →
      p ≠ .kept token → p ≠ .shown fid ∧ c.viewAt retained p = some v := by
    intro p v hv hp
    cases p with
    | shown g => exact @viewAt_of_take c retained fid v (.shown g) hv
    | kept t =>
      have ht : t ≠ token := by simpa using hp
      exact ⟨by simp, by rw [← hv]; exact (lookup_insert_ne ht).symm⟩
  refine h.of_places (h.table.take fid) (.shown fid)
    (fun p => if p = .kept token then .shown fid else p) ?_ ?_ hlocalView
  · intro p v hv
    by_cases hp : p = .kept token
    · rw [hp, viewAt, lookup_insert] at hv; cases hv; rw [if_pos hp]
      exact ⟨(h.viewOk hview).congr fun _ _ => rfl, fun id hid => .inr ⟨view, hview, hid⟩⟩
    obtain ⟨-, hv'⟩ := hnot p v hv hp; rw [if_neg hp]
    exact ⟨(h.views p v hv').congr fun _ _ => rfl, fun id hid => .inr ⟨v, hv', hid⟩⟩
  intro p q hp hq heq; obtain ⟨v, hv⟩ := isSome_iff_exists.1 hp
  obtain ⟨w, hw⟩ := isSome_iff_exists.1 hq
  by_cases hp' : p = .kept token
  · by_cases hq' : q = .kept token
    · rw [hp', hq']
    · rw [if_pos hp', if_neg hq'] at heq; exact absurd heq.symm (hnot q w hw hq').1
  by_cases hq' : q = .kept token
  · rw [if_neg hp', if_pos hq'] at heq; exact absurd heq (hnot p v hv hp').1
  · rwa [if_neg hp', if_neg hq'] at heq

theorem ok_expire {token : ℕ} (hview : retained.lookup token = some view) :
    Ok (retained.erase token) (c.discardViewWindows view) := by
  have hplace : c.viewAt retained (.kept token) = some view := hview
  refine ok_discard h hplace (h.table.discard) (fun p v hv => ?_)
    (fun id hid => discardViewWindows_kind hid) ?_
  · cases p with
    | shown g => rw [viewAt, discardViewWindows_views] at hv; exact ⟨by simp, hv⟩
    | kept t =>
      by_cases ht : t = token
      · rw [ht, viewAt, lookup_erase] at hv; cases hv
      · exact ⟨by simpa using ht, by rw [← hv]; exact (lookup_erase_ne ht).symm⟩
  · rw [discardViewWindows_views]; exact h.localView

/-! ## Typing and moving -/

theorem exists_modifyActive (f : Text → Window → Window) : ∃ c', c.modifyActive f = some c' := by
  obtain ⟨id, w, hid, hw⟩ := h.activeWindow
  rw [modifyActive, hid]
  dsimp only
  rw [hw]
  exact ⟨_, rfl⟩

theorem exists_editAt (intercept : Intercept)
    (op : Text → Window → Option TextEdit) (settle : Text → TextEdit → Window → Window) :
    ∃ c', c.editAt intercept op settle = some c' := by
  obtain ⟨id, w, hid, hw⟩ := h.activeWindow
  rw [editAt, hid]
  dsimp only
  rw [hw]
  dsimp only
  cases (c.registry.get w.bufferId).bind fun text => op text w with
  | none => exact ⟨_, rfl⟩
  | some op =>
    dsimp only; generalize c.applyActiveEdit intercept w.bufferId op = applied
    obtain ⟨c₁, _ | edit⟩ := applied
    · exact ⟨_, rfl⟩
    · exact ⟨_, rfl⟩

theorem exists_typeAt (intercept : Intercept)
    (op : Text → Window → Option TextEdit) (settle : Text → TextEdit → Window → Window) :
    ∃ c', c.typeAt intercept op settle = some c' := by
  obtain ⟨c₁, hdrop⟩ := exists_modifyActive h dropGoal
  have hok := h.keeps (writes_modifyActive quiet_dropGoal hdrop).keeps
  obtain ⟨c', hedit⟩ := exists_editAt hok intercept op settle
  exact ⟨c', by rw [typeAt, hdrop, bind_some, hedit]⟩

end

theorem quiet_settle (typing : Typing) (text : Text) (op : TextEdit) :
    Quiet (typing.settle text op) := by
  cases typing with
  | insertChar | insertCharOverRegion | insertBytesOverRegion | backspace | deleteForward
  | deleteWordBackward | deleteWordForward | deleteRegion | completionPopupAccept
  | queryReplaceApplyCurrent | editActive => exact fun _ => ⟨rfl, rfl⟩

theorem quiet_motion (motion : Motion) (text : Text) : Quiet (motion.apply text) := by
  cases motion with
  | setCursorByte | moveToLine | setViewTop | beginSelection | clearSelection | selectAll =>
    exact fun _ => ⟨rfl, rfl⟩

variable (h : Ok retained c)
include h

theorem exists_typing (intercept : Intercept) (typing : Typing) :
    ∃ c', c.typing intercept typing = some c' ∧ Writes c c' := by
  rw [typing_eq]
  split
  · obtain ⟨c', hc'⟩ := exists_typeAt h intercept typing.op typing.settle
    exact ⟨c', hc', writes_typeAt (quiet_settle typing) hc'⟩
  obtain ⟨c', hc'⟩ := exists_editAt h intercept typing.op typing.settle
  exact ⟨c', hc', writes_editAt (quiet_settle typing) hc'⟩

theorem exists_motion (motion : Motion) : ∃ c', c.motion motion = some c' ∧ Writes c c' := by
  rw [motion_eq]
  obtain ⟨c', hc'⟩ := exists_modifyActive h motion.apply
  exact ⟨c', hc', writes_modifyActive (quiet_motion motion) hc'⟩

theorem exists_historyStep (edit : Option TextEdit) :
    ∃ c', c.historyStep edit = some c' ∧ Writes c c' := by
  obtain ⟨id, w, hid, hw⟩ := h.activeWindow
  obtain ⟨c₁, hdrop⟩ := exists_modifyActive h dropGoal
  have hwrites := writes_modifyActive quiet_dropGoal hdrop
  have hactive : c.activeWindow = some w := by rw [EditorCore.activeWindow, hid, bind_some, hw]
  rw [historyStep, hactive, hdrop]
  cases edit with
  | none => exact ⟨c₁, rfl, hwrites⟩
  | some edit => exact ⟨_, rfl, hwrites.trans (writes_announce c₁ w.bufferId edit)⟩

theorem exists_revertActiveBuffer (edit : Option TextEdit) :
    ∃ c', c.revertActiveBuffer edit = some c' ∧ Writes c c' := by
  obtain ⟨id, w, hid, hw⟩ := h.activeWindow
  have hactive : c.activeWindow = some w := by rw [EditorCore.activeWindow, hid, bind_some, hw]
  rw [revertActiveBuffer, hactive]
  cases edit with
  | none => exact ⟨c, rfl, .refl c⟩
  | some edit => exact ⟨_, rfl, writes_announce c w.bufferId edit⟩

/-! ## Jumps -/

theorem ok_pushJump : ∃ c', c.pushJump = some c' ∧ Ok retained c' := by
  obtain ⟨id, w, hid, hw⟩ := h.activeWindow
  rw [pushJump, hid]
  dsimp only
  rw [hw]
  exact ⟨_, rfl, h.same ⟨h.table.old, h.table.shown, h.table.quits, h.table.registry⟩ rfl rfl⟩

theorem ok_landJump (entry : JumpEntry) :
    ∃ answer, c.landJump entry = some answer ∧ Ok retained answer.1 := by
  obtain ⟨c', hset, hwrites⟩ := exists_motion h (.setCursorByte entry.position)
  rw [landJump, show c.setCursorByte entry.position = some c' from hset]
  exact ⟨_, rfl, h.keeps hwrites.keeps⟩

theorem ok_jumpBackTo (fid : FrontendId) (ring : List JumpEntry) :
    ∃ answer, c.jumpBackTo fid ring = some answer ∧ Ok retained answer.1 := by
  have hring : ∀ entries, Ok retained
      { c with jumpRing := Function.update c.jumpRing fid entries } := fun entries =>
    h.same ⟨h.table.old, h.table.shown, h.table.quits, h.table.registry⟩ rfl rfl
  induction ring with
  | nil => exact ⟨_, rfl, hring []⟩
  | cons entry ring ih =>
    have hring₁ := hring ring.reverse; rw [jumpBackTo]
    split
    case isTrue => exact ih
    split
    case isTrue hown =>
      rw [Bool.and_eq_true, Bool.and_eq_true] at hown
      exact ok_landJump (ok_focusWindow hring₁ hown.1.1) entry
    split
    case isTrue => exact ih
    split
    case isTrue => exact ok_landJump hring₁ entry
    have hswitch := writes_switchActiveBufferFor
      { c with jumpRing := Function.update c.jumpRing fid ring.reverse } fid entry.bufferId
    generalize EditorCore.switchActiveBufferFor _ fid entry.bufferId = answer at hswitch ⊢
    obtain ⟨c₂, e | _⟩ := answer
    · exact ih
    · exact ok_landJump (hring₁.keeps hswitch.keeps) entry

end EditorCore

namespace Host

open EditorCore

variable {h h' : Host}

/-- **Every event keeps the views and the window table in agreement, and none panics.** -/
theorem ok_step (hok : Ok h.retained h.core) (event : Event) :
    ∃ h', h.step event = some h' ∧ Ok h'.retained h'.core := by
  have hsame : ∀ (activeFrontend : FrontendId) (contracts : List CommitContract),
      Ok h.retained { h.core with
        activeFrontend := activeFrontend, commitContracts := contracts } := fun _ _ =>
    hok.same ⟨hok.table.old, hok.table.shown, hok.table.quits, hok.table.registry⟩ rfl rfl
  have hwritten {o : Option EditorCore} (ho : Yields o (Writes h.core)) :
      Yields (o.map h.withCore) fun h' => Ok h'.retained h'.core :=
    .map (R := fun h' => _) (ho.mono fun _ hwrites => hok.keeps hwrites.keeps)
  cases event with
  | dispatched fid => exact ⟨_, rfl, hsame fid h.core.commitContracts⟩
  | split orientation sameBuffer => exact Yields.map (ok_trySplitActive hok orientation sameBuffer)
  | closedActive => exact Yields.map (ok_closeActive hok)
  | closedOthers => exact Yields.map (ok_closeOthers hok)
  | focusStepped forward => exact Yields.map (ok_focusStep hok forward)
  | focused fid target =>
    rw [step]
    split
    case isTrue howns => exact ⟨_, rfl, ok_focusWindow hok howns⟩
    case isFalse => exact ⟨_, rfl, hok⟩
  | quit fid target =>
    rw [step]
    split
    case isTrue =>
      obtain ⟨answer, hanswer, hok'⟩ := ok_quitWindow hok fid target
      exact ⟨h.withCore answer.1, by rw [hanswer]; rfl, hok'⟩
    case isFalse => exact ⟨_, rfl, hok⟩
  | displayed fid request => exact ⟨_, rfl, ok_displayBuffer hok⟩
  | sideRemoved fid side =>
    rw [step]
    split
    case isTrue hside =>
      have hkind : h.core.kind side ≠ some false := by
        intro hkind; rw [isSide_eq, hkind] at hside; cases hside
      obtain ⟨c', hc', hok', -⟩ := ok_removeSideWindow hok fid hkind
      exact ⟨h.withCore c', by rw [hc']; rfl, hok'⟩
    case isFalse => exact ⟨_, rfl, hok⟩
  | killed scratch midEdit bufferId => exact Yields.map (ok_killBuffer hok scratch midEdit bufferId)
  | reconciled fid => exact ⟨_, rfl, (ok_reconcile hok fid).1⟩
  | declared fid total => exact ⟨_, rfl, ok_declareFrameGeometry hok⟩
  | accepted fid geometryEpoch total => exact ⟨_, rfl, ok_acceptFrameGeometry hok geometryEpoch⟩
  | paramsSet fid target fixedRows dedicated =>
    rw [step]
    split
    case isTrue =>
      exact ⟨_, rfl, hok.keeps (stays_setParams h.core fid target fixedRows dedicated).toKeeps⟩
    case isFalse => exact ⟨_, rfl, hok⟩
  | switched fid bufferId =>
    exact ⟨_, rfl, hok.keeps (writes_switchActiveBufferFor h.core fid bufferId).keeps⟩
  | aligned fid bufferId =>
    exact ⟨_, rfl, hok.keeps (writes_alignPrimaryDocumentWindow h.core fid bufferId).keeps⟩
  | created text => exact ⟨_, rfl, hok.setRegistry (hok.table.create text)⟩
  | attached panelCapable desktop =>
    obtain ⟨built, made, hbuilt, hbuilds, hactive, hnodup, hmade⟩ :=
      builds_attachView hok desktop panelCapable
    refine ⟨h.registerSession built.1 built.2, by rw [step, hbuilt]; rfl, ?_⟩
    have hattach := @ok_attach h.core built.1 h.retained h.nextFrontend built.2 hok made hbuilds
      hactive hnodup hmade
    exact hattach.same ⟨hattach.table.old, hattach.table.shown, hattach.table.quits,
      hattach.table.registry⟩ rfl rfl
  | resumed token panelCapable =>
    rw [step]
    cases hview : h.retained.lookup token with
    | none => exact ⟨_, rfl, hok⟩
    | some view =>
      refine ⟨_, rfl, ?_⟩
      have hresume := @ok_resume h.core h.retained h.nextFrontend view
        { view with panelCapable := panelCapable, frameGeometry := none } hok token hview rfl rfl
      exact hresume.same ⟨hresume.table.old, hresume.table.shown, hresume.table.quits,
        hresume.table.registry⟩ rfl rfl
  | detached fid =>
    rw [step]
    split
    case isTrue => exact ⟨_, rfl, hok⟩
    case isFalse hlocal => exact ⟨_, rfl, ok_unregister hok hlocal⟩
  | lost fid token =>
    rw [step]
    split
    case isTrue => exact ⟨_, rfl, hok⟩
    rename_i hlocal
    cases hview : h.core.views.lookup fid with
    | none =>
      rw [show h.core.takeFrontendView fid = ((h.core.takeFrontendView fid).1, none) from
        Prod.ext rfl hview]
      exact ⟨_, rfl, ok_take hok hlocal⟩
    | some view =>
      rw [show h.core.takeFrontendView fid = ((h.core.takeFrontendView fid).1, some view) from
        Prod.ext rfl hview]
      exact ⟨_, rfl, ok_lose hok hlocal hview token⟩
  | expired token =>
    rw [step]
    cases hview : h.retained.lookup token with
    | none => exact ⟨_, rfl, hok⟩
    | some view => exact ⟨_, rfl, ok_expire hok hview⟩
  | typed intercept typing => exact hwritten (exists_typing hok intercept typing)
  | announced bufferId edit =>
    exact ⟨_, rfl, hok.keeps (writes_announce h.core bufferId edit).keeps⟩
  | imported source bufferId edit =>
    exact ⟨_, rfl, hok.keeps (writes_remoteCrdtOp h.core source bufferId edit).keeps⟩
  | history edit => exact hwritten (exists_historyStep hok edit)
  | reverted edit => exact hwritten (exists_revertActiveBuffer hok edit)
  | moved motion => exact hwritten (exists_motion hok motion)
  | jumpPushed => exact Yields.map (ok_pushJump hok)
  | jumpedBack =>
    exact Yields.map (ok_jumpBackTo hok h.core.activeFrontend (h.core.jumpRing h.core.activeFrontend).reverse)
  | commitEntered dest profile =>
    refine ⟨_, rfl, ?_⟩; unfold enterCommit
    cases h.core.commitDestinationRefusal dest profile with
    | some reason => exact hok
    | none => exact hsame dest.frontend (h.core.commitContracts ++ [⟨dest, profile⟩])
  | commitLeft =>
    refine ⟨_, rfl, ?_⟩; unfold leaveCommit
    cases h.guards with
    | nil => exact hok
    | cons guard guards => exact hsame guard.previousActive (h.core.commitContracts.take guard.contractDepth)

theorem ok_run (hok : Ok h.retained h.core) (events : List Event) :
    ∃ h', h.run events = some h' ∧ Ok h'.retained h'.core := by
  induction events generalizing h with
  | nil => exact ⟨h, rfl, hok⟩
  | cons event events ih =>
    obtain ⟨h₁, hstep, hok₁⟩ := ok_step hok event; obtain ⟨h', hrun, hok'⟩ := ih hok₁
    exact ⟨h', by rw [run, hstep, bind_some, hrun], hok'⟩

theorem ok_start : Ok start.retained start.core := by
  have hview : EditorCore.start.views.lookup LOCAL = some ⟨.single 0, 0, true, none, false⟩ :=
    lookup_insert ..
  have hkind : EditorCore.start.kind 0 = some false := rfl
  have hplaces : ∀ p view, EditorCore.start.viewAt ∅ p = some view →
      p = .shown LOCAL ∧ view = ⟨.single 0, 0, true, none, false⟩ := by
    intro p view hp
    cases p with
    | kept token => cases hp
    | shown fid =>
      by_cases hfid : fid = LOCAL
      · rw [hfid, viewAt, hview] at hp; exact ⟨by rw [hfid], (some.inj hp).symm⟩
      have hnone : EditorCore.start.views.lookup fid = none := lookup_insert_ne hfid
      rw [viewAt, hnone] at hp; cases hp
  have hwindows : ∀ id w, EditorCore.start.windows id = some w →
      id = 0 ∧ w = .new 0 (.new []) := by
    intro id w hw
    by_cases hid : id = 0
    · rw [hid] at hw; exact ⟨hid, (some.inj hw).symm⟩
    have hnone : EditorCore.start.windows id = none := by
      unfold EditorCore.start; dsimp only; rw [update_of_ne hid]
    rw [hnone] at hw; cases hw
  refine ⟨⟨?_, ?_, ?_, ?_⟩, ?_, ?_, by rw [show start.core = EditorCore.start from rfl, hview]; rfl⟩
  · intro id w hw; rw [(hwindows id w hw).1]; exact Nat.zero_lt_one
  · intro id w hw; rw [(hwindows id w hw).2]; rfl
  · intro id w hw hquit; rw [(hwindows id w hw).2] at hquit; cases hquit
  · intro id hid; rw [mem_singleton.1 hid]; exact Nat.zero_lt_one
  · intro p view hp; rw [(hplaces p view hp).2]; exact ⟨mem_singleton_self _, .single hkind⟩
  · intro p q view view' id hp hq _ _; rw [(hplaces p view hp).1, (hplaces q view' hq).1]

end Host

/-- What holds of the views, shown and kept, and of their windows. -/
structure Consistent (h : Host) : Prop where
  active : ∀ p view, h.core.viewAt h.retained p = some view → view.active ∈ view.layout.iterIds
  live : ∀ p view id, h.core.viewAt h.retained p = some view → id ∈ view.layout.iterIds →
    ∃ w, h.core.windows id = some w ∧ h.core.registry.contains w.bufferId
  apart : ∀ p q view view' id, h.core.viewAt h.retained p = some view →
    h.core.viewAt h.retained q = some view' → id ∈ view.layout.iterIds →
    id ∈ view'.layout.iterIds → p = q
  document : ∀ p view, h.core.viewAt h.retained p = some view →
    ∃ id ∈ view.layout.iterIds, h.core.isSide id = false
  oneSide : ∀ p view id id', h.core.viewAt h.retained p = some view → id ∈ view.layout.iterIds →
    id' ∈ view.layout.iterIds → h.core.isSide id → h.core.isSide id' → id = id'
  side : ∀ p view id, h.core.viewAt h.retained p = some view → id ∈ view.layout.iterIds →
    h.core.isSide id → ∃ weights document,
      view.layout.root = .split .horizontal weights [document, .leaf id]

theorem Consistent.of_ok {h : Host} (hok : h.core.Ok h.retained) : Consistent h where
  active p view hview := (hok.views p view hview).active
  live p view id hview hid := by
    obtain ⟨w, hw⟩ := EditorCore.live_window ((hok.views p view hview).layout.live id hid)
    exact ⟨w, hw, hok.table.shown id w hw⟩
  apart := hok.apart
  document p view hview := (hok.views p view hview).layout.document
  oneSide p view id id' hview hid hid' hside hside' :=
    Layout.documentSubtree_unique ((hok.views p view hview).layout.side id hid hside)
      ((hok.views p view hview).layout.side id' hid' hside')
  side p view id hview hid hside := by
    obtain ⟨document, hdocument⟩ := isSome_iff_exists.1
      ((hok.views p view hview).layout.side id hid hside)
    obtain ⟨weights, hroot⟩ := Layout.documentSubtree_eq_some.1 hdocument
    exact ⟨weights, document, hroot⟩

/-- **No run panics, and after each the views are consistent with the window table; a
    reconciliation then leaves no hidden side window active.** -/
theorem views_consistent (events : List Event) :
    ∃ h, Host.start.run events = some h ∧ Consistent h ∧
      ∀ fid view, (h.core.reconcilePanelLayoutCore fid).1.views.lookup fid = some view →
        view.panelHidden → (h.core.reconcilePanelLayoutCore fid).1.isSide view.active = false := by
  obtain ⟨h, hrun, hok⟩ := Host.ok_run Host.ok_start events
  exact ⟨h, hrun, .of_ok hok, fun fid => (EditorCore.ok_reconcile hok fid).2⟩

end Pmacs.Display
