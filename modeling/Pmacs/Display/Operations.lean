/-
  Every window operation keeps the views and the window table in agreement.

  * `ok_trySplitActive`, `ok_focusWindow`: windows that come, and the focus;
  * `ok_closeActive`, `ok_closeOthers`, `ok_removeSideWindow`, `ok_killBuffer`: windows that go;
  * `refused_unchanged`: what a display or a quit that is refused leaves.
-/
import Pmacs.Display.Consistent

namespace Pmacs.Display

open Lib AList Function List Option

namespace EditorCore

variable {c c' : EditorCore} {retained : Assoc ℕ FrontendView} {fid : FrontendId}
  {view view' : FrontendView}

/-! ## Splitting and focus -/

theorem Ok.activeView (h : Ok retained c) :
    ∃ view, c.activeView = some view ∧ c.views.lookup c.activeFrontendKey = some view ∧
      ViewOk c view := by
  have hsome : (c.views.lookup c.activeFrontendKey).isSome := by
    unfold activeFrontendKey
    by_cases hactive : (c.views.lookup c.activeFrontend).isSome
    · rw [if_pos hactive]; exact hactive
    · rw [if_neg hactive]; exact h.localView
  obtain ⟨view, hview⟩ := isSome_iff_exists.1 hsome
  exact ⟨view, hview, hview, h.viewOk hview⟩

theorem Ok.activeWindow (h : Ok retained c) :
    ∃ id w, c.activeWindowId = some id ∧ c.windows id = some w := by
  obtain ⟨view, hview, -, hok⟩ := h.activeView
  obtain ⟨w, hw⟩ := live_window (hok.layout.live view.active hok.active)
  exact ⟨view.active, w, by rw [activeWindowId, hview, map_some], hw⟩

theorem get_of_shown (h : TableOk c) {id : WindowId} {w : Window} (hw : c.windows id = some w) :
    ∃ text, c.registry.get w.bufferId = some text :=
  ⟨_, get_of_contains (h.shown id w hw)⟩

theorem ok_split (h : Ok retained c) {registry : Registry} {bufferId : BufferId} {text : Text}
    (htable : TableOk { c with registry := registry })
    (hget : registry.get bufferId = some text) (hview : c.views.lookup fid = some view)
    (hdocument : c.isSide view.active = false) (orientation : Orientation) :
    Ok retained (({ c with registry := registry }.addWindow (.new bufferId (.new text))).1.setView
      fid { view with
        layout := view.layout.splitWindow view.active orientation c.nextWindow }) := by
  have hok := h.viewOk hview
  have hmade : Made { c with registry := registry } (.new bufferId (.new text)) :=
    ⟨rfl, text, hget, rfl, Nat.zero_le _, nofun,
      TextView.lines_pos text⟩
  have hbuilds := builds_addWindow hmade
  have hold : ∀ id, (c.kind id).isSome →
      ({ c with registry := registry }.addWindow (.new bufferId (.new text))).1.kind id =
        c.kind id := by
    intro id hid; have hne : id ≠ c.nextWindow := Nat.ne_of_lt (h.table.lt hid); unfold kind
    rw [hbuilds.others id fun hmem => hne (mem_singleton.1 hmem)]
  have hnew : ({ c with registry := registry }.addWindow (.new bufferId (.new text))).1.kind
      c.nextWindow = some false := by
    obtain ⟨w, hw, hw_made⟩ := hbuilds.made c.nextWindow (mem_singleton_self _); unfold kind
    rw [hw, map_some, Window.isSide, hw_made.params]; rfl
  have hfresh : c.nextWindow ∉ view.layout.iterIds := fun hmem =>
    Nat.lt_irrefl _ (h.table.lt (hok.layout.live _ hmem))
  obtain ⟨hlayout, hmem, hmem'⟩ := hok.layout.split hdocument hfresh hnew
    (fun id hid => hold id (hok.layout.live id hid)) orientation
  refine h.act ((htable.builds hbuilds).setView fid _) ?_ (setView_lookup_self _ fid _)
    (fun g hg => setView_lookup_of_ne _ fid _ hg) (fun id hid _ => hold id hid) fun id hid => ?_
  · exact ⟨hmem view.active hok.active, hlayout.congr fun _ _ => rfl⟩
  rcases hmem' id hid with hid | rfl
  · exact .inl ⟨view, hview, hid⟩
  · exact .inr (Nat.le_refl _)

theorem ok_trySplitActive (h : Ok retained c) (orientation : Orientation) (sameBuffer : Bool) :
    ∃ answer, c.trySplitActive orientation sameBuffer = some answer ∧ Ok retained answer.1 := by
  obtain ⟨view, hview, hlookup, hok⟩ := h.activeView
  obtain ⟨w, hw⟩ := live_window (hok.layout.live view.active hok.active)
  rw [trySplitActive, activeWindowId, hview, map_some]
  dsimp only
  cases hside : c.isSide view.active with
  | true => exact ⟨_, rfl, h⟩
  | false =>
    rw [if_neg Bool.false_ne_true, splitActive, hview]; dsimp only; rw [hw]
    dsimp only
    cases sameBuffer with
    | true =>
      obtain ⟨text, hget⟩ := get_of_shown h.table hw; rw [if_pos rfl, hget]
      exact ⟨_, rfl, @ok_split c retained _ view h c.registry w.bufferId text h.table hget hlookup
        hside orientation⟩
    | false =>
      rw [if_neg Bool.false_ne_true]
      refine ⟨_, rfl, ok_split h (h.table.create []) ?_ hlookup hside orientation⟩
      unfold Registry.get; rw [if_pos (by simp [Registry.create])]; simp [Registry.create]

theorem splitActive_cases {orientation : Orientation} {sameBuffer : Bool}
    {answer : EditorCore × WindowId} (h : c.splitActive orientation sameBuffer = some answer) :
    ∃ view registry bufferId text, c.activeView = some view ∧
      (registry = c.registry ∨ registry = (c.registry.create []).1) ∧
      registry.get bufferId = some text ∧ answer.1 =
        ({ c with registry := registry }.addWindow (.new bufferId (.new text))).1.setView
          c.activeFrontendKey { view with
            layout := view.layout.splitWindow view.active orientation c.nextWindow } := by
  unfold splitActive at h
  cases hview : c.activeView with
  | none => rw [hview] at h; cases h
  | some view =>
    rw [hview] at h; dsimp only at h
    cases hw : c.windows view.active with
    | none => rw [hw] at h; cases h
    | some aw =>
      rw [hw] at h; dsimp only at h
      cases sameBuffer with
      | true =>
        rw [if_pos rfl] at h
        cases hget : c.registry.get aw.bufferId with
        | none => rw [hget] at h; cases h
        | some text =>
          rw [hget] at h; cases h
          exact ⟨view, c.registry, aw.bufferId, text, rfl, .inl rfl, hget, rfl⟩
      | false =>
        rw [if_neg Bool.false_ne_true] at h; cases h
        refine ⟨view, (c.registry.create []).1, c.registry.next, [], rfl, .inr rfl, ?_, rfl⟩
        unfold Registry.get; rw [if_pos (by simp [Registry.create])]; simp [Registry.create]

theorem ok_focus (h : Ok retained c) (hview : c.views.lookup fid = some view) {target : WindowId}
    (htarget : target ∈ view.layout.iterIds) (from_ : WindowId) :
    Ok retained ((c.setActive fid target).noteFocusTransition from_ target) :=
  (h.setActive hview htarget).keeps (stays_noteFocusTransition _ from_ target).toKeeps

theorem ok_focusStep (h : Ok retained c) (forward : Bool) :
    ∃ c', c.focusStep forward = some c' ∧ Ok retained c' := by
  obtain ⟨view, hview, hlookup, hok⟩ := h.activeView
  rw [focusStep, hview]
  exact ⟨_, rfl, ok_focus h hlookup (Layout.focusStep_mem hok.active forward _) view.active⟩

theorem ownsWindow_iff {target : WindowId} : c.ownsWindow fid target ↔
    ∃ view, c.views.lookup fid = some view ∧ target ∈ view.layout.iterIds := by
  unfold ownsWindow
  cases c.views.lookup fid with
  | none | some => simp

theorem ok_focusWindow (h : Ok retained c) {target : WindowId} (howns : c.ownsWindow fid target) :
    Ok retained (c.focusWindow fid target) := by
  obtain ⟨view, hview, htarget⟩ := ownsWindow_iff.1 howns
  rw [focusWindow, hview]
  exact ok_focus h hview htarget view.active

/-! ## Closing -/

theorem setView_setView {c : EditorCore} {view : FrontendView} (view' : FrontendView) :
    (c.setView fid view).setView fid view' = c.setView fid view' := by
  unfold setView
  rw [insert_insert]

theorem setActive_closed (c : EditorCore) (fid : FrontendId) (view : FrontendView)
    (target next : WindowId) : ((c.setView fid view).removeWindow target).setActive fid next =
      (c.setView fid { view with active := next }).removeWindow target := by
  have hself : ((c.setView fid view).removeWindow target).views.lookup fid = some view :=
    setView_lookup_self c fid view
  rw [setActive_of_lookup hself]
  show ((c.setView fid view).setView fid _).removeWindow target = _
  rw [setView_setView]

theorem ok_closed (h : Ok retained c) (hview : c.views.lookup fid = some view)
    {target : WindowId} (htarget : target ∈ view.layout.iterIds)
    (hmem : ∀ id, id ∈ view'.layout.iterIds ↔ id ∈ view.layout.iterIds ∧ id ≠ target)
    (hlayout : LayoutOk c view'.layout) (hactive : view'.active ∈ view'.layout.iterIds) :
    Ok retained ((c.setView fid view').removeWindow target) := by
  have hkind : ∀ id, id ≠ target →
      ((c.setView fid view').removeWindow target).kind id = c.kind id := by
    intro id hne; rw [removeWindow_kind, if_neg hne, setView_kind]
  refine h.act ((h.table.setView fid view').removeWindow target)
    ⟨hactive, hlayout.congr fun id hid => hkind id ((hmem id).1 hid).2⟩
    (setView_lookup_self c fid view') (fun g hg => setView_lookup_of_ne c fid view' hg) ?_ ?_
  · intro id _ hnot
    refine hkind id ?_; rintro rfl; exact hnot view hview htarget
  · exact fun id hid => .inl ⟨view, hview, ((hmem id).1 hid).1⟩

theorem exists_fallback {layout : Layout} (h : ∃ id ∈ layout.iterIds, c.isSide id = false)
    (sides : WindowId → Bool) (hsides : ∀ id ∈ layout.iterIds, sides id = c.isSide id) :
    ∃ next, (layout.iterIds.find? fun id => !sides id).or layout.iterIds.head? = some next ∧
      next ∈ layout.iterIds := by
  obtain ⟨id, hid, hside⟩ := h
  cases hfind : layout.iterIds.find? fun id => !sides id with
  | some next => exact ⟨next, rfl, mem_of_find?_eq_some hfind⟩
  | none =>
    have hnone := find?_eq_none.1 hfind id hid; rw [hsides id hid, hside] at hnone
    exact absurd rfl hnone

section
variable (h : Ok retained c)
include h

theorem ok_closeActive : ∃ answer, c.closeActive = some answer ∧ Ok retained answer.1 := by
  obtain ⟨view, hview, hlookup, hok⟩ := h.activeView
  rw [closeActive, hview]
  dsimp only
  split
  case isTrue => exact ⟨_, rfl, h⟩
  rename_i hmore
  -- a document window is left
  obtain ⟨other, hother, hne, hdocument⟩ : ∃ other ∈ view.layout.iterIds,
      other ≠ view.active ∧ c.isSide other = false := by
    cases hside : c.isSide view.active with
    | true =>
      obtain ⟨id, hid, hdocument⟩ := hok.layout.document
      refine ⟨id, hid, ?_, hdocument⟩; rintro rfl; rw [hdocument] at hside
      cases hside
    | false =>
      rw [hside, Bool.not_false, Bool.true_and, List.isEmpty_iff] at hmore
      obtain ⟨other, hother⟩ := List.exists_mem_of_ne_nil _ hmore
      rw [List.mem_filter, Bool.and_eq_true, decide_eq_true_eq, Bool.not_eq_true'] at hother
      exact ⟨other, hother.1, hother.2.1, hother.2.2⟩
  obtain ⟨layout', hclose, hmem, hlayout⟩ := hok.layout.close hok.active hother hne hdocument
  rw [hclose, getD_some]
  obtain ⟨next, hnext, hnext_mem⟩ := @exists_fallback c layout'
    ⟨other, (hmem other).2 ⟨hother, hne⟩, hdocument⟩
    (((c.setView c.activeFrontendKey { view with
      layout := layout'
      panelHidden := if c.isSide view.active then false else view.panelHidden }).removeWindow
        view.active).isSide)
    fun id hid => isSide_congr (by
      rw [removeWindow_kind, if_neg ((hmem id).1 hid).2, setView_kind])
  rw [hnext]
  refine ⟨_, rfl, Ok.keeps ?_ (stays_noteFocusTransition _ view.active next).toKeeps⟩
  rw [setActive_closed]; exact ok_closed h hlookup hok.active hmem hlayout hnext_mem

theorem ok_closeOthers : ∃ answer, c.closeOthers = some answer ∧ Ok retained answer.1 := by
  obtain ⟨view, hview, hlookup, hok⟩ := h.activeView
  rw [closeOthers, hview]
  dsimp only
  cases hside : c.isSide view.active with
  | true => exact ⟨_, rfl, h⟩
  | false =>
    rw [if_neg Bool.false_ne_true, Layout.keepOnly, if_pos hok.active, getD_some]
    refine ⟨_, rfl, ?_⟩; rw [foldl_removeWindow_eq]
    generalize hdoomed : (view.layout.iterIds.filter fun id => id ≠ view.active) = doomed
    have hmem : ∀ id, id ∈ doomed ↔ id ∈ view.layout.iterIds ∧ id ≠ view.active := by
      intro id; rw [← hdoomed, List.mem_filter, decide_eq_true_eq]
    have hkind : ∀ id ∉ doomed, ∀ v, kind { c.setView c.activeFrontendKey v with
        windows := fun j => if j ∈ doomed then none else
          (c.setView c.activeFrontendKey v).windows j } id = c.kind id := by
      intro id hid v; unfold kind; dsimp only
      rw [if_neg hid]; rfl
    refine h.act ?_ ⟨mem_singleton_self _, .single ?_⟩ (setView_lookup_self c c.activeFrontendKey _)
      (fun g hg => setView_lookup_of_ne c c.activeFrontendKey _ hg) ?_ ?_
    · refine h.table.sub (fun id w hw => ?_) rfl rfl; dsimp only at hw
      split at hw
      · cases hw
      · exact hw
    · rw [hkind view.active fun hid => ((hmem _).1 hid).2 rfl,
        kind_eq_some (hok.layout.live view.active hok.active), hside]
    · exact fun id _ hnot => hkind id (fun hid => hnot view hlookup ((hmem id).1 hid).1) _
    · intro id hid; rw [mem_singleton.1 hid]; exact .inl ⟨view, hlookup, hok.active⟩

/-! ## Side windows that go -/

/-- The removal of a side window leaves the other windows of the kind they were. -/
theorem ok_removeSideWindow (fid : FrontendId) {side : WindowId}
    (hside : c.kind side ≠ some false) :
    ∃ c', c.removeSideWindow fid side = some c' ∧ Ok retained c' ∧ c'.registry = c.registry ∧
      ∀ id, c'.kind id = c.kind id ∨ c'.kind id = none := by
  unfold removeSideWindow
  cases hview : c.views.lookup fid with
  | none => exact ⟨c, rfl, h, rfl, fun id => .inl rfl⟩
  | some view =>
    have hok := h.viewOk hview; dsimp only
    cases hclose : view.layout.closeWindow side with
    | none => exact ⟨c, rfl, h, rfl, fun id => .inl rfl⟩
    | some layout =>
      obtain ⟨before, after, hids, -⟩ := Layout.closeWindow_iterIds hclose
      have htarget : side ∈ view.layout.iterIds := by
        rw [hids]; exact mem_append_right _ mem_cons_self
      obtain ⟨other, hother, hdocument⟩ := hok.layout.document
      have hne : other ≠ side := by
        rintro rfl; exact hside (by rw [kind_eq_some (hok.layout.live other hother), hdocument])
      obtain ⟨layout', hclose', hmem, hlayout⟩ := hok.layout.close htarget hother hne hdocument
      rw [hclose] at hclose'; cases hclose'
      have hkind : ∀ v id, ((c.setView fid v).removeWindow side).kind id = c.kind id ∨
          ((c.setView fid v).removeWindow side).kind id = none := by
        intro v id; rw [removeWindow_kind]
        split
        · exact .inr rfl
        · exact .inl rfl
      dsimp only
      split
      case isTrue hactive =>
        obtain ⟨fallback, hfallback⟩ : ∃ fallback, layout.iterIds.head? = some fallback := by
          have hmem_other := (hmem other).2 ⟨hother, hne⟩
          cases hhead : layout.iterIds.head? with
          | none =>
            rw [head?_eq_none_iff.1 hhead] at hmem_other; cases hmem_other
          | some fallback => exact ⟨fallback, rfl⟩
        rw [hfallback]; dsimp only
        have hclosed := @ok_closed c retained fid view
          { view with layout := layout, panelHidden := false, active := fallback } h hview side
          htarget hmem hlayout (mem_of_mem_head? hfallback)
        generalize hv : ({ view with layout := layout, panelHidden := false, active := fallback } :
          FrontendView) = v at hclosed ⊢
        have hself : ((c.setView fid v).removeWindow side).views.lookup fid = some v :=
          setView_lookup_self c fid v
        have hv_ok := hclosed.viewOk hself
        obtain ⟨target, hnonSide, hmem', -⟩ :=
          nonSideTarget_ok hself hv_ok.active hv_ok.layout.document
        have hactive' := hclosed.setActive hself hmem'; rw [setActive_closed] at hactive'
        rw [hnonSide]; dsimp only; rw [setActive_closed]
        refine ⟨_, rfl, hactive'.keeps (stays_forgetOrigin _ side).toKeeps, rfl, fun id => ?_⟩
        rw [(stays_forgetOrigin _ side).kind]; exact hkind _ id
      rename_i hactive
      refine ⟨_, rfl, ?_, rfl, fun id => ?_⟩
      · refine (ok_closed h hview htarget hmem hlayout ?_).keeps
          (stays_forgetOrigin _ side).toKeeps
        exact (hmem _).2 ⟨hok.active, hactive⟩
      · rw [(stays_forgetOrigin _ side).kind]; exact hkind _ id

theorem ok_removeSides {sides : List (FrontendId × WindowId)}
    (hsides : ∀ e ∈ sides, c.kind e.2 ≠ some false) :
    ∃ c', removeSides sides c = some c' ∧ Ok retained c' ∧ c'.registry = c.registry := by
  induction sides generalizing c with
  | nil => exact ⟨c, rfl, h, rfl⟩
  | cons e sides ih =>
    obtain ⟨c₁, hremove, hok, hregistry, hkind⟩ :=
      ok_removeSideWindow h e.1 (hsides e mem_cons_self)
    obtain ⟨c', hrest, hok', hregistry'⟩ := ih hok fun e' he' => by
      rcases hkind e'.2 with hsame | hgone
      · rw [hsame]; exact hsides e' (mem_cons_of_mem _ he')
      · rw [hgone]; simp
    refine ⟨c', ?_, hok', hregistry'.trans hregistry⟩; rw [removeSides, hremove]; exact hrest

/-! ## Buffers that go -/

theorem ok_fallbackBufferFor (scratch : Option BufferId) {victim : BufferId}
    (hvictim : c.registry.contains victim) : Ok retained (c.fallbackBufferFor scratch victim).1 ∧
      (c.fallbackBufferFor scratch victim).1.registry.contains
        (c.fallbackBufferFor scratch victim).2 ∧ (c.fallbackBufferFor scratch victim).2 ≠ victim ∧
      ∀ id, (c.fallbackBufferFor scratch victim).1.kind id = c.kind id := by
  unfold fallbackBufferFor
  dsimp only
  have husable : ∀ id, (id ≠ victim && c.registry.contains id) = true →
      c.registry.contains id ∧ id ≠ victim := by
    intro id hid; rw [Bool.and_eq_true, decide_eq_true_eq] at hid; exact ⟨hid.2, hid.1⟩
  cases hscratch : scratch.filter fun id => id ≠ victim && c.registry.contains id with
  | some id =>
    obtain ⟨hcontains, hne⟩ := husable id (filter_eq_some_iff.1 hscratch).2
    exact ⟨h, hcontains, hne, fun _ => rfl⟩
  | none =>
    dsimp only
    cases hfind : c.registry.order.find? fun id => id ≠ victim && c.registry.contains id with
    | some id =>
      have husable_id := find?_some hfind; obtain ⟨hcontains, hne⟩ := husable id husable_id
      exact ⟨h, hcontains, hne, fun _ => rfl⟩
    | none =>
      have hold := h.table.registry victim (of_decide_eq_true hvictim)
      exact ⟨h.setRegistry (h.table.create []),
        decide_eq_true (mem_append_right _ (mem_singleton_self _)),
        (Nat.ne_of_lt hold).symm, fun _ => rfl⟩

theorem ok_killBuffer (scratch : Option BufferId) (midEdit : Bool) (bufferId : BufferId) :
    ∃ answer, c.killBuffer scratch midEdit bufferId = some answer ∧ Ok retained answer.1 := by
  unfold killBuffer
  cases hcontains : c.registry.contains bufferId with
  | false => exact ⟨_, rfl, h⟩
  | true =>
    rw [Bool.not_true, if_neg Bool.false_ne_true]
    split
    case isTrue => exact ⟨_, rfl, h⟩
    obtain ⟨hok₁, hfallback, hne, -⟩ := ok_fallbackBufferFor h scratch hcontains
    generalize c.fallbackBufferFor scratch bufferId = answer at hok₁ hfallback hne ⊢
    obtain ⟨c₁, fallback⟩ := answer; dsimp only at hok₁ hfallback hne ⊢
    have hdoomed : ∀ e ∈ c₁.doomedSides bufferId, c₁.kind e.2 ≠ some false := by
      intro e he hkind; obtain ⟨entry, -, hentry⟩ := mem_filterMap.1 he
      obtain ⟨side, hside, rfl⟩ := map_eq_some_iff.1 hentry
      have hside' := find?_some (filter_eq_some_iff.1 hside).1; rw [isSide_eq, hkind] at hside'
      cases hside'
    obtain ⟨c₂, hremove, hok₂, hregistry⟩ := ok_removeSides hok₁ hdoomed; rw [hremove]; dsimp only
    rw [← hregistry] at hfallback; have hget := get_of_contains hfallback; rw [hget]
    dsimp only; generalize c₂.registry.text fallback = text
    have hkeeps : Keeps c₂ (c₂.mapWindows fun w =>
        if w.bufferId = bufferId then w.switchTo fallback text else w) := by
      have hkind : ∀ w : Window, SameKind w
          (if w.bufferId = bufferId then w.switchTo fallback text else w) := by
        intro w
        split
        · exact sameKind_of_params rfl
        · exact .refl w
      refine ⟨⟨rfl, rfl, rfl, rfl, rfl, rfl, ?_⟩, mapWindows_kind c₂ fun w => (hkind w).side, ?_⟩
      · intro id w' hw'; obtain ⟨w, hw, rfl⟩ := map_eq_some_iff.1 hw'
        by_cases hvictim : w.bufferId = bufferId
        · rw [if_pos hvictim]; exact .inr hfallback
        · rw [if_neg hvictim]; exact .inl ⟨w, hw, rfl⟩
      intro id w' hw' hquit; obtain ⟨w, hw, rfl⟩ := map_eq_some_iff.1 hw'
      exact ((hkind w).quit hquit).imp_right fun hbefore => ⟨w, hw, hbefore⟩
    have hok₃ := hok₂.keeps hkeeps
    -- no window shows the buffer any more
    have hgone : ∀ id w, (c₂.mapWindows fun w =>
        if w.bufferId = bufferId then w.switchTo fallback text else w).windows id = some w →
          w.bufferId ≠ bufferId := by
      intro id w' hw'; obtain ⟨w, hw, rfl⟩ := map_eq_some_iff.1 hw'
      by_cases hvictim : w.bufferId = bufferId
      · rw [if_pos hvictim]; exact hne
      · rw [if_neg hvictim]; exact hvictim
    generalize (c₂.mapWindows fun w =>
      if w.bufferId = bufferId then w.switchTo fallback text else w) = c₃ at hok₃ hgone ⊢
    unfold Registry.remove
    cases hmem : decide (bufferId ∈ c₃.registry.order) with
    | false => rw [if_neg (of_decide_eq_false hmem)]; exact ⟨_, rfl, hok₃⟩
    | true =>
      rw [if_pos (of_decide_eq_true hmem)]
      cases midEdit with
      | true => exact ⟨_, rfl, hok₃⟩
      | false =>
        refine ⟨_, rfl, hok₃.setRegistry
          ⟨hok₃.table.old, fun id w hw => ?_, hok₃.table.quits, fun id hid => ?_⟩⟩
        · refine decide_eq_true (List.mem_filter.2
            ⟨of_decide_eq_true (hok₃.table.shown id w hw), ?_⟩)
          exact decide_eq_true (hgone id w hw)
        · exact hok₃.table.registry id (mem_of_mem_filter hid)

/-! ## The size of a frame -/

theorem ok_declareFrameGeometry {total : CellSize} :
    Ok retained (c.declareFrameGeometry fid total).1 := by
  unfold declareFrameGeometry
  cases hview : c.views.lookup fid with
  | none => exact h
  | some view =>
    have hactive := (h.viewOk hview).active; dsimp only
    split
    · exact h
    cases view.frameGeometry with
    | none => exact h.setView hview rfl hactive
    | some geometry =>
      dsimp only
      by_cases hlt : geometry.geometryEpoch < u64Max
      · rw [if_pos hlt]; exact h.setView hview rfl hactive
      · rw [if_neg hlt]; exact h.setView hview rfl hactive

theorem ok_acceptFrameGeometry (geometryEpoch : ℕ)
    {total : CellSize} : Ok retained (c.acceptFrameGeometry fid geometryEpoch total).1 := by
  unfold acceptFrameGeometry
  cases hview : c.views.lookup fid with
  | none => exact h
  | some view =>
    dsimp only
    split
    · exact h.setView hview rfl (h.viewOk hview).active
    · exact h

/-- After a reconciliation a hidden side window is not the active one. -/
theorem ok_reconcile (fid : FrontendId) : Ok retained (c.reconcilePanelLayoutCore fid).1 ∧
      ∀ view, (c.reconcilePanelLayoutCore fid).1.views.lookup fid = some view →
        view.panelHidden → (c.reconcilePanelLayoutCore fid).1.isSide view.active = false := by
  unfold reconcilePanelLayoutCore
  cases hview : c.views.lookup fid with
  | none => exact ⟨h, fun view hview' => by rw [hview] at hview'; cases hview'⟩
  | some view =>
    have hok := h.viewOk hview; dsimp only
    cases hside : c.sideWindowFor fid with
    | none =>
      refine ⟨h.setView hview rfl hok.active, fun view' hview' hhidden => ?_⟩
      rw [setView_lookup_self] at hview'; cases hview'; cases hhidden
    | some side =>
      dsimp only; generalize (c.presentablePanelGrid fid).isNone = hidden
      have hset : Ok retained (c.setView fid { view with panelHidden := hidden }) :=
        h.setView hview rfl hok.active
      have hself := setView_lookup_self c fid { view with panelHidden := hidden }
      split
      case isTrue hshown =>
        refine ⟨hset, fun view' hview' hhidden => ?_⟩; rw [hself] at hview'; cases hview'
        rw [Bool.not_eq_true'] at hshown; rw [hshown] at hhidden; cases hhidden
      split
      case isTrue =>
        obtain ⟨target, htarget, hmem, hdocument⟩ :=
          nonSideTarget_ok hself hok.active (hset.viewOk hself).layout.document
        rw [htarget]; dsimp only; rw [setActive_of_lookup hself]
        refine ⟨hset.setView hself rfl hmem, fun view' hview' _ => ?_⟩
        rw [setView_lookup_self] at hview'; cases hview'; exact hdocument
      rename_i hactive
      refine ⟨hset, fun view' hview' _ => ?_⟩; rw [hself] at hview'; cases hview'
      -- the side window is the only one, and it is not active
      obtain ⟨v, hv, hmem, hside'⟩ := sideWindowFor_eq_some hside; rw [hview] at hv; cases hv
      rw [Bool.eq_false_iff]; intro hactive_side
      exact hactive (Layout.documentSubtree_unique (hok.layout.side _ hok.active hactive_side)
        (hok.layout.side _ hmem hside'))

end

/-! ## Displaying and quitting -/

theorem nonSideTarget_isSide {target : WindowId} (h : c.nonSideTarget fid = .ok target) :
    c.isSide target = false := by
  unfold nonSideTarget at h
  split at h
  · cases h
  split at h
  case isTrue hside =>
    cases h
    rwa [Bool.not_eq_true'] at hside
  dsimp only at h
  split at h
  case h_1 origin horigin =>
    cases h; exact (of_decide_eq_true (filter_eq_some_iff.1 horigin).2).2
  case h_2 =>
    split at h
    case h_1 first hfirst =>
      cases h; have hnot := find?_some hfirst
      rwa [Bool.not_eq_true'] at hnot
    case h_2 => cases h

variable {request : DisplayRequest} {placement : Placement}

theorem resolveOrdinary_ok (h : c.resolveOrdinary fid view request = .ok placement) :
    placement.kind = .ordinary ∧ c.isSide placement.target = false := by
  unfold resolveOrdinary at h
  split at h
  case h_1 existing hexisting =>
    cases h; have hfound := find?_some hexisting; rw [Bool.and_eq_true, Bool.not_eq_true'] at hfound
    exact ⟨rfl, hfound.1⟩
  case h_2 =>
    dsimp only at h
    split at h
    case h_1 candidate hcandidate =>
      cases h
      refine ⟨rfl, ?_⟩
      rcases mem_append.1 (mem_of_find?_eq_some hcandidate) with hmem | hmem
      · rw [mem_toList] at hmem
        cases hnonSide : c.nonSideTarget fid with
        | error e => rw [hnonSide] at hmem; cases hmem
        | ok target => rw [hnonSide] at hmem; cases hmem; exact nonSideTarget_isSide hnonSide
      have hnot := (List.mem_filter.1 hmem).2
      rwa [Bool.not_eq_true'] at hnot
    case h_2 => cases h

/-- The side window that a request takes for another buffer: one it names, or the frontend's. -/
def Replaces (c : EditorCore) (fid : FrontendId) (request : DisplayRequest) (target : WindowId) :
    Prop :=
  ∃ view w, c.views.lookup fid = some view ∧ c.windows target = some w ∧ w.isSide ∧
    w.params.dedicated = false ∧ w.bufferId ≠ request.bufferId ∧
    ((request.window = some target ∧ request.side = none ∧ target ∈ view.layout.iterIds) ∨
      (request.window = none ∧ request.side.isSome ∧ view.panelCapable ∧
        c.sideWindowFor fid = some target))

/-- Where a display lands: in a document window, in a side window of the frontend, or in a new
    one where there is none. -/
theorem resolvePlacement_cases (h : c.resolvePlacement fid request = .ok placement) :
    (placement.kind = .ordinary ∧ c.isSide placement.target = false) ∨
    (∃ replacing view, placement.kind = .side false replacing ∧ c.isSide placement.target ∧
      c.views.lookup fid = some view ∧ placement.target ∈ view.layout.iterIds ∧
      ∀ w, c.windows placement.target = some w → w.bufferId ≠ request.bufferId →
        c.Replaces fid request placement.target) ∨
    (placement.kind = .side true false ∧ placement.target = c.nextWindow ∧
      c.sideWindowFor fid = none) := by
  unfold resolvePlacement at h
  split at h
  · cases h
  case isFalse hexclusive =>
    cases hview : c.views.lookup fid with
    | none => rw [hview] at h; cases h
    | some view =>
      rw [hview] at h; dsimp only at h
      cases hwindow : request.window with
      | some target =>
        rw [hwindow] at h; dsimp only at h; unfold resolveExact at h
        split at h
        · cases h
        case isFalse hmem =>
          cases hw : c.windows target with
          | none => rw [hw] at h; cases h
          | some window =>
            rw [hw] at h; dsimp only at h
            split at h
            · cases h
            case isFalse haccepts =>
              split at h
              · cases h
              split at h
              case isTrue hside =>
                cases h
                refine .inr (.inl ⟨_, view, rfl, by rwa [isSide, hw], rfl, not_not.1 hmem,
                  fun w hw' hne => ⟨view, w, hview, hw', ?_⟩⟩)
                cases hw.symm.trans hw'
                exact ⟨hside, by simpa [windowAcceptsBuffer, hw, hne] using haccepts, hne,
                  .inl ⟨hwindow, by simpa [hwindow] using hexclusive, not_not.1 hmem⟩⟩
              case isFalse hside =>
                cases h
                refine .inl ⟨rfl, ?_⟩; rw [isSide, hw]; exact Bool.eq_false_iff.2 hside
      | none =>
        rw [hwindow] at h; dsimp only at h
        split at h
        case isTrue hpanel =>
          rw [Bool.and_eq_true] at hpanel
          cases hside : c.sideWindowFor fid with
          | none => rw [hside] at h; cases h; exact .inr (.inr ⟨rfl, rfl, rfl⟩)
          | some side =>
            rw [hside] at h; dsimp only at h
            obtain ⟨v, hv, hmem, hside'⟩ := sideWindowFor_eq_some hside; rw [hview] at hv; cases hv
            cases hw : c.windows side with
            | none => rw [hw] at h; cases h
            | some window =>
              rw [hw] at h; dsimp only at h
              split at h
              case isTrue hshows =>
                cases h
                exact .inr (.inl ⟨_, view, rfl, hside', rfl, hmem, fun w hw' hne => absurd
                  ((congrArg Window.bufferId (some_inj.1 (hw'.symm.trans hw))).trans hshows) hne⟩)
              · split at h
                case isTrue hfree =>
                  cases h
                  refine .inr (.inl ⟨_, view, rfl, hside', rfl, hmem,
                    fun w hw' hne => ⟨view, w, hview, hw', ?_⟩⟩)
                  cases hw.symm.trans hw'; rw [isSide, hw] at hside'
                  exact ⟨hside', by simpa using hfree, hne, .inr ⟨hwindow, hpanel.1, hpanel.2, hside⟩⟩
                · exact .inl (resolveOrdinary_ok h)
        split at h
        · cases h
        · exact .inl (resolveOrdinary_ok h)

/-! ### What a display and a quit leave -/

theorem installBufferInWindow_error {target : WindowId} {bufferId : BufferId} {e : Refusal}
    (h : (c.installBufferInWindow target bufferId).2 = .error e) :
    (c.installBufferInWindow target bufferId).1 = c := by
  unfold installBufferInWindow at h ⊢
  split
  · rfl
  split
  · rfl
  split
  · rfl
  · simp_all

def withWindow (c : EditorCore) (target : WindowId) (w : Window) : EditorCore :=
  { c.setWindow target w with nextWindow := max c.nextWindow (target + 1) }

def sideWindow (c : EditorCore) (fid : FrontendId) (request : DisplayRequest) (rows : ℕ)
    (text : Text) : Window :=
  { Window.new request.bufferId (.new text) with
    params := ⟨some (request.side.getD .bottom), some rows, request.dedicated.getD false,
      some .delete, (c.nonSideTarget fid).toOption⟩ }

theorem applyCreated_cases (c : EditorCore) (fid : FrontendId) (request : DisplayRequest)
    (target : WindowId) : (∃ e, c.applyCreated fid request target = (c, .error e)) ∨
      ∃ rows text, c.registry.get request.bufferId = some text ∧
        c.applyCreated fid request target =
          ((c.withWindow target (c.sideWindow fid request rows text)).modifyView fid fun view =>
            { view with layout := view.layout.installSideLeaf target }, .ok ()) := by
  unfold applyCreated
  cases clampPanelRows (request.height.getD request.defaultPanelRows) with
  | error e => exact .inl ⟨e, rfl⟩
  | ok rows =>
    cases hget : c.registry.get request.bufferId with
    | none => exact .inl ⟨_, rfl⟩
    | some text => exact .inr ⟨rows, text, rfl, rfl⟩

/-- A display is refused, or its placement is applied; no dedication of a side window is then
    refused. -/
theorem displayBuffer_cases (c : EditorCore) (fid : FrontendId) (request : DisplayRequest) :
    (∃ e, c.displayBuffer fid request = (c, .error e)) ∨
    ∃ placement, c.resolvePlacement fid request = .ok placement ∧
      (placement.kind.isSide → request.dedicated = some true →
        c.panelCommitDedicationRefusal fid = none) ∧
      (c.displayBuffer fid request).1 = (c.applyPlacement fid request placement).1 ∧
      ∀ e, (c.displayBuffer fid request).2 = .error e ↔
        (c.applyPlacement fid request placement).2 = .error e := by
  unfold displayBuffer
  cases c.views.lookup fid with
  | none => exact .inl ⟨_, rfl⟩
  | some view =>
    dsimp only
    cases c.resolvePlacement fid request with
    | error e => exact .inl ⟨e, rfl⟩
    | ok placement =>
      dsimp only
      generalize hrefusal : (if request.dedicated = some true ∧ placement.kind.isSide then
        c.panelCommitDedicationRefusal fid else none) = refusal
      cases refusal with
      | some reason => exact .inl ⟨_, rfl⟩
      | none =>
        refine .inr ⟨placement, rfl, fun hside hrequest => ?_, ?_⟩
        · rwa [if_pos ⟨hrequest, hside⟩] at hrefusal
        dsimp only
        generalize c.applyPlacement fid request placement = applied
        obtain ⟨c₁, e | _⟩ := applied
        · exact ⟨rfl, fun e' => by simp⟩
        · exact ⟨rfl, fun e' => by simp⟩

/-- What a display leaves: the core, or what it makes of a document window, of a side window or
    of a new one. -/
theorem displayBuffer_leaves {P : EditorCore → Prop} (hnone : P c)
    (hordinary : ∀ target, c.isSide target = false → P (c.applyOrdinary request target).1)
    (hreused : ∀ target replacing view, c.isSide target → c.views.lookup fid = some view →
      target ∈ view.layout.iterIds → (request.dedicated = some true →
        c.panelCommitDedicationRefusal fid = none) → P (c.applyReused request target replacing).1)
    (hcreated : c.sideWindowFor fid = none → (request.dedicated = some true →
      c.panelCommitDedicationRefusal fid = none) →
        P (c.applyCreated fid request c.nextWindow).1) : P (c.displayBuffer fid request).1 := by
  rcases displayBuffer_cases c fid request with ⟨e, heq⟩ | ⟨placement, hresolve, hallowed, heq, -⟩
  · rw [heq]; exact hnone
  rw [heq, applyPlacement]
  rcases resolvePlacement_cases hresolve with ⟨hkind, hdocument⟩ |
    ⟨replacing, view, hkind, hside, hview, hmem, -⟩ | ⟨hkind, htarget, hfree⟩
  · rw [hkind]; exact hordinary placement.target hdocument
  · rw [hkind] at hallowed ⊢
    exact hreused placement.target replacing view hside hview hmem (hallowed rfl)
  · rw [hkind] at hallowed ⊢; rw [htarget]; exact hcreated hfree (hallowed rfl)

variable {answer : Answer QuitOutcome}

/-- A quit is refused, or closes the side window, or takes back what it showed. -/
theorem quitWindow_cases {target : WindowId}
    (h : c.quitWindow fid target = some answer) : (∃ e, answer = (c, .error e)) ∨
      (∃ c₁, c.removeSideWindow fid target = some c₁ ∧
        (answer.1 = c₁ ∨ ∃ origin, answer.1 = c₁.setActive fid origin) ∧
        ∃ outcome, answer.2 = .ok outcome) ∨
      ∃ bufferId dedicated outcome f,
        ((dedicated && c.isSide target) = true → c.panelCommitDedicationRefusal fid = none) ∧
        (∀ w, (f w).isSide = w.isSide ∧ (f w).params.dedicated = dedicated) ∧
        answer = ((c.installBufferInWindow target bufferId).1.modifyWindow target f,
          .ok outcome) := by
  unfold quitWindow at h
  split at h
  · cases h; exact .inl ⟨_, rfl⟩
  · obtain ⟨c₁, hremove, rfl⟩ := map_eq_some_iff.1 h
    refine .inr (.inl ⟨c₁, hremove, ?_, _, rfl⟩); dsimp only
    split
    · exact .inr ⟨_, rfl⟩
    · exact .inl rfl
  case h_3 bufferId fixedRows dedicated cursor viewTop goalCol selection next _ =>
    generalize hrefusal : (if (dedicated && c.isSide target) = true then
      c.panelCommitDedicationRefusal fid else none) = refusal at h
    cases refusal with
    | some reason => cases h; exact .inl ⟨_, rfl⟩
    | none =>
      have herror := @installBufferInWindow_error c target bufferId; dsimp only at h
      generalize hinstall : c.installBufferInWindow target bufferId = installed at h herror
      obtain ⟨c₁, e | _⟩ := installed
      · have hsame : c₁ = c := herror rfl
        cases h; exact .inl ⟨e, by rw [hsame]⟩
      cases h
      have hanswer := congrArg Prod.fst hinstall
      refine .inr (.inr ⟨bufferId, dedicated, _, _, fun hside => ?_, ?_, by rw [hanswer]⟩)
      · rwa [if_pos hside] at hrefusal
      · exact fun w => ⟨rfl, rfl⟩

/-! ### Refusals -/

/-- A height of no rows, which is refused when the side window has the buffer already. -/
def LateHeight (c : EditorCore) (fid : FrontendId) (request : DisplayRequest) : Prop :=
  request.height = some 0 ∧ (c.registry.get request.bufferId).isSome ∧
    (request.dedicated = some true → c.panelCommitDedicationRefusal fid = none) ∧
    ∃ target, c.Replaces fid request target

theorem LateHeight.refused (h : c.LateHeight fid request) :
    ∃ e, (c.displayBuffer fid request).2 = .error e ∧ (c.displayBuffer fid request).1 ≠ c := by
  obtain ⟨hheight, hget, hallowed, target, view, w, hview, hw, hside, hfree, hne, hplace⟩ := h
  obtain ⟨text, hget⟩ := isSome_iff_exists.1 hget
  have hresolve : c.resolvePlacement fid request = .ok ⟨target, .side false true⟩ := by
    rcases hplace with ⟨hwindow, hnone, hmem⟩ | ⟨hwindow, hsome, hcapable, hfor⟩
    · simp [resolvePlacement, resolveExact, windowAcceptsBuffer, hwindow, hnone, hview, hmem, hw,
        hside, hfree, hne]
    · simp [resolvePlacement, hwindow, hsome, hcapable, hview, hfor, hw, hfree, hne]
  have hdisplay : ∃ e, c.displayBuffer fid request =
      (c.setWindow target (w.switchTo request.bufferId text), .error e) := by
    have hrefusal : (if request.dedicated = some true ∧ (PlacementKind.side false true).isSide then
        c.panelCommitDedicationRefusal fid else none) = none := by
      split
      case isTrue hcond => exact hallowed hcond.1
      case isFalse => rfl
    simp only [displayBuffer, hview, hresolve, hrefusal]
    simp [applyPlacement, applyReused, hw, installBufferInWindow, hget, hne, hheight,
      Option.mapM, clampPanelRows, Functor.map, Except.map]
  obtain ⟨e, hdisplay⟩ := hdisplay
  rw [hdisplay]
  refine ⟨e, rfl, fun hsame => hne ?_⟩
  have hself := setWindow_windows_self c target (w.switchTo request.bufferId text)
  replace hsame : c.setWindow target (w.switchTo request.bufferId text) = c := hsame
  rw [hsame, hw] at hself; rw [some_inj.1 hself]; rfl

/-- Nothing else of a display is refused after it changed something. -/
theorem displayBuffer_error {e : Refusal} (hlate : ¬ c.LateHeight fid request)
    (herror : (c.displayBuffer fid request).2 = .error e) :
    (c.displayBuffer fid request).1 = c := by
  rcases displayBuffer_cases c fid request with ⟨e', heq⟩ |
    ⟨placement, hresolve, hallowed, heq, happly⟩
  · rw [heq]
  replace happly := (happly e).1 herror; rw [heq]; unfold applyPlacement at happly ⊢
  have hinstall : ∀ {e}, (c.installBufferInWindow placement.target request.bufferId).2 =
    .error e → _ := installBufferInWindow_error
  rcases resolvePlacement_cases hresolve with ⟨hkind, -⟩ |
    ⟨replacing, view, hkind, -, -, -, hreplaces⟩ | ⟨hkind, -, -⟩
  · rw [hkind] at happly ⊢; dsimp only [applyOrdinary] at happly ⊢
    generalize c.installBufferInWindow placement.target request.bufferId = installed
      at happly hinstall ⊢
    obtain ⟨c₁, e' | _⟩ := installed
    · exact hinstall rfl
    · cases happly
  · rw [hkind] at happly hallowed ⊢; dsimp only [applyReused] at happly ⊢
    cases hw : c.windows placement.target with
    | none => rfl
    | some w =>
      rw [hw] at happly; dsimp only at happly ⊢
      cases hget : c.registry.get request.bufferId with
      | none => simp [installBufferInWindow, hget]
      | some text =>
        by_cases hne : w.bufferId = request.bufferId
        · simp only [installBufferInWindow, hget, hw, hne, if_true] at happly ⊢
          cases hclamp : request.height.mapM clampPanelRows with
          | error e' => rfl
          | ok height => rw [hclamp] at happly; cases happly
        have hheight : request.height = some 0 := by
          simp only [installBufferInWindow, hget, hw, hne, if_false] at happly
          cases hheight : request.height with
          | none => simp [hheight, Option.mapM] at happly; cases happly
          | some rows =>
            by_cases hrows : rows = 0
            · rw [hrows]
            · simp [hheight, Option.mapM, clampPanelRows, hrows, Functor.map, Except.map] at happly
        exact absurd ⟨hheight, by rw [hget]; rfl, hallowed rfl, _, hreplaces w hw hne⟩ hlate
  rw [hkind] at happly ⊢; dsimp only at happly ⊢
  rcases applyCreated_cases c fid request placement.target with ⟨e', heq⟩ | ⟨rows, text, -, heq⟩
  · rw [heq]
  · rw [heq] at happly; cases happly

theorem quitWindow_refused {target : WindowId} {e : Refusal}
    (hquit : c.quitWindow fid target = some answer) (h : answer.2 = .error e) : answer.1 = c := by
  rcases quitWindow_cases hquit with ⟨e', rfl⟩ | ⟨c₁, -, -, outcome, hanswer⟩ |
    ⟨bufferId, dedicated, outcome, g, -, -, rfl⟩
  · rfl
  · cases hanswer.symm.trans h
  · cases h

/-- **A display that is refused changes nothing, but for one that asks for no rows in a side
    window that shows another buffer. A quit that is refused changes nothing.** -/
theorem refused_unchanged (c : EditorCore) (fid : FrontendId) :
    (∀ request, (∀ e, (c.displayBuffer fid request).2 = .error e →
      (c.displayBuffer fid request).1 = c) ↔ ¬ c.LateHeight fid request) ∧
    ∀ target answer e, c.quitWindow fid target = some answer → answer.2 = .error e →
      answer.1 = c := by
  refine ⟨fun request => ⟨fun hsame hlate => ?_, fun hlate e => displayBuffer_error hlate⟩,
    fun _ _ _ => quitWindow_refused⟩
  obtain ⟨e, herror, hne⟩ := hlate.refused
  exact hne (hsame e herror)

/-- A panel that shows buffer 1 is asked for buffer 0 on no rows. -/
theorem refused_not_unchanged : ∃ events h request e, Host.start.run events = some h ∧
    (h.core.displayBuffer 2 request).2 = .error e ∧
    (h.core.displayBuffer 2 request).1 ≠ h.core := by
  refine ⟨[.created [], .attached true none,
    .displayed 2 ⟨1, none, some .bottom, none, none, none, 8⟩], _,
    ⟨0, none, some .bottom, some 0, none, none, 8⟩, _, rfl, rfl, fun hsame => ?_⟩
  have hshows := congrArg (fun c => (c.windows 2).map Window.bufferId) hsame
  cases hshows

/-! ### Agreement -/

variable (h : Ok retained c)
include h

theorem ok_applyCreated (hnone : c.sideWindowFor fid = none) :
    Ok retained (c.applyCreated fid request c.nextWindow).1 := by
  rcases applyCreated_cases c fid request c.nextWindow with ⟨e, heq⟩ | ⟨rows, text, hget, heq⟩
  · rw [heq]; exact h
  rw [heq]
  set window := c.sideWindow fid request rows text
  set c₁ := c.withWindow c.nextWindow window
  have hviews : c₁.views = c.views := rfl
  have hnext : c₁.nextWindow = c.nextWindow + 1 := Nat.max_eq_right (Nat.le_succ _)
  have hold : ∀ id, id ≠ c.nextWindow → c₁.windows id = c.windows id :=
    fun id hne => update_of_ne hne _ _
  have hnew : c₁.windows c.nextWindow = some window := update_self _ _ _
  have hkind : ∀ id, (c.kind id).isSome → c₁.kind id = c.kind id := by
    intro id hid; unfold kind; rw [hold id (Nat.ne_of_lt (h.table.lt hid))]
  have htable : TableOk c₁ := by
    refine ⟨?_, ?_, ?_, h.table.registry⟩
    · intro id w hw; rw [hnext]
      by_cases hid : id = c.nextWindow
      · rw [hid]; exact Nat.lt_succ_self _
      · rw [hold id hid] at hw; exact Nat.lt_succ_of_lt (h.table.old id w hw)
    · intro id w hw
      by_cases hid : id = c.nextWindow
      · rw [hid, hnew] at hw; cases hw; exact contains_of_get hget
      · rw [hold id hid] at hw; exact h.table.shown id w hw
    intro id w hw hquit
    by_cases hid : id = c.nextWindow
    · rw [hid, hnew] at hw; cases hw; rfl
    · rw [hold id hid] at hw; exact h.table.quits id w hw hquit
  unfold modifyView; rw [hviews]
  cases hview : c.views.lookup fid with
  | none =>
    refine h.of_places htable (.shown fid) id (fun p v hv => ?_) (fun p q _ _ heq => heq)
      (by rw [hviews]; exact h.localView)
    have hv' : c.viewAt retained p = some v := by
      cases p with
      | shown g => rwa [viewAt, hviews] at hv
      | kept token => exact hv
    have hok := h.views p v hv'
    exact ⟨hok.congr fun id hid => hkind id (hok.layout.live id hid),
      fun id hid => .inr ⟨v, hv', hid⟩⟩
  | some view =>
    have hok := h.viewOk hview
    have hfresh : c.nextWindow ∉ view.layout.iterIds := fun hmem =>
      Nat.lt_irrefl _ (h.table.lt (hok.layout.live _ hmem))
    have hdocuments : ∀ id ∈ view.layout.iterIds, c.isSide id = false := by
      rw [sideWindowFor, hview] at hnone; intro id hid; simpa using find?_eq_none.1 hnone id hid
    have hlayout : LayoutOk c₁ (view.layout.installSideLeaf c.nextWindow) := by
      refine hok.layout.install hdocuments hfresh ?_ fun id hid =>
        hkind id (hok.layout.live id hid)
      rw [kind_isSome, hnew]; rfl
    refine h.act (htable.setView fid _) ?_ (setView_lookup_self _ fid _) (fun g hg => ?_)
      (fun id hid _ => hkind id hid) fun id hid => ?_
    · refine ⟨?_, hlayout.congr fun _ _ => rfl⟩; rw [Layout.installSideLeaf_iterIds]
      exact mem_append_left _ hok.active
    · rw [setView_lookup_of_ne _ _ _ hg, hviews]
    rw [Layout.installSideLeaf_iterIds] at hid
    rcases mem_append.1 hid with hid | hid
    · exact .inl ⟨view, hview, hid⟩
    · exact .inr (by rw [mem_singleton.1 hid])

theorem ok_displayBuffer : Ok retained (c.displayBuffer fid request).1 :=
  displayBuffer_leaves h (fun target _ => h.keeps (stays_applyOrdinary c request target).toKeeps)
    (fun _ replacing _ hside _ _ _ => h.keeps (stays_applyReused c request replacing hside).toKeeps)
    fun hnone _ => ok_applyCreated h hnone

theorem ok_quitWindow (fid : FrontendId) (target : WindowId) :
    ∃ answer, c.quitWindow fid target = some answer ∧ Ok retained answer.1 := by
  unfold quitWindow
  cases haction : c.quitAction target with
  | error e => exact ⟨_, rfl, h⟩
  | ok action =>
    -- only a side window has an action
    have hside : ∃ w, c.windows target = some w ∧ w.params.quitAction.isSome ∧ w.isSide := by
      unfold EditorCore.quitAction at haction
      cases hw : c.windows target with
      | none => rw [hw] at haction; cases haction
      | some w =>
        rw [hw] at haction; dsimp only at haction
        cases hquit : w.params.quitAction with
        | none => rw [hquit] at haction; cases haction
        | some action' =>
          have hsome : w.params.quitAction.isSome := by rw [hquit]; rfl
          exact ⟨w, rfl, hsome, h.table.quits target w hw hsome⟩
    obtain ⟨w, hw, hquit, hside⟩ := hside
    have hkind : c.kind target = some true := by unfold kind; rw [hw, map_some, hside]
    cases action with
    | delete =>
      dsimp only; unfold quitDelete; dsimp only
      have hpinned : c.kind target ≠ some false := by rw [hkind]; simp
      obtain ⟨c', hremove, hok, -⟩ := ok_removeSideWindow h fid hpinned; rw [hremove, map_some]
      refine ⟨_, rfl, ?_⟩; dsimp only
      split
      case h_1 origin horigin =>
        obtain ⟨-, hvalid⟩ := filter_eq_some_iff.1 horigin; rw [Bool.and_eq_true] at hvalid
        have howns : c'.ownsWindow fid origin := hvalid.1
        obtain ⟨view, hview, hmem⟩ := ownsWindow_iff.1 howns; exact hok.setActive hview hmem
      case h_2 => exact hok
    | restore bufferId fixedRows dedicated cursor viewTop goalCol selection next =>
      dsimp only
      generalize (if (dedicated && c.isSide target) = true then
        c.panelCommitDedicationRefusal fid else none) = refusal
      cases refusal with
      | some reason => exact ⟨_, rfl, h⟩
      | none =>
        dsimp only; have hinstall := stays_installBufferInWindow c target bufferId
        generalize c.installBufferInWindow target bufferId = installed at hinstall ⊢
        obtain ⟨c₁, e | _⟩ := installed
        · exact ⟨_, rfl, h.keeps hinstall.toKeeps⟩
        refine ⟨_, rfl, (h.keeps hinstall.toKeeps).keeps (keeps_modifyWindow ?_ fun w => rfl)⟩
        intro w' hw'
        refine ⟨rfl, fun _ => .inl ?_⟩; have hsame := hinstall.isSide_window hw hw'
        rwa [hside] at hsame

end EditorCore

end Pmacs.Display
