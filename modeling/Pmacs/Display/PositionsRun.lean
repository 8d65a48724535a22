/-
  The positions of the windows along a run.

  * `places_closeActive`, `places_removeSideWindow`, `places_displayBuffer`:
    the window operations leave each window where it was, or at the start of a buffer;
  * `Clean`: the events after which every position is in range;
  * `positions_in_range`: so it is along every run of clean events, and after no other event.
-/
import Pmacs.Display.Commit
import Pmacs.Display.Positions

namespace Pmacs.Display

open Lib Function Option

namespace EditorCore

variable {c c' : EditorCore} {retained : Assoc ℕ FrontendView} {fid : FrontendId}
  {view : FrontendView}

variable {bufferId : BufferId} {answer : EditorCore × Bool} {text : Text} {w : Window}
  {target : WindowId}

/-! ## Windows that stay, and windows that go -/

theorem places_sub (hwindows : ∀ id w, c'.windows id = some w → c.windows id = some w)
    (hregistry : c'.registry = c.registry) : Places c c' :=
  fun id w hw => .inl ⟨w, hwindows id w hw, .refl w, by rw [hregistry]⟩

theorem places_setView (c : EditorCore) (fid : FrontendId) (view : FrontendView) :
    Places c (c.setView fid view) := places_sub (fun _ _ hw => hw) rfl

theorem places_setActive (c : EditorCore) (fid : FrontendId) (id : WindowId) :
    Places c (c.setActive fid id) := by
  unfold setActive modifyView
  split
  · exact places_setView c fid _
  · exact .refl c

theorem places_removeWindow (c : EditorCore) (id : WindowId) : Places c (c.removeWindow id) := by
  refine places_sub (fun j w hw => ?_) rfl
  by_cases hj : j = id
  · rw [hj, removeWindow_windows_self] at hw; cases hw
  · rwa [removeWindow_windows_of_ne _ _ hj] at hw

theorem places_foldl_removeWindow (ids : List WindowId) (c : EditorCore) :
    Places c (ids.foldl removeWindow c) := by
  induction ids generalizing c with
  | nil => exact .refl c
  | cons id ids ih => exact (places_removeWindow c id).trans (ih (c.removeWindow id))

theorem places_focusWindow (c : EditorCore) (fid : FrontendId) (target : WindowId) :
    Places c (c.focusWindow fid target) := by
  unfold focusWindow
  split
  · exact .refl c
  · exact (places_setActive c fid target).trans (stays_noteFocusTransition _ _ target).places

theorem places_focusStep {forward : Bool} (h : c.focusStep forward = some c') : Places c c' := by
  unfold focusStep at h
  split at h
  · cases h
  · cases h; exact (places_setActive c _ _).trans (stays_noteFocusTransition _ _ _).places

theorem places_create (htable : TableOk c) (text : Text) :
    Places c { c with registry := (c.registry.create text).1 } := fun id w hw =>
  .inl ⟨w, hw, .refl w, get_create htable.registry (of_decide_eq_true (htable.shown id w hw))⟩

theorem places_insert (id : WindowId) (hstart : AtStart c w) (nextWindow : WindowId) :
    Places c { c.setWindow id w with nextWindow := nextWindow } := by
  intro j v hv
  replace hv : (c.setWindow id w).windows j = some v := hv
  by_cases hj : j = id
  · rw [hj, setWindow_windows_self, some.injEq] at hv; rw [← hv]
    exact .inr ⟨hstart.textView, hstart.cursor, hstart.selection, hstart.viewTop⟩
  · rw [setWindow_windows_of_ne _ _ _ hj] at hv; exact .inl ⟨v, hv, .refl v, rfl⟩

theorem places_addWindow (hget : c.registry.get bufferId = some text) :
    Places c (c.addWindow (.new bufferId (.new text))).1 :=
  places_insert c.nextWindow (new_atStart hget) (c.nextWindow + 1)

theorem places_trySplitActive (htable : TableOk c) {orientation : Orientation} {sameBuffer : Bool}
    {answer : Answer WindowId} (h : c.trySplitActive orientation sameBuffer = some answer) :
    Places c answer.1 := by
  unfold trySplitActive at h
  split at h
  · cases h
  split at h
  · cases h; exact .refl c
  obtain ⟨split, hsplit, rfl⟩ := map_eq_some_iff.1 h
  obtain ⟨view, registry, bufferId, text, -, hregistry, hget, hanswer⟩ := splitActive_cases hsplit
  show Places c split.1
  rw [hanswer]
  have hfirst : Places c { c with registry := registry } := by
    rcases hregistry with rfl | rfl
    · exact .refl c
    · exact places_create htable []
  exact (hfirst.trans (places_addWindow hget)).trans (places_setView _ _ _)

theorem places_closeActive (h : c.closeActive = some answer) : Places c answer.1 := by
  unfold closeActive at h
  split at h
  · cases h
  dsimp only at h
  split at h
  · cases h; exact .refl c
  split at h
  · cases h
  cases h
  refine Places.trans ?_ (stays_noteFocusTransition _ _ _).places
  refine Places.trans ?_ (places_setActive _ _ _)
  exact (places_setView c _ _).trans (places_removeWindow _ _)

theorem places_closeOthers {answer : Answer Unit} (h : c.closeOthers = some answer) :
    Places c answer.1 := by
  unfold closeOthers at h
  split at h
  · cases h
  dsimp only at h
  split at h
  · cases h; exact .refl c
  · cases h; exact (places_setView c _ _).trans (places_foldl_removeWindow _ _)

theorem places_removeSideWindow {side : WindowId} (h : c.removeSideWindow fid side = some c') :
    Places c c' := by
  unfold removeSideWindow at h
  split at h
  · cases h; exact .refl c
  split at h
  · cases h; exact .refl c
  dsimp only at h
  split at h
  · split at h
    · cases h
    cases h
    refine Places.trans ?_ (stays_forgetOrigin _ side).places
    split
    · exact ((places_setView c fid _).trans (places_removeWindow _ side)).trans
        (places_setActive _ fid _)
    · exact (places_setView c fid _).trans (places_removeWindow _ side)
  cases h
  exact ((places_setView c fid _).trans (places_removeWindow _ side)).trans
    (stays_forgetOrigin _ side).places

theorem places_removeSides {sides : List (FrontendId × WindowId)}
    (h : removeSides sides c = some c') : Places c c' := by
  induction sides generalizing c with
  | nil => cases h; exact .refl _
  | cons e sides ih =>
    obtain ⟨c₁, hremove, hrest⟩ := bind_eq_some_iff.1 h
    exact (places_removeSideWindow hremove).trans (ih hrest)

theorem places_switchShowing (c : EditorCore) (bufferId : BufferId) {fallback : BufferId}
    (hget : c.registry.get fallback = some text) : Places c (c.mapWindows fun w =>
      if w.bufferId = bufferId then w.switchTo fallback text else w) := by
  intro id w' hw'
  obtain ⟨w, hw, rfl⟩ := map_eq_some_iff.1 hw'
  by_cases hshows : w.bufferId = bufferId
  · rw [if_pos hshows]; have hstart := switchTo_atStart hget w
    exact .inr ⟨hstart.textView, hstart.cursor, hstart.selection, hstart.viewTop⟩
  · rw [if_neg hshows]; exact .inl ⟨w, hw, .refl w, rfl⟩

theorem get_filter {r : Registry} {id : BufferId} (hne : id ≠ bufferId) :
    ({ r with order := r.order.filter (· ≠ bufferId) } : Registry).get id = r.get id := by
  unfold Registry.get
  simp [hne]

theorem allSeated_killBuffer (h : Ok retained c) (hseated : AllSeated c)
    {scratch : Option BufferId} {midEdit : Bool} {answer : Answer Unit}
    (hkill : c.killBuffer scratch midEdit bufferId = some answer) : AllSeated answer.1 := by
  unfold killBuffer at hkill
  cases hcontains : c.registry.contains bufferId with
  | false => rw [hcontains] at hkill; cases hkill; exact hseated
  | true =>
    rw [hcontains, Bool.not_true, if_neg Bool.false_ne_true] at hkill
    split at hkill
    · cases hkill; exact hseated
    have hfallback : Places c (c.fallbackBufferFor scratch bufferId).1 := by
      unfold fallbackBufferFor; dsimp only
      split
      · exact .refl c
      split
      · exact .refl c
      · exact places_create h.table []
    obtain ⟨-, hregistered, hne, -⟩ := ok_fallbackBufferFor h scratch hcontains
    generalize c.fallbackBufferFor scratch bufferId = fallback at hkill hfallback hregistered hne
    obtain ⟨c₁, fallback⟩ := fallback; dsimp only at hkill hfallback hregistered hne
    cases hremove : removeSides (c₁.doomedSides bufferId) c₁ with
    | none => rw [hremove] at hkill; cases hkill
    | some c₂ =>
      rw [hremove] at hkill
      have hseated₂ := hseated.places (hfallback.trans (places_removeSides hremove))
      dsimp only at hkill
      cases hget : c₂.registry.get fallback with
      | none => rw [hget] at hkill; cases hkill; exact hseated₂
      | some text =>
        rw [hget] at hkill
        have hseated₃ := hseated₂.places (places_switchShowing c₂ bufferId hget)
        dsimp only at hkill; unfold Registry.remove at hkill
        split at hkill
        case h_1 registry hremoved =>
          cases hkill
          split at hremoved
          · split at hremoved
            · cases hremoved
            cases hremoved; intro id w' hw'
            have hshows : w'.bufferId ≠ bufferId := by
              obtain ⟨w, hw, rfl⟩ := map_eq_some_iff.1 hw'
              by_cases hw_shows : w.bufferId = bufferId
              · rw [if_pos hw_shows]; exact hne
              · rw [if_neg hw_shows]; exact hw_shows
            exact (hseated₃ id w' hw').samePlace (.refl w') (get_filter hshows)
          · cases hremoved
        case h_2 =>
          cases hkill; exact hseated₃

/-! ## Frames and displays -/

theorem places_declareFrameGeometry (c : EditorCore) (fid : FrontendId) (total : CellSize) :
    Places c (c.declareFrameGeometry fid total).1 := by
  unfold declareFrameGeometry
  split
  · exact .refl c
  split
  · exact .refl c
  dsimp only
  split
  · exact places_setView c fid _
  · exact places_setView c fid _

theorem places_acceptFrameGeometry {c : EditorCore} {fid : FrontendId} (geometryEpoch : ℕ)
    {total : CellSize} : Places c (c.acceptFrameGeometry fid geometryEpoch total).1 := by
  unfold acceptFrameGeometry
  split
  · exact .refl c
  dsimp only
  split
  · exact places_setView c fid _
  · exact .refl c

theorem places_reconcile (c : EditorCore) (fid : FrontendId) :
    Places c (c.reconcilePanelLayoutCore fid).1 := by
  unfold reconcilePanelLayoutCore
  split
  · exact .refl c
  split
  · exact places_setView c fid _
  dsimp only
  split
  · exact places_setView c fid _
  split
  · split
    · exact (places_setView c fid _).trans (places_setActive _ fid _)
    · exact places_setView c fid _
  · exact places_setView c fid _

theorem places_applyCreated {c : EditorCore} {fid : FrontendId} {request : DisplayRequest}
    {target : WindowId} : Places c (c.applyCreated fid request target).1 := by
  rcases applyCreated_cases c fid request target with ⟨e, heq⟩ | ⟨rows, text, hget, heq⟩
  · rw [heq]; exact .refl c
  have hnew := new_atStart hget
  have hstart : AtStart c (c.sideWindow fid request rows text) :=
    ⟨hnew.textView, hnew.cursor, hnew.selection, hnew.viewTop⟩
  have hfirst := places_insert target hstart (max c.nextWindow (target + 1))
  rw [heq]; unfold modifyView
  split
  · exact hfirst.trans (places_setView _ fid _)
  · exact hfirst

theorem places_displayBuffer (c : EditorCore) (fid : FrontendId) (request : DisplayRequest) :
    Places c (c.displayBuffer fid request).1 :=
  displayBuffer_leaves (.refl c) (fun target _ => (stays_applyOrdinary c request target).places)
    (fun _ replacing _ hside _ _ _ => (stays_applyReused c request replacing hside).places)
    fun _ _ => places_applyCreated

/-! ## Frontends that go, and jumps -/

theorem places_take (c : EditorCore) (fid : FrontendId) : Places c (c.takeFrontendView fid).1 :=
  places_sub (fun _ _ hw => hw) rfl

theorem places_discard (c : EditorCore) (view : FrontendView) :
    Places c (c.discardViewWindows view) := places_foldl_removeWindow _ c

theorem places_unregister (c : EditorCore) (fid : FrontendId) :
    Places c (c.unregisterFrontendView fid) := by
  have htake := places_take c fid
  unfold unregisterFrontendView
  generalize c.takeFrontendView fid = taken at htake ⊢
  obtain ⟨c₁, _ | view⟩ := taken
  · exact htake
  · exact htake.trans (places_discard c₁ view)

theorem places_pushJump (h : c.pushJump = some c') : Places c c' := by
  unfold pushJump at h
  split at h
  · cases h
  split at h
  · cases h
  · cases h; exact places_sub (fun _ _ hw => hw) rfl

theorem modifyActive_cases {f : Text → Window → Window} (h : c.modifyActive f = some c') :
    ∃ id w, c.activeWindowId = some id ∧ c.windows id = some w ∧
      c' = c.setWindow id (f ((c.registry.get w.bufferId).getD []) w) := by
  unfold modifyActive at h
  split at h
  case h_1 => cases h
  case h_2 id hid =>
    split at h
    case h_1 => cases h
    case h_2 w hw => exact ⟨id, w, hid, hw, (some.inj h).symm⟩

theorem room_motion (hview : w.textView = .new text) (hroom : Room text.length text.lines w)
    (motion : Motion) (hanchor : ∀ anchor, motion = .beginSelection anchor → anchor ≤ text.length) :
    Room text.length text.lines (motion.apply text w) := by
  cases motion with
  | setCursorByte byte => exact ⟨min_le_right _ _, hroom.selection, hroom.viewTop⟩
  | moveToLine line =>
    refine ⟨?_, hroom.selection, hroom.viewTop⟩
    show ((w.textView.lineOffset _).getD text.length) ≤ text.length
    cases hoffset : w.textView.lineOffset (min line (max w.textView.lineCount 1 - 1)) with
    | none => exact le_rfl
    | some offset => rw [hview] at hoffset; exact TextView.le_of_lineOffset hoffset
  | setViewTop folds top =>
    refine ⟨hroom.cursor, hroom.selection, ?_⟩
    show min _ (min top (w.textView.lineCount - 1)) < text.lines
    have hpos := TextView.lines_pos text; rw [hview, TextView.lineCount_new]; omega
  | beginSelection anchor =>
    refine ⟨hroom.cursor, fun anchor' hsome => ?_, hroom.viewTop⟩; cases hsome; exact hanchor _ rfl
  | clearSelection => exact ⟨hroom.cursor, nofun, hroom.viewTop⟩
  | selectAll =>
    refine ⟨le_rfl, fun anchor hsome => ?_, hroom.viewTop⟩; cases hsome; exact Nat.zero_le _

section
variable (h : AllSeated c)
include h

/-- **A motion keeps every position, but for an anchor that is given past the buffer's end.** -/
theorem motion_positions {motion : Motion} (hmotion : c.motion motion = some c') :
    ((∀ anchor, motion = .beginSelection anchor → ∀ w text, c.activeWindow = some w →
      c.registry.get w.bufferId = some text → anchor ≤ text.length) → AllSeated c') ∧
    (PositionsOk c' → ∀ anchor, motion = .beginSelection anchor → ∀ w text,
      c.activeWindow = some w → c.registry.get w.bufferId = some text → anchor ≤ text.length) := by
  rw [motion_eq] at hmotion
  obtain ⟨id, w, hid, hw, rfl⟩ := modifyActive_cases hmotion
  obtain ⟨text, hget, hview, hroom⟩ := h id w hw
  have hactive : c.activeWindow = some w := by rw [activeWindow, hid, bind_some, hw]
  rw [hget, getD_some]
  constructor
  · intro hanchor
    have hroom' := room_motion hview hroom motion fun anchor heq =>
      hanchor anchor heq w text hactive hget
    refine h.setWindow id ⟨text, ?_, ?_, hroom'⟩
    · rw [(quiet_motion motion text w).2]; exact hget
    rw [← hview]
    cases motion with
    | setCursorByte | moveToLine | setViewTop | beginSelection | clearSelection | selectAll => rfl
  rintro hpositions anchor rfl w' text' hw' hget'; rw [hactive, some.injEq] at hw'; subst hw'
  rw [hget, some.injEq] at hget'; subst hget'
  exact (hpositions id _ text (setWindow_windows_self c id _) hget).selection anchor rfl

theorem allSeated_landJump {entry : JumpEntry}
    (hland : c.landJump entry = some answer) : AllSeated answer.1 := by
  obtain ⟨c', hset, rfl⟩ := map_eq_some_iff.1 hland
  have hmoved : c.motion (.setCursorByte entry.position) = some c' := hset
  exact (motion_positions h hmoved).1 nofun

theorem allSeated_jumpBackTo {ring : List JumpEntry}
    (hjump : c.jumpBackTo fid ring = some answer) : AllSeated answer.1 := by
  have hring : ∀ entries, Places c { c with jumpRing := Function.update c.jumpRing fid entries } :=
    fun entries => places_sub (fun _ _ hw => hw) rfl
  induction ring with
  | nil => cases hjump; exact h.places (hring [])
  | cons entry ring ih =>
    have hring₁ := hring ring.reverse; rw [jumpBackTo] at hjump
    split at hjump
    · exact ih hjump
    split at hjump
    · exact allSeated_landJump
        (h.places (hring₁.trans (places_focusWindow _ fid entry.windowId))) hjump
    split at hjump
    · exact ih hjump
    split at hjump
    · exact allSeated_landJump (h.places hring₁) hjump
    have hswitch := (stays_switchActiveBufferFor
      { c with jumpRing := Function.update c.jumpRing fid ring.reverse } fid entry.bufferId).places
    generalize EditorCore.switchActiveBufferFor _ fid entry.bufferId = answer at hswitch hjump
    obtain ⟨c₂, e | _⟩ := answer
    · exact ih hjump
    · exact allSeated_landJump (h.places (hring₁.trans hswitch)) hjump

variable {edit : Option TextEdit}

theorem allSeated_historyStep (hstep : c.historyStep edit = some c') : AllSeated c' := by
  unfold historyStep at hstep
  split at hstep
  case h_1 => cases hstep
  case h_2 w _ =>
    obtain ⟨c₁, hdrop, rfl⟩ := map_eq_some_iff.1 hstep
    obtain ⟨id, v, -, hv, rfl⟩ := modifyActive_cases hdrop
    have hdropped := h.places (places_setWindow hv
      (.inl (samePlace_dropGoal ((c.registry.get v.bufferId).getD []) v)))
    cases edit with
    | none => exact hdropped
    | some edit => exact allSeated_announce hdropped w.bufferId edit

theorem allSeated_revertActiveBuffer
    (hrevert : c.revertActiveBuffer edit = some c') : AllSeated c' := by
  unfold revertActiveBuffer at hrevert
  split at hrevert
  case h_1 => cases hrevert
  case h_2 w _ =>
    cases hrevert
    cases edit with
    | none => exact h
    | some edit => exact allSeated_announce h w.bufferId edit

end

/-! ## What is taken back, and what a declaration aligns -/

/-- Quitting the window takes back a presentation of that buffer, from that line on. -/
def Restores (c : EditorCore) (fid : FrontendId) (target : WindowId) (bufferId : BufferId)
    (viewTop : ℕ) : Prop :=
  ∃ fixedRows dedicated cursor goalCol selection next,
    c.quitAction target =
      .ok (.restore bufferId fixedRows dedicated cursor viewTop goalCol selection next) ∧
    (dedicated && c.isSide target → c.panelCommitDedicationRefusal fid = none)

def RestoreRoom (c : EditorCore) (fid : FrontendId) (target : WindowId) : Prop :=
  ∀ bufferId viewTop text, Restores c fid target bufferId viewTop →
    c.registry.get bufferId = some text → viewTop < text.lines

theorem installBufferInWindow_ok {id : WindowId}
    (hw : c.windows id = some w) (hget : c.registry.get bufferId = some text) :
    ∃ c₁ w₁, c.installBufferInWindow id bufferId = (c₁, .ok ()) ∧ c₁.windows id = some w₁ ∧
      w₁.bufferId = bufferId := by
  unfold installBufferInWindow
  rw [hget]
  rw [hw]
  dsimp only
  split
  case isTrue hsame => exact ⟨c, w, rfl, hw, hsame⟩
  case isFalse => exact ⟨_, _, rfl, setWindow_windows_self c id _, rfl⟩

theorem places_quitDelete {answer : Answer QuitOutcome}
    (h : c.quitDelete fid target = some answer) : Places c answer.1 := by
  obtain ⟨c₁, hremove, rfl⟩ := map_eq_some_iff.1 h
  have hplaces := places_removeSideWindow hremove
  dsimp only
  split
  · exact hplaces.trans (places_setActive c₁ fid _)
  · exact hplaces

/-- What can be taken back is of a live window and a registered buffer. -/
theorem quitAction_restore {bufferId fixedRows cursor viewTop : ℕ}
    {dedicated : Bool} {goalCol selection : Option ℕ} {next : QuitAction} (h : c.quitAction target =
      .ok (.restore bufferId fixedRows dedicated cursor viewTop goalCol selection next)) :
    (∃ w, c.windows target = some w) ∧ ∃ text, c.registry.get bufferId = some text := by
  unfold quitAction at h
  split at h
  case h_1 => cases h
  case h_2 w hw =>
    refine ⟨⟨w, hw⟩, ?_⟩
    split at h
    · cases h
    · cases h
    split at h
    case isTrue hcontains =>
      cases h; exact ⟨_, get_of_contains hcontains⟩
    case isFalse => cases h

/-- **Quitting a window keeps every position, but for the first line that was shown.** -/
theorem quit_positions (h : AllSeated c) {answer : Answer QuitOutcome}
    (hquit : c.quitWindow fid target = some answer) : (RestoreRoom c fid target →
    AllSeated answer.1) ∧ (PositionsOk answer.1 → RestoreRoom c fid target) := by
  unfold quitWindow at hquit
  split at hquit
  case h_1 reason haction =>
    cases hquit
    refine ⟨fun _ => h, ?_⟩; rintro - bufferId viewTop text ⟨_, _, _, _, _, _, hrestore, -⟩
    cases haction.symm.trans hrestore
  case h_2 haction =>
    refine ⟨fun _ => h.places (places_quitDelete hquit), ?_⟩
    rintro - bufferId viewTop text ⟨_, _, _, _, _, _, hrestore, -⟩
    cases haction.symm.trans hrestore
  case h_3 bufferId fixedRows dedicated cursor viewTop goalCol selection next haction =>
    generalize hrefusal : (if (dedicated && c.isSide target) = true then
      c.panelCommitDedicationRefusal fid else none) = refusal at hquit
    cases refusal with
    | some reason =>
      cases hquit
      refine ⟨fun _ => h, ?_⟩
      rintro - bufferId' viewTop' text ⟨_, _, _, _, _, _, hrestore, hallowed⟩
      cases haction.symm.trans hrestore
      split at hrefusal
      case isTrue hcond => cases hrefusal.symm.trans (hallowed hcond)
      case isFalse => cases hrefusal
    | none =>
      obtain ⟨⟨w, hw⟩, text, hget⟩ := quitAction_restore haction
      have hinstall := stays_installBufferInWindow c target bufferId
      obtain ⟨c₁, w₁, hinstalled, hw₁, hshows⟩ := installBufferInWindow_ok hw hget
      dsimp only at hquit; rw [hinstalled] at hquit hinstall; cases hquit
      have hget₁ : c₁.registry.get bufferId = some text := by rw [hinstall.registry]; exact hget
      have hseated₁ := h.places hinstall.places
      have hlen : c₁.bufferLen bufferId = text.length := by rw [bufferLen, hget₁]; rfl
      have hview₁ : w₁.textView = .new text := by
        obtain ⟨text', hget', hview, -⟩ := hseated₁ target w₁ hw₁; rw [hshows, hget₁] at hget'
        rw [hview, some.inj hget']
      rw [hlen]
      constructor
      · intro hroom
        refine hseated₁.modifyWindow target fun v hv => ?_; rw [hw₁] at hv; cases hv
        refine ⟨text, by rw [← hget₁, ← hshows], hview₁, min_le_right _ _,
          fun anchor hanchor => ?_, ?_⟩
        · exact of_decide_eq_true (filter_eq_some_iff.1 hanchor).2
        refine hroom bufferId viewTop text ⟨_, _, _, _, _, _, haction, fun hcond => ?_⟩ hget
        rwa [if_pos hcond] at hrefusal
      rintro hpositions bufferId' viewTop' text' ⟨_, _, _, _, _, _, hrestore, -⟩ hget'
      cases haction.symm.trans hrestore; cases hget.symm.trans hget'
      unfold EditorCore.modifyWindow at hpositions; rw [hw₁] at hpositions
      have hposition := hpositions target _ text (setWindow_windows_self c₁ target _)
        (by rw [← hget₁, ← hshows]; rfl)
      have htop : viewTop < w₁.textView.lineCount := hposition.viewTop
      rwa [hview₁, TextView.lineCount_new] at htop

/-- The line that the document window of a frontend shows first, in the buffer it is to show. -/
def AlignRoom (c : EditorCore) (fid : FrontendId) (bufferId : BufferId) : Prop :=
  ∀ id w text, c.primaryDocumentWindow fid = some id → c.windows id = some w →
    w.bufferId ≠ bufferId → c.registry.get bufferId = some text → w.viewTop < text.lines

/-- **An alignment keeps every position, but for the first line that was shown.** -/
theorem align_positions (h : AllSeated c) (fid : FrontendId) (bufferId : BufferId) :
    (AlignRoom c fid bufferId → AllSeated (c.alignPrimaryDocumentWindow fid bufferId)) ∧
    (PositionsOk (c.alignPrimaryDocumentWindow fid bufferId) → AlignRoom c fid bufferId) := by
  unfold alignPrimaryDocumentWindow
  cases hprimary : c.primaryDocumentWindow fid with
  | none => exact ⟨fun _ => h, fun _ id w text hid => by cases hprimary.symm.trans hid⟩
  | some id =>
    dsimp only
    cases hw : c.windows id with
    | none =>
      refine ⟨fun _ => h, fun _ id' w text hid hw' => ?_⟩; cases hprimary.symm.trans hid
      cases hw.symm.trans hw'
    | some w =>
      dsimp only
      split
      case isTrue hshows =>
        refine ⟨fun _ => h, fun _ id' w' text hid hw' hne => ?_⟩; cases hprimary.symm.trans hid
        cases hw.symm.trans hw'; exact absurd hshows hne
      rename_i hshows
      cases hget : c.registry.get bufferId with
      | none =>
        refine ⟨fun _ => h, fun _ id' w' text hid hw' hne hget' => ?_⟩
        cases hget.symm.trans hget'
      | some text =>
        constructor
        · intro hroom
          refine h.setWindow id ⟨text, hget, rfl, Nat.zero_le _, nofun,
            hroom id w text hprimary hw hshows hget⟩
        rintro hpositions id' w' text' hid hw' - hget'; cases hprimary.symm.trans hid
        cases hw.symm.trans hw'; cases hget.symm.trans hget'
        have hposition := hpositions id _ text (setWindow_windows_self c id _) hget
        exact ((positionOk_iff rfl).1 hposition).viewTop

end EditorCore

/-! ## Runs -/

open EditorCore

/-- The events after which every position is in range. -/
def Clean (h : Host) : Event → Prop
  | .typed intercept typing => ∀ id w text op edit,
    h.core.Lands intercept typing id w text op edit → h.core.EditRoom typing id w text op edit
  | .quit fid target => h.core.ownsWindow fid target → h.core.RestoreRoom fid target
  | .aligned fid bufferId => h.core.AlignRoom fid bufferId
  | .moved motion => ∀ anchor, motion = .beginSelection anchor → ∀ w text,
    h.core.activeWindow = some w → h.core.registry.get w.bufferId = some text →
      anchor ≤ text.length
  | _ => True

variable {h h' : Host}

/-- **What one event leaves.** -/
theorem step_positions (hok : h.core.Ok h.retained) (hseated : h.core.AllSeated) {event : Event}
    (hstep : h.step event = some h') :
    (Clean h event → h'.core.AllSeated) ∧ (h'.core.PositionsOk → Clean h event) := by
  -- most events move no window out of its buffer
  have hkeep {h' : Host} : h'.core.AllSeated → Clean h event →
      (Clean h event → h'.core.AllSeated) ∧ (h'.core.PositionsOk → Clean h event) :=
    fun hseated' hclean => ⟨fun _ => hseated', fun _ => hclean⟩
  suffices hensures : Ensures (h.step event) fun h' =>
      (Clean h event → h'.core.AllSeated) ∧ (h'.core.PositionsOk → Clean h event) from
    hensures h' hstep
  cases event with
  | dispatched fid => exact ensures_some (hkeep (hseated.sub (fun _ _ hw => hw) rfl) trivial)
  | split orientation sameBuffer =>
    exact Ensures.map fun _ ha => hkeep (hseated.places (places_trySplitActive hok.table ha)) trivial
  | closedActive =>
    exact Ensures.map fun _ ha => hkeep (hseated.places (places_closeActive ha)) trivial
  | closedOthers =>
    exact Ensures.map fun _ ha => hkeep (hseated.places (places_closeOthers ha)) trivial
  | focusStepped forward =>
    exact Ensures.map fun _ ha => hkeep (hseated.places (places_focusStep ha)) trivial
  | focused fid target =>
    rw [Host.step]
    split
    case isTrue =>
      exact ensures_some (hkeep (hseated.places (places_focusWindow h.core fid target)) trivial)
    case isFalse => exact ensures_some (hkeep hseated trivial)
  | quit fid target =>
    rw [Host.step]
    split
    case isTrue howns =>
      refine Ensures.map fun _ ha => ?_
      obtain ⟨hroom, hroom'⟩ := quit_positions hseated ha
      exact ⟨fun hclean => hroom (hclean howns), fun hpositions _ => hroom' hpositions⟩
    case isFalse hnot =>
      exact ensures_some (hkeep hseated fun howns => absurd howns hnot)
  | displayed fid request =>
    exact ensures_some (hkeep (hseated.places (places_displayBuffer h.core fid request)) trivial)
  | sideRemoved fid side =>
    rw [Host.step]
    split
    case isTrue =>
      exact Ensures.map fun _ ha => hkeep (hseated.places (places_removeSideWindow ha)) trivial
    case isFalse => exact ensures_some (hkeep hseated trivial)
  | killed scratch midEdit bufferId =>
    exact Ensures.map fun _ ha => hkeep (allSeated_killBuffer hok hseated ha) trivial
  | reconciled fid =>
    exact ensures_some (hkeep (hseated.places (places_reconcile h.core fid)) trivial)
  | declared fid total =>
    exact ensures_some (hkeep (hseated.places (places_declareFrameGeometry h.core fid total)) trivial)
  | accepted fid geometryEpoch total =>
    exact ensures_some (hkeep (hseated.places (places_acceptFrameGeometry geometryEpoch)) trivial)
  | paramsSet fid target fixedRows dedicated =>
    rw [Host.step]
    split
    case isTrue =>
      exact ensures_some (hkeep
        (hseated.places (stays_setParams h.core fid target fixedRows dedicated).places) trivial)
    case isFalse => exact ensures_some (hkeep hseated trivial)
  | switched fid bufferId =>
    exact ensures_some (hkeep
      (hseated.places (stays_switchActiveBufferFor h.core fid bufferId).places) trivial)
  | aligned fid bufferId => exact ensures_some (align_positions hseated fid bufferId)
  | created text => exact ensures_some (hkeep (hseated.create hok.table text) trivial)
  | attached panelCapable desktop =>
    obtain ⟨built, made, hbuilt, hbuilds, -⟩ := builds_attachView hok desktop panelCapable
    rw [Host.step, hbuilt]
    exact ensures_some (hkeep ((hseated.builds hbuilds).sub (fun _ _ hw => hw) rfl) trivial)
  | resumed token panelCapable =>
    rw [Host.step]
    split
    · exact ensures_some (hkeep hseated trivial)
    · exact ensures_some (hkeep (hseated.sub (fun _ _ hw => hw) rfl) trivial)
  | detached fid =>
    rw [Host.step]
    split
    · exact ensures_some (hkeep hseated trivial)
    · exact ensures_some (hkeep (hseated.places (places_unregister h.core fid)) trivial)
  | lost fid token =>
    rw [Host.step]; have htake := hseated.places (places_take h.core fid)
    split
    · exact ensures_some (hkeep hseated trivial)
    generalize h.core.takeFrontendView fid = taken at htake
    obtain ⟨c₁, _ | view⟩ := taken
    · exact ensures_some (hkeep htake trivial)
    · exact ensures_some (hkeep htake trivial)
  | expired token =>
    rw [Host.step]
    split
    · exact ensures_some (hkeep hseated trivial)
    · exact ensures_some (hkeep (hseated.places (places_discard h.core _)) trivial)
  | typed intercept typing =>
    refine Ensures.map fun _ ha => ?_
    rcases typing_cases ha with ⟨hplaces, hnot⟩ | ⟨id, w, w', text, op, edit, hlands, hplace, rfl⟩
    · exact hkeep (hseated.places hplaces) fun id w text op edit hlands =>
        absurd hlands (hnot id w text op edit)
    obtain ⟨hroom, hroom'⟩ := edited_positions hseated hlands hplace
    refine ⟨fun hclean => hroom (hclean id w text op edit hlands), fun hpositions => ?_⟩
    intro id₁ w₁ text₁ op₁ edit₁ hlands₁
    have hid := some.inj (hlands.active.symm.trans hlands₁.active); subst hid
    have hw := some.inj (hlands.window.symm.trans hlands₁.window); subst hw
    have htext := some.inj (hlands.holds.symm.trans hlands₁.holds); subst htext
    have hop := some.inj (hlands.asks.symm.trans hlands₁.asks); subst hop
    have hedit := some.inj (hlands.lands.symm.trans hlands₁.lands); subst hedit
    exact hroom' hpositions
  | announced bufferId edit =>
    exact ensures_some (hkeep (allSeated_announce hseated bufferId edit) trivial)
  | imported source bufferId edit =>
    exact ensures_some (hkeep (allSeated_remoteCrdtOp hseated source bufferId edit) trivial)
  | history edit => exact Ensures.map fun _ ha => hkeep (allSeated_historyStep hseated ha) trivial
  | reverted edit =>
    exact Ensures.map fun _ ha => hkeep (allSeated_revertActiveBuffer hseated ha) trivial
  | moved motion => exact Ensures.map fun _ ha => motion_positions hseated ha
  | jumpPushed => exact Ensures.map fun _ ha => hkeep (hseated.places (places_pushJump ha)) trivial
  | jumpedBack => exact Ensures.map fun _ ha => hkeep (allSeated_jumpBackTo hseated ha) trivial
  | commitEntered dest profile =>
    refine ensures_some (hkeep ?_ trivial); unfold Host.enterCommit
    split
    · exact hseated
    · exact hseated.sub (fun _ _ hw => hw) rfl
  | commitLeft =>
    refine ensures_some (hkeep ?_ trivial); unfold Host.leaveCommit
    split
    · exact hseated
    · exact hseated.sub (fun _ _ hw => hw) rfl

theorem allSeated_start : Host.start.core.AllSeated := by
  intro id w hw
  replace hw : Function.update (fun _ => none) 0 (some (Window.new 0 (.new []))) id = some w := hw
  by_cases hid : id = 0
  · rw [hid, update_self, some.injEq] at hw; rw [← hw]
    exact ⟨[], rfl, rfl, le_rfl, nofun, TextView.lines_pos []⟩
  · rw [update_of_ne hid] at hw; cases hw

/-- The hosts of the runs whose events are clean. -/
inductive CleanRun : Host → Prop
  | start : CleanRun .start
  | step {h h' : Host} (event : Event) (hreaches : CleanRun h) (hclean : Clean h event)
      (hstep : h.step event = some h') : CleanRun h'

theorem CleanRun.seated (h : CleanRun h') : h'.core.Ok h'.retained ∧ h'.core.AllSeated := by
  induction h with
  | start => exact ⟨Host.ok_start, allSeated_start⟩
  | step event _ hclean hstep ih =>
    obtain ⟨hok, hseated⟩ := ih
    refine ⟨?_, (step_positions hok hseated hstep).1 hclean⟩
    obtain ⟨_, hstep', hok'⟩ := Host.ok_step hok event; cases hstep.symm.trans hstep'; exact hok'

/-- **Along a run of clean events every position is in range, and after the first event that is
    not clean one is not.** -/
theorem positions_in_range (hreaches : CleanRun h) :
    h.core.PositionsOk ∧ ∀ event h', h.step event = some h' →
      (h'.core.PositionsOk ↔ Clean h event) := by
  obtain ⟨hok, hseated⟩ := hreaches.seated
  refine ⟨hseated.positionsOk, fun event h' hstep => ?_⟩
  obtain ⟨hclean, hclean'⟩ := step_positions hok hseated hstep
  exact ⟨hclean', fun h => (hclean h).positionsOk⟩

/-- What is inserted at a cursor leaves every window room. -/
theorem clean_insertChar (hseated : h.core.AllSeated) (bytes : Text) :
    Clean h (.typed (fun e => some e) (.insertChar bytes)) := by
  intro id w text op edit hlands
  obtain rfl : (⟨w.cursor, w.cursor, bytes⟩ : TextEdit) = op := some.inj hlands.asks
  obtain rfl : (⟨w.cursor, w.cursor, bytes⟩ : TextEdit) = edit :=
    some.inj (filter_eq_some_iff.1 hlands.lands).1
  have hroom : ∀ j v, h.core.windows j = some v → v.bufferId = w.bufferId →
      Room (TextEdit.lengthAfter ⟨w.cursor, w.cursor, bytes⟩ text)
        (TextEdit.linesAfter ⟨w.cursor, w.cursor, bytes⟩ text) v := by
    intro j v hv hbuffer
    obtain ⟨text', hget, -, hroom⟩ := hseated j v hv
    rw [hbuffer, hlands.holds] at hget
    cases hget
    have hlength : text.length ≤ TextEdit.lengthAfter ⟨w.cursor, w.cursor, bytes⟩ text := by
      simp [TextEdit.lengthAfter]
    have hlines : text.lines ≤ TextEdit.linesAfter ⟨w.cursor, w.cursor, bytes⟩ text := by
      simp [TextEdit.linesAfter, slice]
    exact ⟨hroom.cursor.trans hlength, fun anchor ha => (hroom.selection anchor ha).trans hlength,
      lt_of_lt_of_le hroom.viewTop hlines⟩
  have hw := hroom id w hlands.window rfl
  obtain ⟨text', hget, -, hin⟩ := hseated id w hlands.window
  rw [hlands.holds] at hget
  cases hget
  refine ⟨⟨?_, fun _ => hw.selection, hw.viewTop⟩, fun j v _ => hroom j v⟩
  have hcursor := hin.cursor
  simp only [Typing.cursorAfter, TextEdit.lengthAfter]
  omega

/-- Two windows on a buffer stay in it while text is inserted in one. -/
theorem positions_in_range_split : ∃ h,
    Host.start.run [.typed (fun e => some e) (.insertChar [97, 98]), .split .horizontal true,
      .typed (fun e => some e) (.insertChar [99])] = some h ∧
      (h.core.windows 0).isSome ∧ (h.core.windows 1).isSome ∧ h.core.PositionsOk := by
  obtain ⟨h₁, h₂, h₃, hrun, hstep₁, hstep₂, hstep₃, htwo⟩ : ∃ h₁ h₂ h₃,
      Host.start.run [.typed (fun e => some e) (.insertChar [97, 98]), .split .horizontal true,
        .typed (fun e => some e) (.insertChar [99])] = some h₃ ∧
      Host.start.step (.typed (fun e => some e) (.insertChar [97, 98])) = some h₁ ∧
      h₁.step (.split .horizontal true) = some h₂ ∧
      h₂.step (.typed (fun e => some e) (.insertChar [99])) = some h₃ ∧
      (h₃.core.windows 0).isSome ∧ (h₃.core.windows 1).isSome :=
    ⟨_, _, _, rfl, rfl, rfl, rfl, rfl, rfl⟩
  have hclean : CleanRun h₂ :=
    .step (.split .horizontal true) (.step _ .start (clean_insertChar allSeated_start _) hstep₁)
      trivial hstep₂
  exact ⟨h₃, hrun, htwo.1, htwo.2,
    (positions_in_range (.step _ hclean (clean_insertChar hclean.seated.2 _) hstep₃)).1⟩

/-- A deletion leaves the cursor of the other window past the end of the buffer. -/
theorem not_positions_in_range : ¬ ∀ events h, Host.start.run events = some h →
    h.core.PositionsOk := by
  intro hall
  have hrun : ∃ h, Host.start.run [.typed (fun e => some e) (.insertChar [97]),
      .split .horizontal true, .focusStepped true, .typed (fun e => some e) .deleteForward] =
        some h := ⟨_, rfl⟩
  obtain ⟨h, hh⟩ := hrun
  have hbad := (hall _ h hh 0 _ _ (by cases hh; rfl) (by cases hh; rfl)).cursor
  cases hh
  revert hbad
  decide

end Pmacs.Display
