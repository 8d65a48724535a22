/-
  What each operation on the windows leaves alone.

  * `Keeps`: an operation that writes into windows, but makes, removes and pins none; `Stays`:
    one that moves none in its buffer either, unless it shows a buffer from its start;
  * `nonSideTarget_ok`: a frontend with a document window has it as its target.
-/
import Pmacs.Display.Edits

namespace Pmacs.Display

open Lib AList Function List Option

namespace EditorCore

variable {c c' c'' : EditorCore}
  {fid : FrontendId} {view : FrontendView} {text : Text} {w w' : Window}
  {f : Window → Window} {id : WindowId}

def kind (c : EditorCore) (id : WindowId) : Option Bool := (c.windows id).map Window.isSide

theorem isSide_eq (c : EditorCore) (id : WindowId) : c.isSide id = (c.kind id == some true) := by
  unfold isSide kind
  cases c.windows id with
  | none => rfl
  | some w => cases hside : w.isSide <;> simp [hside]

theorem isSide_congr (h : c'.kind id = c.kind id) : c'.isSide id = c.isSide id := by
  rw [isSide_eq, isSide_eq, h]

theorem kind_isSome {c : EditorCore} {id : WindowId} :
    (c.kind id).isSome = (c.windows id).isSome := isSome_map

/-! ## The tables -/

section tables
variable (c) (id : WindowId) (w : Window)

@[simp]
theorem setWindow_windows_self : (c.setWindow id w).windows id = some w :=
  update_self ..

variable {j : WindowId}

theorem setWindow_windows_of_ne (h : j ≠ id) :
    (c.setWindow id w).windows j = c.windows j := update_of_ne h ..

@[simp]
theorem removeWindow_windows_self : (c.removeWindow id).windows id = none :=
  update_self ..

theorem removeWindow_windows_of_ne (h : j ≠ id) :
    (c.removeWindow id).windows j = c.windows j := update_of_ne h ..

theorem setWindow_kind :
    (c.setWindow id w).kind j = if j = id then some w.isSide else c.kind j := by
  unfold kind
  split
  case isTrue h =>
    subst h; rw [setWindow_windows_self]; rfl
  case isFalse h => rw [setWindow_windows_of_ne _ _ _ h]

theorem removeWindow_kind : (c.removeWindow id).kind j = if j = id then none else c.kind j := by
  unfold kind
  split
  case isTrue h =>
    subst h; rw [removeWindow_windows_self]; rfl
  case isFalse h => rw [removeWindow_windows_of_ne _ _ h]

theorem foldl_removeWindow_windows (ids : List WindowId) (c : EditorCore) (j : WindowId) :
    (ids.foldl removeWindow c).windows j = if j ∈ ids then none else c.windows j := by
  induction ids generalizing c with
  | nil => rfl
  | cons id ids ih =>
    rw [foldl_cons, ih]
    by_cases hj : j = id
    · subst hj; simp
    · simp [removeWindow_windows_of_ne _ _ hj, hj]

theorem foldl_removeWindow_eq {ids : List WindowId} {c : EditorCore} : ids.foldl removeWindow c =
      { c with windows := fun j => if j ∈ ids then none else c.windows j } := by
  have hwindows := funext (foldl_removeWindow_windows ids c)
  have hrest : ∀ (ids : List WindowId) (c : EditorCore),
      { ids.foldl removeWindow c with windows := c.windows } = c := by
    intro ids
    induction ids with
    | nil => exact fun c => rfl
    | cons id ids ih =>
      intro c; have := ih (c.removeWindow id)
      calc { ids.foldl removeWindow (c.removeWindow id) with windows := c.windows }
          = { { ids.foldl removeWindow (c.removeWindow id) with
              windows := (c.removeWindow id).windows } with windows := c.windows } := rfl
        _ = { c.removeWindow id with windows := c.windows } := by rw [this]
        _ = c := rfl
  have h := hrest ids c
  calc ids.foldl removeWindow c
      = { { ids.foldl removeWindow c with windows := c.windows } with
          windows := (ids.foldl removeWindow c).windows } := rfl
    _ = { c with windows := fun j => if j ∈ ids then none else c.windows j } := by rw [h, hwindows]

end tables

/-! ## Where a window is in its buffer -/

/-- The same place in the same buffer. -/
structure SamePlace (w w' : Window) : Prop where
  bufferId : w'.bufferId = w.bufferId
  textView : w'.textView = w.textView
  cursor : w'.cursor = w.cursor
  selection : w'.selection = w.selection
  viewTop : w'.viewTop = w.viewTop

theorem SamePlace.refl (w : Window) : SamePlace w w := ⟨rfl, rfl, rfl, rfl, rfl⟩

theorem SamePlace.trans {w'' : Window} (h : SamePlace w w') (h' : SamePlace w' w'') :
    SamePlace w w'' :=
  ⟨h'.bufferId.trans h.bufferId, h'.textView.trans h.textView, h'.cursor.trans h.cursor,
    h'.selection.trans h.selection, h'.viewTop.trans h.viewTop⟩

/-- The start of a registered buffer. -/
structure AtStart (c : EditorCore) (w : Window) : Prop where
  textView : (c.registry.get w.bufferId).map TextView.new = some w.textView
  cursor : w.cursor = 0
  selection : w.selection = none
  viewTop : w.viewTop = 0

theorem AtStart.of_samePlace (h : AtStart c w) (hw : SamePlace w w')
    (hget : c'.registry.get w.bufferId = c.registry.get w.bufferId) : AtStart c' w' :=
  ⟨by rw [hw.bufferId, hget, h.textView, hw.textView], hw.cursor.trans h.cursor,
    hw.selection.trans h.selection, hw.viewTop.trans h.viewTop⟩

/-- Every window is where it was, or at the start of its buffer. -/
def Places (c c' : EditorCore) : Prop :=
  ∀ id w', c'.windows id = some w' →
    (∃ w, c.windows id = some w ∧ SamePlace w w' ∧
      c'.registry.get w.bufferId = c.registry.get w.bufferId) ∨ AtStart c' w'

theorem Places.refl (c : EditorCore) : Places c c :=
  fun _ w hw => .inl ⟨w, hw, .refl w, rfl⟩

theorem Places.trans (h : Places c c') (h' : Places c' c'') : Places c c'' := by
  intro id w'' hw''
  rcases h' id w'' hw'' with ⟨w', hw', hplace', hget'⟩ | hstart
  · rcases h id w' hw' with ⟨w, hw, hplace, hget⟩ | hstart
    · refine .inl ⟨w, hw, hplace.trans hplace', ?_⟩
      rw [← hplace.bufferId, hget', hplace.bufferId, hget]
    · exact .inr (hstart.of_samePlace hplace' hget')
  · exact .inr hstart

variable {bufferId : BufferId}

theorem switchTo_atStart
    (h : c.registry.get bufferId = some text) (w : Window) : AtStart c (w.switchTo bufferId text) :=
  ⟨by rw [Window.switchTo_bufferId, h]; rfl, rfl, rfl, rfl⟩

theorem new_atStart
    (h : c.registry.get bufferId = some text) : AtStart c (.new bufferId (.new text)) :=
  ⟨by rw [show (Window.new bufferId (.new text)).bufferId = bufferId from rfl, h]; rfl,
    rfl, rfl, rfl⟩

theorem contains_of_get {r : Registry} {id : BufferId} (h : r.get id = some text) :
    r.contains id := by
  unfold Registry.get at h
  split at h
  case isTrue hmem => exact decide_eq_true hmem
  case isFalse => cases h

theorem get_of_contains {r : Registry} {id : BufferId} (h : r.contains id) :
    r.get id = some (r.text id) := by
  unfold Registry.get
  rw [if_pos (of_decide_eq_true h)]

theorem AtStart.contains (h : AtStart c w) : c.registry.contains w.bufferId := by
  have htext := h.textView
  rw [map_eq_some_iff] at htext
  obtain ⟨text, hget, -⟩ := htext
  exact contains_of_get hget

/-! ## Writes into windows -/

/-- The same kind of window: on the side it was on, if any, and with a quit action only where
    there was one or the window is on a side. -/
structure SameKind (w w' : Window) : Prop where
  side : w'.isSide = w.isSide
  quit : w'.params.quitAction.isSome → w'.isSide ∨ w.params.quitAction.isSome

theorem sameKind_of_params (h : w'.params = w.params) : SameKind w w' :=
  ⟨by rw [Window.isSide, h]; rfl, fun hquit => .inr (by rw [← h]; exact hquit)⟩

theorem SameKind.refl (w : Window) : SameKind w w := sameKind_of_params rfl

/-- The views, the ids given out and the registered buffers are the same ones, and every window
    shows what it showed or a registered buffer. -/
structure SameTables (c c' : EditorCore) : Prop where
  views : c'.views = c.views
  nextWindow : c'.nextWindow = c.nextWindow
  order : c'.registry.order = c.registry.order
  nextBuffer : c'.registry.next = c.registry.next
  activeFrontend : c'.activeFrontend = c.activeFrontend
  commitContracts : c'.commitContracts = c.commitContracts
  shown : ∀ id w', c'.windows id = some w' →
    (∃ w, c.windows id = some w ∧ w'.bufferId = w.bufferId) ∨ c.registry.contains w'.bufferId

/-- And the windows are the same ones, whatever was written into them. -/
structure Keeps (c c' : EditorCore) : Prop extends SameTables c c' where
  kind : ∀ id, c'.kind id = c.kind id
  quits : ∀ id w', c'.windows id = some w' → w'.params.quitAction.isSome →
    w'.isSide ∨ ∃ w, c.windows id = some w ∧ w.params.quitAction.isSome

/-- And every window is where it was, or at the start of a buffer. -/
structure Stays (c c' : EditorCore) : Prop extends Keeps c c' where
  registry : c'.registry = c.registry
  places : Places c c'

theorem SameTables.refl (c : EditorCore) : SameTables c c where
  views := rfl
  nextWindow := rfl
  order := rfl
  nextBuffer := rfl
  activeFrontend := rfl
  commitContracts := rfl
  shown _ w hw := .inl ⟨w, hw, rfl⟩

theorem SameTables.contains (h : SameTables c c') (id : BufferId) :
    c'.registry.contains id = c.registry.contains id := by
  rw [Registry.contains, h.order]
  rfl

theorem SameTables.trans (h : SameTables c c') (h' : SameTables c' c'') : SameTables c c'' where
  views := h'.views.trans h.views
  nextWindow := h'.nextWindow.trans h.nextWindow
  order := h'.order.trans h.order
  nextBuffer := h'.nextBuffer.trans h.nextBuffer
  activeFrontend := h'.activeFrontend.trans h.activeFrontend
  commitContracts := h'.commitContracts.trans h.commitContracts
  shown id w'' hw'' := by
    rcases h'.shown id w'' hw'' with ⟨w', hw', hbuffer'⟩ | hcontains
    · rw [hbuffer']; exact h.shown id w' hw'
    · rw [h.contains] at hcontains; exact .inr hcontains

theorem Keeps.refl (c : EditorCore) : Keeps c c where
  toSameTables := .refl c
  kind _ := rfl
  quits _ w hw hquit := .inr ⟨w, hw, hquit⟩

theorem Keeps.isSide_window (h : Keeps c c')
    (hw : c.windows id = some w) (hw' : c'.windows id = some w') : w'.isSide = w.isSide := by
  have hkind := h.kind id
  rw [EditorCore.kind, EditorCore.kind, hw, hw'] at hkind
  exact some.inj hkind

theorem Keeps.trans (h : Keeps c c') (h' : Keeps c' c'') : Keeps c c'' where
  toSameTables := h.toSameTables.trans h'.toSameTables
  kind id := (h'.kind id).trans (h.kind id)
  quits id w'' hw'' hquit'' := by
    rcases h'.quits id w'' hw'' hquit'' with hside | ⟨w', hw', hquit'⟩
    · exact .inl hside
    rcases h.quits id w' hw' hquit' with hside | hbefore
    · exact .inl (by rw [h'.isSide_window hw' hw'', hside])
    · exact .inr hbefore

theorem Stays.refl (c : EditorCore) : Stays c c := ⟨.refl c, rfl, .refl c⟩

theorem Stays.trans (h : Stays c c') (h' : Stays c' c'') : Stays c c'' :=
  ⟨h.toKeeps.trans h'.toKeeps, h'.registry.trans h.registry, h.places.trans h'.places⟩

theorem Keeps.isSide (h : Keeps c c') (id : WindowId) : c'.isSide id = c.isSide id :=
  isSide_congr (h.kind id)

section
variable (hw : c.windows id = some w)
include hw

/-- A write into a live window, which shows a registered buffer after it. -/
theorem keeps_setWindow (hkind : SameKind w w')
    (hbuffer : w'.bufferId = w.bufferId ∨ c.registry.contains w'.bufferId) :
    Keeps c (c.setWindow id w') where
  views := rfl
  kind j := by
    rw [setWindow_kind]
    split
    case isTrue h => rw [h, EditorCore.kind, hw, map_some, hkind.side]
    case isFalse => rfl
  nextWindow := rfl
  order := rfl
  nextBuffer := rfl
  activeFrontend := rfl
  commitContracts := rfl
  shown j v hv := by
    by_cases hj : j = id
    · subst hj; rw [setWindow_windows_self, some.injEq] at hv; subst hv
      rcases hbuffer with hsame | hcontains
      · exact .inl ⟨w, hw, hsame⟩
      · exact .inr hcontains
    · rw [setWindow_windows_of_ne _ _ _ hj] at hv; exact .inl ⟨v, hv, rfl⟩
  quits j v hv hquit := by
    by_cases hj : j = id
    · subst hj; rw [setWindow_windows_self, some.injEq] at hv; subst hv
      exact (hkind.quit hquit).imp_right fun hbefore => ⟨w, hw, hbefore⟩
    · rw [setWindow_windows_of_ne _ _ _ hj] at hv; exact .inr ⟨v, hv, hquit⟩

theorem places_setWindow
    (hplace : SamePlace w w' ∨ AtStart c w') : Places c (c.setWindow id w') := by
  intro j v hv
  by_cases hj : j = id
  · subst hj; rw [setWindow_windows_self, some.injEq] at hv; subst hv
    rcases hplace with hsame | hstart
    · exact .inl ⟨w, hw, hsame, rfl⟩
    · exact .inr ⟨hstart.textView, hstart.cursor, hstart.selection, hstart.viewTop⟩
  · rw [setWindow_windows_of_ne _ _ _ hj] at hv; exact .inl ⟨v, hv, .refl v, rfl⟩

theorem stays_setWindow (hkind : SameKind w w') (hplace : SamePlace w w' ∨ AtStart c w') :
    Stays c (c.setWindow id w') := by
  refine ⟨keeps_setWindow hw hkind ?_, rfl, places_setWindow hw hplace⟩
  rcases hplace with hsame | hstart
  · exact .inl hsame.bufferId
  · exact .inr hstart.contains

end

theorem stays_modifyWindow {c : EditorCore} {id : WindowId} (hkind : ∀ w, c.windows id = some w →
    SameKind w (f w)) (hplace : ∀ w, SamePlace w (f w)) : Stays c (c.modifyWindow id f) := by
  unfold modifyWindow
  cases hw : c.windows id with
  | none => exact .refl c
  | some w => exact stays_setWindow hw (hkind w hw) (.inl (hplace w))

theorem keeps_modifyWindow {c : EditorCore} {id : WindowId}
    (hkind : ∀ w, c.windows id = some w → SameKind w (f w))
    (hbuffer : ∀ w, (f w).bufferId = w.bufferId) : Keeps c (c.modifyWindow id f) := by
  unfold modifyWindow
  cases hw : c.windows id with
  | none => exact .refl c
  | some w => exact keeps_setWindow hw (hkind w hw) (.inl (hbuffer w))

theorem mapWindows_kind (c : EditorCore) (hside : ∀ w, (f w).isSide = w.isSide) (id : WindowId) :
    (c.mapWindows f).kind id = c.kind id := by
  show ((c.windows id).map f).map Window.isSide = (c.windows id).map Window.isSide
  rw [Option.map_map]
  exact congrArg (fun g => (c.windows id).map g) (funext hside)

theorem stays_mapWindows {c : EditorCore}
    (hkind : ∀ w, SameKind w (f w)) (hplace : ∀ w, SamePlace w (f w)) :
    Stays c (c.mapWindows f) where
  views := rfl
  kind := mapWindows_kind c fun w => (hkind w).side
  nextWindow := rfl
  order := rfl
  nextBuffer := rfl
  activeFrontend := rfl
  commitContracts := rfl
  shown id w' hw' := by
    obtain ⟨w, hw, rfl⟩ := map_eq_some_iff.1 hw'; exact .inl ⟨w, hw, (hplace w).bufferId⟩
  quits id w' hw' hquit := by
    obtain ⟨w, hw, rfl⟩ := map_eq_some_iff.1 hw'
    exact ((hkind w).quit hquit).imp_right fun hbefore => ⟨w, hw, hbefore⟩
  registry := rfl
  places id w' hw' := by
    obtain ⟨w, hw, rfl⟩ := map_eq_some_iff.1 hw'; exact .inl ⟨w, hw, hplace w, rfl⟩

variable {origin : Option WindowId}

theorem samePlace_setOriginDocument {w : Window} :
    SamePlace w (w.setOriginDocument origin) := ⟨rfl, rfl, rfl, rfl, rfl⟩

theorem sameKind_setOriginDocument {w : Window} :
    SameKind w (w.setOriginDocument origin) := ⟨rfl, .inr⟩

theorem stays_noteFocusTransition (c : EditorCore) (from_ to_ : WindowId) :
    Stays c (c.noteFocusTransition from_ to_) := by
  unfold noteFocusTransition
  split
  · exact .refl c
  split
  · exact .refl c
  exact stays_modifyWindow (fun w _ => sameKind_setOriginDocument)
    fun w => samePlace_setOriginDocument

theorem stays_forgetOrigin (c : EditorCore) (side : WindowId) : Stays c (c.forgetOrigin side) := by
  refine stays_mapWindows (fun w => ?_) fun w => ?_
  · split
    · exact sameKind_setOriginDocument
    · exact .refl w
  split
  · exact samePlace_setOriginDocument
  · exact .refl w

theorem stays_installBufferInWindow (c : EditorCore) (windowId : WindowId) (bufferId : BufferId) :
    Stays c (c.installBufferInWindow windowId bufferId).1 := by
  unfold installBufferInWindow
  cases hget : c.registry.get bufferId with
  | none => exact .refl c
  | some text =>
    cases hw : c.windows windowId with
    | none => exact .refl c
    | some window =>
      dsimp only
      split
      · exact .refl c
      · exact stays_setWindow hw (sameKind_of_params rfl) (.inr (switchTo_atStart hget window))

theorem stays_applyOrdinary (c : EditorCore) (request : DisplayRequest) (target : WindowId) :
    Stays c (c.applyOrdinary request target).1 := by
  unfold applyOrdinary
  have hinstall := stays_installBufferInWindow c target request.bufferId
  generalize c.installBufferInWindow target request.bufferId = installed at hinstall ⊢
  obtain ⟨c₁, e | _⟩ := installed
  · exact hinstall
  exact hinstall.trans (stays_modifyWindow (fun w _ => ⟨rfl, .inr⟩)
    fun w => ⟨rfl, rfl, rfl, rfl, rfl⟩)

/-- A side window that is reused takes a presentation to go back to. -/
theorem stays_applyReused (c : EditorCore) (request : DisplayRequest) {target : WindowId}
    (replacing : Bool) (hside : c.isSide target) :
    Stays c (c.applyReused request target replacing).1 := by
  unfold applyReused
  cases c.windows target with
  | none => exact .refl c
  | some outgoing =>
    have hinstall := stays_installBufferInWindow c target request.bufferId
    generalize c.installBufferInWindow target request.bufferId = installed at hinstall ⊢
    obtain ⟨c₁, e | _⟩ := installed
    · exact hinstall
    cases request.height.mapM clampPanelRows with
    | error e => exact hinstall
    | ok height =>
      refine hinstall.trans (stays_modifyWindow (fun w hw => ?_) fun w => ⟨rfl, rfl, rfl, rfl, rfl⟩)
      have hw_side : w.isSide := by
        rwa [← hinstall.isSide, EditorCore.isSide, hw] at hside
      cases replacing with
      | true => exact ⟨rfl, fun _ => .inl hw_side⟩
      | false => exact ⟨rfl, .inr⟩

theorem stays_setParams (c : EditorCore) (fid : FrontendId) (target : WindowId)
    (fixedRows : Option ℕ) (dedicated : Option Bool) :
    Stays c (c.setParams fid target fixedRows dedicated).1 := by
  unfold setParams
  cases fixedRows.mapM clampPanelRows with
  | error e => exact .refl c
  | ok height =>
    generalize (if dedicated = some true ∧ c.isSide target then
      c.panelCommitDedicationRefusal fid else none) = refusal
    cases refusal with
    | some reason => exact .refl c
    | none =>
      cases hw : c.windows target with
      | none => exact .refl c
      | some window => exact stays_setWindow hw ⟨rfl, .inr⟩ (.inl ⟨rfl, rfl, rfl, rfl, rfl⟩)

theorem stays_switchActiveBufferFor (c : EditorCore) (fid : FrontendId) (bufferId : BufferId) :
    Stays c (c.switchActiveBufferFor fid bufferId).1 := by
  unfold switchActiveBufferFor
  cases hget : c.registry.get bufferId with
  | none => exact .refl c
  | some text =>
    cases (c.views.lookup fid).map FrontendView.active with
    | none => exact .refl c
    | some id =>
      dsimp only
      cases hw : c.windows id with
      | none => exact .refl c
      | some w => exact stays_setWindow hw (sameKind_of_params rfl) (.inr (switchTo_atStart hget w))

/-! ## Writes that leave the parameters -/

/-- The windows, their parameters and the views are the same ones. -/
structure Writes (c c' : EditorCore) : Prop extends SameTables c c' where
  params : ∀ id, (c'.windows id).map Window.params = (c.windows id).map Window.params

theorem Writes.refl (c : EditorCore) : Writes c c := ⟨.refl c, fun _ => rfl⟩

theorem Writes.window (h : Writes c c')
    (hw' : c'.windows id = some w') : ∃ w, c.windows id = some w ∧ w'.params = w.params := by
  have hparams := h.params id
  rw [hw', map_some, eq_comm, map_eq_some_iff] at hparams
  obtain ⟨w, hw, hsame⟩ := hparams
  exact ⟨w, hw, hsame.symm⟩

theorem Writes.keeps (h : Writes c c') : Keeps c c' :=
  { h with
    kind := fun id => by
      have hparams := congrArg (Option.map fun p : WindowParams => p.side.isSome) (h.params id)
      rwa [Option.map_map, Option.map_map] at hparams
    quits := fun id w' hw' hquit => by
      obtain ⟨w, hw, hsame⟩ := h.window hw'; exact .inr ⟨w, hw, by rw [← hsame]; exact hquit⟩ }

theorem Writes.trans (h : Writes c c') (h' : Writes c' c'') : Writes c c'' :=
  ⟨h.toSameTables.trans h'.toSameTables, fun id => (h'.params id).trans (h.params id)⟩

theorem writes_setWindow (hw : c.windows id = some w) (hparams : w'.params = w.params)
    (hbuffer : w'.bufferId = w.bufferId ∨ c.registry.contains w'.bufferId) :
    Writes c (c.setWindow id w') where
  toSameTables := (keeps_setWindow hw (sameKind_of_params hparams) hbuffer).toSameTables
  params j := by
    by_cases hj : j = id
    · rw [hj, setWindow_windows_self, hw, map_some, map_some, hparams]
    · rw [setWindow_windows_of_ne _ _ _ hj]

/-- A function on windows that leaves their parameters and the buffer they show. -/
def Quiet (f : Window → Window) : Prop :=
  ∀ w, (f w).params = w.params ∧ (f w).bufferId = w.bufferId

theorem writes_modifyWindow (c : EditorCore) (id : WindowId)
    (hf : Quiet f) : Writes c (c.modifyWindow id f) := by
  unfold modifyWindow
  cases hw : c.windows id with
  | none => exact .refl c
  | some w => exact writes_setWindow hw (hf w).1 (.inl (hf w).2)

theorem writes_switchActiveBufferFor (c : EditorCore) (fid : FrontendId) (bufferId : BufferId) :
    Writes c (c.switchActiveBufferFor fid bufferId).1 := by
  unfold switchActiveBufferFor
  cases hget : c.registry.get bufferId with
  | none => exact .refl c
  | some text =>
    cases (c.views.lookup fid).map FrontendView.active with
    | none => exact .refl c
    | some id =>
      dsimp only
      cases hw : c.windows id with
      | none => exact .refl c
      | some w => exact writes_setWindow hw rfl (.inr (contains_of_get hget))

theorem writes_installBufferInWindow (c : EditorCore) (windowId : WindowId) (bufferId : BufferId) :
    Writes c (c.installBufferInWindow windowId bufferId).1 := by
  unfold installBufferInWindow
  cases hget : c.registry.get bufferId with
  | none => exact .refl c
  | some text =>
    cases hw : c.windows windowId with
    | none => exact .refl c
    | some window =>
      dsimp only
      split
      · exact .refl c
      · exact writes_setWindow hw rfl (.inr (contains_of_get hget))

theorem writes_alignPrimaryDocumentWindow (c : EditorCore) (fid : FrontendId)
    (bufferId : BufferId) : Writes c (c.alignPrimaryDocumentWindow fid bufferId) := by
  unfold alignPrimaryDocumentWindow
  cases c.primaryDocumentWindow fid with
  | none => exact .refl c
  | some id =>
    dsimp only
    cases hw : c.windows id with
    | none => exact .refl c
    | some w =>
      dsimp only
      split
      · exact .refl c
      cases hget : c.registry.get bufferId with
      | none => exact .refl c
      | some text => exact writes_setWindow hw rfl (.inr (contains_of_get hget))

/-! ## Edits -/

theorem writes_mapShowing {c : EditorCore} {f : WindowId → Window → Window}
    (hf : ∀ id, Quiet (f id)) : Writes c (c.mapShowing bufferId f) where
  views := rfl
  params id := by
    show ((c.windows id).map fun w => if w.bufferId = bufferId then f id w else w).map
      Window.params = (c.windows id).map Window.params
    rw [Option.map_map]
    refine congrArg (fun g => (c.windows id).map g) (funext fun w => ?_); rw [Function.comp_apply]
    split
    · exact (hf id w).1
    · rfl
  nextWindow := rfl
  order := rfl
  nextBuffer := rfl
  activeFrontend := rfl
  commitContracts := rfl
  shown id w' hw' := by
    obtain ⟨w, hw, rfl⟩ := map_eq_some_iff.1 hw'
    refine .inl ⟨w, hw, ?_⟩
    split
    · exact (hf id w).2
    · rfl

theorem writes_setText (c : EditorCore) (bufferId : BufferId) (text : Text) :
    Writes c (c.setText bufferId text) :=
  ⟨⟨rfl, rfl, rfl, rfl, rfl, rfl, fun _ w hw => .inl ⟨w, hw, rfl⟩⟩, fun _ => rfl⟩

variable {edit : TextEdit}

theorem quiet_hearEdit {text : Text} : Quiet fun w => w.hearEdit text edit :=
  fun _ => ⟨rfl, rfl⟩

theorem quiet_notifyEdit {text : Text} : Quiet fun w => w.notifyEdit text edit :=
  fun _ => ⟨rfl, rfl⟩

theorem quiet_dropGoal (text : Text) : Quiet (dropGoal text) := fun _ => ⟨rfl, rfl⟩

theorem writes_applyActiveEdit (c : EditorCore) (intercept : Intercept) (bufferId : BufferId)
    (op : TextEdit) : Writes c (c.applyActiveEdit intercept bufferId op).1 := by
  unfold applyActiveEdit
  cases c.registry.get bufferId with
  | none => exact .refl c
  | some text =>
    dsimp only
    cases landed intercept op text with
    | none => exact .refl c
    | some edit =>
      exact (writes_setText c bufferId _).trans (writes_mapShowing fun _ => quiet_hearEdit)

theorem writes_notifyBufferEdit {c : EditorCore} : Writes c (c.notifyBufferEdit bufferId edit) := by
  unfold notifyBufferEdit
  cases c.registry.get bufferId with
  | none => exact .refl c
  | some text => exact writes_mapShowing fun _ => quiet_notifyEdit

theorem writes_announce (c : EditorCore) (bufferId : BufferId) (edit : TextEdit) :
    Writes c (c.announce bufferId edit) := by
  unfold announce
  cases c.registry.get bufferId with
  | none => exact .refl c
  | some text =>
    dsimp only
    split
    · exact (writes_setText c bufferId _).trans (writes_notifyBufferEdit)
    · exact .refl c

theorem writes_remoteCrdtOp (c : EditorCore) (source : FrontendId) (bufferId : BufferId)
    (edit : TextEdit) : Writes c (c.remoteCrdtOp source bufferId edit) := by
  unfold remoteCrdtOp
  cases c.registry.get bufferId with
  | none => exact .refl c
  | some text =>
    dsimp only
    split
    · refine (writes_setText c bufferId _).trans ((writes_mapShowing fun _ w => ?_).trans
        (writes_notifyBufferEdit))
      split
      · exact ⟨rfl, rfl⟩
      · exact ⟨rfl, rfl⟩
    · exact .refl c

theorem writes_modifyActive {f : Text → Window → Window} (hf : ∀ text, Quiet (f text))
    (h : c.modifyActive f = some c') : Writes c c' := by
  unfold modifyActive at h
  cases hid : c.activeWindowId with
  | none => rw [hid] at h; cases h
  | some id =>
    rw [hid] at h; dsimp only at h
    cases hw : c.windows id with
    | none => rw [hw] at h; cases h
    | some w => rw [hw] at h; cases h; exact writes_setWindow hw (hf _ w).1 (.inl (hf _ w).2)

variable {intercept : Intercept} {op : Text → Window → Option TextEdit}
    {settle : Text → TextEdit → Window → Window}

theorem writes_editAt (hsettle : ∀ text op, Quiet (settle text op))
    (h : c.editAt intercept op settle = some c') : Writes c c' := by
  unfold editAt at h
  cases hid : c.activeWindowId with
  | none => rw [hid] at h; cases h
  | some id =>
    rw [hid] at h; dsimp only at h
    cases hw : c.windows id with
    | none => rw [hw] at h; cases h
    | some w =>
      rw [hw] at h; dsimp only at h
      cases hop : (c.registry.get w.bufferId).bind fun text => op text w with
      | none => rw [hop] at h; cases h; exact .refl c
      | some op =>
        rw [hop] at h; dsimp only at h
        have happly := writes_applyActiveEdit c intercept w.bufferId op
        generalize c.applyActiveEdit intercept w.bufferId op = applied at happly h
        obtain ⟨c₁, _ | edit⟩ := applied
        · cases h; exact happly
        · cases h; exact happly.trans (writes_modifyWindow c₁ id (hsettle _ op))

theorem writes_typeAt (hsettle : ∀ text op, Quiet (settle text op))
    (h : c.typeAt intercept op settle = some c') : Writes c c' := by
  obtain ⟨c₁, hdrop, hedit⟩ := bind_eq_some_iff.1 h
  exact (writes_modifyActive quiet_dropGoal hdrop).trans (writes_editAt hsettle hedit)

/-! ## Views -/

section views
variable (c) (fid : FrontendId) (view : FrontendView)

@[simp]
theorem setView_lookup_self : (c.setView fid view).views.lookup fid = some view :=
  lookup_insert ..

theorem setView_lookup_of_ne {g : FrontendId} (h : g ≠ fid) :
    (c.setView fid view).views.lookup g = c.views.lookup g := lookup_insert_ne h

theorem setView_kind {id : WindowId} : (c.setView fid view).kind id = c.kind id := rfl

end views

theorem modifyView_of_lookup (h : c.views.lookup fid = some view) (f : FrontendView →
    FrontendView) : c.modifyView fid f = c.setView fid (f view) := by
  rw [modifyView, h]

theorem setActive_of_lookup (h : c.views.lookup fid = some view) {id : WindowId} :
    c.setActive fid id = c.setView fid { view with active := id } := modifyView_of_lookup h _

theorem sideWindowFor_eq_some {side : WindowId} (h : c.sideWindowFor fid = some side) :
    ∃ view, c.views.lookup fid = some view ∧ side ∈ view.layout.iterIds ∧ c.isSide side := by
  rw [sideWindowFor, bind_eq_some_iff] at h
  obtain ⟨view, hview, hside⟩ := h
  exact ⟨view, hview, mem_of_find?_eq_some hside, find?_some hside⟩

/-- The document window of a frontend is one of its windows, and no side window. -/
theorem nonSideTarget_ok
    (hview : c.views.lookup fid = some view) (hactive : view.active ∈ view.layout.iterIds)
    (hdocument : ∃ id ∈ view.layout.iterIds, c.isSide id = false) :
    ∃ target, c.nonSideTarget fid = .ok target ∧ target ∈ view.layout.iterIds ∧
      c.isSide target = false := by
  unfold nonSideTarget
  rw [hview]
  dsimp only
  cases hside : c.isSide view.active with
  | false => exact ⟨view.active, rfl, hactive, hside⟩
  | true =>
    cases horigin : ((c.windows view.active).bind fun w => w.params.originDocument).filter
        fun origin => origin ∈ view.layout.iterIds ∧ c.isSide origin = false with
    | some origin =>
      obtain ⟨-, hvalid⟩ := filter_eq_some_iff.1 horigin
      obtain ⟨hmem, hnot⟩ := of_decide_eq_true hvalid; exact ⟨origin, rfl, hmem, hnot⟩
    | none =>
      cases hfind : view.layout.iterIds.find? fun id => !c.isSide id with
      | some first =>
        have hnot := find?_some hfind
        exact ⟨first, rfl, mem_of_find?_eq_some hfind, by simpa using hnot⟩
      | none =>
        obtain ⟨id, hid, hnot⟩ := hdocument; have := find?_eq_none.1 hfind id hid
        simp [hnot] at this

end EditorCore

end Pmacs.Display
