/-
  Where the windows are in their buffers.

  * `Seated`: a window whose line cache is its buffer's, and whose cursor, anchor and first line
    are in it; `AllSeated`: every live window is;
  * the operations that keep the windows where they were, or show a buffer from its start;
  * `allSeated_announce`: an edit that is announced clamps every window on the buffer.
-/
import Pmacs.Display.Agreement

namespace Pmacs

open Lib Function List Option

variable {edit : TextEdit} {text : Text}

namespace TextEdit

def lengthAfter (edit : TextEdit) (text : Text) : ℕ :=
  text.length - (edit.stop - edit.start) + edit.inserted.length

def linesAfter (edit : TextEdit) (text : Text) : ℕ :=
  text.lines - (slice text edit.start edit.stop).countP isNewline + edit.inserted.countP isNewline

theorem lines_apply (h : edit.Fits text) : (edit.apply text).lines = edit.linesAfter text := by
  have hsplit : text = text.take edit.start ++ slice text edit.start edit.stop ++
      text.drop edit.stop := by
    rw [slice, append_assoc]
    calc text = text.take edit.stop ++ text.drop edit.stop := (take_append_drop _ _).symm
      _ = ((text.take edit.stop).take edit.start ++ (text.take edit.stop).drop edit.start) ++
          text.drop edit.stop := by rw [take_append_drop edit.start (text.take edit.stop)]
      _ = _ := by rw [take_take, min_eq_left h.1, append_assoc]
  have hcount := congrArg (List.countP isNewline) hsplit
  rw [countP_append, countP_append] at hcount
  rw [linesAfter, apply, splice, Text.lines, Text.lines, countP_append, countP_append]
  omega

end TextEdit

namespace Display

variable {w' : Window}

namespace EditorCore

variable {c c' : EditorCore} {fid : FrontendId}

/-! ## Windows in range -/

def Seated (c : EditorCore) (w : Window) : Prop :=
  ∃ text, c.registry.get w.bufferId = some text ∧ w.textView = .new text ∧
    Room text.length text.lines w

def AllSeated (c : EditorCore) : Prop := ∀ id w, c.windows id = some w → Seated c w

theorem AtStart.seated {w : Window} (h : AtStart c w) : Seated c w := by
  obtain ⟨text, hget, hview⟩ := map_eq_some_iff.1 h.textView
  refine ⟨text, hget, hview.symm, by rw [h.cursor]; exact Nat.zero_le _, fun anchor hanchor => ?_, ?_⟩
  · rw [h.selection] at hanchor; cases hanchor
  · rw [h.viewTop]; exact TextView.lines_pos text

theorem Room.samePlace {length lines : ℕ} {w : Window} (h : Room length lines w)
    (hcursor : w'.cursor = w.cursor) (hselection : w'.selection = w.selection)
    (hviewTop : w'.viewTop = w.viewTop) : Room length lines w' :=
  ⟨by rw [hcursor]; exact h.cursor, by rw [hselection]; exact h.selection,
    by rw [hviewTop]; exact h.viewTop⟩

theorem Seated.samePlace {w : Window} (h : Seated c w) (hplace : SamePlace w w')
    (hget : c'.registry.get w.bufferId = c.registry.get w.bufferId) : Seated c' w' := by
  obtain ⟨text, hgot, hview, hroom⟩ := h
  exact ⟨text, by rw [hplace.bufferId, hget, hgot], by rw [hplace.textView, hview],
    hroom.samePlace hplace.cursor hplace.selection hplace.viewTop⟩

theorem AllSeated.places (h : AllSeated c) (hplaces : Places c c') : AllSeated c' := by
  intro id w' hw'
  rcases hplaces id w' hw' with ⟨w, hw, hplace, hget⟩ | hstart
  · exact (h id w hw).samePlace hplace hget
  · exact hstart.seated

theorem AllSeated.sub (h : AllSeated c) (hwindows : ∀ id w, c'.windows id = some w →
    c.windows id = some w) (hregistry : c'.registry = c.registry) : AllSeated c' := by
  intro id w hw
  exact (h id w (hwindows id w hw)).samePlace (.refl w) (by rw [hregistry])

theorem AllSeated.setWindow (h : AllSeated c) (id : WindowId) {w : Window} (hw : Seated c w) :
    AllSeated (c.setWindow id w) := by
  intro j v hv
  by_cases hj : j = id
  · rw [hj, setWindow_windows_self, some.injEq] at hv; rw [← hv]; exact hw
  · rw [setWindow_windows_of_ne _ _ _ hj] at hv; exact h j v hv

theorem AllSeated.modifyWindow (h : AllSeated c) (id : WindowId) {g : Window → Window}
    (hg : ∀ w, c.windows id = some w → Seated c (g w)) : AllSeated (c.modifyWindow id g) := by
  unfold EditorCore.modifyWindow
  cases hw : c.windows id with
  | none => exact h
  | some w => exact h.setWindow id (hg w hw)

/-! ## Buffers that come and go -/

variable {r : Registry} {id : BufferId}

theorem get_create (hold : ∀ id ∈ r.order, id < r.next) (hid : id ∈ r.order) : (r.create text).1.get id = r.get id := by
  unfold Registry.get
  rw [if_pos hid, if_pos (show id ∈ (r.create text).1.order from mem_append_left _ hid)]
  exact congrArg some (update_of_ne (ne_of_lt (hold id hid)) ..)

theorem mem_order_of_get (h : r.get id = some text) :
    id ∈ r.order := of_decide_eq_true (contains_of_get h)

theorem AllSeated.create (h : AllSeated c) (htable : TableOk c) (text : Text) :
    AllSeated { c with registry := (c.registry.create text).1 } := by
  intro id w hw
  have hseated := h id w hw
  obtain ⟨old, hget, -⟩ := hseated
  exact (h id w hw).samePlace (.refl w) (get_create htable.registry (mem_order_of_get hget))

theorem AllSeated.builds (h : AllSeated c) {made : List WindowId} (hbuilds : Builds c c' made) :
    AllSeated c' := by
  intro id w hw
  by_cases hid : id ∈ made
  · obtain ⟨w', hw', hmade⟩ := hbuilds.made id hid; rw [hw] at hw'; cases hw'
    obtain ⟨text, hget, hview, hroom⟩ := hmade.shown
    exact ⟨text, by rw [hbuilds.registry, hget], hview, hroom⟩
  rw [hbuilds.others id hid] at hw
  exact (h id w hw).samePlace (.refl w) (by rw [hbuilds.registry])

/-! ## Edits that are announced -/

theorem hearEdit_textView {w : Window} (hfits : edit.Fits text) (hview : w.textView = .new text) :
    (w.hearEdit (edit.apply text) edit).textView = .new (edit.apply text) := by
  show w.textView.onEdit (edit.apply text) edit = _
  rw [hview, TextView.onEdit_new hfits]

theorem room_notifyEdit {w : Window} (hfits : edit.Fits text) (hview : w.textView = .new text) :
    (w.notifyEdit (edit.apply text) edit).textView = .new (edit.apply text) ∧
      Room (edit.apply text).length (edit.apply text).lines
        (w.notifyEdit (edit.apply text) edit) := by
  have hheard := hearEdit_textView hfits hview
  refine ⟨hheard, min_le_right _ _, fun anchor hanchor => ?_, ?_⟩
  · obtain ⟨old, -, hold⟩ := bind_eq_some_iff.1 hanchor
    split at hold
    · cases hold
    · cases hold; exact min_le_right _ _
  show min w.viewTop ((w.hearEdit (edit.apply text) edit).textView.lineCount - 1) < _
  rw [hheard, TextView.lineCount_new]; have := TextView.lines_pos (edit.apply text); omega

theorem get_setText (hid : id ∈ r.order) (text : Text) :
    (r.setText id text).get id = some text := by
  unfold Registry.get
  rw [if_pos (show id ∈ (r.setText id text).order from hid)]
  exact congrArg some (update_self ..)

theorem get_setText_of_ne {other : BufferId} (hne : other ≠ id) (text : Text) :
    (r.setText id text).get other = r.get other := by
  unfold Registry.get
  by_cases hmem : other ∈ r.order
  · rw [if_pos hmem, if_pos (show other ∈ (r.setText id text).order from hmem)]
    exact congrArg some (update_of_ne hne ..)
  · rw [if_neg hmem, if_neg (show other ∉ (r.setText id text).order from hmem)]

/-- After an edit, the windows on the buffer moved by `g` and then told of it, are in range. -/
theorem allSeated_notified (h : AllSeated c) {bufferId : BufferId}
    (hget : c.registry.get bufferId = some text) (hfits : edit.Fits text)
    {g : WindowId → Window → Window}
    (hg : ∀ id w, (g id w).bufferId = w.bufferId ∧ (g id w).textView = w.textView) :
    AllSeated (((c.setText bufferId (edit.apply text)).mapShowing bufferId g).notifyBufferEdit
      bufferId edit) := by
  have hafter : ((c.setText bufferId (edit.apply text)).mapShowing bufferId g).registry.get
      bufferId = some (edit.apply text) := get_setText (mem_order_of_get hget) _
  unfold notifyBufferEdit
  rw [hafter]
  intro id w'' hw''
  obtain ⟨w', hw', rfl⟩ := map_eq_some_iff.1 hw''
  obtain ⟨w, hw, rfl⟩ := map_eq_some_iff.1 hw'
  replace hw : c.windows id = some w := hw
  obtain ⟨old, hold, hview, hroom⟩ := h id w hw
  by_cases hshows : w.bufferId = bufferId
  · have hsame : old = text := by rw [hshows, hget] at hold; exact (some.inj hold).symm
    rw [hsame] at hview; rw [if_pos hshows]; have hgid := hg id w
    rw [if_pos (hgid.1.trans hshows)]
    obtain ⟨hview', hroom'⟩ := room_notifyEdit hfits (hgid.2.trans hview)
    refine ⟨edit.apply text, ?_, hview', hroom'⟩
    show (c.registry.setText bufferId (edit.apply text)).get (g id w).bufferId = _
    rw [hgid.1, hshows]; exact get_setText (mem_order_of_get hget) _
  rw [if_neg hshows, if_neg hshows]
  exact ⟨old, (get_setText_of_ne hshows _).trans hold, hview, hroom⟩

theorem allSeated_announce (h : AllSeated c) (bufferId : BufferId) (edit : TextEdit) :
    AllSeated (c.announce bufferId edit) := by
  unfold announce
  cases hget : c.registry.get bufferId with
  | none => exact h
  | some text =>
    dsimp only
    split
    case isTrue hfits =>
      have hnotified := allSeated_notified h hget hfits (g := fun _ w => w) fun _ _ => ⟨rfl, rfl⟩
      have hsame : (c.setText bufferId (edit.apply text)).mapShowing bufferId (fun _ w => w) =
          c.setText bufferId (edit.apply text) := by unfold mapShowing; simp
      rwa [hsame] at hnotified
    case isFalse => exact h

theorem allSeated_remoteCrdtOp (h : AllSeated c) (source : FrontendId) (bufferId : BufferId)
    (edit : TextEdit) : AllSeated (c.remoteCrdtOp source bufferId edit) := by
  unfold remoteCrdtOp
  cases hget : c.registry.get bufferId with
  | none => exact h
  | some text =>
    dsimp only
    split
    case isTrue hfits =>
      refine allSeated_notified h hget hfits fun id w => ?_
      split
      · exact ⟨rfl, rfl⟩
      · exact ⟨rfl, rfl⟩
    case isFalse => exact h

/-! ## Edits of the active window -/

end EditorCore

def Typing.cursorAfter : Typing → TextEdit → ℕ → Window → ℕ
  | insertChar bytes, _, _, w => w.cursor + bytes.length
  | insertCharOverRegion _, op, _, _ | insertBytesOverRegion _, op, _, _
  | deleteRegion, op, _, _ | completionPopupAccept _ _, op, _, _ => op.start + op.inserted.length
  | backspace, op, _, _ | deleteWordBackward _, op, _, _ => op.start
  | deleteForward, _, _, w | deleteWordForward _, _, _, w | editActive _, _, _, w => w.cursor
  | queryReplaceApplyCurrent _ _ _, op, length, _ => min (op.start + op.inserted.length) length

/-- Whether a command leaves the anchor where it was. -/
def Typing.keepsSelection : Typing → Bool
  | insertCharOverRegion _ | insertBytesOverRegion _ | deleteRegion | completionPopupAccept _ _ =>
    false
  | _ => true

/-- The text after the edit has room for the window of the command. -/
structure Typing.HasRoom (typing : Typing) (op : TextEdit) (length lines : ℕ) (w : Window) :
    Prop where
  cursor : typing.cursorAfter op length w ≤ length
  selection : typing.keepsSelection → ∀ anchor, w.selection = some anchor → anchor ≤ length
  viewTop : w.viewTop < lines

namespace EditorCore

variable {c c' : EditorCore}

/-- Settling a window moves its cursor and drops its anchor, and no more. -/
theorem settle_rest (typing : Typing) (text : Text) (op : TextEdit) (w : Window) :
    (typing.settle text op w).viewTop = w.viewTop ∧
      (typing.settle text op w).textView = w.textView ∧
      (typing.settle text op w).selection =
        if typing.keepsSelection then w.selection else none := by
  cases typing with
  | insertChar | deleteForward | deleteWordForward | editActive | insertCharOverRegion
  | insertBytesOverRegion | backspace | deleteWordBackward | deleteRegion
  | completionPopupAccept | queryReplaceApplyCurrent => exact ⟨rfl, rfl, rfl⟩

theorem room_settle (typing : Typing) (op : TextEdit) (text : Text) (lines : ℕ) {w v : Window}
    (hplace : v.cursor = w.cursor ∧ v.selection = w.selection ∧ v.viewTop = w.viewTop) :
    Room text.length lines (typing.settle text op v) ↔ typing.HasRoom op text.length lines w := by
  obtain ⟨hcursor, hselection, hviewTop⟩ := hplace
  have hcursor' : (typing.settle text op v).cursor = typing.cursorAfter op text.length w := by
    cases typing with
    | insertChar | deleteForward | deleteWordForward | editActive =>
      simp [Typing.settle, Typing.cursorAfter, settleNowhere, hcursor]
    | insertCharOverRegion | insertBytesOverRegion | backspace | deleteWordBackward | deleteRegion
    | completionPopupAccept | queryReplaceApplyCurrent => rfl
  obtain ⟨hviewTop', -, hselection'⟩ := settle_rest typing text op v
  rw [hviewTop] at hviewTop'; rw [hselection] at hselection'
  constructor
  · rintro ⟨hc, hs, hv⟩
    refine ⟨by rw [← hcursor']; exact hc, fun hkeeps anchor hanchor => hs anchor ?_,
      by rw [← hviewTop']; exact hv⟩
    rw [hselection', if_pos hkeeps, hanchor]
  rintro ⟨hc, hs, hv⟩
  refine ⟨by rw [hcursor']; exact hc, fun anchor hanchor => ?_, by rw [hviewTop']; exact hv⟩
  rw [hselection'] at hanchor
  split at hanchor
  case isTrue hkeeps => exact hs hkeeps anchor hanchor
  case isFalse => cases hanchor

variable {typing : Typing} {op : TextEdit}

/-- The edit of a command lands. -/
structure Lands (c : EditorCore) (intercept : Intercept) (typing : Typing) (id : WindowId)
    (w : Window) (text : Text) (op edit : TextEdit) : Prop where
  active : c.activeWindowId = some id
  window : c.windows id = some w
  holds : c.registry.get w.bufferId = some text
  asks : typing.op text w = some op
  lands : landed intercept op text = some edit

/-- What an edit of the active window leaves: the windows on the buffer hear of it, and that
    window is settled. -/
def edited (c : EditorCore) (typing : Typing) (id : WindowId) (w : Window) (text : Text)
    (op edit : TextEdit) : EditorCore :=
  ((((c.setWindow id w).setText w.bufferId (edit.apply text)).mapShowing w.bufferId
    fun _ v => v.hearEdit (edit.apply text) edit).modifyWindow id
      (typing.settle (edit.apply text) op))

theorem setWindow_same {id : WindowId} {w : Window} (hw : c.windows id = some w) :
    c.setWindow id w = c := by
  unfold setWindow
  rw [← hw, update_eq_self]

variable {intercept : Intercept}

theorem editAt_cases {id : WindowId} {w : Window}
    (hid : c.activeWindowId = some id) (hw : c.windows id = some w)
    (h : c.editAt intercept typing.op typing.settle = some c') :
    (c' = c ∧ ∀ text op edit, ¬ c.Lands intercept typing id w text op edit) ∨
    ∃ text op edit, c.Lands intercept typing id w text op edit ∧
      c' = c.edited typing id w text op edit := by
  unfold editAt at h
  rw [hid] at h
  dsimp only at h
  rw [hw] at h
  dsimp only at h
  cases hget : c.registry.get w.bufferId with
  | none =>
    rw [hget] at h; cases h
    exact .inl ⟨rfl, fun text op edit hlands => by cases hget.symm.trans hlands.holds⟩
  | some text =>
    rw [hget, bind_some] at h
    cases hop : typing.op text w with
    | none =>
      rw [hop] at h; cases h
      refine .inl ⟨rfl, fun text' op edit hlands => ?_⟩
      have htext := some.inj (hget.symm.trans hlands.holds); rw [← htext] at hlands
      cases hop.symm.trans hlands.asks
    | some op =>
      rw [hop] at h; unfold applyActiveEdit at h
      rw [hget] at h; dsimp only at h
      cases hlanded : landed intercept op text with
      | none =>
        rw [hlanded] at h; cases h
        refine .inl ⟨rfl, fun text' op' edit hlands => ?_⟩
        have htext := some.inj (hget.symm.trans hlands.holds); rw [← htext] at hlands
        have hop' := some.inj (hop.symm.trans hlands.asks); rw [← hop'] at hlands
        cases hlanded.symm.trans hlands.lands
      | some edit =>
        rw [hlanded] at h; dsimp only at h
        have hafter : ((c.setText w.bufferId (edit.apply text)).mapShowing w.bufferId
            fun _ v => v.hearEdit (edit.apply text) edit).registry.get w.bufferId =
              some (edit.apply text) := get_setText (mem_order_of_get hget) _
        rw [hafter, getD_some] at h
        refine .inr ⟨text, op, edit, ⟨hid, hw, hget, hop, hlanded⟩, ?_⟩
        rw [edited, setWindow_same hw]; exact (some.inj h).symm

theorem samePlace_dropGoal (text : Text) (w : Window) : SamePlace w (dropGoal text w) :=
  ⟨rfl, rfl, rfl, rfl, rfl⟩

theorem op_dropGoal (text' : Text) {w : Window} :
    typing.op text (dropGoal text' w) = typing.op text w := by
  cases typing with
  | insertChar | deleteForward | deleteWordForward | editActive | insertCharOverRegion
  | insertBytesOverRegion | backspace | deleteWordBackward | deleteRegion
  | completionPopupAccept | queryReplaceApplyCurrent => rfl

theorem typing_cases (h : c.typing intercept typing = some c') :
    (Places c c' ∧ ∀ id w text op edit, ¬ c.Lands intercept typing id w text op edit) ∨
    ∃ id w w' text op edit, c.Lands intercept typing id w text op edit ∧ SamePlace w w' ∧
      c' = c.edited typing id w' text op edit := by
  rw [typing_eq] at h
  have hactive : ∀ {id id' : WindowId} {w w' : Window} {text : Text} {op edit : TextEdit},
      c.activeWindowId = some id → c.windows id = some w →
      c.Lands intercept typing id' w' text op edit → id' = id ∧ w' = w := by
    intro id id' w w' text op edit hid hw hlands
    have hid' := some.inj (hid.symm.trans hlands.active); subst hid'
    exact ⟨rfl, (some.inj (hw.symm.trans hlands.window)).symm⟩
  split at h
  · obtain ⟨c₁, hdrop, hedit⟩ := bind_eq_some_iff.1 h; unfold modifyActive at hdrop
    cases hid : c.activeWindowId with
    | none => rw [hid] at hdrop; cases hdrop
    | some id =>
      rw [hid] at hdrop; dsimp only at hdrop
      cases hw : c.windows id with
      | none => rw [hw] at hdrop; cases hdrop
      | some w =>
        rw [hw] at hdrop; cases hdrop
        generalize hgoal : dropGoal ((c.registry.get w.bufferId).getD []) w = w' at hedit
        have hplace : SamePlace w w' := by rw [← hgoal]; exact samePlace_dropGoal _ w
        have hop : ∀ text, typing.op text w' = typing.op text w := by
          intro text; rw [← hgoal]; exact op_dropGoal _
        have hid' : (c.setWindow id w').activeWindowId = some id := hid
        rcases editAt_cases hid' (setWindow_windows_self c id w') hedit with ⟨hsame, hnot⟩ |
          ⟨text, op, edit, hlands, hedited⟩
        · refine .inl ⟨?_, fun id' v text op edit hlands => ?_⟩
          · rw [hsame]; exact places_setWindow hw (.inl hplace)
          obtain ⟨rfl, rfl⟩ := hactive hid hw hlands
          refine hnot text op edit ⟨hid', setWindow_windows_self c _ w', ?_, ?_, hlands.lands⟩
          · rw [hplace.bufferId]; exact hlands.holds
          · rw [hop, hlands.asks]
        refine .inr ⟨id, w, w', text, op, edit, ⟨hid, hw, ?_, ?_, hlands.lands⟩, hplace, ?_⟩
        · rw [← hplace.bufferId]; exact hlands.holds
        · rw [← hop, hlands.asks]
        · rw [hedited, edited, edited]; unfold setWindow; rw [update_idem]
  cases hid : c.activeWindowId with
  | none => rw [editAt, hid] at h; cases h
  | some id =>
    cases hw : c.windows id with
    | none =>
      rw [editAt, hid] at h; dsimp only at h; rw [hw] at h
      cases h
    | some w =>
      rcases editAt_cases hid hw h with ⟨hsame, hnot⟩ | ⟨text, op, edit, hlands, hedited⟩
      · refine .inl ⟨by rw [hsame]; exact .refl c, fun id' v text op edit hlands => ?_⟩
        obtain ⟨rfl, rfl⟩ := hactive hid hw hlands; exact hnot text op edit hlands
      · exact .inr ⟨id, w, w, text, op, edit, hlands, .refl w, hedited⟩

/-! ## Who has room for an edit -/

/-- A window's positions are in its text, and in the lines of its cache. -/
structure PositionOk (text : Text) (w : Window) : Prop where
  cursor : w.cursor ≤ text.length
  selection : ∀ anchor, w.selection = some anchor → anchor ≤ text.length
  viewTop : w.viewTop < w.textView.lineCount

def PositionsOk (c : EditorCore) : Prop :=
  ∀ id w text, c.windows id = some w → c.registry.get w.bufferId = some text → PositionOk text w

theorem positionOk_iff {w : Window} (hview : w.textView = .new text) :
    PositionOk text w ↔ Room text.length text.lines w := by
  have hcount : w.textView.lineCount = text.lines := by rw [hview, TextView.lineCount_new]
  constructor
  · rintro ⟨hc, hs, hv⟩; exact ⟨hc, hs, by rw [← hcount]; exact hv⟩
  · rintro ⟨hc, hs, hv⟩; exact ⟨hc, hs, by rw [hcount]; exact hv⟩

theorem AllSeated.positionsOk (h : AllSeated c) : PositionsOk c := by
  intro id w text hw hget
  obtain ⟨text', hget', hview, hroom⟩ := h id w hw
  have htext := some.inj (hget.symm.trans hget')
  rw [← htext] at hview hroom
  exact (positionOk_iff hview).2 hroom

/-- After the edit there is room for the window of the command, and for every other one that
    shows the buffer. -/
def EditRoom (c : EditorCore) (typing : Typing) (id : WindowId) (w : Window) (text : Text)
    (op edit : TextEdit) : Prop :=
  typing.HasRoom op (edit.lengthAfter text) (edit.linesAfter text) w ∧
  ∀ j v, j ≠ id → c.windows j = some v → v.bufferId = w.bufferId →
    Room (edit.lengthAfter text) (edit.linesAfter text) v

theorem landed_fits (h : landed intercept op text = some edit) : edit.Fits text :=
  of_decide_eq_true (filter_eq_some_iff.1 h).2

/-- **An edit of the active window keeps every position exactly where there is room.** -/
theorem edited_positions (h : AllSeated c) {id : WindowId} {w : Window}
    (hlands : c.Lands intercept typing id w text op edit) (hplace : SamePlace w w') :
    (EditRoom c typing id w text op edit → AllSeated (c.edited typing id w' text op edit)) ∧
    (PositionsOk (c.edited typing id w' text op edit) → EditRoom c typing id w text op edit) := by
  have hfits := landed_fits hlands.lands
  have hlength : edit.lengthAfter text = (edit.apply text).length :=
    (TextEdit.length_apply hfits).symm
  have hlines : edit.linesAfter text = (edit.apply text).lines := (TextEdit.lines_apply hfits).symm
  have hmem := mem_order_of_get hlands.holds
  have hregistry : (c.edited typing id w' text op edit).registry =
      c.registry.setText w.bufferId (edit.apply text) := by
    unfold edited modifyWindow; rw [hplace.bufferId]
    split
    · rfl
    · rfl
  have hafter : (c.edited typing id w' text op edit).registry.get w.bufferId =
      some (edit.apply text) := by rw [hregistry]; exact get_setText hmem _
  -- the window of the command
  have hself : (c.edited typing id w' text op edit).windows id = some (typing.settle
      (edit.apply text) op (w'.hearEdit (edit.apply text) edit)) := by
    have hheard : (((c.setWindow id w').setText w'.bufferId (edit.apply text)).mapShowing
        w'.bufferId fun _ v => v.hearEdit (edit.apply text) edit).windows id =
          some (w'.hearEdit (edit.apply text) edit) := by
      show Option.map _ ((c.setWindow id w').windows id) = _
      rw [setWindow_windows_self, map_some, if_pos rfl]
    unfold edited modifyWindow; rw [hheard]; exact setWindow_windows_self _ id _
  -- and the others
  have hothers : ∀ j, j ≠ id → (c.edited typing id w' text op edit).windows j =
      (c.windows j).map fun v =>
        if v.bufferId = w.bufferId then v.hearEdit (edit.apply text) edit else v := by
    intro j hj; unfold edited modifyWindow; rw [hplace.bufferId]
    have hmap : ((c.setWindow id w').windows j).map (fun v =>
        if v.bufferId = w.bufferId then v.hearEdit (edit.apply text) edit else v) =
        (c.windows j).map fun v =>
          if v.bufferId = w.bufferId then v.hearEdit (edit.apply text) edit else v := by
      rw [setWindow_windows_of_ne _ _ _ hj]
    split
    · rw [setWindow_windows_of_ne _ _ _ hj]; exact hmap
    · exact hmap
  have hview_of : ∀ {j v}, c.windows j = some v → v.bufferId = w.bufferId →
      v.textView = .new text := by
    intro j v hv hshows; obtain ⟨text', hget', hview, -⟩ := h j v hv; rw [hshows] at hget'
    rw [some.inj (hlands.holds.symm.trans hget'), hview]
  have hview' : (typing.settle (edit.apply text) op
      (w'.hearEdit (edit.apply text) edit)).textView = .new (edit.apply text) := by
    rw [(settle_rest _ _ _ _).2.1]
    exact hearEdit_textView hfits (hplace.textView.trans (hview_of hlands.window rfl))
  have hsettled := @room_settle typing op (edit.apply text) (edit.apply text).lines w
    (w'.hearEdit (edit.apply text) edit) ⟨hplace.cursor, hplace.selection, hplace.viewTop⟩
  have hsettled_buffer : (typing.settle (edit.apply text) op
      (w'.hearEdit (edit.apply text) edit)).bufferId = w.bufferId :=
    (quiet_settle typing _ op _).2.trans hplace.bufferId
  unfold EditRoom
  rw [hlength, hlines]
  constructor
  · rintro ⟨hroom, hrooms⟩ j v hv
    by_cases hj : j = id
    · subst hj; rw [hself] at hv; cases hv
      exact ⟨_, by rw [hsettled_buffer]; exact hafter, hview', hsettled.2 hroom⟩
    rw [hothers j hj] at hv; obtain ⟨u, hu, rfl⟩ := map_eq_some_iff.1 hv
    by_cases hshows : u.bufferId = w.bufferId
    · rw [if_pos hshows]
      refine ⟨edit.apply text, ?_, hearEdit_textView hfits (hview_of hu hshows),
        (hrooms j u hj hu hshows).samePlace rfl rfl rfl⟩
      rw [← hafter, ← hshows]; rfl
    rw [if_neg hshows]
    refine (h j u hu).samePlace (.refl u) ?_; rw [hregistry]; exact get_setText_of_ne hshows _
  intro hpositions
  refine ⟨?_, fun j v hj hv hshows => ?_⟩
  · refine hsettled.1 ((positionOk_iff hview').1 (hpositions id _ _ hself ?_))
    rw [hsettled_buffer]; exact hafter
  have hv' : (c.edited typing id w' text op edit).windows j =
      some (v.hearEdit (edit.apply text) edit) := by
    rw [hothers j hj, hv, map_some, if_pos hshows]
  have hposition := hpositions j _ (edit.apply text) hv' (by
    show (c.edited typing id w' text op edit).registry.get v.bufferId = _
    rw [hshows]; exact hafter)
  exact ((positionOk_iff (hearEdit_textView hfits (hview_of hv hshows))).1
    hposition).samePlace rfl rfl rfl

end EditorCore

end Display

end Pmacs
