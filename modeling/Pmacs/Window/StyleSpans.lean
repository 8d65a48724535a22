/-
  Style spans of a buffer, kept in step with its edits (overlay.rs).

  * `BufferStyleSpan.onEdit` cuts the spans at an edit and shifts what is behind it; `painted` is
    the style that the spans give to a byte;
  * `Edited`: spans that heard of every edit of a text, and where each byte of it comes from;
  * `edited_styles`: a byte that was there before keeps its style, a byte that was put in has none.
-/
import Pmacs.Terminal.Cell
import Pmacs.Window.TextView

namespace Pmacs

open Lib List Option

/-- Merge a style over another: what it leaves to the default is the other's. -/
def mergeStyles (base overlay : Style) : Style where
  fg := if overlay.fg = .default then base.fg else overlay.fg
  bg := if overlay.bg = .default then base.bg else overlay.bg
  bold := base.bold || overlay.bold
  italic := base.italic || overlay.italic
  underline := if overlay.underline = .none then base.underline else overlay.underline
  reverse := base.reverse || overlay.reverse
  underlineColor :=
    if overlay.underlineColor = .default then base.underlineColor else overlay.underlineColor

/-- A style for the bytes of `[start, stop)`. -/
structure BufferStyleSpan where
  start : ℕ
  stop : ℕ
  style : Style
deriving DecidableEq, Repr

namespace BufferStyleSpan

variable (span : BufferStyleSpan)

def Covers (byte : ℕ) : Prop := span.start ≤ byte ∧ byte < span.stop

instance (span : BufferStyleSpan) (byte : ℕ) : Decidable (span.Covers byte) := by
  unfold Covers
  infer_instance

def Within (text : Text) : Prop :=
  span.start ≤ text.length ∧ span.stop ≤ text.length

/-- What is left of a span: the bytes before the replaced range, and those behind it, shifted. -/
def fragments (edit : TextEdit) (span : BufferStyleSpan) : List BufferStyleSpan :=
  let oldLen := edit.stop - edit.start
  let newLen := edit.inserted.length
  (if span.start < edit.start then [⟨span.start, min span.stop edit.start, span.style⟩] else []) ++
    if edit.stop < span.stop then
      [⟨max span.start edit.stop - oldLen + newLen, span.stop - oldLen + newLen, span.style⟩]
    else []

/-- `BufferStyleSpanTranslator::on_edit`. -/
def onEdit (spans : List BufferStyleSpan) (edit : TextEdit) : List BufferStyleSpan :=
  -- nothing moved
  if edit.stop - edit.start = 0 ∧ edit.inserted.length = 0 then spans
  else spans.flatMap (fragments edit)

/-- The style painted on a byte: the spans over it merged in their order. -/
def painted (spans : List BufferStyleSpan) (base : Style) (byte : ℕ) : Style :=
  (spans.filter fun span => span.Covers byte).foldl
    (fun style span => mergeStyles style span.style) base

variable {edit : TextEdit} {text text₀ : Text} {spans spans₀ : List BufferStyleSpan}

/-! ## One edit -/

theorem onEdit_noOp (hrange : edit.start = edit.stop)
    (hins : edit.inserted = []) : onEdit spans edit = spans :=
  if_pos ⟨by omega, by rw [hins, length_nil]⟩

def stylesAt (spans : List BufferStyleSpan) (byte : ℕ) : List Style :=
  (spans.filter fun span => span.Covers byte).map style

variable {byte : ℕ}

theorem stylesAt_eq_nil : stylesAt spans byte = [] ↔ ∀ span ∈ spans, ¬span.Covers byte := by
  simp [stylesAt, filter_eq_nil_iff]

theorem stylesAt_append (as bs : List BufferStyleSpan) :
    stylesAt (as ++ bs) byte = stylesAt as byte ++ stylesAt bs byte := by
  rw [stylesAt, filter_append, map_append, stylesAt, stylesAt]

theorem stylesAt_ite (p : Prop) [Decidable p] (span : BufferStyleSpan) :
    stylesAt (if p then [span] else []) byte =
      if p ∧ span.Covers byte then [span.style] else [] := by
  unfold stylesAt
  by_cases hp : p <;> by_cases hcover : span.Covers byte <;> simp [hp, hcover]

theorem stylesAt_singleton :
    stylesAt [span] byte = if span.Covers byte then [span.style] else [] := by
  unfold stylesAt
  by_cases hcover : span.Covers byte <;> simp [hcover]

theorem stylesAt_before (hfits : edit.Fits text)
    (hbyte : byte < edit.start) : stylesAt (span.fragments edit) byte = stylesAt [span] byte := by
  have hle := hfits.1
  rw [fragments, stylesAt_append, stylesAt_ite, stylesAt_ite, stylesAt_singleton]
  unfold Covers
  dsimp only
  rw [if_neg (show ¬(edit.stop < span.stop ∧ _) by omega), append_nil]
  exact if_congr (by omega) rfl rfl

theorem stylesAt_behind (hfits : edit.Fits text) (hbyte : edit.stop ≤ byte) :
    stylesAt (span.fragments edit) (byte - (edit.stop - edit.start) + edit.inserted.length) =
      stylesAt [span] byte := by
  have hle := hfits.1
  rw [fragments, stylesAt_append, stylesAt_ite, stylesAt_ite, stylesAt_singleton]
  unfold Covers
  dsimp only
  rw [if_neg (show ¬(span.start < edit.start ∧ _) by omega), nil_append]
  exact if_congr (by omega) rfl rfl

theorem stylesAt_inserted (hfits : edit.Fits text)
    (hlow : edit.start ≤ byte) (hhigh : byte < edit.start + edit.inserted.length) :
    stylesAt (span.fragments edit) byte = [] := by
  have hle := hfits.1
  rw [fragments, stylesAt_append, stylesAt_ite, stylesAt_ite]
  unfold Covers
  dsimp only
  rw [if_neg (by omega), if_neg (by omega), append_nil]

theorem painted_eq (base : Style) :
    painted spans base byte = (stylesAt spans byte).foldl mergeStyles base := by
  rw [painted, stylesAt, foldl_map]

theorem stylesAt_flatMap {f : BufferStyleSpan → List BufferStyleSpan} {byte' : ℕ}
    (h : ∀ span, stylesAt (f span) byte' = stylesAt [span] byte) :
    stylesAt (spans.flatMap f) byte' = stylesAt spans byte := by
  induction spans with
  | nil => rfl
  | cons span spans ih => rw [flatMap_cons, stylesAt_append, h, ih, ← stylesAt_append]; rfl

section
variable (hfits : edit.Fits text)
include hfits

theorem stylesAt_onEdit_before (hbyte : byte < edit.start) :
    stylesAt (onEdit spans edit) byte = stylesAt spans byte := by
  unfold onEdit
  split_ifs
  · rfl
  · exact stylesAt_flatMap (fun span => stylesAt_before span hfits hbyte)

theorem stylesAt_onEdit_behind (hbyte : edit.stop ≤ byte) :
    stylesAt (onEdit spans edit) (byte - (edit.stop - edit.start) + edit.inserted.length) =
      stylesAt spans byte := by
  unfold onEdit
  split_ifs with hnoOp
  · rw [hnoOp.1, hnoOp.2]; rfl
  · exact stylesAt_flatMap (fun span => stylesAt_behind span hfits hbyte)

theorem stylesAt_onEdit_inserted (hlow : edit.start ≤ byte)
    (hhigh : byte < edit.start + edit.inserted.length) : stylesAt (onEdit spans edit) byte =
    [] := by
  unfold onEdit
  split_ifs with hnoOp
  · omega
  rw [stylesAt_eq_nil]; intro f hf; obtain ⟨span, -, hf⟩ := mem_flatMap.1 hf
  exact stylesAt_eq_nil.1 (stylesAt_inserted span hfits hlow hhigh) f hf

theorem onEdit_within (h : ∀ span ∈ spans, span.Within text) :
    ∀ span ∈ onEdit spans edit, span.Within (edit.apply text) := by
  have happly := TextEdit.length_apply hfits
  obtain ⟨hle, hlen⟩ := hfits
  intro f hf
  unfold onEdit at hf
  unfold Within at h ⊢
  split_ifs at hf with hnoOp
  · have := h f hf; omega
  obtain ⟨span, hspan, hf⟩ := mem_flatMap.1 hf; have hwithin := h span hspan
  simp only [fragments, mem_append, mem_ite_nil_right, mem_singleton] at hf
  rcases hf with ⟨hlt, rfl⟩ | ⟨hlt, rfl⟩ <;> dsimp only <;> omega

end

/-! ## Any number of edits -/

/-- Spans that heard of edits of a text, and for each byte of the text now the byte it was. -/
inductive Edited (spans₀ : List BufferStyleSpan) (text₀ : Text) :
    List BufferStyleSpan → Text → List (Option ℕ) → Prop
  | start : Edited spans₀ text₀ spans₀ text₀ ((List.range text₀.length).map some)
  | next {spans : List BufferStyleSpan} {text : Text} {origins : List (Option ℕ)} {edit : TextEdit}
    (h : Edited spans₀ text₀ spans text origins) (hfits : edit.Fits text) :
    Edited spans₀ text₀ (onEdit spans edit) (edit.apply text)
      (splice origins edit.start edit.stop (List.replicate edit.inserted.length none))

/-- What the spans and the text say of a byte that was there, and of one that was put in. -/
structure Traced (spans₀ : List BufferStyleSpan) (text₀ : Text) (spans : List BufferStyleSpan)
    (text : Text) (origins : List (Option ℕ)) : Prop where
  length : origins.length = text.length
  survives : ∀ i b, origins[i]? = some (some b) →
    text[i]? = text₀[b]? ∧ ∀ base, painted spans base i = painted spans₀ base b
  inserted : ∀ i, origins[i]? = some none → ∀ span ∈ spans, ¬span.Covers i


variable {α : Type} {l ins : List α}

/-- An item of a splice is one before it, one put in or one behind it. -/
theorem getElem?_splice_cases {s e i : ℕ} {a : α} (hse : s ≤ e)
    (he : e ≤ l.length) (h : (splice l s e ins)[i]? = some a) :
    (i < s ∧ l[i]? = some a) ∨ (s ≤ i ∧ i < s + ins.length ∧ a ∈ ins) ∨
      ∃ j, e ≤ j ∧ i = j - (e - s) + ins.length ∧ l[j]? = some a := by
  have hs : (l.take s).length = s := length_take_of_le (hse.trans he)
  rw [splice, append_assoc] at h
  rcases lt_or_ge i s with hi | hi
  · rw [getElem?_append_left (hs.symm ▸ hi), getElem?_take, if_pos hi] at h; exact .inl ⟨hi, h⟩
  rw [getElem?_append_right (hs.symm ▸ hi), hs] at h
  rcases lt_or_ge (i - s) ins.length with hins | hins
  · rw [getElem?_append_left hins] at h; exact .inr (.inl ⟨hi, by omega, mem_of_getElem? h⟩)
  rw [getElem?_append_right hins, getElem?_drop] at h
  exact .inr (.inr ⟨_, Nat.le_add_right e _, by omega, h⟩)

theorem getElem?_splice_before {s e i : ℕ} (hi : i < s)
    (hs : s ≤ l.length) : (splice l s e ins)[i]? = l[i]? := by
  rw [splice, append_assoc, getElem?_append_left (by rw [length_take]; omega),
    getElem?_take, if_pos hi]

theorem getElem?_splice_behind {s e j : ℕ} (hse : s ≤ e)
    (he : e ≤ l.length) (hj : e ≤ j) : (splice l s e ins)[j - (e - s) + ins.length]? = l[j]? := by
  have hs : (l.take s).length = s := length_take_of_le (hse.trans he)
  rw [splice, getElem?_append_right (by rw [length_append, hs]; omega),
    getElem?_drop, length_append, hs]
  congr 1
  omega

variable {origins : List (Option ℕ)}

theorem Traced.next (h : Traced spans₀ text₀ spans text origins)
    (hfits : edit.Fits text) : Traced spans₀ text₀ (onEdit spans edit) (edit.apply text)
      (splice origins edit.start edit.stop (List.replicate edit.inserted.length none)) := by
  obtain ⟨hle, hlen⟩ := hfits
  have hlen' : edit.stop ≤ origins.length := h.length ▸ hlen
  refine ⟨?_, fun i b hi => ?_, fun i hi => ?_⟩
  · rw [length_splice _ hle hlen', TextEdit.length_apply ⟨hle, hlen⟩, h.length, length_replicate]
  · rcases getElem?_splice_cases hle hlen' hi with ⟨hi, hb⟩ | ⟨-, -, hb⟩ | ⟨j, hj, rfl, hb⟩
    · obtain ⟨hbyte, hstyle⟩ := h.survives i b hb
      rw [TextEdit.apply, getElem?_splice_before hi (hle.trans hlen)]
      refine ⟨hbyte, fun base => (?_ : _ = _).trans (hstyle base)⟩
      rw [painted_eq, painted_eq, stylesAt_onEdit_before ⟨hle, hlen⟩ hi]
    · cases eq_of_mem_replicate hb
    obtain ⟨hbyte, hstyle⟩ := h.survives j b hb
    rw [length_replicate, TextEdit.apply, getElem?_splice_behind hle hlen hj]
    refine ⟨hbyte, fun base => (?_ : _ = _).trans (hstyle base)⟩
    rw [painted_eq, painted_eq, stylesAt_onEdit_behind ⟨hle, hlen⟩ hj]
  rcases getElem?_splice_cases hle hlen' hi with ⟨hi, hnone⟩ | ⟨hlow, hhigh, -⟩ |
    ⟨j, hj, rfl, hnone⟩
  · refine stylesAt_eq_nil.1 ?_; rw [stylesAt_onEdit_before ⟨hle, hlen⟩ hi, stylesAt_eq_nil]
    exact h.inserted i hnone
  · rw [length_replicate] at hhigh
    exact stylesAt_eq_nil.1 (stylesAt_onEdit_inserted ⟨hle, hlen⟩ hlow hhigh)
  refine stylesAt_eq_nil.1 ?_
  rw [length_replicate, stylesAt_onEdit_behind ⟨hle, hlen⟩ hj, stylesAt_eq_nil]
  exact h.inserted j hnone

theorem Edited.traced (h : Edited spans₀ text₀ spans text origins) :
    Traced spans₀ text₀ spans text origins := by
  induction h with
  | start =>
    refine ⟨by simp, fun i b hi => ?_, fun i hi => ?_⟩
    · rw [getElem?_map, map_eq_some_iff] at hi; obtain ⟨j, hj, hjb⟩ := hi
      obtain rfl := some.inj hjb; obtain ⟨_, hget⟩ := List.getElem?_eq_some_iff.1 hj
      rw [List.getElem_range] at hget; subst hget; exact ⟨rfl, fun _ => rfl⟩
    · rw [getElem?_map, map_eq_some_iff] at hi; obtain ⟨j, -, hj⟩ := hi; cases hj
  | next _ hfits ih => exact ih.next hfits

theorem Edited.within (h : Edited spans₀ text₀ spans text origins)
    (hin : ∀ span ∈ spans₀, span.Within text₀) : ∀ span ∈ spans, span.Within text := by
  induction h with
  | start => exact hin
  | next _ hfits ih => exact onEdit_within hfits ih

/-- **Spans that hear of every edit** style the bytes they styled before. -/
theorem edited_styles {origins : List (Option ℕ)} (h : Edited spans₀ text₀ spans text origins) :
    Traced spans₀ text₀ spans text origins ∧
      ((∀ span ∈ spans₀, span.Within text₀) → ∀ span ∈ spans, span.Within text) ∧
      ∀ edit : TextEdit, edit.start = edit.stop → edit.inserted = [] → onEdit spans edit = spans :=
  ⟨h.traced, h.within, fun _ => onEdit_noOp⟩

theorem edited_styles_split : painted (onEdit [⟨0, 2, .default⟩] ⟨1, 1, [98]⟩) .default 2 =
    painted [⟨0, 2, .default⟩] .default 1 :=
  have hfits : TextEdit.Fits ⟨1, 1, [98]⟩ [97, 99] := by decide
  ((edited_styles (.next (@Edited.start [⟨0, 2, .default⟩] _) hfits)).1.survives 2 1 rfl).2 _

theorem not_edited_within : ¬∀ (spans₀ : List BufferStyleSpan) (text₀ : Text)
    (spans : List BufferStyleSpan) (text : Text) (origins : List (Option ℕ)),
    Edited spans₀ text₀ spans text origins → ∀ span ∈ spans, span.Within text := by
  intro h
  have hfits : TextEdit.Fits ⟨0, 0, [97]⟩ [] := by decide
  have := h _ _ _ _ _ (.next (@Edited.start [⟨5, 9, .default⟩] _) hfits) ⟨6, 10, .default⟩
    (by decide)
  exact absurd this.1 (by decide)

end BufferStyleSpan

end Pmacs
