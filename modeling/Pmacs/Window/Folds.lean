/-
  The folds of a buffer (fold.rs).

  * `FoldStore`: collapsed ranges, sorted; `translate` moves each by an edit of the buffer or
    drops it;
  * `Normalised`: from the end of a line's content to the end of a later line's;
  * `Sound`: what the folds of a store keep; `HeldTails`: they end where a line does, which text
    put in right behind a fold may end;
  * `reaches_aligned`: every run of inserts and edits.
-/
import Pmacs.Lib.Ranges
import Pmacs.Window.StyleSpans

namespace Pmacs

open Lib List Option

variable {edit : TextEdit} {f g : Lib.Range} {text : Text}

/-- A buffer's collapsed ranges. -/
structure FoldStore where
  folds : List Lib.Range
deriving DecidableEq, Repr

namespace FoldStore

def foldLe (a b : Lib.Range) : Bool := a.start < b.start || (a.start == b.start && a.stop ≤ b.stop)

def new : FoldStore := ⟨[]⟩

def normalize (folds : List Lib.Range) : FoldStore := ⟨(folds.mergeSort foldLe).destutter (· ≠ ·)⟩

variable (s : FoldStore)

def insert (r : Lib.Range) : Bool × FoldStore :=
  if r.stop ≤ r.start ∨ r ∈ s.folds then (false, s) else (true, normalize (s.folds ++ [r]))

def shift (edit : TextEdit) (x : ℕ) : ℕ :=
  let oldLen := edit.stop - edit.start
  let newLen := edit.inserted.length
  if oldLen ≤ newLen then x + (newLen - oldLen) else x - (oldLen - newLen)

/-- A fold after an edit; none when the edit crosses one of its ends. -/
def translateFold (edit : TextEdit) (f : Lib.Range) : Option Lib.Range :=
  if edit.stop ≤ f.start then some ⟨shift edit f.start, shift edit f.stop⟩
  else if f.stop < edit.start ∨ edit.start = f.stop ∧ edit.stop - edit.start = 0 then some f
  else if f.start < edit.start ∧ edit.stop < f.stop then
    let stop := shift edit f.stop
    if f.start < stop then some ⟨f.start, stop⟩ else none
  else none

def translate (edit : TextEdit) : FoldStore :=
  if edit.stop - edit.start = 0 ∧ edit.inserted.length = 0 then s
  else normalize (s.folds.filterMap (translateFold edit))

end FoldStore

/-! ## What the folds keep -/

/-- A place where a line of `text` ends: its newline, or the end of the text. -/
def LineEnd (text : Text) (p : ℕ) : Prop := text[p]? = some 10 ∨ p = text.length

/-- From the end of a line of `text` to the end of a later one. -/
structure Normalised (text : Text) (f : Lib.Range) : Prop where
  head : LineEnd text f.start
  tail : LineEnd text f.stop
  lt : f.start < f.stop

namespace FoldStore

/-- A fold that is not empty and inside the text, from the end of a line on. -/
structure Aligned (text : Text) (f : Lib.Range) : Prop where
  lt : f.start < f.stop
  inText : f.stop ≤ text.length
  head : text[f.start]? = some 10

def Before (a b : Lib.Range) : Prop := a.start < b.start ∨ a.start = b.start ∧ a.stop < b.stop

/-- Aligned folds in a strict order. -/
structure Sound (s : FoldStore) (text : Text) : Prop where
  sorted : s.folds.Pairwise Before
  aligned : ∀ f ∈ s.folds, Aligned text f

/-- The folds end where a line does. -/
def HeldTails (s : FoldStore) (text : Text) : Prop := ∀ f ∈ s.folds, LineEnd text f.stop

/-- An edit puts text other than a new line in, right at the end of a fold. -/
def PushesTail (s : FoldStore) (edit : TextEdit) : Prop :=
  ∃ f ∈ s.folds, edit.start = f.stop ∧ edit.stop = f.stop ∧ edit.inserted ≠ [] ∧
    edit.inserted.head? ≠ some 10

variable {s : FoldStore} {folds : List Lib.Range}

theorem mem_normalize (h : f ∈ (normalize folds).folds) : f ∈ folds :=
  (mergeSort_perm folds foldLe).mem_iff.1 ((destutter_sublist _ _).mem h)

theorem sorted_normalize (folds : List Lib.Range) : (normalize folds).folds.Pairwise Before := by
  have hle : ∀ a b : Lib.Range, foldLe a b = true ↔
      a.start < b.start ∨ a.start = b.start ∧ a.stop ≤ b.stop := by simp [foldLe]
  have hlt : ∀ a b : Lib.Range, foldLe a b = true → a ≠ b → Before a b := by
    rintro ⟨start, stop⟩ ⟨start', stop'⟩ hab hne; unfold Before
    rw [hle] at hab; simp only [ne_eq, Lib.Range.mk.injEq, not_and] at hab hne ⊢; omega
  have hsorted : (folds.mergeSort foldLe).Pairwise (foldLe · ·) := by
    refine pairwise_mergeSort (fun a b c hab hbc => ?_) (fun a b => ?_) folds
    · rw [hle] at *; omega
    · rw [Bool.or_eq_true, hle, hle]; omega
  have hpair := hsorted.sublist (destutter_sublist (· ≠ ·) _)
  have hchain := isChain_destutter (· ≠ ·) (folds.mergeSort foldLe)
  have htrans : IsTrans Lib.Range Before := ⟨by unfold Before; intros; omega⟩
  exact isChain_iff_pairwise.1 (isChain_iff_getElem.2 fun i hi =>
    hlt _ _ (isChain_iff_getElem.1 hpair.isChain i hi) (isChain_iff_getElem.1 hchain i hi))

theorem normalize_sound (h : ∀ f ∈ folds, Aligned text f) : (normalize folds).Sound text :=
  ⟨sorted_normalize folds, fun f hf => h f (mem_normalize hf)⟩

theorem insert_sound (h : s.Sound text) (hf : Normalised text f) :
    (s.insert f).2.Sound text ∧ (s.HeldTails text → (s.insert f).2.HeldTails text) := by
  rw [insert]
  split_ifs
  · exact ⟨h, id⟩
  · have hlt := hf.lt
    have hstop : f.stop ≤ text.length := by
      rcases hf.tail with hat | hend
      · exact Nat.le_of_lt (List.getElem?_eq_some_iff.1 hat).1
      · exact Nat.le_of_eq hend
    have hnew : ∀ P : Lib.Range → Prop, (∀ g ∈ s.folds, P g) → P f → ∀ g ∈ s.folds ++ [f], P g := by
      intro P hold hf g hg
      rcases mem_append.1 hg with hg | hg
      · exact hold g hg
      · rw [mem_singleton.1 hg]; exact hf
    refine ⟨normalize_sound (hnew _ h.aligned ?_), fun htails g hg => ?_⟩
    · exact ⟨hlt, hstop, hf.head.resolve_right (by omega)⟩
    · exact hnew _ htails hf.tail g (mem_normalize hg)

/-! ## Edits -/

theorem shift_eq (hle : edit.start ≤ edit.stop) {x : ℕ} (hx : edit.stop ≤ x) :
    shift edit x = x - (edit.stop - edit.start) + edit.inserted.length := by
  rw [shift]
  split_ifs <;> omega

/-- The three ways in which a fold is kept. -/
theorem translateFold_cases (h : translateFold edit f = some g) :
    (edit.stop ≤ f.start ∧ g = ⟨shift edit f.start, shift edit f.stop⟩) ∨
      ((f.stop < edit.start ∨ edit.start = f.stop ∧ edit.stop ≤ edit.start) ∧ g = f) ∨
      (f.start < edit.start ∧ edit.stop < f.stop ∧ g = ⟨f.start, shift edit f.stop⟩) := by
  rw [translateFold] at h; dsimp only at h
  split_ifs at h with hbefore hbehind hinside
  · exact .inl ⟨hbefore, (some.inj h).symm⟩
  · exact .inr (.inl ⟨by omega, (some.inj h).symm⟩)
  · exact .inr (.inr ⟨hinside.1, hinside.2, (some.inj h).symm⟩)

section
variable (hfits : edit.Fits text) {p : ℕ}
include hfits

theorem getElem?_apply_before (hp : p < edit.start) : (edit.apply text)[p]? = text[p]? :=
  BufferStyleSpan.getElem?_splice_before hp (Nat.le_trans hfits.1 hfits.2)

theorem getElem?_apply_shift (hp : edit.stop ≤ p) :
    (edit.apply text)[shift edit p]? = text[p]? := by
  rw [shift_eq hfits.1 hp]; exact BufferStyleSpan.getElem?_splice_behind hfits.1 hfits.2 hp

theorem lineEnd_shift (hp : edit.stop ≤ p) (h : LineEnd text p) :
    LineEnd (edit.apply text) (shift edit p) := by
  refine h.imp (fun hat => by rw [getElem?_apply_shift hfits hp, hat]) fun hend => ?_
  rw [shift_eq hfits.1 hp, hend, edit.length_apply hfits]

/-- **A fold that an edit moves** is aligned in the text after it, and so is its end. -/
theorem translateFold_aligned (hf : Aligned text f) (h : translateFold edit f = some g) :
    Aligned (edit.apply text) g ∧ (LineEnd text f.stop → (edit.start = f.stop →
      edit.stop = f.stop → edit.inserted = [] ∨ edit.inserted.head? = some 10) →
        LineEnd (edit.apply text) g.stop) := by
  have hlength := edit.length_apply hfits
  obtain ⟨hlt, hle, hhead⟩ := hf
  obtain ⟨hse, hel⟩ := hfits
  rcases translateFold_cases h with ⟨hbefore, rfl⟩ | ⟨hbehind, rfl⟩ | ⟨hstart, hstop, rfl⟩
  · refine ⟨⟨?_, ?_, ?_⟩, fun htail _ => lineEnd_shift ⟨hse, hel⟩ (by omega) htail⟩
    · rw [shift_eq hse hbefore, shift_eq hse (by omega)]; dsimp only; omega
    · dsimp only; rw [shift_eq hse (by omega)]; omega
    · rw [getElem?_apply_shift ⟨hse, hel⟩ hbefore, hhead]
  · refine ⟨⟨hlt, by omega, ?_⟩, fun htail hpushed => ?_⟩
    · rw [getElem?_apply_before ⟨hse, hel⟩ (by omega), hhead]
    · rcases hbehind with hbehind | ⟨hstart, hstop⟩
      · rcases htail with hat | hend
        · exact .inl (by rw [getElem?_apply_before ⟨hse, hel⟩ hbehind, hat])
        · omega
      · rcases hpushed hstart (by omega) with hnil | hnewline
        · have hsame : edit.apply text = text := by
            rw [TextEdit.apply, hnil, show edit.stop = edit.start by omega, splice_same]
          rw [hsame]; exact htail
        · refine .inl ?_
          have hs : (text.take edit.start).length = edit.start := by rw [length_take]; omega
          have hpos : 0 < edit.inserted.length := by
            rw [length_pos_iff]; rintro hnil; rw [hnil] at hnewline; cases hnewline
          rw [TextEdit.apply, splice, append_assoc, getElem?_append_right (by omega), hs, hstart,
            Nat.sub_self, getElem?_append_left hpos, ← head?_eq_getElem?, hnewline]
  · refine ⟨⟨?_, ?_, ?_⟩, fun htail _ => lineEnd_shift ⟨hse, hel⟩ (by omega) htail⟩
    · rw [shift_eq hse (by omega)]; dsimp only; omega
    · dsimp only; rw [shift_eq hse (by omega)]; omega
    · rw [getElem?_apply_before ⟨hse, hel⟩ hstart, hhead]

theorem translate_sound (h : s.Sound text) : (s.translate edit).Sound (edit.apply text) ∧
    (s.HeldTails text → ¬ s.PushesTail edit → (s.translate edit).HeldTails (edit.apply text)) := by
  rw [translate]
  split_ifs with hnothing
  · have hsame : edit.apply text = text := by
      rw [TextEdit.apply, length_eq_zero_iff.1 hnothing.2,
        show edit.stop = edit.start by have := hfits.1; omega, splice_same]
    rw [hsame]; exact ⟨h, fun htails _ => htails⟩
  · refine ⟨normalize_sound fun g hg => ?_, fun htails hnot g hg => ?_⟩
    · obtain ⟨f, hf, hg⟩ := mem_filterMap.1 hg
      exact (translateFold_aligned hfits (h.aligned f hf) hg).1
    · obtain ⟨f, hf, hg⟩ := mem_filterMap.1 (mem_normalize hg)
      refine (translateFold_aligned hfits (h.aligned f hf) hg).2 (htails f hf)
        fun hstart hstop => ?_
      by_contra hpushed; rw [not_or] at hpushed
      exact hnot ⟨f, hf, hstart, hstop, hpushed⟩

end

/-! ## Runs -/

/-- The text and the folds of a buffer after inserts of folds and edits. `held`: no edit put
    text in right behind a fold. -/
inductive Reaches : Prop → Text → FoldStore → Prop
  | start (text : Text) : Reaches True text .new
  | insert {held : Prop} {text : Text} {s : FoldStore} {f : Lib.Range} :
    Reaches held text s → Normalised text f → Reaches held text (s.insert f).2
  | translate {held : Prop} {text : Text} {s : FoldStore} {edit : TextEdit} :
    Reaches held text s → edit.Fits text →
      Reaches (held ∧ ¬ s.PushesTail edit) (edit.apply text) (s.translate edit)

/-- **Folds keep to the lines.** In every run the folds are sorted, none twice, not empty, inside
    the text and start at a newline; and they end where a line does, unless an edit put text
    that does not begin with a newline in right behind one. -/
theorem reaches_aligned {held : Prop} (h : Reaches held text s) :
    s.Sound text ∧ (held → s.HeldTails text) := by
  induction h with
  | start text => exact ⟨⟨.nil, nofun⟩, fun _ => nofun⟩
  | insert _ hf ih =>
    obtain ⟨hsound, htails⟩ := insert_sound ih.1 hf
    exact ⟨hsound, fun hheld => htails (ih.2 hheld)⟩
  | translate _ hfits ih =>
    obtain ⟨hsound, htails⟩ := translate_sound hfits ih.1
    exact ⟨hsound, fun hheld => htails (ih.2 hheld.1) hheld.2⟩

/-- "a\nb" with its second line hidden. -/
theorem reaches_hidden : Reaches True [97, 10, 98] (new.insert ⟨1, 3⟩).2 :=
  .insert (.start _) ⟨.inl rfl, .inr rfl, by decide⟩

/-- The fold is moved by text put in before it. -/
theorem reaches_aligned_moved : (((new.insert ⟨1, 3⟩).2.translate ⟨0, 0, [99]⟩).Sound
      (TextEdit.apply ⟨0, 0, [99]⟩ [97, 10, 98])) ∧
    (True ∧ ¬ (new.insert ⟨1, 3⟩).2.PushesTail ⟨0, 0, [99]⟩ →
      ((new.insert ⟨1, 3⟩).2.translate ⟨0, 0, [99]⟩).HeldTails
        (TextEdit.apply ⟨0, 0, [99]⟩ [97, 10, 98])) :=
  reaches_aligned (.translate reaches_hidden ⟨Nat.le_refl 0, Nat.zero_le 3⟩)

/-- Text put in right behind a fold is left outside: the fold ends inside a line then. -/
theorem translate_not_heldTails : ∃ held text s, Reaches held text s ∧ ¬ s.HeldTails text := by
  have hrun : Reaches _ _ ((new.insert ⟨1, 3⟩).2.translate ⟨3, 3, [99]⟩) :=
    reaches_hidden.translate ⟨by decide, by decide⟩
  have hfolds : ((new.insert ⟨1, 3⟩).2.translate ⟨3, 3, [99]⟩).folds = [⟨1, 3⟩] := by
    simp [new, insert, normalize, translate, translateFold]
  refine ⟨_, _, _, hrun, fun h => ?_⟩
  rcases h ⟨1, 3⟩ (by rw [hfolds]; exact mem_cons_self) with hat | hend
  · cases hat
  · cases hend

end FoldStore

end Pmacs
