/-
  The line cache of a window (text_view.rs).

  * `TextView` keeps where the lines of its buffer start; `onEdit` scans again from the line
    the edit starts in.
  * `onEdit_new`: the view of a text, told of an edit of it, is the view of the text after it.
-/
import Pmacs.Lib.Lines

namespace Pmacs

open Lib List Option

abbrev Text := List UInt8

def isNewline (b : UInt8) : Bool := b = 10

variable (v : TextView) (text : Text)

def Text.lines : ℕ := text.countP isNewline + 1

/-- An edit that landed: the bytes of `[start, stop)` became `inserted`. -/
structure TextEdit where
  start : ℕ
  stop : ℕ
  inserted : Text

variable {edit : TextEdit}

namespace TextEdit

def Fits (edit : TextEdit) (text : Text) : Prop := edit.start ≤ edit.stop ∧ edit.stop ≤ text.length

instance (edit : TextEdit) (text : Text) : Decidable (edit.Fits text) := by
  unfold Fits
  infer_instance

def apply (edit : TextEdit) (text : Text) : Text := splice text edit.start edit.stop edit.inserted

theorem length_apply {text : Text} (h : edit.Fits text) :
    (edit.apply text).length = text.length - (edit.stop - edit.start) + edit.inserted.length :=
  length_splice edit.inserted h.1 h.2

theorem take_apply {text : Text} (h : edit.Fits text) :
    (edit.apply text).take edit.start = text.take edit.start := by
  have hstart : edit.start ≤ text.length := le_trans h.1 h.2
  rw [apply, splice, append_assoc, take_append_of_le_length (by
    rw [length_take]; omega), take_take, min_self]

end TextEdit

structure TextView where
  lineOffsets : List ℕ
deriving DecidableEq, Repr

namespace TextView

def lineCount : ℕ := v.lineOffsets.length

def lineOffset (line : ℕ) : Option ℕ := v.lineOffsets[line]?

/-- The line of an offset: `binary_search` in the offsets, which ascend. -/
def lineAtOffset (offset : ℕ) : ℕ :=
  (v.lineOffsets.takeWhile (fun b => b ≤ offset)).length - 1

def rebuildLinesFrom (startLine : ℕ) : TextView :=
  let startOffset := v.lineOffsets[startLine]?.getD 0
  let kept := v.lineOffsets.take (startLine + 1)
  if text.length ≤ startOffset then ⟨kept⟩
  else ⟨kept ++ breaks isNewline startOffset (text.drop startOffset)⟩

def new : TextView := rebuildLinesFrom ⟨[0]⟩ text 0

def onEdit (edit : TextEdit) : TextView :=
  v.rebuildLinesFrom text (v.lineAtOffset edit.start)

theorem rebuildLinesFrom_eq (startLine : ℕ) :
    v.rebuildLinesFrom text startLine = ⟨v.lineOffsets.take (startLine + 1) ++
      breaks isNewline (v.lineOffsets[startLine]?.getD 0)
        (text.drop (v.lineOffsets[startLine]?.getD 0))⟩ := by
  unfold rebuildLinesFrom
  dsimp only
  split
  case isTrue hle => rw [drop_eq_nil_of_le hle, breaks, append_nil]
  case isFalse => rfl

theorem new_eq : new text = ⟨lineStarts isNewline text⟩ := by
  rw [new, rebuildLinesFrom_eq]
  rfl

@[simp]
theorem lineCount_new : (new text).lineCount = text.lines := by
  rw [new_eq, lineCount, length_lineStarts, Text.lines]

theorem lines_pos : 0 < text.lines := Nat.succ_pos _

theorem le_of_lineOffset {text : Text} {line offset : ℕ}
    (h : (new text).lineOffset line = some offset) : offset ≤ text.length := by
  rw [new_eq] at h
  rcases mem_cons.1 (mem_of_getElem? h) with rfl | hmem
  · exact Nat.zero_le _
  · simpa using le_of_mem_breaks hmem

/-- **A view that hears of every edit is the view of its text.** -/
theorem onEdit_new {text : Text} (h : edit.Fits text) :
    (new text).onEdit (edit.apply text) edit = new (edit.apply text) := by
  have hstart : edit.start ≤ text.length := le_trans h.1 h.2
  rw [onEdit, rebuildLinesFrom_eq, new_eq, new_eq, lineAtOffset]
  -- `kept` are the starts up to the edit, `o` the last of them
  obtain ⟨o, ho⟩ : ∃ o, ((lineStarts isNewline text).takeWhile
      (fun b => b ≤ edit.start)).getLast? = some o := by exact ⟨_, rfl⟩
  have hrescan := lineStarts_rescan hstart (TextEdit.take_apply h) ho
  obtain ⟨rest, hrest⟩ := takeWhile_prefix (l := lineStarts isNewline text)
    (fun b => decide (b ≤ edit.start))
  generalize (lineStarts isNewline text).takeWhile (fun b => b ≤ edit.start) = kept
    at ho hrescan hrest
  have hpos : 0 < kept.length := by
    rcases kept with _ | ⟨b, bs⟩
    · cases ho
    · exact Nat.succ_pos _
  have htake : (lineStarts isNewline text).take (kept.length - 1 + 1) = kept := by
    rw [Nat.sub_add_cancel hpos, ← hrest, take_left]
  have hget : (lineStarts isNewline text)[kept.length - 1]? = some o := by
    rw [← hrest, getElem?_append_left (by omega), ← getLast?_eq_getElem?, ho]
  rw [htake, hget, getD_some, hrescan]

end TextView

end Pmacs
