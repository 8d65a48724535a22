/-
  The lines that a view reads from its table (text_view.rs).

  * `lineLen`, `readLineBytes`: a line's length and its bytes, from the table and the buffer;
  * `rebuildLinesFromRope`: the scan goes chunk by chunk over the rope; `scanChunks_eq`: it finds
    the breaks of the bytes that they make;
  * `Hears`: a view is told of one edit after another;
  * `hears_lines`: its table is that of the text, and what it reads are the text's lines.
-/
import Pmacs.Window.TextView
import Pmacs.Rope.Read

namespace Pmacs

open Lib Function List Option

namespace TextView

/-! ## Reading a line -/

def lineLen (v : TextView) (text : Text) (line : ℕ) : Option ℕ := do
  let start ← v.lineOffsets[line]?
  let rawEnd := v.lineOffsets[line + 1]?.getD text.length
  if line + 1 < v.lineCount ∧ start < rawEnd then return rawEnd - start - 1
  else return rawEnd - start

/-- The bytes of a line; a line that is not there has none. -/
def readLineBytes (v : TextView) (text : Text) (line : ℕ) : Text :=
  match v.lineOffsets[line]? with
  | none => []
  | some lineStart =>
    match v.lineLen text line with
    | none => []
    | some lineLen => slice text lineStart (lineStart + lineLen)

/-- The loop of `rebuild_lines_from` over the rope's chunks, the first of which is at `pos`. -/
def scanChunks : (pos : ℕ) → List Text → List ℕ
  | _, [] => []
  | pos, chunk :: chunks =>
    (chunk.zipIdx.filterMap fun b => if isNewline b.1 then some (pos + b.2 + 1) else none) ++
      scanChunks (pos + chunk.length) chunks

/-- `rebuild_lines_from` as it reads the rope; none where it panics. -/
def rebuildLinesFromRope (v : TextView) (r : Rope) (startLine : ℕ) : Option TextView := do
  let startOffset ← v.lineOffsets[startLine]?
  let kept := v.lineOffsets.take (startLine + 1)
  if r.len ≤ startOffset then return ⟨kept⟩
  let chunks ← r.chunks startOffset r.len
  return ⟨kept ++ scanChunks startOffset chunks⟩

/-- `new` and `on_edit` over the rope. -/
def newRope (r : Rope) : Option TextView := rebuildLinesFromRope ⟨[0]⟩ r 0

def onEditRope (v : TextView) (r : Rope) (edit : TextEdit) : Option TextView :=
  v.rebuildLinesFromRope r (v.lineAtOffset edit.start)

theorem filterMap_zipIdx (pos : ℕ) (chunk : Text) :
    (chunk.zipIdx.filterMap fun b => if isNewline b.1 then some (pos + b.2 + 1) else none) =
      breaks isNewline pos chunk := by
  induction chunk generalizing pos with
  | nil => rfl
  | cons b chunk ih =>
    rw [breaks, ← ih (pos + 1), zipIdx_cons', filterMap_cons, filterMap_map]
    have hshift : ((fun b : UInt8 × ℕ => if isNewline b.1 = true then some (pos + b.2 + 1)
        else none) ∘ Prod.map id (· + 1)) =
          fun b => if isNewline b.1 = true then some (pos + 1 + b.2 + 1) else none := by
      funext b
      simp [show pos + (b.2 + 1) + 1 = pos + 1 + b.2 + 1 by omega]
    rw [hshift]; cases isNewline b <;> simp

theorem scanChunks_eq {pos : ℕ} (chunks : List Text) :
    scanChunks pos chunks = breaks isNewline pos chunks.flatten := by
  induction chunks generalizing pos with
  | nil => rfl
  | cons chunk chunks ih => rw [scanChunks, filterMap_zipIdx, ih, flatten_cons, breaks_append]

variable {text : Text}

theorem rebuildLinesFromRope_eq {r : Rope} (h : r.Reach text) {v : TextView} {startLine : ℕ}
    (hline : startLine < v.lineCount) :
    v.rebuildLinesFromRope r startLine = some (v.rebuildLinesFrom text startLine) := by
  obtain ⟨⟨d, hd⟩, rfl⟩ := h.wf_bytes
  have hlen : r.len = r.bytes.length := hd.len_eq
  have hget : v.lineOffsets[startLine]? = some v.lineOffsets[startLine] := getElem?_eq_getElem hline
  rw [rebuildLinesFromRope, rebuildLinesFrom, hget, hlen]
  generalize v.lineOffsets[startLine] = startOffset
  simp only [bind_eq_bind, bind_some, getD_some]
  split
  · rfl
  rename_i hlt
  obtain ⟨parts, hparts, hflat, -⟩ := collectLeaves_spec hd startOffset r.bytes.length 0 []
  have hrest : parts.flatten = r.bytes.drop startOffset := by
    rw [hflat, Lib.slice]; exact congrArg (List.drop startOffset) take_length
  rw [Rope.chunks, if_pos (not_le.1 hlt), hparts, nil_append, bind_some, scanChunks_eq, hrest]
  rfl

/-! ## The table of a text -/

section
variable {line : ℕ}

/-- The table of a text: zero and one past each newline, in order. -/
theorem lineOffsets_new : (new text).lineOffsets.Pairwise (· < ·) ∧
    ∀ o, o ∈ (new text).lineOffsets ↔ o = 0 ∨ ∃ i, text[i]? = some 10 ∧ o = i + 1 := by
  rw [new_eq]
  refine ⟨pairwise_lineStarts text, fun o => ?_⟩
  rw [lineStarts, mem_cons, mem_breaks]
  refine or_congr_right ⟨?_, ?_⟩
  · rintro ⟨i, b, hb, hbreak, rfl⟩; obtain rfl : b = 10 := of_decide_eq_true hbreak
    exact ⟨i, hb, by omega⟩
  · rintro ⟨i, hi, rfl⟩; exact ⟨i, 10, hi, rfl, by omega⟩

theorem lineAtOffset_new (offset : ℕ) :
    (new text).lineAtOffset offset = (text.take offset).count 10 := by
  rw [new_eq, lineAtOffset, takeWhile_lineStarts, length_lineStarts, Nat.add_sub_cancel]
  rfl

/-- **What is read from the table** are the pieces of the text between its newlines. -/
theorem lines_new (line : ℕ) :
    (new text).lineLen text line = (text.splitOnP isNewline)[line]?.map (·.length) ∧
      (new text).readLineBytes text line = ((text.splitOnP isNewline)[line]?).getD [] := by
  rw [getElem?_splitOnP, readLineBytes, new_eq]
  cases hstart : (lineStarts isNewline text)[line]? with
  | none => refine ⟨?_, rfl⟩; rw [lineLen, hstart]; rfl
  | some start =>
    have hnext := next_lineStart hstart
    have hlen : lineLen ⟨lineStarts isNewline text⟩ text line =
        some ((text.drop start).takeWhile fun b => !isNewline b).length := by
      rw [lineLen, hstart, bind_eq_bind, bind_some, lineCount]
      cases hrest : (lineStarts isNewline text)[line + 1]? with
      | none =>
        rw [hrest] at hnext; have hover := getElem?_eq_none_iff.1 hrest
        have hlast : text.length =
            start + ((text.drop start).takeWhile fun b => !isNewline b).length := hnext
        rw [if_neg fun h => absurd h.1 (not_lt.2 hover), getD_none, hlast, Nat.add_sub_cancel_left]
        rfl
      | some next =>
        rw [hrest] at hnext; have hlt := (List.getElem?_eq_some_iff.1 hrest).1
        have hbreak : next =
            start + ((text.drop start).takeWhile fun b => !isNewline b).length + 1 := hnext
        rw [getD_some, if_pos ⟨hlt, by omega⟩, hbreak]; exact congrArg some (by omega)
    refine ⟨hlen, ?_⟩; rw [hlen, map_some, getD_some]; show slice text start _ = _
    rw [slice, drop_take, Nat.add_sub_cancel_left]
    exact (prefix_iff_eq_take.1 ( takeWhile_prefix _)).symm

end

/-! ## A view that hears of edits -/

/-- A view is told of edits of its text, each with the text after it; `Hears v text edits v'
    text'` says where that leads. -/
inductive Hears : TextView → Text → List TextEdit → TextView → Text → Prop
  | nil (v : TextView) (text : Text) : Hears v text [] v text
  | cons {v v' : TextView} {text text' : Text} {edit : TextEdit} {edits : List TextEdit}
    (hfits : edit.Fits text)
    (h : Hears (v.onEdit (edit.apply text) edit) (edit.apply text) edits v' text') :
    Hears v text (edit :: edits) v' text'

theorem Hears.new_eq {v' : TextView} {text' : Text} {edits : List TextEdit}
    (h : Hears (new text) text edits v' text') : v' = new text' := by
  generalize hv : new text = v at h
  induction h with
  | nil v text => exact hv.symm
  | cons hfits h ih => subst hv; exact ih (onEdit_new hfits).symm

/-- **A view that hears of every edit** has the table of its text: zero and one past each
    newline.  The line it finds for an offset has as many newlines before it, and the lines it
    reads are the text's. -/
theorem hears_lines {v' : TextView} {text text' : Text} {edits : List TextEdit}
    (h : Hears (new text) text edits v' text') : v' = new text' ∧ (v'.lineOffsets.Pairwise (· < ·) ∧
      ∀ o, o ∈ v'.lineOffsets ↔ o = 0 ∨ ∃ i, text'[i]? = some 10 ∧ o = i + 1) ∧
    (∀ offset, v'.lineAtOffset offset = (text'.take offset).count 10) ∧
    v'.lineCount = (text'.splitOn 10).length ∧
    ∀ line, v'.lineLen text' line = (text'.splitOn 10)[line]?.map (·.length) ∧
      v'.readLineBytes text' line = ((text'.splitOn 10)[line]?).getD [] := by
  obtain rfl := h.new_eq
  have hsplit : text'.splitOn 10 = text'.splitOnP isNewline := splitOn_eq_splitOnP
  refine ⟨rfl, lineOffsets_new, lineAtOffset_new, ?_, lines_new⟩
  have hget (line : ℕ) : (new text').lineOffsets[line]? = none ↔
      (text'.splitOnP isNewline)[line]? = none := by
    rw [getElem?_splitOnP, TextView.new_eq, map_eq_none_iff]
  simp only [getElem?_eq_none_iff] at hget
  exact le_antisymm ((hget _).2 le_rfl) ((hget _).1 le_rfl)

theorem hears_lines_newline : ((new [97, 98]).onEdit [97, 10, 98] ⟨1, 1, [10]⟩).lineCount =
    ([97, 10, 98].splitOn 10).length :=
  have hfits : TextEdit.Fits ⟨1, 1, [10]⟩ [97, 98] := by decide
  (hears_lines (.cons hfits (.nil _ _))).2.2.2.1

/-- **The scans of a rope keep the table of its text.**  On every rope that edits reach, neither
    the view that is made of it panics, nor one that heard of every edit, the last of which led to
    it; both have the table of the flat text. -/
theorem view_of_rope {r : Rope} (h : r.Reach text) : newRope r = some (new text) ∧
    ∀ {v : TextView} {first before : Text} {edits : List TextEdit},
      Hears (new first) first edits v before → ∀ edit : TextEdit, edit.Fits before →
      edit.apply before = text → v.onEditRope r edit = some (new text) := by
  refine ⟨rebuildLinesFromRope_eq h Nat.one_pos, fun {v first before edits} hhears edit hfits
    happly => ?_⟩
  obtain rfl := hhears.new_eq
  have hline : (new before).lineAtOffset edit.start < (new before).lineCount := by
    have hle := (takeWhile_sublist (l := (new before).lineOffsets) (· ≤ edit.start)).length_le
    have hpos : 0 < (new before).lineCount := by rw [lineCount_new]; exact lines_pos _
    exact lt_of_le_of_lt (Nat.sub_le_sub_right hle 1) (Nat.sub_lt hpos Nat.one_pos)
  rw [onEditRope, rebuildLinesFromRope_eq h hline, ← happly]
  exact congrArg some (onEdit_new hfits)

theorem view_of_rope_newline : (new [97, 98]).onEditRope ⟨.leaf [97, 10, 98]⟩ ⟨1, 1, [10]⟩ =
    some (new [97, 10, 98]) :=
  (view_of_rope (.fromBytes rfl)).2 (.nil _ [97, 98]) ⟨1, 1, [10]⟩ (by decide) (by decide)

end TextView

end Pmacs
