/-
  The text edits of a language server, applied to a buffer (`apply_text_edits`, lsp.lua).

  * `byteOffsetFor`: the byte of a line and a column; `spot`: the byte that the protocol means,
    where a column past the end of its line is that end.
  * `applyTextEdits_simultaneously`: where no two start at one byte, none inserts inside a range
    that another replaces and no column is past the end of its line, they leave what they leave all
    at once.
-/
import Pmacs.Lib.Lines
import Pmacs.Lib.Patches
import Pmacs.Window.TextView

namespace Pmacs.Formatting

open Lib List

/-! ## Bytes -/

def restOfLine (text : Text) (pos : ℕ) : Text := (text.drop pos).takeWhile fun b => !isNewline b

/-- The byte behind the first newline from `pos` on. -/
def behindNewline (text : Text) (pos : ℕ) : Option ℕ :=
  let nl := pos + (restOfLine text pos).length
  if nl < text.length then some (nl + 1) else none

/-- Where the line `n` lines below the one at `pos` starts. -/
def lineBelow (text : Text) : ℕ → ℕ → Option ℕ
  | 0, pos => some pos
  | n + 1, pos => (behindNewline text pos).bind (lineBelow text n)

def byteOffsetFor (text : Text) (line col : ℕ) : ℕ :=
  match lineBelow text line 0 with
  | some pos => pos + col
  | none => text.length

/-- The byte that a position means. -/
def spot (text : Text) (line col : ℕ) : ℕ :=
  match (lineStarts isNewline text)[line]? with
  | some start => start + min col (restOfLine text start).length
  | none => text.length

variable {text : Text} {line n col start pos : ℕ}

theorem lineBelow_eq (h : (lineStarts isNewline text)[line]? = some pos)
    (hn : (lineStarts isNewline text)[line + n]? = some start) :
    lineBelow text n pos = some start := by
  induction n generalizing line pos with
  | zero => exact h.symm.trans hn
  | succ n ih =>
    have hnext := next_lineStart h
    obtain ⟨next, hline⟩ : ∃ next, (lineStarts isNewline text)[line + 1]? = some next := by
      have hlt := (List.getElem?_eq_some_iff.1 hn).1
      exact ⟨_, List.getElem?_eq_getElem (by omega)⟩
    rw [hline, Option.elim_some] at hnext
    have hle : next ≤ text.length := by
      rcases mem_cons.1 (mem_of_getElem? hline) with rfl | hmem
      · exact Nat.zero_le _
      · simpa using le_of_mem_breaks hmem
    rw [lineBelow, behindNewline, restOfLine, if_pos (by omega), Option.bind_some, ← hnext]
    exact ih hline (by rwa [Nat.add_right_comm, Nat.add_assoc])

def lineLength (text : Text) (line : ℕ) : ℕ :=
  ((lineStarts isNewline text)[line]?.map fun start => (restOfLine text start).length).getD 0

/-- Up to the end of its line a column is where the protocol has it. -/
theorem byteOffsetFor_eq (h : line < (lineStarts isNewline text).length)
    (hcol : col ≤ lineLength text line) : byteOffsetFor text line col = spot text line col := by
  have hline := List.getElem?_eq_getElem h
  have hbelow : lineBelow text line 0 = some (lineStarts isNewline text)[line] :=
    lineBelow_eq rfl (by rwa [Nat.zero_add])
  rw [lineLength, hline, Option.map_some, Option.getD_some] at hcol
  rw [byteOffsetFor, hbelow, spot, hline]; dsimp only; rw [Nat.min_eq_left hcol]

/-! ## Edits -/

/-- Lines and columns count from zero. -/
structure TextEdit where
  startLine : ℕ
  startCol : ℕ
  endLine : ℕ
  endCol : ℕ
  newText : Text
deriving DecidableEq

/-- An edit with its bytes in the text as it was. -/
structure Resolved where
  start : ℕ
  stop : ℕ
  text : Text
deriving DecidableEq

def resolve (text : Text) (e : TextEdit) : Resolved :=
  ⟨byteOffsetFor text e.startLine e.startCol, byteOffsetFor text e.endLine e.endCol, e.newText⟩

def change (start stop : ℕ) (ins text : Text) : Option Text :=
  if start ≤ stop ∧ stop ≤ text.length then some (Lib.splice text start stop ins) else none

/-- An edit inserts, deletes or replaces. -/
def applyResolved (text : Text) (e : Resolved) : Option Text :=
  if e.start = e.stop then change e.start e.start e.text text
  else if e.text = [] then change e.start e.stop [] text
  else change e.start e.stop e.text text

/-- A sort by start, the last first; those that start at one byte come in any order. -/
def Sorts (sort : List Resolved → List Resolved) : Prop :=
  ∀ l, sort l ~ l ∧ (sort l).Pairwise fun a b => b.start ≤ a.start

/-- `apply_text_edits`, by way of `table.sort`: how many edits there were, and the text. -/
def applyTextEdits (sort : List Resolved → List Resolved) (edits : List TextEdit) (text : Text) :
    Option (ℕ × Text) :=
  ((sort (edits.map (resolve text))).foldlM applyResolved text).map fun text =>
    (edits.length, text)

/-! ## All at once -/

def patch (text : Text) (e : TextEdit) : Patch UInt8 :=
  ⟨spot text e.startLine e.startCol,
    spot text e.endLine e.endCol - spot text e.startLine e.startCol, e.newText⟩

/-- Edits in lines of the text, each of a range, those that are not empty disjoint. -/
structure WellPut (text : Text) (edits : List TextEdit) : Prop where
  lines : ∀ e ∈ edits, e.startLine < (lineStarts isNewline text).length ∧
    e.endLine < (lineStarts isNewline text).length
  ranges : ∀ e ∈ edits, spot text e.startLine e.startCol ≤ spot text e.endLine e.endCol
  disjoint : (edits.map (patch text)).Pairwise fun p q => p.count ≠ 0 → q.count ≠ 0 → p.Apart q

/-- No column is past the end of its line, no two edits start at one byte, and nothing is inserted
    strictly inside a range that is replaced. -/
structure Untied (text : Text) (edits : List TextEdit) : Prop where
  columns : ∀ e ∈ edits,
    e.startCol ≤ lineLength text e.startLine ∧ e.endCol ≤ lineLength text e.endLine
  starts : (edits.map (patch text)).Pairwise fun p q => p.start ≠ q.start
  inserts : ∀ p ∈ edits.map (patch text), p.count = 0 →
    ∀ q ∈ edits.map (patch text), ¬(q.start < p.start ∧ p.start < q.stop)

theorem Untied.apart {edits : List TextEdit} (h : Untied text edits) (hput : WellPut text edits) :
    (edits.map (patch text)).Pairwise Patch.Apart := by
  refine hput.disjoint.imp_of_mem fun {p q} hp hq hpq => ?_
  by_cases hpcount : p.count = 0
  · have hpoint := h.inserts p hp hpcount q hq
    simp only [Patch.Apart, Patch.stop] at hpoint ⊢; omega
  by_cases hqcount : q.count = 0
  · have hpoint := h.inserts q hq hqcount p hp
    simp only [Patch.Apart, Patch.stop] at hpoint ⊢; omega
  · exact hpq hpcount hqcount

theorem spot_le : spot text line col ≤ text.length := by
  unfold spot
  split
  · rename_i start hline; have hnext := next_lineStart hline
    have hle := (takeWhile_sublist (fun b => !isNewline b) (l := text.drop start)).length_le
    have hstart : start ≤ text.length := by
      rcases mem_cons.1 (mem_of_getElem? hline) with rfl | hmem
      · exact Nat.zero_le _
      · simpa using le_of_mem_breaks hmem
    rw [length_drop] at hle; simp only [restOfLine]; omega
  · exact le_rfl

def Resolved.toPatch (r : Resolved) : Patch UInt8 := ⟨r.start, r.stop - r.start, r.text⟩

theorem applyResolved_eq {r : Resolved} (h : r.start ≤ r.stop) (hstop : r.stop ≤ text.length) :
    applyResolved text r = some (r.toPatch.splice text) := by
  have hsplice : Patch.splice text r.toPatch = Lib.splice text r.start r.stop r.text := by
    rw [Patch.splice, Patch.stop, Resolved.toPatch]; dsimp only
    rw [Nat.min_eq_left (by omega), Nat.min_eq_left (by omega), Nat.add_sub_cancel' h]
  rw [hsplice, applyResolved]
  by_cases heq : r.start = r.stop
  · rw [if_pos heq, change, if_pos ⟨le_rfl, by omega⟩, ← heq]
  rw [if_neg heq]
  by_cases hempty : r.text = []
  · rw [if_pos hempty, change, if_pos ⟨h, hstop⟩, hempty]
  · rw [if_neg hempty, change, if_pos ⟨h, hstop⟩]

/-- Edits that end where the ones before them start, or earlier. -/
theorem foldlM_applyResolved {rs : List Resolved}
    (hback : rs.Pairwise fun a b => b.stop ≤ a.start)
    (h : ∀ r ∈ rs, r.start ≤ r.stop ∧ r.stop ≤ text.length) :
    rs.foldlM applyResolved text = some ((rs.map Resolved.toPatch).foldl Patch.splice text) := by
  induction rs generalizing text with
  | nil => rfl
  | cons r rs ih =>
    obtain ⟨hfirst, hback⟩ := pairwise_cons.1 hback
    obtain ⟨hle, hstop⟩ := h r mem_cons_self
    rw [foldlM_cons, applyResolved_eq hle hstop, Option.bind_eq_bind, Option.bind_some, map_cons,
      foldl_cons]
    refine ih hback fun r' hr' => ⟨(h r' (mem_cons_of_mem _ hr')).1, ?_⟩
    -- what starts the edit is still there
    refine (hfirst r' hr').trans ?_
    simp only [Patch.splice, Patch.stop, Resolved.toPatch, Lib.splice, length_append, length_take]
    omega

/-- **Edits without ties, long columns and insertions inside a replaced range** leave the text that
    they leave all at once, whatever the sort. -/
theorem applyTextEdits_simultaneously {sort : List Resolved → List Resolved} (hsort : Sorts sort)
    {edits : List TextEdit} (hput : WellPut text edits) (huntied : Untied text edits) :
    applyTextEdits sort edits text =
      some (edits.length, Patch.simultaneously (edits.map (patch text)) text) := by
  have hspots (e : TextEdit) (he : e ∈ edits) :
      resolve text e = ⟨(patch text e).start, (patch text e).stop, e.newText⟩ := by
    obtain ⟨hstart, hend⟩ := hput.lines e he; have hle := hput.ranges e he
    rw [resolve, byteOffsetFor_eq hstart (huntied.columns e he).1,
      byteOffsetFor_eq hend (huntied.columns e he).2, Patch.stop, patch, Nat.add_sub_cancel' hle]
  obtain ⟨hperm, hsorted⟩ := hsort (edits.map (resolve text))
  have hpatches : (edits.map (resolve text)).map Resolved.toPatch = edits.map (patch text) := by
    rw [map_map]; refine map_congr_left fun e he => ?_
    rw [Function.comp_apply, hspots e he, Resolved.toPatch, Patch.stop]; dsimp only
    rw [Nat.add_sub_cancel_left]; rfl
  have hperm' := hperm.map Resolved.toPatch
  rw [hpatches] at hperm'
  have hranges (r : Resolved) (hr : r ∈ sort (edits.map (resolve text))) :
      r.start ≤ r.stop ∧ r.stop ≤ text.length := by
    obtain ⟨e, he, rfl⟩ := mem_map.1 (hperm.mem_iff.1 hr); rw [hspots e he]
    refine ⟨Nat.le_add_right _ _, ?_⟩
    dsimp only; rw [Patch.stop, patch, Nat.add_sub_cancel' (hput.ranges e he)]; exact spot_le
  have hback : (sort (edits.map (resolve text))).Pairwise fun a b => b.stop ≤ a.start := by
    have hapart := (hperm'.pairwise_iff fun h => h.symm).2 (huntied.apart hput)
    have hstarts := (hperm'.pairwise_iff fun h => h.symm).2 huntied.starts
    refine ((hsorted.and (pairwise_map.1 hapart)).and (pairwise_map.1 hstarts)).imp_of_mem ?_
    rintro a b ha hb ⟨⟨hle, hab⟩, hne⟩; have hra := hranges a ha; have hrb := hranges b hb
    simp only [Patch.Apart, Patch.stop, Resolved.toPatch] at hab hne; omega
  have heq : (sort (edits.map (resolve text))).map Resolved.toPatch =
      (edits.map (patch text)).insertionSort fun p q => q.start ≤ p.start := by
    refine (hperm'.trans (perm_insertionSort _ _).symm).eq_of_pairwise
      (fun p q hp hq hpq hqp => ?_) (pairwise_map.2 hsorted) (pairwise_insertionSort _ _)
    exact inj_on_of_nodup_map (f := Patch.start) (pairwise_map.2 huntied.starts)
      (hperm'.mem_iff.1 hp) ((perm_insertionSort _ _).mem_iff.1 hq) (Nat.le_antisymm hqp hpq)
  rw [applyTextEdits, foldlM_applyResolved hback hranges, Option.map_some, heq,
    (Patch.foldl_splice_eq_simultaneously_iff (huntied.apart hput) ?_).2
      (Patch.inOrder_of_distinct huntied.starts)]
  intro p hp; obtain ⟨e, he, rfl⟩ := mem_map.1 hp
  rw [Patch.stop, patch, Nat.add_sub_cancel' (hput.ranges e he)]; exact spot_le

theorem sorts_insertionSort :
    Sorts (insertionSort fun a b : Resolved => b.start ≤ a.start) := fun l =>
  ⟨perm_insertionSort _ l, pairwise_insertionSort _ l⟩

/-- The word `a` after the `b`s is replaced, and a line is put before both. -/
theorem applyTextEdits_simultaneously_two :
    applyTextEdits (insertionSort fun a b : Resolved => b.start ≤ a.start)
        [⟨0, 0, 0, 0, [99, 10]⟩, ⟨0, 1, 0, 2, [100]⟩] [98, 97] = some (2, [99, 10, 98, 100]) := by
  exact applyTextEdits_simultaneously sorts_insertionSort ⟨by decide, by decide, by decide⟩
    ⟨by decide, by decide, by decide⟩

/-- Two insertions at one byte change places. -/
theorem applyTextEdits_not_simultaneously : ¬∀ sort, Sorts sort → ∀ text edits,
    WellPut text edits → applyTextEdits sort edits text =
      some (edits.length, Patch.simultaneously (edits.map (patch text)) text) := fun h => by
  have htied := h _ sorts_insertionSort [] [⟨0, 0, 0, 0, [97]⟩, ⟨0, 0, 0, 0, [98]⟩]
    ⟨by decide, by decide, by decide⟩
  revert htied
  decide

end Pmacs.Formatting
