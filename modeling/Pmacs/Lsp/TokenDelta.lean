/-
  What the numbers of a semantic-token answer denote (semantic_tokens.rs).

  * `denoted`: the tokens of groups of five numbers, their lines and starts sums of the deltas
    before them; `Fits`: these sums are `u32`s;
  * `decode_eq_denoted_iff`: decoding, with its additions checked or wrapping, yields the tokens
    denoted exactly when they fit.
-/
import Pmacs.Lib.Integers
import Pmacs.Lib.Patches
import Pmacs.Lsp.Answers

namespace Pmacs

open Lib Option

namespace SemanticTokensResponse

/-! ## Groups of five numbers -/

structure TokenGroup where
  deltaLine : ℕ
  deltaStart : ℕ
  length : ℕ
  tokenType : ℕ
  tokenModifiers : ℕ
deriving DecidableEq, Repr

open TokenGroup

def groupsOf : List ℕ → List TokenGroup
  | dLine :: dStart :: length :: tokenType :: tokenModifiers :: ints =>
    ⟨dLine, dStart, length, tokenType, tokenModifiers⟩ :: groupsOf ints
  | _ => []

variable (before : List TokenGroup) (gs : List TokenGroup)

/-- The line of the last of some groups: the sum of their line deltas. -/
def lineOf : ℕ := (gs.map deltaLine).sum

/-- The start of the last of some groups: the sum of the start deltas on its line. -/
def startOf : ℕ :=
  (((gs.rdropWhile (·.deltaLine = 0)).getLast?.map deltaStart).getD 0) +
    ((gs.rtakeWhile (·.deltaLine = 0)).map deltaStart).sum

variable (g : TokenGroup)

def tokenAfter : SemanticToken :=
  ⟨lineOf (before ++ [g]), startOf (before ++ [g]), g.length, g.tokenType, g.tokenModifiers⟩

def denoted : List SemanticToken :=
  gs.mapIdx fun i g => tokenAfter (gs.take i) g

/-- The lines and starts denoted are `u32`s. -/
def Fits : Prop :=
  ∀ t ∈ denoted gs, t.line ≤ u32Max ∧ t.start ≤ u32Max

instance (gs : List TokenGroup) : Decidable (Fits gs) :=
  inferInstanceAs (Decidable (∀ t ∈ denoted gs, _))

/-! ## Decoding -/

def startChecked (start dLine dStart : ℕ) : Option ℕ :=
  if dLine = 0 then checkedAdd u32Max start dStart else some dStart

/-- `decodeFrom` in a build that checks its additions: none where one would overflow. -/
def decodeCheckedFrom : ℕ → ℕ → List ℕ → Option (List SemanticToken)
  | line, start, dLine :: dStart :: length :: tokenType :: tokenModifiers :: ints => do
    let line ← checkedAdd u32Max line dLine
    let start ← startChecked start dLine dStart
    let tokens ← decodeCheckedFrom line start ints
    some (⟨line, start, length, tokenType, tokenModifiers⟩ :: tokens)
  | _, _, _ => some []

/-- `decode` in a build that checks its additions. -/
def decodeChecked (ints : List ℕ) : Option (List SemanticToken) := decodeCheckedFrom 0 0 ints

theorem lineOf_concat : lineOf (gs ++ [g]) = lineOf gs + g.deltaLine := by
  rw [lineOf, List.map_append, List.sum_append, List.map_singleton, List.sum_singleton, lineOf]

theorem startOf_concat :
    startOf (gs ++ [g]) = if g.deltaLine = 0 then startOf gs + g.deltaStart else g.deltaStart := by
  rw [startOf]
  split_ifs with h
  · rw [List.rdropWhile_concat_pos _ _ _ (by simpa using h),
      List.rtakeWhile_concat_pos _ _ _ (by simpa using h), List.map_append, List.sum_append,
      List.map_singleton, List.sum_singleton, startOf, add_assoc]
  rw [List.rdropWhile_concat_neg _ _ _ (by simpa using h),
    List.rtakeWhile_concat_neg _ _ _ (by simpa using h), List.getLast?_concat, map_some,
    getD_some, List.map_nil, List.sum_nil, add_zero]

def denotedAfter : List SemanticToken :=
  gs.mapIdx fun i g => tokenAfter (before ++ gs.take i) g

theorem denotedAfter_cons (gs : List TokenGroup) :
    denotedAfter before (g :: gs) = tokenAfter before g :: denotedAfter (before ++ [g]) gs := by
  rw [denotedAfter, List.mapIdx_cons, List.take_zero, List.append_nil, denotedAfter]
  congr 1
  refine List.mapIdx_eq_mapIdx_iff.2 fun i hi => ?_
  rw [List.take_succ_cons, List.append_assoc, List.singleton_append]

/-- The line and the start of a token are `u32`s. -/
def TokenFits (t : SemanticToken) : Prop := t.line ≤ u32Max ∧ t.start ≤ u32Max

instance (t : SemanticToken) : Decidable (TokenFits t) := inferInstanceAs (Decidable (_ ∧ _))

theorem checkedAdd_eq_some_iff {max a b c : ℕ} :
    checkedAdd max a b = some c ↔ c = a + b ∧ c ≤ max := by
  rw [checkedAdd]
  split_ifs with h
  · rw [some.injEq]
    refine ⟨fun hc => ⟨hc.symm, hc ▸ h⟩, fun hc => hc.1.symm⟩
  · refine ⟨nofun, fun hc => absurd (hc.1 ▸ hc.2) h⟩

theorem startChecked_eq_some_iff {before : List TokenGroup} {g : TokenGroup}
    (hg : g.deltaStart ≤ u32Max) {start : ℕ} :
    startChecked (startOf before) g.deltaLine g.deltaStart = some start ↔
      start = startOf (before ++ [g]) ∧ start ≤ u32Max := by
  rw [startChecked, startOf_concat]
  split_ifs with h
  · exact checkedAdd_eq_some_iff
  · rw [some.injEq]; exact ⟨fun heq => ⟨heq.symm, heq ▸ hg⟩, fun heq => heq.1.symm⟩

/-- Decoding with checked additions yields what the groups denote, where it fits. -/
theorem decodeCheckedFrom_eq_some_iff {ints : List ℕ} : ∀ {before : List TokenGroup}
    {tokens : List SemanticToken}, (∀ n ∈ ints, n ≤ u32Max) →
      (decodeCheckedFrom (lineOf before) (startOf before) ints = some tokens ↔
        tokens = denotedAfter before (groupsOf ints) ∧ ∀ t ∈ tokens, TokenFits t) := by
  induction ints using groupsOf.induct with
  | case1 dLine dStart length tokenType tokenModifiers ints ih =>
    intro before tokens hints
    have hrest : ∀ n ∈ ints, n ≤ u32Max := fun n hn => hints n (by simp [hn])
    have hdStart : dStart ≤ u32Max := hints dStart (by simp)
    let g : TokenGroup := ⟨dLine, dStart, length, tokenType, tokenModifiers⟩
    rw [groupsOf, denotedAfter_cons, decodeCheckedFrom]
    simp only [bind_eq_bind, bind_eq_some_iff]
    constructor
    · rintro ⟨line, hline, start, hstart, rest, hdecode, htokens⟩
      obtain ⟨rfl, hline⟩ := checkedAdd_eq_some_iff.1 hline
      obtain ⟨rfl, hstart⟩ := (startChecked_eq_some_iff (g := g) hdStart).1 hstart
      have hline' : lineOf before + dLine = lineOf (before ++ [g]) := (lineOf_concat before g).symm
      rw [hline'] at hdecode hline htokens; obtain ⟨rfl, hfits⟩ := (ih hrest).1 hdecode
      refine ⟨(some.inj htokens).symm, ?_⟩; rw [← some.inj htokens]
      exact List.forall_mem_cons.2 ⟨⟨hline, hstart⟩, hfits⟩
    rintro ⟨rfl, hfits⟩; obtain ⟨hfit, hfits⟩ := List.forall_mem_cons.1 hfits
    refine ⟨lineOf (before ++ [g]), ?_, startOf (before ++ [g]), ?_, _,
      (ih hrest).2 ⟨rfl, hfits⟩, rfl⟩
    · exact checkedAdd_eq_some_iff.2 ⟨lineOf_concat before g, hfit.1⟩
    · exact (startChecked_eq_some_iff (g := g) hdStart).2 ⟨rfl, hfit.2⟩
  | case2 ints hne =>
    intro before tokens _
    rw [groupsOf, decodeCheckedFrom, denotedAfter, List.mapIdx_nil, some.injEq]
    · refine ⟨?_, fun h => h.1.symm⟩; rintro rfl; exact ⟨rfl, nofun⟩
    · exact hne
    · exact hne

/-- Decoding with wrapping additions yields what the groups denote exactly when it fits. -/
theorem decodeFrom_eq_iff {ints : List ℕ} : ∀ {before : List TokenGroup}, (∀ n ∈ ints, n ≤ u32Max) →
      (decodeFrom (lineOf before) (startOf before) ints = denotedAfter before (groupsOf ints) ↔
        ∀ t ∈ denotedAfter before (groupsOf ints), TokenFits t) := by
  induction ints using groupsOf.induct with
  | case1 dLine dStart length tokenType tokenModifiers ints ih =>
    intro before hints; have hrest : ∀ n ∈ ints, n ≤ u32Max := fun n hn => hints n (by simp [hn])
    have hdStart : dStart ≤ u32Max := hints dStart (by simp)
    let g : TokenGroup := ⟨dLine, dStart, length, tokenType, tokenModifiers⟩
    have hwrap : ∀ a b : ℕ, add32 a b = a + b ↔ a + b ≤ u32Max := by
      intro a b; rw [add32, u32Max]; omega
    have hline : add32 (lineOf before) dLine = lineOf (before ++ [g]) ↔
        lineOf (before ++ [g]) ≤ u32Max := by rw [lineOf_concat]; exact hwrap _ _
    have hstart : (if dLine = 0 then add32 (startOf before) dStart else dStart) =
        startOf (before ++ [g]) ↔ startOf (before ++ [g]) ≤ u32Max := by
      rw [startOf_concat]
      split_ifs
      · exact hwrap _ _
      · exact ⟨fun _ => hdStart, fun _ => rfl⟩
    rw [groupsOf, denotedAfter_cons, decodeFrom, List.cons.injEq, List.forall_mem_cons]
    constructor
    · rintro ⟨htoken, htokens⟩; rw [tokenAfter, SemanticToken.mk.injEq] at htoken
      obtain ⟨hl, hs, -⟩ := htoken; rw [hl, hs] at htokens
      exact ⟨⟨hline.1 hl, hstart.1 hs⟩, (ih hrest).1 htokens⟩
    rintro ⟨⟨hl, hs⟩, hfits⟩; have hl' := hline.2 hl; have hs' := hstart.2 hs
    refine ⟨?_, ?_⟩
    · rw [tokenAfter, SemanticToken.mk.injEq]; exact ⟨hl', hs', rfl, rfl, rfl⟩
    · rw [hl', hs']; exact (ih hrest).2 hfits
  | case2 ints hne =>
    intro before _
    rw [groupsOf, decodeFrom, denotedAfter, List.mapIdx_nil]
    · exact ⟨nofun, fun _ => rfl⟩
    · exact hne
    · exact hne

/-- **Decoding**: checked or wrapping, it yields the tokens denoted exactly when they fit. -/
theorem decode_eq_denoted_iff {data : List ℕ} (hdata : ∀ n ∈ data, n ≤ u32Max) :
    (decodeChecked data = some (denoted (groupsOf data)) ↔ Fits (groupsOf data)) ∧
      (decode data = denoted (groupsOf data) ↔ Fits (groupsOf data)) := by
  have hdenoted : denotedAfter [] (groupsOf data) = denoted (groupsOf data) := rfl
  have hchecked := @decodeCheckedFrom_eq_some_iff data [] (denoted (groupsOf data)) hdata
  have hwrapping := @decodeFrom_eq_iff data [] hdata
  exact ⟨hchecked.trans (and_iff_right rfl), hwrapping⟩

/-! ## Deltas -/

def TokenEdit.toPatch (e : TokenEdit) : Patch ℕ := ⟨e.start, e.deleteCount, e.data⟩

def listedEdits (v : Value) : List (Patch ℕ) :=
  ((((v.get "edits").bind Value.asArray).getD []).filterMap TokenEdit.ofValue).map TokenEdit.toPatch

theorem map_editsOf (v : Value) : (editsOf v).map TokenEdit.toPatch =
    (listedEdits v).insertionSort fun p q => q.start ≤ p.start := by
  rw [editsOf, listedEdits]
  cases (v.get "edits").bind Value.asArray with
  | none => rfl
  | some edits => exact List.map_insertionSort _ _ _ _ fun _ _ _ _ => Iff.rfl

theorem raw_applyDelta {v : Value} (h : isFull v = false) (prevRaw : List ℕ) :
    (applyDelta prevRaw v).raw =
      ((listedEdits v).insertionSort fun p q => q.start ≤ p.start).foldl Patch.splice prevRaw := by
  rw [applyDelta, h, if_neg Bool.false_ne_true, ← map_editsOf, List.foldl_map]
  rfl

/-- **A delta and its tokens**: edits apart from each other and inside the array, in any order, make
    of it what they denote all at once exactly when they are in order at each place; decoding
    yields what an array denotes exactly when that fits. -/
theorem applyDelta_and_decode_iff {v : Value} (hdelta : isFull v = false) {prevRaw : List ℕ}
    (hapart : (listedEdits v).Pairwise Patch.Apart)
    (hin : ∀ p ∈ listedEdits v, p.stop ≤ prevRaw.length) {data : List ℕ}
    (hdata : ∀ n ∈ data, n ≤ u32Max) :
    ((applyDelta prevRaw v).raw = Patch.simultaneously (listedEdits v) prevRaw ↔
        Patch.InOrder (listedEdits v) prevRaw) ∧
      (decodeChecked data = some (denoted (groupsOf data)) ∧
          decode data = denoted (groupsOf data) ↔ Fits (groupsOf data)) := by
  refine ⟨?_, ?_⟩
  · rw [raw_applyDelta hdelta]; exact Patch.foldl_splice_eq_simultaneously_iff hapart hin
  · obtain ⟨hchecked, hwrapping⟩ := decode_eq_denoted_iff hdata; rw [hchecked, hwrapping, and_self]

def editValue (start deleteCount : ℕ) (data : List ℕ) : Value :=
  .object [("start", .nat start), ("deleteCount", .nat deleteCount),
    ("data", .array (data.map Value.nat))]

def deltaValue (edits : List Value) : Value :=
  .object [("resultId", .string "2"), ("edits", .array edits)]

theorem applyDelta_and_decode_iff_two : (applyDelta [0, 0, 1, 0, 0, 1, 0, 1, 0, 0]
        (deltaValue [editValue 0 0 [7, 7, 7, 7, 7], editValue 5 5 [2, 2, 2, 0, 0]])).raw =
      Patch.simultaneously [⟨0, 0, [7, 7, 7, 7, 7]⟩, ⟨5, 5, [2, 2, 2, 0, 0]⟩]
        [0, 0, 1, 0, 0, 1, 0, 1, 0, 0] ∧ decodeChecked [0, 0, 1, 0, 0, 1, 0, 1, 0, 0] =
      some (denoted (groupsOf [0, 0, 1, 0, 0, 1, 0, 1, 0, 0])) := by
  obtain ⟨hdelta, hdecode⟩ := @applyDelta_and_decode_iff
    (deltaValue [editValue 0 0 [7, 7, 7, 7, 7], editValue 5 5 [2, 2, 2, 0, 0]])
    (by decide +kernel) [0, 0, 1, 0, 0, 1, 0, 1, 0, 0] (by decide +kernel) (by decide +kernel)
    [0, 0, 1, 0, 0, 1, 0, 1, 0, 0] (by decide)
  exact ⟨hdelta.2 (Patch.inOrder_of_distinct (by decide +kernel)), (hdecode.2 (by decide +kernel)).1⟩

/-- Two insertions at one place come in the opposite order, one listed before a replacement there
    loses its numbers to it, and a line past the largest `u32` overflows. -/
theorem applyDelta_and_decode_fail :
    (applyDelta [] (deltaValue [editValue 0 0 [0, 0, 1, 0, 0], editValue 0 0 [0, 4, 1, 1, 0]])).raw =
      [0, 4, 1, 1, 0, 0, 0, 1, 0, 0] ∧ Patch.simultaneously (listedEdits
        (deltaValue [editValue 0 0 [0, 0, 1, 0, 0], editValue 0 0 [0, 4, 1, 1, 0]])) [] =
      [0, 0, 1, 0, 0, 0, 4, 1, 1, 0] ∧ (applyDelta [9, 9, 9, 9, 9]
        (deltaValue [editValue 0 0 [0, 0, 1, 0, 0], editValue 0 5 [0, 4, 1, 1, 0]])).raw =
      [0, 4, 1, 1, 0, 9, 9, 9, 9, 9] ∧ Patch.simultaneously (listedEdits
        (deltaValue [editValue 0 0 [0, 0, 1, 0, 0], editValue 0 5 [0, 4, 1, 1, 0]]))
        [9, 9, 9, 9, 9] = [0, 0, 1, 0, 0, 0, 4, 1, 1, 0] ∧
    decodeChecked [4294967295, 0, 1, 0, 0, 1, 0, 1, 0, 0] = none ∧
    (decode [4294967295, 0, 1, 0, 0, 1, 0, 1, 0, 0]).map SemanticToken.line = [4294967295, 0] := by
  decide +kernel

end SemanticTokensResponse

end Pmacs
