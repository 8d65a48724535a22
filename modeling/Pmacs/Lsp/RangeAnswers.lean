/-
  Absorbing an answer for a range of a document (semantic_tokens.rs).

  * `heldSpans`: the tokens an entry holds; `freshSpans` and `replacedRegion`: the answer's tokens
    and the requested extent, carried across the edits since the answer's base;
  * `Absorbed`: the answer joined the tokens held, which are in order, keep what lies outside the
    replaced region and nothing that overlaps a token of the answer;
  * `setRange_absorbed_iff`: so it is exactly when no token held outside the region overlaps one of
    the answer.
-/
import Pmacs.Lsp.SemanticTokensSpec

namespace Pmacs

open Lib Utf8 AList List Option SemanticTokenStore

/-! ## Columns -/

theorem lineStart_add_size_lt {lines : List (List Char)} {line : List Char} {i j : ℕ}
    (hline : lines[i]? = some line) (hij : i < j) :
    lineStart lines i + size line < lineStart lines j := by
  have hnext : lines.take (i + 1) = lines.take i ++ [line] := by
    rw [take_add_one, hline, toList_some]
  have htake : lines.take j = lines.take (i + 1) ++ (lines.drop (i + 1)).take (j - (i + 1)) := by
    rw [← take_add]
    congr 1
    omega
  rw [lineStart, lineStart, htake, hnext, map_append, map_append, sum_append,
    sum_append, map_singleton, sum_singleton]
  omega

/-! ## Tokens in order -/

/-- A token of an answer ends before another begins. -/
def SemanticToken.Before (t t' : SemanticToken) : Prop :=
  t.line < t'.line ∨ t.line = t'.line ∧ t.start + t.length ≤ t'.start

instance (t t' : SemanticToken) : Decidable (t.Before t') := inferInstanceAs (Decidable (_ ∨ _))

/-- Tokens sorted and disjoint, each covering something. -/
structure InDocumentOrder (spans : List PositionedToken) : Prop where
  disjoint : spans.Pairwise fun t t' => t.stop ≤ t'.start
  nonempty : ∀ t ∈ spans, t.start < t.stop

namespace PositionedToken

def Overlaps (t f : PositionedToken) : Prop := t.start < f.stop ∧ f.start < t.stop

/-- A token wholly outside a region. -/
def Outside (t : PositionedToken) (region : ℕ × ℕ) : Prop :=
  t.stop ≤ region.1 ∨ t.start ≥ region.2

instance (t : PositionedToken) (region : ℕ × ℕ) : Decidable (t.Outside region) :=
  inferInstanceAs (Decidable (_ ∨ _))

end PositionedToken

open PositionedToken

variable {enc : PositionEncoding} {text : List Char}

theorem resolveToken_before {t t' : SemanticToken}
    (h : t.Before t') {p p' : PositionedToken} (hp : resolveToken (textLines text) enc t = some p)
    (hp' : resolveToken (textLines text) enc t' = some p') : p.stop ≤ p'.start := by
  rw [resolveToken] at hp hp'
  split at hp
  · cases hp
  rename_i line hline
  split at hp'
  · cases hp'
  rename_i line' hline'
  dsimp only at hp hp'
  split_ifs at hp hp'
  obtain rfl := some.inj hp
  obtain rfl := some.inj hp'
  rcases h with hlt | ⟨heq, hle⟩
  · have h1 := charToByte_le line (saturatingAdd32 t.start t.length) enc
    have h2 := lineStart_add_size_lt hline hlt; dsimp only; omega
  rw [heq] at hline; obtain rfl := some.inj (hline.symm.trans hline')
  have hcol : saturatingAdd32 t.start t.length ≤ t'.start := (min_le_left _ _).trans hle
  have h1 := charToByte_mono line hcol enc; dsimp only; rw [heq]
  omega

theorem inDocumentOrder_resolveTokens {tokens : List SemanticToken}
    (h : tokens.Pairwise SemanticToken.Before) (text : List Char) (enc : PositionEncoding) :
    InDocumentOrder (resolveTokens tokens text enc) := by
  refine ⟨h.filterMap _ ?_, fun t ht => (resolveTokens_inside ht).1⟩
  intro t t' htt' p hp p' hp'
  exact resolveToken_before htt' hp hp'

variable {spans : List PositionedToken}

theorem InDocumentOrder.translateSpans (h : InDocumentOrder spans)
    (edit : DocumentEdit) : InDocumentOrder (translateSpans spans edit) := by
  refine ⟨h.disjoint.filterMap _ fun t t' htt' u hu u' hu' => ?_, fun u hu => ?_⟩
  · obtain ⟨-, rfl⟩ := translated_eq_some.1 hu; obtain ⟨-, rfl⟩ := translated_eq_some.1 hu'
    exact edit.translateEnd_le_translateStart htt'
  · obtain ⟨t, -, ht⟩ := mem_filterMap.1 hu; obtain ⟨hlt, rfl⟩ := translated_eq_some.1 ht; exact hlt

theorem InDocumentOrder.foldl (h : InDocumentOrder spans)
    (edits : List DocumentEdit) : InDocumentOrder (edits.foldl Pmacs.translateSpans spans) := by
  induction edits generalizing spans with
  | nil => exact h
  | cons edit edits ih => exact ih (h.translateSpans edit)

theorem not_overlaps_of_le {t f : PositionedToken} (h : t.stop ≤ f.start) : ¬ t.Overlaps f :=
  fun ho => by have h2 := ho.2; omega

/-! ## Extents across edits -/

theorem translateStart_mono (edit : DocumentEdit) {a b : ℕ} (hab : a ≤ b) :
    edit.translateStart a ≤ edit.translateStart b := by
  simp only [DocumentEdit.translateStart, DocumentEdit.shift]
  split_ifs <;> omega

theorem translateEnd_mono (edit : DocumentEdit) {a b : ℕ} (hab : a ≤ b) :
    edit.translateEnd a ≤ edit.translateEnd b := by
  simp only [DocumentEdit.translateEnd, DocumentEdit.shift]
  split_ifs <;> omega

/-- A token inside an extent is inside it after edits, which leave the extent where they leave the
    token. -/
theorem carried_inside {edits : List DocumentEdit} : ∀ {f f' e : PositionedToken},
    f.carried edits = some f' → e.start ≤ f.start → f.stop ≤ e.stop →
      ∃ e', e.carried edits = some e' ∧ e'.start ≤ f'.start ∧ f'.stop ≤ e'.stop := by
  induction edits with
  | nil => intro f f' e hf hstart hstop; obtain rfl := some.inj hf; exact ⟨e, rfl, hstart, hstop⟩
  | cons edit edits ih =>
    intro f f' e hf hstart hstop; rw [carried, bind_eq_some_iff] at hf; obtain ⟨g, hg, hf⟩ := hf
    obtain ⟨hlt, rfl⟩ := translated_eq_some.1 hg; have h1 := translateStart_mono edit hstart
    have h2 := translateEnd_mono edit hstop
    have he := translated_eq_some.2
      ⟨show edit.translateStart e.start < edit.translateEnd e.stop by omega, rfl⟩
    obtain ⟨e', he', hinside⟩ := ih (e := ⟨edit.translateStart e.start, edit.translateEnd e.stop,
      e.tokenType, e.tokenModifiers⟩) hf h1 h2
    exact ⟨e', by rw [carried, he, bind_some, he'], hinside⟩

/-! ## Joining -/

theorem tokenLe_trans (a b c : PositionedToken) (hab : tokenLe a b = true)
    (hbc : tokenLe b c = true) : tokenLe a c = true := by
  simp only [tokenLe, decide_eq_true_eq] at *
  omega

theorem tokenLe_total (a b : PositionedToken) :
    (tokenLe a b || tokenLe b a) = true := by
  simp only [tokenLe, Bool.or_eq_true, decide_eq_true_eq]
  omega

theorem inDocumentOrder_mergeSort (hnonempty : ∀ t ∈ spans, t.start < t.stop)
    (hapart : spans.Pairwise fun t f => ¬ t.Overlaps f) :
    InDocumentOrder (spans.mergeSort tokenLe) := by
  have hperm := mergeSort_perm spans tokenLe
  have hnonempty' : ∀ t ∈ spans.mergeSort tokenLe, t.start < t.stop :=
    fun t ht => hnonempty t (hperm.mem_iff.1 ht)
  have hsorted := pairwise_mergeSort tokenLe_trans tokenLe_total spans
  have hapart' := (hperm.pairwise_iff fun {t f} h ho => h ⟨ho.2, ho.1⟩).2 hapart
  refine ⟨?_, hnonempty'⟩
  refine (hsorted.and hapart').imp_of_mem fun {t f} ht hf h => ?_
  obtain ⟨hle, ho⟩ := h
  have h1 := hnonempty' t ht
  have h2 := hnonempty' f hf
  simp only [tokenLe, decide_eq_true_eq] at hle
  simp only [Overlaps, not_and, not_lt] at ho
  omega

/-- The tokens of `held` outside a region with those of an answer. -/
structure Absorbed (held fresh : List PositionedToken) (region : ℕ × ℕ)
    (spans : List PositionedToken) : Prop where
  ordered : InDocumentOrder spans
  joined : ∃ kept, List.Sublist kept held ∧ spans.Perm (kept ++ fresh) ∧
    (∀ t ∈ held, t.Outside region → t ∈ kept) ∧ ∀ t ∈ kept, ∀ f ∈ fresh, ¬ t.Overlaps f

/-- What is kept outside the region joins an answer in order exactly when none of it overlaps the
    answer. -/
theorem absorbed_iff {held fresh : List PositionedToken} (hheld : InDocumentOrder held)
    (hfresh : InDocumentOrder fresh) (region : ℕ × ℕ) : Absorbed held fresh region
        ((held.filter (fun t => decide (t.Outside region)) ++ fresh).mergeSort
          tokenLe) ↔
      ∀ t ∈ held, t.Outside region → ∀ f ∈ fresh, ¬ t.Overlaps f := by
  have hperm := mergeSort_perm (held.filter (fun t => decide (t.Outside region)) ++ fresh)
    tokenLe
  have hmem : ∀ t, t ∈ held.filter (fun t => decide (t.Outside region)) ↔
      t ∈ held ∧ t.Outside region := fun t => by rw [mem_filter, decide_eq_true_eq]
  constructor
  · rintro ⟨-, kept, -, hjoined, -, hdrops⟩ t ht hout
    have hsame := (perm_append_right_iff fresh).1 (hperm.symm.trans hjoined)
    exact hdrops t (hsame.mem_iff.1 ((hmem t).2 ⟨ht, hout⟩))
  intro h
  refine ⟨inDocumentOrder_mergeSort ?_ ?_,
    held.filter (fun t => decide (t.Outside region)), filter_sublist, hperm,
    fun t ht hout => (hmem t).2 ⟨ht, hout⟩, fun t ht => ?_⟩
  · intro t ht
    rcases mem_append.1 ht with ht | ht
    · exact hheld.nonempty t ((hmem t).1 ht).1
    · exact hfresh.nonempty t ht
  · refine pairwise_append.2 ⟨?_, ?_, fun t ht => ?_⟩
    · exact (hheld.disjoint.filter _).imp not_overlaps_of_le
    · exact hfresh.disjoint.imp not_overlaps_of_le
    · exact h t ((hmem t).1 ht).1 ((hmem t).1 ht).2
  · exact h t ((hmem t).1 ht).1 ((hmem t).1 ht).2

/-! ## The store -/

namespace SemanticTokenStore

variable (s : SemanticTokenStore) (key : SemanticTokenKey)

def heldSpans : List PositionedToken :=
  ((s.byKey.lookup key).map Entry.spans).getD []

/-- The edits recorded for a document from `baseSeq` on. -/
def editsSince (uri : String) (baseSeq : ℕ) : List DocumentEdit :=
  match s.logs.lookup uri with
  | none => []
  | some log => (log.since baseSeq).map (·.1)

/-- No edit since `baseSeq` was forgotten. -/
def Covers (uri : String) (baseSeq : ℕ) : Prop :=
  ∀ log, s.logs.lookup uri = some log → log.droppedBelow ≤ baseSeq

def extentOf (text : List Char) (range : (ℕ × ℕ) × (ℕ × ℕ)) : PositionedToken :=
  let extentStart := byteAt text range.1.1 range.1.2
  let extentEnd := max (byteAt text range.2.1 range.2.2) extentStart
  ⟨extentStart, max extentEnd (extentStart + 1), 0, 0⟩

def freshSpans (response : SemanticTokensResponse) (text : List Char) (enc : PositionEncoding)
    (baseSeq : ℕ) : List PositionedToken :=
  (s.editsSince key.uri baseSeq).foldl translateSpans (resolveTokens response.tokens text enc)

/-- Where a carried extent is now; a deleted one is nowhere. -/
def regionOf : List PositionedToken → ℕ × ℕ
  | [] => (u64Max, u64Max)
  | e :: _ => (e.start, e.stop)

def replacedRegion (text : List Char) (baseSeq : ℕ) (range : (ℕ × ℕ) × (ℕ × ℕ)) : ℕ × ℕ :=
  regionOf ((s.editsSince key.uri baseSeq).foldl translateSpans [extentOf text range])

variable {range : (ℕ × ℕ) × (ℕ × ℕ)}

/-- **An absorbed answer**: the tokens held outside the region, sorted with the answer's. -/
theorem heldSpans_setRange {s : SemanticTokenStore} {key : SemanticTokenKey} {baseSeq : ℕ}
    (haccepts : s.refuses key baseSeq = false) (hcovers : s.Covers key.uri baseSeq)
    (response : SemanticTokensResponse) :
    (s.setRange key response text enc baseSeq range).2.heldSpans key =
      (((s.heldSpans key).filter fun t =>
          decide (t.Outside (s.replacedRegion key text baseSeq range))) ++
        s.freshSpans key response text enc baseSeq).mergeSort tokenLe := by
  have hheld : (((s.byKey.lookup key).getD ⟨.default, [], baseSeq, 0, false⟩).spans) =
      s.heldSpans key := by rw [heldSpans]; cases s.byKey.lookup key <;> rfl
  rw [setRange, haccepts, if_neg Bool.false_ne_true, freshSpans, replacedRegion, editsSince,
    ← hheld]
  cases hlog : s.logs.lookup key.uri with
  | none => rw [heldSpans, lookup_insert]; rfl
  | some log =>
    dsimp only; rw [if_neg (not_lt.2 (hcovers log hlog))]; dsimp only
    rw [heldSpans, lookup_insert]; rfl

/-- **A range answer**: what it leaves is in order, keeps what was held outside the region it
    replaces and nothing that overlaps it exactly when no token held outside overlaps it. -/
theorem setRange_absorbed_iff {s : SemanticTokenStore} {key : SemanticTokenKey} {baseSeq : ℕ}
    (haccepts : s.refuses key baseSeq = false) (hcovers : s.Covers key.uri baseSeq)
    (hheld : InDocumentOrder (s.heldSpans key)) {response : SemanticTokensResponse}
    (hanswer : response.tokens.Pairwise SemanticToken.Before) (text : List Char)
    (enc : PositionEncoding) (range : (ℕ × ℕ) × (ℕ × ℕ)) :
    Absorbed (s.heldSpans key) (s.freshSpans key response text enc baseSeq)
        (s.replacedRegion key text baseSeq range)
        ((s.setRange key response text enc baseSeq range).2.heldSpans key) ↔
      ∀ t ∈ s.heldSpans key, t.Outside (s.replacedRegion key text baseSeq range) →
        ∀ f ∈ s.freshSpans key response text enc baseSeq, ¬ t.Overlaps f := by
  rw [heldSpans_setRange haccepts hcovers]
  have hfresh : InDocumentOrder (s.freshSpans key response text enc baseSeq) :=
    (inDocumentOrder_resolveTokens hanswer text enc).foldl _
  exact absorbed_iff hheld hfresh _

theorem apart_of_inside {s : SemanticTokenStore} {key : SemanticTokenKey} {baseSeq : ℕ}
    {response : SemanticTokensResponse}
    (hinside : ∀ f ∈ resolveTokens response.tokens text enc,
      (extentOf text range).start ≤ f.start ∧ f.stop ≤ (extentOf text range).stop)
    {t : PositionedToken} (hout : t.Outside (s.replacedRegion key text baseSeq range))
    {f : PositionedToken} (hf : f ∈ s.freshSpans key response text enc baseSeq) :
    ¬ t.Overlaps f := by
  rw [freshSpans, foldl_translateSpans] at hf
  obtain ⟨g, hg, hcarried⟩ := mem_filterMap.1 hf
  obtain ⟨hstart, hstop⟩ := hinside g hg
  obtain ⟨e, he, hestart, hestop⟩ := carried_inside hcarried hstart hstop
  have hregion : s.replacedRegion key text baseSeq range = (e.start, e.stop) := by
    rw [replacedRegion, foldl_translateSpans, filterMap_cons, he]; rfl
  rw [hregion, Outside] at hout
  rintro ⟨h1, h2⟩
  dsimp only at hout
  omega

/-- Three words of a line, each a token. -/
def threeWords : SemanticTokenStore :=
  (new.set ⟨"1", "a"⟩ ⟨[⟨0, 0, 2, 0, 0⟩, ⟨0, 3, 2, 0, 0⟩, ⟨0, 6, 2, 0, 0⟩], none, []⟩
    "aa bb cc".toList .utf8 0).2

theorem covers_threeWords : threeWords.Covers "a" 0 := by
  have hnone : threeWords.logs.lookup "a" = none := by decide +kernel
  intro log h
  cases h

theorem setRange_absorbed_iff_firstWord : Absorbed (threeWords.heldSpans ⟨"1", "a"⟩)
      (threeWords.freshSpans ⟨"1", "a"⟩ ⟨[⟨0, 0, 2, 1, 0⟩], none, []⟩ "aa bb cc".toList .utf8 0)
      (threeWords.replacedRegion ⟨"1", "a"⟩ "aa bb cc".toList 0 ((0, 0), (0, 2)))
      ((threeWords.setRange ⟨"1", "a"⟩ ⟨[⟨0, 0, 2, 1, 0⟩], none, []⟩ "aa bb cc".toList .utf8 0
        ((0, 0), (0, 2))).2.heldSpans ⟨"1", "a"⟩) := by
  refine (setRange_absorbed_iff (by decide +kernel) ?_ ⟨?_, ?_⟩ (by decide +kernel) _ _ _).2 ?_
  · exact covers_threeWords
  · decide +kernel
  · decide +kernel
  · intro t _ hout f hf; exact apart_of_inside (by decide +kernel) hout hf

/-- An answer for the first word that also covers the two others joins the tokens held there. -/
theorem setRange_not_absorbed : InDocumentOrder (threeWords.heldSpans ⟨"1", "a"⟩) ∧
      [⟨0, 0, 2, 1, 0⟩, ⟨0, 3, 5, 1, 0⟩].Pairwise SemanticToken.Before ∧
      ¬ Absorbed (threeWords.heldSpans ⟨"1", "a"⟩)
        (threeWords.freshSpans ⟨"1", "a"⟩ ⟨[⟨0, 0, 2, 1, 0⟩, ⟨0, 3, 5, 1, 0⟩], none, []⟩
          "aa bb cc".toList .utf8 0)
        (threeWords.replacedRegion ⟨"1", "a"⟩ "aa bb cc".toList 0 ((0, 0), (0, 2)))
        ((threeWords.setRange ⟨"1", "a"⟩ ⟨[⟨0, 0, 2, 1, 0⟩, ⟨0, 3, 5, 1, 0⟩], none, []⟩
          "aa bb cc".toList .utf8 0 ((0, 0), (0, 2))).2.heldSpans ⟨"1", "a"⟩) := by
  have hheld : InDocumentOrder (threeWords.heldSpans ⟨"1", "a"⟩) :=
    ⟨by decide +kernel, by decide +kernel⟩
  refine ⟨hheld, by decide, ?_⟩
  rw [heldSpans_setRange (by decide +kernel) covers_threeWords,
    absorbed_iff hheld ⟨by decide +kernel, by decide +kernel⟩]
  intro h
  exact h ⟨3, 5, 0, 0⟩ (by decide +kernel) (by decide +kernel) ⟨3, 8, 1, 0⟩ (by decide +kernel)
    ⟨by decide, by decide⟩

end SemanticTokenStore

end Pmacs
