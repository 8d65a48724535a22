/-
  The style that dominates each line of a text (`line_dominant_styles`, semantic_render.rs).

  * `walkedSpans`: the spans in ascending start, each with its index as given.
  * `lineDominantStyles`: one walk over them and the lines together.
  * `Dominant`: the style whose spans cover the most of a line; `Dominant.unique`.
  * `lineDominantStyles_dominated`: any walk that ascends finds it for every line.
-/
import Pmacs.Lib.Assoc
import Pmacs.Lib.Lines
import Pmacs.Semantic.Model

namespace Pmacs.Semantic

open Lib List Option

/-! ## The walk -/

/-- `WalkedSpans`: the spans are sorted by their starts where they are not given so. -/
def walkedSpans (spans : List StyleSpan) : List (StyleSpan × ℕ) :=
  if (spans.map (·.range.start)).IsChain (· ≤ ·) then spans.zipIdx
  else spans.zipIdx.insertionSort fun s t => s.1.range.start ≤ t.1.range.start

def covered (line : ByteRange) (s : StyleSpan) : ℕ :=
  min s.range.stop line.stop - max s.range.start line.start

def tallySpan (line : ByteRange) (tally : Assoc Style (ℕ × ℕ)) (s : StyleSpan × ℕ) :
    Assoc Style (ℕ × ℕ) :=
  if 0 < covered line s.1 then
    tally.insert s.1.what (match tally.lookup s.1.what with
      | some (bytes, met) => (bytes + covered line s.1, min met s.2)
      | none => (covered line s.1, s.2))
  else tally

/-- An entry that `max_by_key` prefers to an earlier one. -/
def Heavier (e e' : ℕ × ℕ) : Prop := e.1 < e'.1 ∨ e.1 = e'.1 ∧ e.2 ≤ e'.2

instance decidableHeavier (e e' : ℕ × ℕ) : Decidable (Heavier e e') :=
  inferInstanceAs (Decidable (_ ∨ _))

/-- `max_by_key` keeps the last of equals. -/
def winner (tally : List (Sigma fun _ : Style => ℕ × ℕ)) : Option (Sigma fun _ : Style => ℕ × ℕ) :=
  tally.foldl (fun best e => match best with
    | none => some e
    | some b => if Heavier b.2 e.2 then some e else some b) none

/-- The style of each line. The spans that end where a line starts are passed over for good. -/
def dominantStyles : List (StyleSpan × ℕ) → List ByteRange → List Style
  | _, [] => []
  | walked, line :: lines =>
    let walked := walked.dropWhile fun s => s.1.range.stop ≤ line.start
    let tally := (walked.takeWhile fun s => s.1.range.start < line.stop).foldl (tallySpan line) ∅
    ((winner tally.entries).map Sigma.fst).getD .default :: dominantStyles walked lines

def lineRanges (sourceLen : ℕ) : List ℕ → List ByteRange
  | [] => []
  | [start] => [⟨start, sourceLen⟩]
  | start :: next :: starts => ⟨start, next - 1⟩ :: lineRanges sourceLen (next :: starts)

def lineDominantStyles (spans : List StyleSpan) (lineStarts : List ℕ) (sourceLen : ℕ) :
    List Style :=
  if spans.isEmpty then lineStarts.map fun _ => .default
  else dominantStyles (walkedSpans spans) (lineRanges sourceLen lineStarts)

/-! ## What a line is shown in -/

section
variable (line : ByteRange) (spans : List (StyleSpan × ℕ))

def onLine : List (StyleSpan × ℕ) := spans.filter fun s => 0 < covered line s.1

/-- The bytes of the line that a style covers, overlapping spans counted each, and the lowest
    index of a span of it there. -/
structure Met (style : Style) (e : ℕ × ℕ) : Prop where
  bytes : e.1 = (((onLine line spans).filter (·.1.what = style)).map (covered line ·.1)).sum
  span : ∃ s ∈ onLine line spans, s.1.what = style ∧ s.2 = e.2
  lowest : ∀ s ∈ onLine line spans, s.1.what = style → e.2 ≤ s.2

def Dominant (style : Style) : Prop :=
  (∃ e, Met line spans style e ∧ ∀ style' e', Met line spans style' e' → Heavier e' e) ∨
    onLine line spans = [] ∧ style = .default

variable {line spans} {spans' : List (StyleSpan × ℕ)} {style style' : Style} {e e' : ℕ × ℕ}

theorem Met.perm (hperm : (onLine line spans).Perm (onLine line spans'))
    (h : Met line spans style e) : Met line spans' style e := by
  obtain ⟨s, hs, hspan⟩ := h.span
  exact ⟨h.bytes.trans ((hperm.filter _).map _).sum_nat, ⟨s, hperm.mem_iff.1 hs, hspan⟩,
    fun s hs => h.lowest s (hperm.mem_iff.2 hs)⟩

theorem Dominant.perm (hperm : (onLine line spans).Perm (onLine line spans'))
    (h : Dominant line spans style) : Dominant line spans' style := by
  rcases h with ⟨e, hmet, hmost⟩ | ⟨hnone, hdefault⟩
  · exact .inl ⟨e, hmet.perm hperm, fun style' e' h' => hmost style' e' (h'.perm hperm.symm)⟩
  · exact .inr ⟨(hnone ▸ hperm).nil_eq.symm, hdefault⟩

theorem Met.style_eq (hindex : (spans.map Prod.snd).Nodup) (h : Met line spans style e)
    (h' : Met line spans style' e') (heq : e.2 = e'.2) : style = style' := by
  obtain ⟨s, hs, rfl, hi⟩ := h.span
  obtain ⟨s', hs', rfl, hi'⟩ := h'.span
  have := inj_on_of_nodup_map hindex (List.mem_filter.1 hs).1 (List.mem_filter.1 hs').1
    (by rw [hi, hi', heq])
  rw [this]

/-- **At most one style dominates a line.** -/
theorem Dominant.unique (hindex : (spans.map Prod.snd).Nodup) (h : Dominant line spans style)
    (h' : Dominant line spans style') : style = style' := by
  rcases h with ⟨e, hmet, hmost⟩ | ⟨hnone, rfl⟩
  · rcases h' with ⟨e', hmet', hmost'⟩ | ⟨hnone, -⟩
    · refine hmet.style_eq hindex hmet' ?_; have := hmost _ _ hmet'; have := hmost' _ _ hmet
      unfold Heavier at *; omega
    · obtain ⟨s, hs, -⟩ := hmet.span; exact absurd hs (hnone ▸ not_mem_nil)
  rcases h' with ⟨e', hmet', -⟩ | ⟨-, rfl⟩
  · obtain ⟨s, hs, -⟩ := hmet'.span; exact absurd hs (hnone ▸ not_mem_nil)
  · rfl

end

/-! ## The tally of a line -/

section
variable {line : ByteRange} {spans : List (StyleSpan × ℕ)} {tally : Assoc Style (ℕ × ℕ)}

/-- The tally holds what is met, and nothing is met of a style it does not hold. -/
def Tallied (line : ByteRange) (spans : List (StyleSpan × ℕ)) (tally : Assoc Style (ℕ × ℕ)) :
    Prop :=
  ∀ style, match tally.lookup style with
    | some e => Met line spans style e
    | none => ∀ s ∈ onLine line spans, s.1.what ≠ style

theorem Tallied.concat (h : Tallied line spans tally) (s : StyleSpan × ℕ) :
    Tallied line (spans ++ [s]) (tallySpan line tally s) := by
  unfold Tallied tallySpan at *
  have honLine : onLine line (spans ++ [s]) = onLine line spans ++ onLine line [s] := filter_append _ _
  by_cases hreach : 0 < covered line s.1
  · have hself : onLine line [s] = [s] := by simp [onLine, hreach]
    rw [if_pos hreach]; intro style; have hstyle := h style
    by_cases heq : style = s.1.what
    · subst heq; rw [AList.lookup_insert]
      cases hlookup : tally.lookup s.1.what with
      | some e =>
        rw [hlookup] at hstyle; obtain ⟨t, ht, hwhat, hmet⟩ := hstyle.span
        refine ⟨?_, ?_, ?_⟩
        · simp [honLine, hself, filter_append, hstyle.bytes]
        · rcases le_total e.2 s.2 with hle | hle
          · exact ⟨t, by simp [honLine, ht], hwhat, hmet.trans (min_eq_left hle).symm⟩
          · exact ⟨s, by simp [honLine, hself], rfl, (min_eq_right hle).symm⟩
        simp only [honLine, hself, mem_append, mem_singleton]
        rintro t (ht | rfl) hwhat
        · exact (min_le_left _ _).trans (hstyle.lowest t ht hwhat)
        · exact min_le_right _ _
      | none =>
        rw [hlookup] at hstyle
        refine ⟨?_, ⟨s, by simp [honLine, hself], rfl, rfl⟩, ?_⟩
        · have hnone : (onLine line spans).filter (·.1.what = s.1.what) = [] :=
            filter_eq_nil_iff.2 fun t ht => by simpa using hstyle t ht
          simp [honLine, hself, filter_append, hnone]
        simp only [honLine, hself, mem_append, mem_singleton]
        rintro t (ht | rfl) hwhat
        · exact absurd hwhat (hstyle t ht)
        · exact le_rfl
    rw [AList.lookup_insert_ne heq]
    cases hlookup : tally.lookup style with
    | some e =>
      rw [hlookup] at hstyle; obtain ⟨t, ht, hmet⟩ := hstyle.span
      refine ⟨?_, ⟨t, by simp [honLine, ht], hmet⟩, ?_⟩
      · simp [honLine, hself, filter_append, hstyle.bytes, Ne.symm heq]
      simp only [honLine, hself, mem_append, mem_singleton]
      rintro t (ht | rfl) hwhat
      · exact hstyle.lowest t ht hwhat
      · exact absurd hwhat.symm heq
    | none =>
      rw [hlookup] at hstyle; simp only [honLine, hself, mem_append, mem_singleton]
      rintro t (ht | rfl)
      · exact hstyle t ht
      · exact Ne.symm heq
  · have hself : onLine line [s] = [] := by simpa [onLine] using hreach
    rw [if_neg hreach]; intro style; have hstyle := h style
    rw [hself, append_nil] at honLine
    cases hlookup : tally.lookup style with
    | some e => rw [hlookup] at hstyle; exact hstyle.perm (by rw [honLine])
    | none =>
      rw [hlookup] at hstyle
      rwa [honLine]

theorem tallied_foldl (line : ByteRange) (spans : List (StyleSpan × ℕ)) :
    Tallied line spans (spans.foldl (tallySpan line) ∅) := by
  induction spans using reverseRecOn with
  | nil => exact fun style => fun s hs => absurd hs not_mem_nil
  | append_singleton spans s ih => rw [foldl_append]; exact ih.concat s

theorem winner_spec (tally : List (Sigma fun _ : Style => ℕ × ℕ)) : match winner tally with
    | some e => e ∈ tally ∧ ∀ e' ∈ tally, Heavier e'.2 e.2
    | none => tally = [] := by
  induction tally using reverseRecOn with
  | nil => rfl
  | append_singleton tally e ih =>
    have hself : Heavier e.2 e.2 := .inr ⟨rfl, le_rfl⟩; rw [winner, foldl_append, ← winner]
    cases hbest : winner tally with
    | none =>
      rw [hbest] at ih; subst ih
      exact ⟨mem_singleton_self e, fun e' he' => mem_singleton.1 he' ▸ hself⟩
    | some best =>
      rw [hbest] at ih; obtain ⟨hmem, hmost⟩ := ih; simp only [foldl_cons, foldl_nil]
      split_ifs with hheavier
      · refine ⟨by simp, fun e' he' => ?_⟩
        rcases mem_append.1 he' with he' | he'
        · have := hmost e' he'; unfold Heavier at *; omega
        · exact mem_singleton.1 he' ▸ hself
      refine ⟨mem_append_left _ hmem, fun e' he' => ?_⟩
      rcases mem_append.1 he' with he' | he'
      · exact hmost e' he'
      · rw [mem_singleton.1 he']; unfold Heavier at *; omega

theorem Tallied.dominant (h : Tallied line spans tally) :
    Dominant line spans (((winner tally.entries).map Sigma.fst).getD .default) := by
  have hwinner := winner_spec tally.entries
  cases hbest : winner tally.entries with
  | none =>
    rw [hbest] at hwinner
    refine .inr ⟨eq_nil_iff_forall_not_mem.2 fun s hs => ?_, rfl⟩; have hstyle := h s.1.what
    cases hlookup : tally.lookup s.1.what with
    | none => rw [hlookup] at hstyle; exact hstyle s hs rfl
    | some e =>
      have := Assoc.mem_entries_iff.2 hlookup; rw [hwinner] at this; exact not_mem_nil this
  | some best =>
    rw [hbest] at hwinner; obtain ⟨hmem, hmost⟩ := hwinner
    have hlookup := Assoc.mem_entries_iff.1 (show ⟨best.1, best.2⟩ ∈ tally.entries from hmem)
    have hmet := h best.1; rw [hlookup] at hmet
    refine .inl ⟨best.2, hmet, fun style e hstyle => ?_⟩; have hentry := h style
    cases hlookup : tally.lookup style with
    | none =>
      rw [hlookup] at hentry; obtain ⟨s, hs, hwhat, -⟩ := hstyle.span
      exact absurd hwhat (hentry s hs)
    | some e' =>
      rw [hlookup] at hentry
      have heq : e = e' := Prod.ext (hstyle.bytes.trans hentry.bytes.symm) (by
        obtain ⟨s, hs, hwhat, hi⟩ := hstyle.span; obtain ⟨t, ht, hwhat', hj⟩ := hentry.span
        have := hstyle.lowest t ht hwhat'; have := hentry.lowest s hs hwhat
        omega)
      exact heq ▸ hmost _ (Assoc.mem_entries_iff.2 hlookup)

end

/-! ## The walk over the lines -/

/-- The spans ascend, and so do the lines. -/
def Ascends (walked : List (StyleSpan × ℕ)) : Prop :=
  walked.Pairwise fun s t => s.1.range.start ≤ t.1.range.start

theorem onLine_takeWhile {walked : List (StyleSpan × ℕ)} (h : Ascends walked) {line : ByteRange} :
    onLine line (walked.takeWhile fun s => s.1.range.start < line.stop) = onLine line walked := by
  induction walked with
  | nil => rfl
  | cons s walked ih =>
    rw [Ascends, pairwise_cons] at h; rw [takeWhile_cons]
    split_ifs with hstart
    · simp only [onLine, filter_cons] at ih ⊢; rw [ih h.2]
    symm
    refine filter_eq_nil_iff.2 fun t ht => ?_
    have hle : s.1.range.start ≤ t.1.range.start := by
      rcases mem_cons.1 ht with rfl | ht
      · exact le_rfl
      · exact h.1 t ht
    simp only [decide_eq_true_eq] at hstart ⊢; unfold covered; omega

theorem onLine_dropWhile (walked : List (StyleSpan × ℕ)) {line at_ : ByteRange}
    (hle : at_.start ≤ line.start) :
    onLine line (walked.dropWhile fun s => s.1.range.stop ≤ at_.start) = onLine line walked := by
  induction walked with
  | nil => rfl
  | cons s walked ih =>
    rw [dropWhile_cons]
    split_ifs with hstop
    · rw [ih, onLine, onLine, filter_cons_of_neg]; simp only [decide_eq_true_eq] at hstop ⊢
      unfold covered; omega
    · rfl

/-- **Each line is shown in the style that dominates it.** -/
theorem dominantStyles_dominant {spans walked : List (StyleSpan × ℕ)} {lines : List ByteRange}
    (hascends : Ascends walked) (hlines : lines.Pairwise fun a b => a.start ≤ b.start)
    (hreach : ∀ line ∈ lines, (onLine line walked).Perm (onLine line spans)) :
    Forall₂ (fun line style => Dominant line spans style) lines (dominantStyles walked lines) := by
  induction lines generalizing walked with
  | nil => exact .nil
  | cons line lines ih =>
    rw [pairwise_cons] at hlines
    have hleft : Ascends (walked.dropWhile fun s => s.1.range.stop ≤ line.start) :=
      hascends.sublist (dropWhile_sublist _)
    refine .cons ?_ (ih hleft hlines.2 fun next hnext => ?_)
    · refine (tallied_foldl line _).dominant.perm ?_
      rw [onLine_takeWhile hleft, onLine_dropWhile walked le_rfl]
      exact hreach line (.head _)
    · rw [onLine_dropWhile walked (hlines.1 next hnext)]; exact hreach next (.tail _ hnext)

theorem lineRanges_start {sourceLen : ℕ} : ∀ starts : List ℕ,
    (lineRanges sourceLen starts).map Lib.Range.start = starts
  | [] => rfl
  | [_] => rfl
  | start :: next :: starts => congrArg (start :: ·) (lineRanges_start (next :: starts))

theorem walkedSpans_spec (spans : List StyleSpan) :
    (walkedSpans spans).Perm spans.zipIdx ∧ Ascends (walkedSpans spans) := by
  unfold walkedSpans
  split_ifs with hchain
  · refine ⟨.refl _, ?_⟩
    rwa [isChain_iff_pairwise, pairwise_map, ← zipIdx_map_fst 0 spans, pairwise_map] at hchain
  · exact ⟨perm_insertionSort _ _, pairwise_insertionSort _ _⟩

theorem dominantStyles_nil (lines : List ByteRange) :
    dominantStyles [] lines = lines.map fun _ => .default := by
  induction lines with
  | nil => rfl
  | cons line lines ih => rw [map_cons, ← ih]; rfl

theorem lineDominantStyles_eq {spans : List StyleSpan} (starts : List ℕ) {sourceLen : ℕ} :
    lineDominantStyles spans starts sourceLen =
      dominantStyles (walkedSpans spans) (lineRanges sourceLen starts) := by
  unfold lineDominantStyles
  split_ifs with hspans
  · obtain rfl := List.isEmpty_iff.1 hspans
    rw [← lineRanges_start starts, List.map_map, lineRanges_start]
    exact (dominantStyles_nil _).symm
  · rfl

/-- Each line has its dominant style, and any walk that ascends gives the same. -/
structure Dominated (spans : List StyleSpan) (lines : List ByteRange) (styles : List Style) :
    Prop where
  dominant : Forall₂ (fun line style => Dominant line spans.zipIdx style) lines styles
  anyWalk : ∀ walked, walked.Perm spans.zipIdx → Ascends walked → dominantStyles walked lines = styles

/-- **The dominant style of every line** of a text. -/
theorem lineDominantStyles_dominated (spans : List StyleSpan) (source : List UInt8) :
    Dominated spans (lineRanges source.length (lineStarts (· = 0x0A) source))
      (lineDominantStyles spans (lineStarts (· = 0x0A) source) source.length) := by
  have hlines : (lineRanges source.length (lineStarts (· = 0x0A) source)).Pairwise
      fun a b => a.start ≤ b.start := by
    rw [← pairwise_map, lineRanges_start]; exact (pairwise_lineStarts _).imp le_of_lt
  rw [lineDominantStyles_eq]
  generalize lineRanges source.length (lineStarts (· = 0x0A) source) = lines at hlines ⊢
  have hany := fun (walked : List (StyleSpan × ℕ)) (hperm : walked.Perm spans.zipIdx) hascends =>
    dominantStyles_dominant hascends hlines fun line _ => hperm.filter _
  obtain ⟨hperm, hascends⟩ := walkedSpans_spec spans
  refine ⟨hany _ hperm hascends, fun walked hperm' hascends' => ?_⟩
  have hindex : (spans.zipIdx.map Prod.snd).Nodup := by rw [zipIdx_map_snd]; exact nodup_range'
  exact right_unique_forall₂' (fun _ _ _ h h' => h.unique hindex h') (hany _ hperm' hascends')
    (hany _ hperm hascends)

end Pmacs.Semantic
