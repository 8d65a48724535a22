/-
  Tokens carried across a document's edits.

  * `DocumentEdit.Exact` and `textAfter`: a document's history of exact edits;
  * `PositionedToken.carried` carries one token across edits in order;
    `translateSpans` over edits carries every token so (`foldl_translateSpans`),
    and keeps a token list sorted, disjoint, non-empty and inside the text
    (`spansWf_carried`).
-/
import Pmacs.Lsp.SemanticTokens
import Pmacs.Lib.Numbered

namespace Pmacs

open Lib Utf8 PositionedToken DocumentEdit

/-! ## Exact edits -/

/-- What one edit of a history is: its description and the bytes it inserted. -/
abbrev HistoryEdit := DocumentEdit × List UInt8

variable {e : DocumentEdit} {text ins : List UInt8}

namespace DocumentEdit

/-- The edit replaces a range of `text` by the bytes `ins`. -/
structure Exact (e : DocumentEdit) (text ins : List UInt8) : Prop where
  start_le : e.start ≤ e.oldEnd
  oldEnd_le : e.oldEnd ≤ text.length
  insertedLen : e.insertedLen = ins.length

def apply (e : DocumentEdit) (text ins : List UInt8) : List UInt8 :=
  splice text e.start e.oldEnd ins

theorem length_apply (h : e.Exact text ins) :
    (e.apply text ins).length = text.length - (e.oldEnd - e.start) + e.insertedLen := by
  rw [apply, length_splice _ h.start_le h.oldEnd_le, h.insertedLen]

/-- An edit that removes and inserts nothing. -/
def IsNoop (e : DocumentEdit) : Prop := e.oldEnd = e.start ∧ e.insertedLen = 0

instance (e : DocumentEdit) : Decidable e.IsNoop := inferInstanceAs (Decidable (_ ∧ _))

/-! ### Positions across an exact edit -/

/-- Ends map below the starts that follow them: a sorted, disjoint list stays so. -/
theorem translateEnd_le_translateStart (e : DocumentEdit) {p q : ℕ} (hpq : p ≤ q) :
    e.translateEnd p ≤ e.translateStart q := by
  simp only [translateEnd, translateStart, shift]
  split_ifs <;> omega

theorem translateEnd_le (h : e.Exact text ins) {p : ℕ}
    (hp : p ≤ text.length) : e.translateEnd p ≤ (e.apply text ins).length := by
  have h1 := h.start_le
  have h2 := h.oldEnd_le
  rw [length_apply h]
  simp only [translateEnd, shift]
  split_ifs <;> omega

end DocumentEdit

def textAfter (text : List UInt8) (hist : List HistoryEdit) : List UInt8 :=
  hist.foldl (fun t x => x.1.apply t x.2) text

/-- Every edit of the history is exact on the text it meets. -/
def ExactFrom : List UInt8 → List HistoryEdit → Prop
  | _, [] => True
  | text, (e, ins) :: hist => e.Exact text ins ∧ ExactFrom (e.apply text ins) hist

theorem textAfter_append (text : List UInt8) (hist hist' : List HistoryEdit) :
    textAfter text (hist ++ hist') = textAfter (textAfter text hist) hist' :=
  List.foldl_append ..

variable {hist : List HistoryEdit}

theorem exactFrom_append {hist' : List HistoryEdit} :
    ExactFrom text (hist ++ hist') ↔ ExactFrom text hist ∧ ExactFrom (textAfter text hist) hist' := by
  induction hist generalizing text with
  | nil => simp [ExactFrom, textAfter]
  | cons x hist ih => rw [List.cons_append, ExactFrom, ExactFrom, ih, and_assoc]; rfl

/-! ## Tokens across edits -/

/-- A token list in document order: every token covers something, lies in a text
    of `len` bytes, and ends before the next begins. -/
structure SpansWf (len : ℕ) (spans : List PositionedToken) : Prop where
  disjoint : spans.Pairwise fun t t' => t.stop ≤ t'.start
  nonempty : ∀ t ∈ spans, t.start < t.stop
  inside : ∀ t ∈ spans, t.stop ≤ len

variable {t : PositionedToken}

namespace PositionedToken

theorem translated_eq_some {t' : PositionedToken} :
    t.translated e = some t' ↔ e.translateStart t.start < e.translateEnd t.stop ∧
      t' = ⟨e.translateStart t.start, e.translateEnd t.stop, t.tokenType, t.tokenModifiers⟩ := by
  simp only [translated]
  split
  · rename_i h; simp [h, eq_comm]
  · rename_i h; simp [h]

def carried (t : PositionedToken) : List DocumentEdit → Option PositionedToken
  | [] => some t
  | e :: es => (t.translated e).bind (·.carried es)

/-- No edit of the history overlaps or touches the token on its way. -/
def Untouched : PositionedToken → List DocumentEdit → Prop
  | _, [] => True
  | t, e :: es =>
    (e.oldEnd < t.start ∨ t.stop < e.start) ∧ ∀ t', t.translated e = some t' → t'.Untouched es

end PositionedToken

theorem foldl_translateSpans (es : List DocumentEdit) (spans : List PositionedToken) :
    es.foldl translateSpans spans = spans.filterMap (·.carried es) := by
  induction es generalizing spans with
  | nil => simp [carried]
  | cons e es ih => rw [List.foldl_cons, ih, translateSpans, List.filterMap_filterMap]; rfl

variable {spans : List PositionedToken}

/-- One exact edit keeps a token list in document order and inside the text. -/
theorem spansWf_translateSpans (h : e.Exact text ins) (hs : SpansWf text.length spans) :
    SpansWf (e.apply text ins).length (translateSpans spans e) := by
  refine ⟨?_, ?_, ?_⟩
  · refine hs.disjoint.filterMap _ ?_; intro t t' htt' u hu u' hu'
    obtain ⟨_, rfl⟩ := translated_eq_some.1 hu
    obtain ⟨_, rfl⟩ := translated_eq_some.1 hu'
    exact e.translateEnd_le_translateStart htt'
  · intro u hu; obtain ⟨t, _, ht⟩ := List.mem_filterMap.1 hu
    obtain ⟨hlt, rfl⟩ := translated_eq_some.1 ht; exact hlt
  intro u hu; obtain ⟨t, ht, ht'⟩ := List.mem_filterMap.1 hu
  obtain ⟨_, rfl⟩ := translated_eq_some.1 ht'
  exact translateEnd_le h (hs.inside t ht)

theorem spansWf_carried (h : ExactFrom text hist) (hs : SpansWf text.length spans) :
    SpansWf (textAfter text hist).length (spans.filterMap (·.carried (hist.map (·.1)))) := by
  rw [← foldl_translateSpans]
  induction hist generalizing text spans with
  | nil => exact hs
  | cons x hist ih => exact ih h.2 (spansWf_translateSpans h.1 hs)

/-- A token an edit does not touch keeps its bytes and its kind across it. -/
theorem slice_translated (h : e.Exact text ins) (hlt : t.start < t.stop) (hle : t.stop ≤ text.length)
    (hu : e.oldEnd < t.start ∨ t.stop < e.start) :
    ∃ t', t.translated e = some t' ∧ t'.start < t'.stop ∧ t'.stop ≤ (e.apply text ins).length ∧
      slice (e.apply text ins) t'.start t'.stop = slice text t.start t.stop ∧
      t'.tokenType = t.tokenType ∧ t'.tokenModifiers = t.tokenModifiers := by
  have h1 := h.start_le
  have h2 := h.oldEnd_le
  have hin := translateEnd_le h hle
  rcases hu with hu | hu
  · -- the edit lies before the token, which shifts
    have hs : e.translateStart t.start = t.start - (e.oldEnd - e.start) + ins.length := by
      simp only [translateStart, shift, h.insertedLen]
      split_ifs <;> omega
    have he : e.translateEnd t.stop = t.stop - (e.oldEnd - e.start) + ins.length := by
      simp only [translateEnd, shift, h.insertedLen]
      split_ifs <;> omega
    refine ⟨_, translated_eq_some.2 ⟨?_, rfl⟩, ?_, hin, ?_, rfl, rfl⟩
    · omega
    · simp only; omega
    · simp only [hs, he]; exact slice_splice_after ins h1 (by omega) (by omega) hle
  -- the edit lies behind the token, which stays
  have hs : e.translateStart t.start = t.start := by
    simp only [translateStart]
    split_ifs <;> omega
  have he : e.translateEnd t.stop = t.stop := by
    simp only [translateEnd]
    split_ifs <;> omega
  refine ⟨_, translated_eq_some.2 ⟨?_, rfl⟩, ?_, hin, ?_, rfl, rfl⟩
  · omega
  · simp only; omega
  · simp only [hs, he]; exact slice_splice_before ins (by omega) (by omega)

/-- **A token no edit touches covers the same bytes** at the end of the history. -/
theorem slice_carried (h : ExactFrom text hist) (hlt : t.start < t.stop) (hle : t.stop ≤ text.length)
    (hu : t.Untouched (hist.map (·.1))) : ∃ t', t.carried (hist.map (·.1)) = some t' ∧
      slice (textAfter text hist) t'.start t'.stop = slice text t.start t.stop ∧
      t'.tokenType = t.tokenType ∧ t'.tokenModifiers = t.tokenModifiers := by
  induction hist generalizing text t with
  | nil => exact ⟨t, rfl, rfl, rfl, rfl⟩
  | cons x hist ih =>
    obtain ⟨t₁, ht₁, hlt₁, hle₁, hsl₁, hty₁, hm₁⟩ := slice_translated h.1 hlt hle hu.1
    obtain ⟨t₂, ht₂, hsl₂, hty₂, hm₂⟩ := ih h.2 hlt₁ hle₁ (hu.2 t₁ ht₁)
    refine ⟨t₂, ?_, hsl₂.trans hsl₁, hty₂.trans hty₁, hm₂.trans hm₁⟩
    simp [carried, ht₁, ht₂]

theorem resolveTokens_inside {tokens : List SemanticToken} {text : List Char}
    {enc : PositionEncoding} (ht : t ∈ resolveTokens tokens text enc) :
    t.start < t.stop ∧ t.stop ≤ size text := by
  obtain ⟨tok, _, htok⟩ := List.mem_filterMap.1 ht
  simp only [resolveToken] at htok
  split at htok
  · cases htok
  rename_i line hline
  split at htok
  · cases htok
  rename_i hle; obtain rfl := Option.some.inj htok; have h1 := lineStart_add_size_le hline
  have h2 := charToByte_le line (saturatingAdd32 tok.start tok.length) enc
  exact ⟨by simpa using hle, by simp only; omega⟩

end Pmacs
