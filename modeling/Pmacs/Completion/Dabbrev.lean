/-
  The words of a buffer that dabbrev offers (completion_framework.rs).

  * `wordSpans`: the runs of word bytes, found one after the other (`mem_wordSpans`).
  * `dabbrevProvider`: those in the window around the cursor that start with the prefix.
  * `dabbrevProvider_nearest`: they are runs of the whole buffer, the nearest first, each once;
    nothing is read but the window and the byte beyond each of its edges.
-/
import Pmacs.Window.TextView

namespace Pmacs.Completion

open Lib List

def dabbrevMax : ℕ := 64

/-! ## Words -/

/-- An ASCII letter, digit or `_`. -/
def isWordByte (b : UInt8) : Bool :=
  (48 ≤ b && b ≤ 57) || (65 ≤ b && b ≤ 90) || (97 ≤ b && b ≤ 122) || b == 95

def toAsciiLowercase (b : UInt8) : UInt8 := if 65 ≤ b && b ≤ 90 then b + 32 else b

/-- Where the first byte that passes is, from `from_` on. -/
def position (p : UInt8 → Bool) (bytes : Text) (from_ : ℕ) : ℕ :=
  from_ + (bytes.drop from_).findIdx p

/-- The calls of the iterator of `word_spans`, of which there are no more than bytes. -/
def wordSpansFrom (bytes : Text) : ℕ → ℕ → List (ℕ × ℕ)
  | 0, _ => []
  | fuel + 1, at_ =>
    let start := position isWordByte bytes at_
    if start < bytes.length then
      let stop := position (fun b => !isWordByte b) bytes start
      (start, stop) :: wordSpansFrom bytes fuel stop
    else []

def wordSpans (bytes : Text) : List (ℕ × ℕ) := wordSpansFrom bytes bytes.length 0

def wordAt (text : Text) (i : ℕ) : Bool := text[i]?.any isWordByte

/-- `[s, e)` is a run of word bytes that goes no further on either side. -/
structure IsRun (text : Text) (s e : ℕ) : Prop where
  lt : s < e
  word : ∀ i, s ≤ i → i < e → wordAt text i = true
  before : ∀ i, i + 1 = s → wordAt text i = false
  after : wordAt text e = false

variable {text bytes : Text} {s e s' e' at_ n fuel : ℕ}

theorem lt_of_isWordByte {b : UInt8} (h : isWordByte b = true) : b < 128 := by
  simp only [isWordByte, Bool.or_eq_true, Bool.and_eq_true, decide_eq_true_eq, beq_iff_eq,
    UInt8.le_iff_toNat_le, ← UInt8.toNat_inj] at h
  rw [UInt8.lt_iff_toNat_lt]
  simp at h ⊢
  omega

theorem lt_of_wordAt (h : wordAt text n = true) : n < text.length := by
  by_contra hn
  simp [wordAt, getElem?_eq_none (not_lt.1 hn)] at h

theorem IsRun.le (h : IsRun text s e) : e ≤ text.length := by
  have hlast := lt_of_wordAt (h.word (e - 1) (by have := h.lt; omega) (by have := h.lt; omega))
  omega

/-- Two runs are one, or do not even touch. -/
theorem IsRun.apart (h : IsRun text s e) (h' : IsRun text s' e') :
    (s = s' ∧ e = e') ∨ e < s' ∨ e' < s := by
  have hcut : ∀ {s e s' e'}, IsRun text s e → IsRun text s' e' → s < s' → e < s' := by
    intro s e s' e' h h' hlt; by_contra hle; have hword := h.word (s' - 1) (by omega) (by omega)
    rw [h'.before (s' - 1) (by omega)] at hword; cases hword
  have hends : ∀ {e e'}, IsRun text s e → IsRun text s e' → ¬e < e' := by
    intro e e' h h' hlt; have hword := h'.word e h.lt.le hlt; rw [h.after] at hword; cases hword
  rcases lt_trichotomy s s' with hlt | rfl | hlt
  · exact .inr (.inl (hcut h h' hlt))
  · exact .inl ⟨rfl, le_antisymm (not_lt.1 (hends h' h)) (not_lt.1 (hends h h'))⟩
  · exact .inr (.inr (hcut h' h hlt))

theorem position_spec (p : UInt8 → Bool) (h : at_ ≤ bytes.length) :
    at_ ≤ position p bytes at_ ∧ position p bytes at_ ≤ bytes.length ∧
      (∀ i, at_ ≤ i → i < position p bytes at_ → bytes[i]?.any p = false) ∧
      (position p bytes at_ < bytes.length → bytes[position p bytes at_]?.any p = true) := by
  have hle : (bytes.drop at_).findIdx p ≤ (bytes.drop at_).length := findIdx_le_length
  rw [length_drop] at hle; unfold position
  refine ⟨Nat.le_add_right _ _, by omega, fun i hi hlt => ?_, fun hlt => ?_⟩
  · obtain ⟨j, rfl⟩ := Nat.exists_eq_add_of_le hi
    have hj : j < (bytes.drop at_).findIdx p := by omega
    have hnot := not_of_lt_findIdx hj; rw [getElem_drop] at hnot
    rw [getElem?_eq_getElem (by omega)]; simpa using hnot
  have hfind : (bytes.drop at_).findIdx p < (bytes.drop at_).length := by rw [length_drop]; omega
  have hp := findIdx_getElem (w := hfind); rw [getElem_drop] at hp
  rw [getElem?_eq_getElem hlt]; exact hp

/-- From the end of a run on, or from the start, the runs are found in order. -/
theorem wordSpansFrom_spec (hat : at_ ≤ bytes.length) (hfuel : bytes.length ≤ fuel + at_)
    (hcut : ∀ i, i + 1 = at_ → wordAt bytes i = false ∨ wordAt bytes at_ = false) :
    (∀ s e, (s, e) ∈ wordSpansFrom bytes fuel at_ ↔ IsRun bytes s e ∧ at_ ≤ s) ∧
      (wordSpansFrom bytes fuel at_).Nodup := by
  induction fuel generalizing at_ with
  | zero =>
    refine ⟨fun s e => ⟨nofun, fun ⟨h, hs⟩ => ?_⟩, nodup_nil⟩
    have := h.lt; have := h.le; omega
  | succ fuel ih =>
    obtain ⟨hge, hle, hno, hyes⟩ := position_spec isWordByte hat
    rw [wordSpansFrom]; generalize position isWordByte bytes at_ = start at hge hle hno hyes ⊢
    dsimp only
    split
    · rename_i hlt; obtain ⟨hge', hle', hno', hyes'⟩ := position_spec (fun b => !isWordByte b) hle
      generalize position (fun b => !isWordByte b) bytes start = stop at hge' hle' hno' hyes' ⊢
      have hword : ∀ i, start ≤ i → i < stop → wordAt bytes i = true := by
        intro i hi hs; have hbyte := hno' i hi hs; rw [getElem?_eq_getElem (by omega)] at hbyte
        rw [wordAt, getElem?_eq_getElem (by omega)]; simpa using hbyte
      have hafter : wordAt bytes stop = false := by
        rcases Nat.lt_or_ge stop bytes.length with hs | hs
        · have hbyte := hyes' hs; rw [getElem?_eq_getElem hs] at hbyte
          rw [wordAt, getElem?_eq_getElem hs]; simpa using hbyte
        · simp [wordAt, getElem?_eq_none hs]
      have hpos : start < stop := by
        refine lt_of_le_of_ne hge' fun heq => ?_
        rw [← heq, wordAt, hyes hlt] at hafter; cases hafter
      have hrun : IsRun bytes start stop := ⟨hpos, hword, fun i hi => ?_, hafter⟩
      · obtain ⟨hmem, hnodup⟩ := ih hle' (by omega) fun i _ => .inr hafter
        refine ⟨fun s e => ?_, nodup_cons.2 ⟨fun h => ?_, hnodup⟩⟩
        · rw [mem_cons, hmem, Prod.mk.injEq]
          constructor
          · rintro (⟨rfl, rfl⟩ | ⟨h, hs⟩)
            · exact ⟨hrun, hge⟩
            · exact ⟨h, by omega⟩
          rintro ⟨h, hs⟩
          rcases hrun.apart h with ⟨rfl, rfl⟩ | hlt | hlt
          · exact .inl ⟨rfl, rfl⟩
          · exact .inr ⟨h, hlt.le⟩
          have hfirst := h.word s le_rfl h.lt
          rw [wordAt, hno s hs (by have := h.lt; omega)] at hfirst; cases hfirst
        · have := ((hmem _ _).1 h).2; omega
      rcases Nat.lt_or_ge i at_ with hi' | hi'
      · obtain rfl : start = at_ := by omega
        rcases hcut i hi with hcut | hcut
        · exact hcut
        · rw [wordAt, hyes hlt] at hcut; cases hcut
      · exact hno i hi' (by omega)
    · refine ⟨fun s e => ⟨nofun, fun ⟨h, hs⟩ => ?_⟩, nodup_nil⟩
      have hfirst := h.word s le_rfl h.lt
      rw [wordAt, hno s hs (by have := h.lt; have := h.le; omega)] at hfirst; cases hfirst

theorem mem_wordSpans : (s, e) ∈ wordSpans bytes ↔ IsRun bytes s e := by
  rw [wordSpans, (wordSpansFrom_spec (Nat.zero_le _) (Nat.le_add_right _ _) fun i hi => by omega).1]
  simp

theorem nodup_wordSpans : (wordSpans bytes).Nodup :=
  (wordSpansFrom_spec (Nat.zero_le _) (Nat.le_add_right _ _) fun i hi => by omega).2

/-! ## Offers -/

def place (cursor : ℕ) (word : ℕ × ℕ) : ℕ × Bool :=
  if word.2 ≤ cursor then (cursor - word.2, false)
  else if cursor ≤ word.1 then (word.1 - cursor, true)
  else (0, false)

/-- The order of `sort_by_key`. -/
def notAfter (a b : ℕ × Bool) : Bool := a.1 < b.1 || (a.1 = b.1 && (!a.2 || b.2))

def point (cursor : Option ℕ) (text : Text) : ℕ := min (cursor.getD text.length) text.length

/-- Whether a word of the window is one that is looked for. Word bytes are ASCII, so that every
    span is a `str`. -/
def isWanted (lower : Text → Text) (needed bytes : Text) (cutBefore cutAfter : Bool)
    (word : ℕ × ℕ) : Bool :=
  let token := slice bytes word.1 word.2
  let needle := lower needed
  !(word.1 = 0 && cutBefore || word.2 = bytes.length && cutAfter) &&
    !(token = needed || token.length < needle.length ||
      (token.take needle.length).map toAsciiLowercase ≠ needle.map toAsciiLowercase)

/-- `dabbrev_provider`: the labels of what it offers, the best first. `lower` is the library's
    `to_lowercase`, and `reach` the size of the window. -/
def dabbrevProvider (lower : Text → Text) (reach : ℕ) (cursor : Option ℕ) (needed text : Text) :
    List Text :=
  if needed = [] then []
  else
    let cursor := point cursor text
    let lo := cursor - reach
    let hi := min (cursor + reach) text.length
    let bytes := slice text lo hi
    let wordAt (i : ℕ) := (slice text i (i + 1)).head?.any isWordByte
    let cutBefore := decide (0 < lo) && wordAt (lo - 1)
    let cutAfter := decide (hi < text.length) && wordAt hi
    let found := ((wordSpans bytes).filter (isWanted lower needed bytes cutBefore cutAfter)).map
      fun word => (place cursor (lo + word.1, lo + word.2), slice bytes word.1 word.2)
    ((found.mergeSort fun a b => notAfter a.1 b.1).map (·.2)).eraseDups.take dabbrevMax

/-- What is documented of `to_lowercase`: on ASCII text it is bytewise, and it leaves no upper-case
    letter. -/
structure Lowers (lower : Text → Text) : Prop where
  ascii : ∀ text, (∀ b ∈ text, b < 128) → lower text = text.map toAsciiLowercase
  low : ∀ text, ∀ b ∈ lower text, toAsciiLowercase b = b

/-- A run of the buffer inside the window that starts with the prefix but for case, and is not
    the prefix. -/
structure Matches (lower : Text → Text) (lo hi : ℕ) (needed text : Text) (word : ℕ × ℕ) :
    Prop where
  run : IsRun text word.1 word.2
  lo_le : lo ≤ word.1
  le_hi : word.2 ≤ hi
  starts : lower needed <+: lower (slice text word.1 word.2)
  ne : slice text word.1 word.2 ≠ needed

/-- Nearer the cursor, or as near and before it. -/
def Nearer (a b : ℕ × Bool) : Prop := a.1 < b.1 ∨ a.1 = b.1 ∧ a.2 = false ∧ b.2 = true

/-- The runs that match, by distance, each text once, up to the limit. What is offered does not
    depend on the bytes outside the window and the one on either side of it: any text of the same
    length with those bytes is offered the same. -/
structure Nearest (lower : Text → Text) (reach : ℕ) (cursor : Option ℕ) (needed text : Text)
    (offered : Text → List Text) : Prop where
  runs : ∃ runs : List (ℕ × ℕ),
    (∀ word, word ∈ runs ↔ Matches lower (point cursor text - reach)
      (min (point cursor text + reach) text.length) needed text word) ∧
    runs.Pairwise (fun a b => Nearer (place (point cursor text) a) (place (point cursor text) b)) ∧
    offered text = (runs.map fun word => slice text word.1 word.2).eraseDups.take dabbrevMax
  reads : ∀ text', text'.length = text.length →
    slice text' (point cursor text - reach - 1)
        (min (point cursor text + reach) text.length + 1) =
      slice text (point cursor text - reach - 1)
        (min (point cursor text + reach) text.length + 1) → offered text' = offered text

variable {lower : Text → Text} {needed : Text} {lo hi cursor reach : ℕ} {a b : ℕ × ℕ}

theorem wordAt_slice :
    wordAt (slice text lo hi) n = (decide (lo + n < hi) && wordAt text (lo + n)) := by
  unfold wordAt slice
  rw [getElem?_drop, getElem?_take]
  by_cases h : lo + n < hi
  · simp [h]
  · simp [h]

theorem isRun_slice (hlo : lo ≤ hi) (hhi : hi ≤ text.length) :
    (IsRun (slice text lo hi) s e ∧ ¬(s = 0 ∧ 0 < lo ∧ wordAt text (lo - 1) = true) ∧
      ¬(e = hi - lo ∧ hi < text.length ∧ wordAt text hi = true)) ↔
      IsRun text (lo + s) (lo + e) ∧ lo + e ≤ hi := by
  have hword : ∀ i, wordAt (slice text lo hi) i = (decide (lo + i < hi) && wordAt text (lo + i)) :=
    fun i => wordAt_slice
  constructor
  · rintro ⟨h, hbefore, hafter⟩; have hle := h.le; rw [length_slice hhi] at hle
    obtain ⟨hlt, hin, hpre, hpost⟩ := h
    refine ⟨⟨by omega, fun i hge hlt => ?_, fun i hend => ?_, ?_⟩, by omega⟩
    · have hj := hword (i - lo); rw [Nat.add_sub_cancel' (by omega)] at hj; grind
    · have hj := hword (s - 1); grind
    · have hj := @lt_of_wordAt text (lo + e); grind
  rintro ⟨h, hle⟩; obtain ⟨hlt, hin, hpre, hpost⟩ := h
  refine ⟨⟨by omega, fun i hi hlt => ?_, fun i hi => ?_, ?_⟩, ?_, ?_⟩
  · grind
  · grind
  · grind
  · grind
  · grind

theorem place_injective (ha : IsRun text a.1 a.2) (hb : IsRun text b.1 b.2)
    (h : place cursor a = place cursor b) : a = b := by
  have hlt := ha.lt
  have hlt' := hb.lt
  rcases ha.apart hb with ⟨hs, he⟩ | hab | hab
  · exact Prod.ext hs he
  all_goals
    unfold place at h
    split_ifs at h <;> simp only [Prod.mk.injEq, and_true, and_false, reduceCtorEq] at h <;> omega

theorem nearer_of_notAfter {p q : ℕ × Bool} (h : notAfter p q = true) (hne : p ≠ q) :
    Nearer p q := by
  obtain ⟨p, x⟩ := p
  obtain ⟨q, y⟩ := q
  simp only [notAfter, Nearer, Bool.or_eq_true, Bool.and_eq_true, decide_eq_true_eq, ne_eq,
    Prod.mk.injEq] at h hne ⊢
  cases x <;> cases y <;> simp_all

theorem pairwise_notAfter {α : Type} (f : α → ℕ × Bool) (l : List α) :
    (l.mergeSort fun a b => notAfter (f a) (f b)).Pairwise fun a b =>
      notAfter (f a) (f b) = true := by
  refine pairwise_mergeSort (fun a b c => ?_) (fun a b => ?_) l
  · simp only [notAfter, Bool.or_eq_true, Bool.and_eq_true, decide_eq_true_eq]
    cases (f a).2 <;> cases (f b).2 <;> cases (f c).2 <;> simp <;> omega
  simp only [notAfter, Bool.or_eq_true, Bool.and_eq_true, decide_eq_true_eq]
  cases (f a).2 <;> cases (f b).2 <;> simp <;> omega

theorem slice_slice (h : lo + e ≤ hi) :
    slice (slice text lo hi) s e = slice text (lo + s) (lo + e) := by
  rw [slice, slice, slice, take_drop, drop_drop, take_take, min_eq_left h]

theorem head?_slice (h : lo ≤ n) (hn : n < hi) :
    (slice text n (n + 1)).head?.any isWordByte = wordAt (slice text lo hi) (n - lo) := by
  rw [wordAt_slice, Nat.add_sub_cancel' h, decide_eq_true hn, Bool.true_and, slice, head?_drop,
    getElem?_take_of_lt (Nat.lt_succ_self _), wordAt]

/-- Of a word of the window, told from the word alone. -/
theorem isWanted_iff (hlower : Lowers lower) (h : IsRun text s e) :
    (slice text s e ≠ needed ∧ (lower needed).length ≤ (slice text s e).length ∧
      ((slice text s e).take (lower needed).length).map toAsciiLowercase =
        (lower needed).map toAsciiLowercase) ↔
      lower needed <+: lower (slice text s e) ∧ slice text s e ≠ needed := by
  have hascii : ∀ b ∈ slice text s e, b < 128 := by
    intro b hb; obtain ⟨i, hi⟩ := List.mem_iff_getElem?.1 hb
    rw [slice, getElem?_drop, getElem?_take] at hi
    split at hi
    · have hword := h.word (s + i) (Nat.le_add_right _ _) ‹_›; rw [wordAt, hi] at hword
      exact lt_of_isWordByte hword
    · cases hi
  have hlow : (lower needed).map toAsciiLowercase = lower needed :=
    (map_congr_left (hlower.low needed)).trans (map_id' _)
  rw [hlower.ascii _ hascii, hlow, prefix_iff_eq_take, ← map_take]
  constructor
  · rintro ⟨hne, -, heq⟩; exact ⟨heq.symm, hne⟩
  rintro ⟨heq, hne⟩
  refine ⟨hne, ?_, heq.symm⟩; have hlen := congrArg length heq
  rw [length_map, length_take] at hlen; omega

theorem mem_wanted (hlower : Lowers lower) (hlo : lo ≤ hi) (hhi : hi ≤ text.length) :
    (s, e) ∈ (wordSpans (slice text lo hi)).filter (isWanted lower needed (slice text lo hi)
        (decide (0 < lo) && wordAt text (lo - 1)) (decide (hi < text.length) && wordAt text hi)) ↔
      Matches lower lo hi needed text (lo + s, lo + e) := by
  have hwant : isWanted lower needed (slice text lo hi) (decide (0 < lo) && wordAt text (lo - 1))
      (decide (hi < text.length) && wordAt text hi) (s, e) = true ↔
      (¬(s = 0 ∧ 0 < lo ∧ wordAt text (lo - 1) = true) ∧
        ¬(e = hi - lo ∧ hi < text.length ∧ wordAt text hi = true)) ∧
      slice (slice text lo hi) s e ≠ needed ∧
      (lower needed).length ≤ (slice (slice text lo hi) s e).length ∧
        ((slice (slice text lo hi) s e).take (lower needed).length).map toAsciiLowercase =
          (lower needed).map toAsciiLowercase := by
    simp [isWanted, length_slice hhi, and_assoc, imp_iff_not_or]
  rw [List.mem_filter, mem_wordSpans, hwant, ← and_assoc, isRun_slice hlo hhi]
  constructor
  · rintro ⟨⟨hrun, hle⟩, htoken⟩; rw [slice_slice hle] at htoken
    obtain ⟨hstarts, hne⟩ := (isWanted_iff hlower hrun).1 htoken
    exact ⟨hrun, Nat.le_add_right _ _, hle, hstarts, hne⟩
  intro h
  refine ⟨⟨h.run, h.le_hi⟩, ?_⟩; rw [slice_slice h.le_hi]
  exact (isWanted_iff hlower h.run).2 ⟨h.starts, h.ne⟩

/-- **What dabbrev offers** are the runs of the buffer that match, the nearest the cursor first;
    and it reads nothing but the window and the byte beyond each of its edges. -/
theorem dabbrevProvider_nearest (hlower : Lowers lower) (hneeded : needed ≠ [])
    (reach : ℕ) (cursor : Option ℕ) (text : Text) :
    Nearest lower reach cursor needed text (dabbrevProvider lower reach cursor needed) := by
  have hpoint : point cursor text ≤ text.length := Nat.min_le_right _ _
  have hlo : point cursor text - reach ≤ min (point cursor text + reach) text.length := by omega
  have hhi : min (point cursor text + reach) text.length ≤ text.length := Nat.min_le_right _ _
  constructor
  · have hword (i : ℕ) : (slice text i (i + 1)).head?.any isWordByte = wordAt text i := by
      rw [head?_slice (Nat.zero_le i) (Nat.lt_succ_self i), wordAt_slice, Nat.zero_add,
        Nat.sub_zero, decide_eq_true (Nat.lt_succ_self i), Bool.true_and]
    simp only [dabbrevProvider, if_neg hneeded, hword]
    generalize min (point cursor text + reach) text.length = hi at hlo hhi ⊢
    generalize point cursor text - reach = lo at hlo hhi ⊢; generalize point cursor text = cursor
    set words := (wordSpans (slice text lo hi)).filter (isWanted lower needed (slice text lo hi)
      (decide (0 < lo) && wordAt text (lo - 1)) (decide (hi < text.length) && wordAt text hi))
      with hwords
    have hmem : ∀ s e, (s, e) ∈ words ↔ Matches lower lo hi needed text (lo + s, lo + e) :=
      fun s e => mem_wanted hlower hlo hhi
    set runs := words.map fun word => (lo + word.1, lo + word.2) with hruns
    have hin : ∀ word, word ∈ runs ↔ Matches lower lo hi needed text word := by
      rintro ⟨s, e⟩; rw [hruns, List.mem_map]
      constructor
      · rintro ⟨⟨s, e⟩, hword, heq⟩; exact heq ▸ (hmem s e).1 hword
      intro h; obtain ⟨s, rfl⟩ := Nat.exists_eq_add_of_le h.lo_le
      obtain ⟨e, rfl⟩ := Nat.exists_eq_add_of_le (h.lo_le.trans h.run.lt.le)
      exact ⟨(s, e), (hmem s e).2 h, rfl⟩
    have hfound : words.map (fun word =>
        (place cursor (lo + word.1, lo + word.2), slice (slice text lo hi) word.1 word.2)) =
        runs.map fun word => (place cursor word, slice text word.1 word.2) := by
      rw [hruns, map_map]
      refine map_congr_left fun word hword => ?_
      rw [Function.comp_apply, slice_slice ((hmem word.1 word.2).1 hword).le_hi]
    have hnodup : runs.Nodup := by
      refine pairwise_map.2 ((nodup_wordSpans.filter _).imp fun hne h => hne ?_)
      rw [Prod.mk.injEq] at h; exact Prod.ext (Nat.add_left_cancel h.1) (Nat.add_left_cancel h.2)
    have hsort : (runs.map fun word => (place cursor word, slice text word.1 word.2)).mergeSort
        (fun a b => notAfter a.1 b.1) =
        (runs.mergeSort fun a b => notAfter (place cursor a) (place cursor b)).map
          fun word => (place cursor word, slice text word.1 word.2) :=
      (map_mergeSort (f := fun word => (place cursor word, slice text word.1 word.2))
        fun _ _ _ _ => rfl).symm
    have hperm := mergeSort_perm runs fun a b => notAfter (place cursor a) (place cursor b)
    refine ⟨_, fun word => hperm.mem_iff.trans (hin word), ?_, ?_⟩
    · have hsorted := pairwise_notAfter (place cursor) runs
      refine (hsorted.and (hperm.nodup_iff.2 hnodup)).imp_of_mem ?_; rintro a b ha hb ⟨hle, hne⟩
      have hrun : ∀ {word}, word ∈ runs.mergeSort _ → IsRun text word.1 word.2 :=
        fun h => ((hin _).1 (hperm.mem_iff.1 h)).run
      exact nearer_of_notAfter hle fun h => hne (place_injective (hrun ha) (hrun hb) h)
    · rw [hfound, hsort, map_map]; rfl
  · intro text' hlen heq
    have hsub (s e : ℕ) (hs : point cursor text - reach - 1 ≤ s) (hse : s ≤ e)
        (he : e ≤ min (point cursor text + reach) text.length + 1) :
        slice text' s e = slice text s e := by
      obtain ⟨s, rfl⟩ := Nat.exists_eq_add_of_le hs
      obtain ⟨e, rfl⟩ := Nat.exists_eq_add_of_le (hs.trans hse)
      rw [← slice_slice he, heq, slice_slice he]
    have hpoint' : point cursor text' = point cursor text := by rw [point, hlen, point]
    simp only [dabbrevProvider, hpoint', hlen]
    rw [hsub _ _ (by omega) hlo (by omega), hsub (_ - 1) _ le_rfl (by omega) (by omega),
      hsub (min _ _) _ (by omega) (by omega) le_rfl]

/-- On ASCII text, `to_lowercase` is bytewise. -/
theorem lowers_map : Lowers fun text => text.map toAsciiLowercase where
  ascii _ _ := rfl
  low _ b hb := by
    obtain ⟨b, -, rfl⟩ := List.mem_map.1 hb
    simp only [toAsciiLowercase, Bool.and_eq_true, decide_eq_true_eq]
    split_ifs with h h'
    · simp only [UInt8.le_iff_toNat_le, UInt8.toNat_add, UInt8.reduceToNat] at h h'; omega
    · rfl
    · rfl

/-- In `fob fox`, with the cursor behind `fob` and a window of three bytes, `fob` is offered for
    `Fo`. -/
theorem dabbrevProvider_nearest_fob :
    Nearest (fun text => text.map toAsciiLowercase) 3 (some 3) [70, 111]
      [102, 111, 98, 32, 102, 111, 120]
      (dabbrevProvider (fun text => text.map toAsciiLowercase) 3 (some 3) [70, 111]) :=
  dabbrevProvider_nearest lowers_map (by decide) 3 (some 3) _

end Pmacs.Completion
