/-
  Byte positions of the characters of a UTF-8 text.

  * `byteAt cs i`: where character `i` of `cs` starts in `encode cs`;
  * `encode_splice`: a splice of characters as one of bytes;
  * `isCharBoundary_iff`: the boundaries are where characters start, and the end;
    `isCharBoundary_splice_before`, `isCharBoundary_splice_after`: a splice leaves those before
    it and those after it.
-/
import Pmacs.Lib.Splice
import Pmacs.Lib.Utf8

namespace Lib

open List Option Nat

namespace Utf8

variable {cs : List Char} {i j pos : ℕ}

/-! ## Where a character starts -/

/-- Where character `i` of a text starts; the end past the last one. -/
def byteAt (cs : List Char) (i : ℕ) : ℕ := (encode (cs.take i)).length

@[simp]
theorem byteAt_zero (cs : List Char) : byteAt cs 0 = 0 := by
  simp [byteAt]

@[simp]
theorem byteAt_length : byteAt cs cs.length = (encode cs).length := by
  simp [byteAt]

theorem byteAt_cons_succ {c : Char} : byteAt (c :: cs) (i + 1) = c.utf8Size + byteAt cs i := by
  simp [byteAt, String.length_utf8EncodeChar]

theorem byteAt_add (k : ℕ) : byteAt cs (i + k) = byteAt cs i + byteAt (cs.drop i) k := by
  rw [byteAt, take_add, encode_append, length_append]
  rfl

theorem byteAt_mono (cs : List Char) (h : i ≤ j) : byteAt cs i ≤ byteAt cs j := by
  obtain ⟨k, rfl⟩ := Nat.exists_eq_add_of_le h
  rw [byteAt_add]
  exact le_add_right _ _

theorem byteAt_lt_succ (h : i < cs.length) : byteAt cs i < byteAt cs (i + 1) := by
  have hsize := (cs[i]).utf8Size_pos
  rw [byteAt_add, drop_eq_getElem_cons h, show 1 = 0 + 1 from rfl, byteAt_cons_succ]
  omega

theorem le_of_byteAt_le (hi : i ≤ cs.length) (h : byteAt cs i ≤ byteAt cs j) : i ≤ j := by
  by_contra hlt
  rw [Nat.not_le] at hlt
  have hstep := byteAt_lt_succ (Nat.lt_of_lt_of_le hlt hi)
  have hmono := byteAt_mono cs hlt
  rw [succ_eq_add_one] at hmono
  omega

theorem byteAt_inj (hi : i ≤ cs.length) (hj : j ≤ cs.length)
    (h : byteAt cs i = byteAt cs j) : i = j :=
  Nat.le_antisymm (le_of_byteAt_le hi (Nat.le_of_eq h)) (le_of_byteAt_le hj (Nat.le_of_eq h.symm))

theorem encode_take : encode (cs.take i) = (encode cs).take (byteAt cs i) := by
  conv_rhs => rw [← take_append_drop i cs, encode_append, take_append_drop]
  rw [byteAt, take_left]

theorem encode_drop : encode (cs.drop i) = (encode cs).drop (byteAt cs i) := by
  conv_rhs => rw [← take_append_drop i cs, encode_append, take_append_drop]
  rw [byteAt, drop_left]

theorem byteAt_le (cs : List Char) (i : ℕ) : byteAt cs i ≤ (encode cs).length := by
  rw [byteAt, encode_take, length_take]
  exact Nat.min_le_right _ _

/-- A text that starts as another does has its characters where the other has them. -/
theorem byteAt_of_take_eq {cs' : List Char} (h : cs.take i = cs'.take i) :
    byteAt cs i = byteAt cs' i := by
  rw [byteAt, h, byteAt]

theorem encode_splice (j : ℕ) (s : List Char) :
    encode (splice cs i j s) = splice (encode cs) (byteAt cs i) (byteAt cs j) (encode s) := by
  rw [splice, splice, encode_append, encode_append, encode_take, encode_drop]

theorem prefix_of_encode {s : List Char} (h : encode s <+: encode cs) : s <+: cs := by
  obtain ⟨rest, hrest⟩ := h
  have hcs := lossy_encode cs
  rw [← hrest, lossy_encode_append] at hcs
  exact ⟨lossy rest, hcs⟩

/-! ## The character that holds a byte -/

theorem unicodeAtByte_spec : ∀ {cs : List Char} {pos i : ℕ}, unicodeAtByte cs pos = some i →
      (i < cs.length ∧ byteAt cs i ≤ pos ∧ pos < byteAt cs (i + 1)) ∨
        (i = cs.length ∧ pos = (encode cs).length)
  | [], pos, i, h => by
    rw [unicodeAtByte] at h
    split_ifs at h with hpos
    cases h; exact .inr ⟨rfl, hpos⟩
  | c :: cs, pos, i, h => by
    rw [unicodeAtByte] at h
    split_ifs at h with hpos
    · cases h
      have hzero : byteAt (c :: cs) 0 ≤ pos := by exact zero_le _
      refine .inl ⟨succ_pos _, hzero, ?_⟩; rw [byteAt_cons_succ, byteAt_zero]; exact hpos
    obtain ⟨j, hj, rfl⟩ := map_eq_some_iff.1 h
    rcases unicodeAtByte_spec hj with ⟨hlt, hle, hbefore⟩ | ⟨hend, htotal⟩
    · refine .inl ⟨succ_lt_succ hlt, ?_, ?_⟩
      · rw [byteAt_cons_succ]; omega
      · rw [byteAt_cons_succ]; omega
    refine .inr ⟨by rw [hend, length_cons], ?_⟩
    rw [encode_cons, length_append, String.length_utf8EncodeChar]; omega

theorem unicodeAtByte_isSome :
    ∀ (cs : List Char) (pos : ℕ), pos ≤ (encode cs).length → ∃ i, unicodeAtByte cs pos = some i
  | [], pos, h => ⟨0, by rw [unicodeAtByte, if_pos (le_zero.1 h)]⟩
  | c :: cs, pos, h => by
    rw [unicodeAtByte]; rw [encode_cons, length_append, String.length_utf8EncodeChar] at h
    by_cases hpos : pos < c.utf8Size
    · exact ⟨0, if_pos hpos⟩
    obtain ⟨i, hi⟩ := unicodeAtByte_isSome cs (pos - c.utf8Size) (by omega)
    exact ⟨i + 1, by rw [if_neg hpos, hi, map_some]⟩

theorem unicodeAtByte_le (h : unicodeAtByte cs pos = some i) :
    i ≤ cs.length ∧ byteAt cs i ≤ pos ∧ pos ≤ (encode cs).length := by
  rcases unicodeAtByte_spec h with ⟨hlt, hle, hbefore⟩ | ⟨rfl, rfl⟩
  · exact ⟨Nat.le_of_lt hlt, hle, Nat.le_trans (Nat.le_of_lt hbefore) (byteAt_le cs _)⟩
  · exact ⟨Nat.le_refl _, byteAt_le cs _, Nat.le_refl _⟩

/-- The character that holds a byte is before another just when the byte is. -/
theorem unicodeAtByte_lt {u : ℕ} (hi : i ≤ cs.length)
    (h : unicodeAtByte cs pos = some u) : u < i ↔ pos < byteAt cs i := by
  rcases unicodeAtByte_spec h with ⟨_, hle, hbefore⟩ | ⟨rfl, rfl⟩
  · constructor
    · intro hu; exact Nat.lt_of_lt_of_le hbefore (byteAt_mono cs hu)
    intro hpos
    by_contra hu
    have := byteAt_mono cs (Nat.not_lt.1 hu); omega
  · have := byteAt_le cs i; omega

theorem unicodeAtByte_byteAt (hi : i ≤ cs.length) : unicodeAtByte cs (byteAt cs i) = some i := by
  obtain ⟨u, hu⟩ := unicodeAtByte_isSome cs _ (byteAt_le cs i)
  have hnot : ¬ u < i := by rw [unicodeAtByte_lt hi hu]; exact Nat.lt_irrefl _
  have hle : u ≤ i := by
    rcases Nat.lt_or_eq_of_le hi with hlt | rfl
    · exact le_of_lt_succ ((unicodeAtByte_lt hlt hu).2 (byteAt_lt_succ hlt))
    · exact (unicodeAtByte_le hu).1
  rw [hu, Nat.le_antisymm hle (Nat.not_lt.1 hnot)]

theorem length_cutAt (n : ℕ) (cs : List Char) : (encode (cutAt n cs).1).length ≤ n + 3 := by
  induction cs generalizing n with
  | nil => cases n <;> simp [cutAt]
  | cons c cs ih =>
    cases n with
    | zero => simp [cutAt]
    | succ n =>
      have hsize : c.utf8Size ≤ 4 := by
        rw [utf8Size_of_le]
        split_ifs <;> omega
      have hrest := ih (n + 1 - c.utf8Size)
      by_cases hle : c.utf8Size ≤ n + 1
      · simp only [cutAt, encode_cons, length_append, String.length_utf8EncodeChar]; omega
      have hstop : (cutAt (n + 1 - c.utf8Size) cs).1 = [] := by
        rw [Nat.sub_eq_zero_of_le (by omega)]; cases cs <;> rfl
      simp only [cutAt, hstop, encode_cons, encode_nil, length_append,
        String.length_utf8EncodeChar, length_nil]
      omega

/-! ## Boundaries -/

theorem isCont_head (c : Char) (rest : List UInt8) :
    ∃ b bs, String.utf8EncodeChar c ++ rest = b :: bs ∧ isCont b = false := by
  cases hbytes : String.utf8EncodeChar c ++ rest with
  | nil => exact absurd hbytes (encode_ne_nil)
  | cons b bs =>
    refine ⟨b, bs, rfl, ?_⟩; have hscan := scan_encode c rest; rw [hbytes] at hscan
    by_contra hcont
    have hlead : leadWidth b = 0 := by
      rw [Bool.not_eq_false, isCont, decide_eq_true_eq] at hcont
      rw [leadWidth, if_neg (by omega), if_pos (by omega)]
    simp only [scan, hlead] at hscan; cases hscan

theorem isCharBoundary_byteAt (hi : i ≤ cs.length) :
    isCharBoundary (encode cs) (byteAt cs i) = true := by
  rcases Nat.lt_or_eq_of_le hi with hlt | rfl
  · obtain ⟨b, bs, hbytes, hcont⟩ := isCont_head cs[i] (encode (cs.drop (i + 1)))
    have hdrop : (encode cs).drop (byteAt cs i) = b :: bs := by
      rw [← encode_drop, drop_eq_getElem_cons hlt, encode_cons, hbytes]
    have hget : (encode cs)[byteAt cs i]? = some b := by
      have hhead : ((encode cs).drop (byteAt cs i))[0]? = some b := by rw [hdrop]; rfl
      rwa [getElem?_drop] at hhead
    simp [isCharBoundary, hget, hcont]
  · simp [isCharBoundary]

theorem isCont_of_mem_tail {c : Char} {b : UInt8} (h : b ∈ (String.utf8EncodeChar c).tail) :
    isCont b = true := by
  have hcont : ∀ n, isCont (UInt8.ofNat (n % 0x40 + 0x80)) = true := by
    intro n; have hb := toNat_ofNat_add n 0x80 0x40 (by omega) (by omega)
    rw [isCont, decide_eq_true_eq, hb]; omega
  have hbytes : ∀ n, (String.utf8EncodeChar c).tail = n → b ∈ n := fun n hn => hn ▸ h
  by_cases h₁ : c.toNat ≤ 0x7F
  · have he : (String.utf8EncodeChar c).tail = [] := by exact congrArg List.tail (if_pos h₁)
    cases hbytes _ he
  by_cases h₂ : c.toNat ≤ 0x7FF
  · have he : (String.utf8EncodeChar c).tail = [UInt8.ofNat (c.toNat % 0x40 + 0x80)] := by
      exact congrArg List.tail ((if_neg h₁).trans (if_pos h₂))
    rw [mem_singleton.1 (hbytes _ he)]; exact hcont _
  by_cases h₃ : c.toNat ≤ 0xFFFF
  · have he : (String.utf8EncodeChar c).tail =
        [UInt8.ofNat (c.toNat / 64 % 0x40 + 0x80), UInt8.ofNat (c.toNat % 0x40 + 0x80)] := by
      exact congrArg List.tail ((if_neg h₁).trans ((if_neg h₂).trans (if_pos h₃)))
    rcases mem_cons.1 (hbytes _ he) with rfl | hmem
    · exact hcont _
    · rw [mem_singleton.1 hmem]; exact hcont _
  have he : (String.utf8EncodeChar c).tail =
      [UInt8.ofNat (c.toNat / 4096 % 0x40 + 0x80),
        UInt8.ofNat (c.toNat / 64 % 0x40 + 0x80), UInt8.ofNat (c.toNat % 0x40 + 0x80)] := by
    exact congrArg List.tail ((if_neg h₁).trans ((if_neg h₂).trans (if_neg h₃)))
  rcases mem_cons.1 (hbytes _ he) with rfl | hmem
  · exact hcont _
  rcases mem_cons.1 hmem with rfl | hmem
  · exact hcont _
  · rw [mem_singleton.1 hmem]; exact hcont _

theorem isCharBoundary_iff :
    isCharBoundary (encode cs) pos = true ↔ ∃ i ≤ cs.length, pos = byteAt cs i := by
  constructor
  · intro h
    by_cases hend : pos = (encode cs).length
    · exact ⟨cs.length, Nat.le_refl _, by rw [hend, byteAt_length]⟩
    by_cases hzero : pos = 0
    · exact ⟨0, zero_le _, by rw [hzero, byteAt_zero]⟩
    have hbyte : ∃ b, (encode cs)[pos]? = some b ∧ isCont b = false := by
      simp only [isCharBoundary, Bool.or_eq_true, beq_iff_eq, hzero, hend, false_or,
        Option.any_eq_true, Bool.not_eq_true'] at h
      exact h
    obtain ⟨b, hb, hcont⟩ := hbyte
    have hlt : pos < (encode cs).length := (List.getElem?_eq_some_iff.1 hb).1
    obtain ⟨i, hi⟩ := unicodeAtByte_isSome cs pos (Nat.le_of_lt hlt)
    rcases unicodeAtByte_spec hi with ⟨hlen, hle, hbefore⟩ | ⟨-, hall⟩
    · refine ⟨i, Nat.le_of_lt hlen, ?_⟩
      by_contra hne
      -- then the byte is one of the character's that holds it, and not the first
      obtain ⟨k, rfl⟩ : ∃ k, pos = byteAt cs i + (k + 1) := ⟨pos - byteAt cs i - 1, by omega⟩
      have hdrop : (encode cs).drop (byteAt cs i) =
          String.utf8EncodeChar cs[i] ++ encode (cs.drop (i + 1)) := by
        rw [← encode_drop, drop_eq_getElem_cons hlen, encode_cons]
      have hsize : byteAt cs (i + 1) = byteAt cs i + cs[i].utf8Size := by
        rw [byteAt_add, drop_eq_getElem_cons hlen, byteAt_cons_succ, byteAt_zero, Nat.add_zero]
      have hget : (String.utf8EncodeChar cs[i])[k + 1]? = some b := by
        have hleft : k + 1 < (String.utf8EncodeChar cs[i]).length := by
          rw [String.length_utf8EncodeChar]; omega
        have hdropped : ((encode cs).drop (byteAt cs i))[k + 1]? =
            (encode cs)[byteAt cs i + (k + 1)]? := getElem?_drop
        rw [hdrop, getElem?_append_left hleft] at hdropped; rw [hdropped, hb]
      have htail : b ∈ (String.utf8EncodeChar cs[i]).tail := by
        rw [← getElem?_tail] at hget; exact mem_of_getElem? hget
      rw [isCont_of_mem_tail htail] at hcont; cases hcont
    · exact absurd hall hend
  · rintro ⟨i, hi, rfl⟩; exact isCharBoundary_byteAt hi

variable {bs : List UInt8}

theorem isCharBoundary_zero : isCharBoundary bs 0 = true := rfl

theorem isCharBoundary_length : isCharBoundary bs bs.length = true := by
  simp [isCharBoundary]

theorem isCharBoundary_of_take_eq {cs' : List Char}
    (hpos : pos ≤ (encode cs').length) (htake : (encode cs).take pos = (encode cs').take pos)
    (h : isCharBoundary (encode cs) pos = true) : isCharBoundary (encode cs') pos = true := by
  obtain ⟨i, hi, rfl⟩ := isCharBoundary_iff.1 h
  rw [← encode_take] at htake
  have hprefix : cs.take i <+: cs' := prefix_of_encode (htake ▸ take_prefix _ _)
  have hlen : (cs.take i).length = i := by rw [length_take, Nat.min_eq_left hi]
  have hsame : cs'.take i = cs.take i := by
    have htake' := prefix_iff_eq_take.1 hprefix; rw [hlen] at htake'; exact htake'.symm
  rw [byteAt_of_take_eq hsame.symm]
  exact isCharBoundary_byteAt (by
    have := hprefix.length_le; omega)

theorem isCharBoundary_splice_before {s e : ℕ} {ins : List UInt8}
    (hpos : pos < s) (hs : s ≤ bs.length) (h : isCharBoundary bs pos = true) :
    isCharBoundary (splice bs s e ins) pos = true := by
  have hget : (splice bs s e ins)[pos]? = bs[pos]? := by
    rw [splice, append_assoc, getElem?_append_left, getElem?_take_of_lt hpos]; rw [length_take]
    omega
  have hne : pos ≠ bs.length := by omega
  simp only [isCharBoundary, hget, Bool.or_eq_true, beq_iff_eq, hne, or_false] at h ⊢
  exact h.imp_left .inl

theorem isCharBoundary_splice_after {s e : ℕ} (ins : List UInt8)
    (hse : s ≤ e) (he : e < pos) (hpos : pos ≤ bs.length) (h : isCharBoundary bs pos = true) :
    isCharBoundary (splice bs s e ins) (pos - (e - s) + ins.length) = true := by
  have hlength := length_splice ins hse (Nat.le_trans (Nat.le_of_lt he) hpos)
  have hget : (splice bs s e ins)[pos - (e - s) + ins.length]? = bs[pos]? := by
    have hleft : (bs.take s ++ ins).length = s + ins.length := by
      rw [length_append, length_take]; omega
    rw [splice, getElem?_append_right (by omega), hleft, getElem?_drop]
    congr 1
    omega
  have hzero : pos ≠ 0 := by omega
  simp only [isCharBoundary, hget, Bool.or_eq_true, beq_iff_eq, hzero, false_or] at h ⊢
  rcases h with hend | hbyte
  · exact .inl (.inr (by omega))
  · exact .inr hbyte

end Utf8

end Lib
