/-
  What a lossy UTF-8 decoder makes of bytes, and decoding them piece by piece.

  * `Begins`: bytes some character's encoding starts with; `Decodes`: a text in which each
    encoded character stands for itself and each maximal run of other bytes for U+FFFD;
  * `decodes_lossy`: that is the text of `lossy`;
  * `scan_append`: more bytes change nothing at the start of a list that does not end inside a
    character.
-/
import Pmacs.Lib.BytePos
import Pmacs.Lib.Utf8

namespace Lib.Utf8

open List Option

variable {c : Char} {bs u : List UInt8} {n : ℕ}

/-! ## The text that bytes stand for -/

/-- Some character's encoding starts with `u`. -/
def Begins (u : List UInt8) : Prop := ∃ c, u <+: String.utf8EncodeChar c

/-- The text that bytes stand for: the characters whose encodings stand there, and for what is none
    U+FFFD, once for the longest run that begins a character and once for a byte that begins
    none. -/
inductive Decodes : List UInt8 → List Char → Prop where
  | nil : Decodes [] []
  | char (c : Char) {rest : List UInt8} {out : List Char} : Decodes rest out →
    Decodes (String.utf8EncodeChar c ++ rest) (c :: out)
  | bad {u rest : List UInt8} {out : List Char} :
    (∀ c, ¬ String.utf8EncodeChar c <+: u ++ rest) → (u.length = 1 ∨ u ≠ [] ∧ Begins u) →
    (∀ b, [b] <+: rest → ¬ Begins (u ++ [b])) → Decodes rest out →
    Decodes (u ++ rest) (replacement :: out)

/-! ## Scanning with more bytes behind -/

/-- More bytes change nothing at the start of a list that does not end inside a character. -/
theorem scan_append (hne : bs ≠ []) (h : scan bs ≠ .incomplete)
    (rest : List UInt8) : scan (bs ++ rest) = scan bs := by
  match bs, hne with
  | b₀ :: bs, _ =>
    rw [cons_append]; simp only [scan] at h ⊢
    split
    · rfl
    · rename_i hw
      cases bs with
      | nil => exact absurd (by simp only [hw]) h
      | cons b₁ bs => rfl
    · rename_i hw
      rcases bs with _ | ⟨b₁, _ | ⟨b₂, bs⟩⟩
      · exact absurd (by simp only [hw]) h
      · by_cases hs : secondOk b₀ b₁ = true
        · exact absurd (by simp only [hw, hs, if_true]) h
        · simp [hs]
      · rfl
    · rename_i hw
      rcases bs with _ | ⟨b₁, _ | ⟨b₂, _ | ⟨b₃, bs⟩⟩⟩
      · exact absurd (by simp only [hw]) h
      · by_cases hs : secondOk b₀ b₁ = true
        · exact absurd (by simp only [hw, hs, if_true]) h
        · simp [hs]
      · by_cases hs : secondOk b₀ b₁ = true
        · by_cases hc : isCont b₂ = true
          · exact absurd (by simp only [hw, hs, hc, if_true]) h
          · simp [hs, hc]
        · simp [hs]
      · rfl
    · rfl

theorem scan_ne_incomplete_of_char (h : scan bs = .char c n) : bs ≠ [] ∧ scan bs ≠ .incomplete := by
  refine ⟨?_, by rw [h]; exact nofun⟩
  rintro rfl
  cases h

theorem scan_ne_incomplete_of_invalid (h : scan bs = .invalid n) :
    bs ≠ [] ∧ scan bs ≠ .incomplete := by
  refine ⟨?_, by rw [h]; exact nofun⟩
  rintro rfl
  cases h

theorem eq_nil_of_scan_empty (h : scan bs = .empty) : bs = [] := by
  cases bs with
  | nil => rfl
  | cons b bs =>
    simp only [scan] at h
    repeat' split at h
    all_goals cases h

/-! ### The beginnings of characters -/

theorem secondOk_secondLo (b : UInt8) : secondOk b (UInt8.ofNat (secondLo b)) = true := by
  refine decide_eq_true ?_
  have hlo : (UInt8.ofNat (secondLo b)).toNat = secondLo b := by
    rw [UInt8.toNat_ofNat', secondLo]
    split_ifs <;> rfl
  rw [hlo, secondLo, secondHi]
  split_ifs <;> omega

/-- What ends inside a character begins one, and is at most three bytes long. -/
theorem begins_of_incomplete (h : scan bs = .incomplete) : bs ≠ [] ∧ bs.length ≤ 3 ∧ Begins bs := by
  have hcont : isCont 0x80 = true := by decide
  match bs with
  | [] => cases h
  | b₀ :: bs =>
    refine ⟨cons_ne_nil _ _, ?_⟩; have hok := secondOk_secondLo b₀; simp only [scan] at h
    -- a case for each byte that may be the first missing one
    repeat' split at h
    all_goals cases h
    · exact ⟨by simp, _, ⟨[_], (encodeChar_ofNat_two ‹_› hok).1.symm⟩⟩
    · exact ⟨by simp, _, ⟨[_, 0x80], (encodeChar_ofNat_three ‹_› hok hcont).1.symm⟩⟩
    · rename_i hw _ _ hs _
      exact ⟨by simp, _, ⟨[0x80], (encodeChar_ofNat_three hw hs hcont).1.symm⟩⟩
    · exact ⟨by simp, _, ⟨[_, 0x80, 0x80], (encodeChar_ofNat_four ‹_› hok hcont hcont).1.symm⟩⟩
    · rename_i hw _ _ hs _
      exact ⟨by simp, _, ⟨[0x80, 0x80], (encodeChar_ofNat_four hw hs hcont hcont).1.symm⟩⟩
    rename_i hw _ _ hs _ _ hc _
    exact ⟨by simp, _, ⟨[0x80], (encodeChar_ofNat_four hw hs hc hcont).1.symm⟩⟩

/-- What is no part of a character: one byte, or the beginning of one, of which the next byte is no
    continuation. -/
theorem begins_of_invalid (h : scan bs = .invalid n) : (n = 1 ∨ Begins (bs.take n)) ∧
      (n < bs.length → scan (bs.take (n + 1)) = .invalid n) := by
  have hcont : isCont 0x80 = true := by decide
  match bs with
  | [] => cases h
  | b₀ :: bs =>
    simp only [scan] at h
    -- a case for each byte that may be the wrong one
    repeat' split at h
    all_goals cases h
    · exact ⟨.inl rfl, fun _ => by simp [scan, *]⟩
    · rename_i hw _ _ hs _ _ _ hc
      exact ⟨.inr ⟨_, ⟨[0x80], (encodeChar_ofNat_three hw hs hcont).1.symm⟩⟩,
        fun _ => by simp [scan, hw, hs, hc]⟩
    · exact ⟨.inl rfl, fun _ => by simp [scan, *]⟩
    · rename_i hw _ _ hs _ _ hc _ _ _ hc'
      exact ⟨.inr ⟨_, ⟨[0x80], (encodeChar_ofNat_four hw hs hc hcont).1.symm⟩⟩,
        fun _ => by simp [scan, hw, hs, hc, hc']⟩
    · rename_i hw _ _ hs _ _ _ hc
      exact ⟨.inr ⟨_, ⟨[0x80, 0x80], (encodeChar_ofNat_four hw hs hcont hcont).1.symm⟩⟩,
        fun _ => by simp [scan, hw, hs, hc]⟩
    · exact ⟨.inl rfl, fun _ => by simp [scan, *]⟩
    refine ⟨.inl rfl, fun hlt => ?_⟩
    cases bs with
    | nil => exact absurd hlt (Nat.lt_irrefl 1)
    | cons b₁ bs =>
      show scan [b₀, b₁] = _
      simp only [scan]

/-! ## Decoding -/

theorem lossy_nil : lossy [] = [] := rfl

theorem lossy_of_char (h : scan bs = .char c n) : lossy bs = c :: lossy (bs.drop n) := by
  have hpos := scan_char_pos h
  obtain ⟨k, hk⟩ : ∃ k, bs.length = k + 1 := ⟨bs.length - 1, by omega⟩
  rw [lossy, hk, lossyFuel]
  simp only [h]
  rw [lossy, lossyFuel_eq k _ _ (by rw [length_drop]; omega) (Nat.le_refl _)]

theorem lossy_of_invalid (h : scan bs = .invalid n) :
    lossy bs = replacement :: lossy (bs.drop n) := by
  have hpos := scan_invalid_pos h
  obtain ⟨k, hk⟩ : ∃ k, bs.length = k + 1 := ⟨bs.length - 1, by omega⟩
  rw [lossy, hk, lossyFuel]
  simp only [h]
  rw [lossy, lossyFuel_eq k _ _ (by rw [length_drop]; omega) (Nat.le_refl _)]

theorem lossy_of_incomplete (h : scan bs = .incomplete) : lossy bs = [replacement] := by
  have hne := length_pos_iff.2 (begins_of_incomplete h).1
  obtain ⟨k, hk⟩ : ∃ k, bs.length = k + 1 := ⟨bs.length - 1, by omega⟩
  rw [lossy, hk, lossyFuel]
  simp only [h]

theorem scan_of_start (h : String.utf8EncodeChar c <+: bs) : scan bs = .char c c.utf8Size := by
  obtain ⟨rest, rfl⟩ := h
  exact scan_encode c rest

theorem Begins.shorten {v : List UInt8} (h : Begins v) (huv : u <+: v) : Begins u := by
  obtain ⟨c, hc⟩ := h
  exact ⟨c, huv.trans hc⟩

theorem not_begins_of_invalid (h : scan bs = .invalid n) : ¬ Begins bs := by
  rintro ⟨c, rest, hc⟩
  obtain ⟨hne, hscan⟩ := scan_ne_incomplete_of_invalid h
  have hread := scan_encode c []
  rw [append_nil, ← hc, scan_append hne hscan, h] at hread
  cases hread

/-- The bytes after what is no part of a character do not go on with it. -/
theorem not_begins_take (h : scan bs = .invalid n) {b : UInt8}
    (hb : [b] <+: bs.drop n) : ¬ Begins (bs.take n ++ [b]) := by
  obtain ⟨rest, hrest⟩ := hb
  have hlt : n < bs.length := by
    by_contra hle
    rw [drop_eq_nil_of_le (by omega)] at hrest; cases hrest
  have htake : bs.take n ++ [b] = bs.take (n + 1) := by
    have hget : bs[n]? = some b := by rw [← head?_drop, ← hrest]; rfl
    rw [take_add_one, hget, toList_some]
  rw [htake]
  exact not_begins_of_invalid ((begins_of_invalid h).2 hlt)

/-- **`lossy` decodes.** -/
theorem decodes_lossy (bs : List UInt8) : Decodes bs (lossy bs) := by
  induction hlen : bs.length using Nat.strongRecOn generalizing bs with
  | _ len ih =>
    cases hs : scan bs with
    | empty => rw [eq_nil_of_scan_empty hs]; exact .nil
    | char c n =>
      obtain ⟨hpos, hle⟩ := scan_char_pos hs
      have hrest := ih (bs.drop n).length (by rw [length_drop]; omega) _ rfl; rw [lossy_of_char hs]
      conv_lhs => rw [(scan_eq_char hs).2]
      exact .char c hrest
    | incomplete =>
      obtain ⟨hne, -, hbegins⟩ := begins_of_incomplete hs; rw [lossy_of_incomplete hs]
      conv_lhs => rw [← append_nil bs]
      refine .bad (fun c hc => ?_) (.inr ⟨hne, hbegins⟩) (fun b hb => ?_) .nil
      · rw [append_nil] at hc; rw [scan_of_start hc] at hs; cases hs
      · exact absurd (prefix_nil.1 hb) (cons_ne_nil _ _)
    | invalid n =>
      obtain ⟨hpos, hle⟩ := scan_invalid_pos hs
      have hrest := ih (bs.drop n).length (by rw [length_drop]; omega) _ rfl
      rw [lossy_of_invalid hs]
      conv_lhs => rw [← take_append_drop n bs]
      refine .bad (fun c hc => ?_) ?_ (fun b hb => not_begins_take hs hb) hrest
      · rw [take_append_drop] at hc; rw [scan_of_start hc] at hs; cases hs
      rcases (begins_of_invalid hs).1 with rfl | hbegins
      · exact .inl (by rw [length_take]; omega)
      · refine .inr ⟨?_, hbegins⟩; rw [← length_pos_iff, length_take]; omega

theorem lossy_of_bad {rest : List UInt8} (hnone : ∀ c, ¬ String.utf8EncodeChar c <+: u ++ rest)
    (hu : u.length = 1 ∨ u ≠ [] ∧ Begins u) (hmax : ∀ b, [b] <+: rest → ¬ Begins (u ++ [b])) :
    lossy (u ++ rest) = replacement :: lossy rest := by
  have hpos : 0 < u.length := by
    rcases hu with h | ⟨h, -⟩
    · omega
    · exact length_pos_iff.2 h
  cases hs : scan (u ++ rest) with
  | empty =>
    have hnil := congrArg List.length (eq_nil_of_scan_empty hs)
    rw [length_append, length_nil] at hnil; omega
  | char c n => exact absurd ⟨_, (scan_eq_char hs).2.symm⟩ (hnone c)
  | incomplete =>
    -- all bytes begin a character, so none is left behind the run
    have hrest : rest = [] := by
      cases rest with
      | nil => rfl
      | cons b rest =>
        refine absurd ?_ (hmax b ⟨rest, rfl⟩)
        exact (begins_of_incomplete hs).2.2.shorten ⟨rest, by rw [append_assoc]; rfl⟩
    rw [lossy_of_incomplete hs, hrest, lossy_nil]
  | invalid n =>
    obtain ⟨hn, hle⟩ := scan_invalid_pos hs; obtain ⟨hbegins, hnext⟩ := begins_of_invalid hs
    have hlen : n = u.length := by
      by_contra hne
      rcases Nat.lt_or_gt_of_ne hne with hlt | hgt
      · -- the run would go on past what begins a character
        have hlong : n < (u ++ rest).length := by rw [length_append]; omega
        have hu' : Begins u := by
          rcases hu with h | ⟨-, h⟩
          · omega
          · exact h
        refine not_begins_of_invalid (hnext hlong) (hu'.shorten ?_)
        rw [take_append_of_le_length hlt]; exact take_prefix _ _
      -- the run would stop before it does
      cases rest with
      | nil => rw [append_nil] at hle; omega
      | cons b rest =>
        refine hmax b ⟨rest, rfl⟩ ?_
        refine (hbegins.resolve_left (by omega)).shorten ?_
        obtain ⟨k, hk⟩ : ∃ k, n = u.length + (k + 1) := ⟨n - u.length - 1, by omega⟩
        rw [hk, take_length_add_append, take_succ_cons]
        exact ⟨rest.take k, by rw [append_assoc]; rfl⟩
    rw [lossy_of_invalid hs, hlen, drop_left]

theorem not_begins_append_head (hu : u ≠ []) {b : UInt8}
    (hb : isCont b = false) : ¬ Begins (u ++ [b]) := by
  rintro ⟨d, t, hd⟩
  have hcont : isCont b = true := by
    refine isCont_of_mem_tail (c := d) ?_; rw [← hd]
    cases u with
    | nil => exact absurd rfl hu
    | cons a u => simp
  rw [hb] at hcont
  exact absurd hcont Bool.false_ne_true

/-- **A character is read wherever its encoding stands**: nothing before it swallows it. -/
theorem lossy_append_encode (bs : List UInt8) (cs : List Char) :
    lossy (bs ++ encode cs) = lossy bs ++ cs := by
  induction hlen : bs.length using Nat.strongRecOn generalizing bs with
  | _ len ih =>
    cases hs : scan bs with
    | empty => rw [eq_nil_of_scan_empty hs, nil_append, lossy_encode]; rfl
    | char c n =>
      obtain ⟨hpos, hle⟩ := scan_char_pos hs; obtain ⟨hne, hend⟩ := scan_ne_incomplete_of_char hs
      rw [lossy_of_char ((scan_append hne hend _).trans hs), lossy_of_char hs,
        drop_append_of_le_length hle,
        ih (bs.drop n).length (by rw [length_drop]; omega) _ rfl, cons_append]
    | incomplete =>
      obtain ⟨hne, -, hbegins⟩ := begins_of_incomplete hs
      cases cs with
      | nil => rw [encode_nil, append_nil, append_nil]
      | cons c cs =>
        obtain ⟨b, rest, hbytes, hhead⟩ := isCont_head c (encode cs); rw [lossy_of_incomplete hs]
        have hmax : ∀ b', [b'] <+: encode (c :: cs) → ¬ Begins (bs ++ [b']) := by
          intro b' hb'; rw [encode_cons, hbytes] at hb'; obtain rfl := (cons_prefix_cons.1 hb').1
          exact not_begins_append_head hne hhead
        refine (lossy_of_bad (fun d hd => ?_) (.inr ⟨hne, hbegins⟩) hmax).trans
          (by rw [lossy_encode]; rfl)
        -- a character there would end inside `bs`, or go on from it
        have hb : [b] <+: encode (c :: cs) := ⟨rest, by rw [encode_cons, hbytes]; rfl⟩
        have hlong : bs ++ [b] <+: bs ++ encode (c :: cs) := (prefix_append_right_inj bs).2 hb
        rcases prefix_or_prefix_of_prefix hd hlong with hd | hd
        · rcases prefix_concat_iff.1 hd with heq | hin
          · exact hmax b hb ⟨d, by simp only [heq, prefix_refl]⟩
          · rw [scan_of_start hin] at hs; cases hs
        · exact hmax b hb ⟨d, hd⟩
    | invalid n =>
      obtain ⟨hpos, hle⟩ := scan_invalid_pos hs
      obtain ⟨hne, hend⟩ := scan_ne_incomplete_of_invalid hs
      rw [lossy_of_invalid ((scan_append hne hend _).trans hs), lossy_of_invalid hs,
        drop_append_of_le_length hle,
        ih (bs.drop n).length (by rw [length_drop]; omega) _ rfl, cons_append]

end Lib.Utf8
