/-
  UTF-8 over byte lists, with the errors of a validating decoder.

  * `scan` reads the first character of a byte list, or says why it cannot: the
    bytes end inside a character (`incomplete`) or the first `n` bytes are no
    part of one (`invalid n`, the length a decoder replaces at once);
  * `encode` is the encoding of a text; `scan_encode` and `scan_eq_char`: `scan`
    reads a character exactly where its encoding stands;
  * `fromUtf8` and `validUpTo` are the strict decoder and the length of the
    valid prefix, `lossy` the decoder that puts U+FFFD for what is not UTF-8.
-/
import Mathlib

namespace Lib.Utf8

open List Option

variable {c : Char} {cs : List Char} {bs : List UInt8} {b b₀ b₁ : UInt8} {n : ℕ}

/-! ## The encoding -/

def encode (cs : List Char) : List UInt8 :=
  cs.flatMap String.utf8EncodeChar

@[simp]
theorem encode_nil : encode [] = [] := rfl

@[simp]
theorem encode_cons (c : Char) (cs : List Char) :
    encode (c :: cs) = String.utf8EncodeChar c ++ encode cs := rfl

@[simp]
theorem encode_append {cs : List Char} (cs' : List Char) :
    encode (cs ++ cs') = encode cs ++ encode cs' := by
  simp [encode]

/-! ## Scanning one character -/

/-- What stands at the start of a byte list. -/
inductive Scan where
  | empty
  | char (c : Char) (n : ℕ)
  | incomplete
  | invalid (n : ℕ)
deriving DecidableEq, Repr

/-- Whether `b` continues a character. -/
def isCont (b : UInt8) : Bool := decide (0x80 ≤ b.toNat ∧ b.toNat ≤ 0xBF)

/-- How many bytes a character that starts with `b` has; `0` when none does. -/
def leadWidth (b : UInt8) : ℕ :=
  if b.toNat < 0x80 then 1
  else if b.toNat < 0xC2 then 0
  else if b.toNat < 0xE0 then 2
  else if b.toNat < 0xF0 then 3
  else if b.toNat < 0xF5 then 4
  else 0

/-- The bounds on the byte after `b`: some leads exclude overlong forms,
    surrogates and what lies past the last character. -/
def secondLo (b : UInt8) : ℕ :=
  if b.toNat = 0xE0 then 0xA0 else if b.toNat = 0xF0 then 0x90 else 0x80

def secondHi (b : UInt8) : ℕ :=
  if b.toNat = 0xED then 0x9F else if b.toNat = 0xF4 then 0x8F else 0xBF

/-- Whether `b'` may follow the lead `b`. -/
def secondOk (b b' : UInt8) : Bool := decide (secondLo b ≤ b'.toNat ∧ b'.toNat ≤ secondHi b)

def value₂ (b₀ b₁ : UInt8) : ℕ := b₀.toNat % 0x20 * 64 + b₁.toNat % 0x40

def value₃ (b₀ b₁ b₂ : UInt8) : ℕ :=
  b₀.toNat % 0x10 * 4096 + b₁.toNat % 0x40 * 64 + b₂.toNat % 0x40

def value₄ (b₀ b₁ b₂ b₃ : UInt8) : ℕ :=
  b₀.toNat % 0x08 * 262144 + b₁.toNat % 0x40 * 4096 + b₂.toNat % 0x40 * 64 + b₃.toNat % 0x40

/-- The first character of a byte list, or what is wrong with it. -/
def scan : List UInt8 → Scan
  | [] => .empty
  | b₀ :: rest =>
    match leadWidth b₀ with
    | 1 => .char (Char.ofNat b₀.toNat) 1
    | 2 => match rest with
      | [] => .incomplete
      | b₁ :: _ => if secondOk b₀ b₁ then .char (Char.ofNat (value₂ b₀ b₁)) 2 else .invalid 1
    | 3 => match rest with
      | [] => .incomplete
      | b₁ :: rest =>
        if secondOk b₀ b₁ then
          match rest with
          | [] => .incomplete
          | b₂ :: _ => if isCont b₂ then .char (Char.ofNat (value₃ b₀ b₁ b₂)) 3 else .invalid 2
        else .invalid 1
    | 4 => match rest with
      | [] => .incomplete
      | b₁ :: rest =>
        if secondOk b₀ b₁ then
          match rest with
          | [] => .incomplete
          | b₂ :: rest =>
            if isCont b₂ then
              match rest with
              | [] => .incomplete
              | b₃ :: _ =>
                if isCont b₃ then .char (Char.ofNat (value₄ b₀ b₁ b₂ b₃)) 4 else .invalid 3
            else .invalid 2
        else .invalid 1
    | _ => .invalid 1

/-! ### Scanning an encoding -/

theorem utf8Size_of_le : c.utf8Size = if c.toNat ≤ 0x7F then 1 else if c.toNat ≤ 0x7FF then 2
      else if c.toNat ≤ 0xFFFF then 3 else 4 := by rfl

theorem toNat_bounds (c : Char) : c.toNat < 0xD800 ∨ 0xDFFF < c.toNat ∧ c.toNat < 0x110000 :=
  c.valid

variable {rest : List UInt8}

theorem leadWidth_iff (b : UInt8) : (leadWidth b = 1 ↔ b.toNat < 0x80) ∧
    (leadWidth b = 2 ↔ 0xC2 ≤ b.toNat ∧ b.toNat < 0xE0) ∧
    (leadWidth b = 3 ↔ 0xE0 ≤ b.toNat ∧ b.toNat < 0xF0) ∧
    (leadWidth b = 4 ↔ 0xF0 ≤ b.toNat ∧ b.toNat < 0xF5) := by
  rw [leadWidth]
  split_ifs <;> simp <;> omega

theorem scan_encode_one (h : c.toNat ≤ 0x7F) :
    scan (String.utf8EncodeChar c ++ rest) = .char c 1 := by
  have hb : (UInt8.ofNat c.toNat).toNat = c.toNat := by rw [UInt8.toNat_ofNat']; omega
  have he : String.utf8EncodeChar c = [UInt8.ofNat c.toNat] := by exact if_pos h
  have hw : leadWidth (UInt8.ofNat c.toNat) = 1 := (leadWidth_iff _).1.2 (by omega)
  simp [he, scan, hw, hb]

theorem toNat_ofNat_add (n k m : ℕ) (h : k + m ≤ 256) (hm : 0 < m) :
    (UInt8.ofNat (n % m + k)).toNat = n % m + k := by
  have := Nat.mod_lt n hm
  rw [UInt8.toNat_ofNat']
  omega

section
variable (h₁ : ¬ c.toNat ≤ 0x7F)
include h₁

theorem scan_encode_two (h₂ : c.toNat ≤ 0x7FF) :
    scan (String.utf8EncodeChar c ++ rest) = .char c 2 := by
  have he : String.utf8EncodeChar c =
      [UInt8.ofNat (c.toNat / 64 % 0x20 + 0xC0), UInt8.ofNat (c.toNat % 0x40 + 0x80)] := by
    exact (if_neg h₁).trans (if_pos h₂)
  have hb₀ := toNat_ofNat_add (c.toNat / 64) 0xC0 0x20 (by omega) (by omega)
  have hb₁ := toNat_ofNat_add c.toNat 0x80 0x40 (by omega) (by omega)
  rw [he]
  generalize UInt8.ofNat (c.toNat / 64 % 0x20 + 0xC0) = b₀ at *
  generalize UInt8.ofNat (c.toNat % 0x40 + 0x80) = b₁ at *
  have hw : leadWidth b₀ = 2 := (leadWidth_iff b₀).2.1.2 (by omega)
  have hs : secondOk b₀ b₁ = true := by
    refine decide_eq_true ?_; simp only [secondLo, secondHi]
    split_ifs <;> omega
  have hv : value₂ b₀ b₁ = c.toNat := by simp only [value₂]; omega
  simp [scan, hw, hs, hv]

theorem scan_encode_three (h₂ : ¬ c.toNat ≤ 0x7FF) (h₃ : c.toNat ≤ 0xFFFF) :
    scan (String.utf8EncodeChar c ++ rest) = .char c 3 := by
  have he : String.utf8EncodeChar c =
      [UInt8.ofNat (c.toNat / 4096 % 0x10 + 0xE0), UInt8.ofNat (c.toNat / 64 % 0x40 + 0x80),
        UInt8.ofNat (c.toNat % 0x40 + 0x80)] := by
    exact (if_neg h₁).trans ((if_neg h₂).trans (if_pos h₃))
  have hvalid := toNat_bounds c
  have hb₀ := toNat_ofNat_add (c.toNat / 4096) 0xE0 0x10 (by omega) (by omega)
  have hb₁ := toNat_ofNat_add (c.toNat / 64) 0x80 0x40 (by omega) (by omega)
  have hb₂ := toNat_ofNat_add c.toNat 0x80 0x40 (by omega) (by omega)
  rw [he]
  generalize UInt8.ofNat (c.toNat / 4096 % 0x10 + 0xE0) = b₀ at *
  generalize UInt8.ofNat (c.toNat / 64 % 0x40 + 0x80) = b₁ at *
  generalize UInt8.ofNat (c.toNat % 0x40 + 0x80) = b₂ at *
  have hw : leadWidth b₀ = 3 := (leadWidth_iff b₀).2.2.1.2 (by omega)
  have hs : secondOk b₀ b₁ = true := by
    refine decide_eq_true ?_; simp only [secondLo, secondHi]
    split_ifs <;> omega
  have hc : isCont b₂ = true := by simp only [isCont, decide_eq_true_eq]; omega
  have hv : value₃ b₀ b₁ b₂ = c.toNat := by simp only [value₃]; omega
  simp [scan, hw, hs, hc, hv]

theorem scan_encode_four (h₂ : ¬ c.toNat ≤ 0x7FF) (h₃ : ¬ c.toNat ≤ 0xFFFF) :
    scan (String.utf8EncodeChar c ++ rest) = .char c 4 := by
  have he : String.utf8EncodeChar c =
      [UInt8.ofNat (c.toNat / 262144 % 0x08 + 0xF0), UInt8.ofNat (c.toNat / 4096 % 0x40 + 0x80),
        UInt8.ofNat (c.toNat / 64 % 0x40 + 0x80), UInt8.ofNat (c.toNat % 0x40 + 0x80)] := by
    exact (if_neg h₁).trans ((if_neg h₂).trans (if_neg h₃))
  have hvalid := toNat_bounds c
  have hb₀ := toNat_ofNat_add (c.toNat / 262144) 0xF0 0x08 (by omega) (by omega)
  have hb₁ := toNat_ofNat_add (c.toNat / 4096) 0x80 0x40 (by omega) (by omega)
  have hb₂ := toNat_ofNat_add (c.toNat / 64) 0x80 0x40 (by omega) (by omega)
  have hb₃ := toNat_ofNat_add c.toNat 0x80 0x40 (by omega) (by omega)
  rw [he]
  generalize UInt8.ofNat (c.toNat / 262144 % 0x08 + 0xF0) = b₀ at *
  generalize UInt8.ofNat (c.toNat / 4096 % 0x40 + 0x80) = b₁ at *
  generalize UInt8.ofNat (c.toNat / 64 % 0x40 + 0x80) = b₂ at *
  generalize UInt8.ofNat (c.toNat % 0x40 + 0x80) = b₃ at *
  have hw : leadWidth b₀ = 4 := (leadWidth_iff b₀).2.2.2.2 (by omega)
  have hs : secondOk b₀ b₁ = true := by
    refine decide_eq_true ?_; simp only [secondLo, secondHi]
    split_ifs <;> omega
  have hc₂ : isCont b₂ = true := by simp only [isCont, decide_eq_true_eq]; omega
  have hc₃ : isCont b₃ = true := by simp only [isCont, decide_eq_true_eq]; omega
  have hv : value₄ b₀ b₁ b₂ b₃ = c.toNat := by simp only [value₄]; omega
  simp [scan, hw, hs, hc₂, hc₃, hv]

end

/-- **The scanner reads what the encoder writes.** -/
theorem scan_encode (c : Char) (rest : List UInt8) :
    scan (String.utf8EncodeChar c ++ rest) = .char c c.utf8Size := by
  rw [utf8Size_of_le]
  by_cases h₁ : c.toNat ≤ 0x7F
  · rw [if_pos h₁]; exact scan_encode_one h₁
  by_cases h₂ : c.toNat ≤ 0x7FF
  · rw [if_neg h₁, if_pos h₂]; exact scan_encode_two h₁ h₂
  by_cases h₃ : c.toNat ≤ 0xFFFF
  · rw [if_neg h₁, if_neg h₂, if_pos h₃]; exact scan_encode_three h₁ h₂ h₃
  · rw [if_neg h₁, if_neg h₂, if_neg h₃]; exact scan_encode_four h₁ h₂ h₃

/-! ### What a scanned character stands on -/

theorem toNat_ofNat_of_valid (h : n < 0xD800 ∨ 0xDFFF < n ∧ n < 0x110000) :
    (Char.ofNat n).toNat = n := by
  have hv : n.isValidChar := h
  rw [Char.ofNat, dif_pos hv]
  rfl

theorem ofNat_eq_of_toNat (h : n = b.toNat) : UInt8.ofNat n = b := by
  rw [h, UInt8.ofNat_toNat]

theorem encodeChar_ofNat_one (hw : leadWidth b₀ = 1) :
    String.utf8EncodeChar (Char.ofNat b₀.toNat) = [b₀] ∧ (Char.ofNat b₀.toNat).utf8Size = 1 := by
  have h0 := (leadWidth_iff b₀).1.1 hw
  have hv := toNat_ofNat_of_valid (n := b₀.toNat) (by omega)
  refine ⟨?_, by rw [utf8Size_of_le, hv, if_pos (by omega)]⟩
  have : String.utf8EncodeChar (Char.ofNat b₀.toNat) = [UInt8.ofNat (Char.ofNat b₀.toNat).toNat] := by
    exact if_pos (by rw [← Char.toNat, hv]; omega)
  rw [this, hv, UInt8.ofNat_toNat]

theorem encodeChar_ofNat_two (hw : leadWidth b₀ = 2) (hs : secondOk b₀ b₁ = true) :
    String.utf8EncodeChar (Char.ofNat (value₂ b₀ b₁)) = [b₀, b₁] ∧
      (Char.ofNat (value₂ b₀ b₁)).utf8Size = 2 := by
  obtain ⟨hlo, hhi⟩ := (leadWidth_iff b₀).2.1.1 hw
  have hs := of_decide_eq_true hs
  rw [secondLo, if_neg (by omega), if_neg (by omega), secondHi, if_neg (by omega),
    if_neg (by omega)] at hs
  have hn : value₂ b₀ b₁ = b₀.toNat % 0x20 * 64 + b₁.toNat % 0x40 := rfl
  have hv := toNat_ofNat_of_valid (n := value₂ b₀ b₁) (by omega)
  refine ⟨?_, by rw [utf8Size_of_le, hv, if_neg (by omega), if_pos (by omega)]⟩
  simp only [String.utf8EncodeChar]
  rw [← Char.toNat, hv]
  refine (if_neg (by omega)).trans ((if_pos (by omega)).trans ?_)
  rw [ofNat_eq_of_toNat (b := b₀) (by omega), ofNat_eq_of_toNat (b := b₁) (by omega)]

theorem encodeChar_ofNat_three {b₂ : UInt8} (hw : leadWidth b₀ = 3)
    (hs : secondOk b₀ b₁ = true) (hc : isCont b₂ = true) :
    String.utf8EncodeChar (Char.ofNat (value₃ b₀ b₁ b₂)) = [b₀, b₁, b₂] ∧
      (Char.ofNat (value₃ b₀ b₁ b₂)).utf8Size = 3 := by
  obtain ⟨hlo, hhi⟩ := (leadWidth_iff b₀).2.2.1.1 hw
  have hc := of_decide_eq_true hc
  have hs := of_decide_eq_true hs
  have hn : value₃ b₀ b₁ b₂ = b₀.toNat % 0x10 * 4096 + b₁.toNat % 0x40 * 64 + b₂.toNat % 0x40 := rfl
  -- overlong forms and surrogates are excluded by the bounds on the second byte
  have hb : 0x800 ≤ value₃ b₀ b₁ b₂ ∧ value₃ b₀ b₁ b₂ ≤ 0xFFFF ∧ 0x80 ≤ b₁.toNat ∧
      b₁.toNat ≤ 0xBF ∧ (value₃ b₀ b₁ b₂ < 0xD800 ∨ 0xDFFF < value₃ b₀ b₁ b₂) := by
    simp only [secondLo, secondHi] at hs
    split_ifs at hs <;> omega
  have hv := toNat_ofNat_of_valid (n := value₃ b₀ b₁ b₂) (by omega)
  refine ⟨?_, by rw [utf8Size_of_le, hv, if_neg (by omega), if_neg (by omega), if_pos (by omega)]⟩
  simp only [String.utf8EncodeChar]
  rw [← Char.toNat, hv]
  refine (if_neg (by omega)).trans ((if_neg (by omega)).trans ((if_pos (by omega)).trans ?_))
  rw [ofNat_eq_of_toNat (b := b₀) (by omega), ofNat_eq_of_toNat (b := b₁) (by omega),
    ofNat_eq_of_toNat (b := b₂) (by omega)]

theorem encodeChar_ofNat_four {b₂ b₃ : UInt8} (hw : leadWidth b₀ = 4)
    (hs : secondOk b₀ b₁ = true) (hc₂ : isCont b₂ = true) (hc₃ : isCont b₃ = true) :
    String.utf8EncodeChar (Char.ofNat (value₄ b₀ b₁ b₂ b₃)) = [b₀, b₁, b₂, b₃] ∧
      (Char.ofNat (value₄ b₀ b₁ b₂ b₃)).utf8Size = 4 := by
  obtain ⟨hlo, hhi⟩ := (leadWidth_iff b₀).2.2.2.1 hw
  have hc₂ := of_decide_eq_true hc₂
  have hc₃ := of_decide_eq_true hc₃
  have hs := of_decide_eq_true hs
  have hn : value₄ b₀ b₁ b₂ b₃ = b₀.toNat % 0x08 * 262144 + b₁.toNat % 0x40 * 4096 +
    b₂.toNat % 0x40 * 64 + b₃.toNat % 0x40 := rfl
  have hb : 0x10000 ≤ value₄ b₀ b₁ b₂ b₃ ∧ value₄ b₀ b₁ b₂ b₃ < 0x110000 ∧ 0x80 ≤ b₁.toNat ∧
      b₁.toNat ≤ 0xBF := by
    simp only [secondLo, secondHi] at hs
    split_ifs at hs <;> omega
  have hv := toNat_ofNat_of_valid (n := value₄ b₀ b₁ b₂ b₃) (by omega)
  refine ⟨?_, by rw [utf8Size_of_le, hv, if_neg (by omega), if_neg (by omega), if_neg (by omega)]⟩
  simp only [String.utf8EncodeChar]
  rw [← Char.toNat, hv]
  refine (if_neg (by omega)).trans ((if_neg (by omega)).trans ((if_neg (by omega)).trans ?_))
  rw [ofNat_eq_of_toNat (b := b₀) (by omega), ofNat_eq_of_toNat (b := b₁) (by omega),
    ofNat_eq_of_toNat (b := b₂) (by omega), ofNat_eq_of_toNat (b := b₃) (by omega)]

/-- **A scanned character stands on its encoding.** -/
theorem scan_eq_char (h : scan bs = .char c n) :
    n = c.utf8Size ∧ bs = String.utf8EncodeChar c ++ bs.drop n := by
  match bs with
  | [] => simp [scan] at h
  | b₀ :: rest =>
    -- only four of the branches answer a character
    simp only [scan] at h
    repeat' split at h
    all_goals cases h
    · obtain ⟨he, hsz⟩ := encodeChar_ofNat_one ‹_›; simp [he, hsz]
    · obtain ⟨he, hsz⟩ := encodeChar_ofNat_two ‹_› ‹_›; simp [he, hsz]
    · rename_i hw _ _ hs _ _ _ hc; obtain ⟨he, hsz⟩ := encodeChar_ofNat_three hw hs hc; simp [he, hsz]
    rename_i hw _ _ hs _ _ hc₂ _ _ _ hc₃
    obtain ⟨he, hsz⟩ := encodeChar_ofNat_four hw hs hc₂ hc₃; simp [he, hsz]

theorem scan_char_pos (h : scan bs = .char c n) : 0 < n ∧ n ≤ bs.length := by
  obtain ⟨rfl, hbs⟩ := scan_eq_char h
  refine ⟨c.utf8Size_pos, ?_⟩
  rw [hbs, length_append, String.length_utf8EncodeChar]
  omega

theorem scan_invalid_pos (h : scan bs = .invalid n) : 0 < n ∧ n ≤ bs.length := by
  match bs with
  | [] => simp [scan] at h
  | b₀ :: rest =>
    simp only [scan] at h
    repeat' split at h
    all_goals cases h
    all_goals simp

/-! ## Decoding -/

def validUpToFuel : ℕ → List UInt8 → ℕ
  | 0, _ => 0
  | fuel + 1, bs =>
    match scan bs with
    | .char _ n => n + validUpToFuel fuel (bs.drop n)
    | _ => 0

/-- `Utf8Error::valid_up_to`: the length of the longest valid prefix. -/
def validUpTo (bs : List UInt8) : ℕ := validUpToFuel bs.length bs

def decodeFuel : ℕ → List UInt8 → Option (List Char)
  | 0, bs => if bs.isEmpty then some [] else none
  | fuel + 1, bs =>
    match scan bs with
    | .empty => some []
    | .char c n => (decodeFuel fuel (bs.drop n)).map (c :: ·)
    | _ => none

/-- `str::from_utf8`: the text whose encoding `bs` is. -/
def fromUtf8 (bs : List UInt8) : Option (List Char) := decodeFuel bs.length bs

/-- The character a lossy decoder puts for what is not UTF-8. -/
def replacement : Char := Char.ofNat 0xFFFD

def lossyFuel : ℕ → List UInt8 → List Char
  | 0, _ => []
  | fuel + 1, bs =>
    match scan bs with
    | .empty => []
    | .char c n => c :: lossyFuel fuel (bs.drop n)
    | .incomplete => [replacement]
    | .invalid n => replacement :: lossyFuel fuel (bs.drop n)

/-- `String::from_utf8_lossy`. -/
def lossy (bs : List UInt8) : List Char := lossyFuel bs.length bs

theorem encode_ne_nil {c : Char} : String.utf8EncodeChar c ++ rest ≠ [] := by
  intro h
  have := congrArg List.length h
  have := c.utf8Size_pos
  simp only [length_append, String.length_utf8EncodeChar, length_nil] at *
  omega

theorem decodeFuel_encode :
    ∀ (fuel : ℕ) (cs : List Char), (encode cs).length ≤ fuel →
      decodeFuel fuel (encode cs) = some cs
  | 0, cs, h => by
    match cs with
    | [] => rfl
    | c :: cs =>
      have := c.utf8Size_pos
      simp only [encode_cons, length_append, String.length_utf8EncodeChar] at h; omega
  | fuel + 1, cs, h => by
    match cs with
    | [] => rfl
    | c :: cs =>
      have := c.utf8Size_pos
      simp only [encode_cons, length_append, String.length_utf8EncodeChar] at h
      rw [encode_cons, decodeFuel, scan_encode]
      simp [drop_left' (String.length_utf8EncodeChar c), decodeFuel_encode fuel cs (by omega)]

theorem fromUtf8_encode (cs : List Char) : fromUtf8 (encode cs) = some cs :=
  decodeFuel_encode _ cs (Nat.le_refl _)

theorem decodeFuel_eq_some :
    ∀ (fuel : ℕ) (bs : List UInt8) (cs : List Char), decodeFuel fuel bs = some cs → bs = encode cs
  | 0, bs, cs, h => by
    simp only [decodeFuel] at h
    split at h
    · rename_i hb
      simp_all
    · cases h
  | fuel + 1, bs, cs, h => by
    simp only [decodeFuel] at h
    split at h
    · rename_i hs
      have : bs = [] := by
        cases bs with
        | nil => rfl
        | cons b bs =>
          simp only [scan] at hs
          repeat' split at hs
          all_goals cases hs
      simp_all
    · rename_i c n hs; obtain ⟨cs', hcs', rfl⟩ := map_eq_some_iff.1 h
      obtain ⟨hn, hbs⟩ := scan_eq_char hs
      rw [encode_cons, ← decodeFuel_eq_some fuel _ _ hcs', ← hbs]
    · cases h

/-- **The strict decoder inverts the encoder**, and accepts nothing else. -/
theorem fromUtf8_eq_some : fromUtf8 bs = some cs ↔ bs = encode cs :=
  ⟨decodeFuel_eq_some _ bs cs, fun h => h ▸ fromUtf8_encode cs⟩

theorem encode_injective {cs' : List Char} (h : encode cs = encode cs') : cs = cs' := by
  have := fromUtf8_encode cs
  rw [h, fromUtf8_encode] at this
  exact (some.inj this).symm

theorem lossyFuel_encode_append :
    ∀ (fuel : ℕ) (cs : List Char) (bs : List UInt8), (encode cs ++ bs).length ≤ fuel →
      ∃ fuel', bs.length ≤ fuel' ∧ lossyFuel fuel (encode cs ++ bs) = cs ++ lossyFuel fuel' bs
  | fuel, [], bs, h => ⟨fuel, by simpa using h, rfl⟩
  | 0, c :: cs, bs, h => by
    have := c.utf8Size_pos
    simp only [encode_cons, length_append, String.length_utf8EncodeChar] at h; omega
  | fuel + 1, c :: cs, bs, h => by
    have := c.utf8Size_pos
    simp only [encode_cons, length_append, String.length_utf8EncodeChar] at h
    obtain ⟨fuel', hle, hrun⟩ := lossyFuel_encode_append fuel cs bs
      (by simp only [length_append]; omega)
    refine ⟨fuel', hle, ?_⟩; rw [encode_cons, append_assoc, lossyFuel, scan_encode]
    simp [drop_left' (String.length_utf8EncodeChar c), hrun]

theorem lossyFuel_eq :
    ∀ (fuel fuel' : ℕ) (bs : List UInt8), bs.length ≤ fuel → bs.length ≤ fuel' →
      lossyFuel fuel bs = lossyFuel fuel' bs
  | 0, 0, _, _, _ => rfl
  | 0, fuel' + 1, bs, h, _ => by
    have : bs = [] := eq_nil_of_length_eq_zero (by omega); simp [this, lossyFuel, scan]
  | fuel + 1, 0, bs, _, h => by
    have : bs = [] := eq_nil_of_length_eq_zero (by omega); simp [this, lossyFuel, scan]
  | fuel + 1, fuel' + 1, bs, h, h' => by
    simp only [lossyFuel]
    split
    · rfl
    · rename_i c n hs; have := scan_char_pos hs
      rw [lossyFuel_eq fuel fuel' _ (by simp only [length_drop]; omega)
        (by simp only [length_drop]; omega)]
    · rfl
    rename_i n hs; have := scan_invalid_pos hs
    rw [lossyFuel_eq fuel fuel' _ (by simp only [length_drop]; omega)
      (by simp only [length_drop]; omega)]

theorem lossy_encode_append (cs : List Char) (bs : List UInt8) :
    lossy (encode cs ++ bs) = cs ++ lossy bs := by
  obtain ⟨fuel', hle, hrun⟩ := lossyFuel_encode_append _ cs bs (Nat.le_refl _)
  rw [lossy, hrun, lossy, lossyFuel_eq fuel' bs.length bs hle (Nat.le_refl _)]

theorem lossy_encode (cs : List Char) : lossy (encode cs) = cs := by
  have := lossy_encode_append cs []
  simpa [lossy, lossyFuel] using this

theorem lossy_eq_of_fromUtf8 (h : fromUtf8 bs = some cs) : lossy bs = cs := by
  rw [fromUtf8_eq_some.1 h, lossy_encode]

theorem lossy_ne_nil (h : bs ≠ []) : lossy bs ≠ [] := by
  cases bs with
  | nil => exact absurd rfl h
  | cons b bs =>
    rw [lossy, length_cons, lossyFuel]
    split
    · rename_i hs; simp only [scan] at hs
      repeat' split at hs
      all_goals cases hs
    all_goals simp

/-! ## Cutting a text at a byte -/

/-- `str::is_char_boundary`, over the bytes of a text. -/
def isCharBoundary (bs : List UInt8) (i : ℕ) : Bool :=
  i == 0 || i == bs.length || (bs[i]?.any fun b => !isCont b)

/-- The index of the character that holds byte `pos` of a text, the text's length at
    its end, none past it. -/
def unicodeAtByte : List Char → ℕ → Option ℕ
  | [], pos => if pos = 0 then some 0 else none
  | c :: cs, pos =>
    if pos < c.utf8Size then some 0 else (unicodeAtByte cs (pos - c.utf8Size)).map (· + 1)

/-- Cut a text at the first character boundary at or past byte `n`. -/
def cutAt : ℕ → List Char → List Char × List Char
  | 0, cs => ([], cs)
  | _ + 1, [] => ([], [])
  | n + 1, c :: cs => (c :: (cutAt (n + 1 - c.utf8Size) cs).1, (cutAt (n + 1 - c.utf8Size) cs).2)

theorem cutAt_append (n : ℕ) (cs : List Char) : (cutAt n cs).1 ++ (cutAt n cs).2 = cs := by
  induction cs generalizing n with
  | nil => cases n <;> rfl
  | cons c cs ih =>
    cases n with
    | zero => rfl
    | succ n => rw [cutAt, cons_append, ih]

end Lib.Utf8
