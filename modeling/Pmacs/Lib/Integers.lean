/-
  Machine integers: their largest values, arithmetic that says when it would wrap,
  and decimal numbers as their parsers read them.
-/
import Mathlib

namespace Lib

def u32Max : ℕ := 2 ^ 32 - 1

def i32Max : ℕ := 2 ^ 31 - 1

def usizeMax : ℕ := 2 ^ 64 - 1

def u64Max : ℕ := 2 ^ 64 - 1

/-- Arithmetic that does not wrap: none where it would. -/
def checkedAdd (max a b : ℕ) : Option ℕ := if a + b ≤ max then some (a + b) else none

def checkedMul (max a b : ℕ) : Option ℕ := if a * b ≤ max then some (a * b) else none

def checkedSub (a b : ℕ) : Option ℕ := if b ≤ a then some (a - b) else none

variable {max a b : ℕ}

theorem checkedAdd_of_le (h : a + b ≤ max) : checkedAdd max a b = some (a + b) :=
  if_pos h

theorem checkedMul_of_le (h : a * b ≤ max) : checkedMul max a b = some (a * b) :=
  if_pos h

theorem checkedSub_of_le (h : b ≤ a) : checkedSub a b = some (a - b) := if_pos h

/-- The number a string of decimal digits denotes, an optional `+` before it:
    `none` without digits, on any other character, and past `max`. -/
def parseDecimal (max : ℕ) (s : List Char) : Option ℕ :=
  let digits := match s with
    | '+' :: ds => ds
    | ds => ds
  if digits.isEmpty || !digits.all Char.isDigit then none
  else
    let n := digits.foldl (fun n c => 10 * n + (c.toNat - '0'.toNat)) 0
    if n ≤ max then some n else none

variable {s : List Char}

theorem parseDecimal_eq_some {n : ℕ} (h : parseDecimal max s = some n) :
    ∃ digits, (s = digits ∨ s = '+' :: digits) ∧ digits ≠ [] ∧ digits.all Char.isDigit = true ∧
      n = Nat.ofDigitChars 10 digits 0 := by
  have hread : ∀ digits : List Char,
      (if digits.isEmpty || !digits.all Char.isDigit then none
        else if digits.foldl (fun n c => 10 * n + (c.toNat - '0'.toNat)) 0 ≤ max then
          some (digits.foldl (fun n c => 10 * n + (c.toNat - '0'.toNat)) 0) else none) = some n →
      digits ≠ [] ∧ digits.all Char.isDigit = true ∧ n = Nat.ofDigitChars 10 digits 0 := by
    intro digits h
    split at h
    · cases h
    rename_i hok
    simp only [Bool.or_eq_true, Bool.not_eq_true', not_or, Bool.not_eq_false,
      List.isEmpty_iff] at hok
    split at h
    · cases h; exact ⟨hok.1, hok.2, rfl⟩
    · cases h
  unfold parseDecimal at h
  split at h
  · rename_i digits; exact ⟨digits, .inr rfl, hread digits h⟩
  · exact ⟨s, .inl rfl, hread s h⟩

theorem parseDecimal_of_digits (hne : s ≠ [])
    (hd : s.all Char.isDigit = true) (hmax : Nat.ofDigitChars 10 s 0 ≤ max) :
    parseDecimal max s = some (Nat.ofDigitChars 10 s 0) := by
  unfold parseDecimal
  split
  · rw [List.all_cons, Bool.and_eq_true] at hd; exact absurd hd.1 (by decide)
  have hempty : s.isEmpty = false := by simpa using hne
  rw [Nat.ofDigitChars_eq_foldl] at hmax ⊢
  simp only [hempty, hd, Bool.not_true, Bool.or_self, Bool.false_eq_true, ↓reduceIte, if_pos hmax]

theorem toString_injective {m n : ℕ} (h : toString m = toString n) : m = n := by
  have hdigits : Nat.toDigits 10 m = Nat.toDigits 10 n := by
    rw [← Nat.toList_repr, ← Nat.toList_repr]; exact congrArg String.toList h
  have hm := Nat.ofDigitChars_toDigits (b := 10) (n := m) (by decide) (by decide)
  have hn := Nat.ofDigitChars_toDigits (b := 10) (n := n) (by decide) (by decide)
  rw [← hm, ← hn, hdigits]

end Lib
