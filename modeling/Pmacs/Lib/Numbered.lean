/-
  Logs whose items carry consecutive numbers.

  * `numbered n l` numbers the items of `l` from `n` on;
  * `filter_numbered`: the items from a number on are those of a suffix;
  * `numbered_append`: appending to the log appends to the items.
-/
import Mathlib

namespace Lib

variable {α : Type*}

/-- The items of a list, numbered from `n` on. -/
def numbered : ℕ → List α → List (ℕ × α)
  | _, [] => []
  | n, a :: l => (n, a) :: numbered (n + 1) l

theorem numbered_append : ∀ (n : ℕ) (l l' : List α),
    numbered n (l ++ l') = numbered n l ++ numbered (n + l.length) l'
  | _, [], _ => rfl
  | n, a :: l, l' => by
    rw [List.cons_append, numbered, numbered_append, numbered, List.cons_append, List.length_cons,
      Nat.add_assoc, Nat.add_comm 1]

theorem map_snd_numbered : ∀ (n : ℕ) (l : List α), (numbered n l).map (·.2) = l
  | _, [] => rfl
  | n, a :: l => by rw [numbered, List.map_cons, map_snd_numbered]

/-- The items numbered from `b` on are a suffix, numbered as before. -/
theorem filter_numbered : ∀ (b n : ℕ) (l : List α),
    (numbered n l).filter (fun x => b ≤ x.1) = numbered (max n b) (l.drop (b - n))
  | _, _, [] => by simp [numbered]
  | b, n, a :: l => by
    rw [numbered, List.filter_cons, filter_numbered b (n + 1) l]
    by_cases h : b ≤ n
    · rw [if_pos (decide_eq_true h), show b - n = 0 by omega, show b - (n + 1) = 0 by omega,
        Nat.max_eq_left h, Nat.max_eq_left (by omega), List.drop_zero, List.drop_zero, numbered]
    rw [if_neg (by simpa using h), show b - n = b - (n + 1) + 1 by omega, List.drop_succ_cons,
      Nat.max_eq_right (by omega), Nat.max_eq_right (by omega)]

end Lib
