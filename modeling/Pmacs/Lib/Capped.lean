/-
  Lists of bounded length that drop their oldest element for a new one.

  * `pushCapped cap l x`: `x` behind `l`, without `l`'s head when `l` is full;
  * `foldl_pushCapped`: pushing many drops as many from the front as do not fit.
-/
import Mathlib

namespace Lib

open List

variable {α : Type*}

/-- Push an element behind a list of at most `cap`. -/
def pushCapped (cap : ℕ) (l : List α) (x : α) : List α :=
  (if cap ≤ l.length then l.drop 1 else l) ++ [x]

theorem mem_pushCapped {cap : ℕ} {l : List α} {x y : α} (h : y ∈ pushCapped cap l x) :
    y ∈ l ∨ y = x := by
  rw [pushCapped, mem_append, mem_singleton] at h
  rcases h with h | h
  · split at h
    · exact .inl (mem_of_mem_drop h)
    · exact .inl h
  · exact .inr h

theorem forall₂_pushCapped {β : Type*} {r : α → β → Prop} {cap : ℕ} {l : List α} {l' : List β}
    {x : α} {y : β} (hl : Forall₂ r l l') (hxy : r x y) :
    Forall₂ r (pushCapped cap l x) (pushCapped cap l' y) := by
  rw [pushCapped, pushCapped, hl.length_eq]
  split
  · exact rel_append (forall₂_drop 1 hl) (.cons hxy .nil)
  · exact rel_append hl (.cons hxy .nil)

theorem pushCapped_eq (cap : ℕ) {l : List α} (hcap : 0 < cap) (hl : l.length ≤ cap) {x : α} :
    pushCapped cap l x = (l ++ [x]).drop (l.length + 1 - cap) := by
  rw [pushCapped]
  split_ifs with hfull
  · rw [show l.length + 1 - cap = 1 by omega, drop_append_of_le_length (by omega)]
  · rw [show l.length + 1 - cap = 0 by omega, drop_zero]

theorem length_pushCapped {cap : ℕ} {l : List α} (hcap : 0 < cap) (hl : l.length ≤ cap) (x : α) :
    (pushCapped cap l x).length = min (l.length + 1) cap := by
  rw [pushCapped_eq cap hcap hl, length_drop, length_append, length_singleton]
  omega

theorem foldl_pushCapped {cap : ℕ} (hcap : 0 < cap) :
    ∀ (xs : List α) {l : List α}, l.length ≤ cap →
      xs.foldl (pushCapped cap) l = (l ++ xs).drop (l.length + xs.length - cap)
  | [], l, hl => by
    rw [foldl_nil, append_nil, length_nil, show l.length + 0 - cap = 0 by omega, drop_zero]
  | x :: xs, l, hl => by
    have hlength := length_pushCapped hcap hl x
    rw [foldl_cons, foldl_pushCapped hcap xs (by omega), hlength,
      pushCapped_eq cap hcap hl, length_cons, ← drop_append_of_le_length
        (by rw [length_append, length_singleton]; omega), drop_drop, append_assoc, singleton_append]
    congr 1
    omega

end Lib
