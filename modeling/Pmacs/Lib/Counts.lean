/-
  Counting what is held, with hash maps.

  * `Counts`: how often each key is held, an absent key never; `get_up`, `get_down`.
  * `tally`: how many numbers there are, and their xor, which is the one left when there is one
    (`tally_eq_some`); `tallyAdd`, `tallyRemove` keep it (`tally_cons`, `tallyRemove_tallyAdd`).
-/
import Pmacs.Lib.Assoc

namespace Lib

open AList List Option

/-! ## Counts -/

/-- How often each key is held. A key that is not is absent. -/
structure Counts (K : Type) where
  map : Assoc K ℕ
  pos : ∀ k n, (⟨k, n⟩ : Sigma fun _ : K => ℕ) ∈ map.entries → 0 < n

namespace Counts

variable {K : Type} [DecidableEq K]

def empty : Counts K := ⟨∅, nofun⟩

variable (c : Counts K) (k : K)

def get : ℕ := (c.map.lookup k).getD 0

/-- `contains_key` -/
def has : Bool := (c.map.lookup k).isSome

def up : Counts K :=
  ⟨c.map.insert k (c.get k + 1), fun j n h => by
    rw [Assoc.mem_entries_iff] at h
    by_cases hj : j = k
    · subst hj; rw [lookup_insert, some.injEq] at h; omega
    · rw [lookup_insert_ne hj] at h; exact c.pos j n (Assoc.mem_entries_iff.2 h)⟩

def down : Counts K :=
  if h : c.get k ≤ 1 then
    ⟨c.map.erase k, fun j n h => by
      rw [Assoc.mem_entries_iff] at h
      by_cases hj : j = k
      · subst hj; rw [lookup_erase] at h; cases h
      · rw [lookup_erase_ne hj] at h; exact c.pos j n (Assoc.mem_entries_iff.2 h)⟩
  else
    ⟨c.map.insert k (c.get k - 1), fun j n hj => by
      rw [Assoc.mem_entries_iff] at hj
      by_cases hjk : j = k
      · subst hjk; rw [lookup_insert, some.injEq] at hj; omega
      · rw [lookup_insert_ne hjk] at hj; exact c.pos j n (Assoc.mem_entries_iff.2 hj)⟩

theorem has_iff : c.has k = true ↔ 0 < c.get k := by
  unfold has get
  cases h : c.map.lookup k with
  | none => simp
  | some n => simpa using c.pos k n (Assoc.mem_entries_iff.2 h)

theorem get_up {j : K} : (c.up k).get j = c.get j + if j = k then 1 else 0 := by
  unfold up get
  by_cases hj : j = k
  · subst hj; simp
  · simp [lookup_insert_ne hj, hj]

theorem get_down {j : K} : (c.down k).get j = c.get j - if j = k then 1 else 0 := by
  unfold down
  by_cases hj : j = k
  · subst hj
    split
    · simp only [get, lookup_erase, getD_none, if_true]; change 0 = c.get j - 1
      omega
    · simp [get]
  · split <;> simp [get, lookup_insert_ne hj, lookup_erase_ne hj]

end Counts

/-! ## Tallies -/

/-- How many numbers there are, and their xor; nothing when there are none. -/
def tally (ids : List ℕ) : Option (ℕ × ℕ) :=
  if ids = [] then none else some (ids.length, ids.foldr (· ^^^ ·) 0)

def tallyAdd (t : Option (ℕ × ℕ)) (i : ℕ) : ℕ × ℕ := ((t.getD (0, 0)).1 + 1, (t.getD (0, 0)).2 ^^^ i)

def tallyRemove (t : ℕ × ℕ) (i : ℕ) : ℕ × ℕ := (t.1 - 1, t.2 ^^^ i)

theorem tally_eq_some {ids : List ℕ} {t : ℕ × ℕ} :
    tally ids = some t ↔ ids ≠ [] ∧ t = (ids.length, ids.foldr (· ^^^ ·) 0) := by
  unfold tally
  split
  · simp [*]
  · simp [*, eq_comm]

theorem tally_cons (i : ℕ) (ids : List ℕ) : tally (i :: ids) = some (tallyAdd (tally ids) i) := by
  unfold tally tallyAdd
  cases ids with
  | nil => simp
  | cons j ids => simp [Nat.xor_comm]

theorem tally_perm {ids ids' : List ℕ} (h : ids.Perm ids') : tally ids = tally ids' := by
  have hfold : ids.foldr (· ^^^ ·) 0 = ids'.foldr (· ^^^ ·) 0 := by
    induction h with
    | nil => rfl
    | cons x _ ih => simp [ih]
    | swap x y l => simp [Nat.xor_left_comm]
    | trans _ _ ih ih' => exact ih.trans ih'
  have hnil : ids = [] ↔ ids' = [] := by rw [← length_eq_zero_iff, h.length_eq, length_eq_zero_iff]
  unfold tally
  rw [hfold, h.length_eq]
  simp [hnil]

theorem tallyRemove_tallyAdd {ids : List ℕ} {i : ℕ} :
    tallyRemove (tallyAdd (tally ids) i) i = (ids.length, ids.foldr (· ^^^ ·) 0) := by
  unfold tallyRemove tallyAdd tally
  split
  · simp [*]
  · simp

end Lib
