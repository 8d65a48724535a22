/-
  Half-open ranges of numbers.

  * `inter a b`: what two ranges share, none when they share nothing;
  * `coalesce l`: the ranges of `l` sorted, and merged where they touch;
  * `mem_coalesce`: a number is in one of them when it is in a range of `l`.
-/
import Mathlib

namespace Lib

open List

structure Range where
  start : ℕ
  stop : ℕ
deriving DecidableEq, Repr

namespace Range

instance : Membership ℕ Range := ⟨fun r x => r.start ≤ x ∧ x < r.stop⟩

theorem mem_iff {r : Range} {x : ℕ} : x ∈ r ↔ r.start ≤ x ∧ x < r.stop := Iff.rfl

instance (x : ℕ) (r : Range) : Decidable (x ∈ r) := decidable_of_iff _ mem_iff.symm

def inter (a b : Range) : Option Range :=
  let start := max a.start b.start
  let stop := min a.stop b.stop
  if start < stop then some ⟨start, stop⟩ else none

theorem inter_eq_some {a b r : Range} : a.inter b = some r ↔
    max a.start b.start < min a.stop b.stop ∧ r = ⟨max a.start b.start, min a.stop b.stop⟩ := by
  unfold inter
  simp only
  split
  · rename_i h; simp [h, eq_comm]
  · rename_i h; simp [h]

theorem mem_of_inter_eq_some {a b r : Range} (h : a.inter b = some r) {x : ℕ} :
    x ∈ r ↔ x ∈ a ∧ x ∈ b := by
  obtain ⟨-, rfl⟩ := inter_eq_some.1 h
  simp only [mem_iff]
  omega

theorem not_mem_of_inter_eq_none {a b : Range} (h : a.inter b = none) {x : ℕ} (ha : x ∈ a) :
    x ∉ b := by
  unfold inter at h
  simp only [ite_eq_right_iff, reduceCtorEq, imp_false] at h
  simp only [mem_iff] at ha ⊢
  omega

/-! ## Merging -/

def merge : Range → List Range → List Range
  | last, [] => [last]
  | last, r :: rest =>
    if r.start ≤ last.stop then merge ⟨last.start, max last.stop r.stop⟩ rest
    else last :: merge r rest

/-- By where they start, and then by where they stop. -/
def Le (a b : Range) : Prop := a.start < b.start ∨ a.start = b.start ∧ a.stop ≤ b.stop

instance (a b : Range) : Decidable (Le a b) := inferInstanceAs (Decidable (_ ∨ _))

instance : Std.Total Le := ⟨fun a b => by unfold Le; omega⟩

instance : IsTrans Range Le := ⟨fun a b c => by unfold Le; omega⟩

/-- The ranges sorted, and merged where they touch. -/
def coalesce (l : List Range) : List Range :=
  match (l.filter fun r => r.start < r.stop).insertionSort Le with
  | [] => []
  | r :: rest => merge r rest

theorem mem_merge {x : ℕ} : ∀ {last : Range} {rest : List Range},
    (last :: rest).Pairwise Le → (∀ r ∈ last :: rest, r.start < r.stop) →
      ((∃ r ∈ merge last rest, x ∈ r) ↔ ∃ r ∈ last :: rest, x ∈ r)
  | last, [], _, _ => by simp [merge]
  | last, r :: rest, hsorted, hne => by
    rw [pairwise_cons, pairwise_cons] at hsorted; obtain ⟨hlast, hr, hrest⟩ := hsorted
    have hle : Le last r := hlast r mem_cons_self; have hlastne := hne last mem_cons_self
    have hrne := hne r (mem_cons_of_mem _ mem_cons_self); rw [merge]
    split
    · rename_i htouch
      have ih := @mem_merge x ⟨last.start, max last.stop r.stop⟩ rest
        (pairwise_cons.2 ⟨fun r' hr' => by
          have h₁ := hr r' hr'; have h₂ := hlast r' (mem_cons_of_mem _ hr')
          unfold Le at hle h₁ h₂ ⊢; simp only; omega, hrest⟩)
        fun r' hr' => by
          rcases mem_cons.1 hr' with rfl | hr'
          · simp only; omega
          · exact hne r' (mem_cons_of_mem _ (mem_cons_of_mem _ hr'))
      rw [ih]; simp only [mem_cons, exists_eq_or_imp]
      have hmem : x ∈ (⟨last.start, max last.stop r.stop⟩ : Range) ↔ x ∈ last ∨ x ∈ r := by
        unfold Le at hle; simp only [mem_iff]; omega
      rw [hmem, or_assoc]
    have ih := @mem_merge x r rest (pairwise_cons.2 ⟨hr, hrest⟩)
      fun r' hr' => hne r' (mem_cons_of_mem _ hr')
    simp only [mem_cons, exists_eq_or_imp] at ih ⊢; rw [ih]

/-- The ranges that `coalesce` merges. -/
theorem sorted_nonempty (l : List Range) :
    ((l.filter fun r => r.start < r.stop).insertionSort Le).Pairwise Le ∧
      ∀ r, r ∈ (l.filter fun r => r.start < r.stop).insertionSort Le ↔
        r ∈ l ∧ r.start < r.stop := by
  refine ⟨pairwise_insertionSort Le _, fun r => ?_⟩
  rw [(perm_insertionSort Le _).mem_iff, mem_filter, decide_eq_true_eq]

theorem mem_coalesce {l : List Range} {x : ℕ} : (∃ r ∈ coalesce l, x ∈ r) ↔ ∃ r ∈ l, x ∈ r := by
  obtain ⟨hsorted, hmem⟩ := sorted_nonempty l
  have hsame : (∃ r ∈ (l.filter fun r => r.start < r.stop).insertionSort Le, x ∈ r) ↔
      ∃ r ∈ l, x ∈ r := by
    constructor
    · rintro ⟨r, hr, hx⟩; exact ⟨r, ((hmem r).1 hr).1, hx⟩
    · rintro ⟨r, hr, hx⟩; exact ⟨r, (hmem r).2 ⟨hr, hx.1.trans_lt hx.2⟩, hx⟩
  rw [← hsame]
  unfold coalesce
  split
  · rename_i h; rw [h]
  · rename_i r rest h; rw [h] at hsorted hmem ⊢
    exact mem_merge hsorted fun r' hr' => ((hmem r').1 hr').2

/-- Each range stops before the ones after it start. -/
def Apart (l : List Range) : Prop := l.Pairwise fun a b => a.stop < b.start

theorem merge_apart : ∀ {last : Range} {rest : List Range}, (last :: rest).Pairwise Le →
    (∀ r ∈ last :: rest, r.start < r.stop) →
      Apart (merge last rest) ∧ ∀ r ∈ merge last rest, last.start ≤ r.start
  | last, [], _, _ => ⟨pairwise_singleton _ _, by simp [merge]⟩
  | last, r :: rest, hsorted, hne => by
    rw [pairwise_cons, pairwise_cons] at hsorted; obtain ⟨hlast, hr, hrest⟩ := hsorted
    have hle : Le last r := hlast r mem_cons_self; rw [merge]
    split
    · refine merge_apart (pairwise_cons.2 ⟨fun r' hr' => ?_, hrest⟩) fun r' hr' => ?_
      · have h₁ := hr r' hr'; have h₂ := hlast r' (mem_cons_of_mem _ hr'); unfold Le at hle h₁ h₂ ⊢
        simp only; omega
      rcases mem_cons.1 hr' with rfl | hr'
      · have := hne last mem_cons_self; simp only; omega
      · exact hne r' (mem_cons_of_mem _ (mem_cons_of_mem _ hr'))
    obtain ⟨hapart, hstart⟩ := merge_apart (pairwise_cons.2 ⟨hr, hrest⟩)
      fun r' hr' => hne r' (mem_cons_of_mem _ hr')
    refine ⟨pairwise_cons.2 ⟨fun r' hr' => ?_, hapart⟩, fun r' hr' => ?_⟩
    · have := hstart r' hr'; omega
    rcases mem_cons.1 hr' with rfl | hr'
    · exact le_rfl
    · have := hstart r' hr'; unfold Le at hle; omega

theorem coalesce_apart (l : List Range) : Apart (coalesce l) := by
  obtain ⟨hsorted, hmem⟩ := sorted_nonempty l
  unfold coalesce
  split
  · exact List.Pairwise.nil
  · rename_i r rest h; rw [h] at hsorted hmem
    exact (merge_apart hsorted fun r' hr' => ((hmem r').1 hr').2).1

end Range

end Lib
