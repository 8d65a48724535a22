/-
  Cutting a set into parts.

  * `Tiles s parts`: the parts are pairwise disjoint and cover `s`;
  * `Tiles.append`: tilings of two disjoint sets tile their union.
-/
import Mathlib

namespace Lib

variable {α : Type*}

/-- Pairwise disjoint parts that cover `s`. -/
structure Tiles (s : Set α) (parts : List (Set α)) : Prop where
  disjoint : parts.Pairwise Disjoint
  cover : ∀ x, x ∈ s ↔ ∃ p ∈ parts, x ∈ p

namespace Tiles

theorem nil : Tiles (∅ : Set α) [] := ⟨.nil, by simp⟩

theorem single (s : Set α) : Tiles s [s] := ⟨by simp, by simp⟩

theorem subset {s p : Set α} {parts : List (Set α)} (h : Tiles s parts) (hp : p ∈ parts) : p ⊆ s :=
  fun x hx => (h.cover x).2 ⟨p, hp, hx⟩

theorem append {s t : Set α} {ps qs : List (Set α)} (hs : Tiles s ps) (ht : Tiles t qs)
    (hst : Disjoint s t) : Tiles (s ∪ t) (ps ++ qs) where
  disjoint := by
    rw [List.pairwise_append]
    refine ⟨hs.disjoint, ht.disjoint, ?_⟩; intro p hp q hq
    exact hst.mono (hs.subset hp) (ht.subset hq)
  cover := by
    intro x; simp only [Set.mem_union, hs.cover x, ht.cover x, List.mem_append]
    constructor
    · rintro (⟨p, hp, hx⟩ | ⟨p, hp, hx⟩)
      · exact ⟨p, .inl hp, hx⟩
      · exact ⟨p, .inr hp, hx⟩
    rintro ⟨p, hp | hp, hx⟩
    · exact .inl ⟨p, hp, hx⟩
    · exact .inr ⟨p, hp, hx⟩

end Tiles

end Lib
