/-
  The potential of a map with values in a finite order.

  * `rank` is how many values of a finite set are below one;
  * `potential` is the sum of the ranks of a map's values, an absent one counting the most:
    it drops where a value is lowered or added (`potential_update_lt`).
-/
import Mathlib

namespace Lib

open Finset

variable {K V : Type*} [LinearOrder V]

/-- How many values of a finite set are below one. -/
def rank (vs : Finset V) (v : V) : ℕ := (vs.filter (· < v)).card

variable {vs : Finset V}

theorem rank_lt_rank {v v' : V} (hv : v ∈ vs) (h : v < v') : rank vs v < rank vs v' := by
  refine card_lt_card (ssubset_iff_of_subset ?_ |>.2 ?_)
  · intro u hu; rw [mem_filter] at hu ⊢; exact ⟨hu.1, hu.2.trans h⟩
  refine ⟨v, mem_filter.2 ⟨hv, h⟩, ?_⟩; intro hmem
  exact lt_irrefl v (mem_filter.1 hmem).2

theorem rank_lt_card {v : V} (hv : v ∈ vs) : rank vs v < vs.card := by
  refine card_lt_card ((filter_ssubset).2 ⟨v, hv, ?_⟩)
  exact lt_irrefl v

theorem rank_le_card (v : V) : rank vs v ≤ vs.card := card_filter_le _ _

def rankOf (vs : Finset V) : Option V → ℕ
  | none => vs.card
  | some v => rank vs v

theorem rankOf_le_card (vs : Finset V) (o : Option V) : rankOf vs o ≤ vs.card := by
  cases o with
  | none => exact le_rfl
  | some v => exact rank_le_card v

def potential (ks : Finset K) (vs : Finset V) (f : K → Option V) : ℕ := ∑ k ∈ ks, rankOf vs (f k)

theorem potential_le (ks : Finset K) (f : K → Option V) :
    potential ks vs f ≤ ks.card * vs.card := by
  refine (sum_le_card_nsmul ks _ vs.card fun k _ => rankOf_le_card vs (f k)).trans ?_
  exact le_of_eq (smul_eq_mul _ _)

theorem potential_update_lt [DecidableEq K] {ks : Finset K} {f : K → Option V}
    {k : K} {v : V} (hk : k ∈ ks) (hv : v ∈ vs) (h : ∀ v', f k = some v' → v < v') :
    potential ks vs (Function.update f k (some v)) < potential ks vs f := by
  refine sum_lt_sum ?_ ⟨k, hk, ?_⟩
  · intro k' _
    by_cases hk' : k' = k
    · subst hk'; rw [Function.update_self]
      cases hf : f k' with
      | none => exact le_of_lt (rank_lt_card hv)
      | some v' => exact le_of_lt (rank_lt_rank hv (h v' hf))
    · rw [Function.update_of_ne hk']
  rw [Function.update_self]
  cases hf : f k with
  | none => exact rank_lt_card hv
  | some v' => exact rank_lt_rank hv (h v' hf)

end Lib
