/-
  Prefix-free maps on sequences, and association lists.

  * `PrefixFree m`: no sequence that the map holds extends another;
  * `prefixFree_update_iff`: what may be added to one;
  * `get?`, `put`, `remove`: a map as a list of entries, with what they hold at a key.
-/
import Mathlib

namespace Lib

open Function List

/-! ## Prefix-free maps -/

section
variable {κ β : Type*}

/-- No sequence that `m` holds is a proper prefix of another. -/
def PrefixFree (m : List κ → Option β) : Prop :=
  ∀ s t, m s ≠ none → m t ≠ none → s <+: t → s = t

/-- Neither of two sequences extends the other. -/
def Apart (s t : List κ) : Prop := ¬ s <+: t ∧ ¬ t <+: s

theorem PrefixFree.empty : PrefixFree (fun _ : List κ => (none : Option β)) :=
  fun _ _ h => absurd rfl h

theorem prefixFree_update_iff [DecidableEq κ] {m : List κ → Option β} (h : PrefixFree m)
    {s : List κ} {b : β} :
    PrefixFree (Function.update m s (some b)) ↔ ∀ t, m t ≠ none → t ≠ s → Apart s t := by
  constructor
  · intro hupdate t ht hts; have hs : Function.update m s (some b) s ≠ none := by simp
    have ht' : Function.update m s (some b) t ≠ none := by rwa [update_of_ne hts]
    exact ⟨fun hst => hts (hupdate s t hs ht' hst).symm, fun hts' => hts (hupdate t s ht' hs hts')⟩
  intro hapart t u ht hu htu
  by_cases hts : t = s
  · by_cases hus : u = s
    · rw [hts, hus]
    · rw [update_of_ne hus] at hu; exact absurd (hts ▸ htu) (hapart u hu hus).1
  rw [update_of_ne hts] at ht
  by_cases hus : u = s
  · exact absurd (hus ▸ htu) (hapart t ht hts).2
  · rw [update_of_ne hus] at hu; exact h t u ht hu htu

end

/-! ## Entries -/

section
variable {κ β : Type*} [DecidableEq κ]

def get? (k : κ) : List (κ × β) → Option β
  | [] => none
  | (k', b) :: es => if k' = k then some b else get? k es

def remove (k : κ) (es : List (κ × β)) : List (κ × β) := es.filter fun e => e.1 ≠ k

/-- Set the value at a key, in place when there is one. -/
def put (k : κ) (b : β) : List (κ × β) → List (κ × β)
  | [] => [(k, b)]
  | (k', b') :: es => if k' = k then (k, b) :: es else (k', b') :: put k b es

def DistinctKeys (es : List (κ × β)) : Prop := (es.map Prod.fst).Nodup

variable {k : κ} {es : List (κ × β)}

theorem get?_remove {k' : κ} : get? k' (remove k es) = if k' = k then none else get? k' es := by
  induction es with
  | nil => simp [remove, get?]
  | cons e es ih =>
    obtain ⟨k'', b⟩ := e; rw [remove, filter_cons] at *
    by_cases hk : k'' = k
    · subst hk
      simp only [ne_eq, not_true_eq_false, decide_false, Bool.false_eq_true, if_false, ih, get?]
      by_cases hk' : k' = k''
      · simp [hk']
      · simp [hk', Ne.symm hk']
    simp only [ne_eq, hk, not_false_eq_true, decide_true, if_true, get?, ih]
    by_cases hk' : k'' = k'
    · subst hk'; simp [hk]
    · simp [hk']

theorem get?_put {k' : κ} {b : β} :
    get? k' (put k b es) = if k' = k then some b else get? k' es := by
  induction es with
  | nil =>
    simp only [put, get?]
    by_cases hk : k' = k
    · simp [hk]
    · simp [hk, Ne.symm hk]
  | cons e es ih =>
    obtain ⟨k'', b''⟩ := e
    by_cases hk : k'' = k
    · subst hk; simp only [put, if_true, get?]
      by_cases hk' : k' = k''
      · simp [hk']
      · simp [hk', Ne.symm hk']
    simp only [put, hk, if_false, get?, ih]
    by_cases hk' : k'' = k'
    · subst hk'; simp [hk]
    · simp [hk']

theorem put_self {b : β} (h : get? k es = some b) : put k b es = es := by
  induction es with
  | nil => cases h
  | cons e es ih =>
    obtain ⟨k', b'⟩ := e; rw [get?] at h; rw [put]
    by_cases hk : k' = k
    · rw [if_pos hk] at h; cases h; rw [if_pos hk, hk]
    · rw [if_neg hk] at h; rw [if_neg hk, ih h]

theorem put_ne_nil {b : β} : put k b es ≠ [] := by
  cases es with
  | nil => simp [put]
  | cons e es =>
    obtain ⟨k', b'⟩ := e; rw [put]
    split_ifs <;> simp

theorem mem_keys_put {k' : κ} {b : β}
    (h : k' ∈ (put k b es).map Prod.fst) : k' = k ∨ k' ∈ es.map Prod.fst := by
  induction es with
  | nil => rw [put, map_singleton, mem_singleton] at h; exact .inl h
  | cons e es ih =>
    obtain ⟨k'', b''⟩ := e; rw [put] at h
    split_ifs at h with hk
    · rw [map_cons, mem_cons] at h
      rcases h with rfl | h
      · exact .inl rfl
      · exact .inr (mem_cons_of_mem _ h)
    rw [map_cons, mem_cons] at h
    rcases h with rfl | h
    · exact .inr mem_cons_self
    · exact (ih h).imp_right (mem_cons_of_mem _)

theorem mem_iff_get? (h : DistinctKeys es) {b : β} : (k, b) ∈ es ↔ get? k es = some b := by
  induction es with
  | nil => simp [get?]
  | cons e es ih =>
    obtain ⟨k', b'⟩ := e; rw [DistinctKeys, map_cons, nodup_cons] at h
    rw [mem_cons, get?, ih h.2, Prod.mk.injEq]
    by_cases hk : k' = k
    · subst hk
      have hnot : get? k' es ≠ some b := by
        intro hget; exact h.1 (mem_map.2 ⟨(k', b), (ih h.2).2 hget, rfl⟩)
      simp [hnot, eq_comm]
    · simp [hk, Ne.symm hk]

theorem DistinctKeys.remove (h : DistinctKeys es) (k : κ) :
    DistinctKeys (remove k es) := h.sublist (filter_sublist.map _)

theorem DistinctKeys.put (h : DistinctKeys es) (k : κ) (b : β) : DistinctKeys (put k b es) := by
  induction es with
  | nil => simp [DistinctKeys, Lib.put]
  | cons e es ih =>
    obtain ⟨k', b'⟩ := e; rw [DistinctKeys, map_cons, nodup_cons] at h; rw [Lib.put, DistinctKeys]
    split_ifs with hk
    · subst hk; exact nodup_cons.2 h
    rw [map_cons, nodup_cons]
    refine ⟨?_, ih h.2⟩; intro hmem
    rcases mem_keys_put hmem with rfl | hmem
    · exact hk rfl
    · exact h.1 hmem

end

end Lib
