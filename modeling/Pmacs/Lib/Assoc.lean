/-
  Hash maps that are iterated over: association lists with distinct keys
  (Mathlib's `AList`), with an operation on every value and a filter.

  * `mapVal f m` applies `f k` to the value at every key `k`;
  * `retain p m` keeps the entries that satisfy `p`;
  * `insertAll ps m` inserts entries one after the other;
  * `entries_perm_of_lookup`: the entries after inserting what is held.
-/
import Mathlib

namespace Lib

open AList List Option

variable {K V W : Type*}

/-- A map from `K` to `V` that can be iterated over. -/
abbrev Assoc (K V : Type*) := AList fun _ : K => V

namespace Assoc

/-- Apply `f k` to the value at every key `k`. -/
def mapVal (f : K → V → W) (m : Assoc K V) : Assoc K W :=
  ⟨m.entries.map fun e => ⟨e.1, f e.1 e.2⟩, by
    have : (m.entries.map fun e => (⟨e.1, f e.1 e.2⟩ : Sigma fun _ : K => W)).keys =
        m.entries.keys := by simp [List.keys, List.map_map, Function.comp_def]
    rw [List.NodupKeys, this]; exact m.nodupKeys⟩

def retain (p : K → V → Bool) (m : Assoc K V) : Assoc K V :=
  ⟨m.entries.filter fun e => p e.1 e.2,
    m.nodupKeys.sublist filter_sublist⟩

variable {m : Assoc K V}

theorem mem_entries_iff [DecidableEq K] {k : K} {v : V} :
    (⟨k, v⟩ : Sigma fun _ : K => V) ∈ m.entries ↔ m.lookup k = some v :=
  (mem_lookup_iff (s := m)).symm

section
variable [DecidableEq K]

@[simp]
theorem lookup_mapVal (f : K → V → W) (m : Assoc K V) (k : K) :
    (mapVal f m).lookup k = (m.lookup k).map (f k) := by
  ext w
  rw [← mem_entries_iff, map_eq_some_iff]
  simp only [mapVal, List.mem_map]
  constructor
  · rintro ⟨⟨k', v⟩, hv, heq⟩; cases heq; exact ⟨v, mem_entries_iff.1 hv, rfl⟩
  · rintro ⟨v, hv, rfl⟩; exact ⟨⟨k, v⟩, mem_entries_iff.2 hv, rfl⟩

@[simp]
theorem lookup_retain (p : K → V → Bool) (m : Assoc K V) (k : K) :
    (retain p m).lookup k = (m.lookup k).filter (p k) := by
  ext v
  rw [← mem_entries_iff, filter_eq_some_iff, ← mem_entries_iff]
  simp [retain, mem_filter]

omit [DecidableEq K] in
@[simp]
theorem keys_mapVal {f : K → V → W} : (mapVal f m).keys = m.keys := by
  simp [AList.keys, mapVal, List.keys, List.map_map, Function.comp_def]

theorem entries_insert (k : K) (v : V) (m : Assoc K V) :
    (m.insert k v).entries = ⟨k, v⟩ :: (m.erase k).entries := AList.entries_insert

theorem entries_perm_of_lookup {k : K} {v : V} (h : m.lookup k = some v) :
    m.entries.Perm (m.insert k v).entries := by
  rw [perm_ext_iff_of_nodup m.nodupKeys.nodup (m.insert k v).nodupKeys.nodup]
  rintro ⟨j, w⟩
  rw [mem_entries_iff, mem_entries_iff]
  by_cases hj : j = k
  · subst hj; rw [h, lookup_insert]
  · rw [lookup_insert_ne hj]

def insertAll (ps : List (K × V)) (m : Assoc K V) : Assoc K V :=
  ps.foldl (fun m p => m.insert p.1 p.2) m

theorem insertAll_append (ps qs : List (K × V)) :
    insertAll (ps ++ qs) m = insertAll qs (insertAll ps m) := foldl_append

theorem lookup_insertAll {ps : List (K × V)} (h : (ps.map Prod.fst).Nodup) (m : Assoc K V) (k : K)
    (v : V) : (insertAll ps m).lookup k = some v ↔
      (k, v) ∈ ps ∨ (k ∉ ps.map Prod.fst ∧ m.lookup k = some v) := by
  induction ps generalizing m with
  | nil => simp [insertAll]
  | cons p ps ih =>
    obtain ⟨k', v'⟩ := p; rw [map_cons, nodup_cons] at h; have hrest := ih h.2 (m.insert k' v')
    rw [insertAll, foldl_cons] at *; rw [hrest, mem_cons, map_cons, mem_cons]
    by_cases hk : k = k'
    · subst hk; have hnot : (k, v) ∉ ps := fun hmem => h.1 (mem_map.2 ⟨(k, v), hmem, rfl⟩)
      simp only [lookup_insert, some.injEq, Prod.mk.injEq, true_and]
      constructor
      · rintro (hmem | ⟨_, rfl⟩)
        · exact absurd hmem hnot
        · exact .inl (.inl rfl)
      rintro ((rfl | hmem) | ⟨hne, _⟩)
      · exact .inr ⟨h.1, rfl⟩
      · exact absurd hmem hnot
      · exact absurd (.inl True.intro) hne
    · simp [hk]

/-- Where every entry gives at most one value, and the value has the entry's key, the values
    with one key are what the entry at that key gives. -/
theorem filterMap_entries_filter (m : Assoc K V) (g : K → V → Option W) (key : W → K)
    (hkey : ∀ k v w, g k v = some w → key w = k) (k : K) :
    (m.entries.filterMap fun e => g e.1 e.2).filter (fun w => key w = k) =
      ((m.lookup k).bind (g k)).toList := by
  obtain ⟨l, hl⟩ := m
  change (l.filterMap fun e => g e.1 e.2).filter (fun w => key w = k) =
    ((l.dlookup k).bind (g k)).toList
  induction l with
  | nil => rfl
  | cons e l ih =>
    obtain ⟨k', v⟩ := e; rw [nodupKeys_cons] at hl; have ih := ih hl.2
    by_cases hk : k = k'
    · subst hk; have hnone : l.dlookup k = none := dlookup_eq_none.2 hl.1; rw [hnone] at ih
      cases hg : g k v with
      | none => simpa [hg] using ih
      | some w => simpa [hg, hkey k v w hg] using ih
    rw [dlookup_cons_ne _ _ hk, filterMap_cons]
    cases hg : g k' v with
    | none => simpa using ih
    | some w =>
      have hne : key w ≠ k := fun h => hk (h.symm.trans (hkey k' v w hg)); simpa [hne] using ih

end

end Assoc

end Lib
