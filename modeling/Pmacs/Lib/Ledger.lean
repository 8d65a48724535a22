/-
  What waits in a table, and how it is settled.

  * `parked f m` is all that the entries of a table hold, where one entry `v` holds `f v`;
    `parked_insert`, `parked_erase`, `parked_retain` and `parked_sweep` say what a change of
    the table puts into it and takes out of it;
  * `Balanced issued parked settled`: what was issued is parked or settled, and once.
-/
import Pmacs.Lib.Assoc

namespace Lib

open AList List Option Assoc

variable {K V J : Type*}

/-! ## What the entries of a table hold -/

def parked (f : V → List J) (m : Assoc K V) : List J := m.entries.flatMap fun e => f e.2

variable {f : V → List J} {m : Assoc K V}

variable {j : J}

theorem mem_parked [DecidableEq K] : j ∈ parked f m ↔ ∃ k v, m.lookup k = some v ∧ j ∈ f v := by
  rw [parked, mem_flatMap]
  constructor
  · rintro ⟨⟨k, v⟩, he, hj⟩; exact ⟨k, v, mem_entries_iff.1 he, hj⟩
  · rintro ⟨k, v, hlookup, hj⟩; exact ⟨⟨k, v⟩, mem_entries_iff.2 hlookup, hj⟩

variable {k : K}

section
variable [DecidableEq K]

theorem parked_erase {v : V} (h : m.lookup k = some v) :
    (parked f m).Perm (f v ++ parked f (m.erase k)) := by
  have hmem : k ∈ m.entries.keys := by have : k ∈ m := lookup_isSome.1 (by rw [h]; rfl); exact this
  obtain ⟨w, l₁, l₂, _, hentries, herase⟩ := exists_of_kerase hmem
  have hw : w = v := by
    have : m.lookup k = some w :=
      mem_entries_iff.1 (hentries ▸ mem_append_right l₁ mem_cons_self)
    exact some.inj (this.symm.trans h)
  have herase' : (m.erase k).entries = l₁ ++ l₂ := herase
  rw [parked, parked, hentries, herase', hw]
  simp only [flatMap_append, flatMap_cons]
  rw [← append_assoc, ← append_assoc]
  exact perm_append_comm.append_right _

theorem parked_erase_none (h : m.lookup k = none) : parked f (m.erase k) = parked f m := by
  have hmem : k ∉ m.entries.keys := lookup_eq_none.1 h
  have herase : (m.erase k).entries = m.entries := kerase_of_notMem_keys hmem
  rw [parked, herase, parked]

theorem parked_insert (v : V) (h : m.lookup k = none) :
    parked f (m.insert k v) = f v ++ parked f m := by
  have hinsert : parked f (m.insert k v) = f v ++ parked f (m.erase k) := rfl
  rw [hinsert, parked_erase_none h]

end

theorem parked_retain (p : K → V → Bool) (m : Assoc K V) : (parked f m).Perm
      ((m.entries.filter fun e => !p e.1 e.2).flatMap (fun e => f e.2) ++
        parked f (retain p m)) := by
  have hsplit := (filter_append_perm (fun e : Sigma fun _ : K => V => p e.1 e.2) m.entries).symm
  have hparts := hsplit.flatMap_right fun e => f e.2
  rw [flatMap_append] at hparts
  exact hparts.trans perm_append_comm

theorem flatMap_filter_of_nil {α : Type*} {g : α → List J} {p : α → Bool} {l : List α}
    (h : ∀ a ∈ l, p a = false → g a = []) : (l.filter p).flatMap g = l.flatMap g := by
  induction l with
  | nil => rfl
  | cons a l ih =>
    have ih := ih fun b hb => h b (mem_cons_of_mem _ hb)
    cases hp : p a with
    | true => rw [filter_cons_of_pos hp, flatMap_cons, flatMap_cons, ih]
    | false =>
      rw [filter_cons_of_neg (by simp [hp]), flatMap_cons, h a mem_cons_self hp, nil_append, ih]

/-- Where every entry of `q` gives up some of what it holds, and only entries that hold
    nothing are dropped, what was given up is no longer parked. -/
theorem parked_sweep {m' : Assoc K V} (q : K → Bool) {left : V → V} {gone : V → List J}
    (p : K → V → Bool) (hgone : ∀ v, (f v).Perm (gone v ++ f (left v)))
    (hdrop : ∀ k v, p k v = false → f v = [])
    (hm' : m' = retain p (mapVal (fun k v => if q k then left v else v) m)) :
    (parked f m).Perm
      ((m.entries.filter fun e => q e.1).flatMap (fun e => gone e.2) ++ parked f m') := by
  have hkept : parked f m' =
      m.entries.flatMap fun e => f (if q e.1 then left e.2 else e.2) := by
    rw [hm', parked]; simp only [retain, mapVal]
    rw [flatMap_filter_of_nil fun e _ hp => hdrop e.1 e.2 hp, flatMap_map]
  rw [hkept, parked]
  induction m.entries with
  | nil => exact .nil
  | cons e entries ih =>
    cases hq : q e.1 with
    | true =>
      rw [filter_cons_of_pos (by simp [hq])]; simp only [flatMap_cons, hq, if_true, append_assoc]
      refine ((hgone e.2).append ih).trans ?_; rw [append_assoc]
      refine List.Perm.append_left _ ?_; rw [← append_assoc, ← append_assoc]
      exact perm_append_comm.append_right _
    | false =>
      rw [filter_cons_of_neg (by simp [hq])]
      simp only [flatMap_cons, hq, Bool.false_eq_true, if_false]
      refine (ih.append_left (f e.2)).trans ?_; rw [← append_assoc, ← append_assoc]
      exact perm_append_comm.append_right _

theorem parked_key_unique [DecidableEq K] (h : (parked f m).Nodup)
    {k' : K} {v v' : V} (hk : m.lookup k = some v) (hj : j ∈ f v) (hk' : m.lookup k' = some v')
    (hj' : j ∈ f v') : k' = k := by
  by_contra hne
  have hpair := (nodup_flatMap.1 h).2
  have hsymm : Std.Symm (Function.onFun List.Disjoint fun e : Sigma fun _ : K => V => f e.2) :=
    ⟨fun _ _ hd _ hj hj' => hd hj' hj⟩
  have hdisj := hpair.forall (mem_entries_iff.2 hk') (mem_entries_iff.2 hk)
    fun heq => hne (congrArg Sigma.fst heq)
  exact hdisj hj' hj

/-! ## The balance -/

/-- What was issued is parked or settled, and once. -/
structure Balanced (issued waiting settled : List J) : Prop where
  all : (waiting ++ settled).Perm issued
  nodup : issued.Nodup

namespace Balanced

variable {issued waiting waiting' settled gone : List J}

theorem nil : Balanced ([] : List J) [] [] := ⟨.nil, nodup_nil⟩

variable (h : Balanced issued waiting settled)
include h

theorem settled_nodup : settled.Nodup :=
  (nodup_append.1 (h.all.nodup_iff.2 h.nodup)).2.1

theorem waiting_nodup : waiting.Nodup :=
  (nodup_append.1 (h.all.nodup_iff.2 h.nodup)).1

theorem waiting_iff : j ∈ waiting ↔ j ∈ issued ∧ j ∉ settled := by
  have hmem : j ∈ issued ↔ j ∈ waiting ∨ j ∈ settled := by rw [← h.all.mem_iff, mem_append]
  have hdisj := (nodup_append.1 (h.all.nodup_iff.2 h.nodup)).2.2
  constructor
  · intro hj; exact ⟨hmem.2 (.inl hj), fun hs => hdisj j hj j hs rfl⟩
  · rintro ⟨hj, hns⟩; exact (hmem.1 hj).resolve_right hns

theorem settle (hgone : waiting.Perm (gone ++ waiting')) :
    Balanced issued waiting' (settled ++ gone) := by
  refine ⟨?_, h.nodup⟩
  refine List.Perm.trans ?_ ((hgone.append_right settled).symm.trans h.all)
  have hswap : (waiting' ++ (settled ++ gone)).Perm (waiting' ++ (gone ++ settled)) :=
    perm_append_comm.append_left _
  have hmove : (waiting' ++ (gone ++ settled)).Perm (gone ++ waiting' ++ settled) := by
    rw [← append_assoc]; exact perm_append_comm.append_right settled
  exact hswap.trans hmove

theorem issue (hj : j ∉ issued) : Balanced (issued ++ [j]) (j :: waiting) settled := by
  refine ⟨?_, ?_⟩
  · exact (List.Perm.cons j h.all).trans (perm_append_singleton j issued).symm
  rw [nodup_append]
  refine ⟨h.nodup, nodup_singleton j, ?_⟩; intro a ha b hb heq
  exact hj (mem_singleton.1 hb ▸ heq ▸ ha)

end Balanced

end Lib
