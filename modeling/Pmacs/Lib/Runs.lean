/-
  Lists that are cut into runs, and lists of blocks of one length.

  * `Runs r G`: the lists of `G` are runs of related elements that do not go on into the next;
  * `Runs.splitBy_drop`: what is left of the runs when elements go at the front;
  * `getElem?_flatten_of_length`, `drop_flatten_of_length`: a place in blocks of one length.
-/
import Mathlib

namespace Lib

open List Option

variable {α : Type*} {r : α → α → Bool} {g : List α} {G : List (List α)}

/-! ## Runs -/

inductive Runs (r : α → α → Bool) : List (List α) → Prop
  | nil : Runs r []
  | cons {g : List α} {G : List (List α)} (hne : g ≠ []) (hchain : g.IsChain fun x y => r x y)
    (hapart : ∀ x ∈ g.getLast?, ∀ y ∈ G.flatten.head?, r x y = false) (h : Runs r G) :
    Runs r (g :: G)

theorem Runs.splitBy (h : Runs r G) : G.flatten.splitBy r = G := by
  induction h with
  | nil => rfl
  | cons hne hchain hapart _ ih =>
    rw [flatten_cons, splitBy_append hapart, splitBy_of_isChain hne hchain, ih]; rfl

theorem runs_of_isChain : ∀ {G : List (List α)}, [] ∉ G →
    (∀ g ∈ G, g.IsChain fun x y => r x y) →
    (G.IsChain fun a b => ∃ ha hb, r (a.getLast ha) (b.head hb) = false) → Runs r G
  | [], _, _, _ => .nil
  | g :: G, hne, hchain, hapart => by
    have hne' : [] ∉ G := fun h => hne (mem_cons_of_mem _ h)
    refine .cons (fun h => hne (h ▸ mem_cons_self)) (hchain g mem_cons_self) (fun x hx y hy => ?_)
      (runs_of_isChain hne' (fun g' hg' => hchain g' (mem_cons_of_mem _ hg')) hapart.tail)
    cases G with
    | nil => cases hy
    | cons b G =>
      obtain ⟨ha, hb, hr⟩ := (isChain_cons_cons.1 hapart).1
      rw [flatten_cons, head?_append_of_ne_nil _ hb] at hy
      rwa [← getLast_of_mem_getLast? hx, ← head_of_mem_head? hy]

theorem runs_splitBy (r : α → α → Bool) (l : List α) : Runs r (l.splitBy r) :=
  runs_of_isChain (nil_notMem_splitBy r l) (fun _ => isChain_of_mem_splitBy)
    (isChain_getLast_head_splitBy r l)

theorem Runs.tail (h : Runs r (g :: G)) : Runs r G := by
  cases h
  assumption

theorem Runs.right {G' : List (List α)} (h : Runs r (G ++ G')) : Runs r G' := by
  induction G with
  | nil => exact h
  | cons g G ih => exact ih h.tail

theorem forall_split_iff {P : List α → α → List α → Prop} {l : List α} :
    (∀ before own after, l = before ++ own :: after → P before own after) ↔
      ∀ k (h : k < l.length), P (l.take k) l[k] (l.drop (k + 1)) := by
  refine ⟨fun hall k h => hall _ _ _ (by simp), ?_⟩
  rintro hall before own after rfl
  simpa using hall before.length (by simp)

instance decidableForallSplit {P : List α → α → List α → Prop}
    [∀ before own after, Decidable (P before own after)] (l : List α) :
    Decidable (∀ before own after, l = before ++ own :: after → P before own after) :=
  decidable_of_iff' _ forall_split_iff

/-- The list that holds the element at place `k`. -/
theorem exists_block : ∀ {G : List (List α)} {k : ℕ}, k < G.flatten.length →
    ∃ before own after, G = before ++ own :: after ∧ before.flatten.length ≤ k ∧
      k < before.flatten.length + own.length
  | [], _, hk => by simp at hk
  | g :: G, k, hk => by
    by_cases hg : k < g.length
    · exact ⟨[], g, G, rfl, by simp, by simpa using hg⟩
    rw [flatten_cons, length_append] at hk
    obtain ⟨before, own, after, hG, hle, hlt⟩ := exists_block (G := G) (k := k - g.length) (by omega)
    refine ⟨g :: before, own, after, by rw [hG]; rfl, ?_, ?_⟩
    · rw [flatten_cons, length_append]; omega
    · rw [flatten_cons, length_append]; omega

/-- The elements of the runs that are left when the first `k` go. -/
def dropRuns : ℕ → List (List α) → List (List α)
  | _, [] => []
  | k, g :: G => if k < g.length then g.drop k :: G else dropRuns (k - g.length) G

theorem Runs.drop_cons (h : Runs r (g :: G)) {k : ℕ} (hk : k < g.length) :
    Runs r (g.drop k :: G) := by
  cases h with
  | cons hne hchain hapart h =>
    refine .cons (by simpa using hk) (hchain.drop k) (fun x hx y hy => hapart x ?_ y hy) h
    rwa [getLast?_drop, if_neg (not_le.2 hk)] at hx

theorem flatten_dropRuns : ∀ (k : ℕ) (G : List (List α)),
    (dropRuns k G).flatten = G.flatten.drop k
  | _, [] => by simp [dropRuns]
  | k, g :: G => by
    unfold dropRuns
    split_ifs with hk
    · rw [flatten_cons, flatten_cons, drop_append_of_le_length hk.le]
    · rw [flatten_dropRuns, flatten_cons, drop_append, drop_eq_nil_of_le (not_lt.1 hk), nil_append]

theorem Runs.dropRuns (h : Runs r G) (k : ℕ) : Runs r (dropRuns k G) := by
  induction h generalizing k with
  | nil => exact .nil
  | @cons g G hne hchain hapart h ih =>
    unfold Lib.dropRuns
    split_ifs with hk
    · exact Runs.drop_cons (.cons hne hchain hapart h) hk
    · exact ih _

/-- **The runs of what is left** are what is left of the runs. -/
theorem Runs.splitBy_drop (h : Runs r G) {k : ℕ} :
    (G.flatten.drop k).splitBy r = Lib.dropRuns k G := by
  rw [← flatten_dropRuns, (h.dropRuns k).splitBy]

/-! ## Blocks of one length -/

section
variable {n : ℕ}

/-- The place `i` of block `j`. -/
theorem getElem?_flatten_of_length (h : ∀ g ∈ G, g.length = n) {i j : ℕ} (hi : i < n)
    (hg : G[j]? = some g) : G.flatten[j * n + i]? = g[i]? := by
  induction G generalizing j with
  | nil => cases hg
  | cons b G ih =>
    have hb := h b mem_cons_self
    cases j with
    | zero =>
      obtain rfl : b = g := some.inj hg
      rw [flatten_cons, Nat.zero_mul, Nat.zero_add, getElem?_append_left (by omega)]
    | succ j =>
      rw [flatten_cons, getElem?_append_right (by rw [Nat.succ_mul]; omega), hb,
        Nat.succ_mul, Nat.add_right_comm, Nat.add_sub_cancel]
      exact ih (fun g' hg' => h g' (mem_cons_of_mem _ hg')) hg

theorem drop_flatten_of_length (h : ∀ g ∈ G, g.length = n) :
    ∀ j : ℕ, (G.drop j).flatten = G.flatten.drop (j * n) := by
  induction G with
  | nil => simp
  | cons g G ih =>
    intro j
    cases j with
    | zero => simp
    | succ j =>
      have hg := h g mem_cons_self
      have hfirst : g.drop (j * n + n) = [] := drop_eq_nil_of_le (by omega)
      rw [drop_succ_cons, ih fun g' hg' => h g' (mem_cons_of_mem _ hg'),
        flatten_cons, drop_append, hg, Nat.succ_mul, hfirst, nil_append, Nat.add_sub_cancel]

end

end Lib
