/-
  Kahn's topological sort: nodes come out when all that they depend on have.

  * `kahn` takes the nodes that are ready, the least first, counting down how many
    dependencies each other node still waits for;
  * `Preceded deps order`: in `order` every node stands behind its dependencies;
  * `topoSort_spec`: the order that comes out has no node twice and is so preceded;
    `topoSort_closed`: whose dependencies all come out comes out.
-/
import Mathlib

namespace Lib

open List

variable {K : Type*} [LinearOrder K]

variable {x : K} {deps : K → List K} {indegree : K → ℕ} {keys l order ready : List K}

def insertSorted (x : K) (l : List K) : List K := if x ∈ l then l else l.orderedInsert (· ≤ ·) x

@[simp]
theorem mem_insertSorted {y : K} : y ∈ insertSorted x l ↔ y = x ∨ y ∈ l := by
  unfold insertSorted
  split
  · rename_i hx
    constructor
    · exact .inr
    rintro (rfl | hy)
    · exact hx
    · exact hy
  · exact mem_orderedInsert _

/-- Count down those that depend on a node that came out; who waits for nothing more
    is ready. -/
def settle : List K → (K → ℕ) × List K → (K → ℕ) × List K
  | [], state => state
  | x :: succs, (indegree, ready) =>
    let d := indegree x - 1
    settle succs (Function.update indegree x d, if d = 0 then insertSorted x ready else ready)

/-- Take ready nodes one by one; the nodes in the order in which they come out. The
    number of nodes bounds the number of rounds. -/
def kahn (dependents : K → List K) : ℕ → (K → ℕ) → List K → List K → List K
  | 0, _, _, order => order
  | _ + 1, _, [], order => order
  | rounds + 1, indegree, next :: ready, order =>
    let state := settle (dependents next) (indegree, ready)
    kahn dependents rounds state.1 state.2 (order ++ [next])

/-- The order of the nodes `keys`, each with the list of nodes that it depends on. -/
def topoSort (keys : List K) (deps : K → List K) : List K :=
  kahn (fun y => keys.filter fun x => decide (y ∈ deps x)) keys.length (fun x => (deps x).length)
    (keys.filter fun x => decide ((deps x).length = 0)) []

/-- Every node of the list stands behind the nodes that it depends on. -/
def Preceded (deps : K → List K) (order : List K) : Prop :=
  ∀ before x after, order = before ++ x :: after → ∀ d ∈ deps x, d ∈ before

omit [LinearOrder K] in
theorem Preceded.concat (h : Preceded deps order)
    (hx : ∀ d ∈ deps x, d ∈ order) : Preceded deps (order ++ [x]) := by
  intro before y after heq d hd
  rcases eq_nil_or_concat after with rfl | ⟨after, z, rfl⟩
  · obtain ⟨rfl, hxy⟩ := append_inj' heq rfl; cases hxy; exact hx d hd
  rw [concat_eq_append, ← cons_append, ← append_assoc] at heq
  obtain ⟨rfl, -⟩ := append_inj' heq rfl; exact h before y after rfl d hd

omit [LinearOrder K] in
/-- Of nodes each of which depends on another of them, none comes out. -/
theorem Preceded.not_mem (h : Preceded deps order) {stuck : List K}
    (hstuck : ∀ x ∈ stuck, ∃ d ∈ deps x, d ∈ stuck) (hx : x ∈ order) : x ∉ stuck := by
  obtain ⟨before, after, horder⟩ := append_of_mem hx
  induction hn : before.length using Nat.strong_induction_on generalizing x before after with
  | _ n ih =>
    intro hmem
    obtain ⟨d, hd, hdstuck⟩ := hstuck x hmem
    obtain ⟨before', rest, rfl⟩ := append_of_mem (h before x after horder d hd)
    refine ih before'.length ?_ (horder ▸ by simp) before' _ (by rw [horder, append_assoc]; rfl) rfl hdstuck
    simp only [length_append, length_cons] at hn
    omega

/-- What the loop keeps. -/
structure KahnInv (keys : List K) (deps : K → List K) (indegree : K → ℕ) (ready order : List K) :
    Prop where
  nodup : order.Nodup
  subset : ∀ x ∈ order, x ∈ keys
  readySubset : ∀ x ∈ ready, x ∈ keys
  readyNew : ∀ x ∈ ready, x ∉ order
  readyNodup : ready.Nodup
  waits : ∀ x ∈ keys, indegree x = (deps x).countP fun d => decide (d ∉ order)
  readyDeps : ∀ x ∈ ready, ∀ d ∈ deps x, d ∈ order
  preceded : Preceded deps order

theorem settle_spec {succs : List K} (hsuccs : succs.Nodup) (indegree : K → ℕ) (ready : List K) :
    (∀ x, (settle succs (indegree, ready)).1 x = if x ∈ succs then indegree x - 1 else indegree x) ∧
      (∀ x, x ∈ (settle succs (indegree, ready)).2 ↔
        x ∈ ready ∨ (x ∈ succs ∧ indegree x - 1 = 0)) := by
  induction succs generalizing indegree ready with
  | nil => simp [settle]
  | cons y succs ih =>
    obtain ⟨hy, hsuccs⟩ := nodup_cons.1 hsuccs
    obtain ⟨hcount, hready⟩ := ih hsuccs (Function.update indegree y (indegree y - 1))
      (if indegree y - 1 = 0 then insertSorted y ready else ready)
    rw [settle]
    constructor
    · intro x; rw [hcount]
      by_cases hxy : x = y
      · subst hxy; simp [hy]
      · simp [hxy]
    intro x; rw [hready]
    by_cases hxy : x = y
    · subst hxy
      by_cases hzero : indegree x - 1 = 0
      · simp [hzero, hy]
      · simp [hzero, hy]
    by_cases hzero : indegree y - 1 = 0
    · simp [hzero, hxy]
    · simp [hzero, hxy]

theorem nodup_insertSorted (h : l.Nodup) : (insertSorted x l).Nodup := by
  unfold insertSorted
  split
  · exact h
  · rename_i hx; exact (perm_orderedInsert _ x l).nodup_iff.2 (nodup_cons.2 ⟨hx, h⟩)

theorem settle_nodup (succs : List K) (indegree : K → ℕ) (h : ready.Nodup) :
    (settle succs (indegree, ready)).2.Nodup := by
  induction succs generalizing indegree ready with
  | nil => exact h
  | cons x succs ih =>
    rw [settle]
    split
    · exact ih _ (nodup_insertSorted h)
    · exact ih _ h

theorem countP_waits (hl : l.Nodup) {next : K} (hnext : next ∉ order) :
    (l.countP fun d => decide (d ∉ order)) =
      (l.countP fun d => decide (d ∉ order ++ [next])) + if next ∈ l then 1 else 0 := by
  induction l with
  | nil => rfl
  | cons d l ih =>
    obtain ⟨hd, hl⟩ := nodup_cons.1 hl; rw [countP_cons, countP_cons, ih hl]
    by_cases hdn : d = next
    · subst hdn; simp [hnext, hd]
    by_cases hmem : next ∈ l
    · by_cases hdo : d ∈ order
      · simp [hdo, hmem]
      · simp [hdo, hdn, hmem]
    by_cases hdo : d ∈ order
    · simp [hdo, hmem, Ne.symm hdn]
    · simp [hdo, hdn, hmem, Ne.symm hdn]

theorem KahnInv.deps_mem (h : KahnInv keys deps indegree ready order) {d : K} (hx : x ∈ order)
    (hd : d ∈ deps x) : d ∈ order := by
  obtain ⟨before, after, rfl⟩ := append_of_mem hx
  exact mem_append_left _ (h.preceded before x after rfl d hd)

/-- Whoever waits for nothing more is out or ready. -/
def Complete (keys : List K) (deps : K → List K) (ready order : List K) : Prop :=
  ∀ x ∈ keys, (∀ d ∈ deps x, d ∈ order) → x ∈ order ∨ x ∈ ready

variable (hkeys : keys.Nodup)
include hkeys

theorem KahnInv.step (hdeps : ∀ x ∈ keys, (deps x).Nodup) {next : K}
    (h : KahnInv keys deps indegree (next :: ready) order) : KahnInv keys deps
      (settle (keys.filter fun x => decide (next ∈ deps x)) (indegree, ready)).1
      (settle (keys.filter fun x => decide (next ∈ deps x)) (indegree, ready)).2
      (order ++ [next]) := by
  obtain ⟨hcount, hready⟩ := settle_spec (hkeys.filter fun x => decide (next ∈ deps x)) indegree ready
  have hnext : next ∉ order := h.readyNew next mem_cons_self
  obtain ⟨hnextReady, hreadyNodup⟩ := nodup_cons.1 h.readyNodup
  have hwaits : ∀ x ∈ keys, indegree x =
      (deps x).countP (fun d => decide (d ∉ order ++ [next])) + if next ∈ deps x then 1 else 0 :=
    fun x hx => (h.waits x hx).trans (countP_waits (hdeps x hx) hnext)
  have hready' := fun x => hready x
  simp only [mem_filter, decide_eq_true_eq] at hready' hcount
  constructor
  · exact nodup_append.2 ⟨h.nodup, nodup_singleton next, fun a ha b hb => by
      rw [mem_singleton.1 hb]; rintro rfl; exact hnext ha⟩
  · intro x hx
    rcases mem_append.1 hx with hx | hx
    · exact h.subset x hx
    · rw [mem_singleton.1 hx]; exact h.readySubset next mem_cons_self
  · intro x hx
    rcases (hready' x).1 hx with hx | ⟨⟨hx, -⟩, -⟩
    · exact h.readySubset x (mem_cons_of_mem _ hx)
    · exact hx
  · intro x hx hmem
    rcases (hready' x).1 hx with hxr | ⟨⟨-, hdep⟩, -⟩
    · rcases mem_append.1 hmem with hmem | hmem
      · exact h.readyNew x (mem_cons_of_mem _ hxr) hmem
      · rw [mem_singleton.1 hmem] at hxr; exact hnextReady hxr
    -- a node that waits for `next` is not out yet
    rcases mem_append.1 hmem with hmem | hmem
    · exact hnext (h.deps_mem hmem hdep)
    · rw [mem_singleton.1 hmem] at hdep; exact hnext (h.readyDeps next mem_cons_self next hdep)
  · exact settle_nodup _ indegree hreadyNodup
  · intro x hx; rw [hcount x, hwaits x hx]
    by_cases hdep : next ∈ deps x
    · simp [hx, hdep]
    · simp [hdep]
  · intro x hx d hd
    rcases (hready' x).1 hx with hxr | ⟨⟨hxk, hdep⟩, hzero⟩
    · exact mem_append_left _ (h.readyDeps x (mem_cons_of_mem _ hxr) d hd)
    rw [hwaits x hxk, if_pos hdep, Nat.add_sub_cancel, countP_eq_zero] at hzero
    simpa only [decide_eq_true_eq, not_not] using hzero d hd
  · exact h.preceded.concat (h.readyDeps next mem_cons_self)

theorem kahn_inv (hdeps : ∀ x ∈ keys, (deps x).Nodup) (rounds : ℕ)
    (h : KahnInv keys deps indegree ready order) :
    (kahn (fun y => keys.filter fun x => decide (y ∈ deps x)) rounds indegree ready order).Nodup ∧
      (∀ x ∈ kahn (fun y => keys.filter fun x => decide (y ∈ deps x)) rounds indegree ready order,
        x ∈ keys) ∧ Preceded deps
        (kahn (fun y => keys.filter fun x => decide (y ∈ deps x)) rounds indegree ready order) := by
  induction rounds generalizing indegree ready order with
  | zero => exact ⟨h.nodup, h.subset, h.preceded⟩
  | succ rounds ih =>
    cases ready with
    | nil => exact ⟨h.nodup, h.subset, h.preceded⟩
    | cons next ready => exact ih (h.step hkeys hdeps)

theorem kahnInv_start : KahnInv keys deps (fun x => (deps x).length)
    (keys.filter fun x => decide ((deps x).length = 0)) [] := by
  constructor
  · exact nodup_nil
  · simp
  · exact fun x hx => mem_of_mem_filter hx
  · simp
  · exact hkeys.filter _
  · intro x _; rw [countP_eq_length.2 (by simp)]
  · intro x hx d hd; have hnone : (deps x).length = 0 := by simpa using (mem_filter.1 hx).2
    rw [eq_nil_of_length_eq_zero hnone] at hd; cases hd
  · intro before x after heq; cases before <;> cases heq

/-- **The order that comes out** has no node twice, only nodes that went in, and every
    node behind those that it depends on. -/
theorem topoSort_spec (hdeps : ∀ x ∈ keys, (deps x).Nodup) :
    (topoSort keys deps).Nodup ∧ (∀ x ∈ topoSort keys deps, x ∈ keys) ∧
      Preceded deps (topoSort keys deps) :=
  kahn_inv hkeys hdeps keys.length (kahnInv_start hkeys)

theorem Complete.step (hdeps : ∀ x ∈ keys, (deps x).Nodup) {next : K}
    (h : KahnInv keys deps indegree (next :: ready) order)
    (hc : Complete keys deps (next :: ready) order) : Complete keys deps
      (settle (keys.filter fun x => decide (next ∈ deps x)) (indegree, ready)).2
      (order ++ [next]) := by
  intro x hx hout
  have hready := (settle_spec (hkeys.filter fun x => decide (next ∈ deps x)) indegree ready).2 x
  rw [hready, mem_filter, decide_eq_true_eq, mem_append, mem_singleton]
  by_cases hdep : next ∈ deps x
  · have hwaits := (h.waits x hx).trans
      (countP_waits (hdeps x hx) (h.readyNew next mem_cons_self))
    have hnone : ((deps x).countP fun d => decide (d ∉ order ++ [next])) = 0 :=
      countP_eq_zero.2 fun d hd => by simpa [or_iff_not_imp_left] using hout d hd
    rw [hnone, if_pos hdep] at hwaits
    exact .inr (.inr ⟨⟨hx, hdep⟩, by omega⟩)
  · have hout' : ∀ d ∈ deps x, d ∈ order := fun d hd =>
      (mem_append.1 (hout d hd)).resolve_right fun hd' => hdep (mem_singleton.1 hd' ▸ hd)
    rcases hc x hx hout' with hmem | hmem
    · exact .inl (.inl hmem)
    rcases mem_cons.1 hmem with rfl | hmem
    · exact .inl (.inr rfl)
    · exact .inr (.inl hmem)

theorem kahn_closed (hdeps : ∀ x ∈ keys, (deps x).Nodup) (rounds : ℕ)
    (h : KahnInv keys deps indegree ready order) (hc : Complete keys deps ready order)
    (hrounds : keys.length ≤ rounds + order.length) : ∀ x ∈ keys,
      (∀ d ∈ deps x, d ∈ kahn (fun y => keys.filter fun x => decide (y ∈ deps x)) rounds indegree
        ready order) →
      x ∈ kahn (fun y => keys.filter fun x => decide (y ∈ deps x)) rounds indegree ready order := by
  induction rounds generalizing indegree ready order with
  | zero =>
    intro x hx _
    exact ((subperm_of_subset h.nodup h.subset).perm_of_length_le (by omega)).mem_iff.2 hx
  | succ rounds ih =>
    cases ready with
    | nil => exact fun x hx hout => (hc x hx hout).resolve_right not_mem_nil
    | cons next ready =>
      exact ih (h.step hkeys hdeps) (hc.step hkeys hdeps h)
        (by rw [length_append, length_singleton]; omega)

/-- Whose dependencies all come out comes out. -/
theorem topoSort_closed (hdeps : ∀ x ∈ keys, (deps x).Nodup) (hx : x ∈ keys)
    (hout : ∀ d ∈ deps x, d ∈ topoSort keys deps) : x ∈ topoSort keys deps := by
  refine kahn_closed hkeys hdeps keys.length (kahnInv_start hkeys) ?_ (by simp) x hx hout
  intro y hy hnone
  have hnil : deps y = [] := eq_nil_iff_forall_not_mem.2 fun d hd => not_mem_nil (hnone d hd)
  exact .inr (mem_filter.2 ⟨hy, by simp [hnil]⟩)

end Lib
