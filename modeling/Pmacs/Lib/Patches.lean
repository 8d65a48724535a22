/-
  Patches of a list, made one after the other from its end and all at once.

  * `oneByOne` is what patches make one after the other, those that start last first
    (`foldl_splice`);
  * `InOrder`: the patches that start at one place are listed so that making them there one
    after the other gives the insertions in their order, then the replacement;
  * `foldl_splice_eq_simultaneously_iff`: patches apart from each other make the same both ways
    exactly when they are in order.
-/
import Pmacs.Lib.Splice

namespace Lib

open List

/-- `count` items from `start` on are replaced. -/
structure Patch (α : Type) where
  start : ℕ
  count : ℕ
  ins : List α
deriving DecidableEq, Repr

variable {α : Type}

namespace Patch

variable {after before g ps : List (Patch α)} {X l : List α} {p : Patch α} {i : ℕ}

def stop (p : Patch α) : ℕ := p.start + p.count

def splice (l : List α) (p : Patch α) : List α :=
  Lib.splice l (min p.start l.length) (min p.stop l.length) p.ins

/-- One patch ends before the other begins. -/
def Apart (p q : Patch α) : Prop := p.stop ≤ q.start ∨ q.stop ≤ p.start

instance (p q : Patch α) : Decidable (p.Apart q) := inferInstanceAs (Decidable (_ ∨ _))

def put (l : List α) (p : Patch α) : List α := p.ins ++ l.drop p.count

def startingAt (ps : List (Patch α)) (i : ℕ) : List (Patch α) := ps.filter (·.start = i)

/-- What stands before item `i` afterwards: the insertions there as listed, then what replaces
    the items from `i` on. -/
def gap (ps : List (Patch α)) (i : ℕ) : List α :=
  ((startingAt ps i).filter (·.count = 0)).flatMap ins ++
    ((startingAt ps i).filter (·.count ≠ 0)).flatMap ins

/-- The items from `i` on, with all patches made at once. -/
def simultaneouslyFrom (ps : List (Patch α)) : ℕ → List α → List α
  | i, [] => gap ps i
  | i, a :: l =>
    gap ps i ++ (if ∃ p ∈ ps, p.start ≤ i ∧ i < p.stop then [] else [a]) ++
      simultaneouslyFrom ps (i + 1) l

def simultaneously (ps : List (Patch α)) (l : List α) : List α := simultaneouslyFrom ps 0 l

/-- The items from `i` on, with the patches made one after the other from the end. -/
def oneByOne (ps : List (Patch α)) : ℕ → List α → List α
  | i, [] => (startingAt ps i).foldl put []
  | i, a :: l => (startingAt ps i).foldl put (a :: oneByOne ps (i + 1) l)

/-- At one place: made there one after the other, the insertions come in their order and before
    the replacement. -/
structure InOrderAt (ps : List (Patch α)) (l : List α) (i : ℕ) : Prop where
  insertions : (∀ p ∈ startingAt ps i, p.count = 0) →
    (startingAt ps i).reverse.flatMap ins = (startingAt ps i).flatMap ins
  replacement : ∀ before p after, startingAt ps i = before ++ p :: after → p.count ≠ 0 →
    after.reverse.flatMap ins ++ (p.ins ++
        (before.reverse.flatMap ins ++ slice l i p.stop).drop p.count) =
      (before ++ after).flatMap ins ++ p.ins

def InOrder (ps : List (Patch α)) (l : List α) : Prop := ∀ i, InOrderAt ps l i

theorem inOrder_of_distinct (h : ps.Pairwise fun p q => p.start ≠ q.start) : InOrder ps l := by
  intro i
  have hone : (startingAt ps i).length ≤ 1 := by
    have hpair : (startingAt ps i).Pairwise fun p q => p.start ≠ q.start := h.filter _
    have hall : ∀ p ∈ startingAt ps i, p.start = i := fun p hp => by simpa using (mem_filter.1 hp).2
    match startingAt ps i, hpair, hall with
    | [], _, _ => exact Nat.zero_le _
    | [_], _, _ => exact le_rfl
    | p :: q :: _, hpair, hall =>
      have hp := hall p mem_cons_self; have hq := hall q (mem_cons_of_mem _ mem_cons_self)
      exact absurd (hp.trans hq.symm) ((pairwise_cons.1 hpair).1 q mem_cons_self)
  refine ⟨fun _ => ?_, fun before p after hsplit hcount => ?_⟩
  · match startingAt ps i, hone with
    | [], _ => rfl
    | [p], _ => rfl
  rw [hsplit, length_append, length_cons] at hone
  obtain rfl := length_eq_zero_iff.1 (show before.length = 0 by omega)
  obtain rfl := length_eq_zero_iff.1 (show after.length = 0 by omega)
  have hstart : p.start = i := by
    have hmem : p ∈ startingAt ps i := by rw [hsplit]; exact mem_cons_self
    simpa using (mem_filter.1 hmem).2
  have hdrop : (slice l i p.stop).drop p.count = [] := by
    refine drop_eq_nil_of_le ?_; rw [slice, length_drop, length_take, stop]; omega
  simp [hdrop]

/-! ## One after the other -/

theorem startingAt_filter_of_ne {f : Patch α → Bool}
    (h : ∀ p ∈ ps, p.start = i → f p = true) : startingAt (ps.filter f) i = startingAt ps i := by
  rw [startingAt, startingAt, filter_filter]
  refine filter_congr fun p hp => ?_
  by_cases hi : p.start = i
  · simp [hi, h p hp hi]
  · simp [hi]

theorem oneByOne_congr {qs : List (Patch α)}
    (h : ∀ j, i ≤ j → startingAt ps j = startingAt qs j) : oneByOne ps i l = oneByOne qs i l := by
  induction l generalizing i with
  | nil => rw [oneByOne, oneByOne, h i (le_refl i)]
  | cons a l ih => rw [oneByOne, oneByOne, h i (le_refl i), ih fun j hj => h j (by omega)]

theorem splice_append {l₁ : List α} (l₂ : List α) (h : p.start = l₁.length) :
    Patch.splice (l₁ ++ l₂) p = l₁ ++ put l₂ p := by
  have hstart : min p.start (l₁ ++ l₂).length = l₁.length := by rw [length_append]; omega
  have hstop : (l₁ ++ l₂).drop (min p.stop (l₁ ++ l₂).length) = l₂.drop p.count := by
    rw [length_append, stop, h]
    rcases le_total p.count l₂.length with hle | hle
    · rw [min_eq_left (by omega), drop_append, drop_eq_nil_of_le (by omega),
        nil_append, Nat.add_sub_cancel_left]
    · rw [min_eq_right (by omega), ← length_append, drop_length, drop_eq_nil_of_le hle]
  rw [Patch.splice, Lib.splice, hstart, hstop, take_left, put, append_assoc]

theorem foldl_splice_append {l₁ : List α} (l₂ : List α) (h : ∀ p ∈ g, p.start = l₁.length) :
    g.foldl Patch.splice (l₁ ++ l₂) = l₁ ++ g.foldl put l₂ := by
  induction g generalizing l₂ with
  | nil => rfl
  | cons p g ih =>
    rw [foldl_cons, foldl_cons, splice_append l₂ (h p mem_cons_self),
      ih _ fun q hq => h q (mem_cons_of_mem p hq)]

/-- Patches sorted by their start, the last first, end with those of the first place. -/
theorem eq_later_append {qs : List (Patch α)} (hsorted : qs.Pairwise fun p q => q.start ≤ p.start)
    (h : ∀ p ∈ qs, i ≤ p.start) :
    qs = qs.filter (fun p => decide (i < p.start)) ++ startingAt qs i := by
  induction qs with
  | nil => rfl
  | cons p qs ih =>
    obtain ⟨hp, hqs⟩ := pairwise_cons.1 hsorted
    have hrest := ih hqs fun q hq => h q (mem_cons_of_mem p hq)
    rcases lt_or_eq_of_le (h p mem_cons_self) with hlt | heq
    · have hne : p.start ≠ i := by omega
      rw [filter_cons_of_pos (by simpa using hlt), startingAt,
        filter_cons_of_neg (by simpa using hne), cons_append]
      exact congrArg (List.cons p) hrest
    -- all that follow start there too
    have hall : ∀ q ∈ p :: qs, q.start = i := by
      intro q hq
      rcases mem_cons.1 hq with rfl | hq'
      · exact heq.symm
      · have h1 := hp q hq'; have h2 := h q hq; omega
    have hnone : (p :: qs).filter (fun q => decide (i < q.start)) = [] := by
      refine filter_eq_nil_iff.2 fun q hq => ?_; simp [hall q hq]
    have hself : startingAt (p :: qs) i = p :: qs :=
      filter_eq_self.2 fun q hq => by simpa using hall q hq
    rw [hnone, hself, nil_append]

theorem foldl_splice_from : ∀ {l₁ : List α} {qs : List (Patch α)},
    (qs.Pairwise fun p q => q.start ≤ p.start) →
    (∀ p ∈ qs, l₁.length ≤ p.start ∧ p.start ≤ l₁.length + l.length) →
      qs.foldl Patch.splice (l₁ ++ l) = l₁ ++ oneByOne qs l₁.length l := by
  induction l with
  | nil =>
    intro l₁ qs _ hin
    have hall : ∀ p ∈ qs, p.start = l₁.length := by
      intro p hp; have h := hin p hp; rw [length_nil] at h
      omega
    have hself : startingAt qs l₁.length = qs :=
      filter_eq_self.2 fun p hp => by simpa using hall p hp
    rw [foldl_splice_append [] hall, oneByOne, hself]
  | cons a l ih =>
    intro l₁ qs hsorted hin; have hsplit := eq_later_append hsorted fun p hp => (hin p hp).1
    have hlater : (qs.filter fun p => decide (l₁.length < p.start)).foldl Patch.splice
        (l₁ ++ a :: l) = l₁ ++ a :: oneByOne qs (l₁.length + 1) l := by
      have hcons : l₁ ++ a :: l = (l₁ ++ [a]) ++ l := by rw [append_assoc]; rfl
      have hlen : (l₁ ++ [a]).length = l₁.length + 1 := by rw [length_append, length_singleton]
      rw [hcons, ih (hsorted.filter _), hlen, append_assoc]
      · refine congrArg (fun t => l₁ ++ a :: t) (oneByOne_congr fun j hj => ?_)
        refine startingAt_filter_of_ne fun p _ hp => ?_; rw [decide_eq_true_eq]; omega
      intro p hp; obtain ⟨hmem, hlt⟩ := mem_filter.1 hp; have h := hin p hmem
      rw [decide_eq_true_eq] at hlt; rw [length_cons] at h; omega
    rw [hsplit, foldl_append, hlater, ← hsplit, oneByOne]
    exact foldl_splice_append _ fun p hp => by simpa using (mem_filter.1 hp).2

theorem startingAt_insertionSort {ps : List (Patch α)} {i : ℕ} :
    startingAt (ps.insertionSort fun p q => q.start ≤ p.start) i = startingAt ps i := by
  have hsub : List.Sublist (startingAt ps i) (ps.insertionSort fun p q => q.start ≤ p.start) := by
    refine sublist_insertionSort ?_ filter_sublist
    refine pairwise_of_forall_mem_list fun p hp q hq => ?_
    have hp' : p.start = i := by simpa using (mem_filter.1 hp).2
    have hq' : q.start = i := by simpa using (mem_filter.1 hq).2
    omega
  have hsub' := hsub.filter fun p => decide (p.start = i)
  have hself : (startingAt ps i).filter (fun p => decide (p.start = i)) = startingAt ps i :=
    filter_eq_self.2 fun p hp => (mem_filter.1 hp).2
  rw [hself] at hsub'
  refine (hsub'.eq_of_length ?_).symm
  exact (((perm_insertionSort _ ps).filter _).length_eq).symm

/-- **One after the other**, those that start last first. -/
theorem foldl_splice (h : ∀ p ∈ ps, p.start ≤ l.length) :
    (ps.insertionSort fun p q => q.start ≤ p.start).foldl Patch.splice l = oneByOne ps 0 l := by
  have hsorted : (ps.insertionSort fun p q => q.start ≤ p.start).Pairwise
      fun p q => q.start ≤ p.start := pairwise_insertionSort _ ps
  have hin : ∀ p ∈ ps.insertionSort fun p q => q.start ≤ p.start,
      ([] : List α).length ≤ p.start ∧ p.start ≤ ([] : List α).length + l.length := by
    intro p hp; have hp' := h p ((mem_insertionSort _).1 hp); rw [length_nil]
    omega
  exact (foldl_splice_from hsorted hin).trans (oneByOne_congr fun j _ => startingAt_insertionSort)

/-! ## The patches of one place -/

def removed (g : List (Patch α)) : ℕ := (g.map count).sum

theorem foldl_put_append (T : List α)
    (h : removed g ≤ X.length) : g.foldl put (X ++ T) = g.foldl put X ++ T := by
  induction g generalizing X with
  | nil => rfl
  | cons p g ih =>
    rw [removed, map_cons, sum_cons] at h
    have hput : put (X ++ T) p = put X p ++ T := by
      rw [put, put, drop_append_of_le_length (by omega), append_assoc]
    rw [foldl_cons, foldl_cons, hput, ih]; rw [put, length_append, length_drop, removed]; omega

theorem length_foldl_put (h : removed g = X.length) :
    (g.foldl put X).length = (g.flatMap ins).length := by
  have hgen : ∀ {g : List (Patch α)} {X : List α}, removed g ≤ X.length →
      (g.foldl put X).length + removed g = X.length + (g.flatMap ins).length := by
    intro g
    induction g with
    | nil => exact fun _ => rfl
    | cons p g ih =>
      intro X h; rw [removed, map_cons, sum_cons, ← removed] at h
      have hlen : (put X p).length = p.ins.length + (X.length - p.count) := by
        rw [put, length_append, length_drop]
      have hrest := ih (X := put X p) (by omega)
      rw [foldl_cons, removed, map_cons, sum_cons, ← removed, flatMap_cons, length_append]
      omega
  have hall := hgen (le_of_eq h)
  omega

/-- Insertions made one after the other at one place come in the opposite order. -/
theorem foldl_put_insertions (h : ∀ p ∈ g, p.count = 0) (X : List α) :
    g.foldl put X = g.reverse.flatMap ins ++ X := by
  induction g generalizing X with
  | nil => rfl
  | cons p g ih =>
    rw [foldl_cons, ih fun q hq => h q (mem_cons_of_mem p hq), put,
      h p mem_cons_self, drop_zero, reverse_cons, flatMap_append, flatMap_singleton, append_assoc]

theorem length_gap (ps : List (Patch α)) (i : ℕ) :
    (gap ps i).length = ((startingAt ps i).flatMap ins).length := by
  rw [gap]
  induction startingAt ps i with
  | nil => rfl
  | cons p g ih =>
    rw [flatMap_cons, length_append, length_append, ← ih]
    by_cases hp : p.count = 0
    · simp only [filter_cons, hp, decide_true, if_true, ne_eq, not_true_eq_false, decide_false,
        Bool.false_eq_true, if_false, flatMap_cons, length_append]
      omega
    simp only [filter_cons, hp, decide_false, Bool.false_eq_true, if_false, ne_eq,
      not_false_eq_true, decide_true, if_true, flatMap_cons, length_append]
    omega

theorem start_of_mem (h : p ∈ startingAt ps i) : p ∈ ps ∧ p.start = i := by
  obtain ⟨hmem, hstart⟩ := mem_filter.1 h
  exact ⟨hmem, by simpa using hstart⟩

/-- Of patches apart from each other at most one replaces items at a place. -/
theorem insertions_of_apart (h : ps.Pairwise Apart)
    (hsplit : startingAt ps i = before ++ p :: after)
    (hp : p.count ≠ 0) : ∀ q ∈ before ++ after, q.count = 0 := by
  have hstart : ∀ q ∈ startingAt ps i, q.start = i := fun q hq => (start_of_mem hq).2
  have hpair : (startingAt ps i).Pairwise Apart := h.filter _
  rw [hsplit] at hpair hstart
  have hzero : ∀ q : Patch α, q.start = i → (Apart q p ∨ Apart p q) → q.count = 0 := by
    intro q hq hapart; have hpi : p.start = i := hstart p (by simp)
    simp only [Apart, stop] at hapart; omega
  obtain ⟨-, hafter, hbefore⟩ := pairwise_append.1 hpair
  intro q hq
  rcases mem_append.1 hq with hq | hq
  · exact hzero q (hstart q (mem_append_left _ hq)) (.inl (hbefore q hq p mem_cons_self))
  · exact hzero q (hstart q (by simp [hq])) (.inr ((pairwise_cons.1 hafter).1 q hq))

theorem startingAt_cases (ps : List (Patch α)) (i : ℕ) : (∀ p ∈ startingAt ps i, p.count = 0) ∨
      ∃ before p after, startingAt ps i = before ++ p :: after ∧ p.count ≠ 0 := by
  by_cases h : ∀ p ∈ startingAt ps i, p.count = 0
  · exact .inl h
  push Not at h
  obtain ⟨p, hp, hcount⟩ := h; obtain ⟨before, after, hsplit⟩ := append_of_mem hp
  exact .inr ⟨before, p, after, hsplit, hcount⟩

theorem removed_insertions (h : ∀ p ∈ g, p.count = 0) : removed g = 0 := by
  induction g with
  | nil => rfl
  | cons p g ih =>
    have hrest := ih fun q hq => h q (mem_cons_of_mem p hq); rw [removed] at hrest ⊢
    rw [map_cons, sum_cons, h p mem_cons_self, hrest]

theorem removed_split
    (h : ∀ q ∈ before ++ after, q.count = 0) : removed (before ++ p :: after) = p.count := by
  have hb := removed_insertions fun q hq => h q (mem_append_left _ hq)
  have ha := removed_insertions fun q hq => h q (mem_append_right _ hq)
  rw [removed] at ha hb ⊢
  rw [map_append, sum_append, map_cons, sum_cons]
  omega

theorem split_unique {before' after' : List (Patch α)} {p' : Patch α}
    (h : before ++ p :: after = before' ++ p' :: after') (hbefore : ∀ q ∈ before, q.count = 0)
    (hp : p.count ≠ 0) (hbefore' : ∀ q ∈ before', q.count = 0) (hp' : p'.count ≠ 0) :
    before = before' ∧ p = p' ∧ after = after' := by
  induction before generalizing before' with
  | nil =>
    cases before' with
    | nil => rw [nil_append, nil_append, cons.injEq] at h; exact ⟨rfl, h⟩
    | cons q before' =>
      rw [nil_append, cons_append, cons.injEq] at h
      exact absurd (h.1 ▸ hbefore' q mem_cons_self) hp
  | cons q before ih =>
    cases before' with
    | nil =>
      rw [nil_append, cons_append, cons.injEq] at h
      exact absurd (h.1 ▸ hbefore q mem_cons_self) hp'
    | cons q' before' =>
      rw [cons_append, cons_append, cons.injEq] at h
      obtain ⟨rfl, hp, hafter⟩ := ih h.2 (fun q hq => hbefore q (mem_cons_of_mem _ hq))
        (fun q hq => hbefore' q (mem_cons_of_mem _ hq))
      exact ⟨by rw [h.1], hp, hafter⟩

/-- **At one place**: made one after the other, the patches leave what stands there afterwards
    exactly when they are in order. -/
theorem foldl_put_eq_gap_iff (h : ps.Pairwise Apart) (l : List α) (i : ℕ) :
    (startingAt ps i).foldl put (slice l i (i + removed (startingAt ps i))) = gap ps i ↔
      InOrderAt ps l i := by
  rcases startingAt_cases ps i with hzero | ⟨before, p, after, hsplit, hp⟩
  · have hone : (startingAt ps i).filter (fun p => decide (p.count = 0)) = startingAt ps i :=
      filter_eq_self.2 fun p hp => by simpa using hzero p hp
    have hnone : (startingAt ps i).filter (fun p => decide (p.count ≠ 0)) = [] :=
      filter_eq_nil_iff.2 fun p hp => by simpa using hzero p hp
    rw [removed_insertions hzero, Nat.add_zero, slice_of_le l (Nat.le_refl i),
      foldl_put_insertions hzero, append_nil, gap, hone, hnone, flatMap_nil, append_nil]
    refine ⟨fun heq => ⟨fun _ => heq, fun before p after hsplit hp => ?_⟩,
      fun hin => hin.insertions hzero⟩
    exact absurd (hzero p (by rw [hsplit]; simp)) hp
  have hothers := insertions_of_apart h hsplit hp
  have hbefore : ∀ q ∈ before, q.count = 0 := fun q hq => hothers q (mem_append_left _ hq)
  have hafter : ∀ q ∈ after, q.count = 0 := fun q hq => hothers q (mem_append_right _ hq)
  have hstop : p.stop = i + p.count := by
    have hmem : p ∈ startingAt ps i := by rw [hsplit]; simp
    rw [stop, (start_of_mem hmem).2]
  have hgap : gap ps i = (before ++ after).flatMap ins ++ p.ins := by
    have hone : before.filter (fun q => decide (q.count = 0)) = before ∧
        after.filter (fun q => decide (q.count = 0)) = after :=
      ⟨filter_eq_self.2 fun q hq => by simpa using hbefore q hq,
        filter_eq_self.2 fun q hq => by simpa using hafter q hq⟩
    have hnone : before.filter (fun q => decide (q.count ≠ 0)) = [] ∧
        after.filter (fun q => decide (q.count ≠ 0)) = [] :=
      ⟨filter_eq_nil_iff.2 fun q hq => by simpa using hbefore q hq,
        filter_eq_nil_iff.2 fun q hq => by simpa using hafter q hq⟩
    rw [gap, hsplit, filter_append, filter_append, hone.1, hnone.1, nil_append,
      filter_cons_of_neg (by simpa using hp), filter_cons_of_pos (by simpa using hp),
      hone.2, hnone.2, flatMap_singleton]
  rw [hsplit, removed_split hothers, foldl_append, foldl_cons,
    foldl_put_insertions hbefore, foldl_put_insertions hafter, hgap, put, ← hstop]
  refine ⟨fun heq => ⟨fun hzero => ?_, fun before' p' after' hsplit' hp' => ?_⟩,
    fun hin => hin.replacement before p after hsplit hp⟩
  · exact absurd (hzero p (by rw [hsplit]; simp)) hp
  obtain ⟨rfl, rfl, rfl⟩ := split_unique (hsplit.symm.trans hsplit') hbefore hp
    (fun q hq => insertions_of_apart h hsplit' hp' q (mem_append_left _ hq)) hp'
  exact heq

/-! ## All at once -/

theorem inOrderAt_of_none (h : startingAt ps i = []) (l : List α) : InOrderAt ps l i := by
  refine ⟨fun _ => by rw [h, reverse_nil], fun before p after hsplit _ => ?_⟩
  rw [h] at hsplit
  exact absurd hsplit.symm (append_ne_nil_of_right_ne_nil _ (cons_ne_nil p after))

theorem append_eq_append_iff_of_length {G T S : List α} (h : X.length = G.length) :
    X ++ T = G ++ S ↔ X = G ∧ T = S :=
  ⟨fun heq => append_inj heq h, fun ⟨hX, hT⟩ => by rw [hX, hT]⟩

theorem forall_from {P : ℕ → Prop} : (∀ j, i ≤ j → P j) ↔ P i ∧ ∀ j, i + 1 ≤ j → P j := by
  refine ⟨fun h => ⟨h i (le_refl i), fun j hj => h j (by omega)⟩, fun ⟨hi, h⟩ j hj => ?_⟩
  rcases Nat.eq_or_lt_of_le hj with rfl | hlt
  · exact hi
  · exact h j hlt

/-- The first `r` items from `i` on are those a patch before `i` still replaces. -/
structure Reaches (ps : List (Patch α)) (i r : ℕ) : Prop where
  below : ∀ p ∈ ps, p.start < i → p.stop ≤ i + r
  covered : 0 < r → ∃ p ∈ ps, p.start < i ∧ p.stop = i + r

theorem apart_of_ne (h : ps.Pairwise Apart) {q : Patch α} (hp : p ∈ ps)
    (hq : q ∈ ps) (hne : p ≠ q) : Apart p q := by
  have : Std.Symm (Apart (α := α)) := ⟨fun _ _ => Or.symm⟩
  exact h.forall hp hq hne

theorem Reaches.none (hapart : ps.Pairwise Apart) {r : ℕ}
    (h : Reaches ps i r) (hr : 0 < r) : startingAt ps i = [] := by
  obtain ⟨p, hp, hstart, hstop⟩ := h.covered hr
  refine filter_eq_nil_iff.2 fun q hq => ?_
  rw [decide_eq_true_eq]
  intro hqi
  have hpq := apart_of_ne hapart hp hq (by rintro rfl; omega)
  simp only [Apart, Patch.stop] at hpq hstop
  omega

theorem Reaches.inside (hapart : ps.Pairwise Apart) {r : ℕ}
    (h : Reaches ps i (r + 1)) : Reaches ps (i + 1) r := by
  have hnone := h.none hapart (Nat.succ_pos r)
  obtain ⟨p, hp, hstart, hstop⟩ := h.covered (Nat.succ_pos r)
  refine ⟨fun q hq hqi => ?_, fun _ => ⟨p, hp, by omega, by omega⟩⟩
  have hne : q.start ≠ i := by
    intro heq; have hmem : q ∈ startingAt ps i := mem_filter.2 ⟨hq, by simpa using heq⟩
    rw [hnone] at hmem; cases hmem
  have hbelow := h.below q hq (by omega)
  omega

theorem Reaches.insertions (h : Reaches ps i 0)
    (hzero : ∀ p ∈ startingAt ps i, p.count = 0) : Reaches ps (i + 1) 0 := by
  refine ⟨fun q hq hqi => ?_, fun hr => absurd hr (lt_irrefl 0)⟩
  by_cases hstart : q.start = i
  · have hcount := hzero q (mem_filter.2 ⟨hq, by simpa using hstart⟩); rw [Patch.stop, hcount]
    omega
  · have hbelow := h.below q hq (by omega); omega

variable (hapart : ps.Pairwise Apart)
include hapart

/-- Past an item that nothing reaches and from which a patch replaces items. -/
theorem Reaches.replacement (h : Reaches ps i 0) (hsplit : startingAt ps i = before ++ p :: after)
    (hp : p.count ≠ 0) : Reaches ps (i + 1) (p.count - 1) := by
  have hothers := insertions_of_apart hapart hsplit hp
  have hmem : p ∈ startingAt ps i := by rw [hsplit]; simp
  obtain ⟨hps, hstart⟩ := start_of_mem hmem
  refine ⟨fun q hq hqi => ?_, fun _ => ⟨p, hps, by omega, by rw [Patch.stop]; omega⟩⟩
  by_cases hqstart : q.start = i
  · have hqmem : q ∈ startingAt ps i := mem_filter.2 ⟨hq, by simpa using hqstart⟩
    rw [hsplit, mem_append, mem_cons] at hqmem
    rcases hqmem with hq' | rfl | hq'
    · have hcount := hothers q (mem_append_left _ hq'); rw [Patch.stop]; omega
    · rw [Patch.stop]; omega
    · have hcount := hothers q (mem_append_right _ hq'); rw [Patch.stop]; omega
  · have hbelow := h.below q hq (by omega); omega

/-- The items from `i` on, of which the first `r` are still replaced: one after the other they
    stay in front, and what follows is as long as with all patches at once. -/
theorem oneByOne_from
    (hin : ∀ p ∈ ps, p.stop ≤ l.length) {l' : List α} : ∀ {i r : ℕ}, l.drop i = l' →
    i ≤ l.length → Reaches ps i r → ∃ T, oneByOne ps i l' = l'.take r ++ T ∧
        T.length = (simultaneouslyFrom ps i l').length ∧
        (T = simultaneouslyFrom ps i l' ↔ ∀ j, i ≤ j → InOrderAt ps l j) := by
  induction l' with
  | nil =>
    intro i r hdrop hi hreach
    have hlen : i = l.length := by have hdropped := drop_eq_nil_iff.1 hdrop; omega
    have hzero : ∀ p ∈ startingAt ps i, p.count = 0 := by
      intro p hp; obtain ⟨hmem, hstart⟩ := start_of_mem hp; have hstop := hin p hmem
      rw [Patch.stop] at hstop; omega
    have hat := foldl_put_eq_gap_iff hapart l i
    rw [removed_insertions hzero, Nat.add_zero, slice_of_le l (Nat.le_refl i)] at hat
    refine ⟨(startingAt ps i).foldl put [], by rw [oneByOne, take_nil, nil_append], ?_, ?_⟩
    · rw [simultaneouslyFrom, length_gap]
      exact length_foldl_put (by rw [removed_insertions hzero]; rfl)
    rw [simultaneouslyFrom, hat, forall_from]
    refine ⟨fun h => ⟨h, fun j hj => inOrderAt_of_none ?_ l⟩, fun h => h.1⟩
    refine filter_eq_nil_iff.2 fun p hp => ?_; have hstop := hin p hp; rw [Patch.stop] at hstop
    rw [decide_eq_true_eq]; omega
  | cons a l' ih =>
    intro i r hdrop hi hreach
    have hdrop' : l.drop (i + 1) = l' := by rw [← drop_drop, hdrop, drop_succ_cons, drop_zero]
    have hlt : i < l.length := by
      by_contra h
      rw [drop_eq_nil_of_le (by omega)] at hdrop; exact absurd hdrop.symm (cons_ne_nil a l')
    cases r with
    | succ r =>
      -- the item is replaced by a patch before it
      have hnone := hreach.none hapart (Nat.succ_pos r)
      obtain ⟨T, hT, hlen, hiff⟩ := ih hdrop' hlt (hreach.inside hapart)
      have hcovered : ∃ p ∈ ps, p.start ≤ i ∧ i < p.stop := by
        obtain ⟨p, hp, hstart, hstop⟩ := hreach.covered (Nat.succ_pos r)
        exact ⟨p, hp, by omega, by omega⟩
      have hall : simultaneouslyFrom ps i (a :: l') = simultaneouslyFrom ps (i + 1) l' := by
        rw [simultaneouslyFrom, if_pos hcovered, gap, hnone]; rfl
      refine ⟨T, ?_, ?_, ?_⟩
      · rw [oneByOne, hnone, foldl_nil, hT, take_succ_cons, cons_append]
      · rw [hall, hlen]
      rw [hall, hiff]
      refine Iff.trans ?_ forall_from.symm
      exact ⟨fun h => ⟨inOrderAt_of_none hnone l, h⟩, fun h => h.2⟩
    | zero =>
      have hbelow := hreach.below; have hat := foldl_put_eq_gap_iff hapart l i
      rcases startingAt_cases ps i with hzero | ⟨before, p, after, hsplit, hp⟩
      · -- the item stays
        obtain ⟨T, hT, hlen, hiff⟩ := ih hdrop' hlt (hreach.insertions hzero)
        have huncovered : ¬ ∃ p ∈ ps, p.start ≤ i ∧ i < p.stop := by
          rintro ⟨p, hp, hstart, hstop⟩
          by_cases hpi : p.start = i
          · have hcount := hzero p (mem_filter.2 ⟨hp, by simpa using hpi⟩); rw [Patch.stop] at hstop
            omega
          · have hstop' := hbelow p hp (by omega); omega
        rw [removed_insertions hzero, Nat.add_zero, slice_of_le l (Nat.le_refl i)] at hat
        have hput : ((startingAt ps i).foldl put []).length = (gap ps i).length := by
          rw [length_gap]; exact length_foldl_put (by rw [removed_insertions hzero]; rfl)
        have hall : simultaneouslyFrom ps i (a :: l') =
            gap ps i ++ a :: simultaneouslyFrom ps (i + 1) l' := by
          rw [simultaneouslyFrom, if_neg huncovered, append_assoc, singleton_append]
        refine ⟨(startingAt ps i).foldl put [] ++ a :: T, ?_, ?_, ?_⟩
        · have hsplit : (a :: T : List α) = [] ++ a :: T := rfl
          rw [oneByOne, hT, take_zero, nil_append, take_zero, nil_append, hsplit,
            foldl_put_append _ (by rw [removed_insertions hzero]; exact Nat.zero_le _), nil_append]
        · rw [hall, length_append, length_append, length_cons, length_cons, hput, hlen]
        rw [hall, append_eq_append_iff_of_length hput, hat, cons.injEq, hiff]
        refine Iff.trans ?_ forall_from.symm; exact and_congr_right fun _ => and_iff_right rfl
      -- a patch replaces it
      have hothers := insertions_of_apart hapart hsplit hp
      obtain ⟨T, hT, hlen, hiff⟩ := ih hdrop' hlt (hreach.replacement hapart hsplit hp)
      obtain ⟨hps, hstart⟩ := start_of_mem (show p ∈ startingAt ps i by rw [hsplit]; simp)
      have hstop := hin p hps
      have hremoved : removed (startingAt ps i) = p.count := by rw [hsplit, removed_split hothers]
      have hreplaced : slice l i (i + p.count) = a :: l'.take (p.count - 1) := by
        rw [slice, drop_take, Nat.add_sub_cancel_left, hdrop]
        conv_lhs => rw [show p.count = p.count - 1 + 1 by omega]
        rw [take_succ_cons]
      have hlength : removed (startingAt ps i) = (slice l i (i + p.count)).length := by
        rw [Patch.stop] at hstop; rw [hremoved, length_slice (by omega)]; omega
      have hcovered : ∃ p ∈ ps, p.start ≤ i ∧ i < p.stop :=
        ⟨p, hps, Nat.le_of_eq hstart, by rw [Patch.stop]; omega⟩
      have hput : ((startingAt ps i).foldl put (slice l i (i + p.count))).length =
          (gap ps i).length := by rw [length_gap]; exact length_foldl_put hlength
      have hall : simultaneouslyFrom ps i (a :: l') =
          gap ps i ++ simultaneouslyFrom ps (i + 1) l' := by
        rw [simultaneouslyFrom, if_pos hcovered, append_nil]
      rw [hremoved] at hat
      refine ⟨(startingAt ps i).foldl put (slice l i (i + p.count)) ++ T, ?_, ?_, ?_⟩
      · rw [oneByOne, hT, ← cons_append, ← hreplaced,
          foldl_put_append _ (Nat.le_of_eq hlength), take_zero, nil_append]
      · rw [hall, length_append, length_append, hput, hlen]
      · rw [hall, append_eq_append_iff_of_length hput, hat, hiff]; exact forall_from.symm

/-- **Both ways**: patches apart from each other and inside a list make the same of it one after
    the other, those that start last first, as all at once, exactly when they are in order. -/
theorem foldl_splice_eq_simultaneously_iff (hin : ∀ p ∈ ps, p.stop ≤ l.length) :
    (ps.insertionSort fun p q => q.start ≤ p.start).foldl Patch.splice l = simultaneously ps l ↔
      InOrder ps l := by
  have hstart : ∀ p ∈ ps, p.start ≤ l.length := fun p hp => (Nat.le_add_right _ _).trans (hin p hp)
  have hreach : Reaches ps 0 0 :=
    ⟨fun p _ h => absurd h (Nat.not_lt_zero _), fun h => absurd h (lt_irrefl 0)⟩
  obtain ⟨T, hT, -, hiff⟩ := oneByOne_from hapart hin drop_zero (Nat.zero_le _) hreach
  rw [foldl_splice hstart, hT, take_zero, nil_append, simultaneously, hiff]
  exact ⟨fun h i => h i (Nat.zero_le i), fun h i _ => h i⟩

end Patch

end Lib
