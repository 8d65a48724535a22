/-
  Where the lines of a text start.

  * `breaks isBreak p xs`: the offsets right after the line breaks of `xs`, the first element
    of `xs` being at offset `p`; `lineStarts` adds the start of the text.
  * `lineStarts_rescan`: after a splice, the starts up to the edit are kept, and those after
    the last of them are scanned again.
  * `getElem?_splitOnP`: the lines are the pieces between the breaks; `next_lineStart`: where
    the line after begins.
-/
import Pmacs.Lib.Splice

namespace Lib

open List Option

variable {α : Type*} (isBreak : α → Bool)

def breaks : ℕ → List α → List ℕ
  | _, [] => []
  | p, x :: xs => if isBreak x then (p + 1) :: breaks (p + 1) xs else breaks (p + 1) xs

variable (xs : List α)

def lineStarts : List ℕ := 0 :: breaks isBreak 0 xs

theorem breaks_append (p : ℕ) (xs ys : List α) :
    breaks isBreak p (xs ++ ys) = breaks isBreak p xs ++ breaks isBreak (p + xs.length) ys := by
  induction xs generalizing p with
  | nil => rfl
  | cons x xs ih =>
    have hlength : p + (x :: xs).length = p + 1 + xs.length := by rw [length_cons]; omega
    rw [cons_append, breaks, breaks, ih, hlength]
    split
    · rfl
    · rfl

variable {isBreak} {p b : ℕ}

theorem lt_of_mem_breaks {xs : List α} (h : b ∈ breaks isBreak p xs) : p < b := by
  induction xs generalizing p with
  | nil => cases h
  | cons x xs ih =>
    rw [breaks] at h
    split at h
    · rcases mem_cons.1 h with rfl | h
      · exact Nat.lt_succ_self p
      · exact Nat.lt_of_succ_lt (ih h)
    · exact Nat.lt_of_succ_lt (ih h)

theorem le_of_mem_breaks {xs : List α} (h : b ∈ breaks isBreak p xs) : b ≤ p + xs.length := by
  induction xs generalizing p with
  | nil => cases h
  | cons x xs ih =>
    rw [breaks] at h; rw [length_cons]
    split at h
    · rcases mem_cons.1 h with rfl | h
      · omega
      · have := ih h; omega
    · have := ih h; omega

theorem length_breaks {xs : List α} : (breaks isBreak p xs).length = xs.countP isBreak := by
  induction xs generalizing p with
  | nil => rfl
  | cons x xs ih =>
    rw [breaks, countP_cons]
    split
    · rw [length_cons, ih]
    · rw [ih, Nat.add_zero]

theorem length_lineStarts : (lineStarts isBreak xs).length = xs.countP isBreak + 1 := by
  rw [lineStarts, length_cons, length_breaks]

variable {s : ℕ}

theorem lineStarts_split : lineStarts isBreak xs =
      lineStarts isBreak (xs.take s) ++ breaks isBreak (min s xs.length) (xs.drop s) := by
  have happend := breaks_append isBreak 0 (xs.take s) (xs.drop s)
  rw [take_append_drop, length_take, Nat.zero_add] at happend
  rw [lineStarts, happend, lineStarts, cons_append]

theorem takeWhile_lineStarts :
    (lineStarts isBreak xs).takeWhile (fun b => b ≤ s) = lineStarts isBreak (xs.take s) := by
  have hbefore : ∀ b ∈ lineStarts isBreak (xs.take s), decide (b ≤ s) = true := by
    intro b hb
    rcases mem_cons.1 hb with rfl | hb
    · exact decide_eq_true (Nat.zero_le s)
    · have hle := le_of_mem_breaks hb; rw [length_take] at hle; exact decide_eq_true (by omega)
  have hafter : (breaks isBreak (min s xs.length) (xs.drop s)).takeWhile (fun b => b ≤ s) = [] := by
    cases hrest : breaks isBreak (min s xs.length) (xs.drop s) with
    | nil => rfl
    | cons b bs =>
      have hmem : b ∈ breaks isBreak (min s xs.length) (xs.drop s) := by
        rw [hrest]; exact mem_cons_self
      have hlt := lt_of_mem_breaks hmem
      have hs : s < xs.length := by
        rw [← not_le]; intro hle; rw [drop_eq_nil_of_le hle] at hmem
        cases hmem
      refine takeWhile_cons_of_neg ?_; rw [decide_eq_true_eq]; omega
  rw [lineStarts_split xs, takeWhile_append_of_pos hbefore, hafter, append_nil]

variable {o : ℕ}

/-- From the last line start before `s` up to `s` there is no break. -/
theorem breaks_of_last {xs : List α} (hs : s ≤ xs.length)
    (hlast : (lineStarts isBreak (xs.take s)).getLast? = some o) :
    o ≤ s ∧ lineStarts isBreak (xs.take s) = lineStarts isBreak (xs.take o) := by
  have hmem := mem_of_getLast? hlast
  have hle : o ≤ s := by
    rcases mem_cons.1 hmem with rfl | hmem
    · exact Nat.zero_le s
    · have := le_of_mem_breaks hmem; rw [length_take] at this; omega
  refine ⟨hle, ?_⟩
  have htake : (xs.take s).take o = xs.take o := by rw [take_take, min_eq_left hle]
  have hsplit : lineStarts isBreak (xs.take s) = lineStarts isBreak ((xs.take s).take o) ++
      breaks isBreak (min o (xs.take s).length) ((xs.take s).drop o) := lineStarts_split (xs.take s)
  have hlength : min o (xs.take s).length = o := by rw [length_take]; omega
  rw [htake, hlength] at hsplit
  cases hrest : breaks isBreak o ((xs.take s).drop o) with
  | nil => rw [hsplit, hrest, append_nil]
  | cons b bs =>
    -- a break after `o` would come after it in the list too
    rw [hsplit, hrest, getLast?_append_of_ne_nil _ (cons_ne_nil b bs)] at hlast
    have hmem : o ∈ breaks isBreak o ((xs.take s).drop o) := by
      rw [hrest]; exact mem_of_getLast? hlast
    exact absurd (lt_of_mem_breaks hmem) (lt_irrefl o)

/-- After a splice at `s`, scan again from the last line start at or before `s`. -/
theorem lineStarts_rescan {xs ys : List α} (hs : s ≤ xs.length) (hagree : ys.take s = xs.take s)
    (hlast : ((lineStarts isBreak xs).takeWhile (fun b => b ≤ s)).getLast? = some o) :
    lineStarts isBreak ys =
      (lineStarts isBreak xs).takeWhile (fun b => b ≤ s) ++ breaks isBreak o (ys.drop o) := by
  rw [takeWhile_lineStarts] at hlast ⊢
  obtain ⟨hle, hkept⟩ := breaks_of_last hs hlast
  have hlength : s ≤ ys.length := by
    have := congrArg List.length hagree; rw [length_take, length_take] at this; omega
  have htake : ys.take o = xs.take o := by rw [← min_eq_left hle, ← take_take, hagree, take_take]
  rw [hkept, lineStarts_split ys, htake, min_eq_left (le_trans hle hlength)]

/-! ## The lines -/

theorem breaks_succ (p : ℕ) (xs : List α) :
    breaks isBreak (p + 1) xs = (breaks isBreak p xs).map (· + 1) := by
  induction xs generalizing p with
  | nil => rfl
  | cons x xs ih =>
    rw [breaks, breaks, ih (p + 1)]
    split
    · rfl
    · rfl

theorem mem_breaks {xs : List α} :
    b ∈ breaks isBreak p xs ↔ ∃ i x, xs[i]? = some x ∧ isBreak x = true ∧ b = p + i + 1 := by
  induction xs generalizing p with
  | nil => simp [breaks]
  | cons x xs ih =>
    have hrest : b ∈ breaks isBreak (p + 1) xs ↔
        ∃ i y, (x :: xs)[i + 1]? = some y ∧ isBreak y = true ∧ b = p + (i + 1) + 1 := by
      rw [ih]
      simp [show ∀ i, p + 1 + i + 1 = p + (i + 1) + 1 by omega]
    have hsplit : (∃ i y, (x :: xs)[i]? = some y ∧ isBreak y = true ∧ b = p + i + 1) ↔
        (isBreak x = true ∧ b = p + 1) ∨ b ∈ breaks isBreak (p + 1) xs := by
      rw [hrest]
      constructor
      · rintro ⟨i | i, y, hy, hbreak, hb⟩
        · obtain rfl := some.inj hy; exact .inl ⟨hbreak, hb⟩
        · exact .inr ⟨i, y, hy, hbreak, hb⟩
      rintro (⟨hbreak, hb⟩ | ⟨i, y, hy, hbreak, hb⟩)
      · exact ⟨0, x, rfl, hbreak, hb⟩
      · exact ⟨i + 1, y, hy, hbreak, hb⟩
    rw [hsplit, breaks]
    split_ifs with hbreak
    · simp [hbreak]
    · simp [hbreak]

theorem pairwise_lineStarts : (lineStarts isBreak xs).Pairwise (· < ·) := by
  have hbreaks : ∀ p, (breaks isBreak p xs).Pairwise (· < ·) := by
    induction xs with
    | nil => exact fun _ => .nil
    | cons x xs ih =>
      intro p; rw [breaks]
      split
      · exact .cons (fun b hb => lt_of_mem_breaks hb) (ih _)
      · exact ih _
  exact .cons (fun b hb => lt_of_mem_breaks hb) (hbreaks 0)

theorem lineStarts_cons (x : α) {xs : List α} : lineStarts isBreak (x :: xs) =
    0 :: ((if isBreak x then lineStarts isBreak xs else breaks isBreak 0 xs).map (· + 1)) := by
  rw [lineStarts, breaks, breaks_succ]
  split_ifs
  · rfl
  · rfl

theorem getElem?_lineStarts_cons {x : α} (hx : isBreak x = false) (xs : List α) (i : ℕ) :
    (lineStarts isBreak (x :: xs))[i + 1]? = (lineStarts isBreak xs)[i + 1]?.map (· + 1) := by
  rw [lineStarts_cons, hx, if_neg Bool.false_ne_true, List.getElem?_cons_succ,
    getElem?_map, lineStarts, List.getElem?_cons_succ]

variable {i : ℕ}

theorem getElem?_lineStarts_break {x : α} (hx : isBreak x = true) {xs : List α} :
    (lineStarts isBreak (x :: xs))[i + 1]? = (lineStarts isBreak xs)[i]?.map (· + 1) := by
  rw [lineStarts_cons, hx, if_pos rfl, List.getElem?_cons_succ, getElem?_map]

/-- **A line runs from its start to the break after it.** -/
theorem getElem?_splitOnP : (xs.splitOnP isBreak)[i]? =
    (lineStarts isBreak xs)[i]?.map fun o => (xs.drop o).takeWhile fun x => !isBreak x := by
  induction xs generalizing i with
  | nil => cases i <;> simp [lineStarts, breaks]
  | cons x xs ih =>
    rw [splitOnP_cons_eq_if_modifyHead]
    cases hx : isBreak x with
    | true =>
      cases i with
      | zero => simp [lineStarts, hx]
      | succ i =>
        rw [getElem?_lineStarts_break hx, if_pos rfl, List.getElem?_cons_succ, ih, Option.map_map]
        rfl
    | false =>
      rw [if_neg Bool.false_ne_true]
      have hmodify : ((xs.splitOnP isBreak).modifyHead (List.cons x))[i]? =
          if i = 0 then (xs.splitOnP isBreak)[0]?.map (List.cons x)
          else (xs.splitOnP isBreak)[i]? := by
        cases xs.splitOnP isBreak with
        | nil => simp
        | cons line lines => cases i <;> simp
      rw [hmodify, ih, ih]
      cases i with
      | zero => simp [lineStarts, hx]
      | succ i => rw [if_neg (Nat.succ_ne_zero i), getElem?_lineStarts_cons hx, Option.map_map]; rfl

theorem next_lineStart {xs : List α} (h : (lineStarts isBreak xs)[i]? = some o) :
    (lineStarts isBreak xs)[i + 1]?.elim
      (xs.length = o + ((xs.drop o).takeWhile fun x => !isBreak x).length)
      fun next => next = o + ((xs.drop o).takeWhile fun x => !isBreak x).length + 1 := by
  induction xs generalizing i o with
  | nil =>
    cases i with
    | zero => obtain rfl := some.inj h; rfl
    | succ i => simp [lineStarts, breaks] at h
  | cons x xs ih =>
    cases hx : isBreak x with
    | true =>
      rw [getElem?_lineStarts_break hx]
      cases i with
      | zero => obtain rfl := some.inj h; simp [lineStarts, hx]
      | succ i =>
        rw [getElem?_lineStarts_break hx, map_eq_some_iff] at h; obtain ⟨o, ho, rfl⟩ := h
        have hih := ih ho
        cases hnext : (lineStarts isBreak xs)[i + 1]? with
        | none =>
          rw [hnext] at hih; simp only [elim_none] at hih
          simp only [map_none, elim_none, length_cons, drop_succ_cons]; omega
        | some next =>
          rw [hnext] at hih; simp only [elim_some] at hih
          simp only [map_some, elim_some, drop_succ_cons]; omega
    | false =>
      obtain ⟨o', ho', hplace⟩ : ∃ o', (lineStarts isBreak xs)[i]? = some o' ∧
          o + (((x :: xs).drop o).takeWhile fun x => !isBreak x).length =
            o' + ((xs.drop o').takeWhile fun x => !isBreak x).length + 1 := by
        cases i with
        | zero => obtain rfl := some.inj h; exact ⟨0, rfl, by simp [hx]⟩
        | succ i =>
          rw [getElem?_lineStarts_cons hx, map_eq_some_iff] at h; obtain ⟨o', ho', rfl⟩ := h
          exact ⟨o', ho', by rw [drop_succ_cons]; omega⟩
      have hih := ih ho'; rw [getElem?_lineStarts_cons hx]
      cases hnext : (lineStarts isBreak xs)[i + 1]? with
      | none =>
        rw [hnext] at hih; simp only [elim_none] at hih
        simp only [map_none, elim_none, length_cons]; omega
      | some next =>
        rw [hnext] at hih; simp only [elim_some] at hih; simp only [map_some, elim_some]
        omega

end Lib
