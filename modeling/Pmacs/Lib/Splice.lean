/-
  Splicing lists: replacing the elements `[s, e)` of a list by another list,
  cutting a list into chunks, and describing one list as a splice of another.

  * `splice l s e ins` is `l` with `[s, e)` replaced by `ins`, `slice l s e` is
    the part `[s, e)`;
  * `Describes l s e n l'`: `l'` is `l` with `[s, e)` replaced by `n` elements; so
    it is for two lists that agree on a prefix and on a suffix, and backwards;
  * `chunks n l` cuts `l` into pieces of at most `n` elements.
-/
import Mathlib

namespace Lib

open List Option Nat

variable {α : Type*} {l : List α} {s : ℕ}

/-! ## Splices and slices -/

/-- The list `l` with the elements `[s, e)` replaced by `ins`. -/
def splice (l : List α) (s e : ℕ) (ins : List α) : List α :=
  l.take s ++ ins ++ l.drop e

def slice (l : List α) (s e : ℕ) : List α :=
  (l.take e).drop s

variable {e : ℕ}

theorem splice_nil {s : ℕ} : splice l s e [] = l.take s ++ l.drop e := by
  simp [splice]

@[simp]
theorem splice_same (l : List α) (s : ℕ) : splice l s s [] = l := by
  simp [splice]

theorem splice_all (l ins : List α) : splice l 0 l.length ins = ins := by
  simp [splice]

variable (ins : List α)

theorem length_splice (hs : s ≤ e) (he : e ≤ l.length) :
    (splice l s e ins).length = l.length - (e - s) + ins.length := by
  simp only [splice, length_append, length_take, length_drop]
  omega

theorem length_slice (he : e ≤ l.length) : (slice l s e).length = e - s := by
  simp only [slice, length_drop, length_take]
  omega

variable {l₁ l₂ : List α}

theorem splice_append_left {ins : List α} (hs : s ≤ l₁.length)
    (he : e ≤ l₁.length) : splice (l₁ ++ l₂) s e ins = splice l₁ s e ins ++ l₂ := by
  simp [splice, take_append_of_le_length hs, drop_append_of_le_length he]

theorem splice_append_right (l₁ l₂ : List α) (s e : ℕ) (ins : List α) :
    splice (l₁ ++ l₂) (l₁.length + s) (l₁.length + e) ins = l₁ ++ splice l₂ s e ins := by
  simp [splice, append_assoc, take_length_add_append]

/-- Removing `[s, e)` from a concatenation removes it from both parts, each in
    its own coordinates. -/
theorem splice_nil_append (hse : s ≤ e) : splice (l₁ ++ l₂) s e [] =
      splice l₁ s e [] ++ splice l₂ (s - l₁.length) (e - l₁.length) [] := by
  simp only [splice_nil, take_append, drop_append]
  rcases Nat.lt_or_ge e l₁.length with he | he
  · rw [show s - l₁.length = 0 by omega]; simp
  · rw [drop_eq_nil_of_le he]; simp

/-- A deletion followed by an insertion at its start is one splice. -/
theorem splice_splice (hs : s ≤ l.length) :
    splice (splice l s e []) s s ins = splice l s e ins := by
  have hlen : (l.take s).length = s := by simp; omega
  simp only [splice_nil]
  simp only [splice]
  rw [take_append_of_le_length (by omega), drop_append_of_le_length (by omega)]
  simp [take_take]

theorem splice_insert_insert {ins' : List α} (hs : s ≤ l.length) :
    splice (splice l s s ins) (s + ins.length) (s + ins.length) ins' =
      splice l s s (ins ++ ins') := by
  have hlen : (l.take s ++ ins).length = s + ins.length := by simp; omega
  simp only [splice]
  rw [← hlen, take_left, drop_left, append_assoc _ ins ins']

theorem splice_insert_before {ins' : List α} (hs : s ≤ l.length) :
    splice (splice l s s ins) s s ins' = splice l s s (ins' ++ ins) := by
  have hlen : (l.take s).length = s := by simp; omega
  simp only [splice, append_assoc]
  rw [take_left' hlen, drop_left' hlen]

/-- Two lists that agree on their first `p` and on their last `q` elements
    differ by the splice of what lies between. -/
theorem splice_of_agree {l' : List α} {p q : ℕ} (hp : l.take p = l'.take p)
    (hq : l.drop (l.length - q) = l'.drop (l'.length - q)) (hle : p + q ≤ l'.length) :
    splice l p (l.length - q) (slice l' p (l'.length - q)) = l' := by
  rw [splice, hp, hq, slice, drop_take]
  calc l'.take p ++ (l'.drop p).take (l'.length - q - p) ++ l'.drop (l'.length - q)
      = l'.take (p + (l'.length - q - p)) ++ l'.drop (l'.length - q) := by rw [take_add]
    _ = l' := by rw [show p + (l'.length - q - p) = l'.length - q by omega, take_append_drop]

/-- The text between two positions of a splice that are the ends of what was
    inserted. -/
theorem slice_splice (hs : s ≤ l.length) : slice (splice l s e ins) s (s + ins.length) = ins := by
  have hlen : (l.take s).length = s := by simp; omega
  simp only [slice, splice, append_assoc]
  rw [drop_take, drop_append_of_le_length (by omega)]
  simp

theorem slice_append {s : ℕ} :
    slice (l₁ ++ l₂) s e = slice l₁ s e ++ slice l₂ (s - l₁.length) (e - l₁.length) := by
  rw [slice, slice, slice, take_append, drop_append, length_take]
  rcases Nat.le_total e l₁.length with he | he
  · have hnil : l₂.take (e - l₁.length) = [] := by rw [Nat.sub_eq_zero_of_le he, take_zero]
    rw [hnil, drop_nil, drop_nil]
  · rw [Nat.min_eq_right he]

theorem slice_of_le (l : List α) (h : e ≤ s) : slice l s e = [] := by
  rw [slice, drop_eq_nil_iff, length_take]
  omega

/-- A splice leaves a list exactly when it puts in what it takes out. -/
theorem splice_eq_self_iff (hse : s ≤ e)
    (he : e ≤ l.length) : splice l s e ins = l ↔ slice l s e = ins := by
  have hl : l.take s ++ slice l s e ++ l.drop e = l := by
    rw [slice, append_assoc]
    have hdrop : (l.take e).drop s ++ l.drop e = l.drop s := by
      conv_rhs => rw [← take_append_drop e l, drop_append_of_le_length (by
        rw [length_take]; omega)]
    rw [hdrop, take_append_drop]
  constructor
  · intro h; have h' := h.trans hl.symm
    exact (append_cancel_left (append_cancel_right h')).symm
  · intro h; rw [splice, ← h, hl]

theorem slice_splice_before {a b : ℕ} (hb : b ≤ s)
    (hs : s ≤ l.length) : slice (splice l s e ins) a b = slice l a b := by
  have hlen : (l.take s).length = s := by simp; omega
  simp only [slice, splice, append_assoc]
  rw [take_append_of_le_length (by omega), take_take, Nat.min_eq_left hb]

theorem slice_splice_after {a b : ℕ} (hse : s ≤ e) (ha : e ≤ a) (hab : a ≤ b) (hb : b ≤ l.length) :
    slice (splice l s e ins) (a - (e - s) + ins.length) (b - (e - s) + ins.length) =
      slice l a b := by
  have hlen : (l.take s ++ ins).length = s + ins.length := by simp; omega
  have hd (i : ℕ) (hi : e ≤ i) :
      (splice l s e ins).drop (i - (e - s) + ins.length) = l.drop i := by
    rw [splice, show i - (e - s) + ins.length = (l.take s ++ ins).length + (i - e) by omega,
      drop_append, drop_drop, drop_eq_nil_of_le (by omega), nil_append,
      Nat.add_sub_cancel_left, show e + (i - e) = i by omega]
  simp only [slice, drop_take, hd a ha]
  congr 1
  omega

theorem splice_inverse (hse : s ≤ e) (he : e ≤ l.length) :
    splice (splice l s e ins) s (s + ins.length) (slice l s e) = l := by
  have hs : (l.take s).length = s := by rw [length_take]; omega
  have hsi : (l.take s ++ ins).length = s + ins.length := by rw [length_append, hs]
  have htake : (splice l s e ins).take s = l.take s := by rw [splice, append_assoc, take_left' hs]
  have hdrop : (splice l s e ins).drop (s + ins.length) = l.drop e := by
    rw [splice, ← hsi, drop_left]
  have hmid : l.take s ++ slice l s e = l.take e := by
    calc l.take s ++ slice l s e = (l.take e).take s ++ (l.take e).drop s := by
          rw [slice, take_take, Nat.min_eq_left hse]
      _ = l.take e := take_append_drop s _
  rw [splice, htake, hdrop, hmid, take_append_drop]

/-! ## Descriptions -/

/-- `l'` is `l` with `[s, e)` replaced by the `n` elements that `l'` has at `s`. -/
structure Describes (l : List α) (s e n : ℕ) (l' : List α) : Prop where
  start_le : s ≤ e
  stop_le : e ≤ l.length
  inserted_le : s + n ≤ l'.length
  splice_eq : splice l s e (slice l' s (s + n)) = l'

namespace Describes

variable {l' : List α} {n : ℕ}

theorem of_splice (hse : s ≤ e) (he : e ≤ l.length) :
    Describes l s e ins.length (splice l s e ins) where
  start_le := hse
  stop_le := he
  inserted_le := by rw [length_splice ins hse he]; omega
  splice_eq := by rw [slice_splice ins (Nat.le_trans hse he)]

theorem symm (h : Describes l s e n l') : Describes l' s (s + n) (e - s) l := by
  have hlen : (slice l' s (s + n)).length = n := by
    rw [length_slice h.inserted_le, Nat.add_sub_cancel_left]
  refine ⟨le_add_right s n, h.inserted_le, ?_, ?_⟩
  · rw [Nat.add_sub_cancel' h.start_le]; exact h.stop_le
  rw [Nat.add_sub_cancel' h.start_le]
  have := splice_inverse (slice l' s (s + n)) h.start_le h.stop_le
  rwa [h.splice_eq, hlen] at this

theorem of_agree {p q : ℕ} (hp : l.take p = l'.take p)
    (hq : l.drop (l.length - q) = l'.drop (l'.length - q)) (hle : p + q ≤ l.length)
    (hle' : p + q ≤ l'.length) : Describes l p (l.length - q) (l'.length - p - q) l' where
  start_le := by omega
  stop_le := sub_le _ _
  inserted_le := by omega
  splice_eq := by
    rw [show p + (l'.length - p - q) = l'.length - q by omega]; exact splice_of_agree hp hq hle'

end Describes

/-! ## Common prefixes -/

def commonPrefix [DecidableEq α] : List α → List α → ℕ
  | a :: l, b :: l' => if a = b then commonPrefix l l' + 1 else 0
  | _, _ => 0

/-- The position of the first pair of elements that differ. -/
def mismatch [DecidableEq α] : List α → List α → Option ℕ
  | a :: l, b :: l' => if a = b then (mismatch l l').map (· + 1) else some 0
  | _, _ => none

/-- The last of `n, n - 1, …, 0` that satisfies `p`, `0` when none does. -/
def backOff (p : ℕ → Bool) : ℕ → ℕ
  | 0 => 0
  | n + 1 => if p (n + 1) then n + 1 else backOff p n

theorem take_commonPrefix [DecidableEq α] :
    ∀ (l l' : List α), ∀ n ≤ commonPrefix l l', l.take n = l'.take n
  | [], l', n, h => by rw [le_zero.1 h, take_zero, take_zero]
  | a :: l, [], n, h => by rw [le_zero.1 h, take_zero, take_zero]
  | a :: l, b :: l', n, h => by
    rw [commonPrefix] at h
    split_ifs at h with hab
    · cases n with
      | zero => rfl
      | succ n =>
        rw [take_succ_cons, take_succ_cons, hab,
          take_commonPrefix l l' n (le_of_succ_le_succ h)]
    · rw [le_zero.1 h, take_zero, take_zero]

theorem commonPrefix_le [DecidableEq α] :
    ∀ l l' : List α, commonPrefix l l' ≤ l.length ∧ commonPrefix l l' ≤ l'.length
  | [], _ => ⟨zero_le _, zero_le _⟩
  | _ :: _, [] => ⟨zero_le _, zero_le _⟩
  | a :: l, b :: l' => by
    rw [commonPrefix]
    split_ifs
    · exact ⟨succ_le_succ (commonPrefix_le l l').1, succ_le_succ (commonPrefix_le l l').2⟩
    · exact ⟨zero_le _, zero_le _⟩

theorem take_mismatch [DecidableEq α] : ∀ {l l' : List α} {n : ℕ}, mismatch l l' = some n →
      n ≤ l.length ∧ l.take n = l'.take n
  | [], _, _, h => nomatch h
  | _ :: _, [], _, h => nomatch h
  | a :: l, b :: l', n, h => by
    rw [mismatch] at h
    split_ifs at h with hab
    · obtain ⟨m, hm, rfl⟩ := map_eq_some_iff.1 h; obtain ⟨hle, htake⟩ := take_mismatch hm
      exact ⟨succ_le_succ hle, by rw [take_succ_cons, take_succ_cons, hab, htake]⟩
    · cases h; exact ⟨zero_le _, rfl⟩

theorem eq_of_mismatch [DecidableEq α] :
    ∀ {l l' : List α}, l.length = l'.length → mismatch l l' = none → l = l'
  | [], l', hlen, _ => (eq_nil_of_length_eq_zero hlen.symm).symm
  | _ :: _, [], hlen, _ => nomatch hlen
  | a :: l, b :: l', hlen, h => by
    rw [mismatch] at h
    split_ifs at h with hab
    rw [hab, eq_of_mismatch (succ.inj hlen) (map_eq_none_iff.1 h)]

theorem commonPrefix_self [DecidableEq α] : ∀ l : List α, commonPrefix l l = l.length
  | [] => rfl
  | a :: l => by rw [commonPrefix, if_pos rfl, commonPrefix_self l, length_cons]

theorem backOff_eq_zero_or (p : ℕ → Bool) : ∀ n, backOff p n = 0 ∨ p (backOff p n) = true
  | 0 => .inl rfl
  | n + 1 => by
    rw [backOff]
    split_ifs with h
    · exact .inr h
    · exact backOff_eq_zero_or p n

variable {n : ℕ}

theorem backOff_self {p : ℕ → Bool} (h : p n = true) : backOff p n = n := by
  cases n with
  | zero => rfl
  | succ n => rw [backOff, if_pos h]

theorem commonPrefix_take [DecidableEq α] :
    ∀ (l l' : List α) (k : ℕ), commonPrefix (l.take k) (l'.take k) = min (commonPrefix l l') k
  | _, _, 0 => by rw [take_zero, take_zero, Nat.min_zero, commonPrefix_self]; rfl
  | [], _, k + 1 => by simp [commonPrefix]
  | _ :: _, [], k + 1 => by simp [commonPrefix]
  | a :: l, b :: l', k + 1 => by
    rw [take_succ_cons, take_succ_cons, commonPrefix, commonPrefix]
    split_ifs
    · rw [commonPrefix_take l l' k, Nat.add_min_add_right]
    · rw [Nat.zero_min]

theorem commonPrefix_drop [DecidableEq α] :
    ∀ {l l' : List α} {n : ℕ}, n ≤ l.length → l.take n = l'.take n →
      commonPrefix l l' = n + commonPrefix (l.drop n) (l'.drop n)
  | l, l', 0, _, _ => by rw [drop_zero, drop_zero, Nat.zero_add]
  | [], _, n + 1, h, _ => nomatch h
  | a :: l, [], n + 1, _, h => by cases h
  | a :: l, b :: l', n + 1, h, htake => by
    rw [take_succ_cons, take_succ_cons, cons.injEq] at htake; obtain ⟨rfl, htake⟩ := htake
    rw [commonPrefix, if_pos rfl, commonPrefix_drop (le_of_succ_le_succ h) htake,
      drop_succ_cons, drop_succ_cons]
    omega

theorem le_commonPrefix [DecidableEq α] {l' : List α} (hn : n ≤ l.length)
    (h : l.take n = l'.take n) : n ≤ commonPrefix l l' := by
  rw [commonPrefix_drop hn h]
  exact le_add_right _ _

theorem lt_of_mismatch [DecidableEq α] :
    ∀ {l l' : List α} {n : ℕ}, mismatch l l' = some n → n < l.length
  | [], _, _, h => nomatch h
  | _ :: _, [], _, h => nomatch h
  | a :: l, b :: l', n, h => by
    rw [mismatch] at h
    split_ifs at h
    · obtain ⟨m, hm, rfl⟩ := map_eq_some_iff.1 h; exact succ_lt_succ (lt_of_mismatch hm)
    · cases h; exact succ_pos _

theorem commonPrefix_of_mismatch [DecidableEq α] :
    ∀ {l l' : List α} {n : ℕ}, mismatch l l' = some n → commonPrefix l l' = n
  | [], _, _, h => nomatch h
  | _ :: _, [], _, h => nomatch h
  | a :: l, b :: l', n, h => by
    rw [mismatch] at h; rw [commonPrefix]
    split_ifs at h ⊢ with hab
    · obtain ⟨m, hm, rfl⟩ := map_eq_some_iff.1 h; rw [commonPrefix_of_mismatch hm]
    · cases h; rfl

theorem backOff_le (p : ℕ → Bool) : ∀ n, backOff p n ≤ n
  | 0 => Nat.le_refl 0
  | n + 1 => by
    rw [backOff]
    split_ifs
    · exact Nat.le_refl _
    · exact le_succ_of_le (backOff_le p n)

theorem reverse_slice {k : ℕ} (h : n + k ≤ l.length) :
    (slice l (l.length - n - k) (l.length - n)).reverse = slice l.reverse n (n + k) := by
  rw [slice, slice, take_reverse, drop_reverse, length_drop, drop_take,
    show l.length - (n + k) = l.length - n - k by omega,
    show l.length - n - (l.length - n - k) = k by omega,
    show l.length - (l.length - n - k) - n = k by omega]

/-! ## Chunks -/

/-- Cut a list of at most `fuel` elements into pieces of `n` elements, the last
    one possibly shorter. -/
def chunksFuel (n : ℕ) : ℕ → List α → List (List α)
  | 0, _ => []
  | fuel + 1, l => if l.isEmpty then [] else l.take n :: chunksFuel n fuel (l.drop n)

/-- The pieces of `n` elements of a list, the last one possibly shorter. -/
def chunks (n : ℕ) (l : List α) : List (List α) :=
  chunksFuel n l.length l

theorem flatten_chunksFuel (hn : 0 < n) :
    ∀ (fuel : ℕ) (l : List α), l.length ≤ fuel → (chunksFuel n fuel l).flatten = l
  | 0, l, h => by have : l = [] := eq_nil_of_length_eq_zero (by omega); simp [chunksFuel, this]
  | fuel + 1, l, h => by
    by_cases hl : l.isEmpty
    · simp_all [chunksFuel]
    have hd : (l.drop n).length ≤ fuel := by simp only [length_drop]; omega
    simp [chunksFuel, hl, flatten_chunksFuel hn fuel _ hd]

theorem flatten_chunks (hn : 0 < n) : (chunks n l).flatten = l :=
  flatten_chunksFuel hn _ l (Nat.le_refl _)

theorem length_of_mem_chunksFuel :
    ∀ (fuel : ℕ) (l : List α), ∀ c ∈ chunksFuel n fuel l, c.length ≤ n
  | 0, l, c, hc => by simp [chunksFuel] at hc
  | fuel + 1, l, c, hc => by
    by_cases hl : l.isEmpty
    · simp [chunksFuel, hl] at hc
    simp only [chunksFuel, hl, Bool.false_eq_true, ↓reduceIte, mem_cons] at hc
    rcases hc with rfl | hc
    · exact length_take_le n l
    · exact length_of_mem_chunksFuel fuel _ c hc

theorem length_of_mem_chunks {c : List α} (hc : c ∈ chunks n l) : c.length ≤ n :=
  length_of_mem_chunksFuel _ l c hc

theorem chunks_ne_nil (hl : l ≠ []) : chunks n l ≠ [] := by
  cases l with
  | nil => exact absurd rfl hl
  | cons a l => simp [chunks, chunksFuel]

end Lib
