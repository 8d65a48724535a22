/-
  The names a path can be shown by.

  * `name_injective`, `whole_mem_names`: they are told apart, and the whole path is no name
    of another path.
  * `names_eq_of_whole`, `names_congr`: paths that are one as a whole are shown by the same names.
-/
import Pmacs.Naming.Names

namespace Pmacs.Naming

open Lib List Option Nat

/-! ## Joined parts -/

variable (parts : List (List Char))

/-- What the parts of a path are: not empty, and without a `/`. -/
def PartsOk : Prop := ∀ part ∈ parts, part ≠ [] ∧ '/' ∉ part

theorem components_ok (path : PathBuf) : PartsOk (components path) := by
  intro part h
  simp only [components, mem_filterMap] at h
  obtain ⟨c, -, hc⟩ := h
  cases c with
  | normal p => cases hc; exact ⟨p.text_ne, p.no_slash⟩
  | rootDir | curDir | parentDir => cases hc

@[simp] theorem slashed_nil : slashed [] = [] := rfl

@[simp] theorem slashed_cons (part : List Char) {parts : List (List Char)} :
    slashed (part :: parts) = '/' :: (part ++ slashed parts) := by simp [slashed]

@[simp] theorem slashed_append (parts' : List (List Char)) :
    slashed (parts ++ parts') = slashed parts ++ slashed parts' := by simp [slashed]

theorem slashed_eq {parts : List (List Char)} (h : parts ≠ []) :
    slashed parts = '/' :: joinSlash parts := by
  cases parts with
  | nil => exact absurd rfl h
  | cons part parts => rw [slashed_cons, joinSlash]

/-- The first part is what comes before the next `/`. -/
theorem takeWhile_slash {part : List Char} (h : '/' ∉ part) {parts : List (List Char)} :
    (part ++ slashed parts).takeWhile (· ≠ '/') = part := by
  rw [takeWhile_append_of_pos]
  · cases parts <;> simp
  intro c hc; simp only [decide_eq_true_eq]; rintro rfl
  exact h hc

theorem slashed_injective : ∀ {parts parts' : List (List Char)}, PartsOk parts →
    PartsOk parts' → slashed parts = slashed parts' → parts = parts'
  | [], [], _, _, _ => rfl
  | [], _ :: _, _, _, h => by simp at h
  | _ :: _, [], _, _, h => by simp at h
  | part :: parts, part' :: parts', hp, hp', h => by
    rw [slashed_cons, slashed_cons, cons.injEq] at h
    have hpart : part = part' := by
      have := congrArg (List.takeWhile (· ≠ '/')) h.2
      rwa [takeWhile_slash (hp part (.head _)).2, takeWhile_slash (hp' part' (.head _)).2] at this
    subst hpart
    rw [slashed_injective (fun q hq => hp q (.tail _ hq)) (fun q hq => hp' q (.tail _ hq))
      (append_cancel_left h.2)]

/-- What joined parts are: something that is empty or ends in a `/`, and the last part. -/
theorem joinSlash_concat (last : List Char) : ∃ front, (front = [] ∨ ∃ f, front = f ++ ['/']) ∧
      joinSlash (parts ++ [last]) = front ++ last := by
  cases parts with
  | nil => exact ⟨[], .inl rfl, by simp [joinSlash]⟩
  | cons part parts => refine ⟨part ++ slashed parts ++ ['/'], .inr ⟨_, rfl⟩, ?_⟩; simp [joinSlash]

/-! ## The names of a path -/

/-- `/` after a directory's name. -/
def tailSlash (directory : Bool) : List Char := if directory then ['/'] else []

/-- A text that ends in a part ends in no `/`. -/
theorem getLast?_ne_slash {last : List Char} (hne : last ≠ []) (hslash : '/' ∉ last)
    (front : List Char) : (front ++ last).getLast? ≠ some '/' := by
  rw [getLast?_append_of_ne_nil _ hne]
  exact fun h => hslash (mem_of_getLast? h)

theorem getLast?_tailSlash {last : List Char} (hne : last ≠ []) (hslash : '/' ∉ last)
    (front : List Char) (directory : Bool) :
    (front ++ last ++ tailSlash directory).getLast? = some '/' ↔ directory = true := by
  cases directory with
  | false => simpa [tailSlash] using getLast?_ne_slash hne hslash front
  | true => simp [tailSlash]

/-- The name of the given depth without the mark of a directory. -/
def unmarked (depth : ℕ) : List Char :=
  if parts.length < depth then '/' :: joinSlash parts
  else joinSlash (parts.drop (parts.length - depth))

variable {directory : Bool}

theorem render_unmarked (depth : ℕ) : render parts depth directory =
      if directory ∧ (unmarked parts depth).getLast? ≠ some '/' then
        unmarked parts depth ++ ['/']
      else unmarked parts depth := rfl

variable {depth : ℕ}

theorem unmarked_eq (init : List (List Char)) (last : List Char) (hd : 0 < depth) :
    ∃ front, (front = [] ∨ ∃ f, front = f ++ ['/']) ∧
      unmarked (init ++ [last]) depth = front ++ last := by
  unfold unmarked
  split
  · obtain ⟨front, hfront, heq⟩ := joinSlash_concat init last; rw [heq]
    rcases hfront with rfl | ⟨f, rfl⟩
    · exact ⟨['/'], .inr ⟨[], rfl⟩, rfl⟩
    · exact ⟨'/' :: f ++ ['/'], .inr ⟨'/' :: f, rfl⟩, by simp⟩
  rename_i hlen
  have hle : (init ++ [last]).length - depth ≤ init.length := by
    simp only [length_append, length_singleton] at hlen ⊢; omega
  rw [drop_append_of_le_length hle]; exact joinSlash_concat (init.drop _) last

variable {init : List (List Char)}

theorem unmarked_one {last : List Char} : unmarked (init ++ [last]) 1 = last := by
  simp [unmarked, joinSlash]

theorem render_root (hd : 0 < depth) : render [] depth directory = ['/'] := by
  simp [render, hd, joinSlash]

theorem render_marked {last : List Char} (hne : last ≠ []) (hslash : '/' ∉ last) (hd : 0 < depth) :
    render (init ++ [last]) depth directory =
      unmarked (init ++ [last]) depth ++ tailSlash directory := by
  obtain ⟨front, -, heq⟩ := unmarked_eq init last hd
  rw [render_unmarked, heq]
  have := getLast?_ne_slash hne hslash front
  cases directory <;> simp_all [tailSlash]

/-- The basename of a front, a part and a mark is the part and the mark. -/
theorem groupOf_eq {front last : List Char} (hfront : front = [] ∨ ∃ f, front = f ++ ['/'])
    (hne : last ≠ []) (hslash : '/' ∉ last) (directory : Bool) :
    groupOf (front ++ last ++ tailSlash directory) = last ++ tailSlash directory := by
  have hlast := getLast?_tailSlash hne hslash front directory
  have hbody : (if (front ++ last ++ tailSlash directory).getLast? = some '/' then
      (front ++ last ++ tailSlash directory).dropLast
      else front ++ last ++ tailSlash directory) = front ++ last := by
    simp only [hlast]; cases directory <;> simp [tailSlash]
  have hmark : (if (front ++ last ++ tailSlash directory).getLast? = some '/' then ['/'] else []) =
      tailSlash directory := by simp only [hlast]; cases directory <;> rfl
  have hrev : ∀ c ∈ last.reverse, decide (c ≠ '/') = true := by
    intro c hc; rw [decide_eq_true_eq]; rintro rfl
    exact hslash (mem_reverse.1 hc)
  unfold groupOf
  simp only [hbody, hmark]
  rcases hfront with rfl | ⟨f, rfl⟩
  · simp [hslash]
  rw [if_pos (by simp)]
  congr 1
  rw [reverse_append, reverse_append, takeWhile_append_of_pos hrev]; simp

namespace NamePath

variable (p : NamePath) {n : BufferName}

theorem mem_names : n ∈ p.names ↔ ∃ k ≤ (components p.path).length, p.name k = n := by
  simp only [names, List.mem_map, mem_range]
  constructor
  · rintro ⟨k, hk, rfl⟩; exact ⟨k, by omega, rfl⟩
  · rintro ⟨k, hk, rfl⟩; exact ⟨k, by omega, rfl⟩

@[simp] theorem length_names : p.names.length = (components p.path).length + 1 := by
  simp [names]

theorem parts_cases : components p.path = [] ∨
    ∃ init last, components p.path = init ++ [last] ∧ last ≠ [] ∧ '/' ∉ last := by
  rcases eq_nil_or_concat (components p.path) with h | ⟨init, last, h⟩
  · exact .inl h
  rw [concat_eq_append] at h
  refine .inr ⟨init, last, h, ?_⟩; exact components_ok p.path last (by simp [h])

/-- **Every name of a path is in its group.** -/
theorem groupOf_name (k : ℕ) : groupOf (p.name k) = p.group := by
  unfold group name
  rcases p.parts_cases with h | ⟨init, last, h, hne, hslash⟩
  · rw [h, render_root (succ_pos k), render_root (succ_pos 0)]; rfl
  rw [h, render_marked hne hslash (succ_pos k), render_marked hne hslash (succ_pos 0)]
  obtain ⟨front, hfront, heq⟩ := unmarked_eq init last (succ_pos k)
  rw [heq, groupOf_eq hfront hne hslash, unmarked_one]

theorem groupOf_mem (h : n ∈ p.names) : groupOf n = p.group := by
  obtain ⟨k, -, rfl⟩ := p.mem_names.1 h
  exact p.groupOf_name k

/-- No name of a path is another with something after it that has no `/`. -/
theorem not_mem_append {tail : BufferName} (h : n ∈ p.names) (hne : tail ≠ [])
    (hslash : '/' ∉ tail) : n ++ tail ∉ p.names := by
  intro hmem
  have hgroup := (p.groupOf_mem h).trans (p.groupOf_mem hmem).symm
  obtain ⟨k, -, hk⟩ := p.mem_names.1 h
  obtain ⟨l, -, hl⟩ := p.mem_names.1 hmem
  have hlast : (n ++ tail).getLast? ≠ some '/' := getLast?_ne_slash hne hslash n
  unfold name at hk hl
  rcases p.parts_cases with hparts | ⟨init, last, hparts, hlastne, hlastslash⟩
  · rw [hparts, render_root (succ_pos l)] at hl; rw [← hl] at hlast; exact hlast rfl
  rw [hparts, render_marked hlastne hlastslash (succ_pos k)] at hk
  rw [hparts, render_marked hlastne hlastslash (succ_pos l)] at hl
  obtain ⟨front, hfront, heq⟩ := unmarked_eq init last (succ_pos k)
  obtain ⟨front', -, heq'⟩ := unmarked_eq init last (succ_pos l)
  have hfile : p.directory = false := by
    rwa [← hl, heq', ne_eq, getLast?_tailSlash hlastne hlastslash, Bool.not_eq_true] at hlast
  rw [heq, hfile] at hk; have hleft := groupOf_eq hfront hlastne hlastslash false
  have hright := @groupOf_eq front (last ++ tail) hfront (by simp [hlastne])
    (by simp [hlastslash, hslash]) false
  simp only [tailSlash, Bool.false_eq_true, if_false, append_nil] at hk hleft hright
  rw [← hk, append_assoc, hleft, hright] at hgroup; have := congrArg List.length hgroup
  rw [length_append] at this; exact hne (length_eq_zero_iff.1 (by omega))

variable {k : ℕ}

theorem length_joinSlash_drop {parts : List (List Char)} (hk : k + 1 < parts.length) :
    (joinSlash (parts.drop (k + 1))).length < (joinSlash (parts.drop k)).length := by
  obtain ⟨part, part', rest, h⟩ : ∃ part part' rest, parts.drop k = part :: part' :: rest := by
    rw [drop_eq_getElem_cons (by omega), drop_eq_getElem_cons hk]; exact ⟨_, _, _, rfl⟩
  have h' : parts.drop (k + 1) = part' :: rest := by rw [← drop_drop, h]; rfl
  rw [h, h']
  simp only [joinSlash, slashed_cons, length_append, length_cons]
  omega

theorem length_name_lt (hk : k < (components p.path).length) :
    (p.name k).length < (p.name (k + 1)).length := by
  unfold name
  rcases p.parts_cases with h | ⟨init, last, h, hne, hslash⟩
  · rw [h] at hk; exact absurd hk (not_lt_zero k)
  rw [h] at hk ⊢
  rw [render_marked hne hslash (succ_pos k), render_marked hne hslash (succ_pos (k + 1)),
    length_append, length_append]
  apply Nat.add_lt_add_right; unfold unmarked; rw [if_neg (by omega)]
  split
  · rw [show (init ++ [last]).length - (k + 1) = 0 by omega, drop_zero, length_cons]
    exact lt_succ_self _
  rw [show (init ++ [last]).length - (k + 1) = (init ++ [last]).length - (k + 1 + 1) + 1 by
    omega]
  exact length_joinSlash_drop (by omega)

theorem length_name_strictMono {j : ℕ} (hjk : j < k) (hk : k ≤ (components p.path).length) :
    (p.name j).length < (p.name k).length := by
  induction k with
  | zero => exact absurd hjk (not_lt_zero j)
  | succ k ih =>
    have hstep := p.length_name_lt (k := k) (by omega)
    rcases Nat.lt_succ_iff_lt_or_eq.1 hjk with h | rfl
    · exact Nat.lt_trans (ih h (by omega)) hstep
    · exact hstep

/-- **The names of a path are told apart.** -/
theorem name_injective {j : ℕ} (hj : j ≤ (components p.path).length)
    (hk : k ≤ (components p.path).length) (h : p.name j = p.name k) : j = k := by
  rcases Nat.lt_trichotomy j k with hlt | heq | hgt
  · have := p.length_name_strictMono hlt hk; rw [h] at this; exact absurd this (Nat.lt_irrefl _)
  · exact heq
  · have := p.length_name_strictMono hgt hj; rw [h] at this; exact absurd this (Nat.lt_irrefl _)

theorem nodup_names : p.names.Nodup := by
  refine List.Nodup.map_on (fun j hj k hk h => ?_) nodup_range
  rw [mem_range] at hj hk
  exact p.name_injective (by omega) (by omega) h

/-! ### The whole path -/

theorem head?_joinSlash {parts : List (List Char)} (hp : PartsOk parts) :
    (joinSlash parts).head? ≠ some '/' := by
  cases parts with
  | nil => simp [joinSlash]
  | cons part parts =>
    obtain ⟨hne, hslash⟩ := hp part (.head _)
    cases part with
    | nil => exact absurd rfl hne
    | cons c part =>
      simp only [joinSlash, cons_append, head?_cons, ne_eq, some.injEq]; rintro rfl
      exact hslash (.head _)

theorem whole_eq : p.whole = if components p.path = [] then ['/']
    else slashed (components p.path) ++ tailSlash p.directory := by
  unfold whole name
  rcases p.parts_cases with h | ⟨init, last, h, hne, hslash⟩
  · rw [if_pos h, h]; exact render_root (succ_pos _)
  have hparts : init ++ [last] ≠ [] := by simp
  rw [h, if_neg hparts, render_marked hne hslash (succ_pos _), slashed_eq hparts]
  simp [unmarked]

theorem head?_whole : p.whole.head? = some '/' := by
  rw [whole_eq]
  split
  · rfl
  · rename_i h; rw [slashed_eq h]; rfl

theorem head?_name (hk : k < (components p.path).length) : (p.name k).head? ≠ some '/' := by
  unfold name
  rcases p.parts_cases with h | ⟨init, last, h, hne, hslash⟩
  · rw [h] at hk; exact absurd hk (not_lt_zero k)
  have hp := components_ok p.path; rw [h] at hk hp ⊢
  rw [render_marked hne hslash (succ_pos k)]
  obtain ⟨front, -, heq⟩ := unmarked_eq init last (succ_pos k)
  have hun : unmarked (init ++ [last]) (k + 1) ≠ [] := by rw [heq]; simp [hne]
  rw [head?_append_of_ne_nil _ hun]; unfold unmarked; rw [if_neg (by omega)]
  exact head?_joinSlash fun part hpart => hp part (mem_of_mem_drop hpart)

variable {q : NamePath}

/-- **The whole of a path is a name of no path but itself.** -/
theorem whole_mem_names (h : p.whole ∈ q.names) : p.whole = q.whole := by
  obtain ⟨k, hk, heq⟩ := q.mem_names.1 h
  rcases Nat.lt_or_eq_of_le hk with hlt | rfl
  · have := q.head?_name hlt; rw [heq] at this; exact absurd p.head?_whole this
  · exact heq.symm

/-- **Paths that are one as a whole are shown by the same names.** -/
theorem names_eq_of_whole (h : p.whole = q.whole) : p.name = q.name := by
  rw [whole_eq, whole_eq] at h
  have hp := components_ok p.path
  have hq := components_ok q.path
  -- a whole path ends in `/` just when it is a directory or the root
  rcases p.parts_cases with hp0 | ⟨init, last, hp1, hne, hslash⟩ <;>
    rcases q.parts_cases with hq0 | ⟨init', last', hq1, hne', hslash'⟩
  · ext k; simp [name, hp0, hq0, render_root]
  · rw [if_pos hp0, if_neg (by simp [hq1]), slashed_eq (by simp [hq1]), cons_append] at h
    obtain ⟨front, -, heq⟩ := joinSlash_concat init' last'; rw [hq1, heq] at h; simp [hne'] at h
  · rw [if_pos hq0, if_neg (by simp [hp1]), slashed_eq (by simp [hp1]), cons_append] at h
    obtain ⟨front, -, heq⟩ := joinSlash_concat init last; rw [hp1, heq] at h; simp [hne] at h
  rw [if_neg (by simp [hp1]), if_neg (by simp [hq1]), hp1, hq1] at h
  have hend {init : List (List Char)} {last : List Char} (hne : last ≠ [])
      (hslash : '/' ∉ last) (directory : Bool) :
      (slashed (init ++ [last]) ++ tailSlash directory).getLast? = some '/' ↔
        directory = true := by
    rw [slashed_append, slashed_cons, slashed_nil, append_nil,
      show slashed init ++ '/' :: last = (slashed init ++ ['/']) ++ last by simp]
    exact getLast?_tailSlash hne hslash _ directory
  have hdir : p.directory = q.directory := by
    rw [Bool.eq_iff_iff, ← hend hne hslash, ← hend hne' hslash', h]
  rw [hdir] at h; have hparts := slashed_injective (hp1 ▸ hp) (hq1 ▸ hq) (append_cancel_right h)
  ext k; simp [name, hp1, hq1, hparts, hdir]

theorem names_congr (h : p.whole = q.whole) : p.names = q.names := by
  have hname := p.names_eq_of_whole h
  have hle {p q : NamePath} (h : p.whole = q.whole) (hname : p.name = q.name) :
      (components p.path).length ≤ (components q.path).length := by
    by_contra hlt
    have := p.name_injective (Nat.le_refl _) (by omega)
      (h.trans (congrFun hname (components q.path).length).symm)
    omega
  unfold names
  rw [hname, Nat.le_antisymm (hle h hname) (hle h.symm hname.symm)]

end NamePath

end Pmacs.Naming
