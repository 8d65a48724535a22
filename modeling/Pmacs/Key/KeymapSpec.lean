/-
  A keymap is a prefix-free map from sequences to bindings.

  * `Branch.held es` is the map that the entries `es` of a trie stand for, `EntriesWf`
    that keys are distinct and no submap is empty;
  * one lemma an operation: `lookup_pending_iff`, `checkBindPath_ok_iff`,
    `bindRecursive_spec`, `unbindRecursive_spec`, `mem_collectPairs`;
  * `run_refines`: after any calls the keymap stands for the map that they make.
-/
import Pmacs.Key.Keymap

namespace Pmacs

open Lib Function List
open Option hiding sequence

namespace Branch

variable {branch : Branch} {head : Chord} {sequence : Sequence}

/-! ## The map of a trie -/

variable (branches : List (Chord × Branch))

def held (sequence : Sequence) : Option Binding :=
  match lookup sequence branches with
  | .bound b => some b
  | _ => none

def heldBelow : Branch → Sequence → Option Binding
  | leaf b, rest => if rest.isEmpty then some b else none
  | submap branches, rest => held branches rest

@[simp]
theorem held_nil : held branches [] = none := rfl

theorem held_cons (head : Chord) (tail : Sequence) :
    held branches (head :: tail) = (get? head branches).bind fun branch => branch.heldBelow tail := by
  rw [held, lookup]
  cases get? head branches with
  | none => rfl
  | some branch =>
    cases branch with
    | leaf | submap => cases tail <;> rfl

theorem held_empty : held [] = fun _ => none := by
  funext s
  cases s <;> rfl

theorem lookup_bound_iff {branches : List (Chord × Branch)} {b : Binding} :
    lookup sequence branches = .bound b ↔ held branches sequence = some b := by
  rw [held]
  cases lookup sequence branches <;> simp

mutual

/-- Below a well-formed entry no submap is empty and keys are distinct. -/
def Wf : Branch → Prop
  | leaf _ => True
  | submap branches => branches ≠ [] ∧ DistinctKeys branches ∧ AllWf branches

def AllWf : List (Chord × Branch) → Prop
  | [] => True
  | (_, branch) :: branches => branch.Wf ∧ AllWf branches

end

/-- Entries with distinct keys, each well formed. -/
structure EntriesWf (branches : List (Chord × Branch)) : Prop where
  distinct : DistinctKeys branches
  all : AllWf branches

theorem AllWf.get? {branches : List (Chord × Branch)} (h : AllWf branches)
    (hget : get? head branches = some branch) : branch.Wf := by
  induction branches with
  | nil => cases hget
  | cons e branches ih =>
    obtain ⟨chord, other⟩ := e; rw [Lib.get?] at hget
    split_ifs at hget
    · cases hget; exact h.1
    · exact ih h.2 hget

theorem AllWf.put {branches : List (Chord × Branch)} (h : AllWf branches)
    (hbranch : branch.Wf) (head : Chord) : AllWf (put head branch branches) := by
  induction branches with
  | nil => exact ⟨hbranch, trivial⟩
  | cons e branches ih =>
    obtain ⟨chord, other⟩ := e; rw [Lib.put]
    split_ifs
    · exact ⟨hbranch, h.2⟩
    · exact ⟨h.1, ih h.2⟩

theorem AllWf.remove {branches : List (Chord × Branch)} (h : AllWf branches) (head : Chord) :
    AllWf (remove head branches) := by
  induction branches with
  | nil => trivial
  | cons e branches ih =>
    obtain ⟨chord, other⟩ := e; rw [Lib.remove, filter_cons]
    split_ifs
    · exact ⟨h.1, ih h.2⟩
    · exact ih h.2

namespace EntriesWf

theorem nil : EntriesWf [] := ⟨nodup_nil, trivial⟩

theorem put {branches : List (Chord × Branch)} (h : EntriesWf branches)
    (hbranch : branch.Wf) (head : Chord) : EntriesWf (put head branch branches) :=
  ⟨h.distinct.put head branch, h.all.put hbranch head⟩

theorem remove {branches : List (Chord × Branch)} (h : EntriesWf branches) (head : Chord) :
    EntriesWf (remove head branches) := ⟨h.distinct.remove head, h.all.remove head⟩

theorem sub {branches sub : List (Chord × Branch)} (h : EntriesWf branches)
    (hget : get? head branches = some (submap sub)) : EntriesWf sub ∧ sub ≠ [] := by
  have hwf := h.all.get? hget
  exact ⟨⟨hwf.2.1, hwf.2.2⟩, hwf.1⟩

theorem submap {sub : List (Chord × Branch)} (h : EntriesWf sub) (hne : sub ≠ []) :
    (submap sub).Wf := by
  exact ⟨hne, h.distinct, h.all⟩

end EntriesWf

theorem exists_heldBelow : ∀ {branch : Branch}, branch.Wf → ∃ rest, branch.heldBelow rest ≠ none
  | leaf b, _ => ⟨[], by simp [heldBelow]⟩
  | submap [], h => by exact absurd rfl h.1
  | submap ((chord, branch) :: branches), h => by
    obtain ⟨rest, hrest⟩ := exists_heldBelow h.2.2.1
    refine ⟨chord :: rest, ?_⟩; rw [heldBelow, held_cons]; simpa [get?] using hrest

theorem exists_held {branches : List (Chord × Branch)} (h : EntriesWf branches)
    (hne : branches ≠ []) : ∃ rest, rest ≠ [] ∧ held branches rest ≠ none := by
  obtain ⟨rest, hrest⟩ := exists_heldBelow (h.submap hne)
  refine ⟨rest, ?_, hrest⟩
  rintro rfl
  exact hrest rfl

theorem held_prefixFree : PrefixFree (held branches) := by
  intro s
  induction s generalizing branches with
  | nil => exact fun _ h => absurd rfl h
  | cons head tail ih =>
    rintro t hs ht hst; obtain ⟨rest, rfl⟩ := hst; rw [cons_append] at ht ⊢
    rw [held_cons] at hs ht
    cases hget : get? head branches with
    | none => simp [hget] at hs
    | some branch =>
      cases branch with
      | leaf b =>
        simp only [hget, Option.bind_some, heldBelow, List.isEmpty_iff] at hs ht
        simp_all
      | submap sub =>
        simp only [hget, Option.bind_some, heldBelow] at hs ht
        rw [← ih sub (tail ++ rest) hs ht (prefix_append tail rest)]

/-! ## Walking a sequence -/

theorem lookup_pending_iff {branches : List (Chord × Branch)} (h : EntriesWf branches)
    (hne : sequence ≠ []) : lookup sequence branches = .pending ↔
      ∃ rest, rest ≠ [] ∧ held branches (sequence ++ rest) ≠ none := by
  induction sequence generalizing branches with
  | nil => exact absurd rfl hne
  | cons head tail ih =>
    simp only [cons_append, held_cons]; rw [lookup]
    cases hget : get? head branches with
    | none => simp
    | some branch =>
      cases branch with
      | leaf b => cases tail <;> simp [heldBelow]
      | submap sub =>
        obtain ⟨hsub, hsubne⟩ := h.sub hget
        cases tail with
        | nil => simpa [heldBelow] using exists_held hsub hsubne
        | cons next tail => simpa [heldBelow] using ih hsub (cons_ne_nil next tail)

/-! ## Binding -/

variable {s : Sequence}

theorem apart_cons {t : Sequence} : Apart (head :: s) (head :: t) ↔ Apart s t := by
  simp [Apart]

theorem apart_of_ne {head' : Chord} (h : head ≠ head') (s t : Sequence) :
    Apart (head :: s) (head' :: t) := by
  simp [Apart, h, Ne.symm h]

/-- Whether a sequence is apart from all that a trie holds, told from its first chord. -/
theorem apart_held_cons {branches : List (Chord × Branch)} {tail : Sequence} :
    (∀ t, held branches t ≠ none → Apart (head :: tail) t) ↔
      ∀ branch, get? head branches = some branch →
        ∀ t, branch.heldBelow t ≠ none → Apart tail t := by
  constructor
  · intro h branch hget t ht
    have hheld : held branches (head :: t) ≠ none := by rw [held_cons, hget]; exact ht
    exact apart_cons.1 (h (head :: t) hheld)
  intro h t ht
  cases t with
  | nil => exact absurd rfl ht
  | cons head' t =>
    by_cases hhead : head = head'
    · subst hhead; rw [held_cons] at ht
      cases hget : get? head branches with
      | none => simp [hget] at ht
      | some branch => rw [hget] at ht; exact apart_cons.2 (h branch hget t ht)
    · exact apart_of_ne hhead tail t

theorem checkBindPath_ok_iff {branches : List (Chord × Branch)} (h : EntriesWf branches)
    (hne : sequence ≠ []) (command : String) : checkBindPath command sequence branches = .ok () ↔
      ∀ t, held branches t ≠ none → Apart sequence t := by
  induction sequence generalizing branches with
  | nil => exact absurd rfl hne
  | cons head tail ih =>
    rw [apart_held_cons, checkBindPath]
    cases hget : get? head branches with
    | none => simp
    | some branch =>
      cases branch with
      | leaf b => cases tail <;> simp [heldBelow, Apart]
      | submap sub =>
        obtain ⟨hsub, hsubne⟩ := h.sub hget
        cases tail with
        | nil =>
          obtain ⟨rest, _, hrest⟩ := exists_held hsub hsubne
          simp only [isEmpty_nil, if_true, reduceCtorEq, some.injEq, forall_eq',
            heldBelow, false_iff, not_forall]
          exact ⟨rest, hrest, by simp [Apart]⟩
        | cons next tail => simpa [heldBelow] using ih hsub (cons_ne_nil next tail)

/-- **Binding** a sequence that is apart from all that is bound. -/
theorem bindRecursive_spec {branches : List (Chord × Branch)} (h : EntriesWf branches)
    (hne : sequence ≠ [])
    (hapart : ∀ t, held branches t ≠ none → Apart sequence t) (binding : Binding) :
    ∃ branches', bindRecursive binding sequence branches = some branches' ∧
      EntriesWf branches' ∧ branches' ≠ [] ∧
      held branches' = Function.update (held branches) sequence (some binding) := by
  induction sequence generalizing branches with
  | nil => exact absurd rfl hne
  | cons head tail ih =>
    rw [apart_held_cons] at hapart; rw [bindRecursive]
    -- what is held when the entry at `head` holds what it held below it, and the sequence
    have hupdate : ∀ branch : Branch, branch.Wf →
        branch.heldBelow = Function.update
          (fun rest => held branches (head :: rest)) tail (some binding) →
        EntriesWf (put head branch branches) ∧
          held (put head branch branches) =
            Function.update (held branches) (head :: tail) (some binding) := by
      intro branch hwf hbelow
      refine ⟨h.put hwf head, ?_⟩; funext t
      cases t with
      | nil => simp [Function.update]
      | cons head' rest =>
        rw [held_cons, get?_put]
        by_cases hhead : head' = head
        · subst hhead; rw [if_pos rfl, Option.bind_some, hbelow]; simp [Function.update]
        · rw [if_neg hhead, update_of_ne (by simp [hhead]), held_cons]
    cases tail with
    | nil =>
      refine ⟨_, if_pos rfl, ?_, put_ne_nil, ?_⟩
      all_goals
        have hbelow : (leaf binding).heldBelow = Function.update
            (fun rest => held branches (head :: rest)) [] (some binding) := by
          funext rest
          cases rest with
          | nil => rfl
          | cons next rest =>
            rw [update_of_ne (by simp), held_cons]
            cases hget : get? head branches with
            | none => rfl
            | some branch =>
              by_contra hheld
              have := (hapart branch hget (next :: rest) (Ne.symm hheld)).1; simp at this
      · exact (hupdate (leaf binding) trivial hbelow).1
      · exact (hupdate (leaf binding) trivial hbelow).2
    | cons next tail =>
      have hbind : ∀ sub : List (Chord × Branch), EntriesWf sub →
          (held sub = fun rest => held branches (head :: rest)) →
          ∃ branches', (bindRecursive binding (next :: tail) sub).map
              (fun sub => put head (submap sub) branches) = some branches' ∧
            EntriesWf branches' ∧ branches' ≠ [] ∧
            held branches' = Function.update (held branches) (head :: next :: tail) (some binding) := by
        intro sub hsub hheld
        have hapart' : ∀ t, held sub t ≠ none → Apart (next :: tail) t := by
          intro t ht
          have ht' : held branches (head :: t) ≠ none := by rwa [hheld] at ht
          rw [held_cons] at ht'
          cases hget : get? head branches with
          | none => simp [hget] at ht'
          | some branch => rw [hget] at ht'; exact hapart branch hget t ht'
        obtain ⟨sub', hsub', hwf, hsubne, hheld'⟩ := ih hsub (cons_ne_nil next tail) hapart'
        have hentry := hupdate (submap sub') (hwf.submap hsubne) (by
          rw [← hheld, ← hheld']; rfl)
        exact ⟨_, by rw [hsub', map_some], hentry.1, put_ne_nil, hentry.2⟩
      cases hget : get? head branches with
      | none =>
        refine hbind [] .nil ?_; funext rest; rw [held_cons, hget, held_empty]
        rfl
      | some branch =>
        cases branch with
        | leaf b => have := (hapart (leaf b) hget [] (by simp [heldBelow])).2; simp at this
        | submap sub =>
          refine hbind sub (h.sub hget).1 ?_; funext rest; rw [held_cons, hget]
          rfl

/-! ## Unbinding -/

theorem held_of_unbound {branches : List (Chord × Branch)}
    (h : held branches s = none) : held branches = Function.update (held branches) s none := by
  rw [← h, update_eq_self]

/-- **Unbinding** a sequence: its binding, and the trie without it. -/
theorem unbindRecursive_spec {branches : List (Chord × Branch)} (h : EntriesWf branches)
    (sequence : Sequence) : (unbindRecursive sequence branches).1 = held branches sequence ∧
      EntriesWf (unbindRecursive sequence branches).2 ∧
      held (unbindRecursive sequence branches).2 = Function.update (held branches) sequence none ∧
      (held branches sequence = none → (unbindRecursive sequence branches).2 = branches) := by
  induction sequence generalizing branches with
  | nil => exact ⟨rfl, h, held_of_unbound rfl, fun _ => rfl⟩
  | cons head tail ih =>
    -- what is held when the entry at `head` is gone, nothing else having been below it
    have hgone : (∀ rest, rest ≠ tail → held branches (head :: rest) = none) →
        held (remove head branches) = Function.update (held branches) (head :: tail) none := by
      intro hnothing; funext t
      cases t with
      | nil => simp [Function.update]
      | cons head' rest =>
        rw [held_cons, get?_remove]
        by_cases hhead : head' = head
        · subst hhead; rw [if_pos rfl]
          by_cases hrest : rest = tail
          · simp [hrest]
          · rw [update_of_ne (by simp [hrest]), hnothing rest hrest]; rfl
        · rw [if_neg hhead, update_of_ne (by simp [hhead]), held_cons]
    rw [unbindRecursive]
    cases hget : get? head branches with
    | none =>
      have hnone : held branches (head :: tail) = none := by simp [held_cons, hget]
      rw [hnone]; have heq := held_of_unbound hnone
      cases tail <;> exact ⟨rfl, h, heq, fun _ => rfl⟩
    | some branch =>
      cases branch with
      | leaf b =>
        cases tail with
        | nil =>
          have hb : held branches [head] = some b := by simp [held_cons, hget, heldBelow]
          rw [hb]
          refine ⟨rfl, h.remove head, hgone ?_, nofun⟩; intro rest hrest
          simp [held_cons, hget, heldBelow, hrest]
        | cons next tail =>
          have hnone : held branches (head :: next :: tail) = none := by
            simp [held_cons, hget, heldBelow]
          rw [hnone]; exact ⟨rfl, h, held_of_unbound hnone, fun _ => rfl⟩
      | submap sub =>
        obtain ⟨hsub, hsubne⟩ := h.sub hget
        have hbelow : ∀ rest, held branches (head :: rest) = held sub rest := by
          intro rest; rw [held_cons, hget]; rfl
        cases tail with
        | nil =>
          have hnone := hbelow []; rw [hnone]; exact ⟨rfl, h, held_of_unbound hnone, fun _ => rfl⟩
        | cons next tail =>
          obtain ⟨hfound, hwf, hheld, hsame⟩ := ih hsub; rw [if_neg (by simp), hbelow]
          cases hrec : unbindRecursive (next :: tail) sub with
          | mk found sub' =>
            rw [hrec] at hfound hwf hheld hsame; dsimp only at hfound hwf hheld hsame; rw [← hfound]
            cases found with
            | none =>
              simp only [hrec]; rw [hsame hfound.symm, put_self hget]
              exact ⟨trivial, h, held_of_unbound (by rw [hbelow, ← hfound]), fun _ => rfl⟩
            | some b =>
              simp only [hrec]
              refine ⟨trivial, ?_, ?_, nofun⟩
              · split_ifs with hempty
                · exact h.remove head
                · exact h.put (hwf.submap fun hnil => hempty (by simp [hnil])) head
              split_ifs with hempty
              · refine hgone ?_; intro rest hrest
                rw [hbelow, ← update_of_ne hrest none (held sub), ← hheld,
                  List.isEmpty_iff.1 hempty, held_empty]
              funext t
              cases t with
              | nil => simp [Function.update]
              | cons head' rest =>
                rw [held_cons, get?_put]
                by_cases hhead : head' = head
                · subst hhead; rw [if_pos rfl, Option.bind_some, heldBelow, hheld]
                  by_cases hrest : rest = next :: tail
                  · simp [hrest]
                  · rw [update_of_ne hrest, update_of_ne (by simp [hrest]), hbelow]
                · rw [if_neg hhead, update_of_ne (by simp [hhead]), held_cons]

/-! ## Listing -/

mutual

theorem mem_collectBranch {b : Binding} : ∀ {path : Sequence} {branch : Branch},
    branch.Wf → ((s, b) ∈ collectBranch path branch ↔
      ∃ rest, s = path ++ rest ∧ branch.heldBelow rest = some b)
  | path, leaf b', _ => by
    rw [collectBranch, mem_singleton, Prod.mk.injEq]
    constructor
    · rintro ⟨rfl, rfl⟩; exact ⟨[], by simp, rfl⟩
    rintro ⟨rest, rfl, hrest⟩; rw [heldBelow] at hrest
    split_ifs at hrest with hempty
    cases hrest; rw [List.isEmpty_iff.1 hempty, append_nil]; exact ⟨rfl, rfl⟩
  | path, submap branches, h => by
    rw [collectBranch, mem_collectPairs_entries h.2.2]; simp only [heldBelow]
    constructor
    · rintro ⟨e, he, rest, rfl, hrest⟩
      refine ⟨e.1 :: rest, rfl, ?_⟩; rw [held_cons, (mem_iff_get? h.2.1).1 he]; exact hrest
    rintro ⟨rest, rfl, hrest⟩
    cases rest with
    | nil => cases hrest
    | cons head rest =>
      rw [held_cons, bind_eq_some_iff] at hrest; obtain ⟨branch, hget, hbelow⟩ := hrest
      exact ⟨(head, branch), (mem_iff_get? h.2.1).2 hget, rest, rfl, hbelow⟩

theorem mem_collectPairs_entries {b : Binding} :
    ∀ {path : Sequence} {branches : List (Chord × Branch)}, AllWf branches →
      ((s, b) ∈ collectPairs path branches ↔
        ∃ e ∈ branches, ∃ rest, s = path ++ e.1 :: rest ∧ e.2.heldBelow rest = some b)
  | path, [], _ => by simp [collectPairs]
  | path, (chord, branch) :: branches, h => by
    rw [collectPairs, mem_append, mem_collectBranch h.1, mem_collectPairs_entries h.2]
    simp

end

theorem mem_collectPairs {branches : List (Chord × Branch)} (h : EntriesWf branches)
    {b : Binding} : (s, b) ∈ collectPairs [] branches ↔ held branches s = some b := by
  by_cases hne : branches = []
  · subst hne; simp [collectPairs, held_empty]
  have hmem := @mem_collectBranch s b [] _ (h.submap hne); rw [collectBranch] at hmem; rw [hmem]
  simp [heldBelow]

mutual

theorem nodup_collectBranch : ∀ {path : Sequence} {branch : Branch}, branch.Wf →
    ((collectBranch path branch).map Prod.fst).Nodup
  | path, leaf b, _ => by simp [collectBranch]
  | path, submap branches, h => by exact nodup_collectPairs h.2.1 h.2.2

theorem nodup_collectPairs : ∀ {path : Sequence} {branches : List (Chord × Branch)},
    DistinctKeys branches → AllWf branches → ((collectPairs path branches).map Prod.fst).Nodup
  | path, [], _, _ => by simp [collectPairs]
  | path, (chord, branch) :: branches, hdistinct, h => by
    rw [DistinctKeys, map_cons, nodup_cons] at hdistinct
    rw [collectPairs, map_append, nodup_append]
    refine ⟨nodup_collectBranch h.1, nodup_collectPairs hdistinct.2 h.2, ?_⟩; intro s hs t ht heq
    subst heq; obtain ⟨⟨s', b⟩, hmem, rfl⟩ := mem_map.1 hs
    obtain ⟨⟨t', b'⟩, hmem', htt⟩ := mem_map.1 ht; dsimp only at htt; subst htt
    obtain ⟨rest, hrest, _⟩ := (mem_collectBranch h.1).1 hmem
    obtain ⟨e, he, rest', hrest', _⟩ := (mem_collectPairs_entries h.2).1 hmem'
    rw [hrest, append_assoc, append_cancel_left_eq] at hrest'
    refine hdistinct.1 (mem_map.2 ⟨e, he, ?_⟩); exact (cons.inj hrest').1.symm

end

end Branch

/-! ## Runs -/

inductive KeymapCall where
  | bind (sequence : Sequence) (command : String) (source : SourceLocation)
  | unbind (sequence : Sequence)

namespace Keymap

/-- The keymap after a call; none where the code takes it to be unreachable. -/
def perform (m : Keymap) : KeymapCall → Option Keymap
  | .bind sequence command source => (m.bind sequence command source).map Prod.snd
  | .unbind sequence => some (m.unbind sequence).2

/-- Whether a sequence may be added to a map: it is not empty, not bound, and the map
    stays prefix-free. -/
def Addable (held : Sequence → Option Binding) (sequence : Sequence) (b : Binding) : Prop :=
  sequence ≠ [] ∧ held sequence = none ∧ PrefixFree (Function.update held sequence (some b))

open Classical in
/-- What a call makes of a prefix-free map. -/
noncomputable def after (held : Sequence → Option Binding) : KeymapCall → Sequence → Option Binding
  | .bind sequence command source =>
    if Addable held sequence ⟨command, source⟩ then
      Function.update held sequence (some ⟨command, source⟩)
    else held
  | .unbind sequence => Function.update held sequence none

/-- The keymaps that calls lead to from an empty one, with the maps they make. -/
inductive Run : Keymap → (Sequence → Option Binding) → Prop where
  | new : Run new fun _ => none
  | call {m m' : Keymap} {held : Sequence → Option Binding} {c : KeymapCall} :
    Run m held → m.perform c = some m' → Run m' (after held c)

/-- A keymap refines a map from sequences to bindings. -/
structure Refines (m : Keymap) (held : Sequence → Option Binding) : Prop where
  prefixFree : PrefixFree held
  bind : ∀ sequence command source, ∃ reply m', m.bind sequence command source = some (reply, m') ∧
    (reply = .ok () ↔ Addable held sequence ⟨command, source⟩) ∧ (reply ≠ .ok () → m' = m)
  unbind : ∀ sequence,
    (∀ b, (m.unbind sequence).1 = .ok b ↔ held sequence = some b) ∧
      (held sequence = none → (m.unbind sequence).2 = m)
  bound : ∀ sequence b, m.lookup sequence = .bound b ↔ held sequence = some b
  pending : ∀ sequence, sequence ≠ [] → (m.lookup sequence = .pending ↔
    ∃ rest, rest ≠ [] ∧ held (sequence ++ rest) ≠ none)
  iter : ∀ sequence b, (sequence, b) ∈ m.iter ↔ held sequence = some b
  once : (m.iter.map Prod.fst).Nodup
  noEmptySubmap : Branch.EntriesWf m.branches

theorem refines_of_wf {m : Keymap} (h : Branch.EntriesWf m.branches) :
    m.Refines (Branch.held m.branches) where
  prefixFree := Branch.held_prefixFree m.branches
  bind := by
    intro sequence command source; rw [Keymap.bind]
    by_cases hempty : sequence = []
    · subst hempty
      refine ⟨_, m, if_pos rfl, ?_, fun _ => rfl⟩; simp [Addable]
    rw [if_neg (by simpa using hempty)]; have hok := Branch.checkBindPath_ok_iff h hempty command
    have haddable : Addable (Branch.held m.branches) sequence ⟨command, source⟩ ↔
        ∀ t, Branch.held m.branches t ≠ none → Apart sequence t := by
      rw [Addable, prefixFree_update_iff (Branch.held_prefixFree m.branches)]
      constructor
      · rintro ⟨_, hunbound, hapart⟩ t ht
        refine hapart t ht ?_; rintro rfl; exact ht hunbound
      intro hapart
      refine ⟨hempty, ?_, fun t ht _ => hapart t ht⟩
      by_contra hbound
      exact (hapart sequence hbound).1 (prefix_refl sequence)
    cases hcheck : Branch.checkBindPath command sequence m.branches with
    | error e => refine ⟨.error e, m, rfl, ?_, fun _ => rfl⟩; rw [haddable, ← hok, hcheck]
    | ok u =>
      obtain ⟨branches', hbind, _⟩ := Branch.bindRecursive_spec h hempty (hok.1 hcheck)
        ⟨command, source⟩
      refine ⟨.ok (), ⟨branches'⟩, by simp only [hbind, map_some], ?_, fun hne => absurd rfl hne⟩
      rw [haddable, ← hok, hcheck]
  unbind := by
    intro sequence; obtain ⟨hfound, _, _, hsame⟩ := Branch.unbindRecursive_spec h sequence
    rw [Keymap.unbind]
    by_cases hempty : sequence = []
    · subst hempty; simp
    rw [if_neg (by simpa using hempty), ← hfound]; rw [← hfound] at hsame
    cases hrec : Branch.unbindRecursive sequence m.branches with
    | mk found branches' =>
      rw [hrec] at hsame
      cases found with
      | none =>
        have hm : (⟨branches'⟩ : Keymap) = m := congrArg Keymap.mk (hsame rfl); simpa using hm
      | some b => simp
  bound sequence b := Branch.lookup_bound_iff
  pending sequence hne := Branch.lookup_pending_iff h hne
  iter sequence b := Branch.mem_collectPairs h
  once := Branch.nodup_collectPairs h.distinct h.all
  noEmptySubmap := h

/-- A call keeps a trie well formed, and makes of what it holds what it should. -/
theorem perform_spec {m m' : Keymap} (h : Branch.EntriesWf m.branches) {c : KeymapCall}
    (hperform : m.perform c = some m') :
    Branch.EntriesWf m'.branches ∧ Branch.held m'.branches = after (Branch.held m.branches) c := by
  have hrefines := refines_of_wf h
  cases c with
  | bind sequence command source =>
    obtain ⟨reply, m'', hbind, hok, hsame⟩ := hrefines.bind sequence command source
    rw [perform, hbind] at hperform; cases hperform; rw [after]
    by_cases haddable : Addable (Branch.held m.branches) sequence ⟨command, source⟩
    · rw [if_pos haddable]; have hne : sequence ≠ [] := haddable.1
      rw [Keymap.bind, if_neg (by simpa using hne)] at hbind
      cases hcheck : Branch.checkBindPath command sequence m.branches with
      | error e => rw [hcheck] at hbind; cases hbind; cases hok.2 haddable
      | ok u =>
        obtain ⟨branches', hrec, hwf, _, hheld⟩ := Branch.bindRecursive_spec h hne
          ((Branch.checkBindPath_ok_iff h hne command).1 hcheck) ⟨command, source⟩
        rw [hcheck] at hbind; simp only [hrec, map_some] at hbind; cases hbind
        exact ⟨hwf, hheld⟩
    · rw [if_neg haddable, hsame fun hreply => haddable (hok.1 hreply)]; exact ⟨h, rfl⟩
  | unbind sequence =>
    cases hperform; obtain ⟨_, hwf, hheld, _⟩ := Branch.unbindRecursive_spec h sequence
    rw [after, Keymap.unbind]
    by_cases hempty : sequence = []
    · subst hempty; exact ⟨h, (Branch.held_of_unbound rfl)⟩
    rw [if_neg (by simpa using hempty)]
    cases hrec : Branch.unbindRecursive sequence m.branches with
    | mk found branches' => rw [hrec] at hwf hheld; cases found <;> exact ⟨hwf, hheld⟩

theorem Run.wf {m : Keymap} {held : Sequence → Option Binding} (h : Run m held) :
    Branch.EntriesWf m.branches ∧ Branch.held m.branches = held := by
  induction h with
  | new => exact ⟨.nil, Branch.held_empty⟩
  | call _ hperform ih => obtain ⟨hwf, rfl⟩ := ih; exact perform_spec hwf hperform

/-- **After any calls a keymap refines the prefix-free map that they make.** -/
theorem run_refines {m : Keymap} {held : Sequence → Option Binding} (h : Run m held) :
    m.Refines held := by
  obtain ⟨hwf, rfl⟩ := h.wf
  exact refines_of_wf hwf

/-- Binding `x f` and unbinding it. -/
theorem run_refines_unbind : new.Refines (after (after (fun _ => none)
      (.bind [.plain (.char 'x'), .plain (.char 'f')] "find-file" ⟨"init", 1⟩))
      (.unbind [.plain (.char 'x'), .plain (.char 'f')])) :=
  run_refines (.call (.call .new rfl) rfl)

/-- Binding a bound sequence again is refused, though the map would stay prefix-free. -/
theorem rebind_refused : ∃ m held, Run m held ∧
      PrefixFree (Function.update held [.plain (.char 'x')] (some ⟨"second", ⟨"init", 2⟩⟩)) ∧
      ∃ e, m.bind [.plain (.char 'x')] "second" ⟨"init", 2⟩ = some (.error e, m) := by
  have hrun := Run.new.call (c := .bind [.plain (.char 'x')] "first" ⟨"init", 1⟩) rfl
  refine ⟨_, _, hrun, ?_, _, rfl⟩
  obtain ⟨_, hheld⟩ := hrun.wf
  rw [← hheld, prefixFree_update_iff (Branch.held_prefixFree _), hheld]
  intro t ht hne
  have haddable : Addable (fun _ => none) [.plain (.char 'x')] ⟨"first", ⟨"init", 1⟩⟩ := by
    refine ⟨by simp, rfl, ?_⟩; rw [prefixFree_update_iff .empty]; exact fun _ h => absurd rfl h
  rw [after, if_pos haddable, update_of_ne hne] at ht
  exact absurd rfl ht

end Keymap

end Pmacs
