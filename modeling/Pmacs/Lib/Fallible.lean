/-
  Computations that may fail, and what holds when they do not.

  * `Yields r Q`: the computation `r` succeeds, with a result that `Q` holds of;
  * `Yields.bind`, `Ensures.bind`, `yields_foldlM`: one step after another, and a loop of steps
    that keep an invariant.
-/
import Mathlib

namespace Lib

variable {α β : Type*} {r : Option α} {Q Q' : α → Prop} {a : α}

/-- `r` succeeds, with a result that `Q` holds of. -/
def Yields (r : Option α) (Q : α → Prop) : Prop := ∃ a, r = some a ∧ Q a

theorem yields_some (h : Q a) : Yields (some a) Q := ⟨a, rfl, h⟩

theorem Yields.mono (h : Yields r Q) (hle : ∀ a, Q a → Q' a) : Yields r Q' := by
  obtain ⟨a, hr, ha⟩ := h
  exact ⟨a, hr, hle a ha⟩

variable {R : β → Prop}

theorem Yields.bind {f : α → Option β} (h : Yields r Q)
    (hf : ∀ a, Q a → Yields (f a) R) : Yields (r.bind f) R := by
  obtain ⟨a, rfl, ha⟩ := h
  exact hf a ha

theorem Yields.map {f : α → β} (h : Yields r fun a => R (f a)) : Yields (r.map f) R := by
  obtain ⟨a, rfl, ha⟩ := h
  exact ⟨f a, rfl, ha⟩

variable {f : α → β → Option α}

theorem yields_foldlM {I : α → Prop} {bs : List β}
    (hf : ∀ a, I a → ∀ b ∈ bs, Yields (f a b) I) (ha : I a) : Yields (bs.foldlM f a) I := by
  induction bs generalizing a with
  | nil => exact yields_some ha
  | cons b bs ih =>
    exact (hf a ha b List.mem_cons_self).bind fun a' ha' =>
      ih (fun x hx b' hb' => hf x hx b' (List.mem_cons_of_mem _ hb')) ha'

/-- When `r` succeeds, `Q` holds of its result. -/
def Ensures (r : Option α) (Q : α → Prop) : Prop := ∀ a, r = some a → Q a

theorem ensures_some (h : Q a) : Ensures (some a) Q := by
  intro b hb
  cases hb
  exact h

theorem Ensures.mono (h : Ensures r Q) (hle : ∀ a, Q a → Q' a) : Ensures r Q' :=
  fun a ha => hle a (h a ha)

theorem Ensures.bind {f : α → Option β} (h : Ensures r Q)
    (hf : ∀ a, Q a → Ensures (f a) R) : Ensures (r.bind f) R := by
  intro b hb
  obtain ⟨a, ha, hb⟩ := Option.bind_eq_some_iff.1 hb
  exact hf a (h a ha) b hb

theorem Ensures.map {f : α → β} (h : Ensures r fun a => R (f a)) : Ensures (r.map f) R := by
  intro b hb
  obtain ⟨a, ha, rfl⟩ := Option.map_eq_some_iff.1 hb
  exact h a ha

theorem Yields.ensures (h : Yields r Q) : Ensures r Q := by
  rintro a ha
  obtain ⟨b, hb, hq⟩ := h
  obtain rfl : a = b := Option.some.inj (ha.symm.trans hb)
  exact hq

theorem ensures_foldlM {I : α → Prop} {bs : List β}
    (hf : ∀ a, I a → ∀ b ∈ bs, Ensures (f a b) I) (ha : I a) : Ensures (bs.foldlM f a) I := by
  induction bs generalizing a with
  | nil => exact ensures_some ha
  | cons b bs ih =>
    exact (hf a ha b List.mem_cons_self).bind fun a' ha' =>
      ih (fun x hx b' hb' => hf x hx b' (List.mem_cons_of_mem _ hb')) ha'

end Lib
