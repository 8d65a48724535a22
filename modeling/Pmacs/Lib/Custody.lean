/-
  Items in custody: each place holds at most one item, and items are moved from
  place to place.

  * `Custody`: what each place holds; `release` and `put` empty and fill a place;
  * `Single`: no item is in two places, which releasing keeps, and putting an
    item that no place holds.
-/
import Mathlib

namespace Lib

variable {P I : Type*}

abbrev Custody (P I : Type*) := P → Option I

namespace Custody

variable (c : Custody P I)

def Held (i : I) : Prop := ∃ p, c p = some i

def Single : Prop := ∀ ⦃p q i⦄, c p = some i → c q = some i → p = q

/-- A custody that holds nothing but what `c` holds, where `c` holds it. -/
def Within (c' c : Custody P I) : Prop := ∀ ⦃p i⦄, c' p = some i → c p = some i

variable {i : I}

theorem Single.existsUnique {c : Custody P I} (h : c.Single) (hi : c.Held i) :
    ∃! p, c p = some i := by
  obtain ⟨p, hp⟩ := hi
  exact ⟨p, hp, fun q hq => h hq hp⟩

theorem Single.within {c c' : Custody P I} (h : c.Single) (hc : Within c' c) : c'.Single :=
  fun _ _ _ hp hq => h (hc hp) (hc hq)

section
variable [DecidableEq P]

def release (p : P) : Custody P I := Function.update c p none

def put (p : P) (i : I) : Custody P I := Function.update c p (some i)

variable {p : P}

theorem release_eq_some {c : Custody P I} {q : P} :
    c.release p q = some i ↔ q ≠ p ∧ c q = some i := by
  by_cases h : q = p
  · subst h; simp [release]
  · simp [release, h]

theorem put_eq_some {c : Custody P I} {q : P} {j : I} :
    c.put p i q = some j ↔ (q = p ∧ i = j) ∨ (q ≠ p ∧ c q = some j) := by
  by_cases h : q = p
  · subst h; simp [put]
  · simp [put, h]

theorem release_within (p : P) : Within (c.release p) c :=
  fun _ _ h => (release_eq_some.1 h).2

theorem Single.not_held_release {c : Custody P I} (h : c.Single)
    (hp : c p = some i) : ¬ (c.release p).Held i := by
  rintro ⟨q, hq⟩
  obtain ⟨hne, hq⟩ := release_eq_some.1 hq
  exact hne (h hq hp)

theorem Single.put {c : Custody P I} (h : c.Single) (hi : ¬ c.Held i) : (c.put p i).Single := by
  intro q r j hq hr
  rcases put_eq_some.1 hq with ⟨rfl, rfl⟩ | ⟨_, hcq⟩ <;>
    rcases put_eq_some.1 hr with ⟨rfl, hj⟩ | ⟨_, hcr⟩
  · rfl
  · exact absurd ⟨r, hcr⟩ hi
  · exact absurd ⟨q, hj ▸ hcq⟩ hi
  · exact h hcq hcr

end

end Custody

end Lib
