/-
  Decoders that take one item at a time off the front of a buffer.

  * `drainAll` takes items as long as there are complete ones, `feedChunks` does so after each chunk
    that comes in;
  * `Incremental`: what `next` answers does not change when more comes after;
  * `feedChunks_eq_drain`: then it makes no difference how the input is cut into chunks.
-/
import Mathlib

namespace Lib

/-- How draining a buffer ends: with what is left for more to come after, an error, or a
    panic. -/
inductive DrainEnd (α ε : Type*) where
  | more (rest : List α)
  | error (e : ε)
  | panic
deriving DecidableEq, Repr

variable {α ω ε : Type*}

section
variable (next : List α → Option (Except ε (Option (ω × List α))))

/-- What `next` answers stays as it is when more comes after. -/
structure Incremental : Prop where
  consumes {xs rest : List α} {item : ω} (h : next xs = some (.ok (some (item, rest)))) :
    rest.length < xs.length
  item {xs rest : List α} {item : ω} (h : next xs = some (.ok (some (item, rest))))
    (ys : List α) : next (xs ++ ys) = some (.ok (some (item, rest ++ ys)))
  error {xs : List α} {e : ε} (h : next xs = some (.error e)) (ys : List α) :
    next (xs ++ ys) = some (.error e)
  panic {xs : List α} (h : next xs = none) (ys : List α) : next (xs ++ ys) = none
  empty : next [] = some (.ok none)

def drainFuel : ℕ → List α → List ω × DrainEnd α ε
  | 0, xs => ([], .more xs)
  | fuel + 1, xs =>
    match next xs with
    | none => ([], .panic)
    | some (.error e) => ([], .error e)
    | some (.ok none) => ([], .more xs)
    | some (.ok (some (item, rest))) => (item :: (drainFuel fuel rest).1, (drainFuel fuel rest).2)

/-- Take items off a buffer until there is no complete one. -/
def drainAll (xs : List α) : List ω × DrainEnd α ε := drainFuel next (xs.length + 1) xs

/-- Drain the buffer after each chunk that is put at its end; an error ends it. -/
def feedChunks : List α → List (List α) → List ω × DrainEnd α ε
  | buf, [] => ([], .more buf)
  | buf, chunk :: chunks =>
    match drainAll next (buf ++ chunk) with
    | (items, .more rest) => (items ++ (feedChunks rest chunks).1, (feedChunks rest chunks).2)
    | stopped => stopped

end

section
variable {next : List α → Option (Except ε (Option (ω × List α)))} {xs rest : List α} {item : ω}

theorem drainFuel_eq (h : Incremental next) : ∀ {fuel : ℕ} {xs : List α}, xs.length < fuel →
    drainFuel next fuel xs = drainAll next xs := by
  suffices hsame : ∀ {fuel fuel' : ℕ} {xs : List α}, xs.length < fuel → xs.length < fuel' →
      drainFuel next fuel xs = drainFuel next fuel' xs from
    @fun _ _ hfuel => hsame hfuel (Nat.lt_succ_self _)
  intro fuel
  induction fuel with
  | zero => exact fun hfuel _ => absurd hfuel (Nat.not_lt_zero _)
  | succ fuel ih =>
    intro fuel' xs hfuel hfuel'
    cases fuel' with
    | zero => exact absurd hfuel' (Nat.not_lt_zero _)
    | succ fuel' =>
      rw [drainFuel, drainFuel]
      cases hnext : next xs with
      | none => rfl
      | some answer =>
        cases answer with
        | error e => rfl
        | ok taken =>
          cases taken with
          | none => rfl
          | some taken =>
            have hlt := h.consumes hnext; dsimp only
            rw [ih (Nat.lt_of_lt_of_le hlt (Nat.le_of_lt_succ hfuel))
              (Nat.lt_of_lt_of_le hlt (Nat.le_of_lt_succ hfuel'))]

theorem drain_item (h : Incremental next) (hnext : next xs = some (.ok (some (item, rest)))) :
    drainAll next xs = (item :: (drainAll next rest).1, (drainAll next rest).2) := by
  rw [drainAll, drainFuel, hnext]
  dsimp only
  rw [drainFuel_eq h (h.consumes hnext)]

theorem drain_more (hnext : next xs = some (.ok none)) : drainAll next xs = ([], .more xs) := by
  rw [drainAll, drainFuel, hnext]

theorem drain_error {e : ε} (hnext : next xs = some (.error e)) :
    drainAll next xs = ([], .error e) := by
  rw [drainAll, drainFuel, hnext]

theorem drain_panic (hnext : next xs = none) : drainAll next xs = ([], .panic) := by
  rw [drainAll, drainFuel, hnext]

variable (h : Incremental next)
include h

/-- **More at the end of a buffer** changes only what comes after the items that were complete. -/
theorem drain_append (xs ys : List α) :
    drainAll next (xs ++ ys) = match drainAll next xs with
      | (items, .more rest) => (items ++ (drainAll next (rest ++ ys)).1, (drainAll next (rest ++ ys)).2)
      | stopped => stopped := by
  induction hlen : xs.length using Nat.strongRecOn generalizing xs with
  | _ n ih =>
  cases hnext : next xs with
  | none => rw [drain_panic hnext, drain_panic (h.panic hnext ys)]
  | some answer =>
    cases answer with
    | error e => rw [drain_error hnext, drain_error (h.error hnext ys)]
    | ok taken =>
      cases taken with
      | none => rw [drain_more hnext]; rfl
      | some taken =>
        obtain ⟨item, rest⟩ := taken
        rw [drain_item h hnext, drain_item h (h.item hnext ys),
          ih rest.length (hlen ▸ h.consumes hnext) rest rfl]
        rcases drainAll next rest with ⟨items, rest' | e | _⟩
        · rfl
        · rfl
        · rfl

theorem next_of_drain {items : List ω}
    (hdrain : drainAll next xs = (items, .more rest)) : next rest = some (.ok none) := by
  induction hlen : xs.length using Nat.strongRecOn generalizing xs items with
  | _ n ih =>
  cases hnext : next xs with
  | none => rw [drain_panic hnext] at hdrain; cases hdrain
  | some answer =>
    cases answer with
    | error e => rw [drain_error hnext] at hdrain; cases hdrain
    | ok taken =>
      cases taken with
      | none => rw [drain_more hnext] at hdrain; cases hdrain; exact hnext
      | some taken =>
        obtain ⟨item, rest'⟩ := taken; rw [drain_item h hnext] at hdrain
        obtain ⟨-, hending⟩ := Prod.mk.inj hdrain
        have hrest' : drainAll next rest' = ((drainAll next rest').1, .more rest) :=
          Prod.ext rfl hending
        exact ih rest'.length (hlen ▸ h.consumes hnext) hrest' rfl

/-- **However the input is cut into chunks**, the items and the way it ends are the same. -/
theorem feedChunks_eq_drain (chunks : List (List α)) :
    feedChunks next [] chunks = drainAll next chunks.flatten := by
  suffices hfeed : ∀ {chunks : List (List α)} {buf : List α}, next buf = some (.ok none) →
      feedChunks next buf chunks = drainAll next (buf ++ chunks.flatten) from hfeed h.empty
  intro chunks
  induction chunks with
  | nil => intro buf hbuf; rw [List.flatten_nil, List.append_nil, drain_more hbuf, feedChunks]
  | cons chunk chunks ih =>
    intro buf hbuf; rw [List.flatten_cons, ← List.append_assoc, drain_append h, feedChunks]
    rcases hdrain : drainAll next (buf ++ chunk) with ⟨items, rest | e | _⟩
    · dsimp only; rw [ih (next_of_drain h hdrain)]
    · rfl
    · rfl

end

end Lib
