/-
  Machines that emit events as they read, and hold some of their output back.

  * `run` reads a list of inputs from a state; `Along`: each of them satisfies a condition on
    the state it is read in;
  * `feed` is a run after which what is held back is flushed, `feeds` one feed
    after another;
  * `feeds_flatten`: when flushing early changes no input's effect but for how the
    events are cut, which the normal form `norm` forgets, the feeds of any pieces
    are the feed of the whole.
-/
import Mathlib

namespace Lib.Machine

variable {σ α ε : Type}

/-- The events of reading `as` from `s`, and the state after it. -/
def run (step : σ → α → List ε × σ) : σ → List α → List ε × σ
  | s, [] => ([], s)
  | s, a :: as => ((step s a).1 ++ (run step (step s a).2 as).1, (run step (step s a).2 as).2)

def feed (step : σ → α → List ε × σ) (flush : σ → List ε × σ) (s : σ) (as : List α) : List ε × σ :=
  ((run step s as).1 ++ (flush (run step s as).2).1, (flush (run step s as).2).2)

def feeds (step : σ → α → List ε × σ) (flush : σ → List ε × σ) : σ → List (List α) → List ε × σ :=
  run (feed step flush)

variable {step : σ → α → List ε × σ} {flush : σ → List ε × σ}

theorem run_append (s : σ) (as bs : List α) : run step s (as ++ bs) =
      ((run step s as).1 ++ (run step (run step s as).2 bs).1,
        (run step (run step s as).2 bs).2) := by
  induction as generalizing s with
  | nil => rfl
  | cons a as ih => simp [run, ih]

theorem state_run_append (s : σ) (as bs : List α) :
    (run step s (as ++ bs)).2 = (run step (run step s as).2 bs).2 := by
  simp only [run_append]

variable {s : σ}

theorem run_inv {P : σ → Prop} (hstep : ∀ s a, P s → P (step s a).2) (hs : P s)
    (as : List α) : P (run step s as).2 := by
  induction as generalizing s with
  | nil => exact hs
  | cons a as ih => exact ih (hstep s a hs)

/-- Inputs each of which satisfies a condition on the state it is read in. -/
def Along (step : σ → α → List ε × σ) (ok : σ → α → Prop) : σ → List α → Prop
  | _, [] => True
  | s, a :: as => ok s a ∧ Along step ok (step s a).2 as

variable {ok : σ → α → Prop}

theorem along_append {as bs : List α} :
    Along step ok s (as ++ bs) ↔ Along step ok s as ∧ Along step ok (run step s as).2 bs := by
  induction as generalizing s with
  | nil => exact (iff_of_eq (true_and _)).symm
  | cons a as ih => rw [List.cons_append, Along, ih, Along, and_assoc, run]

/-- What every step keeps that satisfies the condition, they keep. -/
theorem Along.inv {P : σ → Prop} (hstep : ∀ s a, ok s a → P s → P (step s a).2) {as : List α}
    (h : Along step ok s as) (hs : P s) : P (run step s as).2 := by
  induction as generalizing s with
  | nil => exact hs
  | cons a as ih => exact ih h.2 (hstep s a h.1 hs)

/-! ## Flushing early -/

/-- What makes it harmless to flush early, from the states of `Inv` on: `norm`
    forgets how events are cut, a flush is done once, and a step from a flushed
    state does what it did, all flushed. -/
structure FlushesEarly {β : Type} (step : σ → α → List ε × σ) (flush : σ → List ε × σ)
    (Inv : σ → Prop) (norm : List ε → β) : Prop where
  norm_append : ∀ {x x' y y'}, norm x = norm x' → norm y = norm y' → norm (x ++ y) = norm (x' ++ y')
  flush_flush : ∀ s, flush (flush s).2 = ([], (flush s).2)
  step_inv : ∀ s a, Inv s → Inv (step s a).2
  flush_inv : ∀ s, Inv s → Inv (flush s).2
  step_state : ∀ s a, Inv s → (flush (step (flush s).2 a).2).2 = (flush (step s a).2).2
  step_events : ∀ s a, Inv s →
    norm ((flush s).1 ++ ((step (flush s).2 a).1 ++ (flush (step (flush s).2 a).2).1)) =
      norm ((step s a).1 ++ (flush (step s a).2).1)

namespace FlushesEarly

variable {β : Type} {Inv : σ → Prop} {norm : List ε → β} (h : FlushesEarly step flush Inv norm)
include h

theorem feed_flush (hs : Inv s) (as : List α) :
    (feed step flush (flush s).2 as).2 = (feed step flush s as).2 ∧
      norm ((flush s).1 ++ (feed step flush (flush s).2 as).1) = norm (feed step flush s as).1 := by
  induction as generalizing s with
  | nil => simp only [feed, run, h.flush_flush, List.nil_append, List.append_nil, and_self]
  | cons a as ih =>
    have hq := ih (h.step_inv s a hs); have hq' := ih (h.step_inv _ a (h.flush_inv s hs))
    rw [h.step_state s a hs] at hq'
    refine ⟨hq'.1.symm.trans hq.1, ?_⟩
    -- both sides are cut at the state after `a`, where they meet flushed
    have hl := h.norm_append (rfl : norm ((flush s).1 ++ (step (flush s).2 a).1) = _) hq'.2
    have hr := h.norm_append (rfl : norm (step s a).1 = _) hq.2
    have hm := h.norm_append (h.step_events s a hs)
      (rfl : norm (feed step flush (flush (step s a).2).2 as).1 = _)
    simp only [feed, run, List.append_assoc] at hl hr hm ⊢; rw [← hl, ← hr, hm]

theorem feed_append (hs : Inv s) (as bs : List α) :
    (feed step flush (feed step flush s as).2 bs).2 = (feed step flush s (as ++ bs)).2 ∧
      norm ((feed step flush s as).1 ++ (feed step flush (feed step flush s as).2 bs).1) =
        norm (feed step flush s (as ++ bs)).1 := by
  obtain ⟨hst, hev⟩ := h.feed_flush (run_inv h.step_inv hs as) bs
  have := h.norm_append (rfl : norm (run step s as).1 = _) hev
  simp only [feed, run_append, List.append_assoc] at hst this ⊢
  exact ⟨hst, this⟩

theorem feed_inv (hs : Inv s) (as : List α) : Inv (feed step flush s as).2 :=
  h.flush_inv _ (run_inv h.step_inv hs as)

/-- **Feeding in pieces is feeding the whole**, from a state with nothing held
    back: the same state, and the same events but for how they are cut. -/
theorem feeds_flatten (hs : Inv s) (hf : flush s = ([], s)) (pieces : List (List α)) :
    (feeds step flush s pieces).2 = (feed step flush s pieces.flatten).2 ∧
      norm (feeds step flush s pieces).1 = norm (feed step flush s pieces.flatten).1 := by
  induction pieces generalizing s with
  | nil => simp only [feeds, run, feed, List.flatten_nil, hf, List.append_nil, and_self]
  | cons as pieces ih =>
    obtain ⟨hst, hev⟩ := ih (h.feed_inv hs as) (h.flush_flush _)
    obtain ⟨hst', hev'⟩ := h.feed_append hs as pieces.flatten
    refine ⟨hst.trans hst', ?_⟩; rw [List.flatten_cons, ← hev']; exact h.norm_append rfl hev

end FlushesEarly

end Lib.Machine
