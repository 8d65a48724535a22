/-
  The stacks of one source, as the arbiter's updates leave them.

  * `stacksOf_setStacks_self`, `stacksOf_setStacks_of_ne`: one source's stacks are put
    back at a time;
  * `SourceGroup.record`: a group, its bases apart; absorbing changes no record.
-/
import Pmacs.Buffer.Run

namespace Pmacs

open Lib List SourceUndoStacks

variable {L : Loro} {b : Buffer L}

variable {s : SourceUndoStacks L}

namespace Buffer

/-! ## Stacks of one source after an update -/

@[simp]
theorem stacksOf_setStacks_self (b : Buffer L) (source : UndoSource) (s : SourceUndoStacks L) :
    (b.setStacks source s).stacksOf source = s := by
  simp [setStacks, stacksOf]

theorem stacksOf_setStacks_of_ne {source other : UndoSource} (s : SourceUndoStacks L)
    (h : other ≠ source) : (b.setStacks source s).stacksOf other = b.stacksOf other := by
  simp [setStacks, stacksOf, AList.lookup_insert_ne h]

theorem stacksOf_eq_of_lookup {source : UndoSource}
    (h : b.arbiter.lookup source = some s) : b.stacksOf source = s := by
  simp [stacksOf, h]

theorem absorbCompensation_arbiter (b : Buffer L) (source from_ : UndoSource)
    (step : HistoryStep) (change : L.Diff) :
    (b.absorbCompensation source from_ step change).arbiter = Assoc.mapVal (fun other s =>
      let s := if (other, HistoryStep.undo) != (from_, step) &&
          (other, HistoryStep.undo) != (source, HistoryStep.opposite step) then
        s.absorbUndo change else s
      if (other, HistoryStep.redo) != (from_, step) &&
          (other, HistoryStep.redo) != (source, HistoryStep.opposite step) then
        s.absorbRedo change else s) b.arbiter := rfl

theorem applyRemoteCrdtOp_arbiter {views : List (View (Buffer L))} {op : Bytes}
    {out : Outcome L (Option (Edit WfRope))} (h : b.applyRemoteCrdtOp views op = some out) :
    out.buffer.arbiter = b.arbiter := by
  rw [applyRemoteCrdtOp] at h
  split_ifs at h
  · cases h; rfl
  · cases h; rfl
  split at h
  · cases h; rfl
  split at h
  · cases h; rfl
  dsimp only at h
  split at h
  · cases h
  · cases h; rfl
  cases h; simp only [runRemoteRopeStages, Outcome.mapResult]
  split <;> rfl

/-! ## What the popping loop takes -/

end Buffer

/-- What was recorded of a group, its bases apart: these change as others edit. -/
def SourceGroup.record (g : SourceGroup L) : ℕ × List (RecordedOps L) :=
  (g.seqno, g.spans.map RecordedSpan.ops)

variable {change : L.Diff}

theorem SourceGroup.absorb_record (g : SourceGroup L) : (g.absorb change).record = g.record := by
  cases hlast : g.spans.getLast? with
  | none => simp [record, absorb, hlast]
  | some last =>
    obtain ⟨init, hinit⟩ := getLast?_eq_some_iff.1 hlast; simp [record, absorb, hinit]

namespace Buffer

def records (gs : List (SourceGroup L)) : List (ℕ × List (RecordedOps L)) :=
  gs.reverse.map SourceGroup.record

theorem absorbLast_records (gs : List (SourceGroup L)) :
    records (absorbLast gs change) = records gs := by
  cases hlast : gs.getLast? with
  | none => simp [absorbLast, hlast]
  | some last =>
    obtain ⟨init, rfl⟩ := getLast?_eq_some_iff.1 hlast
    simp [absorbLast, records, SourceGroup.absorb_record]

theorem absorbStep_records {step : HistoryStep} :
    records ((s.absorbStep step change).stack step) = records (s.stack step) := by
  cases step with
  | redo => exact absorbLast_records s.redo
  | undo =>
    simp only [absorbStep, absorbUndo]
    split
    · rfl
    · exact absorbLast_records s.groups

/-- The stacks of a source once a group was popped and what it carried absorbed. -/
theorem stacksOf_popped {from_ : UndoSource} {step : HistoryStep} (carried : L.Diff) (d' : L.Doc) :
    Buffer.stacksOf { (b.setStacks from_ ((b.stacksOf from_).dropTop step)).setStacks from_
      (((b.setStacks from_ ((b.stacksOf from_).dropTop step)).stacksOf from_).absorbStep step
        carried) with crdt := some d' } from_ =
      ((b.stacksOf from_).dropTop step).absorbStep step carried := by
  show Buffer.stacksOf ((b.setStacks from_ _).setStacks from_ _) from_ = _
  rw [stacksOf_setStacks_self, stacksOf_setStacks_self]

theorem popUntilProduces_popped (from_ : UndoSource) (step : HistoryStep) (v : VersionVector) :
    ∀ (n : ℕ) (popped : List (UndoSource × SourceGroup L)) (b : Buffer L) (d : L.Doc),
      ∃ taken : List (SourceGroup L),
        (popUntilProduces from_ step v n popped b d).popped = popped ++ taken.map (from_, ·) ∧
          taken.length ≤ n ∧
          taken.map SourceGroup.record <+: records ((b.stacksOf from_).stack step)
  | 0, popped, b, d => ⟨[], by simp [popUntilProduces], le_refl 0, nil_prefix⟩
  | n + 1, popped, b, d => by
    simp only [popUntilProduces]
    split
    · exact ⟨[], by simp, Nat.zero_le _, nil_prefix⟩
    rename_i group hgroup; obtain ⟨init, hinit⟩ := getLast?_eq_some_iff.1 hgroup
    have hrecords : records ((b.stacksOf from_).stack step) = group.record :: records init := by
      rw [hinit]; simp [records]
    have hone : [group].map SourceGroup.record <+: records ((b.stacksOf from_).stack step) := by
      rw [hrecords]; exact ⟨records init, rfl⟩
    have hbelow : ((b.stacksOf from_).dropTop step).stack step = init := by
      have hdrop : ((b.stacksOf from_).dropTop step).stack step =
          ((b.stacksOf from_).stack step).dropLast := by
        cases step <;> rfl
      rw [hdrop, hinit, dropLast_concat]
    split
    · exact ⟨[group], rfl, Nat.le_add_left 1 n, hone⟩
    rename_i carried change d' hundo
    split_ifs
    · obtain ⟨taken, htaken, hlength, htop⟩ := popUntilProduces_popped from_ step v n
        (popped ++ [(from_, group)])
        { (b.setStacks from_ ((b.stacksOf from_).dropTop step)).setStacks from_
          (((b.setStacks from_ ((b.stacksOf from_).dropTop step)).stacksOf from_).absorbStep step
            carried) with crdt := some d' } d'
      refine ⟨group :: taken, ?_, Nat.succ_le_succ hlength, ?_⟩
      · rw [htaken]; simp
      rw [stacksOf_popped, absorbStep_records, hbelow] at htop; rw [hrecords, map_cons]
      exact (prefix_cons_inj _).2 htop
    · exact ⟨[group], rfl, Nat.le_add_left 1 n, hone⟩

theorem compensate_popped (b : Buffer L) (d : L.Doc) (views : List (View (Buffer L)))
    (source from_ : UndoSource) (step : HistoryStep) :
    (b.compensate d views source from_ step).popped = (popUntilProduces from_ step (L.oplogVv d)
      ((b.stacksOf from_).stack step).length [] b d).popped := by
  simp only [compensate]
  split
  · rfl
  · split <;> rfl

end Buffer

end Pmacs
