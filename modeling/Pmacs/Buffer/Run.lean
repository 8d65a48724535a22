/-
  Runs of a buffer.

  * `Call` is a call with its arguments, `perform` what it does;
  * `Run`: the buffers that calls lead to, each call satisfying a condition on the
    buffer it meets; `Traced`: the same with a value that the calls update;
  * `OnlyArbiter`, `OnlyTyped`, `Keeps`: what the bookkeeping leaves alone.
-/
import Pmacs.Buffer.Undo

namespace Pmacs

open Lib

/-- A call on a buffer. The views it meets and the order of the arbiter's map are
    arguments. -/
inductive Call (L : Loro) where
  | applyEditAs (views : List (View (Buffer L))) (order : List UndoSource → List UndoSource)
    (source : UndoSource) (op : EditOp)
  | applyEditSkipInterceptsAs (views : List (View (Buffer L)))
    (order : List UndoSource → List UndoSource) (source : UndoSource) (op : EditOp)
  | applyRemoteCrdtOp (views : List (View (Buffer L))) (op : Bytes)
  | undoFor (views : List (View (Buffer L))) (source : UndoSource)
  | redoFor (views : List (View (Buffer L))) (source : UndoSource)
  | arbiterSettleRemote (order : List UndoSource → List UndoSource) (source : UndoSource)
    (run limit : ℕ) (typed : Bool)
  | arbiterTypedBegin (source : UndoSource) (run limit : ℕ)
  | arbiterClose (source : UndoSource)
  | arbiterDetach (source : UndoSource)
  | noteTypedEdit (merge : Bool)
  | commandCollapse
  | markClean
  | setReadOnly (readOnly : Bool)
  | beginEdit
  | endEdit

/-- The edits of an outcome: those broadcast, and the one returned. -/
def Outcome.edits {L : Loro} (o : Outcome L (Option (Edit WfRope))) : List (Edit WfRope) :=
  o.heard ++ match o.result with
    | .ok (some ed) => [ed]
    | _ => []

namespace Buffer

variable {L : Loro}

variable (b : Buffer L)

/-- A call that cannot fail and broadcasts nothing. -/
def quiet : Outcome L (Option (Edit WfRope)) := ⟨b, [], [], .ok none⟩

/-- What a call does; none where it panics. -/
def perform : Call L → Option (Outcome L (Option (Edit WfRope)))
  | .applyEditAs views order source op =>
    some ((b.applyEditAs views order source op).mapResult some)
  | .applyEditSkipInterceptsAs views order source op =>
    some ((b.applyEditSkipInterceptsAs views order source op).mapResult some)
  | .applyRemoteCrdtOp views op => b.applyRemoteCrdtOp views op
  | .undoFor views source => some ((b.undoFor views source).mapResult some)
  | .redoFor views source => some ((b.redoFor views source).mapResult some)
  | .arbiterSettleRemote order source run limit typed =>
    some (b.arbiterSettleRemote order source run limit typed).quiet
  | .arbiterTypedBegin source run limit => some (b.arbiterTypedBegin source run limit).quiet
  | .arbiterClose source => some (b.arbiterClose source).quiet
  | .arbiterDetach source => some (b.arbiterDetach source).quiet
  | .noteTypedEdit merge => some (b.noteTypedEdit merge).2.quiet
  | .commandCollapse => some b.commandCollapse.quiet
  | .markClean => some b.markClean.quiet
  | .setReadOnly readOnly => some (b.setReadOnly readOnly).quiet
  | .beginEdit => some (b.beginEdit.mapResult fun _ => none)
  | .endEdit => some b.endEdit.quiet

/-- The buffers that calls lead to from `b₀`, each call `c` on a buffer `b` with
    `ok b c`. -/
inductive Run (ok : Buffer L → Call L → Prop) (b₀ : Buffer L) : Buffer L → Prop where
  | start : Run ok b₀ b₀
  | call {b : Buffer L} {c : Call L} {out : Outcome L (Option (Edit WfRope))} :
    Run ok b₀ b → ok b c → b.perform c = some out → Run ok b₀ out.buffer

theorem Run.inv {ok : Buffer L → Call L → Prop} {b₀ b : Buffer L} {P : Buffer L → Prop}
    (h : Run ok b₀ b) (h₀ : P b₀)
    (hstep : ∀ b c out, P b → ok b c → b.perform c = some out → P out.buffer) : P b := by
  induction h with
  | start => exact h₀
  | call _ hok hperform ih => exact hstep _ _ _ ih hok hperform

/-- Runs that carry what a call's history matters for: `update g b c b'` is the value
    after `c` led from `b` to `b'`. -/
inductive Traced {σ : Type} (update : σ → Buffer L → Call L → Buffer L → σ)
    (ok : σ → Buffer L → Call L → Buffer L → Prop) (b₀ : Buffer L) (g₀ : σ) :
    Buffer L → σ → Prop where
  | start : Traced update ok b₀ g₀ b₀ g₀
  | call {b : Buffer L} {g : σ} {c : Call L} {out : Outcome L (Option (Edit WfRope))} :
    Traced update ok b₀ g₀ b g → ok g b c out.buffer → b.perform c = some out →
      Traced update ok b₀ g₀ out.buffer (update g b c out.buffer)

theorem Traced.inv {σ : Type} {update : σ → Buffer L → Call L → Buffer L → σ}
    {ok : σ → Buffer L → Call L → Buffer L → Prop} {b₀ b : Buffer L} {g₀ g : σ}
    {P : Buffer L → σ → Prop} (h : Traced update ok b₀ g₀ b g) (h₀ : P b₀ g₀)
    (hstep : ∀ b g c out, P b g → ok g b c out.buffer → b.perform c = some out →
      P out.buffer (update g b c out.buffer)) : P b g := by
  induction h with
  | start => exact h₀
  | call _ hok hperform ih => exact hstep _ _ _ _ ih hok hperform

/-! ## The rope's edits -/

/-- The rope takes the operations that are within it, and splices its bytes. -/
theorem editRope_spec (r : WfRope) (op : EditOp) :
    (op.Within r.bytes.length ∧ ∃ ed, editRope r op = .ok ed ∧
        r.Spliced op.range.start op.range.stop op.inserted ed) ∨
      (¬ op.Within r.bytes.length ∧ ∃ e, editRope r op = .error e) := by
  cases op with
  | insert pos bytes =>
    rcases r.insert_spec pos bytes with ⟨hpos, hok⟩ | ⟨hpos, herr⟩
    · exact .inl ⟨⟨le_rfl, hpos⟩, hok⟩
    · exact .inr ⟨fun h => not_le.2 hpos h.2, _, herr⟩
  | delete range =>
    rcases r.delete_spec range.start range.stop with ⟨hss, hstop, hok⟩ | ⟨hout, herr⟩
    · exact .inl ⟨⟨hss, hstop⟩, hok⟩
    · exact .inr ⟨fun h => hout.elim (not_lt.2 h.1) (not_lt.2 h.2), _, herr⟩
  | replace range bytes =>
    rcases r.replace_spec range.start range.stop bytes with ⟨hss, hstop, hok⟩ | ⟨hout, herr⟩
    · exact .inl ⟨⟨hss, hstop⟩, hok⟩
    · exact .inr ⟨fun h => hout.elim (not_lt.2 h.1) (not_lt.2 h.2), _, herr⟩

theorem editRope_ok {r : WfRope} {op : EditOp} {ed : Edit WfRope} (h : editRope r op = .ok ed) :
    op.Within r.bytes.length ∧ r.Spliced op.range.start op.range.stop op.inserted ed := by
  rcases editRope_spec r op with ⟨hwithin, ed', hed, hsp⟩ | ⟨_, e, herr⟩
  · cases h.symm.trans hed; exact ⟨hwithin, hsp⟩
  · cases h.symm.trans herr

/-- An operation changes nothing exactly when its range is empty and it puts nothing in. -/
theorem isNoOpEdit_iff (op : EditOp) :
    isNoOpEdit op = true ↔ op.range.isEmpty = true ∧ op.inserted = [] := by
  cases op with
  | insert pos bytes => simp [isNoOpEdit, EditOp.range, EditOp.inserted, Range.isEmpty]
  | delete | replace => simp [isNoOpEdit, EditOp.range, EditOp.inserted]

@[simp]
theorem range_withBytes (bytes : Option Bytes) (op : EditOp) :
    (withBytes bytes op).range = op.range := by
  cases op <;> cases bytes <;> rfl

/-! ## What the arbiter's bookkeeping leaves alone -/

/-- Nothing but the arbiter's stacks and its counter differ. -/
def OnlyArbiter (b' : Buffer L) : Prop :=
  b' = { b with arbiter := b'.arbiter, arbiterSeq := b'.arbiterSeq }

namespace OnlyArbiter

theorem refl : OnlyArbiter b b := rfl

theorem trans {b b' b'' : Buffer L} (h : OnlyArbiter b b') (h' : OnlyArbiter b' b'') :
    OnlyArbiter b b'' := by
  rw [OnlyArbiter] at h h' ⊢
  rw [h', h]

end OnlyArbiter

variable (source : UndoSource)

theorem setStacks_only (s : SourceUndoStacks L) :
    OnlyArbiter b (b.setStacks source s) := rfl

theorem arbiterClose_only : OnlyArbiter b (b.arbiterClose source) := by
  rw [arbiterClose]
  split
  · exact .refl b
  split
  · exact .refl b
  · split_ifs <;> rfl

theorem foldl_arbiterClose_only (sources : List UndoSource) (b : Buffer L) :
    OnlyArbiter b (sources.foldl arbiterClose b) := by
  induction sources generalizing b with
  | nil => exact .refl b
  | cons source sources ih => exact (arbiterClose_only b source).trans (ih _)

theorem arbiterDetach_only : OnlyArbiter b (b.arbiterDetach source) := by
  refine (arbiterClose_only b source).trans ?_
  simp only [arbiterDetach]
  split
  · exact .refl _
  · split_ifs <;> rfl

theorem addStep_only {ops : List (RecordedOps L)} : OnlyArbiter b (b.addStep source ops) := by
  simp only [addStep]
  split <;> rfl

theorem arbiterRecord_only (order : List UndoSource → List UndoSource)
    (source : UndoSource) (ops : List (RecordedOps L)) (change : L.Diff) :
    OnlyArbiter b (b.arbiterRecord order source ops change) := by
  have habsorb : OnlyArbiter b (b.absorbForeign source change) := rfl
  simp only [arbiterRecord]
  split_ifs
  · exact .refl b
  · exact (habsorb.trans (foldl_arbiterClose_only _ _)).trans (addStep_only _ source)
  · exact habsorb.trans (addStep_only _ source)

theorem absorbCompensation_only (from_ : UndoSource) (step : HistoryStep)
    (change : L.Diff) : OnlyArbiter b (b.absorbCompensation source from_ step change) := rfl

theorem pushCompensation_only (step : HistoryStep)
    (g : SourceGroup L) : OnlyArbiter b (b.pushCompensation source step g) := by
  cases step <;> rfl

theorem sweepDeparted_only : OnlyArbiter b b.sweepDeparted := rfl

theorem closeOwnRun_only : OnlyArbiter b (b.closeOwnRun source) := by
  cases source with
  | daemon => exact .refl b
  | frontend id => exact arbiterClose_only b _

/-- The rope, its history and its modified flag are the same, and the buffer is
    CRDT-backed as before. -/
structure Keeps (b b' : Buffer L) : Prop where
  rope : b'.rope = b.rope
  undo : b'.undo = b.undo
  redo : b'.redo = b.redo
  isModified : b'.isModified = b.isModified
  isSome : b'.crdt.isSome = b.crdt.isSome

namespace Keeps

theorem refl : Keeps b b := ⟨rfl, rfl, rfl, rfl, rfl⟩

theorem trans {b b' b'' : Buffer L} (h : Keeps b b') (h' : Keeps b' b'') : Keeps b b'' :=
  ⟨h'.rope.trans h.rope, h'.undo.trans h.undo, h'.redo.trans h.redo,
    h'.isModified.trans h.isModified, h'.isSome.trans h.isSome⟩

end Keeps

theorem OnlyArbiter.keeps {b b' : Buffer L} (h : OnlyArbiter b b') : Keeps b b' := by
  rw [h]
  exact ⟨rfl, rfl, rfl, rfl, rfl⟩

theorem arbiterTypedBegin_keeps (run limit : ℕ) :
    Keeps b (b.arbiterTypedBegin source run limit) := by
  simp only [arbiterTypedBegin]
  split_ifs
  · exact ⟨rfl, rfl, rfl, rfl, rfl⟩
  · exact ((arbiterClose_only b source).trans (setStacks_only _ source _)).keeps
  · exact (setStacks_only b source _).keeps

theorem arbiterSettleRemote_keeps (order : List UndoSource → List UndoSource)
    (source : UndoSource) (run limit : ℕ) (typed : Bool) :
    Keeps b (b.arbiterSettleRemote order source run limit typed) := by
  simp only [arbiterSettleRemote]
  split
  · exact .refl b
  have htaken : Keeps b { b with pendingRemote := none } := ⟨rfl, rfl, rfl, rfl, rfl⟩
  split_ifs
  · exact (htaken.trans (arbiterTypedBegin_keeps _ source run limit)).trans
      (arbiterRecord_only _ _ _ _ _).keeps
  · exact htaken.trans ((arbiterClose_only _ source).trans (arbiterRecord_only _ _ _ _ _)).keeps

/-- Nothing but the rope-only history and its floor differ. -/
def OnlyTyped (b' : Buffer L) : Prop := b' = { b with undo := b'.undo, typedFloor := b'.typedFloor }

theorem collapseTypedCommand_only : OnlyTyped b b.collapseTypedCommand := by
  rw [collapseTypedCommand]
  split
  · rfl
  dsimp only
  split_ifs
  · rfl
  · split <;> rfl

theorem commandCollapse_only : OnlyTyped b b.commandCollapse := by
  rw [commandCollapse]
  split_ifs
  · rfl
  · exact collapseTypedCommand_only b

theorem noteTypedEdit_only (merge : Bool) : OnlyTyped b (b.noteTypedEdit merge).2 := by
  have hcollapse := collapseTypedCommand_only b
  simp only [noteTypedEdit]
  generalize b.collapseTypedCommand = b' at hcollapse ⊢
  rw [hcollapse]
  split_ifs
  · rfl
  · split <;> rfl
  split
  · rfl
  split
  · rfl
  · split_ifs <;> rfl

/-- Nothing but the arbiter and the document of a buffer that has one differ. -/
structure OnlyPopped (b' : Buffer L) : Prop where
  rest : b' = { b with arbiter := b'.arbiter, arbiterSeq := b'.arbiterSeq, crdt := b'.crdt }
  isSome : b'.crdt.isSome = b.crdt.isSome

namespace OnlyPopped

theorem refl : OnlyPopped b b := ⟨rfl, rfl⟩

theorem trans {b b' b'' : Buffer L} (h : OnlyPopped b b') (h' : OnlyPopped b' b'') :
    OnlyPopped b b'' := by
  refine ⟨?_, h'.isSome.trans h.isSome⟩
  rw [h'.rest, h.rest]

theorem keeps {b b' : Buffer L} (h : OnlyPopped b b') : Keeps b b' := by
  refine ⟨?_, ?_, ?_, ?_, h.isSome⟩ <;> rw [h.rest]

theorem setCrdt {b b' : Buffer L} (h : OnlyPopped b b') (hsome : b.crdt.isSome) (d : L.Doc) :
    OnlyPopped b { b' with crdt := some d } := by
  refine ⟨?_, hsome.symm⟩
  rw [h.rest]

end OnlyPopped

theorem OnlyArbiter.popped {b b' : Buffer L} (h : OnlyArbiter b b') : OnlyPopped b b' :=
  ⟨by rw [h], by rw [h]⟩

theorem popUntilProduces_only (from_ : UndoSource) (step : HistoryStep) (v : VersionVector) :
    ∀ (n : ℕ) (popped : List (UndoSource × SourceGroup L)) (b : Buffer L) (d : L.Doc),
      b.crdt.isSome → OnlyPopped b (popUntilProduces from_ step v n popped b d).buffer
  | 0, popped, b, d, _ => .refl b
  | n + 1, popped, b, d, hcrdt => by
    simp only [popUntilProduces]
    split
    · exact .refl b
    split
    · exact ⟨rfl, hcrdt.symm⟩
    split_ifs
    · refine OnlyPopped.trans ?_ (popUntilProduces_only from_ step v n _ _ _ ?_)
      · exact ⟨rfl, hcrdt.symm⟩
      · rfl
    · exact ⟨rfl, hcrdt.symm⟩

/-- A compensation fails with the rope as it was, or lands as the edit that takes the
    rope before it to the one after. -/
theorem compensate_cases {d : L.Doc} (hsome : b.crdt.isSome) (views : List (View (Buffer L)))
    (from_ : UndoSource) (step : HistoryStep) :
    (∃ b' popped e, OnlyPopped b b' ∧
      b.compensate d views source from_ step = ⟨b', [], popped, .error e⟩) ∨
    ∃ b' newRope op popped modified, OnlyPopped b b' ∧ (step = .redo → modified = true) ∧
      b.compensate d views source from_ step =
        { { b' with rope := newRope }.adjustMarksForEdit (describe b.rope newRope).preRange
            (describe b.rope newRope).insertedLen with
          revision := wrappingSucc b'.revision
          isModified := modified }.broadcastOnEdit views
          ⟨newRope, (describe b.rope newRope).preRange, (describe b.rope newRope).insertedLen, op⟩
          popped := by
  have hloop := popUntilProduces_only from_ step (L.oplogVv d)
    ((b.stacksOf from_).stack step).length [] b d hsome
  rw [compensate]
  generalize popUntilProduces from_ step (L.oplogVv d) _ [] b d = loop at hloop ⊢
  split
  · exact .inl ⟨_, _, _, hloop, rfl⟩
  rename_i d' produced change _
  have hpush := hloop.trans ((absorbCompensation_only loop.buffer source from_ step change).trans
    (pushCompensation_only _ source step (.of (produced.map .span)))).popped
  split
  · exact .inl ⟨_, _, _, hpush.setCrdt hsome _, rfl⟩
  · refine .inr ⟨_, _, _, _, _, hpush.setCrdt hsome _, ?_, rfl⟩
    rintro rfl; rfl

end Buffer

end Pmacs
