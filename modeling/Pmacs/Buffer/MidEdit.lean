/-
  Calls met in the middle of an edit (buffer.rs).

  * `Mutation`: the entry points that change the text or the history of a buffer, with
    `setGeneratedContents`, which no run of `Call`s needs;
  * `Rejects b m`: `m` is an error that leaves the buffer `Kept`;
  * `rejects_iff`: each entry point between a `beginEdit` and its `endEdit`.
-/
import Pmacs.Buffer.Marks

namespace Pmacs

open Lib List Option

/-! ## Entry points -/

/-- A call that edits a buffer or walks its history. -/
inductive Mutation (L : Loro) where
  | applyEditAs (views : List (View (Buffer L))) (order : List UndoSource → List UndoSource)
    (source : UndoSource) (op : EditOp)
  | applyEditSkipInterceptsAs (views : List (View (Buffer L)))
    (order : List UndoSource → List UndoSource) (source : UndoSource) (op : EditOp)
  | applyRemoteCrdtOp (views : List (View (Buffer L))) (op : Bytes)
  | undoFor (views : List (View (Buffer L))) (source : UndoSource)
  | redoFor (views : List (View (Buffer L))) (source : UndoSource)
  | setGeneratedContents (views : List (View (Buffer L)))
    (order : List UndoSource → List UndoSource) (bytes : Bytes)

/-- The operation puts in what it takes out. -/
def EditOp.Restores (op : EditOp) (text : Bytes) : Prop :=
  slice text op.range.start (op.range.start + op.range.len) = Utf8.encode (Utf8.lossy op.inserted)

/-- The positions of a call on `b` are `u64`s. -/
def Mutation.InRange {L : Loro} (b : Buffer L) : Mutation L → Prop
  | .applyEditSkipInterceptsAs _ _ _ op => op.InRange
  | .setGeneratedContents _ _ _ => b.len ≤ usizeMax
  | _ => True

namespace Buffer

variable {L : Loro} {b : Buffer L} {ed : Edit WfRope} {op : EditOp} {m : Mutation L}
  {out : Outcome L (Option (Edit WfRope))} {s : SourceUndoStacks L}

def clearHistory (b : Buffer L) : Buffer L :=
  { b with undo := [], redo := [], arbiter := ∅, pendingRemote := none }

/-- Replace the contents of a buffer its owner writes and its users only read. -/
def setGeneratedContents (b : Buffer L) (views : List (View (Buffer L)))
    (order : List UndoSource → List UndoSource) (bytes : Bytes) : Outcome L (Edit WfRope) :=
  let out := { b with readOnly := false }.applyEditSkipInterceptsAs views order .daemon
    (.replace ⟨0, b.len⟩ bytes)
  let cleared := { out.buffer.clearHistory with readOnly := true }
  match out.result with
  | .ok _ => { out with buffer := { cleared with isModified := false } }
  | .error _ => { out with buffer := cleared }

/-- What an entry point does; none where it panics. -/
def mutate (b : Buffer L) : Mutation L → Option (Outcome L (Option (Edit WfRope)))
  | .applyEditAs views order source op =>
    some ((b.applyEditAs views order source op).mapResult some)
  | .applyEditSkipInterceptsAs views order source op =>
    some ((b.applyEditSkipInterceptsAs views order source op).mapResult some)
  | .applyRemoteCrdtOp views op => b.applyRemoteCrdtOp views op
  | .undoFor views source => some ((b.undoFor views source).mapResult some)
  | .redoFor views source => some ((b.redoFor views source).mapResult some)
  | .setGeneratedContents views order bytes =>
    some ((b.setGeneratedContents views order bytes).mapResult some)

/-- The text, the history and what goes with them are the same. -/
structure Kept (b b' : Buffer L) : Prop where
  rope : b'.rope = b.rope
  crdt : b'.crdt.map L.text = b.crdt.map L.text
  undo : b'.undo = b.undo
  redo : b'.redo = b.redo
  typedFloor : b'.typedFloor = b.typedFloor
  arbiter : b'.arbiter = b.arbiter
  arbiterSeq : b'.arbiterSeq = b.arbiterSeq
  pendingRemote : b'.pendingRemote = b.pendingRemote
  marks : b'.marks = b.marks
  revision : b'.revision = b.revision
  isModified : b'.isModified = b.isModified

theorem Kept.refl (b : Buffer L) :
    Kept b b := ⟨rfl, rfl, rfl, rfl, rfl, rfl, rfl, rfl, rfl, rfl, rfl⟩

variable {b' : Buffer L}

theorem Kept.trans {b'' : Buffer L} (h : Kept b b') (h' : Kept b' b'') : Kept b b'' where
  rope := h'.rope.trans h.rope
  crdt := h'.crdt.trans h.crdt
  undo := h'.undo.trans h.undo
  redo := h'.redo.trans h.redo
  typedFloor := h'.typedFloor.trans h.typedFloor
  arbiter := h'.arbiter.trans h.arbiter
  arbiterSeq := h'.arbiterSeq.trans h.arbiterSeq
  pendingRemote := h'.pendingRemote.trans h.pendingRemote
  marks := h'.marks.trans h.marks
  revision := h'.revision.trans h.revision
  isModified := h'.isModified.trans h.isModified

/-- An outcome that is an error and leaves the text and the history. -/
structure Spares {α : Type} (b : Buffer L) (o : Outcome L α) : Prop where
  error : ∃ e, o.result = .error e
  kept : Kept b o.buffer

theorem spares_fail {α : Type} (e : BufferError) : Spares b (b.fail e : Outcome L α) :=
  ⟨⟨e, rfl⟩, .refl b⟩

theorem spares_mapResult {α β : Type} {o : Outcome L α} (f : α → β) :
    Spares b (o.mapResult f) ↔ Spares b o := by
  have herror : (∃ e, o.result.map f = .error e) ↔ ∃ e, o.result = .error e := by
    cases o.result with
    | ok a => exact ⟨fun ⟨_, h⟩ => (nomatch h), fun ⟨_, h⟩ => (nomatch h)⟩
    | error e => exact ⟨fun _ => ⟨e, rfl⟩, fun _ => ⟨e, rfl⟩⟩
  exact ⟨fun h => ⟨herror.1 h.error, h.kept⟩, fun h => ⟨herror.2 h.error, h.kept⟩⟩

/-- The entry point refuses the call. -/
def Rejects (b : Buffer L) (m : Mutation L) : Prop := ∃ out, b.mutate m = some out ∧ Spares b out

/-- A view fails on hearing of an operation that changes nothing. -/
def Deafened (b : Buffer L) (views : List (View (Buffer L))) (op : EditOp) : Prop :=
  ∃ v ∈ views, ∃ e, v.onEdit b ⟨b.rope, op.range, 0, none⟩ = .error e

/-- The text refuses the operation. A real operation on a CRDT-backed buffer is refused by the
    document, off its characters, or by the rope alone, where the document does not notice. -/
def Declines (b : Buffer L) (views : List (View (Buffer L))) (op : EditOp) : Prop :=
  match isNoOpEdit op, b.crdt with
  | true, _ => op.Within b.bytes.length → b.Deafened views op
  | false, none => ¬ op.Within b.bytes.length
  | false, some d => op.OnBoundaries (Utf8.encode (L.text d)) →
      ¬ op.Within b.bytes.length ∧ op.Restores (Utf8.encode (L.text d))

/-- The source has nothing to undo: no run of its own, no group on the stack it draws from, and
    no departed source is to be swept. -/
def NothingToUndo (b : Buffer L) (source : UndoSource) : Prop :=
  if b.crdt.isSome then
    (source = .daemon ∨ (b.stacksOf source).openGroup = none) ∧
      (b.stacksOf (b.undoPick source)).groups = [] ∧
        ∀ s ss, b.arbiter.lookup s = some ss → ss.detached = true → ss.groups ≠ []
  else b.undo = []

/-- The source has nothing to redo. -/
def NothingToRedo (b : Buffer L) (source : UndoSource) : Prop :=
  if b.crdt.isSome then (b.stacksOf source).redo = [] else b.redo = []

def NoHistory (b : Buffer L) : Prop :=
  b.undo = [] ∧ b.redo = [] ∧ b.arbiter = ∅ ∧ b.pendingRemote = none

/-- When an entry point refuses a call in the middle of an edit: the two that test the flag
    always, the others for a reason of their own. -/
def Gated (b : Buffer L) : Mutation L → Prop
  | .applyEditAs .. => True
  | .applyRemoteCrdtOp .. => True
  | .applyEditSkipInterceptsAs views _ _ op => b.readOnly = true ∨ b.Declines views op
  | .undoFor _ source => b.readOnly = true ∨ b.NothingToUndo source
  | .redoFor _ source => b.readOnly = true ∨ b.NothingToRedo source
  | .setGeneratedContents views _ bytes =>
    b.NoHistory ∧ { b with readOnly := false }.Declines views (.replace ⟨0, b.len⟩ bytes)

/-! ## The rope's half of an edit -/

theorem wrappingSucc_ne (n : ℕ) : wrappingSucc n ≠ n := by
  rw [wrappingSucc]
  omega

/-- The views hear of an edit without an error exactly when none of them fails. -/
theorem hear_error {views : List (View (Buffer L))} :
    (∃ e, b.hear ed views = .error e) ↔ ∃ v ∈ views, ∃ e, v.onEdit b ed = .error e := by
  induction views with
  | nil => exact ⟨fun ⟨_, h⟩ => (nomatch h), fun ⟨_, hv, _⟩ => (nomatch hv)⟩
  | cons v vs ih =>
    rw [hear]
    cases hv : v.onEdit b ed with
    | ok u => simp [hv, ih]
    | error e => simp [hv]

theorem spares_broadcast {views : List (View (Buffer L))}
    {popped : List (UndoSource × SourceGroup L)} : Spares b (b'.broadcastOnEdit views ed popped) ↔
      (∃ v ∈ views, ∃ e, v.onEdit b' ed = .error e) ∧ Kept b b' := by
  have herror : (∃ e, (b'.broadcastOnEdit views ed popped).result = .error e) ↔
      ∃ e, b'.hear ed views = .error e := by
    rw [broadcastOnEdit]
    cases b'.hear ed views with
    | ok u => constructor <;> rintro ⟨_, ⟨⟩⟩
    | error e => exact ⟨fun _ => ⟨e, rfl⟩, fun _ => ⟨e, rfl⟩⟩
  rw [← hear_error, ← herror]
  exact ⟨fun h => ⟨h.error, h.kept⟩, fun h => ⟨h.1, h.2⟩⟩

theorem OnlyArbiter.revision (h : OnlyArbiter b b') : b'.revision = b.revision := by
  rw [h]

variable (views : List (View (Buffer L))) (order : List UndoSource → List UndoSource)
  {source : UndoSource}

theorem landEdit_revision {routed : Routed L}
    (hreal : (ed.range.isEmpty && ed.insertedLen == 0) = false) :
    (b.landEdit views order source routed ed).buffer.revision = wrappingSucc b.revision := by
  simp only [landEdit, hreal, Bool.false_eq_true, if_false, broadcastOnEdit]
  split_ifs
  · exact congrArg wrappingSucc (arbiterRecord_only _ order source _ routed.change).revision
  · rfl

theorem not_spares_runRopeEdit {b₀ : Buffer L} (hrevision : b.revision = b₀.revision)
    {views : List (View (Buffer L))} {order : List UndoSource → List UndoSource} {routed : Routed L}
    (hop : isNoOpEdit (withBytes routed.normalized op) = false)
    (hwithin : (withBytes routed.normalized op).Within b.bytes.length) :
    ¬ Spares b₀ (b.runRopeEdit views order op source routed) := by
  intro h
  rw [runRopeEdit] at h
  rcases editRope_spec b.rope (withBytes routed.normalized op) with
    ⟨_, ed, hed, hsp⟩ | ⟨hout, _⟩
  · rw [hed] at h; have hrange : ed.range = (withBytes routed.normalized op).range := hsp.range
    have hlen := hsp.insertedLen
    have hreal : (ed.range.isEmpty && ed.insertedLen == 0) = false := by
      rw [Bool.eq_false_iff]; intro hnothing
      rw [Bool.and_eq_true, beq_iff_eq, hrange, hlen, length_eq_zero_iff,
        ← isNoOpEdit_iff, hop] at hnothing
      cases hnothing
    have hcounted : (b.landEdit views order source routed
        { ed with crdtOp := routed.crdtOp }).buffer.revision = wrappingSucc b.revision :=
      landEdit_revision views order hreal
    have hsame := h.kept.revision; rw [← hrevision] at hsame
    exact wrappingSucc_ne b.revision (hcounted.symm.trans hsame)
  · exact hout hwithin

theorem runRopeEdit_refused (source : UndoSource)
    (routed : Routed L) (hout : ¬ (withBytes routed.normalized op).Within b.bytes.length) :
    ∃ e, b.runRopeEdit views order op source routed = b.fail e := by
  rw [runRopeEdit]
  rcases editRope_spec b.rope (withBytes routed.normalized op) with ⟨hwithin, _⟩ | ⟨_, e, herr⟩
  · exact absurd hwithin hout
  · rw [herr]; exact ⟨_, rfl⟩

/-- An operation that changes nothing is refused past the rope's end, or by a view. -/
theorem spares_noOp (hop : isNoOpEdit op = true) :
    Spares b (b.runRopeEdit views order op source .none) ↔
      (op.Within b.bytes.length → b.Deafened views op) := by
  have hbytes : withBytes (Routed.none : Routed L).normalized op = op := by
    cases op <;> rfl
  by_cases hwithin : op.Within b.bytes.length
  · rw [runRopeEdit, hbytes]
    rcases editRope_spec b.rope op with ⟨_, ed, hed, hsp⟩ | ⟨hout, _⟩
    · obtain ⟨hempty, hnil⟩ := (isNoOpEdit_iff op).1 hop
      have hrange : ed.range = op.range := hsp.range; have hlen := hsp.insertedLen
      have hnothing : (ed.range.isEmpty && ed.insertedLen == 0) = true := by
        rw [hrange, hlen, hempty, hnil]; rfl
      have hrope : ed.newRope = b.rope := by
        refine editRope_same hed (by rw [hrange, hempty]) ?_; rw [hlen, hnil]; rfl
      have hed' : ({ ed with crdtOp := (Routed.none : Routed L).crdtOp } : Edit WfRope) =
          ⟨b.rope, op.range, 0, none⟩ := by
        rw [← hrope, ← hrange, show (0 : ℕ) = ed.insertedLen by rw [hlen, hnil]; rfl]; rfl
      rw [hed]; simp only [landEdit, hnothing, if_true]; rw [spares_broadcast, hed']
      exact ⟨fun h _ => h.1, fun h => ⟨h hwithin, .refl b⟩⟩
    · exact absurd hwithin hout
  have hout : ¬ (withBytes (Routed.none : Routed L).normalized op).Within b.bytes.length := by
    exact hwithin
  obtain ⟨e, herr⟩ := runRopeEdit_refused views order source _ hout; rw [herr]
  exact ⟨fun _ h => absurd h hwithin, fun _ => spares_fail e⟩

/-! ## The document's half -/

/-- An operation on characters leaves the text exactly when it restores it. -/
theorem restores_iff {d d' : L.Doc} {u v : ℕ} {normalized : Option Bytes}
    (h : Splices d d' op u v normalized) :
    op.Restores (Utf8.encode (L.text d)) ↔ L.text d' = L.text d := by
  rw [EditOp.Restores, h.stop, h.start,
    ← splice_eq_self_iff _ (Utf8.byteAt_mono _ h.le) (Utf8.byteAt_le _ v), ← Utf8.encode_splice,
    h.text]
  exact ⟨fun h => Utf8.encode_injective h, fun h => by rw [h]⟩

theorem runRopeEditAndBroadcast_noOp {views : List (View (Buffer L))}
    {order : List UndoSource → List UndoSource} (hop : isNoOpEdit op = true) :
    b.runRopeEditAndBroadcast views order op source = b.runRopeEdit views order op source .none := by
  rw [runRopeEditAndBroadcast, hop]
  cases b.crdt <;> rfl

theorem within_withBytes {bytes : Option Bytes} {n : ℕ} :
    (withBytes bytes op).Within n ↔ op.Within n := by
  rw [EditOp.Within, range_withBytes, EditOp.Within]

/-- **An edit that skips the intercepts** spares the buffer exactly when the text declines it. -/
theorem spares_runRopeEditAndBroadcast (hL : L.Laws)
    {views : List (View (Buffer L))} {order : List UndoSource → List UndoSource} (hrange : op.InRange) :
    Spares b (b.runRopeEditAndBroadcast views order op source) ↔ b.Declines views op := by
  cases hop : isNoOpEdit op with
  | true =>
    rw [runRopeEditAndBroadcast_noOp hop, Declines, hop]
    exact spares_noOp views order hop
  | false =>
    rw [runRopeEditAndBroadcast, Declines, hop]
    cases hcrdt : b.crdt with
    | none =>
      have hbytes : withBytes (Routed.none : Routed L).normalized op = op := by
        cases op <;> rfl
      constructor
      · intro h hwithin
        exact not_spares_runRopeEdit rfl (by rw [hbytes, hop]) (by rw [hbytes]; exact hwithin) h
      intro hout
      obtain ⟨e, herr⟩ := runRopeEdit_refused views order source .none (by rw [hbytes]; exact hout)
      rw [herr]; exact spares_fail e
    | some d =>
      dsimp only
      rcases applyToCrdt_spec hL d hop hrange with
        ⟨u, v, routed, d', hrouted, hsplices, _⟩ | ⟨hout, e, he⟩
      · rw [hrouted]; have hboundaries := hsplices.onBoundaries
        have hreal := hsplices.isNoOpEdit hop; have hrestores := restores_iff hsplices
        by_cases hwithin : op.Within b.bytes.length
        · constructor
          · intro h
            have hrevision : ({ b with crdt := some d' } : Buffer L).revision = b.revision := rfl
            exact absurd h (not_spares_runRopeEdit hrevision hreal (within_withBytes.2 hwithin))
          · intro h; exact absurd hwithin (h hboundaries).1
        obtain ⟨e, herr⟩ := runRopeEdit_refused (b := { b with crdt := some d' }) views
          order source routed fun h => hwithin (within_withBytes.1 h)
        dsimp only; rw [herr]
        constructor
        · intro h _; have htext : (some d').map L.text = b.crdt.map L.text := h.kept.crdt
          rw [hcrdt] at htext; exact ⟨hwithin, hrestores.2 (some.inj htext)⟩
        intro h
        have htext : (some d').map L.text = b.crdt.map L.text := by
          rw [hcrdt]; exact congrArg some (hrestores.1 (h hboundaries).2)
        exact ⟨⟨e, rfl⟩, rfl, htext, rfl, rfl, rfl, rfl, rfl, rfl, rfl, rfl, rfl⟩
      rw [he]
      have hsame : ({ b with crdt := some d } : Buffer L) = b := by rw [← hcrdt]
      dsimp only; rw [hsame]; exact ⟨fun _ h => absurd h hout, fun _ => spares_fail e⟩

/-! ## The history -/

/-- Two sources' stacks with as many groups, and an open run or none alike. -/
structure SameShape (s s' : SourceUndoStacks L) : Prop where
  groups : s'.groups.length = s.groups.length
  redo : s'.redo.length = s.redo.length
  openGroup : s'.openGroup.isSome = s.openGroup.isSome

namespace SameShape

theorem refl (s : SourceUndoStacks L) : SameShape s s := ⟨rfl, rfl, rfl⟩

variable {s' : SourceUndoStacks L}

theorem trans {s'' : SourceUndoStacks L} (h : SameShape s s') (h' : SameShape s' s'') :
    SameShape s s'' :=
  ⟨h'.groups.trans h.groups, h'.redo.trans h.redo, h'.openGroup.trans h.openGroup⟩

theorem length_absorbLast (gs : List (SourceGroup L)) {change : L.Diff} :
    (SourceUndoStacks.absorbLast gs change).length = gs.length := by
  rw [SourceUndoStacks.absorbLast]
  cases hlast : gs.getLast? with
  | none => rfl
  | some top => obtain ⟨init, rfl⟩ := getLast?_eq_some_iff.1 hlast; simp

theorem absorbUndo (s : SourceUndoStacks L) (change : L.Diff) :
    SameShape s (s.absorbUndo change) := by
  rw [SourceUndoStacks.absorbUndo]
  split
  · rename_i g hg; exact ⟨rfl, rfl, by rw [hg]; rfl⟩
  · exact ⟨length_absorbLast _, rfl, rfl⟩

theorem absorbRedo (s : SourceUndoStacks L) (change : L.Diff) : SameShape s (s.absorbRedo change) :=
  ⟨rfl, length_absorbLast _, rfl⟩

theorem absorbStep (step : HistoryStep) (s : SourceUndoStacks L) (change : L.Diff) :
    SameShape s (s.absorbStep step change) := by
  cases step with
  | undo => exact absorbUndo s change
  | redo => exact absorbRedo s change

theorem stack (h : SameShape s s') (step : HistoryStep) :
    (s'.stack step).length = (s.stack step).length := by
  cases step with
  | undo => exact h.groups
  | redo => exact h.redo

end SameShape

variable {step : HistoryStep}

theorem length_stack_dropTop :
    ((s.dropTop step).stack step).length = (s.stack step).length - 1 := by
  cases step <;> exact length_dropLast

theorem openGroup_dropTop : (s.dropTop step).openGroup = s.openGroup := by
  cases step <;> rfl

/-- What a walk through the history leaves of a source's stacks: no run opened or closed, and
    the stack it pops from no longer. -/
structure Walked (b b' : Buffer L) (from_ : UndoSource) (step : HistoryStep) : Prop where
  openGroup : ∀ source, (b'.stacksOf source).openGroup.isSome = (b.stacksOf source).openGroup.isSome
  stack : ((b'.stacksOf from_).stack step).length ≤ ((b.stacksOf from_).stack step).length

namespace Walked

variable {b'' : Buffer L} {from_ : UndoSource}

theorem refl (b : Buffer L) (from_ : UndoSource) (step : HistoryStep) : Walked b b from_ step :=
  ⟨fun _ => rfl, le_rfl⟩

theorem trans (h : Walked b b' from_ step) (h' : Walked b' b'' from_ step) :
    Walked b b'' from_ step :=
  ⟨fun source => (h'.openGroup source).trans (h.openGroup source), le_trans h'.stack h.stack⟩

/-- Putting back stacks with the same run, and a stack to pop from no longer. -/
theorem setStacks (b : Buffer L) (hopen : s.openGroup.isSome = (b.stacksOf from_).openGroup.isSome)
    (hstack : (s.stack step).length ≤ ((b.stacksOf from_).stack step).length) :
    Walked b (b.setStacks from_ s) from_ step := by
  refine ⟨fun source => ?_, ?_⟩
  · by_cases hsource : source = from_
    · rw [hsource, stacksOf_setStacks_self, hopen]
    · rw [stacksOf_setStacks_of_ne _ hsource]
  · rw [stacksOf_setStacks_self]; exact hstack

end Walked

/-- The stacks of a source once its newest group is popped and what that carried is absorbed. -/
theorem walked_pop (b : Buffer L) (from_ : UndoSource) (step : HistoryStep) :
    Walked b (b.setStacks from_ ((b.stacksOf from_).dropTop step)) from_ step := by
  refine Walked.setStacks b ?_ ?_
  · rw [openGroup_dropTop]
  · rw [length_stack_dropTop]; exact Nat.sub_le _ _

theorem popUntilProduces_walked (from_ : UndoSource) (step : HistoryStep) (v : VersionVector) :
    ∀ (n : ℕ) (popped : List (UndoSource × SourceGroup L)) (b : Buffer L) (d : L.Doc),
      Walked b (popUntilProduces from_ step v n popped b d).buffer from_ step ∧
        (n ≠ 0 → (b.stacksOf from_).stack step ≠ [] →
          (((popUntilProduces from_ step v n popped b d).buffer.stacksOf from_).stack step).length <
            ((b.stacksOf from_).stack step).length)
  | 0, popped, b, d => ⟨.refl b from_ step, fun h => absurd rfl h⟩
  | n + 1, popped, b, d => by
    rw [popUntilProduces]
    cases hlast : ((b.stacksOf from_).stack step).getLast? with
    | none => refine ⟨.refl b from_ step, fun _ hne => absurd (getLast?_eq_none_iff.1 hlast) hne⟩
    | some group =>
      have hpop := walked_pop b from_ step
      have hpos : 0 < ((b.stacksOf from_).stack step).length :=
        length_pos_of_mem (mem_of_getLast? hlast)
      have hlen : (((b.setStacks from_ ((b.stacksOf from_).dropTop step)).stacksOf from_).stack
          step).length < ((b.stacksOf from_).stack step).length := by
        rw [stacksOf_setStacks_self, length_stack_dropTop]; omega
      generalize b.setStacks from_ ((b.stacksOf from_).dropTop step) = b₁ at hpop hlen ⊢; dsimp only
      cases Crdt.capture group.undoAgainst d with
      | error e d' => exact ⟨⟨hpop.openGroup, hpop.stack⟩, fun _ _ => hlen⟩
      | ok res d' =>
        obtain ⟨carried, change⟩ := res
        have hshape := SameShape.absorbStep step (b₁.stacksOf from_) carried
        have hput := Walked.setStacks b₁ hshape.openGroup (le_of_eq (hshape.stack step))
        have hcarried : Walked b₁ { b₁.setStacks from_ ((b₁.stacksOf from_).absorbStep step carried)
            with crdt := some d' } from_ step := ⟨hput.openGroup, hput.stack⟩
        dsimp only
        split_ifs
        · have hrest := popUntilProduces_walked from_ step v n (popped ++ [(from_, group)])
            { b₁.setStacks from_ ((b₁.stacksOf from_).absorbStep step carried) with crdt := some d' }
            d'
          exact ⟨(hpop.trans hcarried).trans hrest.1,
            fun _ _ => lt_of_le_of_lt (hcarried.trans hrest.1).stack hlen⟩
        · exact ⟨hpop.trans hcarried, fun _ _ => lt_of_le_of_lt hcarried.stack hlen⟩

theorem stacksOf_mapVal {f : UndoSource → SourceUndoStacks L → SourceUndoStacks L}
    (harbiter : b'.arbiter = Assoc.mapVal f b.arbiter) (hf : ∀ source s, SameShape s (f source s))
    (source : UndoSource) : SameShape (b.stacksOf source) (b'.stacksOf source) := by
  rw [stacksOf, stacksOf, harbiter, Assoc.lookup_mapVal]
  cases b.arbiter.lookup source with
  | none => exact .refl _
  | some s => exact hf source s

theorem Walked.of_sameShape (h : ∀ s, SameShape (b.stacksOf s) (b'.stacksOf s))
    (from_ : UndoSource) (step : HistoryStep) : Walked b b' from_ step :=
  ⟨fun source => (h source).openGroup, le_of_eq ((h from_).stack step)⟩

theorem absorbCompensation_walked (b : Buffer L) (source from_ : UndoSource) (step : HistoryStep)
    (change : L.Diff) : Walked b (b.absorbCompensation source from_ step change) from_ step := by
  refine .of_sameShape (stacksOf_mapVal (absorbCompensation_arbiter b source from_ step change)
    fun other s => ?_) from_ step
  dsimp only
  split_ifs
  · exact (SameShape.absorbUndo s change).trans (.absorbRedo _ change)
  · exact .absorbRedo s change
  · exact .absorbUndo s change
  · exact .refl s

theorem stacksOf_pushCompensation_self (b : Buffer L) (source : UndoSource) (step : HistoryStep)
    (group : SourceGroup L) : ((b.pushCompensation source step group).stacksOf source).openGroup =
        (b.stacksOf source).openGroup ∧
      ((b.pushCompensation source step group).stacksOf source).stack step =
        (b.stacksOf source).stack step := by
  cases step with
  | undo => rw [pushCompensation, HistoryStep.opposite, stacksOf_setStacks_self]; exact ⟨rfl, rfl⟩
  | redo =>
    have hself := stacksOf_setStacks_self b source { b.stacksOf source with
      groups := pushCapped undoHistoryLimit (b.stacksOf source).groups
        { group with seqno := wrappingSucc b.arbiterSeq } }
    have hpush : (b.pushCompensation source .redo group).stacksOf source = _ := hself; rw [hpush]
    exact ⟨rfl, rfl⟩

theorem stacksOf_pushCompensation_of_ne {other : UndoSource}
    (hother : other ≠ source) {group : SourceGroup L} :
    (b.pushCompensation source step group).stacksOf other = b.stacksOf other := by
  cases step with
  | undo | redo => exact stacksOf_setStacks_of_ne _ hother

theorem pushCompensation_walked (b : Buffer L) (source from_ : UndoSource) (step : HistoryStep)
    (group : SourceGroup L) : Walked b (b.pushCompensation source step group) from_ step := by
  obtain ⟨hopen, hstack⟩ := stacksOf_pushCompensation_self b source step group
  refine ⟨fun other => ?_, le_of_eq ?_⟩
  · by_cases hother : other = source
    · rw [hother, hopen]
    · rw [stacksOf_pushCompensation_of_ne hother]
  by_cases hfrom : from_ = source
  · rw [hfrom, hstack]
  · rw [stacksOf_pushCompensation_of_ne hfrom]

/-- A compensation with a group to pop leaves the stack shorter, whatever becomes of it. -/
theorem compensate_walked (b : Buffer L) (d : L.Doc) (views : List (View (Buffer L)))
    (source from_ : UndoSource) (step : HistoryStep) :
    Walked b (b.compensate d views source from_ step).buffer from_ step ∧
      ((b.stacksOf from_).stack step ≠ [] →
        (((b.compensate d views source from_ step).buffer.stacksOf from_).stack step).length <
          ((b.stacksOf from_).stack step).length) := by
  obtain ⟨hwalked, hshorter⟩ := popUntilProduces_walked from_ step (L.oplogVv d)
    ((b.stacksOf from_).stack step).length [] b d
  have hshorter' := fun hne => hshorter (fun h => hne (length_eq_zero_iff.1 h)) hne
  rw [compensate]
  generalize popUntilProduces from_ step (L.oplogVv d) _ [] b d = loop at hwalked hshorter' ⊢
  split
  · exact ⟨hwalked, hshorter'⟩
  rename_i d' produced change _
  have hpush := (absorbCompensation_walked loop.buffer source from_ step change).trans
    (pushCompensation_walked _ source from_ step (.of (produced.map .span)))
  generalize (loop.buffer.absorbCompensation source from_ step change).pushCompensation source
    step (.of (produced.map .span)) = pushed at hpush ⊢
  have hall := hwalked.trans hpush
  split
  · exact ⟨⟨hall.openGroup, hall.stack⟩, fun hne => lt_of_le_of_lt hpush.stack (hshorter' hne)⟩
  · exact ⟨⟨hall.openGroup, hall.stack⟩, fun hne => lt_of_le_of_lt hpush.stack (hshorter' hne)⟩

theorem stacksOf_of_arbiter_eq (h : b'.arbiter = b.arbiter) : b'.stacksOf source = b.stacksOf source := by
  rw [stacksOf, stacksOf, h]

theorem openGroup_arbiterClose : ((b.arbiterClose source).stacksOf source).openGroup = none := by
  rw [arbiterClose]
  cases hl : b.arbiter.lookup source with
  | none => rw [stacksOf, hl]; rfl
  | some ss =>
    cases hopen : ss.openGroup with
    | none =>
      dsimp only; rw [hopen]
      rw [stacksOf, hl]; exact hopen
    | some group =>
      dsimp only; rw [hopen]; dsimp only
      split_ifs
      · rw [stacksOf_setStacks_self]
      refine (congrArg SourceUndoStacks.openGroup (stacksOf_setStacks_self _ source _)).trans ?_
      rw [stacksOf_setStacks_self]

theorem arbiterClose_of_closed
    (h : (b.stacksOf source).openGroup = none) : b.arbiterClose source = b := by
  rw [stacksOf] at h
  rw [arbiterClose]
  cases hl : b.arbiter.lookup source with
  | none => rfl
  | some ss => rw [hl] at h; dsimp only; rw [show ss.openGroup = none from h]

theorem stacksOf_sweepDeparted (b : Buffer L) (source : UndoSource) :
    b.sweepDeparted.stacksOf source = b.stacksOf source ∨
      b.sweepDeparted.stacksOf source = .default := by
  rw [stacksOf, stacksOf, sweepDeparted, Assoc.lookup_retain]
  cases b.arbiter.lookup source with
  | none => exact .inl rfl
  | some s =>
    rw [filter_some]
    split_ifs
    · exact .inl rfl
    · exact .inr rfl

theorem sweepDeparted_eq_self_iff (b : Buffer L) : b.sweepDeparted.arbiter = b.arbiter ↔
      ∀ s ss, b.arbiter.lookup s = some ss → ss.detached = true → ss.groups ≠ [] := by
  constructor
  · intro h s ss hs hdetached hgroups
    have hkept := Assoc.lookup_retain (fun _ s => !(s.detached && s.groups.isEmpty)) b.arbiter s
    rw [← show b.sweepDeparted.arbiter = Assoc.retain _ b.arbiter from rfl, h, hs,
      filter_some, hdetached, hgroups] at hkept
    cases hkept
  intro h
  refine AList.ext (filter_eq_self.2 fun e he => ?_); have hlookup := Assoc.mem_entries_iff.1 he
  cases hdetached : e.2.detached with
  | false => simp [hdetached]
  | true => simp [h e.1 e.2 hlookup hdetached]

theorem closeOwnRun_of_closed
    (h : source = .daemon ∨ (b.stacksOf source).openGroup = none) : b.closeOwnRun source = b := by
  cases source with
  | daemon => rfl
  | frontend id => exact arbiterClose_of_closed (h.resolve_left nofun)

variable {from_ : UndoSource}

theorem compensate_nothing {views : List (View (Buffer L))}
    (step : HistoryStep) (h : (b.stacksOf from_).stack step = []) (d : L.Doc) :
    b.compensate d views source from_ step = ⟨b, [], [], .error step.nothing⟩ := by
  rw [compensate]; simp [h, popUntilProduces]

/-- **An undo** spares the buffer exactly when it is read-only or there is nothing to undo. -/
theorem spares_undoFor {views : List (View (Buffer L))} :
    Spares b (b.undoFor views source) ↔ b.readOnly = true ∨ b.NothingToUndo source := by
  rw [undoFor]
  by_cases hro : b.readOnly = true
  · rw [if_pos hro]; exact ⟨fun _ => .inl hro, fun _ => spares_fail _⟩
  rw [if_neg hro, or_iff_right hro, NothingToUndo]
  cases hcrdt : b.crdt with
  | none =>
    rw [if_neg (by simp), undoV01]
    cases hlast : b.undo.getLast? with
    | none => exact ⟨fun _ => getLast?_eq_none_iff.1 hlast, fun _ => spares_fail _⟩
    | some entry =>
      constructor
      · rintro ⟨-, hkept⟩
        have hsame : b.undo.dropLast.length = b.undo.length := congrArg List.length hkept.undo
        have hpos := length_pos_of_mem (mem_of_getLast? hlast); rw [length_dropLast] at hsame; omega
      · intro hnil; rw [hnil] at hlast; cases hlast
  | some d =>
    dsimp only; rw [isSome_some, if_pos (Eq.refl true), undoArbiter]
    constructor
    · intro h; have harbiter := h.kept.arbiter
      obtain ⟨hwalked, hshorter⟩ := compensate_walked (b.closeOwnRun source) d views source
        ((b.closeOwnRun source).undoPick source) .undo
      generalize hout : (b.closeOwnRun source).compensate d views source
        ((b.closeOwnRun source).undoPick source) .undo = out at *
      have hclosed : source = .daemon ∨ (b.stacksOf source).openGroup = none := by
        cases source with
        | daemon => exact .inl rfl
        | frontend id =>
          right; have hnone := hwalked.openGroup (.frontend id)
          rw [show b.closeOwnRun (.frontend id) = b.arbiterClose (.frontend id) from rfl,
            openGroup_arbiterClose] at hnone
          rw [← stacksOf_of_arbiter_eq harbiter]
          rcases stacksOf_sweepDeparted out.buffer (.frontend id) with hsame | hdropped
          · rw [hsame]; exact isSome_eq_false_iff.1 hnone |> isNone_iff_eq_none.1
          · rw [hdropped]; rfl
      rw [closeOwnRun_of_closed hclosed] at hwalked hshorter hout
      have hempty : (b.stacksOf (b.undoPick source)).groups = [] := by
        by_contra hne
        have hlt : (out.buffer.stacksOf (b.undoPick source)).groups.length <
          (b.stacksOf (b.undoPick source)).groups.length := hshorter hne
        rw [← stacksOf_of_arbiter_eq harbiter] at hlt
        rcases stacksOf_sweepDeparted out.buffer (b.undoPick source) with hsame | hdropped
        · rw [hsame] at hlt; exact absurd hlt (lt_irrefl _)
        · rw [hdropped] at hlt; exact absurd hlt (Nat.not_lt_zero _)
      have hbuffer : out.buffer = b := by rw [← hout, compensate_nothing .undo hempty]
      rw [hbuffer] at harbiter; exact ⟨hclosed, hempty, (sweepDeparted_eq_self_iff b).1 harbiter⟩
    rintro ⟨hclosed, hempty, hswept⟩
    rw [closeOwnRun_of_closed hclosed, compensate_nothing .undo hempty]
    have harbiter := (sweepDeparted_eq_self_iff b).2 hswept
    exact ⟨⟨_, rfl⟩, rfl, rfl, rfl, rfl, rfl, harbiter, rfl, rfl, rfl, rfl, rfl⟩

/-- **A redo** spares the buffer exactly when it is read-only or there is nothing to redo. -/
theorem spares_redoFor {views : List (View (Buffer L))} :
    Spares b (b.redoFor views source) ↔ b.readOnly = true ∨ b.NothingToRedo source := by
  rw [redoFor]
  by_cases hro : b.readOnly = true
  · rw [if_pos hro]; exact ⟨fun _ => .inl hro, fun _ => spares_fail _⟩
  rw [if_neg hro, or_iff_right hro, NothingToRedo]
  cases hcrdt : b.crdt with
  | none =>
    rw [if_neg (by simp), redoV01]
    cases hlast : b.redo.getLast? with
    | none => exact ⟨fun _ => getLast?_eq_none_iff.1 hlast, fun _ => spares_fail _⟩
    | some entry =>
      constructor
      · rintro ⟨-, hkept⟩
        have hsame : b.redo.dropLast.length = b.redo.length := congrArg List.length hkept.redo
        have hpos := length_pos_of_mem (mem_of_getLast? hlast); rw [length_dropLast] at hsame; omega
      · intro hnil; rw [hnil] at hlast; cases hlast
  | some d =>
    dsimp only; rw [isSome_some, if_pos (Eq.refl true)]
    constructor
    · intro h
      by_contra hne
      have hlt := (compensate_walked b d views source source .redo).2 hne
      rw [stacksOf_of_arbiter_eq h.kept.arbiter] at hlt; exact absurd hlt (lt_irrefl _)
    intro hempty
    rw [compensate_nothing .redo hempty]; exact ⟨⟨_, rfl⟩, .refl b⟩

/-! ## Generated contents -/

theorem runRopeEdit_kept (op : EditOp) (source : UndoSource) (routed : Routed L)
    (hrevision : (b.runRopeEdit views order op source routed).buffer.revision = b.revision) :
    (b.runRopeEdit views order op source routed).buffer = b := by
  rw [runRopeEdit] at hrevision ⊢
  cases hed : editRope b.rope (withBytes routed.normalized op) with
  | error e => rfl
  | ok ed =>
    rw [hed] at hrevision
    cases hreal : (ed.range.isEmpty && ed.insertedLen == 0) with
    | true => simp only [landEdit, hreal, if_true]; rfl
    | false =>
      have hcounted : (b.landEdit views order source routed
          { ed with crdtOp := routed.crdtOp }).buffer.revision = wrappingSucc b.revision :=
        landEdit_revision views order hreal
      exact absurd (hcounted.symm.trans hrevision) (wrappingSucc_ne _)

/-- What an edit leaves is counted, or told from the document's text, or kept. -/
theorem runRopeEditAndBroadcast_kept (op : EditOp) (source : UndoSource)
    (hrevision : (b.runRopeEditAndBroadcast views order op source).buffer.revision = b.revision)
    (hcrdt : (b.runRopeEditAndBroadcast views order op source).buffer.crdt.map L.text =
      b.crdt.map L.text) : Kept b (b.runRopeEditAndBroadcast views order op source).buffer := by
  rw [runRopeEditAndBroadcast] at hrevision hcrdt ⊢
  split at hrevision
  · rename_i d hd hop; simp only [hd, hop] at hcrdt ⊢
    cases hrouted : applyToCrdtThenNormalizeBytes op d with
    | error e d' =>
      simp only [hrouted] at hcrdt ⊢
      exact ⟨rfl, by rw [hd]; exact hcrdt, rfl, rfl, rfl, rfl, rfl, rfl, rfl, rfl, rfl⟩
    | ok routed d' =>
      simp only [hrouted] at hcrdt hrevision ⊢
      have hsame := runRopeEdit_kept views order op source routed hrevision; rw [hsame] at hcrdt ⊢
      exact ⟨rfl, by rw [hd]; exact hcrdt, rfl, rfl, rfl, rfl, rfl, rfl, rfl, rfl, rfl⟩
  · have hsame := runRopeEdit_kept views order op source .none hrevision; rw [hsame]; exact .refl b

/-- **Generated contents** spare the buffer exactly when there is no history to drop and the text
    declines the replacement. -/
theorem spares_setGeneratedContents (hL : L.Laws) {views : List (View (Buffer L))}
    {order : List UndoSource → List UndoSource} {bytes : Bytes} (hlen : b.len ≤ usizeMax) :
    Spares b (b.setGeneratedContents views order bytes) ↔
      b.NoHistory ∧ { b with readOnly := false }.Declines views (.replace ⟨0, b.len⟩ bytes) := by
  have hrange : (EditOp.replace ⟨0, b.len⟩ bytes).InRange := ⟨Nat.zero_le _, hlen⟩
  have hwritable : { b with readOnly := false }.applyEditSkipInterceptsAs views order .daemon
      (.replace ⟨0, b.len⟩ bytes) = { b with readOnly := false }.runRopeEditAndBroadcast views order
        (.replace ⟨0, b.len⟩ bytes) .daemon := if_neg Bool.false_ne_true
  rw [← spares_runRopeEditAndBroadcast hL hrange, setGeneratedContents]
  simp only [hwritable]
  have hkept := runRopeEditAndBroadcast_kept (b := { b with readOnly := false }) views order
    (.replace ⟨0, b.len⟩ bytes) .daemon
  generalize { b with readOnly := false }.runRopeEditAndBroadcast views order
    (.replace ⟨0, b.len⟩ bytes) .daemon = out at hkept ⊢
  cases hresult : out.result with
  | ok ed =>
    have hnot : ¬ ∃ e, out.result = .error e := by
      rintro ⟨e, he⟩; cases hresult.symm.trans he
    exact ⟨fun h => absurd (hresult ▸ h.error) hnot, fun h => absurd h.2.error hnot⟩
  | error e =>
    constructor
    · intro h; have hsame := h.kept
      refine ⟨⟨hsame.undo.symm, hsame.redo.symm, hsame.arbiter.symm, hsame.pendingRemote.symm⟩,
        ⟨e, hresult⟩, hkept hsame.revision hsame.crdt⟩
    rintro ⟨⟨hundo, hredo, harbiter, hpending⟩, -, hsame⟩
    exact ⟨⟨e, rfl⟩, hsame.rope, hsame.crdt, hundo.symm, hredo.symm, hsame.typedFloor,
      harbiter.symm, hsame.arbiterSeq, hpending.symm, hsame.marks, hsame.revision, hsame.isModified⟩

/-! ## Entry points between a beginEdit and its endEdit -/

/-- The two entry points that test the flag leave the buffer itself. -/
theorem applyEditAs_inProgress (h : b.editingInProgress = true)
    (views : List (View (Buffer L))) (order : List UndoSource → List UndoSource)
    (source : UndoSource) (op : EditOp) : ∃ e, b.applyEditAs views order source op = b.fail e := by
  rw [applyEditAs]
  by_cases hro : b.readOnly = true
  · rw [if_pos hro]; exact ⟨_, rfl⟩
  · rw [if_neg hro, if_pos h]; exact ⟨_, rfl⟩

theorem applyRemoteCrdtOp_inProgress (h : b.editingInProgress = true)
    (views : List (View (Buffer L))) (op : Bytes) :
    ∃ e, b.applyRemoteCrdtOp views op = some (b.fail e) := by
  rw [applyRemoteCrdtOp]
  by_cases hro : b.readOnly = true
  · rw [if_pos hro]; exact ⟨_, rfl⟩
  · rw [if_neg hro, if_pos h]; exact ⟨_, rfl⟩

theorem rejects_of_eq (h : b.mutate m = some out) : b.Rejects m ↔ Spares b out := by
  constructor
  · rintro ⟨out', hout', hspares⟩; cases h.symm.trans hout'; exact hspares
  · exact fun hspares => ⟨out, h, hspares⟩

theorem rejects_mapResult {o : Outcome L (Edit WfRope)}
    (h : b.mutate m = some (o.mapResult some)) : b.Rejects m ↔ Spares b o :=
  (rejects_of_eq h).trans (spares_mapResult _)

/-- **Which calls are refused in the middle of an edit.** -/
theorem rejects_iff (hL : L.Laws) (hflag : b.editingInProgress = true) (hrange : m.InRange b) :
    b.Rejects m ↔ b.Gated m := by
  cases m with
  | applyEditAs views order source op =>
    obtain ⟨e, he⟩ := applyEditAs_inProgress hflag views order source op
    rw [rejects_mapResult (o := b.applyEditAs views order source op) rfl, he]
    exact ⟨fun _ => trivial, fun _ => spares_fail e⟩
  | applyRemoteCrdtOp views op =>
    obtain ⟨e, he⟩ := applyRemoteCrdtOp_inProgress hflag views op
    have hout : b.mutate (.applyRemoteCrdtOp views op) = some (b.fail e) := he
    rw [rejects_of_eq hout]; exact ⟨fun _ => trivial, fun _ => spares_fail e⟩
  | applyEditSkipInterceptsAs views order source op =>
    rw [rejects_mapResult (o := b.applyEditSkipInterceptsAs views order source op) rfl,
      applyEditSkipInterceptsAs, Gated]
    by_cases hro : b.readOnly = true
    · rw [if_pos hro]; exact ⟨fun _ => .inl hro, fun _ => spares_fail _⟩
    rw [if_neg hro, or_iff_right hro]
    exact spares_runRopeEditAndBroadcast hL hrange
  | undoFor views source => exact (rejects_mapResult rfl).trans spares_undoFor
  | redoFor views source => exact (rejects_mapResult rfl).trans spares_redoFor
  | setGeneratedContents views order bytes =>
    exact (rejects_mapResult rfl).trans (spares_setGeneratedContents hL hrange)

/-! ## The flag -/

/-- The buffer is in the middle of an edit, or not, as before. -/
def SameFlag (b b' : Buffer L) : Prop := b'.editingInProgress = b.editingInProgress

theorem OnlyArbiter.sameFlag (h : OnlyArbiter b b') : SameFlag b b' := by
  rw [SameFlag, h]

theorem OnlyTyped.sameFlag (h : OnlyTyped b b') : SameFlag b b' := by
  rw [SameFlag, h]

theorem runRopeEdit_sameFlag (b : Buffer L) (views : List (View (Buffer L)))
    (order : List UndoSource → List UndoSource) (op : EditOp) (source : UndoSource)
    (routed : Routed L) : SameFlag b (b.runRopeEdit views order op source routed).buffer := by
  rw [runRopeEdit]
  split
  · rfl
  simp only [landEdit]
  split_ifs
  · rfl
  · exact (arbiterRecord_only _ order source _ routed.change).sameFlag
  · rfl

theorem runRopeEditAndBroadcast_sameFlag {views : List (View (Buffer L))}
    {order : List UndoSource → List UndoSource} {op : EditOp} :
    SameFlag b (b.runRopeEditAndBroadcast views order op source).buffer := by
  rw [runRopeEditAndBroadcast]
  split
  · split
    · rfl
    rename_i d _ _ routed d' _
    exact runRopeEdit_sameFlag { b with crdt := some d' } views order op source routed
  · exact runRopeEdit_sameFlag b views order op source .none

theorem applyEditSkipInterceptsAs_sameFlag (b : Buffer L) (views : List (View (Buffer L)))
    (order : List UndoSource → List UndoSource) (source : UndoSource) (op : EditOp) :
    SameFlag b (b.applyEditSkipInterceptsAs views order source op).buffer := by
  rw [applyEditSkipInterceptsAs]
  split_ifs
  · rfl
  · exact runRopeEditAndBroadcast_sameFlag

theorem setGeneratedContents_sameFlag (b : Buffer L) (views : List (View (Buffer L)))
    (order : List UndoSource → List UndoSource) (bytes : Bytes) :
    SameFlag b (b.setGeneratedContents views order bytes).buffer := by
  have hskip := applyEditSkipInterceptsAs_sameFlag { b with readOnly := false } views order .daemon
    (.replace ⟨0, b.len⟩ bytes)
  rw [setGeneratedContents]
  split
  · exact hskip
  · exact hskip

theorem compensate_sameFlag {d : L.Doc} (hsome : b.crdt.isSome) {views : List (View (Buffer L))} :
    SameFlag b (b.compensate d views source from_ step).buffer := by
  rcases compensate_cases b source hsome views from_ step with
    ⟨b', popped, e, honly, hout⟩ | ⟨b', newRope, op, popped, modified, honly, _, hout⟩
  · rw [hout, SameFlag, honly.rest]
  · have hflag : SameFlag b b' := by rw [SameFlag, honly.rest]
    rw [hout]; exact hflag

theorem undoFor_sameFlag (b : Buffer L) (views : List (View (Buffer L))) (source : UndoSource) :
    SameFlag b (b.undoFor views source).buffer := by
  rw [undoFor]
  split_ifs
  · rfl
  split
  · rename_i d hd
    have hclosed := closeOwnRun_only b source
    have hswept := sweepDeparted_only
      ((b.closeOwnRun source).compensate d views source ((b.closeOwnRun source).undoPick source)
        .undo).buffer
    exact (hswept.sameFlag.trans (compensate_sameFlag (by rw [hclosed.keeps.isSome, hd]; rfl))).trans
      hclosed.sameFlag
  rw [undoV01]
  split <;> rfl

theorem redoFor_sameFlag (b : Buffer L) (views : List (View (Buffer L))) (source : UndoSource) :
    SameFlag b (b.redoFor views source).buffer := by
  rw [redoFor]
  split_ifs
  · rfl
  split
  · rename_i d hd; exact compensate_sameFlag (by rw [hd]; rfl)
  rw [redoV01]
  split <;> rfl

theorem arbiterTypedBegin_sameFlag (b : Buffer L) (source : UndoSource) (run limit : ℕ) :
    SameFlag b (b.arbiterTypedBegin source run limit) := by
  simp only [arbiterTypedBegin]
  split_ifs
  · rfl
  · exact (arbiterClose_only b source).sameFlag
  · rfl

theorem arbiterSettleRemote_sameFlag (b : Buffer L) (order : List UndoSource → List UndoSource)
    (source : UndoSource) (run limit : ℕ) (typed : Bool) :
    SameFlag b (b.arbiterSettleRemote order source run limit typed) := by
  simp only [arbiterSettleRemote]
  split
  · rfl
  split_ifs
  · exact (arbiterRecord_only _ _ _ _ _).sameFlag.trans
      (arbiterTypedBegin_sameFlag _ source run limit)
  · exact (arbiterRecord_only _ _ _ _ _).sameFlag.trans (arbiterClose_only _ source).sameFlag

/-- Only `endEdit` ends an edit. -/
theorem perform_inProgress (h : b.editingInProgress = true) {c : Call L}
    (hc : c ≠ .endEdit) (hout : b.perform c = some out) : out.buffer.editingInProgress = true := by
  cases c with
  | applyEditAs views order source op =>
    obtain ⟨e, he⟩ := applyEditAs_inProgress h views order source op; rw [perform, he] at hout
    cases hout; exact h
  | applyRemoteCrdtOp views op =>
    obtain ⟨e, he⟩ := applyRemoteCrdtOp_inProgress h views op; cases he.symm.trans hout; exact h
  | applyEditSkipInterceptsAs views order source op =>
    cases hout; exact (applyEditSkipInterceptsAs_sameFlag b views order source op).trans h
  | undoFor views source => cases hout; exact (undoFor_sameFlag b views source).trans h
  | redoFor views source => cases hout; exact (redoFor_sameFlag b views source).trans h
  | arbiterSettleRemote order source run limit typed =>
    cases hout; exact (arbiterSettleRemote_sameFlag b order source run limit typed).trans h
  | arbiterTypedBegin source run limit =>
    cases hout; exact (arbiterTypedBegin_sameFlag b source run limit).trans h
  | arbiterClose source => cases hout; exact (arbiterClose_only b source).sameFlag.trans h
  | arbiterDetach source => cases hout; exact (arbiterDetach_only b source).sameFlag.trans h
  | noteTypedEdit merge => cases hout; exact (noteTypedEdit_only b merge).sameFlag.trans h
  | commandCollapse => cases hout; exact (commandCollapse_only b).sameFlag.trans h
  | markClean | setReadOnly => cases hout; exact h
  | beginEdit =>
    cases hout
    rw [beginEdit]
    split_ifs
    · exact h
    · exact h
  | endEdit => exact absurd rfl hc

theorem mutate_inProgress (h : b.editingInProgress = true) (hout : b.mutate m = some out) :
    out.buffer.editingInProgress = true := by
  cases m with
  | applyEditAs views order source op =>
    exact perform_inProgress h (c := .applyEditAs views order source op) nofun hout
  | applyRemoteCrdtOp views op =>
    exact perform_inProgress h (c := .applyRemoteCrdtOp views op) nofun hout
  | applyEditSkipInterceptsAs views order source op =>
    exact perform_inProgress h (c := .applyEditSkipInterceptsAs views order source op) nofun hout
  | undoFor views source => exact perform_inProgress h (c := .undoFor views source) nofun hout
  | redoFor views source => exact perform_inProgress h (c := .redoFor views source) nofun hout
  | setGeneratedContents views order bytes =>
    cases hout; exact (setGeneratedContents_sameFlag b views order bytes).trans h

/-! ## Windows -/

/-- The buffers between a successful `beginEdit` on `b₀` and its `endEdit`: other calls are made
    as `okCall` allows, and the entry points called as `ok` does. -/
inductive MidEdit (okCall : Call L → Prop) (ok : Buffer L → Mutation L → Prop) (b₀ : Buffer L) :
    Buffer L → Prop where
  | begun : b₀.beginEdit.result = .ok () → MidEdit okCall ok b₀ b₀.beginEdit.buffer
  | call {b : Buffer L} {c : Call L} {out : Outcome L (Option (Edit WfRope))} :
    MidEdit okCall ok b₀ b → okCall c → b.perform c = some out → MidEdit okCall ok b₀ out.buffer
  | mutate {b : Buffer L} {m : Mutation L} {out : Outcome L (Option (Edit WfRope))} :
    MidEdit okCall ok b₀ b → ok b m → b.mutate m = some out → MidEdit okCall ok b₀ out.buffer

/-- A `beginEdit` that succeeds sets the flag and nothing else. -/
theorem beginEdit_ok (h : b.beginEdit.result = .ok ()) :
    b.beginEdit.buffer.editingInProgress = true ∧ Kept b b.beginEdit.buffer := by
  rw [beginEdit] at h ⊢
  split_ifs at h ⊢
  · cases h
  · cases h
  · exact ⟨rfl, rfl, rfl, rfl, rfl, rfl, rfl, rfl, rfl, rfl, rfl, rfl⟩

theorem MidEdit.inProgress {okCall : Call L → Prop} {ok : Buffer L → Mutation L → Prop}
    {b₀ : Buffer L} (hcall : ∀ c, okCall c → c ≠ .endEdit) (h : MidEdit okCall ok b₀ b) :
    b.editingInProgress = true := by
  induction h with
  | begun hbegun => exact (beginEdit_ok hbegun).1
  | call _ hok hout ih => exact perform_inProgress ih (hcall _ hok) hout
  | mutate _ _ hout ih => exact mutate_inProgress ih hout

/-- **Calls in the middle of an edit.** Whatever else is called, an entry point leaves the text
    and the history with an error exactly when it is gated; and as long as only gated calls are
    made, the text and the history are those that `beginEdit` found. -/
theorem midEdit_holds (hL : L.Laws) (b₀ : Buffer L) :
    (∀ b, MidEdit (· ≠ .endEdit) (fun _ _ => True) b₀ b →
      b.editingInProgress = true ∧ ∀ m, m.InRange b → (b.Rejects m ↔ b.Gated m)) ∧
    ∀ b, MidEdit (fun _ => False) (fun b m => m.InRange b ∧ b.Gated m) b₀ b → Kept b₀ b := by
  constructor
  · intro b h; have hflag := h.inProgress fun _ hc => hc
    exact ⟨hflag, fun m hrange => rejects_iff hL hflag hrange⟩
  intro b h
  induction h with
  | begun hbegun => exact (beginEdit_ok hbegun).2
  | call _ hfalse _ _ => exact hfalse.elim
  | mutate hmid hgated hout ih =>
    have hflag := hmid.inProgress fun _ hfalse => hfalse.elim
    obtain ⟨out', hout', hspares⟩ := (rejects_iff hL hflag hgated.1).2 hgated.2
    cases hout.symm.trans hout'; exact ih.trans hspares.kept

/-- A scratch buffer with one insertion behind it. -/
def typedAb : Buffer .plain :=
  ((fromBytes .plain 0 "" [0x61]).applyEditAs [] (fun sources => sources) .daemon (.insert 1 [0x62])).buffer

/-- In the middle of an edit of it: another insertion through `applyEditAs` is refused, one that
    skips the intercepts is not. -/
theorem midEdit_holds_typedAb :
    typedAb.beginEdit.buffer.Rejects (.applyEditAs [] (fun sources => sources) .daemon (.insert 0 [0x78])) ∧
    ¬ typedAb.beginEdit.buffer.Rejects
      (.applyEditSkipInterceptsAs [] (fun sources => sources) .daemon (.insert 0 [0x78])) := by
  have hbegun : typedAb.beginEdit.result = .ok () := rfl
  obtain ⟨-, hiff⟩ := (midEdit_holds Loro.plain_laws typedAb).1 _ (.begun hbegun)
  refine ⟨(hiff (.applyEditAs [] (fun sources => sources) .daemon (.insert 0 [0x78])) trivial).2 trivial, fun h => ?_⟩
  have hin : (EditOp.insert 0 [0x78]).InRange := Nat.zero_le _
  rcases (hiff (.applyEditSkipInterceptsAs [] (fun sources => sources) .daemon (.insert 0 [0x78])) hin).1 h with
    hro | hdeclines
  · cases hro
  · exact hdeclines ⟨le_rfl, Nat.zero_le _⟩

/-- **In the middle of an edit, four entry points edit the buffer**: an insertion that skips the
    intercepts, an undo, and generated contents; and the undo leaves something to redo. -/
theorem midEdit_fails : ∃ b, MidEdit (· ≠ .endEdit) (fun _ _ => True) typedAb b ∧
      ¬ b.Rejects (.applyEditSkipInterceptsAs [] (fun sources => sources) .daemon (.insert 0 [0x78])) ∧
      ¬ b.Rejects (.setGeneratedContents [] (fun sources => sources) [0x78]) ∧
      ∃ b', MidEdit (· ≠ .endEdit) (fun _ _ => True) typedAb b' ∧
        ¬ b.Rejects (.undoFor [] .daemon) ∧ ¬ b'.Rejects (.redoFor [] .daemon) := by
  have hbegun : typedAb.beginEdit.result = .ok () := rfl
  have hundone : typedAb.beginEdit.buffer.mutate (.undoFor [] .daemon) =
      some ((typedAb.beginEdit.buffer.undoFor [] .daemon).mapResult some) := rfl
  refine ⟨_, .begun hbegun, ?_, ?_, _, .mutate (.begun hbegun) trivial hundone, ?_, ?_⟩
  · rintro ⟨out, hout, ⟨e, he⟩, -⟩; cases hout; cases he
  · rintro ⟨out, hout, ⟨e, he⟩, -⟩; cases hout; cases he
  · rintro ⟨out, hout, ⟨e, he⟩, -⟩; cases hout; cases he
  · rintro ⟨out, hout, ⟨e, he⟩, -⟩; cases hout; cases he

end Buffer

end Pmacs
