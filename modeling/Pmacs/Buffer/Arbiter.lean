/-
  The undo arbiter's records (buffer.rs): what one source's stacks hold and what
  popping, absorbing and undoing a group do to them.
-/
import Pmacs.Crdt.State
import Pmacs.Lib.Capped

namespace Pmacs

open Lib

/-- `UNDO_HISTORY_LIMIT`: the most entries either history keeps. -/
def undoHistoryLimit : ℕ := 10000

/-- Who a forward edit belongs to: an attached frontend, or the daemon itself. -/
inductive UndoSource where
  | frontend (id : ℕ)
  | daemon
deriving DecidableEq, Repr

/-- Which stack a compensation pops from. -/
inductive HistoryStep where
  | undo
  | redo
deriving DecidableEq, Repr

inductive BufferError where
  | rope (e : RopeError)
  | readOnly (id : ℕ) (name : String)
  | nothingToUndo
  | nothingToRedo
  | intercepted (reason : String)
  | concurrentEdit (id : ℕ) (name : String)
  | crdtRejected (reason : String)
deriving DecidableEq, Repr

def HistoryStep.nothing : HistoryStep → BufferError
  | undo => .nothingToUndo
  | redo => .nothingToRedo

/-- What one recorded span undoes: an op span, or a change an import integrated. -/
inductive RecordedOps (L : Loro) where
  | span (s : IdSpan)
  | change (c : Crdt.IntegratedChange L)

structure RecordedSpan (L : Loro) where
  ops : RecordedOps L
  base : L.Diff

structure SourceGroup (L : Loro) where
  spans : List (RecordedSpan L)
  seqno : ℕ

/-- The undo state of one source: closed groups and redo groups, oldest first, and
    the open run. `detached` marks a source that departed. -/
structure SourceUndoStacks (L : Loro) where
  groups : List (SourceGroup L)
  redo : List (SourceGroup L)
  openGroup : Option (SourceGroup L)
  detached : Bool

variable {L : Loro}

def orReject {α : Type} (x : CrdtM L α) : EStateM BufferError L.Doc α := fun d =>
  match x d with
  | .ok a d' => .ok a d'
  | .error e d' => .error (.crdtRejected (L.display e)) d'

/-- Undo recorded ops against `base`; the result is `base` before them. -/
def RecordedOps.undoAgainst (ops : RecordedOps L) (base : L.Diff) : CrdtM L L.Diff :=
  match ops with
  | span s => Crdt.undoSpanAgainst s base
  | change c => Crdt.undoChangeAgainst c base

namespace SourceGroup

def of (ops : List (RecordedOps L)) : SourceGroup L := ⟨ops.map fun o => ⟨o, L.emptyDiff⟩, 0⟩

/-- Compose a foreign change into the last span's base. -/
def absorb (g : SourceGroup L) (change : L.Diff) : SourceGroup L :=
  { g with spans := match g.spans.getLast? with
    | some last => g.spans.dropLast ++ [{ last with base := L.compose last.base change }]
    | none => g.spans }

/-- Undo spans, newest first, each against its base and what the spans after it
    carried down; the result is what the last one carries. -/
def undoSpans : List (RecordedSpan L) → L.Diff → EStateM BufferError L.Doc L.Diff
  | [], carry => pure carry
  | r :: rs, carry =>
    orReject (r.ops.undoAgainst (L.compose r.base carry)) >>= fun base => undoSpans rs base

def undoAgainst (g : SourceGroup L) : EStateM BufferError L.Doc L.Diff :=
  undoSpans g.spans.reverse L.emptyDiff

end SourceGroup

namespace SourceUndoStacks

def default : SourceUndoStacks L := ⟨[], [], none, false⟩

def absorbLast (gs : List (SourceGroup L)) (change : L.Diff) : List (SourceGroup L) :=
  match gs.getLast? with
  | some top => gs.dropLast ++ [top.absorb change]
  | none => gs

/-- Compose a foreign change into the undo side's newest group, the open run if
    there is one. -/
def absorbUndo (s : SourceUndoStacks L) (change : L.Diff) : SourceUndoStacks L :=
  match s.openGroup with
  | some g => { s with openGroup := some (g.absorb change) }
  | none => { s with groups := absorbLast s.groups change }

def absorbRedo (s : SourceUndoStacks L) (change : L.Diff) : SourceUndoStacks L :=
  { s with redo := absorbLast s.redo change }

def absorbStep (step : HistoryStep) (s : SourceUndoStacks L) (change : L.Diff) :
    SourceUndoStacks L :=
  match step with
  | .undo => s.absorbUndo change
  | .redo => s.absorbRedo change

def stack (step : HistoryStep) (s : SourceUndoStacks L) : List (SourceGroup L) :=
  match step with
  | .undo => s.groups
  | .redo => s.redo

def dropTop (step : HistoryStep) (s : SourceUndoStacks L) : SourceUndoStacks L :=
  match step with
  | .undo => { s with groups := s.groups.dropLast }
  | .redo => { s with redo := s.redo.dropLast }

end SourceUndoStacks

end Pmacs
