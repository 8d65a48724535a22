/-
  Undo and redo (buffer.rs): the typed steps and the entries of the rope-only
  history, and the compensations of the arbiter.
-/
import Pmacs.Buffer.Edit

namespace Pmacs

open Lib

namespace Buffer

variable {L : Loro}

/-! ## Typed steps of the rope-only history -/

def describe (old new : WfRope) : EditDescription :=
  let d := deriveReplacementEdit old.bytes new.bytes
  ⟨d.1, d.2⟩

variable (b : Buffer L)

/-- Collapse the entries pushed since the floor into one. -/
def collapseTypedCommand : Buffer L :=
  match b.typedFloor with
  | none => b
  | some floor =>
    let b := { b with typedFloor := none }
    if b.undo.length ≤ floor + 1 then b
    else
      match b.undo[floor]? with
      | none => b
      | some oldest =>
        { b with undo := b.undo.take floor ++ [⟨oldest.rope, describe oldest.rope b.rope, false⟩] }

def commandCollapse : Buffer L :=
  if b.crdt.isSome then b else b.collapseTypedCommand

/-- Mark the newest entry as typed, and merge it into the typed entry below it. -/
def noteTypedEdit (merge : Bool) : Bool × Buffer L :=
  if b.crdt.isSome then (false, b)
  else
    let b := b.collapseTypedCommand
    match b.undo.getLast? with
    | none => (false, b)
    | some top =>
      let below := b.undo.dropLast
      let marked := { b with undo := below ++ [{ top with typed := true }] }
      if !merge then (false, marked)
      else
        match below.getLast? with
        | none => (false, marked)
        | some prev =>
          if !prev.typed then (false, marked)
          else
            (true, { b with
              undo := below.dropLast ++ [{ prev with edit := describe prev.rope b.rope }] })

/-! ## Undo and redo of the rope-only history -/

def EditDescription.inverse (e : EditDescription) : EditDescription :=
  ⟨⟨e.preRange.start, e.preRange.start + e.insertedLen⟩, e.preRange.len⟩

def swapBack (entry : UndoEntry) : Buffer L :=
  let inverse := EditDescription.inverse entry.edit
  { b with rope := entry.rope }.adjustMarksForEdit inverse.preRange inverse.insertedLen

def swapEdit (entry : UndoEntry) : Edit WfRope :=
  let inverse := EditDescription.inverse entry.edit
  ⟨entry.rope, inverse.preRange, inverse.insertedLen, none⟩

def swapEntry (entry : UndoEntry) : UndoEntry :=
  ⟨b.rope, EditDescription.inverse entry.edit, false⟩

variable (views : List (View (Buffer L)))

def undoV01 : Outcome L (Edit WfRope) :=
  match b.undo.getLast? with
  | none => b.fail .nothingToUndo
  | some entry =>
    let swapped := b.swapBack entry
    { swapped with
      undo := b.undo.dropLast
      redo := b.redo ++ [b.swapEntry entry]
      isModified := !b.undo.dropLast.isEmpty
      revision := wrappingSucc b.revision }.broadcastOnEdit views (swapEdit entry) []

def redoV01 : Outcome L (Edit WfRope) :=
  match b.redo.getLast? with
  | none => b.fail .nothingToRedo
  | some entry =>
    let swapped := b.swapBack entry
    { swapped with
      redo := b.redo.dropLast
      undo := b.undo ++ [b.swapEntry entry]
      isModified := true
      revision := wrappingSucc b.revision }.broadcastOnEdit views (swapEdit entry) []

/-! ## Undo and redo of the arbiter -/

def newest (s : SourceUndoStacks L) : Option ℕ := s.groups.getLast?.map SourceGroup.seqno

/-- The unowned stack with the newest group: the daemon's or a departed source's. -/
def newestUnowned : Option (ℕ × UndoSource) :=
  b.arbiter.entries.foldl (fun best e =>
    if e.1 = .daemon ∨ e.2.detached = true then
      match newest e.2, best with
      | none, best => best
      | some seqno, none => some (seqno, e.1)
      | some seqno, some (seqno', from_) =>
        -- `max_by_key` keeps the last of equals
        if seqno' ≤ seqno then some (seqno, e.1) else some (seqno', from_)
    else best) none

variable (source : UndoSource)

def undoPick : UndoSource :=
  match source with
  | .daemon => .daemon
  | .frontend _ =>
    match (b.arbiter.lookup source).bind newest, b.newestUnowned with
    | none, some (_, from_) => from_
    | some own, some (seqno, from_) => if own < seqno then from_ else source
    | _, none => source

/-- What the popping loop of a compensation leaves: the groups popped, and the
    document, the ops and the change of the one that still had something to undo. -/
structure PopLoop (L : Loro) where
  buffer : Buffer L
  popped : List (UndoSource × SourceGroup L)
  result : Except BufferError (L.Doc × List IdSpan × L.Diff)

/-- Pop groups from a stack and undo them until one produces ops. The number is the
    stack's length. -/
def popUntilProduces (from_ : UndoSource) (step : HistoryStep) (preVersion : VersionVector) :
    ℕ → List (UndoSource × SourceGroup L) → Buffer L → L.Doc → PopLoop L
  | 0, popped, b, _ => ⟨b, popped, .error step.nothing⟩
  | n + 1, popped, b, d =>
    match ((b.stacksOf from_).stack step).getLast? with
    | none => ⟨b, popped, .error step.nothing⟩
    | some group =>
      let b := b.setStacks from_ ((b.stacksOf from_).dropTop step)
      let popped := popped ++ [(from_, group)]
      match Crdt.capture group.undoAgainst d with
      | .error e d' => ⟨{ b with crdt := some d' }, popped, .error e⟩
      | .ok (carried, change) d' =>
        let b := b.setStacks from_ ((b.stacksOf from_).absorbStep step carried)
        let b := { b with crdt := some d' }
        let produced := Crdt.spansSince d' preVersion
        if produced.isEmpty then popUntilProduces from_ step preVersion n popped b d'
        else ⟨b, popped, .ok (d', produced, change)⟩

def HistoryStep.opposite : HistoryStep → HistoryStep
  | .undo => .redo
  | .redo => .undo

/-- A compensation is foreign to every stack but the one it was popped from and the
    one it goes to. -/
def absorbCompensation (from_ : UndoSource) (step : HistoryStep) (change : L.Diff) : Buffer L :=
  let touches (other : UndoSource) (kind : HistoryStep) : Bool :=
    (other, kind) != (from_, step) && (other, kind) != (source, HistoryStep.opposite step)
  { b with arbiter := Assoc.mapVal (fun other s =>
    let s := if touches other .undo then s.absorbUndo change else s
    if touches other .redo then s.absorbRedo change else s) b.arbiter }

def pushCompensation (step : HistoryStep) (group : SourceGroup L) : Buffer L :=
  match HistoryStep.opposite step with
  | .redo =>
    let ss := b.stacksOf source
    b.setStacks source { ss with redo := pushCapped undoHistoryLimit ss.redo group }
  | .undo => b.pushGroup source group

/-- Undo groups of `from_` as `source`'s. `d` is the buffer's document. -/
def compensate (d : L.Doc) (views : List (View (Buffer L)))
    (source from_ : UndoSource) (step : HistoryStep) : Outcome L (Edit WfRope) :=
  let loop := popUntilProduces from_ step (L.oplogVv d) ((b.stacksOf from_).stack step).length [] b d
  match loop.result with
  | .error e => ⟨loop.buffer, [], loop.popped, .error e⟩
  | .ok (d', produced, change) =>
    let b' := (loop.buffer.absorbCompensation source from_ step change).pushCompensation source step
      (.of (produced.map .span))
    match exportUpdatesSince (L.oplogVv d) d' with
    | .error e d'' => ⟨{ b' with crdt := some d'' }, [], loop.popped, .error e⟩
    | .ok wire d'' =>
      let newRope := WfRope.fromBytes (Utf8.encode (L.text d'))
      let description := describe b.rope newRope
      let landed := { b' with rope := newRope, crdt := some d'' }.adjustMarksForEdit
        description.preRange description.insertedLen
      { landed with
        revision := wrappingSucc landed.revision
        isModified := match step with
          | .undo => landed.arbiterHasHistory
          | .redo => true }.broadcastOnEdit views
        ⟨newRope, description.preRange, description.insertedLen, some ⟨L.peerId d'', wire⟩⟩
        loop.popped

def sweepDeparted : Buffer L :=
  { b with arbiter := Assoc.retain (fun _ s => !(s.detached && s.groups.isEmpty)) b.arbiter }

def closeOwnRun : Buffer L :=
  match source with
  | .daemon => b
  | .frontend _ => b.arbiterClose source

def undoArbiter (d : L.Doc) (views : List (View (Buffer L)))
    (source : UndoSource) : Outcome L (Edit WfRope) :=
  let closed := b.closeOwnRun source
  let out := closed.compensate d views source (closed.undoPick source) .undo
  { out with buffer := out.buffer.sweepDeparted }

def undoFor : Outcome L (Edit WfRope) :=
  if b.readOnly then b.fail (.readOnly b.id b.name)
  else
    match b.crdt with
    | some d => b.undoArbiter d views source
    | none => b.undoV01 views

def redoFor : Outcome L (Edit WfRope) :=
  if b.readOnly then b.fail (.readOnly b.id b.name)
  else
    match b.crdt with
    | some d => b.compensate d views source source .redo
    | none => b.redoV01 views

end Buffer

end Pmacs
