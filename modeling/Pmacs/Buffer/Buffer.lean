/-
  The buffer (buffer.rs): a rope, its undo history in either mode, and, when it is
  CRDT-backed, the CRDT document behind the rope.

  * the views a call meets are arguments of the call: what each does to the
    operation and on hearing of the edit, whatever its own state made it;
  * `Outcome` is the buffer a call leaves, the edits broadcast to views, the groups
    taken from history, and the call's result;
  * `arbiterRecord`, `arbiterTypedBegin` and the like keep the arbiter's stacks.
-/
import Pmacs.Buffer.Arbiter
import Pmacs.Rope.Spec

namespace Pmacs

open Lib

/-! ## Data -/

inductive MarkGravity where
  | left
  | right
deriving DecidableEq, Repr

structure Mark where
  pos : ℕ
  gravity : MarkGravity
deriving DecidableEq, Repr

inductive EditOp where
  | insert (pos : ℕ) (bytes : Bytes)
  | delete (range : Range)
  | replace (range : Range) (bytes : Bytes)
deriving DecidableEq, Repr

/-- What an edit did: the range of the rope before it, and how many bytes stand at
    its start instead. -/
structure EditDescription where
  preRange : Range
  insertedLen : ℕ
deriving DecidableEq, Repr

/-- One entry of a rope-only history: the rope before an edit, and the edit. -/
structure UndoEntry where
  rope : WfRope
  edit : EditDescription
  typed : Bool

structure Buffer (L : Loro) where
  id : ℕ
  name : String
  rope : WfRope
  isModified : Bool
  readOnly : Bool
  revision : ℕ
  marks : List (ℕ × Mark)
  undo : List UndoEntry
  redo : List UndoEntry
  typedFloor : Option ℕ
  arbiter : Assoc UndoSource (SourceUndoStacks L)
  arbiterSeq : ℕ
  pendingRemote : Option (List (RecordedOps L) × L.Diff)
  editingInProgress : Bool
  crdt : Option L.Doc

/-- What an intercepting view is told of the buffer. -/
structure InterceptContext where
  bufId : ℕ
  bufLen : ℕ
  bufName : String
  revision : ℕ

structure View (B : Type) where
  interceptEdit : InterceptContext → EditOp → Except BufferError EditOp
  onEdit : B → Edit WfRope → Except BufferError Unit

/-- What a call leaves. -/
structure Outcome (L : Loro) (α : Type) where
  buffer : Buffer L
  heard : List (Edit WfRope)
  popped : List (UndoSource × SourceGroup L)
  result : Except BufferError α

def Outcome.mapResult {L : Loro} {α β : Type} (f : α → β) (o : Outcome L α) : Outcome L β :=
  ⟨o.buffer, o.heard, o.popped, o.result.map f⟩

namespace Buffer

variable {L : Loro}

/-- The next value of a `u64` counter. -/
def wrappingSucc (n : ℕ) : ℕ := (n + 1) % 2 ^ 64

/-! ## Construction -/

def fromRope (L : Loro) (id : ℕ) (name : String) (rope : WfRope) : Buffer L :=
  { id := id
    name := name
    rope := rope
    isModified := false
    readOnly := false
    revision := 0
    marks := []
    undo := []
    redo := []
    typedFloor := none
    arbiter := ∅
    arbiterSeq := 0
    pendingRemote := none
    editingInProgress := false
    crdt := none }

def fromBytes (L : Loro) (id : ℕ) (name : String) (bytes : Bytes) : Buffer L :=
  fromRope L id name (.fromBytes bytes)

def fromBytesWithCrdt (L : Loro) (id : ℕ) (name : String) (bytes : Bytes) (peerId : PeerId) :
    Except BufferError (Buffer L) :=
  match Crdt.fromBytes L peerId bytes with
  | .ok d => .ok { fromBytes L id name bytes with crdt := some d }
  | .error e => .error (.crdtRejected (L.display e))

def bytes (b : Buffer L) : Bytes := b.rope.bytes

def len (b : Buffer L) : ℕ := b.rope.len

variable (b : Buffer L)

/-! ## Flags -/

def markClean : Buffer L := { b with isModified := false }

def setReadOnly (readOnly : Bool) : Buffer L := { b with readOnly := readOnly }

def endEdit : Buffer L := { b with editingInProgress := false }

def fail {α : Type} (e : BufferError) : Outcome L α := ⟨b, [], [], .error e⟩

def beginEdit : Outcome L Unit :=
  if b.readOnly then b.fail (.readOnly b.id b.name)
  else if b.editingInProgress then b.fail (.concurrentEdit b.id b.name)
  else ⟨{ b with editingInProgress := true }, [], [], .ok ()⟩

/-! ## Marks -/

/-- Where a mark goes when `range` is replaced by `insertedLen` bytes. -/
def adjustMark (range : Range) (insertedLen : ℕ) (m : Mark) : Mark :=
  let newEnd := min (range.start + insertedLen) (2 ^ 64 - 1)
  let atEdge := match m.gravity with
    | .left => range.start
    | .right => newEnd
  { m with pos :=
    if m.pos < range.start then m.pos
    else if range.stop < m.pos then m.pos - range.len + insertedLen
    else atEdge }

def adjustMarksForEdit (range : Range) (insertedLen : ℕ) : Buffer L :=
  { b with marks := b.marks.map fun m => (m.1, adjustMark range insertedLen m.2) }

/-! ## Broadcasting -/

def hear (b : Buffer L) (ed : Edit WfRope) : List (View (Buffer L)) → Except BufferError Unit
  | [] => .ok ()
  | v :: vs =>
    match v.onEdit b ed with
    | .ok () => hear b ed vs
    | .error e => .error e

def broadcastOnEdit (views : List (View (Buffer L))) (ed : Edit WfRope)
    (popped : List (UndoSource × SourceGroup L)) : Outcome L (Edit WfRope) :=
  ⟨b, [ed], popped, (b.hear ed views).map fun _ => ed⟩

/-! ## The arbiter -/

variable (order : List UndoSource → List UndoSource) (source : UndoSource)

def stacksOf : SourceUndoStacks L :=
  (b.arbiter.lookup source).getD .default

def setStacks (s : SourceUndoStacks L) : Buffer L :=
  { b with arbiter := b.arbiter.insert source s }

def pushGroup (group : SourceGroup L) : Buffer L :=
  let seq := wrappingSucc b.arbiterSeq
  let ss := b.stacksOf source
  { b.setStacks source
      { ss with groups := pushCapped undoHistoryLimit ss.groups { group with seqno := seq } }
    with arbiterSeq := seq }

def arbiterClose : Buffer L :=
  match b.arbiter.lookup source with
  | none => b
  | some ss =>
    match ss.openGroup with
    | none => b
    | some group =>
      let b := b.setStacks source { ss with openGroup := none }
      if group.spans.isEmpty then b else b.pushGroup source group

/-- Open, or continue, a source's amalgamation run. `run.is_multiple_of(limit)`. -/
def arbiterTypedBegin (run limit : ℕ) : Buffer L :=
  if b.crdt.isNone then { b with typedFloor := some b.undo.length }
  else
    let b := if limit = 0 ∨ run % limit = 0 then b.arbiterClose source else b
    let ss := b.stacksOf source
    b.setStacks source { ss with openGroup := some (ss.openGroup.getD ⟨[], 0⟩) }

/-- Hand a departing source's history to whoever undoes next. -/
def arbiterDetach : Buffer L :=
  let b := b.arbiterClose source
  match b.arbiter.lookup source with
  | none => b
  | some ss =>
    if ss.groups.isEmpty then { b with arbiter := b.arbiter.erase source }
    else b.setStacks source { ss with redo := [], detached := true }

def arbiterHasHistory : Bool :=
  b.arbiter.entries.any fun e => !e.2.groups.isEmpty

def absorbForeign (change : L.Diff) : Buffer L :=
  { b with arbiter := Assoc.mapVal (fun other s =>
    if other = source then s else (s.absorbUndo change).absorbRedo change) b.arbiter }

def closeAll : Buffer L :=
  (order b.arbiter.keys).foldl arbiterClose b

/-- A new step of a source: it joins the source's open group, or stands alone. -/
def addStep (ops : List (RecordedOps L)) : Buffer L :=
  let ss := { b.stacksOf source with redo := [] }
  match ss.openGroup with
  | some group =>
    b.setStacks source { ss with
      openGroup := some { group with spans := group.spans ++ (SourceGroup.of ops).spans } }
  | none => (b.setStacks source ss).pushGroup source (.of ops)

/-- Record one forward edit. A daemon edit closes every open group. -/
def arbiterRecord (ops : List (RecordedOps L)) (change : L.Diff) : Buffer L :=
  if ops.isEmpty then b
  else
    let b := b.absorbForeign source change
    let b := if source = .daemon then b.closeAll order else b
    b.addStep source ops

def arbiterSettleRemote (run limit : ℕ) (typed : Bool) : Buffer L :=
  match b.pendingRemote with
  | none => b
  | some (ops, change) =>
    let b := { b with pendingRemote := none }
    let b := if typed then b.arbiterTypedBegin source run limit else b.arbiterClose source
    b.arbiterRecord order source ops change

end Buffer

end Pmacs
