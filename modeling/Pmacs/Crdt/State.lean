/-
  The CRDT-backed state of a buffer (crdt.rs): byte positions over the library's
  character positions, versions and spans, and the undo of one span or change.

  A document stands for the whole state: the captures of the source are the
  library's own record of what it emitted.
-/
import Pmacs.Crdt.Loro
import Pmacs.Lib.Integers
import Pmacs.Lib.Utf8
import Pmacs.Rope.Tree

namespace Pmacs

open Lib

/-- `PIECE_BYTES`. -/
def pieceBytes : ℕ := 16 * 1024

namespace Crdt

variable {L : Loro}

/-! ## Positions -/

variable (d : L.Doc)

/-- The character that holds byte `pos`; the end's index at the end, none past it. -/
def unicodeAtByte (pos : ℕ) : Option ℕ := L.convertPos d pos

/-- The character that starts at byte `pos`, none inside a character. -/
def byteToUnicodeOnBoundary (pos : ℕ) : Option ℕ := do
  let unicode ← unicodeAtByte d pos
  if pos = 0 then some unicode
  else
    let before ← unicodeAtByte d (pos - 1)
    if before < unicode then some unicode else none

def checkedUnicode (pos : ℕ) : Except (LoroError L.Err) ℕ :=
  if L.lenUtf8 d < pos then
    .error (.outOfBound pos (L.lenUtf8 d) "pmacs::crdt::CrdtState byte position")
  else
    match byteToUnicodeOnBoundary d pos with
    | some unicode => .ok unicode
    | none => .error (.utf8InUnicodeCodePoint pos)

/-- The bisection of `unicodeToUtf8Pos`, which halves `hi - lo`. -/
def bisectUnicode (d : L.Doc) (pos : ℕ) : ℕ → ℕ → ℕ → Option ℕ
  | 0, lo, _ => some lo
  | fuel + 1, lo, hi =>
    if lo < hi then
      let mid := lo + (hi - lo) / 2
      match unicodeAtByte d mid with
      | none => none
      | some unicode =>
        if unicode < pos then bisectUnicode d pos fuel (mid + 1) hi
        else bisectUnicode d pos fuel lo mid
    else some lo

/-- The byte offset of character `pos`, none past the end. -/
def unicodeToUtf8Pos (pos : ℕ) : Option ℕ :=
  match unicodeAtByte d (L.lenUtf8 d) with
  | none => none
  | some len => if len < pos then none else bisectUnicode d pos (L.lenUtf8 d) 0 (L.lenUtf8 d)

/-! ## Edits -/

/-- Insert at most `fuel` pieces of `s` at character `i`, the last piece first. -/
def insertPieces (i : ℕ) : ℕ → List Char → CrdtM L Unit
  | 0, _ => pure ()
  | fuel + 1, s =>
    if s.isEmpty then pure ()
    else
      let cut := Utf8.cutAt ((Utf8.encode s).length - pieceBytes) s
      L.insert i cut.2 >>= fun _ => insertPieces i fuel cut.1

def insertInPieces (i : ℕ) (s : List Char) : CrdtM L Unit := insertPieces i s.length s

/-- Insert `s` at byte `pos`. -/
def insert (pos : ℕ) (s : List Char) : CrdtM L Unit := fun d =>
  match checkedUnicode d pos with
  | .error e => .error e d
  | .ok unicode => insertInPieces unicode s d

/-- Delete `len` bytes at byte `pos`. -/
def delete (pos len : ℕ) : CrdtM L Unit := fun d =>
  match checkedUnicode d pos with
  | .error e => .error e d
  | .ok start =>
    match checkedUnicode d (min (pos + len) usizeMax) with
    | .error e => .error e d
    | .ok stop => L.delete start (stop - start) d

def fromBytes (L : Loro) (peerId : PeerId) (bytes : Bytes) : Except (LoroError L.Err) L.Doc :=
  match L.newDoc peerId with
  | .error e => .error e
  | .ok d =>
    if bytes.isEmpty then .ok d
    else
      match insertInPieces 0 (Utf8.lossy bytes) d with
      | .ok _ d => .ok d
      | .error e _ => .error e

/-- Run `edit`, and return what it did to the document beside its result. -/
def capture {ε α : Type} (edit : EStateM ε L.Doc α) : EStateM ε L.Doc (α × L.Diff) := fun d =>
  match edit d with
  | .ok a d' => .ok (a, L.captured d d') d'
  | .error e d' => .error e d'

/-- Import a remote update; the text deltas it caused, the empty ones left out. -/
def importUpdatesWithTextDeltas (bytes : Bytes) : CrdtM L (List (List TextDelta)) := fun d =>
  match L.importUpdates bytes d with
  | .ok deltas d' => .ok (deltas.filter fun delta => !delta.isEmpty) d'
  | .error e d' => .error e d'

/-! ## Versions -/

/-- The op spans added since `v`, in the order of their peers. -/
def spansSince (v : VersionVector) : List IdSpan :=
  ((L.oplogVv d).entries.filterMap fun e =>
    if v.count e.1 < e.2 then some ⟨e.1, v.count e.1, e.2⟩ else none).insertionSort
      (fun s t => s.peer ≤ t.peer)

structure IntegratedChange (L : Loro) where
  span : IdSpan
  before : L.Frontiers
  after : L.Frontiers

/-- The pieces of the changes that cover the ops of `peer` in `[at_, stop)`, with
    their Lamport times; none when a change is not in the log. -/
def changePieces (d : L.Doc) (peer : PeerId) (stop : ℕ) : ℕ → ℕ → Option (List (ℕ × IdSpan))
  | 0, _ => some []
  | fuel + 1, at_ =>
    if at_ < stop then do
      let change ← L.getChange d ⟨peer, at_⟩
      if i32Max < change.len then none
      let end_ := min (change.id.counter + change.len) stop
      let rest ← changePieces d peer stop fuel end_
      some ((change.lamport + (at_ - change.id.counter), ⟨peer, at_, end_⟩) :: rest)
    else some []

/-- The pieces in order, each between the version the one before it left and its
    own: the versions between two pieces are computed, the last is the log's. -/
def integrate (d : L.Doc) : VersionVector → L.Frontiers → List IdSpan → List (IntegratedChange L)
  | _, _, [] => []
  | _, before, [span] => [⟨span, before, L.oplogFrontiers d⟩]
  | version, before, span :: spans =>
    let version := version.insert span.peer span.stop
    ⟨span, before, L.vvToFrontiers d version⟩ ::
      integrate d version (L.vvToFrontiers d version) spans

/-- The changes integrated since `v`, in the order of their Lamport times. -/
def changesSince (v : VersionVector) (frontiers : L.Frontiers) :
    Option (List (IntegratedChange L)) := do
  let pieces ← (spansSince d v).mapM fun span =>
    changePieces d span.peer span.stop (span.stop - span.start) span.start
  let sorted := pieces.flatten.insertionSort fun p q =>
    p.1 < q.1 ∨ (p.1 = q.1 ∧ p.2.peer ≤ q.2.peer)
  some (integrate d v frontiers (sorted.map Prod.snd))

/-! ## Undo -/

def steps : ℕ → List TextDelta → List (ℕ × (List Char ⊕ ℕ))
  | _, [] => []
  | at_, .retain n _ :: ds => steps (at_ + n) ds
  | at_, .insert s _ :: ds => (at_, .inl s) :: steps at_ ds
  | at_, .delete n :: ds => (at_, .inr n) :: steps (at_ + n) ds

def applySteps : List (ℕ × (List Char ⊕ ℕ)) → CrdtM L Unit
  | [] => pure ()
  | (at_, .inl s) :: rest => insertInPieces at_ s >>= fun _ => applySteps rest
  | (at_, .inr n) :: rest => L.delete at_ n >>= fun _ => applySteps rest

def TextDelta.attributed : TextDelta → Bool
  | .retain _ attributed => attributed
  | .insert _ attributed => attributed
  | .delete _ => false

/-- Apply the body's delta: by the library when it carries attributes, else its
    steps back to front, the inserts in pieces. -/
def applyBody (delta : List TextDelta) : CrdtM L Unit :=
  if delta.any TextDelta.attributed then L.applyDelta delta
  else applySteps (steps 0 delta).reverse

def applyInPieces (compensation : L.Diff) : CrdtM L Unit :=
  (match L.bodyDelta compensation with
    | some delta => applyBody delta
    | none => pure ()) >>= fun _ =>
  match L.restDiff compensation with
  | some rest => L.applyDiff rest
  | none => pure ()

/-- Undo what lies between the versions `after` and `before`, against `base`; the
    result is `base` in the coordinates before it. -/
def undoBetweenInPieces (after before : L.Frontiers) (base : L.Diff) : CrdtM L L.Diff := fun d =>
  match L.diff d after before with
  | .error e => .error e d
  | .ok inverse =>
    match applyInPieces (L.transform inverse base true) d with
    | .error e d' => .error e d'
    | .ok _ d' => .ok (L.transform base inverse false) (L.commitWith d')

/-- The version the first op of a span depends on, when each later op depends on
    the one before it alone. The loop takes a change a round. -/
def depsOfLinearSpan (span : IdSpan) : Option L.Frontiers := do
  let first ← L.getChange d ⟨span.peer, span.start⟩
  let deps :=
    if first.id.counter = span.start then first.deps else L.ofId ⟨span.peer, span.start - 1⟩
  if i32Max < first.len then none
  let rec loop : ℕ → ℕ → Option Unit
    | 0, _ => some ()
    | fuel + 1, at_ =>
      if at_ < span.stop then do
        let next ← L.getChange d ⟨span.peer, at_⟩
        if next.deps ≠ L.ofId ⟨span.peer, at_ - 1⟩ then none
        if i32Max < next.len then none
        loop fuel (next.id.counter + next.len)
      else some ()
  loop (span.stop - span.start) (first.id.counter + first.len)
  some deps

def includesId (id : OpId) : Bool := id.counter < (L.oplogVv d).count id.peer

def undoSpanByLoro (span : IdSpan) (base : L.Diff) : CrdtM L L.Diff := fun d =>
  match L.undoInternal span base d with
  | .error e d' => .error e d'
  | .ok inverses d' => .ok (inverses.foldl (fun b inverse => L.transform b inverse false) base) d'

def undoSpanInPieces (span : IdSpan) (deps : L.Frontiers) (base : L.Diff) : CrdtM L L.Diff :=
  fun d =>
    if includesId d span.last then undoBetweenInPieces (L.ofId span.last) deps base d
    else .error (.undoInvalidIdSpan span.last) d

/-- Undo a span against `base`. -/
def undoSpanAgainst (span : IdSpan) (base : L.Diff) : CrdtM L L.Diff := fun d =>
  match depsOfLinearSpan (L.commit d) span with
  | some deps => undoSpanInPieces span deps base (L.commit d)
  | none => undoSpanByLoro span base (L.commit d)

/-- Undo a change against `base`. -/
def undoChangeAgainst (change : IntegratedChange L) (base : L.Diff) : CrdtM L L.Diff := fun d =>
  if includesId (L.commit d) change.span.last then
    undoBetweenInPieces change.after change.before base (L.commit d)
  else .error (.undoInvalidIdSpan change.span.last) (L.commit d)

end Crdt

end Pmacs
