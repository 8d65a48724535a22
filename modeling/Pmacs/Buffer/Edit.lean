/-
  The calls that bring text into a buffer (buffer.rs): forward edits through either
  entry point, and remote CRDT imports.

  * `routeToCrdt`: the CRDT is edited first, and says what bytes the rope mirrors;
  * `deriveReplacementEdit`: one edit for the difference of two texts.
-/
import Pmacs.Buffer.Buffer

namespace Pmacs

open Lib

def EditOp.range : EditOp → Range
  | .insert pos _ => ⟨pos, pos⟩
  | .delete range => range
  | .replace range _ => range

def EditOp.inserted : EditOp → Bytes
  | .insert _ bytes => bytes
  | .delete _ => []
  | .replace _ bytes => bytes

/-- The operation is within a text of `n` bytes. -/
def EditOp.Within (op : EditOp) (n : ℕ) : Prop :=
  op.range.start ≤ op.range.stop ∧ op.range.stop ≤ n

namespace Buffer

variable {L : Loro}

/-! ## Forward edits -/

def isNoOpEdit : EditOp → Bool
  | .insert _ bytes => bytes.isEmpty
  | .delete range => range.isEmpty
  | .replace range bytes => range.isEmpty && bytes.isEmpty

/-- The bytes the CRDT reads for `bytes`, when they are not the same. -/
def normalizedBytes (bytes : Bytes) : Option Bytes :=
  match Utf8.fromUtf8 bytes with
  | some _ => none
  | none => some (Utf8.encode (Utf8.lossy bytes))

def insertLossy (pos : ℕ) (bytes : Bytes) : EStateM BufferError L.Doc (Option Bytes) :=
  orReject (Crdt.insert pos (Utf8.lossy bytes)) >>= fun _ => pure (normalizedBytes bytes)

def routeOps : EditOp → EStateM BufferError L.Doc (Option (Option Bytes))
  | .insert pos bytes => if bytes.isEmpty then pure none else some <$> insertLossy pos bytes
  | .delete range =>
    if range.isEmpty then pure none
    else orReject (Crdt.delete range.start range.len) >>= fun _ => pure (some none)
  | .replace range bytes =>
    (if range.isEmpty then pure () else orReject (Crdt.delete range.start range.len)) >>= fun _ =>
    if bytes.isEmpty then pure (some none) else some <$> insertLossy range.start bytes

def exportUpdatesSince (v : VersionVector) : EStateM BufferError L.Doc Bytes := fun d =>
  match L.exportUpdates v d with
  | .ok bytes d' => .ok bytes d'
  | .error e d' => .error (.crdtRejected ("CRDT encode failed: " ++ L.displayEncode e)) d'

def routeToCrdt (op : EditOp) (preVersion : VersionVector) :
    EStateM BufferError L.Doc (Option (Option Bytes × Bytes)) :=
  routeOps op >>= fun routed =>
  match routed with
  | none => pure none
  | some normalized => exportUpdatesSince preVersion >>= fun wire => pure (some (normalized, wire))

/-- What routing an edit to the CRDT gives: the bytes the rope must mirror, the
    ops for the wire, and the arbiter's record. -/
structure Routed (L : Loro) where
  normalized : Option Bytes
  crdtOp : Option CrdtOp
  spans : List IdSpan
  change : L.Diff

def Routed.none : Routed L := ⟨.none, .none, [], L.emptyDiff⟩

def applyToCrdtThenNormalizeBytes (op : EditOp) : EStateM BufferError L.Doc (Routed L) := fun d =>
  match Crdt.capture (routeToCrdt op (L.oplogVv d)) d with
  | .error e d' => .error e d'
  | .ok (.none, change) d' => .ok ⟨.none, .none, [], change⟩ d'
  | .ok (some (normalized, wire), change) d' =>
    .ok ⟨normalized, some ⟨L.peerId d', wire⟩, Crdt.spansSince d' (L.oplogVv d), change⟩ d'

def withBytes : Option Bytes → EditOp → EditOp
  | some bytes, .insert pos _ => .insert pos bytes
  | some bytes, .replace range _ => .replace range bytes
  | _, op => op

def editRope (rope : WfRope) : EditOp → Except RopeError (Edit WfRope)
  | .insert pos bytes => rope.insert pos bytes
  | .delete range => rope.delete range.start range.stop
  | .replace range bytes => rope.replace range.start range.stop bytes

variable (b : Buffer L)

def pushUndo (entry : UndoEntry) : Buffer L :=
  { b with
    undo := pushCapped undoHistoryLimit b.undo entry
    redo := [] }

variable (views : List (View (Buffer L))) (order : List UndoSource → List UndoSource)

/-- The rope is edited; update the buffer's state and broadcast. -/
def landEdit (source : UndoSource) (routed : Routed L)
    (ed : Edit WfRope) : Outcome L (Edit WfRope) :=
  -- nothing changed: the rope is not swapped, and no step is recorded
  if ed.range.isEmpty && ed.insertedLen == 0 then b.broadcastOnEdit views ed []
  else
    let landed := { b with rope := ed.newRope }.adjustMarksForEdit ed.range ed.insertedLen
    let recorded :=
      if b.crdt.isSome then
        landed.arbiterRecord order source (routed.spans.map .span) routed.change
      else landed.pushUndo ⟨b.rope, ⟨ed.range, ed.insertedLen⟩, false⟩
    { recorded with isModified := true, revision := wrappingSucc recorded.revision }.broadcastOnEdit
      views ed []

def runRopeEdit (op : EditOp) (source : UndoSource) (routed : Routed L) : Outcome L (Edit WfRope) :=
  match editRope b.rope (withBytes routed.normalized op) with
  | .error e => b.fail (.rope e)
  | .ok ed => b.landEdit views order source routed { ed with crdtOp := routed.crdtOp }

def runRopeEditAndBroadcast (op : EditOp) (source : UndoSource) : Outcome L (Edit WfRope) :=
  match b.crdt, isNoOpEdit op with
  | some d, false =>
    match applyToCrdtThenNormalizeBytes op d with
    | .error e d' => { b with crdt := some d' }.fail e
    | .ok routed d' => { b with crdt := some d' }.runRopeEdit views order op source routed
  | _, _ => b.runRopeEdit views order op source .none

/-- `InterceptContext::snapshot`. -/
def interceptContext : InterceptContext := ⟨b.id, b.len, b.name, b.revision⟩

def intercept {B : Type} (ctx : InterceptContext) :
    List (View B) → EditOp → Except BufferError EditOp
  | [], op => .ok op
  | v :: vs, op =>
    match v.interceptEdit ctx op with
    | .ok op => intercept ctx vs op
    | .error e => .error e

def applyEditAs (source : UndoSource) (op : EditOp) : Outcome L (Edit WfRope) :=
  if b.readOnly then b.fail (.readOnly b.id b.name)
  else if b.editingInProgress then b.fail (.concurrentEdit b.id b.name)
  else
    match intercept b.interceptContext views op with
    | .error e => b.fail e
    | .ok current => b.runRopeEditAndBroadcast views order current source

def applyEditSkipInterceptsAs (source : UndoSource) (op : EditOp) : Outcome L (Edit WfRope) :=
  if b.readOnly then b.fail (.readOnly b.id b.name)
  else b.runRopeEditAndBroadcast views order op source

/-! ## Describing a replacement -/

def prefixLoop (old new : Bytes) (chunk maxPrefix : ℕ) : ℕ → ℕ → ℕ
  | 0, n => n
  | fuel + 1, n =>
    if n < maxPrefix then
      let size := min chunk (maxPrefix - n)
      match mismatch (slice old n (n + size)) (slice new n (n + size)) with
      | some off => n + off
      | none => prefixLoop old new chunk maxPrefix fuel (n + size)
    else n

def suffixLoop (old new : Bytes) (chunk maxSuffix : ℕ) : ℕ → ℕ → ℕ
  | 0, n => n
  | fuel + 1, n =>
    if n < maxSuffix then
      let size := min chunk (maxSuffix - n)
      match mismatch (slice old (old.length - n - size) (old.length - n)).reverse
          (slice new (new.length - n - size) (new.length - n)).reverse with
      | some off => n + off
      | none => suffixLoop old new chunk maxSuffix fuel (n + size)
    else n

/-- One edit that turns the old text into the new one: what lies between their
    common prefix and their common suffix. -/
def deriveReplacementEdit (old new : Bytes) : Range × ℕ :=
  if old.length = 0 ∧ new.length = 0 then (⟨0, 0⟩, 0)
  else
    let maxPrefix := min old.length new.length
    let chunk := min 4096 maxPrefix
    let pre := prefixLoop old new chunk maxPrefix maxPrefix 0
    let maxSuffix := min (old.length - pre) (new.length - pre)
    let suf := suffixLoop old new chunk maxSuffix maxSuffix 0
    (⟨pre, old.length - suf⟩, new.length - pre - suf)

/-! ## Remote imports -/

def importRecord (d : L.Doc) (v : VersionVector) (frontiers : L.Frontiers) : List (RecordedOps L) :=
  match Crdt.changesSince d v frontiers with
  | some changes => changes.map .change
  | none => (Crdt.spansSince d v).map .span

/-- The loop of `singleRemoteTextInsert`: the position reached and what was found. -/
def findInsert : ℕ → Option (ℕ × List Char) → List TextDelta → Option (ℕ × List Char)
  | _, found, [] => found
  | cursor, found, .retain n _ :: ds =>
    if usizeMax < cursor + n then none else findInsert (cursor + n) found ds
  | cursor, found, .insert s _ :: ds =>
    if s.isEmpty then findInsert cursor found ds
    else if found.isSome then none
    else if usizeMax < cursor + s.length then none
    else findInsert (cursor + s.length) (some (cursor, s)) ds
  | cursor, found, .delete n :: ds => if n = 0 then findInsert cursor found ds else none

def singleRemoteTextInsert : List (List TextDelta) → Option (ℕ × List Char)
  | [delta] => findInsert 0 none delta
  | _ => none

/-- The loop of `singleRemoteTextDelete`. -/
def findDelete : ℕ → Option (ℕ × ℕ) → List TextDelta → Option (ℕ × ℕ)
  | _, found, [] => found
  | cursor, found, .retain n _ :: ds =>
    if usizeMax < cursor + n then none else findDelete (cursor + n) found ds
  | cursor, found, .insert s _ :: ds => if s.isEmpty then findDelete cursor found ds else none
  | cursor, found, .delete n :: ds =>
    if n = 0 then findDelete cursor found ds
    else if found.isSome then none
    else findDelete cursor (some (cursor, n)) ds

def singleRemoteTextDelete : List (List TextDelta) → Option (ℕ × ℕ)
  | [delta] => findDelete 0 none delta
  | _ => none

/-- The byte just past `chars` characters from byte `start` on, none when the text
    ends before. The window of four bytes a character may cut one it does not need. -/
def ropeByteEndAfterChars (rope : Bytes) (start chars : ℕ) : Option ℕ :=
  if rope.length < start ∨ chars = 0 then none
  else
    let take := min (min (chars * 4) (2 ^ 64 - 1)) (rope.length - start)
    let buf := slice rope start (start + take)
    let s := (Utf8.fromUtf8 (buf.take (Utf8.validUpTo buf))).getD []
    if s.length < chars then none else some (start + (Utf8.encode (s.take chars)).length)

def runRemoteRopeStages (start stop : ℕ) (inserted : Bytes) : Outcome L (Edit WfRope) :=
  match b.rope.replace start stop inserted with
  | .error e => b.fail (.rope e)
  | .ok ed =>
    let landed := { b with rope := ed.newRope }.adjustMarksForEdit ed.range ed.insertedLen
    { landed with isModified := true, revision := wrappingSucc landed.revision }.broadcastOnEdit
      views ed []

/-- The replacement that turns `old` into `new`, cut at character boundaries; none
    when they are equal. -/
def remoteDiff (old new : Bytes) : Option (Range × Bytes) :=
  let pre := backOff (Utf8.isCharBoundary old) (commonPrefix old new)
  let maxSuffix := min (old.length - pre) (new.length - pre)
  let suf := backOff (fun n => Utf8.isCharBoundary old (old.length - n) &&
      Utf8.isCharBoundary new (new.length - n))
    (min (commonPrefix old.reverse new.reverse) maxSuffix)
  if pre + suf = old.length ∧ pre + suf = new.length then none
  else some (⟨pre, old.length - suf⟩, slice new pre (new.length - suf))

/-- The rope's edit for what an import did to the document `d`: one insertion, one
    deletion, or the difference of the texts. It panics on a rope that is not
    UTF-8, where the outer `none` is. -/
def remoteEdit (rope : Bytes) (d : L.Doc) (deltas : List (List TextDelta)) :
    Option (Option (Range × Bytes)) :=
  let inserted := do
    let (pos, s) ← singleRemoteTextInsert deltas
    let at_ ← Crdt.unicodeToUtf8Pos d pos
    some (⟨at_, at_⟩, Utf8.encode s)
  let deleted := do
    let (pos, n) ← singleRemoteTextDelete deltas
    let start ← Crdt.unicodeToUtf8Pos d pos
    let stop ← ropeByteEndAfterChars rope start n
    some (⟨start, stop⟩, [])
  match inserted, deleted with
  | some edit, _ => some (some edit)
  | none, some edit => some (some edit)
  | none, none =>
    if (Utf8.fromUtf8 rope).isSome then some (remoteDiff rope (Utf8.encode (L.text d))) else none

/-- Apply a remotely produced CRDT op: none where the source panics. -/
def applyRemoteCrdtOp (op : Bytes) : Option (Outcome L (Option (Edit WfRope))) :=
  if b.readOnly then some (b.fail (.readOnly b.id b.name))
  else if b.editingInProgress then some (b.fail (.concurrentEdit b.id b.name))
  else
    match b.crdt with
    | none => some (b.fail (.crdtRejected ("remote CrdtOp requires CRDT-backed buffer; daemon " ++
        "should call upgrade_to_crdt first")))
    | some d =>
      match Crdt.capture (Crdt.importUpdatesWithTextDeltas op) d with
      | .error e d' =>
        some ({ b with crdt := some d' }.fail (.crdtRejected ("import_updates: " ++ L.debug e)))
      | .ok (deltas, change) d' =>
        let imported := (importRecord d' (L.oplogVv d) (L.oplogFrontiers d), change)
        let b := { b with crdt := some d' }
        match remoteEdit b.bytes d' deltas with
        | none => none
        | some none => some ⟨b, [], [], .ok none⟩
        | some (some (range, inserted)) =>
          let out := b.runRemoteRopeStages views range.start range.stop inserted
          some ({ out with buffer := { out.buffer with pendingRemote := some imported } }.mapResult
            some)

end Buffer

end Pmacs
