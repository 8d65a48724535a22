/-
  A frontend's replica of the buffers it edits (buffer_mirror.rs) and the keystrokes it
  applies to them ahead of the daemon (optimistic.rs).

  * `BufferMirror`: for each buffer a document and a cursor, and which cursors are stale.
  * `frontendEventForKeystroke`: the event a key is sent as, an operation already applied
    to the mirror or the key itself.
  * `applyIncomingCrdtOp_cases`: what comes of an operation of the daemon.
-/
import Pmacs.Crdt.State
import Pmacs.Terminal.Cell

namespace Pmacs.Replica

open Lib

abbrev BufferId := ℕ

abbrev FrontendId := UInt64

def peerIdFromFrontend (id : FrontendId) : PeerId := id

/-! ## Keys and events -/

/-- A key of the protocol; those the frontend tells apart by name only are `named`. -/
inductive Key where
  | char (c : Char)
  | f (n : ℕ)
  | backspace
  | delete
  | named (name : String)
deriving DecidableEq, Repr

structure Modifiers where
  shift : Bool
  ctrl : Bool
  alt : Bool
  metaKey : Bool
  hyper : Bool
deriving DecidableEq, Repr

def Modifiers.none : Modifiers := ⟨false, false, false, false, false⟩

structure KeyEvent where
  key : Key
  mods : Modifiers
deriving DecidableEq, Repr

/-- An update of a document, as its peer exported it. -/
structure CrdtOp where
  peerId : PeerId
  bytes : Bytes
deriving DecidableEq, Repr

structure MouseEvent where
  kind : String
  row : ℕ
  col : ℕ
deriving DecidableEq, Repr

/-- What a frontend sends. `editsAt` is the byte an operation edits at, which on the wire
    is part of its bytes. -/
inductive FrontendEvent where
  | key (k : KeyEvent)
  | crdtOp (frontendId : FrontendId) (bufferId : BufferId) (op : CrdtOp) (editsAt : ℕ)
  | mouse (m : MouseEvent)
  | resize (frontendId : FrontendId) (rows cols : ℕ)
  | paste (frontendId : FrontendId) (data : Bytes)
  | focusGained (frontendId : FrontendId)
  | focusLost (frontendId : FrontendId)
  | detach (frontendId : FrontendId)
deriving DecidableEq, Repr

/-- What the daemon sends that the attach loop reads; the rest is only presented. -/
inductive InstanceMessage where
  | bufferSnapshot (bufferId : BufferId) (crdtSnapshot : Bytes)
  | cursorByte (bufferId : BufferId) (bytePos : ℕ)
  | crdtOp (bufferId : BufferId) (op : CrdtOp)
  | dispatchIdle (idle : Bool)
  | goodbye
  | presented
deriving DecidableEq, Repr

/-! ## The mirror -/

variable {L : Loro}

namespace Crdt

def charAtByte (d : L.Doc) (pos : ℕ) : Option Char := do
  let unicode ← Pmacs.Crdt.byteToUnicodeOnBoundary d pos
  (L.text d)[unicode]?

def charBeforeByte (d : L.Doc) (pos : ℕ) : Option Char := do
  let unicode ← Pmacs.Crdt.byteToUnicodeOnBoundary d pos
  if unicode = 0 then none else (L.text d)[unicode - 1]?

end Crdt

structure BufferMirror (L : Loro) where
  peerId : PeerId
  states : Assoc BufferId L.Doc
  cursors : Assoc BufferId ℕ
  activeBuffer : Option BufferId
  staleCursors : Finset BufferId

inductive BufferMirrorError (L : Loro) where
  | notReady (id : BufferId)
  | alreadyInitialized (id : BufferId)
  | loro (e : LoroError L.Err)
  | exportUpdates (e : L.EncodeErr)

namespace BufferMirror

def new (L : Loro) (frontendId : FrontendId) : BufferMirror L where
  peerId := peerIdFromFrontend frontendId
  states := ∅
  cursors := ∅
  activeBuffer := none
  staleCursors := ∅

variable (m : BufferMirror L) (b : BufferId)

def markCursorStale : BufferMirror L := { m with staleCursors := insert b m.staleCursors }

def isCursorFresh : Bool := b ∉ m.staleCursors

def isReady : Bool := (m.states.lookup b).isSome

def cursorBytePos : Option ℕ := m.cursors.lookup b

def setCursorBytePos (bytePos : ℕ) : BufferMirror L :=
  { m with
    cursors := m.cursors.insert b bytePos
    activeBuffer := some b
    staleCursors := m.staleCursors.erase b }

def advanceCursor (n : ℕ) : BufferMirror L :=
  match m.cursors.lookup b with
  | some pos => { m with cursors := m.cursors.insert b (min (pos + n) usizeMax) }
  | none => m

def retreatCursor (n : ℕ) : BufferMirror L :=
  match m.cursors.lookup b with
  | some pos => { m with cursors := m.cursors.insert b (pos - n) }
  | none => m

def prevCharLen : Option ℕ := do
  let cursor ← m.cursors.lookup b
  if cursor = 0 then none
  else
    let state ← m.states.lookup b
    (Crdt.charBeforeByte state cursor).map Char.utf8Size

def cursorAtEndOfLine : Option Bool := do
  let cursor ← m.cursors.lookup b
  let state ← m.states.lookup b
  if L.lenUtf8 state ≤ cursor then some true
  else some (Crdt.charAtByte state cursor = some '\n')

/-- The display width of a character (`UnicodeWidthChar::width`), none for a control
    character. -/
abbrev CharWidth := Char → Option ℕ

def cursorAtEndOfLineSafeForDeleteBack (width : CharWidth) : Option Bool := do
  let cursor ← m.cursors.lookup b
  let state ← m.states.lookup b
  if cursor = 0 then some false
  else if ¬(L.lenUtf8 state ≤ cursor ∨ Crdt.charAtByte state cursor = some '\n') then some false
  else
    let prevChar ← Crdt.charBeforeByte state cursor
    if prevChar = '\n' then some false else some (width prevChar = some 1)

def initFromSnapshot (snapshot : Bytes) : BufferMirror L :=
  if m.isReady b then m
  else
    match L.newDoc m.peerId with
    | .error _ => m
    | .ok d =>
      match L.importUpdates snapshot d with
      | .ok _ d' => { m with states := m.states.insert b d' }
      | .error _ _ => m

def applyLocal (edit : Pmacs.CrdtM L Unit) : BufferMirror L × Except (BufferMirrorError L) Bytes :=
  match m.states.lookup b with
  | none => (m, .error (.notReady b))
  | some d =>
    match edit d with
    | .error e d' => ({ m with states := m.states.insert b d' }, .error (.loro e))
    | .ok _ d' =>
      match L.exportUpdates (L.oplogVv d) d' with
      | .error e d'' => ({ m with states := m.states.insert b d'' }, .error (.exportUpdates e))
      | .ok bytes d'' => ({ m with states := m.states.insert b d'' }, .ok bytes)

def applyLocalInsert (pos : ℕ) (text : List Char) :
    BufferMirror L × Except (BufferMirrorError L) Bytes :=
  m.applyLocal b (Pmacs.Crdt.insert pos text)

def applyLocalDelete (pos len : ℕ) : BufferMirror L × Except (BufferMirrorError L) Bytes :=
  m.applyLocal b (Pmacs.Crdt.delete pos len)

/-- An import that fails leaves the cursor's freshness. -/
def applyRemoteOp (opBytes : Bytes) : BufferMirror L :=
  match m.states.lookup b with
  | none => m
  | some d =>
    match L.importUpdates opBytes d with
    | .error _ d' => { m with states := m.states.insert b d' }
    | .ok _ d' =>
      { m with
        states := m.states.insert b d'
        staleCursors := insert b m.staleCursors }

end BufferMirror

/-! ## Optimistic edits -/

inductive OptimisticAction where
  | insert (c : Char)
  | deleteBack
  | deleteForward
  | roundTrip
deriving DecidableEq, Repr

def isTextInputModifiers (mods : Modifiers) : Bool :=
  !mods.ctrl && !mods.alt && !mods.metaKey && !mods.hyper

/-- `BUILTIN_PAIR_CHARS`. -/
def builtinPairChars : List Char := ['(', ')', '[', ']', '\x7b', '\x7d', '"', '\'', '\x60']

def classifyKey (key : Key) (mods : Modifiers) : OptimisticAction :=
  if isTextInputModifiers mods then
    match key with
    | .char c => if !isControl c && c ∉ builtinPairChars then .insert c else .roundTrip
    | .backspace => .deleteBack
    | .delete => .deleteForward
    | _ => .roundTrip
  else .roundTrip

variable (width : BufferMirror.CharWidth)

/-- The edit of an action at the cursor of buffer `b`, when it is one that can be painted
    ahead of the daemon. -/
def optimisticEdit (m : BufferMirror L) (b : BufferId) (cursor : ℕ) :
    OptimisticAction → Option (BufferMirror L × Except (BufferMirrorError L) Bytes)
  | .insert c =>
    if m.cursorAtEndOfLine b = some true ∧ width c = some 1 then
      match m.applyLocalInsert b cursor [c] with
      | (m', .ok bytes) => some (m'.advanceCursor b c.utf8Size, .ok bytes)
      | (m', .error e) => some (m', .error e)
    else none
  | .deleteBack =>
    if m.cursorAtEndOfLineSafeForDeleteBack b width = some true then
      match m.prevCharLen b with
      | some n =>
        if 0 < n then
          match m.applyLocalDelete b (cursor - n) n with
          | (m', .ok bytes) => some (m'.retreatCursor b n, .ok bytes)
          | (m', .error e) => some (m', .error e)
        else none
      | none => none
    else none
  | .deleteForward => none
  | .roundTrip => none

/-- `frontend_event_for_keystroke`. Both edits are made at the cursor: an insertion there,
    a deletion up to there. -/
def frontendEventForKeystroke (m : BufferMirror L) (myFid : FrontendId) (k : KeyEvent) :
    BufferMirror L × FrontendEvent :=
  match m.activeBuffer with
  | none => (m, .key k)
  | some b =>
    if m.isReady b ∧ m.isCursorFresh b then
      match m.cursorBytePos b with
      | none => (m, .key k)
      | some cursor =>
        match optimisticEdit width m b cursor (classifyKey k.key k.mods) with
        | some (m', .ok bytes) => (m', .crdtOp myFid b ⟨m.peerId, bytes⟩ cursor)
        | some (m', .error _) => (m', .key k)
        | none => (m, .key k)
    else (m, .key k)

def applyIncomingCrdtOp (m : BufferMirror L) (localId source : FrontendId) (b : BufferId)
    (opBytes : Bytes) : BufferMirror L :=
  if source = localId then m else m.applyRemoteOp b opBytes

/-! ## What a keystroke and a message can do -/

namespace BufferMirror

theorem initFromSnapshot_eq (m : BufferMirror L) (b : BufferId) (snapshot : Bytes) :
    ∃ states, m.initFromSnapshot b snapshot = { m with states := states } := by
  unfold initFromSnapshot
  repeat' split
  all_goals exact ⟨_, rfl⟩

theorem applyRemoteOp_cases {m : BufferMirror L} {b : BufferId} {opBytes : Bytes} :
    (m.applyRemoteOp b opBytes).activeBuffer = m.activeBuffer ∧
      (m.applyRemoteOp b opBytes).cursors = m.cursors ∧
      m.staleCursors ⊆ (m.applyRemoteOp b opBytes).staleCursors := by
  unfold applyRemoteOp
  repeat' split
  · exact ⟨rfl, rfl, Finset.Subset.refl _⟩
  · exact ⟨rfl, rfl, Finset.Subset.refl _⟩
  · exact ⟨rfl, rfl, Finset.subset_insert b m.staleCursors⟩

end BufferMirror

/-- An operation from the daemon moves no cursor, and makes none fresh. -/
theorem applyIncomingCrdtOp_cases (m : BufferMirror L) (localId source : FrontendId)
    (b : BufferId) (opBytes : Bytes) :
    (applyIncomingCrdtOp m localId source b opBytes).activeBuffer = m.activeBuffer ∧
      (applyIncomingCrdtOp m localId source b opBytes).cursors = m.cursors ∧
      m.staleCursors ⊆ (applyIncomingCrdtOp m localId source b opBytes).staleCursors := by
  unfold applyIncomingCrdtOp
  split
  · exact ⟨rfl, rfl, Finset.Subset.refl _⟩
  · exact m.applyRemoteOp_cases

end Pmacs.Replica
