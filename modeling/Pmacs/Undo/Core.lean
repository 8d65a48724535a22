/-
  Command boundaries and the undo histories of the buffers (editor_core.rs).

  * `EditorCore`: each frontend's command chain and the one buffer it has a run open on, and the
    history of each buffer, where an edit is stamped with its source and with how many command
    boundaries that source had made.
  * `rotateCommand`, `breakCommandChain`, `typedRunBeginFor`, `typedRunEnd`: the functions;
    `Event` and `step`: what happens, the active buffer being any.
  * `Clean`: a run is begun on one buffer at a time, and a keystroke's step reaches over no
    boundary. `Sound`: what one undo reverts, and what a boundary closes.
-/
import Pmacs.Undo.Steps
import Pmacs.Lib.Integers

namespace Pmacs.Undo

open Lib

abbrev FrontendId := ℕ
abbrev BufferId := ℕ

def selfInsertCommand : String := "buffer.self-insert"

/-- A frontend's command chain: the command before, the one running, and how many times in a row
    it was that one. -/
structure CommandHistory where
  last : Option String
  current : Option String
  run : ℕ

/-- An edit's source, and how many command boundaries it had made. -/
structure Stamp where
  source : UndoSource
  epoch : ℕ
deriving DecidableEq

/-- `boundaries` counts the command boundaries of each frontend, those made while the registry
    was borrowed apart. -/
structure EditorCore where
  commandHistory : FrontendId → CommandHistory
  undoGroup : FrontendId → Option BufferId
  buffers : BufferId → Option (History Stamp)
  boundaries : FrontendId → ℕ

namespace EditorCore

def start : EditorCore := ⟨fun _ => ⟨none, none, 0⟩, fun _ => none, fun _ => none, fun _ => 0⟩

variable (c : EditorCore)

def stamp : UndoSource → Stamp
  | .daemon => ⟨.daemon, 0⟩
  | .frontend fid => ⟨.frontend fid, c.boundaries fid⟩

variable (fid : FrontendId) (id : BufferId)

def modify (f : History Stamp → History Stamp) : EditorCore :=
  { c with buffers := Function.update c.buffers id ((c.buffers id).map f) }

def setGroup (id : Option BufferId) : EditorCore :=
  { c with undoGroup := Function.update c.undoGroup fid id }

def setHistory (entry : CommandHistory) : EditorCore :=
  { c with commandHistory := Function.update c.commandHistory fid entry }

/-! ## The functions -/

variable (borrowed : Bool)

/-- The run is left open while the registry is borrowed. -/
def undoGroupCloseFor : EditorCore :=
  match c.undoGroup fid with
  | none => c
  | some id =>
    if borrowed then c
    else (c.modify id fun h => h.close (.frontend fid)).setGroup fid none

def boundary : EditorCore :=
  let c := c.undoGroupCloseFor fid borrowed
  if borrowed then c
  else { c with boundaries := Function.update c.boundaries fid (c.boundaries fid + 1) }

def rotateCommand (name : String) (borrowed : Bool) : EditorCore :=
  let entry := c.commandHistory fid
  let run := if entry.current = some name then min (entry.run + 1) u32Max else 0
  let c := c.setHistory fid ⟨entry.current, some name, run⟩
  if name ≠ selfInsertCommand then c.boundary fid borrowed else c

def breakCommandChain : EditorCore :=
  (c.setHistory fid { c.commandHistory fid with current := none, run := 0 }).boundary fid borrowed

/-- Begin a keystroke on a buffer: `typed_run_begin` on the active one. -/
def typedRunBeginFor (limit : ℕ) (borrowed : Bool) : EditorCore :=
  if borrowed then c
  else
    match c.buffers id with
    | none => c
    | some _ =>
      (c.modify id fun h => h.typedBegin (.frontend fid) (c.commandHistory fid).run limit).setGroup
        fid (some id)

def commandGroupBegin : EditorCore :=
  c.typedRunBeginFor fid id 0 borrowed

def commandGroupCollapse : EditorCore :=
  if borrowed then c else c.modify id History.commandCollapse

def continues (limit : ℕ) : Bool :=
  limit ≠ 0 && (c.commandHistory fid).run % limit ≠ 0

def typedRunEnd (limit : ℕ) (id : BufferId) (borrowed : Bool) : EditorCore :=
  if borrowed then c else c.modify id fun h => h.noteTypedEdit (c.continues fid limit)

def arbiterSettleRemote (order : List UndoSource → List UndoSource)
    (source : FrontendId) (id : BufferId) (ops limit : ℕ) (typed : Bool) : EditorCore :=
  let edits := List.replicate ops (c.stamp (.frontend source))
  (c.modify id fun h => h.settleRemote order (.frontend source) (c.commandHistory source).run limit
    typed edits).setGroup source (if typed then some id else none)

/-- An op of a frontend's replica arrives: a single codepoint is a self-insert, anything else
    breaks the chain. Only a CRDT-backed buffer imports. -/
def importOp (order : List UndoSource → List UndoSource) (source : FrontendId)
    (id : BufferId) (ops limit : ℕ) (typed : Bool) : EditorCore :=
  match c.buffers id with
  | none => c
  | some h =>
    if h.crdt then
      let c := if typed then c.rotateCommand source selfInsertCommand false
        else c.breakCommandChain source false
      c.arbiterSettleRemote order source id ops limit typed
    else c

/-- A frontend detached: every history it has is handed on. -/
def detachUndoSource : EditorCore :=
  { c.setGroup fid none with
    buffers := fun id => (c.buffers id).map fun h => h.detach (.frontend fid) }

def reverts (spent : ℕ) : List Stamp :=
  match c.buffers id with
  | none => []
  | some h => (h.undoFor (.frontend fid) spent).2

/-! ## What happens -/

inductive Event where
  | rotated (fid : FrontendId) (name : String) (borrowed : Bool)
  | broken (fid : FrontendId) (borrowed : Bool)
  /-- A keystroke is about to be inserted in the active buffer. -/
  | began (fid : FrontendId) (id : BufferId) (limit : ℕ) (borrowed : Bool)
  /-- A completion is about to be accepted. -/
  | acceptBegan (fid : FrontendId) (id : BufferId) (borrowed : Bool)
  /-- A forward edit lands, of a frontend or of a script. -/
  | edited (order : List UndoSource → List UndoSource) (source : UndoSource) (id : BufferId)
      (ops : ℕ)
  | finished (fid : FrontendId) (limit : ℕ) (id : BufferId) (borrowed : Bool)
  | acceptFinished (id : BufferId) (borrowed : Bool)
  | imported (order : List UndoSource → List UndoSource) (source : FrontendId) (id : BufferId)
      (ops limit : ℕ) (typed : Bool)
  | undone (fid : FrontendId) (id : BufferId) (spent : ℕ)
  | redone (fid : FrontendId) (id : BufferId) (spent : ℕ)
  | detached (fid : FrontendId)
  | opened (id : BufferId) (crdt : Bool)
  | upgraded (id : BufferId)
  | killed (id : BufferId)

def step : Event → EditorCore
  | .rotated fid name borrowed => c.rotateCommand fid name borrowed
  | .broken fid borrowed => c.breakCommandChain fid borrowed
  | .began fid id limit borrowed => c.typedRunBeginFor fid id limit borrowed
  | .acceptBegan fid id borrowed => c.commandGroupBegin fid id borrowed
  | .edited order source id ops => c.modify id fun h => h.edit order source ops (c.stamp source)
  | .finished fid limit id borrowed => c.typedRunEnd fid limit id borrowed
  | .acceptFinished id borrowed => c.commandGroupCollapse id borrowed
  | .imported order source id ops limit typed => c.importOp order source id ops limit typed
  | .undone fid id spent => c.modify id fun h => (h.undoFor (.frontend fid) spent).1
  | .redone fid id spent => c.modify id fun h => h.redoFor (.frontend fid) spent
  | .detached fid => c.detachUndoSource fid
  | .opened id crdt =>
    if (c.buffers id).isSome then c
    else { c with buffers := Function.update c.buffers id (some (.new crdt)) }
  | .upgraded id => c.modify id History.upgrade
  | .killed id => { c with buffers := Function.update c.buffers id none }

/-- The events that are command boundaries of a frontend, the registry not borrowed. -/
def Bounds : Event → Prop
  | .rotated fid' name borrowed => fid' = fid ∧ name ≠ selfInsertCommand ∧ borrowed = false
  | .broken fid' borrowed => fid' = fid ∧ borrowed = false
  | _ => False

/-- No two edits of one frontend have a boundary of it between them. -/
def Uniform (edits : List Stamp) : Prop :=
  ∀ fid, ∀ s ∈ edits, ∀ s' ∈ edits, s.source = .frontend fid → s'.source = .frontend fid →
    s.epoch = s'.epoch

/-- No buffer but one has a run of the frontend open. -/
def NoOtherRun : Prop :=
  ∀ id' h, id' ≠ id → c.buffers id' = some h → h.openRun (.frontend fid) = none

/-- A run is begun while the frontend has none open on another buffer; and on a rope-only buffer,
    the entries that a keystroke's command left, with the typed entry below them where the
    keystroke continues a run, reach over no boundary. -/
def Clean : Event → Prop
  | .began fid id _ borrowed => borrowed = true ∨ c.buffers id = none ∨ c.NoOtherRun fid id
  | .acceptBegan fid id borrowed => borrowed = true ∨ c.buffers id = none ∨ c.NoOtherRun fid id
  | .imported _ source id _ _ typed => typed = false ∨
    (∀ h, c.buffers id = some h → h.crdt = false) ∨ c.NoOtherRun source id
  | .finished fid limit id borrowed => borrowed = true ∨
    ∀ h, c.buffers id = some h → h.crdt = false → h.undo ≠ [] →
      Uniform (h.joined (c.continues fid limit))
  | .acceptFinished id borrowed => borrowed = true ∨
    ∀ h, c.buffers id = some h → h.crdt = false → h.undo ≠ [] → Uniform h.commandEdits
  | _ => True

/-- One undo of a frontend reverts no two of its edits with a boundary of it between them, and a
    boundary leaves it no run open. -/
structure Sound (c : EditorCore) : Prop where
  reverts : ∀ fid id spent, ∀ s ∈ c.reverts fid id spent, ∀ s' ∈ c.reverts fid id spent,
    s.source = .frontend fid → s'.source = .frontend fid → s.epoch = s'.epoch
  closes : ∀ fid e, Bounds fid e → ∀ id h, (c.step e).buffers id = some h →
    h.openRun (.frontend fid) = none

/-- The cores reached by events that are all so. -/
inductive Reaches (ok : EditorCore → Event → Prop) : EditorCore → Prop where
  | start : Reaches ok start
  | step {c : EditorCore} {e : Event} (h : Reaches ok c) (hok : ok c e) : Reaches ok (c.step e)

end EditorCore

end Pmacs.Undo
