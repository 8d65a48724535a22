/-
  The undo histories of a buffer, told by the edits each step holds (buffer.rs).

  * `History R`: the entries of a rope-only history, or the stacks of the arbiter, each step with
    what was recorded of its edits (an `R` each).
  * `typedBegin`, `close`, `record`, `settleRemote`, `detach`: the arbiter's bookkeeping;
    `pushEntry`, `commandCollapse`, `noteTypedEdit`: the rope-only history's.
  * `undoFor`, `redoFor`: a step moved from one stack to the other, and what it held.
-/
import Pmacs.Buffer.Arbiter

namespace Pmacs.Undo

open Lib

structure Entry (R : Type) where
  edits : List R
  typed : Bool

structure Group (R : Type) where
  edits : List R
  seqno : ℕ

/-- The undo state of one source. -/
structure Stacks (R : Type) where
  groups : List (Group R)
  redo : List (Group R)
  openGroup : Option (List R)
  detached : Bool

structure History (R : Type) where
  crdt : Bool
  undo : List (Entry R)
  redo : List (Entry R)
  typedFloor : Option ℕ
  arbiter : Assoc UndoSource (Stacks R)
  arbiterSeq : ℕ

variable {R : Type}

def Stacks.default : Stacks R := ⟨[], [], none, false⟩

namespace History

def new (crdt : Bool) : History R := ⟨crdt, [], [], none, ∅, 0⟩

/-! ## The arbiter -/

def stacksOf (h : History R) (source : UndoSource) : Stacks R :=
  (h.arbiter.lookup source).getD .default

def setStacks (h : History R) (source : UndoSource) (s : Stacks R) : History R :=
  { h with arbiter := h.arbiter.insert source s }

def pushGroup (h : History R) (source : UndoSource) (edits : List R) : History R :=
  let seq := (h.arbiterSeq + 1) % 2 ^ 64
  let ss := h.stacksOf source
  { h.setStacks source { ss with groups := pushCapped undoHistoryLimit ss.groups ⟨edits, seq⟩ } with
    arbiterSeq := seq }

/-- Close a source's open group, and push it when it holds edits. -/
def close (h : History R) (source : UndoSource) : History R :=
  match h.arbiter.lookup source with
  | none => h
  | some ss =>
    match ss.openGroup with
    | none => h
    | some edits =>
      let h := h.setStacks source { ss with openGroup := none }
      if edits.isEmpty then h else h.pushGroup source edits

/-- Open, or continue, a source's run; on a rope-only history, mark where its command begins. -/
def typedBegin (h : History R) (source : UndoSource) (run limit : ℕ) : History R :=
  if !h.crdt then { h with typedFloor := some h.undo.length }
  else
    let h := if limit = 0 ∨ run % limit = 0 then h.close source else h
    let ss := h.stacksOf source
    h.setStacks source { ss with openGroup := some (ss.openGroup.getD []) }

def detach (h : History R) (source : UndoSource) : History R :=
  let h := h.close source
  match h.arbiter.lookup source with
  | none => h
  | some ss =>
    if ss.groups.isEmpty then { h with arbiter := h.arbiter.erase source }
    else h.setStacks source { ss with redo := [], detached := true }

def closeAll (h : History R) (order : List UndoSource → List UndoSource) : History R :=
  (order h.arbiter.keys).foldl close h

/-- A new step of a source: it joins the source's open group, or stands alone. -/
def addStep (h : History R) (source : UndoSource) (edits : List R) : History R :=
  let ss := { h.stacksOf source with redo := [] }
  match ss.openGroup with
  | some group => h.setStacks source { ss with openGroup := some (group ++ edits) }
  | none => (h.setStacks source ss).pushGroup source edits

/-- Record one forward edit. A daemon edit closes every open group. -/
def record (h : History R) (order : List UndoSource → List UndoSource) (source : UndoSource)
    (edits : List R) : History R :=
  if edits.isEmpty then h
  else
    let h := if source = .daemon then h.closeAll order else h
    h.addStep source edits

def settleRemote (h : History R) (order : List UndoSource → List UndoSource)
    (source : UndoSource) (run limit : ℕ) (typed : Bool) (edits : List R) : History R :=
  let h := if typed then h.typedBegin source run limit else h.close source
  h.record order source edits

/-! ## The rope-only history -/

def pushEntry (h : History R) (edit : R) : History R :=
  { h with undo := pushCapped undoHistoryLimit h.undo ⟨[edit], false⟩, redo := [] }

def editsOf (entries : List (Entry R)) : List R := entries.flatMap Entry.edits

/-- Collapse the entries pushed since the floor into one. -/
def collapseTypedCommand (h : History R) : History R :=
  match h.typedFloor with
  | none => h
  | some floor =>
    let h := { h with typedFloor := none }
    if h.undo.length ≤ floor + 1 then h
    else { h with undo := h.undo.take floor ++ [⟨editsOf (h.undo.drop floor), false⟩] }

def commandCollapse (h : History R) : History R :=
  if h.crdt then h else h.collapseTypedCommand

/-- Mark the newest entry as typed, and merge it into the typed entry below it. -/
def noteTypedEdit (h : History R) (merge : Bool) : History R :=
  if h.crdt then h
  else
    let h := h.collapseTypedCommand
    match h.undo.getLast? with
    | none => h
    | some top =>
      let below := h.undo.dropLast
      let marked := { h with undo := below ++ [{ top with typed := true }] }
      if !merge then marked
      else
        match below.getLast? with
        | none => marked
        | some prev =>
          if !prev.typed then marked
          else { h with
            undo := below.dropLast ++ [{ prev with edits := prev.edits ++ top.edits }] }

/-- A forward edit of a source, which recorded `ops` ops where there is a document. -/
def edit (h : History R) (order : List UndoSource → List UndoSource) (source : UndoSource)
    (ops : ℕ) (r : R) : History R :=
  if h.crdt then h.record order source (List.replicate ops r) else h.pushEntry r

/-! ## Undo and redo -/

def newest (s : Stacks R) : Option ℕ := s.groups.getLast?.map Group.seqno

/-- The unowned stack with the newest group: the daemon's or a departed source's. -/
def newestUnowned (h : History R) : Option (ℕ × UndoSource) :=
  h.arbiter.entries.foldl (fun best e =>
    if e.1 = .daemon ∨ e.2.detached = true then
      match newest e.2, best with
      | none, best => best
      | some seqno, none => some (seqno, e.1)
      | some seqno, some (seqno', from_) =>
        -- `max_by_key` keeps the last of equals
        if seqno' ≤ seqno then some (seqno, e.1) else some (seqno', from_)
    else best) none

def undoPick (h : History R) (source : UndoSource) : UndoSource :=
  match source with
  | .daemon => .daemon
  | .frontend _ =>
    match newest (h.stacksOf source), h.newestUnowned with
    | none, some (_, from_) => from_
    | some own, some (seqno, from_) => if own < seqno then from_ else source
    | _, none => source

def closeOwnRun (h : History R) (source : UndoSource) : History R :=
  match source with
  | .daemon => h
  | .frontend _ => h.close source

/-- Drop the stacks of departed sources that hold no group. -/
def sweepDeparted (h : History R) : History R :=
  { h with arbiter := Assoc.retain (fun _ s => !(s.detached && s.groups.isEmpty)) h.arbiter }

/-- Undo by the arbiter: `spent` groups whose text is gone already are popped first. Returns the
    edits of the group that is undone, none where the stack has no more. -/
def undoArbiter (h : History R) (source : UndoSource) (spent : ℕ) : History R × List R :=
  let h := h.closeOwnRun source
  let from_ := h.undoPick source
  let ss := h.stacksOf from_
  let groups := ss.groups.rdrop spent
  match groups.getLast? with
  | none => ((h.setStacks from_ { ss with groups := [] }).sweepDeparted, [])
  | some group =>
    let h := h.setStacks from_ { ss with groups := groups.dropLast }
    let own := h.stacksOf source
    ((h.setStacks source { own with redo := pushCapped undoHistoryLimit own.redo ⟨group.edits, 0⟩ }).sweepDeparted,
      group.edits)

def undoV01 (h : History R) : History R × List R :=
  match h.undo.getLast? with
  | none => (h, [])
  | some entry =>
    ({ h with undo := h.undo.dropLast, redo := h.redo ++ [⟨entry.edits, false⟩] }, entry.edits)

def undoFor (h : History R) (source : UndoSource) (spent : ℕ) : History R × List R :=
  if h.crdt then h.undoArbiter source spent else h.undoV01

def redoArbiter (h : History R) (source : UndoSource) (spent : ℕ) : History R :=
  let ss := h.stacksOf source
  let groups := ss.redo.rdrop spent
  match groups.getLast? with
  | none => h.setStacks source { ss with redo := [] }
  | some group =>
    (h.setStacks source { ss with redo := groups.dropLast }).pushGroup source group.edits

def redoV01 (h : History R) : History R :=
  match h.redo.getLast? with
  | none => h
  | some entry => { h with redo := h.redo.dropLast, undo := h.undo ++ [⟨entry.edits, false⟩] }

def redoFor (h : History R) (source : UndoSource) (spent : ℕ) : History R :=
  if h.crdt then h.redoArbiter source spent else h.redoV01

/-- The buffer becomes CRDT-backed; its rope-only history is not kept. -/
def upgrade (h : History R) : History R :=
  if h.crdt then h else { h with crdt := true, undo := [], redo := [] }

end History

end Pmacs.Undo
