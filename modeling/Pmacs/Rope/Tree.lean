/-
  The rope: a persistent byte sequence as a B-tree of byte chunks (rope.rs).

  * `Node` is the tree, `Node.bytes` what it holds, `Node.len` the length it
    reports (cached in an internal node);
  * `insertSmall`, `spliceInternal`, `deleteIn`, `collapseRoot` and
    `buildBalancedFromNodes` are the source's internals. They are `none` where
    the source panics (a slice out of range, `unreachable!`).
-/
import Pmacs.Lib.Splice

namespace Pmacs

open Lib

abbrev Bytes := List UInt8

/-- Soft cap on the bytes of a leaf. -/
def maxLeafBytes : ℕ := 1024

/-- Soft cap on the children of an internal node. -/
def maxChildren : ℕ := 8

/-! ## Ranges, edits and errors -/

structure Range where
  start : ℕ
  stop : ℕ
deriving DecidableEq, Repr

/-- The length of a range, `0` when it ends before it starts. -/
def Range.len (r : Range) : ℕ := r.stop - r.start

def Range.isEmpty (r : Range) : Bool := r.start == r.stop

structure CrdtOp where
  peerId : UInt64
  bytes : Bytes
deriving DecidableEq, Repr

/-- The result of a successful edit of a rope of type `R`: the new rope, the
    range of the old rope that was affected, and how many bytes of the new rope
    stand there instead. -/
structure Edit (R : Type) where
  newRope : R
  range : Range
  insertedLen : ℕ
  crdtOp : Option CrdtOp
deriving DecidableEq, Repr

/-- The error of an edit: the offending position and the rope's length. -/
inductive RopeError where
  | outOfBounds (pos len : ℕ)
deriving DecidableEq, Repr

/-! ## The tree -/

/-- A node: a leaf, or an internal node with its children and their cached
    cumulative length. -/
inductive Node where
  | leaf (bytes : Bytes)
  | internal (children : List Node) (len : ℕ)
deriving Repr

namespace Node

def len : Node → ℕ
  | leaf b => b.length
  | internal _ len => len

mutual
def bytes : Node → Bytes
  | leaf b => b
  | internal children _ => bytesOf children

def bytesOf : List Node → Bytes
  | [] => []
  | c :: cs => c.bytes ++ bytesOf cs
end

def makeInternal (children : List Node) : Node :=
  internal children (children.map len).sum

def emptyLeaf : Node := leaf []

end Node

/-! ## Insertion -/

/-- The result of an insertion at one level: one or two nodes of the same depth. -/
inductive NodeOut where
  | one (n : Node)
  | two (a b : Node)

def NodeOut.nodes : NodeOut → List Node
  | one n => [n]
  | two a b => [a, b]

/-- Replace `children[idx]` by the nodes of `result`, and split the node when it
    has too many children. -/
def spliceInternal (children : List Node) (idx : ℕ) (result : NodeOut) : NodeOut :=
  let newChildren := splice children idx (idx + 1) result.nodes
  if newChildren.length ≤ maxChildren then
    .one (.makeInternal newChildren)
  else
    let mid := newChildren.length / 2
    .two (.makeInternal (newChildren.take mid)) (.makeInternal (newChildren.drop mid))

mutual
/-- Insert at most `maxLeafBytes` bytes at `pos`. -/
def insertSmall : Node → ℕ → Bytes → Option NodeOut
  | .leaf chunk, pos, bytes =>
    if pos ≤ chunk.length then
      let total := chunk.length + bytes.length
      let buf := splice chunk pos pos bytes
      if total ≤ maxLeafBytes then
        some (.one (.leaf buf))
      else some (.two (.leaf (buf.take (total / 2))) (.leaf (buf.drop (total / 2))))
    else none
  | .internal children _, pos, bytes =>
    (insertChild children 0 0 pos bytes).map fun r => spliceInternal children r.1 r.2

/-- The loop over the children from index `i` on, the first of which starts at
    `offset`: the child that takes the insertion and the result there. -/
def insertChild : List Node → ℕ → ℕ → ℕ → Bytes → Option (ℕ × NodeOut)
  | [], _, _, _, _ => none
  | child :: rest, i, offset, pos, bytes =>
    if pos ≤ offset + child.len then
      (insertSmall child (pos - offset) bytes).map fun out => (i, out)
    else insertChild rest (i + 1) (offset + child.len) pos bytes
end

/-- Insert the chunks one after the other, growing a new root when the old one
    splits. -/
def insertChunks : Node → ℕ → List Bytes → Option Node
  | root, _, [] => some root
  | root, at_, chunk :: rest =>
    match insertSmall root at_ chunk with
    | none => none
    | some (.one n) => insertChunks n (at_ + chunk.length) rest
    | some (.two a b) => insertChunks (.makeInternal [a, b]) (at_ + chunk.length) rest

/-! ## Deletion -/

mutual
/-- Delete `[start, stop)`, less than the whole node. -/
def deleteIn : Node → ℕ → ℕ → Option Node
  | .leaf chunk, start, stop =>
    if start ≤ stop ∧ stop ≤ chunk.length then some (.leaf (splice chunk start stop []))
    else none
  | .internal children _, start, stop => (deleteChildren children 0 start stop).map .makeInternal

/-- The loop over the children, the first of which starts at `offset`: keep,
    drop or recurse into each. -/
def deleteChildren : List Node → ℕ → ℕ → ℕ → Option (List Node)
  | [], _, _, _ => some []
  | child :: rest, offset, start, stop =>
    let childEnd := offset + child.len
    if stop ≤ offset ∨ start ≥ childEnd then
      (deleteChildren rest childEnd start stop).map (child :: ·)
    else if start ≤ offset ∧ stop ≥ childEnd then deleteChildren rest childEnd start stop
    else
      match deleteIn child (start - offset) (min (stop - offset) child.len) with
      | none => none
      | some new => (deleteChildren rest childEnd start stop).map (new :: ·)
end

/-- Replace a root that has a single child by that child. -/
def collapseRoot : Node → Node
  | .internal [only] _ => collapseRoot only
  | n => n

/-! ## Bulk load -/

/-- How many of the `remaining` nodes the next group takes: no straggler is left
    alone at the end. -/
def groupSize (remaining : ℕ) : ℕ :=
  if remaining > maxChildren ∧ remaining - maxChildren = 1 then maxChildren - 1
  else min remaining maxChildren

/-- One level of the bulk load: pack at most `fuel` nodes into groups. -/
def packLevel : ℕ → List Node → List Node
  | 0, _ => []
  | fuel + 1, current =>
    if current.isEmpty then []
    else
      let take := groupSize current.length
      .makeInternal (current.take take) :: packLevel fuel (current.drop take)

/-- Pack levels until one node is left; every level has fewer nodes than the one
    below. -/
def packLevels : ℕ → List Node → List Node
  | 0, current => current
  | fuel + 1, current =>
    if current.length > 1 then packLevels fuel (packLevel current.length current) else current

def buildBalancedFromNodes (nodes : List Node) : Option Node :=
  if nodes.isEmpty then some .emptyLeaf
  else (packLevels nodes.length nodes).head?

/-! ## The rope -/

/-- A handle on a tree. -/
structure Rope where
  root : Node
deriving Repr

namespace Rope

def new : Rope := ⟨.emptyLeaf⟩

def fromBytes (bytes : Bytes) : Option Rope :=
  if bytes.isEmpty then some new
  else (buildBalancedFromNodes ((chunks maxLeafBytes bytes).map .leaf)).map Rope.mk

def len (r : Rope) : ℕ := r.root.len

def bytes (r : Rope) : Bytes := r.root.bytes

def insert (r : Rope) (pos : ℕ) (bytes : Bytes) : Option (Except RopeError (Edit Rope)) :=
  if pos > r.len then some (.error (.outOfBounds pos r.len))
  else if bytes.isEmpty then some (.ok ⟨r, ⟨pos, pos⟩, 0, none⟩)
  else
    (insertChunks r.root pos (chunks maxLeafBytes bytes)).map fun root =>
      .ok ⟨⟨root⟩, ⟨pos, pos⟩, bytes.length, none⟩

def delete (r : Rope) (start stop : ℕ) : Option (Except RopeError (Edit Rope)) :=
  if start > stop then some (.error (.outOfBounds start r.len))
  else if stop > r.len then some (.error (.outOfBounds stop r.len))
  else if start = stop then some (.ok ⟨r, ⟨start, stop⟩, 0, none⟩)
  else if start = 0 ∧ stop = r.len then some (.ok ⟨⟨.emptyLeaf⟩, ⟨start, stop⟩, 0, none⟩)
  else
    (deleteIn r.root start stop).map fun root =>
      .ok ⟨⟨collapseRoot root⟩, ⟨start, stop⟩, 0, none⟩

/-- Replace `[start, stop)` by `bytes`: a deletion, then an insertion, described
    as one edit. -/
def replace (r : Rope) (start stop : ℕ) (bytes : Bytes) :
    Option (Except RopeError (Edit Rope)) :=
  match r.delete start stop with
  | none => none
  | some (.error e) => some (.error e)
  | some (.ok afterDelete) =>
    match afterDelete.newRope.insert start bytes with
    | none => none
    | some (.error e) => some (.error e)
    | some (.ok afterInsert) => some (.ok ⟨afterInsert.newRope, ⟨start, stop⟩, bytes.length, none⟩)

end Rope

end Pmacs
