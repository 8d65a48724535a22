/-
  Keymaps (keymap_tree.rs): a trie of chords.

  * `Branch` is a binding or a submap; a hash map is a list of entries;
  * `checkBindPath` refuses a sequence that meets a binding on its way, is bound, or is
    a prefix of a bound one; `bindRecursive` adds it;
  * `unbindRecursive` removes a sequence, and on the way back each submap it emptied.
-/
import Pmacs.Key.Chord
import Pmacs.Lib.PrefixFree

namespace Pmacs

open Lib

structure SourceLocation where
  file : String
  line : ℤ
deriving DecidableEq, Repr

structure Binding where
  command : String
  source : SourceLocation
deriving DecidableEq, Repr

/-- A node of the trie: a complete binding, or a submap. -/
inductive Branch where
  | leaf (binding : Binding)
  | submap (branches : List (Chord × Branch))

structure Keymap where
  branches : List (Chord × Branch)

inductive KeymapError where
  | duplicateBinding (sequence existing : String)
  | wouldExtendLeaf (sequence command existingSequence existing : String)
  | wouldShadowSubmap (sequence command : String)
  | notBound (sequence : String)
  | emptySequence
deriving DecidableEq, Repr

inductive Resolution where
  | bound (binding : Binding)
  | pending
  | unbound
deriving DecidableEq, Repr

namespace Branch

def lookup : Sequence → List (Chord × Branch) → Resolution
  | [], _ => .unbound
  | head :: tail, branches =>
    match get? head branches with
    | none => .unbound
    | some (leaf b) => if tail.isEmpty then .bound b else .unbound
    | some (submap sub) => if tail.isEmpty then .pending else lookup tail sub

def checkBindPath (command : String) : Sequence → List (Chord × Branch) → Except KeymapError Unit
  | [], _ => .ok ()
  | head :: tail, branches =>
    match get? head branches with
    | none => .ok ()
    | some (leaf existing) =>
      if tail.isEmpty then
        .error (.duplicateBinding (displaySequence (head :: tail)) existing.command)
      else
        .error (.wouldExtendLeaf (displaySequence (head :: tail)) command (displaySequence [head])
          existing.command)
    | some (submap sub) =>
      if tail.isEmpty then .error (.wouldShadowSubmap (displaySequence (head :: tail)) command)
      else checkBindPath command tail sub

/-- Bind a sequence that was checked; none where the code takes it to be unreachable. -/
def bindRecursive (binding : Binding) :
    Sequence → List (Chord × Branch) → Option (List (Chord × Branch))
  | [], _ => none
  | head :: tail, branches =>
    if tail.isEmpty then some (put head (leaf binding) branches)
    else
      match get? head branches with
      | some (submap sub) =>
        (bindRecursive binding tail sub).map fun sub => put head (submap sub) branches
      | none => (bindRecursive binding tail []).map fun sub => put head (submap sub) branches
      | some (leaf _) => none

/-- Remove the binding of a sequence. The entries are returned as they are left. -/
def unbindRecursive : Sequence → List (Chord × Branch) → Option Binding × List (Chord × Branch)
  | [], branches => (none, branches)
  | head :: tail, branches =>
    if tail.isEmpty then
      match get? head branches with
      | some (leaf b) => (some b, remove head branches)
      | _ => (none, branches)
    else
      match get? head branches with
      | some (submap sub) =>
        match unbindRecursive tail sub with
        | (none, sub) => (none, put head (submap sub) branches)
        | (some removed, sub) =>
          (some removed,
            if sub.isEmpty then remove head branches else put head (submap sub) branches)
      | _ => (none, branches)

mutual

/-- The bindings below an entry, `path` being the chords on the way to it. -/
def collectBranch (path : Sequence) : Branch → List (Sequence × Binding)
  | leaf b => [(path, b)]
  | submap branches => collectPairs path branches

def collectPairs (path : Sequence) : List (Chord × Branch) → List (Sequence × Binding)
  | [] => []
  | (chord, branch) :: branches =>
    collectBranch (path ++ [chord]) branch ++ collectPairs path branches

end

end Branch

namespace Keymap

def new : Keymap := ⟨[]⟩

/-- Bind a sequence. The keymap is returned as it is left; none where the code takes it
    to be unreachable. -/
def bind (m : Keymap) (sequence : Sequence) (command : String) (source : SourceLocation) :
    Option (Except KeymapError Unit × Keymap) :=
  if sequence.isEmpty then some (.error .emptySequence, m)
  else
    match Branch.checkBindPath command sequence m.branches with
    | .error e => some (.error e, m)
    | .ok () =>
      (Branch.bindRecursive ⟨command, source⟩ sequence m.branches).map fun branches =>
        (.ok (), ⟨branches⟩)

def unbind (m : Keymap) (sequence : Sequence) : Except KeymapError Binding × Keymap :=
  if sequence.isEmpty then (.error .emptySequence, m)
  else
    match Branch.unbindRecursive sequence m.branches with
    | (some b, branches) => (.ok b, ⟨branches⟩)
    | (none, branches) => (.error (.notBound (displaySequence sequence)), ⟨branches⟩)

def lookup (m : Keymap) (sequence : Sequence) : Resolution := Branch.lookup sequence m.branches

def iter (m : Keymap) : List (Sequence × Binding) := Branch.collectPairs [] m.branches

end Keymap

end Pmacs
