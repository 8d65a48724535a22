/-
  Chords (key.rs): a key with its modifiers, and how sequences of them are shown.
-/
import Mathlib

namespace Pmacs

/-- A key code. The ones that key.rs does not name keep the name that `Debug` shows. -/
inductive KeyCode where
  | char (c : Char)
  | enter
  | tab
  | esc
  | backspace
  | delete
  | up
  | down
  | left
  | right
  | home
  | pageEnd
  | pageUp
  | pageDown
  | insert
  | f (n : ℕ)
  | other (name : String)
deriving DecidableEq, Repr

structure KeyModifiers where
  control : Bool
  alt : Bool
  shift : Bool
  super : Bool
  hyper : Bool
  metaKey : Bool
deriving DecidableEq, Repr

def KeyModifiers.none : KeyModifiers := ⟨false, false, false, false, false, false⟩

structure Chord where
  code : KeyCode
  modifiers : KeyModifiers
deriving DecidableEq, Repr

abbrev Sequence := List Chord

namespace Chord

/-- Build a chord: a shifted letter is the upper-case letter without the shift. -/
def new (code : KeyCode) (modifiers : KeyModifiers) : Chord :=
  match code with
  | .char ch =>
    if 'A' ≤ ch ∧ ch ≤ 'Z' then ⟨code, { modifiers with shift := false }⟩
    else if ('a' ≤ ch ∧ ch ≤ 'z') ∧ modifiers.shift then
      ⟨.char ch.toUpper, { modifiers with shift := false }⟩
    else ⟨code, modifiers⟩
  | _ => ⟨code, modifiers⟩

def plain (code : KeyCode) : Chord := new code .none

/-- `Display`. -/
def display (c : Chord) : String :=
  (if c.modifiers.control then "C-" else "") ++ (if c.modifiers.alt then "M-" else "") ++
    (if c.modifiers.shift then "S-" else "") ++ (if c.modifiers.super then "s-" else "") ++
    match c.code with
    | .char ' ' => "SPC"
    | .char ch => String.singleton ch
    | .enter => "RET"
    | .tab => "TAB"
    | .esc => "ESC"
    | .backspace => "BS"
    | .delete => "DEL"
    | .up => "<up>"
    | .down => "<down>"
    | .left => "<left>"
    | .right => "<right>"
    | .home => "<home>"
    | .pageEnd => "<end>"
    | .pageUp => "<pageup>"
    | .pageDown => "<pagedown>"
    | .insert => "<insert>"
    | .f n => "<f" ++ toString n ++ ">"
    | .other name => name

end Chord

def displaySequence (seq : Sequence) : String := " ".intercalate (seq.map Chord.display)

end Pmacs
