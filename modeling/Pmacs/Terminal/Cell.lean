/-
  Cells and their styles (pmacs-protocol's cell.rs).
-/
import Mathlib

namespace Pmacs

/-- Rust's `char::is_control`. -/
def isControl (c : Char) : Bool := c.toNat < 32 || (127 ≤ c.toNat && c.toNat < 160)

inductive Color where
  | default
  | rgb (r g b : ℕ)
  | indexed (n : ℕ)
deriving DecidableEq, Repr

inductive UnderlineStyle where
  | none
  | single
  | double
  | curly
  | dotted
  | dashed
deriving DecidableEq, Repr

/-- How a cell is drawn. -/
structure Style where
  fg : Color
  bg : Color
  bold : Bool
  italic : Bool
  underline : UnderlineStyle
  reverse : Bool
  underlineColor : Color
deriving DecidableEq, Repr

/-- `Style::default`. -/
def Style.default : Style := ⟨.default, .default, false, false, .none, false, .default⟩

/-- What is drawn in a cell: one code point, a grapheme cluster, or the trailing
    column of the wide character before it. -/
inductive Glyph where
  | char (c : Char)
  | cluster (cs : List Char)
  | continuation
deriving DecidableEq, Repr

structure Cell where
  glyph : Glyph
  style : Style
deriving DecidableEq, Repr

/-- `Cell::default`: a blank in the default style. -/
def Cell.default : Cell := ⟨.char ' ', .default⟩

structure CellSize where
  rows : ℕ
  cols : ℕ
deriving DecidableEq, Repr

structure CellCoord where
  row : ℕ
  col : ℕ
deriving DecidableEq, Repr

end Pmacs
