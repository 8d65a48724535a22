/-
  Positions in the two encodings a language server may count in (lsp.rs).

  Strings are lists of characters; `size` is a string's length in bytes, and a
  byte offset is `size` of what stands before it.

  * `charToByte` and `floorBoundary` convert a column to a byte offset of its
    line;
  * `textLines` are the newline-separated lines of a text, `lineStart` the byte
    offset at which one starts, `positionToByte` that of a position.
-/
import Pmacs.Lib.Utf8

namespace Pmacs

open Lib Utf8 List

/-- Negotiated position encoding: what the `character` of a position counts. -/
inductive PositionEncoding where
  | utf8
  | utf16
deriving DecidableEq, Repr

def size (s : List Char) : ℕ := (encode s).length

@[simp]
theorem size_nil : size [] = 0 := rfl

@[simp]
theorem size_cons (c : Char) {s : List Char} : size (c :: s) = c.utf8Size + size s := by
  simp [size]

def lenUtf16 (c : Char) : ℕ := if c.toNat ≤ 0xFFFF then 1 else 2

/-- Snap a byte offset down to the start of the character that holds it. -/
def floorBoundary : List Char → ℕ → ℕ
  | [], _ => 0
  | c :: line, byte =>
    if byte < c.utf8Size then 0 else c.utf8Size + floorBoundary line (byte - c.utf8Size)

/-- The byte offset of the UTF-16 column `character`; a column inside a surrogate
    pair is its character's start, one past the end is the end. -/
def charToByteUtf16 : List Char → ℕ → ℕ
  | [], _ => 0
  | c :: line, character =>
    if character < lenUtf16 c then 0
    else c.utf8Size + charToByteUtf16 line (character - lenUtf16 c)

variable (line : List Char)

/-- The byte offset within `line` of a server's column. -/
def charToByte (character : ℕ) : PositionEncoding → ℕ
  | .utf8 => floorBoundary line character
  | .utf16 => charToByteUtf16 line character

theorem floorBoundary_le : ∀ (line : List Char) (byte : ℕ), floorBoundary line byte ≤ size line
  | [], _ => Nat.le_refl _
  | c :: line, byte => by
    rw [floorBoundary, size_cons]
    split
    · exact Nat.zero_le _
    · exact Nat.add_le_add_left (floorBoundary_le line _) _

theorem charToByteUtf16_le :
    ∀ (line : List Char) (character : ℕ), charToByteUtf16 line character ≤ size line
  | [], _ => Nat.le_refl _
  | c :: line, character => by
    rw [charToByteUtf16, size_cons]
    split
    · exact Nat.zero_le _
    · exact Nat.add_le_add_left (charToByteUtf16_le line _) _

theorem charToByte_le (character : ℕ) (enc : PositionEncoding) :
    charToByte line character enc ≤ size line := by
  cases enc with
  | utf8 => exact floorBoundary_le line character
  | utf16 => exact charToByteUtf16_le line character

theorem floorBoundary_mono : ∀ (line : List Char) {a b : ℕ}, a ≤ b →
    floorBoundary line a ≤ floorBoundary line b
  | [], _, _, _ => Nat.le_refl _
  | c :: line, a, b, hab => by
    rw [floorBoundary, floorBoundary]
    split_ifs with ha hb
    · exact Nat.le_refl _
    · exact Nat.zero_le _
    · omega
    · exact Nat.add_le_add_left (floorBoundary_mono line (by omega)) _

theorem charToByteUtf16_mono : ∀ (line : List Char) {a b : ℕ}, a ≤ b →
    charToByteUtf16 line a ≤ charToByteUtf16 line b
  | [], _, _, _ => Nat.le_refl _
  | c :: line, a, b, hab => by
    rw [charToByteUtf16, charToByteUtf16]
    split_ifs with ha hb
    · exact Nat.le_refl _
    · exact Nat.zero_le _
    · omega
    · exact Nat.add_le_add_left (charToByteUtf16_mono line (by omega)) _

theorem charToByte_mono {a b : ℕ} (hab : a ≤ b) (enc : PositionEncoding) :
    charToByte line a enc ≤ charToByte line b enc := by
  cases enc with
  | utf8 => exact floorBoundary_mono line hab
  | utf16 => exact charToByteUtf16_mono line hab

/-! ## Lines -/

def textLines (text : List Char) : List (List Char) := text.splitOn '\n'

/-- The byte offset of the first byte of line `i`. -/
def lineStart (lines : List (List Char)) (i : ℕ) : ℕ :=
  ((lines.take i).map fun l => size l + 1).sum

theorem sum_textLines (text : List Char) :
    ((textLines text).map fun l => size l + 1).sum = size text + 1 := by
  induction text with
  | nil => simp [textLines, splitOn, splitOnP_nil]
  | cons c text ih =>
    simp only [textLines, splitOn, splitOnP_cons_eq_if_modifyHead] at ih ⊢
    split
    · rename_i hc; have hc : c = '\n' := by simpa using hc
      subst hc; rw [map_cons, sum_cons, ih, size_cons]; simp only [size_nil]
      have : '\n'.utf8Size = 1 := rfl; omega
    cases h : splitOnP (· == '\n') text with
    | nil => exact absurd h (splitOnP_ne_nil _ _)
    | cons l ls =>
      rw [h] at ih
      simp only [modifyHead_cons, map_cons, sum_cons, size_cons] at ih ⊢; omega

theorem lineStart_add_size_le {text l : List Char} {i : ℕ} (h : (textLines text)[i]? = some l) :
    lineStart (textLines text) i + size l ≤ size text := by
  have hsum := sum_textLines text
  obtain ⟨hi, rfl⟩ := List.getElem?_eq_some_iff.1 h
  have hsplit := take_append_drop i (textLines text)
  rw [← hsplit, drop_eq_getElem_cons hi, map_append, map_cons, sum_append,
    sum_cons] at hsum
  simp only [lineStart]
  omega

/-- The byte offset of a position: none past the last line, but for the position after a
    trailing newline. -/
def positionToByte (text : List Char) (line character : ℕ) (enc : PositionEncoding) : Option ℕ :=
  let lines := textLines text
  match lines[line]? with
  | some l => some (lineStart lines line + charToByte l character enc)
  | none =>
    if line = lines.length ∧ character = 0 ∧ text.getLast? = some '\n' then some (size text)
    else none

/-! ## Outbound -/

/-- The UTF-16 column of the byte offset `byteCol` of a line. -/
def unitsBefore : List Char → ℕ → ℕ
  | [], _ => 0
  | c :: line, byteCol =>
    if byteCol = 0 then 0 else lenUtf16 c + unitsBefore line (byteCol - c.utf8Size)

/-- A server's column of the byte offset `byteCol` of a line. -/
def byteToChar (byteCol : ℕ) (enc : PositionEncoding) : ℕ :=
  let byteCol := floorBoundary line byteCol
  match enc with
  | .utf8 => byteCol % 2 ^ 32
  | .utf16 => unitsBefore line byteCol % 2 ^ 32

/-- The position of the byte where `before` ends and `after` begins. -/
def positionBetween (before after : List Char) (enc : PositionEncoding) : ℕ × ℕ :=
  let column := (textLines before).getLastD []
  (min ((textLines before).length - 1) (2 ^ 32 - 1),
    byteToChar (column ++ after.takeWhile (· ≠ '\n')) (size column) enc)

end Pmacs
