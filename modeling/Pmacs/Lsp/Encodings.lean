/-
  What the two position encodings convert to and back (lsp.rs).

  * `textLineStarts` and `positionToByteWith`, `byteToPosition`: the source's conversions of
    positions, and `positionToByteWith_eq`: the two ways it finds a line agree;
  * `at?_rewrite`: what rewriting the positions of a JSON value does at each place of it.
-/
import Pmacs.Lib.BytePos
import Pmacs.Lsp.Value

namespace Pmacs

open Lib Utf8 List Option

/-! ## Columns -/

def unitLen : PositionEncoding → Char → ℕ
  | .utf8, c => c.utf8Size
  | .utf16, c => lenUtf16 c

def units (enc : PositionEncoding) (s : List Char) : ℕ := (s.map (unitLen enc)).sum

section
variable {enc : PositionEncoding} {c : Char} {s line : List Char} {n m k : ℕ}

@[simp]
theorem units_nil : units enc [] = 0 := rfl

@[simp]
theorem units_cons : units enc (c :: s) = unitLen enc c + units enc s := by
  simp [units]

@[simp]
theorem units_append {s' : List Char} : units enc (s ++ s') = units enc s + units enc s' := by
  simp [units]

theorem unitLen_pos : 0 < unitLen enc c := by
  cases enc with
  | utf8 => exact c.utf8Size_pos
  | utf16 =>
    show 0 < lenUtf16 c
    unfold lenUtf16
    split_ifs
    · exact Nat.one_pos
    · exact Nat.two_pos

theorem units_utf8 : units .utf8 s = size s := by
  induction s with
  | nil => rfl
  | cons c s ih => rw [units_cons, size_cons, ih]; rfl

theorem units_take_le (k : ℕ) : units enc (s.take k) ≤ units enc s := by
  conv_rhs => rw [← take_append_drop k s, units_append]
  exact Nat.le_add_right _ _

theorem charToByte_cons : charToByte (c :: line) n enc =
    if n < unitLen enc c then 0 else c.utf8Size + charToByte line (n - unitLen enc c) enc := by
  cases enc <;> rfl

theorem charToByte_nil : charToByte [] n enc = 0 := by
  cases enc <;> rfl

/-- **A column is the start of the character that holds it**, or the end of the line. -/
theorem charToByte_spec (line : List Char) (n : ℕ) (enc : PositionEncoding) :
    ∃ k ≤ line.length, charToByte line n enc = byteAt line k ∧ units enc (line.take k) ≤ n ∧
      (k < line.length → n < units enc (line.take (k + 1))) := by
  induction line generalizing n with
  | nil => exact ⟨0, le_rfl, charToByte_nil, Nat.zero_le _, fun h => absurd h (lt_irrefl 0)⟩
  | cons c line ih =>
    rw [charToByte_cons]
    by_cases hn : n < unitLen enc c
    · refine ⟨0, Nat.zero_le _, by rw [if_pos hn, byteAt_zero], Nat.zero_le _, fun _ => ?_⟩
      simpa using hn
    obtain ⟨k, hk, hbyte, hle, hlt⟩ := ih (n - unitLen enc c)
    refine ⟨k + 1, Nat.succ_le_succ hk, ?_, ?_, fun h => ?_⟩
    · rw [if_neg hn, hbyte, byteAt_cons_succ]
    · rw [take_succ_cons, units_cons]; omega
    · have := hlt (Nat.lt_of_succ_lt_succ h); rw [take_succ_cons, units_cons]; omega

theorem units_take_mono {line : List Char} {i j : ℕ} (h : i ≤ j) :
    units enc (line.take i) ≤ units enc (line.take j) := by
  rw [← min_eq_left h, ← take_take]
  exact units_take_le i

theorem units_take_lt {i j : ℕ} (hi : i < line.length) (h : i < j) :
    units enc (line.take i) < units enc (line.take j) := by
  refine lt_of_lt_of_le ?_ (units_take_mono h)
  rw [take_succ_eq_append_getElem hi, units_append, units_cons]
  have := @unitLen_pos enc (line)[i]
  omega

theorem charToByte_take (hk : k ≤ line.length) :
    charToByte line (units enc (line.take k)) enc = byteAt line k := by
  obtain ⟨j, hj, hbyte, hle, hlt⟩ := charToByte_spec line (units enc (line.take k)) enc
  rw [hbyte]
  rcases lt_trichotomy j k with h | rfl | h
  · exact absurd (hlt (lt_of_lt_of_le h hk)) (not_lt.2 (units_take_mono h))
  · rfl
  · exact absurd hle (not_le.2 (units_take_lt (lt_of_lt_of_le h hj) h))

theorem floorBoundary_byteAt (hk : k ≤ line.length) :
    floorBoundary line (byteAt line k) = byteAt line k := by
  have hsame := @charToByte_take .utf8 line k hk
  rwa [units_utf8] at hsame

theorem unitsBefore_byteAt : ∀ {line : List Char} {k : ℕ}, k ≤ line.length →
    unitsBefore line (byteAt line k) = units .utf16 (line.take k)
  | [], k, _ => by simp [unitsBefore]
  | c :: line, 0, _ => by simp [unitsBefore]
  | c :: line, k + 1, hk => by
    have hpos := c.utf8Size_pos
    rw [byteAt_cons_succ, unitsBefore, if_neg (by omega), Nat.add_sub_cancel_left,
      unitsBefore_byteAt (Nat.le_of_succ_le_succ hk), take_succ_cons, units_cons]
    rfl

/-- **The column of a boundary.** -/
theorem byteToChar_byteAt (hk : k ≤ line.length) :
    byteToChar line (byteAt line k) enc = units enc (line.take k) % 2 ^ 32 := by
  unfold byteToChar
  rw [floorBoundary_byteAt hk]
  cases enc with
  | utf8 => rw [units_utf8]; rfl
  | utf16 => dsimp only; rw [unitsBefore_byteAt hk]

/-- **A column there and back**: none is passed, and that of a boundary is met. -/
theorem byteToChar_charToByte (hline : units enc line < 2 ^ 32) (n : ℕ) :
    byteToChar line (charToByte line n enc) enc ≤ n ∧
      ∀ k ≤ line.length, n = units enc (line.take k) →
        byteToChar line (charToByte line n enc) enc = n := by
  have hsmall (k : ℕ) : units enc (line.take k) % 2 ^ 32 = units enc (line.take k) :=
    Nat.mod_eq_of_lt (lt_of_le_of_lt (units_take_le k) hline)
  constructor
  · obtain ⟨k, hk, hbyte, hle, -⟩ := charToByte_spec line n enc
    rw [hbyte, byteToChar_byteAt hk, hsmall]; exact hle
  · rintro k hk rfl; rw [charToByte_take hk, byteToChar_byteAt hk, hsmall]

end

/-! ## Lines -/

/-- The loop of `line_starts`: the bytes past the newlines, the first character being at
    byte `byte`. -/
def lineStartsFrom : (byte : ℕ) → List Char → List ℕ
  | _, [] => []
  | byte, c :: text =>
    if c = '\n' then (byte + 1) :: lineStartsFrom (byte + 1) text
    else lineStartsFrom (byte + c.utf8Size) text

/-- `line_starts`: where each line starts. -/
def textLineStarts (text : List Char) : List ℕ := 0 :: lineStartsFrom 0 text

/-- `position_to_byte`, with the starts of the lines. -/
def positionToByteWith (text : List Char) (starts : List ℕ) (line character : ℕ)
    (enc : PositionEncoding) : Option ℕ :=
  match starts[line]? with
  | some start =>
    match (textLines text)[line]? with
    | some l => some (start + charToByte l character enc)
    | none => none
  | none =>
    if line = starts.length ∧ character = 0 ∧ text.getLast? = some '\n' then some (size text)
    else none

/-- `byte_to_position`: none panics, on a byte inside a character. -/
def byteToPosition (text : List Char) (byte : ℕ) (enc : PositionEncoding) : Option (ℕ × ℕ) :=
  let byte := min byte (size text)
  match unicodeAtByte text byte with
  | some i =>
    if byteAt text i = byte then some (positionBetween (text.take i) (text.drop i) enc) else none
  | none => none

variable {n : ℕ}

section
variable {text before after : List Char} {enc : PositionEncoding} {c : Char} {i j : ℕ}

theorem textLines_ne_nil (text : List Char) : textLines text ≠ [] := splitOn_ne_nil _ _

theorem textLines_cons : textLines (c :: text) =
    if c = '\n' then [] :: textLines text else (textLines text).modifyHead (c :: ·) := by
  rw [textLines, splitOn_cons_eq_if_modifyHead]
  by_cases hc : c = '\n'
  · rw [if_pos hc, if_pos (by simpa using hc)]; rfl
  · rw [if_neg hc, if_neg (by simpa using hc)]; rfl

variable {lines : List (List Char)}

theorem lineStart_zero : lineStart lines 0 = 0 := by
  simp [lineStart]

theorem lineStart_cons (l : List Char) :
    lineStart (l :: lines) (n + 1) = size l + 1 + lineStart lines n := by
  simp [lineStart]

theorem lineStartsFrom_eq (byte : ℕ) :
    lineStartsFrom byte text = (List.range ((textLines text).length - 1)).map fun n =>
      byte + lineStart (textLines text) (n + 1) := by
  induction text generalizing byte with
  | nil => rfl
  | cons c text ih =>
    obtain ⟨l, lines, hlines⟩ := exists_cons_of_ne_nil (textLines_ne_nil text)
    rw [lineStartsFrom, textLines_cons]
    split_ifs with hc
    · have hrange : List.range (l :: lines).length = 0 :: (List.range lines.length).map Nat.succ :=
        range_succ_eq_map
      rw [ih, hlines, List.length_cons, List.length_cons, Nat.add_sub_cancel, Nat.add_sub_cancel,
        hrange, List.map_cons, List.map_map]
      simp [lineStart_cons, lineStart_zero, Function.comp_def, add_assoc]
    rw [ih, hlines, List.modifyHead_cons, List.length_cons, List.length_cons]
    refine List.map_congr_left fun n _ => ?_; rw [lineStart_cons, lineStart_cons, size_cons]
    omega

/-- **The two ways to find a line agree**: the starts and the lines split at newlines. -/
theorem positionToByteWith_eq (text : List Char) (line character : ℕ) (enc : PositionEncoding) :
    positionToByteWith text (textLineStarts text) line character enc =
      positionToByte text line character enc := by
  have hpos : 0 < (textLines text).length := length_pos_iff.2 (textLines_ne_nil text)
  have hlen : (textLineStarts text).length = (textLines text).length := by
    rw [textLineStarts, List.length_cons, lineStartsFrom_eq, length_map, length_range]; omega
  have hstart : ∀ n < (textLines text).length,
      (textLineStarts text)[n]? = some (lineStart (textLines text) n) := by
    intro n hn
    cases n with
    | zero => rfl
    | succ n =>
      rw [textLineStarts, getElem?_cons_succ, lineStartsFrom_eq, getElem?_map,
        getElem?_range (by omega), map_some, zero_add]
  unfold positionToByteWith positionToByte
  dsimp only
  rcases lt_or_ge line (textLines text).length with hline | hline
  · rw [hstart line hline, getElem?_eq_getElem hline]
  · rw [getElem?_eq_none_iff.2 (hlen ▸ hline), getElem?_eq_none_iff.2 hline, hlen]

/-! ### The line of a place -/

/-- The lines of a text cut in two: the last before the cut and the first after it are one. -/
theorem textLines_append {before after : List Char} : textLines (before ++ after) =
    (textLines before).dropLast ++
      ((textLines before).getLastD [] ++ (textLines after).headD []) :: (textLines after).tail := by
  induction before with
  | nil =>
    obtain ⟨l, lines, hlines⟩ := exists_cons_of_ne_nil (textLines_ne_nil after)
    rw [nil_append, hlines]; rfl
  | cons c before ih =>
    obtain ⟨l, lines, hlines⟩ := exists_cons_of_ne_nil (textLines_ne_nil before)
    rw [List.cons_append, textLines_cons, textLines_cons, ih, hlines]
    split_ifs
    · cases lines <;> rfl
    · cases lines <;> rfl

theorem headD_textLines : (textLines text).headD [] = text.takeWhile (· ≠ '\n') := by
  induction text with
  | nil => rfl
  | cons c text ih =>
    obtain ⟨l, lines, hlines⟩ := exists_cons_of_ne_nil (textLines_ne_nil text); rw [textLines_cons]
    split_ifs with hc
    · rw [takeWhile_cons_of_neg (by simpa using hc)]; rfl
    · rw [hlines] at ih ⊢; rw [takeWhile_cons_of_pos (by simpa using hc), ← ih]; rfl

theorem dropLast_textLines :
    textLines text = (textLines text).dropLast ++ [(textLines text).getLastD []] := by
  have hne := textLines_ne_nil text
  rw [getLastD_eq_getLast?, getLast?_eq_getLast_of_ne_nil hne, getD_some,
    dropLast_append_getLast hne]

theorem lineStart_last : ((textLines text).dropLast.map fun l => size l + 1).sum +
      size ((textLines text).getLastD []) = size text := by
  have hsum := sum_textLines text
  rw [dropLast_textLines, map_append, sum_append, map_singleton, sum_singleton] at hsum
  omega

theorem line_of_place (before after : List Char) :
    (textLines (before ++ after))[(textLines before).length - 1]? =
        some ((textLines before).getLastD [] ++ after.takeWhile (· ≠ '\n')) ∧
      lineStart (textLines (before ++ after)) ((textLines before).length - 1) +
        size ((textLines before).getLastD []) = size before := by
  have hlen : (textLines before).dropLast.length = (textLines before).length - 1 := length_dropLast
  rw [textLines_append, headD_textLines, lineStart, ← hlen, take_left, lineStart_last]
  refine ⟨?_, rfl⟩
  rw [getElem?_append_right le_rfl, Nat.sub_self]
  rfl

/-! ### Positions of boundaries -/

/-- A text that positions can tell: at most `2 ^ 32` lines, of fewer than `2 ^ 32` units each. -/
structure Addressable (enc : PositionEncoding) (text : List Char) : Prop where
  lines : (textLines text).length ≤ 2 ^ 32
  units : ∀ l ∈ textLines text, units enc l < 2 ^ 32

/-- The place of a boundary: the newlines before it, and the units of its line before it. -/
def placeOf (enc : PositionEncoding) (before : List Char) : ℕ × ℕ :=
  ((textLines before).length - 1, units enc ((textLines before).getLastD []))

theorem length_textLines_take_le (text : List Char) (i : ℕ) :
    (textLines (text.take i)).length ≤ (textLines text).length := by
  have hpos : 0 < (textLines (text.take i)).length := length_pos_iff.2 (textLines_ne_nil _)
  conv_rhs => rw [← take_append_drop i text, textLines_append]
  rw [length_append, List.length_cons, length_dropLast]
  omega

theorem getElem?_textLines_take (text : List Char) (i : ℕ) :
    (textLines text)[(placeOf enc (text.take i)).1]? =
      some ((textLines (text.take i)).getLastD [] ++ (text.drop i).takeWhile (· ≠ '\n')) := by
  have hline := (line_of_place (text.take i) (text.drop i)).1
  rwa [take_append_drop] at hline

/-- **The position of a boundary.** -/
theorem byteToPosition_byteAt (h : Addressable enc text) (hi : i ≤ text.length) :
    byteToPosition text (byteAt text i) enc = some (placeOf enc (text.take i)) := by
  have hcount := length_textLines_take_le text i
  have hlines := h.lines
  have hline := h.units _ (mem_of_getElem? (@getElem?_textLines_take enc text i))
  obtain ⟨column, hcolumn⟩ : ∃ column, column = (textLines (text.take i)).getLastD [] := ⟨_, rfl⟩
  rw [← hcolumn, units_append] at hline
  have hchar (rest : List Char) : byteToChar (column ++ rest) (size column) enc =
      units enc column % 2 ^ 32 := by
    have hplace := @byteToChar_byteAt enc (column ++ rest) column.length
      (by rw [length_append]; exact Nat.le_add_right _ _)
    rwa [byteAt, take_left] at hplace
  have hle : byteAt text i ≤ size text := byteAt_le text i
  unfold byteToPosition
  dsimp only
  rw [min_eq_left hle, unicodeAtByte_byteAt hi]
  dsimp only
  rw [if_pos rfl, positionBetween, placeOf, ← hcolumn, hchar, Nat.mod_eq_of_lt (by omega),
    min_eq_left (by omega)]

/-- **A boundary there and back.** -/
theorem positionToByte_placeOf (text : List Char) (enc : PositionEncoding) (i : ℕ) :
    positionToByte text (placeOf enc (text.take i)).1 (placeOf enc (text.take i)).2 enc =
      some (byteAt text i) := by
  have hplace := (line_of_place (text.take i) (text.drop i)).2
  rw [take_append_drop] at hplace
  unfold positionToByte
  dsimp only
  rw [getElem?_textLines_take]
  dsimp only
  obtain ⟨column, hcolumn⟩ : ∃ column, column = (textLines (text.take i)).getLastD [] := ⟨_, rfl⟩
  obtain ⟨rest, hrest⟩ : ∃ rest, rest = (text.drop i).takeWhile (· ≠ '\n') := ⟨_, rfl⟩
  have hbyte := @charToByte_take enc (column ++ rest) column.length
    (by rw [length_append]; exact Nat.le_add_right _ _)
  rw [byteAt, take_left] at hbyte
  rw [placeOf, ← hcolumn, ← hrest, hbyte]
  rw [← hcolumn] at hplace
  exact congrArg some hplace

theorem placeOf_lt_succ (hi : i < text.length) : Prod.Lex (· < ·) (· < ·)
    (placeOf enc (text.take i)) (placeOf enc (text.take (i + 1))) := by
  have hpos : 0 < (textLines (text.take i)).length := length_pos_iff.2 (textLines_ne_nil _)
  rw [take_succ_eq_append_getElem hi, Prod.lex_def, placeOf, placeOf, textLines_append,
    length_append, length_dropLast]
  by_cases hc : text[i] = '\n'
  · refine .inl ?_; rw [hc, show textLines ['\n'] = [[], []] from rfl]
    simp only [tail_cons, List.length_cons, length_nil]; omega
  have hline : textLines [text[i]] = [[text[i]]] := by rw [textLines_cons, if_neg hc]; rfl
  refine .inr ?_; rw [hline]
  simp only [headD_cons, tail_cons, length_singleton, getLastD_concat,
    units_append, units_cons, units_nil]
  have := @unitLen_pos enc text[i]; omega

/-- **Positions are in the order of their boundaries.** -/
theorem placeOf_lt (hij : i < j) (hj : j ≤ text.length) : Prod.Lex (· < ·) (· < ·)
    (placeOf enc (text.take i)) (placeOf enc (text.take j)) := by
  induction j, hij using Nat.le_induction with
  | base => exact placeOf_lt_succ hj
  | succ j _ ih =>
    have hstep := @placeOf_lt_succ text enc j hj; have hbefore := ih (Nat.le_of_succ_le hj)
    omega

end

/-! ## Rewriting -/

inductive JsonStep where
  | key (key : String)
  | index (i : ℕ)
deriving DecidableEq, Repr

namespace Value

def at? : List JsonStep → Value → Option Value
  | [], v => some v
  | .key key :: path, v => (v.get key).bind (at? path)
  | .index i :: path, v => (v.asArray.bind (·[i]?)).bind (at? path)

/-- The line and the column of a value that is a position, when the document has the line. -/
def positionOf (doc : List Char) (v : Value) : Option (List Char × ℕ) := do
  let line ← (v.get "line").bind asU64
  let character ← (v.get "character").bind asU64
  let l ← (textLines doc)[line]?
  return (l, character)

/-- The lines and columns of positions are `u32`s. -/
def SmallPositions (v : Value) : Prop :=
  ∀ path x, v.at? path = some x → ∀ line character, (x.get "line").bind asU64 = some line →
    (x.get "character").bind asU64 = some character → line < 2 ^ 32 ∧ character < 2 ^ 32

/-- The place of the column of a position. -/
def IsColumn (doc : List Char) (v : Value) (path : List JsonStep) : Prop :=
  ∃ parent x place, path = parent ++ [.key "character"] ∧ v.at? parent = some x ∧
    x.positionOf doc = some place

/-- The same but for what is in it: an array of the same length, an object with the same keys,
    or the same scalar. -/
def SameOutside : Value → Value → Prop
  | .array items, .array items' => items.length = items'.length
  | .object fields, .object fields' => fields.map Prod.fst = fields'.map Prod.fst
  | v, w => v = w

/-- `w` is `v` with the columns of its positions converted, and nothing else. -/
structure Converted (doc : List Char) (enc : PositionEncoding) (v w : Value) : Prop where
  column : ∀ path x l character, v.at? path = some x → x.positionOf doc = some (l, character) →
    w.at? (path ++ [.key "character"]) = some (nat (charToByte l character enc))
  rest : ∀ path, ¬IsColumn doc v path → Option.Rel SameOutside (v.at? path) (w.at? path)

section
variable {doc : List Char} {enc : PositionEncoding} {v x : Value} {path : List JsonStep}

theorem at?_append : ∀ {path : List JsonStep} {v : Value} (rest : List JsonStep),
    v.at? (path ++ rest) = (v.at? path).bind (at? rest)
  | [], _, _ => rfl
  | .key key :: path, v, rest => by
    rw [List.cons_append, at?, at?, Option.bind_assoc]
    exact Option.bind_congr fun w _ => at?_append rest
  | .index i :: path, v, rest => by
    rw [List.cons_append, at?, at?, Option.bind_assoc (v.asArray.bind _)]
    exact Option.bind_congr fun w _ => at?_append rest

variable {l : List Char} {character : ℕ}

theorem positionOf_eq_some :
    v.positionOf doc = some (l, character) ↔ ∃ line, (v.get "line").bind asU64 = some line ∧
      (v.get "character").bind asU64 = some character ∧ (textLines doc)[line]? = some l := by
  simp only [positionOf, Option.bind_eq_bind, Option.bind_eq_some_iff, Option.pure_def,
    Option.some.injEq, Prod.mk.injEq]
  constructor
  · rintro ⟨line, hline, character', hcharacter, l', hl, rfl, rfl⟩
    exact ⟨line, hline, hcharacter, hl⟩
  rintro ⟨line, hline, hcharacter, hl⟩
  exact ⟨line, hline, character, hcharacter, l, hl, rfl, rfl⟩

theorem lookup_setField_self {key : String} {w : Value} : ∀ {fields : List (String × Value)},
    (fields.lookup key).isSome → (setField fields key w).lookup key = some w
  | [], h => by cases h
  | (k, x) :: fields, h => by
    rw [setField, List.map_cons]
    by_cases hk : k = key
    · rw [if_pos hk, lookup_cons_self]
    have hne : (key == k) = false := by simpa using Ne.symm hk
    rw [lookup_cons, hne] at h; rw [if_neg hk, lookup_cons, hne]; exact lookup_setField_self h

theorem get_character_rewrite (hsmall : v.SmallPositions)
    (h : v.positionOf doc = some (l, character)) :
    (v.rewrite doc enc).get "character" = some (nat (charToByte l character enc)) := by
  obtain ⟨line, hline, hcharacter, hl⟩ := positionOf_eq_some.1 h
  obtain ⟨hline32, hcharacter32⟩ := hsmall [] v rfl line character hline hcharacter
  cases v with
  | object fields =>
    rw [get_object] at hline hcharacter; rw [rewrite, get_object, placeCharacter, hline, hcharacter]
    dsimp only; rw [Nat.mod_eq_of_lt hline32, hl, Nat.mod_eq_of_lt hcharacter32]
    refine lookup_setField_self ?_; rw [lookup_rewriteFields, isSome_map]
    obtain ⟨w, hw, -⟩ := Option.bind_eq_some_iff.1 hcharacter; rw [hw]; rfl
  | _ => cases hline

theorem get_rewrite_of_not (hsmall : v.SmallPositions) {key : String} (h : key = "character" →
    v.positionOf doc = none) : (v.rewrite doc enc).get key = (v.get key).map (rewrite doc enc) := by
  by_cases hkey : key = "character"
  · have hnone := h hkey
    cases v with
    | object fields =>
      rw [rewrite, get_object, get_object, ← lookup_rewriteFields, placeCharacter]
      cases hline : (fields.lookup "line").bind asU64 with
      | none => rfl
      | some line =>
        cases hcharacter : (fields.lookup "character").bind asU64 with
        | none => rfl
        | some character =>
          have hlt := (hsmall [] _ rfl line character hline hcharacter).1; dsimp only
          rw [Nat.mod_eq_of_lt hlt]
          cases hl : (textLines doc)[line]? with
          | none => rfl
          | some l =>
            have hsome := (positionOf_eq_some (v := object fields)).2 ⟨line, hline, hcharacter, hl⟩
            rw [hnone] at hsome; cases hsome
    | _ => rfl
  · exact get_rewrite hkey

theorem SmallPositions.at? (h : v.SmallPositions) (hx : v.at? path = some x) :
    x.SmallPositions := by
  intro path' y hy
  refine h (path ++ path') y ?_
  rw [at?_append, hx]
  exact hy

theorem at?_character
    (h : v.positionOf doc = some (l, character)) : ∃ n, v.get "character" = some (.int n) := by
  obtain ⟨-, -, hcharacter, -⟩ := positionOf_eq_some.1 h
  obtain ⟨w, hw, hu⟩ := Option.bind_eq_some_iff.1 hcharacter
  cases w with
  | int n => exact ⟨n, hw⟩
  | _ => cases hu

theorem at?_int {n : ℤ} {step : JsonStep} : (Value.int n).at? (step :: path) = none := by
  cases step <;> rfl

/-- **What is at a place that is no column** is rewritten on its own. -/
theorem at?_rewrite : ∀ {path : List JsonStep} {v : Value}, v.SmallPositions →
    ¬IsColumn doc v path → (v.rewrite doc enc).at? path = (v.at? path).map (rewrite doc enc)
  | [], _, _, _ => rfl
  | .key key :: path, v, hsmall, hcolumn => by
    rw [at?, at?]
    by_cases hposition : key = "character" ∧ ∃ place, v.positionOf doc = some place
    · obtain ⟨rfl, ⟨l, character⟩, hplace⟩ := hposition; obtain ⟨n, hn⟩ := at?_character hplace
      cases path with
      | nil => exact absurd ⟨[], v, _, rfl, rfl, hplace⟩ hcolumn
      | cons step path =>
        rw [get_character_rewrite hsmall hplace, hn, bind_some, bind_some, nat, at?_int, at?_int]
        rfl
    have hnone : key = "character" → v.positionOf doc = none := fun hkey => by
      rw [eq_none_iff_forall_not_mem]; exact fun place hplace => hposition ⟨hkey, place, hplace⟩
    rw [get_rewrite_of_not hsmall hnone]
    cases hget : v.get key with
    | none => rfl
    | some w =>
      have hw : v.at? [.key key] = some w := by simp [at?, hget]
      refine at?_rewrite (hsmall.at? hw) ?_; rintro ⟨parent, x, place, rfl, hx, hplace⟩
      refine hcolumn ⟨.key key :: parent, x, place, rfl, ?_, hplace⟩; rw [at?, hget]; exact hx
  | .index i :: path, v, hsmall, hcolumn => by
    rw [at?, at?, asArray_rewrite]
    cases hget : v.asArray.bind (·[i]?) with
    | none =>
      have hnone : (v.asArray.map (List.map (rewrite doc enc))).bind (·[i]?) = none := by
        cases harray : v.asArray with
        | none => rfl
        | some items => rw [harray] at hget; simpa using hget
      rw [hnone]; rfl
    | some w =>
      have hsome : (v.asArray.map (List.map (rewrite doc enc))).bind (·[i]?) =
          some (w.rewrite doc enc) := by
        cases harray : v.asArray with
        | none => rw [harray] at hget; cases hget
        | some items => rw [harray] at hget; have hitem : items[i]? = some w := hget; simp [hitem]
      have hw : v.at? [.index i] = some w := by simp [at?, hget]
      rw [hsome]
      refine at?_rewrite (hsmall.at? hw) ?_; rintro ⟨parent, x, place, rfl, hx, hplace⟩
      refine hcolumn ⟨.index i :: parent, x, place, rfl, ?_, hplace⟩; rw [at?, hget]; exact hx

theorem map_fst_rewrite (fields : List (String × Value)) :
    (placeCharacter doc enc fields (rewriteFields doc enc fields)).map Prod.fst =
      fields.map Prod.fst := by
  have hfields : ∀ fields : List (String × Value),
      (rewriteFields doc enc fields).map Prod.fst = fields.map Prod.fst := by
    intro fields
    induction fields with
    | nil => rfl
    | cons f fields ih => rw [rewriteFields, List.map_cons, List.map_cons, ih, rewriteField]
  have hset : ∀ (fields : List (String × Value)) (key : String) (w : Value),
      (setField fields key w).map Prod.fst = fields.map Prod.fst := by
    intro fields key w; rw [setField, List.map_map]
    refine List.map_congr_left fun f _ => ?_
    by_cases hf : f.1 = key
    · simp [hf]
    · simp [hf]
  unfold placeCharacter
  split
  · split
    · rw [hset, hfields]
    · exact hfields fields
  · exact hfields fields

theorem sameOutside_rewrite (v : Value) : SameOutside v (v.rewrite doc enc) := by
  cases v with
  | array items => rw [rewrite, SameOutside, rewriteItems_eq, length_map]
  | object fields => exact (map_fst_rewrite fields).symm
  | _ => rfl

/-- **Rewriting converts the columns of positions**, and nothing else. -/
theorem converted_rewrite (h : v.SmallPositions) : Converted doc enc v (v.rewrite doc enc) where
  column path x l character hx hplace := by
    have hcolumn : ¬IsColumn doc v path := by
      rintro ⟨parent, y, ⟨l', character'⟩, rfl, hy, hplace'⟩
      obtain ⟨n, hn⟩ := at?_character hplace'; rw [at?_append, hy] at hx
      simp only [bind_some, at?, hn] at hx; obtain rfl := some.inj hx; cases hplace
    rw [at?_append, at?_rewrite h hcolumn, hx]; simp [at?, get_character_rewrite (h.at? hx) hplace]
  rest path hcolumn := by
    rw [at?_rewrite h hcolumn]
    cases v.at? path with
    | none => exact .none
    | some x => exact .some (sameOutside_rewrite x)

end

end Value

/-! ## Positions and bytes -/

/-- **The conversions of positions.**  In a text that positions can tell, boundaries there and
    back are the same, and their positions are in their order.  In a line that columns can tell,
    each column is the start of the character that holds it, later columns are no earlier
    bytes, and columns there and back pass none and meet the boundaries.  Rewriting converts the
    columns of the positions of a JSON value and nothing else; a server that counts in bytes is
    taken at its word. -/
theorem positions_sound {text : List Char} {enc : PositionEncoding} (h : Addressable enc text) :
    (∀ i ≤ text.length, ∃ p, byteToPosition text (byteAt text i) enc = some p ∧
      positionToByteWith text (textLineStarts text) p.1 p.2 enc = some (byteAt text i)) ∧
    (∀ i j p q, i < j → j ≤ text.length → byteToPosition text (byteAt text i) enc = some p →
      byteToPosition text (byteAt text j) enc = some q → Prod.Lex (· < ·) (· < ·) p q) ∧
    (∀ line, units enc line < 2 ^ 32 →
      (∀ n, ∃ k ≤ line.length, charToByte line n enc = byteAt line k ∧
        units enc (line.take k) ≤ n ∧ (k < line.length → n < units enc (line.take (k + 1)))) ∧
      (∀ n m, n ≤ m → charToByte line n enc ≤ charToByte line m enc) ∧
      ∀ n, byteToChar line (charToByte line n enc) enc ≤ n ∧
        ∀ k ≤ line.length, n = units enc (line.take k) →
          byteToChar line (charToByte line n enc) enc = n) ∧
    ∀ v : Value, v.SmallPositions → match enc with
      | .utf16 => Value.Converted text enc v (v.rewritePositionsToBytes text enc)
      | .utf8 => v.rewritePositionsToBytes text enc = v := by
  refine ⟨fun i hi => ⟨_, byteToPosition_byteAt h hi, ?_⟩, fun i j p q hij hj hp hq => ?_,
    fun line hline => ⟨fun n => charToByte_spec line n enc, fun n m hnm => charToByte_mono line hnm enc,
      byteToChar_charToByte hline⟩, fun v hv => ?_⟩
  · rw [positionToByteWith_eq, positionToByte_placeOf]
  · rw [byteToPosition_byteAt h (hij.le.trans hj)] at hp; rw [byteToPosition_byteAt h hj] at hq
    obtain rfl := some.inj hp; obtain rfl := some.inj hq; exact placeOf_lt hij hj
  cases enc with
  | utf8 => rfl
  | utf16 => exact Value.converted_rewrite hv

theorem positions_sound_two : ∃ p, byteToPosition ['𝄞', '\n', 'a']
    (byteAt ['𝄞', '\n', 'a'] 1) .utf16 =
      some p ∧ positionToByteWith ['𝄞', '\n', 'a'] (textLineStarts ['𝄞', '\n', 'a']) p.1 p.2 .utf16 =
      some (byteAt ['𝄞', '\n', 'a'] 1) :=
  (positions_sound ⟨by decide +kernel, by decide +kernel⟩).1 1 (by decide)

/-! ### What positions cannot tell -/

/-- A line of more bytes than a column counts. -/
def longLine (n : ℕ) : List Char := List.replicate n 'a'

theorem textLines_longLine : textLines (longLine n) = [longLine n] := by
  rw [textLines, splitOn_eq_singleton]
  intro hmem
  exact absurd (eq_of_mem_replicate hmem) (by decide)

theorem size_longLine : size (longLine n) = n := by
  induction n with
  | zero => rfl
  | succ n ih => rw [longLine, replicate_succ, size_cons, ← longLine, ih, add_comm]; rfl

/-- The end of a line whose length is no `u32` is told to be elsewhere. -/
theorem byteToPosition_longLine :
    byteToPosition (longLine n) (byteAt (longLine n) n) .utf8 = some (0, n % 2 ^ 32) := by
  have hlen : (longLine n).length = n := length_replicate
  have hbyte : byteAt (longLine n) n = n := by
    have htake : (longLine n).take n = longLine n := take_of_length_le hlen.le; rw [byteAt, htake]
    exact size_longLine
  have hhere : unicodeAtByte (longLine n) n = some n := by
    have := @unicodeAtByte_byteAt (longLine n) n hlen.ge
    rwa [hbyte] at this
  have hchar : byteToChar (longLine n) n .utf8 = n % 2 ^ 32 := by
    have := @byteToChar_byteAt .utf8 (longLine n) n hlen.ge
    rwa [hbyte, units_utf8, take_of_length_le hlen.le, size_longLine] at this
  unfold byteToPosition
  dsimp only
  rw [hbyte, size_longLine, min_self, hhere]
  dsimp only
  rw [hbyte, if_pos rfl, take_of_length_le hlen.le, drop_of_length_le hlen.le,
    positionBetween, textLines_longLine]
  simp [size_longLine, hchar]

/-- The end of a line of `2 ^ 32` bytes is told to be its start; a column past the end of its
    line is left as it is for a server that counts in bytes; and a line past the last `u32` is
    taken for the first. -/
theorem positions_not_sound :
    (∃ text p, byteToPosition text (byteAt text (2 ^ 32)) .utf8 = some p ∧
      positionToByteWith text (textLineStarts text) p.1 p.2 .utf8 ≠ some (byteAt text (2 ^ 32))) ∧
    (∃ v : Value, ¬Value.Converted ['a', 'b'] .utf8 v
      (v.rewritePositionsToBytes ['a', 'b'] .utf8)) ∧
    ∃ v : Value, ¬Value.Converted ['a', 'b'] .utf16 v
      (v.rewritePositionsToBytes ['a', 'b'] .utf16) := by
  refine ⟨?_, ?_, ?_⟩
  · obtain ⟨n, hn⟩ : ∃ n : ℕ, n = 2 ^ 32 := ⟨_, rfl⟩; rw [← hn]
    refine ⟨longLine n, (0, n % 2 ^ 32), byteToPosition_longLine, ?_⟩
    have hlen : (longLine n).length = n := length_replicate
    have hbyte : byteAt (longLine n) n = n := by
      rw [byteAt, take_of_length_le hlen.le]; exact size_longLine
    have hzero : charToByte (longLine n) 0 .utf8 = 0 :=
      @charToByte_take .utf8 (longLine n) 0 (Nat.zero_le _)
    have hmod : n % 2 ^ 32 = 0 := by omega
    rw [positionToByteWith_eq, positionToByte, textLines_longLine, hbyte, hmod]
    simp only [getElem?_cons_zero, hzero, lineStart_zero, add_zero]; intro heq
    have := some.inj heq; omega
  · refine ⟨.object [("line", .int 0), ("character", .int 100)], fun h => ?_⟩
    have hcolumn : some (Value.int 100) = some (Value.nat (charToByte ['a', 'b'] 100 .utf8)) :=
      h.column [] _ ['a', 'b'] 100 rfl rfl
    cases hcolumn
  refine ⟨.object [("line", .int (2 ^ 32)), ("character", .int 100)], fun h => ?_⟩
  have hnone : (Value.object [("line", .int (2 ^ 32)), ("character", .int 100)]).positionOf
      ['a', 'b'] = none := by decide +kernel
  have hrest : Option.Rel Value.SameOutside (some (.int 100)) (some (Value.nat 2)) := by
    refine h.rest [.key "character"] ?_; rintro ⟨parent, x, place, hpath, hx, hplace⟩
    obtain rfl : parent = [] := by
      cases parent with
      | nil => rfl
      | cons step parent => simp at hpath
    obtain rfl := some.inj hx; cases hplace
  cases hrest with
  | some hsame => cases hsame

end Pmacs
