/-
  The escapes a frame is sent as (frontend.rs) and the terminal that applies them.

  * `emitCellDelta`: the escapes of a frame's spans.
  * `Screen.step`: a terminal, with cursor-addressed writes, glyphs two columns wide, and
    the other half of a wide glyph going blank when one half is written over.
-/
import Pmacs.Terminal.Grid

namespace Pmacs

/-! ## Emission -/

/-- An escape sequence, or the bytes of one glyph. -/
inductive Escape where
  | moveTo (col row : ℕ)
  | resetColor
  | reset
  | foreground (c : Color)
  | background (c : Color)
  | bold
  | italic
  | underline (u : UnderlineStyle)
  | underlineColor (c : Color)
  | reverse
  | clearAll
  | print (g : Glyph)
deriving DecidableEq, Repr

def applyStyle (s : Style) : List Escape :=
  [Escape.reset, .foreground s.fg, .background s.bg]
    ++ (if s.bold then [Escape.bold] else [])
    ++ (if s.italic then [Escape.italic] else [])
    ++ (if s.underline = .none then [] else [Escape.underline s.underline])
    ++ (if s.underline = .none ∨ s.underlineColor = .default then []
        else [Escape.underlineColor s.underlineColor])
    ++ (if s.reverse then [Escape.reverse] else [])

/-- The glyph written for a cell's: a control character is written as a blank. -/
def Glyph.printable : Glyph → Glyph
  | .char c => .char (if isControl c then ' ' else c)
  | g => g

def emitGlyph (g : Glyph) : List Escape :=
  match g with
  | .continuation => []
  | g => [.print g.printable]

/-- One turn of `emit_span`'s loop, with the escapes so far and `last_style`. -/
def emitCell (acc : List Escape × Option Style) (x : FrameCell) : List Escape × Option Style :=
  (acc.1 ++ (if acc.2 = some x.style then [] else applyStyle x.style) ++ emitGlyph x.glyph,
    some x.style)

/-- `emit_span`. The position is cast to `u16`. -/
def emitSpan (span : DiffSpan) : List Escape :=
  if span.cells = [] then []
  else Escape.moveTo (span.start.col % 2 ^ 16) (span.start.row % 2 ^ 16)
    :: (span.cells.foldl emitCell ([], none)).1 ++ [Escape.resetColor, .reset]

def emitCellDelta (spans : List DiffSpan) (fullGrid : Bool) : List Escape :=
  (if fullGrid then [Escape.resetColor, .reset, .clearAll] else []) ++ spans.flatMap emitSpan

/-! ## The terminal -/

/-- What a terminal holds in one column of a line. -/
inductive ScreenCell where
  | single (g : Glyph) (s : Style)
  | left (g : Glyph) (s : Style)
  | right (s : Style)
deriving DecidableEq, Repr

namespace ScreenCell

def isLeft : ScreenCell → Bool
  | left .. => true
  | _ => false

def isRight : ScreenCell → Bool
  | right _ => true
  | _ => false

def style : ScreenCell → Style
  | single _ s => s
  | left _ s => s
  | right s => s

/-- What is left of half a wide glyph when its other half is written over. -/
def blanked (x : ScreenCell) : ScreenCell := .single (.char ' ') x.style

end ScreenCell

/-- A terminal's display width of a glyph. ASCII is one column wide. -/
structure GlyphWidth where
  wide : Glyph → Bool
  narrow_ascii : ∀ c : Char, c.toNat < 128 → wide (.char c) = false

def GlyphWidth.columns (W : GlyphWidth) (g : Glyph) : ℕ := if W.wide g then 2 else 1

/-- The line after `g` is written at column `c`. -/
def putGlyph (W : GlyphWidth) (line : ℕ → ScreenCell) (c : ℕ) (g : Glyph) (s : Style) :
    ℕ → ScreenCell := fun i =>
  if i = c then if W.wide g then .left g s else .single g s
  else if W.wide g ∧ i = c + 1 then .right s
  else if i + 1 = c ∧ (line i).isLeft then (line i).blanked
  else if i = c + W.columns g ∧ (line i).isRight then (line i).blanked
  else line i

structure Screen where
  lines : ℕ → ℕ → ScreenCell
  row : ℕ
  col : ℕ
  style : Style

namespace Screen

variable (W : GlyphWidth)

variable (t : Screen)

def step : Escape → Screen
  | .moveTo col row => { t with row := row, col := col }
  | .resetColor =>
    { t with
      style := { t.style with fg := .default, bg := .default, underlineColor := .default } }
  | .reset => { t with style := .default }
  | .foreground c => { t with style := { t.style with fg := c } }
  | .background c => { t with style := { t.style with bg := c } }
  | .bold => { t with style := { t.style with bold := true } }
  | .italic => { t with style := { t.style with italic := true } }
  | .underline u => { t with style := { t.style with underline := u } }
  | .underlineColor c => { t with style := { t.style with underlineColor := c } }
  | .reverse => { t with style := { t.style with reverse := true } }
  -- the screen is cleared in the current background
  | .clearAll =>
    { t with lines := fun _ _ => .single (.char ' ') { Style.default with bg := t.style.bg } }
  | .print g =>
    { t with
      lines := fun r => if r = t.row then putGlyph W (t.lines r) t.col g t.style else t.lines r
      col := t.col + W.columns g }

def run (es : List Escape) : Screen := es.foldl (step W) t

@[simp] theorem run_nil : t.run W [] = t := rfl

@[simp] theorem run_cons (e : Escape) {es : List Escape} :
    t.run W (e :: es) = (t.step W e).run W es := rfl

@[simp] theorem run_append (es es' : List Escape) :
    t.run W (es ++ es') = (t.run W es).run W es' := List.foldl_append

end Screen

/-! ## Styles -/

/-- A style as it is seen: a color for an underline that is not drawn does not show. -/
def Style.shown (s : Style) : Style :=
  if s.underline = .none then { s with underlineColor := .default } else s

theorem Screen.run_ite {W : GlyphWidth} {t : Screen} {p : Prop} [Decidable p] (e : Escape) :
    t.run W (if p then [e] else []) = if p then t.step W e else t := by
  split <;> rfl

theorem Screen.run_unless {W : GlyphWidth} {t : Screen} {p : Prop} [Decidable p] (e : Escape) :
    t.run W (if p then [] else [e]) = if p then t else t.step W e := by
  split <;> rfl

/-- The escapes of a style leave the terminal in that style, whatever it was in. -/
theorem Screen.run_applyStyle {W : GlyphWidth} {t : Screen} (s : Style) :
    t.run W (applyStyle s) = { t with style := s.shown } := by
  obtain ⟨fg, bg, bold, italic, underline, reverse, underlineColor⟩ := s
  have hreset : t.run W [.reset, .foreground fg, .background bg] =
      { t with style := { Style.default with fg := fg, bg := bg } } := rfl
  simp only [applyStyle, run_append, hreset, run_ite, run_unless]
  have hbold : ∀ u : Screen, (if bold = true then u.step W .bold else u) =
      { u with style := { u.style with bold := bold || u.style.bold } } := by
    cases bold <;> exact fun _ => rfl
  have hitalic : ∀ u : Screen, (if italic = true then u.step W .italic else u) =
      { u with style := { u.style with italic := italic || u.style.italic } } := by
    cases italic <;> exact fun _ => rfl
  have hreverse : ∀ u : Screen, (if reverse = true then u.step W .reverse else u) =
      { u with style := { u.style with reverse := reverse || u.style.reverse } } := by
    cases reverse <;> exact fun _ => rfl
  rw [hbold, hitalic, hreverse]
  by_cases hu : underline = .none
  · subst hu; simp [Style.shown, Style.default]
  · by_cases hc : underlineColor = .default
    · subst hc; simp [hu, Style.shown, Style.default, step]
    · simp [hu, hc, Style.shown, Style.default, step]

theorem Screen.run_resets {W : GlyphWidth} {t : Screen} :
    t.run W [.resetColor, .reset] = { t with style := .default } := rfl

end Pmacs
