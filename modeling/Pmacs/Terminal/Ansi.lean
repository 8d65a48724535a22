/-
  The ANSI parser (ansi.rs): bytes in, events out.

  * `CsiCollector` gathers the parameters of a control sequence, `finalize` hands
    them to `dispatchCsi`;
  * text gathers in `textRun`, the bytes of a character not yet complete in
    `utf8Buf`; `flushTextRun` emits the run;
  * `feedByte` reads one byte, `feed` a chunk, `finish` ends the stream.

  A method that emits returns its events beside the parser it leaves.
-/
import Pmacs.Lib.Integers
import Pmacs.Lib.Machine
import Pmacs.Lib.Utf8
import Pmacs.Rope.Tree
import Pmacs.Terminal.Event

namespace Pmacs

open Lib

/-- `b as char`. -/
def asChar (b : UInt8) : Char := Char.ofNat b.toNat

theorem toNat_asChar {b : UInt8} : (asChar b).toNat = b.toNat := by
  have hvalid : b.toNat.isValidChar := .inl (by have := b.toNat_lt; omega)
  rw [asChar, Char.ofNat, dif_pos hvalid]
  rfl

theorem asChar_inj {b d : UInt8} (h : asChar b = asChar d) : b = d := by
  refine UInt8.toNat_inj.1 ?_
  rw [← toNat_asChar, h, toNat_asChar]

/-! ## Control sequence parameters -/

/-- One group of parameters: the value before any `:`, and those after. -/
structure CsiParam where
  main : ℕ
  sub : List ℕ
deriving DecidableEq, Repr

structure CsiCollector where
  params : List CsiParam
  currentMain : Option ℕ
  currentSubs : List ℕ
  currentSubAcc : Option ℕ
  inSubs : Bool
  privateMarker : Option UInt8
  intermediates : Bytes
deriving DecidableEq, Repr

variable (c : CsiCollector)

namespace CsiCollector

/-- The empty collector, which `reset` also leaves. -/
def default : CsiCollector := ⟨[], none, [], none, false, none, []⟩

/-- `cur.saturating_mul(10).saturating_add(d)`. -/
def accDigit (cur d : ℕ) : ℕ := min (min (cur * 10) u32Max + d) u32Max

def pushDigit (d : ℕ) : CsiCollector :=
  if c.inSubs then { c with currentSubAcc := some (accDigit (c.currentSubAcc.getD 0) d) }
  else { c with currentMain := some (accDigit (c.currentMain.getD 0) d) }

def pushColon : CsiCollector :=
  if c.inSubs then
    { c with currentSubs := c.currentSubs ++ [c.currentSubAcc.getD 0], currentSubAcc := none }
  else { c with inSubs := true }

def closedSubs : List ℕ :=
  if c.inSubs then c.currentSubs ++ [c.currentSubAcc.getD 0] else c.currentSubs

def pushSemicolon : CsiCollector :=
  { c with
    params := c.params ++ [⟨c.currentMain.getD 0, c.closedSubs⟩]
    currentMain := none
    currentSubs := []
    currentSubAcc := if c.inSubs then none else c.currentSubAcc
    inSubs := false }

/-- The parameters collected, a group in progress included. What stays in the
    collector is reset by the caller. -/
def finalize : List CsiParam :=
  if c.currentMain.isSome || (c.inSubs || !c.currentSubs.isEmpty) then
    c.params ++ [⟨c.currentMain.getD 0, c.closedSubs⟩]
  else c.params

end CsiCollector

/-! ## The parser -/

namespace AnsiParser

inductive State where
  | ground
  | escape
  | escapeIntermediate
  | escapeIgnore
  | csiEntry
  | csiParam
  | csiIntermediate
  | csiIgnore
  | oscString
  | oscIgnore
  | oscEscPending
  | dcsEntry
  | dcsParam
  | dcsIntermediate
  | dcsPassthrough
  | dcsIgnore
  | sosPmApcString
deriving DecidableEq, Repr

end AnsiParser

structure AnsiParser where
  state : AnsiParser.State
  currentStyle : Style
  /-- The style the consumer last received. -/
  emittedStyle : Style
  ignoreByteCount : ℕ
  textRun : List Char
  utf8Buf : Bytes
  altScreenActive : Bool
  csi : CsiCollector
  oscBody : Bytes
  escapeIntermediates : Bytes
  profile : AnsiParserProfile
  unknownSequenceByteLimit : ℕ
deriving DecidableEq, Repr

namespace AnsiParser

/-- The default of `unknownSequenceByteLimit`. -/
def defaultByteLimit : ℕ := 1024

variable (profile : AnsiParserProfile)

def withProfileAndConfig (byteLimit : ℕ) : AnsiParser :=
  { state := .ground
    currentStyle := .default
    emittedStyle := .default
    ignoreByteCount := 0
    textRun := []
    utf8Buf := []
    altScreenActive := false
    csi := .default
    oscBody := []
    escapeIntermediates := []
    profile := profile
    unknownSequenceByteLimit := byteLimit }

def withProfile : AnsiParser :=
  withProfileAndConfig profile defaultByteLimit

def new : AnsiParser := withProfile .lineOriented

variable (p : AnsiParser)

/-- `reset`: back to ground; the styles and the alternate screen stay. -/
def reset : AnsiParser :=
  { p with
    state := .ground
    ignoreByteCount := 0
    textRun := []
    utf8Buf := []
    csi := .default
    oscBody := []
    escapeIntermediates := [] }

/-! ### Text runs -/

def suppressVisible : Bool :=
  p.profile == .lineOriented && p.altScreenActive

def pushVisible (ev : AnsiEvent) : List AnsiEvent :=
  if p.suppressVisible then [] else [ev]

def textEvents : List AnsiEvent :=
  if p.textRun.isEmpty then [] else p.pushVisible (.text p.textRun)

/-- Emit the text run. The bytes of an incomplete character stay. -/
def takeTextRun : List AnsiEvent × AnsiParser :=
  (p.textEvents, { p with textRun := [] })

def flushPendingUtf8AsReplacement : AnsiParser :=
  if p.utf8Buf.isEmpty then p
  else { p with textRun := p.textRun ++ [Utf8.replacement], utf8Buf := [] }

def flushTextRun : List AnsiEvent × AnsiParser :=
  p.flushPendingUtf8AsReplacement.takeTextRun

/-- The characters `buf` starts with, U+FFFD for what is ill-formed, and the bytes
    that wait for more. The valid prefix is taken one character at a time; `fuel`
    bounds the rounds, of which each takes a byte. -/
def decodeUtf8Buf : ℕ → Bytes → List Char × Bytes
  | 0, buf => ([], buf)
  | fuel + 1, buf =>
    match Utf8.scan buf with
    | .empty => ([], [])
    | .char c n =>
      let rest := decodeUtf8Buf fuel (buf.drop n)
      (c :: rest.1, rest.2)
    | .incomplete => if 8 ≤ buf.length then ([Utf8.replacement], []) else ([], buf)
    | .invalid n =>
      let rest := decodeUtf8Buf fuel (buf.drop n)
      (Utf8.replacement :: rest.1, rest.2)

def tryDecodeUtf8Buf : AnsiParser :=
  let decoded := decodeUtf8Buf (p.utf8Buf.length + 1) p.utf8Buf
  { p with textRun := p.textRun ++ decoded.1, utf8Buf := decoded.2 }

def pushTextByte (b : UInt8) : AnsiParser :=
  if p.utf8Buf.isEmpty && b < 0x80 then { p with textRun := p.textRun ++ [asChar b] }
  else { p with utf8Buf := p.utf8Buf ++ [b] }.tryDecodeUtf8Buf

/-! ### Sequences -/

def emitSetStyle : List AnsiEvent × AnsiParser :=
  if p.suppressVisible then ([], p)
  else ([.setStyle p.currentStyle], { p with emittedStyle := p.currentStyle })

def startNewSequence : AnsiParser :=
  { p with
    csi := .default
    oscBody := []
    escapeIntermediates := []
    ignoreByteCount := 0
    state := .escape }

def recoverToGround : AnsiParser :=
  { p with
    csi := .default
    oscBody := []
    escapeIntermediates := []
    ignoreByteCount := 0
    state := .ground }

def param (params : List CsiParam) (index default : ℕ) : ℕ :=
  match params[index]? with
  | none => default
  | some p => if p.main = 0 then default else p.main

def eraseMode : ℕ → Option EraseMode
  | 0 => some .toEnd
  | 1 => some .toStart
  | 2 => some .all
  | 3 => some .saved
  | _ => none

def privateModeEvent (value : ℕ) (enabled : Bool) : Option AnsiEvent :=
  match value with
  | 47 => some (.alternateScreen .mode47 enabled)
  | 1047 => some (.alternateScreen .mode1047 enabled)
  | 1049 => some (.alternateScreen .mode1049 enabled)
  | 1 => some (.setMode .applicationCursor enabled)
  | 6 => some (.setMode .origin enabled)
  | 7 => some (.setMode .autoWrap enabled)
  | 25 => some (.setMode .cursorVisible enabled)
  | 66 => some (.setMode .applicationKeypad enabled)
  | 1000 => some (.setMode .mouseX10 enabled)
  | 1002 => some (.setMode .mouseButton enabled)
  | 1003 => some (.setMode .mouseAny enabled)
  | 1004 => some (.setMode .focusReporting enabled)
  | 1006 => some (.setMode .mouseSgr enabled)
  | 2004 => some (.setMode .bracketedPaste enabled)
  | 2026 => some (.setMode .synchronizedOutput enabled)
  | _ => none

/-! ### Styles -/

/-- `u8::try_from(n).unwrap_or(255)`. -/
def toU8 (n : ℕ) : ℕ := if n ≤ 255 then n else 255

def parseExtendedColor (p : CsiParam) (rest : List CsiParam) : Option (Color × ℕ) :=
  match p.sub with
  | kind :: subs =>
    match kind with
    | 5 => do
      let n ← subs[0]?
      some (.indexed (toU8 n), 0)
    | 2 =>
      match subs with
      | _ :: r :: g :: b :: _ => some (.rgb (toU8 r) (toU8 g) (toU8 b), 0)
      | [r, g, b] => some (.rgb (toU8 r) (toU8 g) (toU8 b), 0)
      | _ => none
    | _ => none
  | [] => do
    let kind ← rest[0]?
    match kind.main with
    | 5 => do
      let n ← rest[1]?
      some (.indexed (toU8 n.main), 2)
    | 2 => do
      let r ← rest[1]?
      let g ← rest[2]?
      let b ← rest[3]?
      some (.rgb (toU8 r.main) (toU8 g.main) (toU8 b.main), 4)
    | _ => none

def underlineStyle : Option ℕ → UnderlineStyle
  | some 0 => .none
  | some 2 => .double
  | some 3 => .curly
  | some 4 => .dotted
  | some 5 => .dashed
  | _ => .single

/-- What the group `p` makes of a style, and how many groups after it it takes. -/
def sgr (s : Style) (p : CsiParam) (rest : List CsiParam) : Style × ℕ :=
  if p.main = 0 then (.default, 0)
  else if p.main = 1 then ({ s with bold := true }, 0)
  else if p.main = 3 then ({ s with italic := true }, 0)
  else if p.main = 4 then ({ s with underline := underlineStyle p.sub[0]? }, 0)
  else if p.main = 5 ∨ p.main = 6 then
    (if profile = .lineOriented then { s with bold := true } else s, 0)
  else if p.main = 7 then ({ s with reverse := true }, 0)
  else if p.main = 22 then ({ s with bold := false }, 0)
  else if p.main = 23 then ({ s with italic := false }, 0)
  else if p.main = 24 then ({ s with underline := .none }, 0)
  else if p.main = 27 then ({ s with reverse := false }, 0)
  else if 30 ≤ p.main ∧ p.main ≤ 37 then ({ s with fg := .indexed (p.main - 30) }, 0)
  else if p.main = 38 then
    match parseExtendedColor p rest with
    | some (color, extra) => ({ s with fg := color }, extra)
    | none => (s, 0)
  else if p.main = 39 then ({ s with fg := .default }, 0)
  else if 40 ≤ p.main ∧ p.main ≤ 47 then ({ s with bg := .indexed (p.main - 40) }, 0)
  else if p.main = 48 then
    match parseExtendedColor p rest with
    | some (color, extra) => ({ s with bg := color }, extra)
    | none => (s, 0)
  else if p.main = 49 then ({ s with bg := .default }, 0)
  else if p.main = 58 then
    match parseExtendedColor p rest with
    | some (color, extra) => ({ s with underlineColor := color }, extra)
    | none => (s, 0)
  else if p.main = 59 then ({ s with underlineColor := .default }, 0)
  else if 90 ≤ p.main ∧ p.main ≤ 97 then ({ s with fg := .indexed (p.main - 90 + 8) }, 0)
  else if 100 ≤ p.main ∧ p.main ≤ 107 then ({ s with bg := .indexed (p.main - 100 + 8) }, 0)
  -- the rest, of which the source names 2, 8, 9, 25, 28 and 29, change nothing
  else (s, 0)

/-- The loop over the groups; `skip` of them were taken by the one before. -/
def sgrLoop (profile : AnsiParserProfile) : ℕ → Style → List CsiParam → Style
  | _, s, [] => s
  | skip + 1, s, _ :: rest => sgrLoop profile skip s rest
  | 0, s, p :: rest => sgrLoop profile (sgr profile s p rest).2 (sgr profile s p rest).1 rest

def dispatchSgr (params : List CsiParam) : List AnsiEvent × AnsiParser :=
  if params.isEmpty then { p with currentStyle := .default }.emitSetStyle
  else { p with currentStyle := sgrLoop p.profile 0 p.currentStyle params }.emitSetStyle

/-! ### Control sequences -/

/-- One parameter of a private mode set or reset, line-oriented. -/
def altScreenParam (set : Bool) (p : AnsiParser) (param : CsiParam) : List AnsiEvent × AnsiParser :=
  if param.main = 1049 then
    if set && !p.altScreenActive then
      ([.alternateScreenEnter], { p with altScreenActive := true })
    else if !set && p.altScreenActive then
      let q := { p with altScreenActive := false }
      if q.currentStyle ≠ q.emittedStyle then
        (.alternateScreenExit :: q.emitSetStyle.1, q.emitSetStyle.2)
      else ([.alternateScreenExit], q)
    else ([], p)
  else ([], p)

def dispatchCsiLineOriented (marker : Option Char) (params : List CsiParam)
    (finalByte : Char) : List AnsiEvent × AnsiParser :=
  match marker, finalByte with
  | none, 'K' =>
    match param params 0 0 with
    | 0 => (p.pushVisible .eraseToEol, p)
    | 2 => (p.pushVisible .eraseLine, p)
    | _ => ([], p)
  | none, '~' =>
    match param params 0 0 with
    | 200 => (p.pushVisible .bracketedPasteBegin, p)
    | 201 => (p.pushVisible .bracketedPasteEnd, p)
    | _ => ([], p)
  | some '?', 'h' => Machine.run (altScreenParam true) p params
  | some '?', 'l' => Machine.run (altScreenParam false) p params
  | _, _ => ([], p)

def fullScreenEvents (marker : Option Char) (intermediates : Bytes) (params : List CsiParam)
    (finalByte : Char) : List AnsiEvent :=
  let count := max (param params 0 1) 1
  match marker, intermediates, finalByte with
  | none, [], 'A' => [.cursorUp count]
  | none, [], 'B' => [.cursorDown count]
  | none, [], 'C' => [.cursorForward count]
  | none, [], 'a' => [.cursorForward count]
  | none, [], 'D' => [.cursorBackward count]
  | none, [], 'E' => [.cursorNextLine count]
  | none, [], 'F' => [.cursorPreviousLine count]
  | none, [], 'G' => [.cursorHorizontalAbsolute count]
  | none, [], '\x60' => [.cursorHorizontalAbsolute count]
  | none, [], 'd' => [.cursorVerticalAbsolute count]
  | none, [], 'H' => [.cursorPosition count (max (param params 1 1) 1)]
  | none, [], 'f' => [.cursorPosition count (max (param params 1 1) 1)]
  | none, [], 'J' => ((eraseMode (param params 0 0)).map AnsiEvent.eraseDisplay).toList
  | none, [], 'K' => ((eraseMode (param params 0 0)).map AnsiEvent.eraseLineMode).toList
  | none, [], 'X' => [.eraseCharacters count]
  | none, [], '@' => [.insertCharacters count]
  | none, [], 'P' => [.deleteCharacters count]
  | none, [], 'L' => [.insertLines count]
  | none, [], 'M' => [.deleteLines count]
  | none, [], 'S' => [.scrollUp count]
  | none, [], 'T' => [.scrollDown count]
  | none, [], 'r' => [.setScrollingRegion count ((params[1]?.map CsiParam.main).filter (· != 0))]
  | none, [], 's' => [.saveCursor]
  | none, [], 'u' => [.restoreCursor]
  | none, [], 'g' =>
    match param params 0 0 with
    | 0 => [.clearTabStop]
    | 3 => [.clearAllTabStops]
    | _ => []
  | none, [], '~' =>
    match param params 0 0 with
    | 200 => [.bracketedPasteBegin]
    | 201 => [.bracketedPasteEnd]
    | _ => []
  | none, [], 'h' => (params.filter (·.main = 4)).map fun _ => .setMode .insert true
  | none, [], 'l' => (params.filter (·.main = 4)).map fun _ => .setMode .insert false
  | some '?', [], 'h' => params.filterMap fun q => privateModeEvent q.main true
  | some '?', [], 'l' => params.filterMap fun q => privateModeEvent q.main false
  | none, [], 'c' => [.deviceRequest .primaryAttributes]
  | some '>', [], 'c' => [.deviceRequest .secondaryAttributes]
  | none, [], 'n' =>
    match param params 0 0 with
    | 5 => [.deviceRequest .operatingStatus]
    | 6 => [.deviceRequest .cursorPosition]
    | _ => []
  | _, _, _ => []

def dispatchCsi (finalByte : UInt8) : List AnsiEvent × AnsiParser :=
  let marker := p.csi.privateMarker.map asChar
  let params := p.csi.finalize
  let r :=
    if marker.isNone && asChar finalByte == 'm' then p.dispatchSgr params
    else if p.profile = .lineOriented then
      p.dispatchCsiLineOriented marker params (asChar finalByte)
    else (fullScreenEvents marker p.csi.intermediates params (asChar finalByte), p)
  (r.1, { r.2 with csi := .default })

def dispatchCsiAndRecover (b : UInt8) : List AnsiEvent × AnsiParser :=
  ((p.dispatchCsi b).1, (p.dispatchCsi b).2.recoverToGround)

/-! ### Operating system commands -/

def dispatchOsc : List AnsiEvent × AnsiParser :=
  let numPart := p.oscBody.takeWhile (· != 0x3B)
  let textPart := (p.oscBody.dropWhile (· != 0x3B)).drop 1
  let num := (Utf8.fromUtf8 numPart).bind (parseDecimal u32Max)
  let events :=
    if num == some 133 && !p.suppressVisible then
      match textPart.head?.map asChar with
      | some 'A' => [.promptStart]
      | some 'B' => [.promptEnd]
      | some 'C' => [.commandStart]
      | some 'D' => [.outputStart]
      | _ => []
    else if (num == some 0 || num == some 2) && !p.suppressVisible then
      [.setTitle (Utf8.lossy textPart)]
    else []
  (events, { p with oscBody := [] })

def dispatchOscAndRecover : List AnsiEvent × AnsiParser :=
  (p.dispatchOsc.1, p.dispatchOsc.2.recoverToGround)

/-! ## One byte -/

def flushThen (ev : AnsiEvent) : List AnsiEvent × AnsiParser :=
  (p.flushTextRun.1 ++ p.flushTextRun.2.pushVisible ev, p.flushTextRun.2)

def feedGround (b : UInt8) : List AnsiEvent × AnsiParser :=
  if p.profile = .lineOriented then
    if b = 0x0D then p.flushThen .carriageReturn
    else if b = 0x08 then p.flushThen .backspace
    else if b = 0x07 ∨ (0x09 ≤ b ∧ b ≤ 0x0C) ∨ (0x20 ≤ b ∧ b ≤ 0x7E) ∨ 0x80 ≤ b then
      ([], p.pushTextByte b)
    else ([], p)
  else
    -- nothing is suppressed here, so `flushThen` emits the event
    if b = 0x07 then p.flushThen .bell
    else if b = 0x08 then p.flushThen .backspace
    else if b = 0x09 then p.flushThen .horizontalTab
    else if 0x0A ≤ b ∧ b ≤ 0x0C then p.flushThen .lineFeed
    else if b = 0x0D then p.flushThen .carriageReturn
    else if b = 0x0E then p.flushThen .shiftOut
    else if b = 0x0F then p.flushThen .shiftIn
    else if (0x20 ≤ b ∧ b ≤ 0x7E) ∨ 0x80 ≤ b then ([], p.pushTextByte b)
    else ([], p)

/-- The escape sequences of one byte that the full screen knows. -/
def escapeEvent : Char → Option AnsiEvent
  | '7' => some .saveCursor
  | '8' => some .restoreCursor
  | 'D' => some .index
  | 'E' => some .nextLine
  | 'H' => some .setTabStop
  | 'M' => some .reverseIndex
  | '=' => some (.setMode .applicationKeypad true)
  | '>' => some (.setMode .applicationKeypad false)
  | _ => none

def feedEscape (b : UInt8) : List AnsiEvent × AnsiParser :=
  if 0x20 ≤ b ∧ b ≤ 0x2F then
    ([], { p with
      escapeIntermediates := p.escapeIntermediates ++ [b], state := .escapeIntermediate })
  else if asChar b = '[' then ([], { p with csi := .default, state := .csiEntry })
  else if asChar b = ']' then ([], { p with oscBody := [], state := .oscString })
  else if asChar b = 'P' then ([], { p with state := .dcsEntry })
  else if asChar b = 'X' ∨ asChar b = '^' ∨ asChar b = '_' then
    ([], { p with state := .sosPmApcString })
  else if 0x30 ≤ b ∧ b ≤ 0x7E then
    (if p.profile = .fullScreen then (escapeEvent (asChar b)).toList else [], p.recoverToGround)
  else ([], p)

def characterSetSlot : List Char → Option CharacterSetSlot
  | ['('] => some .g0
  | [')'] => some .g1
  | _ => none

def characterSet : Char → Option CharacterSet
  | '0' => some .decSpecialGraphics
  | 'B' => some .ascii
  | _ => none

def feedEscapeIntermediate (b : UInt8) : List AnsiEvent × AnsiParser :=
  if 0x20 ≤ b ∧ b ≤ 0x2F then
    ([], { p with escapeIntermediates := p.escapeIntermediates ++ [b] })
  else if 0x30 ≤ b ∧ b ≤ 0x7E then
    let slot := characterSetSlot (p.escapeIntermediates.map asChar)
    let charset := characterSet (asChar b)
    let events := match slot, charset with
      | some slot, some charset =>
        if p.profile = .fullScreen then [.designateCharacterSet slot charset] else []
      | _, _ => []
    (events, p.recoverToGround)
  else ([], p)

def feedEscapeIgnore (b : UInt8) : List AnsiEvent × AnsiParser :=
  if 0x30 ≤ b ∧ b ≤ 0x7E then ([], p.recoverToGround) else ([], p)

/-- A digit or a separator of parameters, put to the collector. -/
def collect (b : UInt8) : Option CsiCollector :=
  if 0x30 ≤ b ∧ b ≤ 0x39 then some (c.pushDigit (b.toNat - 0x30))
  else if asChar b = ':' then some c.pushColon
  else if asChar b = ';' then some c.pushSemicolon
  else none

/-- An intermediate or a final byte; anything else spoils the sequence. -/
def feedCsiIntermediate (b : UInt8) : List AnsiEvent × AnsiParser :=
  if 0x20 ≤ b ∧ b ≤ 0x2F then
    ([], { p with
      csi := { p.csi with intermediates := p.csi.intermediates ++ [b] }
      state := .csiIntermediate })
  else if 0x40 ≤ b ∧ b ≤ 0x7E then p.dispatchCsiAndRecover b
  else ([], { p with state := .csiIgnore })

def feedCsiParam (b : UInt8) : List AnsiEvent × AnsiParser :=
  match collect p.csi b with
  | some csi => ([], { p with csi := csi, state := .csiParam })
  | none => p.feedCsiIntermediate b

def feedCsiEntry (b : UInt8) : List AnsiEvent × AnsiParser :=
  if 0x3C ≤ b ∧ b ≤ 0x3F then
    ([], { p with csi := { p.csi with privateMarker := some b }, state := .csiParam })
  else p.feedCsiParam b

def feedCsiIgnore (b : UInt8) : List AnsiEvent × AnsiParser :=
  if 0x40 ≤ b ∧ b ≤ 0x7E then ([], p.recoverToGround) else ([], p)

def feedOscString (b : UInt8) : List AnsiEvent × AnsiParser :=
  if b = 0x07 then p.dispatchOscAndRecover
  else if b = 0x1B then ([], { p with state := .oscEscPending })
  else if 0x20 ≤ b then ([], { p with oscBody := p.oscBody ++ [b] })
  else ([], p)

variable (again : AnsiParser → UInt8 → List AnsiEvent × AnsiParser)

/-- The byte after an escape in a command: the terminator, or the first byte of a
    new escape sequence, which `again` reads. -/
def feedOscEscPending (p : AnsiParser) (b : UInt8) : List AnsiEvent × AnsiParser :=
  if asChar b = '\\' then p.dispatchOscAndRecover
  else again { p with oscBody := [], ignoreByteCount := 0, state := .escape } b

def feedOscIgnore (b : UInt8) : List AnsiEvent × AnsiParser :=
  if b = 0x07 then ([], p.recoverToGround)
  else if b = 0x1B then ([], { p with state := .oscEscPending })
  else ([], p)

def State.counted : State → Bool
  | ground => false
  | escapeIgnore => false
  | csiIgnore => false
  | oscIgnore => false
  | dcsIgnore => false
  | _ => true

/-- What a sequence past its byte limit is left to. -/
def overLimit : AnsiParser :=
  match p.state with
  | .oscString | .oscEscPending =>
    { p with oscBody := [], state := .oscIgnore, ignoreByteCount := 0 }
  | .dcsEntry | .dcsParam | .dcsIntermediate | .dcsPassthrough | .sosPmApcString =>
    { p with state := .dcsIgnore, ignoreByteCount := 0 }
  | .escape | .escapeIntermediate =>
    { p with escapeIntermediates := [], state := .escapeIgnore, ignoreByteCount := 0 }
  | .csiEntry | .csiParam | .csiIntermediate =>
    { p with csi := .default, state := .csiIgnore, ignoreByteCount := 0 }
  | _ => p.recoverToGround

def feedState (p : AnsiParser) (b : UInt8) : List AnsiEvent × AnsiParser :=
  match p.state with
  | .ground => p.feedGround b
  | .escape => p.feedEscape b
  | .escapeIntermediate => p.feedEscapeIntermediate b
  | .escapeIgnore => p.feedEscapeIgnore b
  | .csiEntry => p.feedCsiEntry b
  | .csiParam => p.feedCsiParam b
  | .csiIntermediate => p.feedCsiIntermediate b
  | .csiIgnore => p.feedCsiIgnore b
  | .oscString => p.feedOscString b
  | .oscEscPending => feedOscEscPending again p b
  | .oscIgnore => p.feedOscIgnore b
  | .dcsEntry | .dcsParam | .dcsIntermediate | .dcsPassthrough | .dcsIgnore
  | .sosPmApcString => ([], p)

def feedByteWith (p : AnsiParser) (b : UInt8) : List AnsiEvent × AnsiParser :=
  if b = 0x1B ∧ p.state ≠ .oscString ∧ p.state ≠ .oscEscPending then
    (p.flushTextRun.1, p.flushTextRun.2.startNewSequence)
  else if b = 0x18 ∨ b = 0x1A then (p.flushTextRun.1, p.flushTextRun.2.recoverToGround)
  else if p.state.counted then
    let p := { p with ignoreByteCount := min (p.ignoreByteCount + 1) usizeMax }
    if p.unknownSequenceByteLimit < p.ignoreByteCount then ([], p.overLimit)
    else feedState again p b
  else feedState again p b

/-- `feed_byte`. It calls itself only from the state `oscEscPending`, and then in the
    state `escape`, so the calls are two deep (`feedByte_eq`). -/
def feedByte : AnsiParser → UInt8 → List AnsiEvent × AnsiParser :=
  feedByteWith (feedByteWith fun p _ => ([], p))

theorem feedByteWith_congr {again again' : AnsiParser → UInt8 → List AnsiEvent × AnsiParser}
    (h : ∀ p b, feedState again p b = feedState again' p b) (p : AnsiParser) (b : UInt8) :
    feedByteWith again p b = feedByteWith again' p b := by
  simp only [feedByteWith, h]

/-- From the state `escape` a byte is read without a second call. -/
theorem feedByteWith_escape (again' : AnsiParser → UInt8 → List AnsiEvent × AnsiParser)
    {p : AnsiParser} (h : p.state = .escape) (b : UInt8) :
    feedByteWith again p b = feedByteWith again' p b := by
  simp only [feedByteWith, feedState, h]

theorem feedByte_eq (b : UInt8) : p.feedByte b = feedByteWith feedByte p b := by
  refine feedByteWith_congr ?_ p b
  intro p b
  cases h : p.state with
  | oscEscPending =>
    simp only [feedState, h, feedOscEscPending]
    split_ifs
    · rfl
    · exact feedByteWith_escape _ _ rfl b
  | _ => simp only [feedState, h]

/-! ## A stream -/

def feed : AnsiParser → Bytes → List AnsiEvent × AnsiParser :=
  Machine.feed feedByte takeTextRun

def feedChunks : AnsiParser → List Bytes → List AnsiEvent × AnsiParser :=
  Machine.feeds feedByte takeTextRun

/-- End the stream: an incomplete character is replaced, an alternate screen left,
    the consumer's style set back. -/
def finish : List AnsiEvent × AnsiParser :=
  let q := p.flushTextRun
  let alt := if p.profile = .lineOriented ∧ p.altScreenActive then [.alternateScreenExit] else []
  let style :=
    if p.profile = .lineOriented ∧ p.emittedStyle ≠ .default then [.setStyle .default] else []
  (q.1 ++ alt ++ style,
    { q.2 with altScreenActive := false, currentStyle := .default, emittedStyle := .default }.reset)

end AnsiParser

end Pmacs
