/-
  What the ANSI parser emits (ansi.rs).
-/
import Pmacs.Terminal.Cell

namespace Pmacs

/-- Whether the parser serves line-oriented output or a full screen. -/
inductive AnsiParserProfile where
  | lineOriented
  | fullScreen
deriving DecidableEq, Repr

inductive EraseMode where
  | toEnd
  | toStart
  | all
  | saved
deriving DecidableEq, Repr

inductive AlternateScreenMode where
  | mode47
  | mode1047
  | mode1049
deriving DecidableEq, Repr

inductive TerminalMode where
  | insert
  | origin
  | autoWrap
  | applicationCursor
  | applicationKeypad
  | cursorVisible
  | bracketedPaste
  | focusReporting
  | synchronizedOutput
  | mouseX10
  | mouseButton
  | mouseAny
  | mouseSgr
deriving DecidableEq, Repr

inductive CharacterSetSlot where
  | g0
  | g1
deriving DecidableEq, Repr

inductive CharacterSet where
  | ascii
  | decSpecialGraphics
deriving DecidableEq, Repr

inductive DeviceRequest where
  | primaryAttributes
  | secondaryAttributes
  | operatingStatus
  | cursorPosition
deriving DecidableEq, Repr

inductive AnsiEvent where
  | text (s : List Char)
  | setStyle (style : Style)
  | carriageReturn
  | backspace
  | eraseToEol
  | eraseLine
  | setTitle (title : List Char)
  | promptStart
  | promptEnd
  | commandStart
  | outputStart
  | bracketedPasteBegin
  | bracketedPasteEnd
  | alternateScreenEnter
  | alternateScreenExit
  | bell
  | lineFeed
  | index
  | nextLine
  | reverseIndex
  | horizontalTab
  | setTabStop
  | clearTabStop
  | clearAllTabStops
  | cursorUp (n : ℕ)
  | cursorDown (n : ℕ)
  | cursorForward (n : ℕ)
  | cursorBackward (n : ℕ)
  | cursorNextLine (n : ℕ)
  | cursorPreviousLine (n : ℕ)
  | cursorHorizontalAbsolute (n : ℕ)
  | cursorVerticalAbsolute (n : ℕ)
  | cursorPosition (row col : ℕ)
  | eraseDisplay (mode : EraseMode)
  | eraseLineMode (mode : EraseMode)
  | eraseCharacters (n : ℕ)
  | insertCharacters (n : ℕ)
  | deleteCharacters (n : ℕ)
  | insertLines (n : ℕ)
  | deleteLines (n : ℕ)
  | scrollUp (n : ℕ)
  | scrollDown (n : ℕ)
  | setScrollingRegion (top : ℕ) (bottom : Option ℕ)
  | saveCursor
  | restoreCursor
  | alternateScreen (mode : AlternateScreenMode) (enabled : Bool)
  | setMode (mode : TerminalMode) (enabled : Bool)
  | designateCharacterSet (slot : CharacterSetSlot) (charset : CharacterSet)
  | shiftOut
  | shiftIn
  | deviceRequest (r : DeviceRequest)
deriving DecidableEq, Repr

end Pmacs
