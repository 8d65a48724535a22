/-
  Reading a server's answers: semantic tokens (semantic_tokens.rs), published diagnostics
  (diag.rs) and inlay hints with their store (inlay_hint.rs).

  * `SemanticTokensResponse.fromLspValue` reads a full answer, `applyDelta` splices the
    edits of a delta answer into the array they are relative to;
  * `InlayHint.fromLspValue` reads hints, `placed` puts one in the current text.
-/
import Pmacs.Lib.Splice
import Pmacs.Lsp.Diagnostics
import Pmacs.Lsp.Value

namespace Pmacs

open Lib

/-! ## Semantic tokens -/

variable (s : InlayHintStore) (v : Value)

namespace SemanticTokensResponse

/-- `u32` addition. -/
def add32 (a b : ℕ) : ℕ := (a + b) % 2 ^ 32

/-- Decode groups of five numbers, each relative to the token before it; a partial group
    at the end is ignored. -/
def decodeFrom : ℕ → ℕ → List ℕ → List SemanticToken
  | line, start, dLine :: dStart :: length :: tokenType :: tokenModifiers :: ints =>
    let line := add32 line dLine
    let start := if dLine = 0 then add32 start dStart else dStart
    ⟨line, start, length, tokenType, tokenModifiers⟩ :: decodeFrom line start ints
  | _, _, _ => []

def decode (ints : List ℕ) : List SemanticToken := decodeFrom 0 0 ints

/-- `as_u64().unwrap_or(0) as u32`. -/
def intOf : ℕ := (v.asU64.getD 0) % 2 ^ 32

/-- The numbers of the array at a key; none where there is no array. -/
def intsOf (key : String) : List ℕ :=
  (((v.get key).bind Value.asArray).map (·.map intOf)).getD []

def isFull : Bool := ((v.get "data").bind Value.asArray).isSome

def resultIdOf : Option String := (v.get "resultId").bind Value.asStr

def fromLspValue : SemanticTokensResponse :=
  if isFull v then ⟨decode (intsOf v "data"), resultIdOf v, intsOf v "data"⟩
  else ⟨[], resultIdOf v, []⟩

/-- An edit of a data array: `deleteCount` numbers from `start` on are replaced. -/
structure TokenEdit where
  start : ℕ
  deleteCount : ℕ
  data : List ℕ
deriving DecidableEq, Repr

/-- Read an edit; none without its two numbers. -/
def TokenEdit.ofValue (e : Value) : Option TokenEdit :=
  match (e.get "start").bind Value.asU64, (e.get "deleteCount").bind Value.asU64 with
  | some start, some deleteCount => some ⟨start, deleteCount, intsOf e "data"⟩
  | _, _ => none

def TokenEdit.splice (data : List ℕ) (e : TokenEdit) : List ℕ :=
  Lib.splice data (min e.start data.length) (min (e.start + e.deleteCount) data.length) e.data

/-- The edits of a delta answer, the last of the array first; edits with one start stay
    in the order they came in. -/
def editsOf : List TokenEdit :=
  match (v.get "edits").bind Value.asArray with
  | none => []
  | some edits => (edits.filterMap TokenEdit.ofValue).insertionSort fun a b => b.start ≤ a.start

/-- Read the answer to a delta request, whose edits are relative to `prevRaw`. -/
def applyDelta (prevRaw : List ℕ) (v : Value) : SemanticTokensResponse :=
  if isFull v then fromLspValue v
  else
    let data := (editsOf v).foldl TokenEdit.splice prevRaw
    ⟨decode data, resultIdOf v, data⟩

end SemanticTokensResponse

/-! ## Diagnostics -/

def positionOf : Option (ℕ × ℕ) :=
  match (v.get "line").bind Value.asU64, (v.get "character").bind Value.asU64 with
  | some line, some character => some (line, character)
  | _, _ => none

def rangeOf : Option ((ℕ × ℕ) × (ℕ × ℕ)) :=
  match (v.get "start").bind positionOf, (v.get "end").bind positionOf with
  | some first, some last => some (first, last)
  | _, _ => none

/-- The fields of a published diagnostic; a code may be a string or a number. -/
def LspDiagnostic.ofValue : LspDiagnostic :=
  { range := (v.get "range").bind rangeOf
    message := (v.get "message").bind Value.asStr
    severity := (v.get "severity").bind Value.asI64
    source := (v.get "source").bind Value.asStr
    code := (v.get "code").bind fun c => c.asStr.or (c.asI64.map toString) }

/-! ## Inlay hints -/

/-- A hint, with the byte it stands at in the current text when that is known. -/
structure InlayHint where
  line : ℕ
  col : ℕ
  label : String
  atByte : Option ℕ
deriving DecidableEq, Repr

namespace InlayHint

def parseLabel : Option String :=
  match v.asStr with
  | some s => some s
  | none => v.asArray.map fun parts =>
      String.join (parts.filterMap fun part => (part.get "value").bind Value.asStr)

def parse : Option InlayHint :=
  match (v.get "position").bind positionOf, (v.get "label").bind parseLabel with
  | some (line, col), some label => some ⟨line % 2 ^ 32, col % 2 ^ 32, label, none⟩
  | _, _ => none

/-- Place a hint in the current text; none when its anchor was deleted. -/
def placed (store : SemanticTokenStore) (uri : String) (anchor : List Char) (baseSeq : ℕ)
    (enc : PositionEncoding) (h : InlayHint) : Option InlayHint :=
  match positionToByte anchor h.line h.col enc with
  | none => some h
  | some byte =>
    let lines := textLines anchor
    let h := if h.line < lines.length then
        { h with col := (byte - lineStart lines h.line) % 2 ^ 32 } else h
    if store.hasLog uri then
      match store.carryRangeSince uri baseSeq byte byte with
      | .placed at_ _ => some { h with atByte := some at_ }
      | .deleted => none
      | .unalignable => some { h with atByte := none }
    else some h

/-- Carry a hint across an edit; none when the edit deletes its anchor. -/
def translate (edit : DocumentEdit) (h : InlayHint) : Option InlayHint :=
  match h.atByte with
  | none => some h
  | some byte =>
    if edit.deletes byte byte then none else some { h with atByte := some (edit.translateEnd byte) }

end InlayHint

/-- Read a list of hints; anything else has none. -/
def InlayHint.fromLspValue : List InlayHint :=
  (v.asArray.getD []).filterMap InlayHint.parse

structure InlayHintStore where
  byKey : Assoc SemanticTokenKey (List InlayHint)
  staleUris : List String
  loggedUris : List String

namespace InlayHintStore

def new : InlayHintStore := ⟨∅, [], []⟩

def set (key : SemanticTokenKey) (hints : List InlayHint) : InlayHintStore :=
  { s with byKey := s.byKey.insert key hints, staleUris := s.staleUris.filter (· ≠ key.uri) }

/-- Drop an entry; a document that no other server has hints for is not stale. -/
def clear (key : SemanticTokenKey) : InlayHintStore :=
  let byKey := s.byKey.erase key
  if byKey.keys.any (·.uri = key.uri) then { s with byKey }
  else { s with byKey, staleUris := s.staleUris.filter (· ≠ key.uri) }

/-- Mark a document's hints as stale, unless they are carried across its edits. -/
def markStale (uri : String) : InlayHintStore :=
  if uri ∈ s.loggedUris then s
  else { s with staleUris := uri :: s.staleUris.filter (· ≠ uri) }

/-- From now on the document's edits are reported. -/
def noteLogged (uri : String) : InlayHintStore :=
  { s with
    staleUris := s.staleUris.filter (· ≠ uri)
    loggedUris := uri :: s.loggedUris.filter (· ≠ uri) }

def translateEdit (uri : String) (edit : DocumentEdit) : InlayHintStore :=
  if edit.oldEnd = edit.start ∧ edit.insertedLen = 0 then s
  else
    { s with byKey := s.byKey.mapVal fun key hints =>
        if key.uri = uri then hints.filterMap (InlayHint.translate edit) else hints }

end InlayHintStore

end Pmacs
