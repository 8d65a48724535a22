/-
  The semantic-token store and its edit log (semantic_tokens.rs).

  * `DocumentEdit.translateStart` and `translateEnd` carry a position across an
    edit, `PositionedToken.translated` a token, `translateSpans` a list of them;
  * `resolveTokens` turns a server's `(line, character, length)` tokens into byte
    ranges of the text the server saw;
  * `EditLog` is the log of a document's edits with its marks: what was synced,
    what was forgotten, what must be kept;
  * `SemanticTokenStore` is the store, with `set`, `setRange`, `clear`,
    `recordEdit` and the notes that move the marks.
-/
import Pmacs.Lib.Assoc
import Pmacs.Lib.Integers
import Pmacs.Lib.Splice
import Pmacs.Lsp.Position

namespace Pmacs

open Lib Utf8

/-! ## Answers -/

structure SemanticToken where
  line : ℕ
  start : ℕ
  length : ℕ
  tokenType : ℕ
  tokenModifiers : ℕ
deriving DecidableEq, Repr

/-- A server's answer: its tokens, its cursor, and the array they decode from. -/
structure SemanticTokensResponse where
  tokens : List SemanticToken
  resultId : Option String
  raw : List ℕ
deriving DecidableEq, Repr

/-- `SemanticTokensResponse::default`. -/
def SemanticTokensResponse.default : SemanticTokensResponse := ⟨[], none, []⟩

/-! ## Edits and positions -/

/-- One edit to a document: `[start, oldEnd)` of the text before it was replaced
    by `insertedLen` bytes. -/
structure DocumentEdit where
  start : ℕ
  oldEnd : ℕ
  insertedLen : ℕ
deriving DecidableEq, Repr

namespace DocumentEdit

variable (e : DocumentEdit)

def shift (pos : ℕ) : ℕ := pos - (e.oldEnd - e.start) + e.insertedLen

/-- Map a position that begins a range: inside the replaced text it snaps to the
    end of the replacement. -/
def translateStart (pos : ℕ) : ℕ :=
  if e.oldEnd = e.start then
    if pos ≥ e.start then pos + e.insertedLen else pos
  else if pos ≤ e.start then pos
  else if pos ≥ e.oldEnd then e.shift pos
  else e.start + e.insertedLen

/-- Map a position that ends a range: inside the replaced text it snaps to its
    start; at a pure insert it extends over the inserted text. -/
def translateEnd (pos : ℕ) : ℕ :=
  if e.oldEnd = e.start then
    if pos ≥ e.start then pos + e.insertedLen else pos
  else if pos ≤ e.start then pos
  else if pos ≥ e.oldEnd then e.shift pos
  else e.start

/-- Whether the edit removes the whole of a range: the replaced text covers it, or holds
    an empty one strictly inside. -/
def deletes (lo hi : ℕ) : Bool :=
  if e.oldEnd = e.start then false
  else if lo < hi then decide (e.start ≤ lo ∧ hi ≤ e.oldEnd)
  else decide (e.start < lo ∧ lo < e.oldEnd)

end DocumentEdit

/-- A token in the bytes of the text it now describes. -/
structure PositionedToken where
  start : ℕ
  stop : ℕ
  tokenType : ℕ
  tokenModifiers : ℕ
deriving DecidableEq, Repr

/-- Carry a token across `edit`, or drop it when nothing of it survives. -/
def PositionedToken.translated (t : PositionedToken) (edit : DocumentEdit) :
    Option PositionedToken :=
  let start := edit.translateStart t.start
  let stop := edit.translateEnd t.stop
  if start < stop then some { t with start, stop } else none

def translateSpans (spans : List PositionedToken) (edit : DocumentEdit) : List PositionedToken :=
  spans.filterMap (·.translated edit)

/-- `u32::saturating_add`. -/
def saturatingAdd32 (a b : ℕ) : ℕ := min (a + b) (2 ^ 32 - 1)

/-- The byte range of one token in a text of the given lines; `none` on a line
    past the end, or when nothing is covered. -/
def resolveToken (lines : List (List Char)) (enc : PositionEncoding) (t : SemanticToken) :
    Option PositionedToken :=
  match lines[t.line]? with
  | none => none
  | some line =>
    let ls := lineStart lines t.line
    let start := ls + charToByte line t.start enc
    let stop := ls + charToByte line (saturatingAdd32 t.start t.length) enc
    if stop ≤ start then none else some ⟨start, stop, t.tokenType, t.tokenModifiers⟩

/-- Resolve an answer's tokens to byte ranges of `text`. -/
def resolveTokens (tokens : List SemanticToken) (text : List Char) (enc : PositionEncoding) :
    List PositionedToken :=
  tokens.filterMap (resolveToken (textLines text) enc)

/-! ## The edit log -/

/-- How many recorded edits a log keeps. -/
def editLogCap : ℕ := 4096

/-- The edits a document has taken, each with its number and the text it
    inserted. -/
structure EditLog where
  nextSeq : ℕ
  syncedSeq : ℕ
  droppedBelow : ℕ
  edits : List (ℕ × DocumentEdit × List Char)
  completionFloor : ℕ
  diskFloor : ℕ
deriving DecidableEq, Repr

def EditLog.default : EditLog := ⟨0, 0, 0, [], u64Max, u64Max⟩

/-- Append an edit; past the cap the oldest is forgotten. -/
def EditLog.push (log : EditLog) (edit : DocumentEdit) (inserted : List Char) : EditLog :=
  let edits := log.edits ++ [(log.nextSeq, edit, inserted)]
  let log := { log with nextSeq := log.nextSeq + 1, edits }
  if edits.length > editLogCap then
    match edits with
    | [] => log
    | (dropped, _) :: rest => { log with edits := rest, droppedBelow := dropped + 1 }
  else log

/-- The edits numbered from `base` on. -/
def EditLog.since (log : EditLog) (base : ℕ) : List (DocumentEdit × List Char) :=
  (log.edits.filter fun e => base ≤ e.1).map (·.2)

/-- Forget the edits below `base` that no floor keeps. -/
def EditLog.prune (log : EditLog) (base : ℕ) : EditLog :=
  let keepFrom := min (min base log.completionFloor) log.diskFloor
  { log with
    edits := log.edits.filter fun e => keepFrom ≤ e.1
    droppedBelow := max log.droppedBelow keepFrom }

inductive CarriedRange where
  | placed (start stop : ℕ)
  | deleted
  | unalignable
deriving DecidableEq, Repr

/-! ## The store -/

/-- One server's answer for one document. -/
structure Entry where
  response : SemanticTokensResponse
  spans : List PositionedToken
  baseSeq : ℕ
  pending : ℕ
  unalignable : Bool
deriving DecidableEq, Repr

/-- The key of an entry: a server's id in decimal, and a document. -/
structure SemanticTokenKey where
  server : String
  uri : String
deriving DecidableEq, Repr

structure SemanticTokenStore where
  byKey : Assoc SemanticTokenKey Entry
  staleUris : List String
  logs : Assoc String EditLog
  version : ℕ

namespace SemanticTokenStore

def new : SemanticTokenStore := ⟨∅, [], ∅, 0⟩

variable (s : SemanticTokenStore) (uri : String) (key : SemanticTokenKey)

/-- Whether the entry at `key` is newer than an answer for `baseSeq`. -/
def refuses (baseSeq : ℕ) : Bool :=
  match s.byKey.lookup key with
  | none => false
  | some e => !e.unalignable && decide (e.baseSeq > baseSeq)

/-- Carry tokens across the edits numbered from `base` on. -/
def carry (log : EditLog) (base : ℕ) (spans : List PositionedToken) : List PositionedToken :=
  ((log.since base).map (·.1)).foldl translateSpans spans

/-- Store an answer computed against `text`, current as of edit number `baseSeq`. -/
def set (response : SemanticTokensResponse)
    (text : List Char) (enc : PositionEncoding) (baseSeq : ℕ) : Bool × SemanticTokenStore :=
  if s.refuses key baseSeq then (false, s)
  else
    let staleUris := s.staleUris.filter (· ≠ key.uri)
    let spans := resolveTokens response.tokens text enc
    match s.logs.lookup key.uri with
    | none =>
      (true, { s with
        byKey := s.byKey.insert key ⟨response, spans, baseSeq, 0, false⟩
        staleUris, version := s.version + 1 })
    | some log =>
      if baseSeq < log.droppedBelow then
        (true, { s with
          byKey := s.byKey.insert key ⟨response, [], baseSeq, 0, true⟩
          staleUris, version := s.version + 1 })
      else
        (true, { s with
          byKey := s.byKey.insert key
            ⟨response, carry log baseSeq spans, baseSeq, (log.since baseSeq).length, false⟩
          staleUris
          logs := s.logs.insert key.uri (log.prune baseSeq)
          version := s.version + 1 })

/-- The byte of `text` at a line and a byte column, clamped. -/
def byteAt (text : List Char) (line col : ℕ) : ℕ :=
  let lines := textLines text
  if line < lines.length then min (lineStart lines line + col) (size text) else size text

/-- Whether `a` sorts before `b`: by start, then by end. -/
def tokenLe (a b : PositionedToken) : Bool :=
  decide (a.start < b.start ∨ a.start = b.start ∧ a.stop ≤ b.stop)

/-- Store an answer for the lines of a range only: the tokens outside are kept. -/
def setRange (response : SemanticTokensResponse)
    (text : List Char) (enc : PositionEncoding) (baseSeq : ℕ) (range : (ℕ × ℕ) × (ℕ × ℕ)) :
    Bool × SemanticTokenStore :=
  if s.refuses key baseSeq then (false, s)
  else
    let extentStart := byteAt text range.1.1 range.1.2
    let extentEnd := max (byteAt text range.2.1 range.2.2) extentStart
    let extent : List PositionedToken := [⟨extentStart, max extentEnd (extentStart + 1), 0, 0⟩]
    let fresh := resolveTokens response.tokens text enc
    let (fresh, extent, pending, unalignable) :=
      match s.logs.lookup key.uri with
      | none => (fresh, extent, 0, false)
      | some log =>
        if baseSeq < log.droppedBelow then (fresh, extent, 0, true)
        else (carry log baseSeq fresh, carry log baseSeq extent, (log.since baseSeq).length, false)
    let entry := (s.byKey.lookup key).getD ⟨.default, [], baseSeq, 0, false⟩
    let response' := { entry.response with tokens := response.tokens }
    let entry :=
      if unalignable then ⟨response', [], baseSeq, pending, true⟩
      else
        let (extStart, extEnd) :=
          match extent with
          | [] => (u64Max, u64Max)
          | e :: _ => (e.start, e.stop)
        let kept := entry.spans.filter fun t => decide (t.stop ≤ extStart ∨ t.start ≥ extEnd)
        ⟨response', (kept ++ fresh).mergeSort tokenLe, baseSeq, pending, false⟩
    (true, { s with
      byKey := s.byKey.insert key entry
      staleUris := s.staleUris.filter (· ≠ key.uri)
      version := s.version + 1 })

/-- Drop an entry; when no other server has one for the document, forget its
    edits too. -/
def clear : SemanticTokenStore :=
  let byKey := s.byKey.erase key
  if byKey.keys.any (·.uri = key.uri) then { s with byKey, version := s.version + 1 }
  else
    { byKey
      staleUris := s.staleUris.filter (· ≠ key.uri)
      logs := match s.logs.lookup key.uri with
        | none => s.logs
        | some log => s.logs.insert key.uri { log with edits := [], droppedBelow := log.nextSeq }
      version := s.version + 1 }

def openLog : SemanticTokenStore :=
  match s.logs.lookup uri with
  | none => { s with logs := s.logs.insert uri .default }
  | some _ => s

def recordEdit (edit : DocumentEdit) (inserted : List Char) : SemanticTokenStore :=
  if edit.oldEnd = edit.start ∧ edit.insertedLen = 0 then s
  else
    let log := (s.logs.lookup uri).getD .default
    { s with
      logs := s.logs.insert uri (log.push edit inserted)
      byKey := s.byKey.mapVal fun k e =>
        if k.uri = uri ∧ e.unalignable = false then
          { e with spans := translateSpans e.spans edit, pending := e.pending + 1 }
        else e
      version := s.version + 1 }

def modifyLog (f : EditLog → EditLog) : SemanticTokenStore :=
  match s.logs.lookup uri with
  | none => s
  | some log => { s with logs := s.logs.insert uri (f log) }

def noteCompletionBase (base : ℕ) : SemanticTokenStore :=
  s.modifyLog uri fun log => { log with completionFloor := base }

def noteDiskFloor (seq : ℕ) : SemanticTokenStore :=
  s.modifyLog uri fun log => { log with diskFloor := seq }

/-- Note that the current text has been sent to the server. -/
def noteSynced : SemanticTokenStore :=
  s.modifyLog uri fun log => { log with syncedSeq := log.nextSeq }

/-- The edit number a request sent now is answered against. -/
def syncedSeq (s : SemanticTokenStore) (uri : String) : ℕ :=
  ((s.logs.lookup uri).map (·.syncedSeq)).getD 0

def nextSeq (s : SemanticTokenStore) (uri : String) : ℕ :=
  ((s.logs.lookup uri).map (·.nextSeq)).getD 0

/-- The edits since the text was last sent, with what they inserted; `none` when
    one of them has been forgotten. -/
def unsyncedEdits : Option (List (DocumentEdit × List Char)) :=
  match s.logs.lookup uri with
  | none => none
  | some log => if log.droppedBelow > log.syncedSeq then none else some (log.since log.syncedSeq)

/-- Whether a recorder reports the document's edits. -/
def hasLog : Bool := (s.logs.lookup uri).isSome

def carryEnds : List DocumentEdit → ℕ → ℕ → Option (ℕ × ℕ)
  | [], start, stop => some (start, stop)
  | edit :: edits, start, stop =>
    if edit.deletes start stop then none
    else carryEnds edits (edit.translateStart start) (edit.translateEnd stop)

/-- Carry a range of the text at edit number `base` to the current text. -/
def carryRangeSince (base start stop : ℕ) : CarriedRange :=
  match s.logs.lookup uri with
  | none => .unalignable
  | some log =>
    if log.droppedBelow > base then .unalignable
    else
      match carryEnds ((log.since base).map (·.1)) start stop with
      | none => .deleted
      | some (start, stop) => .placed start (max stop start)

/-- Declare a document's tokens stale, without effect when it has a log. -/
def markStale : SemanticTokenStore :=
  match s.logs.lookup uri with
  | some _ => s
  | none => { s with staleUris := uri :: s.staleUris.filter (· ≠ uri), version := s.version + 1 }

/-- Order key of a server: numeric if the id parses, else after all that do. -/
def serverSortKey (server : String) : ℕ × String :=
  match parseDecimal u64Max server.toList with
  | some n => (n, "")
  | none => (u64Max, server)

def serverLe (a b : String) : Bool :=
  let ka := serverSortKey a
  let kb := serverSortKey b
  decide (ka.1 < kb.1 ∨ ka.1 = kb.1 ∧ ka.2 ≤ kb.2)

def lowerServer (best : Option (String × Entry))
    (e : Sigma fun _ : SemanticTokenKey => Entry) : Option (String × Entry) :=
  if e.1.uri = uri then
    match best with
    | none => some (e.1.server, e.2)
    | some b => if serverLe b.1 e.1.server then best else some (e.1.server, e.2)
  else best

/-- The entry of the lowest server that has one for the document. -/
def entryForUri : Option (String × Entry) :=
  s.byKey.entries.foldl (lowerServer uri) none

def positionedTokens : Option (String × List PositionedToken) :=
  if uri ∈ s.staleUris then none
  else
    match s.entryForUri uri with
    | none => none
    | some (server, entry) => if entry.unalignable then none else some (server, entry.spans)

end SemanticTokenStore

end Pmacs
