/-
  Diagnostics and their store (diag.rs), and how a publish is absorbed (lsp.rs).

  * `Diagnostic.fromLspValue` reads a server's object; `Diagnostic.placed` places it in
    the bytes of the text it was computed for and carries it to the current text;
  * `DiagnosticStore.set` replaces what is held for a document, `translateEdit` carries
    it across an edit and drops what the edit deleted.
-/
import Pmacs.Lsp.SemanticTokens

namespace Pmacs

open Lib

/-! ## Diagnostics -/

inductive DiagnosticSeverity where
  | error
  | warning
  | information
  | hint
deriving DecidableEq, Repr

def DiagnosticSeverity.fromLspValue : Option ℤ → DiagnosticSeverity
  | some 1 => .error
  | some 2 => .warning
  | some 3 => .information
  | _ => .hint

structure Diagnostic where
  startLine : ℕ
  startCol : ℕ
  endLine : ℕ
  endCol : ℕ
  severity : DiagnosticSeverity
  message : String
  source : Option String
  code : Option String
  span : Option (ℕ × ℕ)
deriving DecidableEq, Repr

/-- The fields of a server's object: a range of two positions, the other fields as far
    as they have the type that is asked for. -/
structure LspDiagnostic where
  range : Option ((ℕ × ℕ) × (ℕ × ℕ))
  message : Option String
  severity : Option ℤ
  source : Option String
  code : Option String
deriving DecidableEq, Repr

variable (s : DiagnosticStore) (d : Diagnostic)

namespace Diagnostic

/-- `as u32`. -/
def asU32 (n : ℕ) : ℕ := n % 2 ^ 32

/-- Read a server's object; none without a range or a message. -/
def fromLspValue (v : LspDiagnostic) : Option Diagnostic :=
  match v.range, v.message with
  | some (first, last), some message =>
    some
      { startLine := asU32 first.1, startCol := asU32 first.2
        endLine := asU32 last.1, endCol := asU32 last.2
        severity := .fromLspValue v.severity, message, source := v.source, code := v.code
        span := none }
  | _, _ => none

def positionLe (a b : Diagnostic) : Bool :=
  decide (a.startLine < b.startLine ∨ a.startLine = b.startLine ∧ a.startCol ≤ b.startCol)

/-- The order of spans; none is the least. -/
def spanLe (a b : Diagnostic) : Bool :=
  match a.span, b.span with
  | none, _ => true
  | some _, none => false
  | some p, some q => decide (p.1 < q.1 ∨ p.1 = q.1 ∧ p.2 ≤ q.2)

def translate (edit : DocumentEdit) : Diagnostic :=
  match d.span with
  | none => d
  | some (lo, hi) =>
    { d with span := some (edit.translateStart lo,
        max (edit.translateEnd hi) (edit.translateStart lo)) }

def deletedBy (edit : DocumentEdit) : Bool :=
  d.span.any fun span => edit.deletes span.1 span.2

end Diagnostic

/-! ## The store -/

structure SeverityCounts where
  error : ℕ
  warning : ℕ
  information : ℕ
  hint : ℕ
deriving DecidableEq, Repr

def SeverityCounts.zero : SeverityCounts := ⟨0, 0, 0, 0⟩

def SeverityCounts.bump (c : SeverityCounts) : DiagnosticSeverity → SeverityCounts
  | .error => { c with error := saturatingAdd32 c.error 1 }
  | .warning => { c with warning := saturatingAdd32 c.warning 1 }
  | .information => { c with information := saturatingAdd32 c.information 1 }
  | .hint => { c with hint := saturatingAdd32 c.hint 1 }

variable (uri : String) (diags : List Diagnostic)

def countSeverities : SeverityCounts :=
  diags.foldl (fun counts d => counts.bump d.severity) .zero

structure DiagnosticStore where
  byUri : Assoc String (List Diagnostic)
  severityCounts : Assoc String SeverityCounts
  staleUris : List String
  epochs : Assoc String ℕ
  loggedUris : List String

namespace DiagnosticStore

def new : DiagnosticStore := ⟨∅, ∅, [], ∅, []⟩

def bumpEpoch : DiagnosticStore :=
  { s with epochs := s.epochs.insert uri ((s.epochs.lookup uri).getD 0 + 1) }

def hold : DiagnosticStore :=
  if diags.isEmpty then
    { s with byUri := s.byUri.erase uri, severityCounts := s.severityCounts.erase uri }
  else
    { s with
      byUri := s.byUri.insert uri diags
      severityCounts := s.severityCounts.insert uri (countSeverities diags) }

def set : DiagnosticStore :=
  let diags :=
    if diags.all (·.span.isSome) then diags.mergeSort Diagnostic.spanLe
    else diags.mergeSort Diagnostic.positionLe
  ({ s with staleUris := s.staleUris.filter (· ≠ uri) }.bumpEpoch uri).hold uri diags

def clear : DiagnosticStore :=
  bumpEpoch { s with
    byUri := s.byUri.erase uri
    severityCounts := s.severityCounts.erase uri
    staleUris := s.staleUris.filter (· ≠ uri) } uri

def forget : DiagnosticStore :=
  { s with
    byUri := s.byUri.erase uri
    severityCounts := s.severityCounts.erase uri
    staleUris := s.staleUris.filter (· ≠ uri)
    epochs := s.epochs.erase uri }

/-- Mark a document's diagnostics as stale, unless they are carried across its edits. -/
def markStale : DiagnosticStore :=
  if uri ∈ s.loggedUris then s
  else { s with staleUris := uri :: s.staleUris.filter (· ≠ uri) }

/-- From now on the document's edits are reported. -/
def noteLogged : DiagnosticStore :=
  { s with
    staleUris := s.staleUris.filter (· ≠ uri)
    loggedUris := uri :: s.loggedUris.filter (· ≠ uri) }

/-- Carry every span held for a document across an edit; what the edit deletes whole is
    dropped, and counted again when something is. -/
def translateEdit (edit : DocumentEdit) : DiagnosticStore :=
  if edit.oldEnd = edit.start ∧ edit.insertedLen = 0 then s
  else
    match s.byUri.lookup uri with
    | none => s
    | some held =>
      let kept := (held.filter fun d => !d.deletedBy edit).map (·.translate edit)
      if kept.length = held.length then { s with byUri := s.byUri.insert uri kept }
      else (s.hold uri kept).bumpEpoch uri

def forUri : List Diagnostic := (s.byUri.lookup uri).getD []

def severityCountsFor : SeverityCounts :=
  (s.severityCounts.lookup uri).getD .zero

end DiagnosticStore

/-! ## Absorbing a publish -/

/-- What a server's client knows of the document that a publish is about. -/
structure PublishContext where
  enc : PositionEncoding
  checkSources : List String
  synced : Option (List Char)
  disk : Option (List Char × ℕ)

/-- The text a diagnostic was computed for, and its edit number: the file on disk for a
    check source, the text last sent else. -/
def PublishContext.anchor (ctx : PublishContext) (syncedSeq : ℕ) (d : Diagnostic) :
    Option (List Char × ℕ) :=
  match d.source.any fun source => decide (source ∈ ctx.checkSources), ctx.disk, ctx.synced with
  | true, some (text, seq), _ => some (text, seq)
  | _, _, some text => some (text, syncedSeq)
  | _, _, none => none

namespace Diagnostic

/-- The column of a byte in its line; the published one where there is no such line. -/
def byteColumn (lines : List (List Char)) (line : ℕ) (byte : Option ℕ) (column : ℕ) : ℕ :=
  match byte with
  | none => column
  | some byte => if line < lines.length then asU32 (byte - lineStart lines line) else column

def inBytes (text : List Char) (enc : PositionEncoding) : Diagnostic :=
  let lines := textLines text
  { d with
    startCol := byteColumn lines d.startLine (positionToByte text d.startLine d.startCol enc)
      d.startCol
    endCol := byteColumn lines d.endLine (positionToByte text d.endLine d.endCol enc) d.endCol }

def rangeIn (text : List Char) (enc : PositionEncoding) : Option (ℕ × ℕ) :=
  match positionToByte text d.startLine d.startCol enc,
    positionToByte text d.endLine d.endCol enc with
  | some lo, some hi => some (lo, hi)
  | _, _ => none

/-- Place a diagnostic in the current text; none when the text it names was deleted. -/
def placed (store : SemanticTokenStore) (uri : String) (ctx : PublishContext) (d : Diagnostic) :
    Option Diagnostic :=
  match ctx.anchor (store.syncedSeq uri) d with
  | none => some d
  | some (text, base) =>
    match store.hasLog uri, d.rangeIn text ctx.enc with
    | true, some (lo, hi) =>
      match store.carryRangeSince uri base lo hi with
      | .placed lo hi => some { d.inBytes text ctx.enc with span := some (lo, hi) }
      | .deleted => none
      | .unalignable => some { d.inBytes text ctx.enc with span := none }
    | _, _ => some (d.inBytes text ctx.enc)

end Diagnostic

def absorbPublishDiagnostics (store : SemanticTokenStore) (ctx : PublishContext)
    (s : DiagnosticStore) (uri : String) (published : List LspDiagnostic) : DiagnosticStore :=
  s.set uri (published.filterMap fun raw =>
    (Diagnostic.fromLspValue raw).bind fun d => d.placed store uri ctx)

end Pmacs
