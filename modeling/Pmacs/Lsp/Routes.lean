/-
  Where a server's answers go (lsp.rs): the result stores and the routes into them.

  * `ResultStores` are the stores; those that only keep the last answer for a key are
    one map, whose key names the store;
  * `ResponseRoute` is where the answer to a request goes, `scopedUri` the document it
    is about;
  * `ResultStores.absorbRoutedResponse` is one answer, `forgetUri` what is dropped with a
    document.
-/
import Pmacs.Lsp.Answers

namespace Pmacs

open Lib

/-! ## Stores -/

/-- Which of the navigation requests. -/
inductive LocationKind where
  | references
  | declaration
  | typeDefinition
  | implementation
deriving DecidableEq, Repr

def LocationKind.method : LocationKind → String
  | .references => "textDocument/references"
  | .declaration => "textDocument/declaration"
  | .typeDefinition => "textDocument/typeDefinition"
  | .implementation => "textDocument/implementation"

/-- A store that keeps the last answer for each key; locations are keyed by their kind
    too, symbols by what they are the symbols of. -/
inductive ResultFamily where
  | completion
  | hover
  | signature
  | definition
  | locations (kind : LocationKind)
  | documentSymbol
  | workspaceSymbol
  | documentHighlight
  | formatting
  | rename
  | prepareRename
  | codeAction
deriving DecidableEq, Repr

/-- The stores that hold answers about a document. -/
def documentFamilies : List ResultFamily :=
  [.completion, .hover, .signature, .definition, .locations .references,
    .locations .declaration, .locations .typeDefinition, .locations .implementation,
    .documentSymbol, .documentHighlight, .formatting, .rename, .prepareRename, .codeAction]

/-- Only the answers to workspace queries are not about a document. -/
theorem mem_documentFamilies (family : ResultFamily) :
    family ∈ documentFamilies ↔ family ≠ .workspaceSymbol := by
  cases family with
  | locations kind => cases kind <;> simp [documentFamilies]
  | _ => simp [documentFamilies]

/-- The key of an answer: its store, a server's id in decimal, and a document or, for
    workspace symbols, a query. -/
structure ResultKey where
  family : ResultFamily
  server : String
  uri : String
deriving DecidableEq, Repr

/-- The stores. `readsEmpty` says of which answers a store keeps nothing: no completion
    items, no hover text, no signatures. -/
structure ResultStores where
  diagnostics : DiagnosticStore
  tokens : SemanticTokenStore
  inlayHints : InlayHintStore
  results : Assoc ResultKey Value
  readsEmpty : ResultFamily → Value → Bool

variable (s : ResultStores)

namespace ResultStores

def new (readsEmpty : ResultFamily → Value → Bool) : ResultStores :=
  ⟨.new, .new, .new, ∅, readsEmpty⟩

/-- Keep an answer, or drop the last one for an answer that holds nothing. -/
def setResult (key : ResultKey) (answer : Value) : ResultStores :=
  if s.readsEmpty key.family answer then { s with results := s.results.erase key }
  else { s with results := s.results.insert key answer }

end ResultStores

/-! ## Routes -/

/-- Where the answer to a request goes. Some carry the text the server answers for and
    its edit number. -/
inductive ResponseRoute where
  | completion (uri : String) (anchor : List Char) (baseSeq : ℕ)
  | hover (uri : String)
  | signature (uri : String)
  | definition (uri : String)
  | formatting (uri : String)
  | rename (uri : String)
  | prepareRename (uri : String)
  | codeAction (uri : String)
  | inlayHint (uri : String) (anchor : List Char) (baseSeq : ℕ)
  | semanticTokens (uri : String) (anchor : List Char) (baseSeq : ℕ)
      (lines : Option ((ℕ × ℕ) × (ℕ × ℕ)))
  | semanticTokensDelta (uri : String) (anchor : List Char) (baseSeq : ℕ)
  | locations (uri : String) (kind : LocationKind)
  | documentSymbol (uri : String)
  | workspaceSymbol (query : String)
  | documentHighlight (uri : String)

namespace ResponseRoute

/-- The document a route is about; a workspace query is about none. -/
def scopedUri : ResponseRoute → Option String
  | .completion uri _ _ | .hover uri | .signature uri | .definition uri | .formatting uri
  | .rename uri | .prepareRename uri | .codeAction uri | .inlayHint uri _ _
  | .semanticTokens uri _ _ _ | .semanticTokensDelta uri _ _ | .locations uri _
  | .documentSymbol uri | .documentHighlight uri => some uri
  | .workspaceSymbol _ => none

/-- The document to convert an answer's positions against. -/
def uri (route : ResponseRoute) : String := route.scopedUri.getD ""

end ResponseRoute

/-! ## Absorbing an answer -/

/-- What the manager knows of the server that answers: its key, how it counts columns,
    and the text it holds of the route's document. -/
structure AnswerContext where
  server : String
  enc : PositionEncoding
  held : Option (List Char)

/-- An answer with its positions in bytes of the text the server holds. -/
def AnswerContext.inboundConverted (ctx : AnswerContext) (result : Value) : Value :=
  match ctx.held with
  | none => result
  | some doc => result.rewritePositionsToBytes doc ctx.enc

namespace ResultStores

def rawAt (key : SemanticTokenKey) : List ℕ :=
  ((s.tokens.byKey.lookup key).map (·.response.raw)).getD []

def absorbRoutedResponse (ctx : AnswerContext) (route : ResponseRoute)
    (raw : Value) : ResultStores :=
  let result := ctx.inboundConverted raw
  let keep (family : ResultFamily) (uri : String) := s.setResult ⟨family, ctx.server, uri⟩ result
  match route with
  | .completion uri _ baseSeq =>
    { keep .completion uri with tokens := s.tokens.noteCompletionBase uri baseSeq }
  | .hover uri => keep .hover uri
  | .signature uri => keep .signature uri
  | .definition uri => keep .definition uri
  | .locations uri kind => keep (.locations kind) uri
  | .documentSymbol uri => keep .documentSymbol uri
  | .workspaceSymbol query => keep .workspaceSymbol query
  | .documentHighlight uri => keep .documentHighlight uri
  | .formatting uri => keep .formatting uri
  | .rename uri => keep .rename uri
  | .prepareRename uri => keep .prepareRename uri
  | .codeAction uri => keep .codeAction uri
  | .inlayHint uri anchor baseSeq =>
    -- positions are read against the text the request was sent for, not the one held now
    let hints := (InlayHint.fromLspValue raw).filterMap
      (InlayHint.placed s.tokens uri anchor baseSeq ctx.enc)
    { s with inlayHints := s.inlayHints.set ⟨ctx.server, uri⟩ hints }
  | .semanticTokens uri anchor baseSeq lines =>
    let resp := SemanticTokensResponse.fromLspValue result
    { s with tokens :=
        match lines with
        | some lines => (s.tokens.setRange ⟨ctx.server, uri⟩ resp anchor ctx.enc baseSeq lines).2
        | none => (s.tokens.set ⟨ctx.server, uri⟩ resp anchor ctx.enc baseSeq).2 }
  | .semanticTokensDelta uri anchor baseSeq =>
    -- spliced onto whatever the store holds when the answer lands
    let resp := SemanticTokensResponse.applyDelta (s.rawAt ⟨ctx.server, uri⟩) result
    { s with tokens := (s.tokens.set ⟨ctx.server, uri⟩ resp anchor ctx.enc baseSeq).2 }

def markDocumentStale (uri : String) : ResultStores :=
  { s with
    diagnostics := s.diagnostics.markStale uri
    tokens := s.tokens.markStale uri
    inlayHints := s.inlayHints.markStale uri }

def recordEdit (s : ResultStores) (uri : String) (edit : DocumentEdit) (inserted : List Char) :
    ResultStores :=
  { s with
    tokens := s.tokens.recordEdit uri edit inserted
    diagnostics := s.diagnostics.translateEdit uri edit
    inlayHints := s.inlayHints.translateEdit uri edit }

/-- Drop every answer of a server for a document; a workspace query is kept. -/
def forgetUri (server uri : String) : ResultStores :=
  { s with
    diagnostics := s.diagnostics.forget uri
    results := documentFamilies.foldl (fun results family => results.erase ⟨family, server, uri⟩)
      s.results
    inlayHints := s.inlayHints.clear ⟨server, uri⟩
    tokens := s.tokens.clear ⟨server, uri⟩ }

end ResultStores

end Pmacs
