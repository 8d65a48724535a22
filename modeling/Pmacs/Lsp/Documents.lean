/-
  The documents the language servers are told of (lsp.rs).

  * `didOpen`, `didChangeFull` and `didChangeIncremental` hand a server a document's text
    or its edits, `didSave` and `didClose` the rest of its life;
  * `rangedChanges` turns the edits since the text was last sent into ranges, each in the
    text as the one before left it;
  * `markDocumentStale` and `recordEdit` are what the editor reports of a document.
-/
import Pmacs.Lib.BytePos
import Pmacs.Lsp.Inbound

namespace Pmacs

open Lib Utf8

/-! ## Ranged changes -/

/-- The number of characters before a byte offset, where a character starts there. -/
def charIndex (text : List Char) (byte : ℕ) : Option ℕ :=
  (unicodeAtByte text byte).filter fun i => byteAt text i = byte

def positionValue (position : ℕ × ℕ) : Value :=
  .object [("line", .nat position.1), ("character", .nat position.2)]

/-- One edit as a ranged change of `mirror`, and the text after it; none where the edit
    does not fall on characters of the text. -/
def rangedChange (mirror : List Char) (enc : PositionEncoding) (edit : DocumentEdit)
    (inserted : List Char) : Option (Value × List Char) :=
  match charIndex mirror edit.start, charIndex mirror edit.oldEnd with
  | some i, some j =>
    if edit.start ≤ edit.oldEnd then
      some (.object
        [("range", .object
          [("start", positionValue (positionBetween (mirror.take i) (mirror.drop i) enc)),
            ("end", positionValue (positionBetween (mirror.take j) (mirror.drop j) enc))]),
          ("text", .text inserted)],
        splice mirror i j inserted)
    else none
  | _, _ => none

/-- Edits as ranged changes, each of the text the one before left, and the text after
    them. -/
def rangedChanges (mirror : List Char) (enc : PositionEncoding) :
    List (DocumentEdit × List Char) → Option (List Value × List Char)
  | [] => some ([], mirror)
  | (edit, inserted) :: edits =>
    match rangedChange mirror enc edit inserted with
    | none => none
    | some (change, mirror) =>
      (rangedChanges mirror enc edits).map fun rest => (change :: rest.1, rest.2)

namespace LspManager

/-! ## Notes to the stores -/

variable (m : LspManager) (sid : LspServerId) (uri : String)

/-- The document's current text has been handed to a server. -/
def noteDocumentSynced : LspManager :=
  { m with stores := { m.stores with tokens := m.stores.tokens.noteSynced uri } }

/-- What is painted for a document is stale, unless the document was forgotten. -/
def markDocumentStale (m : LspManager) (sid : LspServerId) (uri : String) : LspManager :=
  if (sid, uri) ∈ m.forgottenDocuments then m
  else { m with stores := m.stores.markDocumentStale uri }

/-- `text` is the file's from now on. -/
def noteDiskAnchor (text : List Char) : LspManager :=
  let seq := m.stores.tokens.nextSeq uri
  { m with
    stores := { m.stores with tokens := m.stores.tokens.noteDiskFloor uri seq }
    diskDocuments := m.diskDocuments.insert (sid, uri) (text, seq) }

/-- The editor's text is not the file's. -/
def documentOffDisk : LspManager :=
  { m with
    diskDocuments := m.diskDocuments.erase (sid, uri)
    stores := { m.stores with tokens := m.stores.tokens.noteDiskFloor uri u64Max } }

def recordEdit (m : LspManager) (uri : String) (edit : DocumentEdit) (inserted : List Char) :
    LspManager :=
  { m with stores := m.stores.recordEdit uri edit inserted }

/-- From now on the document's edits are reported. -/
def noteRecorder : LspManager :=
  { m with stores := { m.stores with
      tokens := m.stores.tokens.openLog uri
      diagnostics := m.stores.diagnostics.noteLogged uri
      inlayHints := m.stores.inlayHints.noteLogged uri } }

/-! ## What a server is told -/

def openParams (languageId uri : String) (version : ℤ) (text : List Char) : Value :=
  .object [("textDocument", .object [("uri", .string uri), ("languageId", .string languageId),
    ("version", .int version), ("text", .text text)])]

def changeParams (version : ℤ) (changes : List Value) : Value :=
  .object [("textDocument", .object [("uri", .string uri), ("version", .int version)]),
    ("contentChanges", .array changes)]

def closeParams : Value :=
  .object [("textDocument", .object [("uri", .string uri)])]

def didOpen (m : LspManager) (sid : LspServerId) (uri : String) (version : ℤ)
    (text : List Char) : Except String Unit × LspManager :=
  match m.clients.lookup sid with
  | none => (.error (unknownServer sid), m)
  | some client =>
    let m := { m with
      forgottenDocuments := m.forgottenDocuments.filter (· ≠ (sid, uri))
      documents := m.documents.insert (sid, uri) text }
    ((m.noteDocumentSynced uri).noteDiskAnchor sid uri text).sendNotification sid
      "textDocument/didOpen" (openParams client.spec.languageId uri version text)

def didChangeFull (version : ℤ) (text : List Char) : Except String Unit × LspManager :=
  let m := { m with documents := m.documents.insert (sid, uri) text }
  ((m.noteDocumentSynced uri).markDocumentStale sid uri).sendNotification sid
    "textDocument/didChange" (changeParams uri version [.object [("text", .text text)]])

def capabilities (m : LspManager) (sid : LspServerId) : Option Value :=
  (m.clients.lookup sid).bind (·.capabilities)

def incrementalSyncSupported : Bool :=
  (m.capabilities sid).any wantsIncrementalSync

/-- Hand a server the edits of a document since its text was last sent. False, with nothing
    sent, where the whole text must go instead. -/
def didChangeIncremental (version : ℤ) (bufferLen : ℕ) : Except String Bool × LspManager :=
  if m.incrementalSyncSupported sid then
    match m.documents.lookup (sid, uri), m.stores.tokens.unsyncedEdits uri with
    | some held, some edits =>
      if edits.isEmpty then (.ok (size held = bufferLen), m)
      else
        match rangedChanges held (m.positionEncoding sid) edits with
        | none => (.ok false, m)
        | some (changes, mirror) =>
          if size mirror = bufferLen then
            let m := { m with documents := m.documents.insert (sid, uri) mirror }
            let sent := ((m.noteDocumentSynced uri).markDocumentStale sid uri).sendNotification sid
              "textDocument/didChange" (changeParams uri version changes)
            (sent.1.map fun _ => true, sent.2)
          else (.ok false, m)
    | _, _ => (.ok false, m)
  else (.ok false, m)

/-- Tell a server of a save, if it asked for it; false where it did not. -/
def didSave (m : LspManager) (sid : LspServerId) (uri : String) (text : List Char) :
    Except String Bool × LspManager :=
  let m := m.noteDiskAnchor sid uri text
  match (m.capabilities sid).bind saveIncludeText with
  | none => (.ok false, m)
  | some includeText =>
    let extra := if includeText then [("text", .text text)] else []
    let sent := m.sendNotification sid "textDocument/didSave"
      (.object (("textDocument", .object [("uri", .string uri)]) :: extra))
    (sent.1.map fun _ => true, sent.2)

/-- Tell a server of a save again, with the text on disk. -/
def resendDidSave : Except String Bool × LspManager :=
  match (m.capabilities sid).bind saveIncludeText, m.diskDocuments.lookup (sid, uri) with
  | some includeText, some (text, _) =>
    let extra := if includeText then [("text", .text text)] else []
    let sent := m.sendNotification sid "textDocument/didSave"
      (.object (("textDocument", .object [("uri", .string uri)]) :: extra))
    (sent.1.map fun _ => true, sent.2)
  | _, _ => (.ok false, m)

def didClose (m : LspManager) (sid : LspServerId) (uri : String) :
    Except String Unit × LspManager :=
  let m := { m with
    documents := m.documents.erase (sid, uri)
    diskDocuments := m.diskDocuments.erase (sid, uri) }
  m.sendNotification sid "textDocument/didClose" (closeParams uri)

end LspManager

end Pmacs
