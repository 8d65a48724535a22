/-
  The CRDT library under a buffer, loro, as far as crdt.rs and buffer.rs call it.
  It is not part of the repository, so it is a parameter.

  * `TextDelta`, `OpId`, `IdSpan`, `LoroChange` and `LoroError` are its data types;
  * `Loro` has its document and the calls on it, those that change the document
    in `EStateM`: an error leaves a document too.
-/
import Pmacs.Lib.Assoc

namespace Pmacs

open Lib

/-- One part of a text delta, in Unicode scalars. `attributed` says whether it
    carries a map of attributes. -/
inductive TextDelta where
  | retain (n : ℕ) (attributed : Bool)
  | insert (s : List Char) (attributed : Bool)
  | delete (n : ℕ)
deriving DecidableEq, Repr

abbrev PeerId := UInt64

/-- An op: the peer that made it and the peer's count of its ops. -/
structure OpId where
  peer : PeerId
  counter : ℕ
deriving DecidableEq, Repr

/-- The ops of a peer with counters in `[start, stop)`. -/
structure IdSpan where
  peer : PeerId
  start : ℕ
  stop : ℕ
deriving DecidableEq, Repr

def IdSpan.last (s : IdSpan) : OpId := ⟨s.peer, s.stop - 1⟩

abbrev VersionVector := Assoc PeerId ℕ

/-- The count of a peer's ops, `0` when there is none. -/
def VersionVector.count (v : VersionVector) (peer : PeerId) : ℕ := (v.lookup peer).getD 0

/-- A change of the log: consecutive ops of one peer, the first of which depends
    on `deps` and each later one on the one before it. -/
structure LoroChange (Frontiers : Type) where
  id : OpId
  len : ℕ
  lamport : ℕ
  deps : Frontiers

/-- The errors crdt.rs makes itself, and any other of the library's. -/
inductive LoroError (Err : Type) where
  | outOfBound (pos len : ℕ) (info : String)
  | utf8InUnicodeCodePoint (pos : ℕ)
  | undoInvalidIdSpan (id : OpId)
  | other (e : Err)

/-- The library. `Doc` is a document with its text container "body" and its open
    transaction, `Diff` a batch of diffs of its containers. -/
structure Loro where
  Doc : Type
  Frontiers : Type
  Diff : Type
  Err : Type
  EncodeErr : Type
  decFrontiers : DecidableEq Frontiers
  display : LoroError Err → String
  debug : LoroError Err → String
  displayEncode : EncodeErr → String
  /-- A new document with the given peer id. -/
  newDoc : PeerId → Except (LoroError Err) Doc
  peerId : Doc → PeerId
  /-- The body's text, and its length in UTF-8 bytes. -/
  text : Doc → List Char
  lenUtf8 : Doc → ℕ
  /-- `convert_pos` from bytes to Unicode scalars. -/
  convertPos : Doc → ℕ → Option ℕ
  insert : ℕ → List Char → EStateM (LoroError Err) Doc Unit
  delete : ℕ → ℕ → EStateM (LoroError Err) Doc Unit
  applyDelta : List TextDelta → EStateM (LoroError Err) Doc Unit
  /-- `apply_diff`, of containers other than the body. -/
  applyDiff : Diff → EStateM (LoroError Err) Doc Unit
  commit : Doc → Doc
  /-- `commit_with` the origin "undo". -/
  commitWith : Doc → Doc
  /-- The number of ops in the open transaction. -/
  pendingLen : Doc → ℕ
  /-- The version, with the ops of the open transaction. -/
  oplogVv : Doc → VersionVector
  oplogFrontiers : Doc → Frontiers
  vvToFrontiers : Doc → VersionVector → Frontiers
  ofId : OpId → Frontiers
  /-- The change of the log that holds an op; the open transaction's are not in the log. -/
  getChange : Doc → OpId → Option (LoroChange Frontiers)
  exportUpdates : VersionVector → EStateM EncodeErr Doc (List UInt8)
  /-- `import`, with the text deltas of the events it emits for the body. -/
  importUpdates : List UInt8 → EStateM (LoroError Err) Doc (List (List TextDelta))
  diff : Doc → Frontiers → Frontiers → Except (LoroError Err) Diff
  /-- `undo_internal` against a diff, with the inverses its callback is given. -/
  undoInternal : IdSpan → Diff → EStateM (LoroError Err) Doc (List Diff)
  /-- The events emitted between two states of a document, composed. -/
  captured : Doc → Doc → Diff
  /-- `DiffBatch::default`. -/
  emptyDiff : Diff
  /-- Whether the diff of every container is empty. -/
  isEmptyDiff : Diff → Bool
  compose : Diff → Diff → Diff
  transform : Diff → Diff → Bool → Diff
  /-- The diff of the body, and the batch without it when there is more. -/
  bodyDelta : Diff → Option (List TextDelta)
  restDiff : Diff → Option Diff

instance (L : Loro) : DecidableEq L.Frontiers := L.decFrontiers

/-- A computation on a document that may fail. -/
abbrev CrdtM (L : Loro) := EStateM (LoroError L.Err) L.Doc

namespace Loro

variable {L : Loro}

/-- The document a computation leaves, whether it fails or not. -/
def after {ε σ α : Type} (x : EStateM ε σ α) (s : σ) : σ :=
  match x s with
  | .ok _ s' => s'
  | .error _ s' => s'

/-- The documents that calls lead to from `d`, without importing anything. -/
inductive Evolves (L : Loro) (d : L.Doc) : L.Doc → Prop where
  | refl : Evolves L d d
  | insert {d' : L.Doc} (i : ℕ) (s : List Char) :
    Evolves L d d' → Evolves L d (after (L.insert i s) d')
  | delete {d' : L.Doc} (i n : ℕ) : Evolves L d d' → Evolves L d (after (L.delete i n) d')
  | applyDelta {d' : L.Doc} (delta : List TextDelta) :
    Evolves L d d' → Evolves L d (after (L.applyDelta delta) d')
  | applyDiff {d' : L.Doc} (diff : L.Diff) :
    Evolves L d d' → Evolves L d (after (L.applyDiff diff) d')
  | commit {d' : L.Doc} : Evolves L d d' → Evolves L d (L.commit d')
  | commitWith {d' : L.Doc} : Evolves L d d' → Evolves L d (L.commitWith d')
  | exportUpdates {d' : L.Doc} (v : VersionVector) :
    Evolves L d d' → Evolves L d (after (L.exportUpdates v) d')
  | undoInternal {d' : L.Doc} (span : IdSpan) (against : L.Diff) :
    Evolves L d d' → Evolves L d (after (L.undoInternal span against) d')

theorem Evolves.trans {d d' d'' : L.Doc} (h : Evolves L d d') (h' : Evolves L d' d'') :
    Evolves L d d'' := by
  induction h' with
  | refl => exact h
  | insert i s _ ih => exact .insert i s ih
  | delete i n _ ih => exact .delete i n ih
  | applyDelta delta _ ih => exact .applyDelta delta ih
  | applyDiff diff _ ih => exact .applyDiff diff ih
  | commit _ ih => exact .commit ih
  | commitWith _ ih => exact .commitWith ih
  | exportUpdates v _ ih => exact .exportUpdates v ih
  | undoInternal span against _ ih => exact .undoInternal span against ih

end Loro

end Pmacs
