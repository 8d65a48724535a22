/-
  The parse view of a buffer (syntax.rs): a mirror of the buffer's text, and the edits
  that a parser has to be told.

  * `InputEdit` is an edit as tree-sitter reads it, `replay` what it does to a text, with
    the bytes it inserted;
  * `onEdit` mirrors an edit; `makeRequest` takes the pending edits, `install`,
    `markUnparsed` and `dropCurrent` say what came of a request;
  * `Mirrors` is what the view keeps: the mirror, and pending edits that lead from the
    text of the last request to it.
-/
import Pmacs.Rope.Spec

namespace Pmacs.Parse

open Lib

variable {base text : Bytes} {view : ParseView}

/-! ## Edits as tree-sitter reads them -/

/-- A row and a column of bytes, from zero. -/
structure Point where
  row : ℕ
  column : ℕ
deriving DecidableEq

/-- The row and column of a byte; a byte past the end is the end. -/
def byteToPoint (source : Bytes) (byte : ℕ) : Point :=
  let before := source.take byte
  ⟨before.count 10, (before.reverse.takeWhile (· ≠ 10)).length⟩

structure InputEdit where
  startByte : ℕ
  oldEndByte : ℕ
  newEndByte : ℕ
  startPosition : Point
  oldEndPosition : Point
  newEndPosition : Point
deriving DecidableEq

/-- Replay an edit that inserted `inserted`: the text after it, if the edit's ends and
    points are those of the text before and after. -/
def replay (text : Bytes) (edit : InputEdit × Bytes) : Option Bytes :=
  let (e, inserted) := edit
  let after := splice text e.startByte e.oldEndByte inserted
  if e.startByte ≤ e.oldEndByte ∧ e.oldEndByte ≤ text.length ∧
      e.newEndByte = e.startByte + inserted.length ∧
      e.startPosition = byteToPoint text e.startByte ∧
      e.oldEndPosition = byteToPoint text e.oldEndByte ∧
      e.newEndPosition = byteToPoint after e.newEndByte
  then some after else none

def replayAll (text : Bytes) (edits : List (InputEdit × Bytes)) : Option Bytes :=
  edits.foldlM replay text

variable {es : List (InputEdit × Bytes)}

theorem replayAll_append {text : Bytes} (fs : List (InputEdit × Bytes)) :
    replayAll text (es ++ fs) = (replayAll text es).bind fun mid => replayAll mid fs :=
  List.foldlM_append

theorem replayAll_cons {text : Bytes} (e : InputEdit × Bytes) :
    replayAll text (e :: es) = (replay text e).bind fun mid => replayAll mid es := rfl

/-! ## The view -/

/-- A syntax tree, known by the text it was parsed from. -/
structure Tree where
  text : Bytes
deriving DecidableEq

/-- A settled parse; an isolated one has its tree in a parse unit. -/
structure ParseTreeBundle where
  source : Bytes
  languageName : String
  isolated : Bool
deriving DecidableEq

def ParseTreeBundle.rootTree (bundle : ParseTreeBundle) : Tree := ⟨bundle.source⟩

structure ParseRequest where
  source : Bytes
  languageName : String
  priorTree : Option Tree
  edits : List InputEdit
  injectionAliases : List (String × String)
  deadline : Option ℕ

structure ParseView where
  languageName : String
  source : Bytes
  pending : List InputEdit
  pendingInserted : List Bytes
  current : Option ParseTreeBundle
  coldNext : Bool
  dropped : Bool

namespace ParseView

def new (rope : WfRope) (languageName : String) : ParseView :=
  ⟨languageName, rope.bytes, [], [], none, false, false⟩

def newBytes (edit : Edit WfRope) : Bytes :=
  slice edit.newRope.bytes edit.range.start (edit.range.start + edit.insertedLen)

/-- An edit of the text `old` into the text `new`, as tree-sitter reads it. -/
def inputEdit (edit : Edit WfRope) (old new : Bytes) : InputEdit where
  startByte := edit.range.start
  oldEndByte := edit.range.stop
  newEndByte := edit.range.start + edit.insertedLen
  startPosition := byteToPoint old edit.range.start
  oldEndPosition := byteToPoint old edit.range.stop
  newEndPosition := byteToPoint new (edit.range.start + edit.insertedLen)

def onEdit (view : ParseView) (edit : Edit WfRope) : ParseView :=
  let source := splice view.source edit.range.start edit.range.stop (newBytes edit)
  { view with
    source := source
    pendingInserted := view.pendingInserted ++ [newBytes edit]
    pending := view.pending ++ [inputEdit edit view.source source] }

/-- The tree that a request may start from: none after a request that installed nothing,
    and none that a parse unit holds. -/
def priorTree (view : ParseView) : Option Tree :=
  if view.coldNext then none
  else (view.current.filter fun bundle => !bundle.isolated).map ParseTreeBundle.rootTree

def makeRequest (view : ParseView) : ParseRequest × ParseView :=
  ({  source := view.source
      languageName := view.languageName
      priorTree := view.priorTree
      edits := view.pending
      injectionAliases := []
      deadline := none },
    { view with pending := [], pendingInserted := [] })

/-- A request for a parse unit: with the bytes that each edit inserted. -/
def makeIsolatedRequest (view : ParseView) : (ParseRequest × List Bytes) × ParseView :=
  let inserted := view.pendingInserted
  let (request, view) := { view with pendingInserted := [] }.makeRequest
  ((request, inserted), view)

/-- The last request produced no bundle: the next one parses cold. -/
def markUnparsed (view : ParseView) : ParseView := { view with coldNext := true }

def install (view : ParseView) (bundle : ParseTreeBundle) : ParseView :=
  { view with
    current := some bundle
    coldNext := false
    dropped := false }

/-- Drop the installed parse if an edit has moved its text, or always; whether one was. -/
def dropCurrent (view : ParseView) (always : Bool) : Bool × ParseView :=
  match view.current with
  | none => (false, view)
  | some current =>
    if !always && current.source.isPrefixOf view.source then (false, view)
    else (true, { view with
      current := none
      coldNext := true
      dropped := true })

def pendingEdits (view : ParseView) : List (InputEdit × Bytes) :=
  view.pending.zip view.pendingInserted

/-! ## What the view keeps -/

/-- The view mirrors a text, and its pending edits lead there from `base`, the text of the
    last request. -/
structure Mirrors (view : ParseView) (base text : Bytes) : Prop where
  source : view.source = text
  paired : view.pending.length = view.pendingInserted.length
  replays : replayAll base view.pendingEdits = some text

/-- An edit of a text, exactly described. -/
def Exact (text : Bytes) (edit : Edit WfRope) : Prop :=
  Describes text edit.range.start edit.range.stop edit.insertedLen edit.newRope.bytes

theorem mirrors_new (rope : WfRope) (languageName : String) :
    (new rope languageName).Mirrors rope.bytes rope.bytes := ⟨rfl, rfl, rfl⟩

/-- **An exact edit is mirrored**, and replays. -/
theorem Mirrors.onEdit (h : view.Mirrors base text) {edit : Edit WfRope}
    (hexact : Exact text edit) : (view.onEdit edit).Mirrors base edit.newRope.bytes := by
  have hsplice : splice text edit.range.start edit.range.stop (newBytes edit) =
      edit.newRope.bytes := hexact.splice_eq
  have hnew : (view.onEdit edit).source = edit.newRope.bytes := by rw [← hsplice, ← h.source]; rfl
  refine ⟨hnew, ?_, ?_⟩
  · simp [ParseView.onEdit, h.paired]
  have hzip : (view.onEdit edit).pendingEdits = view.pendingEdits ++
      [(inputEdit edit text edit.newRope.bytes, newBytes edit)] := by
    rw [← hnew, ← h.source]; exact List.zip_append h.paired
  have hlen : (newBytes edit).length = edit.insertedLen := by
    rw [newBytes, length_slice hexact.inserted_le, Nat.add_sub_cancel_left]
  have hreplay : replay text (inputEdit edit text edit.newRope.bytes, newBytes edit) =
      some edit.newRope.bytes := by
    simp only [replay, inputEdit, hsplice, hlen, hexact.start_le, hexact.stop_le, and_self, if_true]
  rw [hzip, replayAll_append, h.replays, Option.bind_some, replayAll_cons, hreplay]; rfl

theorem Mirrors.makeRequest (h : view.Mirrors base text) :
    view.makeRequest.2.Mirrors text text := ⟨h.source, rfl, rfl⟩

theorem Mirrors.install (h : view.Mirrors base text)
    (bundle : ParseTreeBundle) : (view.install bundle).Mirrors base text :=
  ⟨h.source, h.paired, h.replays⟩

theorem Mirrors.markUnparsed (h : view.Mirrors base text) :
    view.markUnparsed.Mirrors base text := ⟨h.source, h.paired, h.replays⟩

/-- What dropping does: nothing, or no tree is left and the next request is cold. -/
theorem dropCurrent_cases (view : ParseView) (always : Bool) :
    (view.dropCurrent always).2 = view ∨ (view.dropCurrent always).2 = { view with
      current := none
      coldNext := true
      dropped := true } := by
  unfold dropCurrent
  split
  · exact .inl rfl
  split
  · exact .inl rfl
  · exact .inr rfl

theorem Mirrors.dropCurrent (h : view.Mirrors base text)
    (always : Bool) : (view.dropCurrent always).2.Mirrors base text := by
  rcases dropCurrent_cases view always with heq | heq
  · rw [heq]; exact h
  · rw [heq]; exact ⟨h.source, h.paired, h.replays⟩

theorem priorTree_eq_some {tree : Tree} (h : view.priorTree = some tree) :
    view.coldNext = false ∧ ∃ bundle, view.current = some bundle ∧ tree.text = bundle.source := by
  unfold priorTree at h
  cases hcold : view.coldNext with
  | true => simp [hcold] at h
  | false =>
    simp only [hcold, Bool.false_eq_true, if_false, Option.map_eq_some_iff] at h
    obtain ⟨bundle, hb, rfl⟩ := h; exact ⟨rfl, bundle, (Option.filter_eq_some_iff.1 hb).1, rfl⟩

end ParseView

end Pmacs.Parse
