/-
  A library for one peer: a text, and the texts after its calls. It imports nothing
  and undoes what nothing has changed since, which is all that the runs on fixed
  inputs need of the library.
-/
import Pmacs.Crdt.State
import Pmacs.Lib.Splice

namespace Pmacs

open Lib

namespace Plain

/-- A document: its peer, the ops of its calls (how many each added, and the text then),
    the newest first, and how many of them are in the open transaction. -/
structure Doc where
  peer : PeerId
  log : List (ℕ × List Char)
  pending : ℕ
deriving DecidableEq

def total (log : List (ℕ × List Char)) : ℕ := (log.map Prod.fst).sum

variable (d : Doc)

def Doc.count : ℕ := total d.log

def Doc.text : List Char :=
  match d.log with
  | [] => []
  | e :: _ => e.2

def refuse {α : Type} : EStateM (LoroError Unit) Doc α := fun d => .error (.other ()) d

/-- Add `k` ops, which leave the text `text`. -/
def Doc.record (k : ℕ) (text : List Char) : Doc :=
  match k with
  | 0 => d
  | k + 1 => ⟨d.peer, (k + 1, text) :: d.log, d.pending + (k + 1)⟩

def insert (i : ℕ) (s : List Char) : EStateM (LoroError Unit) Doc Unit := fun d =>
  if i ≤ d.text.length then .ok () (d.record s.length (splice d.text i i s)) else refuse d

def delete (i n : ℕ) : EStateM (LoroError Unit) Doc Unit := fun d =>
  if n = 0 then .ok () d
  else if i + n ≤ d.text.length then .ok () (d.record n (splice d.text i (i + n) []))
  else refuse d

def commit : Doc := { d with pending := 0 }

def textAt (n : ℕ) : List (ℕ × List Char) → Option (List Char)
  | [] => if n = 0 then some [] else none
  | (k, text) :: log => if n = total log + k then some text else textAt n log

/-- The change that holds the op with counter `i`: what one call added. -/
def changeAt (peer : PeerId) (i : ℕ) : List (ℕ × List Char) → Option (LoroChange ℕ)
  | [] => none
  | (k, _) :: log =>
    if total log ≤ i then
      if i < total log + k then some ⟨⟨peer, total log⟩, k, total log, total log⟩ else none
    else changeAt peer i log

def Doc.getChange (id : OpId) : Option (LoroChange ℕ) :=
  if id.peer = d.peer ∧ id.counter < d.count - d.pending then changeAt d.peer id.counter d.log
  else none

/-- The delta between two texts: none when they are equal. -/
def delta (old new : List Char) : List TextDelta :=
  if old = new then [] else [.delete old.length, .insert new false]

def diff (a b : ℕ) : Except (LoroError Unit) (List TextDelta) :=
  match textAt a d.log, textAt b d.log with
  | some old, some new => .ok (delta old new)
  | _, _ => .error (.other ())

end Plain

def Loro.plain : Loro where
  Doc := Plain.Doc
  Frontiers := ℕ
  Diff := List TextDelta
  Err := Unit
  EncodeErr := Unit
  decFrontiers := inferInstance
  display _ := ""
  debug _ := ""
  displayEncode _ := ""
  newDoc peer := .ok ⟨peer, [], 0⟩
  peerId := Plain.Doc.peer
  text := Plain.Doc.text
  lenUtf8 d := (Utf8.encode d.text).length
  convertPos d pos := Utf8.unicodeAtByte d.text pos
  insert := Plain.insert
  delete := Plain.delete
  applyDelta _ := Plain.refuse
  applyDiff _ := Plain.refuse
  commit := Plain.commit
  commitWith := Plain.commit
  pendingLen := Plain.Doc.pending
  oplogVv d := if d.count = 0 then ∅ else AList.singleton d.peer d.count
  oplogFrontiers := Plain.Doc.count
  vvToFrontiers d v := v.count d.peer
  ofId id := id.counter + 1
  getChange := Plain.Doc.getChange
  exportUpdates _ d := .ok [] (Plain.commit d)
  importUpdates _ := Plain.refuse
  diff := Plain.diff
  undoInternal _ _ := Plain.refuse
  captured d d' := Plain.delta d.text d'.text
  emptyDiff := []
  isEmptyDiff := List.isEmpty
  compose x y := if x.isEmpty then y else if y.isEmpty then x else x ++ y
  transform x _ _ := x
  bodyDelta x := if x.isEmpty then none else some x
  restDiff _ := none

end Pmacs
