/-
  A parse unit (pmacs-parse-unit): one buffer's text mirror and its trees, in a process of
  its own.

  * `WireEdit` is an edit on the wire, its offsets cut to 32 bits;
  * `Unit.updateText` brings the mirror up to date, by the whole text or by edits;
  * `Unit.parse` answers a request; `Verdict` is what the parse itself comes to;
  * `applyWireEdits_replay`: edits that replay are applied to the mirror as they are.
-/
import Pmacs.Parse.View

namespace Pmacs.Parse

open Lib List Option

/-! ## The wire -/

def u32 (n : ℕ) : ℕ := n % 2 ^ 32

structure WireEdit where
  startByte : ℕ
  oldEndByte : ℕ
  newEndByte : ℕ
  start : Point
  oldEnd : Point
  newEnd : Point
deriving DecidableEq

def WireEdit.fromInputEdit (edit : InputEdit) : WireEdit :=
  let point := fun (p : Point) => (⟨u32 p.row, u32 p.column⟩ : Point)
  { startByte := u32 edit.startByte
    oldEndByte := u32 edit.oldEndByte
    newEndByte := u32 edit.newEndByte
    start := point edit.startPosition
    oldEnd := point edit.oldEndPosition
    newEnd := point edit.newEndPosition }

inductive TextUpdate where
  | full
  | edits
deriving DecidableEq

structure ParseCall where
  language : String
  text : TextUpdate
  edits : List WireEdit
  expectLen : ℕ
  aliases : List (String × String)
  deadlineMs : Option ℕ

inductive Failure where
  | desync (have_ want : ℕ)
  | deadline
  | noTree
  | language (message : String)
deriving DecidableEq

inductive ParseError where
  | language (message : String)
  | noTree
  | deadlineExceeded

def ParseError.failure : ParseError → Failure
  | .language message => .language message
  | .noTree => .noTree
  | .deadlineExceeded => .deadline

/-- What a parse comes to: a tree, with the unit's peak memory, or an error. -/
inductive Verdict where
  | tree (peakBytes : ℕ)
  | error (error : ParseError)

/-- A unit's answer to a parse. -/
inductive Response where
  | parsed (generation peakBytes : ℕ)
  | failed (failure : Failure)

/-! ## The unit -/

/-- The two newest trees, each with its generation. -/
structure KeptTrees where
  newest : Option (ℕ × Tree)
  before : Option (ℕ × Tree)

structure Unit where
  source : Bytes
  language : Option String
  coldNext : Bool
  generation : ℕ
  kept : KeptTrees

/-- Apply edits to the mirror, reading what each inserted from the payload at `start`. -/
def applyWireEdits (payload : Bytes) : ℕ → Bytes → List WireEdit → Bool × Bytes
  | _, source, [] => (true, source)
  | start, source, edit :: edits =>
    let n := (edit.newEndByte + 2 ^ 32 - edit.startByte) % 2 ^ 32
    if start + n > payload.length ∨ edit.startByte > edit.oldEndByte ∨
        edit.oldEndByte > source.length then (false, source)
    else applyWireEdits payload (start + n)
      (splice source edit.startByte edit.oldEndByte (slice payload start (start + n))) edits

namespace Unit

def new : Unit := ⟨[], none, false, 0, ⟨none, none⟩⟩

/-- Bring the mirror up to date; the failure when the text's length is not the one the
    editor expects. -/
def updateText (unit : Unit) (call : ParseCall) (payload : Bytes) : Option Failure × Unit :=
  match call.text with
  | .full =>
    (if payload.length = call.expectLen then none
      else some (.desync (u32 payload.length) call.expectLen),
      { unit with source := payload, coldNext := true })
  | .edits =>
    let (applied, source) := applyWireEdits payload 0 unit.source call.edits
    (if applied ∧ source.length = call.expectLen then none
      else some (.desync (u32 source.length) call.expectLen), { unit with source := source })

def install (unit : Unit) : Unit :=
  { unit with
    coldNext := false
    generation := unit.generation + 1
    kept := ⟨some (unit.generation + 1, ⟨unit.source⟩), unit.kept.newest⟩ }

/-- Answer a parse request; `known` are the languages built in. -/
def parse (known : String → Bool) (unit : Unit) (call : ParseCall) (payload : Bytes)
    (verdict : Verdict) : Response × Unit :=
  match unit.updateText call payload with
  | (some failure, unit) => (.failed failure, { unit with coldNext := true })
  | (none, unit) =>
    if unit.language ≠ some call.language ∧ known call.language = false then
      (.failed (.language ("unknown language " ++ call.language)), unit)
    else
      let unit := if unit.language = some call.language then unit
        else { unit with language := some call.language, coldNext := true }
      match verdict with
      | .error error => (.failed error.failure, { unit with coldNext := true })
      | .tree peakBytes => (.parsed (unit.generation + 1) peakBytes, unit.install)

variable {unit : Unit} {payload : Bytes}

theorem source_parse (known : String → Bool) (call : ParseCall)
    (verdict : Verdict) : (unit.parse known call payload verdict).2.source =
      (unit.updateText call payload).2.source := by
  unfold parse
  split
  next failure unit' h => rw [h]
  rename_i unit' h
  rw [h]
  split
  · rfl
  by_cases hl : unit'.language = some call.language
  · cases verdict <;> simp [hl, install]
  · cases verdict <;> simp [hl, install]

/-- An answer other than a desync says that the update went through. -/
theorem updateText_of_parse {known : String → Bool} {call : ParseCall} {verdict : Verdict}
    (h : ∀ have_ want, (unit.parse known call payload verdict).1 ≠ .failed (.desync have_ want)) :
    (unit.updateText call payload).1 = none := by
  cases hupdate : (unit.updateText call payload).1 with
  | none => rfl
  | some failure =>
    have hdesync : ∃ have_ want, failure = .desync have_ want := by
      unfold updateText at hupdate
      split at hupdate
      · split at hupdate
        · cases hupdate
        · exact ⟨_, _, (some.inj hupdate).symm⟩
      simp only at hupdate
      split at hupdate
      · cases hupdate
      · exact ⟨_, _, (some.inj hupdate).symm⟩
    obtain ⟨have_, want, rfl⟩ := hdesync
    have hanswer : (unit.parse known call payload verdict).1 = .failed (.desync have_ want) := by
      unfold parse
      split
      next failure unit' heq => rw [heq] at hupdate; rw [← some.inj hupdate]
      next unit' heq => rw [heq] at hupdate; cases hupdate
    exact absurd hanswer (h have_ want)

/-! ## Mirrors -/

theorem updateText_full {call : ParseCall} (hfull : call.text = .full) :
    (unit.updateText call payload).2.source = payload := by
  unfold updateText
  rw [hfull]

/-- **Edits that replay are applied as they are**, when no offset passes 32 bits. -/
theorem applyWireEdits_replay {edits : List InputEdit} {inserted : List Bytes} {text after : Bytes}
    (hpaired : edits.length = inserted.length)
    (h : replayAll text (edits.zip inserted) = some after)
    (hsmall : ∀ e ∈ edits, e.oldEndByte < 2 ^ 32 ∧ e.newEndByte < 2 ^ 32) (before : Bytes) :
    applyWireEdits (before ++ inserted.flatten) before.length text
      (edits.map WireEdit.fromInputEdit) = (true, after) := by
  induction edits generalizing inserted text before with
  | nil => cases h; rfl
  | cons e edits ih =>
    cases inserted with
    | nil => cases hpaired
    | cons bytes inserted =>
      obtain ⟨mid, hmid, hrest⟩ := bind_eq_some_iff.1 h
      simp only [replay] at hmid
      split at hmid
      next hfits =>
        cases hmid; obtain ⟨hstart, hold, hnew, -⟩ := hfits
        obtain ⟨hold32, hnew32⟩ := hsmall e mem_cons_self
        have hwire : (WireEdit.fromInputEdit e).startByte = e.startByte ∧
            (WireEdit.fromInputEdit e).oldEndByte = e.oldEndByte ∧
            (WireEdit.fromInputEdit e).newEndByte = e.newEndByte := by
          exact ⟨Nat.mod_eq_of_lt (by omega), Nat.mod_eq_of_lt hold32, Nat.mod_eq_of_lt hnew32⟩
        have hn : (e.newEndByte + 2 ^ 32 - e.startByte) % 2 ^ 32 = bytes.length := by
          rw [show e.newEndByte + 2 ^ 32 - e.startByte = bytes.length + 2 ^ 32 by omega,
            Nat.add_mod_right]
          exact Nat.mod_eq_of_lt (by omega)
        have hslice : slice (before ++ (bytes :: inserted).flatten) before.length
            (before.length + bytes.length) = bytes := by simp [slice, take_append]
        have htail : before ++ (bytes :: inserted).flatten =
            (before ++ bytes) ++ inserted.flatten := by rw [flatten_cons, append_assoc]
        have hcheck : ¬ (before.length + bytes.length >
            (before ++ (bytes :: inserted).flatten).length ∨ e.startByte > e.oldEndByte ∨
              e.oldEndByte > text.length) := by simp only [length_append, flatten_cons]; omega
        rw [map_cons, applyWireEdits]; simp only [hwire, hn, if_neg hcheck, hslice]
        rw [htail, ← length_append]
        exact ih (Nat.succ.inj hpaired) hrest
          (fun e' he' => hsmall e' (mem_cons_of_mem _ he')) (before ++ bytes)
      next => cases hmid

end Unit

end Pmacs.Parse
