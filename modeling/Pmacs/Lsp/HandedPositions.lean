/-
  The lines that a server's positions are converted in (lsp.rs).

  * `Value.owner`: the document that a place of a payload belongs to, as the protocol nests them;
  * `handed`: what the editor gets of a payload, an answer converted against the document of its
    request, a request of the server as it came;
  * `handsBytes_iff`: when every position of an open document becomes a byte of its own line.
-/
import Pmacs.Lsp.Encodings
import Pmacs.Lsp.Inbound

namespace Pmacs

open Lib List Option

/-! ## Positions and their documents -/

namespace Value

/-- The line and the column that a position is read as, when the document has the line. -/
def placeIn (doc : List Char) (x : Value) : Option (List Char × ℕ) := do
  let line ← (x.get "line").bind asU64
  let character ← (x.get "character").bind asU64
  let l ← (textLines doc)[line % 2 ^ 32]?
  return (l, character % 2 ^ 32)

/-- The document that an object names for what it has at a key: a location, the target of a
    link, the edits of a document. -/
def names (v : Value) (key : String) : Option String :=
  if key = "range" then (v.get "uri").bind asStr
  else if key = "targetRange" ∨ key = "targetSelectionRange" then (v.get "targetUri").bind asStr
  else if key = "edits" then ((v.get "textDocument").bind (·.get "uri")).bind asStr
  else none

/-- The document that a place belongs to: the last that is named on the way to it. -/
def owner (uri : Option String) : List JsonStep → Value → Option String
  | [], _ => uri
  | .key "changes" :: .key changed :: path, v =>
    owner (some changed) path ((((v.get "changes").bind (·.get changed))).getD .null)
  | .key key :: path, v => owner ((v.names key).or uri) path ((v.get key).getD .null)
  | .index i :: path, v => owner uri path ((v.asArray.bind (·[i]?)).getD .null)

variable {doc doc' : List Char} {enc : PositionEncoding} {v x : Value} {place : List Char × ℕ}

theorem placeIn_object (h : x.placeIn doc = some place) : ∃ fields line n, x = .object fields ∧
    (x.get "line").bind asU64 = some line ∧ x.get "character" = some (.int n) ∧
    (Value.int n).asU64.isSome := by
  simp only [placeIn, bind_eq_bind, bind_eq_some_iff] at h
  obtain ⟨line, hline, character, hcharacter, -⟩ := h
  obtain ⟨w, hw, hu⟩ := hcharacter
  cases x with
  | object fields =>
    cases w with
    | int n => exact ⟨fields, line, n, rfl, bind_eq_some_iff.2 hline, hw, by rw [hu]; rfl⟩
    | _ => cases hu
  | _ => cases hw

/-- The column of a position after rewriting, which may have been against another document. -/
theorem get_character_rewrite_placeIn (h : x.placeIn doc = some place) :
    (x.rewrite doc' enc).get "character" = match x.placeIn doc' with
      | some (l, character) => some (nat (charToByte l character enc))
      | none => x.get "character" := by
  obtain ⟨fields, line, n, rfl, hline, hn, hu⟩ := placeIn_object h
  obtain ⟨character, hu⟩ := isSome_iff_exists.1 hu
  rw [placeIn, hline, hn, bind_some, hu]
  rw [get_object] at hline hn
  rw [rewrite, get_object, placeCharacter, hline, hn, bind_some, hu]
  dsimp only [bind_eq_bind, bind_some]
  cases hl : (textLines doc')[line % 2 ^ 32]? with
  | some l =>
    refine lookup_setField_self ?_; rw [lookup_rewriteFields, hn]; rfl
  | none => dsimp only [bind_none]; rw [lookup_rewriteFields, hn]; rfl

theorem at?_rewrite_object : ∀ {path : List JsonStep} {v : Value}
    {fields : List (String × Value)}, v.at? path = some (.object fields) →
      (v.rewrite doc enc).at? path = some ((Value.object fields).rewrite doc enc)
  | [], _, _, h => by cases h; rfl
  | .key key :: path, v, fields, h => by
    rw [at?] at h ⊢; obtain ⟨w, hw, hpath⟩ := bind_eq_some_iff.1 h
    cases v with
    | object members =>
      rw [get_object] at hw
      have hkept : (rewriteFields doc enc members).lookup key = some (w.rewrite doc enc) := by
        rw [lookup_rewriteFields, hw]; rfl
      have hlookup : ((Value.object members).rewrite doc enc).get key =
          some (w.rewrite doc enc) := by
        rw [rewrite, get_object, placeCharacter]
        split
        · rename_i line character hline hcharacter
          -- a column is no object, nor has it one within
          have hne : key ≠ "character" := by
            rintro rfl; rw [hw, bind_some] at hcharacter
            cases w with
            | int n => cases path with
              | nil => cases hpath
              | cons step path => rw [at?_int] at hpath; cases hpath
            | _ => cases hcharacter
          split
          · rw [lookup_setField hne, hkept]
          · exact hkept
        · exact hkept
      rw [hlookup]; exact at?_rewrite_object hpath
    | _ => cases hw
  | .index i :: path, v, fields, h => by
    rw [at?] at h ⊢; obtain ⟨w, hw, hpath⟩ := bind_eq_some_iff.1 h
    obtain ⟨items, harray, hitem⟩ := bind_eq_some_iff.1 hw
    rw [asArray_rewrite, harray, map_some, bind_some, getElem?_map, hitem]
    exact at?_rewrite_object hpath

end Value

/-! ## What is handed over -/

/-- The column of a position comes out as `column`: by the line that the text converted against
    has for it, or as it came where no such line is converted in. -/
def Agrees (held : Option (List Char)) (enc : PositionEncoding) (x : Value) (column : ℕ) : Prop :=
  match enc, held.bind fun doc => x.placeIn doc with
  | .utf16, some (l, character) => charToByte l character .utf16 = column
  | _, _ => x.get "character" = some (.nat column)

namespace LspManager

variable (m : LspManager) (sid : LspServerId)

/-- What the editor gets of a payload: of an answer with a route what the store keeps, and of
    anything else what came. -/
def handed : Option ResponseRoute → Value → Value
  | some route, v => (m.answerContext sid route.uri).inboundConverted v
  | none, v => v

def conversionText (route : Option ResponseRoute) : Option (List Char) :=
  route.bind fun route => m.documents.lookup (sid, route.uri)

/-- A position of a payload that belongs to an open document, with its line and its column. -/
def Belongs (route : Option ResponseRoute) (v : Value) (path : List JsonStep) (x : Value)
    (l : List Char) (character : ℕ) : Prop :=
  ∃ u doc, v.at? path = some x ∧ v.owner (route.bind (·.scopedUri)) path = some u ∧
    m.documents.lookup (sid, u) = some doc ∧ x.placeIn doc = some (l, character)

/-- Every position of an open document is handed over as a byte of its line. -/
def HandsBytes (route : Option ResponseRoute) (v : Value) : Prop :=
  ∀ path x l character, m.Belongs sid route v path x l character →
    (m.handed sid route v).at? (path ++ [.key "character"]) =
      some (.nat (charToByte l character (m.positionEncoding sid)))

variable {m sid}

theorem handed_eq (route : Option ResponseRoute) (v : Value) : m.handed sid route v =
    ((m.conversionText sid route).map fun doc =>
      v.rewritePositionsToBytes doc (m.positionEncoding sid)).getD v := by
  cases route with
  | none => rfl
  | some route =>
    have hheld : (m.answerContext sid route.uri).held = m.documents.lookup (sid, route.uri) := rfl
    rw [handed, AnswerContext.inboundConverted, hheld, conversionText, bind_some]
    cases m.documents.lookup (sid, route.uri) <;> rfl

/-- **A position is handed over as a byte of its own line** exactly where the line that it is
    converted in has that column too. -/
theorem handsBytes_iff (m : LspManager) (sid : LspServerId) (route : Option ResponseRoute)
    (v : Value) : m.HandsBytes sid route v ↔
      ∀ path x l character, m.Belongs sid route v path x l character →
        Agrees (m.conversionText sid route) (m.positionEncoding sid) x
          (charToByte l character (m.positionEncoding sid)) := by
  refine forall_congr' fun path => forall_congr' fun x => forall_congr' fun l =>
    forall_congr' fun character => forall_congr' fun hbelongs => ?_
  obtain ⟨u, doc, hx, -, -, hplace⟩ := hbelongs
  rw [handed_eq]; generalize charToByte l character (m.positionEncoding sid) = column
  have hraw : v.at? (path ++ [.key "character"]) = x.get "character" := by
    rw [Value.at?_append, hx, bind_some, Value.at?]; cases x.get "character" <;> rfl
  cases m.conversionText sid route with
  | none => rw [map_none, getD_none, hraw]; cases m.positionEncoding sid <;> rfl
  | some held =>
    rw [map_some, getD_some]
    cases m.positionEncoding sid with
    | utf8 => rw [Value.rewritePositionsToBytes, hraw]; rfl
    | utf16 =>
      obtain ⟨fields, -, -, rfl, -⟩ := Value.placeIn_object hplace
      rw [Value.rewritePositionsToBytes, Value.at?_append, Value.at?_rewrite_object hx, bind_some,
        Value.at?, Value.get_character_rewrite_placeIn hplace]
      unfold Agrees
      rw [bind_some]
      cases (Value.object fields).placeIn held with
      | none =>
        dsimp only; cases (Value.object fields).get "character" <;> rfl
      | some place =>
        show some (Value.nat _) = some (Value.nat _) ↔ charToByte _ _ _ = column
        rw [some_inj, Value.nat, Value.nat, Value.int.injEq, Int.natCast_inj]

/-- A definition in `b`, asked for from `a`: its column is counted in the line of `a`. -/
theorem not_handsBytes : ∃ m sid route v, ¬ HandsBytes m sid route v := by
  refine ⟨{ LspManager.new fun _ _ => false with
    documents := (AList.insert (0, "b") ['é', 'x'] ∅).insert (0, "a") ['x', 'x'] }, 0,
    some (.definition "a"), .object [("uri", .string "b"), ("range", .object [("start",
      .object [("line", .int 0), ("character", .int 1)])])], fun h => ?_⟩
  have hstart := h [.key "range", .key "start"] _ ['é', 'x'] 1
    ⟨"b", ['é', 'x'], rfl, ?_, ?_, ?_⟩
  · have hcolumns : some (Value.int 1) = some (.int 2) := hstart
    cases hcolumns
  all_goals rfl

end LspManager

end Pmacs
