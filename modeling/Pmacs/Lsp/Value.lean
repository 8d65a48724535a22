/-
  JSON values (serde_json), and the rewriting of the positions nested in one (lsp.rs).

  * `Value` with its readings `get`, `asU64`, `asStr`, `asArray`;
  * `Value.rewritePositionsToBytes` turns the column of every nested position into a
    byte offset of its line.
-/
import Pmacs.Lsp.Position

namespace Pmacs

open Lib Utf8

/-- A JSON value; an object's keys are distinct. -/
inductive Value where
  | null
  | bool (b : Bool)
  | int (n : ℤ)
  | float (digits : String)
  | string (s : String)
  | array (items : List Value)
  | object (fields : List (String × Value))

namespace Value

/-! ## Readings -/

def get : Value → String → Option Value
  | .object fields, key => fields.lookup key
  | _, _ => none

def asU64 : Value → Option ℕ
  | .int n => if 0 ≤ n ∧ n < 2 ^ 64 then some n.toNat else none
  | _ => none

def asI64 : Value → Option ℤ
  | .int n => if -(2 ^ 63) ≤ n ∧ n < 2 ^ 63 then some n else none
  | _ => none

def asBool : Value → Option Bool
  | .bool b => some b
  | _ => none

def asStr : Value → Option String
  | .string s => some s
  | _ => none

def asArray : Value → Option (List Value)
  | .array items => some items
  | _ => none

/-- A `u64` as JSON. -/
def nat (n : ℕ) : Value := .int n

def text (s : List Char) : Value := .string (String.ofList s)

variable {fields : List (String × Value)} {key : String}

@[simp]
theorem get_object : (object fields).get key = fields.lookup key := rfl

@[simp]
theorem asArray_array (items : List Value) : (array items).asArray = some items := rfl

/-! ## Positions -/

def setField (fields : List (String × Value)) (key : String) (v : Value) : List (String × Value) :=
  fields.map fun f => if f.1 = key then (key, v) else f

/-- Where an object is a position of a line of `doc`, put the byte of its column in
    `rewritten`. -/
def placeCharacter (doc : List Char) (enc : PositionEncoding)
    (fields rewritten : List (String × Value)) : List (String × Value) :=
  match (fields.lookup "line").bind asU64, (fields.lookup "character").bind asU64 with
  | some line, some character =>
    match (textLines doc)[line % 2 ^ 32]? with
    | some l => setField rewritten "character" (nat (charToByte l (character % 2 ^ 32) enc))
    | none => rewritten
  | _, _ => rewritten

mutual

def rewrite (doc : List Char) (enc : PositionEncoding) : Value → Value
  | .array items => .array (rewriteItems doc enc items)
  | .object fields => .object (placeCharacter doc enc fields (rewriteFields doc enc fields))
  | v => v
termination_by structural v => v

def rewriteItems (doc : List Char) (enc : PositionEncoding) : List Value → List Value
  | [] => []
  | v :: vs => rewrite doc enc v :: rewriteItems doc enc vs
termination_by structural vs => vs

def rewriteFields (doc : List Char) (enc : PositionEncoding) :
    List (String × Value) → List (String × Value)
  | [] => []
  | f :: fs => rewriteField doc enc f :: rewriteFields doc enc fs
termination_by structural fs => fs

def rewriteField (doc : List Char) (enc : PositionEncoding) : String × Value → String × Value
  | (key, v) => (key, rewrite doc enc v)
termination_by structural f => f

end

/-- A server that counts in bytes has byte offsets already. -/
def rewritePositionsToBytes (v : Value) (doc : List Char) (enc : PositionEncoding) : Value :=
  match enc with
  | .utf8 => v
  | .utf16 => v.rewrite doc .utf16

variable {doc : List Char} {enc : PositionEncoding}

theorem rewriteItems_eq (vs : List Value) : rewriteItems doc enc vs = vs.map (rewrite doc enc) := by
  induction vs with
  | nil => rfl
  | cons v vs ih => rw [rewriteItems, ih, List.map_cons]

theorem lookup_rewriteFields :
    (rewriteFields doc enc fields).lookup key = (fields.lookup key).map (rewrite doc enc) := by
  induction fields with
  | nil => rfl
  | cons f fs ih =>
    obtain ⟨k, v⟩ := f; rw [rewriteFields, rewriteField, List.lookup_cons, List.lookup_cons, ih]
    cases key == k <;> rfl

variable {v : Value}

theorem lookup_setField {key' : String} (h : key ≠ key') :
    (setField fields key' v).lookup key = fields.lookup key := by
  induction fields with
  | nil => rfl
  | cons f fs ih =>
    obtain ⟨k, w⟩ := f; rw [setField] at ih; rw [setField, List.map_cons]
    by_cases hk : k = key'
    · subst hk; have hne : (key == k) = false := by simpa using h
      simp only [if_true, List.lookup_cons, hne, ih]
    · simp only [hk, if_false, List.lookup_cons, ih]

/-- What an object holds at a key is rewritten, but for the column of a position. -/
theorem get_rewrite (hkey : key ≠ "character") : (v.rewrite doc enc).get key =
    (v.get key).map (rewrite doc enc) := by
  cases v with
  | object fields =>
    rw [rewrite, get_object, get_object, ← lookup_rewriteFields, placeCharacter]
    split
    · split
      · rw [lookup_setField hkey]
      · rfl
    · rfl
  | _ => rfl

theorem asArray_rewrite :
    (v.rewrite doc enc).asArray = v.asArray.map (List.map (rewrite doc enc)) := by
  cases v with
  | array items => rw [rewrite, asArray_array, asArray_array, rewriteItems_eq]; rfl
  | _ => rfl

end Value

/-! ## Settings -/

/-- Walk a path of keys; null where one is missing. -/
def resolvePath (settings : Value) : List String → Value
  | [] => settings
  | key :: keys =>
    match settings.get key with
    | none => .null
    | some v => resolvePath v keys

/-- The settings a `workspace/configuration` item asks for. -/
def resolveConfigSection (settings : Value) : Option String → Value
  | none => settings
  | some path =>
    if path = "" then settings
    else resolvePath settings ((path.toList.splitOn '.').map String.ofList)

end Pmacs
