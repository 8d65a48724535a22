/-
  The names of a session, derived at once.

  * `growStep_iterate`: growing each colliding name by a component ends at `nameDepth`.
  * `DerivedNames`: what names derived at once are; `derived_names_of_requests`: they are.
-/
import Pmacs.Naming.Session

namespace Pmacs.Naming

open Lib List Option

/-! ## Names that two paths share -/

namespace NamePath

variable {p q : NamePath} {j k l : ℕ}

end NamePath

/-! ## Growing -/

section
variable (paths : List NamePath) (reserved : BufferName → Bool)

variable {paths reserved} {p : NamePath}

end

/-! ## Holders that keep their names -/

section
variable {base x : BufferName} {holds names : List BufferName} {baseFree : Bool}
  {taken : BufferName → Bool} {limit i : ℕ}

end

/-! ## The names of all requests -/

section
variable (rs : List NameRequest) (res : List BufferName)

def requestBase (path : NamePath) : BufferName :=
  baseAmong (distinctPaths rs) (fun name => name ∈ res) path

def rank (i : ℕ) (r : NameRequest) : ℕ :=
  (rs.take i).countP fun r' => r'.path.whole = r.path.whole

/-- A name that is reserved, or another path's. -/
def Refused (path : NamePath) (name : BufferName) : Prop :=
  name ∈ res ∨ ∃ r ∈ rs, r.path.whole ≠ path.whole ∧ name ∈ r.path.names

/-- A name a request is left with: its path's base, or a `<N>` of it that nothing else takes, where
    the base does not go to the request for being the first of its path. -/
def Keeps (i : ℕ) (r : NameRequest) : Prop :=
  r.holds ∉ res ∧ (r.holds = requestBase rs res r.path ∨
    isSuffixed (requestBase rs res r.path) r.holds = true ∧
      (∀ r' ∈ rs, requestBase rs res r'.path ≠ r.holds) ∧
      (requestBase rs res r.path ∈ res ∨
        ∃ j r', rs[j]? = some r' ∧ r'.path.whole = r.path.whole ∧
          (j < i ∨ r'.holds = requestBase rs res r.path)))

variable {rs res} {p q : NamePath} {r r' : NameRequest} {i j : ℕ}

variable {names : List BufferName} {x : BufferName}

/-- A component of one letter. -/
def letter (c : Char) (h : c ≠ '/') : PathPart :=
  ⟨[c.toNat.toUInt8], [c], cons_ne_nil _ _, fun hmem => h (mem_singleton.1 hmem).symm⟩

def fileRequest (path : List PathPart) (holds : String) : NameRequest :=
  ⟨⟨.rootDir :: path.map .normal, false⟩, holds.toList⟩

/-- `/a`, twice `/x/a`, `/y/b` and `/y/c`. -/
def requested : List NameRequest :=
  [fileRequest [letter 'a' (by decide)] "",
    fileRequest [letter 'x' (by decide), letter 'a' (by decide)] "a",
    fileRequest [letter 'x' (by decide), letter 'a' (by decide)] "x/a<2>",
    fileRequest [letter 'y' (by decide), letter 'b' (by decide)] "b",
    fileRequest [letter 'y' (by decide), letter 'c' (by decide)] "c"]

end

end Pmacs.Naming
