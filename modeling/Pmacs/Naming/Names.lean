/-
  The names of buffers that a path names (buffer_names.rs).

  * `NamePath.names`: every name a path can be shown by, shortest first.
  * `nameDepth`: which of them it is shown by; `nameHolders`: the names of the buffers that
    hold one path.
  * `deriveNames`: the names of a whole session at once.
-/
import Pmacs.Lib.Integers

namespace Pmacs.Naming

open Lib

abbrev BufferName := List Char

scoped instance : LawfulBEq BufferName := inferInstance

/-! ## Paths -/

/-- A component of a path that names something, as it is shown. -/
structure PathPart where
  raw : List UInt8
  text : List Char
  text_ne : text ≠ []
  no_slash : '/' ∉ text
deriving DecidableEq

inductive PathComponent where
  | rootDir
  | curDir
  | parentDir
  | normal (part : PathPart)
deriving DecidableEq

/-- `PathBuf`, as its components. -/
abbrev PathBuf := List PathComponent

/-- `components`: the normal components, as text. -/
def components (path : PathBuf) : List (List Char) :=
  path.filterMap fun c => match c with
    | .normal part => some part.text
    | _ => none

/-- Each part with a `/` before it. -/
def slashed (parts : List (List Char)) : List Char := parts.flatMap ('/' :: ·)

/-- `parts.join("/")`. -/
def joinSlash : List (List Char) → List Char
  | [] => []
  | part :: parts => part ++ slashed parts

/-- The last `depth` of `parts`, or the whole path once `depth` passes them. -/
def render (parts : List (List Char)) (depth : ℕ) (directory : Bool) : BufferName :=
  let name :=
    if parts.length < depth then '/' :: joinSlash parts
    else joinSlash (parts.drop (parts.length - depth))
  if directory ∧ name.getLast? ≠ some '/' then name ++ ['/'] else name

structure NamePath where
  path : PathBuf
  directory : Bool
deriving DecidableEq

namespace NamePath

variable (p : NamePath)

def isOf (path : PathBuf) (directory : Bool) : Bool :=
  p.directory = directory ∧ p.path = path

/-- `names[k]`: the last `k + 1` components, or the whole path. -/
def name (k : ℕ) : BufferName := render (components p.path) (k + 1) p.directory

def names : List BufferName :=
  (List.range ((components p.path).length + 1)).map p.name

def group : BufferName := p.name 0

def whole : BufferName := p.name (components p.path).length

end NamePath

/-- The first of a path's names that is neither shared nor reserved, or the whole path. -/
def nameDepth (path : NamePath) (shared reserved : BufferName → Bool) : ℕ :=
  (path.names.findIdx? fun name => !shared name && !reserved name).getD (path.names.length - 1)

/-! ## Suffixes -/

variable (base : BufferName)

/-- `format!("{base}<{n}>")`. -/
def suffixed (n : ℕ) : BufferName :=
  base ++ '<' :: (Nat.toDigits 10 n ++ ['>'])

/-- `str::strip_prefix`. -/
def stripFront : List Char → List Char → Option (List Char)
  | [], s => some s
  | _ :: _, [] => none
  | c :: front, d :: s => if c = d then stripFront front s else none

/-- `str::strip_suffix` of one character. -/
def stripBack (c : Char) (s : List Char) : Option (List Char) :=
  if s.getLast? = some c then some s.dropLast else none

variable (name : BufferName)

/-- `is_suffixed`. The lengths differ when the digits are not the ones `format!` writes. -/
def isSuffixed : Bool :=
  match ((stripFront base name).bind (stripFront ['<'])).bind (stripBack '>') with
  | none => false
  | some digits =>
    match parseDecimal usizeMax digits with
    | none => false
    | some n => 2 ≤ n && name.length = base.length + (Nat.toDigits 10 n).length + 2

/-- The name before a `<N>` suffix. -/
def withoutSuffix : Option BufferName :=
  match name.reverse with
  | '>' :: body =>
    let digits := body.takeWhile (· ≠ '<')
    match body.dropWhile (· ≠ '<') with
    | [] => none
    | _ :: before => if digits ≠ [] ∧ digits.all Char.isDigit then some before.reverse else none
  | _ => none

def groupOf : BufferName :=
  let body := if name.getLast? = some '/' then name.dropLast else name
  if '/' ∈ body then
    (body.reverse.takeWhile (· ≠ '/')).reverse ++
      (if name.getLast? = some '/' then ['/'] else [])
  else name

def groupsOfName : List BufferName :=
  groupOf name :: ((withoutSuffix name).map groupOf).toList

/-! ## The names of one path's buffers -/

/-- The buffers that keep a `<N>` of the path they hold, and these names. -/
def keepSuffixed (base : BufferName) (taken : BufferName → Bool) :
    List BufferName → List (Option BufferName × BufferName) →
    List (Option BufferName) × List BufferName
  | used, [] => ([], used)
  | used, (slot, held) :: rest =>
    if slot = none ∧ isSuffixed base held ∧ ¬taken held ∧ held ∉ used then
      let (out, used) := keepSuffixed base taken (held :: used) rest
      (some held :: out, used)
    else
      let (out, used) := keepSuffixed base taken used rest
      (slot :: out, used)

/-- The lowest `<N>` from `n` on that is not refused, among `fuel` of them. -/
def nextFree (base : BufferName) (refused : BufferName → Bool) : (fuel n : ℕ) → Option ℕ
  | 0, _ => none
  | fuel + 1, n => if refused (suffixed base n) then nextFree base refused fuel (n + 1) else some n

/-- Every buffer without a name yet takes the lowest `<N>` that is free, in their order;
    `limit` is the last number tried. -/
def fillSuffixed (base : BufferName) (taken : BufferName → Bool) (limit : ℕ) :
    ℕ → List BufferName → List (Option BufferName) → Option (List BufferName)
  | _, _, [] => some []
  | n, used, some name :: rest => (fillSuffixed base taken limit n used rest).map (name :: ·)
  | n, used, none :: rest =>
    match nextFree base (fun name => taken name || name ∈ used) (limit + 1 - n) n with
    | none => none
    | some m =>
      (fillSuffixed base taken limit (m + 1) (suffixed base m :: used) rest).map
        (suffixed base m :: ·)

/-- The buffer that keeps the base: one that holds it, or the first. -/
def keeper (holds : List BufferName) : ℕ :=
  (holds.findIdx? (· = base)).getD 0

/-- `name_holders`. The source looks for a free `<N>` without a limit; see
    `nameHolders_isSome`. -/
def nameHolders (holds : List BufferName) (baseFree : Bool)
    (taken : BufferName → Bool) (limit : ℕ) : Option (List BufferName) :=
  let out := List.replicate holds.length none
  let out := if baseFree ∧ holds ≠ [] then out.set (keeper base holds) (some base) else out
  let (out, used) := keepSuffixed base taken [] (out.zip holds)
  fillSuffixed base taken limit 2 used out

/-! ## The names of a session -/

/-- A buffer to name: its path and the name it holds now. -/
structure NameRequest where
  path : NamePath
  holds : BufferName

def distinctPaths : List NameRequest → List NamePath
  | [] => []
  | request :: rest =>
    request.path :: (distinctPaths rest).filter fun p => p.whole ≠ request.path.whole

def baseAmong (paths : List NamePath) (reserved : BufferName → Bool) (path : NamePath) :
    BufferName :=
  path.name (nameDepth path (fun name => 1 < paths.countP fun p => name ∈ p.names) reserved)

def namesOfPath (requests : List NameRequest) (reserved : BufferName → Bool) (limit : ℕ)
    (path : NamePath) : Option (List BufferName) :=
  let paths := distinctPaths requests
  let base := baseAmong paths reserved path
  nameHolders base ((requests.filter fun r => r.path.whole = path.whole).map (·.holds))
    (!reserved base) (fun name => reserved name || name ∈ paths.map (baseAmong paths reserved))
    limit

/-- `derive_names`: the request at `i` takes the name of its place among the requests for
    its path. -/
def deriveNames (requests : List NameRequest) (reserved : BufferName → Bool) (limit : ℕ) :
    Option (List BufferName) :=
  (requests.mapIdx fun i request =>
    (namesOfPath requests reserved limit request.path).bind fun names =>
      names[(requests.take i).countP fun r => r.path.whole = request.path.whole]?).mapM id

end Pmacs.Naming
