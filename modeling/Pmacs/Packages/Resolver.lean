/-
  The package resolver (packages/resolver.rs).

  * `World` is what a resolve reads: tags and manifests by clone URL, the running version,
    and the version crate's parser and matcher;
  * `pickBestVersion` chooses a tag, `addTopLevel`, `processPending` and `recheckChosen`
    are the moves of a resolve, `iterateToFixpoint` its loop;
  * `checkConflicts` and `intoPlan` make the plan; `resolveWithPolicy` is a whole resolve.

  The clones and the manifests that the code caches are read from the world each time.
-/
import Pmacs.Lib.Assoc
import Pmacs.Lib.TopoSort
import Pmacs.Packages.Address

namespace Pmacs

open Lib

abbrev PackageName := String

/-! ## What is read -/

section

variable (V R : Type)

structure DependencySpec where
  address : String
  version : R
deriving DecidableEq

structure PackageManifest where
  name : PackageName
  version : V
  pmacsRequired : R
  dependencies : List (DependencySpec R)
  conflicts : List (DependencySpec R)
deriving DecidableEq

inductive InstallPin where
  | version (constraint : R)
  | branch (name : String)
  | commit (hash : String)
  | localPath (sourcePath : String)
deriving DecidableEq

structure ResolveRequest where
  address : Address
  pin : InstallPin R

inductive RefSpec where
  | tag (name : String)
  | commit (hash : String)
  | branch (name : String)
deriving DecidableEq, Repr

/-- Where a constraint comes from. -/
inductive Source where
  | topLevel
  | dependencyOf (name : PackageName) (version : V)

inductive ResolveError where
  | duplicateTopLevel (name : PackageName)
  | localPinNotResolvable
  | addressInDependency (address : String) (source : AddressError) (declaredBy : Source V)
  | fetch (address : Address) (source : String)
  | manifest (url commit source : String)
  | manifestNotUtf8 (url commit : String)
  | noTagsAvailable (address : Address) (sources : List (Source V × R))
  | noVersionMatchesConstraints (address : Address) (constraints : List (Source V × R))
      (available : List String)
  | noVersionMatchesPmacsRequirement (address : Address) (running : V)
      (constraints : List (Source V × R)) (incompatible : List (String × R))
  | pinnedRevisionIncompatibleWithPmacs (address : Address) (commit pinKind pinValue : String)
      (required : R) (running : V)
  | pinnedRevisionViolatesConstraint (name : PackageName) (version : V) (via : Source V)
      (constraint : R)
  | manifestConflict (declaringName : PackageName) (declaringVersion : V)
      (targetName : PackageName) (targetVersion : V) (targetConstraint : R)
  | dependencyCycle (participants : List PackageName)
  | lockfileRequired
  | updateOneMissing (name : PackageName)
  | basenameCollision (basename : String) (names : List PackageName)

/-- What `pmacs.toml` at a revision is. -/
inductive Blob where
  | fetchError (source : String)
  | notUtf8
  | malformed (source : String)
  | manifest (m : PackageManifest V R)

/-- The repositories, the running version, and the version crate. -/
structure World where
  fetch : String → Except String Unit
  listTags : String → Except String (List String)
  resolve : String → RefSpec → Except String String
  showBlob : String → String → Blob V R
  pmacsVersion : V
  parseVersion : String → Option V
  reqMatches : R → V → Bool
  star : R

structure PendingEdge where
  address : String
  constraint : R
  source : Source V

structure ChosenEntry where
  address : Address
  commit : String
  version : V
  manifest : PackageManifest V R
  topLevelPin : Option (InstallPin R)

structure ConflictDecl where
  declaringName : PackageName
  declaringVersion : V
  targetAddress : String
  targetConstraint : R

structure ResolverState where
  chosen : Assoc PackageName (ChosenEntry V R)
  constraints : Assoc PackageName (List (Source V × R))
  conflicts : List (ConflictDecl V R)
  pending : List (PendingEdge V R)
  preferVersions : Assoc String V

structure TagCandidate where
  tag : String
  version : V

structure ResolvedPackage where
  name : PackageName
  address : Address
  revision : String
  version : V
  manifest : PackageManifest V R
  topLevelPin : Option (InstallPin R)
deriving DecidableEq

structure ResolvePlan where
  packages : List (ResolvedPackage V R)

end

variable {V R : Type} [LinearOrder V]

def ChosenEntry.url (e : ChosenEntry V R) : String := e.address.toGitUrl

/-! ## Tags and manifests -/

/-- Read a tag as a version; a leading `v` is tolerated. -/
def parseTagAsVersion (w : World V R) (tag : String) : Option V :=
  w.parseVersion ((stripStart "v" tag).getD tag)

namespace World

variable (w : World V R)

def ensureRepo (url : String) : Except (ResolveError V R) Unit :=
  match w.fetch url with
  | .ok () => .ok ()
  | .error source => .error (.fetch (.url url) source)

/-- The tags that are versions, the highest first. -/
def candidates (url : String) (address : Address) :
    Except (ResolveError V R) (List (TagCandidate V)) :=
  match w.listTags url with
  | .error source => .error (.fetch address source)
  | .ok raw =>
    .ok ((raw.filterMap fun tag =>
      (parseTagAsVersion w tag).map fun v => TagCandidate.mk tag v).insertionSort
        fun a b => b.version ≤ a.version)

def readManifest (url commit : String) : Except (ResolveError V R) (PackageManifest V R) :=
  match w.showBlob url commit with
  | .fetchError source => .error (.fetch (.url url) source)
  | .notUtf8 => .error (.manifestNotUtf8 url commit)
  | .malformed source => .error (.manifest url commit source)
  | .manifest m => .ok m

def allows (m : PackageManifest V R) : Bool := w.reqMatches m.pmacsRequired w.pmacsVersion

def resolveRef (address : Address) (url : String) (ref : RefSpec) :
    Except (ResolveError V R) String :=
  match w.resolve url ref with
  | .ok commit => .ok commit
  | .error source => .error (.fetch address source)

def checkPinnedPmacsRequired (address : Address) (m : PackageManifest V R)
    (commit pinKind pinValue : String) : Except (ResolveError V R) Unit :=
  if w.allows m then .ok ()
  else .error (.pinnedRevisionIncompatibleWithPmacs address commit pinKind pinValue m.pmacsRequired
    w.pmacsVersion)

/-- Walk candidates, the highest first, to one whose manifest allows the running version. -/
def firstCompatible (url : String) (address : Address) (constraints : List (Source V × R)) :
    List (TagCandidate V) → List (String × R) → Except (ResolveError V R) (TagCandidate V)
  | [], incompatible =>
    .error (.noVersionMatchesPmacsRequirement address w.pmacsVersion constraints incompatible)
  | cand :: rest, incompatible => do
    let m ← w.readManifest url cand.tag
    if w.allows m then .ok cand
    else firstCompatible url address constraints rest (incompatible ++ [(cand.tag, m.pmacsRequired)])

def afterUser (cands : List (TagCandidate V)) (constraints : List (Source V × R)) :
    List (TagCandidate V) :=
  cands.filter fun c => constraints.all fun r => w.reqMatches r.2 c.version

/-- Choose a tag: the preferred version where it matches and allows the running version,
    else the highest that does. -/
def pickBestVersion (prefer : Option V) (url : String) (address : Address)
    (cands : List (TagCandidate V)) (constraints : List (Source V × R)) :
    Except (ResolveError V R) (TagCandidate V) :=
  if cands.isEmpty then .error (.noTagsAvailable address constraints)
  else
    let matching := w.afterUser cands constraints
    if matching.isEmpty then
      .error (.noVersionMatchesConstraints address constraints (cands.map (·.tag)))
    else
      match prefer.bind fun hint => matching.find? fun c => decide (c.version = hint) with
      | none => w.firstCompatible url address constraints matching []
      | some cand => do
        let m ← w.readManifest url cand.tag
        if w.allows m then .ok cand else w.firstCompatible url address constraints matching []

end World

/-! ## Moves -/

namespace ResolverState

def new : ResolverState V R := ⟨∅, ∅, [], [], ∅⟩

variable (s : ResolverState V R)

def constraintsOn (name : PackageName) : List (Source V × R) :=
  (s.constraints.lookup name).getD []

def addConstraint (name : PackageName) (source : Source V) (constraint : R) : ResolverState V R :=
  { s with constraints := s.constraints.insert name (s.constraintsOn name ++ [(source, constraint)]) }

def names : List PackageName :=
  s.chosen.keys.insertionSort (· ≤ ·)

def enqueueDependencies (name : PackageName) (m : PackageManifest V R) : ResolverState V R :=
  { s with
    pending := s.pending ++ m.dependencies.map fun dep =>
      ⟨dep.address, dep.version, .dependencyOf name m.version⟩ }

def stashConflicts (name : PackageName) (m : PackageManifest V R) : ResolverState V R :=
  { s with
    conflicts := s.conflicts ++ m.conflicts.map fun conflict =>
      ⟨name, m.version, conflict.address, conflict.version⟩ }

/-- Choose a revision of a package: its dependencies wait, its conflicts are noted. -/
def choose (name : PackageName) (address : Address) (commit : String)
    (m : PackageManifest V R) (topLevelPin : Option (InstallPin R)) : ResolverState V R :=
  let s := (s.enqueueDependencies name m).stashConflicts name m
  { s with chosen := s.chosen.insert name ⟨address, commit, m.version, m, topLevelPin⟩ }

variable (w : World V R)

def topLevelRevision (s : ResolverState V R) (req : ResolveRequest R) :
    Except (ResolveError V R) (String × PackageManifest V R) :=
  let url := req.address.toGitUrl
  match req.pin with
  | .version constraint => do
    let cands ← w.candidates url req.address
    let chosen ← w.pickBestVersion (s.preferVersions.lookup url) url req.address cands
      [(.topLevel, constraint)]
    let m ← w.readManifest url chosen.tag
    .ok (chosen.tag, m)
  | .branch name => do
    let commit ← w.resolveRef req.address url (.branch name)
    let m ← w.readManifest url commit
    w.checkPinnedPmacsRequired req.address m commit "branch" name
    .ok (commit, m)
  | .commit hash => do
    let commit ← w.resolveRef req.address url (.commit hash)
    let m ← w.readManifest url commit
    w.checkPinnedPmacsRequired req.address m commit "commit" hash
    .ok (commit, m)
  | .localPath _ => .error .localPinNotResolvable

def addTopLevel (s : ResolverState V R) (req : ResolveRequest R) :
    Except (ResolveError V R) (ResolverState V R) := do
  w.ensureRepo req.address.toGitUrl
  let (commit, m) ← s.topLevelRevision w req
  if (s.chosen.lookup m.name).isSome then .error (.duplicateTopLevel m.name)
  else
    let s := match req.pin with
      | .version constraint => s.addConstraint m.name .topLevel constraint
      | _ => s
    .ok (s.choose m.name req.address commit m (some req.pin))

/-- The first constraint of another package that a pinned version does not meet. -/
def violated (entry : ChosenEntry V R) : List (Source V × R) → Option (Source V × R)
  | [] => none
  | (.topLevel, _) :: rest => violated entry rest
  | (.dependencyOf name version, r) :: rest =>
    if w.reqMatches r entry.version then violated entry rest
    else some (.dependencyOf name version, r)

/-- Whether the user fixed the revision. -/
def isPinned (entry : ChosenEntry V R) : Bool :=
  match entry.topLevelPin with
  | some (.branch _) | some (.commit _) => true
  | _ => false

def recheckConstraints (s : ResolverState V R) (name : PackageName) : List (Source V × R) :=
  if (s.constraintsOn name).isEmpty then [(.topLevel, w.star)] else s.constraintsOn name

def recheckPick (s : ResolverState V R) (name : PackageName) (entry : ChosenEntry V R) :
    Except (ResolveError V R) (TagCandidate V) := do
  let cands ← w.candidates entry.url entry.address
  w.pickBestVersion (s.preferVersions.lookup entry.url) entry.url entry.address cands
    (s.recheckConstraints w name)

/-- Resolve a chosen package again under its constraints; whether a lower version
    replaced it. -/
def recheckChosen (s : ResolverState V R) (name : PackageName) :
    Except (ResolveError V R) (Bool × ResolverState V R) :=
  match s.chosen.lookup name with
  | none => .ok (false, s)
  | some entry =>
    if isPinned entry then
      match violated w entry (s.constraintsOn name) with
      | some (source, r) => .error (.pinnedRevisionViolatesConstraint name entry.version source r)
      | none => .ok (false, s)
    else do
      let chosen ← s.recheckPick w name entry
      if entry.version ≤ chosen.version then .ok (false, s)
      else
        let m ← w.readManifest entry.url chosen.tag
        .ok (true, s.choose name entry.address chosen.tag m entry.topLevelPin)

/-- The tag that alone meets a dependency, with its manifest. -/
def probe (s : ResolverState V R) (edge : PendingEdge V R) (address : Address) :
    Except (ResolveError V R) (String × PackageManifest V R) := do
  let url := address.toGitUrl
  w.ensureRepo url
  let cands ← w.candidates url address
  let chosen ← w.pickBestVersion (s.preferVersions.lookup url) url address cands
    [(edge.source, edge.constraint)]
  let m ← w.readManifest url chosen.tag
  .ok (chosen.tag, m)

/-- Merge a dependency into the chosen packages. -/
def processPending (s : ResolverState V R) (edge : PendingEdge V R) :
    Except (ResolveError V R) (ResolverState V R) :=
  match Address.parse edge.address with
  | .error source => .error (.addressInDependency edge.address source edge.source)
  | .ok address => do
    let (commit, m) ← s.probe w edge address
    let s := s.addConstraint m.name edge.source edge.constraint
    if (s.chosen.lookup m.name).isSome then do
      let (_, s) ← s.recheckChosen w m.name
      .ok s
    else .ok (s.choose m.name address commit m none)

/-! ## The loop -/

def drainPending : ℕ → ResolverState V R → Option (Except (ResolveError V R) (ResolverState V R))
  | fuel, s =>
    match s.pending with
    | [] => some (.ok s)
    | edge :: rest =>
      match fuel with
      | 0 => none
      | fuel + 1 =>
        match processPending w { s with pending := rest } edge with
        | .error e => some (.error e)
        | .ok s => drainPending fuel s

/-- Re-check names one after the other; whether something changed. -/
def recheckAll : List PackageName → ResolverState V R →
    Except (ResolveError V R) (Bool × ResolverState V R)
  | [], s => .ok (false, s)
  | name :: names, s => do
    let (changed, s) ← s.recheckChosen w name
    let (changed', s) ← recheckAll names s
    .ok (changed || changed', s)

/-- Drain and re-check until nothing changes. -/
def iterateToFixpoint : ℕ → ResolverState V R →
    Option (Except (ResolveError V R) (ResolverState V R))
  | 0, _ => none
  | fuel + 1, s =>
    match drainPending w fuel s with
    | none => none
    | some (.error e) => some (.error e)
    | some (.ok s) =>
      match recheckAll w s.names s with
      | .error e => some (.error e)
      | .ok (changed, s) =>
        if !changed && s.pending.isEmpty then some (.ok s) else iterateToFixpoint fuel s

def addAll : List (ResolveRequest R) → ResolverState V R →
    Except (ResolveError V R) (ResolverState V R)
  | [], s => .ok s
  | req :: reqs, s => do
    let s ← s.addTopLevel w req
    addAll reqs s

/-! ## The plan -/

/-- The chosen package of a clone URL: the last one in the order of names. -/
def urlToName (url : String) : Option PackageName :=
  s.names.reverse.find? fun name => (s.chosen.lookup name).any fun e => decide (e.url = url)

def conflictOf (s : ResolverState V R) (decl : ConflictDecl V R) : Option (ResolveError V R) := do
  let declaring ← s.chosen.lookup decl.declaringName
  if declaring.version = decl.declaringVersion then
    let address ← (Address.parse decl.targetAddress).toOption
    let targetName ← s.urlToName address.toGitUrl
    let target ← s.chosen.lookup targetName
    if w.reqMatches decl.targetConstraint target.version then
      some (.manifestConflict decl.declaringName decl.declaringVersion targetName target.version
        decl.targetConstraint)
    else none
  else none

def checkConflicts (s : ResolverState V R) : Except (ResolveError V R) Unit :=
  match s.conflicts.findSome? (s.conflictOf w) with
  | some e => .error e
  | none => .ok ()

def depsOf (name : PackageName) : List PackageName :=
  match s.chosen.lookup name with
  | none => []
  | some entry =>
    (entry.manifest.dependencies.filterMap fun dep =>
      (Address.parse dep.address).toOption.bind fun address => s.urlToName address.toGitUrl).dedup

def packageBasename (name : PackageName) : String :=
  .ofList ((name.toList.reverse.takeWhile fun c => decide (c ≠ '/')).reverse)

def findBasenameCollision (names : List PackageName) : Option (String × List PackageName) :=
  (((names.map packageBasename).dedup.insertionSort (· ≤ ·)).map fun basename =>
    (basename, names.filter fun name => decide (packageBasename name = basename))).find?
      fun e => decide (e.2.length > 1)

def resolved (name : PackageName) : Option (ResolvedPackage V R) :=
  (s.chosen.lookup name).map fun e =>
    ⟨name, e.address, e.commit, e.version, e.manifest, e.topLevelPin⟩

/-- The plan: the chosen packages, each behind those it depends on. -/
def intoPlan : Except (ResolveError V R) (ResolvePlan V R) :=
  let order := topoSort s.names s.depsOf
  if order.length ≠ s.names.length then
    .error (.dependencyCycle (s.names.filter fun name => decide (name ∉ order)))
  else
    let packages := order.filterMap s.resolved
    match findBasenameCollision (packages.map (·.name)) with
    | some (basename, names) => .error (.basenameCollision basename names)
    | none => .ok ⟨packages⟩

def run (s : ResolverState V R) (requests : List (ResolveRequest R)) (fuel : ℕ) :
    Option (Except (ResolveError V R) (ResolvePlan V R)) :=
  match s.addAll w requests with
  | .error e => some (.error e)
  | .ok s =>
    match iterateToFixpoint w fuel s with
    | none => none
    | some (.error e) => some (.error e)
    | some (.ok s) =>
      match s.checkConflicts w with
      | .error e => some (.error e)
      | .ok () => some s.intoPlan

end ResolverState

open ResolverState

variable (w : World V R)

def resolve (requests : List (ResolveRequest R)) (fuel : ℕ) :
    Option (Except (ResolveError V R) (ResolvePlan V R)) := run w .new requests fuel

end Pmacs
