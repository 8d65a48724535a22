/-
  The buffer registry and its naming index (buffer_registry.rs, and what names a buffer in
  buffer.rs).

  * `NameIndex`: what is kept to name buffers with, and how it is kept as buffers come (`join`)
    and go (`leave`); what an event marks to be named again.
  * `Event`, `Registry.step`: what happens to a registry.
-/
import Pmacs.Naming.Names
import Pmacs.Lib.Counts

namespace Pmacs.Naming

open Lib

abbrev BufferId := ℕ

/-! ## Buffers -/

inductive BufferNameOrigin where
  | explicit
  | pathDerived
deriving DecidableEq

structure Buffer where
  id : BufferId
  name : BufferName
  nameOrigin : BufferNameOrigin
  filePath : Option PathBuf
  namedDirectory : Option PathBuf
  editingInProgress : Bool
deriving DecidableEq

namespace Buffer

variable (b : Buffer)

def setName (name : BufferName) : Buffer :=
  { b with name := name, nameOrigin := .explicit }

def setFilePath (path : Option PathBuf) : Buffer := { b with filePath := path }

def nameFromPath : Buffer := { b with nameOrigin := .pathDerived }

def nameFromDirectory (directory : PathBuf) : Buffer :=
  { b with namedDirectory := some directory, nameOrigin := .pathDerived }

def setDerivedName (name : BufferName) : Buffer := { b with name := name }

def namePath : Option NamePath :=
  match b.nameOrigin, b.namedDirectory with
  | .explicit, _ => none
  | .pathDerived, some directory => some ⟨directory, true⟩
  | .pathDerived, none => b.filePath.map fun path => ⟨path, false⟩

end Buffer

/-! ## The index -/

/-- One path of a group and the buffers holding it, as `(place, id)`, sorted by place. -/
structure GroupPath where
  id : ℕ
  path : NamePath
  holders : List (ℕ × BufferId)
  depth : Option ℕ

/-- One basename's buffers named by a path. -/
structure Group where
  paths : Assoc BufferName GroupPath
  shared : Assoc BufferName (ℕ × ℕ)
  named : Assoc BufferName BufferName
  byId : Assoc ℕ BufferName

def Group.default : Group := ⟨∅, ∅, ∅, ∅⟩

/-- The registry's naming index. Places and the ids of paths are counted up from zero. -/
structure NameIndex where
  held : Counts BufferName
  reserved : Counts BufferName
  member : Assoc BufferId (BufferName × BufferName)
  groups : Assoc BufferName Group
  place : Assoc BufferId ℕ
  nextPlace : ℕ
  nextPath : ℕ

/-- A path to rename: its group and its whole name. -/
abbrev PathKey := BufferName × BufferName

abbrev Dirty := List PathKey

/-- A path of a group gets the name `name`: it is shared by one path more, and the path that
    had it to itself is marked. -/
def Group.share (group : Group) (groupName : BufferName) (pathId : ℕ) (dirty : Dirty)
    (name : BufferName) : Group × Dirty :=
  let count := tallyAdd (group.shared.lookup name) pathId
  ({ group with shared := group.shared.insert name count },
    if count.1 = 2 then
      match group.named.lookup name with
      | some other => dirty.insert (groupName, other)
      | none => dirty
    else dirty)

/-- A path of a group loses the name `name`: the path left alone with it is marked. -/
def Group.unshare (group : Group) (groupName : BufferName) (pathId : ℕ) (dirty : Dirty)
    (name : BufferName) : Group × Dirty :=
  match group.shared.lookup name with
  | none => (group, dirty)
  | some before =>
    let count := tallyRemove before pathId
    if count.1 = 0 then ({ group with shared := group.shared.erase name }, dirty)
    else ({ group with shared := group.shared.insert name count },
        if count.1 = 1 then
          match group.byId.lookup count.2 with
          | some other => dirty.insert (groupName, other)
          | none => dirty
        else dirty)

def Group.shareAll (group : Group) (groupName : BufferName) (pathId : ℕ) (dirty : Dirty)
    (names : List BufferName) : Group × Dirty :=
  names.foldl (fun (s : Group × Dirty) name => s.1.share groupName pathId s.2 name) (group, dirty)

def Group.unshareAll (group : Group) (groupName : BufferName) (pathId : ℕ) (dirty : Dirty)
    (names : List BufferName) : Group × Dirty :=
  names.foldl (fun (s : Group × Dirty) name => s.1.unshare groupName pathId s.2 name)
    (group, dirty)

def Group.newPath (group : Group) (pathId : ℕ) (path : NamePath) (holder : ℕ × BufferId)
    (dirty : Dirty) : Group × Dirty :=
  let (group, dirty) := group.shareAll path.group pathId dirty path.names
  let entry := { id := pathId, path := path, holders := [holder], depth := none }
  ({ group with
      byId := group.byId.insert pathId path.whole
      paths := group.paths.insert path.whole entry }, dirty)

def Group.dropPath (group : Group) (key : PathKey) (entry : GroupPath) (dirty : Dirty) :
    Group × Dirty :=
  let group := { group with
    paths := group.paths.erase key.2
    byId := group.byId.erase entry.id }
  let group := match entry.depth with
    | none => group
    | some depth =>
      if group.named.lookup (entry.path.name depth) = some key.2 then
        { group with named := group.named.erase (entry.path.name depth) }
      else group
  group.unshareAll key.1 entry.id dirty entry.path.names

/-- A group with a path shown by its name at `depth`. -/
def Group.setDepth (group : Group) (whole : BufferName) (entry : GroupPath) (depth : ℕ) : Group :=
  let named := match entry.depth with
    | none => group.named
    | some before =>
      if group.named.lookup (entry.path.name before) = some whole then
        group.named.erase (entry.path.name before)
      else group.named
  { group with
    named := named.insert (entry.path.name depth) whole
    paths := group.paths.insert whole { entry with depth := some depth } }

/-- Put `(place, id)` where its place is. -/
def insertHolder (holder : ℕ × BufferId) (holders : List (ℕ × BufferId)) : List (ℕ × BufferId) :=
  holders.takeWhile (fun h => h.1 < holder.1) ++
    holder :: holders.dropWhile fun h => h.1 < holder.1

namespace NameIndex

def empty : NameIndex := ⟨.empty, .empty, ∅, ∅, ∅, 0, 0⟩

variable (x : NameIndex)

def group (groupName : BufferName) : Option Group := x.groups.lookup groupName

def entry (key : PathKey) : Option GroupPath :=
  (x.group key.1).bind fun group => group.paths.lookup key.2

def placeOf (id : BufferId) : ℕ := (x.place.lookup id).getD 0

def setGroup (groupName : BufferName) (group : Group) : NameIndex :=
  { x with groups := x.groups.insert groupName group }

def join (id : BufferId) (path : NamePath) (dirty : Dirty) : NameIndex × Dirty :=
  let groupName := path.group
  let whole := path.whole
  let place := x.placeOf id
  let group := (x.group groupName).getD .default
  let (x, dirty) := match group.paths.lookup whole with
    | some entry =>
      let entry := { entry with holders := insertHolder (place, id) entry.holders }
      (x.setGroup groupName { group with paths := group.paths.insert whole entry }, dirty)
    | none =>
      let (group, dirty) := group.newPath x.nextPath path (place, id) dirty
      ({ x with nextPath := x.nextPath + 1 }.setGroup groupName group, dirty)
  ({ x with member := x.member.insert id (groupName, whole) }, dirty.insert (groupName, whole))

def leave (id : BufferId) (dirty : Dirty) : NameIndex × Dirty :=
  match x.member.lookup id with
  | none => (x, dirty)
  | some (groupName, whole) =>
    let x := { x with member := x.member.erase id }
    let place := x.placeOf id
    match x.group groupName with
    | none => (x, dirty)
    | some group =>
      match group.paths.lookup whole with
      | none => (x, dirty)
      | some entry =>
        let entry := { entry with holders := entry.holders.eraseP fun h => h.1 = place }
        if entry.holders ≠ [] then
          (x.setGroup groupName { group with paths := group.paths.insert whole entry },
            dirty.insert (groupName, whole))
        else
          let (group, dirty) := group.dropPath (groupName, whole) entry dirty
          if group.paths.entries = [] then
            ({ x with groups := x.groups.erase groupName }, dirty)
          else (x.setGroup groupName group, dirty)

def namedIn (groupName name : BufferName) : Option BufferName :=
  (x.group groupName).bind fun group => group.named.lookup name

def loneIn (groupName name : BufferName) : Option BufferName :=
  (x.group groupName).bind fun group =>
    match group.shared.lookup name with
    | some (1, pathId) => group.byId.lookup pathId
    | _ => none

/-- The path a name can be the `<N>` of, in a group. -/
def suffixedIn (groupName name : BufferName) : Option BufferName :=
  (withoutSuffix name).bind (x.namedIn groupName)

def mark (groupName : BufferName) (whole : Option BufferName) (dirty : Dirty) : Dirty :=
  match whole with
  | none => dirty
  | some whole => dirty.insert (groupName, whole)

def reservedChanged (name : BufferName) (dirty : Dirty) : Dirty :=
  (groupsOfName name).foldl
    (fun dirty groupName =>
      mark groupName (x.suffixedIn groupName name)
        (mark groupName (x.loneIn groupName name)
          (mark groupName (x.namedIn groupName name) dirty))) dirty

def derivedChanged (name : BufferName) (dirty : Dirty) : Dirty :=
  match withoutSuffix name with
  | none => dirty
  | some base =>
    (groupsOfName name).foldl
      (fun dirty groupName => mark groupName (x.namedIn groupName base) dirty) dirty

def shared (x : NameIndex) (groupName name : BufferName) : Bool :=
  ((x.group groupName).bind fun group => group.shared.lookup name).any fun count => 1 < count.1

/-- The path is shown by its name at `depth` from now on. -/
def setDepth (x : NameIndex) (key : PathKey) (entry : GroupPath) (depth : ℕ) : NameIndex :=
  match x.group key.1 with
  | none => x
  | some group =>
    if entry.depth = some depth then x else x.setGroup key.1 (group.setDepth key.2 entry depth)

end NameIndex

/-! ## The registry -/

structure Registry where
  buffers : Assoc BufferId Buffer
  order : List BufferId
  names : NameIndex

/-- The order the paths that are marked are visited in, each round: a hash set's, any. -/
structure VisitOrder where
  visit : ℕ → Dirty → Dirty
  perm : ∀ k dirty, (visit k dirty).Perm dirty

abbrev Prior := Assoc BufferId BufferName

variable (order : VisitOrder)

namespace Registry

def empty : Registry := ⟨∅, [], .empty⟩

variable (r : Registry)

def nameOf (id : BufferId) : BufferName :=
  ((r.buffers.lookup id).map (·.name)).getD []

def modify (id : BufferId) (f : Buffer → Buffer) : Registry :=
  match r.buffers.lookup id with
  | none => r
  | some b => { r with buffers := r.buffers.insert id (f b) }

/-- File buffer `id`, which holds its name, in the index. -/
def file (id : BufferId) (dirty : Dirty) : Registry × Dirty :=
  match r.buffers.lookup id with
  | none => (r, dirty)
  | some b =>
    let x := { r.names with held := r.names.held.up b.name }
    match b.namePath with
    | some path =>
      let (x, dirty) := x.join id path dirty
      ({ r with names := x }, dirty)
    | none =>
      let x := { x with reserved := x.reserved.up b.name }
      ({ r with names := x }, x.reservedChanged b.name dirty)

/-- Unfile buffer `id`, which held `name`, from the index. -/
def unfile (id : BufferId) (name : BufferName) (dirty : Dirty) : Registry × Dirty :=
  let x := { r.names with held := r.names.held.down name }
  if (x.member.lookup id).isSome then
    let (x, dirty) := x.leave id dirty
    ({ r with names := x }, x.derivedChanged name dirty)
  else
    let x := { x with reserved := x.reserved.down name }
    ({ r with names := x }, x.reservedChanged name dirty)

def rename (id : BufferId) (name : BufferName) : Registry :=
  let r := { r with names := { r.names with held := (r.names.held.down (r.nameOf id)).up name } }
  r.modify id (·.setDerivedName name)

/-- What is done to a path: the depth the path is shown by, and the buffers it renames. -/
structure Plan where
  depth : ℕ
  changes : List (BufferId × BufferName)

/-- How a path is to be named: each of its buffers by the name it held before the event. -/
def plan (groupName : BufferName) (entry : GroupPath) (prior : Prior) : Option Plan :=
  let depth := nameDepth entry.path (r.names.shared groupName) r.names.reserved.has
  let base := entry.path.name depth
  let now := entry.holders.map fun h => r.nameOf h.2
  let holds := entry.holders.map fun h => (prior.lookup h.2).getD (r.nameOf h.2)
  let taken := fun n => now.count n < r.names.held.get n
  -- a free number is found before the numbers pass the buffers
  let limit := r.order.length + 1
  (nameHolders base holds (!r.names.reserved.has base) taken limit).map fun names =>
    { depth := depth
      changes := (((entry.holders.zip now).zip names).filter fun c => c.1.2 ≠ c.2).map
        fun c => (c.1.1.2, c.2) }

/-- The buffers are renamed; the result has the old and the new names. -/
def renameAll : List (BufferId × BufferName) → Registry → Prior →
    Registry × Prior × List (BufferName × BufferName)
  | [], r, prior => (r, prior, [])
  | (id, name) :: changes, r, prior =>
    let old := r.nameOf id
    let prior := if (prior.lookup id).isSome then prior else prior.insert id old
    let (r, prior, renamed) := renameAll changes (r.rename id name) prior
    (r, prior, (old, name) :: renamed)

def namePath (key : PathKey) (prior : Prior) :
    Option (Registry × Prior × List (BufferName × BufferName)) :=
  match r.names.entry key with
  | none => some (r, prior, [])
  | some entry =>
    (r.plan key.1 entry prior).map fun plan =>
      renameAll plan.changes { r with names := r.names.setDepth key entry plan.depth } prior

/-- Name paths one after the other; the result has the paths to name next. -/
def nameAll : List PathKey → Registry → Prior → Dirty → Option (Registry × Prior × Dirty)
  | [], r, prior, next => some (r, prior, next)
  | key :: keys, r, prior, next =>
    match r.namePath key prior with
    | none => none
    | some (r, prior, renamed) =>
      let next := renamed.foldl
        (fun next c => r.names.derivedChanged c.2 (r.names.derivedChanged c.1 next)) next
      nameAll keys r prior next

/-- Rounds of naming, at most `fuel`. -/
def rounds (order : VisitOrder) : (fuel : ℕ) → Registry → Prior → Dirty → Option Registry
  | _, r, _, [] => some r
  | 0, _, _, _ :: _ => none
  | fuel + 1, r, prior, dirty =>
    match nameAll (order.visit fuel dirty) r prior [] with
    | none => none
    | some (r, prior, next) => rounds order fuel r prior next

/-- Name every path in `dirty`, and then every path the names that changed can move in turn.
    Eight rounds are enough, says an assertion. -/
def settle (r : Registry) (dirty : Dirty) : Option Registry :=
  rounds order 8 r ∅ dirty

/-! ## Events -/

def insert (order : VisitOrder) (r : Registry) (buffer : Buffer) : Option Registry :=
  let id := buffer.id
  let old := r.buffers.lookup id
  let r := { r with buffers := r.buffers.insert id buffer }
  let (r, dirty) := match old with
    | none => (r, [])
    | some old => { r with order := r.order.filter (· ≠ id) }.unfile id old.name []
  let r := { r with
    order := r.order ++ [id]
    names := { r.names with
      place := r.names.place.insert id r.names.nextPlace
      nextPlace := r.names.nextPlace + 1 } }
  let (r, dirty) := r.file id dirty
  r.settle order dirty

/-- The buffer `insertForPath` inserts. -/
def forPath (buffer : Buffer) (path : PathBuf) : Buffer :=
  ((buffer.setName []).setFilePath (some path)).nameFromPath

def insertForPath (r : Registry) (buffer : Buffer) (path : PathBuf) : Option Registry :=
  r.insert order (forPath buffer path)

def remove (r : Registry) (id : BufferId) : Option Registry :=
  match r.buffers.lookup id with
  | none => some r
  | some buf =>
    if buf.editingInProgress then some r
    else
      let r := { r with buffers := r.buffers.erase id, order := r.order.filter (· ≠ id) }
      let (r, dirty) := r.unfile id buf.name []
      { r with names := { r.names with place := r.names.place.erase id } }.settle order dirty

def unchanged (id : BufferId) (buf : Buffer) : Bool :=
  match (r.names.member.lookup id).bind r.names.entry, buf.namePath with
  | some entry, some path => entry.path.isOf path.path path.directory
  | none, none => true
  | _, _ => false

def refreshName (s : Registry × Dirty) (id : BufferId) : Registry × Dirty :=
  match s.1.buffers.lookup id with
  | none => s
  | some buf =>
    if s.1.unchanged id buf then s
    else
      let (r, dirty) := s.1.unfile id buf.name s.2
      r.file id dirty

def refreshNames (r : Registry) (ids : List BufferId) : Option Registry :=
  let (r, dirty) := ids.foldl refreshName (r, [])
  r.settle order dirty

def nameByPath (r : Registry) (id : BufferId) (path : PathBuf) : Option Registry :=
  match r.buffers.lookup id with
  | none => some r
  | some _ =>
    (r.modify id fun buf => (buf.setFilePath (some path)).nameFromPath).refreshNames order [id]

def nameByDirectory (r : Registry) (id : BufferId) (directory : PathBuf) : Option Registry :=
  match r.buffers.lookup id with
  | none => some r
  | some _ => (r.modify id (·.nameFromDirectory directory)).refreshNames order [id]

def setName (order : VisitOrder) (r : Registry) (id : BufferId) (name : BufferName) :
    Option Registry :=
  match r.buffers.lookup id with
  | none => some r
  | some buf =>
    let (r, dirty) := r.unfile id buf.name []
    let (r, dirty) := (r.modify id (·.setName name)).file id dirty
    r.settle order dirty

/-- Paths are set on registered buffers (`get_mut`), and `ids` refreshed. -/
def setPaths (r : Registry) (moves : List (BufferId × Option PathBuf))
    (ids : List BufferId) : Option Registry :=
  (moves.foldl (fun r m => r.modify m.1 (·.setFilePath m.2)) r).refreshNames order ids

end Registry

/-- What happens to a registry. The buffers whose paths are set are refreshed. -/
inductive Event where
  | insert (buffer : Buffer)
  | insertForPath (buffer : Buffer) (path : PathBuf)
  | remove (id : BufferId)
  | nameByPath (id : BufferId) (path : PathBuf)
  | nameByDirectory (id : BufferId) (directory : PathBuf)
  | setName (id : BufferId) (name : BufferName)
  | setPaths (moves : List (BufferId × Option PathBuf)) (ids : List BufferId)
      (all : ∀ m ∈ moves, m.1 ∈ ids)
  | setEditing (id : BufferId) (inProgress : Bool)

/-- An event, with the order its rounds visit paths in: `none` when the names do not settle. -/
def Registry.step (r : Registry) : Event → Option Registry
  | .insert buffer => r.insert order buffer
  | .insertForPath buffer path => r.insertForPath order buffer path
  | .remove id => r.remove order id
  | .nameByPath id path => r.nameByPath order id path
  | .nameByDirectory id directory => r.nameByDirectory order id directory
  | .setName id name => r.setName order id name
  | .setPaths moves ids _ => r.setPaths order moves ids
  | .setEditing id inProgress =>
    some (r.modify id fun buf => { buf with editingInProgress := inProgress })

end Pmacs.Naming
