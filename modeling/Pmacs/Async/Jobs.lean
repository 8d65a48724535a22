/-
  The async runtime's jobs (async_runtime.rs): how they are born, what their replies do
  to them, and how their results and batches are taken.

  * `PendingJob.receive` is what one reply does to a job, `PendingJob.drain` takes one
    batch from a stream;
  * `tick` reads the bus, `takeStreamBatches` and `takeResult` give out what it read.
-/
import Pmacs.Lib.Assoc
import Pmacs.Lsp.Value

namespace Pmacs.Async

open Lib

abbrev JobId := ℕ

/-! ## What crosses the bus -/

structure GrepMatch where
  file : String
  line : ℕ
  matchStart : ℕ
  matchEnd : ℕ
  text : String

inductive StreamPayload where
  | u64 (n : ℕ)
  | grepMatch (found : GrepMatch)

inductive FsEntryKind where
  | file
  | dir
  | symlink
  | other

structure FsDirEntry where
  name : String
  kind : FsEntryKind
  size : ℕ
  mtimeSecs : ℤ
  mtimeNsec : ℕ
  mode : ℕ
  symlinkTarget : Option String

structure FsDirEntryError where
  name : Option String
  message : String

structure FsDirListing where
  entries : List FsDirEntry
  errors : Option (List FsDirEntryError)

/-- What a worker, or the main thread for an external job, says about a job. -/
inductive ReplyKind where
  | sleep
  | sum (total : ℕ)
  | cancelled
  | error (message : String)
  | streamItem (item : StreamPayload)
  | streamClosed
  | parse (durationMs : ℕ)
  | readDir (listing : FsDirListing)
  | stat (entry : FsDirEntry)
  | fsUnit
  | json (value : Value)

structure WorkerReply where
  jobId : JobId
  kind : ReplyKind

/-! ## Jobs -/

inductive JobResult where
  | unit
  | sum (total : ℕ)
  | parse (durationMs : ℕ)
  | readDir (listing : FsDirListing)
  | stat (entry : FsDirEntry)
  | json (value : Value)

inductive JobOutcome where
  | complete (result : JobResult)
  | cancelled
  | failed (message : String)

inductive PendingState where
  | running
  | complete (result : JobResult)
  | cancelled
  | failed (message : String)

def PendingState.outcome : PendingState → Option JobOutcome
  | .running => none
  | .complete result => some (.complete result)
  | .cancelled => some .cancelled
  | .failed message => some (.failed message)

def JobOutcome.state : JobOutcome → PendingState
  | .complete result => .complete result
  | .cancelled => .cancelled
  | .failed message => .failed message

inductive JobKind where
  | sleep
  | computeSum
  | emitN
  | grep
  | parse
  | fsReadDir
  | fsWalkTree
  | fsStat
  | fsRename
  | fsChmod
  | fsRemove
  | mcpRequest
  | lspRequest

/-- A filesystem mutation, with the paths it works on. -/
inductive ResourceOp where
  | rename (source target : String)
  | remove (path : String)

/-- What one job is born with; `stream` is a streaming job's cap on a batch. -/
structure JobSpec where
  kind : JobKind
  supersede : Option String
  stream : Option ℕ
  resource : Option ResourceOp
  purpose : String

structure PendingJob where
  state : PendingState
  supersedeKey : Option String
  streamBuffer : Option (List StreamPayload)
  maxBatch : ℕ
  kind : JobKind
  resource : Option ResourceOp
  purpose : String

/-- The outcome that a reply settles a job with; an item settles nothing. -/
def ReplyKind.outcome : ReplyKind → Option JobOutcome
  | .streamItem _ => none
  | .streamClosed => some (.complete .unit)
  | .sleep => some (.complete .unit)
  | .fsUnit => some (.complete .unit)
  | .sum total => some (.complete (.sum total))
  | .parse durationMs => some (.complete (.parse durationMs))
  | .readDir listing => some (.complete (.readDir listing))
  | .stat entry => some (.complete (.stat entry))
  | .json value => some (.complete (.json value))
  | .cancelled => some .cancelled
  | .error message => some (.failed message)

def ReplyKind.item : ReplyKind → Option StreamPayload
  | .streamItem item => some item
  | _ => none

/-- What a reply does to a job, and whether it settles it. An item is kept by a stream
    only, whether or not the stream has settled. -/
def PendingJob.receive (job : PendingJob) (kind : ReplyKind) : PendingJob × Bool :=
  match kind.outcome with
  | none => ({ job with streamBuffer := job.streamBuffer.map (· ++ kind.item.toList) }, false)
  | some outcome =>
    match job.state with
    | .running => ({ job with state := outcome.state }, true)
    -- a settled job that gets another reply
    | _ => (job, false)

/-! ## Streams -/

structure StreamBatch where
  id : JobId
  items : List StreamPayload
  closed : Bool
  outcome : Option JobOutcome

/-- The next batch of a job, and the job after it; a stream that runs and has no item
    contributes none. -/
def PendingJob.drain (id : JobId) (job : PendingJob) : Option (StreamBatch × PendingJob) :=
  match job.streamBuffer with
  | none => none
  | some buf =>
    let take := min buf.length (max job.maxBatch 1)
    let settled := job.state.outcome.isSome
    if take = 0 ∧ settled = false then none
    else
      let left := buf.drop take
      let closed := settled && left.isEmpty
      some (⟨id, buf.take take, closed, if closed then job.state.outcome else none⟩,
        { job with streamBuffer := some left })

/-! ## The runtime -/

/-- A job that settled, as the ring of completions remembers it. -/
structure CompletedSlot where
  id : JobId
  kind : JobKind
  supersedeKey : Option String
  purpose : String
  outcome : JobOutcome

def COMPLETED_RING_CAP : ℕ := 64

def DEFAULT_MAX_BATCH : ℕ := 1024

/-- The runtime. `bus` holds the envelopes not read yet, `none` one that does not decode;
    `cancelledTokens` the jobs whose token is flipped. -/
structure AsyncRuntime (Bundle : Type) where
  bus : List (Option WorkerReply)
  nextJobId : JobId
  pending : Assoc JobId PendingJob
  supersede : Assoc String JobId
  defaultMaxBatch : ℕ
  completed : List CompletedSlot
  parseHandoff : Assoc JobId Bundle
  /-- Innermost last. -/
  dispatchNames : List String
  cancelledTokens : List JobId

structure TickOutcome where
  settled : List JobId
  resources : List ResourceOp

namespace AsyncRuntime

variable {Bundle : Type}

def withPool : AsyncRuntime Bundle := ⟨[], 0, ∅, ∅, DEFAULT_MAX_BATCH, [], ∅, [], []⟩

variable (rt : AsyncRuntime Bundle)

def setDefaultMaxBatch (n : ℕ) : AsyncRuntime Bundle :=
  { rt with defaultMaxBatch := min (max n 1) 1000000 }

def pushDispatchName (name : String) : AsyncRuntime Bundle :=
  { rt with dispatchNames := rt.dispatchNames ++ [name] }

def popDispatchName : AsyncRuntime Bundle :=
  { rt with dispatchNames := rt.dispatchNames.dropLast }

def currentDispatchName : Option String := rt.dispatchNames.getLast?

def cancel (id : JobId) : AsyncRuntime Bundle :=
  match rt.pending.lookup id with
  | none => rt
  | some _ => { rt with cancelledTokens := id :: rt.cancelledTokens }

def composePurpose (name : Option String) (purpose : String) : String :=
  match name with
  | some name => if purpose.isEmpty then name else name ++ ": " ++ purpose
  | none => purpose

/-- Give a key to a new job: the token of the job that had it is flipped. -/
def claimKey (key : String) (id : JobId) : AsyncRuntime Bundle :=
  let rt := match rt.supersede.lookup key with
    | none => rt
    | some prior => rt.cancel prior
  { rt with supersede := rt.supersede.insert key id }

def allocate (spec : JobSpec) : JobId × AsyncRuntime Bundle :=
  let id := rt.nextJobId
  let job : PendingJob := {
    state := .running
    supersedeKey := spec.supersede
    streamBuffer := spec.stream.map fun _ => []
    maxBatch := spec.stream.getD 0
    kind := spec.kind
    resource := spec.resource
    purpose := composePurpose rt.currentDispatchName spec.purpose }
  let rt := match spec.supersede with
    | none => rt
    | some key => rt.claimKey key id
  (id, { rt with nextJobId := id + 1, pending := rt.pending.insert id job })

def batchCap : Option ℕ → ℕ
  | none => rt.defaultMaxBatch
  | some n => min (max n 1) 1000000

def dispatchEmitN (count : ℕ) (supersede : Option String)
    (maxBatch : Option ℕ) : JobId × AsyncRuntime Bundle :=
  rt.allocate ⟨.emitN, supersede, some (rt.batchCap maxBatch), none, s!"emit {count} items"⟩

def dispatchComputeSum (n : ℕ) (supersede : Option String) : JobId × AsyncRuntime Bundle :=
  rt.allocate ⟨.computeSum, supersede, none, none, s!"sum 1..{n}"⟩

def registerExternal (kind : JobKind) (supersede : Option String)
    (purpose : String) : JobId × AsyncRuntime Bundle :=
  rt.allocate ⟨kind, supersede, none, none, purpose⟩

def send (env : Option WorkerReply) : AsyncRuntime Bundle :=
  { rt with bus := rt.bus ++ [env] }

def completeExternalOk (id : JobId) (value : Value) :
    AsyncRuntime Bundle := rt.send (some ⟨id, .json value⟩)

def completeExternalFailed (id : JobId) (message : String) :
    AsyncRuntime Bundle := rt.send (some ⟨id, .error message⟩)

def completeExternalCancelled (id : JobId) : AsyncRuntime Bundle :=
  rt.send (some ⟨id, .cancelled⟩)

/-- A worker leaves a parsed tree for the main thread. -/
def handOff (id : JobId) (bundle : Bundle) : AsyncRuntime Bundle :=
  { rt with parseHandoff := rt.parseHandoff.insert id bundle }

def takeParseTree (id : JobId) : Option Bundle × AsyncRuntime Bundle :=
  (rt.parseHandoff.lookup id, { rt with parseHandoff := rt.parseHandoff.erase id })

/-! ## The tick -/

/-- Read one envelope into the table; a job that it settles is added to the list. -/
def readEnvelope (acc : Assoc JobId PendingJob × List JobId) (env : Option WorkerReply) :
    Assoc JobId PendingJob × List JobId :=
  match env with
  | none => acc
  | some reply =>
    match acc.1.lookup reply.jobId with
    | none => acc
    | some job =>
      (acc.1.insert reply.jobId (job.receive reply.kind).1,
        if (job.receive reply.kind).2 then acc.2 ++ [reply.jobId] else acc.2)

/-- What is kept of a job that has just settled: its mutation if it completed, its key's
    freedom, its place among the completions. -/
def recordSettled (pending : Assoc JobId PendingJob)
    (acc : List ResourceOp × Assoc String JobId × List CompletedSlot) (id : JobId) :
    List ResourceOp × Assoc String JobId × List CompletedSlot :=
  match pending.lookup id with
  | none => acc
  | some job =>
    let resources := match job.resource, job.state with
      | some resource, .complete _ => acc.1 ++ [resource]
      | _, _ => acc.1
    let supersede := match job.supersedeKey with
      | none => acc.2.1
      | some key => if acc.2.1.lookup key = some id then acc.2.1.erase key else acc.2.1
    match job.state.outcome with
    | none => (resources, supersede, acc.2.2)
    | some outcome =>
      (resources, supersede, ⟨id, job.kind, job.supersedeKey, job.purpose, outcome⟩ :: acc.2.2)

/-- Read every envelope on the bus, then record what settled. -/
def tick : TickOutcome × AsyncRuntime Bundle :=
  let (pending, settled) := rt.bus.foldl readEnvelope (rt.pending, [])
  let (resources, supersede, completed) :=
    settled.foldl (recordSettled pending) ([], rt.supersede, rt.completed)
  (⟨settled, resources⟩, { rt with
    bus := []
    pending := pending
    supersede := supersede
    completed := completed.take COMPLETED_RING_CAP })

/-! ## Taking -/

/-- One batch of each stream that has one; a closed stream leaves the table. The order of
    the streams is the table's, and arbitrary. -/
def takeStreamBatches : List StreamBatch × AsyncRuntime Bundle :=
  let out := rt.pending.entries.filterMap fun e => (e.2.drain e.1).map Prod.fst
  let drained := Assoc.mapVal (fun id job => ((job.drain id).map Prod.snd).getD job) rt.pending
  let toEvict := (out.filter fun batch => batch.closed).map fun batch => batch.id
  (out, { rt with pending := Assoc.retain (fun id _ => decide (id ∉ toEvict)) drained })

/-- Take the outcome of a job that has settled; the job leaves the table, and a tree that
    was left for it goes with it. -/
def takeResult (id : JobId) : Option JobOutcome × AsyncRuntime Bundle :=
  match rt.pending.lookup id with
  | none => (none, rt)
  | some job =>
    match job.state.outcome with
    | none => (none, rt)
    | some outcome => (some outcome, { rt with
        pending := rt.pending.erase id
        parseHandoff := rt.parseHandoff.erase id })

end AsyncRuntime

end Pmacs.Async
