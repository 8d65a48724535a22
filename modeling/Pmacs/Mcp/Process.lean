/-
  The processes of the MCP servers, as their manager sees them (process.rs), and the frames of
  their output (mcp.rs, `NdjsonParser`).

  * `nextFrame` takes one line off a buffer, `drainFrames` all that are complete;
    `drainFrames_eq`: it takes one after another;
  * `ProcessSupervisor` keeps what was asked of each process, and what it reported and was not
    handled yet; `follows` is the order in which events are reported.
-/
import Pmacs.Lsp.Process
import Pmacs.Rope.Tree

namespace Pmacs

open Lib

namespace Mcp

/-! ## Frames -/

def trimReturn (body : Bytes) : Bytes := if body.getLast? = some 0x0D then body.dropLast else body

/-- Take one line off a buffer, of which `acc` was read: the line, if one is complete that is not
    empty, and what is left. -/
def nextFrameFrom : Bytes → Bytes → Option Bytes × Bytes
  | acc, [] => (none, acc)
  | acc, b :: rest =>
    if b = 0x0A then
      if (trimReturn acc).isEmpty then nextFrameFrom [] rest else (some (trimReturn acc), rest)
    else nextFrameFrom (acc ++ [b]) rest

/-- `NdjsonParser::next_frame`. -/
def nextFrame (buf : Bytes) : Option Bytes × Bytes := nextFrameFrom [] buf

/-- Take lines off a buffer, of which `acc` was read, until none is complete. -/
def drainFramesFrom : Bytes → Bytes → List Bytes × Bytes
  | acc, [] => ([], acc)
  | acc, b :: rest =>
    if b = 0x0A then
      let drained := drainFramesFrom [] rest
      if (trimReturn acc).isEmpty then drained else (trimReturn acc :: drained.1, drained.2)
    else drainFramesFrom (acc ++ [b]) rest

/-- Take lines off a buffer until none is complete. -/
def drainFrames (buf : Bytes) : List Bytes × Bytes := drainFramesFrom [] buf

theorem drainFramesFrom_eq (acc buf : Bytes) :
    drainFramesFrom acc buf = match nextFrameFrom acc buf with
      | (none, left) => ([], left)
      | (some line, left) => (line :: (drainFrames left).1, (drainFrames left).2) := by
  induction buf generalizing acc with
  | nil => rfl
  | cons b rest ih =>
    simp only [drainFramesFrom, nextFrameFrom]
    by_cases hb : b = 0x0A
    · rw [if_pos hb, if_pos hb]
      split
      · exact ih []
      · rfl
    · rw [if_neg hb, if_neg hb]; exact ih _

/-- One line after another is taken, until none is complete. -/
theorem drainFrames_eq (buf : Bytes) :
    drainFrames buf = match nextFrame buf with
      | (none, left) => ([], left)
      | (some line, left) => (line :: (drainFrames left).1, (drainFrames left).2) :=
  drainFramesFrom_eq [] buf

/-! ## Events -/

inductive ProcessEventKind where
  | started (pid : ℕ)
  | stdout (bytes : Bytes)
  | stderr (bytes : Bytes)
  | ansi
  | exited (code : ℤ)
  | signaled (signal : String)
  | crashed (error : String)
  | restarting

structure ProcessEvent where
  kind : ProcessEventKind
  atTime : ℕ

/-! ## The supervisor -/

/-- What is asked of a process. -/
inductive Command where
  | write (frame : Frame)
  | closeStdin
  | sigterm
  | sigkill

/-- One process: the events not handled yet, what was asked of it, and what its stdin says to a
    frame that it does not take now. -/
structure Process where
  phase : ProcessPhase
  unread : List ProcessEvent
  commands : List Command
  stdinOpen : Bool
  refuses : Frame → Option String

structure ProcessSupervisor where
  nextId : ProcessId
  spawnError : Option String
  processes : Assoc ProcessId Process

namespace ProcessSupervisor

def new : ProcessSupervisor := ⟨1, none, ∅⟩

variable (s : ProcessSupervisor)

def spawn : Except String ProcessId × ProcessSupervisor :=
  match s.spawnError with
  | some e => (.error e, { s with nextId := s.nextId + 1 })
  | none =>
    (.ok s.nextId, { s with
      nextId := s.nextId + 1
      processes := s.processes.insert s.nextId ⟨.spawned, [], [], true, fun _ => none⟩ })

variable (id : ProcessId)

def modify (f : Process → Process) : ProcessSupervisor :=
  match s.processes.lookup id with
  | none => s
  | some p => { s with processes := s.processes.insert id (f p) }

/-- Ask something of a process, unless it has ended. -/
def command (c : Command) : ProcessSupervisor :=
  s.modify id fun p => if p.phase = .ended then p else { p with commands := p.commands ++ [c] }

def writeStdin (frame : Frame) : Except String Unit × ProcessSupervisor :=
  match s.processes.lookup id with
  | none => (.error s!"unknown process: {id}", s)
  | some p =>
    if p.phase = .ended then (.error s!"process {id} has no live generation", s)
    else if p.stdinOpen = false then (.error s!"process {id} stdin is not piped", s)
    else
      match p.refuses frame with
      | some e => (.error e, s)
      | none => (.ok (), s.command id (.write frame))

def closeStdin (s : ProcessSupervisor) (id : ProcessId) : ProcessSupervisor :=
  (s.modify id fun p => { p with stdinOpen := false }).command id .closeStdin

def terminate : ProcessSupervisor := s.command id .sigterm

/-- `signal(pid, SIGKILL)`. -/
def kill : ProcessSupervisor := s.command id .sigkill

def forget : ProcessSupervisor :=
  match s.processes.lookup id with
  | none => s
  | some p => if p.phase = .ended then { s with processes := s.processes.erase id } else s

/-- From now on a process's stdin refuses the frames that `refuses` gives a reason for. -/
def setRefusal (refuses : Frame → Option String) :
    ProcessSupervisor := s.modify id fun p => { p with refuses }

/-- The phase of a process after an event is reported: its start comes first, its end last, and
    none comes after it. -/
def follows : ProcessPhase → ProcessEventKind → Option ProcessPhase
  | .spawned, .started _ => some .running
  | .running, .stdout _ | .running, .stderr _ | .running, .ansi | .running, .restarting =>
    some .running
  | .running, .exited _ | .running, .signaled _ | .running, .crashed _ => some .ended
  | _, _ => none

/-- Report an event of a process; one that cannot come next does not come. -/
def report (event : ProcessEvent) : ProcessSupervisor :=
  s.modify id fun p =>
    match follows p.phase event.kind with
    | none => p
    | some phase => { p with phase, unread := p.unread ++ [event] }

def takeEvent : Option (ProcessEvent × ProcessSupervisor) :=
  match s.processes.lookup id with
  | none => none
  | some p =>
    match p.unread with
    | [] => none
    | event :: unread => some (event, s.modify id fun p => { p with unread })

end ProcessSupervisor

end Mcp

end Pmacs
