/-
  The processes of the language servers, as their manager sees them (process.rs).

  * `Frame` is a JSON-RPC message sent to a server, `Inbound` one that a server sends;
  * `ProcessEvent` is what the supervisor reports of a process: its start, the frames of
    its output, its end;
  * `ProcessSupervisor` keeps what was written to each process and what it reported and
    was not handled yet; `follows` is the order in which events are reported.
-/
import Pmacs.Lib.Assoc
import Pmacs.Lsp.Value

namespace Pmacs

open Lib

/-! ## Messages -/

structure LspError where
  code : ℤ
  message : String
  data : Option Value

def LspError.fromValue (v : Value) : LspError :=
  { code := ((v.get "code").bind Value.asI64).getD 0
    message := ((v.get "message").bind Value.asStr).getD ""
    data := v.get "data" }

/-- A message to a server. -/
inductive Frame where
  | request (id : ℕ) (method : String) (params : Value)
  | notification (method : String) (params : Value)
  | response (id : Value) (result : Except LspError Value)

/-- What a frame of a server's output reads as. -/
inductive Inbound where
  | response (id : Value) (result : Option Value) (error : Option LspError)
  | request (id : Value) (method : String) (params : Value)
  | notification (method : String) (params : Value)
  | malformed
  | frameError

/-- Read the body of a frame: a response has an id and a result or an error, a request an
    id and a method, a notification a method only. -/
def Inbound.ofValue (body : Option Value) : Inbound :=
  match body with
  | some (.object fields) =>
    let map := Value.object fields
    let result := map.get "result"
    let error := (map.get "error").map LspError.fromValue
    match map.get "id", (map.get "method").bind Value.asStr, result.isSome || error.isSome with
    | some id, none, true => .response id result error
    | some id, some method, false => .request id method ((map.get "params").getD .null)
    | none, some method, false => .notification method ((map.get "params").getD .null)
    | _, _, _ => .malformed
  | _ => .malformed

/-! ## Events -/

/-- What the supervisor reports of a process. Output is reported as the frames that it
    completes, which are read one after the other. -/
inductive ProcessEventKind where
  | started (pid : ℕ)
  | stdout (frame : Inbound)
  | stderr
  | exited (code : ℤ)
  | signaled (signal : String)
  | crashed (error : String)

structure ProcessEvent where
  kind : ProcessEventKind
  atTime : ℕ

/-! ## The supervisor -/

abbrev ProcessId := ℕ

inductive ProcessPhase where
  | spawned
  | running
  | ended
deriving DecidableEq, Repr

/-- One process: the events not handled yet, the frames its stdin took, and what its stdin
    says to a frame it does not take now. -/
structure Process where
  phase : ProcessPhase
  unread : List ProcessEvent
  written : List Frame
  refuses : Frame → Option String
  signaled : Bool

structure ProcessSupervisor where
  nextId : ProcessId
  spawnError : Option String
  processes : Assoc ProcessId Process

namespace ProcessSupervisor

def new : ProcessSupervisor := ⟨1, none, ∅⟩

variable (s : ProcessSupervisor)

def spawn : Except String ProcessId × ProcessSupervisor :=
  match s.spawnError with
  | some e => (.error e, { s with nextId := s.nextId + 1 })
  | none =>
    (.ok s.nextId, { s with
      nextId := s.nextId + 1
      processes := s.processes.insert s.nextId ⟨.spawned, [], [], fun _ => none, false⟩ })

variable (id : ProcessId)

def writeStdin (frame : Frame) : Except String Unit × ProcessSupervisor :=
  match s.processes.lookup id with
  | none => (.error s!"unknown process: {id}", s)
  | some p =>
    if p.phase = .ended then (.error s!"process {id} has no live generation", s)
    else
      match p.refuses frame with
      | some e => (.error e, s)
      | none =>
        (.ok (), { s with processes := s.processes.insert id { p with written := p.written ++ [frame] } })

/-- Send a process SIGTERM; its end is reported later. -/
def terminate : ProcessSupervisor :=
  match s.processes.lookup id with
  | none => s
  | some p =>
    if p.phase = .ended then s
    else { s with processes := s.processes.insert id { p with signaled := true } }

def forget : ProcessSupervisor :=
  match s.processes.lookup id with
  | none => s
  | some p => if p.phase = .ended then { s with processes := s.processes.erase id } else s

def written (s : ProcessSupervisor) (id : ProcessId) : List Frame :=
  ((s.processes.lookup id).map (·.written)).getD []

/-- From now on a process's stdin refuses the frames that `refuses` gives a reason for. -/
def setRefusal (refuses : Frame → Option String) : ProcessSupervisor :=
  match s.processes.lookup id with
  | none => s
  | some p => { s with processes := s.processes.insert id { p with refuses } }

/-! ## The order of events -/

/-- The phase of a process after an event is reported: its start comes first, its end
    last, and none comes after it. -/
def follows : ProcessPhase → ProcessEventKind → Option ProcessPhase
  | .spawned, .started _ => some .running
  | .running, .stdout _ | .running, .stderr => some .running
  | .running, .exited _ | .running, .signaled _ | .running, .crashed _ => some .ended
  | _, _ => none

/-- Report an event of a process; one that cannot come next does not come. -/
def report (event : ProcessEvent) : ProcessSupervisor :=
  match s.processes.lookup id with
  | none => s
  | some p =>
    match follows p.phase event.kind with
    | none => s
    | some phase =>
      { s with processes := s.processes.insert id { p with phase, unread := p.unread ++ [event] } }

def takeEvent : Option (ProcessEvent × ProcessSupervisor) :=
  match s.processes.lookup id with
  | none => none
  | some p =>
    match p.unread with
    | [] => none
    | event :: unread =>
      some (event, { s with processes := s.processes.insert id { p with unread } })

end ProcessSupervisor

end Pmacs
