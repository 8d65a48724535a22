/-
  Runs of the registry of language servers.

  * `Action` is one call of the manager, one event that it handles, or something that
    happens around it: a report of a process, a job of somebody else, the passing of time;
  * `LspManager.perform` is its effect, `Run` one action after another;
  * `performAll` is the run of given steps, `Along` says that each satisfies a condition.
-/
import Pmacs.Lib.Machine
import Pmacs.Lsp.Documents

namespace Pmacs

open Lib

namespace LspManager

/-- One step of the manager or of the world around it. -/
inductive Action where
  | spawn (spec : LspServerSpec)
  | stop (sid : LspServerId)
  | forget (sid : LspServerId)
  | forgetUri (sid : LspServerId) (uri : String)
  | sendRequest (sid : LspServerId) (method : String) (params : Value)
  | request (sid : LspServerId) (request : LspRequest)
  | sendNotification (sid : LspServerId) (method : String) (params : Value)
  | sendResponse (sid : LspServerId) (id : Value) (result : Except LspError Value)
  | didOpen (sid : LspServerId) (uri : String) (version : ℤ) (text : List Char)
  | didChangeFull (sid : LspServerId) (uri : String) (version : ℤ) (text : List Char)
  | didChangeIncremental (sid : LspServerId) (uri : String) (version : ℤ) (bufferLen : ℕ)
  | didSave (sid : LspServerId) (uri : String) (text : List Char)
  | resendDidSave (sid : LspServerId) (uri : String)
  | documentOffDisk (sid : LspServerId) (uri : String)
  | didClose (sid : LspServerId) (uri : String)
  | markDocumentStale (sid : LspServerId) (uri : String)
  | recordEdit (uri : String) (edit : DocumentEdit) (inserted : List Char)
  | noteRecorder (uri : String)
  | handleNext (sid : LspServerId)
  | drainCancelledExternals (sid : LspServerId)
  | maybeRestart (sid : LspServerId)
  | takeEvents (sid : LspServerId)
  | setRequestTimeout (timeout : ℕ)
  | cancelJob (job : JobId)
  | tickRuntime
  | takeResult (job : JobId)
  | allocateJob (supersede : Option String)
  | report (pid : ProcessId) (event : ProcessEvent)
  | refuseWrites (pid : ProcessId) (refuses : Frame → Option String)
  | failSpawns (error : Option String)
  | elapse (time : ℕ)

/-- What a step answers. -/
inductive Outcome where
  | done
  | server (sid : LspServerId)
  | sent (rid : ℕ)
  | job (job : JobId)
  | flag (b : Bool)
  | failed (error : String)

def Outcome.ofExcept {α : Type} (ok : α → Outcome) : Except String α → Outcome
  | .ok a => ok a
  | .error e => .failed e

def attempt {α : Type} (ok : α → Outcome) (r : Except String α × LspManager) :
    Outcome × LspManager :=
  (.ofExcept ok r.1, r.2)

variable (m : LspManager)

def perform : Action → Outcome × LspManager
  | .spawn spec => attempt .server (m.spawn spec)
  | .stop sid => attempt (fun _ => .done) (m.stop sid)
  | .forget sid => attempt (fun _ => .done) (m.forget sid)
  | .forgetUri sid uri => attempt (fun _ => .done) (m.forgetUri sid uri)
  | .sendRequest sid method params => attempt .sent (m.sendRequest sid method params)
  | .request sid request => attempt .job (m.request sid (m.ask sid request))
  | .sendNotification sid method params =>
    attempt (fun _ => .done) (m.sendNotification sid method params)
  | .sendResponse sid id result => attempt (fun _ => .done) (m.sendResponse sid id result)
  | .didOpen sid uri version text => attempt (fun _ => .done) (m.didOpen sid uri version text)
  | .didChangeFull sid uri version text =>
    attempt (fun _ => .done) (m.didChangeFull sid uri version text)
  | .didChangeIncremental sid uri version bufferLen =>
    attempt .flag (m.didChangeIncremental sid uri version bufferLen)
  | .didSave sid uri text => attempt .flag (m.didSave sid uri text)
  | .resendDidSave sid uri => attempt .flag (m.resendDidSave sid uri)
  | .documentOffDisk sid uri => (.done, m.documentOffDisk sid uri)
  | .didClose sid uri => attempt (fun _ => .done) (m.didClose sid uri)
  | .markDocumentStale sid uri => (.done, m.markDocumentStale sid uri)
  | .recordEdit uri edit inserted => (.done, m.recordEdit uri edit inserted)
  | .noteRecorder uri => (.done, m.noteRecorder uri)
  | .handleNext sid => (.done, m.handleNext sid)
  | .drainCancelledExternals sid => (.done, m.drainCancelledExternals sid)
  | .maybeRestart sid => (.done, m.maybeRestart sid)
  | .takeEvents sid => (.done, { m with events := m.events.filter (·.1 ≠ sid) })
  | .setRequestTimeout timeout => (.done, { m with requestTimeout := timeout })
  | .cancelJob job => (.done, { m with runtime := m.runtime.cancel job })
  | .tickRuntime => (.done, { m with runtime := m.runtime.tick })
  | .takeResult job => (.done, { m with runtime := m.runtime.takeResult job })
  | .allocateJob key => (.done, { m with runtime := (m.runtime.registerExternal key).2 })
  | .report pid event => (.done, { m with supervisor := m.supervisor.report pid event })
  | .refuseWrites pid refuses =>
    (.done, { m with supervisor := m.supervisor.setRefusal pid refuses })
  | .failSpawns error => (.done, { m with supervisor := { m.supervisor with spawnError := error } })
  | .elapse time => (.done, { m with now := m.now + time })

/-- A run: its steps, each with what it answered. -/
inductive Run (m₀ : LspManager) : List (Action × Outcome) → LspManager → Prop where
  | start : Run m₀ [] m₀
  | step {trace : List (Action × Outcome)} {m : LspManager} (h : Run m₀ trace m) (a : Action) :
      Run m₀ (trace ++ [(a, (m.perform a).1)]) (m.perform a).2

namespace Run

theorem trans {m₀ m₁ m₂ : LspManager} {t₁ t₂ : List (Action × Outcome)} (h₁ : Run m₀ t₁ m₁)
    (h₂ : Run m₁ t₂ m₂) : Run m₀ (t₁ ++ t₂) m₂ := by
  induction h₂ with
  | start => rwa [List.append_nil]
  | step _ a ih => rw [← List.append_assoc]; exact ih.step a

theorem one (a : Action) : Run m [(a, (m.perform a).1)] (m.perform a).2 :=
  start.step a

end Run

def record (m : LspManager) (a : Action) : List (Action × Outcome) × LspManager :=
  ([(a, (m.perform a).1)], (m.perform a).2)

/-- Steps one after the other, with what they answered. -/
def performAll (m : LspManager) (as : List Action) : List (Action × Outcome) × LspManager :=
  Machine.run record m as

theorem run_performAll (as : List Action) : Run m (m.performAll as).1 (m.performAll as).2 := by
  induction as generalizing m with
  | nil => exact .start
  | cons a as ih => exact (Run.one m a).trans (ih _)

theorem performAll_append (as bs : List Action) :
    (m.performAll (as ++ bs)).2 = ((m.performAll as).2.performAll bs).2 :=
  Machine.state_run_append m as bs

/-- Steps each of which satisfies a condition on the state it is taken from. -/
abbrev Along (ok : LspManager → Action → Prop) (m : LspManager) (as : List Action) : Prop :=
  Machine.Along record ok m as

/-! ## A pass over the servers -/

/-- The steps of a pass: what was reported of each server is handled, then it is swept and
    restarted. -/
def tickActions (m : LspManager) : List LspServerId → List Action
  | [] => []
  | sid :: servers =>
    let steps := List.replicate (m.unreadEvents sid) (.handleNext sid) ++
      [.drainCancelledExternals sid, .maybeRestart sid]
    steps ++ (m.performAll steps).2.tickActions servers

theorem performAll_replicate (sid : LspServerId) (n : ℕ) :
    (m.performAll (List.replicate n (.handleNext sid))).2 = handleEvents sid n m := by
  induction n generalizing m with
  | zero => rfl
  | succ n ih => exact ih _

/-- **A pass over the servers is a run.** -/
theorem performAll_tickActions (servers : List LspServerId) :
    (m.performAll (m.tickActions servers)).2 = m.tick servers := by
  induction servers generalizing m with
  | nil => rfl
  | cons sid servers ih =>
    have hsteps : (m.performAll (List.replicate (m.unreadEvents sid) (.handleNext sid) ++
        [.drainCancelledExternals sid, .maybeRestart sid])).2 =
        ((m.drainProcessEvents sid).drainCancelledExternals sid).maybeRestart sid := by
      rw [performAll_append, performAll_replicate]; rfl
    rw [tickActions, performAll_append, ih, hsteps]; rfl

end LspManager

end Pmacs
