/-
  Runs of the registry of MCP servers.

  * `Action` is a step, `perform` its effect and what it answers, `performAll` a run of steps;
  * `Along` is a run whose steps satisfy a condition;
  * `performAll_tickActions`: a pass over the servers is such a run.
-/
import Pmacs.Lib.Machine
import Pmacs.Mcp.Inbound

namespace Pmacs

open Lib

namespace Mcp

namespace McpManager

/-- What can happen next. -/
inductive Action where
  | spawn (spec : McpServerSpec)
  | stop (sid : McpServerId)
  | forget (sid : McpServerId)
  | sendRequest (sid : McpServerId) (method : String) (params : Value)
  | invokeTool (sid : McpServerId) (name : String) (arguments : Value)
  | getPrompt (sid : McpServerId) (name : String) (arguments : Value)
  | readResource (sid : McpServerId) (uri : String)
  | invalidateResource (sid : McpServerId) (uri : String)
  | sendNotification (sid : McpServerId) (method : String) (params : Value)
  | sendResponse (sid : McpServerId) (id : Value) (result : Except McpError Value)
  | handleNext (sid : McpServerId)
  | drainCancelledExternals (sid : McpServerId)
  | maybeTerminateShuttingDown (sid : McpServerId)
  | maybeRestart (sid : McpServerId)
  | takeEvents (sid : McpServerId)
  | subscribeNotification (method : String)
  | unsubscribeNotification (method : String)
  | drainNotifications
  | cancelJob (job : JobId)
  | tickRuntime
  | takeResult (job : JobId)
  | allocateJob (supersede : Option String)
  | report (pid : ProcessId) (event : ProcessEvent)
  | refuseWrites (pid : ProcessId) (refuses : Frame → Option String)
  | failSpawns (error : Option String)
  | elapse (time : ℕ)

/-- What a step answers. -/
inductive Outcome where
  | done
  | server (sid : McpServerId)
  | job (job : JobId)
  | failed (error : String)

def Outcome.ofExcept {α : Type} (ok : α → Outcome) : Except String α → Outcome
  | .ok a => ok a
  | .error e => .failed e

def attempt {α : Type} (ok : α → Outcome) (r : Except String α × McpManager) :
    Outcome × McpManager :=
  (.ofExcept ok r.1, r.2)

variable (m : McpManager)

def perform : Action → Outcome × McpManager
  | .spawn spec => attempt .server (m.spawn spec)
  | .stop sid => attempt (fun _ => .done) (m.stop sid)
  | .forget sid => attempt (fun _ => .done) (m.forget sid)
  | .sendRequest sid method params => attempt .job (m.sendRequest sid method params)
  | .invokeTool sid name arguments => attempt .job (m.invokeTool sid name arguments)
  | .getPrompt sid name arguments => attempt .job (m.getPrompt sid name arguments)
  | .readResource sid uri => attempt .job (m.readResource sid uri)
  | .invalidateResource sid uri => (.done, m.invalidateResource sid uri)
  | .sendNotification sid method params =>
    attempt (fun _ => .done) (m.sendNotification sid method params)
  | .sendResponse sid id result => attempt (fun _ => .done) (m.sendResponse sid id result)
  | .handleNext sid => (.done, m.handleNext sid)
  | .drainCancelledExternals sid => (.done, m.drainCancelledExternals sid)
  | .maybeTerminateShuttingDown sid => (.done, m.maybeTerminateShuttingDown sid)
  | .maybeRestart sid => (.done, m.maybeRestart sid)
  | .takeEvents sid => (.done, { m with pending := m.pending.filter (·.1 ≠ sid) })
  | .subscribeNotification method => (.done, { m with
      notificationSubscriptions := method :: m.notificationSubscriptions })
  | .unsubscribeNotification method => (.done, { m with
      notificationSubscriptions := m.notificationSubscriptions.filter (· ≠ method)
      notificationQueue := m.notificationQueue.filter (·.1 ≠ method) })
  | .drainNotifications => (.done, { m with notificationQueue := [] })
  | .cancelJob job => (.done, { m with runtime := m.runtime.cancel job })
  | .tickRuntime => (.done, { m with runtime := m.runtime.tick })
  | .takeResult job => (.done, { m with runtime := m.runtime.takeResult job })
  | .allocateJob key => (.done, { m with runtime := (m.runtime.registerExternal key).2 })
  | .report pid event => (.done, { m with supervisor := m.supervisor.report pid event })
  | .refuseWrites pid refuses =>
    (.done, { m with supervisor := m.supervisor.setRefusal pid refuses })
  | .failSpawns error => (.done, { m with supervisor := { m.supervisor with spawnError := error } })
  | .elapse time => (.done, { m with now := m.now + time })

def record (m : McpManager) (a : Action) : List Outcome × McpManager :=
  ([(m.perform a).1], (m.perform a).2)

def performAll (as : List Action) : McpManager := (Machine.run record m as).2

@[simp]
theorem performAll_nil : m.performAll [] = m := rfl

@[simp]
theorem performAll_cons (a : Action) (as : List Action) :
    m.performAll (a :: as) = (m.perform a).2.performAll as := rfl

theorem performAll_append (as bs : List Action) :
    m.performAll (as ++ bs) = (m.performAll as).performAll bs :=
  Machine.state_run_append m as bs

/-- Steps each of which satisfies a condition on the state it is taken from. -/
abbrev Along (ok : McpManager → Action → Prop) (m : McpManager) (as : List Action) : Prop :=
  Machine.Along record ok m as

/-! ## A pass over the servers -/

def serverSteps (sid : McpServerId) : List Action :=
  List.replicate (m.unreadEvents sid) (.handleNext sid) ++
    [.drainCancelledExternals sid, .maybeTerminateShuttingDown sid, .maybeRestart sid]

def tickActions (m : McpManager) : List McpServerId → List Action
  | [] => []
  | sid :: servers => m.serverSteps sid ++ (m.performAll (m.serverSteps sid)).tickActions servers

theorem performAll_replicate (sid : McpServerId) (n : ℕ) :
    m.performAll (List.replicate n (.handleNext sid)) = handleEvents sid n m := by
  induction n generalizing m with
  | zero => rfl
  | succ n ih => exact ih _

/-- **A pass over the servers is a run.** -/
theorem performAll_tickActions (servers : List McpServerId) :
    m.performAll (m.tickActions servers) = m.tick servers := by
  induction servers generalizing m with
  | nil => rfl
  | cons sid servers ih =>
    have hsteps : m.performAll (m.serverSteps sid) =
        (((m.drainProcessEvents sid).drainCancelledExternals sid).maybeTerminateShuttingDown
          sid).maybeRestart sid := by rw [serverSteps, performAll_append, performAll_replicate]; rfl
    rw [tickActions, performAll_append, ih, hsteps]; rfl

end McpManager

end Mcp

end Pmacs
