/-
  The steps of the registry of MCP servers, as moves of their lives.

  * `Goes`: a supervisor that went on: of the processes that it had, all but one are there still,
    with all that was asked of them;
  * `stop_life`, `forget_life`, `maybeRestart_life`, `spawn_life` and
    `handleNext_life`: the move that each step makes.
-/
import Pmacs.Mcp.Lifecycle

namespace Pmacs

open Lib AList Function Option

namespace Mcp

/-! ## Supervisors that go on -/

namespace ProcessSupervisor

variable (s : ProcessSupervisor)

/-- A process is there still, with all that was asked of it; an end is final. -/
def KeptAt (s' : ProcessSupervisor) (pid : ProcessId) : Prop :=
  ∀ {p}, s.processes.lookup pid = some p → ∃ p', s'.processes.lookup pid = some p' ∧
    (∀ c ∈ p.commands, c ∈ p'.commands) ∧ (p.phase = .ended → p'.phase = .ended)

/-- Process ids are handed out in order. -/
def Fresh : Prop :=
  ∀ {pid p}, s.processes.lookup pid = some p → pid < s.nextId

/-- A supervisor that went on, where one process may be gone. -/
structure Goes (gone : Option ProcessId) (s s' : ProcessSupervisor) : Prop where
  nextId : s.nextId ≤ s'.nextId
  fresh : s.Fresh → s'.Fresh
  kept : ∀ {pid}, some pid ≠ gone → pid < s.nextId → s.KeptAt s' pid

theorem Goes.refl : Goes none s s :=
  ⟨le_rfl, fun h => h, fun _ _ _ hp => ⟨_, hp, fun _ hc => hc, fun he => he⟩⟩

theorem Goes.trans {gone : Option ProcessId} {s s' s'' : ProcessSupervisor} (h : Goes none s s')
    (h' : Goes gone s' s'') : Goes gone s s'' := by
  refine ⟨le_trans h.nextId h'.nextId, fun hf => h'.fresh (h.fresh hf), ?_⟩
  intro pid hpid hlt p hp
  obtain ⟨p', hp', hcommands, hended⟩ := h.kept (by simp) hlt hp
  obtain ⟨p'', hp'', hcommands', hended'⟩ := h'.kept hpid (lt_of_lt_of_le hlt h.nextId) hp'
  exact ⟨p'', hp'', fun c hc => hcommands' c (hcommands c hc), fun he => hended' (hended he)⟩

theorem Told.goes {s s' : ProcessSupervisor} (h : s.Told s') : Goes none s s' := by
  refine ⟨le_of_eq h.nextId.symm, ?_, ?_⟩
  · intro hfresh pid p' hp'; rw [h.nextId]
    cases hp : s.processes.lookup pid with
    | none => cases hp'.symm.trans (h.missing hp)
    | some p => exact hfresh hp
  intro pid _ _ p hp; obtain ⟨p', hp', htold⟩ := h.found hp
  exact ⟨p', hp', htold.commands, fun he => htold.phase.trans he⟩

theorem goes_modify (id : ProcessId) {f : Process → Process}
    (hf : ∀ p, (f p).commands = p.commands ∧ (p.phase = .ended → (f p).phase = .ended)) :
    Goes none s (s.modify id f) := by
  refine ⟨le_of_eq (nextId_modify s id f).symm, ?_, ?_⟩
  · intro hfresh pid p' hp'; rw [nextId_modify]; rw [lookup_modify] at hp'
    split at hp'
    · rename_i h; rw [map_eq_some_iff] at hp'; obtain ⟨p, hp, _⟩ := hp'
      rw [h]; exact hfresh hp
    · exact hfresh hp'
  intro pid _ _ p hp; rw [lookup_modify]
  split
  · rename_i h; rw [← h, hp]; exact ⟨f p, rfl, fun c hc => by rw [(hf p).1]; exact hc, (hf p).2⟩
  · exact ⟨p, hp, fun _ hc => hc, fun he => he⟩

theorem goes_report {id : ProcessId} (event : ProcessEvent) : Goes none s (s.report id event) := by
  refine goes_modify s id fun p => ?_
  cases hphase : p.phase with
  | ended => exact ⟨rfl, fun _ => hphase⟩
  | spawned | running =>
    refine ⟨?_, nofun⟩
    split <;> rfl

theorem goes_takeEvent {s s' : ProcessSupervisor} {id : ProcessId} {ev : ProcessEvent}
    (h : s.takeEvent id = some (ev, s')) : Goes none s s' := by
  unfold takeEvent at h
  split at h
  · cases h
  split at h
  · cases h
  · cases h; exact goes_modify s id fun p => ⟨rfl, fun he => he⟩

theorem goes_spawn : Goes none s s.spawn.2 := by
  unfold spawn
  split
  · exact ⟨Nat.le_succ _, fun hf _ _ hp => Nat.lt_succ_of_lt (hf hp),
      fun _ _ _ hp => ⟨_, hp, fun _ hc => hc, fun he => he⟩⟩
  refine ⟨Nat.le_succ _, ?_, ?_⟩
  · intro hf pid p hp
    by_cases hpid : pid = s.nextId
    · rw [hpid]; exact Nat.lt_succ_self _
    · rw [lookup_insert_ne hpid] at hp; exact Nat.lt_succ_of_lt (hf hp)
  intro pid _ hlt p hp
  refine ⟨p, ?_, fun _ hc => hc, fun he => he⟩; rw [lookup_insert_ne (ne_of_lt hlt)]
  exact hp

theorem goes_forget (id : ProcessId) : Goes (some id) s (s.forget id) := by
  unfold forget
  split
  · exact ⟨le_rfl, fun h => h, fun _ _ _ hp => ⟨_, hp, fun _ hc => hc, fun he => he⟩⟩
  split
  · refine ⟨le_rfl, ?_, ?_⟩
    · intro hf pid p hp
      by_cases hpid : pid = id
      · rw [hpid, lookup_erase] at hp; cases hp
      · rw [lookup_erase_ne hpid] at hp; exact hf hp
    intro pid hpid _ p hp
    refine ⟨p, ?_, fun _ hc => hc, fun he => he⟩
    rw [lookup_erase_ne fun h => hpid (congrArg some h)]; exact hp
  · exact ⟨le_rfl, fun h => h, fun _ _ _ hp => ⟨_, hp, fun _ hc => hc, fun he => he⟩⟩

end ProcessSupervisor

/-! ## Events -/

/-- Whether an event is one that the registry foresees in the state that a client is in: a server
    that is to stop does not start and does not accept the handshake any more, and one that is
    always restarted does not end cleanly by itself. -/
def ForeseenEvent (parse : Bytes → Except String Value) (client : McpClient) :
    ProcessEventKind → Prop
  | .started _ => client.state.isShuttingDown = false
  | .stdout bytes => client.state.isShuttingDown = true →
    acceptsIn parse client.pendingInternal (drainFrames (client.stdout ++ bytes)).1 = false
  | .exited code => code = 0 → client.spec.restart = .always → client.state.isShuttingDown = true
  | _ => True

/-- Whether an event is the end of a process, and then whether the end is clean. -/
def endOf : ProcessEventKind → Option Bool
  | .exited code => some (decide (code = 0))
  | .signaled _ => some false
  | .crashed _ => some false
  | _ => none

namespace McpManager

open Mcp.ProcessSupervisor

theorem map_lifeOf {m : McpManager} {sid : McpServerId} {c : McpClient}
    (h : m.clients.lookup sid = some c) {f : Life → Life} :
    (m.lifeOf sid).map f = some (f c.life) := by
  rw [lifeOf_of_lookup h, map_some]

theorem update_lifeOf_none {m : McpManager} {sid : McpServerId} (h : m.clients.lookup sid = none)
    (f : Life → Life) : Function.update m.lifeOf sid ((m.lifeOf sid).map f) = m.lifeOf := by
  rw [lifeOf_of_none h, map_none, ← lifeOf_of_none h, update_eq_self]

variable (m : McpManager) (sid : McpServerId)

theorem stop_life : (m.stop sid).2.lifeOf = Function.update m.lifeOf sid
      ((m.lifeOf sid).map (Life.stop (m.now + m.shutdownGrace))) ∧
    m.supervisor.Told (m.stop sid).2.supervisor := by
  unfold stop
  cases hclient : m.clients.lookup sid with
  | none => exact ⟨(update_lifeOf_none hclient _).symm, .refl _⟩
  | some client =>
    rw [map_lifeOf hclient]; dsimp only
    by_cases hover : (client.state.isTerminal || client.state.isShuttingDown) = true
    · rw [if_pos hover]
      refine ⟨?_, .refl _⟩
      refine (lifeOf_setClient m sid _).trans ?_
      rw [Life.stop, McpClient.life, McpClient.life, if_pos hover]
    rw [if_neg hover]
    refine ⟨?_, ?_⟩
    · refine (lifeOf_insert rfl).trans ?_
      rw [Life.stop, McpClient.life, McpClient.life, if_neg hover]
    split
    · exact .refl _
    · exact told_closeStdin _ _

theorem forget_life : (m.forget sid).2.lifeOf = Function.update m.lifeOf sid
      ((m.lifeOf sid).filter fun l => !l.state.isTerminal) ∧
    (m.forget sid).2.supervisor = m.supervisor := by
  unfold forget
  cases hclient : m.clients.lookup sid with
  | none =>
    refine ⟨?_, rfl⟩
    rw [lifeOf_of_none hclient, filter_none, ← lifeOf_of_none hclient, update_eq_self]
  | some client =>
    dsimp only; rw [lifeOf_of_lookup hclient]
    by_cases hover : client.state.isTerminal = true
    · rw [if_pos hover]
      refine ⟨?_, rfl⟩
      refine (lifeOf_erase rfl).trans ?_; rw [filter_some, McpClient.life, hover]; rfl
    rw [if_neg hover]
    refine ⟨?_, rfl⟩; rw [filter_some, McpClient.life, Bool.eq_false_iff.2 hover]
    show m.lifeOf = Function.update m.lifeOf sid (some client.life)
    rw [← lifeOf_of_lookup hclient, update_eq_self]

/-- What is asked of the process of a server whose time is over. -/
def escalationCommand : ShutdownEscalation → Command
  | .sigtermAt _ => .sigterm
  | .sigkillAt _ => .sigkill

/-- Nothing is due of a server, or a signal is sent to its process and the next one armed. -/
theorem maybeTerminateShuttingDown_cases :
    (m.maybeTerminateShuttingDown sid = m ∧
      ∀ l, m.lifeOf sid = some l → l.escalate m.now m.shutdownGrace = l) ∨
    ∃ client escalation next, m.clients.lookup sid = some client ∧
      client.state.isShuttingDown = true ∧ client.shutdownEscalation = some escalation ∧
      (escalationCommand escalation = .sigterm ∧ next = some (.sigkillAt (m.now + m.shutdownGrace)) ∨
        escalationCommand escalation = .sigkill ∧ next = none) ∧
      client.life.escalate m.now m.shutdownGrace =
        { client.life with shutdownEscalation := next } ∧
      m.maybeTerminateShuttingDown sid =
        { m.setClient sid { client with shutdownEscalation := next } with
          supervisor := match client.process with
            | none => m.supervisor
            | some pid => m.supervisor.command pid (escalationCommand escalation) } := by
  unfold maybeTerminateShuttingDown
  cases hclient : m.clients.lookup sid with
  | none => refine .inl ⟨rfl, fun l hl => ?_⟩; cases (lifeOf_of_none hclient).symm.trans hl
  | some client =>
    have hstays : client.life.escalate m.now m.shutdownGrace = client.life →
        ∀ l, m.lifeOf sid = some l → l.escalate m.now m.shutdownGrace = l := by
      intro h l hl; cases (lifeOf_of_lookup hclient).symm.trans hl; exact h
    dsimp only
    cases hdown : client.state.isShuttingDown with
    | false => exact .inl ⟨rfl, hstays (by rw [Life.escalate, McpClient.life, hdown]; rfl)⟩
    | true =>
      cases hescalation : client.shutdownEscalation with
      | none =>
        exact .inl ⟨rfl, hstays (by rw [Life.escalate, McpClient.life, hdown, hescalation]; rfl)⟩
      | some escalation =>
        cases escalation with
        | sigtermAt time =>
          dsimp only
          by_cases hdue : time ≤ m.now
          · rw [if_pos hdue]
            refine .inr ⟨client, .sigtermAt time, some (.sigkillAt (m.now + m.shutdownGrace)), rfl,
              hdown, hescalation, .inl ⟨rfl, rfl⟩, ?_, rfl⟩
            simp [Life.escalate, McpClient.life, hdown, hescalation, if_pos hdue]
          rw [if_neg hdue]
          refine .inl ⟨rfl, hstays ?_⟩
          simp [Life.escalate, McpClient.life, hdown, hescalation, if_neg hdue]
        | sigkillAt time =>
          dsimp only
          by_cases hdue : time ≤ m.now
          · rw [if_pos hdue]
            refine .inr ⟨client, .sigkillAt time, none, rfl, hdown, hescalation, .inr ⟨rfl, rfl⟩,
              ?_, rfl⟩
            simp [Life.escalate, McpClient.life, hdown, hescalation, if_pos hdue]
          rw [if_neg hdue]
          refine .inl ⟨rfl, hstays ?_⟩
          simp [Life.escalate, McpClient.life, hdown, hescalation, if_neg hdue]

/-! ## Processes that are spawned -/

/-- What a pass of time and of steps keeps of the registry itself. -/
structure Ages (m m' : McpManager) : Prop where
  restartBackoff : m'.restartBackoff = m.restartBackoff
  shutdownGrace : m'.shutdownGrace = m.shutdownGrace
  now : m.now ≤ m'.now
  nextServerId : m.nextServerId ≤ m'.nextServerId

theorem Ages.refl : Ages m m := ⟨rfl, rfl, le_rfl, le_rfl⟩

theorem Ages.trans {m m' m'' : McpManager} (h : Ages m m') (h' : Ages m' m'') : Ages m m'' :=
  ⟨h'.restartBackoff.trans h.restartBackoff, h'.shutdownGrace.trans h.shutdownGrace,
    le_trans h.now h'.now, le_trans h.nextServerId h'.nextServerId⟩

theorem Calm.ages {m m' : McpManager} (h : Calm m m') : Ages m m' :=
  ⟨h.restartBackoff, h.shutdownGrace, le_of_eq h.now.symm, le_of_eq h.nextServerId.symm⟩

theorem Hears.ages {m m' : McpManager} {sid : McpServerId} {state : McpClientState}
    (h : Hears sid state m m') : Ages m m' :=
  ⟨h.restartBackoff, h.shutdownGrace, le_of_eq h.now.symm, le_of_eq h.nextServerId.symm⟩

/-- What starting a process does, but for the client: requests are settled, and the process is
    spawned or not. -/
theorem startGeneration_cases (client : McpClient) :
    (m.startGeneration sid client).2.lifeOf = m.lifeOf ∧
    (m.startGeneration sid client).2.now = m.now ∧
    (m.startGeneration sid client).2.nextServerId = m.nextServerId ∧
    Ages m (m.startGeneration sid client).2 ∧
    Goes none m.supervisor (m.startGeneration sid client).2.supervisor ∧
    ((∃ e, (m.startGeneration sid client).1 = .error e ∧ m.supervisor.spawnError = some e) ∨
      (m.startGeneration sid client).1 =
          .ok { client.renewed with process := some m.supervisor.nextId } ∧
        m.supervisor.nextId < (m.startGeneration sid client).2.supervisor.nextId ∧
        ((m.startGeneration sid client).2.supervisor.processes.lookup
          m.supervisor.nextId).isSome) := by
  have hcalm := (calm_cancelDrained m client.pendingExternal).trans
    (calm_dropResourceCacheFor _ sid)
  unfold startGeneration
  generalize (m.cancelDrained client.pendingExternal).dropResourceCacheFor sid = m₁ at hcalm
  have hgoes := hcalm.supervisor.goes.trans (goes_spawn m₁.supervisor)
  have hages : Ages m { m₁ with supervisor := m₁.supervisor.spawn.2 } :=
    hcalm.ages.trans ⟨rfl, rfl, le_rfl, le_rfl⟩
  dsimp only
  cases hspawn : m₁.supervisor.spawnError with
  | some e =>
    have heq : m₁.supervisor.spawn = (.error e, { m₁.supervisor with
        nextId := m₁.supervisor.nextId + 1 }) := by simp only [ProcessSupervisor.spawn, hspawn]
    rw [heq] at hgoes hages ⊢
    exact ⟨hcalm.lifeOf, hcalm.now, hcalm.nextServerId, hages, hgoes,
      .inl ⟨e, rfl, hcalm.supervisor.spawnError.symm.trans hspawn⟩⟩
  | none =>
    have heq : m₁.supervisor.spawn = (.ok m₁.supervisor.nextId, { m₁.supervisor with
        nextId := m₁.supervisor.nextId + 1
        processes := m₁.supervisor.processes.insert m₁.supervisor.nextId
          ⟨.spawned, [], [], true, fun _ => none⟩ }) := by
      simp only [ProcessSupervisor.spawn, hspawn]
    rw [heq] at hgoes hages ⊢; have hnext := hcalm.supervisor.nextId
    refine ⟨hcalm.lifeOf, hcalm.now, hcalm.nextServerId, hages, hgoes, .inr ⟨?_, ?_, ?_⟩⟩
    · rw [hnext]
    · rw [hnext]; exact Nat.lt_succ_self _
    · rw [hnext, lookup_insert]; rfl

theorem spawn_life (spec : McpServerSpec) :
    Ages m (m.spawn spec).2 ∧ Goes none m.supervisor (m.spawn spec).2.supervisor ∧
    ((∃ e, (m.spawn spec).1 = .error e ∧ (m.spawn spec).2.lifeOf = m.lifeOf) ∨
      (m.spawn spec).1 = .ok m.nextServerId ∧
      (m.spawn spec).2.lifeOf = Function.update m.lifeOf m.nextServerId
        (some ⟨spec.restart, .starting, some m.supervisor.nextId, 1, none, none⟩) ∧
      (m.spawn spec).2.nextServerId = m.nextServerId + 1 ∧
      m.supervisor.nextId < (m.spawn spec).2.supervisor.nextId ∧
      ((m.spawn spec).2.supervisor.processes.lookup m.supervisor.nextId).isSome) := by
  unfold spawn
  dsimp only
  have hcases := startGeneration_cases { m with nextServerId := m.nextServerId + 1 }
    m.nextServerId (.new spec)
  generalize startGeneration { m with nextServerId := m.nextServerId + 1 } m.nextServerId
    (.new spec) = started at hcases ⊢
  obtain ⟨hlife, _, hnext, hages, hgoes, hcases⟩ := hcases
  have hages' : Ages m started.2 := ⟨hages.restartBackoff, hages.shutdownGrace, hages.now,
      Nat.le_of_succ_le hages.nextServerId⟩
  rcases hcases with ⟨e, he, _⟩ | ⟨hok, hlt, hsome⟩
  · rw [he]; exact ⟨hages', hgoes, .inl ⟨e, rfl, hlife⟩⟩
  rw [hok]
  refine ⟨hages'.trans ⟨rfl, rfl, le_rfl, le_rfl⟩, hgoes, .inr ⟨rfl, ?_, ?_, hlt, hsome⟩⟩
  · refine (lifeOf_setClient started.2 _ _).trans ?_; rw [hlife]; rfl
  · exact hnext

theorem maybeRestart_of_not {m : McpManager} {sid : McpServerId}
    (h : ∀ l, m.lifeOf sid = some l → l.restartDue m.now = false) : m.maybeRestart sid = m := by
  unfold maybeRestart
  cases hclient : m.clients.lookup sid with
  | none => rfl
  | some client =>
    have hdue : m.restartDue client = false := h client.life (lifeOf_of_lookup hclient); dsimp only
    rw [hdue]; rfl

/-- A server that is to be restarted now: its process is spawned, or could not be. -/
theorem maybeRestart_life {m : McpManager} {sid : McpServerId} {l : Life}
    (hl : m.lifeOf sid = some l) (hdue : l.restartDue m.now = true) :
    Ages m (m.maybeRestart sid) ∧ Goes none m.supervisor (m.maybeRestart sid).supervisor ∧
    ((∃ e, m.supervisor.spawnError = some e ∧ (m.maybeRestart sid).lifeOf =
        Function.update m.lifeOf sid (some (l.respawnFailed m.now m.restartBackoff e))) ∨
      (m.maybeRestart sid).lifeOf = Function.update m.lifeOf sid
        (some (l.respawn m.supervisor.nextId)) ∧
      m.supervisor.nextId < (m.maybeRestart sid).supervisor.nextId ∧
      ((m.maybeRestart sid).supervisor.processes.lookup m.supervisor.nextId).isSome) := by
  obtain ⟨client, hclient, rfl⟩ := lifeOf_eq_some.1 hl
  have hdue' : m.restartDue client = true := hdue
  unfold maybeRestart
  rw [hclient]
  dsimp only
  rw [if_pos hdue']
  generalize hm₁ : ({ m.pushEvent sid (.restarting (client.attempt + 1)) with
    clients := (m.pushEvent sid (.restarting (client.attempt + 1))).clients.erase sid } :
      McpManager) = m₁
  have herase : m₁.lifeOf = Function.update m.lifeOf sid none := by
    rw [← hm₁]; exact lifeOf_erase rfl
  have hsame : m₁.restartBackoff = m.restartBackoff ∧ m₁.now = m.now ∧
      m₁.supervisor = m.supervisor ∧ Ages m m₁ := by
    rw [← hm₁]; exact ⟨rfl, rfl, rfl, rfl, rfl, le_rfl, le_rfl⟩
  obtain ⟨hbackoff, hnow₁, hsup, hages₁⟩ := hsame
  have hcases := startGeneration_cases m₁ sid client
  generalize m₁.startGeneration sid client = started at hcases ⊢
  obtain ⟨hlife, hnow, _, hages, hgoes, hcases⟩ := hcases
  rw [hsup] at hgoes hcases
  have hages' := hages₁.trans hages
  rcases hcases with ⟨e, he, herror⟩ | ⟨hok, hlt, hsome⟩
  · rw [he]
    refine ⟨hages'.trans ⟨rfl, rfl, le_rfl, le_rfl⟩, hgoes, .inl ⟨e, herror, ?_⟩⟩
    refine (lifeOf_setClient started.2 _ _).trans ?_
    rw [hlife, herase, update_idem, hnow, hnow₁, hages'.restartBackoff]; rfl
  rw [hok]
  refine ⟨hages'.trans ⟨rfl, rfl, le_rfl, le_rfl⟩, hgoes, .inr ⟨?_, hlt, hsome⟩⟩
  refine (lifeOf_setClient started.2 _ _).trans ?_; rw [hlife, herase, update_idem]; rfl

/-! ## The events of a process -/

theorem onStarted_life {m : McpManager} {sid : McpServerId} {l : Life} (hl : m.lifeOf sid = some l)
    (pid atTime : ℕ) : Ages m (m.onStarted sid pid atTime) ∧
      m.supervisor.Told (m.onStarted sid pid atTime).supervisor ∧
      ∃ rid, (m.onStarted sid pid atTime).lifeOf =
        Function.update m.lifeOf sid (some { l with state := .initializing rid atTime }) := by
  obtain ⟨client, hclient, rfl⟩ := lifeOf_eq_some.1 hl
  unfold onStarted
  rw [hclient]
  dsimp only
  generalize hset : m.setClient sid { client with
    nextRequestId := client.nextRequestId + 1
    state := .initializing client.nextRequestId atTime
    pendingInternal := client.pendingInternal.insert client.nextRequestId "initialize" } = m₁
  have hages : Ages m m₁ := by rw [← hset]; exact ⟨rfl, rfl, le_rfl, le_rfl⟩
  have hsup : m₁.supervisor = m.supervisor := by rw [← hset]; rfl
  have hlife : m₁.lifeOf = Function.update m.lifeOf sid
      (some { client.life with state := .initializing client.nextRequestId atTime }) := by
    rw [← hset]; exact lifeOf_setClient m sid _
  have htalks : ∀ m₂, Talks m₁ m₂ → Ages m (m₂.pushEvent sid (.started pid)) ∧
      m.supervisor.Told (m₂.pushEvent sid (.started pid)).supervisor ∧
      ∃ rid, (m₂.pushEvent sid (.started pid)).lifeOf =
        Function.update m.lifeOf sid
          (some { client.life with state := .initializing rid atTime }) := by
    intro m₂ h; have h' := h.trans (talks_pushEvent m₂ sid (.started pid))
    exact ⟨hages.trans h'.calm.ages, hsup ▸ h'.supervisor, _, h'.calm.lifeOf.trans hlife⟩
  split
  · exact htalks _ (talks_send _ _ _)
  · exact htalks _ ((talks_send _ _ _).trans (talks_pushEvent _ _ _))

theorem onStdout_life {m : McpManager} {sid : McpServerId} {client : McpClient}
    (hclient : m.clients.lookup sid = some client) (bytes : Bytes) : ∃ state,
      Hears sid state m (m.onStdout sid bytes) ∧
      (acceptsIn m.parse client.pendingInternal (drainFrames (client.stdout ++ bytes)).1 = false →
        state = client.state) ∧
      (state = client.state ∨ state.isInitialized = true) := by
  unfold onStdout
  rw [hclient]
  have hset := calm_setClient hclient (show McpClient.life { client with
      stdout := (drainFrames (client.stdout ++ bytes)).2 } = client.life from rfl)
    m.runtime m.resourceCache
  obtain ⟨state, hhears, hstate, hor⟩ := dispatchLines_heard
    (m := m.setClient sid { client with stdout := (drainFrames (client.stdout ++ bytes)).2 })
    (lookup_insert _) (drainFrames (client.stdout ++ bytes)).1
  exact ⟨state, (hset.hears hclient).trans hhears, hstate, hor⟩

theorem onExit_life {m : McpManager} {sid : McpServerId} {l : Life} (hl : m.lifeOf sid = some l)
    (atTime : ℕ) (reason : String) (clean : Bool) : Ages m (m.onExit sid atTime reason clean) ∧
      Goes l.process m.supervisor (m.onExit sid atTime reason clean).supervisor ∧
      (m.onExit sid atTime reason clean).lifeOf =
        Function.update m.lifeOf sid (some (l.exit atTime reason clean m.restartBackoff)) := by
  obtain ⟨client, hclient, rfl⟩ := lifeOf_eq_some.1 hl
  unfold onExit
  rw [hclient]
  dsimp only
  generalize hset : ({ m.setClient sid { client with
      state := if (client.state.isShuttingDown || clean) = true then .stopped atTime
        else .crashed reason atTime
      process := none
      pendingExternal := ∅
      pendingInternal := ∅
      cancelledRids := []
      nextRestartAt := if shouldRestart client.spec.restart clean client.state.isShuttingDown = true
        then some (atTime + m.restartBackoff) else client.nextRestartAt } with
    supervisor := match client.process with
      | none => m.supervisor
      | some pid => m.supervisor.forget pid } : McpManager) = m₁
  have hages : Ages m m₁ := by rw [← hset]; exact ⟨rfl, rfl, le_rfl, le_rfl⟩
  have hgoes : Goes client.process m.supervisor m₁.supervisor := by
    rw [← hset]
    cases client.process with
    | none => exact .refl _
    | some pid => exact goes_forget _ pid
  have hlife : m₁.lifeOf = Function.update m.lifeOf sid
      (some (client.life.exit atTime reason clean m.restartBackoff)) := by
    rw [← hset]
    refine (lifeOf_insert rfl).trans ?_; rfl
  have hcalm := ((calm_cancelDrained m₁ client.pendingExternal).trans
    (calm_dropResourceCacheFor _ sid)).trans (talks_pushEvent _ sid
      (if (client.state.isShuttingDown || clean) = true then .stopped else .crashed reason)).calm
  have hboth := hages.trans hcalm.ages
  refine ⟨hboth, ?_, hcalm.lifeOf.trans hlife⟩
  refine ⟨le_trans hgoes.nextId hcalm.supervisor.goes.nextId,
    fun hf => hcalm.supervisor.goes.fresh (hgoes.fresh hf), ?_⟩
  intro pid hpid hlt p hp
  obtain ⟨p', hp', hcommands, hended⟩ := hgoes.kept hpid hlt hp
  obtain ⟨p'', hp'', htold⟩ := hcalm.supervisor.found hp'
  exact ⟨p'', hp'', fun c hc => htold.commands c (hcommands c hc),
    fun he => htold.phase.trans (hended he)⟩

/-- Handling an event: the server ends, or at most the state of its life changes, to one in which
    it runs. -/
theorem handleProcessEvent_life {m : McpManager} {sid : McpServerId} {client : McpClient}
    (hclient : m.clients.lookup sid = some client) (ev : ProcessEvent) :
    Ages m (m.handleProcessEvent sid ev) ∧
    ((∃ clean reason, endOf ev.kind = some clean ∧
        Goes client.process m.supervisor (m.handleProcessEvent sid ev).supervisor ∧
        (m.handleProcessEvent sid ev).lifeOf = Function.update m.lifeOf sid
          (some (client.life.exit ev.atTime reason clean m.restartBackoff))) ∨
      endOf ev.kind = none ∧
        Goes none m.supervisor (m.handleProcessEvent sid ev).supervisor ∧
        ∃ state, (m.handleProcessEvent sid ev).lifeOf = Function.update m.lifeOf sid
            (some { client.life with state := state }) ∧
          (ForeseenEvent m.parse client ev.kind → client.state.isShuttingDown = true →
            state = client.state) ∧
          (state = client.state ∨ state.isTerminal = false ∧ state.isShuttingDown = false)) := by
  have hlife := lifeOf_of_lookup hclient
  have htalks : ∀ m', Talks m m' → Ages m m' ∧ Goes none m.supervisor m'.supervisor ∧
      m'.lifeOf = Function.update m.lifeOf sid (some { client.life with state := client.state }) :=
    fun m' h => ⟨h.calm.ages, h.supervisor.goes,
      h.calm.lifeOf.trans (hlife ▸ (update_eq_self sid m.lifeOf).symm)⟩
  unfold handleProcessEvent
  cases hkind : ev.kind with
  | started pid =>
    obtain ⟨hages, htold, rid, hlife'⟩ := onStarted_life hlife pid ev.atTime
    refine ⟨hages, .inr ⟨rfl, htold.goes, _, hlife', ?_, .inr ⟨rfl, rfl⟩⟩⟩; intro hforeseen hdown
    rw [ForeseenEvent, hdown] at hforeseen; cases hforeseen
  | stdout bytes =>
    obtain ⟨state, hhears, haccepts, hor⟩ := onStdout_life hclient bytes
    refine ⟨hhears.ages, .inr ⟨rfl, hhears.supervisor.goes, state, ?_, ?_, ?_⟩⟩
    · rw [hhears.lifeOf, hlife]; rfl
    · exact fun hforeseen hdown => haccepts (hforeseen hdown)
    rcases hor with hor | hor
    · exact .inl hor
    · cases state <;> first | exact .inr ⟨rfl, rfl⟩ | cases hor
  | stderr bytes =>
    obtain ⟨hages, hgoes, heq⟩ := htalks _ (talks_pushEvent m sid (.stderr bytes))
    exact ⟨hages, .inr ⟨rfl, hgoes, client.state, heq, fun _ _ => rfl, .inl rfl⟩⟩
  | ansi =>
    obtain ⟨hages, hgoes, heq⟩ := htalks _ (talks_pushEvent m sid (.protocolError .ansiFromPipe))
    exact ⟨hages, .inr ⟨rfl, hgoes, client.state, heq, fun _ _ => rfl, .inl rfl⟩⟩
  | restarting =>
    obtain ⟨hages, hgoes, heq⟩ := htalks _ (talks_pushEvent m sid (.protocolError .restartedBelow))
    exact ⟨hages, .inr ⟨rfl, hgoes, client.state, heq, fun _ _ => rfl, .inl rfl⟩⟩
  | exited code =>
    obtain ⟨hages, hgoes, heq⟩ := onExit_life hlife ev.atTime ("exit code " ++ toString code)
      (decide (code = 0))
    exact ⟨hages, .inl ⟨_, _, rfl, hgoes, heq⟩⟩
  | signaled signal =>
    obtain ⟨hages, hgoes, heq⟩ := onExit_life hlife ev.atTime ("signal " ++ signal) false
    exact ⟨hages, .inl ⟨_, _, rfl, hgoes, heq⟩⟩
  | crashed error =>
    obtain ⟨hages, hgoes, heq⟩ := onExit_life hlife ev.atTime ("crashed: " ++ error) false
    exact ⟨hages, .inl ⟨_, _, rfl, hgoes, heq⟩⟩

theorem nextEvent_eq_some {m : McpManager} {sid : McpServerId} {ev : ProcessEvent}
    {s : ProcessSupervisor} (h : m.nextEvent sid = some (ev, s)) : ∃ client pid,
      m.clients.lookup sid = some client ∧ client.process = some pid ∧
        m.supervisor.takeEvent pid = some (ev, s) := by
  unfold nextEvent at h
  rw [bind_eq_some_iff] at h
  obtain ⟨pid, hpid, htake⟩ := h
  rw [bind_eq_some_iff] at hpid
  obtain ⟨client, hclient, hprocess⟩ := hpid
  exact ⟨client, pid, hclient, hprocess, htake⟩

theorem nextEvent_of_idle {m : McpManager} {sid : McpServerId}
    (h : ∀ l, m.lifeOf sid = some l → l.process = none) : m.nextEvent sid = none := by
  unfold nextEvent
  cases hclient : m.clients.lookup sid with
  | none => rfl
  | some client =>
    have hprocess : client.process = none := h client.life (lifeOf_of_lookup hclient)
    rw [bind_some, hprocess]; rfl

theorem handleNext_of_none {m : McpManager} {sid : McpServerId} (h : m.nextEvent sid = none) :
    m.handleNext sid = m := by
  unfold handleNext
  rw [h]

/-- **Handling the next event of a server.** -/
theorem handleNext_life {m : McpManager} {sid : McpServerId} {ev : ProcessEvent}
    {s : ProcessSupervisor} (h : m.nextEvent sid = some (ev, s)) : ∃ client,
    m.clients.lookup sid = some client ∧ client.process.isSome = true ∧ Ages m (m.handleNext sid) ∧
    ((∃ clean reason, endOf ev.kind = some clean ∧
        Goes client.process m.supervisor (m.handleNext sid).supervisor ∧
        (m.handleNext sid).lifeOf = Function.update m.lifeOf sid
          (some (client.life.exit ev.atTime reason clean m.restartBackoff))) ∨
      endOf ev.kind = none ∧
        Goes none m.supervisor (m.handleNext sid).supervisor ∧
        ∃ state, (m.handleNext sid).lifeOf = Function.update m.lifeOf sid
            (some { client.life with state := state }) ∧
          (ForeseenEvent m.parse client ev.kind → client.state.isShuttingDown = true →
            state = client.state) ∧
          (state = client.state ∨ state.isTerminal = false ∧ state.isShuttingDown = false)) := by
  obtain ⟨client, pid, hclient, hprocess, htake⟩ := nextEvent_eq_some h
  refine ⟨client, hclient, by rw [hprocess]; rfl, ?_⟩
  have hgoes := goes_takeEvent htake
  have heq : m.handleNext sid = handleProcessEvent { m with supervisor := s } sid ev := by
    unfold handleNext; rw [h]
  rw [heq]
  have hclient' : McpManager.clients { m with supervisor := s } = m.clients := rfl
  obtain ⟨hages, hcases⟩ := handleProcessEvent_life (m := { m with supervisor := s }) hclient ev
  refine ⟨⟨hages.restartBackoff, hages.shutdownGrace, hages.now, hages.nextServerId⟩, ?_⟩
  rcases hcases with ⟨clean, reason, hend, hgoes', hlife⟩ | ⟨hend, hgoes', state, hlife, hrest⟩
  · exact .inl ⟨clean, reason, hend, hgoes.trans hgoes', hlife⟩
  · exact .inr ⟨hend, hgoes.trans hgoes', state, hlife, hrest⟩

/-! ## Every step -/

/-- Whether a step is about a server that is known. -/
def Concerns : Action → Prop
  | .stop sid' | .forget sid' | .handleNext sid' | .maybeTerminateShuttingDown sid'
  | .maybeRestart sid' => sid' = sid
  | _ => False

/-- A step that is about no server that is known: the lives of the servers stay as they are, but
    that one may be spawned. -/
theorem calm_or_spawn (a : Action) (h : ∀ sid, ¬ Concerns sid a) :
    Ages m (m.perform a).2 ∧ Goes none m.supervisor (m.perform a).2.supervisor ∧
      ((m.perform a).2.lifeOf = m.lifeOf ∨
        (m.perform a).1 = .server m.nextServerId ∧ ∃ spec, a = .spawn spec ∧
        (m.perform a).2.lifeOf = Function.update m.lifeOf m.nextServerId
          (some ⟨spec.restart, .starting, some m.supervisor.nextId, 1, none, none⟩) ∧
        (m.perform a).2.nextServerId = m.nextServerId + 1 ∧
        m.supervisor.nextId < (m.perform a).2.supervisor.nextId ∧
        ((m.perform a).2.supervisor.processes.lookup m.supervisor.nextId).isSome) := by
  have hcalm : ∀ {P : Prop} (m'), Calm m m' → Ages m m' ∧
      Goes none m.supervisor m'.supervisor ∧ (m'.lifeOf = m.lifeOf ∨ P) :=
    fun m' h => ⟨h.ages, h.supervisor.goes, .inl h.lifeOf⟩
  cases a with
  | stop sid => exact absurd rfl (h sid)
  | forget sid => exact absurd rfl (h sid)
  | handleNext sid => exact absurd rfl (h sid)
  | maybeTerminateShuttingDown sid => exact absurd rfl (h sid)
  | maybeRestart sid => exact absurd rfl (h sid)
  | spawn spec =>
    obtain ⟨hages, hgoes, ⟨e, _, hlife⟩ | ⟨hok, hlife, hrest⟩⟩ := spawn_life m spec
    · exact ⟨hages, hgoes, .inl hlife⟩
    refine ⟨hages, hgoes, .inr ⟨?_, spec, rfl, hlife, hrest⟩⟩
    show Outcome.ofExcept .server (m.spawn spec).1 = _
    rw [hok]; rfl
  | sendRequest | invokeTool | getPrompt => exact hcalm _ (calm_dispatchReady)
  | readResource sid uri => exact hcalm _ (calm_readResource)
  | invalidateResource sid uri => exact hcalm _ (calm_invalidateResource)
  | sendNotification sid method params =>
    exact hcalm _ (talks_sendNotification m sid method params).calm
  | sendResponse sid id result => exact hcalm _ (talks_sendResponse m sid id result).calm
  | drainCancelledExternals sid => exact hcalm _ (calm_drainCancelledExternals m sid)
  | takeEvents | subscribeNotification | unsubscribeNotification | drainNotifications =>
    exact hcalm _ ⟨rfl, rfl, rfl, rfl, rfl, rfl, .refl _⟩
  | cancelJob | tickRuntime | takeResult | allocateJob => exact hcalm _ (calm_runtime m _ _)
  | report pid event =>
    exact ⟨⟨rfl, rfl, le_rfl, le_rfl⟩, goes_report _ _, .inl rfl⟩
  | refuseWrites pid refuses =>
    exact ⟨⟨rfl, rfl, le_rfl, le_rfl⟩, goes_modify _ _ fun p => ⟨rfl, fun he => he⟩, .inl rfl⟩
  | failSpawns error =>
    exact ⟨⟨rfl, rfl, le_rfl, le_rfl⟩, ⟨le_rfl, fun hf => hf,
      fun _ _ _ hp => ⟨_, hp, fun _ hc => hc, fun he => he⟩⟩, .inl rfl⟩
  | elapse time => exact ⟨⟨rfl, rfl, Nat.le_add_right _ _, le_rfl⟩, .refl _, .inl rfl⟩

end McpManager

end Mcp

end Pmacs
