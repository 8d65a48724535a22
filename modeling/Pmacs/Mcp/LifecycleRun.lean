/-
  The lifecycle of the MCP servers over whole runs.

  * `Wf`: processes have one owner, a server has a process as long as its life is not over, and
    one that is to stop is never restarted and is asked to end ever more harshly (`Armed`);
    `wf_perform`: every step keeps this;
  * `Foreseen` is a condition on a step: no server that is to stop starts or accepts the
    handshake, and none that is always restarted ends cleanly by itself.
-/
import Pmacs.Mcp.LifecycleSteps

namespace Pmacs

open Lib Function Option

namespace Mcp

variable {l : Life} {m m' : McpManager} {sid : McpServerId} {pid : ProcessId} {attempt : ℕ}

/-! ## What was asked of a process -/

/-- Something was asked of a process, unless it had ended. -/
def ProcessSupervisor.Asked (s : ProcessSupervisor) (pid : ProcessId) (c : Command) : Prop :=
  ∃ p, s.processes.lookup pid = some p ∧ (c ∈ p.commands ∨ p.phase = .ended)

variable {s' s : ProcessSupervisor}

theorem ProcessSupervisor.Asked.kept {c : Command}
    (h : s.Asked pid c) (hkept : s.KeptAt s' pid) : s'.Asked pid c := by
  obtain ⟨p, hp, hasked⟩ := h
  obtain ⟨p', hp', hcommands, hended⟩ := hkept hp
  exact ⟨p', hp', hasked.imp (hcommands c) hended⟩

/-- The process of a server that is to stop was asked to end: its stdin is closed and SIGTERM is
    due, or it was sent and SIGKILL is due, or that was sent. -/
def Armed (s : ProcessSupervisor) (l : Life) : Prop :=
  ∃ pid, l.process = some pid ∧
    match l.shutdownEscalation with
    | some (.sigtermAt _) => s.Asked pid .closeStdin
    | some (.sigkillAt _) => s.Asked pid .sigterm
    | none => s.Asked pid .sigkill

theorem Armed.kept (h : Armed s l)
    (hkept : ∀ pid, l.process = some pid → s.KeptAt s' pid) : Armed s' l := by
  obtain ⟨pid, hpid, hasked⟩ := h
  refine ⟨pid, hpid, ?_⟩
  have hk : s.KeptAt s' pid := hkept pid hpid
  split at hasked <;> exact hasked.kept hk

namespace McpManager

open Mcp.ProcessSupervisor

/-! ## The invariant -/

/-- Processes have one owner, a server has a process as long as its life is not over, and one
    that is to stop is asked to end and never restarted. -/
structure Wf (m : McpManager) : Prop where
  fresh : m.supervisor.Fresh
  known : ∀ {sid l}, m.lifeOf sid = some l → sid < m.nextServerId
  process : ∀ {sid l pid}, m.lifeOf sid = some l → l.process = some pid →
    (m.supervisor.processes.lookup pid).isSome
  owner : ∀ {sid sid' l l' pid}, m.lifeOf sid = some l → m.lifeOf sid' = some l' →
    l.process = some pid → l'.process = some pid → sid = sid'
  live : ∀ {sid l}, m.lifeOf sid = some l → (l.process = none ↔ l.state.isTerminal = true)
  idle : ∀ {sid l}, m.lifeOf sid = some l → l.process.isSome → l.nextRestartAt = none
  down : ∀ {sid l}, m.lifeOf sid = some l → l.state.isShuttingDown = true →
    l.restart = .never ∧ Armed m.supervisor l

theorem Wf.lt (h : Wf m)
    (hl : m.lifeOf sid = some l) (hpid : l.process = some pid) : pid < m.supervisor.nextId := by
  obtain ⟨p, hp⟩ := isSome_iff_exists.1 (h.process hl hpid)
  exact h.fresh hp

theorem Wf.update (h : Wf m) {l' : Life}
    {gone : Option ProcessId} (hlife : m'.lifeOf = Function.update m.lifeOf sid (some l'))
    (hgoes : Goes gone m.supervisor m'.supervisor) (hages : Ages m m')
    (hgone : gone = none ∨ ∃ l, m.lifeOf sid = some l ∧ gone = l.process)
    (hsid : sid < m'.nextServerId) (hprocess : ∀ {pid}, l'.process = some pid →
      (m'.supervisor.processes.lookup pid).isSome ∧
      ∀ {sid' l''}, sid' ≠ sid → m.lifeOf sid' = some l'' → l''.process ≠ some pid)
    (hlive : l'.process = none ↔ l'.state.isTerminal = true)
    (hidle : l'.process.isSome → l'.nextRestartAt = none)
    (hdown : l'.state.isShuttingDown = true → l'.restart = .never ∧ Armed m'.supervisor l') :
    Wf m' := by
  have hself : m'.lifeOf sid = some l' := by rw [hlife, update_self]
  have hother : ∀ {sid'}, sid' ≠ sid → m'.lifeOf sid' = m.lifeOf sid' := by
    intro sid' hne; rw [hlife, update_of_ne hne]
  have hkept : ∀ {sid' l'' pid}, sid' ≠ sid → m.lifeOf sid' = some l'' →
      l''.process = some pid → m.supervisor.KeptAt m'.supervisor pid := by
    intro sid' l'' pid hne hl'' hpid
    refine hgoes.kept ?_ (h.lt hl'' hpid)
    rcases hgone with rfl | ⟨l, hl, rfl⟩
    · simp
    · intro heq; exact hne (h.owner hl'' hl hpid heq.symm)
  refine ⟨hgoes.fresh h.fresh, ?_, ?_, ?_, ?_, ?_, ?_⟩
  · intro sid' l'' hl''
    by_cases hne : sid' = sid
    · exact hne ▸ hsid
    · exact lt_of_lt_of_le (h.known (hother hne ▸ hl'')) hages.nextServerId
  · intro sid' l'' pid hl'' hpid
    by_cases hne : sid' = sid
    · subst hne; cases hself.symm.trans hl''; exact (hprocess hpid).1
    have hl := hother hne ▸ hl''; obtain ⟨p, hp⟩ := isSome_iff_exists.1 (h.process hl hpid)
    obtain ⟨p', hp', _⟩ := hkept hne hl hpid hp; rw [hp']; rfl
  · intro sid₁ sid₂ l₁ l₂ pid hl₁ hl₂ hpid₁ hpid₂
    by_cases h₁ : sid₁ = sid
    · by_cases h₂ : sid₂ = sid
      · exact h₁.trans h₂.symm
      subst h₁; cases hself.symm.trans hl₁
      exact absurd hpid₂ ((hprocess hpid₁).2 h₂ (hother h₂ ▸ hl₂))
    by_cases h₂ : sid₂ = sid
    · subst h₂; cases hself.symm.trans hl₂
      exact absurd hpid₁ ((hprocess hpid₂).2 h₁ (hother h₁ ▸ hl₁))
    · exact h.owner (hother h₁ ▸ hl₁) (hother h₂ ▸ hl₂) hpid₁ hpid₂
  · intro sid' l'' hl''
    by_cases hne : sid' = sid
    · subst hne; cases hself.symm.trans hl''; exact hlive
    · exact h.live (hother hne ▸ hl'')
  · intro sid' l'' hl''
    by_cases hne : sid' = sid
    · subst hne; cases hself.symm.trans hl''; exact hidle
    · exact h.idle (hother hne ▸ hl'')
  intro sid' l'' hl'' hdown''
  by_cases hne : sid' = sid
  · subst hne; cases hself.symm.trans hl''; exact hdown hdown''
  have hl := hother hne ▸ hl''; obtain ⟨hrestart, harmed⟩ := h.down hl hdown''
  exact ⟨hrestart, harmed.kept fun pid hpid => hkept hne hl hpid⟩

theorem Wf.same (h : Wf m) (hlife : m'.lifeOf = m.lifeOf)
    (hgoes : Goes none m.supervisor m'.supervisor) (hages : Ages m m') : Wf m' := by
  have hkept : ∀ {sid l pid}, m.lifeOf sid = some l → l.process = some pid →
      m.supervisor.KeptAt m'.supervisor pid := fun hl hpid => hgoes.kept (by simp) (h.lt hl hpid)
  refine ⟨hgoes.fresh h.fresh, ?_, ?_, ?_, ?_, ?_, ?_⟩
  · exact fun hl => lt_of_lt_of_le (h.known (hlife ▸ hl)) hages.nextServerId
  · intro sid l pid hl hpid; have hl := hlife ▸ hl
    obtain ⟨p, hp⟩ := isSome_iff_exists.1 (h.process hl hpid)
    obtain ⟨p', hp', _⟩ := hkept hl hpid hp; rw [hp']; rfl
  · exact fun hl hl' => h.owner (hlife ▸ hl) (hlife ▸ hl')
  · exact fun hl => h.live (hlife ▸ hl)
  · exact fun hl => h.idle (hlife ▸ hl)
  intro sid l hl hdown; have hl := hlife ▸ hl; obtain ⟨hrestart, harmed⟩ := h.down hl hdown
  exact ⟨hrestart, harmed.kept fun pid hpid => hkept hl hpid⟩

theorem Wf.forget (h : Wf m) (hlife : ∀ {sid l}, m'.lifeOf sid = some l → m.lifeOf sid = some l)
    (hsup : m'.supervisor = m.supervisor) (hnext : m'.nextServerId = m.nextServerId) : Wf m' := by
  refine ⟨hsup ▸ h.fresh, ?_, ?_, ?_, ?_, ?_, ?_⟩
  · exact fun hl => hnext ▸ h.known (hlife hl)
  · exact fun hl hpid => hsup ▸ h.process (hlife hl) hpid
  · exact fun hl hl' => h.owner (hlife hl) (hlife hl')
  · exact fun hl => h.live (hlife hl)
  · exact fun hl => h.idle (hlife hl)
  · exact fun hl hdown => hsup ▸ h.down (hlife hl) hdown

theorem wf_new (parse : Bytes → Except String Value) (backoff grace : ℕ) :
    Wf { new parse with restartBackoff := backoff, shutdownGrace := grace } := by
  have hnone : ∀ {sid l}, McpManager.lifeOf
      { new parse with restartBackoff := backoff, shutdownGrace := grace } sid ≠ some l :=
    nofun
  exact ⟨nofun, fun hl => absurd hl hnone, fun hl => absurd hl hnone,
    fun hl => absurd hl hnone, fun hl => absurd hl hnone, fun hl => absurd hl hnone,
    fun hl => absurd hl hnone⟩

/-! ## Every step keeps it -/

theorem stop_ages (m : McpManager) (sid : McpServerId) : Ages m (m.stop sid).2 := by
  unfold stop
  split
  · exact .refl m
  dsimp only
  split <;> exact ⟨rfl, rfl, le_rfl, le_rfl⟩

/-- The stdin of a server that runs is closed when it is stopped. -/
theorem stop_closes
    (hl : m.lifeOf sid = some l) (hlive : (l.state.isTerminal || l.state.isShuttingDown) = false)
    (hpid : l.process = some pid) : (m.stop sid).2.supervisor = m.supervisor.closeStdin pid := by
  obtain ⟨client, hclient, rfl⟩ := lifeOf_eq_some.1 hl
  have hlive' : (client.state.isTerminal || client.state.isShuttingDown) = false := hlive
  have hpid' : client.process = some pid := hpid
  unfold stop
  rw [hclient]
  dsimp only
  rw [if_neg (by rw [hlive']; exact Bool.false_ne_true), hpid']

section
variable (h : Wf m)
include h

theorem wf_stop : Wf (m.stop sid).2 := by
  obtain ⟨hlife, htold⟩ := stop_life m sid
  have hages := stop_ages m sid
  cases hl : m.lifeOf sid with
  | none => rw [hl, map_none, ← hl, update_eq_self] at hlife; exact h.same hlife htold.goes hages
  | some l =>
    rw [hl, map_some] at hlife
    have hprocess : (l.stop (m.now + m.shutdownGrace)).process = l.process := by
      unfold Life.stop
      split <;> rfl
    refine h.update hlife htold.goes hages (.inl rfl)
      (lt_of_lt_of_le (h.known hl) hages.nextServerId) ?_ ?_ ?_ ?_
    · intro pid hpid; rw [hprocess] at hpid
      obtain ⟨p, hp⟩ := isSome_iff_exists.1 (h.process hl hpid)
      obtain ⟨p', hp', _⟩ := htold.found hp
      exact ⟨by rw [hp']; rfl, fun hne hl'' hpid' => hne (h.owner hl'' hl hpid' hpid)⟩
    · rw [hprocess, h.live hl]; unfold Life.stop
      split
      · exact Iff.rfl
      rename_i hover; rw [Bool.or_eq_true, not_or] at hover
      exact iff_of_false hover.1 nofun
    · intro _; unfold Life.stop
      split <;> rfl
    intro hdown
    refine ⟨by unfold Life.stop; split <;> rfl, ?_⟩
    cases hover : (l.state.isTerminal || l.state.isShuttingDown) with
    | true =>
      rw [Life.stop, if_pos hover] at hdown ⊢
      obtain ⟨pid, hpid, harmed⟩ := (h.down hl hdown).2.kept fun pid hpid =>
        htold.goes.kept (by simp) (h.lt hl hpid)
      exact ⟨pid, hpid, harmed⟩
    | false =>
      have hne : ¬ l.state.isTerminal = true := by
        rw [Bool.or_eq_false_iff] at hover; rw [hover.1]; exact Bool.false_ne_true
      obtain ⟨pid, hpid⟩ := ne_none_iff_exists'.1 fun hnone => hne ((h.live hl).1 hnone)
      refine ⟨pid, hprocess.trans hpid, ?_⟩
      rw [stop_closes hl hover hpid, Life.stop, if_neg (by rw [hover]; exact Bool.false_ne_true)]
      obtain ⟨p, hp⟩ := isSome_iff_exists.1 (h.process hl hpid)
      have hclosed : (m.supervisor.modify pid
          fun p => { p with stdinOpen := false }).processes.lookup pid =
            some { p with stdinOpen := false } := by rw [lookup_modify, if_pos rfl, hp]; rfl
      exact asked_command _ _ hclosed

theorem wf_forget : Wf (m.forget sid).2 := by
  obtain ⟨hlife, hsup⟩ := forget_life m sid
  refine h.forget ?_ hsup ?_
  · intro sid' l hl; rw [hlife] at hl
    by_cases hne : sid' = sid
    · subst hne; rw [update_self] at hl; exact (filter_eq_some_iff.1 hl).1
    · rwa [update_of_ne hne] at hl
  unfold forget
  split
  · rfl
  · split <;> rfl

theorem wf_maybeTerminateShuttingDown : Wf (m.maybeTerminateShuttingDown sid) := by
  rcases maybeTerminateShuttingDown_cases m sid with
    ⟨heq, _⟩ | ⟨client, escalation, next, hclient, hdown, hescalation, hnext, _, heq⟩
  · rw [heq]; exact h
  have hl := lifeOf_of_lookup hclient; have hidle := h.idle hl; have hlive := h.live hl
  obtain ⟨hrestart, pid, hpid, _⟩ := h.down hl hdown
  have hpid' : client.process = some pid := hpid
  have hlife : (m.maybeTerminateShuttingDown sid).lifeOf = Function.update m.lifeOf sid
      (some { client.life with shutdownEscalation := next }) := by
    rw [heq]
    refine (lifeOf_insert rfl).trans ?_; rfl
  have hsup : (m.maybeTerminateShuttingDown sid).supervisor =
      m.supervisor.command pid (escalationCommand escalation) := by rw [heq]; rw [hpid']
  have hages : Ages m (m.maybeTerminateShuttingDown sid) := by
    rw [heq]; exact ⟨rfl, rfl, le_rfl, le_rfl⟩
  have htold : m.supervisor.Told (m.maybeTerminateShuttingDown sid).supervisor := by
    rw [hsup]; exact told_command _ _
  obtain ⟨p, hp⟩ := isSome_iff_exists.1 (h.process hl hpid)
  refine h.update hlife htold.goes hages (.inl rfl)
    (lt_of_lt_of_le (h.known hl) hages.nextServerId) ?_ hlive hidle ?_
  · intro pid' hpid''; obtain ⟨p', hp'⟩ := isSome_iff_exists.1 (h.process hl hpid'')
    obtain ⟨p'', hp'', _⟩ := htold.found hp'
    exact ⟨by rw [hp'']; rfl, fun hne hl'' hpid₂ => hne (h.owner hl'' hl hpid₂ hpid'')⟩
  intro _
  refine ⟨hrestart, pid, hpid, ?_⟩; rw [hsup]
  have hasked := asked_command m.supervisor (escalationCommand escalation) hp
  rcases hnext with ⟨hcommand, rfl⟩ | ⟨hcommand, rfl⟩
  · rw [hcommand] at hasked ⊢; exact hasked
  · rw [hcommand] at hasked ⊢; exact hasked

theorem wf_maybeRestart : Wf (m.maybeRestart sid) := by
  by_cases hdue : ∃ l, m.lifeOf sid = some l ∧ l.restartDue m.now = true
  · obtain ⟨l, hl, hdue⟩ := hdue
    obtain ⟨hages, hgoes, ⟨e, _, hlife⟩ | ⟨hlife, hlt, hsome⟩⟩ := maybeRestart_life hl hdue
    · have hnone : l.process = none := by
        refine (h.live hl).2 ?_; rw [Life.restartDue, Bool.and_eq_true] at hdue
        revert hdue
        cases l.state <;> simp [McpClientState.isCrashed, McpClientState.isTerminal]
      refine h.update hlife hgoes hages (.inl rfl)
        (lt_of_lt_of_le (h.known hl) hages.nextServerId) ?_ ?_ ?_ ?_
      · intro pid hpid; cases hnone.symm.trans hpid
      · exact iff_of_true hnone rfl
      · intro hsome
        rw [show (l.respawnFailed m.now m.restartBackoff e).process = none from hnone] at hsome
        cases hsome
      · nofun
    refine h.update hlife hgoes hages (.inl rfl)
      (lt_of_lt_of_le (h.known hl) hages.nextServerId) ?_ ?_ (fun _ => rfl) ?_
    · intro pid hpid; cases hpid
      exact ⟨hsome, fun _ hl'' hpid' => lt_irrefl _ (h.lt hl'' hpid')⟩
    · exact iff_of_false nofun nofun
    · nofun
  rw [maybeRestart_of_not fun l hl => ?_]
  · exact h
  · exact Bool.eq_false_iff.2 fun hd => hdue ⟨l, hl, hd⟩

theorem wf_handleNext : Wf (m.handleNext sid) := by
  cases hnext : m.nextEvent sid with
  | none => rw [handleNext_of_none hnext]; exact h
  | some next =>
    obtain ⟨ev, s⟩ := next; obtain ⟨client, hclient, hsome, hages, hcases⟩ := handleNext_life hnext
    have hl := lifeOf_of_lookup hclient; have hidle := h.idle hl
    rcases hcases with ⟨clean, reason, _, hgoes, hlife⟩ | ⟨_, hgoes, state, hlife, _, hstate⟩
    · refine h.update hlife hgoes hages (.inr ⟨_, hl, rfl⟩)
        (lt_of_lt_of_le (h.known hl) hages.nextServerId) nofun ?_
        nofun ?_
      · refine iff_of_true rfl ?_; unfold Life.exit
        split <;> rfl
      intro hdown; unfold Life.exit at hdown
      split at hdown <;> cases hdown
    refine h.update hlife hgoes hages (.inl rfl)
      (lt_of_lt_of_le (h.known hl) hages.nextServerId) ?_ ?_ hidle ?_
    · intro pid hpid; obtain ⟨p, hp⟩ := isSome_iff_exists.1 (h.process hl hpid)
      obtain ⟨p', hp', _⟩ := hgoes.kept (by simp) (h.lt hl hpid) hp
      exact ⟨by rw [hp']; rfl, fun hne hl'' hpid' => hne (h.owner hl'' hl hpid' hpid)⟩
    · rcases hstate with rfl | ⟨hterminal, _⟩
      · exact h.live hl
      refine iff_of_false ?_ (by rw [hterminal]; exact Bool.false_ne_true); intro hnone
      rw [show client.process = none from hnone] at hsome; cases hsome
    intro hdown
    rcases hstate with rfl | ⟨_, hnot⟩
    · obtain ⟨hrestart, harmed⟩ := h.down hl hdown
      exact ⟨hrestart, harmed.kept fun pid hpid => hgoes.kept (by simp) (h.lt hl hpid)⟩
    · cases hnot.symm.trans hdown

/-- **Every step keeps the invariant.** -/
theorem wf_perform (a : Action) : Wf (m.perform a).2 := by
  by_cases hconcerns : ∃ sid, Concerns sid a
  · obtain ⟨sid, hconcerns⟩ := hconcerns
    cases a with
    | stop sid => exact wf_stop h
    | forget sid => exact wf_forget h
    | handleNext sid => exact wf_handleNext h
    | maybeTerminateShuttingDown sid => exact wf_maybeTerminateShuttingDown h
    | maybeRestart sid => exact wf_maybeRestart h
    | _ => exact hconcerns.elim
  obtain ⟨hages, hgoes, hlife | ⟨_, spec, _, hlife, hnext, hlt, hsome⟩⟩ :=
    calm_or_spawn m a fun sid hc => hconcerns ⟨sid, hc⟩
  · exact h.same hlife hgoes hages
  refine h.update hlife hgoes hages (.inl rfl) (by rw [hnext]; exact Nat.lt_succ_self _) ?_ ?_
    (fun _ => rfl) nofun
  · intro pid hpid; cases hpid
    exact ⟨hsome, fun _ hl'' hpid' => lt_irrefl _ (h.lt hl'' hpid')⟩
  · exact iff_of_false nofun nofun

theorem wf_performAll {as : List Action} : Wf (m.performAll as) :=
  Machine.run_inv (P := Wf) (fun _ a h => wf_perform h a) h as

end

/-! ## A server that was told to stop -/

/-- A condition on a step: the event that it handles is one that the registry foresees. -/
def Foreseen (m : McpManager) : Action → Prop
  | .handleNext sid => ∀ client ev s, m.clients.lookup sid = some client →
    m.nextEvent sid = some (ev, s) → ForeseenEvent m.parse client ev.kind
  | _ => True

/-- Whether a step handles the end of a server's process. -/
def Ends (m : McpManager) (sid : McpServerId) (a : Action) : Prop :=
  a = .handleNext sid ∧ ∃ ev s, m.nextEvent sid = some (ev, s) ∧ (endOf ev.kind).isSome = true

/-- Whether one of these steps handles the end of a server's process. -/
def EndsAlong (m : McpManager) (sid : McpServerId) : List Action → Prop
  | [] => False
  | a :: as => Ends m sid a ∨ EndsAlong (m.perform a).2 sid as

/-- A server that is to stop and has not ended. -/
structure Stopping (m : McpManager) (sid : McpServerId) (process : Option ProcessId)
    (attempt : ℕ) (l : Life) : Prop where
  life : m.lifeOf sid = some l
  state : l.state = .shuttingDown
  process : l.process = process
  attempt : l.attempt = attempt
  armed : Armed m.supervisor l

/-- A server that was told to stop and has ended, if it was not forgotten: it has no process and
    no restart is due. -/
def Over (m : McpManager) (sid : McpServerId) (attempt : ℕ) : Prop :=
  ∀ l, m.lifeOf sid = some l → (∃ ended, l.state = .stopped ended) ∧ l.process = none ∧
    l.attempt = attempt ∧ l.nextRestartAt = none

/-- After a server that runs was told to stop, it shuts down until the end of its process was
    handled, and has stopped from then on. -/
def StopHolds (m₀ : McpManager) (as : List Action) : Prop :=
  ∀ pre sid post l, as = pre ++ .stop sid :: post → (m₀.performAll pre).lifeOf sid = some l →
    l.state.isTerminal = false →
    (EndsAlong ((m₀.performAll pre).perform (.stop sid)).2 sid post →
      Over (m₀.performAll as) sid l.attempt) ∧
    (¬ EndsAlong ((m₀.performAll pre).perform (.stop sid)).2 sid post →
      ∃ l', Stopping (m₀.performAll as) sid l.process l.attempt l')

/-! ## A server that ended by itself -/

/-- A server that was spawned with a restart policy in a run. -/
def SpawnedWith (m₀ : McpManager) (pre : List Action) (sid : McpServerId)
    (policy : McpRestartPolicy) : Prop :=
  ∃ p₁ spec p₂, pre = p₁ ++ .spawn spec :: p₂ ∧ spec.restart = policy ∧
    ((m₀.performAll p₁).perform (.spawn spec)).1 = .server sid

/-- A server is restarted: its process is spawned again, if it can be. -/
def Restarted (m m' : McpManager) (sid : McpServerId) (attempt : ℕ) : Prop :=
  ∃ l', m'.lifeOf sid = some l' ∧ l'.attempt = attempt + 1 ∧
    (m.supervisor.spawnError = none → l'.state = .starting ∧ l'.process = some m.supervisor.nextId)

/-- After a server ended that was not told to stop, the first pass at or after the back-off
    restarts it if its policy is to, and nothing restarts it before. -/
def RespawnHolds (m₀ : McpManager) (as : List Action) : Prop :=
  ∀ (pre : List Action) sid (mid post : List Action) policy ev s clean,
    as = pre ++ .handleNext sid :: mid ++ .maybeRestart sid :: post →
    SpawnedWith m₀ pre sid policy → .stop sid ∉ pre → .stop sid ∉ mid → .forget sid ∉ mid →
    (m₀.performAll pre).nextEvent sid = some (ev, s) → endOf ev.kind = some clean →
    (∀ mid₁ mid₂ : List Action, mid = mid₁ ++ .maybeRestart sid :: mid₂ →
      (m₀.performAll (pre ++ .handleNext sid :: mid₁)).now < ev.atTime + m₀.restartBackoff) →
    ev.atTime + m₀.restartBackoff ≤ (m₀.performAll (pre ++ .handleNext sid :: mid)).now →
    ∃ l l', (m₀.performAll pre).lifeOf sid = some l ∧
      (m₀.performAll (pre ++ .handleNext sid :: mid)).lifeOf sid = some l' ∧
      l'.attempt = l.attempt ∧ l'.process = none ∧
      (Restarted (m₀.performAll (pre ++ .handleNext sid :: mid))
          (m₀.performAll (pre ++ .handleNext sid :: mid ++ [.maybeRestart sid])) sid l.attempt ↔
        policy = .always ∨ policy = .onCrash ∧ clean = false)

/-! ## What a stop leads to -/

variable {a : Action}

theorem other_life (hsid : sid < m.nextServerId)
    (hother : ¬ Concerns sid a) : (m.perform a).2.lifeOf sid = m.lifeOf sid := by
  have hmoved : ∀ {sid' f}, Concerns sid' a → Function.update m.lifeOf sid' f sid = m.lifeOf sid :=
    fun hconcerns => update_of_ne (by rintro rfl; exact hother hconcerns) _ _
  by_cases hconcerns : ∃ sid', Concerns sid' a
  · obtain ⟨sid', hconcerns⟩ := hconcerns
    cases a with
    | stop sid₁ => exact (congrFun (stop_life m sid₁).1 sid).trans (hmoved rfl)
    | forget sid₁ => exact (congrFun (forget_life m sid₁).1 sid).trans (hmoved rfl)
    | handleNext sid₁ =>
      show (m.handleNext sid₁).lifeOf sid = _
      cases hnext : m.nextEvent sid₁ with
      | none => rw [handleNext_of_none hnext]
      | some next =>
        obtain ⟨client, _, _, _, ⟨clean, reason, _, _, hlife⟩ | ⟨_, _, state, hlife, _⟩⟩ :=
          handleNext_life hnext
        · rw [hlife]; exact hmoved rfl
        · rw [hlife]; exact hmoved rfl
    | maybeTerminateShuttingDown sid₁ =>
      show (m.maybeTerminateShuttingDown sid₁).lifeOf sid = _
      rcases maybeTerminateShuttingDown_cases m sid₁ with ⟨heq, _⟩ | ⟨_, _, _, _, _, _, _, _, heq⟩
      · rw [heq]
      · rw [heq]; exact (congrFun (lifeOf_insert rfl) sid).trans (hmoved rfl)
    | maybeRestart sid₁ =>
      show (m.maybeRestart sid₁).lifeOf sid = _
      by_cases hdue : ∃ l, m.lifeOf sid₁ = some l ∧ l.restartDue m.now = true
      · obtain ⟨l₁, hl₁, hdue⟩ := hdue
        obtain ⟨_, _, ⟨e, _, hlife⟩ | ⟨hlife, _⟩⟩ := maybeRestart_life hl₁ hdue
        · rw [hlife]; exact hmoved rfl
        · rw [hlife]; exact hmoved rfl
      · rw [maybeRestart_of_not fun l' hl' => Bool.eq_false_iff.2 fun hd => hdue ⟨l', hl', hd⟩]
    | _ => exact hconcerns.elim
  obtain ⟨_, _, hlife | ⟨_, spec, _, hlife, _⟩⟩ :=
    calm_or_spawn m a fun sid' hc => hconcerns ⟨sid', hc⟩
  · rw [hlife]
  · rw [hlife]; exact update_of_ne (ne_of_lt hsid) _ _

theorem perform_ages (m : McpManager) (a : Action) : Ages m (m.perform a).2 := by
  by_cases hconcerns : ∃ sid, Concerns sid a
  · obtain ⟨sid, hconcerns⟩ := hconcerns
    cases a with
    | stop sid => exact stop_ages m sid
    | forget sid =>
      show Ages m (m.forget sid).2
      unfold forget
      split
      · exact .refl m
      · split <;> exact ⟨rfl, rfl, le_rfl, le_rfl⟩
    | handleNext sid =>
      show Ages m (m.handleNext sid)
      cases hnext : m.nextEvent sid with
      | none => rw [handleNext_of_none hnext]; exact .refl m
      | some next => obtain ⟨_, _, _, hages, _⟩ := handleNext_life hnext; exact hages
    | maybeTerminateShuttingDown sid =>
      show Ages m (m.maybeTerminateShuttingDown sid)
      rcases maybeTerminateShuttingDown_cases m sid with ⟨heq, _⟩ | ⟨_, _, _, _, _, _, _, _, heq⟩
      · rw [heq]; exact .refl m
      · rw [heq]; exact ⟨rfl, rfl, le_rfl, le_rfl⟩
    | maybeRestart sid =>
      show Ages m (m.maybeRestart sid)
      by_cases hdue : ∃ l, m.lifeOf sid = some l ∧ l.restartDue m.now = true
      · obtain ⟨l, hl, hdue⟩ := hdue; exact (maybeRestart_life hl hdue).1
      rw [maybeRestart_of_not fun l' hl' => Bool.eq_false_iff.2 fun hd => hdue ⟨l', hl', hd⟩]
      exact .refl m
    | _ => exact hconcerns.elim
  · exact (calm_or_spawn m a fun sid' hc => hconcerns ⟨sid', hc⟩).1

theorem performAll_ages (m : McpManager) (as : List Action) : Ages m (m.performAll as) := by
  induction as generalizing m with
  | nil => exact .refl m
  | cons a as ih => exact (perform_ages m a).trans (ih _)

variable {process : Option ProcessId}

/-- A step from a server that is to stop: it has stopped when its end was handled, and is to stop
    still when it was not. -/
theorem stopping_perform (h : Wf m)
    (hstopping : Stopping m sid process attempt l) (hforeseen : Foreseen m a) :
    (Ends m sid a ∧ Over (m.perform a).2 sid attempt) ∨
      (¬ Ends m sid a ∧ ∃ l', Stopping (m.perform a).2 sid process attempt l') := by
  have hwf := wf_perform h a
  have hdown : l.state.isShuttingDown = true := by rw [hstopping.state]; rfl
  have hnotterminal : l.state.isTerminal = false := by rw [hstopping.state]; rfl
  have hstill : ∀ l', (m.perform a).2.lifeOf sid = some l' → l'.state = l.state →
      l'.process = l.process → l'.attempt = l.attempt →
      ∃ l', Stopping (m.perform a).2 sid process attempt l' := by
    intro l' hl' hstate hprocess hattempt
    have hstate' : l'.state = .shuttingDown := hstate.trans hstopping.state
    exact ⟨l', hl', hstate', hprocess.trans hstopping.process, hattempt.trans hstopping.attempt,
      (hwf.down hl' (by rw [hstate']; rfl)).2⟩
  by_cases hconcerns : Concerns sid a
  · cases a with
    | stop sid₁ =>
      cases hconcerns
      refine .inr ⟨(fun hends => by cases hends.1), hstill (l.stop (m.now + m.shutdownGrace)) ?_
        ?_ ?_ ?_⟩
      · show (m.stop sid).2.lifeOf sid = _
        rw [(stop_life m sid).1, update_self, hstopping.life, map_some]
      all_goals rw [Life.stop, if_pos (by rw [hdown, Bool.or_true])]
    | forget sid₁ =>
      cases hconcerns
      refine .inr ⟨(fun hends => by cases hends.1), hstill l ?_ rfl rfl rfl⟩
      show (m.forget sid).2.lifeOf sid = _
      rw [(forget_life m sid).1, update_self, hstopping.life, filter_some, hnotterminal]
      rfl
    | handleNext sid₁ =>
      cases hconcerns
      cases hnext : m.nextEvent sid with
      | none =>
        refine .inr ⟨?_, hstill l ?_ rfl rfl rfl⟩
        · rintro ⟨_, ev, s, hsome, _⟩; cases hnext.symm.trans hsome
        show (m.handleNext sid).lifeOf sid = _
        rw [handleNext_of_none hnext, hstopping.life]
      | some next =>
        obtain ⟨ev, s⟩ := next
        obtain ⟨client, hclient, _, _, ⟨clean, reason, hend, _, hlife⟩ |
          ⟨hend, _, state, hlife, hkeep, _⟩⟩ := handleNext_life hnext
        · cases (lifeOf_of_lookup hclient).symm.trans hstopping.life
          refine .inl ⟨⟨rfl, ev, s, hnext, by rw [hend]; rfl⟩, ?_⟩; intro l' hl'
          have hself : (m.handleNext sid).lifeOf sid = some l' := hl'
          rw [hlife, update_self] at hself; cases hself
          have hrestart := (h.down hstopping.life hdown).1; have hidle := h.idle hstopping.life
          refine ⟨⟨ev.atTime, ?_⟩, rfl, hstopping.attempt, ?_⟩
          · rw [Life.exit, hdown]; rfl
          rw [Life.exit, hdown]
          refine hidle ?_; obtain ⟨pid, hpid, _⟩ := hstopping.armed; rw [hpid]
          rfl
        cases (lifeOf_of_lookup hclient).symm.trans hstopping.life
        refine .inr ⟨?_, hstill { client.life with state := state } ?_ ?_ rfl rfl⟩
        · rintro ⟨_, ev', s', hsome, hisome⟩; cases hnext.symm.trans hsome; rw [hend] at hisome
          cases hisome
        · show (m.handleNext sid).lifeOf sid = _
          rw [hlife, update_self]
        · exact hkeep (hforeseen client ev s hclient hnext) hdown
    | maybeTerminateShuttingDown sid₁ =>
      cases hconcerns
      refine .inr ⟨(fun hends => by cases hends.1), ?_⟩
      rcases maybeTerminateShuttingDown_cases m sid with
        ⟨heq, _⟩ | ⟨client, _, next, hclient, _, _, _, _, heq⟩
      · refine hstill l ?_ rfl rfl rfl; show (m.maybeTerminateShuttingDown sid).lifeOf sid = _
        rw [heq, hstopping.life]
      cases (lifeOf_of_lookup hclient).symm.trans hstopping.life
      refine hstill { client.life with shutdownEscalation := next } ?_ rfl rfl rfl
      show (m.maybeTerminateShuttingDown sid).lifeOf sid = _
      rw [heq]
      refine (congrFun (lifeOf_insert rfl) sid).trans ?_; rw [update_self]; rfl
    | maybeRestart sid₁ =>
      cases hconcerns
      refine .inr ⟨(fun hends => by cases hends.1), hstill l ?_ rfl rfl rfl⟩
      show (m.maybeRestart sid).lifeOf sid = _
      rw [maybeRestart_of_not, hstopping.life]; intro l' hl'; cases hstopping.life.symm.trans hl'
      rw [Life.restartDue, hstopping.state]; rfl
    | _ => exact hconcerns.elim
  · refine .inr ⟨?_, hstill l ?_ rfl rfl rfl⟩
    · rintro ⟨rfl, _⟩; exact hconcerns rfl
    · rw [other_life (h.known hstopping.life) hconcerns, hstopping.life]

theorem over_perform (hover : Over m sid attempt) (hsid : sid < m.nextServerId) :
    Over (m.perform a).2 sid attempt := by
  by_cases hconcerns : Concerns sid a
  · have hstops : ∀ l, m.lifeOf sid = some l → l.state.isTerminal = true := by
      intro l hl; obtain ⟨⟨ended, hstate⟩, _⟩ := hover l hl; rw [hstate]
      rfl
    cases a with
    | stop sid₁ =>
      cases hconcerns; intro l' hl'; have hself : (m.stop sid).2.lifeOf sid = some l' := hl'
      rw [(stop_life m sid).1, update_self, map_eq_some_iff] at hself; obtain ⟨l, hl, rfl⟩ := hself
      obtain ⟨hstate, hprocess, hattempt, _⟩ := hover l hl
      rw [Life.stop, if_pos (by rw [hstops l hl]; rfl)]; exact ⟨hstate, hprocess, hattempt, rfl⟩
    | forget sid₁ =>
      cases hconcerns; intro l' hl'; have hself : (m.forget sid).2.lifeOf sid = some l' := hl'
      rw [(forget_life m sid).1, update_self, filter_eq_some_iff] at hself; exact hover l' hself.1
    | handleNext sid₁ =>
      cases hconcerns; show Over (m.handleNext sid) sid attempt
      rw [handleNext_of_none (nextEvent_of_idle fun l hl => (hover l hl).2.1)]; exact hover
    | maybeTerminateShuttingDown sid₁ =>
      cases hconcerns; show Over (m.maybeTerminateShuttingDown sid) sid attempt
      rcases maybeTerminateShuttingDown_cases m sid with
        ⟨heq, _⟩ | ⟨client, _, _, hclient, hdown, _⟩
      · rw [heq]; exact hover
      obtain ⟨⟨ended, hstate⟩, _⟩ := hover _ (lifeOf_of_lookup hclient)
      rw [show client.state = .stopped ended from hstate] at hdown; cases hdown
    | maybeRestart sid₁ =>
      cases hconcerns; show Over (m.maybeRestart sid) sid attempt
      rw [maybeRestart_of_not]
      · exact hover
      intro l hl; obtain ⟨⟨ended, hstate⟩, _⟩ := hover l hl; rw [Life.restartDue, hstate]
      rfl
    | _ => exact hconcerns.elim
  · intro l hl; rw [other_life hsid hconcerns] at hl; exact hover l hl

theorem over_performAll (hover : Over m sid attempt) (hsid : sid < m.nextServerId)
    {as : List Action} : Over (m.performAll as) sid attempt := by
  induction as generalizing m with
  | nil => exact hover
  | cons a as ih =>
    exact ih (over_perform hover hsid) (lt_of_lt_of_le hsid (perform_ages m a).nextServerId)

/-- **A server that is to stop, over a run.** -/
theorem stopping_performAll (h : Wf m)
    (hstopping : Stopping m sid process attempt l) {as : List Action}
    (hforeseen : Along Foreseen m as) : (EndsAlong m sid as → Over (m.performAll as) sid attempt) ∧
      (¬ EndsAlong m sid as → ∃ l', Stopping (m.performAll as) sid process attempt l') := by
  induction as generalizing m l with
  | nil => exact ⟨False.elim, fun _ => ⟨l, hstopping⟩⟩
  | cons a as ih =>
    rcases stopping_perform h hstopping hforeseen.1 with ⟨hends, hover⟩ | ⟨hends, l', hstill⟩
    · refine ⟨fun _ => ?_, fun hnot => absurd (.inl hends) hnot⟩
      exact over_performAll hover (lt_of_lt_of_le (h.known hstopping.life)
        (perform_ages m a).nextServerId)
    obtain ⟨hyes, hno⟩ := ih (wf_perform h a) hstill hforeseen.2
    exact ⟨fun h' => hyes (h'.resolve_left hends), fun h' => hno fun h'' => h' (.inr h'')⟩

end McpManager

end Mcp

end Pmacs
