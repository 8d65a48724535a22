/-
  The MCP servers that end by themselves, and what becomes of a server over a run.

  * `Resting`: a server that ended waits for its back-off; `resting_performAll`: nothing changes
    that before a pass at which the back-off is over;
  * `lifecycle_holds`: in a run whose events are foreseen, a stop leads to the end of a server,
    and an end by itself to a restart or to none, as the policy says.
-/
import Pmacs.Mcp.LifecycleRun

namespace Pmacs

open Lib Function List Option

namespace Mcp

namespace McpManager

open Mcp.ProcessSupervisor

variable {l : Life} {as : List Action} {m m₀ : McpManager} {policy : McpRestartPolicy}
  {sid : McpServerId}

/-! ## A server that was never told to stop -/

/-- A server that was never told to stop, if it was not forgotten. -/
structure Unstopped (m : McpManager) (sid : McpServerId) (policy : McpRestartPolicy) : Prop where
  known : sid < m.nextServerId
  life : ∀ {l}, m.lifeOf sid = some l → l.restart = policy ∧ l.state.isShuttingDown = false

theorem unstopped_perform (h : Unstopped m sid policy) {a : Action} (ha : a ≠ .stop sid) :
    Unstopped (m.perform a).2 sid policy := by
  refine ⟨lt_of_lt_of_le h.known (perform_ages m a).nextServerId, ?_⟩
  intro l' hl'
  by_cases hconcerns : Concerns sid a
  · cases a with
    | stop sid₁ => cases hconcerns; exact absurd rfl ha
    | forget sid₁ =>
      cases hconcerns; have hself : (m.forget sid).2.lifeOf sid = some l' := hl'
      rw [(forget_life m sid).1, update_self, filter_eq_some_iff] at hself; exact h.life hself.1
    | handleNext sid₁ =>
      cases hconcerns; have hself : (m.handleNext sid).lifeOf sid = some l' := hl'
      cases hnext : m.nextEvent sid with
      | none => rw [handleNext_of_none hnext] at hself; exact h.life hself
      | some next =>
        obtain ⟨client, hclient, _, _, ⟨clean, reason, _, _, hlife⟩ |
          ⟨_, _, state, hlife, _, hstate⟩⟩ := handleNext_life hnext
        · obtain ⟨hpolicy, _⟩ := h.life (lifeOf_of_lookup hclient); rw [hlife, update_self] at hself
          cases hself
          refine ⟨hpolicy, ?_⟩; unfold Life.exit
          split <;> rfl
        obtain ⟨hpolicy, hnot⟩ := h.life (lifeOf_of_lookup hclient)
        rw [hlife, update_self] at hself; cases hself
        rcases hstate with rfl | ⟨_, hrunning⟩
        · exact ⟨hpolicy, hnot⟩
        · exact ⟨hpolicy, hrunning⟩
    | maybeTerminateShuttingDown sid₁ =>
      cases hconcerns; have hself : (m.maybeTerminateShuttingDown sid).lifeOf sid = some l' := hl'
      rcases maybeTerminateShuttingDown_cases m sid with
        ⟨heq, _⟩ | ⟨client, _, _, hclient, hdown, _⟩
      · rw [heq] at hself; exact h.life hself
      · obtain ⟨_, hnot⟩ := h.life (lifeOf_of_lookup hclient); cases hdown.symm.trans hnot
    | maybeRestart sid₁ =>
      cases hconcerns; have hself : (m.maybeRestart sid).lifeOf sid = some l' := hl'
      by_cases hdue : ∃ l, m.lifeOf sid = some l ∧ l.restartDue m.now = true
      · obtain ⟨l, hl, hdue⟩ := hdue; obtain ⟨hpolicy, _⟩ := h.life hl
        obtain ⟨_, _, ⟨e, _, hlife⟩ | ⟨hlife, _⟩⟩ := maybeRestart_life hl hdue
        · rw [hlife, update_self] at hself; cases hself; exact ⟨hpolicy, rfl⟩
        · rw [hlife, update_self] at hself; cases hself; exact ⟨hpolicy, rfl⟩
      rw [maybeRestart_of_not fun l hl => Bool.eq_false_iff.2 fun hd => hdue ⟨l, hl, hd⟩] at hself
      exact h.life hself
    | _ => exact hconcerns.elim
  · rw [other_life h.known hconcerns] at hl'; exact h.life hl'

theorem unstopped_performAll (h : Unstopped m sid policy) (has : .stop sid ∉ as) :
    Unstopped (m.performAll as) sid policy := by
  induction as generalizing m with
  | nil => exact h
  | cons a as ih =>
    rw [mem_cons, not_or] at has; exact ih (unstopped_perform h (Ne.symm has.1)) has.2

/-- A server that was spawned in a run, and not told to stop since. -/
theorem unstopped_of_spawned {pre : List Action} (hspawned : SpawnedWith m₀ pre sid policy)
    (hstop : .stop sid ∉ pre) : Unstopped (m₀.performAll pre) sid policy := by
  obtain ⟨p₁, spec, p₂, rfl, rfl, houtcome⟩ := hspawned
  rw [mem_append, mem_cons, not_or, not_or] at hstop
  rw [performAll_append, performAll_cons]
  refine unstopped_performAll ?_ hstop.2.2
  obtain ⟨hages, _, ⟨e, he, _⟩ | ⟨hok, hlife, hnext, _⟩⟩ := spawn_life (m₀.performAll p₁) spec
  · have : Outcome.ofExcept Outcome.server ((m₀.performAll p₁).spawn spec).1 = .server sid :=
      houtcome
    rw [he] at this; cases this
  have hsid : Outcome.ofExcept Outcome.server ((m₀.performAll p₁).spawn spec).1 = .server sid :=
    houtcome
  rw [hok] at hsid; cases hsid
  refine ⟨?_, ?_⟩
  · show _ < ((m₀.performAll p₁).spawn spec).2.nextServerId
    rw [hnext]; exact Nat.lt_succ_self _
  intro l hl
  have hself : ((m₀.performAll p₁).spawn spec).2.lifeOf (m₀.performAll p₁).nextServerId =
    some l := hl
  rw [hlife, update_self] at hself; cases hself; exact ⟨rfl, rfl⟩

/-! ## A server that waits for its back-off -/

/-- A server that ended by itself: if it is to be restarted, not before `due`. -/
structure Resting (due : ℕ) (l : Life) : Prop where
  process : l.process = none
  running : l.state.isShuttingDown = false
  due : ∀ {time}, l.nextRestartAt = some time → time = due

theorem resting_perform {due : ℕ} (hsid : sid < m.nextServerId) (hl : m.lifeOf sid = some l)
    (hrest : Resting due l) {a : Action} (hstop : a ≠ .stop sid) (hforget : a ≠ .forget sid)
    (hearly : a = .maybeRestart sid → m.now < due) : (m.perform a).2.lifeOf sid = some l := by
  by_cases hconcerns : Concerns sid a
  · cases a with
    | stop sid₁ => cases hconcerns; exact absurd rfl hstop
    | forget sid₁ => cases hconcerns; exact absurd rfl hforget
    | handleNext sid₁ =>
      cases hconcerns; show (m.handleNext sid).lifeOf sid = _
      rw [handleNext_of_none (nextEvent_of_idle fun l' hl' => by
        cases hl.symm.trans hl'; exact hrest.process), hl]
    | maybeTerminateShuttingDown sid₁ =>
      cases hconcerns; show (m.maybeTerminateShuttingDown sid).lifeOf sid = _
      rcases maybeTerminateShuttingDown_cases m sid with
        ⟨heq, _⟩ | ⟨client, _, _, hclient, hdown, _⟩
      · rw [heq, hl]
      · cases hl.symm.trans (lifeOf_of_lookup hclient); cases hdown.symm.trans hrest.running
    | maybeRestart sid₁ =>
      cases hconcerns; show (m.maybeRestart sid).lifeOf sid = _
      rw [maybeRestart_of_not, hl]; intro l' hl'; cases hl.symm.trans hl'
      rw [Life.restartDue]
      cases htime : l.nextRestartAt with
      | none => exact Bool.and_false _
      | some time =>
        have hnot : ¬ time ≤ m.now := by rw [hrest.due htime]; exact Nat.not_le_of_lt (hearly rfl)
        dsimp only; rw [decide_eq_false hnot, Bool.and_false]
    | _ => exact hconcerns.elim
  · rw [other_life hsid hconcerns, hl]

/-- **A server that waits for its back-off, over a run.** -/
theorem resting_performAll {due : ℕ} (hsid : sid < m.nextServerId) (hl : m.lifeOf sid = some l)
    (hrest : Resting due l) (hstop : .stop sid ∉ as) (hforget : .forget sid ∉ as)
    (hearly : ∀ as₁ as₂, as = as₁ ++ .maybeRestart sid :: as₂ → (m.performAll as₁).now < due) :
    (m.performAll as).lifeOf sid = some l := by
  induction as generalizing m with
  | nil => exact hl
  | cons a as ih =>
    rw [mem_cons, not_or] at hstop hforget
    have hl' := resting_perform hsid hl hrest (Ne.symm hstop.1) (Ne.symm hforget.1)
      fun ha => hearly [] as (by rw [ha, nil_append])
    refine ih (lt_of_lt_of_le hsid (perform_ages m a).nextServerId) hl' hstop.2 hforget.2 ?_
    intro as₁ as₂ has; exact hearly (a :: as₁) as₂ (by rw [has, cons_append])

/-- Which ends a policy restarts a server after, where the end is one that it foresees. -/
theorem restartDue_exit {now atTime backoff : ℕ} {reason : String} {clean : Bool}
    (hrunning : l.state.isShuttingDown = false) (hidle : l.nextRestartAt = none)
    (hforeseen : clean = true → l.restart ≠ .always) (hdue : atTime + backoff ≤ now) :
    (l.exit atTime reason clean backoff).restartDue now = true ↔
      l.restart = .always ∨ l.restart = .onCrash ∧ clean = false := by
  rw [Life.restartDue, Life.exit, hrunning, hidle, Bool.false_or]
  cases hrestart : l.restart with
  | never => cases clean <;> simp [shouldRestart]
  | onCrash => cases clean <;> simp [shouldRestart, McpClientState.isCrashed, hdue]
  | always =>
    cases clean with
    | true => exact absurd hrestart (hforeseen rfl)
    | false => simp [shouldRestart, McpClientState.isCrashed, hdue]

/-! ## Runs -/

theorem stop_holds (h₀ : Wf m₀) (has : Along Foreseen m₀ as) : StopHolds m₀ as := by
  intro pre sid post l hsplit hl hlive
  subst hsplit
  obtain ⟨-, -, hpost⟩ := Machine.along_append.1 has
  have hwf : Wf (m₀.performAll pre) := wf_performAll h₀
  have hwf' := wf_perform hwf (.stop sid)
  have hlife : ((m₀.performAll pre).perform (.stop sid)).2.lifeOf sid =
      some (l.stop ((m₀.performAll pre).now + (m₀.performAll pre).shutdownGrace)) := by
    show ((m₀.performAll pre).stop sid).2.lifeOf sid = _
    rw [(stop_life _ sid).1, update_self, hl, map_some]
  generalize (m₀.performAll pre).now + (m₀.performAll pre).shutdownGrace = time at hlife
  have hstate : (l.stop time).state = .shuttingDown := by
    unfold Life.stop
    split
    · rename_i hover; rw [hlive, Bool.false_or] at hover
      revert hover
      cases l.state <;> simp [McpClientState.isShuttingDown]
    · rfl
  have hsame : (l.stop time).process = l.process ∧ (l.stop time).attempt = l.attempt := by
    unfold Life.stop
    split <;> exact ⟨rfl, rfl⟩
  have hstopping : Stopping ((m₀.performAll pre).perform (.stop sid)).2 sid l.process l.attempt
      (l.stop time) := ⟨hlife, hstate, hsame.1, hsame.2, (hwf'.down hlife (by rw [hstate]; rfl)).2⟩
  rw [performAll_append, performAll_cons]
  exact stopping_performAll hwf' hstopping hpost

theorem respawn_holds (h₀ : Wf m₀) (has : Along Foreseen m₀ as) : RespawnHolds m₀ as := by
  intro pre sid mid post policy ev s clean hsplit hspawned hpre hmid hforget hnext hend hearly hdue
  subst hsplit
  have hunstopped := unstopped_of_spawned hspawned hpre
  have hbackoff := (performAll_ages m₀ pre).restartBackoff
  rw [append_assoc] at has
  have hforeseen : Foreseen (m₀.performAll pre) (.handleNext sid) :=
    (Machine.along_append.1 has).2.1
  simp only [performAll_append, performAll_cons, performAll_nil] at hearly hdue ⊢
  have hwf : Wf (m₀.performAll pre) := wf_performAll h₀
  generalize m₀.performAll pre = m at hunstopped hbackoff hforeseen hwf hnext hearly hdue ⊢
  obtain ⟨client, hclient, hsome, hages, ⟨clean', reason, hend', _, hlife⟩ | ⟨hend', _⟩⟩ :=
    handleNext_life hnext
  · cases hend.symm.trans hend'; have hl := lifeOf_of_lookup hclient
    obtain ⟨hpolicy, hrunning⟩ := hunstopped.life hl; have hidle := hwf.idle hl hsome
    have hclean : clean = true → client.life.restart ≠ .always := by
      intro hclean halways; have hev := hforeseen client ev s hclient hnext
      revert hend hev
      cases ev.kind with
      | exited code =>
        intro hend hev
        have hzero : code = 0 := by rw [hclean] at hend; exact of_decide_eq_true (some.inj hend)
        cases (hev hzero halways).symm.trans hrunning
      | signaled _ | crashed _ => intro hend _; rw [hclean] at hend; cases hend
      | _ => intro hend _; cases hend
    have hself : (m.handleNext sid).lifeOf sid =
        some (client.life.exit ev.atTime reason clean m.restartBackoff) := by
      rw [hlife, update_self]
    have hrest : Resting (ev.atTime + m₀.restartBackoff)
        (client.life.exit ev.atTime reason clean m.restartBackoff) := by
      refine ⟨rfl, ?_, ?_⟩
      · unfold Life.exit
        split <;> rfl
      intro time htime; unfold Life.exit at htime; dsimp only at htime
      split at htime
      · cases htime; rw [hbackoff]
      · cases hidle.symm.trans htime
    have hafter := resting_performAll
      (lt_of_lt_of_le hunstopped.known hages.nextServerId) hself hrest hmid hforget hearly
    refine ⟨client.life, _, hl, hafter, rfl, rfl, ?_⟩; rw [← hpolicy]
    have hdue' := @restartDue_exit _ _ _ _ reason _ hrunning hidle hclean hdue
    rw [← hbackoff] at hdue'; rw [← hdue']
    show Restarted ((m.handleNext sid).performAll mid)
      (((m.handleNext sid).performAll mid).maybeRestart sid) sid client.life.attempt ↔ _
    constructor
    · intro hrestarted
      by_contra hnot
      rw [maybeRestart_of_not fun l' hl' => by
        cases hafter.symm.trans hl'; exact Bool.eq_false_iff.2 hnot] at hrestarted
      obtain ⟨l', hl', hattempt, _⟩ := hrestarted; cases hafter.symm.trans hl'
      exact absurd hattempt (ne_of_lt (Nat.lt_succ_self _))
    intro hrestart
    obtain ⟨_, _, ⟨e, he, hlife'⟩ | ⟨hlife', _⟩⟩ := maybeRestart_life hafter hrestart
    · refine ⟨_, by rw [hlife', update_self], rfl, ?_⟩; intro hnone; cases hnone.symm.trans he
    · exact ⟨_, by rw [hlife', update_self], rfl, fun _ => ⟨rfl, rfl⟩⟩
  · cases hend.symm.trans hend'

/-- **What becomes of a server**: in a run whose events are foreseen, a server that was told to
    stop shuts down until it has ended, and is never started again; one that ended by itself is
    restarted at the first pass at which its back-off is over, if its policy is to. -/
theorem lifecycle_holds (parse : Bytes → Except String Value) (backoff grace : ℕ)
    (as : List Action)
    (h : Along Foreseen { new parse with restartBackoff := backoff, shutdownGrace := grace } as) :
    StopHolds { new parse with restartBackoff := backoff, shutdownGrace := grace } as ∧
      RespawnHolds { new parse with restartBackoff := backoff, shutdownGrace := grace } as :=
  ⟨stop_holds (wf_new parse backoff grace) h, respawn_holds (wf_new parse backoff grace) h⟩

/-- A server that is told to stop while it runs, and one that ends by itself. -/
theorem lifecycle_holds_runs : (StopHolds (new fun _ => .error "EOF")
        [.spawn ⟨"a", .onCrash⟩, .report 1 ⟨.started 7, 0⟩, .handleNext 1, .stop 1, .elapse 1000,
          .maybeTerminateShuttingDown 1, .report 1 ⟨.signaled "SIGTERM", 1000⟩, .handleNext 1] ∧
      RespawnHolds (new fun _ => .error "EOF")
        [.spawn ⟨"a", .onCrash⟩, .report 1 ⟨.started 7, 0⟩, .handleNext 1, .stop 1, .elapse 1000,
          .maybeTerminateShuttingDown 1, .report 1 ⟨.signaled "SIGTERM", 1000⟩, .handleNext 1]) ∧
    StopHolds (new fun _ => .error "EOF")
        [.spawn ⟨"a", .onCrash⟩, .report 1 ⟨.started 7, 0⟩, .handleNext 1,
          .report 1 ⟨.exited 1, 3⟩, .handleNext 1, .elapse 503, .maybeRestart 1] ∧
      RespawnHolds (new fun _ => .error "EOF")
        [.spawn ⟨"a", .onCrash⟩, .report 1 ⟨.started 7, 0⟩, .handleNext 1,
          .report 1 ⟨.exited 1, 3⟩, .handleNext 1, .elapse 503, .maybeRestart 1] := by
  refine ⟨lifecycle_holds (fun _ => .error "EOF") 500 1000 _ ?_,
    lifecycle_holds (fun _ => .error "EOF") 500 1000 _ ?_⟩
  · refine ⟨trivial, trivial, ?_, trivial, trivial, trivial, trivial, ?_, trivial⟩
    · intro client ev s hclient hnext; cases hclient; cases hnext
      rfl
    · intro client ev s hclient hnext; cases hnext; trivial
  refine ⟨trivial, trivial, ?_, trivial, ?_, trivial, trivial, trivial⟩
  · intro client ev s hclient hnext; cases hclient; cases hnext
    rfl
  · intro client ev s hclient hnext; cases hnext; exact nofun

/-- A server that is told to stop before its start was handled is started all the same, and one
    that is always restarted is not after a clean end. -/
theorem lifecycle_fails : ¬ StopHolds (new fun _ => .error "EOF")
        [.spawn ⟨"a", .never⟩, .stop 1, .report 1 ⟨.started 7, 0⟩, .handleNext 1] ∧
    ¬ RespawnHolds (new fun _ => .error "EOF")
        [.spawn ⟨"a", .always⟩, .report 1 ⟨.started 7, 0⟩, .handleNext 1,
          .report 1 ⟨.exited 0, 3⟩, .handleNext 1, .elapse 503, .maybeRestart 1] := by
  constructor
  · intro h
    have hstop := h [.spawn ⟨"a", .never⟩] 1 [.report 1 ⟨.started 7, 0⟩, .handleNext 1] _ rfl rfl rfl
    by_cases hends : EndsAlong (((new fun _ => .error "EOF").performAll
        [.spawn ⟨"a", .never⟩]).perform (.stop 1)).2 1 [.report 1 ⟨.started 7, 0⟩, .handleNext 1]
    · obtain ⟨⟨ended, hstate⟩, _⟩ := hstop.1 hends _ rfl; cases hstate
    · obtain ⟨l', hlife, hstate, _⟩ := hstop.2 hends; cases hlife; cases hstate
  intro h
  have hspawned : SpawnedWith (new fun _ => .error "EOF")
      [.spawn ⟨"a", .always⟩, .report 1 ⟨.started 7, 0⟩, .handleNext 1,
        .report 1 ⟨.exited 0, 3⟩] 1 .always :=
    ⟨[], ⟨"a", .always⟩, [.report 1 ⟨.started 7, 0⟩, .handleNext 1, .report 1 ⟨.exited 0, 3⟩],
      rfl, rfl, rfl⟩
  obtain ⟨l, l', hl, _, _, _, hiff⟩ := h
    [.spawn ⟨"a", .always⟩, .report 1 ⟨.started 7, 0⟩, .handleNext 1,
      .report 1 ⟨.exited 0, 3⟩] 1 [.elapse 503] [] .always ⟨.exited 0, 3⟩ _ true rfl hspawned
    (by simp) (by simp) (by simp) rfl rfl
    (by
      intro mid₁ mid₂ hmid
      cases mid₁ with
      | nil => cases hmid
      | cons a mid₁ => cases mid₁ <;> cases hmid)
    (by decide)
  cases hl; obtain ⟨l'', hl'', hattempt, _⟩ := hiff.2 (.inl rfl); cases hl''
  cases hattempt

end McpManager

end Mcp

end Pmacs
