/-
  The operations of the language-server registry that move a client's lifecycle.

  * `local_abandonRequest` and so on: giving up on requests touches one server only;
  * `life_step_stop`, `life_step_spawn`, `life_step_onExit` and so on: each of the other
    operations is one of `Life.Step`, and touches one server only.
-/
import Pmacs.Lsp.LifecycleSteps

namespace Pmacs

open Lib AList List Option Life ProcessSupervisor

namespace LspManager

variable {c : LspClient} {m : LspManager} {s : LspServerId} {pid : ProcessId} {fs : List Frame}

/-! ## Giving up on requests -/

variable {method : String}

theorem local_sendNotification
    {params : Value} : Local s m (m.sendNotification s method params).2 := by
  by_cases hb : ∃ c, m.clients.lookup s = some c ∧ c.state.isBeforeHandshake = true
  · obtain ⟨c, hc, hb⟩ := hb
    obtain ⟨hclients, hsupervisor⟩ := sendNotification_before hc hb method params
    refine local_insert hclients hsupervisor ?_; intro pid hpid; rw [processOf_of_lookup hc]
    exact hpid
  refine (speaks_sendNotification ?_ method params).toLocal; intro c hc
  by_contra hne
  exact hb ⟨c, hc, by simpa using hne⟩

theorem speaks_abandoned (m : LspManager) (s : LspServerId) (rid : ℕ) : Speaks Silent s m
      ({ m with pendingRoutes := m.pendingRoutes.erase (s, rid) }.modifyClient s
        fun c => c.abandon rid) := by
  have hroutes : Speaks Silent s m
      { m with pendingRoutes := m.pendingRoutes.erase (s, rid) } := by
    refine speaks_of_eq ?_ ?_ s <;> rfl
  refine hroutes.trans (speaks_modifyClient ?_)
  intro c sup
  exact ⟨rfl, talks_pending rfl rfl rfl rfl rfl fun hp => (lookup_of_erase hp).1⟩

theorem local_abandonRequest (m : LspManager) (s : LspServerId) (rid : ℕ) :
    Local s m (m.abandonRequest s rid) :=
  (speaks_abandoned m s rid).toLocal.trans (local_sendNotification)

/-- A client that is not before its handshake stays so when it only talks. -/
theorem Speaks.notBefore {ns : List Frame} {m' : LspManager} (h : Speaks ns s m m')
    (hb : ∀ {l}, m.life s = some l → l.state.isBeforeHandshake = false) :
    ∀ {l}, m'.life s = some l → l.state.isBeforeHandshake = false := by
  intro l hl
  have hown := h.own
  rw [hl] at hown
  cases ho : m.life s with
  | none => rw [ho] at hown; cases hown
  | some l₀ =>
    rw [ho] at hown
    cases hown with
    | some ht => rw [ht.state, hb ho]

def cancelNotice (rid : ℕ) : Frame := .notification "$/cancelRequest" (.object [("id", .nat rid)])

theorem speaks_abandonRequest
    (hb : ∀ {l}, m.life s = some l → l.state.isBeforeHandshake = false) (rid : ℕ) :
    Speaks [cancelNotice rid] s m (m.abandonRequest s rid) :=
  (speaks_abandoned m s rid).trans (speaks_sendNotification
    (fun hc => (speaks_abandoned m s rid).notBefore hb (life_of_lookup hc)) _ _)

theorem speaks_abandonAll
    (hb : ∀ {l}, m.life s = some l → l.state.isBeforeHandshake = false) {rids : List ℕ} :
    Speaks (rids.map cancelNotice) s m (m.abandonAll s rids) := by
  induction rids generalizing m with
  | nil => exact .refl s m
  | cons rid rids ih =>
    have hfirst := speaks_abandonRequest hb rid; exact hfirst.append (ih (hfirst.notBefore hb))

theorem local_abandonAll (m : LspManager) (s : LspServerId) (rids : List ℕ) :
    Local s m (m.abandonAll s rids) := by
  induction rids generalizing m with
  | nil => exact .refl s m
  | cons rid rids ih => exact (local_abandonRequest m s rid).trans (ih _)

theorem cancelRequest_eq (m : LspManager) (s : LspServerId) (rid : ℕ) :
    ∃ m₁ : LspManager, m₁.clients = m.clients ∧ m₁.supervisor = m.supervisor ∧
      m.cancelRequest s rid = m₁.abandonRequest s rid := by
  unfold cancelRequest
  split
  · exact ⟨m, rfl, rfl, rfl⟩
  rename_i p _
  exact ⟨{ m with
    pendingExternal := m.pendingExternal.erase (s, rid)
    runtime := m.runtime.completeAll (p.awaiters.map fun job => (job, .cancelled)) },
    rfl, rfl, rfl⟩

theorem local_cancelRequests (m : LspManager) (s : LspServerId) (rids : List ℕ) :
    Local s m (rids.foldl (fun m rid => m.cancelRequest s rid) m) := by
  induction rids generalizing m with
  | nil => exact .refl s m
  | cons rid rids ih =>
    obtain ⟨m₁, hclients, hsupervisor, heq⟩ := m.cancelRequest_eq s rid
    refine Local.trans ?_ (ih _); show Local s m (m.cancelRequest s rid)
    rw [heq]; exact (local_of_eq hclients hsupervisor s).trans (local_abandonRequest m₁ s rid)

theorem speaks_cancelRequests
    (hb : ∀ {l}, m.life s = some l → l.state.isBeforeHandshake = false) {rids : List ℕ} :
    Speaks (rids.map cancelNotice) s m (rids.foldl (fun m rid => m.cancelRequest s rid) m) := by
  induction rids generalizing m with
  | nil => exact .refl s m
  | cons rid rids ih =>
    obtain ⟨m₁, hclients, hsupervisor, heq⟩ := m.cancelRequest_eq s rid
    have hsame : Speaks Silent s m m₁ := speaks_of_eq hclients hsupervisor s
    have hfirst : Speaks [cancelNotice rid] s m (m.cancelRequest s rid) := by
      rw [heq]; exact hsame.trans (speaks_abandonRequest (hsame.notBefore hb) rid)
    exact hfirst.append (ih (hfirst.notBefore hb))

/-! ## Lifecycle steps -/

theorem local_stop (m : LspManager) (s : LspServerId) : Local s m (m.stop s).2 := by
  unfold stop
  split
  · exact .refl s m
  rename_i c hc
  have hown : ∀ {pid}, c.process = some pid → m.processOf s = some pid := by
    intro pid hpid; rw [processOf_of_lookup hc]; exact hpid
  simp only
  split
  · exact local_insert rfl rfl hown
  split
  · set c' : LspClient := { { c with
      spec := { c.spec with restart := .never }
      nextRestartAt := none }.addRequest "shutdown" with
      state := .shuttingDown (some c.nextRequestId) }
    have hins : Local s m { m with clients := m.clients.insert s c' } := local_insert rfl rfl hown
    refine hins.trans (speaks_sendFrameTo ?_ _).toLocal; rw [processOf, lookup_insert]; rfl
  refine ⟨?_, ?_, ?_, ?_⟩
  · intro sid hne; exact lookup_insert_ne hne
  · intro pid _ _
    split
    · rfl
    · exact (m.supervisor.terminate_channel _ pid).1
  · intro pid hpid; rw [processOf, lookup_insert] at hpid; exact .inl (hown hpid)
  split
  · exact le_rfl
  · exact le_of_eq (m.supervisor.terminate_channel _ 0).2.symm

theorem life_stop (hc : m.clients.lookup s = some c) :
    Step (m.life s) (.issued []) fs ((m.stop s).2.life s) := by
  rw [life_of_lookup hc]
  simp only [stop, hc]
  split
  · rename_i hterm
    set c' : LspClient := { c with
      spec := { c.spec with restart := .never }
      nextRestartAt := none }
    have hinsert : ({ m with clients := m.clients.insert s c' } : LspManager).clients =
      m.clients.insert s c' := rfl
    rw [life_insert hinsert]
    exact .stops rfl rfl rfl rfl (.inl ⟨hterm, rfl⟩) (fun _ _ _ hp => hp)
      (rel_refl Channel.Takes.refl _)
  rename_i hterm; have hterm : c.state.isTerminal = false := by simpa using hterm
  split
  · rename_i hready
    set c' : LspClient := { { c with
      spec := { c.spec with restart := .never }
      nextRestartAt := none }.addRequest "shutdown" with
      state := .shuttingDown (some c.nextRequestId) }
    set m₁ : LspManager := { m with clients := m.clients.insert s c' }
    have hc' : m₁.clients.lookup s = some c' := lookup_insert _
    have hspeaks := (speaks_sendFrameTo (processOf_of_lookup hc')
      (.request c.nextRequestId "shutdown" .null)).own
    rw [life_of_lookup hc'] at hspeaks
    generalize (m₁.sendFrameTo c' (.request c.nextRequestId "shutdown" .null)).2.life s = o
      at hspeaks
    cases hspeaks with
    | some ht =>
      refine .stops ht.restart ht.nextRestartAt ht.settings ht.deferred
        (.inr ⟨hterm, by rw [ht.state]; rfl⟩) ?_ ht.channel
      intro hnot; exact absurd (hready.symm.trans hnot) (by simp)
  set c' : LspClient := { c with
    spec := { c.spec with restart := .never }
    nextRestartAt := none
    state := .shuttingDown none }
  -- whether there is a process to be terminated or not
  have hstops : ∀ sup : ProcessSupervisor, (∀ pid, sup.channel pid = m.supervisor.channel pid) →
      Step (some (c.life m.supervisor)) (.issued []) fs
        (({ m with supervisor := sup, clients := m.clients.insert s c' } : LspManager).life s) := by
    intro sup hchannel
    set m₁ : LspManager := { m with supervisor := sup, clients := m.clients.insert s c' }
    have hinsert : m₁.clients = m.clients.insert s c' := rfl
    rw [life_insert hinsert]
    refine .stops rfl rfl rfl rfl (.inr ⟨hterm, rfl⟩) (fun _ _ _ hp => hp) ?_
    have hsame : c.process.map sup.channel = c.process.map m.supervisor.channel := by
      cases c.process with
      | none => rfl
      | some pid => exact congrArg some (hchannel pid)
    show Option.Rel _ (c.process.map m.supervisor.channel) (c.process.map sup.channel)
    rw [hsame]; exact rel_refl Channel.Takes.refl _
  split
  · exact hstops _ fun _ => rfl
  · exact hstops _ fun pid => (m.supervisor.terminate_channel _ pid).1

theorem life_step_stop (m : LspManager) (s : LspServerId) :
    Step (m.life s) (.issued []) fs ((m.stop s).2.life s) := by
  cases hc : m.clients.lookup s with
  | none =>
    have hstop : (m.stop s).2 = m := by simp [stop, hc]
    rw [hstop, life_none hc]; exact .absent
  | some c => exact life_stop hc

theorem startGeneration_life (m : LspManager) (s : LspServerId) (client : LspClient) :
    (m.startGeneration s client).2.2.clients = m.clients ∧
      (∀ pid, pid < m.supervisor.nextId →
        (m.startGeneration s client).2.2.supervisor.channel pid = m.supervisor.channel pid) ∧
      (m.startGeneration s client).2.2.supervisor.nextId = m.supervisor.nextId + 1 ∧
      (m.startGeneration s client).2.1.spec = client.spec ∧
      (match (m.startGeneration s client).1 with
        | .ok _ => (m.startGeneration s client).2.1.process = some m.supervisor.nextId ∧
          Fresh ((m.startGeneration s client).2.1.life
            (m.startGeneration s client).2.2.supervisor)
        | .error _ => (m.startGeneration s client).2.1.process = client.process) := by
  obtain ⟨hothers, hnext, hnew⟩ := m.supervisor.spawn_channel
  unfold startGeneration
  simp only
  have hsup : (m.dropGeneration s).supervisor = m.supervisor := rfl
  rw [hsup]
  split
  · rename_i e sup heq; rw [heq] at hothers hnext; exact ⟨rfl, hothers, hnext, rfl, rfl⟩
  rename_i pid sup heq; rw [heq] at hothers hnext hnew; obtain ⟨hpid, hchannel⟩ := hnew rfl
  refine ⟨rfl, hothers, hnext, rfl, congrArg some hpid, rfl, ?_, rfl, pid, ?_⟩
  · intro rid; rfl
  · exact congrArg some hchannel

theorem local_startGeneration {m' : LspManager} (m₁ : LspManager)
    (client : LspClient) (hsupervisor₁ : m₁.supervisor = m.supervisor)
    (hclient : ∀ {pid}, client.process = some pid → m.processOf s = some pid)
    (hclients : ∀ {sid}, sid ≠ s → m'.clients.lookup sid = m.clients.lookup sid)
    (hsupervisor : m'.supervisor = (m₁.startGeneration s client).2.2.supervisor)
    (hprocess : ∀ {pid}, m'.processOf s = some pid →
      m.processOf s = some pid ∨ (m₁.startGeneration s client).2.1.process = some pid) :
    Local s m m' := by
  obtain ⟨_, hchannel, hnext, _, hstarted⟩ := startGeneration_life m₁ s client
  rw [hsupervisor₁] at hchannel hnext hstarted
  refine ⟨hclients, ?_, ?_, ?_⟩
  · intro pid _ hlt; rw [hsupervisor]; exact hchannel pid hlt
  · intro pid hpid
    rcases hprocess hpid with hold | hnew
    · exact .inl hold
    split at hstarted
    · rw [hstarted.1] at hnew; cases hnew; rw [hsupervisor, hnext]
      exact .inr ⟨le_rfl, Nat.lt_succ_self _⟩
    · rw [hstarted] at hnew; exact .inl (hclient hnew)
  · rw [hsupervisor, hnext]; exact Nat.le_succ _

theorem local_spawn (m : LspManager) (spec : LspServerSpec) :
    Local m.nextServerId m (m.spawn spec).2 := by
  have hlocal : ∀ m' : LspManager,
      (∀ {sid}, sid ≠ m.nextServerId → m'.clients.lookup sid = m.clients.lookup sid) →
      m'.supervisor = ({ m with nextServerId := m.nextServerId + 1 }.startGeneration
        m.nextServerId (.new spec)).2.2.supervisor →
      (∀ {pid}, m'.processOf m.nextServerId = some pid →
        m.processOf m.nextServerId = some pid ∨ ({ m with nextServerId := m.nextServerId + 1
          }.startGeneration m.nextServerId (.new spec)).2.1.process = some pid) →
      Local m.nextServerId m m' := fun _ h₁ h₂ h₃ =>
    local_startGeneration { m with nextServerId := m.nextServerId + 1 } (.new spec) rfl
      nofun h₁ h₂ h₃
  obtain ⟨hclients, _⟩ := startGeneration_life { m with nextServerId := m.nextServerId + 1 }
    m.nextServerId (.new spec)
  unfold spawn
  simp only
  split
  · rename_i e client m' hstart; rw [hstart] at hclients hlocal
    refine hlocal _ (fun _ => by rw [hclients]) rfl ?_; intro pid hpid
    rw [processOf, hclients] at hpid; exact .inl hpid
  rename_i client m' hstart; rw [hstart] at hclients hlocal
  refine hlocal _ ?_ rfl ?_
  · intro sid hne
    rw [lookup_insert_ne hne, hclients]
  · intro pid hpid; rw [processOf, lookup_insert] at hpid; exact .inr hpid

theorem life_step_spawn (hnew : m.clients.lookup m.nextServerId = none) (spec : LspServerSpec) :
    Step (m.life m.nextServerId) (.issued []) fs ((m.spawn spec).2.life m.nextServerId) := by
  obtain ⟨hclients, _, _, _, hstarted⟩ := startGeneration_life
    { m with nextServerId := m.nextServerId + 1 } m.nextServerId (.new spec)
  rw [life_none hnew]
  unfold spawn
  simp only
  split
  · rename_i e client m' hstart; rw [hstart] at hclients; rw [life, hclients, hnew]
    exact .absent
  rename_i client m' hstart; rw [hstart] at hstarted
  have hinsert : ({ m' with clients := m'.clients.insert m.nextServerId client } :
    LspManager).clients = m'.clients.insert m.nextServerId client := rfl
  rw [life_insert hinsert]; exact .born hstarted.2

theorem local_forget (m : LspManager) (s : LspServerId) : Local s m (m.forget s).2 := by
  unfold forget
  split
  · exact .refl s m
  split
  · refine ⟨fun hne => lookup_erase_ne hne, fun _ _ => rfl, ?_, le_rfl⟩; intro pid hpid
    have hnone : (m.clients.erase s).lookup s = none := lookup_erase _ _
    change ((m.clients.erase s).lookup s).bind (·.process) = some pid at hpid; rw [hnone] at hpid
    cases hpid
  · exact .refl s m

theorem life_step_forget (m : LspManager) (s : LspServerId) :
    Step (m.life s) (.issued []) fs ((m.forget s).2.life s) := by
  unfold forget
  cases hc : m.clients.lookup s with
  | none => rw [life_none hc]; exact .absent
  | some c =>
    simp only
    split
    · rw [life_of_lookup hc]
      have hnone : ({ m with
          clients := m.clients.erase s
          events := m.events.filter (·.1 ≠ s) }.dropGeneration s).life s = none :=
        life_none (lookup_erase _ _)
      rw [hnone]; exact .gone
    · rw [life_of_lookup hc]; exact .talks (.refl _) fun _ => rfl

theorem local_maybeRestart (m : LspManager) (s : LspServerId) : Local s m (m.maybeRestart s) := by
  unfold maybeRestart
  split
  · exact .refl s m
  rename_i c hc
  split
  · split
    · simp only
      set m₁ : LspManager := { m.pushEvent s (.restarting (c.attempt + 1)) with
        clients := m.clients.erase s }
      have hfold : ({ m.pushEvent s (.restarting (c.attempt + 1)) with
        clients := (m.pushEvent s (.restarting (c.attempt + 1))).clients.erase s } : LspManager) =
          m₁ := rfl
      rw [hfold]; have hclients := (startGeneration_life m₁ s c).1
      have hlocal : ∀ {m' : LspManager} {c' : LspClient},
          m'.clients = (m₁.startGeneration s c).2.2.clients.insert s c' →
          m'.supervisor = (m₁.startGeneration s c).2.2.supervisor →
          c'.process = (m₁.startGeneration s c).2.1.process → Local s m m' := by
        intro m' c' hinsert hsupervisor hsame
        refine local_startGeneration m₁ c rfl ?_ ?_ hsupervisor ?_
        · intro pid hpid; rw [processOf_of_lookup hc]; exact hpid
        · intro sid hne; rw [hinsert, lookup_insert_ne hne, hclients]; exact lookup_erase_ne hne
        intro pid hpid; rw [processOf, hinsert, lookup_insert] at hpid
        exact .inr (hsame ▸ hpid)
      split
      · rename_i e client m' hstart; rw [hstart] at hlocal; exact hlocal rfl rfl rfl
      · rename_i client m' hstart; rw [hstart] at hlocal; exact hlocal rfl rfl rfl
    · exact .refl s m
  · exact .refl s m

theorem life_step_maybeRestart
    (hdead : ∀ {c}, m.clients.lookup s = some c → c.state.isTerminal = true → c.process = none) :
    Step (m.life s) (.issued []) fs ((m.maybeRestart s).life s) := by
  have hsame : Step (m.life s) (.issued []) fs (m.life s) := by
    cases m.life s with
    | none => exact .absent
    | some l => exact .talks (.refl l) fun _ => rfl
  unfold maybeRestart
  split
  · exact hsame
  rename_i c hc
  split
  · rename_i reason ended due hstate hat
    split
    · simp only
      have hterm : c.state.isTerminal = true := by rw [hstate]; rfl
      have hprocess : c.process = none := hdead hc hterm
      set m₁ : LspManager := { m.pushEvent s (.restarting (c.attempt + 1)) with
        clients := m.clients.erase s }
      have hfold : ({ m.pushEvent s (.restarting (c.attempt + 1)) with
        clients := (m.pushEvent s (.restarting (c.attempt + 1))).clients.erase s } : LspManager) =
          m₁ := rfl
      rw [hfold, life_of_lookup hc]
      obtain ⟨_, _, _, hspec, hstarted⟩ := startGeneration_life m₁ s c
      have hrestarts : ∀ {m' : LspManager} {c' : LspClient}, m'.life s = some (c'.life m'.supervisor) →
          c'.spec = c.spec →
          ((c'.life m'.supervisor).Fresh ∨ c'.state.isTerminal = true ∧ c'.process = none) →
          Step (some (c.life m.supervisor)) (.issued []) fs (m'.life s) := by
        intro m' c' hlife hsame hnew; rw [hlife]
        refine .restarts hterm ?_ (congrArg (Option.map _) hprocess) ?_ (hnew.imp_right ?_)
        · show c.nextRestartAt ≠ none
          rw [hat]; simp
        · exact congrArg LspServerSpec.restart hsame
        · exact fun h => ⟨h.1, congrArg (Option.map _) h.2⟩
      split
      · rename_i e client m' hstart; rw [hstart] at hspec hstarted
        exact hrestarts (life_insert rfl) hspec (.inr ⟨rfl, hstarted.trans hprocess⟩)
      rename_i client m' hstart; rw [hstart] at hspec hstarted
      exact hrestarts (life_insert rfl) hspec (.inl hstarted.2)
    · exact hsame
  · exact hsame

/-! ## The start and the end of a process -/

theorem sendFrameTo_takes (m : LspManager) (c : LspClient) (frame : Frame) :
    (m.sendFrameTo c frame).2.clients = m.clients ∧
      Option.Rel (Channel.Takes ([frame].filter (·.isNotification)))
        (c.process.map m.supervisor.channel) (c.process.map (m.sendFrameTo c frame).2.supervisor.channel) := by
  unfold sendFrameTo
  cases c.process with
  | none => exact ⟨rfl, .none⟩
  | some pid => exact ⟨rfl, .some (m.supervisor.writeStdin_channel pid frame).1⟩

/-- The client of a server whose process has started. -/
def greetedClient (c : LspClient) (atTime : ℕ) : LspClient :=
  { c.addRequest "initialize" with state := .initializing c.nextRequestId atTime }

theorem onStarted_eq (hc : m.clients.lookup s = some c) (pid atTime : ℕ) :
    (m.onStarted s pid atTime).clients = m.clients.insert s (greetedClient c atTime) ∧
      (m.onStarted s pid atTime).supervisor =
        ({ m with clients := m.clients.insert s (greetedClient c atTime) }.sendFrameTo
          (greetedClient c atTime)
          (.request c.nextRequestId "initialize" c.spec.greeting)).2.supervisor := by
  have hsent := (sendFrameTo_takes
    { m with clients := m.clients.insert s (greetedClient c atTime) } (greetedClient c atTime)
    (.request c.nextRequestId "initialize" c.spec.greeting)).1
  simp only [onStarted, hc]
  split
  · exact ⟨hsent, rfl⟩
  · exact ⟨hsent, rfl⟩

variable {atTime : ℕ}

theorem local_onStarted {pid : ℕ} : Local s m (m.onStarted s pid atTime) := by
  cases hc : m.clients.lookup s with
  | none => simp only [onStarted, hc]; exact .refl s m
  | some c =>
    obtain ⟨hclients, hsupervisor⟩ := onStarted_eq hc pid atTime
    have hins : Local s m { m with clients := m.clients.insert s (greetedClient c atTime) } := by
      refine local_insert rfl rfl ?_; intro pid' hpid'; rw [processOf_of_lookup hc]
      exact hpid'
    have hprocess : processOf { m with clients := m.clients.insert s (greetedClient c atTime) } s =
        (greetedClient c atTime).process := processOf_of_lookup (lookup_insert _)
    have hsent := speaks_sendFrameTo hprocess
      (.request c.nextRequestId "initialize" c.spec.greeting)
    refine (hins.trans hsent.toLocal).trans (local_of_eq ?_ hsupervisor s)
    rw [hclients, (sendFrameTo_takes _ _ _).1]

theorem life_step_onStarted (hc : m.clients.lookup s = some c) (hstart : c.state = .starting)
    {pid : ℕ} : Step (m.life s) (.issued []) fs ((m.onStarted s pid atTime).life s) := by
  obtain ⟨hclients, hsupervisor⟩ := onStarted_eq hc pid atTime
  obtain ⟨_, htakes⟩ := sendFrameTo_takes
    { m with clients := m.clients.insert s (greetedClient c atTime) } (greetedClient c atTime)
    (.request c.nextRequestId "initialize" c.spec.greeting)
  rw [life_of_lookup hc, life_insert hclients, hsupervisor]
  exact .starts hstart rfl rfl rfl rfl rfl rfl htakes

theorem local_onExit {reason : String} : Local s m (m.onExit s atTime reason) := by
  unfold onExit
  split
  · exact .refl s m
  rename_i c hc
  refine ⟨fun hne => lookup_insert_ne hne, ?_, ?_, ?_⟩
  · intro pid hpid _; rw [processOf_of_lookup hc] at hpid
    dsimp only; rw [hc]
    split
    · rfl
    rename_i pid' hpid'
    refine m.supervisor.forget_channel ?_; rintro rfl; exact hpid hpid'
  · intro pid hpid; change ((m.clients.insert s _).lookup s).bind (·.process) = some pid at hpid
    rw [lookup_insert] at hpid; cases hpid
  dsimp only
  split
  · exact le_rfl
  · exact le_of_eq (m.supervisor.forget_nextId _).symm

theorem life_step_onExit (hc : m.clients.lookup s = some c) (hlive : c.process.isSome = true)
    {reason : String} : Step (m.life s) (.issued []) fs ((m.onExit s atTime reason).life s) := by
  set c' : LspClient := { c with
    state := if c.state.isShuttingDown = true then .stopped atTime else .crashed reason atTime
    process := none
    nextRestartAt := if (!c.state.isShuttingDown && c.spec.restart.shouldRestart) = true
      then some (atTime + m.restartBackoff) else c.nextRestartAt } with hc'
  have hclients : (m.onExit s atTime reason).clients = m.clients.insert s c' := by
    simp only [onExit, hc]; rfl
  rw [life_of_lookup hc, life_insert hclients]
  refine .exits ?_ rfl ?_ ?_ rfl ?_
  · show (c.process.map m.supervisor.channel).isSome = true
    rw [isSome_map]; exact hlive
  · show c'.state.isTerminal = true
    rw [hc']
    split <;> rfl
  · intro hs; change c.state.isShuttingDown = true at hs
    refine ⟨atTime, ?_⟩; show c'.state = _
    rw [hc']; simp [hs]
  intro hnever; show c'.nextRestartAt = c.nextRestartAt
  change c.spec.restart = .never at hnever; rw [hc']
  simp [hnever, LspRestartPolicy.shouldRestart]

/-! ## Answers to the handshake and the shutdown -/

theorem sendQuietly_of_process (h : m.processOf s = some pid) (frame : Frame) :
    m.sendQuietly s frame = { m with supervisor := (m.supervisor.writeStdin pid frame).2 } := by
  rw [processOf, bind_eq_some_iff] at h
  obtain ⟨c, hc, hp⟩ := h
  simp only [sendQuietly, hc, sendFrameTo, hp]

theorem foldl_sendQuietly (h : m.processOf s = some pid) (notices : List (String × Value)) :
    notices.foldl (fun m n => m.sendQuietly s (.notification n.1 n.2)) m =
      { m with supervisor := m.supervisor.writeAll pid (notices.map Frame.ofNotice) } := by
  induction notices generalizing m with
  | nil => rfl
  | cons n notices ih =>
    have hfirst := sendQuietly_of_process h (.notification n.1 n.2)
    show notices.foldl _ (m.sendQuietly s (.notification n.1 n.2)) = _
    rw [ih (by rw [hfirst]; exact h), hfirst]; rfl

theorem pushInitialConfiguration_eq (hc : m.clients.lookup s = some c)
    (hpid : c.process = some pid) :
    m.pushInitialConfiguration s = { m with
      supervisor := m.supervisor.writeAll pid (Frame.greeting c.spec.settings).tail } := by
  simp only [pushInitialConfiguration, hc, bind_some]
  cases c.spec.settings with
  | none => rfl
  | some settings => exact sendQuietly_of_process ((processOf_of_lookup hc).trans hpid) _

theorem flushDeferredNotifications_eq (hc : m.clients.lookup s = some c)
    (hpid : c.process = some pid) :
    m.flushDeferredNotifications s = { m with
      clients := m.clients.insert s { c with deferredNotifications := [] }
      supervisor := m.supervisor.writeAll pid (c.deferredNotifications.map Frame.ofNotice) } := by
  simp only [flushDeferredNotifications, modifyClient, hc]
  refine foldl_sendQuietly ?_ _
  rw [processOf, lookup_insert]
  exact hpid

theorem writeAll_append (sup : ProcessSupervisor) (pid : ProcessId) (fs gs : List Frame) :
    (sup.writeAll pid fs).writeAll pid gs = sup.writeAll pid (fs ++ gs) :=
  (foldl_append ..).symm

variable {result : Option Value}

/-- The answer to the handshake: the process is written the greeting, and what was held
    back. -/
theorem initializeAnswered_eq (hc : m.clients.lookup s = some c) (hpid : c.process = some pid) :
    ∃ c', (m.initializeAnswered s result).clients.lookup s = some c' ∧
      c'.state.isReadyForRequest = true ∧ c'.spec = c.spec ∧ c'.process = some pid ∧
      c'.nextRestartAt = c.nextRestartAt ∧ c'.deferredNotifications = [] ∧
      (m.initializeAnswered s result).supervisor = m.supervisor.writeAll pid
        (Frame.greeting c.spec.settings ++ c.deferredNotifications.map Frame.ofNotice) := by
  have hfirst := sendQuietly_of_process ((processOf_of_lookup hc).trans hpid)
    (.notification "initialized" (.object []))
  unfold initializeAnswered
  simp only
  rw [hfirst]
  set m₁ : LspManager := { m with
    supervisor := (m.supervisor.writeStdin pid (.notification "initialized" (.object []))).2 }
  have hc₁ : m₁.clients.lookup s = some c := hc
  rw [pushInitialConfiguration_eq hc₁ hpid]
  set m₂ : LspManager := { m₁ with
    supervisor := m₁.supervisor.writeAll pid (Frame.greeting c.spec.settings).tail }
  have hc₂ : m₂.clients.lookup s = some c := hc
  simp only [modifyClient, hc₂]
  set c₃ : LspClient := { c with
    positionEncoding := .fromNegotiated
      ((((result.getD .null).get "capabilities").getD .null).get "positionEncoding" |>.bind
        Value.asStr)
    state := .initialized (((result.getD .null).get "capabilities").getD .null)
      ((result.getD .null).get "serverInfo") m₂.now }
  set m₃ : LspManager := { m₂ with clients := m₂.clients.insert s c₃ }
  have hc₃ : m₃.clients.lookup s = some c₃ := lookup_insert _
  have hflush := flushDeferredNotifications_eq hc₃ hpid
  refine ⟨{ c₃ with deferredNotifications := [] }, ?_, rfl, rfl, hpid, rfl, rfl, ?_⟩
  · rw [hflush]; exact lookup_insert _
  · rw [hflush, ← writeAll_append]; rfl

variable {rid : ℕ}

theorem life_step_initializeAnswered {m₀ : LspManager} {c₀ : LspClient}
    (hc : m.clients.lookup s = some c) (hc₀ : m₀.clients.lookup s = some c₀)
    (hsame : c₀.spec = c.spec ∧ c₀.process = c.process ∧ c₀.nextRestartAt = c.nextRestartAt ∧
      c₀.deferredNotifications = c.deferredNotifications)
    (hsupervisor : m₀.supervisor = m.supervisor) (hpid : c.process = some pid)
    (hinit : c.state = .initializing rid atTime)
    (haccepts : m.supervisor.Accepts pid
      (Frame.greeting c.spec.settings ++ c.deferredNotifications.map Frame.ofNotice)) :
    Step (m.life s) (.greeted rid) fs ((m₀.initializeAnswered s result).life s) := by
  obtain ⟨hspec, hprocess, hat, hdeferred⟩ := hsame
  obtain ⟨c', hc', hready, hspec', hpid', hat', hdeferred', hwritten⟩ :=
    initializeAnswered_eq hc₀ (hprocess.trans hpid)
  rw [hspec, hdeferred, hsupervisor] at hwritten
  rw [life_of_lookup hc, life_of_lookup hc']
  have hspecs : c'.spec = c.spec := hspec'.trans hspec
  refine .greets hinit hready ?_ (hat'.trans hat) ?_ hdeferred' (congrArg (Option.map _) hpid)
    (congrArg (Option.map _) hpid') rfl ?_
  · exact congrArg LspServerSpec.restart hspecs
  · exact congrArg LspServerSpec.settings hspecs
  · rw [hwritten]; exact (writeAll_channel haccepts).imp_left id

theorem life_step_shutdownAnswered {m₀ : LspManager} {c₀ : LspClient}
    (hc : m.clients.lookup s = some c) (hc₀ : m₀.clients.lookup s = some c₀)
    (hsame : c₀.spec = c.spec ∧ c₀.process = c.process ∧ c₀.nextRestartAt = c.nextRestartAt ∧
      c₀.deferredNotifications = c.deferredNotifications)
    (hpending : ∀ {rid method}, c₀.pending.lookup rid = some method →
      c.pending.lookup rid = some method)
    (hsupervisor : m₀.supervisor = m.supervisor) (hbefore : c.state.isBeforeHandshake = false)
    (hterm : c.state.isTerminal = false)
    (htold : c.state.isShuttingDown = true → (c.life m.supervisor).Told) :
    Step (m.life s) (.issued []) [.notification "exit" .null]
      ((m₀.shutdownAnswered s).life s) := by
  obtain ⟨hspec, hprocess, hat, hdeferred⟩ := hsame
  obtain ⟨hclients, htakes⟩ := sendFrameTo_takes m₀ c₀ (.notification "exit" .null)
  have hquiet : m₀.sendQuietly s (.notification "exit" .null) =
      (m₀.sendFrameTo c₀ (.notification "exit" .null)).2 := by simp only [sendQuietly, hc₀]
  set m₁ := (m₀.sendFrameTo c₀ (.notification "exit" .null)).2
  have hc₁ : m₁.clients.lookup s = some c₀ := by rw [hclients, hc₀]
  have hlife : (m₀.shutdownAnswered s).life s =
      some (({ c₀ with state := .shuttingDown none } : LspClient).life m₁.supervisor) := by
    unfold shutdownAnswered; rw [hquiet]
    simp only [modifyClient, hc₁]; exact life_insert rfl
  rw [life_of_lookup hc, hlife]
  rw [hsupervisor, hprocess] at htakes
  refine .shutdownAnswered hbefore hterm htold rfl ?_ hat ?_ hdeferred hpending ?_
  · exact congrArg LspServerSpec.restart hspec
  · exact congrArg LspServerSpec.settings hspec
  · rw [hprocess]; exact htakes

theorem local_pushEvent (sid : LspServerId) (kind : LspEventKind) :
    Local s m (m.pushEvent sid kind) := by
  refine local_of_eq ?_ ?_ s
  · rfl
  · rfl

theorem local_modifyClient {f : LspClient → LspClient}
    (hf : ∀ c, (f c).process = c.process) : Local s m (m.modifyClient s f) := by
  unfold modifyClient
  split
  · exact .refl s m
  rename_i c hc
  refine local_insert rfl rfl ?_; intro pid hpid; rw [processOf_of_lookup hc, ← hf c]
  exact hpid

theorem local_sendQuietly (m : LspManager) (s : LspServerId) (frame : Frame) :
    Local s m (m.sendQuietly s frame) := (speaks_sendQuietly m s frame).toLocal

theorem local_flushDeferredNotifications : Local s m (m.flushDeferredNotifications s) := by
  unfold flushDeferredNotifications
  split
  · exact .refl s m
  have hsend : ∀ (notices : List (String × Value)) (m : LspManager), Local s m
      (notices.foldl (fun m n => m.sendQuietly s (.notification n.1 n.2)) m) := by
    intro notices
    induction notices with
    | nil => exact .refl s
    | cons n notices ih => exact fun m => (local_sendQuietly m s _).trans (ih _)
  refine (local_modifyClient ?_).trans (hsend _ _); exact fun _ => rfl

theorem local_initializeAnswered : Local s m (m.initializeAnswered s result) := by
  have hpush : ∀ m : LspManager, Local s m (m.pushInitialConfiguration s) := by
    intro m; unfold pushInitialConfiguration
    split
    · exact .refl s m
    · exact local_sendQuietly m s _
  unfold initializeAnswered
  refine Local.trans ?_ (local_pushEvent s _)
  refine Local.trans ?_ (local_flushDeferredNotifications)
  refine ((local_sendQuietly m s _).trans (hpush _)).trans (local_modifyClient ?_)
  exact fun _ => rfl

theorem local_shutdownAnswered : Local s m (m.shutdownAnswered s) := by
  unfold shutdownAnswered
  refine Local.trans ?_ (local_pushEvent s _)
  refine (local_sendQuietly m s _).trans (local_modifyClient ?_)
  exact fun _ => rfl

theorem speaks_absorbAnswer (m : LspManager) (s : LspServerId) (rid : ℕ) (result : Option Value)
    (error : Option LspError) : Speaks Silent s m (m.absorbAnswer s rid result error) := by
  unfold absorbAnswer
  split
  · exact .refl s m
  split
  · refine speaks_of_eq ?_ ?_ s <;> rfl
  · refine speaks_of_eq ?_ ?_ s <;> rfl

variable {error : Option LspError}

theorem speaks_settleAnswer : Speaks Silent s m (m.settleAnswer s rid result error) := by
  unfold settleAnswer
  split
  · exact .refl s m
  · refine speaks_of_eq ?_ ?_ s <;> rfl

theorem speaks_handleAnswer (hinit : method ≠ "initialize")
    (hshut : method ≠ "shutdown") (result : Option Value) (error : Option LspError) :
    Speaks Silent s m (m.handleAnswer s rid method result error) := by
  unfold handleAnswer
  split
  · exact speaks_pushEvent m s s _
  exact ((speaks_absorbAnswer m s rid result error).trans
    (speaks_settleAnswer)).trans (speaks_pushEvent _ s s _)

theorem speaks_answered (m : LspManager) (s : LspServerId) (rid : ℕ) : Speaks Silent s m
      (m.modifyClient s fun c => { c with pending := c.pending.erase rid }) := by
  refine speaks_modifyClient ?_
  intro c sup
  exact ⟨rfl, talks_pending rfl rfl rfl rfl rfl fun hp => (lookup_of_erase hp).1⟩

theorem local_handleResponse {id : Value} : Local s m (m.handleResponse s id result error) := by
  unfold handleResponse
  split
  · exact local_pushEvent s _
  rename_i rid _
  split
  · exact .refl s m
  rename_i c hc
  split
  · refine local_modifyClient ?_; exact fun _ => rfl
  refine (speaks_answered m s rid).toLocal.trans ?_
  by_cases hinit : (c.pending.lookup rid).getD "" = "initialize"
  · rw [hinit]; exact local_initializeAnswered
  by_cases hshut : (c.pending.lookup rid).getD "" = "shutdown"
  · rw [hshut]; exact local_shutdownAnswered
  · exact (speaks_handleAnswer hinit hshut result error).toLocal

theorem speaks_handleRequest (m : LspManager) (s : LspServerId) (id : Value) (method : String)
    (params : Value) : Speaks Silent s m (m.handleRequest s id method params) := by
  unfold handleRequest
  split
  · exact speaks_sendResponse m s id _
  · exact speaks_pushEvent m s s _

theorem speaks_handleNotification (m : LspManager) (s : LspServerId) (method : String)
    (params : Value) : Speaks Silent s m (m.handleNotification s method params) := by
  have habsorb : Speaks Silent s m (m.absorbPublishDiagnostics s params) := by
    unfold absorbPublishDiagnostics
    split
    · exact .refl s m
    split
    · exact .refl s m
    split
    · exact .refl s m
    · refine speaks_of_eq ?_ ?_ s <;> rfl
  unfold handleNotification
  split
  · exact habsorb.trans (speaks_pushEvent _ s s _)
  · exact speaks_pushEvent m s s _

theorem speaks_supervisor {sup : ProcessSupervisor}
    (hchannel : ∀ pid, sup.channel pid = m.supervisor.channel pid)
    (hnext : sup.nextId = m.supervisor.nextId) (s : LspServerId) :
    Speaks Silent s m { m with supervisor := sup } := by
  refine ⟨⟨fun _ => rfl, fun _ _ => hchannel _, fun hpid => .inl hpid, le_of_eq hnext.symm⟩, ?_⟩
  have hsame : ({ m with supervisor := sup } : LspManager).life s = m.life s := by
    rw [life, life]; have hpid : sup.channel = m.supervisor.channel := funext hchannel
    simp only [LspClient.life, hpid]
  rw [hsame]
  exact rel_refl .refl _

theorem speaks_frameError (m : LspManager) (s : LspServerId) :
    Speaks Silent s m (m.dispatchInbound s .frameError) := by
  have hpush : Speaks Silent s m (m.pushEvent s (.protocolError .frameError)) :=
    speaks_pushEvent m s s _
  unfold dispatchInbound
  simp only
  split
  · exact hpush
  rename_i pid _
  refine hpush.trans (speaks_supervisor ?_ ?_ s)
  · exact fun pid' => (terminate_channel _ pid pid').1
  · exact (terminate_channel _ pid 0).2

theorem local_handleProcessEvent (ev : ProcessEvent) : Local s m (m.handleProcessEvent s ev) := by
  obtain ⟨kind, atTime⟩ := ev
  cases kind with
  | started pid => exact local_onStarted
  | stdout frame =>
    cases frame with
    | response id result error => exact local_handleResponse
    | request id method params => exact (speaks_handleRequest m s id method params).toLocal
    | notification method params => exact (speaks_handleNotification m s method params).toLocal
    | malformed => exact local_pushEvent s _
    | frameError => exact (speaks_frameError m s).toLocal
  | stderr => exact local_pushEvent s _
  | exited | signaled | crashed => exact local_onExit

end LspManager

end Pmacs
