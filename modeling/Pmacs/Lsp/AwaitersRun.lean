/-
  What becomes of a job over a run of the language-server registry.

  * `moves_perform`: what one step does to the jobs, `accounted_run` what a run does;
  * `Abandoned`: a request that was given up stays so, and an answer to it does nothing.
-/
import Pmacs.Lsp.Teardown

namespace Pmacs

open Lib AList List Option AsyncRuntime

namespace LspManager

variable {c : LspClient} {m m' : LspManager} {sid : LspServerId} {rid : ℕ}

/-! ## Answers -/

def awaitersAt (m : LspManager) (sid : LspServerId) (rid : ℕ) : List JobId :=
  ((m.pendingExternal.lookup (sid, rid)).map (·.awaiters)).getD []

/-- What an answer to a request does: its jobs are settled, and no others. -/
structure Answers (m m' : LspManager) (sid : LspServerId) (rid : ℕ) : Prop where
  settled : m'.settledJobs = m.settledJobs ++ m.awaitersAt sid rid
  erased : m'.pendingExternal.lookup (sid, rid) = none
  others : ∀ {key}, key ≠ (sid, rid) →
    m'.pendingExternal.lookup key = m.pendingExternal.lookup key

theorem answers_of_free (hfree : m.pendingExternal.lookup (sid, rid) = none)
    (hext : m'.pendingExternal = m.pendingExternal) (hsent : m'.runtime.sent = m.runtime.sent) :
    Answers m m' sid rid := by
  constructor
  · rw [settledJobs, settledJobs, hsent, awaitersAt, hfree]; exact (append_nil _).symm
  · rw [hext, hfree]
  · intro key _; rw [hext]

theorem absorbAnswer_keeps (m : LspManager) (sid : LspServerId) (rid : ℕ) (result : Option Value)
    (error : Option LspError) : (m.absorbAnswer sid rid result error).clients = m.clients ∧
      (m.absorbAnswer sid rid result error).pendingExternal = m.pendingExternal ∧
      (m.absorbAnswer sid rid result error).runtime = m.runtime ∧
      (m.absorbAnswer sid rid result error).nextServerId = m.nextServerId ∧
      ∀ {key route}, (m.absorbAnswer sid rid result error).pendingRoutes.lookup key = some route →
        m.pendingRoutes.lookup key = some route ∧ key ≠ (sid, rid) := by
  unfold absorbAnswer
  split
  · rename_i hnone
    refine ⟨rfl, rfl, rfl, rfl, ?_⟩; intro key route hr
    refine ⟨hr, ?_⟩; rintro rfl; rw [hnone] at hr
    cases hr
  · split <;> exact ⟨rfl, rfl, rfl, rfl, fun hr => lookup_of_erase hr⟩

variable {result : Option Value} {error : Option LspError}

theorem settleAnswer_spec {rid : ℕ} : Answers m (m.settleAnswer sid rid result error) sid rid ∧
      Settles (m.awaitersAt sid rid) m (m.settleAnswer sid rid result error) ∧
      Shrinks m (m.settleAnswer sid rid result error) := by
  unfold settleAnswer
  split
  · rename_i hnone
    refine ⟨answers_of_free hnone rfl rfl, ?_, fun hp => ⟨_, hp, rfl⟩⟩; rw [awaitersAt, hnone]
    exact settles_nil rfl rfl le_rfl
  rename_i p hp
  have hawaiters : m.awaitersAt sid rid = p.awaiters := by rw [awaitersAt, hp]; rfl
  have hsettles : Settles p.awaiters m { m with
      pendingExternal := m.pendingExternal.erase (sid, rid)
      runtime := m.runtime.completeAll
        (p.awaiters.map fun job => (job, answerOutcome p.method result error)) } :=
    settles_erase hp rfl rfl
  rw [hawaiters]
  refine ⟨⟨?_, lookup_erase _ _, fun hne => lookup_erase_ne hne⟩, hsettles, shrinks_erase rfl⟩
  rw [hawaiters]; exact hsettles.settled

theorem settleAnswer_keeps {rid : ℕ} : (m.settleAnswer sid rid result error).clients = m.clients ∧
      (m.settleAnswer sid rid result error).nextServerId = m.nextServerId ∧
      (m.settleAnswer sid rid result error).pendingRoutes = m.pendingRoutes := by
  unfold settleAnswer
  split <;> exact ⟨rfl, rfl, rfl⟩

/-- A request that no job awaits: it is pending under another method, or not at all. -/
theorem free_of_not_awaited (h : Joined m)
    (hm : ∀ {t method}, m.tableOf sid = some t → t.pending.lookup rid = some method →
      ¬ IsAwaited method) :
    m.pendingExternal.lookup (sid, rid) = none ∧ m.pendingRoutes.lookup (sid, rid) = none := by
  constructor
  · cases hp : m.pendingExternal.lookup (sid, rid) with
    | none => rfl
    | some p => obtain ⟨t, ht, _, hpending, haw⟩ := h.inFlight hp; exact absurd haw (hm ht hpending)
  cases hr : m.pendingRoutes.lookup (sid, rid) with
  | none => rfl
  | some route =>
    obtain ⟨t, ht, method, hpending, haw⟩ := h.routed hr; exact absurd haw (hm ht hpending)

theorem moves_answer_free
    (hc : m.clients.lookup sid = some c) (hfree : m.pendingExternal.lookup (sid, rid) = none)
    (hunrouted : m.pendingRoutes.lookup (sid, rid) = none)
    (h : Talks (m.modifyClient sid fun c => { c with pending := c.pending.erase rid }) m') :
    Moves [] m m' := by
  have hk := (keeps_modifyClient m sid fun c => { c with pending := c.pending.erase rid }).trans
    h.toKeeps
  have ht := tableOf_of_lookup hc
  have htable := h.tableOf
  rw [tableOf_modifyClient m sid (g := fun t => t.answer rid) fun _ => rfl, ht] at htable
  refine moves_update ht htable hk.nextServerId (fun hp => ⟨_, hk.pendingExternal ▸ hp, rfl⟩)
    (fun hr => hk.pendingRoutes ▸ hr)
    (settles_nil hk.pendingExternal (by rw [hk.runtime]) (by rw [hk.runtime]))
    (RequestTable.grows_answer) (fun hwf => hwf.answer rid) ?_ ?_
  · intro rid' p hp _ hlive hpending _
    have hne : rid' ≠ rid := by
      rintro rfl; rw [hk.pendingExternal, hfree] at hp; cases hp
    exact ⟨hlive, (lookup_erase_ne hne).trans hpending⟩
  rintro rid' route hr _ ⟨method, hpending, haw⟩
  have hne : rid' ≠ rid := by
    rintro rfl; rw [hk.pendingRoutes, hunrouted] at hr; cases hr
  exact ⟨method, (lookup_erase_ne hne).trans hpending, haw⟩

theorem moves_answer_awaited
    (hc : m.clients.lookup sid = some c) (result : Option Value) (error : Option LspError)
    (hm' : m' = ((m.modifyClient sid fun c => { c with pending := c.pending.erase rid }).absorbAnswer
      sid rid result error).settleAnswer sid rid result error) :
    Moves [] m m' ∧ Answers m m' sid rid := by
  subst hm'
  set m₁ := m.modifyClient sid fun c => { c with pending := c.pending.erase rid }
  have hk : Keeps m m₁ := keeps_modifyClient m sid _
  obtain ⟨hclients, hext, hruntime, hnext, hroutes⟩ := m₁.absorbAnswer_keeps sid rid result error
  obtain ⟨hanswers, hsettles, hshrinks⟩ := (m₁.absorbAnswer sid rid result error).settleAnswer_spec
  obtain ⟨hclients', hnext', hroutes'⟩ := (m₁.absorbAnswer sid rid result error).settleAnswer_keeps
  set m₂ := m₁.absorbAnswer sid rid result error
  set m₃ := m₂.settleAnswer sid rid result error
  have ht := tableOf_of_lookup hc
  have htable : m₃.tableOf = Function.update m.tableOf sid (some (c.table.answer rid)) := by
    have hsame : m₃.tableOf = m₁.tableOf := by funext s; rw [tableOf, hclients', hclients, tableOf]
    rw [hsame, tableOf_modifyClient m sid (g := fun t => t.answer rid) fun _ => rfl, ht]; rfl
  have hext₂ : m₂.pendingExternal = m.pendingExternal := hext.trans hk.pendingExternal
  have hsettles' : Settles (m₂.awaitersAt sid rid) m m₃ := by
    refine ⟨?_, ?_, ?_⟩
    · rw [parkedJobs, ← hext₂]; exact hsettles.parked
    · rw [hsettles.settled, settledJobs, settledJobs, hruntime, hk.runtime]
    · rw [← hk.runtime, ← hruntime]; exact hsettles.jobs
  refine ⟨moves_update ht htable (hnext'.trans (hnext.trans hk.nextServerId)) ?_ ?_ hsettles'
    (RequestTable.grows_answer) (fun hwf => hwf.answer rid) ?_ ?_, ?_, hanswers.erased, ?_⟩
  · intro key p hp; obtain ⟨p₀, hp₀, hmethod⟩ := hshrinks hp; exact ⟨p₀, hext₂ ▸ hp₀, hmethod⟩
  · intro key route hr; rw [← hk.pendingRoutes]; exact (hroutes (hroutes' ▸ hr)).1
  · intro rid' p hp _ hlive hpending _
    have hne : rid' ≠ rid := by
      rintro rfl; rw [hanswers.erased] at hp; cases hp
    exact ⟨hlive, (lookup_erase_ne hne).trans hpending⟩
  · rintro rid' route hr _ ⟨method, hpending, haw⟩
    have hne : rid' ≠ rid := by
      rintro rfl; exact (hroutes (hroutes' ▸ hr)).2 rfl
    exact ⟨method, (lookup_erase_ne hne).trans hpending, haw⟩
  · rw [hsettles'.settled, awaitersAt, awaitersAt, hext₂]
  · intro key hne; rw [hanswers.others hne, hext₂]

/-- **An answer settles the jobs of its own request**, and no others. -/
theorem handleResponse_spec (h : Joined m) (sid : LspServerId) (id : Value)
    (result : Option Value) (error : Option LspError) :
    Moves [] m (m.handleResponse sid id result error) ∧ ∀ {rid}, id.asU64 = some rid →
        Answers m (m.handleResponse sid id result error) sid rid := by
  unfold handleResponse
  cases hid : id.asU64 with
  | none => exact ⟨moves_talks (talks_pushEvent m sid _), nofun⟩
  | some rid =>
    have hsuffices : ∀ m', Moves [] m m' ∧ Answers m m' sid rid →
        Moves [] m m' ∧ ∀ {rid'}, some rid = some rid' → Answers m m' sid rid' := by
      rintro m' ⟨hmoves, hanswers⟩
      refine ⟨hmoves, ?_⟩; intro rid' hrid; cases hrid
      exact hanswers
    simp only
    split
    · rename_i hc
      refine hsuffices _ ⟨.refl m, answers_of_free (free_of_not_awaited h ?_).1 rfl rfl⟩
      intro t method ht; rw [tableOf, hc] at ht; cases ht
    rename_i c hc; have ht := tableOf_of_lookup hc
    split
    · rename_i hcancelled
      have hk := keeps_modifyClient m sid
        fun c => { c with cancelledRids := c.cancelledRids.filter (· ≠ rid) }
      have hfree : m.pendingExternal.lookup (sid, rid) = none := by
        refine (free_of_not_awaited h ?_).1; intro t method ht' hpending; cases ht.symm.trans ht'
        rw [((h.wf ht).cancelled hcancelled).2] at hpending; cases hpending
      refine hsuffices _ ⟨?_, answers_of_free hfree hk.pendingExternal (by rw [hk.runtime])⟩
      have htable := tableOf_modifyClient m sid
        (f := fun c => { c with cancelledRids := c.cancelledRids.filter (· ≠ rid) })
        (g := fun t => t.dropLate rid) fun _ => rfl
      rw [ht] at htable
      exact moves_update ht htable hk.nextServerId (fun hp => ⟨_, hk.pendingExternal ▸ hp, rfl⟩)
        (fun hr => hk.pendingRoutes ▸ hr)
        (settles_nil hk.pendingExternal (by rw [hk.runtime]) (by rw [hk.runtime]))
        (RequestTable.grows_dropLate) (fun hwf => hwf.dropLate rid)
        (fun _ _ hlive hpending _ => ⟨hlive, hpending⟩) fun _ _ hasked => hasked
    set m₁ := m.modifyClient sid fun c => { c with pending := c.pending.erase rid }
    have hlifecycle : ∀ m', Talks m₁ m' →
        ¬ IsAwaited ((c.pending.lookup rid).getD "") →
        Moves [] m m' ∧ ∀ {rid'}, some rid = some rid' → Answers m m' sid rid' := by
      intro m' htalks hmethod
      have hk : Keeps m m' := (keeps_modifyClient m sid _).trans htalks.toKeeps
      have hfree : m.pendingExternal.lookup (sid, rid) = none ∧
          m.pendingRoutes.lookup (sid, rid) = none := by
        refine free_of_not_awaited h ?_; intro t method ht' hpending; cases ht.symm.trans ht'
        have hlookup : c.pending.lookup rid = some method := hpending; rwa [hlookup] at hmethod
      refine hsuffices _ ⟨moves_answer_free hc hfree.1 hfree.2 htalks, ?_⟩
      exact answers_of_free hfree.1 hk.pendingExternal (by rw [hk.runtime])
    unfold handleAnswer
    split
    · rename_i hempty; exact hlifecycle _ (talks_pushEvent m₁ sid _) fun haw => haw.1 hempty
    split
    · rename_i hinit
      exact hlifecycle _ (talks_initializeAnswered m₁ sid _) fun haw => haw.2.1 hinit
    split
    · rename_i hshut
      exact hlifecycle _ (talks_shutdownAnswered m₁ sid) fun haw => haw.2.2 hshut
    obtain ⟨hmoves, hanswers⟩ := moves_answer_awaited hc result error rfl
    have htalks := talks_pushEvent
      ((m₁.absorbAnswer sid rid result error).settleAnswer sid rid result error) sid
      (.response rid (result.getD .null) error ((c.pending.lookup rid).getD ""))
    refine hsuffices _ ⟨hmoves.trans (moves_talks htalks), ?_, hanswers.erased, ?_⟩
    · exact hanswers.settled
    · exact hanswers.others

/-! ## Steps -/

theorem moves_keeps (hclients : m'.clients = m.clients)
    (hext : m'.pendingExternal = m.pendingExternal) (hroutes : m'.pendingRoutes = m.pendingRoutes)
    (hruntime : m'.runtime = m.runtime) (hnext : m'.nextServerId = m.nextServerId) :
    Moves [] m m' := by
  refine moves_of_eq ?_ hext (fun hr => hroutes ▸ hr) (by rw [hruntime]) (by rw [hruntime]) hnext
  funext sid
  rw [tableOf, hclients, tableOf]

theorem moves_runtime {rt : AsyncRuntime} (hsent : rt.sent = m.runtime.sent)
    (hjobs : m.runtime.nextJobId ≤ rt.nextJobId) : Moves [] m { m with runtime := rt } :=
  moves_of_eq rfl rfl id hsent hjobs rfl

theorem moves_handleNotification {method : String}
    {params : Value} : Moves [] m (m.handleNotification sid method params) := by
  have habsorb : Moves [] m (m.absorbPublishDiagnostics sid params) := by
    unfold absorbPublishDiagnostics
    split
    · exact .refl m
    split
    · exact .refl m
    split
    · exact .refl m
    · exact moves_keeps rfl rfl rfl rfl rfl
  unfold handleNotification
  split
  · exact habsorb.trans (moves_talks (talks_pushEvent _ sid _))
  · exact moves_talks (talks_pushEvent _ sid _)

theorem moves_dispatchInbound (frame : Inbound) : Moves [] m (m.dispatchInbound sid frame) := by
  cases frame with
  | response id result error =>
    exact moves_of_joined fun h => (handleResponse_spec h sid id result error).1
  | request id method params => exact moves_talks (talks_handleRequest m sid id method params)
  | notification method params => exact moves_handleNotification
  | malformed => exact moves_talks (talks_pushEvent m sid _)
  | frameError =>
    have hpush : Moves [] m (m.pushEvent sid (.protocolError .frameError)) :=
      moves_talks (talks_pushEvent m sid _)
    unfold dispatchInbound; simp only
    split
    · exact hpush
    · exact hpush.trans (moves_talks (talks_supervisor _ _))

theorem moves_handleNext : Moves [] m (m.handleNext sid) := by
  unfold handleNext
  split
  · exact .refl m
  rename_i ev supervisor _
  refine (moves_talks (talks_supervisor m supervisor)).trans ?_; unfold handleProcessEvent
  split
  · exact moves_onStarted _
  · exact moves_dispatchInbound _
  · exact moves_talks (talks_pushEvent _ sid _)
  · exact moves_onExit _
  · exact moves_onExit _
  · exact moves_onExit _

theorem moves_notify (h : Moves [] m m') (sid : LspServerId) (method : String)
    (params : Value) : Moves [] m (m'.sendNotification sid method params).2 :=
  h.trans (moves_talks (talks_sendNotification m' sid method params))

theorem moves_markDocumentStale (m : LspManager) (sid : LspServerId) (uri : String) :
    Moves [] m (m.markDocumentStale sid uri) := by
  unfold markDocumentStale
  split
  · exact .refl m
  · exact moves_keeps rfl rfl rfl rfl rfl

theorem moves_synced (h : Moves [] m m') (sid : LspServerId) (uri : String) :
    Moves [] m ((m'.noteDocumentSynced uri).markDocumentStale sid uri) := by
  have hsynced : Moves [] m' (m'.noteDocumentSynced uri) := moves_keeps rfl rfl rfl rfl rfl
  exact (h.trans hsynced).trans (moves_markDocumentStale _ sid uri)

variable {uri : String}

theorem moves_didOpen {version : ℤ}
    {text : List Char} : Moves [] m (m.didOpen sid uri version text).2 := by
  unfold didOpen
  split
  · exact .refl m
  · refine moves_notify ?_ sid _ _; exact moves_keeps rfl rfl rfl rfl rfl

theorem moves_didChangeIncremental (m : LspManager) (sid : LspServerId) (uri : String) (version : ℤ)
    (bufferLen : ℕ) : Moves [] m (m.didChangeIncremental sid uri version bufferLen).2 := by
  unfold didChangeIncremental
  split
  · split
    · split
      · exact .refl m
      split
      · exact .refl m
      split
      · refine moves_notify (moves_synced ?_ sid uri) sid _ _
        exact moves_keeps rfl rfl rfl rfl rfl
      · exact .refl m
    · exact .refl m
  · exact .refl m

theorem moves_didSave {text : List Char} : Moves [] m (m.didSave sid uri text).2 := by
  have hanchor : Moves [] m (m.noteDiskAnchor sid uri text) := moves_keeps rfl rfl rfl rfl rfl
  unfold didSave
  simp only
  split
  · exact hanchor
  · exact moves_notify hanchor sid _ _

theorem moves_resendDidSave : Moves [] m (m.resendDidSave sid uri).2 := by
  unfold resendDidSave
  split
  · exact moves_notify (.refl m) sid _ _
  · exact .refl m

def Outcome.jobs : Outcome → List JobId
  | .job id => [id]
  | _ => []

/-- **Every step keeps the accounts** of the jobs that requests answered. -/
theorem moves_perform (m : LspManager) (a : Action) :
    Moves (m.perform a).1.jobs m (m.perform a).2 := by
  have hattempt : ∀ {α : Type} {ok : α → Outcome} {r : Except String α × LspManager},
      (∀ x, (ok x).jobs = []) → Moves [] m r.2 → Moves (attempt ok r).1.jobs m (attempt ok r).2 := by
    intro α ok r hok hmoves
    have hjobs : (attempt ok r).1.jobs = [] := by
      rcases r with ⟨x | e, m'⟩
      · rfl
      · exact hok e
    rw [hjobs]; exact hmoves
  cases a with
  | spawn spec => exact hattempt (fun _ => rfl) (moves_spawn spec)
  | stop sid => exact hattempt (fun _ => rfl) (moves_stop)
  | forget sid => exact hattempt (fun _ => rfl) (moves_forget)
  | forgetUri sid uri => exact hattempt (fun _ => rfl) (moves_forgetUri uri)
  | sendRequest sid method params =>
    exact hattempt (fun _ => rfl) (moves_sendRequest m)
  | request sid request =>
    have hmoves := m.moves_request sid (m.isAwaited_ask sid request); simp only [perform, attempt]
    cases hjob : (m.request sid (m.ask sid request)).1 with
    | ok | error => rwa [hjob] at hmoves
  | sendNotification sid method params =>
    exact hattempt (fun _ => rfl) (moves_talks (talks_sendNotification m sid method params))
  | sendResponse sid id result =>
    exact hattempt (fun _ => rfl) (moves_talks (talks_sendResponse m sid id result))
  | didOpen sid uri version text =>
    exact hattempt (fun _ => rfl) (moves_didOpen)
  | didChangeFull sid uri version text =>
    refine hattempt (fun _ => rfl) (moves_notify (moves_synced ?_ sid uri) sid _ _)
    exact moves_keeps rfl rfl rfl rfl rfl
  | didChangeIncremental sid uri version bufferLen =>
    exact hattempt (fun _ => rfl) (moves_didChangeIncremental m sid uri version bufferLen)
  | didSave sid uri text => exact hattempt (fun _ => rfl) (moves_didSave)
  | resendDidSave sid uri => exact hattempt (fun _ => rfl) (moves_resendDidSave)
  | documentOffDisk | recordEdit | noteRecorder | takeEvents | setRequestTimeout | elapse =>
    exact moves_keeps rfl rfl rfl rfl rfl
  | didClose sid uri =>
    refine hattempt (fun _ => rfl) (moves_notify ?_ sid _ _); exact moves_keeps rfl rfl rfl rfl rfl
  | markDocumentStale sid uri => exact moves_markDocumentStale m sid uri
  | handleNext sid => exact moves_handleNext
  | drainCancelledExternals sid => exact moves_drainCancelledExternals
  | maybeRestart sid => exact moves_maybeRestart
  | cancelJob job =>
    exact moves_runtime (sent_cancel _ _)
      (le_of_eq (nextJobId_cancel _ _).symm)
  | tickRuntime =>
    exact moves_runtime (tick_keeps _).1 (le_of_eq (tick_keeps _).2.symm)
  | takeResult job =>
    exact moves_runtime (takeResult_keeps _ _).1
      (le_of_eq (takeResult_keeps _ _).2.symm)
  | allocateJob key =>
    exact moves_runtime (registerExternal_sent _ _)
      (by rw [registerExternal_nextJobId]; exact Nat.le_succ _)
  | report | refuseWrites | failSpawns => exact moves_talks (talks_supervisor m _)

/-! ## Runs -/

/-- The jobs that the requests of a run answered. -/
def issuedIn (trace : List (Action × Outcome)) : List JobId := trace.flatMap fun step => step.2.jobs

variable {trace : List (Action × Outcome)}

theorem moves_run {m₀ : LspManager} (h : Run m₀ trace m) : Moves (issuedIn trace) m₀ m := by
  induction h with
  | start => exact .refl m₀
  | step _ a ih =>
    rw [issuedIn, flatMap_append, flatMap_singleton]; exact ih.trans (moves_perform _ a)

variable {readsEmpty : ResultFamily → Value → Bool}

theorem joined_new : Joined (new readsEmpty) := by
  constructor
  · nofun
  · nofun
  · nofun
  · nofun

theorem accounted_new : Accounted [] (new readsEmpty) :=
  ⟨.nil, nofun⟩

/-- Every job that a request of the run answered is parked once or settled once. -/
theorem accounted_run (h : Run (new readsEmpty) trace m) :
    Joined m ∧ Accounted (issuedIn trace) m :=
  ⟨(moves_run h).joined (joined_new),
    (moves_run h).accounted (joined_new) (accounted_new)⟩

/-- A job that was issued and is not settled is parked on one request in flight. -/
theorem parked_of_unsettled {issued : List JobId} (hj : Joined m)
    (ha : Accounted issued m) {job : JobId} (hjob : job ∈ issued) (hns : job ∉ m.settledJobs) :
    ∃ sid rid p c, m.pendingExternal.lookup (sid, rid) = some p ∧ job ∈ p.awaiters ∧
      (∀ {key p'}, m.pendingExternal.lookup key = some p' → job ∈ p'.awaiters → key = (sid, rid)) ∧
      m.clients.lookup sid = some c ∧ c.process.isSome = true ∧
      c.pending.lookup rid = some p.method := by
  have hwaits : job ∈ m.parkedJobs := ha.balanced.waiting_iff.2 ⟨hjob, hns⟩
  obtain ⟨⟨sid, rid⟩, p, hp, hmem⟩ := mem_parked.1 hwaits
  obtain ⟨t, ht, hlive, hpending, _⟩ := hj.inFlight hp
  obtain ⟨c, hc, rfl⟩ := tableOf_eq_some.1 ht
  refine ⟨sid, rid, p, c, hp, hmem, ?_, hc, hlive, hpending⟩
  intro key p' hp' hmem'
  exact parked_key_unique ha.balanced.waiting_nodup hp hmem hp' hmem'

/-! ## Late answers -/

def nextEvent (m : LspManager) (sid : LspServerId) : Option ProcessEventKind :=
  (((m.clients.lookup sid).bind (·.process)).bind m.supervisor.takeEvent).map (·.1.kind)

/-- A request that was sent to a server and is not pending in its live process any more: it
    was answered or abandoned, its process ended, or the server was forgotten. -/
def Abandoned (m : LspManager) (sid : LspServerId) (rid : ℕ) : Prop :=
  sid < m.nextServerId ∧
    ∀ {t}, m.tableOf sid = some t → rid < t.nextRequestId ∧ ¬ t.IsOpen rid

theorem abandoned_of_cancelled (h : Joined m)
    (hc : m.clients.lookup sid = some c) (hrid : rid ∈ c.cancelledRids) : m.Abandoned sid rid := by
  have ht := tableOf_of_lookup hc
  refine ⟨h.known ht, ?_⟩
  intro t ht'
  cases ht.symm.trans ht'
  obtain ⟨hlt, hnone⟩ := (h.wf ht).cancelled hrid
  refine ⟨hlt, ?_⟩
  rintro ⟨_, hpending⟩
  rw [hnone] at hpending
  cases hpending

theorem Abandoned.moves {new : List JobId} (h : Moves new m m')
    (hj : Joined m) (ha : m.Abandoned sid rid) : m'.Abandoned sid rid := by
  refine ⟨lt_of_lt_of_le ha.1 (h.grows hj).next, ?_⟩
  intro t' ht'
  obtain ⟨t, ht, hgrows⟩ := (h.grows hj).tables ht' ha.1
  obtain ⟨hlt, hclosed⟩ := ha.2 ht
  exact ⟨lt_of_lt_of_le hlt hgrows.next, fun hopen => hclosed (hgrows.gone hlt hopen)⟩

theorem handleNext_of_nextEvent {frame : Inbound} (h : m.nextEvent sid = some (.stdout frame)) :
    (∃ c, m.clients.lookup sid = some c ∧ c.process.isSome = true) ∧
      ∃ supervisor, m.handleNext sid = { m with supervisor }.dispatchInbound sid frame := by
  unfold nextEvent at h
  rw [map_eq_some_iff] at h
  obtain ⟨⟨ev, supervisor⟩, htake, hkind⟩ := h
  constructor
  · obtain ⟨pid, hpid, _⟩ := bind_eq_some_iff.1 htake
    obtain ⟨c, hc, hprocess⟩ := bind_eq_some_iff.1 hpid; exact ⟨c, hc, by rw [hprocess]; rfl⟩
  refine ⟨supervisor, ?_⟩; rw [handleNext, htake]; simp only [handleProcessEvent]
  rw [show ev.kind = .stdout frame from hkind]

/-- **A late answer** to a request that is not pending any more changes nothing but the
    client and the events. -/
theorem keeps_lateAnswer (ha : m.Abandoned sid rid) {id : Value}
    (hev : m.nextEvent sid = some (.stdout (.response id result error)))
    (hid : id.asU64 = some rid) : Keeps m (m.handleNext sid) := by
  obtain ⟨⟨c, hc, hlive⟩, supervisor, hnext⟩ := handleNext_of_nextEvent hev
  have hnone : c.pending.lookup rid = none := by
    have hclosed := (ha.2 (tableOf_of_lookup hc)).2
    by_contra hne
    exact hclosed ⟨hlive, ne_none_iff_isSome.1 hne⟩
  rw [hnext]
  refine (talks_supervisor m supervisor).toKeeps.trans ?_
  simp only [dispatchInbound, handleResponse, hid, hc]
  split
  · exact keeps_modifyClient _ sid _
  rw [hnone]
  exact (keeps_modifyClient _ sid _).trans (talks_pushEvent _ sid _).toKeeps

theorem answers_handleNext (h : Joined m) {id : Value}
    (hev : m.nextEvent sid = some (.stdout (.response id result error)))
    (hid : id.asU64 = some rid) : Answers m (m.handleNext sid) sid rid := by
  obtain ⟨_, supervisor, hnext⟩ := handleNext_of_nextEvent hev
  have hj : Joined { m with supervisor } := (moves_talks (talks_supervisor m supervisor)).joined h
  have hanswers := (handleResponse_spec hj sid id result error).2 hid
  rw [hnext]
  exact ⟨hanswers.settled, hanswers.erased, hanswers.others⟩

/-- **A job is settled at most once.** Over any run, a job that is not settled is parked on
    one request, pending in the live process of its server; an answer settles the jobs of
    its own request; an answer to a request that was abandoned before does nothing. -/
theorem jobs_settled_once {readsEmpty : ResultFamily → Value → Bool} {m : LspManager}
    {trace : List (Action × Outcome)} (h : Run (new readsEmpty) trace m) :
    m.settledJobs.Nodup ∧
      (∀ job ∈ issuedIn trace, job ∉ m.settledJobs →
        ∃ sid rid p c, m.pendingExternal.lookup (sid, rid) = some p ∧ job ∈ p.awaiters ∧
          (∀ {key p'}, m.pendingExternal.lookup key = some p' → job ∈ p'.awaiters →
            key = (sid, rid)) ∧
          m.clients.lookup sid = some c ∧ c.process.isSome = true ∧
          c.pending.lookup rid = some p.method) ∧
      (∀ {sid rid id result error},
        m.nextEvent sid = some (.stdout (.response id result error)) → id.asU64 = some rid →
        Answers m (m.handleNext sid) sid rid) ∧
      (∀ {sid c rid}, m.clients.lookup sid = some c → rid ∈ c.cancelledRids →
        m.Abandoned sid rid) ∧
      ∀ {sid rid id result error trace' m'}, m.Abandoned sid rid → Run m trace' m' →
        m'.nextEvent sid = some (.stdout (.response id result error)) → id.asU64 = some rid →
        (m'.handleNext sid).stores = m'.stores ∧
          (m'.handleNext sid).documents = m'.documents ∧
          (m'.handleNext sid).diskDocuments = m'.diskDocuments ∧
          (m'.handleNext sid).runtime = m'.runtime ∧
          (m'.handleNext sid).pendingExternal = m'.pendingExternal := by
  obtain ⟨hj, ha⟩ := accounted_run h
  refine ⟨ha.balanced.settled_nodup, ?_, ?_, ?_, ?_⟩
  · exact fun job hjob hns => parked_of_unsettled hj ha hjob hns
  · exact fun hev hid => answers_handleNext hj hev hid
  · exact fun hc hrid => abandoned_of_cancelled hj hc hrid
  intro sid rid id result error trace' m' hab hrun hev hid
  have hk := keeps_lateAnswer (hab.moves (moves_run hrun) hj) hev hid
  exact ⟨hk.stores, hk.documents, hk.diskDocuments, hk.runtime, hk.pendingExternal⟩

def greeted : List Action :=
  [.spawn ⟨"server", "rust", .null, none, .onCrash, []⟩, .report 1 ⟨.started 7, 0⟩, .handleNext 1,
    .report 1 ⟨.stdout (.response (.nat 1) (some (.object [])) none), 0⟩, .handleNext 1]

/-- A hover whose document is forgotten before it is answered: its job is cancelled, and the
    answer does nothing. -/
theorem jobs_settled_once_forgotten :
    let run := (new fun _ _ => false).performAll
      (greeted ++ [.request 1 (.hover "a" 0 0), .forgetUri 1 "a"])
    let late := run.2.performAll [.report 1 ⟨.stdout (.response (.nat 2) (some .null) none), 0⟩]
    issuedIn run.1 = [1] ∧ run.2.settledJobs = [1] ∧ run.2.settledJobs.Nodup ∧
      (late.2.handleNext 1).stores = late.2.stores := by
  intro run late
  have h := jobs_settled_once (run_performAll (new fun _ _ => false)
    (greeted ++ [.request 1 (.hover "a" 0 0), .forgetUri 1 "a"]))
  refine ⟨by decide +kernel, by decide +kernel, h.1, ?_⟩
  have hclient : ∃ c, run.2.clients.lookup 1 = some c ∧ 2 ∈ c.cancelledRids :=
    ⟨_, rfl, by decide +kernel⟩
  obtain ⟨c, hc, hrid⟩ := hclient
  exact (h.2.2.2.2 (h.2.2.2.1 hc hrid) (run_performAll _ _) rfl rfl).1

end LspManager

end Pmacs
