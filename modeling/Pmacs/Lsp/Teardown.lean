/-
  How the jobs parked on requests of the language-server registry are settled.

  * `settles_drain`, `settles_erase` and `settles_sweep`: the jobs that are dropped from
    the requests in flight are the ones that are settled;
  * `moves_abandonRequest`: a request that no job waits for is abandoned, as the sweep and
    `forgetUri` do.
-/
import Pmacs.Lsp.Awaiters

namespace Pmacs

open Lib AList Function List Option Assoc AsyncRuntime RequestTable

namespace LspManager

variable {m m' : LspManager} {sid : LspServerId} {rid : ℕ}

/-! ## What is settled -/

def awaitersOf (m : LspManager) (sid : LspServerId) : List JobId :=
  (m.requestsOf sid).flatMap fun r => r.2.awaiters

theorem settles_drain (hext : m'.pendingExternal = (m.drainExternalCancelled sid).pendingExternal)
    (hruntime : m'.runtime = (m.drainExternalCancelled sid).runtime) :
    Settles (m.awaitersOf sid) m m' := by
  have hperm := parked_retain (f := PendingExternal.awaiters)
    (fun (key : LspServerId × ℕ) (_ : PendingExternal) => decide (key.1 ≠ sid)) m.pendingExternal
  constructor
  · rw [parkedJobs, parkedJobs, hext, drainExternalCancelled, awaitersOf, requestsOf, flatMap_map]
    simpa using hperm
  · rw [settledJobs, hruntime, drainExternalCancelled, completeAll_sent,
      List.map_append, awaitersOf, map_flatMap]
    simp [settledJobs, Function.comp_def]
  · rw [hruntime, drainExternalCancelled, completeAll_nextJobId]

theorem shrinks_retain {p : LspServerId × ℕ → PendingExternal → Bool}
    (hext : m'.pendingExternal = m.pendingExternal.retain p) : Shrinks m m' := by
  intro key p' hp'
  rw [hext, lookup_retain, filter_eq_some_iff] at hp'
  exact ⟨p', hp'.1, rfl⟩

theorem settles_erase {p : PendingExternal}
    (hp : m.pendingExternal.lookup (sid, rid) = some p) {outcome : JobOutcome}
    (hext : m'.pendingExternal = m.pendingExternal.erase (sid, rid))
    (hruntime : m'.runtime = m.runtime.completeAll (p.awaiters.map fun job => (job, outcome))) :
    Settles p.awaiters m m' := by
  constructor
  · rw [parkedJobs, parkedJobs, hext]; exact parked_erase hp
  · rw [settledJobs, hruntime, completeAll_sent, List.map_append, List.map_map]
    simp [settledJobs, Function.comp_def]
  · rw [hruntime, completeAll_nextJobId]

variable {key : LspServerId × ℕ}

theorem shrinks_erase (hext : m'.pendingExternal = m.pendingExternal.erase key) : Shrinks m m' := by
  intro key' p' hp'
  rw [hext] at hp'
  by_cases hkey : key' = key
  · rw [hkey, lookup_erase] at hp'; cases hp'
  · rw [lookup_erase_ne hkey] at hp'; exact ⟨p', hp', rfl⟩

theorem swept_perm (p : PendingExternal) :
    p.awaiters.Perm ((m.swept p).map Prod.fst ++ (m.leftBySweep p).awaiters) := by
  have hswept : (m.swept p).map Prod.fst =
      p.awaiters.filter fun job => !(m.sweepOutcome p job).isNone := by
    rw [swept]
    induction p.awaiters with
    | nil => rfl
    | cons job jobs ih =>
      cases h : m.sweepOutcome p job with
      | none | some => simpa [h] using ih
  rw [hswept]
  have hparts := filter_append_perm (fun job => (m.sweepOutcome p job).isNone) p.awaiters
  exact hparts.symm.trans perm_append_comm

theorem sweptOf_perm (m : LspManager) (sid : LspServerId) : ((m.sweptOf sid).map Prod.fst).Perm
      ((m.pendingExternal.entries.filter fun e => decide (e.1.1 = sid)).flatMap
        fun e => (m.swept e.2).map Prod.fst) := by
  have hparts := filter_append_perm (fun r : JobId × JobOutcome => r.2.isCancelled)
    ((m.requestsOf sid).flatMap fun r => m.swept r.2)
  have hmap := hparts.map Prod.fst
  rw [map_flatMap] at hmap
  refine hmap.trans ?_
  rw [requestsOf, flatMap_map]

theorem settles_sweep (hext : m'.pendingExternal = m.pendingAfterSweep sid)
    (hruntime : m'.runtime = m.runtime.completeAll (m.sweptOf sid)) :
    Settles ((m.sweptOf sid).map Prod.fst) m m' := by
  have hpending : m.pendingAfterSweep sid =
      (m.pendingExternal.mapVal fun key p => if decide (key.1 = sid) then m.leftBySweep p else p).retain
        fun key p => decide (key.1 ≠ sid) || !p.awaiters.isEmpty := by simp [pendingAfterSweep]
  have hsweep := parked_sweep (fun key : LspServerId × ℕ => decide (key.1 = sid)) _
    m.swept_perm (by simp) hpending
  constructor
  · rw [parkedJobs, parkedJobs, hext]; exact hsweep.trans ((m.sweptOf_perm sid).symm.append_right _)
  · rw [settledJobs, hruntime, completeAll_sent, List.map_append]; rfl
  · rw [hruntime, completeAll_nextJobId]

/-! ## A server loses its process -/

/-- Dropping every request in flight to a server, whatever becomes of the server. -/
theorem moves_teardown {t : Option RequestTable}
    (htable : m'.tableOf = Function.update m.tableOf sid t)
    (hnext : m.nextServerId ≤ m'.nextServerId)
    (hext : m'.pendingExternal = (m.drainExternalCancelled sid).pendingExternal)
    (hruntime : m'.runtime = (m.drainExternalCancelled sid).runtime)
    (hroutes : ∀ {key route}, m'.pendingRoutes.lookup key = some route →
      m.pendingRoutes.lookup key = some route)
    (hwf : Joined m → ∀ {t'}, t = some t' → t'.Wf ∧ sid < m'.nextServerId)
    (hrouted : Joined m → ∀ {rid route}, m'.pendingRoutes.lookup (sid, rid) = some route →
      ∃ t', t = some t' ∧ t'.Asked rid) (hgrows : ∀ {t'}, t = some t' → sid < m.nextServerId →
      ∃ t₀, m.tableOf sid = some t₀ ∧ t₀.Grows t') : Moves [] m m' := by
  refine ⟨?_, fun _ ha => (settles_drain hext hruntime).accounted ha,
    fun _ => tablesGrow_update htable hnext hgrows⟩
  intro h
  refine h.update htable hnext (shrinks_retain (p := fun key _ => key.1 ≠ sid) hext) hroutes (hwf h) ?_ (hrouted h)
  intro rid p hp
  rw [hext, drainExternalCancelled, lookup_retain, filter_eq_some_iff] at hp
  exact absurd hp.2 (by simp)

theorem dropGeneration_routes (m : LspManager) (sid : LspServerId)
    {route : ResponseRoute} (h : (m.dropGeneration sid).pendingRoutes.lookup key = some route) :
    m.pendingRoutes.lookup key = some route ∧ key.1 ≠ sid := by
  have hretain : (m.dropGeneration sid).pendingRoutes =
    m.pendingRoutes.retain fun key _ => key.1 ≠ sid := rfl
  rw [hretain, lookup_retain, filter_eq_some_iff] at h
  exact ⟨h.1, by simpa using h.2⟩

theorem startGeneration_talks (m : LspManager) (sid : LspServerId) (client : LspClient) :
    Talks (m.dropGeneration sid) (m.startGeneration sid client).2.2 ∧
      ∃ live, (m.startGeneration sid client).2.1.table =
        { client.table.renewed with live := live } := by
  unfold startGeneration
  simp only
  split
  · exact ⟨talks_supervisor _ _, _, rfl⟩
  · exact ⟨talks_supervisor _ _, _, rfl⟩

theorem moves_spawn (spec : LspServerSpec) : Moves [] m (m.spawn spec).2 := by
  obtain ⟨htalks, live, htable⟩ := startGeneration_talks
    { m with nextServerId := m.nextServerId + 1 } m.nextServerId (.new spec)
  unfold spawn
  simp only
  split
  · rename_i e client m' hstart; rw [hstart] at htalks
    have hsame : m'.tableOf = Function.update m.tableOf m.nextServerId
        (m.tableOf m.nextServerId) := by rw [update_eq_self, htalks.tableOf]; rfl
    refine moves_teardown hsame ?_ htalks.pendingExternal htalks.runtime ?_ ?_ ?_ ?_
    · rw [htalks.nextServerId]; exact Nat.le_succ _
    · intro key route hr; exact (dropGeneration_routes _ _ (htalks.pendingRoutes ▸ hr)).1
    · intro h t ht; exact absurd (h.known ht) (lt_irrefl _)
    · intro _ rid route hr
      exact absurd rfl (dropGeneration_routes _ _ (htalks.pendingRoutes ▸ hr)).2
    · intro t _ hlt; exact absurd hlt (lt_irrefl _)
  rename_i client m' hstart; rw [hstart] at htalks htable
  have hnew : tableOf { m' with clients := m'.clients.insert m.nextServerId client } =
      Function.update m.tableOf m.nextServerId (some client.table) := by
    rw [tableOf_clients_insert, htalks.tableOf]; rfl
  have hnext : m'.nextServerId = m.nextServerId + 1 := htalks.nextServerId
  refine moves_teardown hnew ?_ htalks.pendingExternal htalks.runtime ?_ ?_ ?_ ?_
  · exact hnext ▸ Nat.le_succ _
  · intro key route hr; exact (dropGeneration_routes _ _ (htalks.pendingRoutes ▸ hr)).1
  · intro _ t ht; cases ht; rw [htable]
    exact ⟨wf_renewed, hnext ▸ Nat.lt_succ_self _⟩
  · intro _ rid route hr
    exact absurd rfl (dropGeneration_routes _ _ (htalks.pendingRoutes ▸ hr)).2
  · intro t _ hlt; exact absurd hlt (lt_irrefl _)

theorem moves_forget : Moves [] m (m.forget sid).2 := by
  unfold forget
  split
  · exact .refl m
  split
  · have hnone : tableOf ({ m with
        clients := m.clients.erase sid
        events := m.events.filter (·.1 ≠ sid) }.dropGeneration sid) =
        Function.update m.tableOf sid none := tableOf_erase rfl
    refine moves_teardown hnone le_rfl rfl rfl ?_ ?_ ?_ ?_
    · intro key route hr; exact (dropGeneration_routes _ _ hr).1
    · nofun
    · intro _ rid route hr; exact absurd rfl (dropGeneration_routes _ _ hr).2
    · nofun
  · exact .refl m

/-- A client whose process ended is restarted, with what it knows of its requests. -/
theorem moves_regenerate {c : LspClient} (live : Bool) (hc : m.clients.lookup sid = some c)
    (htable : m'.tableOf = Function.update m.tableOf sid
      (some { c.table.renewed with live := live }))
    (hk : Keeps (m.dropGeneration sid) m') : Moves [] m m' := by
  have hnext : m'.nextServerId = m.nextServerId := hk.nextServerId
  refine moves_teardown htable (le_of_eq hnext.symm) hk.pendingExternal hk.runtime ?_ ?_ ?_ ?_
  · intro key route hr; exact (dropGeneration_routes _ _ (hk.pendingRoutes ▸ hr)).1
  · intro h t ht; cases ht
    exact ⟨wf_renewed, hnext ▸ h.known (tableOf_of_lookup hc)⟩
  · intro _ rid route hr; exact absurd rfl (dropGeneration_routes _ _ (hk.pendingRoutes ▸ hr)).2
  · intro t ht _; cases ht; exact ⟨c.table, tableOf_of_lookup hc, grows_renewed _ live⟩

theorem moves_maybeRestart : Moves [] m (m.maybeRestart sid) := by
  unfold maybeRestart
  split
  · exact .refl m
  rename_i c hc
  split
  · split
    · set m₁ := m.pushEvent sid (.restarting (c.attempt + 1))
      have hpush : Talks m m₁ := talks_pushEvent m sid _
      obtain ⟨htalks, live, htable⟩ := startGeneration_talks
        { m₁ with clients := m₁.clients.erase sid } sid c
      have herased : ∀ m' : LspManager, m'.tableOf = tableOf { m₁ with clients := m₁.clients.erase sid } →
          ∀ t, Function.update m'.tableOf sid t = Function.update m.tableOf sid t := by
        intro m' hm' t; rw [hm', tableOf_erase rfl, update_idem, hpush.tableOf]
      have hdrop : Keeps (m₁.dropGeneration sid)
          ({ m₁ with clients := m₁.clients.erase sid }.dropGeneration sid) :=
        keeps_clients (m₁.dropGeneration sid) _
      have hk := hdrop.trans htalks.toKeeps
      refine (moves_talks hpush).trans ?_; simp only
      split
      · rename_i e client m' hstart; rw [hstart] at htalks htable hk
        refine Moves.talks ?_ (talks_pushEvent _ sid _)
        refine moves_regenerate live hc ?_ (hk.trans (keeps_clients m' _))
        rw [tableOf_clients_insert, herased m' htalks.tableOf, hpush.tableOf, ← htable]; rfl
      rename_i client m' hstart; rw [hstart] at htalks htable hk
      refine moves_regenerate live hc ?_ (hk.trans (keeps_clients m' _))
      rw [tableOf_clients_insert, herased m' htalks.tableOf, hpush.tableOf, ← htable]
    · exact .refl m
  · exact .refl m

theorem moves_onExit {atTime : ℕ} (reason : String) : Moves [] m (m.onExit sid atTime reason) := by
  unfold onExit
  split
  · exact .refl m
  rename_i c hc
  refine Moves.talks ?_ (talks_pushEvent _ sid _); have ht := tableOf_of_lookup hc
  refine moves_teardown (t := some c.table.dead) ?_ le_rfl rfl rfl id ?_ ?_ ?_
  · exact tableOf_clients_insert m sid
  · intro h t ht'; cases ht'; exact ⟨(h.wf ht).dead, h.known ht⟩
  · intro h rid route hr; obtain ⟨t, ht', hasked⟩ := h.routed hr; cases ht.symm.trans ht'
    exact ⟨_, rfl, hasked⟩
  · intro t ht' _; cases ht'; exact ⟨c.table, ht, grows_dead _⟩

/-! ## The rest of the lifecycle -/

theorem talks_clients_insert {c c' : LspClient}
    (hc : m.clients.lookup sid = some c) (htable : c'.table = c.table) :
    Talks m { m with clients := m.clients.insert sid c' } := by
  refine ⟨keeps_clients m _, ?_⟩
  rw [tableOf_clients_insert, htable, ← tableOf_of_lookup hc, update_eq_self]

theorem moves_stop : Moves [] m (m.stop sid).2 := by
  unfold stop
  split
  · exact .refl m
  rename_i c hc; simp only
  split
  · exact moves_talks (talks_clients_insert hc rfl)
  split
  · set c' : LspClient := { { c with
      spec := { c.spec with restart := .never }
      nextRestartAt := none }.addRequest "shutdown" with
      state := .shuttingDown (some c.nextRequestId) }
    have htalks := talks_sendFrameTo { m with clients := m.clients.insert sid c' } c'
      (.request c.nextRequestId "shutdown" .null)
    refine moves_addRequest "shutdown" hc ((keeps_clients m _).trans htalks.toKeeps) ?_
    rw [htalks.tableOf, tableOf_clients_insert]; rfl
  set c' : LspClient := { c with
    spec := { c.spec with restart := .never }
    nextRestartAt := none
    state := .shuttingDown none }
  have htalks : Talks m { m with clients := m.clients.insert sid c' } :=
    talks_clients_insert hc rfl
  exact moves_talks (htalks.trans (talks_supervisor _ _))

theorem moves_onStarted (pid : ℕ) {atTime : ℕ} : Moves [] m (m.onStarted sid pid atTime) := by
  unfold onStarted
  split
  · exact .refl m
  rename_i c hc
  refine Moves.talks ?_ (talks_pushEvent _ sid _)
  set c' : LspClient := { c.addRequest "initialize" with
    state := .initializing c.nextRequestId atTime }
  set sent := { m with clients := m.clients.insert sid c' }.sendFrameTo c'
    (.request c.nextRequestId "initialize" c'.spec.greeting) with hsent
  have hadd : Moves [] m sent.2 := by
    have htalks := talks_sendFrameTo { m with clients := m.clients.insert sid c' } c'
      (.request c.nextRequestId "initialize" c'.spec.greeting)
    refine moves_addRequest "initialize" hc ((keeps_clients m _).trans htalks.toKeeps) ?_
    rw [hsent, htalks.tableOf, tableOf_clients_insert]; rfl
  cases sent.1 with
  | ok _ => exact hadd
  | error e => exact hadd.trans (moves_talks (talks_pushEvent _ sid _))

/-! ## Abandoned requests -/

theorem abandonRequest_keeps (m : LspManager) (sid : LspServerId) (rid : ℕ) :
    Keeps { m with pendingRoutes := m.pendingRoutes.erase (sid, rid) } (m.abandonRequest sid rid) :=
  (keeps_modifyClient _ sid _).trans (talks_sendNotification _ sid _ _).toKeeps

theorem tableOf_abandonRequest (m : LspManager) (sid : LspServerId) (rid : ℕ) :
    (m.abandonRequest sid rid).tableOf =
      Function.update m.tableOf sid ((m.tableOf sid).map (·.abandon rid)) := by
  have htalks := talks_sendNotification
    ({ m with pendingRoutes := m.pendingRoutes.erase (sid, rid) }.modifyClient sid
      fun c => c.abandon rid) sid "$/cancelRequest" (.object [("id", .nat rid)])
  rw [abandonRequest, sendCancelRequest, htalks.tableOf]
  exact tableOf_modifyClient _ sid (g := fun t => t.abandon rid) fun _ => rfl

theorem lookup_of_erase {K V : Type*} [DecidableEq K] {m : Assoc K V} {key key' : K} {v : V}
    (h : (m.erase key').lookup key = some v) : m.lookup key = some v ∧ key ≠ key' := by
  by_cases hkey : key = key'
  · rw [hkey, lookup_erase] at h; cases h
  · rw [lookup_erase_ne hkey] at h; exact ⟨h, hkey⟩

theorem moves_abandonRequest (hfree : m.pendingExternal.lookup (sid, rid) = none) (hlt : ∀ {t},
    m.tableOf sid = some t → rid < t.nextRequestId) : Moves [] m (m.abandonRequest sid rid) := by
  have hk := m.abandonRequest_keeps sid rid
  have htable := m.tableOf_abandonRequest sid rid
  have hext : (m.abandonRequest sid rid).pendingExternal = m.pendingExternal := hk.pendingExternal
  have hroutes : ∀ {key route}, (m.abandonRequest sid rid).pendingRoutes.lookup key = some route →
      m.pendingRoutes.lookup key = some route :=
    fun hr => (lookup_of_erase (hk.pendingRoutes ▸ hr)).1
  have hsettles : Settles [] m (m.abandonRequest sid rid) :=
    settles_nil hext (by rw [hk.runtime]) (by rw [hk.runtime])
  have hshrinks : Shrinks m (m.abandonRequest sid rid) := fun hp => ⟨_, hext ▸ hp, rfl⟩
  cases ht : m.tableOf sid with
  | none =>
    rw [ht, map_none, ← ht, update_eq_self] at htable
    exact moves_settle htable hk.nextServerId hshrinks hroutes hsettles
  | some t =>
    rw [ht, map_some] at htable
    refine moves_update ht htable hk.nextServerId hshrinks hroutes hsettles
      (grows_abandon) (fun hwf => hwf.abandon (hlt ht)) ?_ ?_
    · intro rid' p hp _ hlive hpending _
      have hne : rid' ≠ rid := by
        rintro rfl; rw [hext, hfree] at hp; cases hp
      exact ⟨hlive, (lookup_erase_ne hne).trans hpending⟩
    rintro rid' route hr _ ⟨method, hpending, haw⟩
    have hne : rid' ≠ rid := by
      rintro rfl; rw [hk.pendingRoutes, lookup_erase] at hr; cases hr
    exact ⟨method, (lookup_erase_ne hne).trans hpending, haw⟩

theorem moves_abandonAll {rids : List ℕ} (hfree : ∀ rid ∈ rids,
    m.pendingExternal.lookup (sid, rid) = none) (hlt : ∀ rid ∈ rids, ∀ {t}, m.tableOf sid = some t →
    rid < t.nextRequestId) : Moves [] m (m.abandonAll sid rids) := by
  induction rids generalizing m with
  | nil => exact .refl m
  | cons rid rids ih =>
    have hrid := mem_cons_self (a := rid) (l := rids)
    refine (moves_abandonRequest (hfree rid hrid) (hlt rid hrid)).trans (ih ?_ ?_)
    · intro r hr; rw [(m.abandonRequest_keeps sid rid).pendingExternal]
      exact hfree r (mem_cons_of_mem _ hr)
    intro r hr t ht; rw [tableOf_abandonRequest, update_self, map_eq_some_iff] at ht
    obtain ⟨t₀, ht₀, rfl⟩ := ht; show r < t₀.nextRequestId
    exact hlt r (mem_cons_of_mem _ hr) ht₀

theorem mem_requestsOf {p : PendingExternal} :
    (rid, p) ∈ m.requestsOf sid ↔ m.pendingExternal.lookup (sid, rid) = some p := by
  rw [← mem_entries_iff, requestsOf, List.mem_map]
  constructor
  · rintro ⟨⟨⟨sid', rid'⟩, p'⟩, he, heq⟩; obtain ⟨hmem, hsid⟩ := mem_filter.1 he; cases heq
    cases of_decide_eq_true hsid; exact hmem
  · intro he; exact ⟨_, mem_filter.2 ⟨he, decide_eq_true rfl⟩, rfl⟩

theorem lookup_pendingAfterSweep {rid : ℕ} : (m.pendingAfterSweep sid).lookup (sid, rid) =
      ((m.pendingExternal.lookup (sid, rid)).map m.leftBySweep).filter
        fun p => !p.awaiters.isEmpty := by simp [pendingAfterSweep]

theorem shrinks_sweep (hext : m'.pendingExternal = m.pendingAfterSweep sid) : Shrinks m m' := by
  intro key p' hp'
  rw [hext, pendingAfterSweep, lookup_retain, lookup_mapVal,
    filter_eq_some_iff, map_eq_some_iff] at hp'
  obtain ⟨⟨p, hp, rfl⟩, _⟩ := hp'
  refine ⟨p, hp, ?_⟩
  split <;> rfl

/-- The sweep settles the jobs that were cancelled or timed out, and abandons what no job
    waits for any more. -/
theorem moves_drainCancelledExternals : Moves [] m (m.drainCancelledExternals sid) := by
  refine moves_of_joined fun h => ?_
  have hsettle : Moves [] m { m with
      pendingExternal := m.pendingAfterSweep sid
      runtime := m.runtime.completeAll (m.sweptOf sid) } :=
    moves_settle rfl rfl (shrinks_sweep rfl) id (settles_sweep rfl rfl)
  have hswept : ∀ rid ∈ ((m.requestsOf sid).filter fun r =>
      (m.leftBySweep r.2).awaiters.isEmpty).map (·.1), ∃ p,
      m.pendingExternal.lookup (sid, rid) = some p ∧ (m.leftBySweep p).awaiters.isEmpty := by
    intro rid hrid; obtain ⟨⟨rid', p⟩, hr, rfl⟩ := List.mem_map.1 hrid
    obtain ⟨hmem, hempty⟩ := mem_filter.1 hr; exact ⟨p, mem_requestsOf.1 hmem, hempty⟩
  refine hsettle.trans (moves_abandonAll ?_ ?_)
  · intro rid hrid; obtain ⟨p, hp, hempty⟩ := hswept rid hrid
    rw [lookup_pendingAfterSweep, hp, map_some, filter_eq_none_iff]; rintro p' hp'; cases hp'
    simpa using hempty
  intro rid hrid t ht; obtain ⟨p, hp, _⟩ := hswept rid hrid
  obtain ⟨t₀, ht₀, _, hpending, _⟩ := h.inFlight hp; cases ht₀.symm.trans ht
  exact (h.wf ht₀).pending_lt hpending

/-! ## A document is forgotten -/

theorem tableOf_cancelRequest {rid : ℕ} : (m.cancelRequest sid rid).tableOf =
      Function.update m.tableOf sid ((m.tableOf sid).map (·.abandon rid)) := by
  unfold cancelRequest
  rw [tableOf_abandonRequest]
  split <;> rfl

theorem moves_cancelRequest (hlt : ∀ {t}, m.tableOf sid = some t → rid < t.nextRequestId) :
    Moves [] m (m.cancelRequest sid rid) := by
  unfold cancelRequest
  split
  · rename_i hnone; exact moves_abandonRequest hnone hlt
  rename_i p hp
  have hsettle : Moves [] m { m with
      pendingExternal := m.pendingExternal.erase (sid, rid)
      runtime := m.runtime.completeAll (p.awaiters.map fun job => (job, .cancelled)) } :=
    moves_settle rfl rfl (shrinks_erase rfl) id (settles_erase hp rfl rfl)
  exact hsettle.trans (moves_abandonRequest (lookup_erase _ _) hlt)

theorem moves_cancelRequests {rids : List ℕ}
    (hlt : ∀ rid ∈ rids, ∀ {t}, m.tableOf sid = some t → rid < t.nextRequestId) :
    Moves [] m (rids.foldl (fun m rid => m.cancelRequest sid rid) m) := by
  induction rids generalizing m with
  | nil => exact .refl m
  | cons rid rids ih =>
    refine (moves_cancelRequest (hlt rid mem_cons_self)).trans (ih ?_); intro r hr t ht
    rw [tableOf_cancelRequest, update_self, map_eq_some_iff] at ht; obtain ⟨t₀, ht₀, rfl⟩ := ht
    show r < t₀.nextRequestId
    exact hlt r (mem_cons_of_mem _ hr) ht₀

theorem mem_requestsFor {uri : String} : rid ∈ m.requestsFor sid uri ↔
      ∃ route, m.pendingRoutes.lookup (sid, rid) = some route ∧ route.scopedUri = some uri := by
  rw [requestsFor, List.mem_map]
  constructor
  · rintro ⟨⟨⟨sid', rid'⟩, route⟩, he, rfl⟩; obtain ⟨hmem, hroute⟩ := mem_filter.1 he
    rw [Bool.and_eq_true, decide_eq_true_eq, decide_eq_true_eq] at hroute
    obtain ⟨rfl, huri⟩ := hroute; exact ⟨route, mem_entries_iff.1 hmem, huri⟩
  rintro ⟨route, hr, huri⟩
  refine ⟨⟨(sid, rid), route⟩, mem_filter.2 ⟨mem_entries_iff.2 hr, ?_⟩, rfl⟩
  rw [Bool.and_eq_true, decide_eq_true_eq, decide_eq_true_eq]; exact ⟨rfl, huri⟩

theorem moves_forgetUri (uri : String) : Moves [] m (m.forgetUri sid uri).2 := by
  unfold forgetUri
  split
  · exact .refl m
  refine moves_of_joined fun h => ?_
  set m₁ : LspManager := { m with forgottenDocuments :=
    if (sid, uri) ∈ m.forgottenDocuments then m.forgottenDocuments
    else (sid, uri) :: m.forgottenDocuments }
  have hcancel : Moves [] m₁
      ((m₁.requestsFor sid uri).foldl (fun m rid => m.cancelRequest sid rid) m₁) := by
    refine moves_cancelRequests ?_; intro rid hrid t ht
    obtain ⟨route, hr, _⟩ := mem_requestsFor.1 hrid
    obtain ⟨t₀, ht₀, _, hpending, _⟩ := h.routed hr; cases ht₀.symm.trans ht
    exact (h.wf ht₀).pending_lt hpending
  have hfirst : Moves [] m m₁ := moves_of_eq rfl rfl id rfl le_rfl rfl
  refine (hfirst.trans hcancel).trans ?_; exact moves_of_eq rfl rfl id rfl le_rfl rfl

end LspManager

end Pmacs
