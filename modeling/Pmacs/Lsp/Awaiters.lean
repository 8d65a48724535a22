/-
  The jobs parked on requests of the language-server registry.

  * `Joined`: every request in flight is pending in the live process of its server;
  * `Accounted`: every job that a request answered is parked on one request in flight, or
    settled once;
  * `Moves`: what an operation of the registry does to both.
-/
import Pmacs.Lib.Ledger
import Pmacs.Lsp.ManagerFrame

namespace Pmacs

open Lib AList Function List Option

/-! ## Invariants -/

/-- The requests of a client are told apart by their ids, and an abandoned one is not
    pending. -/
structure RequestTable.Wf (t : RequestTable) : Prop where
  pending_lt : ∀ {rid method}, t.pending.lookup rid = some method → rid < t.nextRequestId
  cancelled : ∀ {rid}, rid ∈ t.cancelledRids →
    rid < t.nextRequestId ∧ t.pending.lookup rid = none

/-- Whether a method is one of a request that jobs await. -/
def IsAwaited (method : String) : Prop :=
  method ≠ "" ∧ method ≠ "initialize" ∧ method ≠ "shutdown"

/-- Whether a request is pending in a live process. -/
def RequestTable.IsOpen (t : RequestTable) (rid : ℕ) : Prop :=
  t.live = true ∧ (t.pending.lookup rid).isSome = true

/-- Whether a request that jobs await is pending. -/
def RequestTable.Asked (t : RequestTable) (rid : ℕ) : Prop :=
  ∃ method, t.pending.lookup rid = some method ∧ IsAwaited method

/-- Requests are added to a client, and none that was given up is pending again. -/
structure RequestTable.Grows (t t' : RequestTable) : Prop where
  next : t.nextRequestId ≤ t'.nextRequestId
  gone : ∀ {rid}, rid < t.nextRequestId → t'.IsOpen rid → t.IsOpen rid

variable {rid : ℕ} {method : String}

namespace RequestTable

variable {gone : List JobId} {t : RequestTable}

theorem Grows.refl (t : RequestTable) : Grows t t := ⟨le_rfl, fun _ h => h⟩

theorem Grows.trans {t' t'' : RequestTable} (h : Grows t t') (h' : Grows t' t'') : Grows t t'' :=
  ⟨le_trans h.next h'.next,
    fun hlt hopen => h.gone hlt (h'.gone (lt_of_lt_of_le hlt h.next) hopen)⟩

theorem Wf.add (h : t.Wf) (method : String) : (t.add method).Wf := by
  constructor
  · intro rid method' hlookup
    by_cases hrid : rid = t.nextRequestId
    · rw [hrid]; exact Nat.lt_succ_self _
    rw [RequestTable.add, lookup_insert_ne hrid] at hlookup
    exact Nat.lt_succ_of_lt (h.pending_lt hlookup)
  intro rid hrid; obtain ⟨hlt, hnone⟩ := h.cancelled hrid
  refine ⟨Nat.lt_succ_of_lt hlt, ?_⟩; rw [RequestTable.add, lookup_insert_ne (ne_of_lt hlt)]
  exact hnone

theorem Wf.lookup_add (h : t.Wf) {method' : String}
    (hpending : t.pending.lookup rid = some method') :
    (t.add method).pending.lookup rid = some method' := by
  rw [RequestTable.add, lookup_insert_ne (ne_of_lt (h.pending_lt hpending))]
  exact hpending

theorem grows_add : Grows t (t.add method) := by
  refine ⟨Nat.le_succ _, ?_⟩
  rintro rid hlt ⟨hlive, hpending⟩
  refine ⟨hlive, ?_⟩
  rwa [RequestTable.add, lookup_insert_ne (ne_of_lt hlt)] at hpending

theorem lookup_erase_none {pending : Assoc ℕ String} {r : ℕ}
    (h : pending.lookup r = none) : (pending.erase rid).lookup r = none := by
  by_cases hr : r = rid
  · rw [hr]; exact lookup_erase _ _
  · rw [lookup_erase_ne hr]; exact h

theorem Wf.erase (h : t.Wf) (rid : ℕ) {rids : List ℕ}
    (hrids : ∀ r ∈ rids, r ∈ t.cancelledRids ∨ (r = rid ∧ rid < t.nextRequestId)) :
    RequestTable.Wf { t with pending := t.pending.erase rid, cancelledRids := rids } := by
  constructor
  · intro r method hr
    by_cases hrid : r = rid
    · subst hrid; exact absurd hr (by simp)
    · rw [lookup_erase_ne hrid] at hr; exact h.pending_lt hr
  intro r hr
  rcases hrids r hr with hc | ⟨rfl, hlt⟩
  · exact ⟨(h.cancelled hc).1, lookup_erase_none (h.cancelled hc).2⟩
  · exact ⟨hlt, lookup_erase _ _⟩

theorem grows_erase (rids : List ℕ) :
    Grows t { t with pending := t.pending.erase rid, cancelledRids := rids } := by
  refine ⟨le_rfl, ?_⟩
  rintro r _ ⟨hlive, hpending⟩
  refine ⟨hlive, ?_⟩
  by_contra hnone
  rw [Bool.not_eq_true, isSome_eq_false_iff, isNone_iff_eq_none] at hnone
  rw [lookup_erase_none hnone] at hpending
  cases hpending

theorem Wf.abandon (h : t.Wf) {rid : ℕ} (hrid : rid < t.nextRequestId) : (t.abandon rid).Wf := by
  refine h.erase rid ?_
  intro r hr
  split at hr
  · exact .inl hr
  rcases mem_cons.1 hr with rfl | hr
  · exact .inr ⟨rfl, hrid⟩
  · exact .inl hr

theorem grows_abandon : Grows t (t.abandon rid) :=
  grows_erase _

theorem Wf.answer (h : t.Wf) (rid : ℕ) : (t.answer rid).Wf :=
  h.erase rid fun _ hr => .inl hr

theorem grows_answer : Grows t (t.answer rid) :=
  grows_erase _

theorem Wf.dropLate (h : t.Wf) (rid : ℕ) : (t.dropLate rid).Wf :=
  ⟨h.pending_lt, fun hr => h.cancelled (mem_filter.1 hr).1⟩

theorem grows_dropLate : Grows t (t.dropLate rid) :=
  ⟨le_rfl, fun _ hopen => hopen⟩

theorem wf_renewed {live : Bool} : Wf { t.renewed with live := live } :=
  ⟨fun hr => absurd hr (by simp [RequestTable.renewed]), nofun⟩

theorem grows_renewed (t : RequestTable) (live : Bool) : Grows t { t.renewed with live := live } :=
  ⟨le_rfl, fun _ hopen => absurd hopen.2 (by simp [RequestTable.renewed])⟩

theorem Wf.dead (h : t.Wf) : t.dead.Wf := ⟨h.pending_lt, h.cancelled⟩

theorem grows_dead (t : RequestTable) : Grows t t.dead :=
  ⟨le_rfl, fun _ hopen => absurd hopen.1 Bool.false_ne_true⟩

end RequestTable

namespace LspManager

/-- Every request in flight is pending in the live process of its server, and every one that
    has a route is pending. -/
structure Joined (m : LspManager) : Prop where
  wf : ∀ {sid t}, m.tableOf sid = some t → t.Wf
  known : ∀ {sid t}, m.tableOf sid = some t → sid < m.nextServerId
  inFlight : ∀ {sid rid p}, m.pendingExternal.lookup (sid, rid) = some p →
    ∃ t, m.tableOf sid = some t ∧ t.live = true ∧ t.pending.lookup rid = some p.method ∧
      IsAwaited p.method
  routed : ∀ {sid rid route}, m.pendingRoutes.lookup (sid, rid) = some route →
    ∃ t, m.tableOf sid = some t ∧ t.Asked rid

variable (m : LspManager)

def parkedJobs : List JobId := parked PendingExternal.awaiters m.pendingExternal

def settledJobs : List JobId := m.runtime.sent.map Prod.fst

/-- Every job issued is parked on one request in flight, or settled once. -/
structure Accounted (issued : List JobId) (m : LspManager) : Prop where
  balanced : Balanced issued m.parkedJobs m.settledJobs
  lt : ∀ {job}, job ∈ issued → job < m.runtime.nextJobId

/-- The requests of every server that was known only grow. -/
structure TablesGrow (m m' : LspManager) : Prop where
  next : m.nextServerId ≤ m'.nextServerId
  tables : ∀ {sid t'}, m'.tableOf sid = some t' → sid < m.nextServerId →
    ∃ t, m.tableOf sid = some t ∧ t.Grows t'

/-- A step that issues the jobs `new` and keeps the accounts. -/
structure Moves (new : List JobId) (m m' : LspManager) : Prop where
  joined : Joined m → Joined m'
  accounted : ∀ {issued}, Joined m → Accounted issued m → Accounted (issued ++ new) m'
  grows : Joined m → TablesGrow m m'

variable {m' : LspManager} {new : List JobId}

theorem moves_of_joined {m : LspManager} (h : Joined m → Moves new m m') : Moves new m m' :=
  ⟨fun hj => (h hj).joined hj, fun hj ha => (h hj).accounted hj ha, fun hj => (h hj).grows hj⟩

theorem Moves.trans {new' : List JobId} {m m'' : LspManager} (h : Moves new m m')
    (h' : Moves new' m' m'') : Moves (new ++ new') m m'' := by
  refine ⟨fun hj => h'.joined (h.joined hj), ?_, ?_⟩
  · intro issued hj ha; rw [← append_assoc]; exact h'.accounted (h.joined hj) (h.accounted hj ha)
  intro hj; have hg := h.grows hj; have hg' := h'.grows (h.joined hj)
  refine ⟨le_trans hg.next hg'.next, ?_⟩; intro sid t'' ht'' hlt
  obtain ⟨t', ht', hgrows'⟩ := hg'.tables ht'' (lt_of_lt_of_le hlt hg.next)
  obtain ⟨t, ht, hgrows⟩ := hg.tables ht' hlt; exact ⟨t, ht, hgrows.trans hgrows'⟩

/-- Requests in flight are at most given up. -/
def Shrinks (m' : LspManager) : Prop :=
  ∀ {key p'}, m'.pendingExternal.lookup key = some p' →
    ∃ p, m.pendingExternal.lookup key = some p ∧ p.method = p'.method

/-- The jobs that leave the requests in flight are the ones that are settled. -/
structure Settles (gone : List JobId) (m m' : LspManager) : Prop where
  parked : m.parkedJobs.Perm (gone ++ m'.parkedJobs)
  settled : m'.settledJobs = m.settledJobs ++ gone
  jobs : m.runtime.nextJobId ≤ m'.runtime.nextJobId

theorem Settles.accounted {issued : List JobId} {m : LspManager} (h : Settles gone m m')
    (ha : Accounted issued m) : Accounted (issued ++ []) m' := by
  rw [append_nil]
  constructor
  · rw [h.settled]; exact ha.balanced.settle h.parked
  · intro job hjob; exact lt_of_lt_of_le (ha.lt hjob) h.jobs

theorem settles_nil {m : LspManager} (hext : m'.pendingExternal = m.pendingExternal)
    (hsent : m'.runtime.sent = m.runtime.sent)
    (hjobs : m.runtime.nextJobId ≤ m'.runtime.nextJobId) : Settles [] m m' := by
  constructor
  · rw [nil_append, parkedJobs, parkedJobs, hext]
  · rw [settledJobs, settledJobs, hsent, append_nil]
  · exact hjobs

/-! ## Steps that leave the clients' requests alone -/

/-- Settling jobs, while every client keeps what it knows of its requests. -/
theorem moves_settle {m : LspManager} (htable : m'.tableOf = m.tableOf)
    (hnext : m'.nextServerId = m.nextServerId) (hext : Shrinks m m')
    (hroutes : ∀ {key route}, m'.pendingRoutes.lookup key = some route →
      m.pendingRoutes.lookup key = some route) (hsettles : Settles gone m m') : Moves [] m m' := by
  refine ⟨?_, fun _ ha => hsettles.accounted ha, ?_⟩
  · intro h
    constructor
    · exact fun ht => h.wf (htable ▸ ht)
    · intro sid t ht; rw [hnext]; exact h.known (htable ▸ ht)
    · intro sid rid p hp; obtain ⟨p₀, hp₀, hmethod⟩ := hext hp; rw [htable, ← hmethod]
      exact h.inFlight hp₀
    · intro sid rid route hr; rw [htable]; exact h.routed (hroutes hr)
  intro _
  refine ⟨le_of_eq hnext.symm, ?_⟩; intro sid t ht _; exact ⟨t, htable ▸ ht, .refl t⟩

theorem moves_of_eq {m : LspManager} (htable : m'.tableOf = m.tableOf)
    (hext : m'.pendingExternal = m.pendingExternal)
    (hroutes : ∀ {key route}, m'.pendingRoutes.lookup key = some route →
      m.pendingRoutes.lookup key = some route) (hsent : m'.runtime.sent = m.runtime.sent)
    (hjobs : m.runtime.nextJobId ≤ m'.runtime.nextJobId)
    (hnext : m'.nextServerId = m.nextServerId) : Moves [] m m' :=
  moves_settle htable hnext (fun hp => ⟨_, hext ▸ hp, rfl⟩) hroutes (settles_nil hext hsent hjobs)

theorem Moves.refl : Moves [] m m :=
  moves_of_eq rfl rfl id rfl le_rfl rfl

theorem moves_talks {m : LspManager} (h : Talks m m') : Moves [] m m' :=
  moves_of_eq h.tableOf h.pendingExternal (fun hr => h.pendingRoutes ▸ hr) (by rw [h.runtime])
    (by rw [h.runtime]) h.nextServerId

theorem Moves.talks {m m'' : LspManager} (h : Moves new m m')
    (h' : Talks m' m'') : Moves new m m'' := by
  have hboth := h.trans (moves_talks h')
  rwa [append_nil] at hboth

/-! ## Steps of one client -/

theorem Joined.update {m : LspManager} (h : Joined m) {sid : LspServerId}
    {t : Option RequestTable} (htable : m'.tableOf = Function.update m.tableOf sid t)
    (hnext : m.nextServerId ≤ m'.nextServerId) (hext : Shrinks m m')
    (hroutes : ∀ {key route}, m'.pendingRoutes.lookup key = some route →
      m.pendingRoutes.lookup key = some route)
    (hwf : ∀ {t'}, t = some t' → t'.Wf ∧ sid < m'.nextServerId)
    (hin : ∀ {rid p}, m'.pendingExternal.lookup (sid, rid) = some p →
      ∃ t', t = some t' ∧ t'.live = true ∧ t'.pending.lookup rid = some p.method ∧
        IsAwaited p.method)
    (hrouted : ∀ {rid route}, m'.pendingRoutes.lookup (sid, rid) = some route →
      ∃ t', t = some t' ∧ t'.Asked rid) : Joined m' := by
  have hself : m'.tableOf sid = t := by rw [htable, update_self]
  have hother : ∀ {sid'}, sid' ≠ sid → m'.tableOf sid' = m.tableOf sid' := by
    intro sid' hne; rw [htable, update_of_ne hne]
  constructor
  · intro sid' t' ht'
    by_cases hsid : sid' = sid
    · subst hsid; exact (hwf (hself ▸ ht')).1
    · exact h.wf (hother hsid ▸ ht')
  · intro sid' t' ht'
    by_cases hsid : sid' = sid
    · subst hsid; exact (hwf (hself ▸ ht')).2
    · exact lt_of_lt_of_le (h.known (hother hsid ▸ ht')) hnext
  · intro sid' rid p hp
    by_cases hsid : sid' = sid
    · subst hsid; rw [hself]; exact hin hp
    · obtain ⟨p₀, hp₀, hmethod⟩ := hext hp; rw [hother hsid, ← hmethod]; exact h.inFlight hp₀
  intro sid' rid route hr
  by_cases hsid : sid' = sid
  · subst hsid; rw [hself]; exact hrouted hr
  · rw [hother hsid]; exact h.routed (hroutes hr)

theorem tablesGrow_update {m : LspManager} {sid : LspServerId} {t : Option RequestTable}
    (htable : m'.tableOf = Function.update m.tableOf sid t)
    (hnext : m.nextServerId ≤ m'.nextServerId)
    (hgrows : ∀ {t'}, t = some t' → sid < m.nextServerId →
      ∃ t₀, m.tableOf sid = some t₀ ∧ t₀.Grows t') : TablesGrow m m' := by
  refine ⟨hnext, ?_⟩
  intro sid' t' ht' hlt
  by_cases hsid : sid' = sid
  · subst hsid; rw [htable, update_self] at ht'; exact hgrows ht' hlt
  · rw [htable, update_of_ne hsid] at ht'; exact ⟨t', ht', .refl t'⟩

/-- A step of one client that keeps pending whatever it leaves in flight. -/
theorem moves_update {m : LspManager} {sid : LspServerId}
    {t' : RequestTable} (ht : m.tableOf sid = some t)
    (htable : m'.tableOf = Function.update m.tableOf sid (some t'))
    (hnext : m'.nextServerId = m.nextServerId) (hext : Shrinks m m')
    (hroutes : ∀ {key route}, m'.pendingRoutes.lookup key = some route →
      m.pendingRoutes.lookup key = some route) (hsettles : Settles gone m m')
    (hgrows : t.Grows t') (hwf : t.Wf → t'.Wf)
    (hin : ∀ {rid p}, m'.pendingExternal.lookup (sid, rid) = some p → t.Wf → t.live = true →
      t.pending.lookup rid = some p.method → IsAwaited p.method →
      t'.live = true ∧ t'.pending.lookup rid = some p.method)
    (hasked : ∀ {rid route}, m'.pendingRoutes.lookup (sid, rid) = some route → t.Wf →
      t.Asked rid → t'.Asked rid) : Moves [] m m' := by
  refine ⟨?_, fun _ ha => hsettles.accounted ha,
    fun _ => tablesGrow_update htable (le_of_eq hnext.symm) ?_⟩
  · intro h
    refine h.update htable (le_of_eq hnext.symm) hext hroutes ?_ ?_ ?_
    · intro t'' ht''; cases ht''; rw [hnext]
      exact ⟨hwf (h.wf ht), h.known ht⟩
    · intro rid p hp; obtain ⟨p₀, hp₀, hmethod⟩ := hext hp
      obtain ⟨t₀, ht₀, hlive, hpending, haw⟩ := h.inFlight hp₀; cases ht.symm.trans ht₀
      rw [hmethod] at hpending haw
      obtain ⟨hlive', hpending'⟩ := hin hp (h.wf ht) hlive hpending haw
      exact ⟨t', rfl, hlive', hpending', haw⟩
    intro rid route hr; obtain ⟨t₀, ht₀, ha⟩ := h.routed (hroutes hr); cases ht.symm.trans ht₀
    exact ⟨t', rfl, hasked hr (h.wf ht) ha⟩
  · intro t'' ht'' _; cases ht''; exact ⟨t, ht, hgrows⟩

/-! ## Requests -/

theorem sendFrameTo_ok {m : LspManager} {client : LspClient} {frame : Frame}
    (h : (m.sendFrameTo client frame).1 = .ok ()) : client.process.isSome = true := by
  unfold sendFrameTo at h
  split at h
  · cases h
  · rename_i hprocess; rw [hprocess]; rfl

theorem sendRequest_ready {m : LspManager} {sid : LspServerId} {c : LspClient}
    (hc : m.clients.lookup sid = some c) (hready : c.state.isReadyForRequest = true)
    (method : String) (params : Value) : ∃ sent : Except String Unit × LspManager,
      m.sendRequest sid method params = (sent.1.map fun _ => c.nextRequestId, sent.2) ∧
      Keeps m sent.2 ∧ sent.2.tableOf = Function.update m.tableOf sid (some (c.table.add method)) ∧
      (sent.1 = .ok () → c.process.isSome = true) := by
  have htalks := talks_sendFrameTo { m with clients := m.clients.insert sid (c.addRequest method) }
    (c.addRequest method) (.request c.nextRequestId method params)
  refine ⟨{ m with clients := m.clients.insert sid (c.addRequest method) }.sendFrameTo
    (c.addRequest method) (.request c.nextRequestId method params), ?_, ?_, ?_, ?_⟩
  · simp only [sendRequest, hc, if_pos hready]
  · exact (keeps_clients m _).trans htalks.toKeeps
  · rw [htalks.tableOf, tableOf_clients_insert, LspClient.table_addRequest]
  · exact fun h => sendFrameTo_ok h

theorem sendRequest_refused {m : LspManager} {sid : LspServerId}
    (h : ∀ c, m.clients.lookup sid = some c → c.state.isReadyForRequest = false)
    (method : String) (params : Value) : ∃ e, m.sendRequest sid method params = (.error e, m) := by
  unfold sendRequest
  split
  · exact ⟨_, rfl⟩
  · rename_i c hc; rw [if_neg (by simp [h c hc])]; exact ⟨_, rfl⟩

theorem moves_addRequest {m : LspManager} {sid : LspServerId} {c : LspClient} (method : String)
    (hc : m.clients.lookup sid = some c) (hk : Keeps m m')
    (htable : m'.tableOf = Function.update m.tableOf sid (some (c.table.add method))) :
    Moves [] m m' := by
  refine moves_update (tableOf_of_lookup hc) htable hk.nextServerId ?_ ?_
    (settles_nil hk.pendingExternal (by rw [hk.runtime]) (by rw [hk.runtime]))
    (RequestTable.grows_add) (fun hwf => hwf.add method) ?_ ?_
  · intro key p hp; exact ⟨p, hk.pendingExternal ▸ hp, rfl⟩
  · intro key route hr; exact hk.pendingRoutes ▸ hr
  · intro rid p _ hwf hlive hpending _; exact ⟨hlive, hwf.lookup_add hpending⟩
  rintro rid route _ hwf ⟨method', hpending, haw⟩
  exact ⟨method', hwf.lookup_add hpending, haw⟩

theorem moves_sendRequest {sid : LspServerId}
    {params : Value} : Moves [] m (m.sendRequest sid method params).2 := by
  cases hc : m.clients.lookup sid with
  | none =>
    obtain ⟨e, he⟩ := @sendRequest_refused m sid (by simp [hc]) method params; rw [he]
    exact .refl m
  | some c =>
    by_cases hready : c.state.isReadyForRequest = true
    · obtain ⟨sent, hsend, hk, htable, _⟩ := sendRequest_ready hc hready method params; rw [hsend]
      exact moves_addRequest _ hc hk htable
    have hnot : ∀ c', m.clients.lookup sid = some c' → c'.state.isReadyForRequest = false := by
      intro c' hc'; cases hc.symm.trans hc'; simpa using hready
    obtain ⟨e, he⟩ := sendRequest_refused hnot method params; rw [he]; exact .refl m

theorem moves_registerAwaiter {m : LspManager} {sid : LspServerId}
    (ht : m.tableOf sid = some t) (hlive : t.live = true)
    (hpending : t.pending.lookup rid = some method) (haw : IsAwaited method)
    (hfree : m.pendingExternal.lookup (sid, rid) = none) (topic : String)
    (route : Option ResponseRoute) : Moves [m.runtime.nextJobId] m
      ((m.registerAwaiter sid rid method topic).2.addRoute sid rid route) := by
  have hroute : ∀ m : LspManager, (m.addRoute sid rid route).tableOf = m.tableOf ∧
      (m.addRoute sid rid route).pendingExternal = m.pendingExternal ∧
      (m.addRoute sid rid route).runtime = m.runtime ∧
      (m.addRoute sid rid route).nextServerId = m.nextServerId := by
    intro m; cases route <;> exact ⟨rfl, rfl, rfl, rfl⟩
  obtain ⟨htable, hext, hruntime, hnext⟩ := hroute (m.registerAwaiter sid rid method topic).2
  have hkey : ∀ key route', ((m.registerAwaiter sid rid method topic).2.addRoute sid rid
      route).pendingRoutes.lookup key = some route' →
      key = (sid, rid) ∨ m.pendingRoutes.lookup key = some route' := by
    intro key route' hr
    cases route with
    | none => exact .inr hr
    | some r =>
      by_cases hkey : key = (sid, rid)
      · exact .inl hkey
      · rw [addRoute, lookup_insert_ne hkey] at hr; exact .inr hr
  refine ⟨?_, ?_, ?_⟩
  · intro h
    constructor
    · intro sid' t' ht'; exact h.wf (htable ▸ ht')
    · intro sid' t' ht'; rw [hnext]; exact h.known (htable ▸ ht')
    · intro sid' rid' p hp; rw [htable]; rw [hext, registerAwaiter] at hp
      by_cases hkey : (sid', rid') = (sid, rid)
      · obtain ⟨rfl, rfl⟩ := Prod.mk.inj hkey; rw [lookup_insert] at hp; cases hp
        exact ⟨t, ht, hlive, hpending, haw⟩
      · rw [lookup_insert_ne hkey] at hp; exact h.inFlight hp
    intro sid' rid' route' hr; rw [htable]
    rcases hkey _ _ hr with heq | hold
    · obtain ⟨rfl, rfl⟩ := Prod.mk.inj heq; exact ⟨t, ht, method, hpending, haw⟩
    · exact h.routed hold
  · intro issued _ ha
    have hnew : m.runtime.nextJobId ∉ issued := fun hmem => lt_irrefl _ (ha.lt hmem)
    constructor
    · rw [parkedJobs, settledJobs, hext, hruntime, registerAwaiter]
      simp only [AsyncRuntime.registerExternal_sent]
      rw [parked_insert _ hfree]; exact ha.balanced.issue hnew
    intro job hjob; rw [hruntime]
    rcases mem_append.1 hjob with hold | hone
    · exact Nat.lt_succ_of_lt (ha.lt hold)
    · rw [mem_singleton.1 hone]; exact Nat.lt_succ_self _
  intro _
  refine ⟨le_of_eq hnext.symm, ?_⟩; intro sid' t' ht' _; exact ⟨t', htable ▸ ht', .refl t'⟩

theorem isAwaited_ask (sid : LspServerId) (r : LspRequest) : IsAwaited (m.ask sid r).method := by
  cases r with
  | locations kind => cases kind <;> exact ⟨by simp [ask, LocationKind.method],
      by simp [ask, LocationKind.method], by simp [ask, LocationKind.method]⟩
  | _ => exact ⟨by simp [ask], by simp [ask], by simp [ask]⟩

def jobOf : Except String JobId → List JobId
  | .ok job => [job]
  | .error _ => []

theorem moves_request (sid : LspServerId) {ask : Ask}
    (haw : IsAwaited ask.method) : Moves (jobOf (m.request sid ask).1) m (m.request sid ask).2 := by
  have hrefused : (∃ e, m.sendRequest sid ask.method ask.params = (.error e, m)) →
      Moves (jobOf (m.request sid ask).1) m (m.request sid ask).2 := by
    rintro ⟨e, he⟩; simp only [request, he, jobOf]; exact .refl m
  cases hc : m.clients.lookup sid with
  | none => exact hrefused (sendRequest_refused (by simp [hc]) _ _)
  | some c =>
    by_cases hready : c.state.isReadyForRequest = true
    · obtain ⟨sent, hsend, hk, htable, hlive⟩ := sendRequest_ready hc hready ask.method ask.params
      have hadd := moves_addRequest _ hc hk htable; obtain ⟨r, m'⟩ := sent
      cases r with
      | error e => simp only [request, hsend, Except.map, jobOf]; exact hadd
      | ok u =>
        have hself : m'.tableOf sid = some (c.table.add ask.method) := by rw [htable, update_self]
        have hnew : (c.table.add ask.method).pending.lookup c.nextRequestId = some ask.method :=
          lookup_insert _
        simp only [request, hsend, Except.map, jobOf]
        refine moves_of_joined fun h => ?_
        refine hadd.trans (moves_registerAwaiter hself (hlive rfl) hnew haw ?_ _ _)
        cases hext : m'.pendingExternal.lookup (sid, c.nextRequestId) with
        | none => rfl
        | some p =>
          obtain ⟨t, ht, _, hpending, _⟩ := h.inFlight (hk.pendingExternal ▸ hext)
          cases (tableOf_of_lookup hc).symm.trans ht
          exact absurd ((h.wf ht).pending_lt hpending) (lt_irrefl _)
    exact hrefused (sendRequest_refused
      (fun c' hc' => by cases hc.symm.trans hc'; simpa using hready) _ _)

end LspManager

end Pmacs
