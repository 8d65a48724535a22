/-
  What the operations of the language-server registry leave alone.

  * `RequestTable` is what a client knows of its requests, `LspManager.tableOf` that of a
    server;
  * `Keeps`: only clients, their processes and the events to be taken differ; `Talks`: and
    no client's requests do.
-/
import Pmacs.Lsp.ManagerRun

namespace Pmacs

open Lib AList Function Option

/-! ## Requests of a client -/

structure RequestTable where
  pending : Assoc ℕ String
  nextRequestId : ℕ
  cancelledRids : List ℕ
  live : Bool

def LspClient.table (c : LspClient) : RequestTable :=
  ⟨c.pending, c.nextRequestId, c.cancelledRids, c.process.isSome⟩

namespace RequestTable

variable (t : RequestTable)

def add (method : String) : RequestTable :=
  { t with
    nextRequestId := t.nextRequestId + 1
    pending := t.pending.insert t.nextRequestId method }

def abandon (rid : ℕ) : RequestTable :=
  { t with
    pending := t.pending.erase rid
    cancelledRids := if rid ∈ t.cancelledRids then t.cancelledRids else rid :: t.cancelledRids }

def answer (rid : ℕ) : RequestTable :=
  { t with pending := t.pending.erase rid }

def dropLate (rid : ℕ) : RequestTable :=
  { t with cancelledRids := t.cancelledRids.filter (· ≠ rid) }

/-- The table of a client whose process is about to be spawned. -/
def renewed : RequestTable := { t with pending := ∅, cancelledRids := [] }

def dead : RequestTable := { t with live := false }

end RequestTable

variable {c : LspClient}

@[simp]
theorem LspClient.table_addRequest {method : String} :
    (c.addRequest method).table = c.table.add method := rfl

namespace LspManager

variable (m : LspManager) (sid : LspServerId)

def tableOf : Option RequestTable :=
  (m.clients.lookup sid).map LspClient.table

theorem tableOf_eq_some {m : LspManager} {sid : LspServerId} {t : RequestTable} :
    m.tableOf sid = some t ↔ ∃ c, m.clients.lookup sid = some c ∧ c.table = t :=
  map_eq_some_iff

theorem tableOf_of_lookup {m : LspManager} {sid : LspServerId}
    (h : m.clients.lookup sid = some c) : m.tableOf sid = some c.table := by
  rw [tableOf, h]
  rfl

variable {m' : LspManager}

theorem tableOf_insert {m : LspManager} {sid : LspServerId}
    (h : m'.clients = m.clients.insert sid c) :
    m'.tableOf = Function.update m.tableOf sid (some c.table) := by
  funext sid'
  by_cases hsid : sid' = sid
  · subst hsid; rw [tableOf, h, lookup_insert, update_self]; rfl
  · rw [tableOf, h, lookup_insert_ne hsid, update_of_ne hsid]; rfl

theorem tableOf_erase {m : LspManager} {sid : LspServerId}
    (h : m'.clients = m.clients.erase sid) : m'.tableOf = Function.update m.tableOf sid none := by
  funext sid'
  by_cases hsid : sid' = sid
  · subst hsid; rw [tableOf, h, lookup_erase, update_self]; rfl
  · rw [tableOf, h, lookup_erase_ne hsid, update_of_ne hsid]; rfl

/-- Only clients, their processes and the events to be taken differ. -/
structure Keeps (m m' : LspManager) : Prop where
  runtime : m'.runtime = m.runtime
  pendingRoutes : m'.pendingRoutes = m.pendingRoutes
  pendingExternal : m'.pendingExternal = m.pendingExternal
  documents : m'.documents = m.documents
  diskDocuments : m'.diskDocuments = m.diskDocuments
  forgottenDocuments : m'.forgottenDocuments = m.forgottenDocuments
  stores : m'.stores = m.stores
  requestTimeout : m'.requestTimeout = m.requestTimeout
  restartBackoff : m'.restartBackoff = m.restartBackoff
  now : m'.now = m.now
  nextServerId : m'.nextServerId = m.nextServerId

theorem Keeps.refl : Keeps m m :=
  ⟨rfl, rfl, rfl, rfl, rfl, rfl, rfl, rfl, rfl, rfl, rfl⟩

theorem Keeps.trans {m m'' : LspManager} (h : Keeps m m') (h' : Keeps m' m'') : Keeps m m'' :=
  ⟨h'.runtime.trans h.runtime, h'.pendingRoutes.trans h.pendingRoutes,
    h'.pendingExternal.trans h.pendingExternal, h'.documents.trans h.documents,
    h'.diskDocuments.trans h.diskDocuments, h'.forgottenDocuments.trans h.forgottenDocuments,
    h'.stores.trans h.stores, h'.requestTimeout.trans h.requestTimeout,
    h'.restartBackoff.trans h.restartBackoff, h'.now.trans h.now,
    h'.nextServerId.trans h.nextServerId⟩

/-- Only what clients do not know of their requests, their processes and the events to be
    taken differ. -/
structure Talks (m m' : LspManager) : Prop extends Keeps m m' where
  tableOf : m'.tableOf = m.tableOf

theorem Talks.refl (m : LspManager) : Talks m m := ⟨.refl m, rfl⟩

theorem Talks.trans {m m'' : LspManager} (h : Talks m m') (h' : Talks m' m'') : Talks m m'' :=
  ⟨h.toKeeps.trans h'.toKeeps, h'.tableOf.trans h.tableOf⟩

/-! ## Sending -/

theorem keeps_clients (clients : Assoc LspServerId LspClient) : Keeps m { m with clients } :=
  ⟨rfl, rfl, rfl, rfl, rfl, rfl, rfl, rfl, rfl, rfl, rfl⟩

theorem tableOf_clients_insert : tableOf { m with clients := m.clients.insert sid c } =
      Function.update m.tableOf sid (some c.table) :=
  tableOf_insert rfl

theorem keeps_modifyClient (f : LspClient → LspClient) : Keeps m (m.modifyClient sid f) := by
  unfold modifyClient
  split
  · exact .refl m
  · exact keeps_clients m _

variable {f : LspClient → LspClient}

theorem tableOf_modifyClient {g : RequestTable → RequestTable} (hf : ∀ c, (f c).table = g c.table) :
    (m.modifyClient sid f).tableOf = Function.update m.tableOf sid ((m.tableOf sid).map g) := by
  unfold modifyClient
  cases hc : m.clients.lookup sid with
  | none =>
    have hnone : m.tableOf sid = none := by rw [tableOf, hc]; rfl
    rw [hnone, map_none, ← hnone, update_eq_self]
  | some c => rw [tableOf_of_lookup hc, map_some, ← hf c]; exact tableOf_insert rfl

theorem talks_modifyClient (hf : ∀ c, (f c).table = c.table) : Talks m (m.modifyClient sid f) := by
  refine ⟨keeps_modifyClient m sid f, ?_⟩
  rw [tableOf_modifyClient m sid (g := id) hf, map_id, id, update_eq_self]

theorem talks_pushEvent (kind : LspEventKind) : Talks m (m.pushEvent sid kind) :=
  ⟨⟨rfl, rfl, rfl, rfl, rfl, rfl, rfl, rfl, rfl, rfl, rfl⟩, rfl⟩

theorem talks_supervisor (s : ProcessSupervisor) : Talks m { m with supervisor := s } :=
  ⟨⟨rfl, rfl, rfl, rfl, rfl, rfl, rfl, rfl, rfl, rfl, rfl⟩, rfl⟩

theorem talks_sendFrameTo (client : LspClient) (frame : Frame) :
    Talks m (m.sendFrameTo client frame).2 := by
  unfold sendFrameTo
  split
  · exact .refl m
  · exact talks_supervisor m _

theorem talks_sendQuietly (frame : Frame) : Talks m (m.sendQuietly sid frame) := by
  unfold sendQuietly
  split
  · exact .refl m
  · exact talks_sendFrameTo m _ frame

theorem talks_sendNotification (method : String)
    (params : Value) : Talks m (m.sendNotification sid method params).2 := by
  unfold sendNotification
  split
  · exact .refl m
  split
  · exact .refl m
  split
  · exact talks_modifyClient m sid fun _ => rfl
  · exact talks_sendFrameTo m _ _

theorem talks_sendResponse (id : Value)
    (result : Except LspError Value) : Talks m (m.sendResponse sid id result).2 := by
  unfold sendResponse
  split
  · exact .refl m
  · exact talks_sendFrameTo m _ _

theorem talks_flushDeferredNotifications : Talks m (m.flushDeferredNotifications sid) := by
  unfold flushDeferredNotifications
  split
  · exact .refl m
  rename_i client _
  have hsend : ∀ (notes : List (String × Value)) (m : LspManager), Talks m
      (notes.foldl (fun m n => m.sendQuietly sid (.notification n.1 n.2)) m) := by
    intro notes
    induction notes with
    | nil => exact .refl
    | cons n notes ih => exact fun m => (talks_sendQuietly m sid _).trans (ih _)
  have hclear := talks_modifyClient m sid
    (f := fun c => { c with deferredNotifications := [] }) fun _ => rfl
  exact hclear.trans (hsend client.deferredNotifications _)

/-! ## Lifecycle answers -/

theorem talks_pushInitialConfiguration : Talks m (m.pushInitialConfiguration sid) := by
  unfold pushInitialConfiguration
  split
  · exact .refl m
  · exact talks_sendQuietly m sid _

theorem talks_initializeAnswered (result : Option Value) :
    Talks m (m.initializeAnswered sid result) := by
  have hsend := (talks_sendQuietly m sid (.notification "initialized" (.object []))).trans
    (talks_pushInitialConfiguration _ sid)
  refine (hsend.trans ?_).trans (talks_pushEvent _ sid _)
  refine Talks.trans ?_ (talks_flushDeferredNotifications _ sid)
  exact talks_modifyClient _ sid fun _ => rfl

theorem talks_shutdownAnswered : Talks m (m.shutdownAnswered sid) := by
  have hsend := talks_sendQuietly m sid (.notification "exit" .null)
  refine (hsend.trans ?_).trans (talks_pushEvent _ sid _)
  exact talks_modifyClient _ sid fun _ => rfl

theorem keeps_stop : Keeps m (m.stop sid).2 := by
  unfold stop
  split
  · exact .refl m
  simp only
  split
  · exact keeps_clients m _
  split
  · exact (keeps_clients m _).trans (talks_sendFrameTo _ _ _).toKeeps
  · exact ⟨rfl, rfl, rfl, rfl, rfl, rfl, rfl, rfl, rfl, rfl, rfl⟩

theorem keeps_onStarted (pid atTime : ℕ) : Keeps m (m.onStarted sid pid atTime) := by
  unfold onStarted
  split
  · exact .refl m
  refine Keeps.trans ?_ (talks_pushEvent _ sid _).toKeeps
  split
  · exact (keeps_clients m _).trans (talks_sendFrameTo _ _ _).toKeeps
  exact ((keeps_clients m _).trans (talks_sendFrameTo _ _ _).toKeeps).trans
    (talks_pushEvent _ sid _).toKeeps

theorem keeps_sendRequest (method : String)
    (params : Value) : Keeps m (m.sendRequest sid method params).2 := by
  unfold sendRequest
  split
  · exact .refl m
  split
  · exact (keeps_clients m _).trans (talks_sendFrameTo _ _ _).toKeeps
  · exact .refl m

theorem talks_handleRequest (id : Value) (method : String)
    (params : Value) : Talks m (m.handleRequest sid id method params) := by
  unfold handleRequest
  split
  · exact talks_sendResponse m sid id _
  · exact talks_pushEvent m sid _

end LspManager

end Pmacs
