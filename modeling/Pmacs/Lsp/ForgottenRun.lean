/-
  What becomes of a document that a language server was made to forget.

  * `holds_handleNext` and so on: nothing that the manager does by itself puts anything
    back in a place of the document;
  * `forgotten_stays`: over any run.
-/
import Pmacs.Lsp.Forgotten

namespace Pmacs

open Lib AList List Option ResultStores

variable {m : LspManager} {s sid : LspServerId} {place : Place} {server u uri : String}

theorem DiagnosticStore.hold_spares (s : DiagnosticStore) (h : uri ≠ u) (diags : List Diagnostic) :
    (s.hold u diags).byUri.lookup uri = s.byUri.lookup uri ∧
      (s.hold u diags).severityCounts.lookup uri = s.severityCounts.lookup uri ∧
      (s.hold u diags).epochs = s.epochs ∧ (s.hold u diags).staleUris = s.staleUris := by
  unfold hold
  split
  · exact ⟨lookup_erase_ne h, lookup_erase_ne h, rfl, rfl⟩
  · exact ⟨lookup_insert_ne h, lookup_insert_ne h, rfl, rfl⟩

theorem DiagnosticStore.set_spares (s : DiagnosticStore) (h : uri ≠ u) (diags : List Diagnostic) :
    (s.set u diags).byUri.lookup uri = s.byUri.lookup uri ∧
      (s.set u diags).severityCounts.lookup uri = s.severityCounts.lookup uri ∧
      (s.set u diags).epochs.lookup uri = s.epochs.lookup uri ∧
      (uri ∈ (s.set u diags).staleUris → uri ∈ s.staleUris) := by
  obtain ⟨hbyUri, hcounts, hepochs, hstale⟩ := hold_spares
    ({ s with staleUris := s.staleUris.filter (· ≠ u) }.bumpEpoch u) h
    (if diags.all (·.span.isSome) then diags.mergeSort Diagnostic.spanLe
      else diags.mergeSort Diagnostic.positionLe)
  refine ⟨hbyUri, hcounts, ?_, ?_⟩
  · rw [set, hepochs]; exact lookup_insert_ne h
  · intro hu; rw [set, hstale] at hu; exact (mem_filter.1 hu).1

theorem ResultStores.holds_diagnostics {s : ResultStores} {diagnostics : DiagnosticStore}
    (hplace : ¬ place.IsDiagnostic)
    (h : ({ s with diagnostics } : ResultStores).holds server uri place) :
    s.holds server uri place := by
  cases place with
  | diagnostics | severityCounts | diagnosticsEpoch | diagnosticsStale =>
    exact absurd True.intro hplace
  | _ => exact h

theorem ResultStores.holds_published {s : ResultStores} (hne : uri ≠ u) {diags : List Diagnostic}
    (h : ({ s with diagnostics := s.diagnostics.set u diags } : ResultStores).holds server uri
      place) : s.holds server uri place := by
  obtain ⟨hbyUri, hcounts, hepochs, hstale⟩ := s.diagnostics.set_spares hne diags
  cases place with
  | diagnostics =>
    show (s.diagnostics.byUri.lookup uri).isSome
    exact hbyUri ▸ h
  | severityCounts =>
    show (s.diagnostics.severityCounts.lookup uri).isSome
    exact hcounts ▸ h
  | diagnosticsEpoch =>
    show (s.diagnostics.epochs.lookup uri).isSome
    exact hepochs ▸ h
  | diagnosticsStale => exact hstale h
  | _ => exact h

namespace LspManager

theorem holds_stores {stores : ResultStores}
    (hstores : stores.holds (toString sid) uri place → m.stores.holds (toString sid) uri place)
    (h : holds { m with stores } sid uri place) : m.holds sid uri place := by
  cases place with
  | document | diskDocument => exact h
  | _ => exact hstores h

theorem holds_same {m' : LspManager} (hstores : m'.stores = m.stores)
    (hdocs : m'.documents = m.documents) (hdisk : m'.diskDocuments = m.diskDocuments)
    (h : m'.holds sid uri place) : m.holds sid uri place :=
  holds_of_stores (fun hs => hstores ▸ hs) (fun hd => hdocs ▸ hd) (fun hd => hdisk ▸ hd) h

/-! ## What the manager does by itself -/

def ForeignPublish (sid : LspServerId) (uri : String) (m : LspManager) : Action → Prop
  | .handleNext s =>
    s ≠ sid ∧ ∃ params, (params.get "uri").bind Value.asStr = some uri ∧
      m.nextEvent s = some (.stdout (.notification "textDocument/publishDiagnostics" params))
  | _ => False

theorem holds_absorbPublishDiagnostics (h : Forgotten m sid uri) {params : Value}
    (hforeign : place.IsDiagnostic → s ≠ sid → (params.get "uri").bind Value.asStr ≠ some uri)
    (hplace : (m.absorbPublishDiagnostics s params).holds sid uri place) :
    m.holds sid uri place := by
  unfold absorbPublishDiagnostics at hplace
  split at hplace
  · exact hplace
  rename_i u hu
  split at hplace
  · exact hplace
  rename_i hfresh
  split at hplace
  · exact hplace
  refine holds_stores ?_ hplace
  by_cases hne : uri = u
  · subst hne
    refine holds_diagnostics ?_; intro hdiag
    refine hforeign hdiag ?_ hu; rintro rfl; exact hfresh h.tombstone
  · exact holds_published hne

/-- An answer of the document's own server is about something else. -/
theorem holds_handleResponse (h : Forgotten m sid uri) {id : Value} {result : Option Value}
    {error : Option LspError} (hplace : (m.handleResponse s id result error).holds sid uri place) :
    m.holds sid uri place := by
  unfold handleResponse at hplace
  split at hplace
  · exact holds_keeps (talks_pushEvent m s _).toKeeps hplace
  rename_i rid _
  split at hplace
  · exact hplace
  split at hplace
  · exact holds_keeps (keeps_modifyClient m s _) hplace
  have hk := keeps_modifyClient m s fun c => { c with pending := c.pending.erase rid }
  unfold handleAnswer at hplace
  split at hplace
  · exact holds_keeps (hk.trans (talks_pushEvent _ s _).toKeeps) hplace
  split at hplace
  · exact holds_keeps (hk.trans (talks_initializeAnswered _ s _).toKeeps) hplace
  split at hplace
  · exact holds_keeps (hk.trans (talks_shutdownAnswered _ s).toKeeps) hplace
  refine holds_keeps hk ?_
  have hsettle := holds_keeps (talks_pushEvent _ s _).toKeeps hplace
  have habsorb : (absorbAnswer (m.modifyClient s fun c =>
      { c with pending := c.pending.erase rid }) s rid result error).holds sid uri
      place := by
    unfold settleAnswer at hsettle
    split at hsettle
    · exact hsettle
    · exact holds_same rfl rfl rfl hsettle
  unfold absorbAnswer at habsorb
  split at habsorb
  · exact habsorb
  rename_i route hroute
  split at habsorb
  · refine holds_of_stores ?_ ?_ ?_ habsorb
    · refine holds_absorbRoutedResponse ?_; intro hserver
      cases toString_injective hserver; exact h.unrouted (hk.pendingRoutes ▸ hroute)
    · exact fun hd => hd
    · exact fun hd => hd
  · exact holds_same rfl rfl rfl habsorb

theorem holds_onExit {atTime : ℕ} {reason : String}
    (h : (m.onExit s atTime reason).holds sid uri place) : m.holds sid uri place := by
  unfold onExit at h
  split at h
  · exact h
  have hdrop := holds_dropDocuments (holds_keeps (talks_pushEvent _ s _).toKeeps h)
  exact holds_same rfl rfl rfl hdrop

theorem nextEvent_of_takeEvent {ev : ProcessEvent} {supervisor : ProcessSupervisor}
    (h : ((m.clients.lookup s).bind (·.process)).bind m.supervisor.takeEvent =
      some (ev, supervisor)) : m.nextEvent s = some ev.kind := by
  rw [nextEvent, h]
  rfl

/-- **No message puts anything back** in a place of a forgotten document, but diagnostics
    that another server publishes. -/
theorem holds_handleNext (h : Forgotten m sid uri)
    (hforeign : place.IsDiagnostic → ¬ ForeignPublish sid uri m (.handleNext s))
    (hplace : (m.handleNext s).holds sid uri place) : m.holds sid uri place := by
  unfold handleNext at hplace
  split at hplace
  · exact hplace
  rename_i ev supervisor hev; have hkind := nextEvent_of_takeEvent hev
  have hs := h.keeps (talks_supervisor m supervisor).toKeeps
  refine holds_keeps (talks_supervisor m supervisor).toKeeps ?_
  unfold handleProcessEvent at hplace
  split at hplace
  · exact holds_keeps (keeps_onStarted _ s _ _) hplace
  · rename_i frame hframe; rw [hframe] at hkind
    cases frame with
    | response id result error => exact holds_handleResponse hs hplace
    | request id method params =>
      exact holds_keeps (talks_handleRequest _ s id method params).toKeeps hplace
    | notification method params =>
      have hpush := holds_keeps (talks_pushEvent _ s _).toKeeps hplace
      split at hpush
      · rename_i hmethod
        refine holds_absorbPublishDiagnostics hs ?_ hpush; intro hdiag hne huri
        exact hforeign hdiag ⟨hne, params, huri, hmethod ▸ hkind⟩
      · exact hpush
    | malformed => exact holds_keeps (talks_pushEvent _ s _).toKeeps hplace
    | frameError =>
      have hpush := talks_pushEvent { m with supervisor } s (.protocolError .frameError)
      simp only [dispatchInbound] at hplace
      split at hplace
      · exact holds_keeps hpush.toKeeps hplace
      · exact holds_keeps (hpush.trans (talks_supervisor _ _)).toKeeps hplace
  · exact holds_keeps (talks_pushEvent _ s _).toKeeps hplace
  · exact holds_onExit hplace
  · exact holds_onExit hplace
  · exact holds_onExit hplace

theorem holds_drainCancelledExternals (h : (m.drainCancelledExternals s).holds sid uri place) :
    m.holds sid uri place := by
  have habandon : ∀ (rids : List ℕ) (m : LspManager),
      (m.abandonAll s rids).holds sid uri place → m.holds sid uri place := by
    intro rids
    induction rids with
    | nil => exact fun _ h => h
    | cons rid rids ih =>
      intro m h; have hkept := holds_keeps (m.abandonRequest_keeps s rid) (ih _ h)
      exact holds_same rfl rfl rfl hkept
  have hswept := habandon _ _ h
  exact holds_same rfl rfl rfl hswept

theorem holds_startGeneration {client : LspClient}
    (h : (m.startGeneration s client).2.2.holds sid uri place) : m.holds sid uri place := by
  have hdrop := holds_keeps (startGeneration_talks m s client).1.toKeeps h
  have hdocs : (dropDocuments ({ m with
      pendingRoutes := m.pendingRoutes.retain fun key _ => key.1 ≠ s }.drainExternalCancelled s)
      s).holds sid uri place := holds_same rfl rfl rfl hdrop
  exact holds_same rfl rfl rfl (holds_dropDocuments hdocs)

theorem holds_maybeRestart
    (h : (m.maybeRestart s).holds sid uri place) : m.holds sid uri place := by
  unfold maybeRestart at h
  split at h
  · exact h
  rename_i c _
  split at h
  · split at h
    · set m₁ := m.pushEvent s (.restarting (c.attempt + 1)) with hm₁
      have hk : Keeps m { m₁ with clients := m₁.clients.erase s } :=
        (talks_pushEvent m s _).toKeeps.trans (keeps_clients m₁ _)
      have hstart : ∀ r client m', { m₁ with clients := m₁.clients.erase s }.startGeneration s
          c = (r, client, m') → m'.holds sid uri place → m.holds sid uri place := by
        intro r client m' heq hm'
        have hgen : ({ m₁ with clients := m₁.clients.erase s }.startGeneration s
            c).2.2.holds sid uri place := by rw [heq]; exact hm'
        exact holds_keeps hk (holds_startGeneration hgen)
      simp only at h
      split at h
      · rename_i e client m' heq; have hcrash := holds_keeps (talks_pushEvent _ s _).toKeeps h
        exact hstart _ client m' heq (holds_same rfl rfl rfl hcrash)
      · rename_i client m' heq; exact hstart _ client m' heq (holds_same rfl rfl rfl h)
    · exact h
  · exact h

/-- What happens without the editor asking for anything but that the document be marked
    stale: messages, sweeps and restarts. -/
def Reacts (sid : LspServerId) (uri : String) : Action → Prop
  | .handleNext _ | .drainCancelledExternals _ | .maybeRestart _ => True
  | .markDocumentStale s u => s = sid ∧ u = uri
  | _ => False

/-- Nothing of that puts anything back in a place of a forgotten document. -/
theorem holds_react {a : Action} (h : Forgotten m sid uri) (ha : Reacts sid uri a)
    (hforeign : place.IsDiagnostic → ¬ ForeignPublish sid uri m a)
    (hplace : (m.perform a).2.holds sid uri place) : m.holds sid uri place := by
  cases a with
  | handleNext s => exact holds_handleNext h hforeign hplace
  | drainCancelledExternals s => exact holds_drainCancelledExternals hplace
  | maybeRestart s => exact holds_maybeRestart hplace
  | markDocumentStale s u =>
    obtain ⟨rfl, rfl⟩ := ha; simp only [perform, markDocumentStale, if_pos h.tombstone] at hplace
    exact hplace
  | _ => exact absurd ha id

theorem holds_along {as : List Action} (h : Forgotten m sid uri) (has : ∀ a ∈ as, Reacts sid uri a)
    (halong : Along (fun m a => ¬ Reclaims sid uri m a ∧
      (place.IsDiagnostic → ¬ ForeignPublish sid uri m a)) m as)
    (hplace : (m.performAll as).2.holds sid uri place) : m.holds sid uri place := by
  induction as generalizing m with
  | nil => exact hplace
  | cons a as ih =>
    refine holds_react h (has a mem_cons_self) halong.1.2 ?_
    exact ih (forgotten_perform halong.1.1 h) (fun b hb => has b (mem_cons_of_mem _ hb))
      halong.2 hplace

theorem reacts_tickActions {servers : List LspServerId} :
    ∀ a ∈ m.tickActions servers, Reacts sid uri a := by
  induction servers generalizing m with
  | nil => exact nofun
  | cons s servers ih =>
    intro a ha
    rcases mem_append.1 ha with hsteps | hrest
    · rcases mem_append.1 hsteps with hnext | hend
      · rw [eq_of_mem_replicate hnext]; exact True.intro
      simp only [mem_cons, not_mem_nil, or_false] at hend
      rcases hend with rfl | rfl <;> exact True.intro
    · exact ih a hrest

/-! ## What forgetting drops -/

theorem cancelRequest_spec (m : LspManager) (sid : LspServerId) (rid : ℕ) :
    (m.cancelRequest sid rid).pendingRoutes = m.pendingRoutes.erase (sid, rid) ∧
      (∀ key, (m.cancelRequest sid rid).pendingExternal.lookup key =
        (m.pendingExternal.erase (sid, rid)).lookup key) ∧
      (m.cancelRequest sid rid).stores = m.stores ∧
      (m.cancelRequest sid rid).forgottenDocuments = m.forgottenDocuments ∧
      (m.cancelRequest sid rid).nextServerId = m.nextServerId := by
  unfold cancelRequest
  split
  · rename_i hnone; have hk := m.abandonRequest_keeps sid rid
    refine ⟨hk.pendingRoutes, ?_, hk.stores, hk.forgottenDocuments, hk.nextServerId⟩; intro key
    rw [hk.pendingExternal]
    by_cases hkey : key = (sid, rid)
    · rw [hkey, lookup_erase]; exact hnone
    · rw [lookup_erase_ne hkey]
  rename_i p _
  have hk := abandonRequest_keeps { m with
    pendingExternal := m.pendingExternal.erase (sid, rid)
    runtime := m.runtime.completeAll (p.awaiters.map fun job => (job, .cancelled)) } sid rid
  exact ⟨hk.pendingRoutes, fun key => by rw [hk.pendingExternal], hk.stores,
    hk.forgottenDocuments, hk.nextServerId⟩

/-- What is left after requests of a server were cancelled. -/
structure Cancels (m m' : LspManager) (sid : LspServerId) (rids : List ℕ) : Prop where
  gone : ∀ {rid}, rid ∈ rids → m'.pendingRoutes.lookup (sid, rid) = none
  kept : ∀ {key : LspServerId × ℕ}, (key.1 = sid → key.2 ∉ rids) →
    m'.pendingRoutes.lookup key = m.pendingRoutes.lookup key ∧
      m'.pendingExternal.lookup key = m.pendingExternal.lookup key
  stores : m'.stores = m.stores
  forgottenDocuments : m'.forgottenDocuments = m.forgottenDocuments
  nextServerId : m'.nextServerId = m.nextServerId

theorem cancels_all (m : LspManager) (sid : LspServerId) (rids : List ℕ) :
    Cancels m (rids.foldl (fun m rid => m.cancelRequest sid rid) m) sid rids := by
  induction rids generalizing m with
  | nil => exact ⟨nofun, fun _ => ⟨rfl, rfl⟩, rfl, rfl, rfl⟩
  | cons rid rids ih =>
    obtain ⟨hroutes, hext, hstores, hforgotten, hnext⟩ := m.cancelRequest_spec sid rid
    have hrest := ih (m.cancelRequest sid rid)
    refine ⟨?_, ?_, hrest.stores.trans hstores,
      hrest.forgottenDocuments.trans hforgotten, hrest.nextServerId.trans hnext⟩
    · intro r hr
      by_cases hmem : r ∈ rids
      · exact hrest.gone hmem
      rcases mem_cons.1 hr with rfl | hmem'
      · have hkept : _ = (m.cancelRequest sid r).pendingRoutes.lookup (sid, r) :=
          (hrest.kept fun _ => hmem).1
        rw [foldl_cons, hkept, hroutes]; exact lookup_erase _ _
      · exact absurd hmem' hmem
    intro key hkey
    have hne : key ≠ (sid, rid) := by
      rintro rfl; exact hkey rfl mem_cons_self
    have hkept := hrest.kept fun hs hmem => hkey hs (mem_cons_of_mem _ hmem)
    rw [foldl_cons, hkept.1, hkept.2, hroutes, hext]
    exact ⟨lookup_erase_ne hne, lookup_erase_ne hne⟩

end LspManager

namespace ResultStores

/-- No other server holds tokens or hints of a document. -/
def OnlyServer (s : ResultStores) (server uri : String) : Prop :=
  ∀ server', server' ≠ server → s.tokens.byKey.lookup ⟨server', uri⟩ = none ∧
    s.inlayHints.byKey.lookup ⟨server', uri⟩ = none

theorem lookup_foldl_erase {V : Type*} {families : List ResultFamily} {family : ResultFamily}
    (results : Assoc ResultKey V) (server uri : String)
    (h : family ∈ families ∨ results.lookup ⟨family, server, uri⟩ = none) :
    (families.foldl (fun results family => results.erase ⟨family, server, uri⟩) results).lookup
      ⟨family, server, uri⟩ = none := by
  induction families generalizing results with
  | nil => exact h.resolve_left not_mem_nil
  | cons family' families ih =>
    refine ih _ ?_
    by_cases heq : family = family'
    · rw [heq]; exact .inr (lookup_erase _ _)
    rcases h with hmem | hnone
    · exact .inl ((mem_cons.1 hmem).resolve_left heq)
    · refine .inr ?_; rw [lookup_erase_ne fun hkey => heq (ResultKey.mk.inj hkey).1]; exact hnone

/-- No key of a document is left once the entry of its only server is erased. -/
theorem keys_erase_any {V : Type*} {m : Assoc SemanticTokenKey V}
    (h : ∀ server', server' ≠ server → m.lookup ⟨server', uri⟩ = none) :
    ((m.erase ⟨server, uri⟩).keys.any fun key => decide (key.uri = uri)) = false := by
  rw [List.any_eq_false]
  rintro ⟨server', uri'⟩ hmem huri
  have huri := of_decide_eq_true huri
  subst huri
  have hsome : (m.erase ⟨server, uri'⟩).lookup ⟨server', uri'⟩ ≠ none := by
    rw [ne_none_iff_isSome]; exact lookup_isSome.2 hmem
  by_cases hserver : server' = server
  · rw [hserver] at hsome; exact hsome (lookup_erase _ _)
  refine hsome ?_; rw [lookup_erase_ne fun heq => hserver (SemanticTokenKey.mk.inj heq).1]
  exact h server' hserver

theorem not_holds_forgetUri (s : ResultStores) (server uri : String) (hflag : place.IsStaleFlag →
    s.OnlyServer server uri) : ¬ (s.forgetUri server uri).holds server uri place := by
  have hclear : (s.tokens.clear ⟨server, uri⟩).byKey = s.tokens.byKey.erase ⟨server, uri⟩ := by
    unfold SemanticTokenStore.clear; simp only
    split <;> rfl
  have hclear' : (s.inlayHints.clear ⟨server, uri⟩).byKey =
      s.inlayHints.byKey.erase ⟨server, uri⟩ := by
    unfold InlayHintStore.clear; simp only
    split <;> rfl
  cases place with
  | diagnostics | severityCounts | diagnosticsEpoch | diagnosticsStale =>
    simp [holds, forgetUri, DiagnosticStore.forget]
  | tokens => simp [holds, forgetUri, hclear]
  | inlayHints => simp [holds, forgetUri, hclear']
  | tokensStale =>
    have hany := keys_erase_any fun server' hne => (hflag True.intro server' hne).1
    simp only [holds, forgetUri, SemanticTokenStore.clear]; rw [if_neg (Bool.eq_false_iff.1 hany)]
    simp
  | inlayHintsStale =>
    have hany := keys_erase_any fun server' hne => (hflag True.intro server' hne).2
    simp only [holds, forgetUri, InlayHintStore.clear]; rw [if_neg (Bool.eq_false_iff.1 hany)]; simp
  | result family =>
    rintro ⟨hmem, hsome⟩; have hnone := lookup_foldl_erase s.results server uri (.inl hmem)
    rw [forgetUri, hnone] at hsome; cases hsome
  | document | diskDocument => exact id

end ResultStores

namespace LspManager

/-- What forgetting a document does: it is refused from now on, nothing of it is held, and
    what was asked about anything else is left. -/
theorem forgetUri_forgets (hknown : sid < m.nextServerId) (hok : (m.forgetUri sid uri).1 = .ok ()) :
    Forgotten (m.forgetUri sid uri).2 sid uri ∧
      (∀ {place : Place}, (place.IsStaleFlag → m.stores.OnlyServer (toString sid) uri) →
        ¬ (m.forgetUri sid uri).2.holds sid uri place) ∧ ∀ {key : LspServerId × ℕ},
        (key.1 = sid → ∀ route, m.pendingRoutes.lookup key = some route →
          route.scopedUri ≠ some uri) →
        (m.forgetUri sid uri).2.pendingRoutes.lookup key = m.pendingRoutes.lookup key ∧
          (m.forgetUri sid uri).2.pendingExternal.lookup key = m.pendingExternal.lookup key := by
  unfold forgetUri at hok ⊢
  cases hc : m.clients.lookup sid with
  | none => rw [hc] at hok; cases hok
  | some c =>
    set m₁ : LspManager := { m with forgottenDocuments :=
      if (sid, uri) ∈ m.forgottenDocuments then m.forgottenDocuments
      else (sid, uri) :: m.forgottenDocuments } with hm₁
    have hcancels := cancels_all m₁ sid (m₁.requestsFor sid uri)
    set m₂ := (m₁.requestsFor sid uri).foldl (fun m rid => m.cancelRequest sid rid) m₁
    refine ⟨⟨?_, ?_, ?_⟩, ?_, ?_⟩
    · rw [hcancels.nextServerId]; exact hknown
    · rw [hcancels.forgottenDocuments, hm₁]
      split
      · rename_i hmem; exact hmem
      · exact mem_cons_self
    · intro rid route hr huri
      by_cases hrid : rid ∈ m₁.requestsFor sid uri
      · rw [hcancels.gone hrid] at hr; cases hr
      · rw [(hcancels.kept fun _ => hrid).1] at hr; exact hrid (mem_requestsFor.2 ⟨route, hr, huri⟩)
    · intro place hflag hplace
      have hflag' : place.IsStaleFlag → m₂.stores.OnlyServer (toString sid) uri := by
        rw [hcancels.stores]; exact hflag
      have hstores := m₂.stores.not_holds_forgetUri (toString sid) uri hflag'
      cases place with
      | document | diskDocument => simp [holds] at hplace
      | _ => exact hstores hplace
    intro key hkey
    refine hcancels.kept ?_; intro hs hmem; obtain ⟨route, hr, huri⟩ := mem_requestsFor.1 hmem
    have hkey' : key = (sid, key.2) := by rw [← hs]
    exact hkey hs route (hkey' ▸ hr) huri

theorem known_of_forgetUri (h : Joined m)
    (hok : (m.forgetUri sid uri).1 = .ok ()) : sid < m.nextServerId := by
  unfold forgetUri at hok
  split at hok
  · cases hok
  · rename_i c hc; exact h.known (tableOf_of_lookup hc)

/-- **A forgotten document stays forgotten.** Forgetting a document leaves the routes and
    jobs of everything else. From then on, until the editor asks for the document again or
    its server is restarted or forgotten, no message, sweep, restart or pass over the
    servers puts anything in a place that is empty; diagnostics, which are not kept by
    server, only come from another server that publishes them. -/
theorem forgotten_stays {readsEmpty : ResultFamily → Value → Bool} {m₀ : LspManager}
    {trace : List (Action × Outcome)} {sid : LspServerId} {uri : String}
    (h : Run (new readsEmpty) trace m₀) (hok : (m₀.forgetUri sid uri).1 = .ok ()) :
    (∀ {key : LspServerId × ℕ},
      (key.1 = sid → ∀ route, m₀.pendingRoutes.lookup key = some route →
        route.scopedUri ≠ some uri) →
      (m₀.forgetUri sid uri).2.pendingRoutes.lookup key = m₀.pendingRoutes.lookup key ∧
        (m₀.forgetUri sid uri).2.pendingExternal.lookup key =
          m₀.pendingExternal.lookup key) ∧
      (∀ place : Place, (place.IsStaleFlag → m₀.stores.OnlyServer (toString sid) uri) →
        ¬ (m₀.forgetUri sid uri).2.holds sid uri place) ∧
      ∀ as : List Action, Along (fun m a => ¬ Reclaims sid uri m a) (m₀.forgetUri sid uri).2 as →
        let m := ((m₀.forgetUri sid uri).2.performAll as).2
        ∀ place : Place, ¬ m.holds sid uri place →
          (∀ a, Reacts sid uri a → (place.IsDiagnostic → ¬ ForeignPublish sid uri m a) →
            ¬ (m.perform a).2.holds sid uri place) ∧
          ∀ servers, Along (fun m a => ¬ Reclaims sid uri m a ∧
              (place.IsDiagnostic → ¬ ForeignPublish sid uri m a)) m (m.tickActions servers) →
            ¬ (m.tick servers).holds sid uri place := by
  have hknown := known_of_forgetUri (accounted_run h).1 hok
  obtain ⟨hforgotten, hempty, hothers⟩ := forgetUri_forgets hknown hok
  refine ⟨hothers, fun _ => hempty, ?_⟩
  intro as halong m place hplace
  have hm : Forgotten m sid uri := halong.inv (fun _ _ => forgotten_perform) hforgotten
  constructor
  · intro a ha hforeign hafter; exact hplace (holds_react hm ha hforeign hafter)
  intro servers htick hafter; rw [← performAll_tickActions] at hafter
  exact hplace (holds_along hm reacts_tickActions htick hafter)

/-- A server that goes on publishing diagnostics of a document it was made to forget. -/
theorem forgotten_stays_published :
    let m := (((new fun _ _ => false).performAll
      (greeted ++ [.didOpen 1 "a" 0 ['x']])).2.forgetUri 1 "a").2
    let publish : Action := .report 1 ⟨.stdout (.notification "textDocument/publishDiagnostics"
      (.object [("uri", .string "a"), ("diagnostics", .array [])])), 0⟩
    ¬ ((m.perform publish).2.handleNext 1).holds 1 "a" .diagnosticsEpoch := by
  intro m publish
  have h := @forgotten_stays _ _ _ 1 "a" (run_performAll (new fun _ _ => false)
    (greeted ++ [.didOpen 1 "a" 0 ['x']])) (by decide +kernel)
  have hempty : ¬ (m.perform publish).2.holds 1 "a" .diagnosticsEpoch := by
    show ¬ (((m.perform publish).2.stores.diagnostics.epochs.lookup "a").isSome = true)
    decide +kernel
  have hpublish := h.2.2 [publish] ⟨id, True.intro⟩ .diagnosticsEpoch hempty
  refine hpublish.1 (.handleNext 1) True.intro ?_
  rintro _ ⟨hne, _⟩
  exact hne rfl

end LspManager

end Pmacs
