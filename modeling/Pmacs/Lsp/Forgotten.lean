/-
  A document that a language server was made to forget.

  * `holds`: what the manager holds of a document of a server, in each of its places;
  * `holds_absorbRoutedResponse`: an answer about something else puts nothing there;
  * `Forgotten`: the document is refused, and no request of the server is about it;
    `forgotten_perform` keeps it until the editor asks for the document again.
-/
import Pmacs.Lib.Integers
import Pmacs.Lsp.AwaitersRun

namespace Pmacs

open Lib AList List Option SemanticTokensResponse

/-! ## Places -/

/-- Where something may be held of a document of a server. -/
inductive Place where
  | diagnostics
  | severityCounts
  | diagnosticsEpoch
  | diagnosticsStale
  | tokens
  | tokensStale
  | inlayHints
  | inlayHintsStale
  | result (family : ResultFamily)
  | document
  | diskDocument

namespace Place

def IsDiagnostic : Place → Prop
  | .diagnostics | .severityCounts | .diagnosticsEpoch | .diagnosticsStale => True
  | _ => False

/-- The flags of a document that no server owns. -/
def IsStaleFlag : Place → Prop
  | .tokensStale | .inlayHintsStale => True
  | _ => False

end Place

def ResultStores.holds (s : ResultStores) (server uri : String) : Place → Prop
  | .diagnostics => (s.diagnostics.byUri.lookup uri).isSome
  | .severityCounts => (s.diagnostics.severityCounts.lookup uri).isSome
  | .diagnosticsEpoch => (s.diagnostics.epochs.lookup uri).isSome
  | .diagnosticsStale => uri ∈ s.diagnostics.staleUris
  | .tokens => (s.tokens.byKey.lookup ⟨server, uri⟩).isSome
  | .tokensStale => uri ∈ s.tokens.staleUris
  | .inlayHints => (s.inlayHints.byKey.lookup ⟨server, uri⟩).isSome
  | .inlayHintsStale => uri ∈ s.inlayHints.staleUris
  | .result family => family ∈ documentFamilies ∧ (s.results.lookup ⟨family, server, uri⟩).isSome
  | .document | .diskDocument => False

namespace LspManager

variable {m : LspManager} {sid : LspServerId} {place : Place} {server uri : String}

def holds (m : LspManager) (sid : LspServerId) (uri : String) : Place → Prop
  | .document => (m.documents.lookup (sid, uri)).isSome
  | .diskDocument => (m.diskDocuments.lookup (sid, uri)).isSome
  | place => m.stores.holds (toString sid) uri place

theorem holds_of_stores {m' : LspManager}
    (hstores : m'.stores.holds (toString sid) uri place → m.stores.holds (toString sid) uri place)
    (hdocs : (m'.documents.lookup (sid, uri)).isSome → (m.documents.lookup (sid, uri)).isSome)
    (hdisk : (m'.diskDocuments.lookup (sid, uri)).isSome →
      (m.diskDocuments.lookup (sid, uri)).isSome)
    (h : m'.holds sid uri place) : m.holds sid uri place := by
  cases place with
  | document => exact hdocs h
  | diskDocument => exact hdisk h
  | _ => exact hstores h

theorem holds_keeps {m' : LspManager} (hk : Keeps m m') (h : m'.holds sid uri place) :
    m.holds sid uri place :=
  holds_of_stores (fun hs => hk.stores ▸ hs) (fun hd => hk.documents ▸ hd)
    (fun hd => hk.diskDocuments ▸ hd) h

theorem isSome_of_retain {K V : Type*} [DecidableEq K] {p : K → V → Bool} {m : Assoc K V} {k : K}
    (h : ((m.retain p).lookup k).isSome) : (m.lookup k).isSome := by
  obtain ⟨v, hv⟩ := isSome_iff_exists.1 h
  rw [Assoc.lookup_retain, filter_eq_some_iff] at hv
  rw [hv.1]
  rfl

theorem holds_dropDocuments {s : LspServerId}
    (h : (m.dropDocuments s).holds sid uri place) : m.holds sid uri place := by
  refine holds_of_stores ?_ ?_ ?_ h
  · exact id
  · exact isSome_of_retain
  · exact isSome_of_retain

end LspManager

/-! ## Answers about something else -/

namespace SemanticTokenStore

variable (s : SemanticTokenStore)
include s

variable {key key' : SemanticTokenKey}

theorem set_spares (h : key' ≠ key)
    (response : SemanticTokensResponse) (text : List Char) (enc : PositionEncoding) (baseSeq : ℕ) :
    (s.set key response text enc baseSeq).2.byKey.lookup key' = s.byKey.lookup key' ∧
      ∀ u ∈ (s.set key response text enc baseSeq).2.staleUris, u ∈ s.staleUris := by
  unfold set
  split
  · exact ⟨rfl, fun _ hu => hu⟩
  split
  · exact ⟨lookup_insert_ne h, fun _ hu => (mem_filter.1 hu).1⟩
  split
  · exact ⟨lookup_insert_ne h, fun _ hu => (mem_filter.1 hu).1⟩
  · exact ⟨lookup_insert_ne h, fun _ hu => (mem_filter.1 hu).1⟩

theorem setRange_spares (h : key' ≠ key)
    (response : SemanticTokensResponse) (text : List Char) (enc : PositionEncoding) (baseSeq : ℕ)
    (range : (ℕ × ℕ) × (ℕ × ℕ)) :
    (s.setRange key response text enc baseSeq range).2.byKey.lookup key' = s.byKey.lookup key' ∧
      ∀ u ∈ (s.setRange key response text enc baseSeq range).2.staleUris, u ∈ s.staleUris := by
  unfold setRange
  split
  · exact ⟨rfl, fun _ hu => hu⟩
  · exact ⟨lookup_insert_ne h, fun _ hu => (mem_filter.1 hu).1⟩

theorem noteCompletionBase_spares (uri : String) (base : ℕ) :
    (s.noteCompletionBase uri base).byKey = s.byKey ∧
      (s.noteCompletionBase uri base).staleUris = s.staleUris := by
  unfold noteCompletionBase modifyLog
  split <;> exact ⟨rfl, rfl⟩

end SemanticTokenStore

namespace ResultStores

theorem holds_setResult {s : ResultStores} {key : ResultKey} {answer : Value}
    (hkey : ∀ family ∈ documentFamilies, (⟨family, server, uri⟩ : ResultKey) ≠ key)
    (h : (s.setResult key answer).holds server uri place) : s.holds server uri place := by
  unfold setResult at h
  split at h
  · cases place with
    | result family => exact ⟨h.1, lookup_erase_ne (hkey family h.1) ▸ h.2⟩
    | _ => exact h
  cases place with
  | result family => exact ⟨h.1, lookup_insert_ne (hkey family h.1) ▸ h.2⟩
  | _ => exact h

theorem setResult_tokens (s : ResultStores) (key : ResultKey) (answer : Value) :
    (s.setResult key answer).tokens = s.tokens := by
  unfold setResult
  split <;> rfl

theorem holds_tokens {s : ResultStores} {tokens : SemanticTokenStore}
    (hkey : tokens.byKey.lookup ⟨server, uri⟩ = s.tokens.byKey.lookup ⟨server, uri⟩)
    (hstale : uri ∈ tokens.staleUris → uri ∈ s.tokens.staleUris)
    (h : ({ s with tokens } : ResultStores).holds server uri place) :
    s.holds server uri place := by
  cases place with
  | tokens =>
    show (s.tokens.byKey.lookup ⟨server, uri⟩).isSome
    exact hkey ▸ h
  | tokensStale => exact hstale h
  | _ => exact h

/-- An answer of another server, or about another document, puts nothing into a place. -/
theorem holds_absorbRoutedResponse {s : ResultStores} {ctx : AnswerContext} {route : ResponseRoute}
    {raw : Value} (hother : ctx.server = server → route.scopedUri ≠ some uri)
    (h : (s.absorbRoutedResponse ctx route raw).holds server uri place) :
    s.holds server uri place := by
  have hkey : ∀ {u}, route.scopedUri = some u →
      (⟨server, uri⟩ : SemanticTokenKey) ≠ ⟨ctx.server, u⟩ := by
    intro u hu heq; obtain ⟨hserver, rfl⟩ := SemanticTokenKey.mk.inj heq
    exact hother hserver.symm hu
  have hresult : ∀ {u}, route.scopedUri = some u → ∀ family₀, ∀ family ∈ documentFamilies,
      (⟨family, server, uri⟩ : ResultKey) ≠ ⟨family₀, ctx.server, u⟩ := by
    intro u hu family₀ family _ heq; obtain ⟨_, hserver, rfl⟩ := ResultKey.mk.inj heq
    exact hother hserver.symm hu
  cases route with
  | completion u anchor baseSeq =>
    obtain ⟨hbyKey, hstale⟩ := s.tokens.noteCompletionBase_spares u baseSeq
    refine holds_setResult (hresult rfl _) (holds_tokens ?_ ?_ h)
    · rw [hbyKey, setResult_tokens]
    · rw [hstale, setResult_tokens]; exact id
  | workspaceSymbol query =>
    refine holds_setResult ?_ h; intro family hmem heq
    exact (mem_documentFamilies family).1 hmem (ResultKey.mk.inj heq).1
  | inlayHint u anchor baseSeq =>
    cases place with
    | inlayHints =>
      show (s.inlayHints.byKey.lookup ⟨server, uri⟩).isSome
      exact lookup_insert_ne (hkey rfl) ▸ h
    | inlayHintsStale => exact (mem_filter.1 h).1
    | _ => exact h
  | semanticTokens u anchor baseSeq lines =>
    cases lines with
    | none =>
      have hset := s.tokens.set_spares (hkey rfl)
        (fromLspValue (ctx.inboundConverted raw)) anchor ctx.enc baseSeq
      exact holds_tokens hset.1 (hset.2 uri) h
    | some lines =>
      have hset := s.tokens.setRange_spares (hkey rfl)
        (fromLspValue (ctx.inboundConverted raw)) anchor ctx.enc baseSeq
        lines
      exact holds_tokens hset.1 (hset.2 uri) h
  | semanticTokensDelta u anchor baseSeq =>
    have hset := s.tokens.set_spares (hkey rfl)
      (applyDelta (s.rawAt ⟨ctx.server, u⟩) (ctx.inboundConverted raw))
      anchor ctx.enc baseSeq
    exact holds_tokens hset.1 (hset.2 uri) h
  | _ => exact holds_setResult (hresult rfl _) h

end ResultStores

namespace LspManager

/-! ## While a document is forgotten -/

/-- What a server says of a document unasked is refused, and nothing was asked of it. -/
structure Forgotten (m : LspManager) (sid : LspServerId) (uri : String) : Prop where
  known : sid < m.nextServerId
  tombstone : (sid, uri) ∈ m.forgottenDocuments
  unrouted : ∀ {rid route}, m.pendingRoutes.lookup (sid, rid) = some route →
    route.scopedUri ≠ some uri

/-- Whether a server is to be restarted now. -/
def IsRestartDue (m : LspManager) (sid : LspServerId) : Prop :=
  ∃ c reason ended due, m.clients.lookup sid = some c ∧ c.state = .crashed reason ended ∧
    c.nextRestartAt = some due ∧ due ≤ m.now

/-- A step that ends the time for which a document is forgotten: the editor opens it or
    asks about it again, or its server is restarted or forgotten. -/
def Reclaims (sid : LspServerId) (uri : String) (m : LspManager) : Action → Prop
  | .didOpen s u _ _ => s = sid ∧ u = uri
  | .request s request =>
    s = sid ∧ ∃ route, (m.ask s request).route = some route ∧ route.scopedUri = some uri
  | .maybeRestart s => s = sid ∧ m.IsRestartDue sid
  | .forget s => s = sid
  | _ => False

section
variable {m m' : LspManager} {sid s : LspServerId} {uri : String}

theorem Forgotten.mono (h : Forgotten m sid uri) (hnext : m.nextServerId ≤ m'.nextServerId)
    (htomb : (sid, uri) ∈ m.forgottenDocuments → (sid, uri) ∈ m'.forgottenDocuments)
    (hroutes : ∀ {rid route}, m'.pendingRoutes.lookup (sid, rid) = some route →
      m.pendingRoutes.lookup (sid, rid) = some route) : Forgotten m' sid uri :=
  ⟨lt_of_lt_of_le h.known hnext, htomb h.tombstone, fun hr => h.unrouted (hroutes hr)⟩

theorem Forgotten.keeps (h : Forgotten m sid uri) (hk : Keeps m m') : Forgotten m' sid uri :=
  h.mono (le_of_eq hk.nextServerId.symm) (fun hm => hk.forgottenDocuments ▸ hm)
    fun hr => hk.pendingRoutes ▸ hr

theorem Forgotten.dropGeneration (h : Forgotten m sid uri) (hs : s ≠ sid) :
    Forgotten (m.dropGeneration s) sid uri :=
  h.mono le_rfl
    (fun hm => mem_filter.2 ⟨hm, by simpa using hs.symm⟩)
    fun hr => (dropGeneration_routes m s hr).1

theorem Forgotten.abandonRequest (h : Forgotten m sid uri) (s : LspServerId) (rid : ℕ) :
    Forgotten (m.abandonRequest s rid) sid uri := by
  have hk := m.abandonRequest_keeps s rid
  refine h.mono (le_of_eq hk.nextServerId.symm) (fun hm => hk.forgottenDocuments ▸ hm) ?_
  intro rid' route hr
  rw [hk.pendingRoutes] at hr
  exact (lookup_of_erase hr).1

end

/-- What is dropped with a server that does not own the document. -/
theorem Forgotten.startGeneration {s : LspServerId} (h : Forgotten m sid uri) (hs : s ≠ sid)
    (client : LspClient) : Forgotten (m.startGeneration s client).2.2 sid uri :=
  (h.dropGeneration hs).keeps (startGeneration_talks m s client).1.toKeeps

section
variable (h : Forgotten m sid uri)
include h

theorem forgotten_spawn (spec : LspServerSpec) : Forgotten (m.spawn spec).2 sid uri := by
  have hnew : Forgotten { m with nextServerId := m.nextServerId + 1 } sid uri :=
    h.mono (Nat.le_succ _) id id
  have hstart := hnew.startGeneration (ne_of_gt h.known) (.new spec)
  unfold spawn
  simp only
  split
  · rename_i e client m' heq; rwa [heq] at hstart
  · rename_i client m' heq; rw [heq] at hstart; exact hstart.keeps (keeps_clients m' _)

theorem forgotten_maybeRestart {s : LspServerId} (hs : s = sid → ¬ m.IsRestartDue sid) :
    Forgotten (m.maybeRestart s) sid uri := by
  unfold maybeRestart
  split
  · exact h
  rename_i c hc
  split
  · rename_i reason ended due hstate hat
    split
    · rename_i hdue
      have hne : s ≠ sid := by
        rintro rfl; exact hs rfl ⟨c, reason, ended, due, hc, hstate, hat, hdue⟩
      have hpush := h.keeps (talks_pushEvent m s (.restarting (c.attempt + 1))).toKeeps
      have hstart := (hpush.keeps (keeps_clients _
        ((m.pushEvent s (.restarting (c.attempt + 1))).clients.erase s))).startGeneration hne c
      simp only
      split
      · rename_i e client m' heq; rw [heq] at hstart
        exact (hstart.keeps (keeps_clients m' _)).keeps (talks_pushEvent _ s _).toKeeps
      · rename_i client m' heq; rw [heq] at hstart; exact hstart.keeps (keeps_clients m' _)
    · exact h
  · exact h

theorem forgotten_drainCancelledExternals {s : LspServerId} :
    Forgotten (m.drainCancelledExternals s) sid uri := by
  have habandon : ∀ (rids : List ℕ) (m : LspManager), Forgotten m sid uri →
      Forgotten (m.abandonAll s rids) sid uri := by
    intro rids
    induction rids with
    | nil => exact fun _ h => h
    | cons rid rids ih => exact fun m h => ih _ (h.abandonRequest s rid)
  exact habandon _ _ (h.mono le_rfl id id)

theorem forgotten_cancelRequest {s : LspServerId} {rid : ℕ} :
    Forgotten (m.cancelRequest s rid) sid uri := by
  unfold cancelRequest
  split
  · exact h.abandonRequest s rid
  · refine Forgotten.abandonRequest ?_ s rid; exact h.mono le_rfl id id

theorem forgotten_forgetUri {s : LspServerId} {u : String} :
    Forgotten (m.forgetUri s u).2 sid uri := by
  unfold forgetUri
  split
  · exact h
  have hcancel : ∀ (rids : List ℕ) (m : LspManager), Forgotten m sid uri →
      Forgotten (rids.foldl (fun m rid => m.cancelRequest s rid) m) sid uri := by
    intro rids
    induction rids with
    | nil => exact fun _ h => h
    | cons rid rids ih => exact fun m h => ih _ (forgotten_cancelRequest h)
  refine Forgotten.mono (hcancel _ { m with forgottenDocuments :=
    if (s, u) ∈ m.forgottenDocuments then m.forgottenDocuments
    else (s, u) :: m.forgottenDocuments } (h.mono le_rfl ?_ id)) le_rfl id id
  intro hm
  split
  · exact hm
  · exact mem_cons_of_mem _ hm

theorem forgotten_request {s : LspServerId} {ask : Ask}
    (hask : s = sid → ∀ route, ask.route = some route → route.scopedUri ≠ some uri) :
    Forgotten (m.request s ask).2 sid uri := by
  have hsend := h.keeps (keeps_sendRequest m s ask.method ask.params)
  unfold request
  split
  · rename_i e m' heq; rwa [heq] at hsend
  rename_i rid m' heq; rw [heq] at hsend; simp only
  cases hroute : ask.route with
  | none => exact hsend.mono le_rfl id id
  | some route =>
    refine ⟨hsend.known, hsend.tombstone, ?_⟩; intro rid' route' hr
    by_cases hkey : (sid, rid') = (s, rid)
    · rw [addRoute, hkey, lookup_insert] at hr; cases hr
      exact hask (Prod.mk.inj hkey).1.symm route hroute
    · rw [addRoute, lookup_insert_ne hkey] at hr; exact hsend.unrouted hr

theorem forgotten_handleResponse {s : LspServerId} (id : Value) (result : Option Value)
    (error : Option LspError) : Forgotten (m.handleResponse s id result error) sid uri := by
  unfold handleResponse
  split
  · exact h.keeps (talks_pushEvent m s _).toKeeps
  rename_i rid _
  split
  · exact h
  split
  · exact h.keeps (keeps_modifyClient m s _)
  have hk := h.keeps (keeps_modifyClient m s fun c => { c with pending := c.pending.erase rid })
  unfold handleAnswer
  split
  · exact hk.keeps (talks_pushEvent _ s _).toKeeps
  split
  · exact hk.keeps (talks_initializeAnswered _ s _).toKeeps
  split
  · exact hk.keeps (talks_shutdownAnswered _ s).toKeeps
  refine Forgotten.keeps ?_ (talks_pushEvent _ s _).toKeeps
  have habsorb : Forgotten (absorbAnswer (m.modifyClient s fun c =>
      { c with pending := c.pending.erase rid }) s rid result error) sid uri := by
    unfold absorbAnswer
    split
    · exact hk
    · split <;> exact hk.mono le_rfl (fun hm => hm) fun hr => (lookup_of_erase hr).1
  unfold settleAnswer
  split
  · exact habsorb
  · exact habsorb.mono le_rfl (fun hm => hm) fun hr => hr

theorem forgotten_dispatchInbound {s : LspServerId} (frame : Inbound) :
    Forgotten (m.dispatchInbound s frame) sid uri := by
  cases frame with
  | response id result error => exact forgotten_handleResponse h id result error
  | request id method params => exact h.keeps (talks_handleRequest m s id method params).toKeeps
  | notification method params =>
    have habsorb : Forgotten (m.absorbPublishDiagnostics s params) sid uri := by
      unfold absorbPublishDiagnostics
      split
      · exact h
      split
      · exact h
      split
      · exact h
      · exact h.mono le_rfl id id
    simp only [dispatchInbound, handleNotification]
    split
    · exact habsorb.keeps (talks_pushEvent _ s _).toKeeps
    · exact h.keeps (talks_pushEvent _ s _).toKeeps
  | malformed => exact h.keeps (talks_pushEvent m s _).toKeeps
  | frameError =>
    have hpush := h.keeps (talks_pushEvent m s (.protocolError .frameError)).toKeeps
    simp only [dispatchInbound]
    split
    · exact hpush
    · exact hpush.keeps (talks_supervisor _ _).toKeeps

theorem forgotten_onExit {s : LspServerId} (atTime : ℕ) (reason : String) :
    Forgotten (m.onExit s atTime reason) sid uri := by
  unfold onExit
  split
  · exact h
  · refine Forgotten.keeps ?_ (talks_pushEvent _ s _).toKeeps; exact h.mono le_rfl id id

theorem forgotten_handleNext {s : LspServerId} : Forgotten (m.handleNext s) sid uri := by
  unfold handleNext
  split
  · exact h
  rename_i ev supervisor _; have hs := h.keeps (talks_supervisor m supervisor).toKeeps
  unfold handleProcessEvent
  split
  · exact hs.keeps (keeps_onStarted _ s _ _)
  · exact forgotten_dispatchInbound hs _
  · exact hs.keeps (talks_pushEvent _ s _).toKeeps
  · exact forgotten_onExit hs _ _
  · exact forgotten_onExit hs _ _
  · exact forgotten_onExit hs _ _

theorem Forgotten.notify (s : LspServerId) (method : String) (params : Value) :
    Forgotten (m.sendNotification s method params).2 sid uri :=
  h.keeps (talks_sendNotification m s method params).toKeeps

end

theorem Forgotten.stores (h : Forgotten m sid uri) (stores : ResultStores) :
    Forgotten { m with stores } sid uri := h.mono le_rfl id id

section
variable (h : Forgotten m sid uri)
include h

theorem forgotten_markDocumentStale (s : LspServerId) (u : String) :
    Forgotten (m.markDocumentStale s u) sid uri := by
  unfold markDocumentStale
  split
  · exact h
  · exact h.stores _

theorem forgotten_didOpen {s : LspServerId} {u : String} (hne : ¬ (s = sid ∧ u = uri)) (version : ℤ) (text : List Char) :
    Forgotten (m.didOpen s u version text).2 sid uri := by
  unfold didOpen
  split
  · exact h
  refine Forgotten.notify ?_ s _ _
  refine h.mono le_rfl ?_ id; intro hm
  refine mem_filter.2 ⟨hm, decide_eq_true ?_⟩; rintro heq
  exact hne ⟨(Prod.mk.inj heq).1.symm, (Prod.mk.inj heq).2.symm⟩

theorem forgotten_didChangeIncremental (s : LspServerId) (u : String) (version : ℤ) (bufferLen : ℕ) :
    Forgotten (m.didChangeIncremental s u version bufferLen).2 sid uri := by
  unfold didChangeIncremental
  split
  · split
    · split
      · exact h
      split
      · exact h
      split
      · refine Forgotten.notify (forgotten_markDocumentStale ?_ s u) s _ _
        exact h.mono le_rfl id id
      · exact h
    · exact h
  · exact h

end

/-- **A document stays forgotten** until a step ends it. -/
theorem forgotten_perform {a : Action} (ha : ¬ Reclaims sid uri m a) (h : Forgotten m sid uri) :
    Forgotten (m.perform a).2 sid uri := by
  cases a with
  | spawn spec => exact forgotten_spawn h spec
  | stop s => exact h.keeps (keeps_stop m s)
  | forget s =>
    show Forgotten (m.forget s).2 sid uri
    unfold forget
    split
    · exact h
    split
    · exact Forgotten.dropGeneration (h.mono le_rfl id id) ha
    · exact h
  | forgetUri s u => exact forgotten_forgetUri h
  | sendRequest s method params => exact h.keeps (keeps_sendRequest m s method params)
  | request s request =>
    refine forgotten_request h ?_; intro hs route hroute huri; exact ha ⟨hs, route, hroute, huri⟩
  | sendNotification s method params => exact h.notify s method params
  | sendResponse s id result => exact h.keeps (talks_sendResponse m s id result).toKeeps
  | didOpen s u version text => exact forgotten_didOpen h ha version text
  | didChangeFull s u version text =>
    refine Forgotten.notify (forgotten_markDocumentStale ?_ s u) s _ _
    exact h.mono le_rfl id id
  | didChangeIncremental s u version bufferLen =>
    exact forgotten_didChangeIncremental h s u version bufferLen
  | didSave s u text =>
    have hanchor : Forgotten (m.noteDiskAnchor s u text) sid uri := h.mono le_rfl id id
    simp only [perform, attempt, didSave]
    split
    · exact hanchor
    · exact hanchor.notify s _ _
  | resendDidSave s u =>
    simp only [perform, attempt, resendDidSave]
    split
    · exact h.notify s _ _
    · exact h
  | documentOffDisk | takeEvents | setRequestTimeout | cancelJob | tickRuntime | takeResult
  | allocateJob | elapse =>
    exact h.mono le_rfl id id
  | didClose s u => refine Forgotten.notify ?_ s _ _; exact h.mono le_rfl id id
  | markDocumentStale s u => exact forgotten_markDocumentStale h s u
  | recordEdit | noteRecorder => exact h.stores _
  | handleNext s => exact forgotten_handleNext h
  | drainCancelledExternals s => exact forgotten_drainCancelledExternals h
  | maybeRestart s => exact forgotten_maybeRestart h fun hs hdue => ha ⟨hs, hdue⟩
  | report | refuseWrites | failSpawns => exact h.keeps (talks_supervisor m _).toKeeps

end LspManager

end Pmacs
