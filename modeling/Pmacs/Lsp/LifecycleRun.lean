/-
  The lifecycle of a language server's client over a run of the registry.

  * `notices` are the notifications that a step issues to a server, `tells` all that it notifies
    it of itself once the handshake is over; `Orderly` the steps that keep a server's lifecycle;
  * `lifecycle_kept`: so what `Life.Inv` and `Life.Ending` say holds over a run of them, and
    `lifecycle_not_kept` is a run of other steps over which it does not.
-/
import Pmacs.Lsp.LifecycleMoves

namespace Pmacs

open Lib AList List Option Life LspClientState

namespace LspManager

variable {a : Action} {early : List (String × Value)} {c : LspClient} {m m₁ : LspManager}
  {s : LspServerId}

/-! ## Steps that keep a lifecycle -/

def notices (m : LspManager) (sid : LspServerId) : Action → List (String × Value)
  | .sendNotification s method params => if s = sid then [(method, params)] else []
  | .didOpen s uri version text =>
    if s = sid then
      ((m.clients.lookup s).map fun c =>
        ("textDocument/didOpen", openParams c.spec.languageId uri version text)).toList
    else []
  | .didChangeFull s uri version text =>
    if s = sid then
      [("textDocument/didChange", changeParams uri version [.object [("text", .text text)]])]
    else []
  | .didClose s uri => if s = sid then [("textDocument/didClose", closeParams uri)] else []
  | _ => []

def exitNotice : Frame := .notification "exit" .null

def saveNotice (uri : String) (text : List Char) (includeText : Bool) : Frame :=
  .notification "textDocument/didSave" (.object (("textDocument", .object [("uri", .string uri)]) ::
    if includeText then [("text", .text text)] else []))

/-- What a step itself notifies a server of once its handshake is over, at most. -/
def tells (m : LspManager) (sid : LspServerId) : Action → List Frame
  | .didChangeIncremental s uri version _ =>
    if s = sid then ((do
      let held ← m.documents.lookup (s, uri)
      let edits ← m.stores.tokens.unsyncedEdits uri
      let changes ← rangedChanges held (m.positionEncoding s) edits
      return Frame.notification "textDocument/didChange" (changeParams uri version changes.1)) :
        Option Frame).toList
    else []
  | .didSave s uri text =>
    if s = sid then (((m.capabilities s).bind saveIncludeText).map (saveNotice uri text)).toList
    else []
  | .resendDidSave s uri =>
    if s = sid then ((do
      let includeText ← (m.capabilities s).bind saveIncludeText
      let disk ← m.diskDocuments.lookup (s, uri)
      return saveNotice uri disk.1 includeText) : Option Frame).toList
    else []
  | .forgetUri s uri => if s = sid then (m.requestsFor s uri).map cancelNotice else []
  | .drainCancelledExternals s =>
    if s = sid then (((m.requestsOf s).filter fun r => (m.leftBySweep r.2).awaiters.isEmpty).map
      (·.1)).map cancelNotice
    else []
  | .handleNext s => if s = sid then [exitNotice] else []
  | a => (m.notices sid a).map Frame.ofNotice

/-- The answer to the handshake of a client comes before the handshake is over, is no error,
    and its process takes what it is then told. -/
structure GreetsInTime (sup : ProcessSupervisor) (c : LspClient) (error : Option LspError) :
    Prop where
  error : error = none
  before : c.state.isBeforeHandshake = true
  accepts : ∀ {pid}, c.process = some pid → sup.Accepts pid
    (Frame.greeting c.spec.settings ++ c.deferredNotifications.map Frame.ofNotice)

/-- The steps that keep the lifecycle of a server: the start of its process is read before
    it is stopped, the answer to its handshake in time, and it is not notified of anything
    when it was stopped before its handshake. -/
structure Orderly (sid : LspServerId) (m : LspManager) (a : Action) : Prop where
  started : a = .handleNext sid → ∀ {c pid}, m.clients.lookup sid = some c →
    m.nextEvent sid = some (.started pid) → c.state = .starting
  answered : a = .handleNext sid → ∀ {c id result error rid}, m.clients.lookup sid = some c →
    m.nextEvent sid = some (.stdout (.response id result error)) → id.asU64 = some rid →
    rid ∉ c.cancelledRids → c.pending.lookup rid = some "initialize" →
    GreetsInTime m.supervisor c error
  notified : m.notices sid a ≠ [] → ∀ {c}, m.clients.lookup sid = some c →
    c.state.isShuttingDown = true → (c.life m.supervisor).Told

/-! ## Events of a process -/

/-- What a step was, as far as a server's lifecycle goes. -/
def Greets (e : Life.Event) (kind : ProcessEventKind) : Prop :=
  ∀ {rid}, e = .greeted rid →
    ∃ id result, kind = .stdout (.response id result none) ∧ id.asU64 = some rid

variable {fs late : List Frame}

theorem step_of_talks {m' : LspManager} (h : Speaks Silent s m m') :
    Step (m.life s) (.issued []) fs (m'.life s) := by
  have hown := h.own
  generalize m.life s = o, m'.life s = o' at hown
  cases hown with
  | none => exact .absent
  | some ht => exact .talks ht fun _ => rfl

theorem step_of_tells {m' : LspManager} (h : Speaks fs s m m')
    (htold : ∀ {l}, m.life s = some l →
      l.state.isBeforeHandshake = false ∧ (l.state.isShuttingDown = true → l.Told))
    (ns : List (String × Value)) : Step (m.life s) (.issued ns) fs (m'.life s) := by
  have hown := h.own
  generalize m.life s = o, m'.life s = o' at hown htold
  cases hown with
  | none => exact .absent
  | some ht => exact .tells ht (htold rfl).1 (htold rfl).2

theorem life_step_handleResponse (hc : m.clients.lookup s = some c)
    (hlive : c.process.isSome = true) (hinv : (c.life m.supervisor).Inv early late) {id : Value}
    {result : Option Value} {error : Option LspError}
    (hanswer : ∀ {rid}, id.asU64 = some rid → rid ∉ c.cancelledRids →
      c.pending.lookup rid = some "initialize" → GreetsInTime m.supervisor c error) :
    ∃ e, Step (m.life s) e [exitNotice] ((m.handleResponse s id result error).life s) ∧ e.notices = [] ∧
      Greets e (.stdout (.response id result error)) := by
  have hsilent : ∀ {m'}, Speaks Silent s m m' →
      ∃ e, Step (m.life s) e [exitNotice] (m'.life s) ∧ e.notices = [] ∧
        Greets e (.stdout (.response id result error)) :=
    fun h => ⟨_, step_of_talks h, rfl, fun he => nomatch he⟩
  unfold handleResponse
  cases hid : id.asU64 with
  | none => exact hsilent (speaks_pushEvent m s s _)
  | some rid =>
    simp only [hc]
    split
    · refine hsilent (speaks_modifyClient ?_); intro c sup
      exact ⟨rfl, talks_pending rfl rfl rfl rfl rfl fun hp => hp⟩
    rename_i hcancelled
    have hmodify : m.modifyClient s (fun c => { c with pending := c.pending.erase rid }) =
        { m with clients := m.clients.insert s { c with pending := c.pending.erase rid } } := by
      simp only [modifyClient, hc]
    have hc₀ : (m.modifyClient s fun c => { c with pending := c.pending.erase rid }).clients.lookup s =
        some { c with pending := c.pending.erase rid } := by rw [hmodify]; exact lookup_insert _
    have hsup : (m.modifyClient s fun c => { c with pending := c.pending.erase rid }).supervisor =
        m.supervisor := by rw [hmodify]
    by_cases hinit : (c.pending.lookup rid).getD "" = "initialize"
    · have hp : c.pending.lookup rid = some "initialize" := by
        cases hp : c.pending.lookup rid with
        | none => rw [hp] at hinit; exact absurd hinit (by decide)
        | some method => rw [hp] at hinit; exact congrArg some hinit
      obtain ⟨herror, hbefore, haccepts⟩ := hanswer hid hcancelled hp
      obtain ⟨pid, hpid⟩ := isSome_iff_exists.1 hlive
      have hchannel : (c.life m.supervisor).channel = some (m.supervisor.channel pid) :=
        congrArg (Option.map _) hpid
      have hwait := hinv.before hchannel hbefore
      cases hs : c.state with
      | initializing rid' atTime =>
        have hrid := (hwait.pending hp).2 hs; subst hrid; rw [hinit]
        refine ⟨.greeted rid, life_step_initializeAnswered hc hc₀ ⟨rfl, rfl, rfl, rfl⟩ hsup hpid
          hs (haccepts hpid), rfl, ?_⟩
        intro rid' he; cases he; exact ⟨id, result, by rw [herror], hid⟩
      | starting =>
        have hnone := hinv.starting hs rid
        rw [show (c.life m.supervisor).pending.lookup rid = c.pending.lookup rid from rfl, hp]
          at hnone
        cases hnone
      | _ => rw [hs] at hbefore; cases hbefore
    by_cases hshut : (c.pending.lookup rid).getD "" = "shutdown"
    · have hp : c.pending.lookup rid = some "shutdown" := by
        cases hp : c.pending.lookup rid with
        | none => rw [hp] at hshut; exact absurd hshut (by decide)
        | some method => rw [hp] at hshut; exact congrArg some hshut
      obtain ⟨hbefore, htold⟩ := hinv.of_pending hp (by decide)
      have hterm : c.state.isTerminal = false := by
        by_contra hterm
        rw [Bool.not_eq_false] at hterm
        have hnone : c.process.map m.supervisor.channel = none := hinv.terminal.1 hterm
        rw [map_eq_none_iff] at hnone; rw [hnone] at hlive; cases hlive
      rw [hshut]
      exact ⟨_, life_step_shutdownAnswered hc hc₀ ⟨rfl, rfl, rfl, rfl⟩
        (fun hp => (lookup_of_erase hp).1) hsup hbefore hterm htold, rfl, fun he => nomatch he⟩
    exact hsilent ((speaks_answered m s rid).trans
      (speaks_handleAnswer hinit hshut result error))

theorem life_step_handleProcessEvent (hc : m.clients.lookup s = some c)
    (hlive : c.process.isSome = true) (hinv : (c.life m.supervisor).Inv early late) {ev : ProcessEvent}
    (hstarted : ∀ {pid}, ev.kind = .started pid → c.state = .starting)
    (hanswer : ∀ {id result error rid}, ev.kind = .stdout (.response id result error) →
      id.asU64 = some rid → rid ∉ c.cancelledRids → c.pending.lookup rid = some "initialize" →
      GreetsInTime m.supervisor c error) :
    ∃ e, Step (m.life s) e [exitNotice] ((m.handleProcessEvent s ev).life s) ∧ e.notices = [] ∧
      Greets e ev.kind := by
  have hissued : ∀ {m' : LspManager}, Step (m.life s) (.issued []) [exitNotice] (m'.life s) →
      ∃ e, Step (m.life s) e [exitNotice] (m'.life s) ∧ e.notices = [] ∧ Greets e ev.kind :=
    fun h => ⟨_, h, rfl, fun he => nomatch he⟩
  obtain ⟨kind, atTime⟩ := ev
  cases kind with
  | started pid => exact hissued (life_step_onStarted hc (hstarted rfl))
  | stdout frame =>
    cases frame with
    | response id result error =>
      exact life_step_handleResponse hc hlive hinv fun hid hcancelled hp =>
        hanswer rfl hid hcancelled hp
    | request id method params =>
      exact hissued (step_of_talks (speaks_handleRequest m s id method params))
    | notification method params =>
      exact hissued (step_of_talks (speaks_handleNotification m s method params))
    | malformed => exact hissued (step_of_talks (speaks_pushEvent m s s _))
    | frameError => exact hissued (step_of_talks (speaks_frameError m s))
  | stderr => exact hissued (step_of_talks (speaks_pushEvent m s s _))
  | exited | signaled | crashed => exact hissued (life_step_onExit hc hlive)

def Fits (m : LspManager) (sid : LspServerId) (a : Action) (e : Life.Event) : Prop :=
  e.notices = m.notices sid a ∧
    ∀ {rid}, e = .greeted rid → a = .handleNext sid ∧
      ∃ id result, m.nextEvent sid = some (.stdout (.response id result none)) ∧
        id.asU64 = some rid

/-- A step that keeps every process with one client, and is one of `Life.Step` to a server. -/
structure Lives (sid : LspServerId) (a : Action) (m m' : LspManager) : Prop where
  owned : Owned m'
  step : ∃ e, Life.Step (m.life sid) e (m.tells sid a) (m'.life sid) ∧ m.Fits sid a e

section
variable {m' : LspManager} {sid : LspServerId}

theorem fits_issued {m : LspManager} {a : Action} :
    m.Fits sid a (.issued (m.notices sid a)) := ⟨rfl, fun he => nomatch he⟩

variable (ho : Owned m)
include ho

theorem lives_of_local (h : Local s m m') (hothers : s ≠ sid → m.notices sid a = [])
    (hown : s = sid → ∃ e, Step (m.life sid) e (m.tells sid a) (m'.life sid) ∧ m.Fits sid a e) :
    Lives sid a m m' := by
  refine ⟨ho.local h, ?_⟩
  by_cases hs : s = sid
  · exact hown hs
  refine ⟨.issued (m.notices sid a), ?_, fits_issued⟩
  rw [hothers hs, h.life ho fun he => hs he.symm]; exact step_of_talks (.refl sid m)

theorem lives_of_issued (h : Local s m m') (hns : m.notices sid a = [])
    (hown : s = sid → Step (m.life s) (.issued []) (m.tells sid a) (m'.life s)) :
    Lives sid a m m' := by
  refine lives_of_local ho h (fun _ => hns) ?_
  rintro rfl
  refine ⟨_, hown rfl, ?_⟩
  rw [← hns]
  exact fits_issued

theorem lives_of_talks (h : Speaks Silent s m m')
    (hns : m.notices sid a = []) : Lives sid a m m' :=
  lives_of_issued ho h.toLocal hns fun _ => step_of_talks h

theorem lives_of_eq (hclients : m'.clients = m.clients)
    (hsupervisor : m'.supervisor = m.supervisor) (hns : m.notices sid a = []) : Lives sid a m m' :=
  lives_of_talks ho (speaks_of_eq hclients hsupervisor sid) hns

theorem lives_sendNotification (hclients : m₁.clients = m.clients)
    (hsupervisor : m₁.supervisor = m.supervisor) {method : String} {params : Value}
    (hord : Orderly sid m a) (hothers : s ≠ sid → m.notices sid a = [])
    (htells : m.tells sid a = (m.notices sid a).map Frame.ofNotice)
    (hown : s = sid → ∀ {c}, m.clients.lookup s = some c → m.notices sid a = [(method, params)]) :
    Lives sid a m (m₁.sendNotification s method params).2 := by
  have hsame : Speaks Silent s m m₁ := speaks_of_eq hclients hsupervisor s
  refine lives_of_local ho (hsame.toLocal.trans (local_sendNotification)) hothers ?_
  rintro rfl
  have hlife : m.life s = m₁.life s := by rw [life, life, hclients, hsupervisor]
  refine ⟨.issued (m.notices s a), ?_, fits_issued⟩
  rw [hlife]
  cases hc : m.clients.lookup s with
  | none =>
    have hsend : (m₁.sendNotification s method params).2 = m₁ := by
      simp only [sendNotification, hclients, hc]
    rw [hsend, ← hlife, life_none hc]; exact .absent
  | some c =>
    have hc₁ : m₁.clients.lookup s = some c := by rw [hclients, hc]
    cases hb : c.state.isBeforeHandshake with
    | true =>
      obtain ⟨hclients₁, hsupervisor₁⟩ := sendNotification_before hc₁ hb method params
      rw [hown rfl hc, life_of_lookup hc₁, life_insert hclients₁, hsupervisor₁]; exact .defers hb
    | false =>
      rw [htells, hown rfl hc]
      refine step_of_tells (speaks_sendNotification ?_ method params) ?_ _
      · intro c' hc'; cases hc₁.symm.trans hc'; exact hb
      intro l hl; rw [← hlife, life_of_lookup hc] at hl; cases hl
      refine ⟨hb, fun hs => hord.notified ?_ hc hs⟩; rw [hown rfl hc]; simp

/-- Giving up on requests that were sent once the handshake was answered. -/
theorem lives_of_asked (hlocal : Local s m m') (hns : m.notices sid a = [])
    (hnone : (∀ {l rid method}, m.life s = some l → l.pending.lookup rid = some method →
      method = "initialize") → Speaks Silent s m m')
    (hsome : (∀ {l}, m.life s = some l → l.state.isBeforeHandshake = false) →
      Speaks (m.tells s a) s m m') (hinv : ∀ {l}, m.life sid = some l → l.Inv early late) :
    Lives sid a m m' := by
  refine lives_of_issued ho hlocal hns ?_
  rintro rfl
  by_cases hasked : ∀ {l rid method}, m.life s = some l → l.pending.lookup rid = some method →
      method = "initialize"
  · exact step_of_talks (hnone hasked)
  push Not at hasked
  obtain ⟨l, rid, method, hl, hp, hmethod⟩ := hasked
  obtain ⟨hbefore, htold⟩ := (hinv hl).of_pending hp hmethod
  have hstate : ∀ {l'}, m.life s = some l' →
      l'.state.isBeforeHandshake = false ∧ (l'.state.isShuttingDown = true → l'.Told) := by
    intro l' hl'; cases hl.symm.trans hl'; exact ⟨hbefore, htold⟩
  exact step_of_tells (hsome fun hl' => (hstate hl').1) hstate []

end

/-! ## Steps -/

section
variable {sid : LspServerId} (ho : Owned m)
include ho

theorem lives_drainCancelledExternals (hj : Joined m)
    (hinv : ∀ {l}, m.life sid = some l → l.Inv early late) (s : LspServerId) :
    Lives sid (.drainCancelledExternals s) m (m.drainCancelledExternals s) := by
  unfold drainCancelledExternals
  set rids := ((m.requestsOf s).filter fun r => (m.leftBySweep r.2).awaiters.isEmpty).map (·.1)
    with hrids
  set m₁ : LspManager := { m with
    pendingExternal := m.pendingAfterSweep s
    runtime := m.runtime.completeAll (m.sweptOf s) }
  have hsame : Speaks Silent s m m₁ := by refine speaks_of_eq ?_ ?_ s <;> rfl
  refine lives_of_asked ho (hsame.toLocal.trans (local_abandonAll m₁ s rids)) rfl ?_ ?_ hinv
  · intro hnone
    have hempty : rids = [] := by
      by_contra hne
      obtain ⟨rid, hrid⟩ := exists_mem_of_ne_nil rids hne; rw [hrids, List.mem_map] at hrid
      obtain ⟨⟨rid', p⟩, hmem, hrid'⟩ := hrid
      obtain ⟨t, ht, _, hpending, haw⟩ := hj.inFlight (mem_requestsOf.1 (List.mem_filter.1 hmem).1)
      obtain ⟨c, hc, htable⟩ := tableOf_eq_some.1 ht; rw [← htable] at hpending
      exact haw.2.1 (hnone (life_of_lookup hc) hpending)
    rw [hempty]; exact hsame
  intro hbefore; rw [tells, if_pos rfl, ← hrids]
  exact hsame.trans (speaks_abandonAll (hsame.notBefore hbefore))

theorem lives_forgetUri (hj : Joined m) (hinv : ∀ {l}, m.life sid = some l → l.Inv early late)
    (s : LspServerId) (uri : String) : Lives sid (.forgetUri s uri) m (m.forgetUri s uri).2 := by
  unfold forgetUri
  split
  · exact lives_of_eq ho rfl rfl rfl
  set m₁ : LspManager := { m with forgottenDocuments :=
    if (s, uri) ∈ m.forgottenDocuments then m.forgottenDocuments
    else (s, uri) :: m.forgottenDocuments }
  have hlocal := local_cancelRequests m₁ s (m₁.requestsFor s uri)
  have hsome : (∀ {l}, m.life s = some l → l.state.isBeforeHandshake = false) →
      Speaks ((m₁.requestsFor s uri).map cancelNotice) s m
        ((m₁.requestsFor s uri).foldl (fun m rid => m.cancelRequest s rid) m₁) := by
    intro hbefore
    have hsame : Speaks Silent s m m₁ := by refine speaks_of_eq ?_ ?_ s <;> rfl
    exact hsame.trans (speaks_cancelRequests (hsame.notBefore hbefore))
  have hnone : (∀ {l rid method}, m.life s = some l → l.pending.lookup rid = some method →
      method = "initialize") → m₁.requestsFor s uri = [] := by
    intro hnone
    by_contra hne
    obtain ⟨rid, hrid⟩ := exists_mem_of_ne_nil _ hne
    obtain ⟨route, hroute, _⟩ := mem_requestsFor.1 hrid
    obtain ⟨t, ht, method, hpending, haw⟩ := hj.routed hroute
    obtain ⟨c, hc, htable⟩ := tableOf_eq_some.1 ht; rw [← htable] at hpending
    exact haw.2.1 (hnone (life_of_lookup hc) hpending)
  set m₂ := (m₁.requestsFor s uri).foldl (fun m rid => m.cancelRequest s rid) m₁ with hm₂
  have hfirst : Local s m m₁ := by refine local_of_eq ?_ ?_ s <;> rfl
  have hlast : Local s m₂ { m₂ with
      stores := m₂.stores.forgetUri (toString s) uri
      documents := m₂.documents.erase (s, uri)
      diskDocuments := m₂.diskDocuments.erase (s, uri) } := by refine local_of_eq ?_ ?_ s <;> rfl
  refine lives_of_asked ho ((hfirst.trans hlocal).trans hlast) rfl ?_ ?_ hinv
  · intro hnot
    have hsame : m₂ = m₁ := by rw [hm₂, hnone hnot]; rfl
    refine speaks_of_eq ?_ ?_ s
    · show m₂.clients = m.clients
      rw [hsame]
    show m₂.supervisor = m.supervisor
    rw [hsame]
  intro hbefore; rw [tells, if_pos rfl, ← append_nil (map _ _)]
  refine (hsome hbefore).append (speaks_of_eq ?_ ?_ s) <;> rfl

theorem lives_handleNext (hinv : ∀ {l}, m.life sid = some l → l.Inv early late) (s : LspServerId)
    (hord : Orderly sid m (.handleNext s)) : Lives sid (.handleNext s) m (m.handleNext s) := by
  unfold handleNext
  split
  · exact lives_of_eq ho rfl rfl rfl
  rename_i ev sup hev; obtain ⟨pid, hpid, htake⟩ := bind_eq_some_iff.1 hev
  have hchannel := ProcessSupervisor.takeEvent_channel htake
  set m₁ : LspManager := { m with supervisor := sup }
  have hsame : Speaks Silent s m m₁ :=
    speaks_supervisor (fun pid => (hchannel pid).1) (hchannel 0).2.1 s
  refine lives_of_local ho (hsame.toLocal.trans (local_handleProcessEvent ev)) (fun _ => rfl) ?_
  rintro rfl; obtain ⟨c, hc, hprocess⟩ := bind_eq_some_iff.1 hpid
  have hnext : m.nextEvent s = some ev.kind := by rw [nextEvent, hev]; rfl
  have hlife : c.life m₁.supervisor = c.life m.supervisor := by
    have hall : m₁.supervisor.channel = m.supervisor.channel := funext fun pid => (hchannel pid).1
    simp only [LspClient.life, hall]
  have hc₁ : m₁.clients.lookup s = some c := hc
  have hinv₁ : (c.life m₁.supervisor).Inv early late := by rw [hlife]; exact hinv (life_of_lookup hc)
  have hstarted : ∀ {pid'}, ev.kind = .started pid' → c.state = .starting :=
    fun hkind => hord.started rfl hc (by rw [hnext, hkind])
  have hanswer : ∀ {id result error rid}, ev.kind = .stdout (.response id result error) →
      id.asU64 = some rid → rid ∉ c.cancelledRids → c.pending.lookup rid = some "initialize" →
      GreetsInTime m₁.supervisor c error := by
    intro id result error rid hkind hid hcancelled hp
    obtain ⟨herror, hbefore, haccepts⟩ :=
      hord.answered rfl hc (by rw [hnext, hkind]) hid hcancelled hp
    refine ⟨herror, hbefore, ?_⟩; intro pid' hpid' p' hp' hphase f hf
    obtain ⟨p, hp, hsamePhase, hsameRefuses⟩ := (hchannel pid').2.2 hp'; rw [← hsameRefuses]
    exact haccepts hpid' hp (hsamePhase ▸ hphase) f hf
  obtain ⟨e, hstep, hnotices, hgreets⟩ := life_step_handleProcessEvent hc₁
    (isSome_iff_exists.2 ⟨pid, hprocess⟩) hinv₁ hstarted hanswer
  refine ⟨e, ?_, hnotices, fun he => ⟨rfl, ?_⟩⟩
  · rw [life_of_lookup hc, ← hlife, ← life_of_lookup hc₁, tells, if_pos rfl]; exact hstep
  · obtain ⟨id, result, hkind, hid⟩ := hgreets he; exact ⟨id, result, by rw [hnext, hkind], hid⟩

theorem lives_world {sup : ProcessSupervisor}
    (hchannel : ∀ pid, (m.supervisor.channel pid).Takes Silent (sup.channel pid))
    (hnext : sup.nextId = m.supervisor.nextId) (hns : m.notices sid a = []) :
    Lives sid a m { m with supervisor := sup } := by
  refine ⟨⟨fun hpid => ?_, ho.distinct⟩, .issued [], ?_, hns.symm, fun he => nomatch he⟩
  · rw [hnext]; exact ho.fresh hpid
  cases hc : m.clients.lookup sid with
  | none =>
    have hc₁ : ({ m with supervisor := sup } : LspManager).clients.lookup sid = none := hc
    rw [life_none hc, life_none hc₁]; exact .absent
  | some c =>
    have hc₁ : ({ m with supervisor := sup } : LspManager).clients.lookup sid = some c := hc
    rw [life_of_lookup hc, life_of_lookup hc₁]
    refine .talks ⟨rfl, rfl, rfl, rfl, rfl, fun _ _ _ hp => hp, ?_⟩ fun _ => rfl
    show Option.Rel _ (c.process.map m.supervisor.channel) (c.process.map sup.channel)
    cases c.process with
    | none => exact .none
    | some pid => exact .some (hchannel pid)

end

theorem capabilities_ready {v : Value} (h : m.capabilities s = some v) :
    ∃ c, m.clients.lookup s = some c ∧ c.state.isReadyForRequest = true := by
  rw [capabilities, bind_eq_some_iff] at h
  obtain ⟨c, hc, hcap⟩ := h
  refine ⟨c, hc, ?_⟩
  unfold LspClient.capabilities at hcap
  split at hcap
  · rename_i hstate; rw [hstate]; rfl
  · cases hcap

variable {sid : LspServerId}

theorem lives_ready (ho : Owned m) (hready : ∃ c, m.clients.lookup s = some c ∧
    c.state.isReadyForRequest = true) (hclients : m₁.clients = m.clients)
    (hsupervisor : m₁.supervisor = m.supervisor) (hns : m.notices sid a = []) (method : String)
    (params : Value) (htells : s = sid → m.tells sid a = [.notification method params]) :
    Lives sid a m (m₁.sendNotification s method params).2 := by
  obtain ⟨c, hc, hready⟩ := hready
  have hstate : c.state.isBeforeHandshake = false ∧ c.state.isShuttingDown = false := by
    cases hs : c.state <;> simp_all [isReadyForRequest,
      isBeforeHandshake, isShuttingDown]
  have hsame : Speaks Silent s m m₁ := speaks_of_eq hclients hsupervisor s
  have hc₁ : m₁.clients.lookup s = some c := by rw [hclients, hc]
  have hsent : Speaks [.notification method params] s m₁ (m₁.sendNotification s method params).2 := by
    refine speaks_sendNotification ?_ method params; intro c' hc'; cases hc₁.symm.trans hc'
    exact hstate.1
  refine lives_of_issued ho (hsame.trans hsent).toLocal hns fun hs => ?_
  rw [htells hs]; refine step_of_tells (hsame.trans hsent) ?_ []
  intro l hl
  rw [life_of_lookup hc] at hl
  cases hl
  refine ⟨hstate.1, fun hs => ?_⟩
  exact absurd (hstate.2.symm.trans hs) (by simp)

theorem lives_didChangeIncremental (ho : Owned m)
    (s : LspServerId) (uri : String) (version : ℤ) (bufferLen : ℕ) :
    Lives sid (.didChangeIncremental s uri version bufferLen) m
      (m.didChangeIncremental s uri version bufferLen).2 := by
  have hsame : Lives sid (.didChangeIncremental s uri version bufferLen) m m :=
    lives_of_eq ho rfl rfl rfl
  unfold didChangeIncremental
  split
  · rename_i hsupported
    have hready : ∃ c, m.clients.lookup s = some c ∧ c.state.isReadyForRequest = true := by
      obtain ⟨hcap, _⟩ := (any_eq_true_iff_get _ _).1 hsupported
      exact capabilities_ready (eq_some_of_isSome hcap)
    split
    · split
      · exact hsame
      split
      · exact hsame
      split
      · rename_i held edits _ _ changes mirror _ _
        have hmarked : ({ m with documents := m.documents.insert (s, uri) mirror
            }.noteDocumentSynced uri |>.markDocumentStale s uri).clients = m.clients ∧
            ({ m with documents := m.documents.insert (s, uri) mirror
            }.noteDocumentSynced uri |>.markDocumentStale s uri).supervisor = m.supervisor := by
          unfold markDocumentStale
          split <;> exact ⟨rfl, rfl⟩
        refine lives_ready ho hready hmarked.1 hmarked.2 rfl _ _ ?_; rintro rfl
        simp [tells, *]
      · exact hsame
    · exact hsame
  · exact hsame

theorem lives_saved (ho : Owned m) {includeText : Bool}
    (hcap : (m.capabilities s).bind saveIncludeText = some includeText)
    (hclients : m₁.clients = m.clients) (hsupervisor : m₁.supervisor = m.supervisor)
    (hns : m.notices sid a = []) (method : String) (params : Value)
    (htells : s = sid → m.tells sid a = [.notification method params]) :
    Lives sid a m (m₁.sendNotification s method params).2 := by
  obtain ⟨v, hv, _⟩ := bind_eq_some_iff.1 hcap
  exact lives_ready ho (capabilities_ready hv) hclients hsupervisor hns method params htells

/-- **A step that is orderly keeps** every process with one client, and is a step of its
    lifecycle to every server. -/
theorem lives_perform
    (ho : Owned m) (hj : Joined m) (hinv : ∀ {l}, m.life sid = some l → l.Inv early late) (a : Action)
    (hord : Orderly sid m a) : Lives sid a m (m.perform a).2 := by
  have hif : ∀ {s : LspServerId} {ns : List (String × Value)}, s ≠ sid →
      (if s = sid then ns else []) = [] := fun hne => if_neg hne
  cases a with
  | spawn spec =>
    refine lives_of_issued ho (local_spawn m spec) rfl fun _ => life_step_spawn ?_ spec
    cases hc : m.clients.lookup m.nextServerId with
    | none => rfl
    | some c => exact absurd (hj.known (tableOf_of_lookup hc)) (lt_irrefl _)
  | stop s => exact lives_of_issued ho (local_stop m s) rfl fun _ => life_step_stop m s
  | forget s => exact lives_of_issued ho (local_forget m s) rfl fun _ => life_step_forget m s
  | forgetUri s uri => exact lives_forgetUri ho hj hinv s uri
  | sendRequest s method params =>
    exact lives_of_talks ho (speaks_sendRequest m s method params) rfl
  | request s request => exact lives_of_talks ho (speaks_request m s _) rfl
  | sendNotification s method params =>
    refine lives_sendNotification ho rfl rfl hord hif rfl ?_; rintro rfl c _; exact if_pos rfl
  | sendResponse s id result => exact lives_of_talks ho (speaks_sendResponse m s id result) rfl
  | didOpen s uri version text =>
    show Lives sid _ m (m.didOpen s uri version text).2
    unfold didOpen
    split
    · refine lives_of_eq ho rfl rfl ?_; rename_i hc
      show (if s = sid then ((m.clients.lookup s).map _).toList else []) = []
      rw [hc]
      split <;> rfl
    rename_i c hc
    refine lives_sendNotification ho ?_ ?_ hord hif rfl ?_
    · rfl
    · rfl
    rintro rfl c' hc'; cases hc.symm.trans hc'
    show (if s = s then ((m.clients.lookup s).map _).toList else []) = _
    rw [if_pos rfl, hc]; rfl
  | didChangeFull s uri version text =>
    have hsame : (({ m with documents := m.documents.insert (s, uri) text }.noteDocumentSynced
        uri).markDocumentStale s uri).clients = m.clients ∧
        (({ m with documents := m.documents.insert (s, uri) text }.noteDocumentSynced
        uri).markDocumentStale s uri).supervisor = m.supervisor := by
      unfold markDocumentStale
      split <;> exact ⟨rfl, rfl⟩
    refine lives_sendNotification ho hsame.1 hsame.2 hord hif rfl ?_; rintro rfl c _; exact if_pos rfl
  | didChangeIncremental s uri version bufferLen =>
    exact lives_didChangeIncremental ho s uri version bufferLen
  | didSave s uri text =>
    show Lives sid _ m (m.didSave s uri text).2
    unfold didSave; simp only
    split
    · exact lives_of_eq ho rfl rfl rfl
    rename_i includeText hcap
    have hcap₁ : (m.capabilities s).bind saveIncludeText = some includeText := hcap
    refine lives_saved (m := m) ho hcap ?_ ?_ ?_ _ _ ?_
    · rfl
    · rfl
    · rfl
    · rintro rfl; rw [tells, if_pos rfl, hcap₁]; rfl
  | resendDidSave s uri =>
    show Lives sid _ m (m.resendDidSave s uri).2
    unfold resendDidSave
    split
    · rename_i includeText text seq hcap _
      refine lives_saved (m := m) ho hcap rfl rfl rfl _ _ ?_; rintro rfl
      simp [tells, *, saveNotice]
    · exact lives_of_eq ho rfl rfl rfl
  | didClose s uri =>
    refine lives_sendNotification ho ?_ ?_ hord hif rfl ?_
    · rfl
    · rfl
    · rintro rfl c _; exact if_pos rfl
  | markDocumentStale s uri =>
    show Lives sid _ m (m.markDocumentStale s uri)
    unfold markDocumentStale
    split <;> exact lives_of_eq ho rfl rfl rfl
  | handleNext s => exact lives_handleNext ho hinv s hord
  | drainCancelledExternals s => exact lives_drainCancelledExternals ho hj hinv s
  | maybeRestart s =>
    refine lives_of_issued ho (local_maybeRestart m s) rfl ?_; rintro rfl
    refine life_step_maybeRestart ?_; intro c hc hterm
    exact map_eq_none_iff.1 ((hinv (life_of_lookup hc)).terminal.1 hterm)
  | report pid event =>
    exact lives_world ho (fun pid' => (m.supervisor.report_channel pid event pid').1)
      (m.supervisor.report_channel pid event 0).2 rfl
  | refuseWrites pid refuses =>
    exact lives_world ho (fun pid' => .of_eq (m.supervisor.setRefusal_channel pid refuses pid').1)
      (m.supervisor.setRefusal_channel pid refuses 0).2 rfl
  | failSpawns error => exact lives_world ho (fun _ => .refl _) rfl rfl
  | documentOffDisk | recordEdit | noteRecorder | takeEvents | setRequestTimeout | cancelJob
  | tickRuntime | takeResult | allocateJob | elapse => exact lives_of_eq ho rfl rfl rfl

/-! ## Runs -/

/-- What a run of orderly steps keeps. -/
structure Kept (sid : LspServerId) (early : List (String × Value)) (late : List Frame)
    (m : LspManager) : Prop where
  owned : Owned m
  joined : Joined m
  inv : ∀ {l}, m.life sid = some l → l.Inv early late

/-- The notifications issued to a server's process before its handshake was answered. -/
def earlyNotices (sid : LspServerId) (early : List (String × Value)) (m : LspManager) :
    List Action → List (String × Value)
  | [] => early
  | a :: as =>
    earlyNotices sid
      (Life.earlyAfter (m.life sid) (m.notices sid a) ((m.perform a).2.life sid) early)
      (m.perform a).2 as

/-- What the steps that followed the answer to its handshake notified a server's process of. -/
def lateNotices (sid : LspServerId) (late : List Frame) (m : LspManager) :
    List Action → List Frame
  | [] => late
  | a :: as =>
    lateNotices sid (Life.lateAfter (m.life sid) (m.tells sid a) ((m.perform a).2.life sid) late)
      (m.perform a).2 as

theorem kept_new (readsEmpty : ResultFamily → Value → Bool) (sid : LspServerId) :
    Kept sid [] [] (new readsEmpty) := by
  refine ⟨⟨?_, ?_⟩, joined_new, ?_⟩
  · nofun
  · nofun
  · nofun

section
theorem Kept.perform (h : Kept sid early late m) (hord : Orderly sid m a) :
    Kept sid (earlyAfter (m.life sid) (m.notices sid a) ((m.perform a).2.life sid) early)
      (lateAfter (m.life sid) (m.tells sid a) ((m.perform a).2.life sid) late)
      (m.perform a).2 := by
  obtain ⟨howned, e, hstep, hnotices, _⟩ := lives_perform h.owned h.joined h.inv a hord
  refine ⟨howned, (moves_perform m a).joined h.joined, ?_⟩
  intro l hl
  have hinv := inv_step hstep (fun l hl => h.inv hl) l hl
  rwa [hnotices] at hinv

theorem Kept.along (h : Kept sid early late m) {as : List Action}
    (hord : Along (Orderly sid) m as) :
    Kept sid (earlyNotices sid early m as) (lateNotices sid late m as) (m.performAll as).2 := by
  induction as generalizing m early late with
  | nil => exact h
  | cons a as ih => exact ih (h.perform hord.1) hord.2

/-! ## A server that was stopped -/

/-- A server that was stopped, or forgotten since. -/
structure Stopping (sid : LspServerId) (m : LspManager) : Prop where
  known : sid < m.nextServerId
  ending : ∀ {l}, m.life sid = some l → l.Ending

theorem ending_stop {m : LspManager} {s : LspServerId} {l : Life}
    (hl : (m.stop s).2.life s = some l) : l.Ending := by
  cases hc : m.clients.lookup s with
  | none => simp only [stop, hc] at hl; rw [life_none hc] at hl; cases hl
  | some c =>
    simp only [stop, hc] at hl
    split at hl
    · rename_i hterm; rw [life_insert rfl] at hl; cases hl
      exact ⟨rfl, rfl, .inr hterm⟩
    split at hl
    · set c' : LspClient := { { c with
        spec := { c.spec with restart := .never }
        nextRestartAt := none }.addRequest "shutdown" with
        state := .shuttingDown (some c.nextRequestId) }
      have hclients := (sendFrameTo_takes { m with clients := m.clients.insert s c' } c'
        (.request c.nextRequestId "shutdown" .null)).1
      rw [life_insert hclients] at hl; cases hl; exact ⟨rfl, rfl, .inl rfl⟩
    · rw [life_insert rfl] at hl; cases hl; exact ⟨rfl, rfl, .inl rfl⟩

theorem Stopping.perform (h : Stopping sid m) (hk : Kept sid early late m)
    (hord : Orderly sid m a) : Stopping sid (m.perform a).2 := by
  have hgrows := (moves_perform m a).grows hk.joined
  refine ⟨lt_of_lt_of_le h.known hgrows.next, ?_⟩
  intro l' hl'
  obtain ⟨_, e, hstep, _⟩ := lives_perform hk.owned hk.joined hk.inv a hord
  cases ho : m.life sid with
  | some l => rw [ho] at hstep; exact ending_step hstep (h.ending ho) l' hl'
  | none =>
    obtain ⟨c', hc', _⟩ := life_eq_some.1 hl'
    obtain ⟨t, ht, _⟩ := hgrows.tables (tableOf_of_lookup hc') h.known
    obtain ⟨c, hc, _⟩ := tableOf_eq_some.1 ht; rw [life_of_lookup hc] at ho; cases ho

theorem Stopping.along (h : Stopping sid m) (hk : Kept sid early late m) {as : List Action}
    (hord : Along (Orderly sid) m as) : Stopping sid (m.performAll as).2 := by
  induction as generalizing m early late with
  | nil => exact h
  | cons a as ih => exact ih (h.perform hk hord.1) (hk.perform hord.1) hord.2

/-- What reports the end of a process. -/
def IsEnd : ProcessEventKind → Prop
  | .exited _ | .signaled _ | .crashed _ => True
  | _ => False

/-- A server that is not initialized, takes no requests and is not restarted, and whose
    process ends it in `stopped`. -/
structure StaysStopped (sid : LspServerId) (m : LspManager) : Prop where
  notInitialized : ∀ {c}, m.clients.lookup sid = some c → c.state.isReadyForRequest = false
  refuses : ∀ method params, ∃ e, (m.sendRequest sid method params).1 = .error e
  notRestarted : m.maybeRestart sid = m
  ends : ∀ {kind}, m.nextEvent sid = some kind → IsEnd kind →
    ∃ c ended, (m.handleNext sid).clients.lookup sid = some c ∧ c.state = .stopped ended

theorem onExit_stopped
    (hc : m.clients.lookup s = some c) (hs : c.state.isShuttingDown = true) (atTime : ℕ)
    (reason : String) : ∃ c' ended, (m.onExit s atTime reason).clients.lookup s = some c' ∧
      c'.state = .stopped ended := by
  simp only [onExit, hc]
  refine ⟨_, atTime, lookup_insert _, ?_⟩
  simp [hs]

theorem Stopping.staysStopped (h : Stopping sid m) (hk : Kept sid early late m) :
    StaysStopped sid m := by
  have hnot : ∀ c, m.clients.lookup sid = some c → c.state.isReadyForRequest = false := by
    intro c hc; have hstate := (h.ending (life_of_lookup hc)).state
    change c.state.isShuttingDown = true ∨ c.state.isTerminal = true at hstate
    cases hs : c.state <;> simp_all [isReadyForRequest,
      isShuttingDown, isTerminal]
  refine ⟨fun hc => hnot _ hc, ?_, ?_, ?_⟩
  · intro method params; obtain ⟨e, he⟩ := sendRequest_refused hnot method params
    exact ⟨e, by rw [he]⟩
  · unfold maybeRestart
    split
    · rfl
    rename_i c hc
    have hat : c.nextRestartAt = none := (h.ending (life_of_lookup hc)).nextRestartAt; rw [hat]
    split
    · rename_i hnext; cases hnext
    · rfl
  intro kind hnext hend; unfold nextEvent at hnext; rw [map_eq_some_iff] at hnext
  obtain ⟨⟨ev, sup⟩, htake, hkind⟩ := hnext; obtain ⟨pid, hpid, _⟩ := bind_eq_some_iff.1 htake
  obtain ⟨c, hc, hprocess⟩ := bind_eq_some_iff.1 hpid
  have hs : c.state.isShuttingDown = true := by
    refine (h.ending (life_of_lookup hc)).state.resolve_right ?_; intro hterm
    have hnone : c.process.map m.supervisor.channel = none :=
      (hk.inv (life_of_lookup hc)).terminal.1 hterm
    rw [hprocess] at hnone; cases hnone
  obtain ⟨kind', atTime⟩ := ev; cases hkind; unfold handleNext
  rw [htake]
  cases kind' with
  | exited | signaled | crashed =>
    exact onExit_stopped (m := { m with supervisor := sup }) hc hs atTime _
  | _ => exact hend.elim

/-! ## The handshake -/

def isInitialized (m : LspManager) (sid : LspServerId) : Bool :=
  (m.clients.lookup sid).any (·.state.isReadyForRequest)

/-- A server is initialized only by the answer to its handshake, while it awaits it. -/
theorem initialized_by_answer (hk : Kept sid early late m) (hord : Orderly sid m a)
    (hbefore : m.isInitialized sid = false) (hafter : (m.perform a).2.isInitialized sid = true) :
    a = .handleNext sid ∧ ∃ c rid atTime id result, m.clients.lookup sid = some c ∧
      c.state = .initializing rid atTime ∧
      m.nextEvent sid = some (.stdout (.response id result none)) ∧ id.asU64 = some rid := by
  obtain ⟨_, e, hstep, _, hgreets⟩ := lives_perform hk.owned hk.joined hk.inv a hord
  obtain ⟨hsome, hready⟩ := (any_eq_true_iff_get _ _).1 hafter
  have hc' := eq_some_of_isSome hsome
  rw [life_of_lookup hc'] at hstep
  have hnot : ∀ l, m.life sid = some l → l.state.isReadyForRequest = false := by
    intro l hl; obtain ⟨c, hc, rfl⟩ := life_eq_some.1 hl; rwa [isInitialized, hc] at hbefore
  obtain ⟨l, rid, atTime, hl, hinit, he⟩ := greeted_of_ready hstep hready hnot
  obtain ⟨c, hc, rfl⟩ := life_eq_some.1 hl
  obtain ⟨ha, id, result, hnext, hid⟩ := hgreets he
  exact ⟨ha, c, rid, atTime, id, result, hc, hinit, hnext, hid⟩

end

/-- **A client's lifecycle, over every run of orderly steps**: a server that was stopped stays
    so; it is initialized only by the answer to its handshake; and what it was notified of
    before is held back in order, or was sent once after the handshake, with nothing behind it
    that steps after the handshake did not send of themselves, or its process has ended. -/
theorem lifecycle_kept {readsEmpty : ResultFamily → Value → Bool} {sid : LspServerId}
    {as : List Action} (h : Along (Orderly sid) (new readsEmpty) as) :
    let m := ((new readsEmpty).performAll as).2
    (∀ before after, as = before ++ .stop sid :: after →
      (((new readsEmpty).performAll before).2.clients.lookup sid).isSome = true →
      StaysStopped sid m) ∧
    (∀ {a}, Orderly sid m a → m.isInitialized sid = false →
      (m.perform a).2.isInitialized sid = true →
      a = .handleNext sid ∧ ∃ c rid atTime id result, m.clients.lookup sid = some c ∧
        c.state = .initializing rid atTime ∧
        m.nextEvent sid = some (.stdout (.response id result none)) ∧ id.asU64 = some rid) ∧
    ∀ {c pid}, m.clients.lookup sid = some c → c.process = some pid →
      let early := earlyNotices sid [] (new readsEmpty) as
      let late := lateNotices sid [] (new readsEmpty) as
      (c.state.isReadyForRequest = false ∧
        (c.life m.supervisor).Waiting early (m.supervisor.channel pid)) ∨
      (c.state.isBeforeHandshake = false ∧
        (c.life m.supervisor).Greeted early late (m.supervisor.channel pid)) ∨
      m.supervisor.hasEnded pid = true := by
  have hk := (kept_new readsEmpty sid).along h
  refine ⟨?_, fun hord => initialized_by_answer hk hord, ?_⟩
  · rintro before after rfl hknown; obtain ⟨hbefore, hstop, hafter⟩ := Machine.along_append.1 h
    have hkb := (kept_new readsEmpty sid).along hbefore
    obtain ⟨c, hc⟩ := isSome_iff_exists.1 hknown
    set m₁ := ((new readsEmpty).performAll before).2 with hm₁
    have hstopping : Stopping sid (m₁.perform (.stop sid)).2 := by
      refine ⟨?_, fun hl => ending_stop hl⟩
      exact lt_of_lt_of_le (hkb.joined.known (tableOf_of_lookup hc))
        ((moves_perform m₁ (.stop sid)).grows hkb.joined).next
    have hend := hstopping.along (hkb.perform hstop) hafter
    have hsame : ((new readsEmpty).performAll (before ++ .stop sid :: after)).2 =
        ((m₁.perform (.stop sid)).2.performAll after).2 := performAll_append _ _ _
    rw [hsame] at hk ⊢; exact hend.staysStopped hk
  intro c pid hc hpid
  exact (hk.inv (life_of_lookup hc)).whereabouts (congrArg (Option.map _) hpid)

theorem orderly_of_quiet (h : a ≠ .handleNext sid) (hns : m.notices sid a = []) : Orderly sid m a :=
  ⟨fun ha => absurd ha h, fun ha => absurd ha h, fun hne => absurd hns hne⟩

/-- A server that is notified of something while it starts, answers its handshake, and is
    stopped. -/
theorem lifecycle_kept_greeted :
    let as : List Action := [.spawn ⟨"server", "rust", .null, none, .onCrash, []⟩,
      .sendNotification 1 "a" .null, .report 1 ⟨.started 7, 0⟩, .handleNext 1,
      .report 1 ⟨.stdout (.response (.nat 1) (some (.object [])) none), 0⟩, .handleNext 1, .stop 1]
    StaysStopped 1 ((new fun _ _ => false).performAll as).2 := by
  intro as
  have horderly : Along (Orderly 1) (new fun _ _ => false) as := by
    refine ⟨orderly_of_quiet (by simp) rfl, ⟨?_, ?_, ?_⟩, orderly_of_quiet (by simp) rfl,
      ⟨?_, ?_, ?_⟩, orderly_of_quiet (by simp) rfl, ⟨?_, ?_, ?_⟩, orderly_of_quiet (by simp) rfl,
      True.intro⟩
    · exact nofun
    · exact nofun
    · intro _ c hc hs; cases hc; cases hs
    · intro _ c pid hc _; cases hc; rfl
    · intro _ c id result error rid _ hnext; cases hnext
    · exact fun hne => absurd rfl hne
    · intro _ c pid _ hnext; cases hnext
    · intro _ c id result error rid hc hnext _ _ _; cases hc; cases hnext
      refine ⟨rfl, rfl, ?_⟩; intro pid hpid p hp _ f _; cases hpid
      cases hp; rfl
    · exact fun hne => absurd rfl hne
  exact (lifecycle_kept horderly).1 (as.take 6) [] rfl rfl

/-- A server that is stopped while it starts: its answer to the handshake initializes it
    again, and the end of its process is a crash. -/
theorem lifecycle_not_kept :
    let m := ((new fun _ _ => false).performAll
      [.spawn ⟨"server", "rust", .null, none, .onCrash, []⟩, .report 1 ⟨.started 7, 0⟩,
        .handleNext 1, .stop 1,
        .report 1 ⟨.stdout (.response (.nat 1) (some (.object [])) none), 0⟩, .handleNext 1]).2
    m.isInitialized 1 = true ∧ ¬ StaysStopped 1 m := by
  intro m
  have hinit : m.isInitialized 1 = true := by decide +kernel
  refine ⟨hinit, fun h => ?_⟩
  obtain ⟨hsome, hready⟩ := (any_eq_true_iff_get _ _).1 hinit
  rw [h.notInitialized (eq_some_of_isSome hsome)] at hready
  cases hready

end LspManager

end Pmacs
