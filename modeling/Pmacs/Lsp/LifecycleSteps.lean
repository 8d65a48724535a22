/-
  What the operations of the language-server registry do to a client's lifecycle.

  * `LspManager.life` is the lifecycle of a server's client;
  * `Speaks`: an operation that touches one server only, and of its client's lifecycle
    only what was written to its process; `speaks_sendQuietly` and so on.
-/
import Pmacs.Lsp.AwaitersRun
import Pmacs.Lsp.Lifecycle

namespace Pmacs

open Lib AList List Option

/-! ## Processes -/

namespace ProcessSupervisor

variable {p : Process} {id pid : ProcessId} {s' : ProcessSupervisor}

def hasEnded (s : ProcessSupervisor) (pid : ProcessId) : Bool :=
  match s.processes.lookup pid with
  | none => true
  | some p => decide (p.phase = .ended)

def channel (s : ProcessSupervisor) (pid : ProcessId) : Channel :=
  ⟨pid, s.written pid, s.hasEnded pid⟩

theorem channel_of_lookup {s : ProcessSupervisor}
    (h : s'.processes.lookup pid = s.processes.lookup pid) : s'.channel pid = s.channel pid := by
  rw [channel, channel, written, written, hasEnded, hasEnded, h]

theorem channel_insert {s : ProcessSupervisor} (h : s'.processes = s.processes.insert id p) :
    s'.channel id = ⟨id, p.written, decide (p.phase = .ended)⟩ := by
  rw [channel, written, hasEnded, h, lookup_insert]
  rfl

theorem channel_insert_ne {s : ProcessSupervisor} (h : s'.processes = s.processes.insert id p)
    (hne : pid ≠ id) : s'.channel pid = s.channel pid := by
  refine channel_of_lookup ?_
  rw [h, lookup_insert_ne hne]

theorem channel_eq {s : ProcessSupervisor} (h : s.processes.lookup id = some p) :
    s.channel id = ⟨id, p.written, decide (p.phase = .ended)⟩ := by
  rw [channel, written, hasEnded, h]
  rfl

theorem writeStdin_channel (s : ProcessSupervisor) (id : ProcessId) (frame : Frame) :
    (s.channel id).Takes ([frame].filter (·.isNotification))
        ((s.writeStdin id frame).2.channel id) ∧
      (∀ pid, pid ≠ id → (s.writeStdin id frame).2.channel pid = s.channel pid) ∧
      (s.writeStdin id frame).2.nextId = s.nextId := by
  unfold writeStdin
  cases hp : s.processes.lookup id with
  | none => exact ⟨.refl _, fun _ _ => rfl, rfl⟩
  | some p =>
    simp only
    split
    · exact ⟨.refl _, fun _ _ => rfl, rfl⟩
    rename_i hlive
    split
    · exact ⟨.refl _, fun _ _ => rfl, rfl⟩
    refine ⟨?_, fun pid hne => channel_insert_ne rfl hne, rfl⟩
    rw [channel_eq hp, channel_insert rfl]
    refine ⟨rfl, fun he => he, [frame], rfl, Sublist.refl _, ?_⟩; intro hended
    exact absurd (of_decide_eq_true hended) hlive

theorem terminate_channel (s : ProcessSupervisor) (id pid : ProcessId) :
    (s.terminate id).channel pid = s.channel pid ∧ (s.terminate id).nextId = s.nextId := by
  unfold terminate
  cases hp : s.processes.lookup id with
  | none => exact ⟨rfl, rfl⟩
  | some p =>
    simp only
    split
    · exact ⟨rfl, rfl⟩
    refine ⟨?_, rfl⟩
    by_cases hpid : pid = id
    · subst hpid; rw [channel_insert rfl, channel_eq hp]
    · exact channel_insert_ne rfl hpid

theorem forget_channel {s : ProcessSupervisor} (hne : pid ≠ id) :
    (s.forget id).channel pid = s.channel pid := by
  unfold forget
  split
  · rfl
  split
  · refine channel_of_lookup ?_; exact lookup_erase_ne hne
  · rfl

theorem forget_nextId (s : ProcessSupervisor) (id : ProcessId) :
    (s.forget id).nextId = s.nextId := by
  unfold forget
  split
  · rfl
  · split <;> rfl

theorem takeEvent_channel {s : ProcessSupervisor} {ev : ProcessEvent}
    (h : s.takeEvent id = some (ev, s')) (pid : ProcessId) :
    s'.channel pid = s.channel pid ∧ s'.nextId = s.nextId ∧
      (∀ {p'}, s'.processes.lookup pid = some p' →
        ∃ p, s.processes.lookup pid = some p ∧ p.phase = p'.phase ∧ p.refuses = p'.refuses) := by
  unfold takeEvent at h
  cases hp : s.processes.lookup id with
  | none => rw [hp] at h; cases h
  | some p =>
    rw [hp] at h; simp only at h
    split at h
    · cases h
    cases h
    by_cases hpid : pid = id
    · subst hpid
      refine ⟨?_, rfl, ?_⟩
      · rw [channel_insert rfl, channel_eq hp]
      intro p' hp'; rw [lookup_insert] at hp'; cases hp'
      exact ⟨p, hp, rfl, rfl⟩
    refine ⟨channel_insert_ne rfl hpid, rfl, ?_⟩; intro p' hp'
    rw [lookup_insert_ne hpid] at hp'; exact ⟨p', hp', rfl, rfl⟩

theorem report_channel (s : ProcessSupervisor) (id : ProcessId) (ev : ProcessEvent)
    (pid : ProcessId) : (s.channel pid).Takes Life.Silent ((s.report id ev).channel pid) ∧
      (s.report id ev).nextId = s.nextId := by
  unfold report
  cases hp : s.processes.lookup id with
  | none => exact ⟨.refl _, rfl⟩
  | some p =>
    simp only
    split
    · exact ⟨.refl _, rfl⟩
    rename_i phase hphase
    refine ⟨?_, rfl⟩
    by_cases hpid : pid = id
    · subst hpid; rw [channel_eq hp, channel_insert rfl]
      refine ⟨rfl, ?_, [], (append_nil _).symm, nil_sublist _, fun _ => rfl⟩
      intro hended; rw [of_decide_eq_true hended] at hphase; cases hphase
    · exact .of_eq (channel_insert_ne rfl hpid)

theorem setRefusal_channel (s : ProcessSupervisor) (id : ProcessId)
    (refuses : Frame → Option String) (pid : ProcessId) :
    (s.setRefusal id refuses).channel pid = s.channel pid ∧
      (s.setRefusal id refuses).nextId = s.nextId := by
  unfold setRefusal
  cases hp : s.processes.lookup id with
  | none => exact ⟨rfl, rfl⟩
  | some p =>
    refine ⟨?_, rfl⟩
    by_cases hpid : pid = id
    · subst hpid; rw [channel_insert rfl, channel_eq hp]
    · exact channel_insert_ne rfl hpid

theorem spawn_channel (s : ProcessSupervisor) :
    (∀ pid, pid < s.nextId → s.spawn.2.channel pid = s.channel pid) ∧
      s.spawn.2.nextId = s.nextId + 1 ∧
      ∀ {pid}, s.spawn.1 = .ok pid → pid = s.nextId ∧ s.spawn.2.channel pid = ⟨pid, [], false⟩ := by
  unfold spawn
  split
  · exact ⟨fun _ _ => rfl, rfl, nofun⟩
  refine ⟨fun pid hlt => channel_insert_ne rfl (ne_of_lt hlt), rfl, ?_⟩; intro pid hpid
  cases hpid
  refine ⟨rfl, ?_⟩; rw [channel_insert (s := s) rfl]; rfl

def writeAll (s : ProcessSupervisor) (id : ProcessId) (frames : List Frame) : ProcessSupervisor :=
  frames.foldl (fun s frame => (s.writeStdin id frame).2) s

/-- A process that has not ended refuses none of the frames. -/
def Accepts (s : ProcessSupervisor) (id : ProcessId) (frames : List Frame) : Prop :=
  ∀ {p}, s.processes.lookup id = some p → p.phase ≠ .ended → ∀ f ∈ frames, p.refuses f = none

theorem writeAll_ended {s : ProcessSupervisor} (h : s.hasEnded id = true)
    (frames : List Frame) : s.writeAll id frames = s := by
  induction frames with
  | nil => rfl
  | cons frame frames ih =>
    have hsame : (s.writeStdin id frame).2 = s := by
      unfold hasEnded at h; unfold writeStdin
      cases hp : s.processes.lookup id with
      | none => rfl
      | some p => rw [hp] at h; simp [of_decide_eq_true h]
    show (s.writeStdin id frame).2.writeAll id frames = s
    rw [hsame, ih]

theorem writeAll_accepted {s : ProcessSupervisor}
    {frames : List Frame} (hp : s.processes.lookup id = some p) (hlive : p.phase ≠ .ended)
    (h : ∀ f ∈ frames, p.refuses f = none) :
    (s.writeAll id frames).processes.lookup id = some
    { p with written := p.written ++ frames } := by
  induction frames generalizing s p with
  | nil => rw [append_nil]; exact hp
  | cons frame frames ih =>
    have hwritten : (s.writeStdin id frame).2.processes.lookup id =
        some { p with written := p.written ++ [frame] } := by
      simp only [writeStdin, hp, hlive, if_false, h frame mem_cons_self]; exact lookup_insert _
    have hrest := ih hwritten hlive fun f hf => h f (mem_cons_of_mem _ hf)
    rwa [append_assoc] at hrest

theorem writeAll_channel {s : ProcessSupervisor} {frames : List Frame} (h : s.Accepts id frames) :
    (s.channel id).ended = true ∧ ((s.writeAll id frames).channel id).ended = true ∨
      ((s.writeAll id frames).channel id).written = (s.channel id).written ++ frames := by
  by_cases hended : s.hasEnded id = true
  · exact .inl ⟨hended, by rw [writeAll_ended hended]; exact hended⟩
  unfold hasEnded at hended
  cases hp : s.processes.lookup id with
  | none => rw [hp] at hended; exact absurd rfl hended
  | some p =>
    rw [hp] at hended; have hlive : p.phase ≠ .ended := fun he => hended (decide_eq_true he)
    have hp' := writeAll_accepted hp hlive (h hp hlive); rw [channel_eq hp, channel_eq hp']
    exact .inr rfl

end ProcessSupervisor

/-! ## Clients -/

/-- The lifecycle of a client whose process is one of `s`. -/
def LspClient.life (c : LspClient) (s : ProcessSupervisor) : Life :=
  { state := c.state, restart := c.spec.restart, nextRestartAt := c.nextRestartAt
    settings := c.spec.settings, pending := c.pending, deferred := c.deferredNotifications
    channel := c.process.map s.channel }

namespace LspManager

def life (m : LspManager) (sid : LspServerId) : Option Life :=
  (m.clients.lookup sid).map (·.life m.supervisor)

variable {sid : LspServerId} {m : LspManager}

theorem life_of_lookup {c : LspClient}
    (h : m.clients.lookup sid = some c) : m.life sid = some (c.life m.supervisor) := by
  rw [life, h]
  rfl

theorem life_eq_some {l : Life} :
    m.life sid = some l ↔ ∃ c, m.clients.lookup sid = some c ∧ c.life m.supervisor = l :=
  map_eq_some_iff

theorem life_none (h : m.clients.lookup sid = none) : m.life sid = none := by
  rw [life, h]
  rfl

def processOf (m : LspManager) (sid : LspServerId) : Option ProcessId :=
  (m.clients.lookup sid).bind (·.process)

/-- Every process belongs to one client. -/
structure Owned (m : LspManager) : Prop where
  fresh : ∀ {sid pid}, m.processOf sid = some pid → pid < m.supervisor.nextId
  distinct : ∀ {sid sid' pid}, m.processOf sid = some pid → m.processOf sid' = some pid →
    sid' = sid

/-- Only one server and its process differ. -/
structure Local (s : LspServerId) (m m' : LspManager) : Prop where
  clients : ∀ {sid}, sid ≠ s → m'.clients.lookup sid = m.clients.lookup sid
  channel : ∀ {pid}, m.processOf s ≠ some pid → pid < m.supervisor.nextId →
    m'.supervisor.channel pid = m.supervisor.channel pid
  process : ∀ {pid}, m'.processOf s = some pid →
    m.processOf s = some pid ∨ m.supervisor.nextId ≤ pid ∧ pid < m'.supervisor.nextId
  next : m.supervisor.nextId ≤ m'.supervisor.nextId

variable {m' : LspManager}

theorem local_of_eq (hclients : m'.clients = m.clients)
    (hsupervisor : m'.supervisor = m.supervisor) (s : LspServerId) : Local s m m' := by
  refine ⟨fun _ => by rw [hclients], fun _ _ => by rw [hsupervisor], ?_, by rw [hsupervisor]⟩
  intro pid hpid
  rw [processOf, hclients] at hpid
  exact .inl hpid

theorem Local.refl (s : LspServerId) (m : LspManager) : Local s m m := local_of_eq rfl rfl s

variable {s : LspServerId}

theorem Local.trans {m'' : LspManager} (h : Local s m m')
    (h' : Local s m' m'') : Local s m m'' := by
  refine ⟨fun hne => (h'.clients hne).trans (h.clients hne), ?_, ?_, le_trans h.next h'.next⟩
  · intro pid hpid hlt
    refine (h'.channel ?_ (lt_of_lt_of_le hlt h.next)).trans (h.channel hpid hlt); intro hpid'
    rcases h.process hpid' with hold | ⟨hge, _⟩
    · exact hpid hold
    · exact absurd hlt (not_lt.2 hge)
  intro pid hpid
  rcases h'.process hpid with hold | ⟨hge, hlt⟩
  · exact (h.process hold).imp_right fun h => ⟨h.1, lt_of_lt_of_le h.2 h'.next⟩
  · exact .inr ⟨le_trans h.next hge, hlt⟩

theorem Owned.local (ho : Owned m) (h : Local s m m') : Owned m' := by
  have hother : ∀ {sid}, sid ≠ s → m'.processOf sid = m.processOf sid := by
    intro sid hne; rw [processOf, h.clients hne, processOf]
  have hapart : ∀ {sid pid}, sid ≠ s → m'.processOf sid = some pid → m'.processOf s = some pid →
      False := by
    intro sid pid hne hsid hs; rw [hother hne] at hsid
    rcases h.process hs with hold | ⟨hge, _⟩
    · exact hne (ho.distinct hold hsid)
    · exact absurd (ho.fresh hsid) (not_lt.2 hge)
  constructor
  · intro sid pid hpid
    by_cases hsid : sid = s
    · subst hsid
      rcases h.process hpid with hold | ⟨_, hlt⟩
      · exact lt_of_lt_of_le (ho.fresh hold) h.next
      · exact hlt
    · rw [hother hsid] at hpid; exact lt_of_lt_of_le (ho.fresh hpid) h.next
  intro sid sid' pid hpid hpid'
  by_cases hsid : sid = s
  · by_cases hsid' : sid' = s
    · rw [hsid, hsid']
    · exact (hapart hsid' hpid' (hsid ▸ hpid)).elim
  by_cases hsid' : sid' = s
  · exact (hapart hsid hpid (hsid' ▸ hpid')).elim
  · rw [hother hsid] at hpid; rw [hother hsid'] at hpid'; exact ho.distinct hpid hpid'

theorem Local.life (h : Local s m m') (ho : Owned m)
    (hne : sid ≠ s) : m'.life sid = m.life sid := by
  rw [LspManager.life, LspManager.life, h.clients hne]
  cases hc : m.clients.lookup sid with
  | none => rfl
  | some c =>
    have hchannel : c.process.map m'.supervisor.channel = c.process.map m.supervisor.channel := by
      cases hp : c.process with
      | none => rfl
      | some pid =>
        have hpid : m.processOf sid = some pid := by rw [processOf, hc]; exact hp
        refine congrArg some (h.channel ?_ (ho.fresh hpid))
        exact fun hs => hne (ho.distinct hs hpid)
    simp [LspClient.life, hchannel]

/-- An operation on one server that only talks to its process. -/
structure Speaks (ns : List Frame) (s : LspServerId) (m m' : LspManager) : Prop
    extends Local s m m' where
  own : Option.Rel (Life.Talks ns) (m.life s) (m'.life s)

section
variable {ns ns' : List Frame} {m'' : LspManager}

theorem Speaks.refl (s : LspServerId) (m : LspManager) : Speaks ns s m m :=
  ⟨.refl s m, Life.rel_refl .refl _⟩

theorem Speaks.append (h : Speaks ns s m m') (h' : Speaks ns' s m' m'') :
    Speaks (ns ++ ns') s m m'' :=
  ⟨h.toLocal.trans h'.toLocal, Life.rel_trans .trans h.own h'.own⟩

theorem Speaks.trans (h : Speaks Life.Silent s m m') (h' : Speaks ns s m' m'') :
    Speaks ns s m m'' := h.append h'

theorem speaks_of_eq (hclients : m'.clients = m.clients)
    (hsupervisor : m'.supervisor = m.supervisor) (s : LspServerId) : Speaks ns s m m' := by
  refine ⟨local_of_eq hclients hsupervisor s, ?_⟩
  rw [life, life, hclients, hsupervisor]
  exact Life.rel_refl .refl _

end

/-! ## What talks to one process -/

section
variable {ns : List Frame} {c c' : LspClient}

theorem local_insert (hclients : m'.clients = m.clients.insert s c')
    (hsupervisor : m'.supervisor = m.supervisor)
    (hprocess : ∀ {pid}, c'.process = some pid → m.processOf s = some pid) : Local s m m' := by
  refine ⟨?_, fun _ _ => by rw [hsupervisor], ?_, by rw [hsupervisor]⟩
  · intro sid hne; rw [hclients, lookup_insert_ne hne]
  · intro pid hpid; rw [processOf, hclients, lookup_insert] at hpid; exact .inl (hprocess hpid)

theorem life_insert (hclients : m'.clients = m.clients.insert s c') :
    m'.life s = some (c'.life m'.supervisor) := by
  rw [life, hclients, lookup_insert]
  rfl

theorem processOf_of_lookup (hc : m.clients.lookup s = some c) : m.processOf s = c.process := by
  rw [processOf, hc]
  rfl

theorem speaks_insert (hc : m.clients.lookup s = some c)
    (hclients : m'.clients = m.clients.insert s c') (hsupervisor : m'.supervisor = m.supervisor)
    (hprocess : c'.process = c.process)
    (htalks : Life.Talks ns (c.life m.supervisor) (c'.life m.supervisor)) : Speaks ns s m m' := by
  refine ⟨local_insert hclients hsupervisor ?_, ?_⟩
  · intro pid hpid; rw [processOf_of_lookup hc, ← hprocess]; exact hpid
  · rw [life_of_lookup hc, life_insert hclients, hsupervisor]; exact .some htalks

theorem speaks_sendFrameTo (hprocess : m.processOf s = c.process) (frame : Frame) :
    Speaks ([frame].filter (·.isNotification)) s m (m.sendFrameTo c frame).2 := by
  unfold sendFrameTo
  cases hp : c.process with
  | none => exact .refl s m
  | some pid =>
    rw [hp] at hprocess
    obtain ⟨htakes, hothers, hnext⟩ := m.supervisor.writeStdin_channel pid frame
    refine ⟨⟨fun _ => rfl, ?_, ?_, le_of_eq hnext.symm⟩, ?_⟩
    · intro pid' hpid' _
      refine hothers pid' ?_; rintro rfl; exact hpid' hprocess
    · exact fun hpid' => .inl hpid'
    cases hc : m.clients.lookup s with
    | none => rw [processOf, hc] at hprocess; cases hprocess
    | some c₀ =>
      rw [processOf_of_lookup hc] at hprocess
      have hc' : ({ m with supervisor := (m.supervisor.writeStdin pid frame).2 } :
        LspManager).clients.lookup s = some c₀ := hc
      rw [life_of_lookup hc]
      refine (life_of_lookup hc').symm ▸ .some ⟨rfl, rfl, rfl, rfl, rfl, fun _ _ _ h => h, ?_⟩
      simp only [LspClient.life, hprocess, map_some]; exact .some htakes

theorem speaks_sendQuietly (m : LspManager) (s : LspServerId) (frame : Frame) :
    Speaks ([frame].filter (·.isNotification)) s m (m.sendQuietly s frame) := by
  unfold sendQuietly
  split
  · exact .refl s m
  · rename_i c hc; exact speaks_sendFrameTo (processOf_of_lookup hc) frame

theorem speaks_sendResponse (m : LspManager) (s : LspServerId) (id : Value)
    (result : Except LspError Value) : Speaks Life.Silent s m (m.sendResponse s id result).2 := by
  unfold sendResponse
  split
  · exact .refl s m
  rename_i c hc
  exact speaks_sendFrameTo (processOf_of_lookup hc) (.response id result)

theorem speaks_modifyClient {f : LspClient → LspClient}
    (hf : ∀ c sup, (f c).process = c.process ∧ Life.Talks ns (c.life sup) ((f c).life sup)) :
    Speaks ns s m (m.modifyClient s f) := by
  unfold modifyClient
  split
  · exact .refl s m
  · rename_i c hc; exact speaks_insert hc rfl rfl (hf c m.supervisor).1 (hf c m.supervisor).2

theorem speaks_pushEvent (m : LspManager) (s sid : LspServerId) (kind : LspEventKind) :
    Speaks ns s m (m.pushEvent sid kind) := by
  refine speaks_of_eq ?_ ?_ s
  · rfl
  · rfl

theorem talks_pending {sup : ProcessSupervisor} (hstate : c'.state = c.state)
    (hspec : c'.spec = c.spec) (hat : c'.nextRestartAt = c.nextRestartAt)
    (hdeferred : c'.deferredNotifications = c.deferredNotifications)
    (hprocess : c'.process = c.process)
    (hpending : ∀ {rid method}, c'.pending.lookup rid = some method →
      c.pending.lookup rid = some method) : Life.Talks ns (c.life sup) (c'.life sup) := by
  refine ⟨hstate, by simp only [LspClient.life, hspec], hat, by simp only [LspClient.life, hspec],
    hdeferred, fun _ _ _ => hpending, ?_⟩
  simp only [LspClient.life, hprocess]
  exact Life.rel_refl Channel.Takes.refl _

end

theorem speaks_sendNotification
    (h : ∀ {c}, m.clients.lookup s = some c → c.state.isBeforeHandshake = false)
    (method : String) (params : Value) :
    Speaks [.notification method params] s m (m.sendNotification s method params).2 := by
  unfold sendNotification
  split
  · exact .refl s m
  rename_i c hc
  split
  · exact .refl s m
  rw [if_neg (by rw [h hc]; exact Bool.false_ne_true)]
  exact speaks_sendFrameTo (processOf_of_lookup hc) (.notification method params)

theorem sendNotification_before {c : LspClient}
    (hc : m.clients.lookup s = some c) (hb : c.state.isBeforeHandshake = true) (method : String)
    (params : Value) :
    (m.sendNotification s method params).2.clients = m.clients.insert s { c with
      deferredNotifications := c.deferredNotifications ++ [(method, params)] } ∧
      (m.sendNotification s method params).2.supervisor = m.supervisor := by
  have hnot : c.state.isTerminal = false := by
    cases hs : c.state <;> simp_all [LspClientState.isBeforeHandshake, LspClientState.isTerminal]
  simp only [sendNotification, hc, hnot, Bool.false_eq_true, if_false, hb, if_true, modifyClient]
  trivial

theorem speaks_sendRequest (m : LspManager) (s : LspServerId) (method : String) (params : Value) :
    Speaks Life.Silent s m (m.sendRequest s method params).2 := by
  unfold sendRequest
  split
  · exact .refl s m
  rename_i c hc
  split
  · rename_i hready
    have hadd : Speaks Life.Silent s m
        { m with clients := m.clients.insert s (c.addRequest method) } := by
      refine speaks_insert hc rfl rfl rfl ⟨rfl, rfl, rfl, rfl, rfl, ?_, Life.rel_refl
        Channel.Takes.refl _⟩
      intro hnot; exact absurd (hready.symm.trans hnot) (by simp)
    refine hadd.trans (speaks_sendFrameTo ?_ (.request c.nextRequestId method params))
    rw [processOf, lookup_insert]; rfl
  · exact .refl s m

theorem speaks_request (m : LspManager) (s : LspServerId) (ask : Ask) :
    Speaks Life.Silent s m (m.request s ask).2 := by
  have hsend := speaks_sendRequest m s ask.method ask.params
  unfold request
  split
  · rename_i e m' heq; rwa [heq] at hsend
  rename_i rid m' heq; rw [heq] at hsend
  refine hsend.trans (speaks_of_eq ?_ ?_ s)
  · cases ask.route <;> rfl
  · cases ask.route <;> rfl

end LspManager

end Pmacs
