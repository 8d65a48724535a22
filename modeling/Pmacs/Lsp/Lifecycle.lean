/-
  The lifecycle of a language server's client (lsp.rs, "Lifecycle"), by itself.

  * `Life` is what the lifecycle is about: the state of a client, what it holds back and
    what was written to its process;
  * `Life.Step` are the steps of a client whose lifecycle is kept: it starts once, is
    greeted once, and is not told anything before;
  * `Life.Inv` says where the notifications are that were issued before the handshake, and
    `inv_step` that every step keeps it.
-/
import Pmacs.Lsp.Client

namespace Pmacs

open Lib AList List Option LspClientState

variable {ch : Channel} {ns ns' : List Frame} {α : Type*} {r : α → α → Prop}

/-! ## Clients -/

/-- The process of a client, and what was written to it. -/
structure Channel where
  pid : ProcessId
  written : List Frame
  ended : Bool

/-- What the lifecycle of a client is about. -/
structure Life where
  state : LspClientState
  restart : LspRestartPolicy
  nextRestartAt : Option ℕ
  settings : Option Value
  pending : Assoc ℕ String
  deferred : List (String × Value)
  channel : Option Channel

def Frame.isNotification : Frame → Bool
  | .notification .. => true
  | _ => false

def Frame.ofNotice (n : String × Value) : Frame := .notification n.1 n.2

/-- What a client is told when its handshake is answered, before what was held back. -/
def Frame.greeting (settings : Option Value) : List Frame :=
  .notification "initialized" (.object []) ::
    (settings.map fun s => .notification "workspace/didChangeConfiguration"
      (.object [("settings", s)])).toList

/-- Frames are written to a process, of notifications at most `ns`, in order; none to one that has
    ended. -/
structure Channel.Takes (ns : List Frame) (ch ch' : Channel) : Prop where
  pid : ch'.pid = ch.pid
  ended : ch.ended = true → ch'.ended = true
  frames : ∃ fs, ch'.written = ch.written ++ fs ∧ fs.filter (·.isNotification) <+ ns ∧
    (ch.ended = true → fs = [])

theorem Channel.Takes.refl (ch : Channel) : ch.Takes ns ch :=
  ⟨rfl, id, [], (append_nil _).symm, nil_sublist _, fun _ => rfl⟩

variable {ch' : Channel}

theorem Channel.Takes.of_eq (h : ch' = ch) : ch.Takes ns ch' := by
  rw [h]
  exact .refl ch

theorem Channel.Takes.trans {ch'' : Channel} (h : ch.Takes ns ch')
    (h' : ch'.Takes ns' ch'') : ch.Takes (ns ++ ns') ch'' := by
  obtain ⟨fs, hwritten, hfs, hended⟩ := h.frames
  obtain ⟨fs', hwritten', hfs', hended'⟩ := h'.frames
  refine ⟨h'.pid.trans h.pid, fun he => h'.ended (h.ended he), fs ++ fs', ?_, ?_, ?_⟩
  · rw [hwritten', hwritten, append_assoc]
  · rw [filter_append]; exact hfs.append hfs'
  · intro he; rw [hended he, hended' (h.ended he)]; rfl


namespace Life

def pid (l : Option Life) : Option ProcessId := (l.bind (·.channel)).map (·.pid)

/-- Nothing changes of a client's lifecycle but what was written to its process; requests
    are added only once it is initialized. -/
structure Talks (ns : List Frame) (l l' : Life) : Prop where
  state : l'.state = l.state
  restart : l'.restart = l.restart
  nextRestartAt : l'.nextRestartAt = l.nextRestartAt
  settings : l'.settings = l.settings
  deferred : l'.deferred = l.deferred
  pending : l.state.isReadyForRequest = false → ∀ {rid method},
    l'.pending.lookup rid = some method → l.pending.lookup rid = some method
  channel : Option.Rel (Channel.Takes ns) l.channel l'.channel

theorem rel_refl (h : ∀ a, r a a) (o : Option α) : Option.Rel r o o := by
  cases o with
  | none => exact .none
  | some a => exact .some (h a)

theorem rel_trans {r' r'' : α → α → Prop} (h : ∀ {a b c}, r a b → r' b c → r'' a c)
    {o o' o'' : Option α} (ho : Option.Rel r o o') (ho' : Option.Rel r' o' o'') :
    Option.Rel r'' o o'' := by
  cases ho with
  | none => cases ho'; exact .none
  | some hab =>
    cases ho' with
    | some hbc => exact .some (h hab hbc)

theorem Talks.refl (l : Life) : l.Talks ns l :=
  ⟨rfl, rfl, rfl, rfl, rfl, fun _ _ _ h => h, rel_refl Channel.Takes.refl _⟩

theorem Talks.trans {l l' l'' : Life} (h : l.Talks ns l') (h' : l'.Talks ns' l'') :
    l.Talks (ns ++ ns') l'' :=
  ⟨h'.state.trans h.state, h'.restart.trans h.restart, h'.nextRestartAt.trans h.nextRestartAt,
    h'.settings.trans h.settings, h'.deferred.trans h.deferred,
    fun hr _ _ hp => h.pending hr (h'.pending (h.state ▸ hr) hp), rel_trans .trans h.channel h'.channel⟩

/-- What a client is notified of before its handshake is answered. -/
abbrev Silent : List Frame := []

/-- The process of a client was told something, or has ended. -/
def Told (l : Life) : Prop :=
  ∃ ch, l.channel = some ch ∧ ((∃ f ∈ ch.written, f.isNotification = true) ∨ ch.ended = true)

/-- A client whose process was just spawned. -/
structure Fresh (l : Life) : Prop where
  state : l.state = .starting
  pending : ∀ rid, l.pending.lookup rid = none
  deferred : l.deferred = []
  channel : ∃ pid, l.channel = some ⟨pid, [], false⟩

/-! ## Steps -/

/-- What happens to a client: notifications are issued to it, or the answer to its handshake
    comes. -/
inductive Event where
  | issued (notices : List (String × Value))
  | greeted (rid : ℕ)

def Event.notices : Event → List (String × Value)
  | .issued notices => notices
  | .greeted _ => []

/-- The steps of a client whose lifecycle is kept, and what its process is notified of in one after
    the handshake, at most. -/
inductive Step : Option Life → Event → List Frame → Option Life → Prop
  | absent {ns fs} : Step none (.issued ns) fs none
  | talks {l l' ns fs} : l.Talks Silent l' → (l.state.isBeforeHandshake = true → ns = []) →
      Step (some l) (.issued ns) fs (some l')
  | tells {l l' ns fs} : l.Talks fs l' → l.state.isBeforeHandshake = false →
      (l.state.isShuttingDown = true → l.Told) → Step (some l) (.issued ns) fs (some l')
  | defers {l n fs} : l.state.isBeforeHandshake = true →
      Step (some l) (.issued [n]) fs (some { l with deferred := l.deferred ++ [n] })
  | stops {l l' fs} : l'.restart = .never → l'.nextRestartAt = none → l'.settings = l.settings →
      l'.deferred = l.deferred →
      (l.state.isTerminal = true ∧ l'.state = l.state ∨
        l.state.isTerminal = false ∧ l'.state.isShuttingDown = true) →
      (l.state.isReadyForRequest = false → ∀ {rid method},
        l'.pending.lookup rid = some method → l.pending.lookup rid = some method) →
      Option.Rel (Channel.Takes Silent) l.channel l'.channel → Step (some l) (.issued []) fs (some l')
  | starts {l l' rid atTime fs} : l.state = .starting → l'.state = .initializing rid atTime →
      l'.restart = l.restart → l'.nextRestartAt = l.nextRestartAt → l'.settings = l.settings →
      l'.deferred = l.deferred → l'.pending = l.pending.insert rid "initialize" →
      Option.Rel (Channel.Takes Silent) l.channel l'.channel → Step (some l) (.issued []) fs (some l')
  | greets {l l' rid atTime ch ch' fs} : l.state = .initializing rid atTime →
      l'.state.isReadyForRequest = true → l'.restart = l.restart →
      l'.nextRestartAt = l.nextRestartAt → l'.settings = l.settings → l'.deferred = [] →
      l.channel = some ch → l'.channel = some ch' → ch'.pid = ch.pid →
      (ch.ended = true ∧ ch'.ended = true ∨ ch'.written =
        ch.written ++ (Frame.greeting l.settings ++ l.deferred.map Frame.ofNotice)) →
      Step (some l) (.greeted rid) fs (some l')
  | shutdownAnswered {l l' fs} : l.state.isBeforeHandshake = false → l.state.isTerminal = false →
      (l.state.isShuttingDown = true → l.Told) → l'.state = .shuttingDown none →
      l'.restart = l.restart → l'.nextRestartAt = l.nextRestartAt → l'.settings = l.settings →
      l'.deferred = l.deferred →
      (∀ {rid method}, l'.pending.lookup rid = some method →
        l.pending.lookup rid = some method) →
      Option.Rel (Channel.Takes fs) l.channel l'.channel →
      Step (some l) (.issued []) fs (some l')
  | exits {l l' fs} : l.channel.isSome = true → l'.channel = none → l'.state.isTerminal = true →
      (l.state.isShuttingDown = true → ∃ ended, l'.state = .stopped ended) →
      l'.restart = l.restart →
      (l.restart = .never → l'.nextRestartAt = l.nextRestartAt) → Step (some l) (.issued []) fs (some l')
  | restarts {l l' fs} : l.state.isTerminal = true → l.nextRestartAt ≠ none → l.channel = none →
      l'.restart = l.restart → (l'.Fresh ∨ l'.state.isTerminal = true ∧ l'.channel = none) →
      Step (some l) (.issued []) fs (some l')
  | born {l' fs} : l'.Fresh → Step none (.issued []) fs (some l')
  | gone {l fs} : Step (some l) (.issued []) fs none

/-! ## What every step keeps -/

/-- What was issued is held back, and the process was told nothing. -/
structure Waiting (early : List (String × Value)) (l : Life) (ch : Channel) : Prop where
  deferred : l.deferred = early
  silent : ∀ f ∈ ch.written, f.isNotification = false
  pending : ∀ {rid method}, l.pending.lookup rid = some method → method = "initialize" ∧
    ∀ {rid' atTime}, l.state = .initializing rid' atTime → rid = rid'

/-- What was issued was sent once, in order, after the greeting; of notifications, nothing was
    before, and after it at most `late`. -/
structure Greeted (early : List (String × Value)) (late : List Frame) (l : Life) (ch : Channel) :
    Prop where
  deferred : l.deferred = []
  sent : ∃ before after, (∀ f ∈ before, f.isNotification = false) ∧
    ch.written = before ++ (Frame.greeting l.settings ++ early.map Frame.ofNotice) ++ after ∧
    after.filter (·.isNotification) <+ late

/-- The notifications `early` that were issued to a client before its handshake was answered
    are held back, or were sent after the greeting, or lost with its process. -/
structure Inv (early : List (String × Value)) (late : List Frame) (l : Life) : Prop where
  terminal : l.state.isTerminal = true ↔ l.channel = none
  before : ∀ {ch}, l.channel = some ch → l.state.isBeforeHandshake = true → Waiting early l ch
  starting : l.state = .starting → ∀ rid, l.pending.lookup rid = none
  ready : ∀ {ch}, l.channel = some ch → l.state.isReadyForRequest = true →
    Greeted early late l ch ∨ ch.ended = true
  stopping : ∀ {ch}, l.channel = some ch → l.state.isShuttingDown = true →
    Waiting early l ch ∨ Greeted early late l ch ∨ ch.ended = true

/-- The notifications issued to a process before its handshake is answered, after a step. -/
def earlyAfter (l : Option Life) (notices : List (String × Value)) (l' : Option Life)
    (early : List (String × Value)) : List (String × Value) :=
  if pid l' = pid l then
    if l.any (·.state.isBeforeHandshake) then early ++ notices else early
  else []

/-- What a process is notified of after its handshake was answered, after a step. -/
def lateAfter (l : Option Life) (fs : List Frame) (l' : Option Life) (late : List Frame) :
    List Frame :=
  if pid l' = pid l then if l.any (·.state.isBeforeHandshake) then [] else late ++ fs else []

section
variable {early : List (String × Value)} {late late' : List Frame} {l l' : Life}

theorem Greeted.takes (h : Greeted early late l ch) (hch : ch.Takes ns ch')
    (hdeferred : l'.deferred = l.deferred) (hsettings : l'.settings = l.settings)
    (hlate : late ++ ns <+ late') : Greeted early late' l' ch' := by
  obtain ⟨before, after, hsilent, hsent, hafter⟩ := h.sent
  obtain ⟨fs, hwritten, hfs, _⟩ := hch.frames
  refine ⟨hdeferred.trans h.deferred, before, after ++ fs, hsilent, ?_, ?_⟩
  · rw [hwritten, hsent, hsettings, append_assoc]
  · rw [filter_append]; exact (hafter.append hfs).trans hlate

theorem silent_of_takes {fs : List Frame} (h : fs.filter (·.isNotification) <+ Silent) :
    ∀ f ∈ fs, f.isNotification = false := by
  simpa using sublist_nil.1 h

theorem Waiting.takes (h : Waiting early l ch) (hch : ch.Takes Silent ch')
    (hdeferred : l'.deferred = l.deferred)
    (hstate : ∀ {rid atTime}, l'.state = .initializing rid atTime →
      ∃ atTime', l.state = .initializing rid atTime')
    (hpending : ∀ {rid method}, l'.pending.lookup rid = some method →
      l.pending.lookup rid = some method) : Waiting early l' ch' := by
  obtain ⟨fs, hwritten, hfs, _⟩ := hch.frames
  refine ⟨hdeferred.trans h.deferred, ?_, ?_⟩
  · intro f hf; rw [hwritten] at hf
    rcases mem_append.1 hf with hf | hf
    · exact h.silent f hf
    · exact silent_of_takes hfs f hf
  intro rid method hp; obtain ⟨hmethod, hrid⟩ := h.pending (hpending hp)
  refine ⟨hmethod, ?_⟩; intro rid' atTime hs; obtain ⟨atTime', hs'⟩ := hstate hs
  exact hrid hs'

theorem Inv.greeted_of_told (h : Inv early late l) (hch : l.channel = some ch)
    (hs : l.state.isShuttingDown = true) (ht : l.Told) :
    Greeted early late l ch ∨ ch.ended = true := by
  rcases h.stopping hch hs with hwait | hrest
  · obtain ⟨ch', hch', htold⟩ := ht; cases hch.symm.trans hch'
    rcases htold with ⟨f, hf, hnotice⟩ | hended
    · rw [hwait.silent f hf] at hnotice; cases hnotice
    · exact .inr hended
  · exact hrest

theorem rel_some {o o' : Option Channel} (h : Option.Rel (Channel.Takes ns) o o')
    (ho' : o' = some ch') : ∃ ch, o = some ch ∧ ch.Takes ns ch' := by
  cases h with
  | none => cases ho'
  | some h => cases ho'; exact ⟨_, rfl, h⟩

theorem rel_none {o o' : Option Channel}
    (h : Option.Rel (Channel.Takes ns) o o') : o' = none ↔ o = none := by
  cases h with
  | none => exact Iff.rfl
  | some _ => simp

theorem Fresh.inv (h : l.Fresh) : Inv [] late l := by
  obtain ⟨pid, hch⟩ := h.channel
  refine ⟨?_, ?_, fun _ => h.pending, ?_, ?_⟩
  · rw [h.state, hch]; simp [isTerminal]
  · intro ch hch' _; cases hch.symm.trans hch'
    refine ⟨h.deferred, nofun, ?_⟩; intro rid method hp
    rw [h.pending rid] at hp; cases hp
  · intro ch _ hr; rw [h.state] at hr; cases hr
  · intro ch _ hs; rw [h.state] at hs; cases hs

theorem inv_terminal (hs : l.state.isTerminal = true) (hch : l.channel = none) :
    Inv early late l := by
  refine ⟨⟨fun _ => hch, fun _ => hs⟩, ?_, ?_, ?_, ?_⟩
  · intro ch hch'; rw [hch] at hch'; cases hch'
  · intro hstart; rw [hstart] at hs; cases hs
  · intro ch hch'; rw [hch] at hch'; cases hch'
  · intro ch hch'; rw [hch] at hch'; cases hch'

end

theorem pid_eq_of_rel {l l' : Life}
    (h : Option.Rel (Channel.Takes ns) l.channel l'.channel) : pid (some l') = pid (some l) := by
  have hmap : ∀ {o o' : Option Channel}, Option.Rel (Channel.Takes ns) o o' →
      o'.map (·.pid) = o.map (·.pid) := by
    intro o o' ho
    cases ho with
    | none => rfl
    | some ho => exact congrArg some ho.pid
  exact hmap h

variable {early : List (String × Value)} {late late' fs : List Frame}

theorem earlyAfter_same {l l' : Life} {ns : List (String × Value)}
    (hpid : pid (some l') = pid (some l)) (hns : l.state.isBeforeHandshake = true → ns = []) :
    earlyAfter (some l) ns (some l') early = early := by
  rw [earlyAfter, if_pos hpid, any_some]
  split
  · rename_i hbefore; rw [hns hbefore, append_nil]
  · rfl

theorem lateAfter_same {l l' : Life} (hpid : pid (some l') = pid (some l))
    (hnot : l.state.isBeforeHandshake = false) :
    lateAfter (some l) fs (some l') late = late ++ fs := by
  rw [lateAfter, if_pos hpid, any_some, hnot]; rfl

theorem inv_talks {l l' : Life} (h : Inv early late l) (ht : l.Talks ns l')
    (hsilent : ns = Silent ∨ l.state.isBeforeHandshake = false ∧
      (l.state.isShuttingDown = true → l.Told))
    (hlate : l.state.isBeforeHandshake = false → late ++ ns <+ late') : Inv early late' l' := by
  have hover : l.state.isReadyForRequest = true ∨ l.state.isShuttingDown = true →
      late ++ ns <+ late' := by
    intro hs
    refine hlate ?_
    cases hstate : l.state <;> simp_all [isBeforeHandshake, isShuttingDown, isReadyForRequest]
  have hpending : l.state.isBeforeHandshake = true ∨ l.state.isShuttingDown = true →
      ∀ {rid method}, l'.pending.lookup rid = some method →
        l.pending.lookup rid = some method := by
    intro hs
    refine ht.pending ?_
    cases hstate : l.state <;> simp_all [isBeforeHandshake,
      isShuttingDown, isReadyForRequest]
  have hinit : ∀ {rid atTime}, l'.state = .initializing rid atTime →
      ∃ atTime', l.state = .initializing rid atTime' := fun hs => ⟨_, ht.state ▸ hs⟩
  refine ⟨?_, ?_, ?_, ?_, ?_⟩
  · rw [ht.state, rel_none ht.channel]; exact h.terminal
  · intro ch' hch' hs; rw [ht.state] at hs; obtain ⟨ch, hch, htakes⟩ := rel_some ht.channel hch'
    rcases hsilent with rfl | ⟨hnot, _⟩
    · exact (h.before hch hs).takes htakes ht.deferred hinit (hpending (.inl hs))
    · rw [hnot] at hs; cases hs
  · intro hs rid; rw [ht.state] at hs
    have hbefore : l.state.isBeforeHandshake = true := by rw [hs]; rfl
    cases hp : l'.pending.lookup rid with
    | none => rfl
    | some method =>
      have hold := hpending (.inl hbefore) hp; rw [h.starting hs rid] at hold; cases hold
  · intro ch' hch' hs; rw [ht.state] at hs; obtain ⟨ch, hch, htakes⟩ := rel_some ht.channel hch'
    rcases h.ready hch hs with hgreeted | hended
    · exact .inl (hgreeted.takes htakes ht.deferred ht.settings (hover (.inl hs)))
    · exact .inr (htakes.ended hended)
  intro ch' hch' hs; rw [ht.state] at hs; obtain ⟨ch, hch, htakes⟩ := rel_some ht.channel hch'
  have hsort : Waiting early l ch ∧ ns = Silent ∨ Greeted early late l ch ∨
      ch.ended = true := by
    rcases hsilent with hns | ⟨_, htold⟩
    · exact (h.stopping hch hs).imp_left fun hw => ⟨hw, hns⟩
    · exact .inr (h.greeted_of_told hch hs (htold hs))
  rcases hsort with ⟨hwait, rfl⟩ | hgreeted | hended
  · exact .inl (hwait.takes htakes ht.deferred hinit (hpending (.inr hs)))
  · exact .inr (.inl (hgreeted.takes htakes ht.deferred ht.settings (hover (.inr hs))))
  · exact .inr (.inr (htakes.ended hended))

theorem Inv.whereabouts {l : Life} (h : Inv early late l) (hch : l.channel = some ch) :
    (l.state.isReadyForRequest = false ∧ Waiting early l ch) ∨
      (l.state.isBeforeHandshake = false ∧ Greeted early late l ch) ∨ ch.ended = true := by
  have hnot : l.state.isTerminal = false := by
    by_contra hterm
    rw [Bool.not_eq_false] at hterm; rw [h.terminal.1 hterm] at hch; cases hch
  cases hstate : l.state with
  | starting | initializing => exact .inl ⟨rfl, h.before hch (by rw [hstate]; rfl)⟩
  | initialized _ _ _ => exact .inr ((h.ready hch (by rw [hstate]; rfl)).imp_left (.intro rfl))
  | shuttingDown _ =>
    exact (h.stopping hch (by rw [hstate]; rfl)).imp (.intro rfl) (.imp_left (.intro rfl))
  | stopped | crashed => rw [hstate] at hnot; cases hnot

theorem Inv.channel_of {l : Life} (h : Inv early late l)
    (hterm : l.state.isTerminal = false) : ∃ ch, l.channel = some ch := by
  refine ne_none_iff_exists'.1 ?_
  intro hnone
  rw [h.terminal.2 hnone] at hterm
  cases hterm

/-- A client that awaits the answer to another request than its handshake was greeted. -/
theorem Inv.of_pending {l : Life} (h : Inv early late l) {rid : ℕ}
    {method : String} (hp : l.pending.lookup rid = some method) (hmethod : method ≠ "initialize") :
    l.state.isBeforeHandshake = false ∧ (l.state.isShuttingDown = true → l.Told) := by
  have hnot : ∀ {ch}, ¬ Waiting early l ch := fun hwait => hmethod (hwait.pending hp).1
  constructor
  · cases hs : l.state with
    | starting | initializing =>
      obtain ⟨ch, hch⟩ := h.channel_of (by rw [hs]; rfl)
      exact absurd (h.before hch (by rw [hs]; rfl)) hnot
    | _ => rfl
  intro hs
  have hterm : l.state.isTerminal = false := by
    cases hl : l.state <;> simp_all [isShuttingDown, isTerminal]
  obtain ⟨ch, hch⟩ := h.channel_of hterm
  rcases h.stopping hch hs with hwait | hgreeted | hended
  · exact absurd hwait hnot
  · obtain ⟨before, after, _, hsent, _⟩ := hgreeted.sent
    refine ⟨ch, hch, .inl ⟨.notification "initialized" (.object []), ?_, rfl⟩⟩; rw [hsent]
    simp [Frame.greeting]
  · exact ⟨ch, hch, .inr hended⟩

theorem inv_stopping {l : Life} (hs : l.state.isShuttingDown = true) (hsome : l.channel ≠ none)
    (h : ∀ {ch}, l.channel = some ch →
      Waiting early l ch ∨ Greeted early late l ch ∨ ch.ended = true) : Inv early late l := by
  cases hstate : l.state with
  | shuttingDown rid =>
    refine ⟨⟨?_, fun hnone => absurd hnone hsome⟩, ?_, ?_, ?_, fun hch _ => h hch⟩
    · intro hterm; rw [hstate] at hterm; cases hterm
    · intro ch _ hb; rw [hstate] at hb; cases hb
    · intro hstart; rw [hstate] at hstart; cases hstart
    · intro ch _ hr; rw [hstate] at hr; cases hr
  | _ => rw [hstate] at hs; cases hs

theorem inv_starts {l l' : Life} (h : Inv early late l) {rid atTime : ℕ}
    (hstart : l.state = .starting) (hstate : l'.state = .initializing rid atTime)
    (hdeferred : l'.deferred = l.deferred)
    (hpending : l'.pending = l.pending.insert rid "initialize")
    (hchannel : Option.Rel (Channel.Takes Silent) l.channel l'.channel) : Inv early late' l' := by
  have hnone : l.channel ≠ none := by
    intro hnone; have hterm := h.terminal.2 hnone; rw [hstart] at hterm
    cases hterm
  refine ⟨⟨?_, fun hn => absurd ((rel_none hchannel).1 hn) hnone⟩, ?_, ?_, ?_, ?_⟩
  · intro hterm; rw [hstate] at hterm; cases hterm
  · intro ch' hch' _; obtain ⟨ch, hch, htakes⟩ := rel_some hchannel hch'
    have hwait := h.before hch (by rw [hstart]; rfl); obtain ⟨fs, hwritten, hfs, _⟩ := htakes.frames
    refine ⟨hdeferred.trans hwait.deferred, ?_, ?_⟩
    · intro f hf; rw [hwritten] at hf
      rcases mem_append.1 hf with hf | hf
      · exact hwait.silent f hf
      · exact silent_of_takes hfs f hf
    intro rid' method hp
    by_cases hrid : rid' = rid
    · subst hrid; rw [hpending, lookup_insert] at hp
      refine ⟨(some.inj hp).symm, ?_⟩; intro rid'' atTime' hs; rw [hstate] at hs
      exact (initializing.inj hs).1
    · rw [hpending, lookup_insert_ne hrid, h.starting hstart] at hp; cases hp
  · intro hs; rw [hstate] at hs; cases hs
  · intro ch _ hr; rw [hstate] at hr; cases hr
  · intro ch _ hs; rw [hstate] at hs; cases hs

theorem inv_greets {l' : Life}
    (hready : l'.state.isReadyForRequest = true) (hch' : l'.channel = some ch')
    (h : Greeted early late l' ch' ∨ ch'.ended = true) : Inv early late l' := by
  cases hstate : l'.state with
  | initialized _ _ _ =>
    refine ⟨⟨?_, ?_⟩, ?_, ?_, ?_, ?_⟩
    · intro hterm; rw [hstate] at hterm; cases hterm
    · intro hnone; rw [hch'] at hnone; cases hnone
    · intro ch _ hb; rw [hstate] at hb; cases hb
    · intro hs; rw [hstate] at hs; cases hs
    · intro ch hch _; cases hch'.symm.trans hch; exact h
    · intro ch _ hs; rw [hstate] at hs; cases hs
  | _ => rw [hstate] at hready; cases hready

variable {o : Option Life} {ev : Event}

/-- **Every step keeps** where the early notifications of a client are. -/
theorem inv_step {o' : Option Life} (hstep : Step o ev fs o')
    (h : ∀ l, o = some l → Inv early late l) :
    ∀ l', o' = some l' → Inv (earlyAfter o ev.notices o' early) (lateAfter o fs o' late) l' := by
  intro l₁ hl₁
  cases hstep with
  | absent | gone => cases hl₁
  | born hfresh =>
    cases hl₁; obtain ⟨pid₁, hch⟩ := hfresh.channel
    have hpid : pid (some l₁) ≠ pid none := by rw [pid, bind_some, hch]; simp [pid]
    rw [earlyAfter, if_neg hpid]; exact hfresh.inv
  | talks ht hns =>
    cases hl₁; have hpid := pid_eq_of_rel ht.channel; rw [Event.notices, earlyAfter_same hpid hns]
    refine inv_talks (h _ rfl) ht (.inl rfl) fun hnot => ?_
    rw [lateAfter_same hpid hnot, append_nil]; exact sublist_append_left _ _
  | tells ht hnot htold =>
    cases hl₁
    have hpid := pid_eq_of_rel ht.channel
    rw [Event.notices, earlyAfter_same hpid fun hs => absurd (hnot.symm.trans hs) (by simp)]
    refine inv_talks (h _ rfl) ht (.inr ⟨hnot, htold⟩) fun _ => ?_
    rw [lateAfter_same hpid hnot]
  | @defers l n fs hbefore =>
    cases hl₁; have hinv := h l rfl
    have hpid : pid (some { l with deferred := l.deferred ++ [n] }) = pid (some l) := rfl
    rw [earlyAfter, if_pos hpid, any_some, if_pos hbefore]
    refine ⟨hinv.terminal, ?_, hinv.starting, ?_, ?_⟩
    · intro ch hch hs; have hwait := hinv.before hch hs
      refine ⟨?_, hwait.silent, hwait.pending⟩; rw [hwait.deferred]; rfl
    · intro ch hch hs
      cases hstate : l.state <;> simp_all [isBeforeHandshake,
        isReadyForRequest]
    intro ch hch hs
    cases hstate : l.state <;> simp_all [isBeforeHandshake,
      isShuttingDown]
  | @stops l l' fs hrestart hat hsettings hdeferred hstate hpending hchannel =>
    cases hl₁; have hinv := h l rfl
    have hpid := pid_eq_of_rel hchannel; rw [Event.notices, earlyAfter_same hpid fun _ => rfl]
    rcases hstate with ⟨hterm, hsame⟩ | ⟨hnot, hs⟩
    · exact inv_terminal (hsame ▸ hterm) ((rel_none hchannel).2 (hinv.terminal.1 hterm))
    refine inv_stopping hs ?_ ?_
    · intro hnone; rw [hinv.terminal.2 ((rel_none hchannel).1 hnone)] at hnot; cases hnot
    intro ch' hch'; obtain ⟨ch, hch, htakes⟩ := rel_some hchannel hch'
    rcases hinv.whereabouts hch with ⟨hnr, hwait⟩ | ⟨hover, hgreeted⟩ | hended
    · refine .inl (hwait.takes htakes hdeferred ?_ (hpending hnr)); intro rid atTime hinit
      rw [hinit] at hs; cases hs
    · refine .inr (.inl (hgreeted.takes htakes hdeferred hsettings ?_))
      rw [lateAfter_same hpid hover, append_nil]; exact sublist_append_left _ _
    · exact .inr (.inr (htakes.ended hended))
  | @starts l l' rid atTime fs hstart hstate hrestart hat hsettings hdeferred hpending hchannel =>
    cases hl₁; rw [Event.notices, earlyAfter_same (pid_eq_of_rel hchannel) fun _ => rfl]
    exact inv_starts (h l rfl) hstart hstate hdeferred hpending hchannel
  | @greets l l' rid atTime ch ch' fs hinit hready hrestart hat hsettings hdeferred hch hch' hpid
      hsent =>
    cases hl₁
    have hsame : pid (some l₁) = pid (some l) := by simp [pid, hch, hch', hpid]
    rw [Event.notices, earlyAfter_same hsame fun _ => rfl]
    refine inv_greets hready hch' ?_; have hwait := (h l rfl).before hch (by rw [hinit]; rfl)
    rcases hsent with ⟨_, hended⟩ | hwritten
    · exact .inr hended
    refine .inl ⟨hdeferred, ch.written, [], hwait.silent, ?_, nil_sublist _⟩
    rw [hwritten, append_nil, hwait.deferred, hsettings]
  | @shutdownAnswered l l' fs hnot hterm htold hstate hrestart hat hsettings hdeferred hpending
      hchannel =>
    cases hl₁; have hinv := h l rfl; have hpid := pid_eq_of_rel hchannel
    rw [Event.notices, earlyAfter_same hpid fun _ => rfl, lateAfter_same hpid hnot]
    refine inv_stopping (by rw [hstate]; rfl) ?_ ?_
    · intro hnone; rw [hinv.terminal.2 ((rel_none hchannel).1 hnone)] at hterm; cases hterm
    intro ch' hch'; obtain ⟨ch, hch, htakes⟩ := rel_some hchannel hch'
    have hgreeted : Greeted early late l ch ∨ ch.ended = true := by
      cases hl : l.state with
      | initialized _ _ _ => exact hinv.ready hch (by rw [hl]; rfl)
      | shuttingDown _ =>
        have hs : l.state.isShuttingDown = true := by rw [hl]; rfl
        exact hinv.greeted_of_told hch hs (htold hs)
      | starting | initializing => simp [hl, isBeforeHandshake] at hnot
      | stopped | crashed => simp [hl, isTerminal] at hterm
    rcases hgreeted with hgreeted | hended
    · exact .inr (.inl (hgreeted.takes htakes hdeferred hsettings (Sublist.refl _)))
    · exact .inr (.inr (htakes.ended hended))
  | @exits l l' fs hch hch' hterm hstopped hrestart hat => cases hl₁; exact inv_terminal hterm hch'
  | @restarts l l' fs hterm hat hch hrestart hnew =>
    cases hl₁
    rcases hnew with hfresh | ⟨hterm', hch'⟩
    · obtain ⟨pid₁, hch₁⟩ := hfresh.channel
      have hpid : pid (some l₁) ≠ pid (some l) := by simp [pid, hch, hch₁]
      rw [earlyAfter, if_neg hpid]; exact hfresh.inv
    · exact inv_terminal hterm' hch'

/-! ## A client that was stopped -/

/-- A client that was stopped: it is not restarted, and shutting down or ended. -/
structure Ending (l : Life) : Prop where
  restart : l.restart = .never
  nextRestartAt : l.nextRestartAt = none
  state : l.state.isShuttingDown = true ∨ l.state.isTerminal = true

/-- **A client that was stopped stays so**: it is not initialized again. -/
theorem ending_step {l : Life} (hstep : Step (some l) ev fs o)
    (h : l.Ending) : ∀ l', o = some l' → l'.Ending := by
  have hnot : l.state.isBeforeHandshake = false ∧ l.state.isReadyForRequest = false := by
    rcases h.state with hs | hs <;> cases hl : l.state <;>
      simp_all [isBeforeHandshake, isReadyForRequest,
        isShuttingDown, isTerminal]
  intro l₁ hl₁
  cases hstep with
  | gone => cases hl₁
  | talks ht _ =>
    cases hl₁
    exact ⟨ht.restart.trans h.restart, ht.nextRestartAt.trans h.nextRestartAt, ht.state ▸ h.state⟩
  | tells ht _ _ =>
    cases hl₁
    exact ⟨ht.restart.trans h.restart, ht.nextRestartAt.trans h.nextRestartAt, ht.state ▸ h.state⟩
  | defers hbefore => rw [hnot.1] at hbefore; cases hbefore
  | stops hrestart hat _ _ hstate _ _ =>
    cases hl₁
    refine ⟨hrestart, hat, ?_⟩
    rcases hstate with ⟨hterm, hsame⟩ | ⟨_, hs⟩
    · exact .inr (hsame ▸ hterm)
    · exact .inl hs
  | starts hstart _ _ _ _ _ _ _ => rw [hstart] at hnot; cases hnot.1
  | greets hinit _ _ _ _ _ _ _ _ _ => rw [hinit] at hnot; cases hnot.1
  | shutdownAnswered _ _ _ hstate hrestart hat _ _ _ _ =>
    cases hl₁
    exact ⟨hrestart.trans h.restart, hat.trans h.nextRestartAt, .inl (by rw [hstate]; rfl)⟩
  | exits _ _ hterm _ hrestart hat =>
    cases hl₁; exact ⟨hrestart.trans h.restart, (hat h.restart).trans h.nextRestartAt, .inr hterm⟩
  | restarts _ hat _ _ _ => exact absurd h.nextRestartAt hat

theorem greeted_of_ready {l' : Life} (hstep : Step o ev fs (some l'))
    (hready : l'.state.isReadyForRequest = true)
    (hnot : ∀ l, o = some l → l.state.isReadyForRequest = false) :
    ∃ l rid atTime, o = some l ∧ l.state = .initializing rid atTime ∧ ev = .greeted rid := by
  cases hstep with
  | born hfresh => rw [hfresh.state] at hready; cases hready
  | @talks l _ _ _ ht _ => rw [ht.state, hnot l rfl] at hready; cases hready
  | @tells l _ _ _ ht _ _ => rw [ht.state, hnot l rfl] at hready; cases hready
  | @defers l _ _ _ =>
    rw [show l.state.isReadyForRequest = false from hnot l rfl] at hready; cases hready
  | @stops l _ _ _ _ _ _ hstate _ _ =>
    rcases hstate with ⟨_, hsame⟩ | ⟨_, hs⟩
    · rw [hsame, hnot l rfl] at hready; cases hready
    cases hl : l'.state <;> simp_all [isReadyForRequest,
      isShuttingDown]
  | starts _ hstate _ _ _ _ _ _ => rw [hstate] at hready; cases hready
  | @greets l _ rid atTime _ _ _ hinit _ _ _ _ _ _ _ _ _ => exact ⟨l, rid, atTime, rfl, hinit, rfl⟩
  | shutdownAnswered _ _ _ hstate _ _ _ _ _ _ => rw [hstate] at hready; cases hready
  | exits _ _ hterm _ _ _ =>
    cases hl : l'.state <;> simp_all [isReadyForRequest, isTerminal]
  | restarts _ _ _ _ hnew =>
    rcases hnew with hfresh | ⟨hterm, _⟩
    · rw [hfresh.state] at hready; cases hready
    · cases hl : l'.state <;> simp_all [isReadyForRequest, isTerminal]

end Life

end Pmacs
