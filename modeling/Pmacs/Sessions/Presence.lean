/-
  Presence over whole runs of the registry (presence.rs, the dispatcher's sweeps).

  * `Net`: the registry, what each session was sent since it registered, and what happened.
  * `Net.Exact`: the registry and what was sent are what the past says; every event keeps it.
  * `presence_told_iff`: when a tick leaves every session with every source's snapshot.
-/
import Pmacs.Sessions.Registry

namespace Pmacs.Sessions

open Lib AList Function List Option

variable {V : Type}

/-! ## The past -/

/-- What happens to a registry, as far as presence goes. -/
inductive Happening where
  | registered (id : FrontendId) (state : SessionState)
  | unregistered (id : FrontendId)
  | swept (source : FrontendId) (snapshot : PresenceSnapshot)

/-- The snapshot a source was last swept with, unless it was unregistered since. The past is
    read from its end. -/
def lastSwept : List Happening → FrontendId → Option PresenceSnapshot
  | [], _ => none
  | .registered _ _ :: past, source => lastSwept past source
  | .unregistered id :: past, source => if id = source then none else lastSwept past source
  | .swept id snapshot :: past, source =>
    if id = source then some snapshot else lastSwept past source

/-- Whether a session is registered that is told of others' presence. -/
def multiIn : List Happening → FrontendId → Bool
  | [], _ => false
  | .registered id state :: past, recipient =>
    if id = recipient then state.negotiatedCapabilities.multiFrontend else multiIn past recipient
  | .unregistered id :: past, recipient => if id = recipient then false else multiIn past recipient
  | .swept _ _ :: past, recipient => multiIn past recipient

/-- Whether the source's snapshot changed after the session registered to be told of it. -/
def changedSince : List Happening → (recipient source : FrontendId) → Bool
  | [], _, _ => false
  | .registered id _ :: past, recipient, source =>
    if id = recipient then false else changedSince past recipient source
  | .unregistered id :: past, recipient, source =>
    if id = recipient then false else changedSince past recipient source
  | .swept id snapshot :: past, recipient, source =>
    if id = source ∧ lastSwept past source ≠ some snapshot then multiIn past recipient
    else changedSince past recipient source

/-! ## Runs -/

/-- The registry, the presence each session was sent since it registered, the newest first, and
    what happened, the newest first. -/
structure Net (V : Type) where
  registry : SessionRegistry V
  sent : FrontendId → List PresenceUpdate
  past : List Happening

def deliver (out : List BroadcastEntry) (sent : FrontendId → List PresenceUpdate) :
    FrontendId → List PresenceUpdate :=
  out.foldl (fun sent e => Function.update sent e.recipient (e.message :: sent e.recipient)) sent

namespace Net

def start : Net V := ⟨.new, fun _ => [], []⟩

def register (n : Net V) (id : FrontendId) (state : SessionState) : Net V where
  registry := n.registry.registerSession id state
  sent := Function.update n.sent id []
  past := .registered id state :: n.past

def unregister (n : Net V) (id : FrontendId) : Net V where
  registry := n.registry.unregisterSession id
  sent := Function.update n.sent id []
  past := .unregistered id :: n.past

/-- One call of `sweep`. -/
def sweep (n : Net V) (current : List (FrontendId × PresenceSnapshot)) : Net V where
  registry := (SessionRegistry.sweep current n.registry).1
  sent := deliver (SessionRegistry.sweep current n.registry).2 n.sent
  past := (current.map fun c => .swept c.1 c.2).reverse ++ n.past

def tick (n : Net V) (sweeps : List (List (FrontendId × PresenceSnapshot))) : Net V :=
  sweeps.foldl sweep n

def sweepOne (n : Net V) (c : FrontendId × PresenceSnapshot) : Net V where
  registry := (n.registry.sweepSource c.1 c.2).1
  sent := deliver (n.registry.sweepSource c.1 c.2).2 n.sent
  past := .swept c.1 c.2 :: n.past

def latest (n : Net V) (recipient source : FrontendId) : Option PresenceUpdate :=
  (n.sent recipient).find? fun m => m.frontendId = source

inductive Reaches : Net V → Prop where
  | start : Reaches start
  | register {n : Net V} (id : FrontendId) (state : SessionState) :
      Reaches n → Reaches (n.register id state)
  | unregister {n : Net V} (id : FrontendId) : Reaches n → Reaches (n.unregister id)
  | tick {n : Net V} (sweeps : List (List (FrontendId × PresenceSnapshot))) :
      Reaches n → Reaches (n.tick sweeps)

theorem sweep_eq_foldl : ∀ (current : List (FrontendId × PresenceSnapshot)) (n : Net V),
    n.sweep current = current.foldl sweepOne n
  | [], n => rfl
  | c :: current, n => by
    rw [foldl_cons, ← sweep_eq_foldl current (n.sweepOne c)]
    simp [sweep, sweepOne, SessionRegistry.sweep, deliver]

theorem tick_eq_foldl (n : Net V) (sweeps : List (List (FrontendId × PresenceSnapshot))) :
    n.tick sweeps = sweeps.flatten.foldl sweepOne n := by
  unfold tick
  induction sweeps generalizing n with
  | nil => rfl
  | cons current sweeps ih => rw [foldl_cons, ih, flatten_cons, foldl_append, sweep_eq_foldl]

/-! ## What the past says -/

theorem deliver_replicate (m : PresenceUpdate) (id : FrontendId) :
    ∀ (recipients : List FrontendId) (sent : FrontendId → List PresenceUpdate),
      deliver (recipients.map fun r => ⟨r, m⟩) sent id =
        List.replicate (recipients.count id) m ++ sent id
  | [], _ => by simp [deliver]
  | r :: recipients, sent => by
    have ih := deliver_replicate m id recipients (Function.update sent r (m :: sent r))
    unfold deliver at ih ⊢; rw [map_cons, foldl_cons, ih]
    by_cases h : r = id
    · subst h; rw [update_self, count_cons_self, replicate_succ']; simp
    · rw [update_of_ne (Ne.symm h), count_cons_of_ne h]

/-- The registry and what was sent are what the past says. -/
structure Exact (n : Net V) : Prop where
  last : ∀ source, n.registry.lastBroadcast.lookup source = lastSwept n.past source
  multi : ∀ id, n.registry.isMulti id = multiIn n.past id
  others : ∀ id, ∀ m ∈ n.sent id, m.frontendId ≠ id
  told : ∀ recipient source, recipient ≠ source → multiIn n.past recipient = true →
    ∀ snapshot, lastSwept n.past source = some snapshot → n.latest recipient source =
      if changedSince n.past recipient source = true then some (snapshot.update source) else none

theorem Exact.start : Exact (start : Net V) :=
  { last := fun _ => rfl
    multi := fun _ => rfl
    others := nofun
    told := fun _ _ _ h => by cases h }

theorem isMulti_registerSession (r : SessionRegistry V) {id : FrontendId} {state : SessionState}
    (i : FrontendId) : (r.registerSession id state).isMulti i =
      if id = i then state.negotiatedCapabilities.multiFrontend else r.isMulti i := by
  unfold SessionRegistry.registerSession SessionRegistry.isMulti
  split
  all_goals
    by_cases h : id = i
    · subst h; simp [Session.new]
    · rw [lookup_insert_ne (Ne.symm h), if_neg h]

namespace Exact

variable {n : Net V}

theorem register (h : Exact n) (id : FrontendId) (state : SessionState) :
    Exact (n.register id state) where
  last := h.last
  multi i := by
    change (n.registry.registerSession id state).isMulti i = _
    rw [isMulti_registerSession, h.multi]; rfl
  others i m hm := by
    simp only [Net.register, update_apply] at hm
    split at hm
    · cases hm
    · exact h.others i m hm
  told recipient source hne hmulti snapshot hlast := by
    simp only [Net.register, latest, update_apply, changedSince, multiIn,
      lastSwept] at hmulti hlast ⊢
    by_cases hr : recipient = id
    · simp [hr]
    rw [if_neg (Ne.symm hr)] at hmulti ⊢; rw [if_neg hr]
    exact h.told recipient source hne hmulti snapshot hlast

theorem unregister (h : Exact n) (id : FrontendId) : Exact (n.unregister id) where
  last source := by
    simp only [Net.unregister, SessionRegistry.unregisterSession, lastSwept]
    by_cases hs : id = source
    · subst hs; rw [lookup_erase, if_pos rfl]
    · rw [lookup_erase_ne (Ne.symm hs), if_neg hs]; exact h.last source
  multi i := by
    simp only [Net.unregister, SessionRegistry.unregisterSession, SessionRegistry.isMulti, multiIn]
    by_cases hi : id = i
    · subst hi; rw [lookup_erase, if_pos rfl]; rfl
    · rw [lookup_erase_ne (Ne.symm hi), if_neg hi]; exact h.multi i
  others i m hm := by
    simp only [Net.unregister, update_apply] at hm
    split at hm
    · cases hm
    · exact h.others i m hm
  told recipient source hne hmulti snapshot hlast := by
    simp only [Net.unregister, latest, update_apply, changedSince, multiIn,
      lastSwept] at hmulti hlast ⊢
    by_cases hr : id = recipient
    · simp [hr] at hmulti
    rw [if_neg hr] at hmulti ⊢; rw [if_neg (Ne.symm hr)]
    split at hlast
    · cases hlast
    · exact h.told recipient source hne hmulti snapshot hlast

/-- A source is swept: with the snapshot it has already nothing happens, and with another one every
    other session that is told of presence is sent it. -/
theorem sweepOne (h : Exact n) (source : FrontendId) (snapshot : PresenceSnapshot) :
    Exact (n.sweepOne (source, snapshot)) := by
  by_cases hsame : lastSwept n.past source = some snapshot
  · have hsweep : n.registry.sweepSource source snapshot = (n.registry, []) := by
      rw [SessionRegistry.sweepSource, h.last, if_pos hsame]
    have hlast (s : FrontendId) :
        lastSwept (.swept source snapshot :: n.past) s = lastSwept n.past s := by
      rw [lastSwept]
      split
      · rename_i heq; rw [← heq, hsame]
      · rfl
    have hchanged (r s : FrontendId) :
        changedSince (.swept source snapshot :: n.past) r s = changedSince n.past r s := by
      rw [changedSince, if_neg]; rintro ⟨rfl, hne⟩; exact hne hsame
    constructor
    · intro s; simp only [Net.sweepOne, hsweep]; rw [hlast, h.last]
    · intro i; simp only [Net.sweepOne, hsweep]; exact h.multi i
    · intro i m hm; simp only [Net.sweepOne, hsweep] at hm; exact h.others i m hm
    intro r s hne hmulti snap hsnap; simp only [Net.sweepOne, hsweep, latest] at hmulti hsnap ⊢
    rw [hlast] at hsnap; rw [hchanged]; exact h.told r s hne hmulti snap hsnap
  have hsweep : n.registry.sweepSource source snapshot =
      ({ n.registry with lastBroadcast := n.registry.lastBroadcast.insert source snapshot },
        (n.registry.recipients source).map fun r => ⟨r, snapshot.update source⟩) := by
    rw [SessionRegistry.sweepSource, h.last, if_neg hsame]; rfl
  have hsent (i : FrontendId) : (n.sweepOne (source, snapshot)).sent i =
      List.replicate ((n.registry.recipients source).count i) (snapshot.update source) ++
        n.sent i := by simp only [Net.sweepOne, hsweep]; exact deliver_replicate _ _ _ _
  have hcount (i : FrontendId) : (n.registry.recipients source).count i = 0 ↔
      ¬(i ≠ source ∧ n.registry.isMulti i = true) := by
    rw [← SessionRegistry.mem_recipients, count_eq_zero]
  constructor
  · intro s; simp only [Net.sweepOne, hsweep, lastSwept]
    by_cases hs : source = s
    · subst hs; rw [lookup_insert, if_pos rfl]
    · rw [lookup_insert_ne (Ne.symm hs), if_neg hs]; exact h.last s
  · intro i; simp only [Net.sweepOne, hsweep]; exact h.multi i
  · intro i m hm; rw [hsent, mem_append, mem_replicate] at hm
    rcases hm with ⟨hcount', rfl⟩ | hm
    · rw [ne_eq, hcount, not_not] at hcount'; exact Ne.symm hcount'.1
    · exact h.others i m hm
  intro r s hne hmulti snap hsnap; change multiIn n.past r = true at hmulti
  change lastSwept (.swept source snapshot :: n.past) s = some snap at hsnap
  change List.find? _ ((n.sweepOne (source, snapshot)).sent r) =
    if changedSince (.swept source snapshot :: n.past) r s = true then _ else _
  rw [hsent, find?_append, find?_replicate, changedSince]; rw [lastSwept] at hsnap
  by_cases hs : source = s
  · subst hs; rw [if_pos rfl, some_inj] at hsnap; subst hsnap
    have hpos : (n.registry.recipients source).count r ≠ 0 := by
      rw [ne_eq, hcount, not_not]; exact ⟨hne, by rw [h.multi]; exact hmulti⟩
    have hchanged : source = source ∧ lastSwept n.past source ≠ some snapshot := ⟨rfl, hsame⟩
    rw [if_neg hpos, if_pos hchanged, if_pos hmulti]; simp [PresenceSnapshot.update]
  rw [if_neg hs] at hsnap
  have hother : decide ((snapshot.update source).frontendId = s) = false := decide_eq_false hs
  rw [hother, if_neg (show ¬(source = s ∧ _) from fun hand => hs hand.1)]
  have hnone : (if (n.registry.recipients source).count r = 0 then none
      else if false = true then some (snapshot.update source) else none) = none := by
    split <;> rfl
  rw [hnone, none_or]; exact h.told r s hne hmulti snap hsnap

theorem foldl (h : Exact n) (current : List (FrontendId × PresenceSnapshot)) :
    Exact (current.foldl Net.sweepOne n) := by
  induction current generalizing n with
  | nil => exact h
  | cons c current ih => exact ih (h.sweepOne c.1 c.2)

theorem reaches (h : Reaches n) : Exact n := by
  induction h with
  | start => exact .start
  | register id state _ ih => exact ih.register id state
  | unregister id _ ih => exact ih.unregister id
  | tick sweeps _ ih => rw [tick_eq_foldl]; exact ih.foldl _

end Exact

/-! ## Every tick -/

def current (sweeps : List (List (FrontendId × PresenceSnapshot))) (source : FrontendId) :
    Option PresenceSnapshot :=
  (sweeps.flatten.reverse.find? fun c => c.1 = source).map (·.2)

/-- After a tick's sweeps every session that is told of presence has every other source's
    snapshot, no session was sent its own, and no unchanged snapshot was sent again. -/
structure Told (n : Net V) (sweeps : List (List (FrontendId × PresenceSnapshot))) : Prop where
  current : ∀ recipient, (n.tick sweeps).registry.isMulti recipient = true →
    ∀ source snapshot, source ≠ recipient → current sweeps source = some snapshot →
      (n.tick sweeps).latest recipient source = some (snapshot.update source)
  others : ∀ id, ∀ m ∈ (n.tick sweeps).sent id, m.frontendId ≠ id
  once : ∀ before c after, sweeps.flatten = before ++ c :: after →
    lastSwept (before.foldl sweepOne n).past c.1 = some c.2 →
      ((before.foldl sweepOne n).registry.sweepSource c.1 c.2).2 = []

theorem lastSwept_foldl {source : FrontendId} : ∀ (swept : List (FrontendId × PresenceSnapshot))
    (n : Net V), lastSwept (swept.foldl sweepOne n).past source =
      ((swept.reverse.find? fun c => c.1 = source).map (·.2)).or (lastSwept n.past source)
  | [], n => rfl
  | c :: swept, n => by
    rw [foldl_cons, lastSwept_foldl swept, reverse_cons, find?_append]
    cases swept.reverse.find? fun c => c.1 = source with
    | some c' => rfl
    | none =>
      change lastSwept (.swept c.1 c.2 :: n.past) source = _
      rw [lastSwept, none_or, find?_singleton]
      by_cases h : c.1 = source
      · simp [h]
      · simp [h]

/-- **Presence reaches every session**: after a tick's sweeps every session that is told of
    presence has been sent every other source's snapshot just when each of these changed after
    the session registered. -/
theorem presence_told_iff {n : Net V} (h : Reaches n)
    (sweeps : List (List (FrontendId × PresenceSnapshot))) :
    Told n sweeps ↔ ∀ recipient source, multiIn (n.tick sweeps).past recipient = true →
      source ≠ recipient → (Net.current sweeps source).isSome = true →
        changedSince (n.tick sweeps).past recipient source = true := by
  have hexact : Exact (n.tick sweeps) := Exact.reaches (.tick sweeps h)
  have hlast {source : FrontendId} {snapshot : PresenceSnapshot}
      (hcurrent : Net.current sweeps source = some snapshot) :
      lastSwept (n.tick sweeps).past source = some snapshot := by
    rw [tick_eq_foldl, lastSwept_foldl]; change (Net.current sweeps source).or _ = _; rw [hcurrent]
    rfl
  constructor
  · intro htold recipient source hmulti hne hsome
    obtain ⟨snapshot, hcurrent⟩ := isSome_iff_exists.1 hsome
    have hlatest := htold.current recipient (by rw [hexact.multi]; exact hmulti) source snapshot hne
      hcurrent
    rw [hexact.told recipient source (Ne.symm hne) hmulti snapshot (hlast hcurrent)] at hlatest
    by_contra hchanged
    rw [if_neg hchanged] at hlatest; cases hlatest
  intro hall
  constructor
  · intro recipient hmulti source snapshot hne hcurrent; rw [hexact.multi] at hmulti
    rw [hexact.told recipient source (Ne.symm hne) hmulti snapshot (hlast hcurrent),
      if_pos (hall recipient source hmulti hne (by rw [hcurrent]; rfl))]
  · exact hexact.others
  intro before c after _ hsame; have hbefore := (Exact.reaches h).foldl before
  rw [SessionRegistry.sweepSource, hbefore.last, if_pos hsame]

/-! ## A session that joins -/

namespace Joining

def multi : SessionState := ⟨27, ⟨true, false, false⟩, none⟩

def still : PresenceSnapshot := ⟨1, 10, none⟩

end Joining

open Joining in
theorem presence_told_both :
    Told ((start (V := Unit)).register 2 multi |>.register 3 multi) [[(2, still)], [(3, still)]] :=
  (presence_told_iff (.register 3 multi (.register 2 multi .start)) _).2 (by
    intro recipient source hmulti hne hsome
    have hrecipient : 3 = recipient ∨ 2 = recipient := by
      simpa [multiIn, tick, sweep, Net.register, Net.start, multi] using hmulti
    have hsource : 2 = source ∨ 3 = source := by simpa [Net.current, or_comm] using hsome
    rcases hrecipient with rfl | rfl <;> rcases hsource with rfl | rfl
    all_goals first | exact absurd rfl hne | rfl)

open Joining in
/-- A session that registers while another stands still is never told of it. -/
theorem presence_not_told :
    ¬ Told (((start (V := Unit)).register 2 multi |>.tick [[(2, still)]]).register 3 multi)
      [[(2, still)], [(3, still)]] := by
  intro h
  have hlatest := h.current 3 (by decide) 2 still (by decide) (by decide)
  revert hlatest
  decide

end Net

end Pmacs.Sessions
