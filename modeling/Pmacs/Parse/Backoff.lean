/-
  When a worker may start for a buffer's parse (`backoff_until`, parse_isolation.rs).

  * `PacedHost`: a slot with the instant before which no worker starts for it.
  * `PaceEvent`: an attempt of a parse, a read's rebuilding of the last tree, a unit found dead.
  * `Paced`: the slot is that of what happened to it; `step_paced`: each event keeps it.
  * `starts_paced`: no worker starts for a parse too early.
-/
import Pmacs.Parse.Isolation

namespace Pmacs.Parse

open Lib

/-- In milliseconds. -/
def CRASH_BACKOFF : ℕ := 1000

structure PacedHost where
  host : Host
  backoffUntil : Option ℕ

/-- What is decided of an attempt, the instant its slot is read at, and the one at which a death
    is noted. -/
structure TimedFate where
  fate : Fate
  asked : ℕ
  noted : ℕ

inductive PaceEvent where
  | attempt (job : IsolatedJob) (first : Bool) (t : TimedFate)
  | reestablish (request : ParseRequest) (limits : Limits) (t : TimedFate)
  | bury (serial : Serial) (crashed : Bool) (noted : ℕ)

/-- What an observer of the workers sees. -/
inductive Happening where
  | started (now : ℕ)
  | crashed (now : ℕ)
  | parsed
deriving DecidableEq

def AttemptEnd.isParsed : AttemptEnd → Bool
  | .parsed _ => true
  | _ => false

namespace PacedHost

variable {p : PacedHost} {known : String → Bool} {trace : List Happening}

def new (mode : Isolation) : PacedHost := ⟨.new mode, none⟩

/-- What `held` asks of the back-off. -/
def backingOff (p : PacedHost) (now : ℕ) : Bool := p.backoffUntil.any (now < ·)

/-- `backoff_until` is written where `crashes` is: by a parse that installs, and by `note`. -/
def update (p : PacedHost) (host : Host) (parsed : Bool) (now : ℕ) : PacedHost where
  host := host
  backoffUntil :=
    if parsed then none
    else if host.slot.crashes = p.host.slot.crashes then p.backoffUntil
    else if host.slot.stopped then none
    else some (now + CRASH_BACKOFF * 2 ^ (host.slot.crashes - 1))

/-- The attempt of `run` that is the `first`, or the second. -/
def attempt (known : String → Bool) (p : PacedHost) (job : IsolatedJob) (first : Bool)
    (t : TimedFate) : AttemptEnd × Host :=
  p.host.attempt known job first { t.fate with backingOff := p.backingOff t.asked }

def step (known : String → Bool) (p : PacedHost) : PaceEvent → PacedHost
  | .attempt job first t =>
    let (done, host) := p.attempt known job first t
    p.update host (done.isParsed) t.noted
  | .reestablish request limits t =>
    p.update (p.host.reestablish known request limits t.fate) false t.noted
  | .bury serial crashed noted => p.update (p.host.bury serial crashed) false noted

def crash (call : CallFate) (now : ℕ) : List Happening :=
  match call with
  | .dies true => [.crashed now]
  | _ => []

/-- What happens in a step, latest first. A worker that is started has a serial of its own. -/
def happens (known : String → Bool) (p : PacedHost) : PaceEvent → List Happening
  | .attempt job first t =>
    let (done, host) := p.attempt known job first t
    (match done with
      | .parsed _ => [.parsed]
      | .stopped .died => crash t.fate.call t.noted
      | _ => []) ++
    if host.nextSerial = p.host.nextSerial then [] else [.started t.asked]
  | .reestablish request limits t =>
    if (p.host.reestablish known request limits t.fate).nextSerial = p.host.nextSerial then []
    else crash t.fate.call t.noted
  | .bury serial crashed noted =>
    if p.host.slot.unit = some serial then crash (.dies crashed) noted else []

def run (known : String → Bool) (mode : Isolation) (events : List PaceEvent) :
    PacedHost × List Happening :=
  events.foldl (fun s event => (s.1.step known event, s.1.happens known event ++ s.2))
    (new mode, [])

/-- The instants of the crashes in a row, latest first. -/
def streak : List Happening → List ℕ
  | [] => []
  | .started _ :: trace => streak trace
  | .crashed now :: trace => now :: streak trace
  | .parsed :: _ => []

/-- A worker may start at an instant after these crashes in a row. -/
def MayStart (crashes : List ℕ) (now : ℕ) : Prop :=
  crashes.length < MAX_CRASHES ∧
    ∀ last ∈ crashes.head?, last + CRASH_BACKOFF * 2 ^ (crashes.length - 1) ≤ now

/-- The slot counts the crashes in a row, and backs off since the last. -/
structure Paced (p : PacedHost) (trace : List Happening) : Prop where
  crashes : p.host.slot.crashes = (streak trace).length
  backoff : (streak trace).length < MAX_CRASHES → p.backoffUntil =
    (streak trace).head?.map (· + CRASH_BACKOFF * 2 ^ ((streak trace).length - 1))
  starts : ∀ later now earlier, trace = later ++ .started now :: earlier →
    MayStart (streak earlier) now

/-! ## What an event does to the count -/

variable {host : Host} {limits : Limits} {first : Bool} {fate : Fate}

theorem prepared_crashes : (host.prepared limits first).crashes = host.slot.crashes := by
  rw [Host.prepared, Host.withMemory, Host.withMode, Host.recycled]
  split_ifs <;> rfl

/-- A worker is started only for a slot that is not held. -/
theorem unitFor_spec : (host.unitFor limits first fate).2.slot.crashes = host.slot.crashes ∧
    ((host.unitFor limits first fate).2.nextSerial ≠ host.nextSerial →
      host.slot.crashes < MAX_CRASHES ∧ fate.backingOff = false) ∧
    (∀ serial full, (host.unitFor limits first fate).1 = .ok (serial, full) →
      (host.unitFor limits first fate).2.slot.unit = some serial) ∧
    (host.unitFor limits first fate).1 ≠ .error .died := by
  have hcrashes := @prepared_crashes host limits first
  unfold Host.unitFor
  generalize host.prepared limits first = slot at hcrashes ⊢
  dsimp only
  cases hunit : slot.unit with
  | some old =>
    refine ⟨hcrashes, fun h => absurd rfl h, fun serial full h => ?_, nofun⟩; cases h; exact hunit
  | none =>
    split_ifs with hheld hnative
    · exact ⟨hcrashes, fun h => absurd rfl h, nofun, nofun⟩
    · exact ⟨hcrashes, fun h => absurd rfl h, nofun, nofun⟩
    refine ⟨hcrashes, fun _ => ?_, fun serial full h => ?_, nofun⟩
    · simpa [Slot.held, Slot.stopped, hcrashes] using hheld
    · cases h; rfl

theorem bury_nextSerial {serial : Serial} {crashed : Bool} :
    (host.bury serial crashed).nextSerial = host.nextSerial := by
  rw [Host.bury]
  split_ifs <;> rfl

theorem bury_crashes {serial : Serial} {crashed : Bool} : (host.bury serial crashed).slot.crashes =
    host.slot.crashes + if host.slot.unit = some serial ∧ crashed = true then 1 else 0 := by
  unfold Host.bury Slot.note
  split_ifs with hunit hcrashed <;> simp_all

theorem attempt_spec (known : String → Bool) (host : Host) (job : IsolatedJob) (first : Bool)
    (fate : Fate) : (host.attempt known job first fate).2.slot.crashes =
      (match (host.attempt known job first fate).1 with
        | .parsed _ => 0
        | .stopped .died => host.slot.crashes + (crash fate.call 0).length
        | _ => host.slot.crashes) ∧
    ((host.attempt known job first fate).2.nextSerial ≠ host.nextSerial →
      host.slot.crashes < MAX_CRASHES ∧ fate.backingOff = false) := by
  obtain ⟨hcrashes, hstart, hunit, hdied⟩ := @unitFor_spec host job.limits first fate
  unfold Host.attempt
  rcases hfor : host.unitFor job.limits first fate with ⟨error | ⟨serial, full⟩, host'⟩
  · rw [hfor] at hcrashes hstart hdied
    refine ⟨?_, hstart⟩
    cases error with
    | died => exact absurd rfl hdied
    | held | unavailable | failed => exact hcrashes
  rw [hfor] at hcrashes hstart hunit
  have hslot := hunit serial full rfl
  dsimp only at hcrashes hstart hslot ⊢
  cases fate.call with
  | dies crashed =>
    refine ⟨?_, fun h => hstart (by rwa [bury_nextSerial] at h)⟩; rw [bury_crashes, hcrashes, hslot]
    cases crashed <;> simp [crash]
  | answers verdict =>
    cases host'.processes.lookup serial with
    | none =>
      refine ⟨?_, fun h => hstart (by rwa [bury_nextSerial] at h)⟩; rw [bury_crashes, hcrashes]
      simp [crash]
    | some process =>
      dsimp only; generalize (process.unit.parse known _ _ _) = answer
      obtain ⟨response, unit⟩ := answer
      generalize hhost : (if fate.lost then Host.bury _ serial false else _) = lost
      have hlost : lost.slot.crashes = host.slot.crashes ∧ lost.nextSerial = host'.nextSerial := by
        rw [← hhost, ← hcrashes]
        split_ifs
        · rw [bury_crashes, bury_nextSerial]; simp
        · exact ⟨rfl, rfl⟩
      rw [← hlost.2] at hstart
      rcases response with _ | failure
      · exact ⟨rfl, hstart⟩
      cases failure with
      | desync => refine ⟨?_, hstart⟩; cases first <;> exact hlost.1
      | _ => exact ⟨hlost.1, hstart⟩

/-- The back-off does not hold a re-parse of the text that parsed last. -/
theorem reestablish_cases {known : String → Bool} (host : Host) (request : ParseRequest)
    (limits : Limits) {fate : Fate} :
    (host.reestablish known request limits fate).nextSerial = host.nextSerial ∧
      (host.reestablish known request limits fate).slot.crashes = host.slot.crashes ∨
    (host.reestablish known request limits fate).nextSerial = host.nextSerial + 1 ∧
      (host.reestablish known request limits fate).slot.crashes =
        host.slot.crashes + (crash fate.call 0).length := by
  unfold Host.reestablish
  split_ifs
  · exact .inl ⟨rfl, rfl⟩
  right
  rcases fate.call with (_ | _) | verdict
  · exact ⟨rfl, rfl⟩
  · exact ⟨rfl, rfl⟩
  dsimp only
  split <;> exact ⟨rfl, rfl⟩

/-! ## Runs -/

theorem crash_cases (call : CallFate) (now : ℕ) : crash call now = [] ∧ (crash call 0).length = 0 ∨
      crash call now = [.crashed now] ∧ (crash call 0).length = 1 := by
  rcases call with (_ | _) | _
  · exact .inl ⟨rfl, rfl⟩
  · exact .inr ⟨rfl, rfl⟩
  · exact .inl ⟨rfl, rfl⟩

theorem Paced.new (mode : Isolation) : (new mode).Paced [] :=
  ⟨rfl, fun _ => rfl, fun later now earlier h => absurd h (by simp)⟩

/-- What is noted of an event: nothing, a crash, or a parse. -/
theorem Paced.update (h : p.Paced trace) {host : Host} {parsed : Bool} {now : ℕ}
    {end_ : List Happening} (hend : parsed = true ∧ end_ = [.parsed] ∧ host.slot.crashes = 0 ∨
      parsed = false ∧ (end_ = [] ∧ host.slot.crashes = p.host.slot.crashes ∨
        end_ = [.crashed now] ∧ host.slot.crashes = p.host.slot.crashes + 1)) :
    (p.update host parsed now).Paced (end_ ++ trace) := by
  have hstarts : ∀ later at_ earlier, end_ ++ trace = later ++ .started at_ :: earlier →
      MayStart (streak earlier) at_ := by
    intro later at_ earlier heq
    have hnone : ∀ x ∈ end_, ∀ n, x ≠ .started n := by
      rcases hend with ⟨-, rfl, -⟩ | ⟨-, ⟨rfl, -⟩ | ⟨rfl, -⟩⟩ <;> simp
    rcases List.append_eq_append_iff.1 heq with ⟨rest, rfl, htrace⟩ | ⟨rest, rfl, hrest⟩
    · exact h.starts rest at_ earlier htrace
    cases rest with
    | nil => exact h.starts [] at_ earlier (by simpa using hrest.symm)
    | cons x rest =>
      rw [List.cons_append, List.cons.injEq] at hrest
      exact absurd hrest.1.symm (hnone x (by simp) at_)
  rcases hend with ⟨rfl, rfl, hzero⟩ | ⟨rfl, ⟨rfl, hsame⟩ | ⟨rfl, hcrash⟩⟩
  · exact ⟨hzero, fun _ => rfl, hstarts⟩
  · refine ⟨hsame.trans h.crashes, fun hlt => ?_, hstarts⟩
    rw [PacedHost.update, if_neg Bool.false_ne_true, if_pos hsame]; exact h.backoff hlt
  have hcount : host.slot.crashes = (streak (.crashed now :: trace)).length := by
    rw [hcrash, h.crashes, streak, List.length_cons]
  refine ⟨hcount, fun hlt => ?_, hstarts⟩
  rw [PacedHost.update, if_neg Bool.false_ne_true, if_neg (by omega),
    if_neg (by simpa [Slot.stopped, hcount] using hlt), hcount]
  rfl

theorem Paced.started (h : p.Paced trace) {now : ℕ} (hlt : p.host.slot.crashes < MAX_CRASHES)
    (hready : p.backingOff now = false) : p.Paced (.started now :: trace) := by
  refine ⟨h.crashes, h.backoff, fun later at_ earlier heq => ?_⟩
  rcases later with _ | ⟨x, later⟩
  · cases heq; rw [h.crashes] at hlt
    refine ⟨hlt, fun last hlast => ?_⟩
    rw [backingOff, h.backoff hlt, Option.mem_def.1 hlast] at hready; simpa using hready
  · cases heq; exact h.starts later at_ earlier rfl

theorem step_paced (h : p.Paced trace) (event : PaceEvent) :
    (p.step known event).Paced (p.happens known event ++ trace) := by
  cases event with
  | attempt job first t =>
    obtain ⟨hcrashes, hstart⟩ := attempt_spec known p.host job first
      { t.fate with backingOff := p.backingOff t.asked }
    rw [step, happens, attempt]
    generalize p.host.attempt known job first _ = out at hcrashes hstart ⊢
    obtain ⟨done, host⟩ := out; rw [List.append_assoc]
    have hbegun : p.Paced ((if host.nextSerial = p.host.nextSerial then [] else
        [.started t.asked]) ++ trace) := by
      split_ifs with hserial
      · exact h
      · exact h.started (hstart hserial).1 (hstart hserial).2
    refine hbegun.update ?_
    rcases done with serial | _ | error
    · exact .inl ⟨rfl, rfl, hcrashes⟩
    · exact .inr ⟨rfl, .inl ⟨rfl, hcrashes⟩⟩
    cases error with
    | died =>
      refine .inr ⟨rfl, ?_⟩
      obtain ⟨hnone, hcount⟩ | ⟨hone, hcount⟩ := crash_cases t.fate.call t.noted
      · exact .inl ⟨hnone, hcrashes.trans (by rw [hcount, add_zero])⟩
      · exact .inr ⟨hone, hcrashes.trans (by rw [hcount])⟩
    | held | unavailable | failed => exact .inr ⟨rfl, .inl ⟨rfl, hcrashes⟩⟩
  | reestablish request limits t =>
    rw [step, happens]
    refine h.update (.inr ⟨rfl, ?_⟩)
    obtain ⟨hserial, hsame⟩ | ⟨hserial, hcrashes⟩ := reestablish_cases p.host request limits
    · rw [if_pos hserial]; exact .inl ⟨rfl, hsame⟩
    rw [if_neg (hserial.symm ▸ Nat.succ_ne_self _)]
    obtain ⟨hnone, hcount⟩ | ⟨hone, hcount⟩ := crash_cases t.fate.call t.noted
    · exact .inl ⟨hnone, hcrashes.trans (by rw [hcount, add_zero])⟩
    · exact .inr ⟨hone, hcrashes.trans (by rw [hcount])⟩
  | bury serial crashed noted =>
    rw [step, happens]
    refine h.update (.inr ⟨rfl, ?_⟩); rw [bury_crashes]
    split_ifs with hunit hboth hboth
    · rw [hboth.2]; exact .inr ⟨rfl, rfl⟩
    · cases crashed with
      | true => exact absurd ⟨hunit, rfl⟩ hboth
      | false => exact .inl ⟨rfl, rfl⟩
    · exact absurd hboth.1 hunit
    · exact .inl ⟨rfl, rfl⟩

/-- **No worker starts too early for a parse**: in every run, when one starts there were fewer than
    `MAX_CRASHES` crashes since the last parse, and the back-off since the latest is over. -/
theorem starts_paced (known : String → Bool) (mode : Isolation) (events : List PaceEvent) :
    (run known mode events).1.Paced (run known mode events).2 := by
  rw [run]
  have hnew := Paced.new mode
  generalize new mode = p at hnew ⊢
  generalize [] = trace at hnew ⊢
  induction events generalizing p trace with
  | nil => exact hnew
  | cons event events ih => exact ih _ _ (step_paced hnew event)

end PacedHost

end Pmacs.Parse
