/-
  The editor's side of a buffer's parse unit (parse_isolation.rs): which process a parse
  goes to, whether it needs the whole text, and what the answer does to the slot.

  * `Host` is a buffer's slot with the processes that were started for it;
  * `Fate` is what the surroundings decide of one attempt: a back-off, a failed start, a
    death, the parse's verdict, a unit that is lost while it answers;
  * `run` is one isolated parse, of two attempts at most; `reestablish`, `bury` and
    `forget` are what else happens to the slot.
-/
import Pmacs.Parse.Unit
import Pmacs.Lib.Assoc

namespace Pmacs.Parse

open Lib

inductive Isolation where
  | native
  | process
deriving DecidableEq

/-- The limits a dispatch carries; `recycle` is the peak past which a worker is replaced. -/
structure Limits where
  mode : Isolation
  unitMemory : ℕ
  recycle : ℕ

structure IsolatedJob where
  request : ParseRequest
  inserted : List Bytes
  limits : Limits

abbrev Serial := ℕ

/-- A buffer's unit, and what the editor knows of it. -/
structure Slot where
  mode : Isolation
  unit : Option Serial
  /-- The unit's text mirror equals the text the editor last sent. -/
  synced : Bool
  recycleNext : Bool
  retiring : Option Serial
  crashes : ℕ

structure Process where
  unit : Unit
  unitMemory : ℕ

structure Host where
  slot : Slot
  processes : Assoc Serial Process
  nextSerial : Serial

def MAX_CRASHES : ℕ := 3

/-- What becomes of a request sent to a unit. -/
inductive CallFate where
  | dies (crashed : Bool)
  | answers (verdict : Verdict)

/-- What the surroundings decide of one attempt; `lost` when the unit was found dead, or
    its buffer killed, between its answer and the slot's update. -/
structure Fate where
  backingOff : Bool
  spawns : Bool
  call : CallFate
  lost : Bool

/-- Why an isolated parse gave no bundle. -/
inductive RunError where
  | held
  | unavailable
  | died
  | failed (failure : Failure)

inductive AttemptEnd where
  | parsed (serial : Serial)
  | again
  | stopped (error : RunError)

variable (known : String → Bool) (slot : Slot) (mode : Isolation)

namespace Slot

def stopped : Bool := decide (MAX_CRASHES ≤ slot.crashes)

/-- No worker may start for this buffer now. -/
def held (backingOff : Bool) : Bool := slot.stopped || backingOff

def note (crashed : Bool) : Slot :=
  if crashed then { slot with crashes := slot.crashes + 1 } else slot

def fresh : Slot := ⟨mode, none, false, false, none, 0⟩

end Slot

namespace Host

def new : Host := ⟨.fresh mode, ∅, 1⟩

/-- A slot in which a parse may replace the worker the last one passed its threshold with. -/
def recycled : Slot :=
  if slot.recycleNext then
    { slot with
      recycleNext := false
      synced := false
      retiring := slot.unit
      unit := none }
  else { slot with retiring := none }

/-- A slot for a mode: another mode's unit is dropped. -/
def withMode : Slot :=
  if slot.mode ≠ mode then
    { slot with
      unit := none
      mode := mode
      synced := false }
  else slot

/-- A slot for an allowance: a unit that started with another retires. -/
def withMemory (host : Host) (slot : Slot) (unitMemory : ℕ) : Slot :=
  if (slot.unit.bind host.processes.lookup).any fun p => decide (p.unitMemory ≠ unitMemory) then
    { slot with
      retiring := slot.unit
      unit := none
      synced := false }
  else slot

/-- The slot as a parse finds it, before a worker is started. -/
def prepared (host : Host) (limits : Limits) (first : Bool) : Slot :=
  host.withMemory (withMode (if first then recycled host.slot else host.slot) limits.mode)
    limits.unitMemory

/-- The worker a parse goes to, and whether it needs the whole text. -/
def unitFor (host : Host) (limits : Limits) (first : Bool) (fate : Fate) :
    Except RunError (Serial × Bool) × Host :=
  let slot := host.prepared limits first
  match slot.unit with
  | some serial => (.ok (serial, !slot.synced), { host with slot := slot })
  | none =>
    if slot.held fate.backingOff then (.error .held, { host with slot := slot })
    else if limits.mode = .native ∨ fate.spawns = false then
      (.error .unavailable, { host with slot := slot })
    else
      let serial := host.nextSerial
      (.ok (serial, true), {
        slot := { slot with unit := some serial, synced := false }
        processes := host.processes.insert serial ⟨.new, limits.unitMemory⟩
        nextSerial := serial + 1 })

def parseCall (request : ParseRequest) (inserted : List Bytes) (full : Bool) : ParseCall × Bytes :=
  let (text, edits, payload) :=
    if full then (TextUpdate.full, [], request.source)
    else (TextUpdate.edits, request.edits.map WireEdit.fromInputEdit, inserted.flatten)
  ({  language := request.languageName
      text := text
      edits := edits
      expectLen := u32 request.source.length
      aliases := request.injectionAliases
      deadlineMs := request.deadline }, payload)

/-- Forget a unit that died, if it is still the slot's. -/
def bury (host : Host) (serial : Serial) (crashed : Bool) : Host :=
  if host.slot.unit = some serial then
    { host with slot := { host.slot with unit := none, synced := false }.note crashed }
  else host

def answered (host : Host) (f : Slot → Slot) : Host := { host with slot := f host.slot }

def attempt (host : Host) (job : IsolatedJob) (first : Bool) (fate : Fate) : AttemptEnd × Host :=
  match host.unitFor job.limits first fate with
  | (.error error, host) => (.stopped error, host)
  | (.ok (serial, full), host) =>
    match fate.call, host.processes.lookup serial with
    | .answers verdict, some process =>
      let (call, payload) := parseCall job.request job.inserted full
      let (response, unit) := process.unit.parse known call payload verdict
      let host := { host with processes := host.processes.insert serial { process with unit := unit } }
      let host := if fate.lost then host.bury serial false else host
      match response with
      | .parsed _ peakBytes => (.parsed serial, host.answered fun slot => { slot with
          synced := true
          recycleNext := decide (job.limits.recycle > 0 ∧ peakBytes > job.limits.recycle)
          crashes := 0 })
      | .failed (.desync have_ want) =>
        (if first then .again else .stopped (.failed (.desync have_ want)),
          host.answered fun slot => { slot with synced := false })
      | .failed failure =>
        (.stopped (.failed failure), host.answered fun slot => { slot with synced := true })
    | .dies crashed, _ => (.stopped .died, host.bury serial crashed)
    | _, none => (.stopped .died, host.bury serial false)

/-- Run one isolated parse: when the unit's text is not what the edits start from, once
    more with the whole text. -/
def run (host : Host) (job : IsolatedJob) (fate₁ fate₂ : Fate) : AttemptEnd × Host :=
  match host.attempt known job true fate₁ with
  | (.again, host) => host.attempt known job false fate₂
  | done => done

/-- Start a worker for a buffer without one and parse an older text into it, for a read of
    that text's tree. -/
def reestablish (host : Host) (request : ParseRequest) (limits : Limits) (fate : Fate) : Host :=
  if host.slot.unit.isSome ∨ host.slot.stopped ∨ limits.mode = .native ∨ fate.spawns = false then
    host
  else
    let serial := host.nextSerial
    let started := { host with nextSerial := serial + 1 }
    match fate.call with
    | .dies crashed => { started with slot := started.slot.note crashed }
    | .answers verdict =>
      let (call, payload) := parseCall request [] true
      match Unit.new.parse known call payload verdict with
      | (.parsed _ _, unit) => { started with
          slot := { started.slot with unit := some serial, synced := false }
          processes := started.processes.insert serial ⟨unit, limits.unitMemory⟩ }
      | _ => started

def forget (host : Host) (mode : Isolation) : Host := { host with slot := .fresh mode }

/-! ## What `synced` says -/

/-- The slot's unit has a process, and a synced one mirrors the text last sent. -/
def Synced (host : Host) (sent : Option Bytes) : Prop :=
  ∀ serial, host.slot.unit = some serial → serial < host.nextSerial ∧
    ∃ process, host.processes.lookup serial = some process ∧
      (host.slot.synced = true → sent = some process.unit.source)

/-- A parse that would go out as edits: the slot is synced, and nothing replaces its unit. -/
def SendsEdits (host : Host) (limits : Limits) : Prop :=
  host.slot.synced = true ∧ host.slot.recycleNext = false ∧ host.slot.mode = limits.mode ∧
    ∃ serial process, host.slot.unit = some serial ∧ host.processes.lookup serial = some process ∧
      process.unitMemory = limits.unitMemory

theorem synced_new (sent : Option Bytes) : (new mode).Synced sent :=
  nofun

variable {host : Host}

theorem synced_of_no_unit (h : host.slot.unit = none) (sent : Option Bytes) : host.Synced sent := by
  intro serial hunit
  rw [h] at hunit
  cases hunit

theorem Synced.bury {sent : Option Bytes} (h : host.Synced sent) (serial : Serial)
    (crashed : Bool) : (host.bury serial crashed).Synced sent := by
  unfold Host.bury
  split
  · refine synced_of_no_unit ?_ sent; cases crashed <;> rfl
  · exact h

/-- **What a prepared slot is**: without a unit, or the slot it was but for what it retires. -/
theorem prepared_cases (host : Host) (limits : Limits) (first : Bool) :
    (host.prepared limits first).unit = none ∨ (host.prepared limits first).unit = host.slot.unit ∧
        (host.prepared limits first).synced = host.slot.synced ∧
        (first = true → host.slot.recycleNext = false) ∧ host.slot.mode = limits.mode ∧
        ∀ serial process, host.slot.unit = some serial →
          host.processes.lookup serial = some process → process.unitMemory = limits.unitMemory := by
  have hmode : ∀ slot : Slot, (withMode slot limits.mode).unit = none ∨
      withMode slot limits.mode = slot ∧ slot.mode = limits.mode := by
    intro slot; unfold withMode
    split
    next => exact .inl rfl
    next hne => exact .inr ⟨rfl, not_not.1 hne⟩
  have hmemory : ∀ slot : Slot, (host.withMemory slot limits.unitMemory).unit = none ∨
      host.withMemory slot limits.unitMemory = slot ∧ ∀ serial process, slot.unit = some serial →
        host.processes.lookup serial = some process → process.unitMemory = limits.unitMemory := by
    intro slot; unfold withMemory
    split
    next => exact .inl rfl
    rename_i hsame
    refine .inr ⟨rfl, fun serial process hunit hprocess => ?_⟩
    by_contra hne
    exact hsame (by simp [hunit, hprocess, hne])
  have hrecycled : (if first then recycled host.slot else host.slot).unit = none ∨
      (if first then recycled host.slot else host.slot).unit = host.slot.unit ∧
        (if first then recycled host.slot else host.slot).synced = host.slot.synced ∧
        (if first then recycled host.slot else host.slot).mode = host.slot.mode ∧
        (first = true → host.slot.recycleNext = false) := by
    cases first with
    | false => exact .inr ⟨rfl, rfl, rfl, nofun⟩
    | true =>
      simp only [if_true, recycled]
      cases hr : host.slot.recycleNext with
      | true => exact .inl rfl
      | false => exact .inr ⟨rfl, rfl, rfl, fun _ => rfl⟩
  have hnone : ∀ slot : Slot, slot.unit = none →
      (host.withMemory (withMode slot limits.mode) limits.unitMemory).unit = none := by
    intro slot hslot
    rcases hmemory (withMode slot limits.mode) with h | ⟨h, _⟩
    · exact h
    rw [h]
    rcases hmode slot with h' | ⟨h', _⟩
    · exact h'
    · rw [h', hslot]
  rcases hrecycled with hgone | ⟨hunit, hsynced, hslotMode, hrec⟩
  · exact .inl (hnone _ hgone)
  rcases hmemory (withMode (if first then recycled host.slot else host.slot) limits.mode) with
    h | ⟨h, hmem⟩
  · exact .inl h
  rcases hmode (if first then recycled host.slot else host.slot) with h' | ⟨h', hm⟩
  · left; rw [prepared, h]; exact h'
  right; rw [h', hunit] at hmem; rw [prepared, h, h']
  exact ⟨hunit, hsynced, hrec, hslotMode.symm.trans hm, hmem⟩

/-- **The worker a parse goes to** has a process; a parse that does not need the whole text
    goes to the slot's own, synced unit. -/
theorem unitFor_ok {host' : Host} {limits : Limits} {first full : Bool} {fate : Fate}
    {serial : Serial} {sent : Option Bytes} (hsynced : host.Synced sent)
    (h : host.unitFor limits first fate = (.ok (serial, full), host')) :
    host'.slot.unit = some serial ∧ serial < host'.nextSerial ∧
      (∃ process, host'.processes.lookup serial = some process) ∧
      (full = false → host.slot.synced = true ∧ (first = true → host.SendsEdits limits) ∧
        ∃ process, host'.processes.lookup serial = some process ∧
          sent = some process.unit.source) := by
  unfold unitFor at h
  rcases prepared_cases host limits first with hnone | ⟨hunit, hsync, hrec, hmode, hmemory⟩
  · simp only [hnone] at h
    split at h
    · exact absurd (congrArg Prod.fst h) (by simp)
    split at h
    · exact absurd (congrArg Prod.fst h) (by simp)
    obtain ⟨⟨rfl, rfl⟩, rfl⟩ := h
    refine ⟨rfl, Nat.lt_succ_self _, ⟨_, AList.lookup_insert _⟩, fun hfull => ?_⟩
    cases hfull
  cases hslot : host.slot.unit with
  | none =>
    rw [hslot] at hunit; simp only [hunit] at h
    split at h
    · exact absurd (congrArg Prod.fst h) (by simp)
    split at h
    · exact absurd (congrArg Prod.fst h) (by simp)
    obtain ⟨⟨rfl, rfl⟩, rfl⟩ := h
    refine ⟨rfl, Nat.lt_succ_self _, ⟨_, AList.lookup_insert _⟩, fun hfull => ?_⟩
    cases hfull
  | some old =>
    rw [hslot] at hunit; simp only [hunit, Prod.mk.injEq, Except.ok.injEq] at h
    obtain ⟨⟨rfl, rfl⟩, rfl⟩ := h; obtain ⟨hlt, process, hprocess, hsent⟩ := hsynced old hslot
    refine ⟨hunit, hlt, ⟨process, hprocess⟩, fun hfull => ?_⟩
    rw [hsync, Bool.not_eq_false'] at hfull
    exact ⟨hfull, fun hfirst => ⟨hfull, hrec hfirst, hmode, old, process, hslot, hprocess,
      hmemory old process hslot hprocess⟩, process, hprocess, hsent hfull⟩

theorem unitFor_error {host' : Host} {limits : Limits} {first : Bool} {fate : Fate}
    {error : RunError} (h : host.unitFor limits first fate = (.error error, host')) :
    host'.slot.unit = none ∧ ∀ failure, error ≠ .failed failure := by
  unfold unitFor at h
  cases hunit : (host.prepared limits first).unit with
  | some serial => simp [hunit] at h
  | none =>
    simp only [hunit] at h
    split at h
    · obtain ⟨rfl, rfl⟩ := h
      exact ⟨hunit, fun _ => by simp⟩
    split at h
    · obtain ⟨rfl, rfl⟩ := h
      exact ⟨hunit, fun _ => by simp⟩
    · exact absurd (congrArg Prod.fst h) (by simp)

end Host

end Pmacs.Parse
