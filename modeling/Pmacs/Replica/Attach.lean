/-
  The attach loop of a frontend (attach.rs) and the daemon at the other end of its two
  streams.

  * `AttachLoop.receive`, `AttachLoop.input`: one message from the daemon, one event of the
    terminal.
  * `Link.step`: messages and events travel in order; the daemon takes the events one by one
    and tells the frontend's cursor whenever it likes.
  * `edits_at_cursor`: where the optimistic edits are made.
-/
import Pmacs.Crdt.Plain
import Pmacs.Replica.Mirror

namespace Pmacs.Replica

open Lib List BufferMirror

/-! ## The attach loop -/

inductive KeyEventKind where
  | press
  | repeated
  | release
deriving DecidableEq, Repr

inductive InputEvent where
  | key (k : KeyEvent) (kind : KeyEventKind)
  | mouse (m : MouseEvent)
  | resize (cols rows : ℕ)
  | paste (data : List Char)
  | focusGained
  | focusLost
deriving DecidableEq, Repr

def isDetachKey : InputEvent → Bool
  | .key k kind => k.key = .f 12 && kind ≠ .release
  | _ => false

/-- `forward_event`: a key release is not sent. -/
def forwardEvent (assignedId : FrontendId) : InputEvent → Option FrontendEvent
  | .key k kind => if kind = .release then none else some (.key k)
  | .mouse m => some (.mouse m)
  | .resize cols rows => some (.resize assignedId rows cols)
  | .paste data => some (.paste assignedId (Utf8.encode data))
  | .focusGained => some (.focusGained assignedId)
  | .focusLost => some (.focusLost assignedId)

structure AttachLoop (L : Loro) where
  assignedId : FrontendId
  mirror : BufferMirror L
  dispatchIdle : Bool
  ended : Bool

namespace AttachLoop

variable {L : Loro}

def new (L : Loro) (assignedId : FrontendId) : AttachLoop L where
  assignedId := assignedId
  mirror := .new L assignedId
  dispatchIdle := false
  ended := false

def receive (a : AttachLoop L) : InstanceMessage → AttachLoop L
  | .bufferSnapshot b snapshot => { a with mirror := a.mirror.initFromSnapshot b snapshot }
  | .cursorByte b bytePos => { a with mirror := a.mirror.setCursorBytePos b bytePos }
  | .crdtOp b op =>
    { a with mirror := applyIncomingCrdtOp a.mirror a.assignedId op.peerId b op.bytes }
  | .dispatchIdle idle => { a with dispatchIdle := idle }
  | .goodbye => { a with ended := true }
  | .presented => a

/-- The cursor of the active buffer is stale after any event, whatever was sent for it. -/
def markStale (m : BufferMirror L) : BufferMirror L :=
  match m.activeBuffer with
  | some b => m.markCursorStale b
  | none => m

variable (width : BufferMirror.CharWidth)

/-- Is an event a key press that may be applied ahead of the daemon? -/
def optimisticKey (a : AttachLoop L) : InputEvent → Option KeyEvent
  | .key k kind => if a.dispatchIdle && kind ≠ .release then some k else none
  | _ => none

def input (a : AttachLoop L) (ev : InputEvent) : AttachLoop L × Option FrontendEvent :=
  if isDetachKey ev then ({ a with ended := true }, some (.detach a.assignedId))
  else
    match a.optimisticKey ev with
    | some k =>
      let (m, sent) := frontendEventForKeystroke width a.mirror a.assignedId k
      let m := match sent with
        | .key _ => markStale m
        | _ => m
      ({ a with mirror := markStale m }, some sent)
    | none => ({ a with mirror := markStale a.mirror }, forwardEvent a.assignedId ev)

end AttachLoop

/-! ## The daemon -/

/-- The daemon as far as one frontend goes: what it makes of the frontend's events and
    where it has the frontend's document cursor. -/
structure Daemon where
  State : Type
  handle : State → FrontendEvent → State
  documentCursorByte : State → Option (BufferId × ℕ)

/-- What the daemon had done when it emitted a message: how many of the frontend's events it
    had taken, and how often something else had moved the frontend's cursor. -/
@[ext] structure Stamp where
  taken : ℕ
  moved : ℕ
deriving DecidableEq, Repr

/-- A cursor that arrived, when it was emitted and how much had been sent by then. -/
structure Heard where
  cursor : BufferId × ℕ
  stamp : Stamp
  sent : ℕ
deriving DecidableEq, Repr

/-- A frontend, a daemon and the two streams between them. `now`, the stamps, `sent` and
    `heard` only keep the record. -/
structure Link (L : Loro) (D : Daemon) where
  attach : AttachLoop L
  daemon : D.State
  up : List FrontendEvent
  down : List (InstanceMessage × Stamp)
  now : Stamp
  sent : ℕ
  heard : Option Heard

inductive LinkEvent (D : Daemon) where
  /-- The next message arrives at the frontend. -/
  | receive
  /-- The frontend's terminal has an event. -/
  | input (ev : InputEvent)
  /-- The daemon takes the frontend's next event. -/
  | take
  /-- The daemon tells the frontend its cursor. -/
  | confirm
  /-- The daemon sends anything but a cursor. -/
  | emit (m : InstanceMessage)
  /-- The daemon does something for another source, or of its own accord. -/
  | elsewhere (d : D.State)

namespace Link

variable {L : Loro} {D : Daemon} (width : BufferMirror.CharWidth)

variable (s : Link L D)

def hear (m : InstanceMessage) (stamp : Stamp) : Option Heard :=
  match m with
  | .cursorByte b bytePos => some ⟨(b, bytePos), stamp, s.sent⟩
  | _ => s.heard

def step : LinkEvent D → Link L D
  | .receive =>
    match s.down with
    | [] => s
    | (m, stamp) :: down =>
      if s.attach.ended then s
      else { s with attach := s.attach.receive m, down := down, heard := s.hear m stamp }
  | .input ev =>
    if s.attach.ended then s
    else
      match s.attach.input width ev with
      | (attach, some e) => { s with attach := attach, up := s.up ++ [e], sent := s.sent + 1 }
      | (attach, none) => { s with attach := attach }
  | .take =>
    match s.up with
    | [] => s
    | e :: up =>
      { s with
        daemon := D.handle s.daemon e
        up := up
        now := { s.now with taken := s.now.taken + 1 } }
  | .confirm =>
    match D.documentCursorByte s.daemon with
    | some (b, bytePos) => { s with down := s.down ++ [(.cursorByte b bytePos, s.now)] }
    | none => s
  | .emit m =>
    match m with
    | .cursorByte .. => s
    | m => { s with down := s.down ++ [(m, s.now)] }
  | .elsewhere d =>
    if D.documentCursorByte d = D.documentCursorByte s.daemon then { s with daemon := d }
    else { s with daemon := d, now := { s.now with moved := s.now.moved + 1 } }

def start (L : Loro) (assignedId : FrontendId) (daemon : D.State) : Link L D where
  attach := .new L assignedId
  daemon := daemon
  up := []
  down := []
  now := ⟨0, 0⟩
  sent := 0
  heard := none

def Reaches (s' : Link L D) : Prop :=
  Relation.ReflTransGen (fun a b => ∃ ev, b = a.step width ev) s s'

/-- What the mirror of a fresh cursor is worth: it is the cursor that arrived last, and
    nothing was sent since. -/
def Fresh : Prop :=
  ∀ b, s.attach.mirror.activeBuffer = some b → s.attach.mirror.isCursorFresh b = true →
    ∃ h, s.heard = some h ∧ h.cursor.1 = b ∧
      s.attach.mirror.cursorBytePos b = some h.cursor.2 ∧ h.sent = s.sent

/-- A cursor emitted at `stamp` is the daemon's still, if nothing has happened since. -/
def Emitted (cursor : BufferId × ℕ) (stamp : Stamp) : Prop :=
  stamp.taken ≤ s.now.taken ∧ stamp.moved ≤ s.now.moved ∧
    (stamp = s.now → D.documentCursorByte s.daemon = some cursor)

structure Kept (s : Link L D) : Prop where
  counted : s.now.taken + s.up.length = s.sent
  down : ∀ b bytePos stamp, (.cursorByte b bytePos, stamp) ∈ s.down →
    s.Emitted (b, bytePos) stamp
  heard : ∀ h, s.heard = some h → s.Emitted h.cursor h.stamp
  fresh : s.attach.ended = false → s.Fresh

theorem markStale_not_fresh {m : BufferMirror L} {b : BufferId}
    (h : (AttachLoop.markStale m).activeBuffer = some b) :
    (AttachLoop.markStale m).isCursorFresh b = false := by
  unfold AttachLoop.markStale at h ⊢
  cases hb : m.activeBuffer with
  | none => simp only [hb] at h; cases h
  | some b' =>
    simp only [hb, markCursorStale] at h ⊢; cases h; simp [isCursorFresh]

/-- After an event of the terminal the active cursor is stale, unless the loop is over. -/
theorem input_not_fresh {a : AttachLoop L} {ev : InputEvent} {b : BufferId}
    (he : (a.input width ev).1.ended = false)
    (h : (a.input width ev).1.mirror.activeBuffer = some b) :
    (a.input width ev).1.mirror.isCursorFresh b = false := by
  unfold AttachLoop.input at he h ⊢
  split
  · rename_i hdetach; simp [hdetach] at he
  rename_i hdetach; simp only [hdetach] at h
  split
  · rename_i k hk; simp only [hk] at h; exact markStale_not_fresh h
  · rename_i hk; simp only [hk] at h; exact markStale_not_fresh h

theorem Emitted.of_le {s s' : Link L D} {cursor : BufferId × ℕ} {stamp : Stamp}
    (h : s.Emitted cursor stamp) (ht : s.now.taken ≤ s'.now.taken) (hm : s.now.moved ≤ s'.now.moved)
    (hd : s'.now = s.now → D.documentCursorByte s'.daemon = D.documentCursorByte s.daemon) :
    s'.Emitted cursor stamp := by
  obtain ⟨htaken, hmoved, hcursor⟩ := h
  refine ⟨by omega, by omega, ?_⟩
  rintro rfl
  have hnow : s'.now = s.now := by
    ext
    · exact le_antisymm htaken ht
    · exact le_antisymm hmoved hm
  rw [hd hnow]
  exact hcursor hnow

theorem Kept.receive {s : Link L D} (h : s.Kept) : (s.step width .receive).Kept := by
  simp only [step]
  cases hdown : s.down with
  | nil => exact h
  | cons e down =>
    obtain ⟨m, stamp⟩ := e; simp only
    split
    · exact h
    rename_i hended
    have hrest : ∀ b bytePos stamp, (.cursorByte b bytePos, stamp) ∈ down →
        s.Emitted (b, bytePos) stamp := fun b p st hmem => h.down b p st (hdown ▸ .tail _ hmem)
    have hfresh := h.fresh (by simpa using hended)
    cases m with
    | bufferSnapshot b snapshot =>
      obtain ⟨states, heq⟩ := s.attach.mirror.initFromSnapshot_eq b snapshot
      refine ⟨h.counted, hrest, h.heard, fun _ => ?_⟩; simp only [Fresh, AttachLoop.receive, heq]
      exact hfresh
    | cursorByte b bytePos =>
      have hhead : s.Emitted (b, bytePos) stamp := h.down b bytePos stamp (hdown ▸ .head _)
      refine ⟨h.counted, hrest, ?_, fun _ b' hb' hf => ?_⟩
      · rintro heard hheard; cases hheard; exact hhead
      cases hb'
      refine ⟨_, rfl, rfl, ?_, rfl⟩
      simp [AttachLoop.receive, setCursorBytePos, cursorBytePos]
    | crdtOp b op =>
      obtain ⟨hactive, hcursors, hstale⟩ := applyIncomingCrdtOp_cases s.attach.mirror
        s.attach.assignedId op.peerId b op.bytes
      refine ⟨h.counted, hrest, h.heard, fun _ b' hb' hf => ?_⟩; have hf' := of_decide_eq_true hf
      obtain ⟨heard, hh⟩ := hfresh b' (hactive ▸ hb') (decide_eq_true fun hmem => hf' (hstale hmem))
      refine ⟨heard, ?_⟩
      simpa [AttachLoop.receive, cursorBytePos, hcursors, hear] using hh
    | dispatchIdle | presented => exact ⟨h.counted, hrest, h.heard, fun _ => hfresh⟩
    | goodbye => exact ⟨h.counted, hrest, h.heard, by simp [AttachLoop.receive]⟩

theorem Kept.input {s : Link L D} (h : s.Kept) (ev : InputEvent) :
    (s.step width (.input ev)).Kept := by
  simp only [step]
  split
  · exact h
  have hstale {b : BufferId} := @input_not_fresh L width s.attach ev b
  split
  · rename_i attach e he; rw [he] at hstale
    refine ⟨?_, h.down, h.heard, fun hend b hb hf => ?_⟩
    · simp only [length_append, length_singleton]; have := h.counted; omega
    · rw [hstale hend hb] at hf; cases hf
  rename_i attach he; rw [he] at hstale
  refine ⟨h.counted, h.down, h.heard, fun hend b hb hf => ?_⟩; rw [hstale hend hb] at hf
  cases hf

theorem Kept.take {s : Link L D} (h : s.Kept) : (s.step width .take).Kept := by
  simp only [step]
  cases hup : s.up with
  | nil => exact h
  | cons e up =>
    have hlater {cursor : BufferId × ℕ} {stamp : Stamp} (he : s.Emitted cursor stamp) :
        Emitted ({ s with
          daemon := D.handle s.daemon e
          up := up
          now := { s.now with taken := s.now.taken + 1 } } : Link L D) cursor stamp := by
      refine he.of_le (Nat.le_succ _) le_rfl fun hnow => ?_; have := congrArg Stamp.taken hnow
      simp at this
    refine ⟨?_, fun b p st hmem => hlater (h.down b p st hmem),
      fun heard hh => hlater (h.heard heard hh), h.fresh⟩
    have := h.counted; rw [hup, length_cons] at this; show s.now.taken + 1 + up.length = s.sent
    omega

theorem Kept.confirm {s : Link L D} (h : s.Kept) : (s.step width .confirm).Kept := by
  simp only [step]
  cases hcursor : D.documentCursorByte s.daemon with
  | none => exact h
  | some cursor =>
    refine ⟨h.counted, fun b p st hmem => ?_, h.heard, h.fresh⟩
    rcases mem_append.1 hmem with hmem | hmem
    · exact h.down b p st hmem
    simp only [mem_singleton, Prod.mk.injEq, InstanceMessage.cursorByte.injEq] at hmem
    obtain ⟨⟨rfl, rfl⟩, rfl⟩ := hmem; exact ⟨le_rfl, le_rfl, fun _ => hcursor⟩

theorem Kept.emit {s : Link L D} (h : s.Kept) (m : InstanceMessage) :
    (s.step width (.emit m)).Kept := by
  cases m with
  | cursorByte => exact h
  | bufferSnapshot | crdtOp | dispatchIdle | goodbye | presented =>
    refine ⟨h.counted, fun b p st hmem => ?_, h.heard, h.fresh⟩
    rcases mem_append.1 hmem with hmem | hmem
    · exact h.down b p st hmem
    · simp at hmem

theorem Kept.elsewhere {s : Link L D} (h : s.Kept) (d : D.State) :
    (s.step width (.elsewhere d)).Kept := by
  simp only [step]
  split
  · rename_i heq
    have hlater {cursor : BufferId × ℕ} {stamp : Stamp} (he : s.Emitted cursor stamp) :
        Emitted ({ s with daemon := d } : Link L D) cursor stamp :=
      he.of_le le_rfl le_rfl fun _ => heq
    exact ⟨h.counted, fun b p st hmem => hlater (h.down b p st hmem),
      fun heard hh => hlater (h.heard heard hh), h.fresh⟩
  have hlater {cursor : BufferId × ℕ} {stamp : Stamp} (he : s.Emitted cursor stamp) :
      Emitted ({ s with daemon := d, now := { s.now with moved := s.now.moved + 1 } } :
        Link L D) cursor stamp := by
    refine he.of_le le_rfl (Nat.le_succ _) fun hnow => ?_; have := congrArg Stamp.moved hnow
    simp at this
  exact ⟨h.counted, fun b p st hmem => hlater (h.down b p st hmem),
    fun heard hh => hlater (h.heard heard hh), h.fresh⟩

theorem Kept.step {s : Link L D} (h : s.Kept) : ∀ ev : LinkEvent D, (s.step width ev).Kept
  | .receive => h.receive width
  | .input ev => h.input width ev
  | .take => h.take width
  | .confirm => h.confirm width
  | .emit m => h.emit width m
  | .elsewhere d => h.elsewhere width d

theorem kept_start (assignedId : FrontendId) (daemon : D.State) :
    (start L assignedId daemon).Kept where
  counted := rfl
  down := by simp [start]
  heard := by simp [start]
  fresh := by nofun

theorem Kept.reaches {s s' : Link L D} (h : s.Kept) (hr : Reaches width s s') : s'.Kept := by
  induction hr with
  | refl => exact h
  | tail _ hstep ih => obtain ⟨ev, rfl⟩ := hstep; exact ih.step width ev

/-- A library whose documents import a snapshot that is the text itself. -/
def snapshots : Loro :=
  { Loro.plain with
    importUpdates := fun bytes d =>
      let text := Utf8.lossy bytes
      .ok [[.insert text false]] (d.record text.length text) }

/-- A daemon with a cursor in one buffer, which one key moves to byte 4. -/
def downDaemon : Daemon where
  State := ℕ
  handle cursor e := if e = .key ⟨.named "Down", .none⟩ then 4 else cursor
  documentCursorByte cursor := some (1, cursor)

def cursorAt (n : ℕ) : downDaemon.State := n

def pressed (key : Key) : LinkEvent downDaemon := .input (.key ⟨key, .none⟩ .press)

def oneColumn : BufferMirror.CharWidth := fun _ => some 1

def run (evs : List (LinkEvent downDaemon)) : Link snapshots downDaemon :=
  evs.foldl (step oneColumn) (start snapshots 2 (cursorAt 2))

theorem reaches_run (evs : List (LinkEvent downDaemon)) :
    Reaches oneColumn (start snapshots 2 (cursorAt 2)) (run evs) := by
  unfold run
  induction evs using reverseRecOn with
  | nil => exact .refl
  | append_singleton evs ev ih => rw [foldl_append]; exact ih.tail ⟨ev, rfl⟩

/-- The first text a frontend is sent, with the daemon idle and its cursor after `ab`. -/
def attached : List (LinkEvent downDaemon) :=
  [.emit (.dispatchIdle true), .emit (.bufferSnapshot 1 (Utf8.encode ['a', 'b', '\n', 'c'])),
    .confirm, .receive, .receive, .receive]

end Link

end Pmacs.Replica
