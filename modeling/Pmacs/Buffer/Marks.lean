/-
  The marks of a buffer (buffer.rs).

  * `adjustMark`: it keeps a mark in the text and the order of marks, and a replacement moves
    marks as its deletion and then its insertion do;
  * `perform_moved`: every call moves the marks by the edit that the views hear of; `Tells` says
    what range it has;
  * `Clean`: where an edit ends in the middle of a character, no mark on a boundary is taken
    there. `marks_hold`, and `not_marks_hold`: an undo may take one.
-/
import Pmacs.Buffer.Import

namespace Pmacs

open Lib List Utf8

namespace Buffer

variable {L : Loro} {c : Call L} {cs : List Char} {m : Mark} {move : Mark → Mark}
  {out : Outcome L (Option (Edit WfRope))} {range : Range} {α : Type} {pos : ℕ}

/-! ## One mark -/

def landing (range : Range) (insertedLen : ℕ) : MarkGravity → ℕ
  | .left => range.start
  | .right => min (range.start + insertedLen) usizeMax

variable {insertedLen : ℕ}

theorem adjustMark_eq {range : Range} :
    adjustMark range insertedLen m = ⟨if m.pos < range.start then m.pos
        else if range.stop < m.pos then m.pos - range.len + insertedLen
        else landing range insertedLen m.gravity, m.gravity⟩ := by
  obtain ⟨pos, gravity⟩ := m
  cases gravity with
  | left | right => rfl

theorem landing_le (range : Range) (insertedLen : ℕ) (gravity : MarkGravity) :
    landing range insertedLen gravity ≤ range.start + insertedLen := by
  cases gravity with
  | left => exact Nat.le_add_right _ _
  | right => exact min_le_left _ _

variable {new : Bytes}

theorem adjustMark_le {old : Bytes} (h : Describes old range.start range.stop insertedLen new)
    (hm : m.pos ≤ old.length) : (adjustMark range insertedLen m).pos ≤ new.length := by
  have hlength : new.length = old.length - range.len + insertedLen := by
    have hsplice := congrArg length h.splice_eq
    have hslice : (slice new range.start (range.start + insertedLen)).length = insertedLen := by
      rw [length_slice h.inserted_le, Nat.add_sub_cancel_left]
    rw [length_splice _ h.start_le h.stop_le, hslice] at hsplice; exact hsplice.symm
  have hlanding := landing_le range insertedLen m.gravity
  have hle := h.start_le
  have hstop := h.stop_le
  rw [adjustMark_eq]
  dsimp only
  rw [Range.len] at *
  split_ifs <;> omega

theorem adjustMark_mono (hle : range.start ≤ range.stop) {m' : Mark}
    (hgravity : m.gravity = m'.gravity) (hpos : m.pos ≤ m'.pos) (hmax : m'.pos ≤ usizeMax) :
    (adjustMark range insertedLen m).pos ≤ (adjustMark range insertedLen m').pos := by
  have hlanding := landing_le range insertedLen m.gravity
  have hstart : m.pos < range.start → range.start ≤ m'.pos →
      m.pos ≤ landing range insertedLen m'.gravity := by
    intro hbefore hfrom
    cases m'.gravity with
    | left => exact le_of_lt hbefore
    | right => exact Nat.le_min.2 ⟨by omega, by omega⟩
  rw [adjustMark_eq, adjustMark_eq]
  dsimp only
  rw [Range.len, hgravity] at *
  split_ifs <;> omega

/-- **A replacement moves a mark as its deletion does, and then its insertion.** -/
theorem adjustMark_replace (hle : range.start ≤ range.stop)
    (hmax : range.start ≤ usizeMax) : adjustMark range insertedLen m =
      adjustMark ⟨range.start, range.start⟩ insertedLen (adjustMark range 0 m) := by
  obtain ⟨pos, gravity⟩ := m
  rw [adjustMark_eq, adjustMark_eq, adjustMark_eq]
  cases gravity with
  | left | right =>
    simp only [landing, Range.len, Mark.mk.injEq, and_true]
    split_ifs <;> omega

/-- A mark on a boundary stays on one exactly where the place it is taken to is one. -/
theorem adjustMark_boundary {old : Bytes}
    (h : Describes old range.start range.stop insertedLen new) (hm : m.pos ≤ old.length)
    (hboundary : isCharBoundary old m.pos = true) :
    isCharBoundary new (adjustMark range insertedLen m).pos = true ↔
      (range.start ≤ m.pos → m.pos ≤ range.stop →
        isCharBoundary new (landing range insertedLen m.gravity) = true) := by
  have hslice : (slice new range.start (range.start + insertedLen)).length = insertedLen := by
    rw [length_slice h.inserted_le, Nat.add_sub_cancel_left]
  rw [adjustMark_eq]
  split_ifs with hbefore hafter
  · refine iff_of_true ?_ fun hfrom => absurd hbefore (not_lt.2 hfrom); rw [← h.splice_eq]
    exact isCharBoundary_splice_before hbefore (le_trans h.start_le h.stop_le) hboundary
  · refine iff_of_true ?_ fun _ hto => absurd hafter (not_lt.2 hto)
    have hmoved := isCharBoundary_splice_after (slice new range.start (range.start +
      insertedLen)) h.start_le hafter hm hboundary
    rwa [h.splice_eq, hslice] at hmoved
  · exact ⟨fun hland _ _ => hland, fun hland => hland (not_lt.1 hbefore) (not_lt.1 hafter)⟩

/-! ## Calls on marks -/

variable (b : Buffer L)

/-- Create a mark, `id` being the buffer's next. -/
def createMark (id pos : ℕ) (gravity : MarkGravity) : Except BufferError (Buffer L) :=
  if b.len < pos then .error (.rope (.outOfBounds pos b.len))
  else .ok { b with marks := b.marks ++ [(id, ⟨pos, gravity⟩)] }

def setMark (id pos : ℕ) : Except BufferError (Bool × Buffer L) :=
  if b.len < pos then .error (.rope (.outOfBounds pos b.len))
  else
    match b.marks.findIdx? (fun m => m.1 == id) with
    | none => .ok (false, b)
    | some i => .ok (true, { b with marks := b.marks.modify i fun m => (m.1, { m.2 with pos := pos }) })

def removeMark (id : ℕ) : Bool × Buffer L :=
  match b.marks.findIdx? (fun m => m.1 == id) with
  | none => (false, b)
  | some i => (true, { b with marks := b.marks.eraseIdx i })

/-- The buffers that calls lead to, marks being created, moved and removed between them; a text's
    length is a `usize`. -/
inductive Marked : Buffer L → Prop where
  | start {b : Buffer L} : Constructed b → b.bytes.length ≤ usizeMax → Marked b
  | call {b : Buffer L} {c : Call L} {out : Outcome L (Option (Edit WfRope))} :
    Marked b → b.perform c = some out → out.buffer.bytes.length ≤ usizeMax → Marked out.buffer
  | createMark {b b' : Buffer L} {id pos : ℕ} {gravity : MarkGravity} :
    Marked b → b.createMark id pos gravity = .ok b' → Marked b'
  | setMark {b b' : Buffer L} {id pos : ℕ} {found : Bool} :
    Marked b → b.setMark id pos = .ok (found, b') → Marked b'
  | removeMark {b : Buffer L} (id : ℕ) : Marked b → Marked (b.removeMark id).2

/-! ## What a call does to marks -/

def moveMark (e : EditDescription) (m : Mark) : Mark := adjustMark e.preRange e.insertedLen m

/-- A call that is refused leaves the text and the marks. -/
structure Refused {α : Type} (b : Buffer L) (o : Outcome L α) : Prop where
  heard : o.heard = []
  rope : o.buffer.rope = b.rope
  marks : o.buffer.marks = b.marks

/-- The marks are moved by the edit that the views hear of. -/
structure MovedBy {α : Type} (b : Buffer L) (e : EditDescription) (o : Outcome L α) : Prop where
  heard : ∃ ed, o.heard = [ed] ∧ e = ⟨ed.range, ed.insertedLen⟩
  marks : o.buffer.marks = b.marks.map fun m => (m.1, moveMark e m.2)

variable {o : Outcome L α}

theorem Refused.mapResult {β : Type} {b : Buffer L} (h : Refused b o)
    (f : α → β) : Refused b (o.mapResult f) := ⟨h.heard, h.rope, h.marks⟩

variable {e : EditDescription}

theorem MovedBy.mapResult {β : Type} {b : Buffer L}
    (h : MovedBy b e o) (f : α → β) : MovedBy b e (o.mapResult f) := ⟨h.heard, h.marks⟩

theorem refused_fail (e : BufferError) : Refused b (b.fail e : Outcome L α) := ⟨rfl, rfl, rfl⟩

variable {b' : Buffer L}

theorem refused_quiet {b : Buffer L} (hrope : b'.rope = b.rope) (hmarks : b'.marks = b.marks) :
    Refused b b'.quiet := ⟨rfl, hrope, hmarks⟩

theorem OnlyArbiter.marks {b : Buffer L} (h : OnlyArbiter b b') : b'.marks = b.marks := by
  rw [h]

theorem moveMark_same (hempty : range.isEmpty = true)
    (hmax : range.start ≤ usizeMax) : moveMark ⟨range, 0⟩ m = m := by
  obtain ⟨start, stop⟩ := range
  obtain ⟨pos, gravity⟩ := m
  have hstop : start = stop := by simpa [Range.isEmpty] using hempty
  rw [moveMark, adjustMark_eq]
  cases gravity with
  | left =>
    simp only [landing, Range.len, Mark.mk.injEq, and_true]
    split_ifs <;> omega
  | right =>
    simp only [landing, Range.len, Mark.mk.injEq, and_true] at *
    split_ifs <;> omega

theorem landEdit_moved {b : Buffer L} (views : List (View (Buffer L)))
    (order : List UndoSource → List UndoSource) (source : UndoSource) (routed : Routed L)
    {ed : Edit WfRope} (hmax : ed.range.start ≤ usizeMax) :
    MovedBy b ⟨ed.range, ed.insertedLen⟩ (b.landEdit views order source routed ed) := by
  simp only [landEdit]
  split_ifs with hnoop hcrdt
  · rw [Bool.and_eq_true, beq_iff_eq] at hnoop
    refine ⟨⟨ed, rfl, rfl⟩, ?_⟩
    have hsame : ∀ m : ℕ × Mark, (m.1, moveMark ⟨ed.range, ed.insertedLen⟩ m.2) = m := by
      intro m; rw [hnoop.2, moveMark_same hnoop.1 hmax]
    simp only [hsame, map_id']; rfl
  · refine ⟨⟨ed, rfl, rfl⟩, ?_⟩; exact (arbiterRecord_only _ order source _ routed.change).marks
  · exact ⟨⟨ed, rfl, rfl⟩, rfl⟩

/-- The edit of a rope replaces the range it is asked to, which is in the rope. -/
theorem editRope_range {r : WfRope} {op : EditOp} {ed : Edit WfRope} (h : editRope r op = .ok ed) :
    ed.range = op.range ∧ ed.range.start ≤ r.bytes.length := by
  obtain ⟨hwithin, hsp⟩ := editRope_ok h
  rw [show ed.range = op.range from hsp.range]
  exact ⟨rfl, le_trans hwithin.1 hwithin.2⟩

theorem runRopeEdit_moved {b : Buffer L} (hmax : b.bytes.length ≤ usizeMax)
    (views : List (View (Buffer L))) (order : List UndoSource → List UndoSource) (op : EditOp)
    (source : UndoSource) (routed : Routed L) :
    Refused b (b.runRopeEdit views order op source routed) ∨
      ∃ n, MovedBy b ⟨op.range, n⟩ (b.runRopeEdit views order op source routed) := by
  rw [runRopeEdit]
  split
  · exact .inl (refused_fail b _)
  rename_i ed hed; obtain ⟨hrange, hle⟩ := editRope_range hed; rw [range_withBytes] at hrange
  have hmoved := @landEdit_moved _ b views order source routed
    { ed with crdtOp := routed.crdtOp } (le_trans hle hmax)
  rw [← hrange]; exact .inr ⟨_, hmoved⟩

theorem runRopeEditAndBroadcast_moved {b : Buffer L} (hmax : b.bytes.length ≤ usizeMax)
    (views : List (View (Buffer L))) (order : List UndoSource → List UndoSource) (op : EditOp)
    (source : UndoSource) : Refused b (b.runRopeEditAndBroadcast views order op source) ∨
      ∃ n, MovedBy b ⟨op.range, n⟩ (b.runRopeEditAndBroadcast views order op source) := by
  rw [runRopeEditAndBroadcast]
  split
  · split
    · exact .inl ⟨rfl, rfl, rfl⟩
    rename_i routed d' _
    rcases runRopeEdit_moved (b := { b with crdt := some d' }) hmax views order op source routed with
      hrefused | ⟨n, hmoved⟩
    · exact .inl ⟨hrefused.heard, hrefused.rope, hrefused.marks⟩
    · exact .inr ⟨n, hmoved.heard, hmoved.marks⟩
  · exact runRopeEdit_moved hmax views order op source .none

section
variable (views : List (View (Buffer L)))
include views

theorem applyRemoteCrdtOp_moved {b : Buffer L} {op : Bytes}
    (hout : b.applyRemoteCrdtOp views op = some out) :
    Refused b out ∨ ∃ (d : L.Doc) (deltas : List (List TextDelta)) (range : Range) (inserted : Bytes),
      remoteEdit b.bytes d deltas = some (some (range, inserted)) ∧
        out.buffer.bytes = splice b.bytes range.start range.stop inserted ∧
        MovedBy b ⟨range, inserted.length⟩ out := by
  rw [applyRemoteCrdtOp] at hout
  split_ifs at hout
  · cases hout; exact .inl (refused_fail b _)
  · cases hout; exact .inl (refused_fail b _)
  split at hout
  · cases hout; exact .inl (refused_fail b _)
  split at hout
  · cases hout; exact .inl ⟨rfl, rfl, rfl⟩
  rename_i deltas change d' _; dsimp only at hout
  split at hout
  · cases hout
  · cases hout; exact .inl ⟨rfl, rfl, rfl⟩
  rename_i range inserted hedit; cases hout; rw [runRemoteRopeStages]
  rcases b.rope.replace_spec range.start range.stop inserted with
    ⟨_, _, ed, hed, hsp⟩ | ⟨_, herr⟩
  · simp only [hed]
    refine .inr ⟨d', deltas, range, inserted, hedit, hsp.bytes, ?_⟩
    rw [← hsp.insertedLen, show range = ed.range from hsp.range.symm]
    exact ⟨⟨ed, rfl, rfl⟩, rfl⟩
  · simp only [herr]; exact .inl ⟨rfl, rfl, rfl⟩

theorem swapBack_moved {b : Buffer L} {entry : UndoEntry}
    (hmarks : b'.marks = (b.swapBack entry).marks) :
    MovedBy b (EditDescription.inverse entry.edit) (b'.broadcastOnEdit views (swapEdit entry) []) :=
  ⟨⟨swapEdit entry, rfl, rfl⟩, hmarks⟩

theorem undoV01_moved : Refused b (b.undoV01 views) ∨
      ∃ entry, b.undo.getLast? = some entry ∧ MovedBy b (EditDescription.inverse entry.edit) (b.undoV01 views) := by
  rw [undoV01]
  split
  · exact .inl (refused_fail b _)
  · rename_i entry hentry; exact .inr ⟨entry, hentry, swapBack_moved views rfl⟩

theorem redoV01_moved : Refused b (b.redoV01 views) ∨
      ∃ entry, b.redo.getLast? = some entry ∧ MovedBy b (EditDescription.inverse entry.edit) (b.redoV01 views) := by
  rw [redoV01]
  split
  · exact .inl (refused_fail b _)
  · rename_i entry hentry; exact .inr ⟨entry, hentry, swapBack_moved views rfl⟩

end

variable {d : L.Doc}

theorem compensate_moved {b : Buffer L} (hsome : b.crdt.isSome)
    (views : List (View (Buffer L))) (source from_ : UndoSource) (step : HistoryStep) :
    Refused b (b.compensate d views source from_ step) ∨
      MovedBy b (describe b.rope (b.compensate d views source from_ step).buffer.rope)
        (b.compensate d views source from_ step) := by
  rcases compensate_cases b source hsome views from_ step with
    ⟨b', popped, e, honly, hout⟩ | ⟨b', newRope, op, popped, modified, honly, _, hout⟩
  · refine .inl ?_; rw [hout]
    exact ⟨rfl, honly.keeps.rope, by rw [honly.rest]⟩
  · refine .inr ?_; rw [hout]
    refine ⟨⟨_, rfl, rfl⟩, ?_⟩
    show b'.marks.map _ = _
    rw [honly.rest]; rfl

theorem undoArbiter_moved {b : Buffer L} (hd : b.crdt = some d)
    (views : List (View (Buffer L))) (source : UndoSource) :
    Refused b (b.undoArbiter d views source) ∨
      MovedBy b (describe b.rope (b.undoArbiter d views source).buffer.rope)
        (b.undoArbiter d views source) := by
  have hclosed := closeOwnRun_only b source
  rw [undoArbiter]
  generalize b.closeOwnRun source = closed at hclosed ⊢
  have hsome : closed.crdt.isSome := by rw [hclosed.keeps.isSome, hd]; rfl
  rcases compensate_moved hsome views source (closed.undoPick source) .undo with
    hrefused | hmoved
  · exact .inl ⟨hrefused.heard, hrefused.rope.trans hclosed.keeps.rope,
      hrefused.marks.trans hclosed.marks⟩
  refine .inr ⟨?_, ?_⟩
  · rw [← hclosed.keeps.rope]; exact hmoved.heard
  · rw [← hclosed.keeps.rope, ← hclosed.marks]; exact hmoved.marks

variable {source : UndoSource}

theorem arbiterTypedBegin_marks {run limit : ℕ} :
    (b.arbiterTypedBegin source run limit).marks = b.marks := by
  simp only [arbiterTypedBegin]
  split_ifs
  · rfl
  · exact (arbiterClose_only b source).marks
  · rfl

theorem arbiterSettleRemote_marks {order : List UndoSource → List UndoSource}
    {run limit : ℕ} (typed : Bool) :
    (b.arbiterSettleRemote order source run limit typed).marks = b.marks := by
  simp only [arbiterSettleRemote]
  split
  · rfl
  split_ifs
  · exact (arbiterRecord_only _ _ _ _ _).marks.trans (arbiterTypedBegin_marks _)
  · exact (arbiterRecord_only _ _ _ _ _).marks.trans (arbiterClose_only _ source).marks

/-! ## The range of an edit -/

/-- What lies between the common prefix of two texts and their common suffix. -/
def differing (old new : Bytes) : EditDescription :=
  let pre := commonPrefix old new
  let suf := min (commonPrefix old.reverse new.reverse) (min (old.length - pre) (new.length - pre))
  ⟨⟨pre, old.length - suf⟩, new.length - pre - suf⟩

theorem prefixLoop_eq (old new : Bytes) {chunk maxPrefix : ℕ} (hchunk : 0 < maxPrefix → 0 < chunk)
    (hold : maxPrefix ≤ old.length) (hnew : maxPrefix ≤ new.length) :
    ∀ fuel n : ℕ, n ≤ maxPrefix → maxPrefix - n ≤ fuel → old.take n = new.take n →
      prefixLoop old new chunk maxPrefix fuel n = min (commonPrefix old new) maxPrefix
  | 0, n, hle, hfuel, htake => by
    have hpre := le_commonPrefix (le_trans hle hold) htake; rw [prefixLoop]; omega
  | fuel + 1, n, hle, hfuel, htake => by
    have hpre := le_commonPrefix (le_trans hle hold) htake
    have hrest := commonPrefix_drop (le_trans hle hold) htake; rw [prefixLoop]
    split_ifs with hlt
    · have hpos := hchunk (by omega); dsimp only
      have hcut (l : Bytes) : slice l n (n + min chunk (maxPrefix - n)) =
          (l.drop n).take (min chunk (maxPrefix - n)) := by
        rw [slice, drop_take, Nat.add_sub_cancel_left]
      split
      · rename_i off hoff; have hshort := lt_of_mismatch hoff
        rw [length_slice (by omega), Nat.add_sub_cancel_left] at hshort
        have hcommon := commonPrefix_of_mismatch hoff; rw [hcut, hcut, commonPrefix_take] at hcommon
        omega
      rename_i hnone
      have hsame : slice old n (n + min chunk (maxPrefix - n)) =
          slice new n (n + min chunk (maxPrefix - n)) := by
        refine eq_of_mismatch ?_ hnone; rw [length_slice (by omega), length_slice (by omega)]
      refine prefixLoop_eq old new hchunk hold hnew fuel _ (by omega) (by omega) ?_
      rw [take_add, take_add, htake, ← hcut, ← hcut, hsame]
    · omega

/-- The loops in chunks find the longest common prefix and suffix. -/
theorem describe_eq (old new : WfRope) : describe old new = differing old.bytes new.bytes := by
  obtain ⟨hpreOld, hpreNew⟩ := commonPrefix_le old.bytes new.bytes
  simp only [describe, deriveReplacementEdit, differing]
  split_ifs with hempty
  · simp only [hempty.1, hempty.2, Nat.zero_sub, Nat.min_zero, EditDescription.mk.injEq,
      Range.mk.injEq, and_true]
    omega
  have hpre : prefixLoop old.bytes new.bytes (min 4096 (min old.bytes.length new.bytes.length))
      (min old.bytes.length new.bytes.length) (min old.bytes.length new.bytes.length) 0 =
        commonPrefix old.bytes new.bytes := by
    have hchunk : 0 < min old.bytes.length new.bytes.length →
        0 < min 4096 (min old.bytes.length new.bytes.length) := by omega
    rw [prefixLoop_eq old.bytes new.bytes hchunk (Nat.min_le_left _ _) (Nat.min_le_right _ _)
      _ 0 (Nat.zero_le _) (Nat.le_of_eq (Nat.sub_zero _)) rfl]
    omega
  have hsuf := @prefixLoop_eq old.bytes.reverse new.bytes.reverse
    (min 4096 (min old.bytes.length new.bytes.length))
    (min (old.bytes.length - commonPrefix old.bytes new.bytes)
      (new.bytes.length - commonPrefix old.bytes new.bytes))
    (by omega) (by rw [length_reverse]; omega) (by rw [length_reverse]; omega)
    _ 0 (Nat.zero_le _) (Nat.le_of_eq (Nat.sub_zero _)) rfl
  rw [hpre, suffixLoop_eq (by omega) (by omega), hsuf]

/-- The edit that a call which lands is described by, `new` being the text after: the range asked
    for, the way back of a rope-only entry, or what differs. An import has its own. -/
def describing (new : Bytes) : Call L → Option EditDescription
  | .undoFor _ _ =>
    if b.crdt.isSome then some (differing b.bytes new)
    else b.undo.getLast?.map fun entry => EditDescription.inverse entry.edit
  | .redoFor _ _ =>
    if b.crdt.isSome then some (differing b.bytes new)
    else b.redo.getLast?.map fun entry => EditDescription.inverse entry.edit
  | c => (b.reaching c).map fun op => ⟨op.range, new.length - (b.bytes.length - op.range.len)⟩

/-! ## Imports are cut between characters -/

theorem isCharBoundary_splice {i j : ℕ} (hi : i ≤ cs.length) (s : List Char) :
    isCharBoundary (encode (splice cs i j s)) (byteAt cs i) = true ∧
    isCharBoundary (encode (splice cs i j s))
      (byteAt cs i + (encode s).length) = true := by
  have hlen : (cs.take i).length = i := by rw [length_take, min_eq_left hi]
  have hinserted : (cs.take i ++ s).length = i + s.length := by rw [length_append, hlen]
  have hlength : i + s.length ≤ (splice cs i j s).length := by
    rw [splice, length_append, hinserted]; exact Nat.le_add_right _ _
  have hstart : byteAt (splice cs i j s) i = byteAt cs i := by
    rw [byteAt, splice, append_assoc, take_left' hlen, byteAt]
  have hend : byteAt (splice cs i j s) (i + s.length) =
      byteAt cs i + (encode s).length := by
    rw [byteAt, splice, take_left' hinserted, encode_append, length_append,
      byteAt]
  rw [← hend, ← hstart]
  exact ⟨isCharBoundary_byteAt (le_trans (Nat.le_add_right _ _) hlength),
    isCharBoundary_byteAt hlength⟩

theorem isCharBoundary_of_ropeByteEnd {start chars stop : ℕ}
    (h : ropeByteEndAfterChars (encode cs) start chars = some stop) :
    isCharBoundary (encode cs) start = true := by
  rw [ropeByteEndAfterChars] at h
  split_ifs at h with hzero
  dsimp only at h
  generalize hbuf : slice (encode cs) start (start +
    min (min (chars * 4) (2 ^ 64 - 1)) ((encode cs).length - start)) = buf at h
  have hwindow : buf <+: (encode cs).drop start := by
    rw [← hbuf, slice, drop_take]; exact take_prefix _ _
  cases hvalid : fromUtf8 (buf.take (validUpTo buf)) with
  | none => rw [hvalid, Option.getD_none, length_nil, if_pos (by omega)] at h; cases h
  | some s =>
    rw [hvalid, Option.getD_some] at h
    split_ifs at h with hshort
    cases s with
    | nil => exact absurd (by rw [length_nil]; omega) hshort
    | cons c s =>
      have hprefix : encode (c :: s) <+: (encode cs).drop start := by
        rw [← fromUtf8_eq_some.1 hvalid]; exact ( take_prefix _ _).trans hwindow
      obtain ⟨rest, hrest⟩ := hprefix
      obtain ⟨byte, bytes, hbytes, hcont⟩ := isCont_head c (encode s ++ rest)
      rw [encode_cons, append_assoc, hbytes] at hrest
      have hget : (encode cs)[start]? = some byte := by
        have hhead := congrArg (fun l => l[0]?) hrest
        simp only [getElem?_drop, add_zero] at hhead; exact hhead.symm
      simp [isCharBoundary, hget, hcont]

/-- Where an import's edit covers a boundary of a UTF-8 text, it starts and ends at boundaries of
    the new text. -/
theorem remoteEdit_boundaries {deltas : List (List TextDelta)} {inserted : Bytes}
    (h : remoteEdit (encode cs) d deltas = some (some (range, inserted)))
    (hboundary : isCharBoundary (encode cs) pos = true) (hfrom : range.start ≤ pos)
    (hto : pos ≤ range.stop) :
    isCharBoundary (splice (encode cs) range.start range.stop inserted) range.start = true ∧
    isCharBoundary (splice (encode cs) range.start range.stop inserted)
      (range.start + inserted.length) = true := by
  rw [remoteEdit_eq] at h
  split at h
  · rename_i edit _ hinsert; cases h
    simp only [remoteInsert, Option.bind_eq_bind, Option.bind_eq_some_iff] at hinsert
    obtain ⟨⟨_, s⟩, -, at_, -, hedit⟩ := hinsert; cases hedit
    obtain ⟨i, hi, hpos⟩ := isCharBoundary_iff.1 hboundary
    have hat : at_ = byteAt cs i := le_antisymm (hpos ▸ hfrom) (hpos ▸ hto)
    rw [hat, ← encode_splice]; exact isCharBoundary_splice hi s
  · rename_i edit _ hdelete; cases h
    simp only [remoteDelete, Option.bind_eq_bind, Option.bind_eq_some_iff] at hdelete
    obtain ⟨⟨_, n⟩, -, start, -, stop, hstop, hedit⟩ := hdelete; cases hedit
    obtain ⟨i, hi, rfl⟩ := isCharBoundary_iff.1 (isCharBoundary_of_ropeByteEnd hstop)
    rw [ropeByteEndAfterChars_eq hstop, ← encode_nil, ← encode_splice]
    exact isCharBoundary_splice hi []
  split_ifs at h
  have hdiff := Option.some.inj h
  have hspec := remoteDiff_spec (encode cs) (encode (L.text d))
  obtain ⟨-, hstart, -, hend⟩ := remoteDiff_boundaries hdiff; rw [hdiff] at hspec; rw [hspec.2.2]
  exact ⟨hstart, hend⟩

/-! ## One call -/

/-- An edit takes the marks between characters that it covers to places between characters. -/
def Lands (new : Bytes) (e : EditDescription) : Prop :=
  ∀ m ∈ b.marks, Utf8.isCharBoundary b.bytes m.2.pos = true → e.preRange.start ≤ m.2.pos →
    m.2.pos ≤ e.preRange.stop →
      Utf8.isCharBoundary new (landing e.preRange e.insertedLen m.2.gravity) = true

/-- The edit that describes a call, when the text becomes `new`, takes the marks that it covers to
    places between characters. -/
def Clean (c : Call L) (new : Bytes) : Prop := ∀ e ∈ b.describing new c, Lands b new e

/-- What is known of the edit that moves the marks: `describing` tells it, or it is an import's. -/
structure Tells (b : Buffer L) (c : Call L) (new : Bytes) (e : EditDescription) : Prop where
  edit : ∀ e' ∈ b.describing new c, e'.preRange = e.preRange ∧ (e'.insertedLen = e.insertedLen ∨
    e'.insertedLen = new.length - (b.bytes.length - e.preRange.len))
  imported : b.describing new c = none → ∀ cs, b.bytes = Utf8.encode cs → ∀ pos,
    Utf8.isCharBoundary b.bytes pos = true → e.preRange.start ≤ pos → pos ≤ e.preRange.stop →
      Utf8.isCharBoundary new e.preRange.start = true ∧
      Utf8.isCharBoundary new (e.preRange.start + e.insertedLen) = true

/-- `describing` tells the edit itself. -/
theorem Tells.of_eq {b : Buffer L} (h : b.describing new c = some e) : Tells b c new e := by
  constructor
  · intro e' he'; rw [Option.some.inj (he'.symm.trans h)]; exact ⟨rfl, .inl rfl⟩
  · intro hnone; rw [h] at hnone; cases hnone

/-- `describing` tells the range of a forward edit. -/
theorem Tells.of_reaching {b : Buffer L} {op : EditOp} {n : ℕ} (h : b.describing new c =
      some ⟨op.range, new.length - (b.bytes.length - op.range.len)⟩) : Tells b c new ⟨op.range, n⟩ := by
  constructor
  · intro e' he'; rw [Option.some.inj (he'.symm.trans h)]; exact ⟨rfl, .inr rfl⟩
  · intro hnone; rw [h] at hnone; cases hnone

/-- **One call** is refused, or moves every mark by the edit it is described by. -/
theorem perform_moved {b : Buffer L} (hmax : b.bytes.length ≤ usizeMax)
    (hout : b.perform c = some out) :
    Refused b out ∨ ∃ e, MovedBy b e out ∧ Tells b c out.buffer.bytes e := by
  cases c with
  | applyEditAs views order source op =>
    cases hout; rw [applyEditAs]
    split_ifs with hreadOnly hediting
    · exact .inl ((refused_fail b _).mapResult some)
    · exact .inl ((refused_fail b _).mapResult some)
    split
    · exact .inl ((refused_fail b _).mapResult some)
    rename_i current hcurrent
    rcases runRopeEditAndBroadcast_moved hmax views order current source with
      hrefused | ⟨n, hmoved⟩
    · exact .inl (hrefused.mapResult some)
    refine .inr ⟨_, hmoved.mapResult some, .of_reaching ?_⟩
    simp [describing, reaching, hreadOnly, hediting, hcurrent]
  | applyEditSkipInterceptsAs views order source op =>
    cases hout; rw [applyEditSkipInterceptsAs]
    split_ifs with hreadOnly
    · exact .inl ((refused_fail b _).mapResult some)
    rcases runRopeEditAndBroadcast_moved hmax views order op source with hrefused | ⟨n, hmoved⟩
    · exact .inl (hrefused.mapResult some)
    refine .inr ⟨_, hmoved.mapResult some, .of_reaching ?_⟩
    simp [describing, reaching, hreadOnly]
  | applyRemoteCrdtOp views op =>
    rcases applyRemoteCrdtOp_moved views hout with
      hrefused | ⟨d, deltas, range, inserted, hedit, hbytes, hmoved⟩
    · exact .inl hrefused
    refine .inr ⟨_, hmoved, ⟨by rintro _ ⟨⟩, ?_⟩⟩
    intro _ cs hcs pos hboundary hfrom hto; rw [hcs] at hedit hbytes hboundary; rw [hbytes]
    exact remoteEdit_boundaries hedit hboundary hfrom hto
  | undoFor views source =>
    cases hout; rw [undoFor]
    split_ifs with hreadOnly
    · exact .inl ((refused_fail b _).mapResult some)
    split
    · rename_i d hd
      rcases undoArbiter_moved hd views source with hrefused | hmoved
      · exact .inl (hrefused.mapResult some)
      refine .inr ⟨_, hmoved.mapResult some, .of_eq ?_⟩
      rw [describing, if_pos (by rw [hd]; rfl), describe_eq]; rfl
    rename_i hd
    rcases undoV01_moved b views with hrefused | ⟨entry, hentry, hmoved⟩
    · exact .inl (hrefused.mapResult some)
    refine .inr ⟨_, hmoved.mapResult some, .of_eq ?_⟩
    rw [describing, if_neg (by simp [hd]), hentry]; rfl
  | redoFor views source =>
    cases hout; rw [redoFor]
    split_ifs with hreadOnly
    · exact .inl ((refused_fail b _).mapResult some)
    split
    · rename_i d hd
      rcases compensate_moved (by rw [hd]; rfl) views source source .redo with hrefused | hmoved
      · exact .inl (hrefused.mapResult some)
      refine .inr ⟨_, hmoved.mapResult some, .of_eq ?_⟩
      rw [describing, if_pos (by rw [hd]; rfl), describe_eq]; rfl
    rename_i hd
    rcases redoV01_moved b views with hrefused | ⟨entry, hentry, hmoved⟩
    · exact .inl (hrefused.mapResult some)
    refine .inr ⟨_, hmoved.mapResult some, .of_eq ?_⟩
    rw [describing, if_neg (by simp [hd]), hentry]; rfl
  | arbiterSettleRemote order source run limit typed =>
    cases hout
    exact .inl (refused_quiet (arbiterSettleRemote_keeps b order source run limit typed).rope
      (arbiterSettleRemote_marks b typed))
  | arbiterTypedBegin source run limit =>
    cases hout
    exact .inl (refused_quiet (arbiterTypedBegin_keeps b source run limit).rope
      (arbiterTypedBegin_marks b))
  | arbiterClose source =>
    cases hout; have honly := arbiterClose_only b source
    exact .inl (refused_quiet honly.keeps.rope honly.marks)
  | arbiterDetach source =>
    cases hout; have honly := arbiterDetach_only b source
    exact .inl (refused_quiet honly.keeps.rope honly.marks)
  | noteTypedEdit merge =>
    cases hout; have honly := noteTypedEdit_only b merge; rw [honly]
    exact .inl (refused_quiet rfl rfl)
  | commandCollapse =>
    cases hout; have honly := commandCollapse_only b; rw [honly]
    exact .inl (refused_quiet rfl rfl)
  | markClean | setReadOnly | endEdit => cases hout; exact .inl (refused_quiet rfl rfl)
  | beginEdit =>
    cases hout; rw [beginEdit]
    split_ifs
    · exact .inl ⟨rfl, rfl, rfl⟩
    · exact .inl ⟨rfl, rfl, rfl⟩
    · exact .inl ⟨rfl, rfl, rfl⟩

/-! ## Where marks go -/

/-- Where the marks of a buffer went: each to where `move` takes it, inside the text, in the order
    of its gravity. -/
structure Carries (b b' : Buffer L) (move : Mark → Mark) : Prop where
  marks : b'.marks = b.marks.map fun m => (m.1, move m.2)
  gravity : ∀ m, (move m).gravity = m.gravity
  inText : ∀ m, m.pos ≤ b.bytes.length → (move m).pos ≤ b'.bytes.length
  order : ∀ m m', m.gravity = m'.gravity → m.pos ≤ m'.pos → m'.pos ≤ b.bytes.length →
    (move m).pos ≤ (move m').pos

/-- The marks between characters are still between characters. -/
def KeepsBoundaries (b' : Buffer L) (move : Mark → Mark) : Prop :=
  ∀ m ∈ b.marks, Utf8.isCharBoundary b.bytes m.2.pos = true →
    Utf8.isCharBoundary b'.bytes (move m.2).pos = true

def InText : Prop := ∀ m ∈ b.marks, m.2.pos ≤ b.bytes.length

theorem Carries.of_same {b : Buffer L} (hrope : b'.rope = b.rope) (hmarks : b'.marks = b.marks) :
    Carries b b' (fun m => m) where
  marks := by rw [hmarks]; simp
  gravity _ := rfl
  inText m hm := by rw [bytes, hrope]; exact hm
  order _ _ _ hpos _ := hpos

variable {move' : Mark → Mark} {b'' : Buffer L}

theorem Carries.trans {b : Buffer L} (h : Carries b b' move)
    (h' : Carries b' b'' move') : Carries b b'' (move' ∘ move) where
  marks := by rw [h'.marks, h.marks, map_map]; rfl
  gravity m := (h'.gravity _).trans (h.gravity m)
  inText m hm := h'.inText _ (h.inText m hm)
  order m m' hgravity hpos hm' :=
    h'.order _ _ ((h.gravity m).trans (hgravity.trans (h.gravity m').symm))
      (h.order m m' hgravity hpos hm') (h.inText m' hm')

theorem Carries.keepsInText {b : Buffer L} (h : Carries b b' move) (hb : InText b) : InText b' := by
  intro m hm
  rw [h.marks] at hm
  obtain ⟨m', hm', rfl⟩ := mem_map.1 hm
  exact h.inText m'.2 (hb m' hm')

theorem KeepsBoundaries.trans {b : Buffer L}
    (hmarks : b'.marks = b.marks.map fun m => (m.1, move m.2)) (h : KeepsBoundaries b b' move)
    (h' : KeepsBoundaries b' b'' move') : KeepsBoundaries b b'' (move' ∘ move) := by
  intro m hm hboundary
  refine h' (m.1, move m.2) ?_ (h m hm hboundary)
  rw [hmarks]
  exact mem_map_of_mem hm

theorem carries_moveMark {b : Buffer L} (hmax : b.bytes.length ≤ usizeMax)
    (hmarks : b'.marks = b.marks.map fun m => (m.1, moveMark e m.2))
    (h : e.Describes b.rope b'.rope) : Carries b b' (moveMark e) where
  marks := hmarks
  gravity _ := rfl
  inText _ hm := adjustMark_le h hm
  order _ _ hgravity hpos hm' :=
    adjustMark_mono h.start_le hgravity hpos (le_trans hm' hmax)

/-- The marks between characters stay so exactly where the edit lands them so. -/
theorem keepsBoundaries_moveMark {b : Buffer L} (hb : InText b)
    (h : e.Describes b.rope b'.rope) : KeepsBoundaries b b' (moveMark e) ↔ Lands b b'.bytes e := by
  constructor
  · intro hkeeps m hm hboundary
    exact (adjustMark_boundary h (hb m hm) hboundary).1 (hkeeps m hm hboundary)
  intro hlands m hm hboundary
  exact (adjustMark_boundary h (hb m hm) hboundary).2 (hlands m hm hboundary)

theorem EditDescription.Describes.insertedLen_eq {old new : WfRope} (h : e.Describes old new) :
    new.bytes.length - (old.bytes.length - e.preRange.len) = e.insertedLen := by
  have hslice : (slice new.bytes e.preRange.start (e.preRange.start + e.insertedLen)).length =
      e.insertedLen := by rw [length_slice h.inserted_le, Nat.add_sub_cancel_left]
  have hlength := congrArg length h.splice_eq
  rw [length_splice _ h.start_le h.stop_le, hslice] at hlength
  rw [← hlength, Range.len]
  omega

/-- In valid texts, `Clean` says that the edit that moved the marks lands them. -/
theorem Tells.clean_iff {b : Buffer L} (h : Tells b c b'.bytes e)
    (hdescribes : e.Describes b.rope b'.rope) (hcs : b.bytes = encode cs)
    (hmax : b'.bytes.length ≤ usizeMax) : Clean b c b'.bytes ↔ Lands b b'.bytes e := by
  have hlength : b'.bytes.length - (b.bytes.length - e.preRange.len) = e.insertedLen :=
    EditDescription.Describes.insertedLen_eq hdescribes
  rw [Clean]
  cases hd : b.describing b'.bytes c with
  | none =>
    refine iff_of_true nofun fun m _ hboundary hfrom hto => ?_
    obtain ⟨hstart, hend⟩ := h.imported hd cs hcs m.2.pos hboundary hfrom hto
    have hle := hdescribes.inserted_le
    cases m.2.gravity with
    | left => exact hstart
    | right => rw [landing, min_eq_left (le_trans hle hmax)]; exact hend
  | some e' =>
    obtain ⟨hrange, hinserted⟩ := h.edit e' hd
    have hsame : e' = e := by
      rw [hlength, or_self] at hinserted; cases e; cases e'
      simp only at hrange hinserted; rw [hrange, hinserted]
    simp [hsame]

theorem perform_carries {b : Buffer L} (hok : HistoryOk b) (hb : InText b)
    (hmax : b.bytes.length ≤ usizeMax)
    (hout : b.perform c = some out) (hmax' : out.buffer.bytes.length ≤ usizeMax) :
    ∃ move, Carries b out.buffer move ∧ (out.heard = [] → KeepsBoundaries b out.buffer move) ∧
      (out.heard ≠ [] → (fromUtf8 b.bytes).isSome →
        (KeepsBoundaries b out.buffer move ↔ Clean b c out.buffer.bytes)) := by
  rcases perform_moved hmax hout with hrefused | ⟨e, hmoved, htells⟩
  · refine ⟨_, .of_same hrefused.rope hrefused.marks, ?_, ?_⟩
    · intro _ m _ hboundary; rw [bytes, hrefused.rope]; exact hboundary
    · exact fun hne => absurd hrefused.heard hne
  obtain ⟨ed, hheard, rfl⟩ := hmoved.heard
  have hexact := (perform_exact hok hout).1 ed
    (mem_append_left _ (hheard ▸ mem_singleton_self ed))
  have hdescribes : EditDescription.Describes ⟨ed.range, ed.insertedLen⟩ b.rope
      out.buffer.rope := by rw [← hexact.newRope]; exact hexact.describes
  refine ⟨_, carries_moveMark hmax hmoved.marks hdescribes, fun hnil => ?_, fun _ hvalid => ?_⟩
  · rw [hheard] at hnil; cases hnil
  obtain ⟨cs, hcs⟩ := Option.isSome_iff_exists.1 hvalid
  rw [keepsBoundaries_moveMark hb hdescribes,
    htells.clean_iff hdescribes (fromUtf8_eq_some.1 hcs) hmax']

/-! ## Runs -/

theorem Constructed.marks_eq {b : Buffer L} (h : Constructed b) : b.marks = [] := by
  cases h with
  | fromRope => rfl
  | withCrdt h =>
    rw [fromBytesWithCrdt] at h
    split at h
    · cases h; rfl
    · cases h

theorem createMark_inText {b : Buffer L} {id : ℕ} {gravity : MarkGravity} (hb : InText b)
    (h : b.createMark id pos gravity = .ok b') : InText b' ∧ b' = { b with marks := b'.marks } := by
  rw [createMark] at h
  split_ifs at h with hpos
  rw [len, WfRope.len_eq] at hpos
  cases h
  refine ⟨?_, rfl⟩
  intro m hm
  rcases mem_append.1 hm with hm | hm
  · exact hb m hm
  · rw [mem_singleton.1 hm]; exact not_lt.1 hpos

theorem setMark_inText {b : Buffer L} {id : ℕ} {found : Bool} (hb : InText b)
    (h : b.setMark id pos = .ok (found, b')) : InText b' ∧ b' = { b with marks := b'.marks } := by
  rw [setMark] at h
  split_ifs at h with hpos
  rw [len, WfRope.len_eq] at hpos
  split at h
  · cases h; exact ⟨hb, rfl⟩
  cases h
  refine ⟨?_, rfl⟩; intro m hm; obtain ⟨k, hk⟩ := mem_iff_getElem?.1 hm
  rw [getElem?_modify] at hk; obtain ⟨m', hm', hmodified⟩ := Option.map_eq_some_iff.1 hk
  split_ifs at hmodified
  · rw [← hmodified]; exact not_lt.1 hpos
  · rw [← hmodified]; exact hb m' (mem_of_getElem? hm')

theorem removeMark_inText {b : Buffer L} (hb : InText b) (id : ℕ) :
    InText (b.removeMark id).2 ∧ (b.removeMark id).2 = { b with marks := (b.removeMark id).2.marks } := by
  rw [removeMark]
  split
  · exact ⟨hb, rfl⟩
  · exact ⟨fun m hm => hb m (mem_of_mem_eraseIdx hm), rfl⟩

/-- What holds of every buffer that calls and the marks' own calls lead to. -/
structure MarkedOk (b : Buffer L) : Prop where
  history : HistoryOk b
  inText : InText b
  fits : b.bytes.length ≤ usizeMax

theorem MarkedOk.setMarks {b : Buffer L} (h : MarkedOk b)
    (h' : InText b' ∧ b' = { b with marks := b'.marks }) : MarkedOk b' := by
  obtain ⟨hinText, hsame⟩ := h'
  refine ⟨?_, hinText, ?_⟩
  · rw [hsame]; exact ⟨h.history.undo, h.history.redo, h.history.crdt⟩
  · rw [hsame]; exact h.fits

theorem Marked.ok {b : Buffer L} (h : Marked b) : MarkedOk b := by
  induction h with
  | start hconstructed hfits =>
    refine ⟨hconstructed.historyOk, ?_, hfits⟩; intro m hm; rw [hconstructed.marks_eq] at hm
    cases hm
  | call _ hout hfits ih =>
    obtain ⟨move, hcarries, -, -⟩ := perform_carries ih.history ih.inText ih.fits hout hfits
    exact ⟨(perform_exact ih.history hout).2, hcarries.keepsInText ih.inText, hfits⟩
  | createMark _ h ih => exact ih.setMarks (createMark_inText ih.inText h)
  | setMark _ h ih => exact ih.setMarks (setMark_inText ih.inText h)
  | removeMark id _ ih => exact ih.setMarks (removeMark_inText ih.inText id)

/-- A call of a valid text that leaves a valid one, and is refused or clean. -/
structure CleanCall (b : Buffer L) (c : Call L) : Prop where
  before : (Utf8.fromUtf8 b.bytes).isSome
  fits : ∀ out, b.perform c = some out → out.buffer.bytes.length ≤ usizeMax
  after : ∀ out, b.perform c = some out → (Utf8.fromUtf8 out.buffer.bytes).isSome
  clean : ∀ out, b.perform c = some out → out.heard ≠ [] → Clean b c out.buffer.bytes

theorem run_carries {b : Buffer L} (hb : MarkedOk b) (h : Run CleanCall b b') :
    ∃ move, Carries b b' move ∧ KeepsBoundaries b b' move := by
  have hrun : MarkedOk b' ∧ ∃ move, Carries b b' move ∧ KeepsBoundaries b b' move := by
    refine h.inv (P := fun b' => MarkedOk b' ∧ ∃ move, Carries b b' move ∧ KeepsBoundaries b b' move)
      ⟨hb, _, .of_same rfl rfl, fun _ _ hboundary => hboundary⟩ ?_
    rintro b' c out ⟨hok, move, hcarries, hkeeps⟩ hcall hout; have hfits := hcall.fits out hout
    obtain ⟨move', hcarries', hrefused, hclean⟩ :=
      perform_carries hok.history hok.inText hok.fits hout hfits
    refine ⟨⟨(perform_exact hok.history hout).2, hcarries'.keepsInText hok.inText, hfits⟩,
      move' ∘ move, hcarries.trans hcarries', hkeeps.trans hcarries.marks ?_⟩
    by_cases hheard : out.heard = []
    · exact hrefused hheard
    · exact (hclean hheard hcall.before).2 (hcall.clean out hout hheard)
  exact hrun.2

/-- **Marks.** In every buffer that calls lead to, every mark is in the text. A call carries every
    mark to a place in the text, in the order of its gravity; a replacement as its deletion and
    then its insertion do. The marks between characters stay so when no edit lands, and when one
    does, in a valid text, exactly where it takes those it covers to places between characters;
    and over every run of such calls. -/
theorem marks_hold {b : Buffer L} (h : Marked b) : InText b ∧
    (∀ c out, b.perform c = some out → out.buffer.bytes.length ≤ usizeMax →
      ∃ move, Carries b out.buffer move ∧ (out.heard = [] → KeepsBoundaries b out.buffer move) ∧
        (out.heard ≠ [] → (Utf8.fromUtf8 b.bytes).isSome →
          (KeepsBoundaries b out.buffer move ↔ Clean b c out.buffer.bytes))) ∧
    (∀ range insertedLen m, range.start ≤ range.stop → range.start ≤ usizeMax →
      adjustMark range insertedLen m =
        adjustMark ⟨range.start, range.start⟩ insertedLen (adjustMark range 0 m)) ∧
    ∀ b', Run CleanCall b b' → ∃ move, Carries b b' move ∧ KeepsBoundaries b b' move := by
  have hok := h.ok
  refine ⟨hok.inText, ?_, ?_, fun b' hrun => run_carries hok hrun⟩
  · intro c out hout hfits; exact perform_carries hok.history hok.inText hok.fits hout hfits
  · intro range insertedLen m hle hmax; exact adjustMark_replace hle hmax

/-- A buffer of the text "é" over a plain document. -/
def plainE : Buffer .plain :=
  { fromBytes .plain 0 "" [0xC3, 0xA9] with crdt := some ⟨1, [(1, ['é'])], 1⟩ }

theorem fromBytesWithCrdt_plainE : fromBytesWithCrdt .plain 0 "" [0xC3, 0xA9] 1 = .ok plainE := by
  have htext : lossy [0xC3, 0xA9] = ['é'] := by decide +kernel
  have hcut : cutAt ((encode ['é']).length - pieceBytes) ['é'] = ([], ['é']) := by
    decide +kernel
  rw [fromBytesWithCrdt, Crdt.fromBytes, htext]
  simp only [Crdt.insertInPieces, length_cons, length_nil, Crdt.insertPieces, hcut]
  rfl

/-- A frontend put "è" for it, and a mark of left gravity stands at the end. -/
def markedE : Buffer .plain :=
  { (plainE.applyEditAs [] (fun sources => sources) (.frontend 1)
      (.replace ⟨0, 2⟩ [0xC3, 0xA8])).buffer with marks := [(0, ⟨2, .left⟩)] }

theorem markedE_marked : Marked markedE := by
  have hstart : Marked plainE := .start (.withCrdt fromBytesWithCrdt_plainE) (by decide +kernel)
  have hedited := hstart.call
    (c := .applyEditAs [] (fun sources => sources) (.frontend 1) (.replace ⟨0, 2⟩ [0xC3, 0xA8]))
    rfl (by decide +kernel)
  refine hedited.createMark (?_ : Buffer.createMark _ 0 2 .left = .ok markedE)
  rfl

theorem marks_hold_accent : InText markedE ∧
    (∀ c out, markedE.perform c = some out → out.buffer.bytes.length ≤ usizeMax →
      ∃ move, Carries markedE out.buffer move ∧
        (out.heard = [] → KeepsBoundaries markedE out.buffer move) ∧
        (out.heard ≠ [] → (Utf8.fromUtf8 markedE.bytes).isSome →
          (KeepsBoundaries markedE out.buffer move ↔ Clean markedE c out.buffer.bytes))) ∧
    (∀ range insertedLen m, range.start ≤ range.stop → range.start ≤ usizeMax →
      adjustMark range insertedLen m =
        adjustMark ⟨range.start, range.start⟩ insertedLen (adjustMark range 0 m)) ∧
    ∀ b', Run CleanCall markedE b' →
      ∃ move, Carries markedE b' move ∧ KeepsBoundaries markedE b' move :=
  marks_hold markedE_marked

/-- The undo puts "é" back by its second byte, which takes the mark into the character. -/
theorem not_marks_hold : ¬ ∀ b : Buffer .plain, Marked b → ∀ c out, b.perform c = some out →
      (Utf8.fromUtf8 b.bytes).isSome → (Utf8.fromUtf8 out.buffer.bytes).isSome →
        ∀ (i : ℕ) (m m' : ℕ × Mark), b.marks[i]? = some m → out.buffer.marks[i]? = some m' →
          Utf8.isCharBoundary b.bytes m.2.pos = true →
            Utf8.isCharBoundary out.buffer.bytes m'.2.pos = true := by
  intro hclaim
  have hinside := hclaim markedE markedE_marked (.undoFor [] (.frontend 1)) _ rfl
    (by decide +kernel) (by decide +kernel) 0 (0, ⟨2, .left⟩) (0, ⟨1, .left⟩) rfl
    (by decide +kernel) (by decide +kernel)
  revert hinside
  decide +kernel

end Buffer

end Pmacs
