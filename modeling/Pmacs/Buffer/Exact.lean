/-
  Every edit a buffer returns or broadcasts is exact.

  * `Exact old ed new`: `ed` says what turns the rope `old` into its new rope,
    which is `new`;
  * `Chain es r`: each entry of a history says what turns its rope into the next
    entry's, the newest one's into `r`;
  * `perform_exact`: a call on a buffer whose histories are chains gives exact
    edits and leaves chains, from which `run_exact` follows by induction.
-/
import Pmacs.Buffer.Run
import Pmacs.Crdt.Plain

namespace Pmacs

open Lib List

variable {es : List UndoEntry} {r : WfRope}

/-- The description of an edit that turned `old` into `new`. -/
def EditDescription.Describes (e : EditDescription) (old new : WfRope) : Prop :=
  Lib.Describes old.bytes e.preRange.start e.preRange.stop e.insertedLen new.bytes

/-- An edit of `old` that is exact and left `new`: the bytes of `old` in its range
    replaced by those its new rope has there are its new rope. -/
structure Exact (old : WfRope) (ed : Edit WfRope) (new : WfRope) : Prop where
  describes : Lib.Describes old.bytes ed.range.start ed.range.stop ed.insertedLen ed.newRope.bytes
  newRope : ed.newRope = new

variable {ed : Edit WfRope}

theorem WfRope.Spliced.describes {s e : ℕ} {ins : Bytes}
    (h : r.Spliced s e ins ed) (hse : s ≤ e) (he : e ≤ r.bytes.length) :
    Lib.Describes r.bytes ed.range.start ed.range.stop ed.insertedLen ed.newRope.bytes := by
  rw [h.bytes, h.range, h.insertedLen]
  exact .of_splice ins hse he

/-! ## The rope's edits -/

namespace Buffer

variable {L : Loro} {op : EditOp}

theorem editRope_describes (h : editRope r op = .ok ed) :
    Lib.Describes r.bytes ed.range.start ed.range.stop ed.insertedLen ed.newRope.bytes := by
  obtain ⟨hwithin, hsp⟩ := editRope_ok h
  exact hsp.describes hwithin.1 hwithin.2

theorem editRope_same (h : editRope r op = .ok ed) :
    ed.range.isEmpty = true → ed.insertedLen = 0 → ed.newRope = r := by
  intro hrange hlen
  obtain ⟨-, hsp⟩ := editRope_ok h
  have hstop : op.range.start = op.range.stop := by simpa [hsp.range, Range.isEmpty] using hrange
  have hnil : op.inserted = [] := eq_nil_of_length_eq_zero (hsp.insertedLen.symm.trans hlen)
  cases op with
  | insert pos bytes => rw [editRope, show bytes = [] from hnil] at h; exact WfRope.insert_nil h
  | delete range =>
    rw [editRope, ← show range.start = range.stop from hstop] at h; exact WfRope.delete_self h
  | replace range bytes =>
    rw [editRope, ← show range.start = range.stop from hstop, show bytes = [] from hnil] at h
    exact WfRope.replace_self_nil h

/-! ## Derived descriptions -/

theorem prefixLoop_spec (old new : Bytes) (chunk : ℕ) {maxPrefix : ℕ}
    (hold : maxPrefix ≤ old.length) (hnew : maxPrefix ≤ new.length) :
    ∀ (fuel n : ℕ), n ≤ maxPrefix → old.take n = new.take n →
      prefixLoop old new chunk maxPrefix fuel n ≤ maxPrefix ∧
        old.take (prefixLoop old new chunk maxPrefix fuel n) =
          new.take (prefixLoop old new chunk maxPrefix fuel n)
  | 0, n, hle, htake => ⟨hle, htake⟩
  | fuel + 1, n, hle, htake => by
    have hcut (l : Bytes) (k : ℕ) : l.take (n + k) = l.take n ++ (slice l n (n + k)) := by
      rw [slice, drop_take, Nat.add_sub_cancel_left, take_add]
    have hsize : n + min chunk (maxPrefix - n) ≤ maxPrefix := by omega
    rw [prefixLoop]
    split_ifs with hlt
    · dsimp only
      split
      · rename_i off hoff; obtain ⟨hle', hoff'⟩ := take_mismatch hoff
        rw [length_slice (by omega), Nat.add_sub_cancel_left] at hle'
        refine ⟨by omega, ?_⟩
        have hsub (l : Bytes) : (slice l n (n + min chunk (maxPrefix - n))).take off =
            slice l n (n + off) := by
          rw [slice, slice, drop_take, drop_take, take_take]
          congr 1
          omega
        rw [hsub, hsub] at hoff'; rw [hcut, hcut, htake, hoff']
      rename_i hnone
      have hlen : (slice old n (n + min chunk (maxPrefix - n))).length =
          (slice new n (n + min chunk (maxPrefix - n))).length := by
        rw [length_slice (by omega), length_slice (by omega)]
      refine prefixLoop_spec old new chunk hold hnew fuel _ hsize ?_
      rw [hcut, hcut, htake, eq_of_mismatch hlen hnone]
    · exact ⟨hle, htake⟩

theorem suffixLoop_eq {old new : Bytes} {chunk : ℕ} {maxSuffix : ℕ}
    (hold : maxSuffix ≤ old.length) (hnew : maxSuffix ≤ new.length) :
    ∀ fuel n : ℕ, suffixLoop old new chunk maxSuffix fuel n =
      prefixLoop old.reverse new.reverse chunk maxSuffix fuel n
  | 0, _ => rfl
  | fuel + 1, n => by
    rw [suffixLoop, prefixLoop]
    split_ifs with hlt
    · dsimp only; rw [reverse_slice (by omega), reverse_slice (by omega)]
      split
      · rfl
      · exact suffixLoop_eq hold hnew fuel _
    · rfl

/-- **A derived description** turns the old text into the new one. -/
theorem describe_describes (old new : WfRope) : (describe old new).Describes old new := by
  simp only [EditDescription.Describes, describe, deriveReplacementEdit]
  split_ifs with hempty
  · have hold : old.bytes = [] := eq_nil_of_length_eq_zero hempty.1
    have hnew : new.bytes = [] := eq_nil_of_length_eq_zero hempty.2; rw [hold, hnew]
    exact ⟨le_rfl, le_rfl, le_rfl, rfl⟩
  set maxPrefix := min old.bytes.length new.bytes.length with hmaxPrefix
  set chunk := min 4096 maxPrefix
  obtain ⟨hple, hp⟩ := prefixLoop_spec old.bytes new.bytes chunk (min_le_left _ _)
    (min_le_right _ _) maxPrefix 0 (Nat.zero_le _) rfl
  set pre := prefixLoop old.bytes new.bytes chunk maxPrefix maxPrefix 0
  set maxSuffix := min (old.bytes.length - pre) (new.bytes.length - pre) with hmaxSuffix
  have hreverse : maxSuffix ≤ old.bytes.reverse.length ∧ maxSuffix ≤ new.bytes.reverse.length := by
    rw [length_reverse, length_reverse]; omega
  rw [suffixLoop_eq (by omega) (by omega)]
  obtain ⟨hsle, hs⟩ := prefixLoop_spec old.bytes.reverse new.bytes.reverse chunk hreverse.1
    hreverse.2 maxSuffix 0 (Nat.zero_le _) rfl
  set suf := prefixLoop old.bytes.reverse new.bytes.reverse chunk maxSuffix maxSuffix 0
  have hold : pre + suf ≤ old.bytes.length := by omega
  have hnew : pre + suf ≤ new.bytes.length := by omega
  rw [take_reverse, take_reverse] at hs; exact .of_agree hp (reverse_injective hs) hold hnew

/-! ## Chains -/

/-- The rope after the entry before `es`: the next entry's, or `r`. -/
def nextRope (es : List UndoEntry) (r : WfRope) : WfRope := (es.head?.map UndoEntry.rope).getD r

/-- Each entry describes how its rope became the next entry's, the last one how its
    rope became `r`. -/
def Chain : List UndoEntry → WfRope → Prop
  | [], _ => True
  | e :: es, r => e.edit.Describes e.rope (nextRope es r) ∧ Chain es r

variable {e : UndoEntry}

theorem nextRope_append {es : List UndoEntry} {es' : List UndoEntry} {r : WfRope} :
    nextRope (es ++ e :: es') r = nextRope es e.rope := by
  cases es <;> rfl

theorem chain_append_cons {es : List UndoEntry} {es' : List UndoEntry}
    {r : WfRope} : Chain (es ++ e :: es') r ↔ Chain es e.rope ∧ Chain (e :: es') r := by
  induction es with
  | nil => simp [Chain]
  | cons a es ih => rw [cons_append, Chain, Chain, nextRope_append, ih, and_assoc]

theorem chain_append_singleton (es : List UndoEntry) (e : UndoEntry) (r : WfRope) :
    Chain (es ++ [e]) r ↔ Chain es e.rope ∧ e.edit.Describes e.rope r := by
  rw [chain_append_cons]
  simp [Chain, nextRope]

theorem Chain.drop (h : Chain es r) (n : ℕ) : Chain (es.drop n) r := by
  induction es generalizing n with
  | nil => simp [Chain]
  | cons e es ih =>
    cases n with
    | zero => exact h
    | succ n => exact ih h.2 n

theorem Chain.getLast (h : Chain es r)
    (he : es.getLast? = some e) : Chain es.dropLast e.rope ∧ e.edit.Describes e.rope r := by
  rwa [← dropLast_append_getLast? e he, chain_append_singleton] at h

theorem Chain.take {n : ℕ} (h : Chain es r) (he : es[n]? = some e) : Chain (es.take n) e.rope := by
  obtain ⟨hn, rfl⟩ := List.getElem?_eq_some_iff.1 he
  rw [← List.take_append_drop n es, List.drop_eq_getElem_cons hn, chain_append_cons] at h
  exact h.1

/-- The histories of a buffer are chains; a CRDT-backed buffer has none. -/
structure HistoryOk (b : Buffer L) : Prop where
  undo : Chain b.undo b.rope
  redo : Chain b.redo b.rope
  crdt : b.crdt.isSome → b.undo = [] ∧ b.redo = []

variable {b : Buffer L} {b' : Buffer L}

theorem Keeps.historyOk (hk : Keeps b b') (h : HistoryOk b) : HistoryOk b' := by
  obtain ⟨hrope, hundo, hredo, _, hsome⟩ := hk
  constructor
  · rw [hrope, hundo]; exact h.undo
  · rw [hrope, hredo]; exact h.redo
  · rw [hsome, hundo, hredo]; exact h.crdt

theorem HistoryOk.of_nil (hundo : b.undo = []) (hredo : b.redo = []) : HistoryOk b := by
  constructor
  · rw [hundo]; trivial
  · rw [hredo]; trivial
  · intro _; exact ⟨hundo, hredo⟩

/-! ## One call -/

/-- The edits of an outcome are exact, and its histories are chains. -/
def ExactOutcome (b : Buffer L) (o : Outcome L (Option (Edit WfRope))) : Prop :=
  (∀ ed ∈ o.edits, Exact b.rope ed o.buffer.rope) ∧ HistoryOk o.buffer

theorem exactOutcome_quiet (h : HistoryOk b') : ExactOutcome b b'.quiet := by
  refine ⟨?_, h⟩
  intro ed hed
  cases hed

theorem exactOutcome_error {o : Outcome L (Edit WfRope)} {e : BufferError}
    (hheard : o.heard = []) (hresult : o.result = .error e) (h : HistoryOk o.buffer) :
    ExactOutcome b (o.mapResult some) := by
  refine ⟨?_, h⟩
  intro ed hed
  simp [Outcome.edits, Outcome.mapResult, hheard, hresult, Except.map] at hed

variable {views : List (View (Buffer L))}

theorem exactOutcome_broadcast {popped : List (UndoSource × SourceGroup L)}
    (hed : Exact b.rope ed b'.rope) (h : HistoryOk b') :
    ExactOutcome b ((b'.broadcastOnEdit views ed popped).mapResult some) := by
  refine ⟨?_, h⟩
  intro ed' hed'
  simp only [Outcome.edits, Outcome.mapResult, broadcastOnEdit] at hed'
  cases hhear : b'.hear ed views with
  | ok u =>
    rw [hhear] at hed'
    simp only [Except.map, cons_append, nil_append, mem_cons, not_mem_nil,
      or_false, or_self] at hed'
    rw [hed']; exact hed
  | error e =>
    rw [hhear] at hed'; simp only [Except.map, append_nil, mem_cons, not_mem_nil, or_false] at hed'
    rw [hed']; exact hed

/-! ### Forward edits and imports -/

variable {source : UndoSource} {out : Outcome L (Option (Edit WfRope))}

section
variable (h : HistoryOk b)
include h

variable {order : List UndoSource → List UndoSource}

theorem landEdit_exact {routed : Routed L}
    (hed : Lib.Describes b.rope.bytes ed.range.start ed.range.stop ed.insertedLen ed.newRope.bytes)
    (hsame : ed.range.isEmpty = true → ed.insertedLen = 0 → ed.newRope = b.rope) :
    ExactOutcome b ((b.landEdit views order source routed ed).mapResult some) := by
  simp only [landEdit]
  split_ifs with hnoop hcrdt
  · rw [Bool.and_eq_true, beq_iff_eq] at hnoop
    exact exactOutcome_broadcast ⟨hed, hsame hnoop.1 hnoop.2⟩ h
  · have hkeeps := (arbiterRecord_only ({ b with rope := ed.newRope }.adjustMarksForEdit ed.range
      ed.insertedLen) order source (routed.spans.map .span) routed.change).keeps
    refine exactOutcome_broadcast ⟨hed, hkeeps.rope.symm⟩ (HistoryOk.of_nil ?_ ?_)
    · exact hkeeps.undo.trans (h.crdt hcrdt).1
    · exact hkeeps.redo.trans (h.crdt hcrdt).2
  have hkept : Chain (if undoHistoryLimit ≤ b.undo.length then b.undo.drop 1 else b.undo) b.rope := by
    split_ifs
    · exact h.undo.drop 1
    · exact h.undo
  refine exactOutcome_broadcast ⟨hed, rfl⟩ ⟨?_, trivial, ?_⟩
  · exact (chain_append_singleton _ _ _).2 ⟨hkept, hed⟩
  · intro hsome; exact absurd hsome hcrdt

theorem runRopeEdit_exact {routed : Routed L} :
    ExactOutcome b ((b.runRopeEdit views order op source routed).mapResult some) := by
  rw [runRopeEdit]
  split
  · exact exactOutcome_error rfl rfl h
  rename_i ed hed; have hdescribes := editRope_describes hed; have hsame := editRope_same hed
  exact landEdit_exact h hdescribes hsame

theorem HistoryOk.setCrdt (hsome : b.crdt.isSome) (d : L.Doc) :
    HistoryOk { b with crdt := some d } :=
  ⟨h.undo, h.redo, fun _ => h.crdt hsome⟩

theorem runRopeEditAndBroadcast_exact :
    ExactOutcome b ((b.runRopeEditAndBroadcast views order op source).mapResult some) := by
  rw [runRopeEditAndBroadcast]
  split
  · rename_i d hd _; have hsome : b.crdt.isSome := by rw [hd]; rfl
    split
    · exact exactOutcome_error rfl rfl (h.setCrdt hsome _)
    · exact runRopeEdit_exact (h.setCrdt hsome _)
  · exact runRopeEdit_exact h

theorem runRemoteRopeStages_exact (hsome : b.crdt.isSome)
    (views : List (View (Buffer L))) (start stop : ℕ) (inserted : Bytes) :
    ExactOutcome b ((b.runRemoteRopeStages views start stop inserted).mapResult some) := by
  rw [runRemoteRopeStages]
  split
  · exact exactOutcome_error rfl rfl h
  rename_i ed hed; have hop : editRope b.rope (.replace ⟨start, stop⟩ inserted) = .ok ed := hed
  refine exactOutcome_broadcast ⟨?_, rfl⟩ (.of_nil (h.crdt hsome).1 (h.crdt hsome).2)
  exact editRope_describes hop

theorem applyRemoteCrdtOp_exact {op : Bytes}
    (hout : b.applyRemoteCrdtOp views op = some out) : ExactOutcome b out := by
  have hfail (b' : Buffer L) (hb' : HistoryOk b') (e : BufferError) :
      ExactOutcome b (b'.fail e) := by refine ⟨?_, hb'⟩; nofun
  rw [applyRemoteCrdtOp] at hout
  split_ifs at hout
  · cases hout; exact hfail b h _
  · cases hout; exact hfail b h _
  split at hout
  · cases hout; exact hfail b h _
  rename_i d hd; have hsome : b.crdt.isSome := by rw [hd]; rfl
  split at hout
  · cases hout; exact hfail _ (h.setCrdt hsome _) _
  rename_i deltas change d' _; simp only at hout
  split at hout
  · cases hout
  · cases hout; exact exactOutcome_quiet (h.setCrdt hsome d')
  cases hout
  obtain ⟨hexact, hok⟩ := runRemoteRopeStages_exact (h.setCrdt hsome d') rfl views _ _ _
  exact ⟨hexact, hok.undo, hok.redo, hok.crdt⟩

/-! ### The typed steps of the rope-only history -/

theorem collapseTypedCommand_historyOk (hcrdt : ¬ b.crdt.isSome) :
    HistoryOk b.collapseTypedCommand ∧ ¬ b.collapseTypedCommand.crdt.isSome := by
  rw [collapseTypedCommand]
  split
  · exact ⟨h, hcrdt⟩
  rename_i floor _
  have htaken : HistoryOk { b with typedFloor := none } := ⟨h.undo, h.redo, h.crdt⟩; dsimp only
  split_ifs
  · exact ⟨htaken, hcrdt⟩
  split
  · exact ⟨htaken, hcrdt⟩
  rename_i oldest holdest
  have hbelow : Chain (b.undo.take floor) oldest.rope := h.undo.take holdest
  refine ⟨⟨?_, h.redo, fun hsome => absurd hsome hcrdt⟩, hcrdt⟩
  exact (chain_append_singleton _ _ _).2 ⟨hbelow, describe_describes oldest.rope b.rope⟩

theorem noteTypedEdit_historyOk (merge : Bool) : HistoryOk (b.noteTypedEdit merge).2 := by
  rw [noteTypedEdit]
  by_cases hcrdt : b.crdt.isSome
  · rw [if_pos hcrdt]; exact h
  obtain ⟨hc, hcrdt'⟩ := collapseTypedCommand_historyOk h hcrdt; rw [if_neg hcrdt]
  generalize b.collapseTypedCommand = b' at hc hcrdt' ⊢; dsimp only
  split
  · exact hc
  rename_i top htop; obtain ⟨hbelow, htop'⟩ := hc.undo.getLast htop
  have hmarked : HistoryOk { b' with undo := b'.undo.dropLast ++ [{ top with typed := true }] } :=
    ⟨(chain_append_singleton _ _ _).2 ⟨hbelow, htop'⟩, hc.redo, fun hsome => absurd hsome hcrdt'⟩
  split_ifs
  · exact hmarked
  split
  · exact hmarked
  rename_i prev hprev
  split_ifs
  · exact hmarked
  refine ⟨?_, hc.redo, fun hsome => absurd hsome hcrdt'⟩
  exact (chain_append_singleton _ _ _).2
    ⟨(hbelow.getLast hprev).1, describe_describes prev.rope b'.rope⟩

end

/-! ### Undo and redo -/

theorem swapEdit_exact {entry : UndoEntry}
    (h : entry.edit.Describes entry.rope b.rope) : Exact b.rope (swapEdit entry) entry.rope ∧
      (b.swapEntry entry).edit.Describes (b.swapEntry entry).rope entry.rope :=
  ⟨⟨h.symm, rfl⟩, h.symm⟩

section
variable (h : HistoryOk b)
include h

theorem undoV01_exact (hcrdt : ¬ b.crdt.isSome) : ExactOutcome b ((b.undoV01 views).mapResult some) := by
  rw [undoV01]
  split
  · exact exactOutcome_error rfl rfl h
  rename_i entry hentry; obtain ⟨hbelow, hdesc⟩ := h.undo.getLast hentry
  obtain ⟨hexact, hback⟩ := swapEdit_exact hdesc
  refine exactOutcome_broadcast hexact ⟨hbelow, ?_, fun hsome => absurd hsome hcrdt⟩
  exact (chain_append_singleton _ _ _).2 ⟨h.redo, hback⟩

theorem redoV01_exact (hcrdt : ¬ b.crdt.isSome) : ExactOutcome b ((b.redoV01 views).mapResult some) := by
  rw [redoV01]
  split
  · exact exactOutcome_error rfl rfl h
  rename_i entry hentry; obtain ⟨hbelow, hdesc⟩ := h.redo.getLast hentry
  obtain ⟨hexact, hback⟩ := swapEdit_exact hdesc
  refine exactOutcome_broadcast hexact ⟨?_, hbelow, fun hsome => absurd hsome hcrdt⟩
  exact (chain_append_singleton _ _ _).2 ⟨h.undo, hback⟩

theorem compensate_exact {d : L.Doc} (hsome : b.crdt.isSome)
    (views : List (View (Buffer L))) (source from_ : UndoSource) (step : HistoryStep) :
    ExactOutcome b ((b.compensate d views source from_ step).mapResult some) := by
  rcases compensate_cases b source hsome views from_ step with
    ⟨b', popped, e, honly, hout⟩ | ⟨b', newRope, op, popped, modified, honly, _, hout⟩
  · rw [hout]
    exact exactOutcome_error rfl rfl (honly.keeps.historyOk h)
  · obtain ⟨_, hundo, hredo, _⟩ := honly.keeps; rw [hout]
    exact exactOutcome_broadcast ⟨describe_describes b.rope newRope, rfl⟩
      (.of_nil (hundo.trans (h.crdt hsome).1) (hredo.trans (h.crdt hsome).2))

theorem undoArbiter_exact {d : L.Doc} (hd : b.crdt = some d) :
    ExactOutcome b ((b.undoArbiter d views source).mapResult some) := by
  have hkeeps := (closeOwnRun_only b source).keeps
  rw [undoArbiter]
  generalize b.closeOwnRun source = closed at hkeeps ⊢
  have hsome : closed.crdt.isSome := by rw [hkeeps.isSome, hd]; rfl
  obtain ⟨hexact, hok⟩ := compensate_exact (hkeeps.historyOk h) hsome (d := d) views source
    (closed.undoPick source) .undo
  rw [hkeeps.rope] at hexact
  exact ⟨hexact, hok.undo, hok.redo, hok.crdt⟩

theorem undoFor_exact (views : List (View (Buffer L)))
    (source : UndoSource) : ExactOutcome b ((b.undoFor views source).mapResult some) := by
  rw [undoFor]
  split_ifs
  · exact exactOutcome_error rfl rfl h
  split
  · rename_i d hd; exact undoArbiter_exact h hd
  · rename_i hd; exact undoV01_exact h (by simp [hd])

theorem redoFor_exact (views : List (View (Buffer L)))
    (source : UndoSource) : ExactOutcome b ((b.redoFor views source).mapResult some) := by
  rw [redoFor]
  split_ifs
  · exact exactOutcome_error rfl rfl h
  split
  · rename_i d hd; exact compensate_exact h (by simp [hd]) views source source .redo
  · rename_i hd; exact redoV01_exact h (by simp [hd])

/-- **One call** on a buffer whose histories are chains. -/
theorem perform_exact {c : Call L} (hout : b.perform c = some out) : ExactOutcome b out := by
  cases c with
  | applyEditAs views order source op =>
    cases hout; rw [applyEditAs]
    split_ifs
    · exact exactOutcome_error rfl rfl h
    · exact exactOutcome_error rfl rfl h
    split
    · exact exactOutcome_error rfl rfl h
    · exact runRopeEditAndBroadcast_exact h
  | applyEditSkipInterceptsAs views order source op =>
    cases hout; rw [applyEditSkipInterceptsAs]
    split_ifs
    · exact exactOutcome_error rfl rfl h
    · exact runRopeEditAndBroadcast_exact h
  | applyRemoteCrdtOp views op => exact applyRemoteCrdtOp_exact h hout
  | undoFor views source => cases hout; exact undoFor_exact h views source
  | redoFor views source => cases hout; exact redoFor_exact h views source
  | arbiterSettleRemote order source run limit typed =>
    cases hout
    exact exactOutcome_quiet ((arbiterSettleRemote_keeps b order source run limit typed).historyOk h)
  | arbiterTypedBegin source run limit =>
    cases hout; exact exactOutcome_quiet ((arbiterTypedBegin_keeps b source run limit).historyOk h)
  | arbiterClose source =>
    cases hout; exact exactOutcome_quiet ((arbiterClose_only b source).keeps.historyOk h)
  | arbiterDetach source =>
    cases hout; exact exactOutcome_quiet ((arbiterDetach_only b source).keeps.historyOk h)
  | noteTypedEdit merge => cases hout; exact exactOutcome_quiet (noteTypedEdit_historyOk h merge)
  | commandCollapse =>
    cases hout
    refine exactOutcome_quiet ?_; rw [commandCollapse]
    split_ifs with hcrdt
    · exact h
    · exact (collapseTypedCommand_historyOk h hcrdt).1
  | markClean | setReadOnly | endEdit =>
    cases hout; exact exactOutcome_quiet ⟨h.undo, h.redo, h.crdt⟩
  | beginEdit =>
    cases hout; rw [beginEdit]
    split_ifs
    · exact exactOutcome_quiet h
    · exact exactOutcome_quiet h
    · exact exactOutcome_quiet ⟨h.undo, h.redo, h.crdt⟩

end

/-! ## Runs -/

/-- The buffers that are constructed: over a rope, or over bytes with a CRDT. -/
inductive Constructed : Buffer L → Prop where
  | fromRope (id : ℕ) (name : String) (rope : WfRope) : Constructed (.fromRope L id name rope)
  | withCrdt {id : ℕ} {name : String} {bytes : Bytes} {peerId : PeerId} {b : Buffer L} :
    fromBytesWithCrdt L id name bytes peerId = .ok b → Constructed b

theorem Constructed.historyOk (h : Constructed b) : HistoryOk b := by
  cases h with
  | fromRope id name rope => exact .of_nil rfl rfl
  | withCrdt h =>
    rw [fromBytesWithCrdt] at h
    split at h
    · cases h; exact .of_nil rfl rfl
    · cases h

theorem Constructed.arbiter_eq (h : Constructed b) : b.arbiter = ∅ := by
  cases h with
  | fromRope => rfl
  | withCrdt h =>
    rw [fromBytesWithCrdt] at h
    split at h
    · cases h; rfl
    · cases h

/-- A buffer of the text "ab" over a plain document. -/
def plainAb : Buffer .plain :=
  { fromBytes .plain 0 "" [0x61, 0x62] with crdt := some ⟨1, [(2, ['a', 'b'])], 2⟩ }

theorem fromBytesWithCrdt_plainAb : fromBytesWithCrdt .plain 0 "" [0x61, 0x62] 1 = .ok plainAb := by
  have htext : Utf8.lossy [0x61, 0x62] = ['a', 'b'] := by decide +kernel
  have hcut : Utf8.cutAt ((Utf8.encode ['a', 'b']).length - pieceBytes) ['a', 'b'] =
      ([], ['a', 'b']) := by decide +kernel
  rw [fromBytesWithCrdt, Crdt.fromBytes, htext]
  simp only [Crdt.insertInPieces, length_cons, length_nil, Crdt.insertPieces, hcut]
  rfl

theorem plainAb_constructed : Constructed plainAb := .withCrdt fromBytesWithCrdt_plainAb

/-- **Exact edits.** In every run of calls on a buffer, the histories are chains,
    and every edit a next call returns or broadcasts is exact. -/
theorem run_exact {b₀ b : Buffer L} (h₀ : Constructed b₀) (h : Run (fun _ _ => True) b₀ b) :
    HistoryOk b ∧ ∀ c out, b.perform c = some out →
      ∀ ed ∈ out.edits, Exact b.rope ed out.buffer.rope := by
  have hok : HistoryOk b :=
    h.inv h₀.historyOk fun _ _ _ hb _ hperform => (perform_exact hb hperform).2
  refine ⟨hok, ?_⟩
  intro c out hout
  exact (perform_exact hok hout).1

/-- Any next call after an insertion into "ab", such as its undo. -/
theorem run_exact_undo : HistoryOk ((fromRope .plain 0 "" (.fromBytes [0x61, 0x62])).applyEditAs []
        (fun sources => sources) .daemon (.insert 1 [0x78])).buffer ∧
      ∀ c out, ((fromRope .plain 0 "" (.fromBytes [0x61, 0x62])).applyEditAs []
          (fun sources => sources) .daemon (.insert 1 [0x78])).buffer.perform c = some out →
        ∀ ed ∈ out.edits, Exact ((fromRope .plain 0 "" (.fromBytes [0x61, 0x62])).applyEditAs []
            (fun sources => sources) .daemon (.insert 1 [0x78])).buffer.rope ed out.buffer.rope :=
  run_exact (.fromRope 0 "" (.fromBytes [0x61, 0x62]))
    (.call (c := .applyEditAs [] (fun sources => sources) .daemon (.insert 1 [0x78])) .start
      trivial rfl)

end Buffer

end Pmacs
