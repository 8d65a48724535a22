/-
  The typed command of the rope-only history (buffer.rs): what lies between `arbiterTypedBegin`
  and `noteTypedEdit`.

  * `performAll_forward`: each lands as one entry, the oldest of the history making room;
  * `OneStep`: the command is one step, and its undo gives the text back. `typedCommand_oneStep`:
    so it is while the history has room, and `not_typedCommand_oneStep`.
-/
import Pmacs.Buffer.Agree

namespace Pmacs

open Lib List Option

def Call.IsForward {L : Loro} : Call L → Prop
  | .applyEditAs _ _ _ _ => True
  | .applyEditSkipInterceptsAs _ _ _ _ => True
  | _ => False

namespace Buffer

variable {L : Loro}

variable {b b' : Buffer L} {below es : List UndoEntry} {out : Outcome L (Option (Edit WfRope))}
  {top : UndoEntry}

/-! ## The cap -/

theorem undoHistoryLimit_pos : 0 < undoHistoryLimit := by
  rw [undoHistoryLimit]
  omega

/-- The two histories of a rope-only buffer hold no more entries than one may. -/
def HistoryFits (b : Buffer L) : Prop := b.undo.length + b.redo.length ≤ undoHistoryLimit

theorem HistoryFits.undo_le (h : HistoryFits b) :
    b.undo.length ≤ undoHistoryLimit := le_trans (Nat.le_add_right _ _) h

theorem Keeps.historyFits (hk : Keeps b b') (h : HistoryFits b) : HistoryFits b' := by
  rw [HistoryFits, hk.undo, hk.redo]
  exact h

variable {views : List (View (Buffer L))} {order : List UndoSource → List UndoSource}
  {source : UndoSource}

theorem landEdit_historyFits (h : HistoryFits b) (routed : Routed L)
    (ed : Edit WfRope) : HistoryFits (b.landEdit views order source routed ed).buffer := by
  have hle := h.undo_le
  simp only [landEdit]
  split_ifs
  · exact h
  · exact (arbiterRecord_only _ order source _ routed.change).keeps.historyFits h
  show (pushCapped undoHistoryLimit b.undo _).length + 0 ≤ _
  rw [length_pushCapped undoHistoryLimit_pos hle]; exact min_le_right _ _

theorem runRopeEditAndBroadcast_historyFits (h : HistoryFits b) {op : EditOp} :
    HistoryFits (b.runRopeEditAndBroadcast views order op source).buffer := by
  have hrun (b' : Buffer L) (hb' : HistoryFits b') (routed : Routed L) :
      HistoryFits (b'.runRopeEdit views order op source routed).buffer := by
    rw [runRopeEdit]
    split
    · exact hb'
    · exact landEdit_historyFits hb' routed _
  rw [runRopeEditAndBroadcast]
  split
  · split
    · exact h
    · rename_i routed d' _; exact hrun { b with crdt := some d' } h routed
  · exact hrun b h .none

theorem collapseTypedCommand_length (b : Buffer L) :
    b.collapseTypedCommand.undo.length ≤ b.undo.length := by
  rw [collapseTypedCommand]
  split
  · exact le_rfl
  dsimp only
  split_ifs with hfloor
  · exact le_rfl
  split
  · exact le_rfl
  · simp only [length_append, length_take, length_singleton]; omega

/-- The two ends of a typed command that pushed something: the newest entry is marked, or merged
    into the typed one below it. -/
theorem noteTypedEdit_cases (hcrdt : ¬ b.crdt.isSome)
    (hundo : b.collapseTypedCommand.undo = below ++ [top]) (merge : Bool) :
    (b.noteTypedEdit merge = (false, { b.collapseTypedCommand with
        undo := below ++ [{ top with typed := true }] })) ∨
      ∃ prev, below.getLast? = some prev ∧ prev.typed = true ∧
        b.noteTypedEdit merge = (true, { b.collapseTypedCommand with
          undo := below.dropLast ++ [{ prev with
            edit := describe prev.rope b.collapseTypedCommand.rope }] }) := by
  rw [noteTypedEdit, if_neg hcrdt]
  dsimp only
  rw [hundo, getLast?_concat, dropLast_concat]
  cases merge with
  | false => exact .inl rfl
  | true =>
    cases hprev : below.getLast? with
    | none => exact .inl (by simp)
    | some prev =>
      cases htyped : prev.typed with
      | false => exact .inl (by simp [htyped])
      | true => exact .inr ⟨prev, rfl, htyped, by simp [htyped]⟩

theorem noteTypedEdit_length (b : Buffer L) (merge : Bool) :
    (b.noteTypedEdit merge).2.undo.length ≤ b.undo.length := by
  have hcollapse := collapseTypedCommand_length b
  by_cases hcrdt : b.crdt.isSome
  · rw [noteTypedEdit, if_pos hcrdt]
  rcases eq_nil_or_concat b.collapseTypedCommand.undo with hnil | ⟨below, top, hundo⟩
  · rw [noteTypedEdit, if_neg hcrdt]; dsimp only; rw [hnil, getLast?_nil]
    exact hcollapse
  rw [concat_eq_append] at hundo; rw [hundo, length_append, length_singleton] at hcollapse
  rcases noteTypedEdit_cases hcrdt hundo merge with hmarked | ⟨prev, _, _, hmerged⟩
  · rw [hmarked, length_append, length_singleton]; exact hcollapse
  · rw [hmerged, length_append, length_singleton, length_dropLast]; omega

theorem OnlyTyped.historyFits (honly : OnlyTyped b b') (h : HistoryFits b)
    (hlength : b'.undo.length ≤ b.undo.length) : HistoryFits b' := by
  have hredo : b'.redo = b.redo := by rw [honly]
  rw [HistoryFits, hredo]
  exact Nat.le_trans (Nat.add_le_add_right hlength _) h

section
variable (h : HistoryFits b)
include h

theorem swap_historyFits
    (hlength : b'.undo.length + b'.redo.length = b.undo.length + b.redo.length) :
    HistoryFits b' := by
  rw [HistoryFits, hlength]
  exact h

theorem undoV01_historyFits : HistoryFits (b.undoV01 views).buffer := by
  rw [undoV01]
  split
  · exact h
  rename_i entry hentry
  have hpos := length_pos_of_ne_nil (ne_nil_of_mem (mem_of_getLast? hentry))
  refine swap_historyFits h ?_
  simp only [broadcastOnEdit, length_append, length_dropLast, length_singleton]; omega

theorem redoV01_historyFits : HistoryFits (b.redoV01 views).buffer := by
  rw [redoV01]
  split
  · exact h
  rename_i entry hentry
  have hpos := length_pos_of_ne_nil (ne_nil_of_mem (mem_of_getLast? hentry))
  refine swap_historyFits h ?_
  simp only [broadcastOnEdit, length_append, length_dropLast, length_singleton]; omega

theorem compensate_historyFits {d : L.Doc} (hsome : b.crdt.isSome) (from_ : UndoSource) (step : HistoryStep) :
    HistoryFits (b.compensate d views source from_ step).buffer := by
  rcases compensate_cases b source hsome views from_ step with
    ⟨b', popped, e, honly, hout⟩ | ⟨b', newRope, op, popped, modified, honly, _, hout⟩
  · rw [hout]
    exact honly.keeps.historyFits h
  · have hfits : HistoryFits b' := honly.keeps.historyFits h
    rw [hout]
    exact hfits

theorem undoFor_historyFits (views : List (View (Buffer L)))
    (source : UndoSource) : HistoryFits (b.undoFor views source).buffer := by
  rw [undoFor]
  split_ifs
  · exact h
  split
  · rename_i d hd; have hkeeps := (closeOwnRun_only b source).keeps
    have hsome : (b.closeOwnRun source).crdt.isSome := by rw [hkeeps.isSome, hd]; rfl
    exact compensate_historyFits (hkeeps.historyFits h) hsome _ .undo
  · exact undoV01_historyFits h

theorem redoFor_historyFits (views : List (View (Buffer L)))
    (source : UndoSource) : HistoryFits (b.redoFor views source).buffer := by
  rw [redoFor]
  split_ifs
  · exact h
  split
  · rename_i d hd; exact compensate_historyFits h (by rw [hd]; rfl) source .redo
  · exact redoV01_historyFits h

theorem applyRemoteCrdtOp_historyFits {op : Bytes}
    (hout : b.applyRemoteCrdtOp views op = some out) : HistoryFits out.buffer := by
  rw [applyRemoteCrdtOp] at hout
  split_ifs at hout
  · cases hout; exact h
  · cases hout; exact h
  split at hout
  · cases hout; exact h
  split at hout
  · cases hout; exact h
  dsimp only at hout
  split at hout
  · cases hout
  · cases hout; exact h
  cases hout; simp only [runRemoteRopeStages, Outcome.mapResult]
  split
  · exact h
  · exact h

/-- **One call** keeps the two histories within the cap. -/
theorem perform_historyFits {c : Call L} (hout : b.perform c = some out) :
    HistoryFits out.buffer := by
  cases c with
  | applyEditAs views order source op =>
    cases hout; simp only [Outcome.mapResult, applyEditAs]
    split_ifs
    · exact h
    · exact h
    split
    · exact h
    · exact runRopeEditAndBroadcast_historyFits h
  | applyEditSkipInterceptsAs views order source op =>
    cases hout; simp only [Outcome.mapResult, applyEditSkipInterceptsAs]
    split_ifs
    · exact h
    · exact runRopeEditAndBroadcast_historyFits h
  | applyRemoteCrdtOp views op => exact applyRemoteCrdtOp_historyFits h hout
  | undoFor views source => cases hout; exact undoFor_historyFits h views source
  | redoFor views source => cases hout; exact redoFor_historyFits h views source
  | arbiterSettleRemote order source run limit typed =>
    cases hout; exact (arbiterSettleRemote_keeps b order source run limit typed).historyFits h
  | arbiterTypedBegin source run limit =>
    cases hout; exact (arbiterTypedBegin_keeps b source run limit).historyFits h
  | arbiterClose source => cases hout; exact (arbiterClose_only b source).keeps.historyFits h
  | arbiterDetach source => cases hout; exact (arbiterDetach_only b source).keeps.historyFits h
  | noteTypedEdit merge =>
    cases hout; exact (noteTypedEdit_only b merge).historyFits h (noteTypedEdit_length b merge)
  | commandCollapse =>
    cases hout
    refine (commandCollapse_only b).historyFits h ?_; rw [commandCollapse]
    split_ifs
    · exact le_rfl
    · exact collapseTypedCommand_length b
  | markClean | setReadOnly readOnly | endEdit => cases hout; exact h
  | beginEdit =>
    cases hout; rw [beginEdit]
    split_ifs
    · exact h
    · exact h
    · exact h

end

theorem Constructed.historyFits (h : Constructed b) : HistoryFits b := by
  cases h with
  | fromRope => exact Nat.zero_le _
  | withCrdt h =>
    rw [fromBytesWithCrdt] at h
    split at h
    · cases h; exact Nat.zero_le _
    · cases h

theorem run_historyFits {b₀ : Buffer L} (h₀ : Constructed b₀) (h : Run (fun _ _ => True) b₀ b) :
    HistoryFits b :=
  h.inv h₀.historyFits fun _ _ _ hb _ hout => perform_historyFits hb hout

/-! ## The edits of a command -/

/-- Whether a forward edit of a rope-only buffer lands: it reaches the rope, which takes it, and
    changes something. -/
def lands (b : Buffer L) (c : Call L) : Bool :=
  match b.reaching c with
  | none => false
  | some op =>
    match editRope b.rope op with
    | .error _ => false
    | .ok ed => !(ed.range.isEmpty && ed.insertedLen == 0)

def performAll : Buffer L → List (Call L) → Option (Buffer L)
  | b, [] => some b
  | b, c :: cs =>
    match b.perform c with
    | none => none
    | some out => out.buffer.performAll cs

def landings : Buffer L → List (Call L) → List WfRope
  | _, [] => []
  | b, c :: cs =>
    match b.perform c with
    | none => []
    | some out => if b.lands c then b.rope :: out.buffer.landings cs else out.buffer.landings cs

/-- What a forward edit of a rope-only buffer leaves. -/
structure Forward (b b' : Buffer L) (landed : Bool) : Prop where
  crdt : b'.crdt = none
  readOnly : b'.readOnly = b.readOnly
  typedFloor : b'.typedFloor = b.typedFloor
  undo : landed = true → ∃ edit, b'.undo = pushCapped undoHistoryLimit b.undo ⟨b.rope, edit, false⟩
  same : landed = false → b'.undo = b.undo ∧ b'.rope = b.rope

theorem Forward.refused (hcrdt : b.crdt = none) : Forward b b false :=
  ⟨hcrdt, rfl, rfl, nofun, fun _ => ⟨rfl, rfl⟩⟩

theorem runRopeEditAndBroadcast_forward (hcrdt : b.crdt = none) {op : EditOp} :
    Forward b (b.runRopeEditAndBroadcast views order op source).buffer
      (match editRope b.rope op with
        | .error _ => false
        | .ok ed => !(ed.range.isEmpty && ed.insertedLen == 0)) := by
  have hrun : b.runRopeEditAndBroadcast views order op source =
      b.runRopeEdit views order op source .none := by
    rw [runRopeEditAndBroadcast]
    split
    · rename_i hd _; rw [hcrdt] at hd; cases hd
    · rfl
  have hop : withBytes (Routed.normalized (.none : Routed L)) op = op := rfl
  rw [hrun, runRopeEdit, hop]
  cases editRope b.rope op with
  | error e => exact .refused hcrdt
  | ok ed =>
    show Forward b (b.landEdit views order source .none { ed with crdtOp := none }).buffer _
    simp only [landEdit]
    cases hnoop : ed.range.isEmpty && ed.insertedLen == 0 with
    | true => exact .refused hcrdt
    | false =>
      simp only [Bool.false_eq_true, if_false]
      rw [if_neg (by rw [hcrdt]; exact Bool.false_ne_true)]
      exact ⟨hcrdt, rfl, rfl, fun _ => ⟨_, rfl⟩, by rintro ⟨⟩⟩

theorem perform_forward (hcrdt : b.crdt = none) {c : Call L} (hc : c.IsForward)
    (hout : b.perform c = some out) : Forward b out.buffer (b.lands c) := by
  cases c with
  | applyEditAs views order source op =>
    cases hout; rw [lands, reaching]; simp only [Outcome.mapResult, applyEditAs]
    cases hreadOnly : b.readOnly with
    | true => exact .refused hcrdt
    | false =>
      cases hediting : b.editingInProgress with
      | true => exact .refused hcrdt
      | false =>
        cases intercept b.interceptContext views op with
        | error e => exact .refused hcrdt
        | ok current => exact runRopeEditAndBroadcast_forward hcrdt
  | applyEditSkipInterceptsAs views order source op =>
    cases hout; rw [lands, reaching]; simp only [Outcome.mapResult, applyEditSkipInterceptsAs]
    cases hreadOnly : b.readOnly with
    | true => exact .refused hcrdt
    | false => exact runRopeEditAndBroadcast_forward hcrdt
  | _ => exact hc.elim

/-- The edits of a command land one entry each, of the rope before. -/
theorem performAll_forward :
    ∀ {cs : List (Call L)} {b b' : Buffer L}, b.crdt = none → (∀ c ∈ cs, c.IsForward) →
      b.performAll cs = some b' →
        b'.crdt = none ∧ b'.readOnly = b.readOnly ∧ b'.typedFloor = b.typedFloor ∧
          ∃ es : List UndoEntry, es.map UndoEntry.rope = b.landings cs ∧
            (∀ e ∈ es, e.typed = false) ∧ b'.undo = es.foldl (pushCapped undoHistoryLimit) b.undo
  | [], b, b', hcrdt, _, h => by
    cases h; exact ⟨hcrdt, rfl, rfl, [], rfl, nofun, rfl⟩
  | c :: cs, b, b', hcrdt, hforward, h => by
    rw [performAll] at h; rw [landings]
    cases hout : b.perform c with
    | none => rw [hout] at h; cases h
    | some out =>
      rw [hout] at h; have hone := perform_forward hcrdt (hforward c mem_cons_self) hout
      obtain ⟨hcrdt', hreadOnly, hfloor, es, hes, htyped, hundo⟩ :=
        performAll_forward hone.crdt (fun c hc => hforward c (mem_cons_of_mem _ hc)) h
      refine ⟨hcrdt', hreadOnly.trans hone.readOnly, hfloor.trans hone.typedFloor, ?_⟩; dsimp only
      cases hlands : b.lands c with
      | false =>
        rw [hlands] at hone; rw [(hone.same rfl).1] at hundo; exact ⟨es, hes, htyped, hundo⟩
      | true =>
        rw [hlands] at hone; obtain ⟨edit, hpushed⟩ := hone.undo rfl
        refine ⟨⟨b.rope, edit, false⟩ :: es, congrArg (b.rope :: ·) hes, ?_, ?_⟩
        · intro e he
          rcases mem_cons.1 he with rfl | he
          · rfl
          · exact htyped e he
        · rw [foldl_cons, ← hpushed]; exact hundo

/-- The first edit that lands finds the rope as it was, in a buffer that is writable. -/
theorem landings_head :
    ∀ {cs : List (Call L)} {b : Buffer L} {r : WfRope} {rs : List WfRope}, b.crdt = none →
      (∀ c ∈ cs, c.IsForward) → b.landings cs = r :: rs → r = b.rope ∧ b.readOnly = false
  | [], b, r, rs, _, _, h => nomatch h
  | c :: cs, b, r, rs, hcrdt, hforward, h => by
    rw [landings] at h
    cases hout : b.perform c with
    | none => rw [hout] at h; cases h
    | some out =>
      rw [hout] at h; have hone := perform_forward hcrdt (hforward c mem_cons_self) hout
      dsimp only at h
      cases hlands : b.lands c with
      | false =>
        rw [hlands] at h hone
        obtain ⟨hr, hreadOnly⟩ := landings_head hone.crdt
          (fun c hc => hforward c (mem_cons_of_mem _ hc)) h
        exact ⟨hr.trans (hone.same rfl).2, hone.readOnly.symm.trans hreadOnly⟩
      | true =>
        rw [hlands, if_pos rfl] at h; cases h
        refine ⟨rfl, ?_⟩
        cases hreadOnly : b.readOnly with
        | false => rfl
        | true =>
          rw [lands] at hlands
          cases c with
          | applyEditAs | applyEditSkipInterceptsAs => simp [reaching, hreadOnly] at hlands
          | _ => exact (hforward _ mem_cons_self).elim

/-! ## The end of a command -/

/-- A command is one step at most of the history, and its undo, where it was not merged into the
    step below, gives back the text that it began with. `landed` is how many edits landed, and
    the cap left room for no more than the newest of the entries before. -/
structure OneStep (b : Buffer L) (landed : ℕ) (noted : Bool × Buffer L) : Prop where
  steps : noted.2.undo.length ≤
    b.undo.length - (b.undo.length + landed - undoHistoryLimit) + 1
  restores : noted.1 = false → ∀ views source,
    (noted.2.undoFor views source).buffer.bytes = b.bytes

/-- The command fits into the history: one edit landed, or there is room for all. Where there was
    no history at all, the text was again as it had been before the oldest edit that is kept. -/
def Fits (b : Buffer L) (landed : List WfRope) : Prop :=
  landed.length ≤ 1 ∨ b.undo.length + landed.length ≤ undoHistoryLimit ∨
    (b.undo = [] ∧
      (landed[landed.length - undoHistoryLimit]?).map WfRope.bytes = some b.bytes)

theorem collapseTypedCommand_crdt (b : Buffer L) : b.collapseTypedCommand.crdt = b.crdt ∧
    b.collapseTypedCommand.readOnly = b.readOnly := by
  rw [collapseTypedCommand_only b]
  exact ⟨rfl, rfl⟩

theorem undoFor_bytes (hcrdt : b.crdt = none) (hreadOnly : b.readOnly = false)
    (below : List UndoEntry) (top : UndoEntry) (views : List (View (Buffer L)))
    (source : UndoSource) :
    (({ b.collapseTypedCommand with undo := below ++ [top] } : Buffer L).undoFor views
      source).buffer.bytes = top.rope.bytes := by
  obtain ⟨hcrdt', hreadOnly'⟩ := collapseTypedCommand_crdt b
  have hwritable : b.collapseTypedCommand.readOnly ≠ true := by
    rw [hreadOnly', hreadOnly]; exact Bool.false_ne_true
  rw [undoFor, if_neg hwritable]
  simp only [hcrdt', hcrdt, undoV01, getLast?_concat]
  rfl

/-- What the collapse leaves where the entries of the command are at most one, or the floor is
    below two of them. -/
theorem collapseTypedCommand_undo {floor : ℕ} (hfloor : b.typedFloor = some floor) :
    (b.undo.length ≤ floor + 1 → b.collapseTypedCommand.undo = b.undo) ∧
    (floor + 1 < b.undo.length → ∃ oldest edit, b.undo[floor]? = some oldest ∧
      b.collapseTypedCommand.undo = b.undo.take floor ++ [⟨oldest.rope, edit, false⟩]) := by
  rw [collapseTypedCommand, hfloor]
  dsimp only
  constructor
  · intro hle; rw [if_pos hle]
  intro hlt; rw [if_neg (not_le.2 hlt)]
  have hget := getElem?_eq_getElem (show floor < b.undo.length by omega); rw [hget]
  exact ⟨_, _, rfl, rfl⟩

/-- The end of a command that left one entry of its own, `top`. -/
theorem oneStep_of_top {landed : ℕ} (hcrdt : b'.crdt = none) (hreadOnly : b'.readOnly = false)
    (hundo : b'.collapseTypedCommand.undo = below ++ [top]) (htop : top.rope = b.rope)
    (hbelow : below.length ≤ b.undo.length - (b.undo.length + landed - undoHistoryLimit))
    (merge : Bool) : OneStep b landed (b'.noteTypedEdit merge) := by
  have hnone : ¬ b'.crdt.isSome := by simp [hcrdt]
  rcases noteTypedEdit_cases hnone hundo merge with hmarked | ⟨prev, hprev, _, hmerged⟩
  · rw [hmarked]
    refine ⟨?_, fun _ views source => ?_⟩
    · simp only [length_append, length_singleton]; exact Nat.add_le_add_right hbelow 1
    exact (undoFor_bytes hcrdt hreadOnly below { top with typed := true } views source).trans
      (congrArg WfRope.bytes htop)
  rw [hmerged]
  refine ⟨?_, fun h => nomatch h⟩; simp only [length_append, length_dropLast, length_singleton]
  omega

/-- The end of a command where an entry of its own is below the newest one. -/
theorem oneStep_iff_of_untyped {landed : ℕ} (hcrdt : b'.crdt = none)
    (hreadOnly : b'.readOnly = false) (hundo : b'.collapseTypedCommand.undo = below ++ [top])
    (huntyped : ∀ prev ∈ below.getLast?, prev.typed = false) (merge : Bool) :
    OneStep b landed (b'.noteTypedEdit merge) ↔
      below.length ≤ b.undo.length - (b.undo.length + landed - undoHistoryLimit) ∧
        top.rope.bytes = b.bytes := by
  have hnone : ¬ b'.crdt.isSome := by simp [hcrdt]
  rcases noteTypedEdit_cases hnone hundo merge with hmarked | ⟨prev, hprev, htyped, _⟩
  · rw [hmarked]; have hbytes := undoFor_bytes hcrdt hreadOnly below { top with typed := true }
    constructor
    · intro h; have hsteps := h.steps; simp only [length_append, length_singleton] at hsteps
      exact ⟨Nat.le_of_add_le_add_right hsteps,
        (hbytes [] .daemon).symm.trans (h.restores rfl [] .daemon)⟩
    rintro ⟨hbelow, htop⟩
    refine ⟨?_, fun _ views source => (hbytes views source).trans htop⟩
    simp only [length_append, length_singleton]; exact Nat.add_le_add_right hbelow 1
  · have hno := huntyped prev hprev; rw [htyped] at hno; cases hno

/-! ## One command -/

/-- What a command leaves of the history when `es` landed in it. -/
structure Landed (b b' : Buffer L) (es : List UndoEntry) : Prop where
  crdt : b'.crdt = none
  readOnly : b'.readOnly = false
  typedFloor : b'.typedFloor = some b.undo.length
  untyped : ∀ e ∈ es, e.typed = false
  undo : b'.undo = (b.undo ++ es).drop (b.undo.length + es.length - undoHistoryLimit)

theorem Landed.oneStep {e : UndoEntry} (h : Landed b b' (e :: es)) (hfits : HistoryFits b)
    (he : e.rope = b.rope) (hroom : es = [] ∨ b.undo.length + (e :: es).length ≤ undoHistoryLimit)
    (merge : Bool) : OneStep b (e :: es).length (b'.noteTypedEdit merge) := by
  have hle := hfits.undo_le
  have hpos := undoHistoryLimit_pos
  obtain ⟨hshort, hlong⟩ := collapseTypedCommand_undo h.typedFloor
  have hundo := h.undo
  have hlength := congrArg List.length hundo
  rw [length_drop, length_append] at hlength
  by_cases hnil : es = []
  · subst hnil; rw [length_singleton] at *
    have hcut : b.undo.length + 1 - undoHistoryLimit ≤ b.undo.length := by omega
    rw [drop_append_of_le_length hcut] at hundo
    refine oneStep_of_top h.crdt h.readOnly ((hshort (by omega)).trans hundo) he ?_ merge
    rw [length_drop]
  have hcap := hroom.resolve_left hnil; have hmany := length_pos_of_ne_nil hnil
  rw [length_cons] at *; rw [Nat.sub_eq_zero_of_le hcap, drop_zero] at hundo
  obtain ⟨oldest, edit, hget, hcollapsed⟩ := hlong (by omega)
  rw [hundo, getElem?_append_right (Nat.le_refl _), Nat.sub_self] at hget; cases hget
  rw [hundo, take_left] at hcollapsed
  refine oneStep_of_top h.crdt h.readOnly hcollapsed he ?_ merge
  rw [Nat.sub_eq_zero_of_le hcap, Nat.sub_zero]

theorem Landed.untyped_of_le (h : Landed b b' es) {i : ℕ} (hi : b.undo.length ≤ i) {e : UndoEntry}
    (he : (b.undo ++ es)[i]? = some e) : e.typed = false := by
  rw [getElem?_append_right hi] at he
  exact h.untyped e (mem_of_getElem? he)

/-- Past the cap, the command is one step only where it was all the history. -/
theorem Landed.oneStep_iff (h : Landed b b' es) (hfits : HistoryFits b) (hmany : 1 < es.length)
    (hfull : undoHistoryLimit < b.undo.length + es.length) {merge : Bool} :
    OneStep b es.length (b'.noteTypedEdit merge) ↔ b.undo = [] ∧
      (es[es.length - undoHistoryLimit]?).map (fun e => e.rope.bytes) = some b.bytes := by
  have hle := hfits.undo_le
  have hlimit : 1 < undoHistoryLimit := by rw [undoHistoryLimit]; omega
  obtain ⟨hshort, hlong⟩ := collapseTypedCommand_undo h.typedFloor
  have hundo := h.undo
  have hlength := congrArg List.length hundo
  rw [length_drop, length_append] at hlength
  by_cases hcollapse : b.undo.length + 1 < b'.undo.length
  · obtain ⟨oldest, edit, hget, hcollapsed⟩ := hlong hcollapse
    have hbelow : (b'.undo.take b.undo.length).length = b.undo.length := by rw [length_take]; omega
    rw [oneStep_iff_of_untyped h.crdt h.readOnly hcollapsed ?_ merge, hbelow]
    · rw [hundo, getElem?_drop] at hget
      constructor
      · rintro ⟨hsteps, hbytes⟩; have hempty : b.undo = [] := eq_nil_of_length_eq_zero (by omega)
        refine ⟨hempty, ?_⟩; rw [hempty, length_nil, nil_append, add_zero, zero_add] at hget
        rw [hget]; exact congrArg some hbytes
      rintro ⟨hempty, hbytes⟩
      rw [hempty, length_nil, nil_append, add_zero, zero_add] at hget; rw [hget] at hbytes
      exact ⟨by rw [hempty]; exact Nat.zero_le _, some.inj hbytes⟩
    intro prev hprev
    rw [getLast?_eq_getElem?, hbelow, getElem?_take, hundo, getElem?_drop] at hprev
    split_ifs at hprev
    exact h.untyped_of_le (by omega) hprev
    cases hprev
  have hne : b'.undo ≠ [] := by intro hnil; rw [hnil, length_nil] at hlength; omega
  have hsplit := dropLast_append_getLast hne
  have hcollapsed := (hshort (not_lt.1 hcollapse)).trans hsplit.symm
  refine iff_of_false ?_ ?_
  · rw [oneStep_iff_of_untyped h.crdt h.readOnly hcollapsed ?_ merge, length_dropLast]
    · rintro ⟨hsteps, -⟩; omega
    intro prev hprev
    rw [getLast?_eq_getElem?, length_dropLast, getElem?_dropLast, hundo] at hprev
    split_ifs at hprev
    · rw [getElem?_drop] at hprev
      refine h.untyped_of_le ?_ hprev; rw [length_drop, length_append]; omega
    · cases hprev
  rintro ⟨hempty, -⟩; have hzero := congrArg List.length hempty; rw [length_nil] at hzero
  omega

theorem performAll_landed (hcrdt : b.crdt = none) (hfits : HistoryFits b) {run limit : ℕ} {cs : List (Call L)} (hforward : ∀ c ∈ cs, c.IsForward)
    (hcs : (b.arbiterTypedBegin source run limit).performAll cs = some b')
    (hlands : (b.arbiterTypedBegin source run limit).landings cs ≠ []) :
    ∃ e es, Landed b b' (e :: es) ∧ e.rope = b.rope ∧
      (e :: es).map UndoEntry.rope = (b.arbiterTypedBegin source run limit).landings cs := by
  have hbegin : b.arbiterTypedBegin source run limit =
      { b with typedFloor := some b.undo.length } := by
    rw [arbiterTypedBegin, if_pos (by rw [hcrdt]; rfl)]
  rw [hbegin] at hcs hlands ⊢
  obtain ⟨hcrdt', hreadOnly, hfloor, es, hes, htyped, hundo⟩ :=
    performAll_forward (b := { b with typedFloor := some b.undo.length }) hcrdt hforward hcs
  cases es with
  | nil => exact absurd hes.symm hlands
  | cons e es =>
    obtain ⟨he, hwritable⟩ := landings_head
      (b := { b with typedFloor := some b.undo.length }) hcrdt hforward hes.symm
    refine ⟨e, es, ⟨hcrdt', hreadOnly.trans hwritable, hfloor, htyped, ?_⟩, he, hes⟩
    rw [hundo, foldl_pushCapped undoHistoryLimit_pos _ hfits.undo_le]

theorem oneStep_iff_fits (hcrdt : b.crdt = none) (hfits : HistoryFits b)
    (source : UndoSource) (run limit : ℕ) {cs : List (Call L)} (hforward : ∀ c ∈ cs, c.IsForward)
    (hcs : (b.arbiterTypedBegin source run limit).performAll cs = some b')
    (hlands : (b.arbiterTypedBegin source run limit).landings cs ≠ []) (merge : Bool) :
    OneStep b ((b.arbiterTypedBegin source run limit).landings cs).length (b'.noteTypedEdit merge) ↔
      Fits b ((b.arbiterTypedBegin source run limit).landings cs) := by
  obtain ⟨e, es, hlanded, he, hropes⟩ := performAll_landed hcrdt hfits hforward hcs hlands
  rw [← hropes, Fits, List.length_map, List.getElem?_map, Option.map_map]
  by_cases hroom : es = [] ∨ b.undo.length + (e :: es).length ≤ undoHistoryLimit
  · refine iff_of_true (hlanded.oneStep hfits he hroom merge) ?_
    rcases hroom with rfl | hroom
    · exact .inl (le_refl 1)
    · exact .inr (.inl hroom)
  rw [not_or, not_le] at hroom
  have hmany : 1 < (e :: es).length := Nat.succ_lt_succ (length_pos_of_ne_nil hroom.1)
  rw [hlanded.oneStep_iff hfits hmany hroom.2]
  constructor
  · exact fun hall => .inr (.inr hall)
  rintro (hone | hroom' | hall)
  · omega
  · omega
  · exact hall

/-- **A typed command is one undo step**, in every history of a rope-only buffer, exactly if the
    history has room for all its edits, or one edit landed: it leaves one step at most, which
    gives back the text that it began with, unless it was merged into the step below. -/
theorem typedCommand_oneStep {b₀ b b' : Buffer L} (h₀ : Constructed b₀)
    (h : Run (fun _ _ => True) b₀ b) (hcrdt : b.crdt = none) (source : UndoSource) (run limit : ℕ)
    {cs : List (Call L)} (hforward : ∀ c ∈ cs, c.IsForward)
    (hcs : (b.arbiterTypedBegin source run limit).performAll cs = some b')
    (hlands : (b.arbiterTypedBegin source run limit).landings cs ≠ []) (merge : Bool) :
    OneStep b ((b.arbiterTypedBegin source run limit).landings cs).length (b'.noteTypedEdit merge) ↔
      Fits b ((b.arbiterTypedBegin source run limit).landings cs) :=
  oneStep_iff_fits hcrdt (run_historyFits h₀ h) source run limit hforward hcs hlands merge

theorem typedCommand_oneStep_letter : OneStep (fromRope .plain 0 "" (.fromBytes [])) 1
        ((((fromRope .plain 0 "" (.fromBytes [])).arbiterTypedBegin .daemon 0 20).applyEditAs []
          (fun sources => sources) .daemon (.insert 0 [0x61])).buffer.noteTypedEdit false) ↔
      Fits (fromRope .plain 0 "" (.fromBytes [])) [.fromBytes []] :=
  typedCommand_oneStep (.fromRope 0 "" (.fromBytes [])) .start rfl .daemon 0 20
    (show ∀ c ∈ ([.applyEditAs [] (fun sources => sources) .daemon (.insert 0 [0x61])] :
      List (Call .plain)), c.IsForward by simp [Call.IsForward]) rfl (cons_ne_nil _ _) false

/-- A letter inserted at the start. -/
def letter : Call .plain :=
  .applyEditSkipInterceptsAs [] (fun sources => sources) .daemon (.insert 0 [0x61])

theorem letter_lands {b : Buffer .plain} (hwritable : b.readOnly = false) :
    b.lands letter = true := by
  have hreaching : b.reaching letter = some (.insert 0 [0x61]) := by
    simp [reaching, letter, hwritable]
  rcases b.rope.insert_spec 0 [0x61] with ⟨_, ed, hed, hsp⟩ | ⟨hpast, _⟩
  · rw [lands, hreaching]; simp only [editRope, hed, hsp.insertedLen]; simp
  · exact absurd (Nat.zero_le _) (not_le.2 hpast)

theorem exists_history :
    ∀ n ≤ undoHistoryLimit, ∃ b : Buffer .plain,
      Run (fun _ _ => True) (fromRope .plain 0 "" (.fromBytes [])) b ∧ b.crdt = none ∧
        b.readOnly = false ∧ b.undo.length = n
  | 0, _ => ⟨_, .start, rfl, rfl, rfl⟩
  | n + 1, h => by
    obtain ⟨b, hrun, hcrdt, hwritable, hlength⟩ := exists_history n (Nat.le_of_succ_le h)
    obtain ⟨out, hout⟩ : ∃ out, b.perform letter = some out := ⟨_, rfl⟩
    have hone := perform_forward hcrdt (c := letter) trivial hout
    rw [letter_lands hwritable] at hone; obtain ⟨edit, hundo⟩ := hone.undo rfl
    refine ⟨out.buffer, hrun.call trivial hout, hone.crdt, hone.readOnly.trans hwritable, ?_⟩
    rw [hundo, length_pushCapped undoHistoryLimit_pos (by omega), hlength, min_eq_left h]

/-- Two edits in a command past a full history: its entries are not collapsed. -/
theorem not_typedCommand_oneStep :
    ¬ ∀ (b₀ b b' : Buffer .plain) (source : UndoSource) (run limit : ℕ) (cs : List (Call .plain))
      (merge : Bool), Constructed b₀ → Run (fun _ _ => True) b₀ b → b.crdt = none →
        (∀ c ∈ cs, c.IsForward) → (b.arbiterTypedBegin source run limit).performAll cs = some b' →
          (b.arbiterTypedBegin source run limit).landings cs ≠ [] →
            OneStep b ((b.arbiterTypedBegin source run limit).landings cs).length
              (b'.noteTypedEdit merge) := by
  intro hclaim
  obtain ⟨b, hrun, hcrdt, hwritable, hlength⟩ := exists_history undoHistoryLimit le_rfl
  have hbegin : b.arbiterTypedBegin .daemon 0 20 = { b with typedFloor := some b.undo.length } := by
    rw [arbiterTypedBegin, if_pos (by rw [hcrdt]; rfl)]
  have hforward : ∀ c ∈ [letter, letter], c.IsForward := by
    intro c hc; rw [eq_of_mem_replicate (n := 2) hc]; trivial
  obtain ⟨out, hout⟩ : ∃ out, (b.arbiterTypedBegin .daemon 0 20).perform letter = some out :=
    ⟨_, rfl⟩
  obtain ⟨out', hout'⟩ : ∃ out', out.buffer.perform letter = some out' := ⟨_, rfl⟩
  have hone := perform_forward (b := b.arbiterTypedBegin .daemon 0 20) (by rw [hbegin]; exact hcrdt)
    (c := letter) trivial hout
  have hwritable' : out.buffer.readOnly = false := by rw [hone.readOnly, hbegin]; exact hwritable
  have hlands : (b.arbiterTypedBegin .daemon 0 20).lands letter = true :=
    letter_lands (by rw [hbegin]; exact hwritable)
  have hlandings : (b.arbiterTypedBegin .daemon 0 20).landings [letter, letter] =
      [(b.arbiterTypedBegin .daemon 0 20).rope, out.buffer.rope] := by
    simp [landings, hout, hout', hlands, letter_lands hwritable']
  have hcs : (b.arbiterTypedBegin .daemon 0 20).performAll [letter, letter] = some out'.buffer := by
    simp only [performAll, hout, hout']
  have hne : (b.arbiterTypedBegin .daemon 0 20).landings [letter, letter] ≠ [] := by
    rw [hlandings]; exact cons_ne_nil _ _
  have hfits := run_historyFits (.fromRope 0 "" (.fromBytes [])) hrun
  have hstep := (oneStep_iff_fits hcrdt hfits .daemon 0 20 hforward hcs hne false).1
    (hclaim _ b out'.buffer .daemon 0 20 _ false (.fromRope 0 "" (.fromBytes [])) hrun hcrdt
      hforward hcs hne)
  rw [hlandings] at hstep
  have hpos := undoHistoryLimit_pos
  rcases hstep with hshort | hroom | ⟨hempty, -⟩
  · simp at hshort
  · rw [hlength, length_cons, length_singleton] at hroom; omega
  · rw [hempty, length_nil] at hlength; omega

end Buffer

end Pmacs
