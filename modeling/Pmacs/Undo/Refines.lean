/-
  The buffer's undo bookkeeping keeps a history (buffer.rs).

  * `Tracks`: the stacks of a buffer, step for step, are those of a history, whatever is recorded
    of each op; one lemma for each function of the buffer.
  * `Call`: what tells a buffer of edits; `tracks_calls`: a history follows any run of calls.
-/
import Pmacs.Undo.History
import Pmacs.Buffer.Stacks

namespace Pmacs.Undo

open Lib AList List Option

variable {L : Loro} {R : Type}

/-- A group's edits, one for each op recorded. -/
def Group.Tracks (g : Group R) (g' : SourceGroup L) : Prop :=
  g.edits.length = g'.spans.length ∧ g.seqno = g'.seqno

structure Stacks.Tracks (s : Stacks R) (s' : SourceUndoStacks L) : Prop where
  groups : List.Forall₂ Group.Tracks s.groups s'.groups
  redo : List.Forall₂ Group.Tracks s.redo s'.redo
  openGroup : Option.Rel (fun edits g => edits.length = g.spans.length) s.openGroup s'.openGroup
  detached : s.detached = s'.detached

/-- A history keeps track of a buffer's stacks. -/
structure Tracks (h : History R) (b : Buffer L) : Prop where
  crdt : h.crdt = b.crdt.isSome
  undo : h.undo.map Entry.typed = b.undo.map UndoEntry.typed
  typedFloor : h.typedFloor = b.typedFloor
  keys : h.arbiter.keys = b.arbiter.keys
  sources : ∀ source, (h.stacksOf source).Tracks (b.stacksOf source)
  seq : h.arbiterSeq = b.arbiterSeq

namespace Tracks

variable {h : History R} {b : Buffer L}
  {gs : List (Group R)} {ops : List (RecordedOps L)} {gs' : List (SourceGroup L)}
  {edits : List R}

theorem undo_length (ht : Tracks h b) : h.undo.length = b.undo.length := by
  have := congrArg List.length ht.undo
  simpa using this

variable {s' : SourceUndoStacks L}

theorem setStacks (ht : Tracks h b) (source : UndoSource) {s : Stacks R} (hs : s.Tracks s') :
    Tracks (h.setStacks source s) (b.setStacks source s') where
  crdt := ht.crdt
  undo := ht.undo
  typedFloor := ht.typedFloor
  keys := by have hkeys := ht.keys; simp [History.setStacks, Buffer.setStacks, hkeys]
  sources j := by
    by_cases hj : j = source
    · subst hj
      simpa [History.setStacks, History.stacksOf, Buffer.setStacks, Buffer.stacksOf] using hs
    simpa [History.setStacks, History.stacksOf, Buffer.setStacks, Buffer.stacksOf, hj] using
      ht.sources j
  seq := ht.seq

theorem erase (ht : Tracks h b) (source : UndoSource) :
    Tracks { h with arbiter := h.arbiter.erase source }
      { b with arbiter := b.arbiter.erase source } where
  crdt := ht.crdt
  undo := ht.undo
  typedFloor := ht.typedFloor
  keys := by have hkeys := ht.keys; simp [hkeys]
  sources j := by
    by_cases hj : j = source
    · subst hj; rw [History.stacksOf, Buffer.stacksOf, lookup_erase, lookup_erase]
      exact ⟨.nil, .nil, .none, rfl⟩
    rw [History.stacksOf, Buffer.stacksOf, lookup_erase_ne hj, lookup_erase_ne hj]
    exact ht.sources j
  seq := ht.seq

theorem pushGroup (ht : Tracks h b) (source : UndoSource) {g : SourceGroup L}
    (hg : edits.length = g.spans.length) :
    Tracks (h.pushGroup source edits) (b.pushGroup source g) := by
  have hs := ht.sources source
  have hgroups : Stacks.Tracks { h.stacksOf source with
      groups := pushCapped undoHistoryLimit (h.stacksOf source).groups ⟨edits, (h.arbiterSeq + 1) % 2 ^ 64⟩ }
      { b.stacksOf source with
        groups := pushCapped undoHistoryLimit (b.stacksOf source).groups
          { g with seqno := Buffer.wrappingSucc b.arbiterSeq } } :=
    ⟨forall₂_pushCapped hs.groups ⟨hg, by rw [ht.seq]; rfl⟩, hs.redo, hs.openGroup, hs.detached⟩
  have hset := ht.setStacks source hgroups
  refine ⟨hset.crdt, hset.undo, hset.typedFloor, hset.keys, hset.sources, ?_⟩
  show (h.arbiterSeq + 1) % 2 ^ 64 = Buffer.wrappingSucc b.arbiterSeq
  rw [ht.seq]
  rfl

theorem lookup_none (ht : Tracks h b) (source : UndoSource) :
    h.arbiter.lookup source = none ↔ b.arbiter.lookup source = none := by
  rw [lookup_eq_none, lookup_eq_none]
  show source ∉ h.arbiter.keys ↔ source ∉ b.arbiter.keys
  rw [ht.keys]

theorem arbiterClose (ht : Tracks h b) (source : UndoSource) :
    Tracks (h.close source) (b.arbiterClose source) := by
  have hnone := ht.lookup_none source
  have hs := ht.sources source
  unfold History.close Buffer.arbiterClose
  cases hh : h.arbiter.lookup source with
  | none => rw [hnone.1 hh]; exact ht
  | some ss =>
    cases hb : b.arbiter.lookup source with
    | none => rw [hnone.2 hb] at hh; cases hh
    | some ss' =>
      rw [History.stacksOf, hh, Buffer.stacksOf, hb, getD_some, getD_some] at hs; dsimp only
      have hopen := hs.openGroup
      cases ho : ss.openGroup with
      | none =>
        rw [ho] at hopen
        cases ho' : ss'.openGroup with
        | none => exact ht
        | some g => rw [ho'] at hopen; cases hopen
      | some edits =>
        rw [ho] at hopen
        cases ho' : ss'.openGroup with
        | none => rw [ho'] at hopen; cases hopen
        | some g =>
          rw [ho'] at hopen; obtain ⟨hlength⟩ := hopen
          have hclosed : Stacks.Tracks { ss with openGroup := none }
              { ss' with openGroup := none } := ⟨hs.groups, hs.redo, .none, hs.detached⟩
          have hset := ht.setStacks source hclosed
          have hempty : edits.isEmpty = g.spans.isEmpty := by
            rw [Bool.eq_iff_iff, isEmpty_iff_length_eq_zero, isEmpty_iff_length_eq_zero, hlength]
          dsimp only; rw [hempty]
          split
          · exact hset
          · exact hset.pushGroup source hlength

theorem closeAll (ht : Tracks h b) (order : List UndoSource → List UndoSource) :
    Tracks (h.closeAll order) (b.closeAll order) := by
  have hall : ∀ (sources : List UndoSource) {h : History R} {b : Buffer L}, Tracks h b →
      Tracks (sources.foldl History.close h) (sources.foldl Buffer.arbiterClose b) := by
    intro sources
    induction sources with
    | nil => exact fun ht => ht
    | cons source sources ih => exact fun ht => ih (ht.arbiterClose source)
  rw [History.closeAll, Buffer.closeAll, ht.keys]
  exact hall _ ht

theorem arbiterTypedBegin (ht : Tracks h b) (source : UndoSource) (run limit : ℕ) :
    Tracks (h.typedBegin source run limit) (b.arbiterTypedBegin source run limit) := by
  unfold History.typedBegin Buffer.arbiterTypedBegin
  have hcrdt : (!h.crdt) = b.crdt.isNone := by rw [ht.crdt]; cases b.crdt <;> rfl
  rw [hcrdt]
  split
  · exact ⟨ht.crdt, ht.undo, by rw [ht.undo_length], ht.keys, ht.sources, ht.seq⟩
  have hclose : Tracks (if limit = 0 ∨ run % limit = 0 then h.close source else h)
      (if limit = 0 ∨ run % limit = 0 then b.arbiterClose source else b) := by
    split
    · exact ht.arbiterClose source
    · exact ht
  generalize (if limit = 0 ∨ run % limit = 0 then h.close source else h) = h₁ at hclose ⊢
  generalize (if limit = 0 ∨ run % limit = 0 then b.arbiterClose source else b) = b₁ at hclose ⊢
  have hs := hclose.sources source
  refine hclose.setStacks source ⟨hs.groups, hs.redo, ?_, hs.detached⟩; have hopen := hs.openGroup
  cases ho : (h₁.stacksOf source).openGroup <;> cases ho' : (b₁.stacksOf source).openGroup <;>
    rw [ho, ho'] at hopen
  · exact .some rfl
  · cases hopen
  · cases hopen
  · exact hopen

theorem addStep (ht : Tracks h b) (source : UndoSource) (hlength : edits.length = ops.length) :
    Tracks (h.addStep source edits) (b.addStep source ops) := by
  have hs := ht.sources source
  have hopen := hs.openGroup
  have hof : edits.length = (SourceGroup.of ops).spans.length := by
    rw [hlength, SourceGroup.of, length_map]
  unfold History.addStep Buffer.addStep
  dsimp only
  cases ho : (h.stacksOf source).openGroup <;> cases ho' : (b.stacksOf source).openGroup <;>
    rw [ho, ho'] at hopen
  · have hset := ht.setStacks source (⟨hs.groups, .nil, .none, hs.detached⟩ :
      Stacks.Tracks { h.stacksOf source with redo := [], openGroup := none }
        { b.stacksOf source with redo := [], openGroup := none })
    exact hset.pushGroup source hof
  · cases hopen
  · cases hopen
  obtain ⟨hopen⟩ := hopen
  refine ht.setStacks source ⟨hs.groups, .nil, .some ?_, hs.detached⟩
  rw [length_append, length_append, hopen, hof]

theorem absorb_length (g : SourceGroup L) (change : L.Diff) :
    (g.absorb change).spans.length = g.spans.length := by
  unfold SourceGroup.absorb
  cases hlast : g.spans.getLast? with
  | none => rfl
  | some last => obtain ⟨init, hspans⟩ := getLast?_eq_some_iff.1 hlast; simp [hspans]

def sizes (gs : List (SourceGroup L)) : List (ℕ × ℕ) := gs.map fun g => (g.spans.length, g.seqno)

theorem forall₂_iff_sizes : List.Forall₂ Group.Tracks gs gs' ↔
      gs.map (fun g => (g.edits.length, g.seqno)) = sizes gs' := by
  rw [sizes, ← forall₂_eq_eq_eq, forall₂_map_left_iff, forall₂_map_right_iff]
  simp only [Prod.mk.injEq]
  rfl

variable {change : L.Diff}

theorem absorbLast_sizes (gs : List (SourceGroup L)) :
    sizes (SourceUndoStacks.absorbLast gs change) = sizes gs := by
  unfold SourceUndoStacks.absorbLast
  cases hlast : gs.getLast? with
  | none => rfl
  | some top =>
    obtain ⟨init, rfl⟩ := getLast?_eq_some_iff.1 hlast
    have htop : (top.absorb change).seqno = top.seqno := rfl; simp [sizes, absorb_length, htop]

theorem absorbLast_tracks (hgs : List.Forall₂ Group.Tracks gs gs') :
    List.Forall₂ Group.Tracks gs (SourceUndoStacks.absorbLast gs' change) := by
  rw [forall₂_iff_sizes, absorbLast_sizes, ← forall₂_iff_sizes]
  exact hgs

theorem absorbBoth_tracks {s : Stacks R} (hs : s.Tracks s') :
    s.Tracks ((s'.absorbUndo change).absorbRedo change) := by
  have hopen := hs.openGroup
  unfold SourceUndoStacks.absorbUndo SourceUndoStacks.absorbRedo
  cases ho' : s'.openGroup with
  | none =>
    exact ⟨absorbLast_tracks hs.groups, absorbLast_tracks hs.redo,
      by simpa [ho'] using hopen, hs.detached⟩
  | some g =>
    rw [ho'] at hopen
    refine ⟨hs.groups, absorbLast_tracks hs.redo, ?_, hs.detached⟩
    cases ho : s.openGroup with
    | none => rw [ho] at hopen; cases hopen
    | some edits =>
      rw [ho] at hopen; obtain ⟨hlength⟩ := hopen; exact .some (by rw [absorb_length, hlength])

/-- What others change is composed into the groups; no group gains or loses a span. -/
theorem absorbForeign (ht : Tracks h b) (source : UndoSource) (change : L.Diff) :
    Tracks h (b.absorbForeign source change) where
  crdt := ht.crdt
  undo := ht.undo
  typedFloor := ht.typedFloor
  keys := by rw [ht.keys, Buffer.absorbForeign, Assoc.keys_mapVal]
  sources j := by
    have hs := ht.sources j; rw [Buffer.stacksOf] at hs ⊢
    rw [Buffer.absorbForeign, Assoc.lookup_mapVal]
    cases hb : b.arbiter.lookup j with
    | none => rwa [hb] at hs
    | some s' =>
      rw [hb, getD_some] at hs
      split
      · exact hs
      · exact absorbBoth_tracks hs
  seq := ht.seq

theorem arbiterRecord (ht : Tracks h b) (order : List UndoSource → List UndoSource)
    (source : UndoSource) (hlength : edits.length = ops.length) (change : L.Diff) :
    Tracks (h.record order source edits) (b.arbiterRecord order source ops change) := by
  have hempty : edits.isEmpty = ops.isEmpty := by
    rw [Bool.eq_iff_iff, isEmpty_iff_length_eq_zero, isEmpty_iff_length_eq_zero, hlength]
  unfold History.record Buffer.arbiterRecord
  rw [hempty]
  split
  · exact ht
  refine addStep ?_ source hlength
  split
  · exact (ht.absorbForeign source change).closeAll order
  · exact ht.absorbForeign source change

/-- An import that left `ops` to settle. -/
theorem arbiterSettleRemote (ht : Tracks h b) (order : List UndoSource → List UndoSource)
    (source : UndoSource) (run limit : ℕ) (typed : Bool)
    (hpending : b.pendingRemote = some (ops, change)) (hlength : edits.length = ops.length) :
    Tracks (h.settleRemote order source run limit typed edits)
      (b.arbiterSettleRemote order source run limit typed) := by
  have ht' : Tracks h { b with pendingRemote := none } :=
    ⟨ht.crdt, ht.undo, ht.typedFloor, ht.keys, ht.sources, ht.seq⟩
  unfold History.settleRemote Buffer.arbiterSettleRemote
  rw [hpending]
  refine arbiterRecord ?_ order source hlength change
  split
  · exact ht'.arbiterTypedBegin source run limit
  · exact ht'.arbiterClose source

theorem arbiterDetach (ht : Tracks h b) (source : UndoSource) :
    Tracks (h.detach source) (b.arbiterDetach source) := by
  have hclose := ht.arbiterClose source
  unfold History.detach Buffer.arbiterDetach
  dsimp only
  generalize h.close source = h₁ at hclose ⊢
  generalize b.arbiterClose source = b₁ at hclose ⊢
  have hnone := hclose.lookup_none source
  have hs := hclose.sources source
  cases hh : h₁.arbiter.lookup source with
  | none => rw [hnone.1 hh]; exact hclose
  | some ss =>
    cases hb : b₁.arbiter.lookup source with
    | none => rw [hnone.2 hb] at hh; cases hh
    | some ss' =>
      rw [History.stacksOf, hh, Buffer.stacksOf, hb, getD_some, getD_some] at hs
      have hempty : ss.groups.isEmpty = ss'.groups.isEmpty := by
        rw [Bool.eq_iff_iff, isEmpty_iff_length_eq_zero, isEmpty_iff_length_eq_zero,
          hs.groups.length_eq]
      dsimp only; rw [hempty]
      split
      · exact hclose.erase source
      · exact hclose.setStacks source ⟨hs.groups, .nil, hs.openGroup, rfl⟩

/-! ## The rope-only history -/

theorem collapseTypedCommand (ht : Tracks h b) :
    Tracks h.collapseTypedCommand b.collapseTypedCommand := by
  have hlength := ht.undo_length
  unfold History.collapseTypedCommand Buffer.collapseTypedCommand
  rw [ht.typedFloor]
  cases b.typedFloor with
  | none => exact ht
  | some floor =>
    dsimp only; rw [hlength]
    split
    case isTrue => exact ⟨ht.crdt, ht.undo, rfl, ht.keys, ht.sources, ht.seq⟩
    rename_i hfloor
    have hget : b.undo[floor]? = some b.undo[floor] := getElem?_eq_getElem (by omega); rw [hget]
    refine ⟨ht.crdt, ?_, rfl, ht.keys, ht.sources, ht.seq⟩
    simp only [map_append, map_take, ht.undo, map_cons, map_nil]

theorem commandCollapse (ht : Tracks h b) : Tracks h.commandCollapse b.commandCollapse := by
  unfold History.commandCollapse Buffer.commandCollapse
  rw [ht.crdt]
  split
  · exact ht
  · exact ht.collapseTypedCommand

variable {undo : List (Entry R)} {undo' : List UndoEntry}

/-- The typed flags of a history after its newest entries were rewritten. -/
theorem withUndo (ht : Tracks h b) (hundo : undo.map Entry.typed = undo'.map UndoEntry.typed) :
    Tracks { h with undo := undo } { b with undo := undo' } :=
  ⟨ht.crdt, hundo, ht.typedFloor, ht.keys, ht.sources, ht.seq⟩

/-- Two histories with the same flags end in entries with the same flag. -/
theorem typed_cases (hundo : undo.map Entry.typed = undo'.map UndoEntry.typed) :
    (undo = [] ∧ undo' = []) ∨ ∃ below top below' top',
      undo = below ++ [top] ∧ undo' = below' ++ [top'] ∧
      below.map Entry.typed = below'.map UndoEntry.typed ∧ top.typed = top'.typed := by
  rcases eq_nil_or_concat' undo with rfl | ⟨below, top, rfl⟩
  · left; rw [map_nil, eq_comm, map_eq_nil_iff] at hundo; exact ⟨rfl, hundo⟩
  right
  rcases eq_nil_or_concat' undo' with rfl | ⟨below', top', rfl⟩
  · simp at hundo
  rw [map_append, map_append] at hundo; obtain ⟨hbelow, htop⟩ := append_inj' hundo rfl
  simp only [map_cons, map_nil, cons.injEq, and_true] at htop
  exact ⟨below, top, below', top', rfl, rfl, hbelow, htop⟩

theorem typed_concat {below : List (Entry R)} {below' : List UndoEntry}
    (hbelow : below.map Entry.typed = below'.map UndoEntry.typed) (top : Entry R)
    (top' : UndoEntry) (htop : top.typed = top'.typed) :
    (below ++ [top]).map Entry.typed = (below' ++ [top']).map UndoEntry.typed := by
  simp [hbelow, htop]

theorem noteTypedEdit (ht : Tracks h b) (merge : Bool) :
    Tracks (h.noteTypedEdit merge) (b.noteTypedEdit merge).2 := by
  have hcollapse := ht.collapseTypedCommand
  unfold History.noteTypedEdit Buffer.noteTypedEdit
  rw [ht.crdt]
  split
  · exact ht
  dsimp only; generalize h.collapseTypedCommand = h₁ at hcollapse ⊢
  generalize b.collapseTypedCommand = b₁ at hcollapse ⊢
  rcases typed_cases hcollapse.undo with ⟨hh, hb⟩ | ⟨below, top, below', top', hh, hb, hbelow, -⟩
  · rw [hh, hb]; exact hcollapse
  rw [hh, hb, getLast?_concat, getLast?_concat, dropLast_concat, dropLast_concat]
  dsimp only
  have hmarked := hcollapse.withUndo (typed_concat hbelow (⟨top.edits, true⟩ : Entry R)
    ⟨top'.rope, top'.edit, true⟩ rfl)
  split
  · exact hmarked
  rcases typed_cases hbelow with ⟨rfl, rfl⟩ | ⟨rest, prev, rest', prev', rfl, rfl, hrest, hprev⟩
  · exact hmarked
  rw [getLast?_concat, getLast?_concat, dropLast_concat, dropLast_concat]
  dsimp only; rw [hprev]
  split
  · exact hmarked
  · exact hcollapse.withUndo (typed_concat hrest _ _ rfl)

theorem pushUndo (ht : Tracks h b) (edit : R) (rope : WfRope) (ed : EditDescription) :
    Tracks (h.pushEntry edit) (b.pushUndo ⟨rope, ed, false⟩) := by
  unfold History.pushEntry Buffer.pushUndo pushCapped
  refine ⟨ht.crdt, ?_, ht.typedFloor, ht.keys, ht.sources, ht.seq⟩
  rw [← ht.undo_length]
  split <;> simp [ht.undo]

/-! ## Runs -/

/-- What tells a buffer of edits that landed, each op with what is recorded of it; the ops of a
    remote import were left on the buffer before it is settled. -/
inductive Call (L : Loro) (R : Type) where
  | pushUndo (edit : R) (rope : WfRope) (ed : EditDescription)
  | record (order : List UndoSource → List UndoSource) (source : UndoSource)
    (ops : List (R × RecordedOps L)) (change : L.Diff)
  | settleRemote (order : List UndoSource → List UndoSource) (source : UndoSource)
    (run limit : ℕ) (typed : Bool) (ops : List (R × RecordedOps L)) (change : L.Diff)
  | typedBegin (source : UndoSource) (run limit : ℕ)
  | close (source : UndoSource)
  | detach (source : UndoSource)
  | noteTypedEdit (fuse : Bool)
  | commandCollapse

def Call.onHistory (h : History R) : Call L R → History R
  | pushUndo edit _ _ => h.pushEntry edit
  | record order source ops _ => h.record order source (ops.map Prod.fst)
  | settleRemote order source run limit typed ops _ =>
    h.settleRemote order source run limit typed (ops.map Prod.fst)
  | typedBegin source run limit => h.typedBegin source run limit
  | close source => h.close source
  | detach source => h.detach source
  | noteTypedEdit fuse => h.noteTypedEdit fuse
  | commandCollapse => h.commandCollapse

def Call.onBuffer (b : Buffer L) : Call L R → Buffer L
  | pushUndo _ rope ed => b.pushUndo ⟨rope, ed, false⟩
  | record order source ops change => b.arbiterRecord order source (ops.map Prod.snd) change
  | settleRemote order source run limit typed ops change =>
    { b with pendingRemote := some (ops.map Prod.snd, change) }.arbiterSettleRemote
      order source run limit typed
  | typedBegin source run limit => b.arbiterTypedBegin source run limit
  | close source => b.arbiterClose source
  | detach source => b.arbiterDetach source
  | noteTypedEdit fuse => (b.noteTypedEdit fuse).2
  | commandCollapse => b.commandCollapse

theorem call (ht : Tracks h b) (c : Call L R) : Tracks (c.onHistory h) (c.onBuffer b) := by
  cases c with
  | pushUndo edit rope ed => exact ht.pushUndo edit rope ed
  | record order source ops change =>
    exact ht.arbiterRecord order source (by rw [length_map, length_map]) change
  | settleRemote order source run limit typed ops change =>
    have ht' : Tracks h { b with pendingRemote := some (ops.map Prod.snd, change) } :=
      ⟨ht.crdt, ht.undo, ht.typedFloor, ht.keys, ht.sources, ht.seq⟩
    exact ht'.arbiterSettleRemote order source run limit typed rfl
      (by rw [length_map, length_map])
  | typedBegin source run limit => exact ht.arbiterTypedBegin source run limit
  | close source => exact ht.arbiterClose source
  | detach source => exact ht.arbiterDetach source
  | noteTypedEdit fuse => exact ht.noteTypedEdit fuse
  | commandCollapse => exact ht.commandCollapse

/-- **A history follows its buffer**, from a new one on, through any run of such calls. -/
theorem tracks_calls (id : ℕ) (name : String) (rope : WfRope) (doc : Option L.Doc)
    (calls : List (Call L R)) :
    Tracks (calls.foldl Call.onHistory (.new doc.isSome))
      (calls.foldl Call.onBuffer { Buffer.fromRope L id name rope with crdt := doc }) := by
  have hnew : Tracks (History.new doc.isSome : History R)
      { Buffer.fromRope L id name rope with crdt := doc } :=
    ⟨rfl, rfl, rfl, rfl, fun _ => ⟨.nil, .nil, .none, rfl⟩, rfl⟩
  generalize (History.new doc.isSome : History R) = h at hnew ⊢
  generalize ({ Buffer.fromRope L id name rope with crdt := doc } : Buffer L) = b at hnew ⊢
  induction calls generalizing h b with
  | nil => exact hnew
  | cons c calls ih => exact ih _ _ (hnew.call c)

end Tracks

end Pmacs.Undo
