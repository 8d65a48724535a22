/-
  The rope and the CRDT document of a buffer hold the same text.

  * `Singles`: no run is open and every group is one span at most, as it is when no
    typed run is begun and no import is settled;
  * `Agrees`: the rope's bytes are those of the document's text;
  * `run_agrees`: it holds in every run of edits, imports, undos and redos in which
    no replacement that only the document takes reaches it.
-/
import Pmacs.Buffer.Exact
import Pmacs.Buffer.Groups
import Pmacs.Buffer.Mirror
import Pmacs.Buffer.Stacks

namespace Pmacs

open Lib Function List Option Utf8 SourceGroup

variable {L : Loro}

namespace Buffer

variable {b b' : Buffer L} {op : EditOp} {d : L.Doc} {g : SourceGroup L} {s : SourceUndoStacks L}

/-! ## Single spans -/

/-- No open run, and groups of one span at most. -/
structure SingleStacks (s : SourceUndoStacks L) : Prop where
  openGroup : s.openGroup = none
  groups : ∀ g ∈ s.groups, g.spans.length ≤ 1
  redo : ∀ g ∈ s.redo, g.spans.length ≤ 1

/-- The stacks of every source are single. -/
def Singles (b : Buffer L) : Prop := ∀ source, SingleStacks (b.stacksOf source)

theorem SingleStacks.default : SingleStacks (.default : SourceUndoStacks L) :=
  { openGroup := rfl
    groups := nofun
    redo := fun _ h => nomatch h }

theorem Singles.of_arbiter_eq (h : Singles b) (harbiter : b'.arbiter = b.arbiter) : Singles b' := by
  intro source
  rw [stacksOf, harbiter]
  exact h source

theorem Singles.setStacks (h : Singles b) (source : UndoSource) (hs : SingleStacks s) : Singles
    (b.setStacks source s) := by
  intro other
  by_cases hother : other = source
  · subst hother; rw [stacksOf_setStacks_self]; exact hs
  · rw [stacksOf_setStacks_of_ne s hother]; exact h other

theorem Singles.mapVal {f : UndoSource → SourceUndoStacks L → SourceUndoStacks L}
    (h : Singles b) (harbiter : b'.arbiter = Assoc.mapVal f b.arbiter)
    (hf : ∀ source s, SingleStacks s → SingleStacks (f source s)) : Singles b' := by
  intro source
  have hsource := h source
  rw [stacksOf] at hsource ⊢
  rw [harbiter, Assoc.lookup_mapVal]
  cases hl : b.arbiter.lookup source with
  | none => exact .default
  | some s => rw [hl] at hsource; exact hf source s hsource

theorem Singles.sweepDeparted (h : Singles b) : Singles b.sweepDeparted := by
  intro source
  have hsource := h source
  rw [stacksOf] at hsource ⊢
  rw [Buffer.sweepDeparted, Assoc.lookup_retain]
  cases hl : b.arbiter.lookup source with
  | none => exact .default
  | some s =>
    rw [hl] at hsource; rw [Option.filter]
    split_ifs
    · exact hsource
    · exact .default

variable {gs : List (SourceGroup L)}

theorem absorbLast_single (h : ∀ g ∈ gs, g.spans.length ≤ 1)
    {change : L.Diff} : ∀ g ∈ SourceUndoStacks.absorbLast gs change, g.spans.length ≤ 1 := by
  intro g hg
  have hrecord : g.record ∈ records (SourceUndoStacks.absorbLast gs change) := by
    exact mem_map_of_mem (mem_reverse.2 hg)
  rw [absorbLast_records] at hrecord
  obtain ⟨g', hg', heq⟩ := mem_map.1 hrecord
  have hlength := congrArg (List.length ∘ Prod.snd) heq
  simp only [comp_apply, record, length_map] at hlength
  rw [← hlength]
  exact h g' (mem_reverse.1 hg')

theorem SingleStacks.absorbUndo (h : SingleStacks s) (change : L.Diff) :
    SingleStacks (s.absorbUndo change) := by
  rw [SourceUndoStacks.absorbUndo]
  split
  · rename_i g hg; rw [h.openGroup] at hg; cases hg
  · exact ⟨h.openGroup, absorbLast_single h.groups, h.redo⟩

theorem SingleStacks.absorbRedo (h : SingleStacks s) (change : L.Diff) :
    SingleStacks (s.absorbRedo change) :=
  ⟨h.openGroup, h.groups, absorbLast_single h.redo⟩

theorem SingleStacks.absorbStep (h : SingleStacks s) (step : HistoryStep)
    (change : L.Diff) : SingleStacks (s.absorbStep step change) := by
  cases step with
  | undo => exact h.absorbUndo change
  | redo => exact h.absorbRedo change

theorem SingleStacks.dropTop (h : SingleStacks s) (step : HistoryStep) :
    SingleStacks (s.dropTop step) := by
  cases step with
  | undo => exact ⟨h.openGroup, fun g hg => h.groups g (dropLast_subset _ hg), h.redo⟩
  | redo => exact ⟨h.openGroup, h.groups, fun g hg => h.redo g (dropLast_subset _ hg)⟩

theorem pushCapped_single (h : ∀ g ∈ gs, g.spans.length ≤ 1) (hg : g.spans.length ≤ 1) :
    ∀ g' ∈ pushCapped undoHistoryLimit gs g, g'.spans.length ≤ 1 := by
  intro g' hg'
  rcases mem_pushCapped hg' with hg' | rfl
  · exact h g' hg'
  · exact hg

theorem Singles.pushGroup (h : Singles b) (source : UndoSource)
    (hg : g.spans.length ≤ 1) : Singles (b.pushGroup source g) := by
  have hs := h source
  have hset : Singles (b.setStacks source { b.stacksOf source with
      groups := pushCapped undoHistoryLimit (b.stacksOf source).groups
        { g with seqno := wrappingSucc b.arbiterSeq } }) :=
    h.setStacks source ⟨hs.openGroup, pushCapped_single hs.groups hg, hs.redo⟩
  exact hset.of_arbiter_eq rfl

theorem Singles.pushCompensation (h : Singles b) (source : UndoSource)
    (step : HistoryStep) (hg : g.spans.length ≤ 1) :
    Singles (b.pushCompensation source step g) := by
  have hs := h source
  cases step with
  | undo => exact h.setStacks source ⟨hs.openGroup, hs.groups, pushCapped_single hs.redo hg⟩
  | redo => exact h.pushGroup source hg

variable {source : UndoSource}

theorem Singles.arbiterClose_eq (h : Singles b) : b.arbiterClose source = b := by
  rw [arbiterClose]
  split
  · rfl
  rename_i ss hss; have hopen := (h source).openGroup; rw [stacksOf_eq_of_lookup hss] at hopen
  rw [hopen]

theorem Singles.closeAll_eq (h : Singles b) (sources : List UndoSource) :
    sources.foldl arbiterClose b = b := by
  induction sources with
  | nil => rfl
  | cons source sources ih => rw [foldl_cons, h.arbiterClose_eq]; exact ih

theorem Singles.closeOwnRun_eq (h : Singles b) : b.closeOwnRun source = b := by
  cases source with
  | daemon => rfl
  | frontend id => exact h.arbiterClose_eq

variable {ops : List (RecordedOps L)}

theorem Singles.addStep (h : Singles b) (source : UndoSource)
    (hops : ops.length ≤ 1) : Singles (b.addStep source ops) := by
  have hs := h source
  have hset : Singles (b.setStacks source { b.stacksOf source with redo := [] }) :=
    h.setStacks source
      { hs with
        redo := fun _ hg => nomatch hg }
  simp only [Buffer.addStep]
  split
  · rename_i group hgroup; rw [hs.openGroup] at hgroup; cases hgroup
  · refine hset.pushGroup source ?_; rw [of, length_map]; exact hops

theorem Singles.arbiterRecord (h : Singles b)
    (order : List UndoSource → List UndoSource) (source : UndoSource)
    (hops : ops.length ≤ 1) (change : L.Diff) :
    Singles (b.arbiterRecord order source ops change) := by
  have harbiter : (b.absorbForeign source change).arbiter = Assoc.mapVal (fun other s =>
      if other = source then s else (s.absorbUndo change).absorbRedo change) b.arbiter := rfl
  have habsorb : Singles (b.absorbForeign source change) := by
    refine h.mapVal harbiter ?_; intro other s hs
    split_ifs
    · exact hs
    · exact (hs.absorbUndo change).absorbRedo change
  simp only [Buffer.arbiterRecord]
  split_ifs
  · exact h
  · rw [closeAll, habsorb.closeAll_eq]; exact habsorb.addStep source hops
  · exact habsorb.addStep source hops

theorem Singles.absorbCompensation (h : Singles b) (source from_ : UndoSource)
    (step : HistoryStep) (change : L.Diff) :
    Singles (b.absorbCompensation source from_ step change) := by
  refine h.mapVal (absorbCompensation_arbiter b source from_ step change) ?_
  intro other s hs
  dsimp only
  split_ifs
  · exact (hs.absorbUndo change).absorbRedo change
  · exact hs.absorbRedo change
  · exact hs.absorbUndo change
  · exact hs

/-! ## Agreement -/

/-- The rope's bytes are those of the document's text. -/
def Agrees (b : Buffer L) : Prop :=
  ∃ d, b.crdt = some d ∧ b.rope.bytes = Utf8.encode (L.text d)

theorem Agrees.of_eq (h : b.Agrees) (hrope : b'.rope = b.rope)
    (hcrdt : b'.crdt = b.crdt) : b'.Agrees := by
  obtain ⟨d, hd, hbytes⟩ := h
  exact ⟨d, hcrdt.trans hd, by rw [hrope, hbytes]⟩

theorem OnlyArbiter.agrees (h : OnlyArbiter b b') (hb : b.Agrees) : b'.Agrees := by
  rw [h]
  exact hb.of_eq rfl rfl

/-- What a loop of pops leaves: the text as it was, or a compensation that evolved the
    document it started from. -/
theorem popUntilProduces_agrees (hL : L.Laws) (d₀ : L.Doc) (from_ : UndoSource)
    (step : HistoryStep) :
    ∀ (n : ℕ) (popped : List (UndoSource × SourceGroup L)) (b : Buffer L) (d : L.Doc),
      Singles b → b.crdt = some d → L.Evolves d₀ d → L.text d = L.text d₀ →
        Singles (popUntilProduces from_ step (L.oplogVv d₀) n popped b d).buffer ∧
          match (popUntilProduces from_ step (L.oplogVv d₀) n popped b d).result with
          | .error _ => ∃ d',
            (popUntilProduces from_ step (L.oplogVv d₀) n popped b d).buffer.crdt = some d' ∧
              L.text d' = L.text d₀
          | .ok (_, produced, _) => produced.length ≤ 1
  | 0, popped, b, d, hb, hd, hevolves, htext => ⟨hb, d, hd, htext⟩
  | n + 1, popped, b, d, hb, hd, hevolves, htext => by
    have hdropped : Singles (b.setStacks from_ ((b.stacksOf from_).dropTop step)) :=
      hb.setStacks from_ ((hb from_).dropTop step)
    rw [popUntilProduces]
    split
    · exact ⟨hb, d, hd, htext⟩
    rename_i group hgroup
    have hsingle : group.spans.length ≤ 1 := by
      have hmem := mem_of_getLast? hgroup
      cases step with
      | undo => exact (hb from_).groups group hmem
      | redo => exact (hb from_).redo group hmem
    cases hundo : Crdt.capture group.undoAgainst d with
    | error e d' =>
      have hsame := undoAgainst_atomic hL hsingle d e d' (Crdt.capture_error hundo)
      exact ⟨hdropped.of_arbiter_eq rfl, d', rfl, hsame.trans htext⟩
    | ok res d' =>
      obtain ⟨carried, change⟩ := res
      have hevolves' : L.Evolves d₀ d' :=
        hevolves.trans ((Crdt.capture_local group.undoAgainst_local).of_ok hundo)
      have habsorbed := hdropped.setStacks from_ ((hdropped from_).absorbStep step carried)
      dsimp only
      split_ifs with hproduced
      · refine popUntilProduces_agrees hL d₀ from_ step n _ _ d' (habsorbed.of_arbiter_eq rfl) rfl
          hevolves' ?_
        rcases undoSpans_pending hL (Crdt.capture_ok hundo).1 with rfl | hpending
        · exact htext
        · exact Crdt.text_of_no_spans hL hevolves' hpending (List.isEmpty_iff.1 hproduced)
      · exact ⟨habsorbed.of_arbiter_eq rfl, Crdt.length_spansSince_le hL hevolves'⟩

variable {views : List (View (Buffer L))}

/-- A compensation leaves rope and document in agreement, whether it succeeds or not. -/
theorem compensate_agrees (hL : L.Laws) (hb : Singles b) (hagrees : b.Agrees) (hd : b.crdt = some d) {from_ : UndoSource} {step : HistoryStep} :
    Singles (b.compensate d views source from_ step).buffer ∧
      (b.compensate d views source from_ step).buffer.Agrees := by
  have hkeeps := (popUntilProduces_only from_ step (L.oplogVv d)
    ((b.stacksOf from_).stack step).length [] b d (by rw [hd]; rfl)).keeps
  obtain ⟨hsingles, hloop⟩ := popUntilProduces_agrees hL d from_ step
    ((b.stacksOf from_).stack step).length [] b d hb hd .refl rfl
  simp only [compensate]
  generalize popUntilProduces from_ step (L.oplogVv d) ((b.stacksOf from_).stack step).length [] b d
    = loop at *
  split
  · rename_i e herror; rw [herror] at hloop; obtain ⟨d', hd', htext⟩ := hloop
    refine ⟨hsingles, d', hd', ?_⟩; obtain ⟨d₀, hd₀, hbytes⟩ := hagrees; cases hd.symm.trans hd₀
    rw [hkeeps.rope, hbytes, htext]
  rename_i d' produced change hok; rw [hok] at hloop
  have hpushed := (hsingles.absorbCompensation source from_ step change).pushCompensation source
    step (g := .of (produced.map .span)) (by
      simp only [of, length_map]; exact hloop)
  obtain ⟨wire, d'', hexport, htext⟩ := hL.export_ok (L.oplogVv d) d'
  simp only [exportUpdatesSince, hexport]
  refine ⟨hpushed.of_arbiter_eq rfl, d'', rfl, ?_⟩; rw [htext]; exact WfRope.bytes_fromBytes

theorem undoArbiter_agrees (hL : L.Laws) (hb : Singles b) (hagrees : b.Agrees)
    (hd : b.crdt = some d) :
    Singles (b.undoArbiter d views source).buffer ∧ (b.undoArbiter d views source).buffer.Agrees := by
  simp only [undoArbiter, hb.closeOwnRun_eq]
  obtain ⟨hsingles, hcompensated⟩ :=
    compensate_agrees hL hb hagrees hd
  exact ⟨hsingles.sweepDeparted, (sweepDeparted_only _).agrees hcompensated⟩

/-! ## Forward edits -/

theorem insertLossy_local (pos : ℕ) (bytes : Bytes) : Local (L := L) (insertLossy pos bytes) :=
  .bind (orReject_local (Crdt.insert_local)) fun _ => .pure _

theorem routeOps_local {op : EditOp} : Local (L := L) (routeOps op) := by
  cases op with
  | insert pos bytes =>
    rw [routeOps]
    split_ifs
    · exact .pure _
    · exact Local.map _ (insertLossy_local pos bytes)
  | delete range =>
    rw [routeOps]
    split_ifs
    · exact .pure _
    · exact .bind (orReject_local (Crdt.delete_local _)) fun _ => .pure _
  | replace range bytes =>
    refine .bind ?_ fun _ => ?_
    · split_ifs
      · exact .pure _
      · exact orReject_local (Crdt.delete_local _)
    split_ifs
    · exact .pure _
    · exact Local.map _ (insertLossy_local _ bytes)

theorem exportUpdatesSince_local {v : VersionVector} : Local (L := L) (exportUpdatesSince v) := by
  intro d
  have hd : L.Evolves d (Loro.after (L.exportUpdates v) d) := .exportUpdates v .refl
  rw [Loro.after] at hd ⊢
  rw [exportUpdatesSince]
  cases h : L.exportUpdates v d with
  | ok | error => rwa [h] at hd

theorem routeToCrdt_local (op : EditOp) (v : VersionVector) : Local (L := L)
    (routeToCrdt op v) := by
  refine .bind (routeOps_local) fun routed => ?_
  cases routed with
  | none => exact .pure _
  | some normalized => exact .bind (exportUpdatesSince_local) fun _ => .pure _

/-- What an operation does to the document: on its characters a splice of its text, in one span,
    and off them nothing. -/
theorem applyToCrdt_spec (hL : L.Laws) (d : L.Doc) (hop : isNoOpEdit op = false)
    (hrange : op.InRange) : (∃ u v routed d', applyToCrdtThenNormalizeBytes op d = .ok routed d' ∧
        Splices d d' op u v routed.normalized ∧ routed.spans.length ≤ 1) ∨
      (¬ op.OnBoundaries (encode (L.text d)) ∧
        ∃ e, applyToCrdtThenNormalizeBytes op d = .error e d) := by
  have hlocal := Crdt.capture_local (routeToCrdt_local (L := L) op (L.oplogVv d))
  rw [applyToCrdtThenNormalizeBytes]
  rcases routeOps_spec hL d hop hrange with
    ⟨u, v, normalized, d₁, hd₁, hsplices⟩ | ⟨hout, e, he⟩
  · obtain ⟨wire, d', hexport, htext⟩ := hL.export_ok (L.oplogVv d) d₁
    have hcapture : Crdt.capture (routeToCrdt op (L.oplogVv d)) d =
        .ok (some (normalized, wire), L.captured d d') d' := by
      simp only [Crdt.capture, routeToCrdt, Bind.bind, EStateM.bind, hd₁, exportUpdatesSince,
        hexport, Pure.pure, EStateM.pure]
    rw [hcapture]
    exact .inl ⟨u, v, _, d', rfl, { hsplices with text := htext.trans hsplices.text },
      Crdt.length_spansSince_le hL (hlocal.of_ok hcapture)⟩
  have hcapture : Crdt.capture (routeToCrdt op (L.oplogVv d)) d = .error e d := by
    simp only [Crdt.capture, routeToCrdt, Bind.bind, EStateM.bind, he]
  rw [hcapture]; exact .inr ⟨hout, e, rfl⟩

variable {order : List UndoSource → List UndoSource}

/-- The rope's half of an edit, after the document's: `d` is the document before it. -/
theorem runRopeEdit_agrees (hb : Singles b) {d' : L.Doc}
    (hd' : b.crdt = some d') (hbytes : b.rope.bytes = encode (L.text d)) {routed : Routed L} (hspans : routed.spans.length ≤ 1)
    (hmirrors : Mirrors d d' (withBytes routed.normalized op)) :
    Singles (b.runRopeEdit views order op source routed).buffer ∧
      (b.runRopeEdit views order op source routed).buffer.Agrees := by
  have hrope := hmirrors b.rope hbytes
  rw [runRopeEdit]
  cases hed : editRope b.rope (withBytes routed.normalized op) with
  | error e =>
    rw [hed] at hrope
    refine ⟨hb, d', hd', ?_⟩; rw [hrope]; exact hbytes
  | ok ed =>
    rw [hed] at hrope; simp only [landEdit]
    split_ifs with hnothing hcrdt
    · -- the rope is not swapped, and holds what it would have
      rw [Bool.and_eq_true, beq_iff_eq] at hnothing
      have hsame : ed.newRope = b.rope := editRope_same hed hnothing.1 hnothing.2
      have hnew : ed.newRope.bytes = encode (L.text d') := hrope; rw [hsame] at hnew
      exact ⟨hb, d', hd', hnew⟩
    · have hlanded : Singles
          ({ b with rope := ed.newRope }.adjustMarksForEdit ed.range ed.insertedLen) :=
        hb.of_arbiter_eq rfl
      have hops : (routed.spans.map RecordedOps.span : List (RecordedOps L)).length ≤ 1 := by
        rw [length_map]; exact hspans
      have hrecorded := hlanded.arbiterRecord order source hops routed.change
      have hagrees : Agrees
          ({ b with rope := ed.newRope }.adjustMarksForEdit ed.range ed.insertedLen) :=
        ⟨d', hd', hrope⟩
      have honly := arbiterRecord_only
        ({ b with rope := ed.newRope }.adjustMarksForEdit ed.range ed.insertedLen) order source
        (routed.spans.map .span) routed.change
      exact ⟨hrecorded.of_arbiter_eq rfl, (honly.agrees hagrees).of_eq rfl rfl⟩
    · rw [hd'] at hcrdt; exact absurd rfl hcrdt

theorem runRopeEditAndBroadcast_agrees (hL : L.Laws) (hb : Singles b) (hagrees : b.Agrees)
    (hrange : op.InRange) (hordered : op.Ordered b.bytes) :
    Singles (b.runRopeEditAndBroadcast views order op source).buffer ∧
      (b.runRopeEditAndBroadcast views order op source).buffer.Agrees := by
  obtain ⟨d, hd, hbytes⟩ := hagrees
  rw [runRopeEditAndBroadcast, hd]
  cases hop : isNoOpEdit op with
  | true =>
    have hspans : (Routed.none : Routed L).spans.length ≤ 1 := Nat.zero_le 1
    have hmirrors : Mirrors d d (withBytes (Routed.none : Routed L).normalized op) :=
      noOp_mirrors hop
    exact runRopeEdit_agrees hb hd hbytes hspans hmirrors
  | false =>
    rw [bytes, hbytes] at hordered; dsimp only
    rcases applyToCrdt_spec hL d hop hrange with
      ⟨u, v, routed, d', hrouted, hsplices, hspans⟩ | ⟨_, e, herr⟩
    · rw [hrouted]; have hcrdt : Singles { b with crdt := some d' } := hb.of_arbiter_eq rfl
      exact runRopeEdit_agrees hcrdt rfl hbytes hspans
        (hsplices.mirrors hordered)
    · rw [herr]; exact ⟨hb.of_arbiter_eq rfl, d, rfl, hbytes⟩

/-! ## Imports -/

theorem map_some_ne {ε α : Type} (x : Except ε α) : x.map some ≠ .ok none := by
  cases x with
  | ok | error => exact nofun

/-- An import that the library takes: the rope becomes the document's text, and no edit is
    returned exactly where the text did not change. -/
theorem applyRemoteCrdtOp_imported (hL : L.Laws) {d' : L.Doc} {op : Bytes}
    {deltas : List (List TextDelta)} {change : L.Diff} (hwritable : b.readOnly = false)
    (hidle : b.editingInProgress = false) (hcrdt : b.crdt = some d)
    (hrope : b.bytes = encode (L.text d))
    (himport : Crdt.capture (Crdt.importUpdatesWithTextDeltas op) d = .ok (deltas, change) d')
    (hdeltas : applyDeltas deltas (L.text d) = some (L.text d')) (views : List (View (Buffer L))) :
    ∃ out, b.applyRemoteCrdtOp views op = some out ∧ out.buffer.crdt = some d' ∧
      out.buffer.bytes = encode (L.text d') ∧
      (out.result = .ok none ↔ L.text d' = L.text d) := by
  obtain ⟨edit, hedit, hmirrors, hnone⟩ := remoteEdit_spec hL hdeltas
  have hopen : remoteEdit ({ b with crdt := some d' } : Buffer L).bytes d' deltas = some edit := by
    rw [← hedit, ← hrope]; rfl
  rw [applyRemoteCrdtOp, if_neg (by rw [hwritable]; exact Bool.false_ne_true),
    if_neg (by rw [hidle]; exact Bool.false_ne_true)]
  simp only [hcrdt, himport, hopen]
  cases edit with
  | none =>
    refine ⟨_, rfl, rfl, ?_, fun _ => hnone.1 rfl, fun _ => rfl⟩; rw [hnone.1 rfl]; exact hrope
  | some edit =>
    obtain ⟨range, inserted⟩ := edit; obtain ⟨hle, hstop, hsplice⟩ := hmirrors
    refine ⟨_, rfl, ?_⟩; simp only [runRemoteRopeStages, Outcome.mapResult]
    rcases b.rope.replace_spec range.start range.stop inserted with
      ⟨_, _, ed, hed, hsp⟩ | ⟨hout, _⟩
    · rw [hed]
      refine ⟨rfl, ?_, ?_⟩
      · rw [← hsplice, ← hrope]; exact hsp.bytes
      constructor
      · intro hresult
        -- a view that fails is an error, not none
        exact absurd hresult (map_some_ne _)
      · intro htext; cases hnone.2 htext
    · rw [show b.rope.bytes = _ from hrope] at hout; omega

/-- An import does not panic, and leaves rope and document in agreement. -/
theorem applyRemoteCrdtOp_agrees (hL : L.Laws) (hagrees : b.Agrees)
    (views : List (View (Buffer L))) (op : Bytes) :
    ∃ out, b.applyRemoteCrdtOp views op = some out ∧ out.buffer.Agrees := by
  obtain ⟨d, hd, hbytes⟩ := hagrees
  have hb : b.Agrees := ⟨d, hd, hbytes⟩
  by_cases hro : b.readOnly = true
  · rw [applyRemoteCrdtOp, if_pos hro]; exact ⟨_, rfl, hb⟩
  by_cases hbusy : b.editingInProgress = true
  · rw [applyRemoteCrdtOp, if_neg hro, if_pos hbusy]; exact ⟨_, rfl, hb⟩
  cases himport : Crdt.capture (Crdt.importUpdatesWithTextDeltas op) d with
  | error e d' =>
    rw [applyRemoteCrdtOp, if_neg hro, if_neg hbusy]; simp only [hd, himport]
    refine ⟨_, rfl, d', rfl, ?_⟩
    have htext : L.text d' = L.text d := by
      have h := Crdt.capture_error himport; rw [Crdt.importUpdatesWithTextDeltas] at h
      split at h
      · cases h
      · rename_i himport'; cases h; exact hL.import_error _ _ _ _ himport'
    rw [htext]; exact hbytes
  | ok res d' =>
    obtain ⟨deltas, change⟩ := res
    have hdeltas : applyDeltas deltas (L.text d) = some (L.text d') := by
      have h := (Crdt.capture_ok himport).1; rw [Crdt.importUpdatesWithTextDeltas] at h
      split at h
      · rename_i himport'; cases h; rw [applyDeltas_filter]
        exact hL.import_ok _ _ _ _ himport'
      · cases h
    obtain ⟨out, hout, hcrdt, hrope, -⟩ := applyRemoteCrdtOp_imported hL (by simpa using hro)
      (by simpa using hbusy) hd hbytes himport hdeltas views
    exact ⟨out, hout, d', hcrdt, hrope⟩

/-! ## Runs -/

/-- The operation that a forward edit brings to the document and the rope: none when the
    call stops before. -/
def reaching (b : Buffer L) : Call L → Option EditOp
  | .applyEditAs views _ _ op =>
    if b.readOnly || b.editingInProgress then none
    else
      match intercept b.interceptContext views op with
      | .ok op => some op
      | .error _ => none
  | .applyEditSkipInterceptsAs _ _ _ op => if b.readOnly then none else some op
  | _ => none

end Buffer

/-- An edit, an import, an undo or a redo. -/
def Call.IsText : Call L → Prop
  | .applyEditAs _ _ _ _ => True
  | .applyEditSkipInterceptsAs _ _ _ _ => True
  | .applyRemoteCrdtOp _ _ => True
  | .undoFor _ _ => True
  | .redoFor _ _ => True
  | _ => False

namespace Buffer

/-- The calls on text whose edit is not a replacement that only the document takes. -/
structure OrderedCall (b : Buffer L) (c : Call L) : Prop where
  isText : c.IsText
  inRange : ∀ op ∈ b.reaching c, op.InRange
  ordered : ∀ op ∈ b.reaching c, op.Ordered b.bytes

theorem perform_agrees (hL : L.Laws) (hb : Singles b) (hagrees : b.Agrees)
    {c : Call L} (hc : OrderedCall b c) {out : Outcome L (Option (Edit WfRope))}
    (hout : b.perform c = some out) : Singles out.buffer ∧ out.buffer.Agrees := by
  obtain ⟨htext, hrange, hordered⟩ := hc
  cases c with
  | applyEditAs views order source op =>
    cases hout; simp only [Outcome.mapResult, applyEditAs]
    split_ifs with hreadOnly hediting
    · exact ⟨hb, hagrees⟩
    · exact ⟨hb, hagrees⟩
    cases hcurrent : intercept b.interceptContext views op with
    | error e => exact ⟨hb, hagrees⟩
    | ok current =>
      have hreaches : current ∈ b.reaching (.applyEditAs views order source op) := by
        simp [reaching, hreadOnly, hediting, hcurrent]
      exact runRopeEditAndBroadcast_agrees hL hb hagrees
        (hrange current hreaches) (hordered current hreaches)
  | applyEditSkipInterceptsAs views order source op =>
    cases hout; simp only [Outcome.mapResult, applyEditSkipInterceptsAs]
    split_ifs with hreadOnly
    · exact ⟨hb, hagrees⟩
    have hreaches : op ∈ b.reaching (.applyEditSkipInterceptsAs views order source op) := by
      simp [reaching, hreadOnly]
    exact runRopeEditAndBroadcast_agrees hL hb hagrees
      (hrange op hreaches) (hordered op hreaches)
  | applyRemoteCrdtOp views op =>
    obtain ⟨out', hout', hagrees'⟩ := applyRemoteCrdtOp_agrees hL hagrees views op
    cases hout'.symm.trans hout; exact ⟨hb.of_arbiter_eq (applyRemoteCrdtOp_arbiter hout), hagrees'⟩
  | undoFor views source =>
    cases hout; obtain ⟨d, hd, hbytes⟩ := hagrees; simp only [Outcome.mapResult, undoFor]
    split_ifs
    · exact ⟨hb, d, hd, hbytes⟩
    · simp only [hd]; exact undoArbiter_agrees hL hb ⟨d, hd, hbytes⟩ hd
  | redoFor views source =>
    cases hout; obtain ⟨d, hd, hbytes⟩ := hagrees; simp only [Outcome.mapResult, redoFor]
    split_ifs
    · exact ⟨hb, d, hd, hbytes⟩
    · simp only [hd]; exact compensate_agrees hL hb ⟨d, hd, hbytes⟩ hd
  | arbiterSettleRemote | arbiterTypedBegin | arbiterClose | arbiterDetach | noteTypedEdit
  | commandCollapse | markClean | setReadOnly | beginEdit | endEdit => exact htext.elim

theorem fromBytesWithCrdt_agrees (hL : L.Laws) {id : ℕ} {name : String} {bytes : Bytes}
    {peerId : PeerId} (hb : fromBytesWithCrdt L id name bytes peerId = .ok b)
    (hbytes : (fromUtf8 bytes).isSome) : b.Agrees := by
  obtain ⟨cs, hcs⟩ := isSome_iff_exists.1 hbytes
  have hseed : (WfRope.fromBytes bytes).bytes = encode cs := by
    rw [WfRope.bytes_fromBytes]; exact fromUtf8_eq_some.1 hcs
  rw [fromBytesWithCrdt] at hb
  split at hb
  · rename_i d hd; cases hb
    refine ⟨d, rfl, hseed.trans ?_⟩; rw [Crdt.fromBytes] at hd
    split at hd
    · cases hd
    rename_i d₀ hd₀; have hempty := hL.newDoc_text peerId d₀ hd₀
    split_ifs at hd with hnil
    · cases hd; rw [List.isEmpty_iff.1 hnil] at hcs; cases hcs
      rw [hempty]
    obtain ⟨d', hd', htext⟩ := Crdt.insertInPieces_spec hL (lossy bytes)
      (Nat.zero_le (L.text d₀).length)
    rw [hd'] at hd; cases hd; rw [htext, hempty, lossy_eq_of_fromUtf8 hcs]
    simp [splice]
  · cases hb

/-- **Agreement.** In every run of edits, imports, undos and redos on a CRDT-backed buffer
    over UTF-8, in which no replacement that only the document takes reaches it, the
    rope holds the document's text after every call; and no import panics. -/
theorem run_agrees (hL : L.Laws) {id : ℕ} {name : String} {bytes : Bytes} {peerId : PeerId}
    {b₀ b : Buffer L} (h₀ : fromBytesWithCrdt L id name bytes peerId = .ok b₀)
    (hbytes : (Utf8.fromUtf8 bytes).isSome) (h : Run OrderedCall b₀ b) :
    b.Agrees ∧ ∀ views op, ∃ out, b.applyRemoteCrdtOp views op = some out := by
  have hagrees₀ := fromBytesWithCrdt_agrees hL h₀ hbytes
  have hsingles₀ : Singles b₀ := by
    have harbiter := (Constructed.withCrdt h₀).arbiter_eq; intro source; rw [stacksOf, harbiter]
    exact .default
  have hb : Singles b ∧ b.Agrees := by
    refine h.inv (P := fun b => Singles b ∧ b.Agrees) ⟨hsingles₀, hagrees₀⟩ ?_
    intro b c out hb hc hout; exact perform_agrees hL hb.1 hb.2 hc hout
  refine ⟨hb.2, ?_⟩
  intro views op
  obtain ⟨out, hout, _⟩ := applyRemoteCrdtOp_agrees hL hb.2 views op
  exact ⟨out, hout⟩

theorem run_agrees_insert :
    (plainAb.applyEditAs [] (fun sources => sources) .daemon (.insert 1 [0xFF])).buffer.Agrees ∧
      ∀ views op, ∃ out, (plainAb.applyEditAs [] (fun sources => sources) .daemon
        (.insert 1 [0xFF])).buffer.applyRemoteCrdtOp views op = some out := by
  have hordered : OrderedCall plainAb
      (.applyEditAs [] (fun sources => sources) .daemon (.insert 1 [0xFF])) := by
    refine ⟨trivial, ?_, ?_⟩
    · intro op hop; cases hop; show 1 ≤ usizeMax
      rw [usizeMax]; omega
    · intro op hop; cases hop; trivial
  exact run_agrees Loro.plain_laws fromBytesWithCrdt_plainAb rfl (.call .start hordered rfl)

/-- Replacing a range that stops before its start: the document takes the text, the rope
    refuses the range. -/
theorem replace_disagrees : fromBytesWithCrdt .plain 0 "" [0x61, 0x62] 1 = .ok plainAb ∧
      ¬ (plainAb.applyEditAs [] (fun sources => sources) .daemon
        (.replace ⟨1, 0⟩ [0x78])).buffer.Agrees := by
  refine ⟨fromBytesWithCrdt_plainAb, ?_⟩
  rintro ⟨d, hd, hbytes⟩
  have htext : (plainAb.applyEditAs [] (fun sources => sources) .daemon
      (.replace ⟨1, 0⟩ [0x78])).buffer.crdt.map Loro.plain.text = some ['a', 'x', 'b'] := rfl
  rw [hd, map_some, some.injEq] at htext
  rw [htext] at hbytes
  revert hbytes
  decide +kernel

end Buffer

end Pmacs
