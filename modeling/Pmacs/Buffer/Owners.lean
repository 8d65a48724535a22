/-
  Whose groups an undo pops.

  * `recorder`: the source a call records new ops for; `departedAfter` keeps the
    sources that departed and recorded nothing since;
  * `Fine`: no source records on a stack that is still marked departed, and no undo
    goes on past spent groups to unowned ones older than the frontend's newest.
-/
import Pmacs.Buffer.Exact
import Pmacs.Buffer.Stacks

namespace Pmacs

open Lib AList Function List SourceGroup

variable {L : Loro}

namespace Buffer

/-! ## Departures -/

variable (b : Buffer L) (views : List (View (Buffer L))) (order : List UndoSource → List UndoSource)
  (source : UndoSource)

/-- Whether a source's stacks are marked departed. -/
def Departed : Prop := (b.stacksOf source).detached = true

/-- Every source marked departed was marked before. -/
def NoneDeparts (b' : Buffer L) : Prop := ∀ source, b'.Departed source → b.Departed source

variable {b' : Buffer L}

namespace NoneDeparts

theorem refl : NoneDeparts b b := fun _ h => h

theorem trans {b b'' : Buffer L} (h : NoneDeparts b b') (h' : NoneDeparts b' b'') :
    NoneDeparts b b'' := by
  intro source hs
  exact h source (h' source hs)

theorem of_arbiter_eq {b : Buffer L} (h : b'.arbiter = b.arbiter) : NoneDeparts b b' := by
  intro source hs
  rwa [Departed, stacksOf, h] at hs

end NoneDeparts

variable {s : SourceUndoStacks L}

theorem setStacks_noneDeparts {b : Buffer L} {source : UndoSource}
    (h : s.detached = (b.stacksOf source).detached) : NoneDeparts b (b.setStacks source s) := by
  intro other hother
  by_cases hs : other = source
  · subst hs; rwa [Departed, stacksOf_setStacks_self, h] at hother
  · rwa [Departed, stacksOf_setStacks_of_ne s hs] at hother

theorem mapVal_noneDeparts {b : Buffer L} {f : UndoSource → SourceUndoStacks L → SourceUndoStacks L}
    (h : b'.arbiter = Assoc.mapVal f b.arbiter)
    (hf : ∀ source s, (f source s).detached = s.detached) : NoneDeparts b b' := by
  intro source hs
  rw [Departed, stacksOf, h, Assoc.lookup_mapVal] at hs
  cases hl : b.arbiter.lookup source with
  | none => rw [hl] at hs; cases hs
  | some s => rw [Departed, stacksOf_eq_of_lookup hl, ← hf source]; rwa [hl] at hs

@[simp]
theorem absorbUndo_detached {change : L.Diff} : (s.absorbUndo change).detached = s.detached := by
  rw [SourceUndoStacks.absorbUndo]
  split <;> rfl

variable {step : HistoryStep}

@[simp]
theorem absorbStep_detached {change : L.Diff} :
    (s.absorbStep step change).detached = s.detached := by
  cases step with
  | undo => exact absorbUndo_detached
  | redo => rfl

theorem dropTop_detached : (s.dropTop step).detached = s.detached := by
  cases step <;> rfl

theorem pushGroup_noneDeparts {g : SourceGroup L} : NoneDeparts b (b.pushGroup source g) := by
  have hset : NoneDeparts b (b.setStacks source { b.stacksOf source with
      groups := pushCapped undoHistoryLimit (b.stacksOf source).groups
        { g with seqno := wrappingSucc b.arbiterSeq } }) := setStacks_noneDeparts rfl
  exact hset.trans (.of_arbiter_eq rfl)

theorem arbiterClose_noneDeparts : NoneDeparts b (b.arbiterClose source) := by
  rw [arbiterClose]
  split
  · exact .refl b
  rename_i ss hss
  split
  · exact .refl b
  have hset : NoneDeparts b (b.setStacks source { ss with openGroup := none }) :=
    setStacks_noneDeparts (by rw [stacksOf_eq_of_lookup hss])
  split_ifs
  · exact hset
  · exact hset.trans (pushGroup_noneDeparts _ source)

theorem foldl_arbiterClose_noneDeparts (sources : List UndoSource) (b : Buffer L) :
    NoneDeparts b (sources.foldl arbiterClose b) := by
  induction sources generalizing b with
  | nil => exact .refl b
  | cons source sources ih => exact (arbiterClose_noneDeparts b source).trans (ih _)

theorem arbiterTypedBegin_noneDeparts (run limit : ℕ) :
    NoneDeparts b (b.arbiterTypedBegin source run limit) := by
  simp only [arbiterTypedBegin]
  split_ifs
  · exact .of_arbiter_eq rfl
  · exact (arbiterClose_noneDeparts b source).trans (setStacks_noneDeparts rfl)
  · exact setStacks_noneDeparts rfl

theorem arbiterDetach_departed {b : Buffer L} {source other : UndoSource}
    (h : (b.arbiterDetach source).Departed other) : other = source ∨ b.Departed other := by
  by_cases hs : other = source
  · exact .inl hs
  refine .inr (arbiterClose_noneDeparts b source other ?_); simp only [arbiterDetach] at h
  split at h
  · exact h
  split_ifs at h
  · rwa [Departed, stacksOf, lookup_erase_ne hs] at h
  · rwa [Departed, stacksOf_setStacks_of_ne _ hs] at h

theorem addStep_noneDeparts {ops : List (RecordedOps L)} :
    NoneDeparts b (b.addStep source ops) := by
  simp only [addStep]
  split
  · exact setStacks_noneDeparts rfl
  have hset : NoneDeparts b (b.setStacks source { b.stacksOf source with redo := [] }) :=
    setStacks_noneDeparts rfl
  exact hset.trans (pushGroup_noneDeparts _ source)

theorem arbiterRecord_noneDeparts (ops : List (RecordedOps L)) (change : L.Diff) :
    NoneDeparts b (b.arbiterRecord order source ops change) := by
  have habsorb : NoneDeparts b (b.absorbForeign source change) := by
    have harbiter : (b.absorbForeign source change).arbiter = Assoc.mapVal (fun other s =>
        if other = source then s else (s.absorbUndo change).absorbRedo change) b.arbiter := rfl
    refine mapVal_noneDeparts harbiter ?_; intro other s
    split_ifs
    · rfl
    · exact absorbUndo_detached
  simp only [arbiterRecord]
  split_ifs
  · exact .refl b
  · exact (habsorb.trans (foldl_arbiterClose_noneDeparts _ _)).trans
      (addStep_noneDeparts _ source)
  · exact habsorb.trans (addStep_noneDeparts _ source)

theorem arbiterSettleRemote_noneDeparts (run limit : ℕ)
    (typed : Bool) : NoneDeparts b (b.arbiterSettleRemote order source run limit typed) := by
  simp only [arbiterSettleRemote]
  split
  · exact .refl b
  have htaken : NoneDeparts b { b with pendingRemote := none } := .of_arbiter_eq rfl
  split_ifs
  · exact (htaken.trans (arbiterTypedBegin_noneDeparts _ source run limit)).trans
      (arbiterRecord_noneDeparts _ _ _ _ _)
  exact (htaken.trans (arbiterClose_noneDeparts _ source)).trans
    (arbiterRecord_noneDeparts _ _ _ _ _)

theorem OnlyTyped.noneDeparts {b : Buffer L} (h : OnlyTyped b b') : NoneDeparts b b' := by
  rw [h]
  exact .of_arbiter_eq rfl

theorem landEdit_noneDeparts {routed : Routed L}
    (ed : Edit WfRope) : NoneDeparts b (b.landEdit views order source routed ed).buffer := by
  have hlanded : NoneDeparts b
      ({ b with rope := ed.newRope }.adjustMarksForEdit ed.range ed.insertedLen) :=
    .of_arbiter_eq rfl
  have hrecorded := hlanded.trans (arbiterRecord_noneDeparts _ order source
    (routed.spans.map .span) routed.change)
  simp only [landEdit]
  split_ifs
  · exact .refl b
  · exact hrecorded.trans (.of_arbiter_eq rfl)
  · exact .of_arbiter_eq rfl

theorem runRopeEdit_noneDeparts {op : EditOp} {source : UndoSource}
    {routed : Routed L} : NoneDeparts b (b.runRopeEdit views order op source routed).buffer := by
  rw [runRopeEdit]
  split
  · exact .refl b
  · exact landEdit_noneDeparts b views order source _

theorem runRopeEditAndBroadcast_noneDeparts {op : EditOp} {source : UndoSource} :
    NoneDeparts b (b.runRopeEditAndBroadcast views order op source).buffer := by
  rw [runRopeEditAndBroadcast]
  split
  · split
    · exact .of_arbiter_eq rfl
    rename_i d' _; have hdoc : NoneDeparts b { b with crdt := some d' } := .of_arbiter_eq rfl
    exact hdoc.trans (runRopeEdit_noneDeparts _ views order)
  · exact runRopeEdit_noneDeparts b views order

theorem popUntilProduces_noneDeparts (from_ : UndoSource) (step : HistoryStep)
    (v : VersionVector) : ∀ (n : ℕ) (popped : List (UndoSource × SourceGroup L)) (b : Buffer L)
    (d : L.Doc), NoneDeparts b (popUntilProduces from_ step v n popped b d).buffer
  | 0, popped, b, d => .refl b
  | n + 1, popped, b, d => by
    have hdrop : NoneDeparts b (b.setStacks from_ ((b.stacksOf from_).dropTop step)) :=
      setStacks_noneDeparts (dropTop_detached)
    simp only [popUntilProduces]
    split
    · exact .refl b
    split
    · exact hdrop.trans (.of_arbiter_eq rfl)
    rename_i carried _ d' _
    have habsorb : NoneDeparts b { (b.setStacks from_ ((b.stacksOf from_).dropTop step)).setStacks
        from_ (((b.setStacks from_ ((b.stacksOf from_).dropTop step)).stacksOf from_).absorbStep
          step carried) with crdt := some d' } :=
      (hdrop.trans (setStacks_noneDeparts (absorbStep_detached))).trans
        (.of_arbiter_eq rfl)
    split_ifs
    · exact habsorb.trans (popUntilProduces_noneDeparts from_ step v n _ _ _)
    · exact habsorb

theorem absorbCompensation_noneDeparts (from_ : UndoSource) (step : HistoryStep) (change : L.Diff) :
    NoneDeparts b (b.absorbCompensation source from_ step change) := by
  refine mapVal_noneDeparts (absorbCompensation_arbiter b source from_ step change) ?_
  intro other s
  split_ifs <;> simp [SourceUndoStacks.absorbRedo]

theorem pushCompensation_noneDeparts (step : HistoryStep)
    (g : SourceGroup L) : NoneDeparts b (b.pushCompensation source step g) := by
  cases step with
  | undo => exact setStacks_noneDeparts rfl
  | redo => exact pushGroup_noneDeparts b source

variable {d : L.Doc} {from_ : UndoSource}

theorem compensate_noneDeparts {views : List (View (Buffer L))} {source : UndoSource} :
    NoneDeparts b (b.compensate d views source from_ step).buffer := by
  have hloop := popUntilProduces_noneDeparts from_ step (L.oplogVv d)
    ((b.stacksOf from_).stack step).length [] b d
  simp only [compensate]
  split
  · exact hloop
  rename_i produced change _
  have hpushed := (hloop.trans (absorbCompensation_noneDeparts _ source from_ step change)).trans
    (pushCompensation_noneDeparts _ source step (.of (produced.map .span)))
  split
  · exact hpushed.trans (.of_arbiter_eq rfl)
  · exact hpushed.trans (.of_arbiter_eq rfl)

theorem closeOwnRun_noneDeparts : NoneDeparts b (b.closeOwnRun source) := by
  cases source with
  | daemon => exact .refl b
  | frontend id => exact arbiterClose_noneDeparts b _

theorem sweepDeparted_noneDeparts : NoneDeparts b b.sweepDeparted := by
  intro source hs
  rw [Departed, stacksOf, sweepDeparted, Assoc.lookup_retain] at hs
  cases hl : b.arbiter.lookup source with
  | none => rw [hl] at hs; cases hs
  | some s =>
    rw [hl, Option.filter] at hs
    split_ifs at hs
    · rw [Departed, stacksOf_eq_of_lookup hl]; exact hs
    · cases hs

theorem undoArbiter_noneDeparts {views : List (View (Buffer L))}
    {source : UndoSource} : NoneDeparts b (b.undoArbiter d views source).buffer := by
  exact ((closeOwnRun_noneDeparts b source).trans (compensate_noneDeparts _)).trans
    (sweepDeparted_noneDeparts _)

variable {out : Outcome L (Option (Edit WfRope))}

theorem perform_departed {b : Buffer L} {c : Call L}
    (hout : b.perform c = some out) {source : UndoSource} (h : out.buffer.Departed source) :
    c = .arbiterDetach source ∨ b.Departed source := by
  cases c with
  | applyEditAs views order by_ op =>
    cases hout
    refine .inr ?_; simp only [applyEditAs] at h
    split_ifs at h
    · exact h
    · exact h
    split at h
    · exact h
    · exact runRopeEditAndBroadcast_noneDeparts b views order source h
  | applyEditSkipInterceptsAs views order by_ op =>
    cases hout
    refine .inr ?_; simp only [applyEditSkipInterceptsAs] at h
    split_ifs at h
    · exact h
    · exact runRopeEditAndBroadcast_noneDeparts b views order source h
  | applyRemoteCrdtOp views op =>
    exact .inr (NoneDeparts.of_arbiter_eq (applyRemoteCrdtOp_arbiter hout) source h)
  | undoFor views by_ =>
    cases hout
    refine .inr ?_; simp only [undoFor] at h
    split_ifs at h
    · exact h
    split at h
    · exact undoArbiter_noneDeparts b source h
    rw [undoV01] at h
    split at h <;> exact h
  | redoFor views by_ =>
    cases hout
    refine .inr ?_; simp only [redoFor] at h
    split_ifs at h
    · exact h
    split at h
    · exact compensate_noneDeparts b source h
    rw [redoV01] at h
    split at h <;> exact h
  | arbiterSettleRemote order by_ run limit typed =>
    cases hout; exact .inr (arbiterSettleRemote_noneDeparts b order by_ run limit typed source h)
  | arbiterTypedBegin by_ run limit =>
    cases hout; exact .inr (arbiterTypedBegin_noneDeparts b by_ run limit source h)
  | arbiterClose by_ => cases hout; exact .inr (arbiterClose_noneDeparts b by_ source h)
  | arbiterDetach by_ =>
    cases hout
    rcases arbiterDetach_departed h with rfl | hb
    · exact .inl rfl
    · exact .inr hb
  | noteTypedEdit merge =>
    cases hout; exact .inr ((noteTypedEdit_only b merge).noneDeparts source h)
  | commandCollapse => cases hout; exact .inr ((commandCollapse_only b).noneDeparts source h)
  | markClean | setReadOnly | endEdit => cases hout; exact .inr h
  | beginEdit =>
    cases hout
    refine .inr ?_; rw [beginEdit] at h
    split_ifs at h <;> exact h

/-! ## The popping loop -/

theorem popUntilProduces_fuel {v : VersionVector} :
    ∀ (k n : ℕ) (popped : List (UndoSource × SourceGroup L)) (b : Buffer L) (d : L.Doc), k ≤ n →
      (∀ e, (popUntilProduces from_ step v k popped b d).result = .error e → e ≠ step.nothing) →
        popUntilProduces from_ step v n popped b d = popUntilProduces from_ step v k popped b d
  | 0, n, popped, b, d, _, hends => absurd rfl (hends _ rfl)
  | k + 1, n, popped, b, d, hkn, hends => by
    obtain ⟨m, rfl⟩ := Nat.exists_eq_add_of_lt (lt_of_lt_of_le (Nat.lt_succ_self k) hkn)
    have hkm : k ≤ k + m := Nat.le_add_right k m; rw [popUntilProduces] at hends ⊢
    rw [popUntilProduces]
    cases hgroup : ((b.stacksOf from_).stack step).getLast? with
    | none => rfl
    | some group =>
      simp only [hgroup] at hends ⊢
      split
      · rfl
      rename_i carried change d' hundo; simp only [hundo] at hends
      split_ifs at hends ⊢ with hproduced
      · exact popUntilProduces_fuel k (k + m) _ _ _ hkm hends
      · rfl

/-! ## Owners -/

/-- The ops that a call added to the document. -/
def newSpans (b' : Buffer L) : List IdSpan :=
  match b.crdt, b'.crdt with
  | some d, some d' => Crdt.spansSince d' (L.oplogVv d)
  | _, _ => []

/-- The source a call records new ops for: of an edit that changed the text, of a
    settled import, or of a redo that pushed its compensation. -/
def recorder (c : Call L) (b' : Buffer L) : Option UndoSource :=
  match c with
  | .applyEditAs _ _ source _ =>
    if b'.revision = b.revision ∨ (newSpans b b').isEmpty then none else some source
  | .applyEditSkipInterceptsAs _ _ source _ =>
    if b'.revision = b.revision ∨ (newSpans b b').isEmpty then none else some source
  | .arbiterSettleRemote _ source _ _ _ =>
    match b.pendingRemote with
    | some (ops, _) => if ops.isEmpty then none else some source
    | none => none
  | .redoFor _ source => if b'.arbiterSeq = b.arbiterSeq then none else some source
  | _ => none

def departedAfter (gone : Finset UndoSource) (b : Buffer L) (c : Call L) (b' : Buffer L) :
    Finset UndoSource :=
  match c, recorder b c b' with
  | .arbiterDetach source, _ => insert source gone
  | _, some source => gone.erase source
  | _, none => gone

/-- What an undo by a frontend may pop, `closed` being the buffer once the frontend's
    own run is closed. -/
structure Owned (closed : Buffer L) (gone : Finset UndoSource) (source : UndoSource)
    (popped : List (UndoSource × SourceGroup L)) : Prop where
  owner : ∀ p ∈ popped, p.1 = source ∨ p.1 = .daemon ∨ p.1 ∈ gone
  newestFirst : ∀ from_, (popped.filter (·.1 = from_)).map (·.2.record) <+:
    records (closed.stacksOf from_).groups
  recent : ∀ p ∈ popped, p.1 ≠ source → ∀ own ∈ newest (closed.stacksOf source), own < p.2.seqno

/-- How many groups from the top of a stack are newer than `own`. -/
def newerThan (own : ℕ) (gs : List (SourceGroup L)) : ℕ :=
  (gs.reverse.takeWhile fun g => own < g.seqno).length

/-- When an unowned stack is picked, its groups that are newer than the source's newest
    are not all spent, or there are no others. -/
def EndsNewer : Prop :=
  let closed := b.closeOwnRun source
  let from_ := closed.undoPick source
  from_ ≠ source → ∀ own ∈ newest (closed.stacksOf source), ∀ d ∈ closed.crdt,
    let k := newerThan own (closed.stacksOf from_).groups
    k = (closed.stacksOf from_).groups.length ∨
      ∀ e, (popUntilProduces from_ .undo (L.oplogVv d) k [] closed d).result = .error e →
        e ≠ .nothingToUndo

/-- The calls that keep to the owners. -/
structure Fine (gone : Finset UndoSource) (b : Buffer L) (c : Call L) (b' : Buffer L) : Prop where
  records : ∀ source, recorder b c b' = some source → ¬ b.Departed source
  ends : ∀ views id, c = .undoFor views (.frontend id) → b.EndsNewer (.frontend id)

theorem foldl_unowned {es : List (Sigma fun _ : UndoSource => SourceUndoStacks L)}
    {best : Option (ℕ × UndoSource)} {seqno : ℕ}
    (h : es.foldl (fun best e =>
      if e.1 = .daemon ∨ e.2.detached = true then
        match newest e.2, best with
        | none, best => best
        | some seqno, none => some (seqno, e.1)
        | some seqno, some (seqno', from_) =>
          if seqno' ≤ seqno then some (seqno, e.1) else some (seqno', from_)
      else best) best = some (seqno, from_)) :
    best = some (seqno, from_) ∨
      ∃ s, ⟨from_, s⟩ ∈ es ∧ (from_ = .daemon ∨ s.detached = true) := by
  induction es generalizing best with
  | nil => exact .inl h
  | cons e es ih =>
    rw [foldl_cons] at h
    rcases ih h with hbest | ⟨s, hs, hunowned⟩
    · split_ifs at hbest with hunowned
      · split at hbest
        · exact .inl hbest
        · cases hbest; exact .inr ⟨e.2, mem_cons_self, hunowned⟩
        split_ifs at hbest
        · cases hbest; exact .inr ⟨e.2, mem_cons_self, hunowned⟩
        · exact .inl hbest
      · exact .inl hbest
    · exact .inr ⟨s, mem_cons_of_mem _ hs, hunowned⟩

/-- The stack picked is the source's own, the daemon's or a departed source's. -/
theorem undoPick_owner :
    b.undoPick source = source ∨ b.undoPick source = .daemon ∨ b.Departed (b.undoPick source) := by
  have hunowned : ∀ seqno from_, b.newestUnowned = some (seqno, from_) →
      from_ = .daemon ∨ b.Departed from_ := by
    intro seqno from_ h
    rcases foldl_unowned h with hnone | ⟨s, hs, hdaemon | hdetached⟩
    · cases hnone
    · exact .inl hdaemon
    refine .inr ?_; rw [Departed, stacksOf_eq_of_lookup (Assoc.mem_entries_iff.1 hs)]
    exact hdetached
  cases source with
  | daemon => exact .inl rfl
  | frontend id =>
    rw [undoPick]
    split
    · rename_i h; exact .inr (hunowned _ _ h)
    · rename_i h
      split_ifs
      · exact .inr (hunowned _ _ h)
      · exact .inl rfl
    · exact .inl rfl

/-- Records taken from the top of a stack, no more than there are newer than `own`, are
    newer than `own`. -/
theorem newer_of_prefix {own : ℕ} {gs taken : List (SourceGroup L)}
    (hlength : taken.length ≤ newerThan own gs)
    (htop : taken.map record <+: records gs) : ∀ g ∈ taken, own < g.seqno := by
  have hwhile : (gs.reverse.takeWhile fun g => own < g.seqno).map record <+:
      records gs := ( takeWhile_prefix _).map record
  have hle : taken.map record <+:
      (gs.reverse.takeWhile fun g => own < g.seqno).map record := by
    refine prefix_of_prefix_length_le htop hwhile ?_; rw [length_map, length_map]; exact hlength
  intro g hg
  obtain ⟨g', hg', hrecord⟩ := mem_map.1 (hle.subset (mem_map_of_mem hg))
  have hnewer : own < g'.seqno := by simpa using mem_takeWhile_imp hg'
  have hseqno : g'.seqno = g.seqno := congrArg Prod.fst hrecord
  rw [← hseqno]
  exact hnewer

theorem Owned.nil (closed : Buffer L) (gone : Finset UndoSource) (source : UndoSource) :
    Owned closed gone source [] :=
  { owner := nofun
    newestFirst := fun _ => nil_prefix
    recent := fun _ hp => nomatch hp }

variable {gone : Finset UndoSource}

theorem popped_owned {closed : Buffer L} {source : UndoSource}
    (howner : from_ = source ∨ from_ = .daemon ∨ from_ ∈ gone)
    (hends : from_ ≠ source → ∀ own ∈ newest (closed.stacksOf source),
      newerThan own (closed.stacksOf from_).groups = (closed.stacksOf from_).groups.length ∨
        ∀ e, (popUntilProduces from_ .undo (L.oplogVv d)
          (newerThan own (closed.stacksOf from_).groups) [] closed d).result = .error e →
            e ≠ .nothingToUndo) :
    Owned closed gone source (popUntilProduces from_ .undo (L.oplogVv d)
      (closed.stacksOf from_).groups.length [] closed d).popped := by
  obtain ⟨taken, htaken, hlength, htop⟩ := popUntilProduces_popped from_ .undo (L.oplogVv d)
    (closed.stacksOf from_).groups.length [] closed d
  rw [htaken, nil_append]
  refine ⟨?_, ?_, ?_⟩
  · intro p hp; obtain ⟨g, _, rfl⟩ := mem_map.1 hp; exact howner
  · intro other
    by_cases hother : from_ = other
    · subst hother
      have hall : ((taken.map (from_, ·)).filter (·.1 = from_)) = taken.map (from_, ·) := by simp
      rw [hall, map_map]; exact htop
    · simp [filter_map, comp_def, hother]
  intro p hp hne own hown
  have hfrom : from_ ≠ source := by obtain ⟨g, _, rfl⟩ := mem_map.1 hp; exact hne
  have hnewer : newerThan own (closed.stacksOf from_).groups ≤
      (closed.stacksOf from_).groups.length := by
    have hwhile := ( takeWhile_prefix (fun g : SourceGroup L => own < g.seqno)
      (l := (closed.stacksOf from_).groups.reverse)).length_le
    rwa [length_reverse] at hwhile
  -- the loop ends among the groups newer than the source's newest
  have hfuel : popUntilProduces from_ .undo (L.oplogVv d) (closed.stacksOf from_).groups.length []
      closed d = popUntilProduces from_ .undo (L.oplogVv d)
        (newerThan own (closed.stacksOf from_).groups) [] closed d := by
    rcases hends hfrom own hown with hall | hstops
    · rw [hall]
    · exact popUntilProduces_fuel _ _ [] closed d hnewer hstops
  obtain ⟨taken', htaken', hlength', htop'⟩ := popUntilProduces_popped from_ .undo
    (L.oplogVv d) (newerThan own (closed.stacksOf from_).groups) [] closed d
  rw [← nil_append (List.map _ _), ← htaken, hfuel, htaken', nil_append] at hp
  obtain ⟨g, hg, rfl⟩ := mem_map.1 hp; exact newer_of_prefix hlength' htop' g hg

theorem undoFor_owned {b : Buffer L}
    (hgone : ∀ source, b.Departed source → source ∈ gone) {views : List (View (Buffer L))}
    {source : UndoSource} (hends : b.EndsNewer source) :
    Owned (b.closeOwnRun source) gone source (b.undoFor views source).popped := by
  rw [undoFor]
  split_ifs
  · exact .nil _ _ _
  split
  · rename_i d hd
    have hcrdt : (b.closeOwnRun source).crdt = some d := by rw [closeOwnRun_only b source]; exact hd
    have hpopped : (b.undoArbiter d views source).popped = (popUntilProduces
        ((b.closeOwnRun source).undoPick source) .undo (L.oplogVv d)
        (((b.closeOwnRun source).stacksOf ((b.closeOwnRun source).undoPick source)).groups).length
        [] (b.closeOwnRun source) d).popped := compensate_popped _ d views source _ .undo
    rw [hpopped]
    refine popped_owned ?_ ?_
    · rcases undoPick_owner (b.closeOwnRun source) source with hown | hdaemon | hdeparted
      · exact .inl hown
      · exact .inr (.inl hdaemon)
      · exact .inr (.inr (hgone _ (closeOwnRun_noneDeparts b source _ hdeparted)))
    · intro hne own hown; exact hends hne own hown d hcrdt
  rw [undoV01]
  split <;> exact .nil _ _ _

theorem perform_gone {b : Buffer L} {c : Call L}
    (hgone : ∀ source, b.Departed source → source ∈ gone)
    (hfine : Fine gone b c out.buffer) (hout : b.perform c = some out) :
    ∀ source, out.buffer.Departed source → source ∈ departedAfter gone b c out.buffer := by
  intro source hsource
  unfold departedAfter
  rcases perform_departed hout hsource with rfl | hb
  · exact Finset.mem_insert_self source gone
  split
  · exact Finset.mem_insert_of_mem (hgone source hb)
  · rename_i other hrecorder
    refine Finset.mem_erase_of_ne_of_mem ?_ (hgone source hb); rintro rfl
    exact hfine.records _ hrecorder hb
  · exact hgone source hb

/-- **Owners.** In every run of fine calls, an undo by a frontend that is fine pops the
    frontend's own groups, the daemon's and those of sources that are gone, from the
    top of their stack, and none of another's that is older than its newest. -/
theorem run_owned {b₀ b : Buffer L} {gone : Finset UndoSource} (h₀ : Constructed b₀)
    (h : Traced departedAfter Fine b₀ ∅ b gone) (views : List (View (Buffer L))) (id : ℕ)
    (hfine : Fine gone b (.undoFor views (.frontend id)) (b.undoFor views (.frontend id)).buffer) :
    Owned (b.closeOwnRun (.frontend id)) gone (.frontend id)
      (b.undoFor views (.frontend id)).popped := by
  have hgone : ∀ source, b.Departed source → source ∈ gone := by
    refine h.inv (P := fun b gone => ∀ source, b.Departed source → source ∈ gone) ?_ ?_
    · intro source hsource; rw [Departed, stacksOf, h₀.arbiter_eq] at hsource; cases hsource
    · intro b gone c out hb hfine hout; exact perform_gone hb hfine hout
  exact undoFor_owned hgone (hfine.ends views id rfl)

theorem run_owned_departed : Owned ((((plainAb.applyEditAs [] (fun sources => sources) (.frontend 2)
        (.insert 0 [0x63])).buffer.arbiterDetach (.frontend 2)).closeOwnRun (.frontend 1)))
      {.frontend 2} (.frontend 1) (((plainAb.applyEditAs [] (fun sources => sources) (.frontend 2)
        (.insert 0 [0x63])).buffer.arbiterDetach (.frontend 2)).undoFor [] (.frontend 1)).popped := by
  have hedit : Traced departedAfter Fine plainAb ∅
      (plainAb.applyEditAs [] (fun sources => sources) (.frontend 2) (.insert 0 [0x63])).buffer ∅ :=
    .call (c := .applyEditAs [] (fun sources => sources) (.frontend 2) (.insert 0 [0x63])) .start
      { records := nofun
        ends := fun _ _ h => nomatch h } rfl
  have hdetach : Traced departedAfter Fine plainAb ∅
      ((plainAb.applyEditAs [] (fun sources => sources) (.frontend 2)
        (.insert 0 [0x63])).buffer.arbiterDetach (.frontend 2)) {.frontend 2} :=
    .call (c := .arbiterDetach (.frontend 2)) hedit
      { records := nofun
        ends := fun _ _ h => nomatch h } rfl
  refine run_owned plainAb_constructed hdetach [] 1 ?_
  refine ⟨nofun, ?_⟩
  intro views id h
  cases h
  intro _ own hown
  cases hown

/-- A frontend that edits again after it departed is popped by another's undo: its
    stack is still marked. -/
theorem departed_records_again :
    Constructed plainAb ∧ ∃ b : Buffer .plain, ∃ gone : Finset UndoSource,
      Traced departedAfter (fun _ _ _ _ => True) plainAb ∅ b gone ∧
        ¬ Owned (b.closeOwnRun (.frontend 1)) gone (.frontend 1)
          (b.undoFor [] (.frontend 1)).popped := by
  have hedit : Traced departedAfter (fun _ _ _ _ => True) plainAb ∅
      (plainAb.applyEditAs [] (fun sources => sources) (.frontend 2) (.insert 0 [0x63])).buffer ∅ :=
    .call (c := .applyEditAs [] (fun sources => sources) (.frontend 2) (.insert 0 [0x63])) .start
      trivial rfl
  have hdetach := hedit.call (c := .arbiterDetach (.frontend 2)) trivial rfl
  have hagain := hdetach.call
    (c := .applyEditAs [] (fun sources => sources) (.frontend 2) (.insert 0 [0x64])) trivial rfl
  refine ⟨plainAb_constructed, _, _, hagain, ?_⟩
  intro howned
  have howner := howned.owner
  revert howner
  decide +kernel

end Buffer

end Pmacs
