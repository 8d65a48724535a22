/-
  When an unmodified buffer holds the text it was saved with.

  * `savedAfter`: the bytes at the last time the buffer was marked clean;
  * `revertStack`: the text that undoing a stack leaves, told from the document
    before it, and whether the stack is spent;
  * `run_clean`: in runs of such calls an unmodified buffer holds the saved bytes.
-/
import Pmacs.Buffer.Exact
import Pmacs.Buffer.Groups
import Pmacs.Buffer.Stacks

namespace Pmacs

open Lib SourceUndoStacks

variable {L : Loro}

namespace Buffer

variable {b b' : Buffer L} {saved : Bytes} {change : L.Diff}

/-! ## Calls that clean nothing -/

/-- A buffer that is unmodified after the call was so before it, and holds the same. -/
def CleansNothing (b b' : Buffer L) : Prop :=
  b'.isModified = false → b.isModified = false ∧ b'.rope = b.rope

theorem CleansNothing.refl (b : Buffer L) : CleansNothing b b := fun h => ⟨h, rfl⟩

theorem CleansNothing.of_modified (h : b'.isModified = true) : CleansNothing b b' := by
  intro hclean
  rw [h] at hclean
  cases hclean

theorem Keeps.cleansNothing (h : Keeps b b') : CleansNothing b b' := by
  intro hclean
  exact ⟨h.isModified.symm.trans hclean, h.rope⟩

theorem runRopeEdit_cleansNothing (b : Buffer L) (views : List (View (Buffer L)))
    (order : List UndoSource → List UndoSource) (op : EditOp) (source : UndoSource)
    (routed : Routed L) : CleansNothing b (b.runRopeEdit views order op source routed).buffer := by
  rw [runRopeEdit]
  split
  · exact .refl b
  simp only [landEdit]
  split_ifs
  · exact .refl b
  · exact .of_modified rfl
  · exact .of_modified rfl

variable {views : List (View (Buffer L))} {source : UndoSource}

theorem runRopeEditAndBroadcast_cleansNothing {b : Buffer L}
    {order : List UndoSource → List UndoSource} {op : EditOp} :
    CleansNothing b (b.runRopeEditAndBroadcast views order op source).buffer := by
  rw [runRopeEditAndBroadcast]
  split
  · split
    · exact .refl b
    rename_i d' _
    exact runRopeEdit_cleansNothing { b with crdt := some d' } views order op source _
  · exact runRopeEdit_cleansNothing b views order op source _

variable {out : Outcome L (Option (Edit WfRope))}

theorem applyRemoteCrdtOp_cleansNothing {op : Bytes}
    (h : b.applyRemoteCrdtOp views op = some out) : CleansNothing b out.buffer := by
  rw [applyRemoteCrdtOp] at h
  split_ifs at h
  · cases h; exact .refl b
  · cases h; exact .refl b
  split at h
  · cases h; exact .refl b
  split at h
  · cases h; exact .refl b
  dsimp only at h
  split at h
  · cases h
  · cases h; exact .refl b
  cases h; simp only [runRemoteRopeStages, Outcome.mapResult]
  split
  · exact .refl b
  · exact .of_modified rfl

theorem OnlyTyped.cleansNothing (h : OnlyTyped b b') : CleansNothing b b' := by
  rw [h]
  exact .refl b

theorem redoV01_cleansNothing {b : Buffer L} : CleansNothing b (b.redoV01 views).buffer := by
  rw [redoV01]
  split
  · exact .refl b
  · exact .of_modified rfl

variable {from_ : UndoSource}

theorem redo_cleansNothing {d : L.Doc} (hd : b.crdt = some d) :
    CleansNothing b (b.compensate d views source from_ .redo).buffer := by
  rcases compensate_cases b source (by rw [hd]; rfl) views from_ .redo with
    ⟨b', popped, e, honly, hout⟩ | ⟨b', newRope, op, popped, modified, _, hmodified, hout⟩
  · rw [hout]
    exact honly.keeps.cleansNothing
  · rw [hout]
    exact .of_modified (hmodified rfl)

/-! ## What undoing a stack leaves -/

/-- The text that undoing the groups of a stack leaves, the newest first until one
    changes it, and whether none is left. `running` says that a run is open: what a
    group carries down goes to it. -/
def revertStack (d : L.Doc) (running : Bool) :
    ℕ → List (SourceGroup L) → List Char → Option (Bool × List Char)
  | 0, _, cs => some (true, cs)
  | n + 1, gs, cs =>
    match gs.getLast? with
    | none => some (true, cs)
    | some g =>
      match g.revert d cs with
      | none => none
      | some (cs', carried) =>
        if cs' = cs then
          revertStack d running n
            (if running then gs.dropLast else SourceUndoStacks.absorbLast gs.dropLast carried) cs'
        else some (gs.dropLast.isEmpty, cs')

theorem revertStack_nil (d : L.Doc) (running : Bool) (n : ℕ) {cs : List Char} :
    revertStack d running n [] cs = some (true, cs) := by
  cases n <;> rfl

/-- A stack's groups once the newest is popped and what it carried is absorbed. -/
theorem absorbUndo_dropTop (s : SourceUndoStacks L) (carried : L.Diff) :
    ((s.dropTop .undo).absorbUndo carried).groups = (if s.openGroup.isSome then s.groups.dropLast
          else absorbLast s.groups.dropLast carried) ∧
      ((s.dropTop .undo).absorbUndo carried).openGroup.isSome = s.openGroup.isSome := by
  obtain ⟨groups, redo, openGroup, detached⟩ := s
  cases openGroup <;> exact ⟨rfl, rfl⟩

theorem absorbLast_eq_nil {gs : List (SourceGroup L)} :
    absorbLast gs change = [] ↔ gs = [] := by
  rw [absorbLast]
  cases hlast : gs.getLast? with
  | none => rfl
  | some g => obtain ⟨init, rfl⟩ := List.getLast?_eq_some_iff.1 hlast; simp

/-- **A loop that pops the whole stack** leaves the text told from the document before
    it. -/
theorem popUntilProduces_revert (hL : L.Laws) (d₀ : L.Doc) (from_ : UndoSource) :
    ∀ (n : ℕ) (popped : List (UndoSource × SourceGroup L)) (b : Buffer L) (d : L.Doc)
      (all : Bool) (cs : List Char) (d' : L.Doc) (produced : List IdSpan) (change : L.Diff),
      Crdt.Since d₀ d → L.text d = L.text d₀ →
        revertStack (L.commit d₀) (b.stacksOf from_).openGroup.isSome n (b.stacksOf from_).groups (L.text d) =
          some (all, cs) →
        (popUntilProduces from_ .undo (L.oplogVv d₀) n popped b d).result =
          .ok (d', produced, change) →
        ((popUntilProduces from_ .undo (L.oplogVv d₀) n popped b d).buffer.stacksOf from_).groups =
          [] →
        all = true ∧ L.text d' = cs
  | 0, _, _, _, _, _, _, _, _, _, _, _, hok, _ => nomatch hok
  | n + 1, popped, b, d, all, cs, d', produced, change, hsince, htext, hrevert, hok, hempty => by
    rw [popUntilProduces] at hok hempty; rw [revertStack] at hrevert
    have hstack : (b.stacksOf from_).stack .undo = (b.stacksOf from_).groups := rfl
    rw [hstack] at hok hempty
    cases hgroup : (b.stacksOf from_).groups.getLast? with
    | none => simp only [hgroup] at hok; cases hok
    | some group =>
      simp only [hgroup] at hok hempty hrevert
      cases hundo : Crdt.capture group.undoAgainst d with
      | error e d₁ => simp only [hundo] at hok; cases hok
      | ok res d₁ =>
        obtain ⟨carried, change₁⟩ := res; obtain ⟨hundone, _⟩ := Crdt.capture_ok hundo
        have hsince₁ := hsince.trans (SourceGroup.undoSpans_since hundone)
        cases hgroupRevert : group.revert (L.commit d₀) (L.text d) with
        | none => simp only [hgroupRevert] at hrevert; cases hrevert
        | some res =>
          obtain ⟨cs₁, carried₁⟩ := res
          obtain ⟨htext₁, rfl⟩ := SourceGroup.undoAgainst_revert hL hsince hgroupRevert hundone
          obtain ⟨hgroups, hopen⟩ := absorbUndo_dropTop (b.stacksOf from_) carried
          simp only [hundo] at hok hempty; simp only [hgroupRevert] at hrevert
          by_cases hproduced : (Crdt.spansSince d₁ (L.oplogVv d₀)).isEmpty
          · -- the group is spent, and the text as it was
            have hsame : L.text d₁ = L.text d := by
              rcases SourceGroup.undoSpans_pending hL hundone with rfl | hpending
              · rfl
              rw [htext]
              exact Crdt.text_of_no_spans hL hsince₁.evolves hpending (List.isEmpty_iff.1 hproduced)
            rw [if_pos hproduced] at hok hempty
            rw [if_pos (htext₁.symm.trans hsame), ← hgroups, ← hopen, ← htext₁] at hrevert
            refine popUntilProduces_revert hL d₀ from_ n _ _ d₁ all cs d' produced change hsince₁
              (hsame.trans htext) ?_ hok hempty
            rw [stacksOf_popped]; exact hrevert
          rw [if_neg hproduced] at hok hempty; cases hok
          have hlast : (b.stacksOf from_).groups.dropLast = [] := by
            rw [stacksOf_popped] at hempty; have hnone := hgroups.symm.trans hempty
            split_ifs at hnone
            · exact hnone
            · exact absorbLast_eq_nil.1 hnone
          have hnothing : (if (b.stacksOf from_).openGroup.isSome then
              (b.stacksOf from_).groups.dropLast
              else absorbLast (b.stacksOf from_).groups.dropLast carried) = [] := by
            rw [hlast]
            split_ifs <;> rfl
          rw [hnothing, revertStack_nil, hlast] at hrevert
          split_ifs at hrevert
          · cases hrevert; exact ⟨rfl, htext₁⟩
          · cases hrevert; exact ⟨rfl, htext₁⟩

/-! ## An undo that leaves nothing -/

theorem groups_of_no_history (h : b.arbiterHasHistory = false) (source : UndoSource) :
    (b.stacksOf source).groups = [] := by
  rw [stacksOf]
  cases hl : b.arbiter.lookup source with
  | none => rfl
  | some s =>
    rw [arbiterHasHistory, List.any_eq_false] at h
    have hs := h ⟨source, s⟩ (Assoc.mem_entries_iff.2 hl); simpa using hs

theorem absorbUndo_groups_eq_nil {s : SourceUndoStacks L}
    (h : (s.absorbUndo change).groups = []) : s.groups = [] := by
  rw [absorbUndo] at h
  split at h
  · exact h
  · exact absorbLast_eq_nil.1 h

theorem absorbCompensation_groups {step : HistoryStep} {other : UndoSource}
    (h : ((b.absorbCompensation source from_ step change).stacksOf other).groups = []) :
    (b.stacksOf other).groups = [] := by
  rw [stacksOf, absorbCompensation_arbiter, Assoc.lookup_mapVal] at h
  rw [stacksOf]
  cases hl : b.arbiter.lookup other with
  | none => rfl
  | some s =>
    rw [hl, Option.map_some, Option.getD_some] at h; dsimp only at h
    split_ifs at h
    · exact absorbUndo_groups_eq_nil h
    · exact h
    · exact absorbUndo_groups_eq_nil h
    · exact h

theorem pushCompensation_groups (b : Buffer L) (source : UndoSource) (g : SourceGroup L)
    (other : UndoSource) :
    ((b.pushCompensation source .undo g).stacksOf other).groups = (b.stacksOf other).groups := by
  by_cases hother : other = source
  · subst hother; rw [pushCompensation, HistoryStep.opposite, stacksOf_setStacks_self]
  · rw [pushCompensation, HistoryStep.opposite, stacksOf_setStacks_of_ne _ hother]

theorem popUntilProduces_other {other : UndoSource} (hother : other ≠ from_)
    (step : HistoryStep) (v : VersionVector) :
    ∀ (n : ℕ) (popped : List (UndoSource × SourceGroup L)) (b : Buffer L) (d : L.Doc),
      (popUntilProduces from_ step v n popped b d).buffer.stacksOf other = b.stacksOf other
  | 0, popped, b, d => rfl
  | n + 1, popped, b, d => by
    simp only [popUntilProduces]
    split
    · rfl
    split
    · exact stacksOf_setStacks_of_ne _ hother
    rename_i carried _ d' _
    have hpopped : Buffer.stacksOf { (b.setStacks from_ ((b.stacksOf from_).dropTop step)).setStacks
        from_ (((b.setStacks from_ ((b.stacksOf from_).dropTop step)).stacksOf from_).absorbStep
          step carried) with crdt := some d' } other = b.stacksOf other :=
      (stacksOf_setStacks_of_ne _ hother).trans (stacksOf_setStacks_of_ne _ hother)
    split_ifs
    · exact (popUntilProduces_other hother step v n _ _ _).trans hpopped
    · exact hpopped

/-- An undo that leaves no group closed takes the document's text back to `saved`: the
    recorded ops of the stack picked, undone against what others did since, do. -/
def Reverts (saved : Bytes) (b : Buffer L) (source : UndoSource) : Prop :=
  let closed := b.closeOwnRun source
  let from_ := closed.undoPick source
  let s := closed.stacksOf from_
  ∀ d ∈ closed.crdt, s.groups ≠ [] →
    (∀ other, other ≠ from_ → (closed.stacksOf other).groups = []) →
      ∃ all cs, revertStack (L.commit d) s.openGroup.isSome s.groups.length s.groups (L.text d) =
        some (all, cs) ∧ (all = true → Utf8.encode cs = saved)

/-- The condition, where undoing the stack picked is known to take the text back. -/
theorem Reverts.of_revertStack (cs : List Char) (h : (b.closeOwnRun source).crdt.map (fun d =>
      let s := (b.closeOwnRun source).stacksOf ((b.closeOwnRun source).undoPick source)
      revertStack (L.commit d) s.openGroup.isSome s.groups.length s.groups (L.text d)) = some (some (true, cs)))
    (hcs : Utf8.encode cs = saved) : b.Reverts saved source := by
  intro d hd _ _
  have hd' : (b.closeOwnRun source).crdt = some d := hd
  rw [hd', Option.map_some, Option.some.injEq] at h
  exact ⟨true, cs, h, fun _ => hcs⟩

/-- A compensation that leaves no history has popped the only stack, and leaves what
    undoing it leaves. -/
theorem compensate_reverts (hL : L.Laws) {d : L.Doc} (hd : b.crdt = some d)
    (hreverts : (b.stacksOf from_).groups ≠ [] →
      (∀ other, other ≠ from_ → (b.stacksOf other).groups = []) →
        ∃ all cs, revertStack (L.commit d) (b.stacksOf from_).openGroup.isSome (b.stacksOf from_).groups.length
          (b.stacksOf from_).groups (L.text d) = some (all, cs) ∧
            (all = true → Utf8.encode cs = saved)) (hsaved : b.isModified = false → b.bytes = saved)
    (hclean : (b.compensate d views source from_ .undo).buffer.isModified = false) :
    (b.compensate d views source from_ .undo).buffer.bytes = saved := by
  have hkeeps := (popUntilProduces_only from_ .undo (L.oplogVv d)
    ((b.stacksOf from_).stack .undo).length [] b d (by rw [hd]; rfl)).keeps
  have hrevert := popUntilProduces_revert hL d from_ (b.stacksOf from_).groups.length [] b d
  have hother := fun other (h : other ≠ from_) => popUntilProduces_other h .undo (L.oplogVv d)
    (b.stacksOf from_).groups.length [] b d
  have hnonempty : ∀ res, (popUntilProduces from_ .undo (L.oplogVv d)
      (b.stacksOf from_).groups.length [] b d).result = .ok res → (b.stacksOf from_).groups ≠ [] := by
    intro res hok hnil; rw [hnil] at hok; cases hok
  have hstack : (b.stacksOf from_).stack .undo = (b.stacksOf from_).groups := rfl
  simp only [compensate, hstack] at hclean hkeeps ⊢
  generalize popUntilProduces from_ .undo (L.oplogVv d) (b.stacksOf from_).groups.length [] b d = loop
    at *
  cases hresult : loop.result with
  | error e =>
    simp only [hresult] at hclean ⊢; obtain ⟨hb, hrope⟩ := hkeeps.cleansNothing hclean
    rw [bytes, hrope]; exact hsaved hb
  | ok res =>
    obtain ⟨d', produced, change⟩ := res
    have honly := (absorbCompensation_only loop.buffer source from_ .undo change).trans
      (pushCompensation_only _ source .undo (.of (produced.map .span)))
    simp only [hresult] at hclean ⊢
    cases hexport : exportUpdatesSince (L.oplogVv d) d' with
    | error e d'' =>
      simp only [hexport] at hclean ⊢
      obtain ⟨hb, hrope⟩ := (hkeeps.trans honly.keeps).cleansNothing hclean
      have hrope' : b.rope.bytes = saved := hsaved hb; rwa [← hrope] at hrope'
    | ok wire d'' =>
      simp only [hexport] at hclean ⊢
      have hempty : ∀ other, (loop.buffer.stacksOf other).groups = [] := by
        intro other; have h := groups_of_no_history hclean other
        have h' := (pushCompensation_groups (loop.buffer.absorbCompensation source from_ .undo change)
          source (.of (produced.map .span)) other).symm.trans h
        exact absorbCompensation_groups h'
      obtain ⟨all, cs, hstackRevert, hback⟩ := hreverts (hnonempty _ hresult) fun other hne => by
        rw [← hother other hne]; exact hempty other
      obtain ⟨hall, htext⟩ := hrevert all cs d' produced change (.inl rfl) rfl hstackRevert hresult
        (hempty from_)
      have hbytes : (WfRope.fromBytes (Utf8.encode (L.text d'))).bytes = saved := by
        rw [WfRope.bytes_fromBytes, htext]; exact hback hall
      exact hbytes

/-! ## Runs -/

/-- The bytes at the last `markClean`. -/
def savedAfter (saved : Bytes) (b : Buffer L) : Call L → Buffer L → Bytes
  | .markClean, _ => b.bytes
  | _, _ => saved

/-- An undo that reaches the history and leaves none takes the text back to `saved`. -/
structure Reverting (saved : Bytes) (b : Buffer L) (c : Call L) (b' : Buffer L) : Prop where
  /-- Without a CRDT: the rope that the last entry kept is the saved one. -/
  entry : ∀ views source, c = .undoFor views source → b.readOnly = false → b.crdt = none →
    ∀ last, b.undo = [last] → last.rope.bytes = saved
  /-- With a CRDT: what undoing the last stack leaves is the saved text. -/
  stack : ∀ views source, c = .undoFor views source → b.readOnly = false → b.Reverts saved source

theorem undoV01_reverts (hentry : ∀ last, b.undo = [last] → last.rope.bytes = saved)
    (hsaved : b.isModified = false → b.bytes = saved)
    (hclean : (b.undoV01 views).buffer.isModified = false) : (b.undoV01 views).buffer.bytes =
    saved := by
  rw [undoV01] at hclean ⊢
  cases hlast : b.undo.getLast? with
  | none => rw [hlast] at hclean; exact hsaved hclean
  | some last =>
    rw [hlast] at hclean; obtain ⟨init, hundo⟩ := List.getLast?_eq_some_iff.1 hlast
    have hempty : (!b.undo.dropLast.isEmpty) = false := hclean
    rw [hundo, List.dropLast_concat, Bool.not_eq_false', List.isEmpty_iff] at hempty; subst hempty
    exact hentry last hundo

theorem undoFor_reverts (hL : L.Laws) (hentry : b.readOnly = false → b.crdt = none → ∀ last,
    b.undo = [last] → last.rope.bytes = saved) (hstack : b.readOnly = false →
    b.Reverts saved source) (hsaved : b.isModified = false → b.bytes = saved)
    (hclean : (b.undoFor views source).buffer.isModified = false) :
    (b.undoFor views source).buffer.bytes = saved := by
  rw [undoFor] at hclean ⊢
  split_ifs at hclean ⊢ with hreadOnly
  · exact hsaved hclean
  rw [Bool.not_eq_true] at hreadOnly
  cases hd : b.crdt with
  | none =>
    simp only [hd] at hclean ⊢; exact undoV01_reverts (hentry hreadOnly hd) hsaved hclean
  | some d =>
    simp only [hd] at hclean ⊢; have hclosed := (closeOwnRun_only b source).keeps
    have hcrdt : (b.closeOwnRun source).crdt = some d := by rw [closeOwnRun_only b source]; exact hd
    refine compensate_reverts hL hcrdt ?_ ?_ hclean
    · exact hstack hreadOnly d hcrdt
    · intro hb; rw [bytes, hclosed.rope]; exact hsaved (hclosed.isModified.symm.trans hb)

theorem redoFor_cleansNothing (b : Buffer L) (views : List (View (Buffer L)))
    (source : UndoSource) : CleansNothing b (b.redoFor views source).buffer := by
  rw [redoFor]
  split_ifs
  · exact .refl b
  split
  · rename_i d hd; exact redo_cleansNothing hd
  · exact redoV01_cleansNothing

theorem applyEditAs_cleansNothing (b : Buffer L) (views : List (View (Buffer L)))
    (order : List UndoSource → List UndoSource) (source : UndoSource) (op : EditOp) :
    CleansNothing b (b.applyEditAs views order source op).buffer := by
  rw [applyEditAs]
  split_ifs
  · exact .refl b
  · exact .refl b
  split
  · exact .refl b
  · exact runRopeEditAndBroadcast_cleansNothing

theorem applyEditSkipInterceptsAs_cleansNothing (b : Buffer L) (views : List (View (Buffer L)))
    (order : List UndoSource → List UndoSource) (source : UndoSource) (op : EditOp) :
    CleansNothing b (b.applyEditSkipInterceptsAs views order source op).buffer := by
  rw [applyEditSkipInterceptsAs]
  split_ifs
  · exact .refl b
  · exact runRopeEditAndBroadcast_cleansNothing

/-- An unmodified buffer holds the saved bytes after a call if it did before it. -/
theorem perform_clean (hL : L.Laws) {c : Call L}
    (hsaved : b.isModified = false → b.bytes = saved) (hok : Reverting saved b c out.buffer)
    (hout : b.perform c = some out) (hclean : out.buffer.isModified = false) : out.buffer.bytes =
    savedAfter saved b c out.buffer := by
  have hkept : CleansNothing b out.buffer → out.buffer.bytes = saved := by
    intro h; obtain ⟨hb, hrope⟩ := h hclean; rw [bytes, hrope]
    exact hsaved hb
  cases c with
  | applyEditAs views order source op =>
    cases hout; exact hkept (applyEditAs_cleansNothing b views order source op)
  | applyEditSkipInterceptsAs views order source op =>
    cases hout; exact hkept (applyEditSkipInterceptsAs_cleansNothing b views order source op)
  | applyRemoteCrdtOp views op => exact hkept (applyRemoteCrdtOp_cleansNothing hout)
  | undoFor views source =>
    cases hout
    exact undoFor_reverts hL (hok.entry views source rfl) (hok.stack views source rfl) hsaved hclean
  | redoFor views source => cases hout; exact hkept (redoFor_cleansNothing b views source)
  | arbiterSettleRemote order source run limit typed =>
    cases hout; exact hkept (arbiterSettleRemote_keeps b order source run limit typed).cleansNothing
  | arbiterTypedBegin source run limit =>
    cases hout; exact hkept (arbiterTypedBegin_keeps b source run limit).cleansNothing
  | arbiterClose source => cases hout; exact hkept (arbiterClose_only b source).keeps.cleansNothing
  | arbiterDetach source =>
    cases hout; exact hkept (arbiterDetach_only b source).keeps.cleansNothing
  | noteTypedEdit merge => cases hout; exact hkept (noteTypedEdit_only b merge).cleansNothing
  | commandCollapse => cases hout; exact hkept (commandCollapse_only b).cleansNothing
  | markClean => cases hout; rfl
  | setReadOnly | endEdit => cases hout; exact hkept (.refl b)
  | beginEdit =>
    cases hout
    refine hkept ?_; simp only [Outcome.mapResult, beginEdit]
    split_ifs <;> exact .refl b

/-- **An unmodified buffer holds what it was saved with**, in runs where no undo leaves
    an empty history and another text. -/
theorem run_clean (hL : L.Laws) {b₀ b : Buffer L} {saved : Bytes}
    (h : Traced savedAfter Reverting b₀ b₀.bytes b saved) (hclean : b.isModified = false) :
    b.bytes = saved := by
  have hinv : b.isModified = false → b.bytes = saved := by
    refine h.inv (P := fun b saved => b.isModified = false → b.bytes = saved) (fun _ => rfl) ?_
    intro b saved c out hsaved hok hout hb; exact perform_clean hL hsaved hok hout hb
  exact hinv hclean

theorem run_clean_undo :
    ((plainAb.applyEditAs [] (fun sources => sources) (.frontend 1) (.insert 1 [0x78])).buffer.undoFor
      [] (.frontend 1)).buffer.bytes = [0x61, 0x62] := by
  have hedit : Traced savedAfter Reverting plainAb plainAb.bytes
      (plainAb.applyEditAs [] (fun sources => sources) (.frontend 1) (.insert 1 [0x78])).buffer
      plainAb.bytes :=
    .call (c := .applyEditAs [] (fun sources => sources) (.frontend 1) (.insert 1 [0x78])) .start
      { entry := nofun
        stack := fun _ _ h => nomatch h } rfl
  have hundo := hedit.call (c := .undoFor [] (.frontend 1))
    { entry := nofun
      stack := by
        intro views source h _; cases h
        exact Reverts.of_revertStack ['a', 'b'] (by decide +kernel) (by decide +kernel) } rfl
  exact (run_clean Loro.plain_laws hundo rfl).trans (by decide +kernel)

/-- Saving after an insertion and undoing it: the history is empty, so the buffer counts
    as unmodified, without the text it was saved with. -/
theorem undo_past_save : ∃ b : Buffer .plain, ∃ saved : Bytes,
      Traced savedAfter (fun _ _ _ _ => True) (fromBytes .plain 0 "" []) [] b saved ∧
        b.isModified = false ∧ b.bytes ≠ saved := by
  have hedit : Traced savedAfter (fun _ _ _ _ => True) (fromBytes .plain 0 "" []) [] _ _ :=
    .call (c := .applyEditAs [] (fun sources => sources) .daemon (.insert 0 [0x61])) .start trivial rfl
  have hsave := hedit.call (c := .markClean) trivial rfl
  have hundo := hsave.call (c := .undoFor [] .daemon) trivial rfl
  refine ⟨_, _, hundo, rfl, ?_⟩
  decide +kernel

end Buffer

end Pmacs
