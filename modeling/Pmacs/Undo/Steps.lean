/-
  What the steps of a history hold, after each of its functions (buffer.rs).

  * `History.IsStep`: a step that is or may become one to undo or redo; `openRun`: the run a
    source has open.
  * `Quiet`: nothing is added to a step, and no run is opened: closing, detaching, undoing and
    redoing are so.
  * `isStep_record`, `isStep_typedBegin`, `isStep_noteTypedEdit`: what the rest adds.
-/
import Pmacs.Undo.History

namespace Pmacs.Undo

open Lib List Option

variable {R : Type}

/-- A group of the stacks, or the open one, holds the edits. -/
def Stacks.Holds (s : Stacks R) (es : List R) : Prop :=
  (∃ g ∈ s.groups, g.edits = es) ∨ (∃ g ∈ s.redo, g.edits = es) ∨ s.openGroup = some es

namespace History

/-- A step of the history holds the edits. -/
def IsStep (h : History R) (es : List R) : Prop :=
  (∃ e ∈ h.undo, e.edits = es) ∨ (∃ e ∈ h.redo, e.edits = es) ∨
    ∃ source, (h.stacksOf source).Holds es

def openRun (h : History R) (source : UndoSource) : Option (List R) :=
  (h.stacksOf source).openGroup

/-- No step holds more than before, and no run is open that was not. -/
structure Quiet (h h' : History R) : Prop where
  steps : ∀ es, h'.IsStep es → h.IsStep es
  runs : ∀ source g, h'.openRun source = some g → h.openRun source = some g

variable {h : History R}

namespace Quiet

theorem refl (h : History R) : Quiet h h := ⟨fun _ hs => hs, fun _ _ hg => hg⟩

theorem trans {h' h'' : History R} (hq : Quiet h h') (hq' : Quiet h' h'') : Quiet h h'' where
  steps es hs := hq.steps es (hq'.steps es hs)
  runs source g hg := hq.runs source g (hq'.runs source g hg)

end Quiet

/-! ## One source's stacks -/

variable {j : UndoSource} {source : UndoSource}

theorem stacksOf_setStacks {s : Stacks R} :
    (h.setStacks source s).stacksOf j = if j = source then s else h.stacksOf j := by
  by_cases hj : j = source
  · subst hj; simp [setStacks, stacksOf]
  · simp [setStacks, stacksOf, hj]

variable {s : Stacks R} {es : List R}

theorem isStep_setStacks (hs : (h.setStacks source s).IsStep es) : h.IsStep es ∨ s.Holds es := by
  rcases hs with hs | hs | ⟨j, hs⟩
  · exact .inl (.inl hs)
  · exact .inl (.inr (.inl hs))
  rw [stacksOf_setStacks] at hs
  split at hs
  · exact .inr hs
  · exact .inl (.inr (.inr ⟨j, hs⟩))

theorem openRun_setStacks (h : History R) (source j : UndoSource) (s : Stacks R) :
    (h.setStacks source s).openRun j = if j = source then s.openGroup else h.openRun j := by
  rw [openRun, stacksOf_setStacks]
  split <;> rfl

theorem setStacks_quiet (hholds : ∀ es, s.Holds es → (h.stacksOf source).Holds es)
    (hopen : ∀ g, s.openGroup = some g → h.openRun source = some g) :
    Quiet h (h.setStacks source s) where
  steps es hs := by
    rcases isStep_setStacks hs with hs | hs
    · exact hs
    · exact .inr (.inr ⟨source, hholds es hs⟩)
  runs j g hg := by
    rw [openRun_setStacks] at hg
    split at hg
    · next hj => exact hj ▸ hopen g hg
    · exact hg

variable {edits : List R}

theorem isStep_pushGroup
    (hs : (h.pushGroup source edits).IsStep es) : h.IsStep es ∨ es = edits := by
  have hset : (h.setStacks source { h.stacksOf source with
      groups := pushCapped undoHistoryLimit (h.stacksOf source).groups
        ⟨edits, (h.arbiterSeq + 1) % 2 ^ 64⟩ }).IsStep es := hs
  rcases isStep_setStacks hset with hs | ⟨g, hg, rfl⟩ | hs | hs
  · exact .inl hs
  · rcases mem_pushCapped hg with hg | rfl
    · exact .inl (.inr (.inr ⟨source, .inl ⟨g, hg, rfl⟩⟩))
    · exact .inr rfl
  · exact .inl (.inr (.inr ⟨source, .inr (.inl hs)⟩))
  · exact .inl (.inr (.inr ⟨source, .inr (.inr hs)⟩))

theorem openRun_pushGroup {edits : List R} :
    (h.pushGroup source edits).openRun j = h.openRun j := by
  have hset := openRun_setStacks h source j { h.stacksOf source with
    groups := pushCapped undoHistoryLimit (h.stacksOf source).groups ⟨edits, (h.arbiterSeq + 1) % 2 ^ 64⟩ }
  refine hset.trans ?_
  split
  · next hj => rw [hj, openRun]
  · rfl

theorem stacksOf_eq (hs : h.arbiter.lookup source = some s) : h.stacksOf source = s := by
  rw [stacksOf, hs, getD_some]

/-! ## Closing -/

theorem close_quiet (h : History R) (source : UndoSource) : Quiet h (h.close source) := by
  unfold close
  split
  · exact .refl h
  next ss hss =>
  have hstacks := stacksOf_eq hss
  split
  · exact .refl h
  next edits hopen =>
  have hset : Quiet h (h.setStacks source { ss with openGroup := none }) := by
    refine setStacks_quiet (fun es hs => ?_) nofun
    rw [hstacks]
    rcases hs with hs | hs | hs
    · exact .inl hs
    · exact .inr (.inl hs)
    · cases hs
  split
  · exact hset
  refine ⟨fun es hs => ?_, fun j g hg => ?_⟩
  · rcases isStep_pushGroup hs with hs | rfl
    · exact hset.steps es hs
    · exact .inr (.inr ⟨source, .inr (.inr (hstacks ▸ hopen))⟩)
  · rw [openRun_pushGroup] at hg; exact hset.runs j g hg

theorem openRun_close (h : History R) (source : UndoSource) :
    (h.close source).openRun source = none := by
  unfold close
  split
  · next hnone => rw [openRun, stacksOf, hnone]; rfl
  next ss hss =>
  split
  · next hopen => rw [openRun, stacksOf_eq hss, hopen]
  split
  · rw [openRun_setStacks, if_pos rfl]
  · rw [openRun_pushGroup, openRun_setStacks, if_pos rfl]

theorem closeAll_quiet (order : List UndoSource → List UndoSource) :
    Quiet h (h.closeAll order) := by
  have hall : ∀ (sources : List UndoSource) (h : History R), Quiet h (sources.foldl close h) := by
    intro sources
    induction sources with
    | nil => exact fun h => .refl h
    | cons source sources ih => exact fun h => (close_quiet h source).trans (ih _)
  exact hall _ h

theorem detach_quiet (h : History R) (source : UndoSource) : Quiet h (h.detach source) := by
  refine (close_quiet h source).trans ?_
  simp only [detach]
  split
  · exact .refl _
  next ss hss =>
  have hstacks := stacksOf_eq hss
  split
  · have hlookup : ∀ j, Stacks.Holds (stacksOf
        { h.close source with arbiter := (h.close source).arbiter.erase source } j) =
        if j = source then (Stacks.default : Stacks R).Holds
        else ((h.close source).stacksOf j).Holds := by
      intro j
      by_cases hj : j = source
      · subst hj; simp [stacksOf]
      · simp [stacksOf, hj]
    refine ⟨fun es hs => ?_, fun j g hg => ?_⟩
    · rcases hs with hs | hs | ⟨j, hs⟩
      · exact .inl hs
      · exact .inr (.inl hs)
      rw [hlookup] at hs
      split at hs
      · rcases hs with ⟨g, hg, _⟩ | ⟨g, hg, _⟩ | hs
        · cases hg
        · cases hg
        · cases hs
      · exact .inr (.inr ⟨j, hs⟩)
    by_cases hj : j = source
    · subst hj; simp [openRun, stacksOf, Stacks.default] at hg
    · simpa [openRun, stacksOf, hj] using hg
  refine setStacks_quiet (fun es hs => ?_) fun g hg => by rw [openRun, hstacks]; exact hg
  rw [hstacks]
  rcases hs with hs | ⟨g, hg, _⟩ | hs
  · exact .inl hs
  · cases hg
  · exact .inr (.inr hs)

theorem openRun_detach : (h.detach source).openRun source = none := by
  have hclose := openRun_close h source
  simp only [detach]
  split
  · exact hclose
  next ss hss =>
  split
  · simp [openRun, stacksOf, Stacks.default]
  rw [openRun_setStacks, if_pos rfl]
  rwa [openRun, stacksOf_eq hss] at hclose

/-! ## Typing and recording -/

theorem isStep_typedBegin {run limit : ℕ}
    (hs : (h.typedBegin source run limit).IsStep es) : h.IsStep es ∨ es = [] := by
  unfold typedBegin at hs
  split at hs
  · exact .inl hs
  have hclose : Quiet h (if limit = 0 ∨ run % limit = 0 then h.close source else h) := by
    split
    · exact close_quiet h source
    · exact .refl h
  generalize (if limit = 0 ∨ run % limit = 0 then h.close source else h) = h₁ at hclose hs
  rcases isStep_setStacks hs with hs | hs | hs | hs
  · exact .inl (hclose.steps es hs)
  · exact .inl (hclose.steps es (.inr (.inr ⟨source, .inl hs⟩)))
  · exact .inl (hclose.steps es (.inr (.inr ⟨source, .inr (.inl hs)⟩)))
  cases hopen : (h₁.stacksOf source).openGroup with
  | none => rw [hopen] at hs; exact .inr (some.inj hs).symm
  | some g =>
    rw [hopen] at hs; cases hs
    exact .inl (hclose.steps _ (.inr (.inr ⟨source, .inr (.inr hopen)⟩)))

/-- The run open after a keystroke begins is the one open before, or an empty one. -/
theorem openRun_typedBegin {run limit : ℕ} {g : List R}
    (hg : (h.typedBegin source run limit).openRun j = some g) :
    h.openRun j = some g ∨ j = source ∧ g = [] := by
  unfold typedBegin at hg
  split at hg
  · exact .inl hg
  have hclose : Quiet h (if limit = 0 ∨ run % limit = 0 then h.close source else h) := by
    split
    · exact close_quiet h source
    · exact .refl h
  generalize (if limit = 0 ∨ run % limit = 0 then h.close source else h) = h₁ at hclose hg
  rw [openRun_setStacks] at hg
  split at hg
  · next hj =>
    cases hopen : (h₁.stacksOf source).openGroup with
    | none => rw [hopen] at hg; exact .inr ⟨hj, (some.inj hg).symm⟩
    | some g' => rw [hopen] at hg; cases hg; exact .inl (hclose.runs j _ (hj ▸ hopen))
  · exact .inl (hclose.runs j g hg)

theorem isStep_addStep (hs : (h.addStep source edits).IsStep es) : h.IsStep es ∨ es = edits ∨
      ∃ g, h.openRun source = some g ∧ es = g ++ edits := by
  have hholds : ∀ es, Stacks.Holds { h.stacksOf source with redo := [] } es →
      (h.stacksOf source).Holds es := by
    rintro es (hs | ⟨g, hg, _⟩ | hs)
    · exact .inl hs
    · cases hg
    · exact .inr (.inr hs)
  unfold addStep at hs
  dsimp only at hs
  split at hs
  · next g hopen =>
    rcases isStep_setStacks hs with hs | hs | ⟨g', hg', _⟩ | hs
    · exact .inl hs
    · exact .inl (.inr (.inr ⟨source, .inl hs⟩))
    · cases hg'
    · exact .inr (.inr ⟨g, hopen, (some.inj hs).symm⟩)
  rcases isStep_pushGroup hs with hs | hs
  · rcases isStep_setStacks hs with hs | hs
    · exact .inl hs
    · exact .inl (.inr (.inr ⟨source, hholds es hs⟩))
  · exact .inr (.inl hs)

theorem openRun_addStep {edits : List R} : (h.addStep source edits).openRun j =
      if j = source then (h.openRun source).map (· ++ edits) else h.openRun j := by
  unfold addStep
  dsimp only
  split
  · next g hopen =>
    rw [openRun_setStacks]
    split
    · rw [openRun, hopen, map_some]
    · rfl
  next hopen =>
  rw [openRun_pushGroup, openRun_setStacks]
  split
  · rw [openRun, hopen, map_none]
  · rfl

variable {order : List UndoSource → List UndoSource}

theorem isStep_record (hs : (h.record order source edits).IsStep es) :
    h.IsStep es ∨ es = edits ∨ ∃ g, h.openRun source = some g ∧ es = g ++ edits := by
  unfold record at hs
  split at hs
  · exact .inl hs
  have hclose : Quiet h (if source = .daemon then h.closeAll order else h) := by
    split
    · exact closeAll_quiet order
    · exact .refl h
  rcases isStep_addStep hs with hs | hs | ⟨g, hg, hes⟩
  · exact .inl (hclose.steps es hs)
  · exact .inr (.inl hs)
  · exact .inr (.inr ⟨g, hclose.runs source g hg, hes⟩)

theorem openRun_record {g : List R} (hg : (h.record order source edits).openRun j = some g) :
    h.openRun j = some g ∨ j = source ∧ ∃ g', h.openRun source = some g' ∧ g = g' ++ edits := by
  unfold record at hg
  split at hg
  · exact .inl hg
  have hclose : Quiet h (if source = .daemon then h.closeAll order else h) := by
    split
    · exact closeAll_quiet order
    · exact .refl h
  rw [openRun_addStep] at hg
  split at hg
  · next hj =>
    obtain ⟨g', hg', rfl⟩ := map_eq_some_iff.1 hg
    exact .inr ⟨hj, g', hclose.runs source g' hg', rfl⟩
  · exact .inl (hclose.runs j g hg)

/-! ## The rope-only history -/

/-- Where the entries of a keystroke's command begin: at the floor, or at the newest. -/
def commandStart (h : History R) : ℕ :=
  match h.typedFloor with
  | some floor => if floor + 1 < h.undo.length then floor else h.undo.length - 1
  | none => h.undo.length - 1

def commandEdits (h : History R) : List R := editsOf (h.undo.drop h.commandStart)

def typedBelow (h : History R) : Option (Entry R) :=
  (h.undo.take h.commandStart).getLast?.filter Entry.typed

/-- What a keystroke's step holds: what its command did, joined to the typed entry below it
    when the keystroke continues a run. -/
def joined (h : History R) (merge : Bool) : List R :=
  if merge then ((h.typedBelow.map Entry.edits).getD []) ++ h.commandEdits else h.commandEdits

theorem isStep_pushEntry {r : R} (hs : (h.pushEntry r).IsStep es) : h.IsStep es ∨ es = [r] := by
  rcases hs with ⟨e, he, rfl⟩ | ⟨e, he, _⟩ | hs
  · rcases mem_pushCapped he with he | rfl
    · exact .inl (.inl ⟨e, he, rfl⟩)
    · exact .inr rfl
  · cases he
  · exact .inl (.inr (.inr hs))

theorem openRun_pushEntry (r : R) : (h.pushEntry r).openRun j = h.openRun j := rfl

theorem collapse_undo (h : History R) (hne : h.undo ≠ []) : ∃ typed, h.collapseTypedCommand.undo =
      h.undo.take h.commandStart ++ [⟨h.commandEdits, typed⟩] := by
  have hlast : h.undo = h.undo.take (h.undo.length - 1) ++ [h.undo.getLast hne] := by
    rw [← dropLast_eq_take, dropLast_append_getLast]
  have hsingle : ∃ typed, h.undo = h.undo.take (h.undo.length - 1) ++
      [(⟨editsOf (h.undo.drop (h.undo.length - 1)), typed⟩ : Entry R)] := by
    have hdrop : h.undo.drop (h.undo.length - 1) = [h.undo.getLast hne] := drop_length_sub_one hne
    refine ⟨(h.undo.getLast hne).typed, ?_⟩
    rw [hdrop, editsOf, flatMap_cons, flatMap_nil, append_nil]; exact hlast
  unfold collapseTypedCommand commandEdits commandStart
  cases h.typedFloor with
  | none => exact hsingle
  | some floor =>
    dsimp only
    by_cases hfloor : h.undo.length ≤ floor + 1
    · rw [if_pos hfloor, if_neg (by omega)]; exact hsingle
    · rw [if_neg hfloor, if_pos (by omega)]; exact ⟨false, rfl⟩

theorem collapse_undo_nil (h : History R) (hnil : h.undo = []) :
    h.collapseTypedCommand.undo = [] := by
  unfold collapseTypedCommand
  split
  · exact hnil
  · rw [hnil]; rfl

theorem collapse_rest (h : History R) : h.collapseTypedCommand.redo = h.redo ∧
    h.collapseTypedCommand.arbiter = h.arbiter := by
  unfold collapseTypedCommand
  split
  · exact ⟨rfl, rfl⟩
  dsimp only
  split <;> exact ⟨rfl, rfl⟩

theorem noteTypedEdit_rest (h : History R) (merge : Bool) :
    (h.noteTypedEdit merge).redo = h.redo ∧ (h.noteTypedEdit merge).arbiter = h.arbiter := by
  have hrest := collapse_rest h
  unfold noteTypedEdit
  split
  · exact ⟨rfl, rfl⟩
  dsimp only
  split
  · exact hrest
  split
  · exact hrest
  split
  · exact hrest
  · split <;> exact hrest

/-- The keystroke's step is on top, over entries that were there. -/
theorem noteTypedEdit_undo (hcrdt : h.crdt = false) (hne : h.undo ≠ [])
    (merge : Bool) : ∃ front typed, (h.noteTypedEdit merge).undo =
      front ++ [⟨h.joined merge, typed⟩] ∧ ∀ e ∈ front, e ∈ h.undo := by
  obtain ⟨typed, hundo⟩ := collapse_undo h hne
  have hfront : ∀ e ∈ h.undo.take h.commandStart, e ∈ h.undo := fun e he => mem_of_mem_take he
  unfold noteTypedEdit joined typedBelow
  simp only [hcrdt, hundo, Bool.false_eq_true, if_false, getLast?_concat, dropLast_concat]
  cases merge with
  | false => exact ⟨_, true, rfl, hfront⟩
  | true =>
    cases hbelow : (h.undo.take h.commandStart).getLast? with
    | none => exact ⟨_, true, rfl, hfront⟩
    | some prev =>
      cases hprev : prev.typed with
      | false => exact ⟨_, true, by simp [hprev, Option.filter], hfront⟩
      | true =>
        refine ⟨(h.undo.take h.commandStart).dropLast, prev.typed, ?_, fun e he =>
          hfront e (dropLast_subset _ he)⟩
        simp [hprev, Option.filter]

/-- Where only the newest entries were replaced by one, a step is an old one, or that entry's. -/
theorem isStep_of_newest {h' : History R} {top : List R} (hredo : h'.redo = h.redo)
    (harb : h'.arbiter = h.arbiter)
    (hundo : ∀ e ∈ h'.undo, e ∈ h.undo ∨ h.undo ≠ [] ∧ e.edits = top) (hs : h'.IsStep es) :
    h.IsStep es ∨ h.undo ≠ [] ∧ es = top := by
  rcases hs with ⟨e, he, rfl⟩ | hs | ⟨source, hs⟩
  · rcases hundo e he with hold | hnew
    · exact .inl (.inl ⟨e, hold, rfl⟩)
    · exact .inr hnew
  · exact .inl (.inr (.inl (hredo ▸ hs)))
  · refine .inl (.inr (.inr ⟨source, ?_⟩))
    rwa [stacksOf, harb] at hs

theorem isStep_noteTypedEdit {merge : Bool} (hs : (h.noteTypedEdit merge).IsStep es) :
    h.IsStep es ∨ (h.crdt = false ∧ h.undo ≠ []) ∧ es = h.joined merge := by
  cases hcrdt : h.crdt with
  | true =>
    have hsame : h.noteTypedEdit merge = h := by unfold noteTypedEdit; rw [if_pos hcrdt]
    exact .inl (hsame ▸ hs)
  | false =>
    obtain ⟨hredo, harb⟩ := noteTypedEdit_rest h merge
    refine (isStep_of_newest hredo harb (fun e he => ?_) hs).imp_right (And.imp_left (⟨rfl, ·⟩))
    by_cases hne : h.undo = []
    · have hnil : (h.noteTypedEdit merge).undo = [] := by
        have hcollapse := collapse_undo_nil h hne; unfold noteTypedEdit
        simp [hcrdt, hcollapse]
      rw [hnil] at he; cases he
    obtain ⟨front, typed, hundo, hfront⟩ := noteTypedEdit_undo hcrdt hne merge
    rw [hundo, mem_append, mem_singleton] at he
    exact he.imp (hfront e) fun htop => ⟨hne, by rw [htop]⟩

theorem commandCollapse_undo (hcrdt : h.crdt = false) (hne : h.undo ≠ []) :
    ∃ front typed, h.commandCollapse.undo = front ++ [⟨h.commandEdits, typed⟩] ∧
      ∀ e ∈ front, e ∈ h.undo := by
  obtain ⟨typed, hundo⟩ := collapse_undo h hne
  refine ⟨h.undo.take h.commandStart, typed, ?_, fun e he => mem_of_mem_take he⟩
  unfold commandCollapse
  rw [hcrdt]
  exact hundo

theorem isStep_commandCollapse (hs : h.commandCollapse.IsStep es) :
    h.IsStep es ∨ (h.crdt = false ∧ h.undo ≠ []) ∧ es = h.commandEdits := by
  cases hcrdt : h.crdt with
  | true =>
    have hsame : h.commandCollapse = h := by unfold commandCollapse; rw [if_pos hcrdt]
    exact .inl (hsame ▸ hs)
  | false =>
    obtain ⟨hredo, harb⟩ := collapse_rest h
    have heq : h.commandCollapse = h.collapseTypedCommand := by
      unfold commandCollapse; rw [hcrdt]; rfl
    refine (isStep_of_newest (by rw [heq, hredo]) (by rw [heq, harb]) (fun e he => ?_) hs).imp_right
      (And.imp_left (⟨rfl, ·⟩))
    by_cases hne : h.undo = []
    · rw [heq, collapse_undo_nil h hne] at he; cases he
    obtain ⟨front, typed, hundo, hfront⟩ := commandCollapse_undo hcrdt hne
    rw [hundo, mem_append, mem_singleton] at he
    exact he.imp (hfront e) fun htop => ⟨hne, by rw [htop]⟩

/-! ## Undo and redo -/

theorem sweepDeparted_quiet : Quiet h h.sweepDeparted := by
  have hstacks : ∀ j, h.sweepDeparted.stacksOf j = h.stacksOf j ∨
      h.sweepDeparted.stacksOf j = .default := by
    intro j; simp only [stacksOf, sweepDeparted, Assoc.lookup_retain]
    cases h.arbiter.lookup j with
    | none => exact .inr rfl
    | some s =>
      cases hs : s.detached && s.groups.isEmpty with
      | true => exact .inr (by simp [Option.filter, hs])
      | false => exact .inl (by simp [Option.filter, hs])
  refine ⟨fun es hs => ?_, fun j g hg => ?_⟩
  · rcases hs with hs | hs | ⟨j, hs⟩
    · exact .inl hs
    · exact .inr (.inl hs)
    rcases hstacks j with hj | hj
    · exact .inr (.inr ⟨j, hj ▸ hs⟩)
    rw [hj] at hs
    rcases hs with ⟨g, hg, _⟩ | ⟨g, hg, _⟩ | hs
    · cases hg
    · cases hg
    · cases hs
  rw [openRun] at hg
  rcases hstacks j with hj | hj
  · rwa [hj] at hg
  · rw [hj] at hg; cases hg

theorem closeOwnRun_quiet (h : History R) (source : UndoSource) :
    Quiet h (h.closeOwnRun source) := by
  cases source with
  | daemon => exact .refl h
  | frontend _ => exact close_quiet h _

theorem popped_quiet (hgroups : ∀ g ∈ s.groups, g ∈ (h.stacksOf source).groups)
    (hredo : ∀ g ∈ s.redo, (h.stacksOf source).Holds g.edits)
    (hopen : s.openGroup = (h.stacksOf source).openGroup) : Quiet h (h.setStacks source s) := by
  refine setStacks_quiet (fun es hs => ?_) fun g hg => hopen.symm.trans hg
  rcases hs with ⟨g, hg, rfl⟩ | ⟨g, hg, rfl⟩ | hs
  · exact .inl ⟨g, hgroups g hg, rfl⟩
  · exact hredo g hg
  · exact .inr (.inr (hopen ▸ hs))

theorem mem_rdrop {α : Type} {xs : List α} {n : ℕ} {x : α} (h : x ∈ xs.rdrop n) : x ∈ xs := by
  exact mem_of_mem_take h

variable {spent : ℕ}

theorem undoArbiter_quiet : Quiet h (h.undoArbiter source spent).1 ∧
      ((h.undoArbiter source spent).2 = [] ∨ h.IsStep (h.undoArbiter source spent).2) := by
  have hclose := closeOwnRun_quiet h source
  unfold undoArbiter
  dsimp only
  generalize h.closeOwnRun source = h₁ at hclose
  generalize h₁.undoPick source = from_
  split
  · refine ⟨hclose.trans (Quiet.trans ?_ (sweepDeparted_quiet)), .inl rfl⟩
    exact popped_quiet nofun (fun g hg => .inr (.inl ⟨g, hg, rfl⟩)) rfl
  next group hgroup =>
  have hmem : group ∈ (h₁.stacksOf from_).groups := mem_rdrop (mem_of_getLast? hgroup)
  have hstep : h₁.IsStep group.edits := .inr (.inr ⟨from_, .inl ⟨group, hmem, rfl⟩⟩)
  refine ⟨hclose.trans (Quiet.trans ?_ (sweepDeparted_quiet)), .inr (hclose.steps _ hstep)⟩
  have hpop : Quiet h₁ (h₁.setStacks from_ { h₁.stacksOf from_ with
      groups := ((h₁.stacksOf from_).groups.rdrop spent).dropLast }) := by
    refine popped_quiet (fun g hg => ?_) (fun g hg => .inr (.inl ⟨g, hg, rfl⟩)) rfl
    exact mem_rdrop (dropLast_subset _ hg)
  refine ⟨fun es hs => ?_, fun j g hg => ?_⟩
  · rcases isStep_setStacks hs with hs | hs | ⟨g, hg, rfl⟩ | hs
    · exact hpop.steps es hs
    · exact hpop.steps es (.inr (.inr ⟨source, .inl hs⟩))
    · rcases mem_pushCapped hg with hg | rfl
      · exact hpop.steps _ (.inr (.inr ⟨source, .inr (.inl ⟨g, hg, rfl⟩)⟩))
      · exact hstep
    · exact hpop.steps es (.inr (.inr ⟨source, .inr (.inr hs)⟩))
  rw [openRun_setStacks] at hg
  split at hg
  · next hj => exact hpop.runs j g (hj ▸ hg)
  · exact hpop.runs j g hg

theorem undoFor_quiet (h : History R) (source : UndoSource) (spent : ℕ) :
    Quiet h (h.undoFor source spent).1 ∧
      ((h.undoFor source spent).2 = [] ∨ h.IsStep (h.undoFor source spent).2) := by
  unfold undoFor
  split
  · exact undoArbiter_quiet
  unfold undoV01
  split
  · exact ⟨.refl h, .inl rfl⟩
  next entry hentry =>
  have hmem : entry ∈ h.undo := mem_of_getLast? hentry
  refine ⟨⟨fun es hs => ?_, fun _ _ hg => hg⟩, .inr (.inl ⟨entry, hmem, rfl⟩)⟩
  rcases hs with ⟨e, he, hes⟩ | ⟨e, he, rfl⟩ | hs
  · exact .inl ⟨e, dropLast_subset _ he, hes⟩
  · rcases mem_append.1 he with he | he
    · exact .inr (.inl ⟨e, he, rfl⟩)
    · rw [mem_singleton.1 he]; exact .inl ⟨entry, hmem, rfl⟩
  · exact .inr (.inr hs)

theorem redoFor_quiet : Quiet h (h.redoFor source spent) := by
  unfold redoFor
  split
  · unfold redoArbiter; dsimp only
    split
    · exact popped_quiet (fun g hg => hg) nofun rfl
    next group hgroup =>
    have hmem : group ∈ (h.stacksOf source).redo := mem_rdrop (mem_of_getLast? hgroup)
    have hpop : Quiet h (h.setStacks source { h.stacksOf source with
        redo := ((h.stacksOf source).redo.rdrop spent).dropLast }) := by
      refine popped_quiet (fun g hg => hg) (fun g hg => ?_) rfl
      exact .inr (.inl ⟨g, mem_rdrop (dropLast_subset _ hg), rfl⟩)
    refine ⟨fun es hs => ?_, fun j g hg => ?_⟩
    · rcases isStep_pushGroup hs with hs | rfl
      · exact hpop.steps es hs
      · exact .inr (.inr ⟨source, .inr (.inl ⟨group, hmem, rfl⟩)⟩)
    · rw [openRun_pushGroup] at hg; exact hpop.runs j g hg
  unfold redoV01
  split
  · exact .refl h
  next entry hentry =>
  have hmem : entry ∈ h.redo := mem_of_getLast? hentry
  refine ⟨fun es hs => ?_, fun _ _ hg => hg⟩
  rcases hs with ⟨e, he, rfl⟩ | ⟨e, he, hes⟩ | hs
  · rcases mem_append.1 he with he | he
    · exact .inl ⟨e, he, rfl⟩
    · rw [mem_singleton.1 he]; exact .inr (.inl ⟨entry, hmem, rfl⟩)
  · exact .inr (.inl ⟨e, dropLast_subset _ he, hes⟩)
  · exact .inr (.inr hs)

theorem upgrade_quiet : Quiet h h.upgrade := by
  unfold upgrade
  split
  · exact .refl h
  refine ⟨fun es hs => ?_, fun _ _ hg => hg⟩
  rcases hs with ⟨e, he, _⟩ | ⟨e, he, _⟩ | hs
  · cases he
  · cases he
  · exact .inr (.inr hs)

theorem undoFor_top (hcrdt : h.crdt = false) {front : List (Entry R)}
    {top : Entry R} (hundo : h.undo = front ++ [top]) :
    (h.undoFor source spent).2 = top.edits := by
  unfold undoFor undoV01
  rw [hcrdt, hundo]
  simp

end History

end Pmacs.Undo
