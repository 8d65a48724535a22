/-
  Undo steps and command boundaries, over whole runs (editor_core.rs, buffer.rs).

  * `Kept`: every step is uniform, and a run is open only on the buffer its frontend is said to
    have one on, with edits since its last boundary; every clean event keeps it.
  * `undo_within_boundaries`: an event keeps undo within the command boundaries if and only if it
    is clean.
-/
import Pmacs.Undo.Core

namespace Pmacs.Undo

open Lib Function List Option

namespace EditorCore

variable {borrowed : Bool} {id : BufferId} {fid : FrontendId} {h : History Stamp}
  {f : History Stamp → History Stamp} {limit : ℕ}

theorem uniform_nil : Uniform [] := nofun

variable {edits : List Stamp}

theorem uniform_of_stamp {t : Stamp} (h : ∀ s ∈ edits, s = t) : Uniform edits := by
  intro fid s hs s' hs' _ _
  rw [h s hs, h s' hs']

/-- What holds of the histories after clean events. -/
structure Kept (c : EditorCore) : Prop where
  uniform : ∀ id h, c.buffers id = some h → ∀ es, h.IsStep es → Uniform es
  slot : ∀ id h fid g, c.buffers id = some h → h.openRun (.frontend fid) = some g →
    c.undoGroup fid = some id
  now : ∀ id h source g, c.buffers id = some h → h.openRun source = some g →
    ∀ s ∈ g, s = c.stamp source

theorem buffers_modify (c : EditorCore) (id id' : BufferId) (f : History Stamp → History Stamp) :
    (c.modify id f).buffers id' = if id' = id then (c.buffers id).map f else c.buffers id' := by
  by_cases h : id' = id
  · subst h; simp [modify]
  · simp [modify, h]

variable {c : EditorCore} {id' : BufferId}

/-- A buffer of the core after one was changed is another, or the changed one. -/
theorem modify_cases {h' : History Stamp} (hb : (c.modify id f).buffers id' = some h') :
    (id' ≠ id ∧ c.buffers id' = some h') ∨ id' = id ∧ ∃ h, c.buffers id = some h ∧ h' = f h := by
  rw [buffers_modify] at hb
  split at hb
  · next hid =>
    obtain ⟨h, hh, rfl⟩ := map_eq_some_iff.1 hb; exact .inr ⟨hid, h, hh, rfl⟩
  · next hid => exact .inl ⟨hid, hb⟩

theorem Kept.of_eq {c' : EditorCore} (hc : c.Kept) (hbuffers : c'.buffers = c.buffers)
    (hgroup : c'.undoGroup = c.undoGroup) (hbound : c'.boundaries = c.boundaries) : c'.Kept := by
  have hstamp : c'.stamp = c.stamp := by
    funext source
    cases source with
    | daemon => rfl
    | frontend fid => rw [stamp, stamp, hbound]
  refine ⟨fun id h hb => hc.uniform id h (hbuffers ▸ hb), fun id h fid g hb => ?_,
    fun id h source g hb => ?_⟩
  · rw [hgroup]; exact hc.slot id h fid g (hbuffers ▸ hb)
  · rw [hstamp]; exact hc.now id h source g (hbuffers ▸ hb)

/-- A history changed: its new steps are uniform, and its runs those of before, or the one its
    frontend has open there now. -/
theorem Kept.modify (hc : c.Kept) {group : FrontendId → Option BufferId}
    (hgroup : ∀ fid, group fid = c.undoGroup fid ∨ group fid = some id ∧
      ∀ id' h, id' ≠ id → c.buffers id' = some h → h.openRun (.frontend fid) = none)
    (hsteps : ∀ h es, c.buffers id = some h → (f h).IsStep es → h.IsStep es ∨ Uniform es)
    (hruns : ∀ h source g, c.buffers id = some h → (f h).openRun source = some g →
      (∀ fid, source = .frontend fid → group fid = some id) ∧ ∀ s ∈ g, s = c.stamp source) :
    { c.modify id f with undoGroup := group }.Kept := by
  refine ⟨fun id' h' hb es hs => ?_, fun id' h' fid g hb hg => ?_, fun id' h' source g hb hg => ?_⟩
  · rcases modify_cases hb with ⟨_, hold⟩ | ⟨_, h, hold, rfl⟩
    · exact hc.uniform id' h' hold es hs
    rcases hsteps h es hold hs with hs | hs
    · exact hc.uniform id h hold es hs
    · exact hs
  · rcases modify_cases hb with ⟨hne, hold⟩ | ⟨rfl, h, hold, rfl⟩
    · have hslot := hc.slot id' h' fid g hold hg
      rcases hgroup fid with hsame | ⟨_, hnone⟩
      · exact hsame.trans hslot
      · rw [hnone id' h' hne hold] at hg; cases hg
    · exact (hruns h _ g hold hg).1 fid rfl
  rcases modify_cases hb with ⟨_, hold⟩ | ⟨_, h, hold, rfl⟩
  · exact hc.now id' h' source g hold hg
  · exact (hruns h source g hold hg).2

theorem Kept.quiet (hc : c.Kept)
    (hf : ∀ h, c.buffers id = some h → History.Quiet h (f h)) : (c.modify id f).Kept := by
  refine hc.modify (fun fid => .inl rfl) (fun h es hb hs => .inl ((hf h hb).steps es hs))
    fun h source g hb hg => ?_
  have hold := (hf h hb).runs source g hg
  exact ⟨fun fid hfid => hc.slot id h fid g hb (hfid ▸ hold), hc.now id h source g hb hold⟩

/-! ## Boundaries -/

theorem undoGroupCloseFor_closes (hc : c.Kept)
    (hb : (c.undoGroupCloseFor fid false).buffers id = some h) :
    h.openRun (.frontend fid) = none := by
  by_contra hopen
  obtain ⟨g, hg⟩ := ne_none_iff_exists'.1 hopen
  unfold undoGroupCloseFor at hb
  cases hslot : c.undoGroup fid with
  | none =>
    rw [hslot] at hb; have := hc.slot id h fid g hb hg; rw [hslot] at this
    cases this
  | some id' =>
    rw [hslot] at hb
    rcases modify_cases hb with ⟨hne, hb⟩ | ⟨_, h', _, rfl⟩
    · have := hc.slot id h fid g hb hg; rw [hslot] at this; exact hne (some.inj this).symm
    · exact hopen (History.openRun_close h' _)

theorem Kept.undoGroupCloseFor (hc : c.Kept) (fid : FrontendId)
    (borrowed : Bool) : (c.undoGroupCloseFor fid borrowed).Kept := by
  have hcloses : ∀ id h, (c.undoGroupCloseFor fid false).buffers id = some h →
      h.openRun (.frontend fid) = none := fun _ _ hb => undoGroupCloseFor_closes hc hb
  unfold EditorCore.undoGroupCloseFor at hcloses ⊢
  cases hslot : c.undoGroup fid with
  | none => exact hc
  | some id =>
    cases borrowed with
    | true => exact hc
    | false =>
      simp only [hslot, Bool.false_eq_true, if_false] at hcloses ⊢
      have hquiet : (c.modify id fun h => h.close (.frontend fid)).Kept :=
        hc.quiet fun h _ => History.close_quiet h (.frontend fid)
      refine ⟨hquiet.uniform, fun id' h' fid' g hb hg => ?_, hquiet.now⟩
      have hold := hquiet.slot id' h' fid' g hb hg
      by_cases hfid : fid' = fid
      · subst hfid; rw [hcloses id' h' hb] at hg; cases hg
      · simpa [setGroup, hfid] using hold

theorem Kept.boundary (hc : c.Kept) (fid : FrontendId) (borrowed : Bool) :
    (c.boundary fid borrowed).Kept := by
  have hclosed := hc.undoGroupCloseFor fid borrowed
  unfold EditorCore.boundary
  cases borrowed with
  | true => exact hclosed
  | false =>
    refine ⟨hclosed.uniform, hclosed.slot, fun id h source g hb hg s hs => ?_⟩
    have hold := hclosed.now id h source g hb hg s hs
    cases source with
    | daemon => exact hold
    | frontend fid' =>
      by_cases hfid : fid' = fid
      · subst hfid; rw [undoGroupCloseFor_closes hc hb] at hg; cases hg
      · rw [hold]; simp [stamp, hfid]

theorem boundary_closes (hc : c.Kept) (fid : FrontendId)
    (hb : (c.boundary fid false).buffers id = some h) : h.openRun (.frontend fid) = none :=
  undoGroupCloseFor_closes hc hb

theorem Kept.setHistory (hc : c.Kept) (fid : FrontendId)
    (entry : CommandHistory) : (c.setHistory fid entry).Kept := hc.of_eq rfl rfl rfl

theorem Kept.rotateCommand (hc : c.Kept) (fid : FrontendId) (name : String)
    (borrowed : Bool) : (c.rotateCommand fid name borrowed).Kept := by
  unfold EditorCore.rotateCommand
  split
  · exact (hc.setHistory fid _).boundary fid borrowed
  · exact hc.setHistory fid _

theorem Kept.breakCommandChain (hc : c.Kept) (fid : FrontendId)
    (borrowed : Bool) : (c.breakCommandChain fid borrowed).Kept :=
  (hc.setHistory fid _).boundary fid borrowed

theorem Kept.closes (hc : c.Kept) {e : Event} (he : Bounds fid e)
    (hb : (c.step e).buffers id = some h) : h.openRun (.frontend fid) = none := by
  cases e with
  | rotated fid' name borrowed =>
    obtain ⟨rfl, hname, rfl⟩ := he; simp only [EditorCore.step, EditorCore.rotateCommand] at hb
    rw [if_pos hname] at hb; exact boundary_closes (hc.setHistory fid' _) fid' hb
  | broken fid' borrowed =>
    obtain ⟨rfl, rfl⟩ := he; exact boundary_closes (hc.setHistory fid' _) fid' hb
  | began _ _ _ _ | acceptBegan _ _ _ | edited _ _ _ _ | finished _ _ _ _ | acceptFinished _ _
  | imported _ _ _ _ _ _ | undone _ _ _ | redone _ _ _ | detached _ | opened _ _ | upgraded _
  | killed _ => exact he.elim

/-! ## Keystrokes -/

theorem Kept.typedRunBeginFor (hc : c.Kept) (limit : ℕ)
    (hclean : borrowed = true ∨ c.buffers id = none ∨ c.NoOtherRun fid id) :
    (c.typedRunBeginFor fid id limit borrowed).Kept := by
  unfold EditorCore.typedRunBeginFor
  cases borrowed with
  | true => exact hc
  | false =>
    cases hb : c.buffers id with
    | none => exact hc
    | some h₀ =>
      have hother : c.NoOtherRun fid id := by
        rcases hclean with h | h | h
        · cases h
        · rw [hb] at h; cases h
        · exact h
      refine hc.modify (fun fid' => ?_) (fun h es _ hs => ?_) fun h source g hb hg => ?_
      · by_cases hfid : fid' = fid
        · subst hfid; exact .inr ⟨update_self .., hother⟩
        · exact .inl (update_of_ne hfid ..)
      · rcases History.isStep_typedBegin hs with hs | rfl
        · exact .inl hs
        · exact .inr uniform_nil
      rcases History.openRun_typedBegin hg with hold | ⟨rfl, rfl⟩
      · refine ⟨fun fid' hfid => ?_, hc.now id h source g hb hold⟩
        by_cases hfid' : fid' = fid
        · rw [hfid']; exact update_self ..
        · refine (update_of_ne hfid' ..).trans ?_; exact hc.slot id h fid' g hb (hfid ▸ hold)
      refine ⟨fun fid' hfid => ?_, nofun⟩; cases hfid
      exact update_self ..

theorem Kept.folded (hc : c.Kept) {joined : History Stamp → List Stamp}
    (hsteps : ∀ h es, (f h).IsStep es →
      h.IsStep es ∨ (h.crdt = false ∧ h.undo ≠ []) ∧ es = joined h)
    (hruns : ∀ h, (f h).arbiter = h.arbiter)
    (hclean : ∀ h, c.buffers id = some h → h.crdt = false → h.undo ≠ [] → Uniform (joined h)) :
    (c.modify id f).Kept := by
  refine hc.modify (fun fid => .inl rfl) (fun h es hb hs => ?_) fun h source g hb hg => ?_
  · rcases hsteps h es hs with hs | ⟨⟨hcrdt, hne⟩, rfl⟩
    · exact .inl hs
    · exact .inr (hclean h hb hcrdt hne)
  have hold : h.openRun source = some g := by rwa [History.openRun, History.stacksOf, hruns] at hg
  exact ⟨fun fid hfid => hc.slot id h fid g hb (hfid ▸ hold), hc.now id h source g hb hold⟩

theorem commandCollapse_arbiter (h : History Stamp) : h.commandCollapse.arbiter = h.arbiter := by
  unfold History.commandCollapse
  split
  · rfl
  · exact (History.collapse_rest h).2

/-! ## Edits -/

/-- The stamp of an edit that joins an open run is that of the run. -/
theorem Kept.edited (hc : c.Kept) (order : List UndoSource → List UndoSource)
    (source : UndoSource) (id : BufferId) (ops : ℕ) :
    (c.modify id fun h => h.edit order source ops (c.stamp source)).Kept := by
  have hreplicate : ∀ s ∈ List.replicate ops (c.stamp source), s = c.stamp source :=
    fun s hs => eq_of_mem_replicate hs
  refine hc.modify (fun fid => .inl rfl) (fun h es hb hs => ?_) fun h j g hb hg => ?_
  · unfold History.edit at hs
    split at hs
    · rcases History.isStep_record hs with hs | rfl | ⟨g, hg, rfl⟩
      · exact .inl hs
      · exact .inr (uniform_of_stamp hreplicate)
      refine .inr (uniform_of_stamp (t := c.stamp source) fun s hs => ?_)
      rcases mem_append.1 hs with hs | hs
      · exact hc.now id h source g hb hg s hs
      · exact hreplicate s hs
    rcases History.isStep_pushEntry hs with hs | rfl
    · exact .inl hs
    refine .inr (uniform_of_stamp (t := c.stamp source) fun s hs => ?_)
    exact mem_singleton.1 hs
  have hold : ∀ g', h.openRun j = some g' →
      ∀ fid, j = .frontend fid → c.undoGroup fid = some id :=
    fun g' hg' fid hfid => hc.slot id h fid g' hb (hfid ▸ hg')
  unfold History.edit at hg
  split at hg
  · rcases History.openRun_record hg with hg | ⟨rfl, g', hg', rfl⟩
    · exact ⟨hold g hg, hc.now id h j g hb hg⟩
    refine ⟨hold g' hg', fun s hs => ?_⟩
    rcases mem_append.1 hs with hs | hs
    · exact hc.now id h j g' hb hg' s hs
    · exact hreplicate s hs
  · rw [History.openRun_pushEntry] at hg; exact ⟨hold g hg, hc.now id h j g hb hg⟩

/-! ## Imports -/

theorem undoGroup_boundary {c : EditorCore} : (c.boundary fid false).undoGroup fid = none := by
  simp only [EditorCore.boundary, Bool.false_eq_true, if_false]
  unfold EditorCore.undoGroupCloseFor
  cases hslot : c.undoGroup fid with
  | none => exact hslot
  | some id => simp only [Bool.false_eq_true, if_false]; exact update_self ..

/-- What an import's settling begins from: the run continued, or closed. -/
theorem settle_begun (h : History Stamp) (source : UndoSource) (run limit : ℕ) (typed : Bool) :
    (∀ es, (if typed then h.typedBegin source run limit else h.close source).IsStep es →
      h.IsStep es ∨ es = []) ∧
    ∀ j g, (if typed then h.typedBegin source run limit else h.close source).openRun j = some g →
      h.openRun j = some g ∧ (typed = false → j ≠ source) ∨ typed = true ∧ j = source ∧ g = [] := by
  cases typed with
  | true =>
    refine ⟨fun es hs => History.isStep_typedBegin hs, fun j g hg => ?_⟩
    rcases History.openRun_typedBegin hg with hg | ⟨hj, hg⟩
    · exact .inl ⟨hg, nofun⟩
    · exact .inr ⟨rfl, hj, hg⟩
  | false =>
    refine ⟨fun es hs => .inl ((History.close_quiet h source).steps es hs), fun j g hg => ?_⟩
    refine .inl ⟨(History.close_quiet h source).runs j g hg, fun _ hj => ?_⟩; subst hj
    rw [if_neg (by simp), History.openRun_close] at hg; cases hg

theorem Kept.arbiterSettleRemote (hc : c.Kept) (order : List UndoSource → List UndoSource)
    (source : FrontendId) (id : BufferId) (ops limit : ℕ) {typed : Bool} (hgroup : typed = false →
    c.undoGroup source = none) (hother : typed = true → c.NoOtherRun source id) :
    (c.arbiterSettleRemote order source id ops limit typed).Kept := by
  have hreplicate : ∀ s ∈ List.replicate ops (c.stamp (.frontend source)),
      s = c.stamp (.frontend source) := fun s hs => eq_of_mem_replicate hs
  refine hc.modify (fun fid => ?_) (fun h es hb hs => ?_) fun h j g hb hg => ?_
  · by_cases hfid : fid = source
    · subst hfid; rw [update_self]
      cases typed with
      | true => exact .inr ⟨rfl, hother rfl⟩
      | false => exact .inl (hgroup rfl).symm
    · exact .inl (update_of_ne hfid ..)
  · obtain ⟨hsteps, hruns⟩ := settle_begun h (.frontend source) (c.commandHistory source).run limit typed
    rcases History.isStep_record hs with hs | rfl | ⟨g, hg, rfl⟩
    · rcases hsteps es hs with hs | rfl
      · exact .inl hs
      · exact .inr uniform_nil
    · exact .inr (uniform_of_stamp hreplicate)
    refine .inr (uniform_of_stamp (t := c.stamp (.frontend source)) fun s hs => ?_)
    rcases mem_append.1 hs with hs | hs
    · rcases hruns _ g hg with ⟨hg, _⟩ | ⟨_, _, rfl⟩
      · exact hc.now id h _ g hb hg s hs
      · cases hs
    · exact hreplicate s hs
  obtain ⟨_, hruns⟩ := settle_begun h (.frontend source) (c.commandHistory source).run limit typed
  have hslot : ∀ g', (if typed then h.typedBegin (.frontend source)
      (c.commandHistory source).run limit else h.close (.frontend source)).openRun j = some g' →
      (∀ fid, j = .frontend fid →
        Function.update c.undoGroup source (if typed then some id else none) fid = some id) ∧
        ∀ s ∈ g', s = c.stamp j := by
    intro g' hg'
    rcases hruns j g' hg' with ⟨hold, hne⟩ | ⟨htyped, hj, rfl⟩
    · refine ⟨fun fid hfid => ?_, hc.now id h j g' hb hold⟩
      by_cases hfs : fid = source
      · subst hfs
        cases typed with
        | true => exact update_self ..
        | false => exact absurd hfid (hne rfl)
      · rw [update_of_ne hfs]; exact hc.slot id h fid g' hb (hfid ▸ hold)
    refine ⟨fun fid hfid => ?_, nofun⟩; rw [hj] at hfid; cases hfid
    rw [update_self, htyped, if_pos rfl]
  rcases History.openRun_record hg with hg | ⟨rfl, g', hg', rfl⟩
  · exact hslot g hg
  refine ⟨(hslot g' hg').1, fun s hs => ?_⟩
  rcases mem_append.1 hs with hs | hs
  · exact (hslot g' hg').2 s hs
  · exact hreplicate s hs

theorem Kept.importOp (hc : c.Kept) (order : List UndoSource → List UndoSource)
    (source : FrontendId) (id : BufferId) (ops limit : ℕ) {typed : Bool}
    (hclean : typed = false ∨ (∀ h, c.buffers id = some h → h.crdt = false) ∨
      c.NoOtherRun source id) : (c.importOp order source id ops limit typed).Kept := by
  unfold EditorCore.importOp
  cases hb : c.buffers id with
  | none => exact hc
  | some h =>
    dsimp only
    split
    · next hcrdt =>
      cases typed with
      | true =>
        have hother : c.NoOtherRun source id := by
          rcases hclean with hf | hf | hf
          · cases hf
          · rw [hf h hb] at hcrdt; cases hcrdt
          · exact hf
        have hrotate : c.rotateCommand source selfInsertCommand false =
            c.setHistory source ⟨(c.commandHistory source).current, some selfInsertCommand,
              if (c.commandHistory source).current = some selfInsertCommand then
                min ((c.commandHistory source).run + 1) u32Max else 0⟩ := by
          unfold EditorCore.rotateCommand; rw [if_neg fun hne => hne rfl]
        exact (hc.setHistory source _).arbiterSettleRemote order source id ops limit
          nofun fun _ => hother
      | false =>
        exact (hc.breakCommandChain source false).arbiterSettleRemote order source id ops limit
          (fun _ => undoGroup_boundary) nofun
    · exact hc

/-! ## The rest -/

theorem Kept.detachUndoSource (hc : c.Kept) (fid : FrontendId) : (c.detachUndoSource fid).Kept := by
  have hcase : ∀ id h, (c.detachUndoSource fid).buffers id = some h →
      ∃ h₀, c.buffers id = some h₀ ∧ h = h₀.detach (.frontend fid) := by
    intro id h hb; obtain ⟨h₀, hb₀, rfl⟩ := map_eq_some_iff.1 hb; exact ⟨h₀, hb₀, rfl⟩
  refine ⟨fun id h hb es hs => ?_, fun id h fid' g hb hg => ?_, fun id h source g hb hg => ?_⟩
  all_goals obtain ⟨h₀, hb₀, rfl⟩ := hcase id h hb
  · exact hc.uniform id h₀ hb₀ es ((History.detach_quiet h₀ _).steps es hs)
  · by_cases hfid : fid' = fid
    · subst hfid; rw [History.openRun_detach] at hg; cases hg
    have hold := hc.slot id h₀ fid' g hb₀ ((History.detach_quiet h₀ _).runs _ g hg)
    exact (update_of_ne hfid ..).trans hold
  · exact hc.now id h₀ source g hb₀ ((History.detach_quiet h₀ _).runs _ g hg)

theorem Kept.setBuffer (hc : c.Kept) {id : BufferId}
    {new : Option (History Stamp)} (hnew : new = none ∨ ∃ crdt, new = some (.new crdt)) :
    { c with buffers := Function.update c.buffers id new }.Kept := by
  have hcase : ∀ id' h, Function.update c.buffers id new id' = some h →
      c.buffers id' = some h ∨ ∃ crdt, h = .new crdt := by
    intro id' h hb
    by_cases hid : id' = id
    · subst hid; rw [update_self] at hb
      rcases hnew with rfl | ⟨crdt, rfl⟩
      · cases hb
      · exact .inr ⟨crdt, (some.inj hb).symm⟩
    · rw [update_of_ne hid] at hb; exact .inl hb
  have hrun : ∀ (crdt : Bool) (source : UndoSource),
      (History.new crdt : History Stamp).openRun source = none := fun _ _ => rfl
  refine ⟨fun id' h hb es hs => ?_, fun id' h fid g hb hg => ?_, fun id' h source g hb hg => ?_⟩
  all_goals rcases hcase id' h hb with hb | ⟨crdt, rfl⟩
  · exact hc.uniform id' h hb es hs
  · rcases hs with ⟨e, he, _⟩ | ⟨e, he, _⟩ | ⟨source, ⟨g, hg, _⟩ | ⟨g, hg, _⟩ | hs⟩
    · cases he
    · cases he
    · cases hg
    · cases hg
    · cases hs
  · exact hc.slot id' h fid g hb hg
  · cases hg
  · exact hc.now id' h source g hb hg
  · cases hg

theorem Kept.step (hc : c.Kept) {e : Event} (hclean : c.Clean e) : (c.step e).Kept := by
  cases e with
  | rotated fid name borrowed => exact hc.rotateCommand fid name borrowed
  | broken fid borrowed => exact hc.breakCommandChain fid borrowed
  | began fid id limit borrowed => exact hc.typedRunBeginFor limit hclean
  | acceptBegan fid id borrowed => exact hc.typedRunBeginFor 0 hclean
  | edited order source id ops => exact hc.edited order source id ops
  | finished fid limit id borrowed =>
    simp only [EditorCore.step, typedRunEnd]
    split
    · exact hc
    next hb =>
    exact hc.folded (fun _ _ => History.isStep_noteTypedEdit)
      (fun h => (History.noteTypedEdit_rest h _).2) (hclean.resolve_left hb)
  | acceptFinished id borrowed =>
    simp only [EditorCore.step, commandGroupCollapse]
    split
    · exact hc
    next hb =>
    exact hc.folded (fun _ _ => History.isStep_commandCollapse) commandCollapse_arbiter
      (hclean.resolve_left hb)
  | imported order source id ops limit typed => exact hc.importOp order source id ops limit hclean
  | undone fid id spent => exact hc.quiet fun h _ => (History.undoFor_quiet h _ spent).1
  | redone fid id spent => exact hc.quiet fun h _ => History.redoFor_quiet
  | detached fid => exact hc.detachUndoSource fid
  | opened id crdt =>
    simp only [EditorCore.step]
    split
    · exact hc
    · exact hc.setBuffer (.inr ⟨crdt, rfl⟩)
  | upgraded id => exact hc.quiet fun h _ => History.upgrade_quiet
  | killed id => exact hc.setBuffer (.inl rfl)

theorem Kept.start : EditorCore.start.Kept where
  uniform _ _ h := by cases h
  slot _ _ _ _ h := by cases h
  now _ _ _ _ h := by cases h

theorem Reaches.kept (h : Reaches Clean c) : c.Kept := by
  induction h with
  | start => exact Kept.start
  | step _ hclean ih => exact ih.step hclean

theorem Kept.sound (hc : c.Kept) : c.Sound where
  reverts fid id spent s hs s' hs' hf hf' := by
    unfold EditorCore.reverts at hs hs'
    cases hb : c.buffers id with
    | none => rw [hb] at hs; cases hs
    | some h =>
      rw [hb] at hs hs'
      rcases (History.undoFor_quiet h (.frontend fid) spent).2 with hnil | hstep
      · simp only [hnil] at hs; cases hs
      · exact hc.uniform id h hb _ hstep fid s hs s' hs' hf hf'
  closes _ _ he _ _ hb := hc.closes he hb

/-! ## What an event that is not clean breaks -/

/-- A run left open on a buffer that its frontend is not said to have one on survives the
    frontend's next boundary. -/
theorem run_left_open (hslot : c.undoGroup fid = some id) (hne : id' ≠ id)
    (hb : c.buffers id' = some h) (hopen : h.openRun (.frontend fid) ≠ none) : ¬ c.Sound := by
  intro hsound
  refine hopen (hsound.closes fid (.broken fid false) ⟨rfl, rfl⟩ id' h ?_)
  have hslot' : (c.setHistory fid { c.commandHistory fid with
      current := none, run := 0 }).undoGroup fid = some id := hslot
  simp only [EditorCore.step, breakCommandChain, EditorCore.boundary,
    EditorCore.undoGroupCloseFor, hslot', Bool.false_eq_true, if_false]
  exact (buffers_modify _ id id' _).trans ((if_neg hne).trans hb)

theorem not_noOtherRun (h : ¬ c.NoOtherRun fid id) : ∃ id' h', id' ≠ id ∧ c.buffers id' = some h' ∧
      h'.openRun (.frontend fid) ≠ none := by
  unfold NoOtherRun at h
  push Not at h
  exact h

theorem clean_of_sound_begin (hsound : (c.typedRunBeginFor fid id limit borrowed).Sound) :
    borrowed = true ∨ c.buffers id = none ∨ c.NoOtherRun fid id := by
  by_contra hnot
  push Not at hnot
  obtain ⟨hborrowed, hsome, hother⟩ := hnot
  obtain ⟨h₀, hb₀⟩ := ne_none_iff_exists'.1 hsome
  obtain ⟨id', h', hne, hb, hopen⟩ := not_noOtherRun hother
  unfold EditorCore.typedRunBeginFor at hsound
  rw [if_neg hborrowed, hb₀] at hsound
  refine run_left_open (update_self ..) hne ?_ hopen hsound
  exact (buffers_modify c id id' _).trans ((if_neg hne).trans hb)

theorem clean_of_sound_import {order : List UndoSource → List UndoSource} {source : FrontendId}
    {ops : ℕ} {typed : Bool} (hsound : (c.importOp order source id ops limit typed).Sound) : typed =
    false ∨ (∀ h, c.buffers id = some h → h.crdt = false) ∨ c.NoOtherRun source id := by
  by_contra hnot
  push Not at hnot
  obtain ⟨htyped, ⟨h₀, hb₀, hcrdt⟩, hother⟩ := hnot
  simp only [ne_eq, Bool.not_eq_false] at htyped hcrdt
  subst htyped
  obtain ⟨id', h', hne, hb, hopen⟩ := not_noOtherRun hother
  unfold EditorCore.importOp at hsound
  simp only [hb₀, hcrdt, if_true] at hsound
  refine run_left_open (update_self ..) hne ?_ hopen hsound
  refine (buffers_modify _ id id' _).trans ((if_neg hne).trans ?_)
  unfold EditorCore.rotateCommand
  exact hb

/-- A step on top of a rope-only history that reaches over a boundary is undone whole. -/
theorem not_sound_of_top {front : List (Entry Stamp)} {typed : Bool}
    (hb : c.buffers id = some h) (hcrdt : h.crdt = false)
    (hundo : h.undo = front ++ [⟨edits, typed⟩]) (hnot : ¬ Uniform edits) : ¬ c.Sound := by
  intro hsound
  refine hnot fun fid s hs s' hs' hf hf' => hsound.reverts fid id 0 s ?_ s' ?_ hf hf'
  · unfold EditorCore.reverts; simp only [hb, History.undoFor_top hcrdt hundo]; exact hs
  · unfold EditorCore.reverts; simp only [hb, History.undoFor_top hcrdt hundo]; exact hs'

theorem noteTypedEdit_crdt (h : History Stamp) (merge : Bool) :
    (h.noteTypedEdit merge).crdt = h.crdt := by
  have hcollapse : h.collapseTypedCommand.crdt = h.crdt := by
    unfold History.collapseTypedCommand
    split
    · rfl
    dsimp only
    split <;> rfl
  unfold History.noteTypedEdit
  split
  · rfl
  dsimp only
  split
  · exact hcollapse
  split
  · exact hcollapse
  split
  · exact hcollapse
  · split <;> exact hcollapse

theorem commandCollapse_crdt (h : History Stamp) : h.commandCollapse.crdt = h.crdt := by
  unfold History.commandCollapse History.collapseTypedCommand
  split
  · rfl
  split
  · rfl
  dsimp only
  split <;> rfl

theorem clean_of_sound_finish (hsound : (c.typedRunEnd fid limit id borrowed).Sound) :
    borrowed = true ∨ ∀ h, c.buffers id = some h → h.crdt = false → h.undo ≠ [] →
      Uniform (h.joined (c.continues fid limit)) := by
  by_cases hborrowed : borrowed = true
  · exact .inl hborrowed
  refine .inr fun h hb hcrdt hne => ?_
  by_contra hnot
  unfold EditorCore.typedRunEnd at hsound; rw [if_neg hborrowed] at hsound
  obtain ⟨front, typed, hundo, _⟩ := History.noteTypedEdit_undo hcrdt hne (c.continues fid limit)
  have htop : (c.modify id fun h => h.noteTypedEdit (c.continues fid limit)).buffers id =
      some (h.noteTypedEdit (c.continues fid limit)) := by
    rw [buffers_modify, if_pos rfl, hb, map_some]
  exact not_sound_of_top htop ((noteTypedEdit_crdt h _).trans hcrdt) hundo hnot hsound

theorem clean_of_sound_collapse (hsound : (c.commandGroupCollapse id borrowed).Sound) :
    borrowed = true ∨ ∀ h, c.buffers id = some h → h.crdt = false → h.undo ≠ [] →
      Uniform h.commandEdits := by
  by_cases hborrowed : borrowed = true
  · exact .inl hborrowed
  refine .inr fun h hb hcrdt hne => ?_
  by_contra hnot
  unfold EditorCore.commandGroupCollapse at hsound; rw [if_neg hborrowed] at hsound
  obtain ⟨front, typed, hundo, _⟩ := History.commandCollapse_undo hcrdt hne
  have htop : (c.modify id History.commandCollapse).buffers id = some h.commandCollapse := by
    rw [buffers_modify, if_pos rfl, hb, map_some]
  exact not_sound_of_top htop ((commandCollapse_crdt h).trans hcrdt) hundo hnot hsound

/-- **Undo keeps within command boundaries.** After clean events one undo of a frontend reverts
    no two of its edits with a boundary of it between them, and a boundary leaves it no run open;
    and the next event keeps it so if and only if it is clean. -/
theorem undo_within_boundaries {c : EditorCore} (h : Reaches Clean c) :
    c.Sound ∧ ∀ e, c.Clean e ↔ (c.step e).Sound := by
  have hc := h.kept
  refine ⟨hc.sound, fun e => ⟨fun hclean => (hc.step hclean).sound, fun hsound => ?_⟩⟩
  cases e with
  | began | acceptBegan => exact clean_of_sound_begin hsound
  | finished fid limit id borrowed => exact clean_of_sound_finish hsound
  | acceptFinished id borrowed => exact clean_of_sound_collapse hsound
  | imported order source id ops limit typed => exact clean_of_sound_import hsound
  | rotated _ _ _ | broken _ _ | edited _ _ _ _ | undone _ _ _ | redone _ _ _ | detached _
  | opened _ _ | upgraded _ | killed _ => trivial

theorem Kept.noOtherRun (hc : c.Kept)
    (hslot : c.undoGroup fid = none) (id : BufferId) : c.NoOtherRun fid id := by
  intro id' h _ hb
  by_contra hopen
  obtain ⟨g, hg⟩ := ne_none_iff_exists'.1 hopen
  rw [hc.slot id' h fid g hb hg] at hslot
  cases hslot

/-- A frontend types a character in one of two CRDT-backed buffers. -/
def typedEvents : List Event :=
  [.opened 0 true, .opened 1 true, .rotated 1 selfInsertCommand false, .began 1 0 20 false,
    .edited (fun keys => keys) (.frontend 1) 0 1]

def typed : EditorCore := typedEvents.foldl EditorCore.step EditorCore.start

theorem reaches_typed : Reaches Clean typed := by
  have h₁ : Reaches Clean (EditorCore.start.step (.opened 0 true)) := Reaches.start.step trivial
  have h₂ := (h₁.step (e := .opened 1 true) trivial).step
    (e := .rotated 1 selfInsertCommand false) trivial
  have h₃ := h₂.step (e := .began 1 0 20 false) (.inr (.inr (h₂.kept.noOtherRun rfl 0)))
  exact h₃.step (e := .edited (fun keys => keys) (.frontend 1) 0 1) trivial

theorem undo_within_boundaries_typed : typed.Sound ∧
    (typed.Clean (.broken 1 false) ↔ (typed.step (.broken 1 false)).Sound) := by
  obtain ⟨hsound, hiff⟩ := undo_within_boundaries reaches_typed
  exact ⟨hsound, hiff _⟩

/-- Its active buffer changes without a command, it types in the other buffer, and a command
    edits the first: the run left open there takes the command's edit in. -/
def movedEvents : List Event :=
  [.rotated 1 selfInsertCommand false, .began 1 1 20 false,
    .edited (fun keys => keys) (.frontend 1) 1 1, .rotated 1 "edit.kill-line" false,
    .edited (fun keys => keys) (.frontend 1) 0 1]

theorem undo_over_boundary : (movedEvents.foldl EditorCore.step typed).reverts 1 0 0 =
    [⟨.frontend 1, 0⟩, ⟨.frontend 1, 1⟩] := by
  rfl

theorem reaches_foldl (h : Reaches (fun _ _ => True) c) (events : List Event) :
    Reaches (fun _ _ => True) (events.foldl EditorCore.step c) := by
  induction events generalizing c with
  | nil => exact h
  | cons e events ih => exact ih (h.step (e := e) trivial)

theorem not_always_within_boundaries : ¬ ∀ c, Reaches (fun _ _ => True) c → c.Sound := by
  intro hall
  have hsound := hall _ (reaches_foldl (reaches_foldl .start typedEvents) movedEvents)
  have hreverts : (movedEvents.foldl EditorCore.step
      (typedEvents.foldl EditorCore.step EditorCore.start)).reverts 1 0 0 =
        [⟨.frontend 1, 0⟩, ⟨.frontend 1, 1⟩] := undo_over_boundary
  have hsame := hsound.reverts 1 0 0
  have := hsame ⟨.frontend 1, 0⟩ mem_cons_self ⟨.frontend 1, 1⟩
    (mem_cons_of_mem _ mem_cons_self) rfl rfl
  cases this

end EditorCore

end Pmacs.Undo
