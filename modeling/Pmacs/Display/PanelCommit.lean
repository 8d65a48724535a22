/-
  A panel commit keeps its promise while its body runs.

  * `Balanced`: the guards of the commits that are running, and the contracts in force;
  * `During`: the hosts that the body of a panel commit reaches;
  * `panel_commit_holds`: in them a request for the side by the commit's frontend lands in no
    document window; what is refused for it changes nothing; when no commit is running, none is
    in force.
-/
import Pmacs.Display.Commit

namespace Pmacs.Display

open Lib List

/-- Events of the body of a commit: no session is attached while it runs. -/
def Event.isBody : Event → Bool
  | attached _ _ | resumed _ _ => false
  | _ => true

def Event.dedicates : Event → Bool
  | displayed _ _ | quit _ _ | paramsSet _ _ _ _ => true
  | _ => false

def Event.scopes : Event → Bool
  | commitEntered _ _ | commitLeft => true
  | _ => false

variable {request : DisplayRequest}

namespace EditorCore

variable {c c' : EditorCore} {retained : Assoc ℕ FrontendView} {fid : FrontendId}

/-! ## Contracts and the operations -/

theorem displayBuffer_contracts (c : EditorCore) (fid : FrontendId) (request : DisplayRequest) :
    (c.displayBuffer fid request).1.commitContracts = c.commitContracts := by
  refine displayBuffer_leaves (P := fun c' => c'.commitContracts = c.commitContracts) rfl
    (fun target _ => (stays_applyOrdinary c request target).commitContracts)
    (fun _ replacing _ hside _ _ _ => (stays_applyReused c request replacing hside).commitContracts)
    fun _ _ => ?_
  rcases applyCreated_cases c fid request c.nextWindow with ⟨e, heq⟩ | ⟨rows, text, -, heq⟩
  · rw [heq]
  rw [heq]; unfold modifyView
  split
  · rfl
  · rfl

theorem quitWindow_contracts {target : WindowId} {answer : Answer QuitOutcome}
    (hquit : c.quitWindow fid target = some answer) :
    answer.1.commitContracts = c.commitContracts := by
  rcases quitWindow_cases hquit with ⟨e, rfl⟩ | ⟨c₁, hremove, hanswer, -⟩ |
    ⟨bufferId, dedicated, outcome, g, -, -, rfl⟩
  · rfl
  · have hfrees := frees_removeSideWindow fid hremove
    rcases hanswer with hanswer | ⟨origin, hanswer⟩
    · rw [hanswer]; exact hfrees.contracts
    · rw [hanswer]; exact (hfrees.trans (frees_setActive fid fid c₁ _)).contracts
  have hinstall := (stays_installBufferInWindow c target bufferId).commitContracts
  unfold modifyWindow
  split
  · exact hinstall
  · exact hinstall

/-! ## The preflight -/

/-- The relaxed rule measures that the frontend's panel takes side requests. -/
theorem free_of_relaxed (h : Ok retained c) (hrelaxed : c.panelPlacementCanFallBack fid = false) :
    Free fid c := by
  intro view hview
  unfold panelPlacementCanFallBack at hrelaxed
  rw [hview] at hrelaxed
  dsimp only at hrelaxed
  split at hrelaxed
  · cases hrelaxed
  case isFalse hcapable =>
    rw [Bool.not_eq_true', Bool.not_eq_false] at hcapable
    refine ⟨hcapable, fun id hid => ?_⟩; rintro ⟨w, hw, hpinned, hdedicated⟩
    have hok := (h.viewOk hview).layout
    have hside : c.isSide id = true := by rw [isSide, hw]; exact hpinned
    -- it is the side window of the frontend
    have hfor : c.sideWindowFor fid = some id := by
      rw [sideWindowFor, hview, Option.bind_some, Layout.sideLeaf]
      cases hfind : view.layout.iterIds.find? c.isSide with
      | none => have hnone := find?_eq_none.1 hfind id hid; exact absurd hside hnone
      | some side =>
        rw [Layout.documentSubtree_unique
          (hok.side side (mem_of_find?_eq_some hfind) (find?_some hfind))
          (hok.side id hid hside)]
    rw [hfor, Option.bind_some, hw, Option.any_some, hdedicated] at hrelaxed; cases hrelaxed

/-! ## Refusals -/

theorem clampPanelRows_error {rows : ℕ} {e : Refusal} (h : clampPanelRows rows = .error e) :
    ∀ text, e ≠ .dedication text := by
  rintro text rfl
  unfold clampPanelRows at h
  split at h
  · cases h
  · cases h

theorem mapM_clampPanelRows_error {rows : Option ℕ} {e : Refusal}
    (h : rows.mapM clampPanelRows = .error e) : ∀ text, e ≠ .dedication text := by
  cases rows with
  | none => cases h
  | some rows =>
    intro text
    cases hclamp : clampPanelRows rows with
    | error e' =>
      have he : Except.error e' = (Except.error e : Except Refusal (Option ℕ)) := by
        rw [← h]; simp [Option.mapM, hclamp, Functor.map, Except.map]
      cases he; exact clampPanelRows_error hclamp text
    | ok rows' =>
      have he : Except.ok (some rows') = (Except.error e : Except Refusal (Option ℕ)) := by
        rw [← h]; simp [Option.mapM, hclamp, Functor.map, Except.map]
      cases he

variable {text : String}

theorem installBufferInWindow_refusal {target : WindowId} {bufferId : BufferId} :
    (c.installBufferInWindow target bufferId).2 ≠ .error (.dedication text) := by
  unfold installBufferInWindow
  split
  · rintro ⟨⟩
  split
  · rintro ⟨⟩
  split
  · rintro ⟨⟩
  · rintro ⟨⟩

theorem applyPlacement_refusal {placement : Placement} :
    (c.applyPlacement fid request placement).2 ≠ .error (.dedication text) := by
  have hinstall : ∀ target, (c.installBufferInWindow target request.bufferId).2 ≠
      .error (.dedication text) := fun target => installBufferInWindow_refusal
  unfold applyPlacement
  split
  · unfold applyOrdinary; have hinstall := hinstall placement.target
    generalize c.installBufferInWindow placement.target request.bufferId = installed at hinstall ⊢
    obtain ⟨c₁, e | _⟩ := installed
    · exact hinstall
    · rintro ⟨⟩
  · unfold applyCreated
    split
    · rename_i e hclamp; exact fun h => clampPanelRows_error hclamp text (by cases h; rfl)
    split
    · rintro ⟨⟩
    · rintro ⟨⟩
  unfold applyReused; have hinstall := hinstall placement.target
  split
  · rintro ⟨⟩
  generalize c.installBufferInWindow placement.target request.bufferId = installed at hinstall ⊢
  obtain ⟨c₁, e | _⟩ := installed
  · exact hinstall
  dsimp only
  split
  · rename_i e hclamp; exact fun h => mapM_clampPanelRows_error hclamp text (by cases h; rfl)
  · rintro ⟨⟩

theorem displayBuffer_refused (h : (c.displayBuffer fid request).2 = .error (.dedication text)) :
    (c.displayBuffer fid request).1 = c := by
  rcases displayBuffer_cases c fid request with ⟨e, heq⟩ | ⟨placement, -, -, -, herror⟩
  · rw [heq]
  · exact absurd ((herror _).1 h) applyPlacement_refusal

theorem setParams_refused {target : WindowId} {fixedRows : Option ℕ} {dedicated : Option Bool}
    (h : (c.setParams fid target fixedRows dedicated).2 =
      .error (.dedication text)) : (c.setParams fid target fixedRows dedicated).1 = c := by
  unfold setParams at h ⊢
  split at h
  · rfl
  generalize (if dedicated = some true ∧ c.isSide target then
    c.panelCommitDedicationRefusal fid else none) = refusal at h ⊢
  cases refusal with
  | some reason => rfl
  | none =>
    split at h
    · rfl
    · cases h

end EditorCore

/-! ## Steps -/

namespace Host

open EditorCore

variable {h h' h₀ : Host} {event : Event} {f : FrontendId}

theorem step_frees (hok : Ok h.retained h.core) (hbody : event.isBody)
    (hscope : event.scopes = false) (hcommit : event.dedicates → Restricted f h.core)
    (hstep : h.step event = some h') : Frees f h.core h'.core ∧ h'.guards = h.guards := by
  suffices hensures : Ensures (h.step event) fun h' =>
      Frees f h.core h'.core ∧ h'.guards = h.guards from
    hensures h' hstep
  have hwritten {o : Option EditorCore} (ho : Yields o (Writes h.core)) :
      Ensures (o.map h.withCore) fun h' => Frees f h.core h'.core ∧ h'.guards = h.guards :=
    .map (R := fun h' => _) (ho.ensures.mono fun _ hwrites => ⟨hwrites.frees f, rfl⟩)
  cases event with
  | dispatched fid => exact ensures_some ⟨frees_sub rfl rfl fun _ w hw => ⟨w, hw, rfl, rfl⟩, rfl⟩
  | split orientation sameBuffer => exact Ensures.map fun _ ha => ⟨frees_trySplitActive ha, rfl⟩
  | closedActive => exact Ensures.map fun _ ha => ⟨frees_closeActive ha, rfl⟩
  | closedOthers => exact Ensures.map fun _ ha => ⟨frees_closeOthers ha, rfl⟩
  | focusStepped forward => exact Ensures.map fun _ ha => ⟨frees_focusStep f ha, rfl⟩
  | focused fid target =>
    rw [step]
    split
    · exact ensures_some ⟨frees_focusWindow f h.core fid target, rfl⟩
    · exact ensures_some ⟨.refl f _, rfl⟩
  | quit fid target =>
    rw [step]
    split
    case isTrue howns =>
      exact Ensures.map fun _ ha => ⟨frees_quitWindow hok (hcommit rfl) howns ha, rfl⟩
    case isFalse => exact ensures_some ⟨.refl f _, rfl⟩
  | displayed fid request =>
    exact ensures_some ⟨frees_displayBuffer hok (hcommit rfl) fid request, rfl⟩
  | sideRemoved fid side =>
    rw [step]
    split
    · exact Ensures.map fun _ ha => ⟨frees_removeSideWindow f ha, rfl⟩
    · exact ensures_some ⟨.refl f _, rfl⟩
  | killed scratch midEdit bufferId => exact Ensures.map fun _ ha => ⟨frees_killBuffer ha, rfl⟩
  | reconciled fid => exact ensures_some ⟨frees_reconcile f h.core fid, rfl⟩
  | declared fid total => exact ensures_some ⟨frees_declareFrameGeometry f h.core fid total, rfl⟩
  | accepted fid geometryEpoch total =>
    exact ensures_some ⟨frees_acceptFrameGeometry f h.core fid geometryEpoch total, rfl⟩
  | paramsSet fid target fixedRows dedicated =>
    rw [step]
    split
    case isTrue howns =>
      exact ensures_some ⟨frees_setParams hok (hcommit rfl) howns fixedRows dedicated, rfl⟩
    case isFalse => exact ensures_some ⟨.refl f _, rfl⟩
  | switched fid bufferId =>
    exact ensures_some ⟨(writes_switchActiveBufferFor h.core fid bufferId).frees f, rfl⟩
  | aligned fid bufferId =>
    exact ensures_some ⟨(writes_alignPrimaryDocumentWindow h.core fid bufferId).frees f, rfl⟩
  | created text => exact ensures_some ⟨frees_setRegistry f h.core _, rfl⟩
  | attached | resumed => cases hbody
  | detached fid =>
    rw [step]
    split
    · exact ensures_some ⟨.refl f _, rfl⟩
    · exact ensures_some ⟨frees_unregister f h.core fid, rfl⟩
  | lost fid token =>
    have htake := frees_take f h.core fid; rw [step]
    split
    · exact ensures_some ⟨.refl f _, rfl⟩
    generalize h.core.takeFrontendView fid = taken at htake
    obtain ⟨c₁, _ | view⟩ := taken
    · exact ensures_some ⟨htake, rfl⟩
    · exact ensures_some ⟨htake, rfl⟩
  | expired token =>
    rw [step]
    split
    · exact ensures_some ⟨.refl f _, rfl⟩
    · exact ensures_some ⟨frees_discard f h.core _, rfl⟩
  | typed intercept typing => exact hwritten (exists_typing hok intercept typing)
  | announced bufferId edit =>
    exact ensures_some ⟨(writes_announce h.core bufferId edit).frees f, rfl⟩
  | imported source bufferId edit =>
    exact ensures_some ⟨(writes_remoteCrdtOp h.core source bufferId edit).frees f, rfl⟩
  | history edit => exact hwritten (exists_historyStep hok edit)
  | reverted edit => exact hwritten (exists_revertActiveBuffer hok edit)
  | moved motion => exact hwritten (exists_motion hok motion)
  | jumpPushed => exact Ensures.map fun _ ha => ⟨frees_pushJump f ha, rfl⟩
  | jumpedBack => exact Ensures.map fun _ ha => ⟨frees_jumpBackTo ha, rfl⟩
  | commitEntered | commitLeft => cases hscope

/-- Only the beginning and the end of a commit change the contracts in force. -/
theorem step_contracts (hok : Ok h.retained h.core) (hscope : event.scopes = false)
    (hstep : h.step event = some h') :
    h'.core.commitContracts = h.core.commitContracts ∧ h'.guards = h.guards := by
  have hrest : event.isBody → event.dedicates = false →
      h'.core.commitContracts = h.core.commitContracts ∧ h'.guards = h.guards := by
    intro hbody hdedicates
    have hfrees := @step_frees h h' event LOCAL hok hbody hscope
      (fun hd => by rw [hdedicates] at hd; cases hd) hstep
    exact ⟨hfrees.1.contracts, hfrees.2⟩
  cases event with
  | displayed fid request => cases hstep; exact ⟨displayBuffer_contracts h.core fid request, rfl⟩
  | quit fid target =>
    rw [step] at hstep
    split at hstep
    · obtain ⟨answer, hanswer, rfl⟩ := Option.map_eq_some_iff.1 hstep
      exact ⟨quitWindow_contracts hanswer, rfl⟩
    · cases hstep; exact ⟨rfl, rfl⟩
  | paramsSet fid target fixedRows dedicated =>
    rw [step] at hstep
    split at hstep
    · cases hstep
      exact ⟨(stays_setParams h.core fid target fixedRows dedicated).commitContracts, rfl⟩
    · cases hstep; exact ⟨rfl, rfl⟩
  | attached panelCapable desktop =>
    obtain ⟨built, made, hbuilt, hbuilds, -⟩ := builds_attachView hok desktop panelCapable
    rw [step, hbuilt] at hstep; cases hstep
    refine ⟨?_, rfl⟩; show built.1.commitContracts = h.core.commitContracts
    rw [← hbuilds.rest]
  | resumed token panelCapable =>
    rw [step] at hstep
    split at hstep
    · cases hstep; exact ⟨rfl, rfl⟩
    · cases hstep; exact ⟨rfl, rfl⟩
  | _ => exact hrest rfl rfl

/-! ## Scopes -/

/-- Each guard goes back to the contracts that were in force before its commit. -/
def Depths : List ScopedFrontendGuard → Prop
  | [] => True
  | guard :: guards => guard.contractDepth = guards.length ∧ Depths guards

/-- There is a contract in force for each commit that is running. -/
structure Balanced (h : Host) : Prop where
  depths : Depths h.guards
  contracts : h.core.commitContracts.length = h.guards.length

theorem Balanced.step (hbalanced : Balanced h) (hok : Ok h.retained h.core)
    (hstep : h.step event = some h') : Balanced h' := by
  cases hscope : event.scopes with
  | false =>
    obtain ⟨hcontracts, hguards⟩ := step_contracts hok hscope hstep
    exact ⟨by rw [hguards]; exact hbalanced.depths,
      by rw [hcontracts, hguards]; exact hbalanced.contracts⟩
  | true =>
    cases event with
    | commitEntered dest profile =>
      cases hstep; unfold enterCommit
      split
      · exact hbalanced
      refine ⟨⟨hbalanced.contracts, hbalanced.depths⟩, ?_⟩
      show (h.core.commitContracts ++ [_]).length = h.guards.length + 1
      rw [length_append, hbalanced.contracts]; rfl
    | commitLeft =>
      cases hstep; unfold leaveCommit
      cases hguards : h.guards with
      | nil => exact hbalanced
      | cons guard guards =>
        obtain ⟨hdepths, hcontracts⟩ := hbalanced; rw [hguards] at hdepths hcontracts
        refine ⟨hdepths.2, ?_⟩
        show (h.core.commitContracts.take guard.contractDepth).length = guards.length
        rw [length_take, hdepths.1, hcontracts]; exact min_eq_left (Nat.le_succ _)
    | _ => cases hscope

theorem run_balanced (hbalanced : Balanced h) (hok : Ok h.retained h.core) {events : List Event}
    (hrun : h.run events = some h') : Balanced h' ∧ Ok h'.retained h'.core := by
  induction events generalizing h with
  | nil => cases hrun; exact ⟨hbalanced, hok⟩
  | cons event events ih =>
    obtain ⟨h₁, hstep, hrest⟩ := Option.bind_eq_some_iff.1 hrun
    obtain ⟨h₁', hstep', hok₁⟩ := ok_step hok event; rw [hstep] at hstep'; cases hstep'
    exact ih (hbalanced.step hok hstep) hok₁ hrest

theorem balanced_start : Balanced start := ⟨trivial, rfl⟩

variable {dest : ViewDestination}

theorem enterCommit_of_none {profile : CommitProfile}
    (h : h₀.core.commitDestinationRefusal dest profile = none) : h₀.enterCommit dest profile =
      { h₀ with
        core := { h₀.core.pushCommitContract ⟨dest, profile⟩ with
          activeFrontend := dest.frontend }
        guards := ⟨h₀.core.activeFrontend, h₀.core.commitContracts.length⟩ :: h₀.guards } := by
  rw [enterCommit, h]

/-! ## The body -/

/-- The hosts reached while the body of a panel commit runs, which was begun at `h₀`. -/
inductive During (dest : ViewDestination) (h₀ : Host) : Host → Prop where
  | enter : During dest h₀ (h₀.enterCommit dest .panel)
  | step {h h' : Host} {event : Event} (hduring : During dest h₀ h) (hbody : event.isBody)
      (hstep : h.step event = some h') (hinside : h₀.guards.length < h'.guards.length) :
      During dest h₀ h'

/-- What holds in the body of the commit number `n`. -/
structure Held (dest : ViewDestination) (n : ℕ) (h : Host) : Prop where
  ok : Ok h.retained h.core
  balanced : Balanced h
  free : Free dest.frontend h.core
  contract : h.core.commitContracts[n]? = some ⟨dest, .panel⟩
  inside : n < h.guards.length

theorem Held.restricted {n : ℕ} (held : Held dest n h) : Restricted dest.frontend h.core :=
  ⟨⟨dest, .panel⟩, mem_of_getElem? held.contract, rfl, rfl⟩

theorem Held.step {n : ℕ} (held : Held dest n h) (hbody : event.isBody)
    (hstep : h.step event = some h') (hinside : n < h'.guards.length) : Held dest n h' := by
  obtain ⟨h₁, hstep', hok'⟩ := ok_step held.ok event
  rw [hstep] at hstep'
  cases hstep'
  have hbalanced := held.balanced.step held.ok hstep
  cases hscope : event.scopes with
  | false =>
    obtain ⟨hfrees, hguards⟩ := step_frees held.ok hbody hscope (fun _ => held.restricted) hstep
    exact ⟨hok', hbalanced, held.free.frees hfrees, by rw [hfrees.contracts]; exact held.contract,
      hinside⟩
  | true =>
    -- the windows and the views are the same
    have hfree : h'.core.views = h.core.views → h'.core.windows = h.core.windows →
        Free dest.frontend h'.core := by
      intro hviews hwindows view hview; rw [hviews] at hview
      obtain ⟨hcapable, hsides⟩ := held.free view hview
      refine ⟨hcapable, fun id hid hdedicated => hsides id hid ?_⟩
      unfold DedicatedSide at hdedicated ⊢
      rwa [hwindows] at hdedicated
    cases event with
    | commitEntered dest' profile =>
      cases hstep
      cases hrefusal : h.core.commitDestinationRefusal dest' profile with
      | some reason =>
        have heq : h.enterCommit dest' profile = h := by rw [enterCommit, hrefusal]
        rw [heq]; exact held
      | none =>
        rw [enterCommit_of_none hrefusal] at hok' hbalanced hinside hfree ⊢
        refine ⟨hok', hbalanced, hfree rfl rfl, ?_, hinside⟩
        have hlt : n < h.core.commitContracts.length := by
          rw [held.balanced.contracts]; exact held.inside
        show (h.core.commitContracts ++ [_])[n]? = _
        rw [getElem?_append_left hlt, held.contract]
    | commitLeft =>
      cases hstep; unfold leaveCommit at hok' hbalanced hinside hfree ⊢
      cases hguards : h.guards with
      | nil => have := held.inside; rw [hguards] at this; exact absurd this (Nat.not_lt_zero _)
      | cons guard guards =>
        rw [hguards] at hok' hbalanced hinside hfree
        refine ⟨hok', hbalanced, hfree rfl rfl, ?_, hinside⟩; have hdepths := held.balanced.depths
        rw [hguards] at hdepths; show (h.core.commitContracts.take guard.contractDepth)[n]? = _
        rw [hdepths.1, getElem?_take_of_lt hinside, held.contract]
    | _ => cases hscope

theorem held_enter (hok : Ok h.retained h.core) (hbalanced : Balanced h)
    (hview : (h.core.views.lookup dest.frontend).isSome)
    (hrelaxed : h.core.panelPlacementCanFallBack dest.frontend = false) :
    Held dest h.guards.length (h.enterCommit dest .panel) := by
  obtain ⟨h', hstep, hok'⟩ := ok_step hok (.commitEntered dest .panel)
  have hbalanced' := hbalanced.step hok hstep
  cases hstep
  have hrefusal : h.core.commitDestinationRefusal dest .panel = none := by
    unfold commitDestinationRefusal; obtain ⟨view, hview⟩ := Option.isSome_iff_exists.1 hview
    rw [hview]; simp [hrelaxed]
  rw [enterCommit_of_none hrefusal] at hok' hbalanced' ⊢
  refine ⟨hok', hbalanced', ?_, ?_, Nat.lt_succ_self _⟩
  · have hfree := free_of_relaxed hok hrelaxed; intro view hview'
    obtain ⟨hcapable, hsides⟩ := hfree view hview'; exact ⟨hcapable, fun id hid => hsides id hid⟩
  show (h.core.commitContracts ++ [_])[h.guards.length]? = _
  rw [← hbalanced.contracts, getElem?_concat_length]

theorem During.held (hduring : During dest h₀ h) (hok : Ok h₀.retained h₀.core)
    (hbalanced : Balanced h₀) (hview : (h₀.core.views.lookup dest.frontend).isSome)
    (hrelaxed : h₀.core.panelPlacementCanFallBack dest.frontend = false) :
    Held dest h₀.guards.length h := by
  induction hduring with
  | enter => exact held_enter hok hbalanced hview hrelaxed
  | step _ hbody hstep hinside ih => exact ih.step hbody hstep hinside

end Host

namespace EditorCore

variable {c : EditorCore} {retained : Assoc ℕ FrontendView} {f : FrontendId}

theorem installBufferInWindow_windows_of_ne {target id : WindowId} (hne : id ≠ target)
    (bufferId : BufferId) :
    (c.installBufferInWindow target bufferId).1.windows id = c.windows id := by
  unfold installBufferInWindow
  split
  · rfl
  split
  · rfl
  split
  · rfl
  · exact setWindow_windows_of_ne _ _ _ hne

theorem modifyWindow_windows_of_ne {target id : WindowId} (hne : id ≠ target)
    (g : Window → Window) : (c.modifyWindow target g).windows id = c.windows id := by
  unfold modifyWindow
  split
  · exact setWindow_windows_of_ne _ _ _ hne
  · rfl

theorem applyReused_windows_of_ne {target id : WindowId} (hne : id ≠ target)
    (request : DisplayRequest) (replacing : Bool) :
    (c.applyReused request target replacing).1.windows id = c.windows id := by
  unfold applyReused
  split
  · rfl
  have hinstall := @installBufferInWindow_windows_of_ne c target id hne request.bufferId
  generalize c.installBufferInWindow target request.bufferId = installed at hinstall ⊢
  obtain ⟨c₁, e | _⟩ := installed
  · exact hinstall
  dsimp only
  split
  · exact hinstall
  · exact (modifyWindow_windows_of_ne hne _).trans hinstall

theorem applyCreated_windows_of_ne {id : WindowId} {fid : FrontendId} (hne : id ≠ c.nextWindow) :
    (c.applyCreated fid request c.nextWindow).1.windows id = c.windows id := by
  unfold applyCreated modifyView
  split
  · rfl
  split
  · rfl
  dsimp only
  split
  · exact setWindow_windows_of_ne _ _ _ hne
  · exact setWindow_windows_of_ne _ _ _ hne

theorem side_display (h : Ok retained c) (hfree : Free f c)
    (hside : request.side.isSome) {id : WindowId} {w : Window} (hw : c.windows id = some w)
    (hdocument : w.isSide = false) : (c.displayBuffer f request).1.windows id = some w := by
  rw [← hw]
  rcases displayBuffer_cases c f request with ⟨e, heq⟩ | ⟨placement, hresolve, -, heq, -⟩
  · rw [heq]
  have hlands := side_placement hfree hside hresolve; rw [heq, applyPlacement]
  rcases resolvePlacement_cases hresolve with ⟨hkind, -⟩ |
    ⟨replacing, -, hkind, hpinned, -⟩ | ⟨hkind, htarget, -⟩
  · rw [hkind] at hlands; cases hlands
  · rw [hkind]
    refine applyReused_windows_of_ne ?_ request replacing; rintro rfl
    rw [isSide, hw] at hpinned; exact absurd hpinned (Bool.eq_false_iff.1 hdocument)
  rw [hkind, htarget]
  exact applyCreated_windows_of_ne (ne_of_lt (h.table.old id w hw))

end EditorCore

open EditorCore Host

/-- **Inside a panel commit that the relaxed rule let through, a request for the side by its
    frontend lands in no document window and changes none. What is refused for that changes
    nothing. When no commit is running, no contract is in force.** -/
theorem panel_commit_holds :
    (∀ (events : List Event) (h₀ h : Host) (dest : ViewDestination),
      Host.start.run events = some h₀ → (h₀.core.views.lookup dest.frontend).isSome →
      h₀.core.panelPlacementCanFallBack dest.frontend = false → During dest h₀ h →
      ∀ request : DisplayRequest, request.side.isSome →
        (∀ placement, h.core.resolvePlacement dest.frontend request = .ok placement →
          placement.kind.isSide) ∧
        ∀ id w, h.core.windows id = some w → w.isSide = false →
          (h.core.displayBuffer dest.frontend request).1.windows id = some w) ∧
    (∀ (c : EditorCore) (fid : FrontendId) (request : DisplayRequest) (text : String),
      (c.displayBuffer fid request).2 = .error (.dedication text) →
        (c.displayBuffer fid request).1 = c) ∧
    (∀ (c : EditorCore) (fid : FrontendId) (target : WindowId) (answer : Answer QuitOutcome)
      (text : String), c.quitWindow fid target = some answer →
      answer.2 = .error (.dedication text) → answer.1 = c) ∧
    (∀ (c : EditorCore) (fid : FrontendId) (target : WindowId) (fixedRows : Option ℕ)
      (dedicated : Option Bool) (text : String),
      (c.setParams fid target fixedRows dedicated).2 = .error (.dedication text) →
        (c.setParams fid target fixedRows dedicated).1 = c) ∧
    ∀ (events : List Event) (h : Host), Host.start.run events = some h → h.guards = [] →
      h.core.commitContracts = [] := by
  refine ⟨?_, fun _ _ _ _ => displayBuffer_refused, fun _ _ _ _ _ => quitWindow_refused,
    fun _ _ _ _ _ _ => setParams_refused, ?_⟩
  · intro events h₀ h dest hrun hview hrelaxed hduring request hside
    obtain ⟨hbalanced, hok⟩ := run_balanced balanced_start ok_start hrun
    have held := hduring.held hok hbalanced hview hrelaxed
    exact ⟨fun placement => side_placement held.free hside,
      fun id w => side_display held.ok held.free hside⟩
  intro events h hrun hguards; obtain ⟨hbalanced, -⟩ := run_balanced balanced_start ok_start hrun
  have hlength := hbalanced.contracts; rw [hguards] at hlength
  exact List.length_eq_zero_iff.1 hlength

def panelRequest : DisplayRequest := ⟨0, none, some .bottom, none, none, none, 8⟩

/-- A panel commit of a second frontend, in whose body a document commit of the first shows a
    buffer in the panel: the request lands there, and the document window stays. -/
theorem panel_commit_holds_nested : ∃ h₀ h, Host.start.run [.attached true none] = some h₀ ∧
    During ⟨2, none, none⟩ h₀ h ∧ h.core.commitContracts.length = 2 ∧
    (∃ placement, h.core.resolvePlacement 2 panelRequest = .ok placement ∧
      placement.kind.isSide) ∧
    ∃ w, h.core.windows 1 = some w ∧ w.isSide = false ∧
      (h.core.displayBuffer 2 panelRequest).1.windows 1 = some w := by
  obtain ⟨h₀, h₁, h₂, placement, w, hrun, hview, hrelaxed, hstep₁, hstep₂, hin₁, hin₂, hlength,
      hresolve, hw, hdocument⟩ : ∃ h₀ h₁ h₂ placement w,
      Host.start.run [.attached true none] = some h₀ ∧ (h₀.core.views.lookup 2).isSome = true ∧
      h₀.core.panelPlacementCanFallBack 2 = false ∧
      (h₀.enterCommit ⟨2, none, none⟩ .panel).step
        (.commitEntered ⟨1, some 0, some 0⟩ .document) = some h₁ ∧
      h₁.step (.displayed 2 panelRequest) = some h₂ ∧
      h₀.guards.length < h₁.guards.length ∧ h₀.guards.length < h₂.guards.length ∧
      h₂.core.commitContracts.length = 2 ∧
      h₂.core.resolvePlacement 2 panelRequest = .ok placement ∧
      h₂.core.windows 1 = some w ∧ w.isSide = false :=
    ⟨_, _, _, _, _, rfl, rfl, rfl, rfl, rfl, by decide, by decide, rfl, rfl, rfl, rfl⟩
  have hduring : During ⟨2, none, none⟩ h₀ h₂ := .step (.step .enter rfl hstep₁ hin₁) rfl hstep₂ hin₂
  obtain ⟨hside, hkeeps⟩ :=
    panel_commit_holds.1 _ h₀ h₂ ⟨2, none, none⟩ hrun hview hrelaxed hduring panelRequest rfl
  exact ⟨h₀, h₂, hrun, hduring, hlength, ⟨placement, hresolve, hside placement hresolve⟩, w, hw,
    hdocument, hkeeps 1 w hw hdocument⟩

end Pmacs.Display
