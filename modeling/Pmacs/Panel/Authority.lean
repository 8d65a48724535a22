/-
  What a panel pointer event that passes the ladder was answered to.

  * `Later`: what every operation keeps of the mapping key.
  * `Sound`: the presentation is that of a frame that was sent.
  * `carried_iff`: the frame that an accepted event echoes.
-/
import Pmacs.Panel.Session

namespace Pmacs.Panel

open Lib List Option

variable {P M : Type}

/-! ## The key -/

/-- A key goes on to a greater one, or stays for the same snapshot. -/
def KeyStep (old new : Option (PanelMappingSnapshot × ℕ)) : Prop :=
  ∀ key, old = some key → ∃ key', new = some key' ∧ key.2 ≤ key'.2 ∧ (key.2 = key'.2 → key = key')

def Positive (key : Option (PanelMappingSnapshot × ℕ)) : Prop := ∀ k, key = some k → 0 < k.2

namespace KeyStep

theorem refl (key : Option (PanelMappingSnapshot × ℕ)) : KeyStep key key :=
  fun k hk => ⟨k, hk, Nat.le_refl _, fun _ => rfl⟩

theorem trans {a b c : Option (PanelMappingSnapshot × ℕ)} (h : KeyStep a b) (h' : KeyStep b c) :
    KeyStep a c := by
  intro k hk
  obtain ⟨k', hk', hle, heq⟩ := h k hk
  obtain ⟨k'', hk'', hle', heq'⟩ := h' k' hk'
  refine ⟨k'', hk'', Nat.le_trans hle hle', fun hsame => ?_⟩
  rw [heq (by omega), heq' (by omega)]

end KeyStep

/-- What no operation takes back: the key, its end, and the peer's family. -/
structure Later (s s' : SemanticRenderState P M) : Prop where
  key : KeyStep s.panelMapping s'.panelMapping
  positive : Positive s.panelMapping → Positive s'.panelMapping
  exhausted : s.panelMappingExhausted = true → s'.panelMappingExhausted = true
  family : s'.peerKnowsMappedPanel = s.peerKnowsMappedPanel

/-- Nothing but gestures is another. -/
structure OnlyGestures (s s' : SemanticRenderState P M) : Prop where
  panels : s'.peerKnowsPanelFrames = s.peerKnowsPanelFrames
  family : s'.peerKnowsMappedPanel = s.peerKnowsMappedPanel
  payload : s'.lastPanelPayload = s.lastPanelPayload
  mapping : s'.panelMapping = s.panelMapping
  exhausted : s'.panelMappingExhausted = s.panelMappingExhausted
  used : s'.panelEpochUsed = s.panelEpochUsed
  presentation : s'.panelPresentation = s.panelPresentation

namespace Later

variable {s s' s'' : SemanticRenderState P M}

theorem refl (s : SemanticRenderState P M) : Later s s := ⟨.refl _, id, id, rfl⟩

theorem trans (h : Later s s') (h' : Later s' s'') : Later s s'' :=
  ⟨h.key.trans h'.key, h'.positive ∘ h.positive, h'.exhausted ∘ h.exhausted,
    h'.family.trans h.family⟩

theorem of_mapping (hmapping : s'.panelMapping = s.panelMapping)
    (hexhausted : s'.panelMappingExhausted = s.panelMappingExhausted)
    (hfamily : s'.peerKnowsMappedPanel = s.peerKnowsMappedPanel) : Later s s' :=
  ⟨hmapping ▸ .refl _, by rw [hmapping]; exact id, by rw [hexhausted]; exact id, hfamily⟩

end Later

namespace OnlyGestures

variable {s s' s'' : SemanticRenderState P M}

theorem refl (s : SemanticRenderState P M) : OnlyGestures s s := ⟨rfl, rfl, rfl, rfl, rfl, rfl, rfl⟩

theorem trans (h : OnlyGestures s s') (h' : OnlyGestures s' s'') : OnlyGestures s s'' where
  panels := h'.panels.trans h.panels
  family := h'.family.trans h.family
  payload := h'.payload.trans h.payload
  mapping := h'.mapping.trans h.mapping
  exhausted := h'.exhausted.trans h.exhausted
  used := h'.used.trans h.used
  presentation := h'.presentation.trans h.presentation

theorem later (h : OnlyGestures s s') : Later s s' :=
  .of_mapping h.mapping h.exhausted h.family

end OnlyGestures

variable {e : Editor P M} {ev : PanelPointer}

namespace SemanticRenderState

variable (s : SemanticRenderState P M)

theorem cancelAcceptedGesture_only : OnlyGestures s s.cancelAcceptedGesture := by
  unfold cancelAcceptedGesture
  split
  · exact .refl s
  · exact ⟨rfl, rfl, rfl, rfl, rfl, rfl, rfl⟩

theorem drainPendingRelease_only : OnlyGestures s s.drainPendingRelease.1 := by
  unfold drainPendingRelease
  split
  · exact .refl s
  · exact ⟨rfl, rfl, rfl, rfl, rfl, rfl, rfl⟩

theorem armAcceptedGesture_only (gesture : AcceptedPanelGesture M) :
    OnlyGestures s (s.armAcceptedGesture gesture) :=
  s.cancelAcceptedGesture_only.trans ⟨rfl, rfl, rfl, rfl, rfl, rfl, rfl⟩

theorem replayDown_only (target : ResolvedPanelTarget) :
    OnlyGestures s (s.replayDown e target ev).1 := by
  have hpaid : OnlyGestures s (if s.acceptedGesture.isSome
      then s.cancelAcceptedGesture.drainPendingRelease else (s, ([] : List (Effect P M)))).1 := by
    split
    · exact s.cancelAcceptedGesture_only.trans (drainPendingRelease_only _)
    · exact .refl s
  unfold replayDown
  dsimp only
  split
  · exact hpaid
  · exact hpaid.trans (armAcceptedGesture_only _ _)

theorem replayClassified_only : OnlyGestures s (s.replayClassified e ev).1 := by
  unfold replayClassified replayUp
  split
  any_goals exact .refl s
  · exact replayDown_only s _
  all_goals
    split
    · exact .refl s
    · exact ⟨rfl, rfl, rfl, rfl, rfl, rfl, rfl⟩

theorem replayPanelPointer_only (e : Editor P M) (ev : PanelPointer) :
    OnlyGestures s (s.replayPanelPointer e ev).1 :=
  s.drainPendingRelease_only.trans (replayClassified_only _)

theorem cancelReplaced_only (identity : WindowId × BufferId) (geometryEpoch : ℕ) :
    OnlyGestures s (s.cancelReplaced identity geometryEpoch) := by
  unfold cancelReplaced
  split
  · exact .refl s
  split
  · exact s.cancelAcceptedGesture_only
  · exact .refl s

/-! ## Reading the key -/

section
variable (snapshot : Option PanelMappingSnapshot)
include snapshot

/-- Everything that a read does: it has no key to give, or the key of the snapshot it was given,
    the one seen last or the next. -/
theorem panelMappingGeneration_cases : let read := s.panelMappingGeneration snapshot
    read.2 = none ∧ read.1.panelMapping = s.panelMapping ∨
      ∃ seen key, snapshot = some seen ∧ read.2 = some key ∧
        read.1.panelMapping = some (seen, key) ∧
        (s.panelMapping = some (seen, key) ∨ s.panelMapping = none ∧ key = 1 ∨
          ∃ old, s.panelMapping = some old ∧ key = old.2 + 1) := by
  unfold panelMappingGeneration
  split
  · exact .inl ⟨rfl, rfl⟩
  cases snapshot with
  | none => exact .inl ⟨rfl, rfl⟩
  | some seen =>
    cases hmapping : s.panelMapping with
    | none => exact .inr ⟨seen, 1, rfl, rfl, rfl, .inr (.inl ⟨rfl, rfl⟩)⟩
    | some old =>
      dsimp only
      split
      · rename_i hsame; subst hsame; exact .inr ⟨old.1, old.2, rfl, rfl, rfl, .inl rfl⟩
      simp only [checkedAdd]
      split
      · refine .inl ⟨rfl, ?_⟩
        rw [s.cancelAcceptedGesture_only.mapping, hmapping]
      rename_i next hnext
      split at hnext
      · cases hnext; exact .inr ⟨seen, old.2 + 1, rfl, rfl, rfl, .inr (.inr ⟨old, rfl, rfl⟩)⟩
      · cases hnext

theorem panelMappingGeneration_frame : let read := (s.panelMappingGeneration snapshot).1
    read.peerKnowsMappedPanel = s.peerKnowsMappedPanel ∧
      read.lastPanelPayload = s.lastPanelPayload ∧
      read.panelPresentation = s.panelPresentation ∧
      (s.panelMappingExhausted = true → read.panelMappingExhausted = true) := by
  have hcancel := s.cancelAcceptedGesture_only
  unfold panelMappingGeneration
  split
  · exact ⟨rfl, rfl, rfl, id⟩
  rename_i hfresh
  cases snapshot with
  | none => exact ⟨rfl, rfl, rfl, id⟩
  | some seen =>
    dsimp only
    cases s.panelMapping with
    | none => exact ⟨rfl, rfl, rfl, id⟩
    | some old =>
      dsimp only
      split
      · exact ⟨rfl, rfl, rfl, id⟩
      split
      · exact ⟨hcancel.family, hcancel.payload, hcancel.presentation, fun _ => rfl⟩
      · exact ⟨hcancel.family, hcancel.payload, hcancel.presentation, fun h => absurd h hfresh⟩

theorem panelMappingGeneration_later : Later s (s.panelMappingGeneration snapshot).1 := by
  obtain ⟨hfamily, -, -, hexhausted⟩ := s.panelMappingGeneration_frame snapshot
  have hcases := s.panelMappingGeneration_cases snapshot
  refine ⟨?_, ?_, hexhausted, hfamily⟩
  · intro old hold
    rcases hcases with ⟨-, hsame⟩ | ⟨seen, key, -, -, hmapping, hkey⟩
    · exact ⟨old, hsame.trans hold, Nat.le_refl _, fun _ => rfl⟩
    refine ⟨_, hmapping, ?_⟩
    rcases hkey with hsame | ⟨hnone, -⟩ | ⟨old', hold', rfl⟩
    · rw [hold] at hsame; cases hsame; exact ⟨Nat.le_refl _, fun _ => rfl⟩
    · rw [hold] at hnone; cases hnone
    rw [hold] at hold'; cases hold'
    exact ⟨Nat.le_succ _, fun h => absurd h (Nat.ne_of_lt (Nat.lt_succ_self _))⟩
  intro hpositive k hk
  rcases hcases with ⟨-, hsame⟩ | ⟨seen, key, -, -, hmapping, hkey⟩
  · exact hpositive k (hsame ▸ hk)
  rw [hmapping] at hk; cases hk
  rcases hkey with hsame | ⟨-, rfl⟩ | ⟨old, -, rfl⟩
  · exact hpositive _ hsame
  · exact Nat.one_pos
  · exact Nat.succ_pos _

end

theorem panelMappingGeneration_eq_some {snapshot : Option PanelMappingSnapshot} {key : ℕ}
    (h : (s.panelMappingGeneration snapshot).2 = some key) : ∃ seen, snapshot = some seen ∧
      (s.panelMappingGeneration snapshot).1.panelMapping = some (seen, key) := by
  rcases s.panelMappingGeneration_cases snapshot with ⟨hnone, -⟩ | ⟨seen, k, hseen, hk, hmapping, -⟩
  · rw [h] at hnone; cases hnone
  · rw [h] at hk; cases hk; exact ⟨seen, hseen, hmapping⟩

theorem panelMappingGeneration_of_exhausted (h : s.panelMappingExhausted = true)
    {snapshot : Option PanelMappingSnapshot} : (s.panelMappingGeneration snapshot).2 = none := by
  unfold panelMappingGeneration
  rw [if_pos h]

/-- A ladder that refuses or accepts does to the projection what a read does, if anything, and
    reads only for the mapped family. -/
theorem ladder_fst (version : ℕ) (e : Editor P M) (ev : PanelPointer) :
    (s.ladder version e ev).1 = s ∨ panelMappingMinVersion ≤ version ∧
      (s.ladder version e ev).1 = (s.panelMappingGeneration e.panelMappingSnapshot).1 := by
  unfold ladder panelMappingIsCurrent
  split
  · split
    · exact .inl rfl
    split
    · rename_i hversion
      split
      · exact .inl rfl
      split
      · exact .inl rfl
      · exact .inr ⟨hversion, rfl⟩
    · exact .inl rfl
  · exact .inl rfl

theorem ladder_later (version : ℕ) (e : Editor P M) (ev : PanelPointer) :
    Later s (s.ladder version e ev).1 := by
  rcases s.ladder_fst version e ev with h | ⟨-, h⟩
  · rw [h]; exact .refl s
  · rw [h]; exact s.panelMappingGeneration_later _

/-- What an event that passes shows: the declaration's epochs, the window that is presented, the
    geometry's epoch, and for a checked event the key that was read. -/
theorem ladder_passes {version : ℕ} (h : (s.ladder version e ev).2 = true) :
    (∃ frame presentation geometry, s.lastPanelPayload.frame = some frame ∧
      frame.geometryEpoch = ev.geometryEpoch ∧ frame.panelEpoch = ev.panelEpoch ∧
      s.panelPresentation = some presentation ∧
      e.side = some (presentation.windowId, presentation.bufferId) ∧
      e.frameGeometry = some geometry ∧ geometry.geometryEpoch = ev.geometryEpoch) ∧
    (ev.checked = true → panelMappingMinVersion ≤ version ∧
      (s.panelMappingGeneration e.panelMappingSnapshot).2 = ev.mappingGeneration ∧
      (s.ladder version e ev).1 = (s.panelMappingGeneration e.panelMappingSnapshot).1) := by
  unfold ladder at h ⊢
  split at h
  · rename_i hgate; rw [if_pos hgate]; obtain ⟨-, -, hepochs⟩ := hgate
    constructor
    · simp only [panelEventEpochsAreCurrent, panelDeclarationMatches, panelDeclaration,
        Bool.and_eq_true] at hepochs
      obtain ⟨hmatches, hgeometry⟩ := hepochs
      split at hmatches
      · cases hmatches
      rename_i live hside
      rw [Bool.and_eq_true, Option.any_eq_true, Option.any_eq_true] at hmatches
      obtain ⟨⟨presentation, hpresentation, hlive⟩, frame, hframe, hecho⟩ := hmatches
      obtain ⟨geometry, hgeo, hepoch⟩ := (Option.any_eq_true _ _).1 hgeometry
      simp only [decide_eq_true_eq, Bool.and_eq_true] at hlive hecho hepoch
      exact ⟨frame, presentation, geometry, hframe, hecho.1, hecho.2, hpresentation,
        hlive ▸ hside, hgeo, hepoch⟩
    intro hchecked
    simp only [PanelPointer.checked, Bool.and_eq_true, Bool.not_eq_true'] at hchecked
    obtain ⟨echoed, hechoed⟩ := isSome_iff_exists.1 hchecked.1; rw [hechoed] at h ⊢
    dsimp only at h ⊢
    split at h
    · rename_i hversion; rw [if_pos hversion]; unfold panelMappingIsCurrent at h ⊢
      split at h
      · cases h
      rename_i hzero; rw [if_neg hzero]; rw [hchecked.2] at h ⊢
      simp only [Bool.false_eq_true, if_false, decide_eq_true_eq] at h ⊢
      exact ⟨hversion, h, trivial⟩
    · cases h
  · cases h

end SemanticRenderState

namespace SemanticRenderState

/-- A stamped payload is of its frame, under the key of the present mapping if the peer knows it. -/
theorem stamp_payload {s : SemanticRenderState P M} {frame : PanelFrame P}
    {payload : PanelFramePayload P} (h : (s.stamp e frame).2 = some payload) :
    payload.frame = some frame ∧ (∀ key, payload.mappingGeneration = some key → ∃ seen,
        e.panelMappingSnapshot = some seen ∧ (s.stamp e frame).1.panelMapping = some (seen, key)) ∧
      ((s.stamp e frame).1.peerKnowsMappedPanel = true →
        payload.mappingGeneration.isSome = true) := by
  unfold stamp at h ⊢
  split at h
  · rename_i hknows; rw [if_pos hknows]; obtain ⟨key, hkey, rfl⟩ := map_eq_some_iff.1 h
    refine ⟨rfl, fun k hk => ?_, fun _ => rfl⟩; cases hk
    exact s.panelMappingGeneration_eq_some hkey
  rename_i hfamily; rw [if_neg hfamily]; cases h
  exact ⟨rfl, fun k hk => (by cases hk), fun hknows => absurd hknows hfamily⟩

end SemanticRenderState

/-! ## What was sent -/

/-- The presentation is that of the frame sent last, with the editor it was made from, and no key
    sent is past the one that is held. -/
structure Sound (log : List (Effect P M)) (s : SemanticRenderState P M) : Prop where
  absent : s.lastPanelPayload.frame = none → s.panelPresentation = none
  sent : ∀ frame, s.lastPanelPayload.frame = some frame → ∃ e geometry windowId,
    Effect.wrote s.lastPanelPayload e ∈ log ∧
    s.panelPresentation =
      some ⟨windowId, frame.bufferId, frame.panelEpoch, frame.geometryEpoch⟩ ∧
    e.side = some (windowId, frame.bufferId) ∧
    e.frameGeometry = some geometry ∧ geometry.geometryEpoch = frame.geometryEpoch ∧
    ∀ key, s.lastPanelPayload.mappingGeneration = some key → ∃ seen held,
      e.panelMappingSnapshot = some seen ∧ s.panelMapping = some held ∧
      key ≤ held.2 ∧ (key = held.2 → held.1 = seen)
  mapped : s.peerKnowsMappedPanel = true → s.lastPanelPayload.frame.isSome = true →
    s.lastPanelPayload.mappingGeneration.isSome = true
  keys : ∀ payload e key, Effect.wrote payload e ∈ log → payload.mappingGeneration = some key →
    (∃ held, s.panelMapping = some held ∧ key ≤ held.2) ∧
      ∀ last, s.lastPanelPayload.mappingGeneration = some last → key ≤ last
  positive : Positive s.panelMapping

namespace Sound

variable {log : List (Effect P M)} {s s' : SemanticRenderState P M}

section
variable (h : Sound log s)
include h

theorem congr {log' : List (Effect P M)}
    (hwrote : ∀ payload e, Effect.wrote payload e ∈ log' ↔ Effect.wrote payload e ∈ log) :
    Sound log' s where
  absent := h.absent
  sent frame hframe := by
    obtain ⟨e, geometry, windowId, hsent, hrest⟩ := h.sent frame hframe
    exact ⟨e, geometry, windowId, (hwrote _ _).2 hsent, hrest⟩
  mapped := h.mapped
  keys payload e key hmem := h.keys payload e key ((hwrote payload e).1 hmem)
  positive := h.positive

theorem later (hlater : Later s s') (hpayload : s'.lastPanelPayload = s.lastPanelPayload)
    (hpresentation : s'.panelPresentation = s.panelPresentation) : Sound log s' where
  absent := by rw [hpayload, hpresentation]; exact h.absent
  sent frame hframe := by
    rw [hpayload] at hframe ⊢; rw [hpresentation]
    obtain ⟨e, geometry, windowId, hsent, hpres, hside, hgeo, hepoch, hkey⟩ := h.sent frame hframe
    refine ⟨e, geometry, windowId, hsent, hpres, hside, hgeo, hepoch, fun key hk => ?_⟩
    obtain ⟨seen, held, hseen, hheld, hle, heq⟩ := hkey key hk
    obtain ⟨held', hheld', hle', heq'⟩ := hlater.key held hheld
    refine ⟨seen, held', hseen, hheld', Nat.le_trans hle hle', fun hsame => ?_⟩
    rw [← heq' (by omega)]; exact heq (by omega)
  mapped := by rw [hlater.family, hpayload]; exact h.mapped
  keys payload e key hmem hkey := by
    obtain ⟨⟨held, hheld, hle⟩, hlast⟩ := h.keys payload e key hmem hkey
    obtain ⟨held', hheld', hle', -⟩ := hlater.key held hheld; rw [hpayload]
    exact ⟨⟨held', hheld', Nat.le_trans hle hle'⟩, hlast⟩
  positive := hlater.positive h.positive

theorem gestures (hsame : OnlyGestures s s') : Sound log s' :=
  h.later hsame.later hsame.payload hsame.presentation

theorem read (snapshot : Option PanelMappingSnapshot) :
    Sound log (s.panelMappingGeneration snapshot).1 :=
  h.later (s.panelMappingGeneration_later snapshot) (s.panelMappingGeneration_frame snapshot).2.1
    (s.panelMappingGeneration_frame snapshot).2.2.1

end

theorem stamp (h : Sound log s) (e : Editor P M) (frame : PanelFrame P) :
    Sound log (s.stamp e frame).1 := by
  unfold SemanticRenderState.stamp
  split
  · exact h.read _
  · exact h

variable [DecidableEq P]

theorem publishAbsentPanel (h : Sound log s) :
    Sound (log ++ s.publishAbsentPanel.2.toList.map fun payload => .wrote payload e)
      s.publishAbsentPanel.1 := by
  have hcancel := h.gestures s.cancelAcceptedGesture_only
  unfold SemanticRenderState.publishAbsentPanel
  generalize s.cancelAcceptedGesture = s at *
  dsimp only
  have hkeys (payload : PanelFramePayload P) (e' : Editor P M) (key : ℕ)
      (hmem : Effect.wrote payload e' ∈ log ++ [.wrote .absent e])
      (hkey : payload.mappingGeneration = some key) : Effect.wrote payload e' ∈ log := by
    rcases mem_append.1 hmem with hmem | hmem
    · exact hmem
    · rw [mem_singleton] at hmem; cases hmem; cases hkey
  split
  · rename_i habsent; rw [toList_none, map_nil, append_nil]
    refine ⟨fun _ => rfl, fun frame hframe => ?_, hcancel.mapped, hcancel.keys, hcancel.positive⟩
    rw [habsent] at hframe; cases hframe
  refine ⟨fun _ => rfl, fun frame hframe => (by cases hframe), fun _ hsome => (by cases hsome),
    fun payload e' key hmem hkey => ?_, hcancel.positive⟩
  have hlog := hkeys payload e' key hmem hkey
  exact ⟨(hcancel.keys payload e' key hlog hkey).1, fun last hlast => (by cases hlast)⟩

/-- A frame of the live side window, the accepted geometry and the present mapping. -/
theorem ship (h : Sound log s) {validGrid : CellSize → P → Bool} {windowId : WindowId}
    {frame : PanelFrame P} {payload : PanelFramePayload P} {geometry : DeclaredFrameGeometry}
    (hside : e.side = some (windowId, frame.bufferId))
    (hgeo : e.frameGeometry = some geometry) (hepoch : geometry.geometryEpoch = frame.geometryEpoch)
    (hframe : payload.frame = some frame) (hkey : ∀ key, payload.mappingGeneration = some key →
      ∃ seen, e.panelMappingSnapshot = some seen ∧ s.panelMapping = some (seen, key))
    (hmapped : s.peerKnowsMappedPanel = true → payload.mappingGeneration.isSome = true) :
    Sound (log ++ (s.ship validGrid windowId frame payload).2.toList.map fun payload =>
      .wrote payload e) (s.ship validGrid windowId frame payload).1 := by
  have hunsent : Sound (log ++ (none : Option (PanelFramePayload P)).toList.map fun payload =>
      Effect.wrote payload e) s := by rw [toList_none, map_nil, append_nil]; exact h
  unfold SemanticRenderState.ship
  split
  · exact hunsent
  split
  · refine ⟨fun hnone => ?_, fun frame' hframe' => ?_, fun hfamily _ => hmapped hfamily,
      fun payload' e' key hmem hkey' => ?_, h.positive⟩
    · dsimp only at hnone; rw [hframe] at hnone; cases hnone
    · dsimp only at hframe'; rw [hframe] at hframe'; cases hframe'
      refine ⟨e, geometry, windowId, mem_append_right _ (mem_singleton_self _), rfl,
        hside, hgeo, hepoch, fun key hk => ?_⟩
      obtain ⟨seen, hseen, hheld⟩ := hkey key hk
      exact ⟨seen, (seen, key), hseen, hheld, Nat.le_refl _, fun _ => rfl⟩
    rcases mem_append.1 hmem with hmem | hmem
    · obtain ⟨⟨held, hheld, hle⟩, -⟩ := h.keys payload' e' key hmem hkey'
      refine ⟨⟨held, hheld, hle⟩, fun last hlast => ?_⟩
      obtain ⟨seen, -, hlastheld⟩ := hkey last hlast; rw [hheld] at hlastheld; cases hlastheld
      exact hle
    obtain ⟨rfl, rfl⟩ : payload' = payload ∧ e' = e := by simpa using hmem
    obtain ⟨seen, -, hheld⟩ := hkey key hkey'
    refine ⟨⟨_, hheld, Nat.le_refl _⟩, fun last hlast => ?_⟩
    rw [hkey'] at hlast; cases hlast; exact Nat.le_refl _
  · exact hunsent

theorem emitPanelFrame (h : Sound log s) (validGrid : CellSize → P → Bool) (e : Editor P M) :
    Sound (log ++ (s.emitPanelFrame validGrid e).2.toList.map fun payload => .wrote payload e)
      (s.emitPanelFrame validGrid e).1 := by
  rcases s.emitPanelFrame_cases validGrid e with heq | heq |
    ⟨geometry, projection, replaced, hgeo, hprojection, rfl, hcases⟩
  · rw [heq, toList_none, map_nil, append_nil]; exact h
  · rw [heq]; exact h.publishAbsentPanel
  have hreplaced := h.gestures
    (s.cancelReplaced_only (projection.windowId, projection.bufferId) geometry.geometryEpoch)
  rcases hcases with heq | ⟨panelEpoch, stamped, -, rfl, ⟨-, heq⟩ | ⟨payload, hstamp, heq⟩⟩
  · rw [heq]; exact hreplaced.publishAbsentPanel
  · rw [heq]; exact (hreplaced.stamp e _).publishAbsentPanel
  have hstamped := hreplaced.stamp e
    (SemanticRenderState.projectedFrame geometry projection panelEpoch)
  obtain ⟨hframe, hkey, hmapped⟩ := SemanticRenderState.stamp_payload hstamp; rw [heq]
  exact hstamped.ship (Editor.side_of_projection hprojection) hgeo rfl hframe hkey hmapped

end Sound

namespace SemanticRenderState

variable (s : SemanticRenderState P M)

theorem stamp_later (e : Editor P M) (frame : PanelFrame P) : Later s (s.stamp e frame).1 := by
  unfold stamp
  split
  · exact s.panelMappingGeneration_later _
  · exact .refl s

theorem wrote_not_mem_drain (payload : PanelFramePayload P) (e : Editor P M) :
    Effect.wrote payload e ∉ s.drainPendingRelease.2 := by
  unfold drainPendingRelease
  split <;> simp

theorem wrote_not_mem_replay (e : Editor P M) (ev : PanelPointer) (payload : PanelFramePayload P)
    (e' : Editor P M) : Effect.wrote payload e' ∉ (s.replayPanelPointer e ev).2 := by
  have hclassified (s : SemanticRenderState P M) :
      Effect.wrote payload e' ∉ (s.replayClassified e ev).2 := by
    unfold replayClassified replayUp
    split
    any_goals simp
    · unfold replayDown
      have hpaid : Effect.wrote payload e' ∉ (if s.acceptedGesture.isSome
          then s.cancelAcceptedGesture.drainPendingRelease else (s, ([] : List (Effect P M)))).2 := by
        split
        · exact wrote_not_mem_drain _ payload e'
        · simp
      dsimp only
      split
      · exact hpaid
      · simpa using hpaid
    all_goals split <;> simp
  unfold replayPanelPointer
  dsimp only
  rw [mem_append, not_or]
  exact ⟨s.wrote_not_mem_drain payload e', hclassified _⟩

variable [DecidableEq P]

theorem publishAbsentPanel_later : Later s s.publishAbsentPanel.1 := by
  unfold publishAbsentPanel
  dsimp only
  split
  · exact s.cancelAcceptedGesture_only.later.trans (.of_mapping rfl rfl rfl)
  · exact s.cancelAcceptedGesture_only.later.trans (.of_mapping rfl rfl rfl)

theorem ship_later {validGrid : CellSize → P → Bool} (windowId : WindowId)
    {frame : PanelFrame P} {payload : PanelFramePayload P} :
    Later s (s.ship validGrid windowId frame payload).1 := by
  unfold ship
  split
  · exact .refl s
  split
  · exact .of_mapping rfl rfl rfl
  · exact .refl s

theorem emitPanelFrame_later (validGrid : CellSize → P → Bool) (e : Editor P M) :
    Later s (s.emitPanelFrame validGrid e).1 := by
  rcases s.emitPanelFrame_cases validGrid e with heq | heq |
    ⟨geometry, projection, replaced, -, -, rfl, hcases⟩
  · rw [heq]; exact .refl s
  · rw [heq]; exact s.publishAbsentPanel_later
  refine (s.cancelReplaced_only (projection.windowId, projection.bufferId)
    geometry.geometryEpoch).later.trans ?_
  rcases hcases with heq | ⟨panelEpoch, stamped, -, rfl, ⟨-, heq⟩ | ⟨payload, -, heq⟩⟩
  · rw [heq]; exact publishAbsentPanel_later _
  · rw [heq]; exact (stamp_later _ e _).trans (publishAbsentPanel_later _)
  · rw [heq]; exact (stamp_later _ e _).trans (ship_later _ _)

end SemanticRenderState

/-! ## Runs -/

namespace PanelSession

/-- The projection of a later state comes from one of an earlier state. -/
def LaterSession (c c' : PanelSession P M) : Prop :=
  c'.version = c.version ∧
    ∀ s', c'.semantic = some s' → ∃ s, c.semantic = some s ∧ Later s s'

namespace LaterSession

theorem refl (c : PanelSession P M) : LaterSession c c := ⟨rfl, fun s hs => ⟨s, hs, .refl s⟩⟩

theorem trans {a b c : PanelSession P M} (h : LaterSession a b) (h' : LaterSession b c) :
    LaterSession a c := by
  refine ⟨h'.1.trans h.1, fun s'' hs'' => ?_⟩
  obtain ⟨s', hs', hlater'⟩ := h'.2 s'' hs''
  obtain ⟨s, hs, hlater⟩ := h.2 s' hs'
  exact ⟨s, hs, hlater.trans hlater'⟩

variable [DecidableEq P] (validGrid : CellSize → P → Bool)

theorem step (c : PanelSession P M) (event : Event P M) :
    LaterSession c (c.step validGrid event) := by
  cases event with
  | edited e => exact .refl c
  | geometry geometryEpoch total =>
    show LaterSession c (c.declareGeometry geometryEpoch total)
    unfold declareGeometry
    split
    · exact .refl c
    · exact .refl c
  | pointer ev =>
    show LaterSession c (c.pointer ev)
    unfold pointer
    cases hsem : c.semantic with
    | none => exact ⟨rfl, fun s' hs' => (by rw [hsem] at hs'; cases hs')⟩
    | some s =>
      have hladder := s.ladder_later c.version c.editor ev; dsimp only
      split
      · refine ⟨rfl, ?_⟩; rintro s' ⟨⟩
        exact ⟨s, hsem, hladder.trans (SemanticRenderState.replayPanelPointer_only _ _ ev).later⟩
      · refine ⟨rfl, ?_⟩; rintro s' ⟨⟩; exact ⟨s, hsem, hladder⟩
  | project =>
    show LaterSession c (c.project validGrid)
    unfold project
    cases hsem : c.semantic with
    | none => exact ⟨rfl, fun s' hs' => (by rw [hsem] at hs'; cases hs')⟩
    | some s =>
      refine ⟨rfl, ?_⟩; rintro s' ⟨⟩
      exact ⟨s, hsem, (s.emitPanelFrame_later validGrid c.editor).trans
        (SemanticRenderState.drainPendingRelease_only _).later⟩
  | detach =>
    show LaterSession c c.detach
    unfold detach
    cases hsem : c.semantic with
    | none => exact ⟨rfl, fun s' hs' => (by rw [hsem] at hs'; cases hs')⟩
    | some s => exact ⟨rfl, fun s' hs' => (by cases hs')⟩

theorem run (c : PanelSession P M) (events : List (Event P M)) :
    LaterSession c (c.run validGrid events) := by
  induction events generalizing c with
  | nil => exact .refl c
  | cons event events ih => exact (step validGrid c event).trans (ih (c.step validGrid event))

end LaterSession

/-- What holds in every state: the projection is sound, of the session's family, and no frame was
    made from a geometry that is past the accepted one. -/
structure Kept (c : PanelSession P M) : Prop where
  sound : ∀ s, c.semantic = some s → Sound c.log s
  family : ∀ s, c.semantic = some s →
    s.peerKnowsMappedPanel = decide (panelMappingMinVersion ≤ c.version)
  geometry : ∀ payload e g, Effect.wrote payload e ∈ c.log → e.frameGeometry = some g →
    ∃ g', c.editor.frameGeometry = some g' ∧ (g = g' ∨ g.geometryEpoch < g'.geometryEpoch)

namespace Kept

theorem start (version : ℕ) (e : Editor P M) : Kept (start version e) where
  sound := by
    rintro s ⟨⟩
    exact ⟨fun _ => rfl, fun frame h => (by cases h), fun _ h => (by cases h),
      fun _ _ _ h => (by cases h), fun _ h => (by cases h)⟩
  family := by
    rintro s ⟨⟩; rfl
  geometry _ _ _ h := by cases h

variable {c : PanelSession P M}

theorem acceptFrameGeometry_of_some {g : DeclaredFrameGeometry}
    (h : e.frameGeometry = some g) (geometryEpoch : ℕ) (total : CellSize) :
    ∃ g', (acceptFrameGeometry e geometryEpoch total).frameGeometry = some g' ∧
      (g = g' ∨ g.geometryEpoch < g'.geometryEpoch) := by
  simp only [acceptFrameGeometry, acceptGeometry, h]
  split
  · exact ⟨g, rfl, .inl rfl⟩
  split
  · exact ⟨g, rfl, .inl rfl⟩
  split
  · exact ⟨g, rfl, .inl rfl⟩
  · exact ⟨_, rfl, .inr (by dsimp only; omega)⟩

theorem declareGeometry (h : Kept c) (geometryEpoch : ℕ) (total : CellSize) :
    Kept (c.declareGeometry geometryEpoch total) := by
  unfold PanelSession.declareGeometry
  split
  · refine ⟨h.sound, h.family, fun payload e g hmem hg => ?_⟩
    obtain ⟨g', hg', hle⟩ := h.geometry payload e g hmem hg
    obtain ⟨g'', hg'', hle'⟩ := acceptFrameGeometry_of_some hg' geometryEpoch total
    refine ⟨g'', hg'', ?_⟩
    rcases hle with rfl | hlt
    · exact hle'
    rcases hle' with rfl | hlt'
    · exact .inr hlt
    · exact .inr (Nat.lt_trans hlt hlt')
  · exact h

/-- More is delivered, nothing is written, and the projection goes on. -/
theorem delivered (h : Kept c) {s s' : SemanticRenderState P M} (hs : c.semantic = some s)
    (hsound : Sound c.log s') (hlater : Later s s') {effects : List (Effect P M)}
    (hnot : ∀ payload e, Effect.wrote payload e ∉ effects) :
    Kept { c with semantic := some s', log := c.log ++ effects } := by
  have hwrote (payload : PanelFramePayload P) (e : Editor P M) :
      Effect.wrote payload e ∈ c.log ++ effects ↔ Effect.wrote payload e ∈ c.log := by
    rw [mem_append, or_iff_left (hnot payload e)]
  refine ⟨?_, ?_, fun payload e g hmem => h.geometry payload e g ((hwrote payload e).1 hmem)⟩
  · rintro t ⟨⟩; exact hsound.congr hwrote
  · rintro t ⟨⟩; exact hlater.family.trans (h.family s hs)

theorem pointer (h : Kept c) (ev : PanelPointer) : Kept (c.pointer ev) := by
  unfold PanelSession.pointer
  cases hs : c.semantic with
  | none => exact h
  | some s =>
    have hlater := s.ladder_later c.version c.editor ev
    have hsound : Sound c.log (s.ladder c.version c.editor ev).1 := by
      rcases s.ladder_fst c.version c.editor ev with heq | ⟨-, heq⟩
      · rw [heq]; exact h.sound s hs
      · rw [heq]; exact (h.sound s hs).read _
    dsimp only
    split
    · have hreplay := (s.ladder c.version c.editor ev).1.replayPanelPointer_only c.editor ev
      exact h.delivered hs (hsound.gestures hreplay) (hlater.trans hreplay.later)
        (SemanticRenderState.wrote_not_mem_replay _ c.editor ev)
    have hnot (payload : PanelFramePayload P) (e : Editor P M) :
        Effect.wrote payload e ∉ ([] : List (Effect P M)) := not_mem_nil
    have hnone := h.delivered hs hsound hlater hnot
    rwa [append_nil] at hnone

theorem project [DecidableEq P] (h : Kept c) (validGrid : CellSize → P → Bool) :
    Kept (c.project validGrid) := by
  unfold PanelSession.project
  cases hs : c.semantic with
  | none => exact h
  | some s =>
    dsimp only [SemanticRenderState.projectSemanticFrame]
    have hsound := (h.sound s hs).emitPanelFrame validGrid c.editor
    have hlater := s.emitPanelFrame_later validGrid c.editor
    generalize s.emitPanelFrame validGrid c.editor = emitted at *
    have hdrain := emitted.1.drainPendingRelease_only; have hnot := emitted.1.wrote_not_mem_drain
    generalize emitted.1.drainPendingRelease = drained at *
    have hwrote (payload : PanelFramePayload P) (e : Editor P M) :
        Effect.wrote payload e ∈ c.log ++ (drained.2 ++ emitted.2.toList.map
            fun payload => .wrote payload c.editor) ↔
          Effect.wrote payload e ∈ c.log ++ emitted.2.toList.map
            fun payload => .wrote payload c.editor := by simp [hnot]
    refine ⟨?_, ?_, fun payload e g hmem hg => ?_⟩
    · rintro t ⟨⟩; exact (hsound.gestures hdrain).congr hwrote
    · rintro t ⟨⟩; exact (hlater.trans hdrain.later).family.trans (h.family s hs)
    rcases mem_append.1 ((hwrote payload e).1 hmem) with hmem | hmem
    · exact h.geometry payload e g hmem hg
    · obtain ⟨payload', -, heq⟩ := mem_map.1 hmem; cases heq; exact ⟨g, hg, .inl rfl⟩

theorem detach (h : Kept c) : Kept c.detach := by
  unfold PanelSession.detach
  cases hs : c.semantic with
  | none => exact h
  | some s =>
    have hnot := s.cancelAcceptedGesture.wrote_not_mem_drain
    refine ⟨fun s hs => (by cases hs), fun s hs => (by cases hs), fun payload e g hmem => ?_⟩
    refine h.geometry payload e g ?_
    rcases mem_append.1 hmem with hmem | hmem
    · exact hmem
    · exact absurd hmem (hnot payload e)

variable [DecidableEq P] {validGrid : CellSize → P → Bool}

theorem step (h : Kept c) (event : Event P M) : Kept (c.step validGrid event) := by
  cases event with
  | edited e => exact ⟨h.sound, h.family, h.geometry⟩
  | geometry geometryEpoch total => exact h.declareGeometry geometryEpoch total
  | pointer ev => exact h.pointer ev
  | project => exact h.project validGrid
  | detach => exact h.detach

theorem reachable (h : Reachable validGrid c) : Kept c :=
  h.induct validGrid start fun _ event hc => hc.step event

end Kept

/-! ## The frame that an event echoes -/

/-- A frame was sent with the epochs that the event echoes, and made from the side window, the
    buffer and the geometry that are live; for a checked event, with the generation it echoes and
    from the mapping that is live. -/
def Carried (c : PanelSession P M) (ev : PanelPointer) : Prop :=
  ∃ payload frame e, Effect.wrote payload e ∈ c.log ∧ payload.frame = some frame ∧
    frame.geometryEpoch = ev.geometryEpoch ∧ frame.panelEpoch = ev.panelEpoch ∧
    (∃ live, c.editor.side = some live ∧ e.side = some live) ∧
    (∃ geometry, c.editor.frameGeometry = some geometry ∧ e.frameGeometry = some geometry) ∧
    (ev.checked = true → payload.mappingGeneration = ev.mappingGeneration ∧
      ∃ seen, c.editor.panelMappingSnapshot = some seen ∧ e.panelMappingSnapshot = some seen)

/-- The generation that a checked event echoes is not past the one of the frame sent last. -/
def Echoes (c : PanelSession P M) (ev : PanelPointer) : Prop :=
  ev.checked = true → ∀ s echoed last, c.semantic = some s →
    ev.mappingGeneration = some echoed → s.lastPanelPayload.mappingGeneration = some last →
      echoed ≤ last

variable {c : PanelSession P M}

/-- An event that passes echoes a frame exactly when its generation is not past the last one. -/
theorem Kept.carried_iff (h : Kept c) (hpass : c.passes ev = true) :
    c.Carried ev ↔ c.Echoes ev := by
  obtain ⟨s, hs, hladder⟩ := (Option.any_eq_true _ _).1 hpass
  obtain ⟨⟨frame, presentation, live, hframe, hgeoEpoch, hpanelEpoch, hpresentation, hside, hlive,
    hliveEpoch⟩, hchecked⟩ := s.ladder_passes hladder
  have hsound := h.sound s hs
  obtain ⟨e, geometry, windowId, hsent, hsame, heside, hegeo, hepoch, hkey⟩ :=
    hsound.sent frame hframe
  rw [hpresentation] at hsame
  cases hsame
  -- the geometry of the frame is the accepted one: a later one has another epoch
  obtain ⟨g', hg', hle⟩ := h.geometry _ e geometry hsent hegeo
  rw [hlive] at hg'
  cases hg'
  have hgeometry : geometry = live := hle.resolve_right (by omega)
  subst hgeometry
  constructor
  · rintro ⟨payload, -, e', hmem, -, -, -, -, -, hmapped⟩ hchk s' echoed last hs' hechoed hlast
    rw [hs] at hs'; cases hs'
    exact (hsound.keys payload e' echoed hmem ((hmapped hchk).1.trans hechoed)).2 last hlast
  intro hechoes
  refine ⟨_, frame, e, hsent, hframe, hgeoEpoch, hpanelEpoch, ⟨_, hside, heside⟩,
    ⟨_, hlive, hegeo⟩, fun hchk => ?_⟩
  obtain ⟨hversion, hread, -⟩ := hchecked hchk
  -- the peer knows mapped frames, so the last one carried a key
  have hknows : s.peerKnowsMappedPanel = true := by
    rw [h.family s hs]; exact decide_eq_true hversion
  obtain ⟨last, hlast⟩ := isSome_iff_exists.1 (hsound.mapped hknows (by rw [hframe]; rfl))
  obtain ⟨seen, held, hseen, hheld, hlastle, hlasteq⟩ := hkey last hlast
  obtain ⟨echoed, hechoed⟩ : ∃ echoed, ev.mappingGeneration = some echoed := by
    unfold PanelPointer.checked at hchk; simp only [Bool.and_eq_true] at hchk
    exact isSome_iff_exists.1 hchk.1
  have hle' : echoed ≤ last := hechoes hchk s echoed last hs hechoed hlast
  obtain ⟨seen', hseen', hmapping⟩ := s.panelMappingGeneration_eq_some (hread.trans hechoed)
  obtain ⟨held', hheld', hkeyle, hkeyeq⟩ :=
    (s.panelMappingGeneration_later c.editor.panelMappingSnapshot).key held hheld
  rw [hmapping] at hheld'; cases hheld'
  have hsameKey := hkeyeq (by omega); have hsameSeen : held.1 = seen := hlasteq (by omega)
  refine ⟨hlast.trans (by rw [hechoed]; congr 1; omega), seen', hseen', ?_⟩
  rw [hseen, ← hsameSeen, hsameKey]

variable [DecidableEq P] {validGrid : CellSize → P → Bool}

/-- **What an accepted event echoes**: it is a frame that was sent, made from what is live,
    exactly when the generation it echoes is not past the one sent last; keys do not decrease, are
    not given to another snapshot and are not zero; and past the last key no event is accepted
    whose mapping is checked. -/
theorem panel_pointer_echoes (h : Reachable validGrid c) :
    (∀ ev, c.passes ev = true → (c.Carried ev ↔ c.Echoes ev)) ∧
    ∀ events s s', c.semantic = some s → (c.run validGrid events).semantic = some s' →
      (∀ key, s.panelMapping = some key → 0 < key.2 ∧ ∃ key', s'.panelMapping = some key' ∧
        key.2 ≤ key'.2 ∧ (key.2 = key'.2 → key.1 = key'.1)) ∧
      (s.panelMappingExhausted = true → ∀ ev, ev.checked = true →
        (c.run validGrid events).passes ev = false) := by
  have hkept := Kept.reachable h
  constructor
  · intro ev hpass; exact hkept.carried_iff hpass
  intro events s s' hs hs'; obtain ⟨-, hlater⟩ := LaterSession.run validGrid c events
  obtain ⟨t, ht, hkey⟩ := hlater s' hs'; rw [hs] at ht; cases ht
  constructor
  · intro key hmapping; obtain ⟨key', hmapping', hle, heq⟩ := hkey.key key hmapping
    refine ⟨(hkept.sound s hs).positive key hmapping, key', hmapping', hle, fun hsame => ?_⟩
    rw [heq hsame]
  intro hexhausted ev hchk; rw [passes, hs', any_some, Bool.eq_false_iff]; intro hladder
  obtain ⟨-, hread, -⟩ := (s'.ladder_passes hladder).2 hchk
  rw [s'.panelMappingGeneration_of_exhausted (hkey.exhausted hexhausted)] at hread
  unfold PanelPointer.checked at hchk; rw [← hread] at hchk; cases hchk

/-- An editor whose side window shows buffer 7 from the line `viewTop`. -/
def scrolled (viewTop : ℕ) : Editor Unit Unit where
  panelCapable := true
  frameGeometry := none
  side := some (2, 7)
  gridSize := some ⟨4, 10⟩
  content := .document (some 1) viewTop 0 .truncate 10 false []
  painted := some ()
  isTerminal _ := false
  terminalGesture _ := .none
  anchors _ := true

/-- A left press that echoes the first presentation and a generation. -/
def pressed (generation : ℕ) : PanelPointer := ⟨1, 1, 7, ⟨0, 3⟩, .down .left, some generation⟩

def shown : PanelSession Unit Unit :=
  (start 25 (scrolled 0)).run (fun _ _ => true) [.geometry 1 ⟨24, 80⟩, .project]

theorem panel_pointer_echoes_shown : shown.Carried (pressed 1) ∧
    ∃ s, (shown.run (fun _ _ => true) [.edited (scrolled 3), .project]).semantic = some s ∧
      ∃ key, s.panelMapping = some key ∧ 1 ≤ key.2 := by
  have h := panel_pointer_echoes (c := shown) ⟨25, scrolled 0, _, rfl⟩
  constructor
  · refine (h.1 (pressed 1) rfl).2 fun _ s echoed last hs hechoed hlast => ?_; cases hs
    cases hechoed; cases hlast; exact Nat.le_refl 1
  obtain ⟨-, key, hkey, hle, -⟩ := (h.2 [.edited (scrolled 3), .project] _ _ rfl rfl).1 _ rfl
  exact ⟨_, rfl, key, hkey, hle⟩

/-- The buffer is scrolled under the panel; a press of the mapping that is gone is refused, and
    reading the key for it takes the next one. -/
def guessed : PanelSession Unit Unit :=
  shown.run (fun _ _ => true) [.edited (scrolled 3), .pointer (pressed 1)]

/-- A press that echoes the next generation passes, though no frame has carried it. -/
theorem panel_pointer_guessed : ¬∀ c : PanelSession Unit Unit,
    Reachable (fun _ _ => true) c → ∀ ev, c.passes ev = true → c.Carried ev := by
  intro h
  have hreachable : Reachable (fun _ _ => true) guessed :=
    ⟨25, scrolled 0, [.geometry 1 ⟨24, 80⟩, .project, .edited (scrolled 3), .pointer (pressed 1)],
      rfl⟩
  obtain ⟨payload, frame, e, hmem, -, -, -, -, -, hmapped⟩ := h guessed hreachable (pressed 2) rfl
  have hgeneration := (hmapped rfl).1
  have hlog : guessed.log = [.wrote (.presentMapped ⟨7, 1, 1, ⟨4, 10⟩, ()⟩ 1)
      { scrolled 0 with frameGeometry := some ⟨1, ⟨24, 80⟩⟩ }] := rfl
  rw [hlog, mem_singleton] at hmem
  cases hmem
  cases hgeneration

end PanelSession

end Pmacs.Panel
