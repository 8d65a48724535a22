/-
  The left button's gestures on a panel are complete.

  * `Gestures log live`: every press in the log is completed in its domain before another press
    and before a frame of another authority, but for the one of `live`.
  * `Parks`: an operation leaves the gesture alone, or ends it and parks its release.
  * `Paired`: the live or owed gesture is the one that the log leaves open.
-/
import Pmacs.Panel.Authority

namespace Pmacs.Panel

open Lib List Option

variable {P M : Type}

/-! ## Complete gestures -/

/-- A gesture that is not completed: its domain, and the authority it was pressed under. -/
structure Live (M : Type) where
  domain : PanelGestureDomain M
  authority : Authority

/-- A log of complete gestures, up to the one that is not completed yet. While it is not, a frame
    is written only under the authority it was pressed under. -/
inductive Gestures : List (Effect P M) → Option (Live M) → Prop where
  | nil : Gestures [] none
  | press {log : List (Effect P M)} (live : Live M) (coord : CellCoord) :
      Gestures log none → Gestures (log ++ [Effect.press live.domain coord live.authority]) (some live)
  | drag {log : List (Effect P M)} {live : Live M} (coord : CellCoord) :
      Gestures log (some live) → Gestures (log ++ [Effect.drag live.domain coord]) (some live)
  | release {log : List (Effect P M)} {live : Live M} (coord : CellCoord) :
      Gestures log (some live) → Gestures (log ++ [Effect.release live.domain coord]) none
  | content {log : List (Effect P M)} {live : Option (Live M)} (kind : MouseKind)
      (coord : CellCoord) : Gestures log live → Gestures (log ++ [Effect.content kind coord]) live
  | wrote {log : List (Effect P M)} (payload : PanelFramePayload P) (e : Editor P M) :
      Gestures log none → Gestures (log ++ [Effect.wrote payload e]) none
  | repainted {log : List (Effect P M)} {live : Live M} {payload : PanelFramePayload P}
      (e : Editor P M) : Gestures log (some live) →
      payload.authority = some live.authority → Gestures (log ++ [Effect.wrote payload e]) (some live)

/-- What comes between a press and its completion: drags in its domain, effects of other buttons,
    and frames of its authority. -/
def Between (live : Live M) (log : List (Effect P M)) : Prop :=
  ∀ x ∈ log, (∃ coord, x = .drag live.domain coord) ∨ (∃ kind coord, x = .content kind coord) ∨
    ∃ payload e, x = .wrote payload e ∧ payload.authority = some live.authority

variable {payload : PanelFramePayload P} {x : Effect P M}

namespace Between

variable {live : Live M} {log : List (Effect P M)}
  {a : Authority} {validGrid : CellSize → P → Bool} {since : List (Effect P M)}

theorem nil : Between live ([] : List (Effect P M)) := fun _ h => absurd h not_mem_nil

theorem append (h : Between live log) (hx : (∃ coord, x = .drag live.domain coord) ∨
    (∃ kind coord, x = .content kind coord) ∨
    ∃ payload e, x = .wrote payload e ∧ payload.authority = some live.authority) :
    Between live (log ++ [x]) := by
  intro y hy
  rcases mem_append.1 hy with hy | hy
  · exact h y hy
  · rw [mem_singleton.1 hy]; exact hx

end Between

variable {coord : CellCoord}

namespace Gestures

variable {log : List (Effect P M)} {live : Option (Live M)}

theorem press_of_live (h : Gestures log live) : ∀ l, live = some l → ∃ before since coord,
    log = before ++ .press l.domain coord l.authority :: since ∧ Between l since ∧
      Gestures before none := by
  induction h with
  | nil => exact fun l hl => by cases hl
  | @press log live coord hlog _ => rintro l ⟨⟩; exact ⟨log, [], coord, rfl, .nil, hlog⟩
  | @drag log live coord _ ih =>
    rintro l ⟨⟩; obtain ⟨before, since, at', rfl, hsince, hbefore⟩ := ih live rfl
    exact ⟨before, since ++ [.drag live.domain coord], at', by simp,
      hsince.append (.inl ⟨coord, rfl⟩), hbefore⟩
  | release => exact nofun
  | @content log live kind coord _ ih =>
    intro l hl; obtain ⟨before, since, at', rfl, hsince, hbefore⟩ := ih l hl
    exact ⟨before, since ++ [.content kind coord], at', by simp,
      hsince.append (.inr (.inl ⟨kind, coord, rfl⟩)), hbefore⟩
  | wrote => exact nofun
  | @repainted log live payload e _ hsame ih =>
    rintro l ⟨⟩; obtain ⟨before, since, at', rfl, hsince, hbefore⟩ := ih live rfl
    exact ⟨before, since ++ [.wrote payload e], at', by simp, hsince.append (.inr (.inr ⟨payload, e, rfl, hsame⟩)),
      hbefore⟩

theorem of_append_singleton (h : Gestures (log ++ [x]) live) : ∃ live', Gestures log live' ∧
      ((∃ l coord, x = .press l.domain coord l.authority ∧ live' = none ∧ live = some l) ∨
        (∃ l coord, x = .drag l.domain coord ∧ live' = some l ∧ live = some l) ∨
        (∃ l coord, x = .release l.domain coord ∧ live' = some l ∧ live = none) ∨
        (∃ kind coord, x = .content kind coord ∧ live = live') ∨
        ∃ payload e, x = .wrote payload e ∧ live = live' ∧
          ∀ l, live' = some l → payload.authority = some l.authority) := by
  generalize hall : log ++ [x] = all at h
  cases h with
  | nil => simp at hall
  | press l coord hlog =>
    obtain ⟨rfl, hx⟩ := append_inj' hall rfl; cases hx
    exact ⟨_, hlog, .inl ⟨l, coord, rfl, rfl, rfl⟩⟩
  | @drag _ l coord hlog =>
    obtain ⟨rfl, hx⟩ := append_inj' hall rfl; cases hx
    exact ⟨_, hlog, .inr (.inl ⟨l, coord, rfl, rfl, rfl⟩)⟩
  | @release _ l coord hlog =>
    obtain ⟨rfl, hx⟩ := append_inj' hall rfl; cases hx
    exact ⟨_, hlog, .inr (.inr (.inl ⟨l, coord, rfl, rfl, rfl⟩))⟩
  | content kind coord hlog =>
    obtain ⟨rfl, hx⟩ := append_inj' hall rfl; cases hx
    exact ⟨_, hlog, .inr (.inr (.inr (.inl ⟨kind, coord, rfl, rfl⟩)))⟩
  | wrote payload e hlog =>
    obtain ⟨rfl, hx⟩ := append_inj' hall rfl; cases hx
    exact ⟨_, hlog, .inr (.inr (.inr (.inr ⟨payload, e, rfl, rfl, nofun⟩)))⟩
  | @repainted _ l payload e hlog hsame =>
    obtain ⟨rfl, hx⟩ := append_inj' hall rfl; cases hx
    refine ⟨_, hlog, .inr (.inr (.inr (.inr ⟨payload, e, rfl, rfl, ?_⟩)))⟩; rintro _ ⟨⟩; exact hsame

/-- What was there before the last effects was complete up to its own open gesture. -/
theorem exists_of_append (h : Gestures (log ++ since) live) : ∃ live', Gestures log live' := by
  induction since using List.reverseRecOn generalizing live with
  | nil => rw [append_nil] at h; exact ⟨live, h⟩
  | append_singleton since x ih =>
    rw [← append_assoc] at h; obtain ⟨_, hlog, -⟩ := of_append_singleton h
    exact ih hlog

variable {before : List (Effect P M)} {domain : PanelGestureDomain M}

/-- **A press is completed once**, in its domain, before the next press and before a frame of
    another authority, or it is the gesture that is open. -/
theorem completed {authority : Option Authority}
    (h : Gestures (before ++ .press domain coord authority :: since) live) :
    ∃ l : Live M, l.domain = domain ∧ authority = some l.authority ∧
      ((∃ mid at' after, since = mid ++ .release domain at' :: after ∧ Between l mid) ∨
        Between l since ∧ live = some l) := by
  induction since using List.reverseRecOn generalizing live with
  | nil =>
    obtain ⟨live', -, hcases⟩ := of_append_singleton h
    rcases hcases with ⟨l, _, hx, -, hlive⟩ | ⟨_, _, hx, -⟩ | ⟨_, _, hx, -⟩ | ⟨_, _, hx, -⟩ |
      ⟨_, _, hx, -⟩
    · cases hx; exact ⟨l, rfl, rfl, .inr ⟨.nil, hlive⟩⟩
    all_goals cases hx
  | append_singleton since x ih =>
    rw [← cons_append, ← append_assoc] at h; obtain ⟨live', hlog, hcases⟩ := of_append_singleton h
    obtain ⟨l, hdomain, hauthority, hl⟩ := ih hlog
    refine ⟨l, hdomain, hauthority, ?_⟩
    rcases hl with ⟨mid, at', after, rfl, hmid⟩ | ⟨hsince, rfl⟩
    · exact .inl ⟨mid, at', after ++ [x], by simp, hmid⟩
    rcases hcases with ⟨_, _, -, hnone, -⟩ | ⟨l', at', rfl, hsame, hlive⟩ |
      ⟨l', at', rfl, hsame, -⟩ | ⟨kind, at', rfl, hlive⟩ | ⟨payload, e, rfl, hlive, hsame⟩
    · cases hnone
    · cases hsame; exact .inr ⟨hsince.append (.inl ⟨at', rfl⟩), hlive⟩
    · cases hsame; exact .inl ⟨since, at', [], by rw [hdomain], hsince⟩
    · exact .inr ⟨hsince.append (.inr (.inl ⟨kind, at', rfl⟩)), hlive⟩
    · exact .inr ⟨hsince.append (.inr (.inr ⟨payload, e, rfl, hsame l rfl⟩)), hlive⟩

/-- **A drag or a release** is that of the press before it, in its domain and not completed. -/
theorem opened (hx : x = .drag domain coord ∨ x = .release domain coord)
    (h : Gestures (before ++ x :: since) live) :
    ∃ pre mid at' l, before = pre ++ .press domain at' (some l.authority) :: mid ∧
      l.domain = domain ∧ Between l mid := by
  rw [← singleton_append, ← append_assoc] at h
  obtain ⟨live', hlog⟩ := exists_of_append h
  obtain ⟨live'', hbefore, hcases⟩ := of_append_singleton hlog
  have hopen : ∃ l : Live M, l.domain = domain ∧ live'' = some l := by
    rcases hcases with ⟨_, _, rfl, -⟩ | ⟨l, _, rfl, hl, -⟩ | ⟨l, _, rfl, hl, -⟩ | ⟨_, _, rfl, -⟩ |
      ⟨_, _, rfl, -⟩
    · rcases hx with hx | hx <;> cases hx
    · rcases hx with hx | hx
      · cases hx; exact ⟨l, rfl, hl⟩
      · cases hx
    · rcases hx with hx | hx
      · cases hx
      · cases hx; exact ⟨l, rfl, hl⟩
    · rcases hx with hx | hx <;> cases hx
    · rcases hx with hx | hx <;> cases hx
  obtain ⟨l, hdomain, rfl⟩ := hopen
  obtain ⟨pre, mid, at', rfl, hmid, -⟩ := press_of_live hbefore l rfl
  exact ⟨pre, mid, at', l, by rw [hdomain], hdomain, hmid⟩

end Gestures

/-! ## Parking -/

/-- The gesture is left alone, or ended and its release parked. -/
def Parks (s s' : SemanticRenderState P M) : Prop :=
  s'.acceptedGesture = s.acceptedGesture ∧ s'.pendingRelease = s.pendingRelease ∧
      s'.assertFailed = s.assertFailed ∨
    ∃ record, s.acceptedGesture = some record ∧ s'.acceptedGesture = none ∧
      s'.pendingRelease = some record ∧
      s'.assertFailed = (s.assertFailed || s.pendingRelease.isSome)

namespace Parks

variable {s s' s'' : SemanticRenderState P M}

theorem refl (s : SemanticRenderState P M) : Parks s s := .inl ⟨rfl, rfl, rfl⟩

theorem none_of_none (h : Parks s s') (hnone : s.acceptedGesture = none) :
    s'.acceptedGesture = none := by
  rcases h with ⟨heq, -⟩ | ⟨_, -, heq, -⟩
  · exact heq.trans hnone
  · exact heq

theorem trans (h : Parks s s') (h' : Parks s' s'') : Parks s s'' := by
  rcases h with ⟨haccepted, hpending, hassert⟩ | ⟨record, hrecord, haccepted, hpending, hassert⟩
  · rcases h' with ⟨haccepted', hpending', hassert'⟩ | ⟨record, hrecord, haccepted', hpending', hassert'⟩
    · exact .inl ⟨haccepted'.trans haccepted, hpending'.trans hpending, hassert'.trans hassert⟩
    exact .inr ⟨record, haccepted ▸ hrecord, haccepted', hpending', by
      rw [hassert', hassert, hpending]⟩
  rcases h' with ⟨haccepted', hpending', hassert'⟩ | ⟨record', hrecord', -⟩
  · exact .inr ⟨record, hrecord, haccepted'.trans haccepted, hpending'.trans hpending,
      hassert'.trans hassert⟩
  · rw [haccepted] at hrecord'; cases hrecord'

end Parks

variable {snapshot : Option PanelMappingSnapshot}

namespace SemanticRenderState

variable (s : SemanticRenderState P M)

theorem cancelAcceptedGesture_accepted : s.cancelAcceptedGesture.acceptedGesture = none := by
  unfold cancelAcceptedGesture
  split
  · assumption
  · rfl

theorem cancelAcceptedGesture_parks : Parks s s.cancelAcceptedGesture := by
  unfold cancelAcceptedGesture
  split
  · exact .refl s
  · rename_i record hrecord; exact .inr ⟨record, hrecord, rfl, rfl, rfl⟩

theorem cancelReplaced_parks (identity : WindowId × BufferId) (geometryEpoch : ℕ) :
    Parks s (s.cancelReplaced identity geometryEpoch) := by
  unfold cancelReplaced
  split
  · exact .refl s
  split
  · exact s.cancelAcceptedGesture_parks
  · exact .refl s

theorem panelMappingGeneration_parks (snapshot : Option PanelMappingSnapshot) :
    Parks s (s.panelMappingGeneration snapshot).1 := by
  have hcancel := s.cancelAcceptedGesture_parks
  unfold panelMappingGeneration
  split
  · exact .refl s
  cases snapshot with
  | none => exact .refl s
  | some seen =>
    cases s.panelMapping with
    | none => exact .refl s
    | some old =>
      dsimp only
      split
      · exact .inl ⟨rfl, rfl, rfl⟩
      split
      · exact hcancel
      · exact hcancel

/-- A gesture that is live after a read was not pressed under another mapping. -/
theorem panelMappingGeneration_live
    (hlive : (s.panelMappingGeneration snapshot).1.acceptedGesture ≠ none)
    {old : PanelMappingSnapshot × ℕ} (hold : s.panelMapping = some old) :
    (s.panelMappingGeneration snapshot).1.panelMapping = some old ∧
      ∀ key, (s.panelMappingGeneration snapshot).2 = some key → key = old.2 := by
  have hcancel := s.cancelAcceptedGesture_accepted
  unfold panelMappingGeneration at hlive ⊢
  split
  · exact ⟨hold, by rintro _ ⟨⟩⟩
  rename_i hfresh; rw [if_neg hfresh] at hlive
  cases snapshot with
  | none => exact ⟨hold, by rintro _ ⟨⟩⟩
  | some seen =>
    rw [hold] at hlive ⊢; dsimp only at hlive ⊢
    split at hlive
    · rename_i hsame; subst hsame; rw [if_pos rfl]
      refine ⟨rfl, ?_⟩; rintro key ⟨⟩; rfl
    split at hlive
    · exact absurd hcancel hlive
    · exact absurd hcancel hlive

theorem stamp_parks (e : Editor P M) (frame : PanelFrame P) : Parks s (s.stamp e frame).1 := by
  unfold stamp
  split
  · exact s.panelMappingGeneration_parks _
  · exact .refl s

variable [DecidableEq P]

theorem publishAbsentPanel_accepted : s.publishAbsentPanel.1.acceptedGesture = none := by
  unfold publishAbsentPanel
  dsimp only
  split <;> exact s.cancelAcceptedGesture_accepted

theorem publishAbsentPanel_parks : Parks s s.publishAbsentPanel.1 := by
  have hcancel := s.cancelAcceptedGesture_parks
  unfold publishAbsentPanel
  dsimp only
  split <;> exact hcancel

theorem ship_parks (validGrid : CellSize → P → Bool) (windowId : WindowId) (frame : PanelFrame P)
    (payload : PanelFramePayload P) : Parks s (s.ship validGrid windowId frame payload).1 := by
  unfold ship
  split
  · exact .refl s
  split
  · exact .inl ⟨rfl, rfl, rfl⟩
  · exact .refl s

theorem emitPanelFrame_parks (validGrid : CellSize → P → Bool) (e : Editor P M) :
    Parks s (s.emitPanelFrame validGrid e).1 := by
  rcases s.emitPanelFrame_cases validGrid e with heq | heq |
    ⟨geometry, projection, replaced, -, -, rfl, hcases⟩
  · rw [heq]; exact .refl s
  · rw [heq]; exact s.publishAbsentPanel_parks
  refine (s.cancelReplaced_parks (projection.windowId, projection.bufferId)
    geometry.geometryEpoch).trans ?_
  rcases hcases with heq | ⟨panelEpoch, stamped, -, rfl, ⟨-, heq⟩ | ⟨payload, -, heq⟩⟩
  · rw [heq]; exact publishAbsentPanel_parks _
  · rw [heq]; exact (stamp_parks _ e _).trans (publishAbsentPanel_parks _)
  · rw [heq]; exact (stamp_parks _ e _).trans (ship_parks _ validGrid _ _ payload)

theorem emitPanelFrame_legacy (hknows : s.peerKnowsMappedPanel = false) {e : Editor P M} :
    (s.emitPanelFrame validGrid e).1.panelMapping = s.panelMapping := by
  have habsent (t : SemanticRenderState P M) :
      t.publishAbsentPanel.1.panelMapping = t.panelMapping := by
    unfold publishAbsentPanel; dsimp only
    split <;> exact t.cancelAcceptedGesture_only.mapping
  rcases s.emitPanelFrame_cases validGrid e with heq | heq |
    ⟨geometry, projection, replaced, -, -, hreplaced, hcases⟩
  · rw [heq]
  · rw [heq, habsent]
  have honly := s.cancelReplaced_only (projection.windowId, projection.bufferId)
    geometry.geometryEpoch
  rw [← hreplaced] at honly
  rcases hcases with heq | ⟨panelEpoch, stamped, -, hstamped, hcases⟩
  · rw [heq, habsent, honly.mapping]
  rw [stamp, if_neg (by rw [honly.family, hknows]; exact Bool.false_ne_true)] at hstamped
  subst hstamped
  rcases hcases with ⟨-, heq⟩ | ⟨payload, -, heq⟩
  · rw [heq, habsent, honly.mapping]
  rw [heq, ← honly.mapping]; unfold ship
  split
  · rfl
  · split <;> rfl

end SemanticRenderState

/-! ## The authority of a live gesture -/

section
variable {log : List (Effect P M)} {s : SemanticRenderState P M} {a : Authority}

theorem SemanticRenderState.authority_eq_some : s.authority = some a ↔
    ∃ frame, s.lastPanelPayload.frame = some frame ∧
      a = ⟨frame.geometryEpoch, frame.panelEpoch, s.panelMapping.map (·.2)⟩ := by
  rw [SemanticRenderState.authority, SemanticRenderState.panelDeclaration, map_eq_some_iff]
  constructor
  · rintro ⟨frame, hframe, rfl⟩; exact ⟨frame, hframe, rfl⟩
  · rintro ⟨frame, hframe, rfl⟩; exact ⟨frame, hframe, rfl⟩

theorem OnlyGestures.authority {s' : SemanticRenderState P M} (h : OnlyGestures s s') :
    s'.authority = s.authority := by
  simp only [SemanticRenderState.authority, SemanticRenderState.panelDeclaration, h.payload,
    h.mapping]

variable {frame : PanelFrame P}

/-- A peer that knows mappings was sent one with the frame that is declared. -/
theorem Sound.exists_mapping (h : Sound log s) (hknows : s.peerKnowsMappedPanel = true) (hframe : s.lastPanelPayload.frame = some frame) :
    ∃ held, s.panelMapping = some held := by
  obtain ⟨e, _, _, -, -, -, -, -, hkey⟩ := h.sent frame hframe
  obtain ⟨key, hlast⟩ := isSome_iff_exists.1 (h.mapped hknows (by rw [hframe]; rfl))
  obtain ⟨_, held, -, hheld, -⟩ := hkey key hlast
  exact ⟨held, hheld⟩

/-- A read under which a gesture stays live leaves its authority, and gives its generation. -/
theorem Sound.read_live (h : Sound log s) (hknows : s.peerKnowsMappedPanel = true)
    (ha : s.authority = some a)
    (hlive : (s.panelMappingGeneration snapshot).1.acceptedGesture ≠ none) :
    (s.panelMappingGeneration snapshot).1.authority = some a ∧
      ∀ key, (s.panelMappingGeneration snapshot).2 = some key → a.mappingGeneration = some key := by
  obtain ⟨frame, hframe, rfl⟩ := SemanticRenderState.authority_eq_some.1 ha
  obtain ⟨held, hheld⟩ := h.exists_mapping hknows hframe
  obtain ⟨hmapping, hkey⟩ := s.panelMappingGeneration_live hlive hheld
  have hpayload := (s.panelMappingGeneration_frame snapshot).2.1
  constructor
  · refine SemanticRenderState.authority_eq_some.2 ⟨frame, hpayload ▸ hframe, ?_⟩
    rw [hmapping, hheld]
  · intro key hk; rw [hkey key hk, hheld]; rfl

theorem PanelFramePayload.authority_frame
    (hframe : payload.frame = some frame) (h : payload.authority = some a) :
    frame.geometryEpoch = a.geometryEpoch ∧ frame.panelEpoch = a.panelEpoch := by
  cases payload with
  | absent => cases hframe
  | present | presentMapped => cases hframe; cases h; exact ⟨rfl, rfl⟩

variable [DecidableEq P]

/-- A frame under which a gesture stays live leaves its authority, and carries it if it is sent. -/
theorem Sound.ship_live {windowId : WindowId} (hframe : payload.frame = some frame)
    (hpayload : payload.authority = some a) (ha : s.authority = some a) :
    (s.ship validGrid windowId frame payload).1.authority = some a ∧
      ∀ sent, (s.ship validGrid windowId frame payload).2 = some sent →
        sent.authority = some a := by
  unfold SemanticRenderState.ship
  split
  · exact ⟨ha, nofun⟩
  split
  · refine ⟨SemanticRenderState.authority_eq_some.2 ⟨frame, hframe, ?_⟩, ?_⟩
    · obtain ⟨_, -, hdeclared⟩ := SemanticRenderState.authority_eq_some.1 ha
      obtain ⟨hgeo, hpanel⟩ := PanelFramePayload.authority_frame hframe hpayload
      have hmapping : a.mappingGeneration = s.panelMapping.map (·.2) :=
        congrArg Authority.mappingGeneration hdeclared
      rw [hgeo, hpanel, ← hmapping]
    · rintro sent ⟨⟩; exact hpayload
  · exact ⟨ha, nofun⟩

/-- A projection under which a gesture stays live goes on under its authority: every other ends
    the gesture, by its presentation, its geometry, its mapping or its absence. -/
theorem Sound.emit_live (h : Sound log s)
    (hlegacy : s.peerKnowsMappedPanel = false → s.panelMapping = none)
    (ha : s.authority = some a) {e : Editor P M}
    (hlive : (s.emitPanelFrame validGrid e).1.acceptedGesture ≠ none) :
    (s.emitPanelFrame validGrid e).1.authority = some a ∧
      ∀ sent, (s.emitPanelFrame validGrid e).2 = some sent → sent.authority = some a := by
  obtain ⟨shown, hshown, hdeclared⟩ := SemanticRenderState.authority_eq_some.1 ha
  obtain ⟨_, _, windowId, -, hpresentation, -, -, -, -⟩ := h.sent shown hshown
  rcases s.emitPanelFrame_cases validGrid e with heq | heq |
    ⟨geometry, projection, replaced, -, -, hreplaced, hcases⟩
  · rw [heq]; exact ⟨ha, fun sent hsent => by cases hsent⟩
  · rw [heq] at hlive; exact absurd s.publishAbsentPanel_accepted hlive
  rcases hcases with heq | ⟨panelEpoch, stamped, hepoch, hstamped, ⟨-, heq⟩ | ⟨payload, hstamp, heq⟩⟩
  · rw [heq] at hlive; exact absurd replaced.publishAbsentPanel_accepted hlive
  · rw [heq] at hlive; exact absurd stamped.publishAbsentPanel_accepted hlive
  rw [heq] at hlive ⊢
  have hlive' : stamped.acceptedGesture ≠ none := fun hnone =>
    hlive ((stamped.ship_parks validGrid _ _ payload).none_of_none hnone)
  have hkept : replaced.acceptedGesture ≠ none := fun hnone => hlive' (by
    rw [hstamped]; exact (replaced.stamp_parks e _).none_of_none hnone)
  -- nothing was replaced, or the gesture would have ended
  unfold SemanticRenderState.cancelReplaced at hreplaced; rw [hpresentation] at hreplaced
  dsimp only at hreplaced
  split at hreplaced
  · rw [hreplaced] at hkept; exact absurd s.cancelAcceptedGesture_accepted hkept
  rename_i hsame
  push Not at hsame
  subst hreplaced; rw [SemanticRenderState.panelEpoch, hpresentation] at hepoch
  dsimp only at hepoch; rw [if_pos hsame.1] at hepoch; cases hepoch
  unfold SemanticRenderState.stamp at hstamp hstamped
  split at hstamp
  · rename_i hknows; rw [if_pos hknows] at hstamped; subst hstamped
    obtain ⟨key, hkey, rfl⟩ := map_eq_some_iff.1 hstamp
    obtain ⟨hauthority, hgeneration⟩ := h.read_live hknows ha hlive'
    refine Sound.ship_live rfl ?_ hauthority
    have hgen : replaced.panelMapping.map (·.2) = some key := by
      rw [← hgeneration key hkey, hdeclared]
    show some (⟨geometry.geometryEpoch, shown.panelEpoch, some key⟩ : Authority) = some a
    rw [hdeclared, hgen, hsame.2]
  rename_i hknows; rw [if_neg hknows] at hstamped; subst hstamped
  cases hstamp
  refine Sound.ship_live rfl ?_ ha
  rw [hdeclared, hlegacy (Bool.eq_false_iff.2 hknows), hsame.2]; rfl

end

/-! ## The gesture that is open -/

/-- The gesture that is live, or whose release is owed. -/
def SemanticRenderState.outstanding (s : SemanticRenderState P M) :
    Option (AcceptedPanelGesture M) :=
  s.acceptedGesture.or s.pendingRelease

/-- The log is of complete gestures but for the outstanding one, which while it is live has the
    authority it was pressed under; and no debug assertion failed. -/
structure Paired (log : List (Effect P M)) (s : SemanticRenderState P M) : Prop where
  gestures : ∃ live : Option (Live M), Gestures log live ∧
    live.map (·.domain) = s.outstanding.map (·.domain) ∧
    (s.acceptedGesture ≠ none → ∃ l, live = some l ∧ s.authority = some l.authority)
  slot : s.acceptedGesture ≠ none → s.pendingRelease = none
  asserted : s.assertFailed = false
  legacy : s.peerKnowsMappedPanel = false → s.panelMapping = none

namespace Paired

variable {log : List (Effect P M)} {s s' : SemanticRenderState P M}

theorem idle (h : Gestures log (none : Option (Live M))) (haccepted : s.acceptedGesture = none)
    (hpending : s.pendingRelease = none) (hassert : s.assertFailed = false)
    (hlegacy : s.peerKnowsMappedPanel = false → s.panelMapping = none) : Paired log s where
  gestures := ⟨none, h, by rw [SemanticRenderState.outstanding, haccepted, hpending]; rfl,
    fun hsome => absurd haccepted hsome⟩
  slot hsome := absurd haccepted hsome
  asserted := hassert
  legacy := hlegacy

theorem live (h : Paired log s) {record : AcceptedPanelGesture M}
    (hrecord : s.acceptedGesture = some record) : ∃ l : Live M, Gestures log (some l) ∧
      l.domain = record.domain ∧ s.authority = some l.authority := by
  obtain ⟨live, hlog, hdomain, hauthority⟩ := h.gestures
  obtain ⟨l, rfl, ha⟩ := hauthority (by rw [hrecord]; exact some_ne_none _)
  rw [SemanticRenderState.outstanding, hrecord, some_or] at hdomain
  exact ⟨l, hlog, some_inj.1 hdomain, ha⟩

section
variable (h : Paired log s)
include h

theorem parks (hparks : Parks s s') (hlive : s'.acceptedGesture ≠ none → s'.authority = s.authority)
    (hlegacy : s'.peerKnowsMappedPanel = false → s'.panelMapping = none) : Paired log s' := by
  obtain ⟨live, hlog, hdomain, hauthority⟩ := h.gestures
  rcases hparks with ⟨haccepted, hpending, hassert⟩ | ⟨record, hrecord, haccepted, hpending, hassert⟩
  · refine ⟨⟨live, hlog, ?_, fun hsome => ?_⟩, ?_, hassert.trans h.asserted, hlegacy⟩
    · rw [hdomain, SemanticRenderState.outstanding, SemanticRenderState.outstanding, haccepted,
        hpending]
    · rw [hlive hsome]; exact hauthority (haccepted ▸ hsome)
    · rw [haccepted, hpending]; exact h.slot
  have hslot : s.pendingRelease = none := h.slot (by rw [hrecord]; exact some_ne_none _)
  refine ⟨⟨live, hlog, ?_, fun hsome => absurd haccepted hsome⟩,
    fun hsome => absurd haccepted hsome, ?_, hlegacy⟩
  · rw [hdomain, SemanticRenderState.outstanding, SemanticRenderState.outstanding, hrecord,
      haccepted, hpending]
    rfl
  · rw [hassert, h.asserted, hslot]; rfl

theorem drain : Paired (log ++ s.drainPendingRelease.2) s.drainPendingRelease.1 ∧
      s.drainPendingRelease.1.pendingRelease = none := by
  unfold SemanticRenderState.drainPendingRelease
  split
  · rename_i hpending; rw [append_nil]; exact ⟨h, hpending⟩
  rename_i record hpending
  have haccepted : s.acceptedGesture = none := by
    by_contra hsome
    rw [h.slot hsome] at hpending; cases hpending
  obtain ⟨live, hlog, hdomain, -⟩ := h.gestures
  rw [SemanticRenderState.outstanding, haccepted, hpending, none_or] at hdomain
  obtain ⟨l, rfl, hl⟩ := map_eq_some_iff.1 hdomain; have hsame : l.domain = record.domain := hl
  refine ⟨.idle ?_ haccepted rfl h.asserted h.legacy, rfl⟩; rw [← hsame]
  exact hlog.release record.coord

theorem cancel : Paired (log ++ s.cancelAcceptedGesture.drainPendingRelease.2)
        s.cancelAcceptedGesture.drainPendingRelease.1 ∧
      s.cancelAcceptedGesture.drainPendingRelease.1.acceptedGesture = none ∧
      s.cancelAcceptedGesture.drainPendingRelease.1.pendingRelease = none := by
  have hcancel : Paired log s.cancelAcceptedGesture := h.parks s.cancelAcceptedGesture_parks
    (fun hsome => absurd s.cancelAcceptedGesture_accepted hsome) (by
      rw [s.cancelAcceptedGesture_only.family, s.cancelAcceptedGesture_only.mapping]
      exact h.legacy)
  obtain ⟨hdrain, hnone⟩ := hcancel.drain
  refine ⟨hdrain, ?_, hnone⟩
  have haccepted := s.cancelAcceptedGesture_accepted
  unfold SemanticRenderState.drainPendingRelease
  split
  · exact haccepted
  · exact haccepted

theorem arm (haccepted : s.acceptedGesture = none) (hpending : s.pendingRelease = none)
    (ha : s.authority = some a) (gesture : AcceptedPanelGesture M) :
    Paired (log ++ [Effect.press gesture.domain coord s.authority]) (s.armAcceptedGesture gesture) := by
  obtain ⟨live, hlog, hdomain, -⟩ := h.gestures
  rw [SemanticRenderState.outstanding, haccepted, hpending] at hdomain
  obtain rfl : live = none := map_eq_none_iff.1 hdomain
  have harm : s.armAcceptedGesture gesture = { s with acceptedGesture := some gesture } := by
    unfold SemanticRenderState.armAcceptedGesture SemanticRenderState.cancelAcceptedGesture
    simp [haccepted, hpending]
  rw [harm, ha]
  exact ⟨⟨some ⟨gesture.domain, a⟩, hlog.press ⟨gesture.domain, a⟩ coord, rfl,
    fun _ => ⟨⟨gesture.domain, a⟩, rfl, ha⟩⟩, fun _ => hpending, h.asserted, h.legacy⟩

end

theorem replayDown (h : Paired log s) (hpending : s.pendingRelease = none)
    (ha : s.authority = some a) (e : Editor P M) (target : ResolvedPanelTarget)
    (ev : PanelPointer) :
    Paired (log ++ (s.replayDown e target ev).2) (s.replayDown e target ev).1 := by
  -- a gesture that was live is ended and paid before the press
  have hpaid : ∃ paid t, (if s.acceptedGesture.isSome
        then s.cancelAcceptedGesture.drainPendingRelease else (s, ([] : List (Effect P M)))) =
          (t, paid) ∧
      Paired (log ++ paid) t ∧ t.acceptedGesture = none ∧ t.pendingRelease = none ∧
        t.authority = some a := by
    split
    · obtain ⟨hpaired, haccepted, hnone⟩ := h.cancel
      refine ⟨_, _, rfl, hpaired, haccepted, hnone, ?_⟩; rw [← ha]
      exact (s.cancelAcceptedGesture_only.trans
        s.cancelAcceptedGesture.drainPendingRelease_only).authority
    rename_i hidle
    refine ⟨[], s, rfl, by rwa [append_nil], ?_, hpending, ha⟩; simpa using hidle
  obtain ⟨paid, t, heq, hpaired, haccepted, hnone, hauthority⟩ := hpaid
  unfold SemanticRenderState.replayDown
  rw [heq]
  dsimp only
  split
  · exact hpaired
  rename_i domain _; rw [← append_assoc]
  exact hpaired.arm haccepted hnone hauthority ⟨.left, ev.coord, ev.bufferId, domain⟩

theorem replayUp (h : Paired log s) (hpending : s.pendingRelease = none) (inContent : Bool)
    (ev : PanelPointer) :
    Paired (log ++ (s.replayUp inContent ev).2) (s.replayUp inContent ev).1 := by
  unfold SemanticRenderState.replayUp
  split
  · rw [append_nil]; exact h
  rename_i record hrecord; obtain ⟨l, hlog, hdomain, -⟩ := h.live hrecord
  refine .idle ?_ rfl hpending h.asserted h.legacy; rw [← hdomain]
  exact hlog.release _

theorem replayClassified (h : Paired log s) (hpending : s.pendingRelease = none)
    (ha : s.authority = some a) (e : Editor P M) (ev : PanelPointer) :
    Paired (log ++ (s.replayClassified e ev).2) (s.replayClassified e ev).1 := by
  have hnothing : Paired (log ++ []) s := by rw [append_nil]; exact h
  unfold SemanticRenderState.replayClassified
  split
  · exact hnothing
  · exact h.replayDown hpending ha e _ ev
  · exact hnothing
  · split
    · exact hnothing
    rename_i record hrecord; obtain ⟨l, hlog, hdomain, hauthority⟩ := h.live hrecord
    refine ⟨⟨some l, ?_, ?_, fun _ => ⟨l, rfl, hauthority⟩⟩, fun _ => hpending, h.asserted,
      h.legacy⟩
    · rw [← hdomain]; exact hlog.drag ev.coord
    · simp [SemanticRenderState.outstanding, SemanticRenderState.noteGestureContentCell, hrecord, hdomain]
  · exact hnothing
  · exact h.replayUp hpending true ev
  · exact h.replayUp hpending false ev
  · obtain ⟨live, hlog, hdomain, hauthority⟩ := h.gestures
    exact ⟨⟨live, hlog.content _ _, hdomain, hauthority⟩, h.slot, h.asserted, h.legacy⟩
  · exact hnothing

theorem replayPanelPointer (h : Paired log s) (ha : s.authority = some a)
    (e : Editor P M) (ev : PanelPointer) :
    Paired (log ++ (s.replayPanelPointer e ev).2) (s.replayPanelPointer e ev).1 := by
  obtain ⟨hdrain, hpending⟩ := h.drain
  have hauthority := s.drainPendingRelease_only.authority.trans ha
  have hreplay := hdrain.replayClassified hpending hauthority e ev
  rwa [append_assoc] at hreplay

theorem complete (h : Paired log s) (haccepted : s.acceptedGesture = none)
    (hpending : s.pendingRelease = none) : Gestures log (none : Option (Live M)) := by
  obtain ⟨live, hlog, hdomain, -⟩ := h.gestures
  rw [SemanticRenderState.outstanding, haccepted, hpending] at hdomain
  rwa [map_eq_none_iff.1 hdomain] at hlog

/-- What is owed after a projection is paid before its frame is written. -/
theorem project [DecidableEq P] (h : Paired log s) (hsound : Sound log s)
    (validGrid : CellSize → P → Bool) (e : Editor P M) :
    Paired (log ++ (s.projectSemanticFrame validGrid e).2) (s.projectSemanticFrame validGrid e).1 := by
  have hparks := s.emitPanelFrame_parks validGrid e
  have hfamily := (s.emitPanelFrame_later validGrid e).family
  have hlegacy : (s.emitPanelFrame validGrid e).1.peerKnowsMappedPanel = false →
      (s.emitPanelFrame validGrid e).1.panelMapping = none := fun hknows => by
    rw [s.emitPanelFrame_legacy (hfamily ▸ hknows)]; exact h.legacy (hfamily ▸ hknows)
  have hemitted (a : Authority) (ha : s.authority = some a)
      (hlive : (s.emitPanelFrame validGrid e).1.acceptedGesture ≠ none) :=
    hsound.emit_live h.legacy ha hlive
  unfold SemanticRenderState.projectSemanticFrame
  generalize s.emitPanelFrame validGrid e = emitted at *
  obtain ⟨t, message⟩ := emitted
  dsimp only at *
  by_cases hlive : t.acceptedGesture = none
  · obtain ⟨hdrain, hpending⟩ := (h.parks hparks (fun hsome => absurd hlive hsome) hlegacy).drain
    have haccepted : t.drainPendingRelease.1.acceptedGesture = none := by
      unfold SemanticRenderState.drainPendingRelease
      split <;> exact hlive
    have hlog := hdrain.complete haccepted hpending; rw [← append_assoc]
    cases message with
    | none => rw [toList_none, map_nil, append_nil]; exact hdrain
    | some payload =>
      exact .idle (hlog.wrote payload e) haccepted hpending hdrain.asserted hdrain.legacy
  -- the gesture is still live: nothing was parked, and the frame is of its authority
  rcases hparks with ⟨haccepted, hpending, hassert⟩ | ⟨_, -, hnone, -⟩
  · obtain ⟨record, hrecord⟩ := ne_none_iff_exists'.1 hlive
    obtain ⟨l, hlog, hdomain, hauthority⟩ := h.live (haccepted.symm.trans hrecord)
    obtain ⟨hsame, hsent⟩ := hemitted l.authority hauthority hlive
    have hslot : t.pendingRelease = none := hpending.trans (h.slot (haccepted ▸ hlive))
    have hdrain : t.drainPendingRelease = (t, ([] : List (Effect P M))) := by
      unfold SemanticRenderState.drainPendingRelease; rw [hslot]
    have hwritten : Gestures (log ++ message.toList.map fun payload => .wrote payload e)
        (some l) := by
      cases message with
      | none => rw [toList_none, map_nil, append_nil]; exact hlog
      | some payload => exact hlog.repainted e (hsent payload rfl)
    rw [hdrain, nil_append]
    refine ⟨⟨some l, hwritten, ?_, fun _ => ⟨l, rfl, hsame⟩⟩, fun _ => hslot,
      hassert.trans h.asserted, hlegacy⟩
    rw [SemanticRenderState.outstanding, hrecord, some_or, map_some, map_some, hdomain]
  · exact absurd hnone hlive

end Paired

/-! ## Every run -/

namespace PanelSession

def outstanding (c : PanelSession P M) : Option (AcceptedPanelGesture M) :=
  c.semantic.bind (·.outstanding)

/-- The log is paired with the projection, and complete once it is gone. -/
structure Complete (c : PanelSession P M) : Prop extends Kept c where
  paired : ∀ s, c.semantic = some s → Paired c.log s
  detached : c.semantic = none → Gestures c.log none

namespace Complete

variable {c : PanelSession P M}

theorem start (version : ℕ) (e : Editor P M) : Complete (start version e) where
  toKept := .start version e
  paired := by
    rintro s ⟨⟩; exact .idle .nil rfl rfl rfl fun _ => rfl
  detached h := by cases h

theorem ladder (h : Complete c) {s : SemanticRenderState P M} (hs : c.semantic = some s)
    (ev : PanelPointer) : Paired c.log (s.ladder c.version c.editor ev).1 := by
  have hpaired := h.paired s hs
  rcases s.ladder_fst c.version c.editor ev with heq | ⟨hversion, heq⟩
  · rw [heq]; exact hpaired
  have hknows : s.peerKnowsMappedPanel = true := by
    rw [h.family s hs]; exact decide_eq_true hversion
  have hparks := s.panelMappingGeneration_parks c.editor.panelMappingSnapshot; rw [heq]
  refine hpaired.parks hparks (fun hlive => ?_) fun hnot => ?_
  · rcases hparks with ⟨haccepted, -⟩ | ⟨_, -, hnone, -⟩
    · obtain ⟨record, hrecord⟩ := ne_none_iff_exists'.1 hlive
      obtain ⟨l, -, -, hauthority⟩ := hpaired.live (haccepted.symm.trans hrecord); rw [hauthority]
      exact ((h.sound s hs).read_live hknows hauthority hlive).1
    · exact absurd hnone hlive
  · rw [(s.panelMappingGeneration_frame _).1, hknows] at hnot; cases hnot

theorem pointer (h : Complete c) (ev : PanelPointer) : Complete (c.pointer ev) := by
  refine ⟨h.toKept.pointer ev, ?_, ?_⟩
  · unfold PanelSession.pointer
    cases hs : c.semantic with
    | none => exact fun t ht => by rw [hs] at ht; cases ht
    | some s =>
      have hladder := h.ladder hs ev; dsimp only
      split
      · rename_i hpass; obtain ⟨⟨frame, _, _, hframe, -⟩, -⟩ := s.ladder_passes hpass
        have hpayload : (s.ladder c.version c.editor ev).1.lastPanelPayload = s.lastPanelPayload := by
          rcases s.ladder_fst c.version c.editor ev with heq | ⟨-, heq⟩
          · rw [heq]
          · rw [heq, (s.panelMappingGeneration_frame _).2.1]
        have hauthority := SemanticRenderState.authority_eq_some.2 ⟨frame, hpayload ▸ hframe, rfl⟩
        rintro t ⟨⟩; exact hladder.replayPanelPointer hauthority c.editor ev
      · rintro t ⟨⟩; exact hladder
  unfold PanelSession.pointer
  cases hs : c.semantic with
  | none => exact fun _ => h.detached hs
  | some s =>
    dsimp only
    split <;> exact fun hnone => by cases hnone

theorem project [DecidableEq P] (h : Complete c) (validGrid : CellSize → P → Bool) :
    Complete (c.project validGrid) := by
  refine ⟨h.toKept.project validGrid, ?_, ?_⟩
  · unfold PanelSession.project
    cases hs : c.semantic with
    | none => exact fun t ht => by rw [hs] at ht; cases ht
    | some s => rintro t ⟨⟩; exact (h.paired s hs).project (h.sound s hs) validGrid c.editor
  unfold PanelSession.project
  cases hs : c.semantic with
  | none => exact fun _ => h.detached hs
  | some s => exact nofun

theorem detach (h : Complete c) : Complete c.detach ∧ Gestures c.detach.log none := by
  have hlog : Gestures c.detach.log (none : Option (Live M)) := by
    unfold PanelSession.detach
    cases hs : c.semantic with
    | none => exact h.detached hs
    | some s =>
      obtain ⟨hpaired, haccepted, hpending⟩ := (h.paired s hs).cancel
      exact hpaired.complete haccepted hpending
  refine ⟨⟨h.toKept.detach, fun s hs => ?_, fun _ => hlog⟩, hlog⟩
  unfold PanelSession.detach at hs
  cases hsem : c.semantic with
  | none => rw [hsem] at hs; rw [hsem] at hs; cases hs
  | some s' => rw [hsem] at hs; cases hs

variable [DecidableEq P] {validGrid : CellSize → P → Bool}

theorem step (h : Complete c) (event : Event P M) : Complete (c.step validGrid event) := by
  cases event with
  | edited e => exact ⟨h.toKept.step (.edited e), h.paired, h.detached⟩
  | geometry geometryEpoch total =>
    have hkept : Kept (c.declareGeometry geometryEpoch total) := h.declareGeometry _ _
    show Complete (c.declareGeometry geometryEpoch total)
    unfold declareGeometry at hkept ⊢
    split at hkept
    · rename_i hgate; rw [if_pos hgate]; exact ⟨hkept, h.paired, h.detached⟩
    · rename_i hgate; rw [if_neg hgate]; exact ⟨hkept, h.paired, h.detached⟩
  | pointer ev => exact h.pointer ev
  | project => exact h.project validGrid
  | detach => exact h.detach.1

theorem reachable (h : Reachable validGrid c) : Complete c :=
  h.induct validGrid start fun _ event hc => hc.step event

end Complete

/-- **The left button's gestures are complete**: every press is followed by one completion in its
    domain, before the next press and before a frame of another authority, unless it is the one
    that is outstanding; every drag and every release follows its press; no release that is owed
    is overwritten; and after a detach nothing is outstanding. -/
theorem left_gestures_complete [DecidableEq P] {validGrid : CellSize → P → Bool}
    {c : PanelSession P M} (h : Reachable validGrid c) :
    (∃ live : Option (Live M), Gestures c.log live ∧
      live.map (·.domain) = c.outstanding.map (·.domain)) ∧
    (∀ (before since : List (Effect P M)) domain coord authority,
      c.log = before ++ .press domain coord authority :: since →
        ∃ l : Live M, l.domain = domain ∧ authority = some l.authority ∧
          ((∃ (mid : List (Effect P M)) (at' : CellCoord) (after : List (Effect P M)),
              since = mid ++ .release domain at' :: after ∧ Between l mid) ∨
            Between l since ∧ c.outstanding.map (·.domain) = some domain)) ∧
    (∀ before since x domain coord, c.log = before ++ x :: since →
      x = .drag domain coord ∨ x = .release domain coord →
        ∃ (pre mid : List (Effect P M)) (at' : CellCoord) (l : Live M),
          before = pre ++ .press domain at' (some l.authority) :: mid ∧
          l.domain = domain ∧ Between l mid) ∧
    (∀ s, c.semantic = some s →
      s.assertFailed = false ∧ (s.acceptedGesture = none ∨ s.pendingRelease = none)) ∧
    Gestures c.detach.log none := by
  have hcomplete := Complete.reachable h
  obtain ⟨live, hlog, hdomain⟩ : ∃ live : Option (Live M), Gestures c.log live ∧
      live.map (·.domain) = c.outstanding.map (·.domain) := by
    unfold outstanding
    cases hs : c.semantic with
    | none => exact ⟨none, hcomplete.detached hs, rfl⟩
    | some s =>
      obtain ⟨live, hlog, hdomain, -⟩ := (hcomplete.paired s hs).gestures
      exact ⟨live, hlog, hdomain⟩
  refine ⟨⟨live, hlog, hdomain⟩, ?_, ?_, ?_, hcomplete.detach.2⟩
  · intro before since domain coord authority heq
    obtain ⟨l, hl, hauthority, hcases⟩ := Gestures.completed (heq ▸ hlog)
    refine ⟨l, hl, hauthority, ?_⟩
    rcases hcases with hreleased | ⟨hsince, rfl⟩
    · exact .inl hreleased
    · exact .inr ⟨hsince, by rw [← hdomain, map_some, hl]⟩
  · intro before since x domain coord heq hx; exact Gestures.opened hx (heq ▸ hlog)
  intro s hs; have hpaired := hcomplete.paired s hs
  refine ⟨hpaired.asserted, ?_⟩
  by_cases haccepted : s.acceptedGesture = none
  · exact .inl haccepted
  · exact .inr (hpaired.slot haccepted)

/-- A press, and the buffer scrolled under it. -/
def pressedAndScrolled : PanelSession Unit Unit :=
  shown.run (fun _ _ => true) [.pointer (pressed 1), .edited (scrolled 3)]

/-- The next projection pays the release before it writes its frame. -/
example : (pressedAndScrolled.project fun _ _ => true).log =
    pressedAndScrolled.log ++ [.release (.document 2) ⟨0, 3⟩,
      .wrote (.presentMapped ⟨7, 1, 1, ⟨4, 10⟩, ()⟩ 2) pressedAndScrolled.editor] := rfl

theorem left_gestures_complete_pressed :
    (∃ live : Option (Live Unit), Gestures pressedAndScrolled.log live ∧
      live.map (·.domain) = some (.document 2)) ∧ Gestures pressedAndScrolled.detach.log none := by
  have h := left_gestures_complete (c := pressedAndScrolled) ⟨25, scrolled 0,
    [.geometry 1 ⟨24, 80⟩, .project, .pointer (pressed 1), .edited (scrolled 3)], rfl⟩
  exact ⟨h.1, h.2.2.2.2⟩

end PanelSession

end Pmacs.Panel
