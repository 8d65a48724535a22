/-
  Undoing recorded ops and groups of them.

  * `SourceGroup.undoAgainst_local`, `SourceGroup.undoSpans_pending`: an undo evolves
    the document and commits what it did;
  * `SourceGroup.undoAgainst_atomic`: that of one span is refused without a trace;
  * `RecordedOps.revert`, `SourceGroup.revert`: the text and the bases that it leaves,
    told from the document before it (`SourceGroup.undoAgainst_revert`).
-/
import Pmacs.Buffer.Arbiter
import Pmacs.Crdt.Revert

namespace Pmacs

open Lib Crdt RecordedOps

variable {L : Loro}

/-! ## Undoing -/

variable {α : Type} {x : CrdtM L α}

theorem orReject_local (hx : Local x) : Local (orReject x) := by
  intro d
  have hd := hx d
  rw [Loro.after] at hd ⊢
  rw [orReject]
  cases h : x d with
  | ok | error => rwa [h] at hd

variable {d d' : L.Doc}

theorem orReject_ok {a : α} : orReject x d = .ok a d' ↔ x d = .ok a d' := by
  rw [orReject]
  split <;> simp_all

theorem orReject_atomic (hx : Atomic x) : Atomic (orReject x) := by
  intro d e d' h
  rw [orReject] at h
  split at h
  · cases h
  · rename_i hx'; cases h; exact hx d _ _ hx'

variable {ops : RecordedOps L} {base base' : L.Diff}

namespace RecordedOps

theorem undoAgainst_commits (ops : RecordedOps L) (base : L.Diff) (d : L.Doc) :
    L.Evolves (L.commit d) (Loro.after (ops.undoAgainst base) d) := by
  cases ops with
  | span s => exact undoSpanAgainst_commits
  | change c => exact undoChangeAgainst_commits

theorem undoAgainst_local (ops : RecordedOps L) (base : L.Diff) : Local (ops.undoAgainst base) :=
  fun d => (Loro.Evolves.commit .refl).trans (ops.undoAgainst_commits base d)

theorem undoAgainst_since (h : ops.undoAgainst base d = .ok base' d') : Since d d' := by
  have hcommits := ops.undoAgainst_commits base d
  rw [Loro.after, h] at hcommits
  exact .inr hcommits

theorem undoAgainst_atomic (hL : L.Laws) (ops : RecordedOps L) (base : L.Diff) :
    Atomic (ops.undoAgainst base) := by
  cases ops with
  | span s => exact undoSpanAgainst_atomic hL
  | change c => exact undoChangeAgainst_atomic hL

theorem undoAgainst_pending (hL : L.Laws) (h : ops.undoAgainst base d = .ok base' d') : L.pendingLen d' = 0 := by
  cases ops with
  | span s => exact undoSpanAgainst_pending hL h
  | change c => exact undoChangeAgainst_pending hL h

end RecordedOps

namespace SourceGroup

theorem undoSpans_local : ∀ (rs : List (RecordedSpan L)) (carry : L.Diff), Local
    (undoSpans rs carry)
  | [], carry => .pure carry
  | r :: rs, carry => by
    exact .bind (orReject_local (r.ops.undoAgainst_local _)) fun base => undoSpans_local rs base

theorem undoAgainst_local (g : SourceGroup L) : Local g.undoAgainst := undoSpans_local _ _

theorem undoSpans_cons {r : RecordedSpan L} {rs : List (RecordedSpan L)} {carry carry' : L.Diff}
    {d d' : L.Doc} (h : undoSpans (r :: rs) carry d = .ok carry' d') :
    ∃ base d₁, r.ops.undoAgainst (L.compose r.base carry) d = .ok base d₁ ∧
      undoSpans rs base d₁ = .ok carry' d' := by
  simp only [undoSpans, Bind.bind, EStateM.bind] at h
  cases hr : orReject (r.ops.undoAgainst (L.compose r.base carry)) d with
  | error e d₁ => rw [hr] at h; cases h
  | ok base d₁ => rw [hr] at h; exact ⟨base, d₁, orReject_ok.1 hr, h⟩

theorem undoSpans_since : ∀ {rs : List (RecordedSpan L)} {carry carry' : L.Diff} {d d' : L.Doc},
      undoSpans rs carry d = .ok carry' d' → Since d d'
  | [], carry, carry', d, d', h => by
    cases h; exact .inl rfl
  | r :: rs, carry, carry', d, d', h => by
    obtain ⟨base, d₁, hone, hrest⟩ := undoSpans_cons h
    exact (undoAgainst_since hone).trans (undoSpans_since hrest)

/-- A group that was undone left nothing pending, unless it is empty. -/
theorem undoSpans_pending (hL : L.Laws) :
    ∀ {rs : List (RecordedSpan L)} {carry carry' : L.Diff} {d d' : L.Doc},
      undoSpans rs carry d = .ok carry' d' → d' = d ∨ L.pendingLen d' = 0
  | [], carry, carry', d, d', h => by
    cases h; exact .inl rfl
  | r :: rs, carry, carry', d, d', h => by
    obtain ⟨base, d₁, hone, hrest⟩ := undoSpans_cons h
    rcases undoSpans_pending hL hrest with rfl | hpending
    · exact .inr (undoAgainst_pending hL hone)
    · exact .inr hpending

theorem undoAgainst_atomic (hL : L.Laws) {g : SourceGroup L} (hg : g.spans.length ≤ 1) :
    Atomic g.undoAgainst := by
  intro d e d' h
  match hspans : g.spans with
  | [] => rw [undoAgainst, hspans] at h; cases h
  | [r] =>
    rw [undoAgainst, hspans] at h
    simp only [List.reverse_singleton, undoSpans, Bind.bind, EStateM.bind] at h
    split at h
    · cases h
    · rename_i hr; cases h; exact orReject_atomic (r.ops.undoAgainst_atomic hL _) d _ _ hr
  | r :: r' :: rs => rw [hspans, List.length_cons, List.length_cons] at hg; omega

end SourceGroup

/-! ## What an undo makes of the text -/

namespace RecordedOps

def endpoints (d : L.Doc) : RecordedOps L → Option (L.Frontiers × L.Frontiers)
  | .span s =>
    if Crdt.includesId d s.last then
      (Crdt.depsOfLinearSpan d s).map fun deps => (L.ofId s.last, deps)
    else none
  | .change c => if Crdt.includesId d c.span.last then some (c.after, c.before) else none

/-- The text and the base that undoing recorded ops against `base` leaves of `cs`. -/
def revert (d : L.Doc) (ops : RecordedOps L) (base : L.Diff) (cs : List Char) :
    Option (List Char × L.Diff) :=
  match ops.endpoints d with
  | none => none
  | some (after, before) =>
    match L.diff d after before with
    | .error _ => none
    | .ok inverse =>
      some (Crdt.bodyPatch (L.transform inverse base true) cs, L.transform base inverse false)

end RecordedOps

namespace SourceGroup

/-- The text and the base that undoing spans leaves of `cs`. -/
def revertSpans (d : L.Doc) : List (RecordedSpan L) → L.Diff → List Char →
    Option (List Char × L.Diff)
  | [], carry, cs => some (cs, carry)
  | r :: rs, carry, cs =>
    match r.ops.revert d (L.compose r.base carry) cs with
    | none => none
    | some (cs', base) => revertSpans d rs base cs'

/-- The text and the base that undoing a group leaves of `cs`. -/
def revert (d : L.Doc) (g : SourceGroup L) (cs : List Char) : Option (List Char × L.Diff) :=
  revertSpans d g.spans.reverse L.emptyDiff cs

end SourceGroup

theorem undoBetweenInPieces_revert (hL : L.Laws) {after before : L.Frontiers}
    {inverse : L.Diff} (hdiff : L.diff d after before = .ok inverse)
    (h : undoBetweenInPieces after before base d = .ok base' d') :
    L.text d' = bodyPatch (L.transform inverse base true) (L.text d) ∧
      base' = L.transform base inverse false := by
  rw [undoBetweenInPieces, hdiff] at h
  dsimp only at h
  split at h
  · cases h
  rename_i happly; cases h
  have hrest := hL.restDiff_none _ _ _ _ base true hdiff
  exact ⟨(hL.commitWith_text _).trans (applyInPieces_text hL hrest happly), rfl⟩

variable {d₀ : L.Doc}

/-- Undoing recorded ops leaves the text and the base told from the committed document
    that the one undone in came from. -/
theorem RecordedOps.undoAgainst_revert (hL : L.Laws) {cs' : List Char} {carried : L.Diff} (hsince : Since d₀ d)
    (hrevert : ops.revert (L.commit d₀) base (L.text d) = some (cs', carried))
    (h : ops.undoAgainst base d = .ok base' d') : L.text d' = cs' ∧ base' = carried := by
  have hcommit := hsince.commit
  have hpending := hL.commit_pending d₀
  rw [revert] at hrevert
  split at hrevert
  · cases hrevert
  rename_i after before hends
  split at hrevert
  · cases hrevert
  rename_i inverse hdiff; cases hrevert; have hdiff' := hL.diff_evolves _ _ _ _ _ hcommit hdiff
  have hbetween : undoBetweenInPieces after before base (L.commit d) = .ok base' d' := by
    cases ops with
    | span s =>
      rw [endpoints] at hends
      split_ifs at hends with hincludes
      obtain ⟨deps, hdeps, heq⟩ := Option.map_eq_some_iff.1 hends; cases heq
      have hdeps' := depsOfLinearSpan_evolves hL hpending hcommit hincludes hdeps
      have hincludes' := includesId_evolves hL hcommit hincludes
      rw [undoAgainst, undoSpanAgainst, hdeps'] at h; dsimp only at h
      rwa [undoSpanInPieces, if_pos hincludes'] at h
    | change c =>
      rw [endpoints] at hends
      split_ifs at hends with hincludes
      cases hends; have hincludes' := includesId_evolves hL hcommit hincludes
      rwa [undoAgainst, undoChangeAgainst, if_pos hincludes'] at h
  obtain ⟨htext, hbase⟩ := undoBetweenInPieces_revert hL hdiff' hbetween
  rw [hL.commit_text] at htext; exact ⟨htext, hbase⟩

namespace SourceGroup

theorem undoSpans_revert (hL : L.Laws) :
    ∀ {rs : List (RecordedSpan L)} {d d' : L.Doc} {carry carry' carried : L.Diff} {cs' : List Char},
      Since d₀ d → revertSpans (L.commit d₀) rs carry (L.text d) = some (cs', carried) →
        undoSpans rs carry d = .ok carry' d' → L.text d' = cs' ∧ carry' = carried
  | [], d, d', carry, carry', carried, cs', _, hrevert, h => by
    cases hrevert; cases h; exact ⟨rfl, rfl⟩
  | r :: rs, d, d', carry, carry', carried, cs', hsince, hrevert, h => by
    rw [revertSpans] at hrevert
    split at hrevert
    · cases hrevert
    rename_i cs₁ base₁ hops; obtain ⟨base, d₁, hone, hrest⟩ := undoSpans_cons h
    obtain ⟨htext, rfl⟩ := undoAgainst_revert hL hsince hops hone; rw [← htext] at hrevert
    exact undoSpans_revert hL (hsince.trans (undoAgainst_since hone)) hrevert hrest

/-- **Undoing a group** leaves the text and the base told from the committed document that
    the one undone in came from. -/
theorem undoAgainst_revert (hL : L.Laws) {g : SourceGroup L}
    {carried : L.Diff} {cs' : List Char} (hsince : Since d₀ d)
    (hrevert : g.revert (L.commit d₀) (L.text d) = some (cs', carried))
    (h : g.undoAgainst d = .ok base d') : L.text d' = cs' ∧ base = carried :=
  undoSpans_revert hL hsince hrevert h

end SourceGroup

end Pmacs
