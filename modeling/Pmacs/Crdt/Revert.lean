/-
  What an undo makes of the text, told from the document before it.

  * `applyInPieces_text`: a compensation patches the text by the body's diff;
  * `depsOfLinearSpan_evolves`: the log answers the same as the document evolves.
-/
import Pmacs.Crdt.Spec

namespace Pmacs

open Lib List Option

variable {L : Loro}

namespace Crdt

variable {span : IdSpan} {d d' d₀ : L.Doc}

/-! ## Steps -/

theorem applySteps_append (ss ss' : List (ℕ × (List Char ⊕ ℕ))) (d : L.Doc) :
    applySteps (L := L) (ss ++ ss') d = (applySteps ss >>= fun _ => applySteps ss') d := by
  induction ss generalizing d with
  | nil => rfl
  | cons s ss ih =>
    rw [cons_append, applySteps_cons, applySteps_cons]; simp only [Bind.bind, EStateM.bind]
    cases applyStep s d with
    | ok a d₁ => exact ih d₁
    | error e d₁ => rfl

theorem applySteps_concat_ok {ss : List (ℕ × (List Char ⊕ ℕ))} {s : ℕ × (List Char ⊕ ℕ)}
    (h : applySteps (ss ++ [s]) d = .ok () d') :
    ∃ d₁, applySteps ss d = .ok () d₁ ∧ applyStep s d₁ = .ok () d' := by
  rw [applySteps_append] at h
  simp only [Bind.bind, EStateM.bind] at h
  cases hss : applySteps ss d with
  | error e d₁ => rw [hss] at h; cases h
  | ok a d₁ =>
    rw [hss] at h; simp only [applySteps_cons, Bind.bind, EStateM.bind] at h
    cases hs : applyStep s d₁ with
    | error e d₂ => rw [hs] at h; cases h
    | ok a d₂ => rw [hs] at h; cases h; exact ⟨d₁, rfl, hs⟩

/-- Steps done from back to front do what the delta says behind the position where they
    start; past the end there is nothing to do. -/
theorem applySteps_patch (hL : L.Laws) :
    ∀ (ds : List TextDelta) (at_ : ℕ) (d d' : L.Doc),
      applySteps (steps at_ ds).reverse d = .ok () d' →
        (at_ ≤ (L.text d).length →
          L.text d' = (L.text d).take at_ ++ patch ds ((L.text d).drop at_)) ∧
        ((L.text d).length < at_ → L.text d' = L.text d ∧ patch ds [] = [])
  | [], at_, d, d', h => by
    cases h; exact ⟨fun _ => (take_append_drop _ _).symm, fun _ => ⟨rfl, rfl⟩⟩
  | .retain n attributed :: ds, at_, d, d', h => by
    obtain ⟨hinside, hpast⟩ := applySteps_patch hL ds (at_ + n) d d' h
    constructor
    · intro hat
      rcases lt_or_ge (L.text d).length (at_ + n) with hlt | hge
      · obtain ⟨htext, hnil⟩ := hpast hlt
        have hdrop : ((L.text d).drop at_).drop n = [] := by rw [drop_drop, drop_eq_nil_iff]; omega
        have htake : ((L.text d).drop at_).take n = (L.text d).drop at_ := by
          rw [take_of_length_le]; rw [length_drop]; omega
        rw [htext, patch, hdrop, htake, hnil, append_nil, take_append_drop]
      · rw [hinside hge, patch, drop_drop, take_add, append_assoc]
    intro hat
    obtain ⟨htext, hnil⟩ := hpast (by omega)
    exact ⟨htext, by rw [patch, take_nil, drop_nil, nil_append, hnil]⟩
  | .insert s attributed :: ds, at_, d, d', h => by
    rw [steps, reverse_cons] at h; obtain ⟨d₁, hd₁, hstep⟩ := applySteps_concat_ok h
    obtain ⟨hinside, hpast⟩ := applySteps_patch hL ds at_ d d₁ hd₁
    constructor
    · intro hat
      have htext := hinside hat
      have hlen : ((L.text d).take at_).length = at_ := by rw [length_take]; omega
      have hat₁ : at_ ≤ (L.text d₁).length := by rw [htext, length_append, hlen]; omega
      obtain ⟨d₂, hd₂, htext₂⟩ := insertInPieces_spec hL s hat₁; cases hstep.symm.trans hd₂
      rw [htext₂, htext, splice, take_left' hlen, drop_left' hlen, patch, append_assoc]
    intro hat
    obtain ⟨htext, hnil⟩ := hpast hat
    by_cases hs : s = []
    · subst hs; cases hstep; exact ⟨htext, by rw [patch, nil_append, hnil]⟩
    obtain ⟨e, d₂, hd₂, _⟩ := insertInPieces_error hL hs (by rw [htext]; exact hat)
    cases hstep.symm.trans hd₂
  | .delete n :: ds, at_, d, d', h => by
    rw [steps, reverse_cons] at h; obtain ⟨d₁, hd₁, hstep⟩ := applySteps_concat_ok h
    obtain ⟨hinside, hpast⟩ := applySteps_patch hL ds (at_ + n) d d₁ hd₁
    have hstep' : L.delete at_ n d₁ = .ok () d' := hstep
    rcases lt_or_ge (L.text d).length (at_ + n) with hlt | hge
    · obtain ⟨htext, hnil⟩ := hpast hlt
      cases n with
      | zero =>
        obtain ⟨d₂, hd₂, htext₂⟩ := hL.delete_zero d₁ at_; cases hstep'.symm.trans hd₂
        refine ⟨fun hat => absurd hlt (by omega), fun _ => ⟨htext₂.trans htext, ?_⟩⟩
        rw [patch, drop_nil, hnil]
      | succ n =>
        obtain ⟨e, d₂, hd₂, _⟩ := hL.delete_error d₁ at_ (n + 1) (Nat.succ_pos n)
          (by rw [htext]; exact hlt)
        cases hstep'.symm.trans hd₂
    have htext := hinside hge
    have hlen : ((L.text d).take (at_ + n)).length = at_ + n := by rw [length_take]; omega
    have hend : at_ + n ≤ (L.text d₁).length := by rw [htext, length_append, hlen]; omega
    obtain ⟨d₂, hd₂, htext₂⟩ := hL.delete_ok d₁ at_ n hend; cases hstep'.symm.trans hd₂
    refine ⟨fun _ => ?_, fun hat => absurd hge (by omega)⟩
    rw [htext₂, htext, splice_nil, drop_left' hlen, patch, drop_drop,
      take_append_of_le_length (by rw [hlen]; omega), take_take,
      min_eq_left (Nat.le_add_right at_ n)]

def bodyPatch (x : L.Diff) (cs : List Char) : List Char :=
  match L.bodyDelta x with
  | some delta => patch delta cs
  | none => cs

theorem applyBody_text (hL : L.Laws) {delta : List TextDelta}
    (h : applyBody delta d = .ok () d') : L.text d' = patch delta (L.text d) := by
  rw [applyBody] at h
  split_ifs at h
  · exact hL.applyDelta_ok delta d d' h
  have htext := (applySteps_patch hL delta 0 d d' h).1 (Nat.zero_le _)
  exact htext

theorem applyInPieces_text (hL : L.Laws) {x : L.Diff} (hrest : L.restDiff x = none)
    (h : applyInPieces x d = .ok () d') : L.text d' = bodyPatch x (L.text d) := by
  simp only [applyInPieces, hrest, Bind.bind, EStateM.bind] at h
  rw [bodyPatch]
  cases hdelta : L.bodyDelta x with
  | none => simp only [hdelta] at h; cases h; rfl
  | some delta =>
    simp only [hdelta] at h
    split at h
    · rename_i hbody; cases h; exact applyBody_text hL hbody
    · cases h

/-! ## The log -/

/-- What a document becomes by calls that commit before anything else. -/
def Since (d₀ d : L.Doc) : Prop := d = d₀ ∨ L.Evolves (L.commit d₀) d

namespace Since

theorem evolves (h : Since d₀ d) : L.Evolves d₀ d := by
  rcases h with rfl | h
  · exact .refl
  · exact (Loro.Evolves.commit .refl).trans h

theorem commit (h : Since d₀ d) : L.Evolves (L.commit d₀) (L.commit d) := by
  rcases h with rfl | h
  · exact .refl
  · exact .commit h

theorem trans (h : Since d₀ d) (h' : Since d d') : Since d₀ d' := by
  rcases h' with rfl | h'
  · exact h
  · exact .inr (h.commit.trans h')

end Since

theorem includesId_evolves (hL : L.Laws) {id : OpId} (h : L.Evolves d d')
    (hid : includesId d id = true) : includesId d' id = true := by
  simp only [includesId, decide_eq_true_eq] at hid ⊢
  exact lt_of_lt_of_le hid (hL.count_mono d d' id.peer h)

theorem stop_le_of_includesId (h : includesId d span.last = true) :
    span.stop ≤ (L.oplogVv d).count span.peer := by
  have hlt : span.stop - 1 < (L.oplogVv d).count span.peer := of_decide_eq_true h
  omega

/-- The loop meets the same changes in an evolved document, but for the last one, which
    may have grown past the span. -/
theorem depsOfLinearSpan_loop_evolves (hL : L.Laws) (hpending : L.pendingLen d = 0)
    (h : L.Evolves d d') (hstop : span.stop ≤ (L.oplogVv d).count span.peer) :
    ∀ fuel at_ at_' : ℕ, (at_' = at_ ∨ (span.stop ≤ at_ ∧ span.stop ≤ at_')) →
      depsOfLinearSpan.loop d span fuel at_ = some () →
        depsOfLinearSpan.loop d' span fuel at_' = some ()
  | 0, at_, at_', _, _ => rfl
  | fuel + 1, at_, at_', hat, hloop => by
    rw [depsOfLinearSpan.loop] at hloop ⊢
    by_cases hlt : at_' < span.stop
    · obtain rfl : at_' = at_ := by omega
      rw [if_pos hlt] at hloop ⊢; simp only [bind_eq_bind, bind_eq_some_iff] at hloop ⊢
      obtain ⟨next, hnext, hloop⟩ := hloop
      obtain ⟨next', hnext', hid, hdeps, hlen, hgrown⟩ := hL.getChange_evolves _ _ _ _ hpending h hnext
      refine ⟨next', hnext', ?_⟩
      have hbefore : next.deps = L.ofId ⟨span.peer, at_' - 1⟩ := by
        by_contra hne
        rw [if_pos hne] at hloop; cases hloop
      rw [if_neg (not_not.2 hbefore)] at hloop
      have hmax : next.len ≤ i32Max := by
        by_contra hlong
        rw [if_pos (not_le.1 hlong)] at hloop; cases hloop
      rw [if_neg (not_lt.2 hmax)] at hloop
      rw [hdeps, if_neg (not_not.2 hbefore), if_neg (not_lt.2 (hlen hmax)), hid]
      refine depsOfLinearSpan_loop_evolves hL hpending h hstop fuel _ _ ?_ hloop
      rcases hgrown with hsame | ⟨hle, hend⟩
      · exact .inl (by rw [hsame])
      have hend' : next.id.counter + next.len = (L.oplogVv d).count span.peer := hend
      exact .inr (by omega)
    · rw [if_neg hlt]

theorem depsOfLinearSpan_evolves (hL : L.Laws) (hpending : L.pendingLen d = 0)
    (h : L.Evolves d d') (hincludes : includesId d span.last = true) {deps : L.Frontiers}
    (hdeps : depsOfLinearSpan d span = some deps) : depsOfLinearSpan d' span = some deps := by
  have hstop := stop_le_of_includesId hincludes
  simp only [depsOfLinearSpan, bind_eq_bind, bind_eq_some_iff] at hdeps ⊢
  obtain ⟨first, hfirst, hdeps⟩ := hdeps
  obtain ⟨first', hfirst', hid, hdeps', hlen, hgrown⟩ := hL.getChange_evolves _ _ _ _ hpending h hfirst
  refine ⟨first', hfirst', ?_⟩
  have hmax : first.len ≤ i32Max := by
    by_contra hlong
    rw [if_pos (not_le.1 hlong)] at hdeps; cases hdeps
  rw [if_neg (not_lt.2 hmax)] at hdeps
  rw [if_neg (not_lt.2 (hlen hmax)), hid, hdeps']
  obtain ⟨_, hloop, hresult⟩ := bind_eq_some_iff.1 hdeps
  refine bind_eq_some_iff.2 ⟨(), ?_, hresult⟩
  refine depsOfLinearSpan_loop_evolves hL hpending h hstop _ _ _ ?_ hloop
  rcases hgrown with hsame | ⟨hle, hend⟩
  · exact .inl (by rw [hsame])
  have hend' : first.id.counter + first.len = (L.oplogVv d).count span.peer := hend
  exact .inr (by omega)

end Crdt

end Pmacs
