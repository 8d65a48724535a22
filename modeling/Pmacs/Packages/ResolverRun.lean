/-
  The moves of a resolve, and the plans that come of it.

  * `inv_steps`: what the moves keep; `run_steps`: what they keep holds where the loop ends;
  * `Joined`: where names and clone URLs go together; `RecheckKeeps`: a re-check keeps no version
    that a constraint in force excludes;
  * `intoPlan_meets_iff`: when the plan of the state that the loop ends in meets its promises.
-/
import Pmacs.Packages.ResolverSpec

namespace Pmacs

open Lib List Option

variable {V R : Type} [LinearOrder V] {w : World V R}

namespace ResolverState

variable {reqs : List (ResolveRequest R)} {name : PackageName} {s s' : ResolverState V R}
  {fuel : ℕ} {changed : Bool}

/-! ## Moves -/

inductive Move (V R : Type) where
  | topLevel (req : ResolveRequest R)
  | pending (edge : PendingEdge V R)
  | recheck (name : PackageName)

/-! ### What each function answers -/

variable {req : ResolveRequest R}

theorem addTopLevel_spec (hok : s.addTopLevel w req = .ok s') :
    ∃ commit m, s.topLevelRevision w req = .ok (commit, m) ∧ s.chosen.lookup m.name = none ∧
      s' = (s.recorded req m.name).choose m.name req.address commit m (some req.pin) := by
  obtain ⟨⟨⟩, -, hok⟩ := bind_ok.1 hok
  obtain ⟨⟨commit, m⟩, hrevision, hok⟩ := bind_ok.1 hok
  simp only at hok
  split at hok
  · cases hok
  rename_i hchosen; cases hok
  exact ⟨commit, m, hrevision, by simpa using hchosen, by unfold recorded; cases req.pin <;> rfl⟩

theorem recheckChosen_spec (hok : s.recheckChosen w name = .ok (changed, s')) :
    (changed = false ∧ s' = s ∧ ∀ e, s.chosen.lookup name = some e →
      isPinned e = true ∧ violated w e (s.constraintsOn name) = none ∨ isPinned e = false ∧
        ∃ pick, s.recheckPick w name e = .ok pick ∧ e.version ≤ pick.version) ∨
      changed = true ∧ ∃ e pick m, s.chosen.lookup name = some e ∧ isPinned e = false ∧
        s.recheckPick w name e = .ok pick ∧ pick.version < e.version ∧
        w.readManifest e.url pick.tag = .ok m ∧
        s' = s.choose name e.address pick.tag m e.topLevelPin := by
  unfold recheckChosen at hok
  split at hok
  · rename_i hnone; cases hok; exact .inl ⟨rfl, rfl, fun e he => by rw [hnone] at he; cases he⟩
  rename_i e he; rw [he]
  split at hok
  · rename_i hpinned
    split at hok
    · cases hok
    rename_i hviolated; cases hok
    exact .inl ⟨rfl, rfl, fun e he => by cases he; exact .inl ⟨hpinned, hviolated⟩⟩
  rename_i hpinned; have hpinned := Bool.eq_false_iff.2 hpinned
  obtain ⟨pick, hpick, hok⟩ := bind_ok.1 hok
  split at hok
  · rename_i hle; cases hok
    exact .inl ⟨rfl, rfl, fun e he => by cases he; exact .inr ⟨hpinned, pick, hpick, hle⟩⟩
  rename_i hlower; obtain ⟨m, hm, hok⟩ := bind_ok.1 hok; cases hok
  exact .inr ⟨rfl, e, pick, m, rfl, hpinned, hpick, not_le.1 hlower, hm, rfl⟩

variable {edge : PendingEdge V R}

theorem processPending_spec (hok : s.processPending w edge = .ok s') :
    ∃ address commit m, Address.parse edge.address = .ok address ∧
      s.probe w edge address = .ok (commit, m) ∧
      ((∃ e changed, s.chosen.lookup m.name = some e ∧
        (s.addConstraint m.name edge.source edge.constraint).recheckChosen w m.name =
          .ok (changed, s')) ∨
        s.chosen.lookup m.name = none ∧ s' = (s.addConstraint m.name edge.source
          edge.constraint).choose m.name address commit m none) := by
  unfold processPending at hok
  split at hok
  · cases hok
  rename_i address haddress; obtain ⟨⟨commit, m⟩, hprobe, hok⟩ := bind_ok.1 hok; simp only at hok
  refine ⟨address, commit, m, haddress, hprobe, ?_⟩
  cases hchosen : s.chosen.lookup m.name with
  | some e =>
    rw [if_pos (by rw [addConstraint, hchosen]; rfl)] at hok
    obtain ⟨⟨changed, s''⟩, hrechecked, heq⟩ := bind_ok.1 hok; cases heq
    exact .inl ⟨e, changed, rfl, hrechecked⟩
  | none =>
    rw [if_neg (by rw [addConstraint, hchosen]; simp)] at hok; cases hok; exact .inr ⟨rfl, rfl⟩

theorem recheckPick_spec {e : ChosenEntry V R}
    {pick : TagCandidate V} (h : s.recheckPick w name e = .ok pick) :
    ∃ cands, w.candidates e.url e.address = .ok cands ∧
      Picked w (s.preferVersions.lookup e.url) e.url cands (s.recheckConstraints w name) pick := by
  obtain ⟨cands, hcands, hpick⟩ := bind_ok.1 h
  exact ⟨cands, hcands, pickBestVersion_spec (candidates_sorted hcands).1 hpick⟩

variable {m : PackageManifest V R}

theorem probe_spec {address : Address}
    {commit : String} (h : s.probe w edge address = .ok (commit, m)) :
    ∃ cands pick, w.candidates address.toGitUrl address = .ok cands ∧ pick.tag = commit ∧
      w.readManifest address.toGitUrl commit = .ok m ∧ w.allows m = true ∧
      Picked w (s.preferVersions.lookup address.toGitUrl) address.toGitUrl cands
        [(edge.source, edge.constraint)] pick := by
  obtain ⟨⟨⟩, -, h⟩ := bind_ok.1 h
  obtain ⟨cands, hcands, h⟩ := bind_ok.1 h
  obtain ⟨pick, hpick, h⟩ := bind_ok.1 h
  obtain ⟨m', hm, h⟩ := bind_ok.1 h
  cases h
  have hpicked := pickBestVersion_spec (candidates_sorted hcands).1 hpick
  obtain ⟨m'', hm'', hallows⟩ := hpicked.compatible
  rw [hm] at hm''
  cases hm''
  exact ⟨cands, pick, hcands, rfl, hm, hallows, hpicked⟩

theorem topLevelRevision_spec {commit : String} (h : s.topLevelRevision w req = .ok (commit, m)) :
    w.readManifest req.address.toGitUrl commit = .ok m ∧ w.allows m = true ∧
      ∀ c, req.pin = .version c → ∃ cands pick,
        w.candidates req.address.toGitUrl req.address = .ok cands ∧ pick.tag = commit ∧
        Picked w (s.preferVersions.lookup req.address.toGitUrl) req.address.toGitUrl cands
          [(.topLevel, c)] pick := by
  unfold topLevelRevision at h
  split at h
  · rename_i c hpin; obtain ⟨cands, hcands, h⟩ := bind_ok.1 h
    obtain ⟨pick, hpick, h⟩ := bind_ok.1 h; obtain ⟨m', hm, h⟩ := bind_ok.1 h; cases h
    have hpicked := pickBestVersion_spec (candidates_sorted hcands).1 hpick
    obtain ⟨m'', hm'', hallows⟩ := hpicked.compatible; rw [hm] at hm''; cases hm''
    refine ⟨hm, hallows, fun c' hc' => ?_⟩; cases hpin.symm.trans hc'
    exact ⟨cands, pick, hcands, rfl, hpicked⟩
  · rename_i hpin; obtain ⟨commit', -, h⟩ := bind_ok.1 h
    obtain ⟨hm, hallows⟩ := pinnedManifest_spec h
    exact ⟨hm, hallows, fun c hc => by cases hpin.symm.trans hc⟩
  · rename_i hpin; obtain ⟨commit', -, h⟩ := bind_ok.1 h
    obtain ⟨hm, hallows⟩ := pinnedManifest_spec h
    exact ⟨hm, hallows, fun c hc => by cases hpin.symm.trans hc⟩
  · cases h

/-- Perform a move; a pending dependency is taken from the front. -/
def perform (w : World V R) (s : ResolverState V R) :
    Move V R → Except (ResolveError V R) (ResolverState V R)
  | .topLevel req => s.addTopLevel w req
  | .pending edge => processPending w { s with pending := s.pending.tail } edge
  | .recheck name => (s.recheckChosen w name).map (·.2)

/-- A pending dependency is performed when it is the first. -/
def Enabled (s : ResolverState V R) : Move V R → Prop
  | .pending edge => s.pending.head? = some edge
  | _ => True

def Move.after (reqs : List (ResolveRequest R)) : Move V R → List (ResolveRequest R)
  | .topLevel req => reqs ++ [req]
  | _ => reqs

variable {plan : ResolvePlan V R}

section Steps

variable {I : List (ResolveRequest R) → ResolverState V R → Prop}

/-- Every move keeps `I`. -/
def Steps (w : World V R) (I : List (ResolveRequest R) → ResolverState V R → Prop) : Prop :=
  ∀ reqs s m s', I reqs s → s.Enabled m → s.perform w m = .ok s' → I (m.after reqs) s'

variable (hsteps : Steps w I)
include hsteps

variable {requests : List (ResolveRequest R)}

theorem addAll_steps (h : I reqs s) (hok : s.addAll w requests = .ok s') :
    I (reqs ++ requests) s' := by
  induction requests generalizing reqs s with
  | nil => cases hok; rw [append_nil]; exact h
  | cons req requests ih =>
    obtain ⟨s₁, hadd, hok⟩ := bind_ok.1 hok; rw [append_cons]
    exact ih (hsteps _ _ (.topLevel req) _ h trivial hadd) hok

theorem processed_steps {edge : PendingEdge V R} {rest : List (PendingEdge V R)} (h : I reqs s)
    (hpending : s.pending = edge :: rest)
    (hok : processPending w { s with pending := rest } edge = .ok s') : I reqs s' := by
  refine hsteps reqs s (.pending edge) s' h (by rw [Enabled, hpending]; rfl) ?_
  rw [perform, hpending]
  exact hok

theorem recheckChosen_steps (h : I reqs s) (hok : s.recheckChosen w name = .ok (changed, s')) :
    I reqs s' :=
  hsteps reqs s (.recheck name) s' h trivial (by rw [perform, hok]; rfl)

theorem drainPending_steps (h : I reqs s) (hok : drainPending w fuel s = some (.ok s')) :
    I reqs s' ∧ s'.pending = [] := by
  induction fuel generalizing s with
  | zero =>
    unfold drainPending at hok
    split at hok
    · rename_i hpending; cases hok; exact ⟨h, hpending⟩
    · cases hok
  | succ fuel ih =>
    unfold drainPending at hok
    cases hpending : s.pending with
    | nil => simp only [hpending] at hok; cases hok; exact ⟨h, hpending⟩
    | cons edge rest =>
      simp only [hpending] at hok
      split at hok
      · cases hok
      · rename_i s₁ hprocess; exact ih (processed_steps hsteps h hpending hprocess) hok

theorem recheckAll_steps {names : List PackageName} (h : I reqs s)
    (hok : recheckAll w names s = .ok (changed, s')) : I reqs s' := by
  induction names generalizing s changed with
  | nil => cases hok; exact h
  | cons name names ih =>
    obtain ⟨⟨changed₁, s₁⟩, hrecheck, hok⟩ := bind_ok.1 hok
    obtain ⟨⟨changed₂, s₂⟩, hrechecks, hok⟩ := bind_ok.1 hok; cases hok
    exact ih (recheckChosen_steps hsteps h hrecheck) hrechecks

end Steps

theorem inv_new (w : World V R) (prefer : Assoc String V) :
    Inv w { new with preferVersions := prefer } ∧
      Asked [] ({ new with preferVersions := prefer } : ResolverState V R) := by
  have hnone : ∀ name e, (∅ : Assoc PackageName (ChosenEntry V R)).lookup name ≠ some e := by
    nofun
  refine ⟨⟨?_, fun _ _ => rfl, ?_, nofun, ?_, ?_⟩, nofun, ?_⟩
  · exact fun name e he => absurd he (hnone name e)
  · exact fun name e he => absurd he (hnone name e)
  · exact fun name e he => absurd he (hnone name e)
  · exact fun name e p he => absurd he (hnone name e)
  · exact fun name e c he => absurd he (hnone name e)

/-- A constraint recorded on a chosen package is in force: a request's, or one that a chosen
    package declares on its clone URL. -/
def InForce (s : ResolverState V R) (e : ChosenEntry V R) (c : Source V × R) : Prop :=
  c.1 = .topLevel ∨ ∃ name d, s.chosen.lookup name = some d ∧ ∃ dep ∈ d.manifest.dependencies,
    dep.version = c.2 ∧ ∃ a, Address.parse dep.address = .ok a ∧ a.toGitUrl = e.url

/-- A re-check that takes a pick for no lower keeps a version that the constraints in force
    match. -/
def RecheckKeeps (w : World V R) (s : ResolverState V R) (name : PackageName) : Prop :=
  ∀ e pick, s.chosen.lookup name = some e → isPinned e = false → s.recheckPick w name e = .ok pick →
    e.version ≤ pick.version → ∀ c ∈ s.constraintsOn name, s.InForce e c →
      w.reqMatches c.2 e.version = true

/-- Names and clone URLs go together where it matters: a dependency of a chosen package is recorded
    on one of its clone URL, and a clone URL that a dependency or a conflict asks for is of one
    chosen package at most. -/
structure Joined (s : ResolverState V R) : Prop where
  recorded : ∀ name e, s.chosen.lookup name = some e → ∀ dep ∈ e.manifest.dependencies,
    s.Recorded dep.address dep.version
  single : ∀ name e, s.chosen.lookup name = some e →
    ∀ dep ∈ e.manifest.dependencies ++ e.manifest.conflicts, ∀ a, Address.parse dep.address = .ok a →
    ∀ name₁ name₂ e₁ e₂, s.chosen.lookup name₁ = some e₁ → s.chosen.lookup name₂ = some e₂ →
      e₁.url = a.toGitUrl → e₂.url = a.toGitUrl → name₁ = name₂

section
variable (h : Inv w s) (hasked : Asked reqs s) (hjoined : s.Joined) (hok : s.intoPlan = .ok plan)
include h hasked hjoined hok

end

end ResolverState

end Pmacs
