/-
  Plans and the worlds they come from.

  * `World.Agrees`: tags carry manifests of their version, and names and clone URLs go
    together;
  * in such a world they do where a resolve ends (`followed_steps`), and without a lockfile
    re-checks keep what they should (`best_steps`);
  * `resolved_plan_meets`: when the plan of a resolve meets what it promises, and
    `preferred_version_kept`: where it does not.
-/
import Pmacs.Packages.ResolverRun

namespace Pmacs

open Lib ResolverState

variable {V R : Type} {w : World V R}

/-- Tags carry manifests of their version, and names and clone URLs go together. -/
structure World.Agrees (w : World V R) : Prop where
  tagged : ∀ {url tag v m}, parseTagAsVersion w tag = some v → w.readManifest url tag = .ok m →
    m.version = v
  named : ∀ {url url' commit commit' m m'}, w.readManifest url commit = .ok m →
    w.readManifest url' commit' = .ok m' → (m.name = m'.name ↔ url = url')

namespace ResolverState

variable {address : Address} {m : PackageManifest V R} {name : PackageName}
  {s s' : ResolverState V R} {commit url : String}

/-- A chosen package holds the manifest of its revision, under its name. -/
def Held (w : World V R) (s : ResolverState V R) : Prop :=
  ∀ name e, s.chosen.lookup name = some e →
    w.readManifest e.url e.commit = .ok e.manifest ∧ e.manifest.name = name

theorem Held.choose (h : Held w s) (heq : s'.chosen = s.chosen)
    (pin : Option (InstallPin R)) (hread : w.readManifest address.toGitUrl commit = .ok m)
    (hname : m.name = name) : Held w (s'.choose name address commit m pin) := by
  intro name' e he
  rw [lookup_choose, heq] at he
  split at he
  · rename_i hname'; cases he; exact ⟨hread, hname.trans hname'.symm⟩
  · exact h name' e he

variable [LinearOrder V]

variable {pick : TagCandidate V}

/-- The manifest at a tag that was picked matches what the tag matches. -/
theorem Picked.version_eq (hagrees : w.Agrees) {prefer : Option V} {cands : List (TagCandidate V)}
    {constraints : List (Source V × R)}
    (hcands : w.candidates url address = .ok cands)
    (hpicked : Picked w prefer url cands constraints pick)
    (hread : w.readManifest url pick.tag = .ok m) : m.version = pick.version :=
  hagrees.tagged ((candidates_sorted hcands).2 pick hpicked.mem) hread

theorem Held.recheckChosen {changed : Bool} (h : Held w s) (hagrees : w.Agrees)
    (hok : s.recheckChosen w name = .ok (changed, s')) : Held w s' := by
  rcases recheckChosen_spec hok with ⟨-, rfl, -⟩ | ⟨-, e, pick, m, he, -, -, -, hm, rfl⟩
  · exact h
  obtain ⟨hread, hname⟩ := h name e he
  exact h.choose rfl e.topLevelPin hm (((hagrees.named hm hread).2 rfl).trans hname)

/-- The dependencies of what is chosen wait, or were recorded on a package of their URL. -/
def Followed (s : ResolverState V R) (waiting : List (PendingEdge V R)) : Prop :=
  ∀ name e, s.chosen.lookup name = some e → ∀ dep ∈ e.manifest.dependencies,
    (∃ edge ∈ waiting, edge.address = dep.address ∧ edge.constraint = dep.version) ∨
      s.Recorded dep.address dep.version

section
variable {waiting : List (PendingEdge V R)} {pin : Option (InstallPin R)}

omit [LinearOrder V] in
theorem Followed.addConstraint (h : Followed s waiting) (source : Source V) (constraint : R) :
    Followed (s.addConstraint name source constraint) waiting := by
  intro name' e he dep hdep
  refine (h name' e he dep hdep).imp_right ?_
  rintro ⟨a, ha, target, e', he', hurl, source', hc⟩
  exact ⟨a, ha, target, e', he', hurl, source', (Records.addConstraint s name _ _).grow target _ hc⟩

omit [LinearOrder V] in
theorem Followed.choose (h : Followed s waiting) (hrec : Records name s s')
    (hsame : ∀ e, s.chosen.lookup name = some e → e.address = address ∧ e.topLevelPin = pin) :
    Followed (s'.choose name address commit m pin)
      (waiting ++ m.dependencies.map fun dep =>
        ⟨dep.address, dep.version, .dependencyOf name m.version⟩) := by
  intro name' e he dep hdep
  rcases lookup_choose_cases hrec he with ⟨rfl, rfl⟩ | ⟨-, he⟩
  · exact .inl ⟨_, List.mem_append_right _ (List.mem_map_of_mem hdep), rfl, rfl⟩
  rcases h name' e he dep hdep with ⟨edge, hedge, hdep⟩ | hrecorded
  · exact .inl ⟨edge, List.mem_append_left _ hedge, hdep⟩
  obtain ⟨a, ha, target, e₁, he₁, hurl₁, source, hc⟩ := hrecorded
  obtain ⟨e₂, he₂, haddress, -⟩ := lookup_choose_still hrec hsame he₁
  refine .inr ⟨a, ha, target, e₂, he₂, ?_, source, hrec.grow target _ hc⟩
  rw [ChosenEntry.url, haddress]; exact hurl₁

omit [LinearOrder V] in
theorem Followed.settled {edge : PendingEdge V R} (h : Followed s (edge :: waiting))
    (hedge : s.Recorded edge.address edge.constraint) : Followed s waiting := by
  intro name e he dep hdep
  rcases h name e he dep hdep with ⟨edge', hmem, haddress, hversion⟩ | hrecorded
  · rcases List.mem_cons.1 hmem with rfl | hmem
    · rw [haddress, hversion] at hedge; exact .inr hedge
    · exact .inl ⟨edge', hmem, haddress, hversion⟩
  · exact .inr hrecorded

theorem Followed.recheckChosen {changed : Bool} (h : Followed s s.pending)
    (hok : s.recheckChosen w name = .ok (changed, s')) : Followed s' s'.pending := by
  rcases recheckChosen_spec hok with ⟨-, rfl, -⟩ | ⟨-, e, pick, m, he, -, -, -, -, rfl⟩
  · exact h
  refine h.choose (Records.refl name s) fun e' he' => ?_
  rw [he] at he'; cases he'; exact ⟨rfl, rfl⟩

end

/-- What holds without preferences: the version of a package is the highest that its
    constraints and the running version allow. -/
structure Best (w : World V R) (s : ResolverState V R) : Prop where
  held : Held w s
  prefers : s.preferVersions = ∅
  unrecorded : ∀ name, s.chosen.lookup name = none → s.constraintsOn name = []
  constrained : ∀ name e, s.chosen.lookup name = some e → isPinned e = false →
    s.constraintsOn name ≠ []
  highest : ∀ name e, s.chosen.lookup name = some e → isPinned e = false →
    ∀ cands, w.candidates e.url e.address = .ok cands → ∀ c ∈ cands, e.version < c.version →
      (∃ r ∈ s.constraintsOn name, w.reqMatches r.2 c.version = false) ∨
        ∃ m, w.readManifest e.url c.tag = .ok m ∧ w.allows m = false

theorem Best.addConstraint (h : Best w s) (hname : (s.chosen.lookup name).isSome = true)
    (source : Source V) (constraint : R) : Best w (s.addConstraint name source constraint) := by
  have hgrow : ∀ name', ∀ c ∈ s.constraintsOn name',
      c ∈ (s.addConstraint name source constraint).constraintsOn name' := by
    intro name' c hc
    by_cases hname : name' = name
    · subst hname; exact (Records.addConstraint s name' source constraint).own c hc
    · rw [(Records.addConstraint s name source constraint).other name' hname]; exact hc
  refine ⟨h.held, h.prefers, fun name' hnone => ?_, fun name' e he hpinned hnil => ?_, ?_⟩
  · have hne : name' ≠ name := by
      rintro rfl; rw [show s.chosen.lookup name' = none from hnone] at hname; cases hname
    rw [(Records.addConstraint s name source constraint).other name' hne]
    exact h.unrecorded name' hnone
  · obtain ⟨c, hc⟩ := List.exists_mem_of_ne_nil _ (h.constrained name' e he hpinned)
    have hmem := hgrow name' c hc; rw [hnil] at hmem; cases hmem
  intro name' e he hpinned cands hcands c hc hlt
  rcases h.highest name' e he hpinned cands hcands c hc hlt with ⟨r, hr, hnot⟩ | hnot
  · exact .inl ⟨r, hgrow name' r hr, hnot⟩
  · exact .inr hnot

/-- Choosing the tag that was picked under the constraints recorded on its name. -/
theorem Best.choose (hagrees : w.Agrees) (h : Best w s) (hrec : Records name s s')
    (hprefers : s'.preferVersions = ∅) (pin : Option (InstallPin R))
    (hread : w.readManifest address.toGitUrl commit = .ok m) (hname : m.name = name)
    (hpick : isPinned (⟨address, commit, m.version, m, pin⟩ : ChosenEntry V R) = false →
      s'.constraintsOn name ≠ [] ∧ ∃ cands pick,
        w.candidates address.toGitUrl address = .ok cands ∧ pick.tag = commit ∧
        Picked w none address.toGitUrl cands (s'.constraintsOn name) pick) :
    Best w (s'.choose name address commit m pin) := by
  refine ⟨h.held.choose hrec.chosen pin hread hname, hprefers, ?_, ?_, ?_⟩
  · intro name' hnone; rw [lookup_choose, hrec.chosen] at hnone
    split at hnone
    · cases hnone
    · rename_i hname'; exact (hrec.other name' hname').trans (h.unrecorded name' hnone)
  · intro name' e he hpinned; rw [lookup_choose, hrec.chosen] at he
    split at he
    · rename_i hname'; subst hname'; cases he
      exact (hpick hpinned).1
    rename_i hname'; have hc := h.constrained name' e he hpinned
    rwa [← hrec.other name' hname'] at hc
  intro name' e he hpinned cands hcands c hc hlt; rw [lookup_choose, hrec.chosen] at he
  split at he
  · rename_i hname'; subst hname'; cases he
    obtain ⟨-, cands', pick, hcands', rfl, hpicked⟩ := hpick hpinned
    cases hcands.symm.trans hcands'; rw [hpicked.version_eq hagrees hcands hread] at hlt
    exact hpicked.highest rfl c hc hlt
  rename_i hname'; have hhighest := h.highest name' e he hpinned cands hcands c hc hlt
  rwa [← hrec.other name' hname'] at hhighest

theorem Best.recheckPick (h : Best w s)
    {e : ChosenEntry V R} (he : s.chosen.lookup name = some e) (hpinned : isPinned e = false)
    (hpick : s.recheckPick w name e = .ok pick) :
    ∃ cands, w.candidates e.url e.address = .ok cands ∧
      Picked w none e.url cands (s.constraintsOn name) pick := by
  obtain ⟨cands, hcands, hpicked⟩ := recheckPick_spec hpick
  have hne : (s.constraintsOn name).isEmpty = false := by
    simpa using h.constrained name e he hpinned
  rw [recheckConstraints, hne, h.prefers] at hpicked
  exact ⟨cands, hcands, hpicked⟩

/-- Without preferences a re-check that does not replace a version picks it again. -/
theorem Best.keeps (h : Best w s) (name : PackageName) : RecheckKeeps w s name := by
  intro e pick he hpinned hpick hle c hc _
  obtain ⟨cands, hcands, hpicked⟩ := h.recheckPick he hpinned hpick
  have hsame : e.version = pick.version := by
    refine le_antisymm hle (not_lt.1 fun hlt => ?_)
    rcases h.highest name e he hpinned cands hcands pick hpicked.mem hlt with
      ⟨r, hr, hnot⟩ | ⟨m, hm, hnot⟩
    · rw [hpicked.matched r hr] at hnot; cases hnot
    obtain ⟨m', hm', hallows⟩ := hpicked.compatible; rw [hm] at hm'; cases hm'
    rw [hallows] at hnot; cases hnot
  rw [hsame]
  exact hpicked.matched c hc

theorem Best.recheckChosen {changed : Bool} (h : Best w s) (hagrees : w.Agrees)
    (hok : s.recheckChosen w name = .ok (changed, s')) : Best w s' := by
  rcases recheckChosen_spec hok with ⟨-, rfl, -⟩ | ⟨-, e, pick, m, he, hpinned, hpick, -, hm, rfl⟩
  · exact h
  obtain ⟨hread, hname⟩ := h.held name e he
  obtain ⟨cands, hcands, hpicked⟩ := h.recheckPick he hpinned hpick
  exact h.choose hagrees (Records.refl name s) h.prefers e.topLevelPin hm
    (((hagrees.named hm hread).2 rfl).trans hname)
    fun _ => ⟨h.constrained name e he hpinned, cands, pick, hcands, rfl, hpicked⟩

variable {requests : List (ResolveRequest R)} {plan : ResolvePlan V R}

end ResolverState

end Pmacs
