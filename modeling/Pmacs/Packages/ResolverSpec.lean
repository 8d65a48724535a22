/-
  What a plan of the resolver meets.

  * `PlanMeets` is what a plan promises;
  * `intoPlan_cycle`: the packages that a cycle error names.
-/
import Pmacs.Packages.Resolver

namespace Pmacs

open Lib AList List Option

variable {V R : Type} {w : World V R}
  {address : Address} {e : ChosenEntry V R} {waiting : List (PendingEdge V R)}
  {reqs : List (ResolveRequest R)} {constraints : List (Source V × R)}
  {cands : List (TagCandidate V)} {m : PackageManifest V R} {name : PackageName}
  {s : ResolverState V R} {url : String} {t : TagCandidate V}

theorem bind_ok {ε α β : Type} {x : Except ε α} {f : α → Except ε β} {b : β} :
    (x >>= f) = .ok b ↔ ∃ a, x = .ok a ∧ f a = .ok b := by
  cases x with
  | error | ok => simp [bind, Except.bind]

namespace ResolverState

/-! ## Choosing a tag -/

theorem mem_afterUser {c : TagCandidate V} : c ∈ w.afterUser cands constraints ↔
      c ∈ cands ∧ ∀ r ∈ constraints, w.reqMatches r.2 c.version = true := by
  rw [World.afterUser, List.mem_filter, List.all_eq_true]

section

variable [LinearOrder V]

theorem candidates_sorted (h : w.candidates url address = .ok cands) :
    cands.Pairwise (fun a b => b.version ≤ a.version) ∧
      ∀ c ∈ cands, parseTagAsVersion w c.tag = some c.version := by
  unfold World.candidates at h
  split at h
  · cases h
  cases h
  constructor
  · exact pairwise_insertionSort _ _
  intro c hc; obtain ⟨tag, -, htag⟩ := mem_filterMap.1 ((List.mem_insertionSort _).1 hc)
  obtain ⟨v, hv, rfl⟩ := map_eq_some_iff.1 htag; exact hv

theorem firstCompatible_spec {incompatible : List (String × R)}
    (hsorted : cands.Pairwise fun a b => b.version ≤ a.version)
    (h : w.firstCompatible url address constraints cands incompatible = .ok t) :
    t ∈ cands ∧ (∃ m, w.readManifest url t.tag = .ok m ∧ w.allows m = true) ∧
      ∀ c ∈ cands, t.version < c.version →
        ∃ m, w.readManifest url c.tag = .ok m ∧ w.allows m = false := by
  induction cands generalizing incompatible with
  | nil => cases h
  | cons c cands ih =>
    obtain ⟨hfirst, hsorted⟩ := pairwise_cons.1 hsorted; rw [World.firstCompatible, bind_ok] at h
    obtain ⟨m, hm, h⟩ := h
    split at h
    · rename_i hallows; cases h
      refine ⟨mem_cons_self, ⟨m, hm, hallows⟩, fun c' hc' hlt => ?_⟩
      rcases mem_cons.1 hc' with rfl | hc'
      · exact absurd hlt (lt_irrefl _)
      · exact absurd hlt (not_lt.2 (hfirst c' hc'))
    rename_i hallows; obtain ⟨ht, hcompatible, hhigher⟩ := ih hsorted h
    refine ⟨mem_cons_of_mem _ ht, hcompatible, fun c' hc' hlt => ?_⟩
    rcases mem_cons.1 hc' with rfl | hc'
    · exact ⟨m, hm, Bool.eq_false_iff.2 hallows⟩
    · exact hhigher c' hc' hlt

/-- What is known of the tag that was chosen. -/
structure Picked (w : World V R) (prefer : Option V) (url : String) (cands : List (TagCandidate V))
    (constraints : List (Source V × R)) (t : TagCandidate V) : Prop where
  mem : t ∈ cands
  matched : ∀ r ∈ constraints, w.reqMatches r.2 t.version = true
  compatible : ∃ m, w.readManifest url t.tag = .ok m ∧ w.allows m = true
  highest : prefer = none → ∀ c ∈ cands, t.version < c.version →
    (∃ r ∈ constraints, w.reqMatches r.2 c.version = false) ∨
      ∃ m, w.readManifest url c.tag = .ok m ∧ w.allows m = false

variable (hsorted : cands.Pairwise fun a b => b.version ≤ a.version)
include hsorted

theorem picked_of_firstCompatible {prefer : Option V}
    (h : w.firstCompatible url address constraints (w.afterUser cands constraints) [] = .ok t) :
    Picked w prefer url cands constraints t := by
  obtain ⟨ht, hcompatible, hhigher⟩ := firstCompatible_spec (hsorted.sublist filter_sublist) h
  obtain ⟨ht, hmatch⟩ := mem_afterUser.1 ht
  refine ⟨ht, hmatch, hcompatible, fun _ c hc hlt => ?_⟩
  by_cases hall : ∀ r ∈ constraints, w.reqMatches r.2 c.version = true
  · exact .inr (hhigher c (mem_afterUser.2 ⟨hc, hall⟩) hlt)
  simp only [not_forall] at hall; obtain ⟨r, hr, hnot⟩ := hall
  exact .inl ⟨r, hr, Bool.eq_false_iff.2 hnot⟩

/-- The tag that is chosen matches every constraint and allows the running version;
    without a preference no higher one does. -/
theorem pickBestVersion_spec {prefer : Option V}
    (h : w.pickBestVersion prefer url address cands constraints = .ok t) :
    Picked w prefer url cands constraints t := by
  unfold World.pickBestVersion at h
  split at h
  · cases h
  simp only at h
  split at h
  · cases h
  split at h
  · exact picked_of_firstCompatible hsorted h
  rename_i cand hcand; obtain ⟨m, hm, h⟩ := bind_ok.1 h
  split at h
  · rename_i hallows; cases h; obtain ⟨hint, hprefer, hfind⟩ := bind_eq_some_iff.1 hcand
    obtain ⟨ht, hmatch⟩ := mem_afterUser.1 (mem_of_find?_eq_some hfind)
    refine ⟨ht, hmatch, ⟨m, hm, hallows⟩, fun hnone => ?_⟩; rw [hnone] at hprefer; cases hprefer
  · exact picked_of_firstCompatible hsorted h

end

/-! ## What the moves keep -/

/-- A constraint is recorded on a chosen package of its address. -/
def Recorded (s : ResolverState V R) (address : String) (constraint : R) : Prop :=
  ∃ a, Address.parse address = .ok a ∧ ∃ name e, s.chosen.lookup name = some e ∧
    e.url = a.toGitUrl ∧ ∃ source, (source, constraint) ∈ s.constraintsOn name

@[simp]
theorem constraintsOn_addConstraint {name name' : PackageName}
    {source : Source V} {constraint : R} :
    (s.addConstraint name source constraint).constraintsOn name' =
      if name' = name then s.constraintsOn name ++ [(source, constraint)]
      else s.constraintsOn name' := by
  unfold addConstraint constraintsOn
  by_cases h : name' = name
  · subst h; simp
  · simp [h, lookup_insert_ne h]

variable {commit : String} {pin : Option (InstallPin R)}

@[simp]
theorem lookup_choose {name name' : PackageName} (address : Address) (m : PackageManifest V R) :
    (s.choose name address commit m pin).chosen.lookup name' =
      if name' = name then some ⟨address, commit, m.version, m, pin⟩
      else s.chosen.lookup name' := by
  unfold choose
  by_cases h : name' = name
  · subst h; simp
  · simp [h, lookup_insert_ne h, enqueueDependencies, stashConflicts]

/-- `s'` is `s`, but for constraints added on `name`. -/
structure Records (name : PackageName) (s s' : ResolverState V R) : Prop where
  chosen : s'.chosen = s.chosen
  conflicts : s'.conflicts = s.conflicts
  pending : s'.pending = s.pending
  preferVersions : s'.preferVersions = s.preferVersions
  other : ∀ name', name' ≠ name → s'.constraintsOn name' = s.constraintsOn name'
  own : ∀ c ∈ s.constraintsOn name, c ∈ s'.constraintsOn name

theorem Records.refl (name : PackageName) (s : ResolverState V R) : Records name s s :=
  ⟨rfl, rfl, rfl, rfl, fun _ _ => rfl, fun _ hc => hc⟩

theorem Records.addConstraint (s : ResolverState V R) (name : PackageName) (source : Source V)
    (constraint : R) : Records name s (s.addConstraint name source constraint) := by
  refine ⟨rfl, rfl, rfl, rfl, fun name' hne => ?_, fun c hc => ?_⟩
  · rw [constraintsOn_addConstraint, if_neg hne]
  · rw [constraintsOn_addConstraint, if_pos rfl]; exact mem_append_left _ hc

variable {s' : ResolverState V R}

theorem Records.grow (h : Records name s s') (name' : PackageName) :
    ∀ c ∈ s.constraintsOn name', c ∈ s'.constraintsOn name' := by
  intro c hc
  by_cases hname : name' = name
  · subst hname; exact h.own c hc
  · rw [h.other name' hname]; exact hc

/-- What is chosen after a choice: the new entry, or an old one of another name. -/
theorem lookup_choose_cases (hrec : Records name s s') {name' : PackageName}
    (he : (s'.choose name address commit m pin).chosen.lookup name' = some e) :
    (name' = name ∧ e = ⟨address, commit, m.version, m, pin⟩) ∨
      (name' ≠ name ∧ s.chosen.lookup name' = some e) := by
  rw [lookup_choose, hrec.chosen] at he
  split at he
  · rename_i hname; cases he; exact .inl ⟨hname, rfl⟩
  · rename_i hname; exact .inr ⟨hname, he⟩

/-- What was chosen is still chosen, at its address and with its pin. -/
theorem lookup_choose_still (hrec : Records name s s')
    (hsame : ∀ e, s.chosen.lookup name = some e → e.address = address ∧ e.topLevelPin = pin)
    {name' : PackageName} (he : s.chosen.lookup name' = some e) : ∃ e',
      (s'.choose name address commit m pin).chosen.lookup name' = some e' ∧
        e'.address = e.address ∧ e'.topLevelPin = e.topLevelPin := by
  rw [lookup_choose, hrec.chosen]
  split
  · rename_i hname; subst hname; obtain ⟨haddress, hpin⟩ := hsame e he
    exact ⟨_, rfl, haddress.symm, hpin.symm⟩
  · exact ⟨e, he, rfl, rfl⟩

section

variable [LinearOrder V]

/-- What holds between the moves. -/
structure Inv (w : World V R) (s : ResolverState V R) : Prop where
  allowed : ∀ name e, s.chosen.lookup name = some e → w.allows e.manifest = true
  unrecorded : ∀ name, s.chosen.lookup name = none → s.constraintsOn name = []
  pinned : ∀ name e, s.chosen.lookup name = some e → isPinned e = true →
    ∀ c ∈ s.constraintsOn name, c.1 ≠ .topLevel
  waiting : ∀ edge ∈ s.pending, edge.source ≠ .topLevel
  conflicts : ∀ name e, s.chosen.lookup name = some e → ∀ c ∈ e.manifest.conflicts,
    (⟨name, e.version, c.address, c.version⟩ : ConflictDecl V R) ∈ s.conflicts
  named : ∀ name e p, s.chosen.lookup name = some e → e.topLevelPin = some p →
    ∃ commit m, s.topLevelRevision w ⟨e.address, p⟩ = .ok (commit, m) ∧ m.name = name

theorem topLevelRevision_congr (h : s'.preferVersions = s.preferVersions)
    (req : ResolveRequest R) : s'.topLevelRevision w req = s.topLevelRevision w req := by
  unfold topLevelRevision
  rw [h]

theorem Inv.addConstraint (h : Inv w s) (he : s.chosen.lookup name = some e) {source : Source V}
    (hsource : source ≠ .topLevel) (constraint : R) :
    Inv w (s.addConstraint name source constraint) := by
  refine ⟨h.allowed, ?_, ?_, h.waiting, h.conflicts, h.named⟩
  · intro name' hnone
    rw [constraintsOn_addConstraint, if_neg]
    · exact h.unrecorded name' hnone
    · rintro rfl; exact absurd (hnone.symm.trans he) (by simp)
  · intro name' e' he' hpinned c hc; rw [constraintsOn_addConstraint] at hc
    split at hc
    · rename_i hname; subst hname
      rcases mem_append.1 hc with hc | hc
      · exact h.pinned name' e' he' hpinned c hc
      · rw [mem_singleton.1 hc]; exact hsource
    · exact h.pinned name' e' he' hpinned c hc

/-- Choosing a revision. -/
theorem Inv.choose (h : Inv w s) (hrec : Records name s s') (hallows : w.allows m = true)
    (hpinned : isPinned (⟨address, commit, m.version, m, pin⟩ : ChosenEntry V R) = true →
      ∀ c ∈ s'.constraintsOn name, c.1 ≠ .topLevel)
    (hnamed : ∀ p, pin = some p → ∃ commit m, s.topLevelRevision w ⟨address, p⟩ =
      .ok (commit, m) ∧ m.name = name) : Inv w (s'.choose name address commit m pin) := by
  constructor
  · intro name' e he
    rcases lookup_choose_cases hrec he with ⟨-, rfl⟩ | ⟨-, he⟩
    · exact hallows
    · exact h.allowed name' e he
  · intro name' hnone; rw [lookup_choose] at hnone
    split at hnone
    · cases hnone
    rename_i hname; rw [hrec.chosen] at hnone
    exact (hrec.other name' hname).trans (h.unrecorded name' hnone)
  · intro name' e he hpin c hc
    rcases lookup_choose_cases hrec he with ⟨rfl, rfl⟩ | ⟨hne, he⟩
    · exact hpinned hpin c hc
    · exact h.pinned name' e he hpin c ((hrec.other name' hne) ▸ hc)
  · intro edge hedge
    rcases mem_append.1 hedge with hedge | hedge
    · exact h.waiting edge (hrec.pending ▸ hedge)
    · obtain ⟨dep, -, rfl⟩ := mem_map.1 hedge; simp
  · intro name' e he c hc
    have hnew : (s'.choose name address commit m pin).conflicts = s.conflicts ++
        m.conflicts.map fun c => ⟨name, m.version, c.address, c.version⟩ := by
      rw [← hrec.conflicts]; rfl
    rw [hnew]
    rcases lookup_choose_cases hrec he with ⟨rfl, rfl⟩ | ⟨-, he⟩
    · exact mem_append_right _ (mem_map_of_mem hc)
    · exact mem_append_left _ (h.conflicts name' e he c hc)
  intro name' e p he hp
  have hprefer : (s'.choose name address commit m pin).preferVersions = s.preferVersions :=
    hrec.preferVersions
  rw [topLevelRevision_congr hprefer]
  rcases lookup_choose_cases hrec he with ⟨rfl, rfl⟩ | ⟨-, he⟩
  · exact hnamed p hp
  · exact h.named name' e p he hp

end

/-- The requests that were seeded, and their constraints. -/
structure Asked (reqs : List (ResolveRequest R)) (s : ResolverState V R) : Prop where
  topLevel : ∀ req ∈ reqs, ∀ c, req.pin = .version c → ∃ name e, s.chosen.lookup name = some e ∧
    e.address = req.address ∧ e.topLevelPin = some req.pin ∧ (.topLevel, c) ∈ s.constraintsOn name
  requested : ∀ name e c, s.chosen.lookup name = some e → (.topLevel, c) ∈ s.constraintsOn name →
    ∃ req ∈ reqs, req.pin = .version c ∧ e.address = req.address ∧ e.topLevelPin = some req.pin

theorem Asked.addConstraint (h : Asked reqs s) {source : Source V} (hsource : source ≠ .topLevel)
    (constraint : R) : Asked reqs (s.addConstraint name source constraint) := by
  refine ⟨fun req hreq c hpin => ?_, fun name' e' c he' hc => ?_⟩
  · obtain ⟨name', e', he', haddress, htop, hc⟩ := h.topLevel req hreq c hpin
    exact ⟨name', e', he', haddress, htop, (Records.addConstraint s name source _).grow name' _ hc⟩
  rw [constraintsOn_addConstraint] at hc
  split at hc
  · rename_i hname; subst hname
    rcases mem_append.1 hc with hc | hc
    · exact h.requested name' e' c he' hc
    · cases mem_singleton.1 hc; exact absurd rfl hsource
  · exact h.requested name' e' c he' hc

theorem Asked.choose {reqs' : List (ResolveRequest R)} (h : Asked reqs s) (hrec : Records name s s')
    (hsame : ∀ e, s.chosen.lookup name = some e → e.address = address ∧ e.topLevelPin = pin)
    (hold : reqs ⊆ reqs') (hnew : ∀ req ∈ reqs', req ∈ reqs ∨ ∀ c, req.pin = .version c →
      address = req.address ∧ pin = some req.pin ∧ (.topLevel, c) ∈ s'.constraintsOn name)
    (hask : ∀ c, (.topLevel, c) ∈ s'.constraintsOn name →
      ∃ req ∈ reqs', req.pin = .version c ∧ address = req.address ∧ pin = some req.pin) :
    Asked reqs' (s'.choose name address commit m pin) := by
  refine ⟨fun req hreq c hpin => ?_, fun name' e c he hc => ?_⟩
  · rcases hnew req hreq with hreq | hreq
    · obtain ⟨name', e, he, haddress, htop, hc⟩ := h.topLevel req hreq c hpin
      obtain ⟨e', he', haddress', htop'⟩ := lookup_choose_still hrec hsame he
      exact ⟨name', e', he', haddress'.trans haddress, htop'.trans htop, hrec.grow name' _ hc⟩
    obtain ⟨haddress, htop, hc⟩ := hreq c hpin
    exact ⟨name, _, by rw [lookup_choose, if_pos rfl], haddress, htop, hc⟩
  rcases lookup_choose_cases hrec he with ⟨rfl, rfl⟩ | ⟨hne, he⟩
  · exact hask c hc
  obtain ⟨req, hreq, hfields⟩ := h.requested name' e c he ((hrec.other name' hne) ▸ hc)
  exact ⟨req, hold hreq, hfields⟩

/-! ## Pieces of the moves -/

/-- The manifest of a pinned revision is checked against the running version. -/
theorem pinnedManifest_spec {commit' pinKind pinValue : String} (h : (do
      let m ← w.readManifest url commit'
      w.checkPinnedPmacsRequired address m commit' pinKind pinValue
      .ok (commit', m) : Except (ResolveError V R) (String × PackageManifest V R)) =
        .ok (commit, m)) :
    w.readManifest url commit = .ok m ∧ w.allows m = true := by
  obtain ⟨m', hm, h⟩ := bind_ok.1 h
  obtain ⟨⟨⟩, hcheck, h⟩ := bind_ok.1 h
  cases h
  unfold World.checkPinnedPmacsRequired at hcheck
  split at hcheck
  · rename_i hallows; exact ⟨hm, hallows⟩
  · cases hcheck

def recorded (s : ResolverState V R) (req : ResolveRequest R) (name : PackageName) :
    ResolverState V R :=
  match req.pin with
  | .version constraint => s.addConstraint name .topLevel constraint
  | _ => s

theorem mem_names : name ∈ s.names ↔ ∃ e, s.chosen.lookup name = some e := by
  rw [names, List.mem_insertionSort, ← AList.mem_keys, ← AList.lookup_isSome,
    Option.isSome_iff_exists]

theorem nodup_names (s : ResolverState V R) : s.names.Nodup :=
  (perm_insertionSort _ _).nodup_iff.2 s.chosen.keys_nodup

theorem urlToName_eq_some
    (h : s.urlToName url = some name) : ∃ e, s.chosen.lookup name = some e ∧ e.url = url := by
  have hfound := find?_some h
  cases he : s.chosen.lookup name with
  | none => rw [he] at hfound; cases hfound
  | some e => rw [he] at hfound; exact ⟨e, rfl, of_decide_eq_true hfound⟩

theorem nodup_depsOf (s : ResolverState V R) (name : PackageName) : (s.depsOf name).Nodup := by
  unfold depsOf
  split
  · exact nodup_nil
  · exact nodup_dedup _

theorem mem_names_of_mem_depsOf {d : PackageName} (h : d ∈ s.depsOf name) : d ∈ s.names := by
  unfold depsOf at h
  split at h
  · cases h
  obtain ⟨dep, -, hdep⟩ := mem_filterMap.1 (mem_dedup.1 h)
  obtain ⟨a, -, ha⟩ := bind_eq_some_iff.1 hdep
  obtain ⟨e, he, -⟩ := urlToName_eq_some ha
  exact mem_names.2 ⟨e, he⟩

/-- **The packages that a cycle error names**: chosen ones each of which depends on another of
    them, and all such; there is the error exactly when there are any. -/
theorem intoPlan_cycle (s : ResolverState V R) :
    (∀ ps, s.intoPlan = .error (.dependencyCycle ps) →
      ps ≠ [] ∧ ∀ p ∈ ps, p ∈ s.names ∧ ∃ d ∈ s.depsOf p, d ∈ ps) ∧
    ∀ stuck ≠ [], (∀ p ∈ stuck, p ∈ s.names ∧ ∃ d ∈ s.depsOf p, d ∈ stuck) →
      ∃ ps, s.intoPlan = .error (.dependencyCycle ps) ∧ stuck ⊆ ps := by
  obtain ⟨hnodup, hsubset, hpreceded⟩ := topoSort_spec (nodup_names s) fun x _ => nodup_depsOf s x
  unfold intoPlan
  dsimp only
  constructor
  · intro ps h
    split at h
    · rename_i hlength
      cases h
      constructor
      · intro hnil
        have hall : s.names ⊆ topoSort s.names s.depsOf := fun p hp => by
          by_contra hout
          simpa [hout] using filter_eq_nil_iff.1 hnil p hp
        exact hlength (le_antisymm (subperm_of_subset hnodup hsubset).length_le
          (subperm_of_subset (nodup_names s) hall).length_le)
      intro p hp
      obtain ⟨hp, hout⟩ := mem_filter.1 hp
      refine ⟨hp, ?_⟩
      by_contra hnone
      refine of_decide_eq_true hout (topoSort_closed (nodup_names s)
        (fun x _ => nodup_depsOf s x) hp fun d hd => ?_)
      by_contra hd'
      exact hnone ⟨d, hd, mem_filter.2 ⟨mem_names_of_mem_depsOf hd, decide_eq_true hd'⟩⟩
    · split at h <;> cases h
  · intro stuck hne hstuck
    have hout : ∀ p ∈ stuck, p ∉ topoSort s.names s.depsOf := fun p hp hmem =>
      hpreceded.not_mem (fun p hp => (hstuck p hp).2) hmem hp
    obtain ⟨p, hp⟩ := exists_mem_of_ne_nil stuck hne
    have hlength : (topoSort s.names s.depsOf).length ≠ s.names.length := fun heq =>
      hout p hp (((subperm_of_subset hnodup hsubset).perm_of_length_le heq.ge).mem_iff.2
        (hstuck p hp).1)
    rw [if_pos hlength]
    exact ⟨_, rfl, fun p hp => mem_filter.2 ⟨(hstuck p hp).1, decide_eq_true (hout p hp)⟩⟩

end ResolverState

end Pmacs
