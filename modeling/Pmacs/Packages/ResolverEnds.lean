/-
  Whether a resolve comes to an end.

  * `World.IsFinite` is a world of finitely many repositories, `Bounds` the names and
    versions that can be chosen there;
  * every other move that changes what is chosen lowers its potential (`recheck_effect`,
    `processPending_effect`), so that `drainPending_ends` and `iterateToFixpoint_ends`;
  * `iterateToFixpoint_ends_iff`: the loop ends where such moves do, and
    `mistagged_never_ends`: a repository where they do not;
  * `Reaches`, `World.TaggedWithin`: the clone URLs that a resolve comes to, and repositories there
    that no move raises in.
-/
import Pmacs.Lib.Potential
import Pmacs.Packages.ResolverRun

namespace Pmacs

open Lib ResolverState AList Function List Option Nat

variable {V R : Type} [LinearOrder V] {w : World V R}

/-- Only finitely many repositories can be fetched. -/
def World.IsFinite (w : World V R) : Prop :=
  ∃ urls : Finset String, ∀ {url}, w.fetch url = .ok () → url ∈ urls

/-- Manifests of `urls` depend on `urls` only, and no tag there whose manifest allows the running
    version carries one of a higher version. -/
structure World.TaggedWithin (w : World V R) (urls : Set String) : Prop where
  dependencies : ∀ url ∈ urls, ∀ tag m, w.readManifest url tag = .ok m →
    ∀ dep ∈ m.dependencies, ∀ a, Address.parse dep.address = .ok a → a.toGitUrl ∈ urls
  tagged : ∀ url ∈ urls, ∀ raw tag v m, w.listTags url = .ok raw → tag ∈ raw →
    parseTagAsVersion w tag = some v → w.readManifest url tag = .ok m → w.allows m = true →
      m.version ≤ v

namespace ResolverState

variable {changed : Bool} {r : Except (ResolveError V R) (ResolverState V R)} {name : PackageName}
  {s s' : ResolverState V R} {fuel fuel' : ℕ}

/-! ## What can be chosen -/

def versions (s : ResolverState V R) (name : PackageName) : Option V :=
  (s.chosen.lookup name).map (·.version)

/-- The names and versions that manifests at tags carry. -/
structure Bounds (w : World V R) where
  urls : Finset String
  names : Finset PackageName
  versions : Finset V
  fetched : ∀ {url}, w.fetch url = .ok () → url ∈ urls
  tagged : ∀ {url raw tag m}, url ∈ urls → w.listTags url = .ok raw → tag ∈ raw →
    w.readManifest url tag = .ok m → m.name ∈ names ∧ m.version ∈ versions

/-- What is chosen is within the bounds. -/
structure Within (b : Bounds w) (s : ResolverState V R) : Prop where
  urls : ∀ {name e}, s.chosen.lookup name = some e → e.url ∈ b.urls
  names : ∀ {name e}, s.chosen.lookup name = some e → name ∈ b.names

def manifestsAt (w : World V R) (url : String) : List (PackageManifest V R) :=
  match w.listTags url with
  | .error _ => []
  | .ok raw => raw.filterMap fun tag => (w.readManifest url tag).toOption

omit [LinearOrder V] in
theorem mem_manifestsAt {url tag : String} {raw : List String} {m : PackageManifest V R}
    (hraw : w.listTags url = .ok raw) (htag : tag ∈ raw) (hm : w.readManifest url tag = .ok m) :
    m ∈ manifestsAt w url := by
  simp only [manifestsAt, hraw]
  refine mem_filterMap.2 ⟨tag, htag, ?_⟩
  rw [hm]
  rfl

theorem exists_within (hw : w.IsFinite) (s : ResolverState V R) : ∃ b : Bounds w, Within b s := by
  obtain ⟨urls, hurls⟩ := hw
  set all : Finset String := urls ∪ (s.chosen.entries.map fun e => e.2.url).toFinset with hall
  set manifests := all.toList.flatMap (manifestsAt w)
  have hmem : ∀ {url m}, url ∈ all → m ∈ manifestsAt w url → m ∈ manifests := by
    intro url m hurl hm; exact mem_flatMap.2 ⟨url, Finset.mem_toList.2 hurl, hm⟩
  refine ⟨⟨all, (manifests.map (·.name) ++ s.chosen.keys).toFinset,
    (manifests.map (·.version)).toFinset, ?_, ?_⟩, ?_, ?_⟩
  · intro url hfetch; exact Finset.mem_union_left _ (hurls hfetch)
  · intro url raw tag m hurl hraw htag hm; have hm' := hmem hurl (mem_manifestsAt hraw htag hm)
    constructor
    · exact mem_toFinset.2 (mem_append_left _ (mem_map_of_mem hm'))
    · exact mem_toFinset.2 (mem_map_of_mem hm')
  · intro name e he
    refine Finset.mem_union_right _ (mem_toFinset.2 ?_)
    exact mem_map_of_mem (f := fun e : Sigma fun _ : PackageName => ChosenEntry V R => e.2.url)
      (Assoc.mem_entries_iff.2 he)
  intro name e he
  refine mem_toFinset.2 (mem_append_right _ ?_)
  have hin : name ∈ s.chosen := by rw [← lookup_isSome, he]; rfl
  exact hin

def pot (b : Bounds w) (s : ResolverState V R) : ℕ := potential b.names b.versions s.versions

/-- What a raising move may add to the potential. -/
def most (b : Bounds w) : ℕ := b.names.card * b.versions.card + 1

theorem pot_lt_most (b : Bounds w) (s : ResolverState V R) : pot b s < most b :=
  lt_succ_of_le (potential_le _ _)

/-! ## Moves that raise -/

def drainTrace (w : World V R) : ℕ → ResolverState V R → List (ResolverState V R × Move V R)
  | fuel, s =>
    match s.pending with
    | [] => []
    | edge :: rest =>
      match fuel with
      | 0 => []
      | fuel + 1 =>
        (s, .pending edge) :: match processPending w { s with pending := rest } edge with
          | .error _ => []
          | .ok s => drainTrace w fuel s

def recheckTrace (w : World V R) : List PackageName → ResolverState V R →
    List (ResolverState V R × Move V R)
  | [], _ => []
  | name :: names, s =>
    (s, .recheck name) :: match s.recheckChosen w name with
      | .error _ => []
      | .ok (_, s) => recheckTrace w names s

def fixpointTrace (w : World V R) : ℕ → ResolverState V R → List (ResolverState V R × Move V R)
  | 0, _ => []
  | fuel + 1, s =>
    drainTrace w fuel s ++
      match drainPending w fuel s with
      | some (.ok s) =>
        recheckTrace w s.names s ++
          match recheckAll w s.names s with
          | .error _ => []
          | .ok (changed, s) => if !changed && s.pending.isEmpty then [] else fixpointTrace w fuel s
      | _ => []

/-- A re-check picks a lower tag, whose manifest is not of a lower version. -/
def raises (w : World V R) (s : ResolverState V R) (name : PackageName) : Bool :=
  match s.chosen.lookup name with
  | none => false
  | some e =>
    !isPinned e &&
      match s.recheckPick w name e with
      | .error _ => false
      | .ok pick =>
        decide (pick.version < e.version) &&
          match w.readManifest e.url pick.tag with
          | .error _ => false
          | .ok m => decide (e.version ≤ m.version)

def Move.raises (w : World V R) (s : ResolverState V R) : Move V R → Bool
  | .topLevel _ => false
  | .recheck name => s.raises w name
  | .pending edge =>
    match Address.parse edge.address with
    | .error _ => false
    | .ok address =>
      match s.probe w edge address with
      | .error _ => false
      | .ok (_, m) =>
        (s.chosen.lookup m.name).isSome &&
          (s.addConstraint m.name edge.source edge.constraint).raises w m.name

def raised (w : World V R) (moves : List (ResolverState V R × Move V R)) : ℕ :=
  moves.countP fun x => x.2.raises w x.1

/-! ## What a move does to the potential -/

/-- A move that changes what is chosen lowers the potential, unless it raises; one that
    does not leaves it. -/
structure Lowers (b : Bounds w) (raise changed : Bool) (s s' : ResolverState V R) : Prop where
  within : Within b s'
  accounted : pot b s' + changed.toNat ≤ pot b s + raise.toNat * most b

theorem pick_tagged {e : ChosenEntry V R}
    {pick : TagCandidate V} (h : s.recheckPick w name e = .ok pick) :
    ∃ raw, w.listTags e.url = .ok raw ∧ pick.tag ∈ raw := by
  obtain ⟨cands, hcands, hpick⟩ := recheckPick_spec h
  unfold World.candidates at hcands
  split at hcands
  · cases hcands
  rename_i raw hraw; cases hcands
  obtain ⟨tag, htag, hcand⟩ := mem_filterMap.1 ((mem_insertionSort _).1 hpick.mem)
  obtain ⟨v, _, rfl⟩ := map_eq_some_iff.1 hcand; exact ⟨raw, hraw, htag⟩

omit [LinearOrder V] in
theorem versions_choose {s : ResolverState V R} (name : PackageName) (address : Address)
    {commit : String} {m : PackageManifest V R} {pin : Option (InstallPin R)} :
    (s.choose name address commit m pin).versions = Function.update s.versions name
    (some m.version) := by
  funext name'
  rw [versions, lookup_choose]
  by_cases hname : name' = name
  · subst hname; rw [if_pos rfl, update_self]; rfl
  · rw [if_neg hname, update_of_ne hname]; rfl

omit [LinearOrder V] in
theorem Within.choose {b : Bounds w} (h : Within b s) {address : Address} (commit : String)
    (m : PackageManifest V R) (pin : Option (InstallPin R)) (hurl : address.toGitUrl ∈ b.urls)
    (hname : name ∈ b.names) : Within b (s.choose name address commit m pin) := by
  constructor
  · intro name' e he; rw [lookup_choose] at he
    split at he
    · cases he; exact hurl
    · exact h.urls he
  intro name' e he; rw [lookup_choose] at he
  split at he
  · rename_i heq; rw [heq]; exact hname
  · exact h.names he

variable {b : Bounds w}

/-- A re-check lowers the potential where it changes something, unless it raises. -/
theorem recheck_effect (h : Within b s) (hok : s.recheckChosen w name = .ok (changed, s')) :
    Lowers b (s.raises w name) changed s s' := by
  rcases recheckChosen_spec hok with ⟨rfl, rfl, -⟩ |
    ⟨rfl, e, pick, m, he, hpinned, hpick, hlower, hm, rfl⟩
  · exact ⟨h, le_self_add⟩
  obtain ⟨raw, hraw, htag⟩ := pick_tagged hpick
  have hversion := (b.tagged (h.urls he) hraw htag hm).2
  refine ⟨h.choose _ _ _ (h.urls he) (h.names he), ?_⟩
  by_cases hraise : e.version ≤ m.version
  · have htrue : s.raises w name = true := by simp [raises, he, hpinned, hpick, hlower, hm, hraise]
    rw [htrue, Bool.toNat_true, one_mul]
    have hmost := pot_lt_most b (s.choose name e.address pick.tag m e.topLevelPin)
    exact le_add_of_le_right hmost
  have hlt : pot b (s.choose name e.address pick.tag m e.topLevelPin) < pot b s := by
    rw [pot, versions_choose]
    refine potential_update_lt (h.names he) hversion ?_; intro v hv; rw [versions, he] at hv
    cases hv; exact not_le.1 hraise
  exact le_add_right_of_le hlt

/-- A processed dependency lowers the potential, unless it leaves what is chosen or raises. -/
theorem processPending_effect (h : Within b s)
    {edge : PendingEdge V R} {rest : List (PendingEdge V R)}
    (hok : processPending w { s with pending := rest } edge = .ok s') :
    ∃ changed, Lowers b ((Move.pending edge).raises w s) changed s s' ∧
      (changed = false → s'.pending = rest) := by
  obtain ⟨address, commit, m, haddress, hprobe, hmoved⟩ := processPending_spec hok
  set s₁ := { s with pending := rest }.addConstraint m.name edge.source edge.constraint with hs₁
  have hwithin : Within b s₁ := ⟨h.urls, h.names⟩; have hpot : pot b s₁ = pot b s := rfl
  rcases hmoved with ⟨e, changed, hchosen, hrecheck⟩ | ⟨hchosen, rfl⟩
  · obtain ⟨hwithin', haccounted⟩ := recheck_effect hwithin hrecheck
    have hraises : (Move.pending edge).raises w s = s₁.raises w m.name := by
      have hprobe' : s.probe w edge address = .ok (commit, m) := hprobe
      have hchosen' : s.chosen.lookup m.name = some e := hchosen
      simp only [Move.raises, haddress, hprobe', hchosen', isSome_some, Bool.true_and]; rfl
    refine ⟨changed, ⟨hwithin', ?_⟩, ?_⟩
    · rw [hraises, ← hpot]; exact haccounted
    rintro rfl
    rcases recheckChosen_spec hrecheck with ⟨_, rfl, _⟩ | ⟨hfalse, _⟩
    · rfl
    · cases hfalse
  obtain ⟨⟨⟩, hfetch, hprobe⟩ := bind_ok.1 hprobe
  obtain ⟨cands, hcands, hprobe⟩ := bind_ok.1 hprobe
  obtain ⟨pick, hpick, hprobe⟩ := bind_ok.1 hprobe; obtain ⟨m', hm, hprobe⟩ := bind_ok.1 hprobe
  cases hprobe
  have hurl : address.toGitUrl ∈ b.urls := by
    refine b.fetched ?_; unfold World.ensureRepo at hfetch
    split at hfetch
    · assumption
    · cases hfetch
  have htagged : m.name ∈ b.names ∧ m.version ∈ b.versions := by
    have hmem := (pickBestVersion_spec (candidates_sorted hcands).1 hpick).mem
    unfold World.candidates at hcands
    split at hcands
    · cases hcands
    rename_i raw hraw; cases hcands
    obtain ⟨tag, htag, hcand⟩ := mem_filterMap.1 ((mem_insertionSort _).1 hmem)
    obtain ⟨v, _, rfl⟩ := map_eq_some_iff.1 hcand; exact b.tagged hurl hraw htag hm
  refine ⟨true, ⟨hwithin.choose _ _ _ hurl htagged.1, ?_⟩, nofun⟩
  have hlt : pot b (s₁.choose m.name address pick.tag m none) < pot b s₁ := by
    rw [pot, versions_choose]
    refine potential_update_lt htagged.1 htagged.2 ?_; intro v hv
    have hnone : s₁.chosen.lookup m.name = none := hchosen
    rw [versions, hnone] at hv; cases hv
  exact le_add_right_of_le hlt

/-! ## The loops end -/

theorem drainTrace_cons {edge : PendingEdge V R}
    {rest : List (PendingEdge V R)} (hpending : s.pending = edge :: rest)
    (hok : processPending w { s with pending := rest } edge = .ok s') {fuel : ℕ} :
    drainTrace w (fuel + 1) s = (s, .pending edge) :: drainTrace w fuel s' := by
  rw [drainTrace.eq_def]
  simp only [hpending, hok]

theorem drainPending_ends {n : ℕ} (h : Within b s) (hfew : ∀ fuel,
    raised w (drainTrace w fuel s) ≤ n) : ∃ fuel r, drainPending w fuel s = some r := by
  -- the potential, with what the raising moves left may add, falls where something is chosen
  induction hk : pot b s + n * most b using Nat.strong_induction_on generalizing n s with
  | _ k ihk =>
    induction hl : s.pending.length using Nat.strong_induction_on generalizing n s with
    | _ l ihl =>
      cases hpending : s.pending with
      | nil => exact ⟨0, .ok s, by simp [drainPending, hpending]⟩
      | cons edge rest =>
        cases hok : processPending w { s with pending := rest } edge with
        | error e => exact ⟨1, .error e, by simp [drainPending, hpending, hok]⟩
        | ok s' =>
          obtain ⟨changed, ⟨hwithin, haccounted⟩, hsame⟩ := processPending_effect h hok
          set raise := (Move.pending edge).raises w s with hraise
          have hcount : ∀ fuel, raised w (drainTrace w (fuel + 1) s) =
              raised w (drainTrace w fuel s') + raise.toNat := by
            intro fuel; rw [drainTrace_cons hpending hok, raised, countP_cons, ← raised, ← hraise]
            cases raise <;> rfl
          have hn : raise.toNat ≤ n := by have hfirst := hfew 1; rw [hcount] at hfirst; omega
          have hfew' : ∀ fuel, raised w (drainTrace w fuel s') ≤ n - raise.toNat := by
            intro fuel; have hmore := hfew (fuel + 1); rw [hcount] at hmore
            omega
          have hsum : pot b s' + (n - raise.toNat) * most b + changed.toNat ≤ k := by
            have hsplit : (n - raise.toNat) * most b + raise.toNat * most b = n * most b := by
              rw [← Nat.add_mul, Nat.sub_add_cancel hn]
            omega
          have hrest : ∃ fuel r, drainPending w fuel s' = some r := by
            by_cases hlt : pot b s' + (n - raise.toNat) * most b < k
            · exact ihk _ hlt hwithin hfew' rfl
            have hchanged : changed = false := by
              cases changed with
              | false => rfl
              | true => rw [Bool.toNat_true] at hsum; omega
            have hshorter : s'.pending.length < l := by
              rw [hsame hchanged, ← hl, hpending]; exact lt_succ_self _
            have hpot : pot b s' + (n - raise.toNat) * most b = k := by omega
            exact ihl _ hshorter hwithin hfew' hpot rfl
          obtain ⟨fuel, r, hr⟩ := hrest
          exact ⟨fuel + 1, r, by simp [drainPending, hpending, hok, hr]⟩

theorem drainPending_effect (h : Within b s)
    (hok : drainPending w fuel s = some (.ok s')) : Within b s' ∧ s'.pending = [] ∧
      pot b s' ≤ pot b s + raised w (drainTrace w fuel s) * most b := by
  induction fuel generalizing s with
  | zero =>
    unfold drainPending at hok
    split at hok
    · rename_i hpending; cases hok; exact ⟨h, hpending, le_add_right _ _⟩
    · cases hok
  | succ fuel ih =>
    cases hpending : s.pending with
    | nil =>
      rw [drainPending.eq_def] at hok; simp only [hpending] at hok; cases hok
      exact ⟨h, hpending, le_add_right _ _⟩
    | cons edge rest =>
      rw [drainPending.eq_def] at hok; simp only [hpending] at hok
      cases hprocess : processPending w { s with pending := rest } edge with
      | error e => rw [hprocess] at hok; cases hok
      | ok s₁ =>
        rw [hprocess] at hok
        obtain ⟨changed, ⟨hwithin, haccounted⟩, _⟩ := processPending_effect h hprocess
        obtain ⟨hwithin', hpending', hpot⟩ := ih hwithin hok
        refine ⟨hwithin', hpending', ?_⟩
        rw [drainTrace_cons hpending hprocess, raised, countP_cons, ← raised]
        set raise := (Move.pending edge).raises w s with hraise
        have htoNat : (if raise = true then 1 else 0) = raise.toNat := by
          cases raise <;> rfl
        rw [htoNat, Nat.add_mul]; omega

theorem recheckAll_effect {names : List PackageName} (h : Within b s)
    (hok : recheckAll w names s = .ok (changed, s')) : Within b s' ∧ (changed = false → s' = s) ∧
      pot b s' + changed.toNat ≤ pot b s + raised w (recheckTrace w names s) * most b := by
  induction names generalizing s changed with
  | nil => cases hok; exact ⟨h, fun _ => rfl, le_add_right _ _⟩
  | cons name names ih =>
    obtain ⟨⟨first, s₁⟩, hrecheck, hok⟩ := bind_ok.1 hok
    obtain ⟨⟨rest, s₂⟩, hrechecks, hok⟩ := bind_ok.1 hok; cases hok
    obtain ⟨hwithin, haccounted⟩ := recheck_effect h hrecheck
    obtain ⟨hwithin', hsame, hpot⟩ := ih hwithin hrechecks
    refine ⟨hwithin', ?_, ?_⟩
    · intro hnot; rw [Bool.or_eq_false_iff] at hnot; rw [hsame hnot.2]
      rcases recheckChosen_spec hrecheck with ⟨_, heq, _⟩ | ⟨htrue, _⟩
      · exact heq
      · rw [hnot.1] at htrue; cases htrue
    have htrace : recheckTrace w (name :: names) s =
        (s, .recheck name) :: recheckTrace w names s₁ := by rw [recheckTrace, hrecheck]
    have hraise : (if (Move.recheck name).raises w s = true then 1 else 0) =
        (s.raises w name).toNat := by
      show (if s.raises w name = true then 1 else 0) = _
      cases s.raises w name <;> rfl
    have hor : (first || rest).toNat ≤ first.toNat + rest.toNat := by
      cases first <;> cases rest <;> decide
    rw [htrace, raised, countP_cons, ← raised, hraise, Nat.add_mul]; omega

/-! ## More fuel -/

theorem drainPending_succ (h : drainPending w fuel s = some r) :
    drainPending w (fuel + 1) s = some r ∧ drainTrace w (fuel + 1) s = drainTrace w fuel s := by
  induction fuel generalizing s with
  | zero =>
    cases hpending : s.pending with
    | nil =>
      rw [drainPending.eq_def] at h ⊢; rw [drainTrace.eq_def, drainTrace.eq_def]
      simp only [hpending] at h ⊢; exact ⟨h, trivial⟩
    | cons edge rest => rw [drainPending.eq_def] at h; simp only [hpending] at h; cases h
  | succ fuel ih =>
    cases hpending : s.pending with
    | nil =>
      rw [drainPending.eq_def] at h ⊢; rw [drainTrace.eq_def, drainTrace.eq_def]
      simp only [hpending] at h ⊢; exact ⟨h, trivial⟩
    | cons edge rest =>
      rw [drainPending.eq_def] at h ⊢; rw [drainTrace.eq_def, drainTrace.eq_def w (fuel + 1)]
      simp only [hpending] at h ⊢
      cases hok : processPending w { s with pending := rest } edge with
      | error e => rw [hok] at h; exact ⟨h, rfl⟩
      | ok s' =>
        rw [hok] at h; obtain ⟨hresult, htrace⟩ := ih h; simp only [htrace]
        exact ⟨hresult, trivial⟩

theorem drainTrace_grows (fuel : ℕ) (s : ResolverState V R) :
    (drainTrace w fuel s).IsPrefix (drainTrace w (fuel + 1) s) := by
  induction fuel generalizing s with
  | zero =>
    cases hpending : s.pending with
    | nil => rw [drainTrace.eq_def, drainTrace.eq_def]; simp only [hpending]; exact nil_prefix
    | cons edge rest => rw [drainTrace.eq_def]; simp only [hpending]; exact nil_prefix
  | succ fuel ih =>
    cases hpending : s.pending with
    | nil => rw [drainTrace.eq_def, drainTrace.eq_def]; simp only [hpending]; exact nil_prefix
    | cons edge rest =>
      rw [drainTrace.eq_def, drainTrace.eq_def w (fuel + 1 + 1)]; simp only [hpending]
      refine (prefix_cons_inj _).2 ?_
      cases processPending w { s with pending := rest } edge with
      | error e => exact nil_prefix
      | ok s' => exact ih s'

theorem iterateToFixpoint_succ (h : iterateToFixpoint w fuel s = some r) :
    iterateToFixpoint w (fuel + 1) s = some r ∧
      fixpointTrace w (fuel + 1) s = fixpointTrace w fuel s := by
  induction fuel generalizing s with
  | zero => cases h
  | succ fuel ih =>
    rw [iterateToFixpoint] at h ⊢; rw [fixpointTrace, fixpointTrace]
    cases hdrain : drainPending w fuel s with
    | none => rw [hdrain] at h; cases h
    | some outcome =>
      obtain ⟨hdrain', htrace⟩ := drainPending_succ hdrain; rw [hdrain] at h; rw [hdrain', htrace]
      cases outcome with
      | error e => exact ⟨h, rfl⟩
      | ok s₁ =>
        simp only at h ⊢
        cases hrecheck : recheckAll w s₁.names s₁ with
        | error e => rw [hrecheck] at h; exact ⟨h, rfl⟩
        | ok result =>
          obtain ⟨changed, s₂⟩ := result; rw [hrecheck] at h; simp only at h ⊢
          split at h
          · rename_i hdone; rw [if_pos hdone, if_pos hdone, if_pos hdone]; exact ⟨h, rfl⟩
          rename_i hdone; rw [if_neg hdone, if_neg hdone, if_neg hdone]
          obtain ⟨hresult, hrest⟩ := ih h; rw [hrest]; exact ⟨hresult, rfl⟩

theorem fixpointTrace_grows (fuel : ℕ) (s : ResolverState V R) :
    (fixpointTrace w fuel s).IsPrefix (fixpointTrace w (fuel + 1) s) := by
  induction fuel generalizing s with
  | zero => exact nil_prefix
  | succ fuel ih =>
    rw [fixpointTrace, fixpointTrace]
    cases hdrain : drainPending w fuel s with
    | none => simp only [append_nil]; exact (drainTrace_grows fuel s).trans (prefix_append _ _)
    | some outcome =>
      obtain ⟨hdrain', htrace⟩ := drainPending_succ hdrain; rw [hdrain', htrace]
      refine (prefix_append_right_inj _).2 ?_
      cases outcome with
      | error e => exact nil_prefix
      | ok s₁ =>
        refine (prefix_append_right_inj _).2 ?_
        cases recheckAll w s₁.names s₁ with
        | error e => exact nil_prefix
        | ok result =>
          obtain ⟨changed, s₂⟩ := result; simp only
          split
          · exact nil_prefix
          · exact ih s₂

/-- With more fuel, the loop has the same result and the same moves. -/
theorem iterateToFixpoint_mono (hle : fuel ≤ fuel') (h : iterateToFixpoint w fuel s = some r) :
    iterateToFixpoint w fuel' s = some r ∧ fixpointTrace w fuel' s = fixpointTrace w fuel s := by
  induction fuel', hle using le_induction with
  | base => exact ⟨h, rfl⟩
  | succ k _ ih =>
    obtain ⟨hresult, htrace⟩ := iterateToFixpoint_succ ih.1; exact ⟨hresult, htrace.trans ih.2⟩

theorem drainPending_mono (hle : fuel ≤ fuel') (h : drainPending w fuel s = some r) :
    drainPending w fuel' s = some r ∧ drainTrace w fuel' s = drainTrace w fuel s := by
  induction fuel', hle using le_induction with
  | base => exact ⟨h, rfl⟩
  | succ k _ ih =>
    obtain ⟨hresult, htrace⟩ := drainPending_succ ih.1; exact ⟨hresult, htrace.trans ih.2⟩

theorem raised_mono (hle : fuel ≤ fuel') (s : ResolverState V R) :
    raised w (fixpointTrace w fuel s) ≤ raised w (fixpointTrace w fuel' s) := by
  induction fuel', hle using le_induction with
  | base => exact le_rfl
  | succ k _ ih => exact ih.trans (fixpointTrace_grows k s).sublist.countP_le

theorem iterateToFixpoint_ends {n : ℕ} (h : Within b s) (hfew : ∀ fuel,
    raised w (fixpointTrace w fuel s) ≤ n) : ∃ fuel r, iterateToFixpoint w fuel s = some r := by
  induction hk : pot b s + n * most b using Nat.strong_induction_on generalizing n s with
  | _ k ih =>
    have hdrains : ∀ fuel, raised w (drainTrace w fuel s) ≤ n := by
      intro fuel
      refine le_trans ?_ (hfew (fuel + 1))
      exact (prefix_append _ _).sublist.countP_le
    obtain ⟨fuel, outcome, hdrain⟩ := drainPending_ends h hdrains
    cases outcome with
    | error e => exact ⟨fuel + 1, .error e, by rw [iterateToFixpoint, hdrain]⟩
    | ok s₁ =>
      obtain ⟨hwithin₁, hpending, hpot₁⟩ := drainPending_effect h hdrain
      cases hrecheck : recheckAll w s₁.names s₁ with
      | error e => exact ⟨fuel + 1, .error e, by rw [iterateToFixpoint, hdrain]; simp only [hrecheck]⟩
      | ok result =>
        obtain ⟨changed, s₂⟩ := result
        obtain ⟨hwithin₂, hsame, hpot₂⟩ := recheckAll_effect hwithin₁ hrecheck
        by_cases hdone : (!changed && s₂.pending.isEmpty) = true
        · refine ⟨fuel + 1, .ok s₂, ?_⟩; rw [iterateToFixpoint, hdrain]
          simp only [hrecheck, if_pos hdone]
        have hchanged : changed = true := by
          by_contra hnot
          rw [Bool.not_eq_true] at hnot; rw [hsame hnot, hnot, hpending] at hdone; exact hdone rfl
        set drained := raised w (drainTrace w fuel s) with hdrained
        set rechecked := raised w (recheckTrace w s₁.names s₁) with hrechecked
        have hcount : ∀ more, fuel ≤ more → raised w (fixpointTrace w (more + 1) s) =
            drained + (rechecked + raised w (fixpointTrace w more s₂)) := by
          intro more hle; obtain ⟨hdrain', htrace⟩ := drainPending_mono hle hdrain
          rw [fixpointTrace, hdrain', htrace]
          simp only [hrecheck, if_neg hdone, raised, countP_append]; rfl
        have hsum : drained + rechecked ≤ n := by
          have hmore := hfew (fuel + 1); rw [hcount fuel (le_refl _)] at hmore; omega
        have hfew₂ : ∀ more, raised w (fixpointTrace w more s₂) ≤ n - (drained + rechecked) := by
          intro more; have hmore := hfew (max fuel more + 1)
          rw [hcount _ (le_max_left _ _)] at hmore
          have hmono := raised_mono (w := w) (le_max_right fuel more) s₂; omega
        have hlt : pot b s₂ + (n - (drained + rechecked)) * most b < k := by
          have hsplit : (n - (drained + rechecked)) * most b + (drained + rechecked) * most b =
              n * most b := by rw [← Nat.add_mul, Nat.sub_add_cancel hsum]
          rw [hchanged, Bool.toNat_true] at hpot₂; rw [Nat.add_mul] at hsplit; omega
        obtain ⟨fuel₂, r, hr⟩ := ih _ hlt hwithin₂ hfew₂ rfl
        refine ⟨max fuel fuel₂ + 1, r, ?_⟩
        rw [iterateToFixpoint, (drainPending_mono (le_max_left _ _) hdrain).1]
        simp only [hrecheck, if_neg hdone]
        exact (iterateToFixpoint_mono (le_max_right _ _) hr).1

/-! ## Worlds whose tags are not below their manifests -/

section
variable {I : List (ResolveRequest R) → ResolverState V R → Prop} {reqs : List (ResolveRequest R)}
  (hsteps : Steps w I)
include hsteps

theorem drainTrace_steps (h : I reqs s) : ∀ x ∈ drainTrace w fuel s, I reqs x.1 := by
  induction fuel generalizing s with
  | zero =>
    rw [drainTrace.eq_def]
    cases hpending : s.pending <;> simp only [hpending] <;> exact forall_mem_nil _
  | succ fuel ih =>
    rw [drainTrace.eq_def]
    cases hpending : s.pending with
    | nil => simp only [hpending]; exact forall_mem_nil _
    | cons edge rest =>
      simp only [hpending]
      refine forall_mem_cons.2 ⟨h, ?_⟩
      cases hprocess : processPending w { s with pending := rest } edge with
      | error e => exact forall_mem_nil _
      | ok s₁ => exact ih (processed_steps hsteps h hpending hprocess)

theorem recheckTrace_steps {names : List PackageName} (h : I reqs s) :
    ∀ x ∈ recheckTrace w names s, I reqs x.1 := by
  induction names generalizing s with
  | nil => exact forall_mem_nil _
  | cons name names ih =>
    rw [recheckTrace]
    refine forall_mem_cons.2 ⟨h, ?_⟩
    cases hrecheck : s.recheckChosen w name with
    | error e => exact forall_mem_nil _
    | ok result => exact ih (recheckChosen_steps hsteps h hrecheck)

/-- What the moves keep holds before every move of the loop. -/
theorem fixpointTrace_steps (h : I reqs s) : ∀ x ∈ fixpointTrace w fuel s, I reqs x.1 := by
  induction fuel generalizing s with
  | zero => exact forall_mem_nil _
  | succ fuel ih =>
    rw [fixpointTrace]
    refine List.forall_mem_append.2 ⟨drainTrace_steps hsteps h, ?_⟩
    split
    · rename_i s₁ hdrain; have h₁ := (drainPending_steps hsteps h hdrain).1
      refine List.forall_mem_append.2 ⟨recheckTrace_steps hsteps h₁, ?_⟩
      split
      · exact forall_mem_nil _
      rename_i hrecheck
      split
      · exact forall_mem_nil _
      · exact ih (recheckAll_steps hsteps h₁ hrecheck)
    · exact forall_mem_nil _

end

/-- What is chosen or waits is at clone URLs of `urls`. -/
structure Reaches (urls : Set String) (s : ResolverState V R) : Prop where
  chosen : ∀ name e, s.chosen.lookup name = some e → e.url ∈ urls
  pending : ∀ edge ∈ s.pending, ∀ a, Address.parse edge.address = .ok a → a.toGitUrl ∈ urls

variable {urls : Set String}

theorem Reaches.choose {address : Address} {commit : String} {m : PackageManifest V R}
    {pin : Option (InstallPin R)} (h : Reaches urls s) (htagged : w.TaggedWithin urls)
    (hchosen : s'.chosen = s.chosen) (hpending : ∀ edge ∈ s'.pending, edge ∈ s.pending)
    (hurl : address.toGitUrl ∈ urls) (hm : w.readManifest address.toGitUrl commit = .ok m) :
    Reaches urls (s'.choose name address commit m pin) := by
  refine ⟨fun name' e he => ?_, fun edge hedge a ha => ?_⟩
  · rw [lookup_choose, hchosen] at he
    split at he
    · cases he; exact hurl
    · exact h.chosen name' e he
  rcases List.mem_append.1 hedge with hedge | hedge
  · exact h.pending edge (hpending edge hedge) a ha
  · obtain ⟨dep, hdep, rfl⟩ := List.mem_map.1 hedge
    exact htagged.dependencies _ hurl commit m hm dep hdep a ha

theorem Reaches.recheckChosen (h : Reaches urls s) (htagged : w.TaggedWithin urls)
    (hok : s.recheckChosen w name = .ok (changed, s')) : Reaches urls s' := by
  rcases recheckChosen_spec hok with ⟨-, rfl, -⟩ | ⟨-, e, pick, m, he, -, -, -, hm, rfl⟩
  · exact h
  · exact h.choose htagged rfl (fun _ hedge => hedge) (h.chosen name e he) hm

/-- Requests of `urls` come to no other clone URLs. -/
theorem reaches_steps (htagged : w.TaggedWithin urls) : Steps w fun reqs s =>
    (∀ req ∈ reqs, req.address.toGitUrl ∈ urls) → Reaches urls s := by
  intro reqs s m s' h henabled hok hreqs
  cases m with
  | topLevel req =>
    obtain ⟨commit, m, hrevision, -, rfl⟩ := addTopLevel_spec hok
    obtain ⟨hm, -, -⟩ := topLevelRevision_spec hrevision
    have hold : Reaches urls s := h fun req' hreq' => hreqs req' (List.mem_append_left _ hreq')
    refine hold.choose htagged ?_ ?_ (hreqs req (by simp [Move.after])) hm
    · unfold recorded; cases req.pin <;> rfl
    · unfold recorded; cases req.pin <;> exact fun _ hedge => hedge
  | pending edge =>
    obtain ⟨rest, hpending⟩ : ∃ rest, s.pending = edge :: rest := head?_eq_some_iff.1 henabled
    have hold : Reaches urls s := h hreqs; have hwaits := hold.pending
    rw [perform, hpending] at hok; rw [hpending] at hwaits
    obtain ⟨address, commit, m, haddress, hprobe, hmoved⟩ := processPending_spec hok
    obtain ⟨-, -, -, -, hm, -, -⟩ := probe_spec hprobe
    have hadded : Reaches urls (addConstraint { s with pending := rest } m.name edge.source
        edge.constraint) :=
      ⟨hold.chosen, fun edge' hedge' => hwaits edge' (mem_cons_of_mem _ hedge')⟩
    rcases hmoved with ⟨e, changed, -, hrechecked⟩ | ⟨-, rfl⟩
    · exact hadded.recheckChosen htagged hrechecked
    · exact hadded.choose htagged rfl (fun _ hedge => hedge)
        (hwaits edge mem_cons_self address haddress) hm
  | recheck name =>
    rw [perform] at hok
    cases hrecheck : s.recheckChosen w name with
    | error e => rw [hrecheck] at hok; cases hok
    | ok result => rw [hrecheck] at hok; cases hok; exact (h hreqs).recheckChosen htagged hrecheck

/-- Where no tag that may be picked carries a manifest of a higher version, no move raises. -/
theorem raises_eq_false (htagged : w.TaggedWithin urls) (h : Reaches urls s) (m : Move V R) :
    m.raises w s = false := by
  have hname : ∀ s : ResolverState V R, Reaches urls s → ∀ name, s.raises w name = false := by
    intro s h name; unfold raises
    split
    · rfl
    rename_i e he; rw [Bool.and_eq_false_iff]; right
    split
    · rfl
    rename_i pick hpick; rw [Bool.and_eq_false_iff]
    by_cases hlower : pick.version < e.version
    · right
      split
      · rfl
      rename_i m hm; obtain ⟨raw, hraw, htag⟩ := pick_tagged hpick
      obtain ⟨cands, hcands, hpicked⟩ := recheckPick_spec hpick
      obtain ⟨m', hm', hallows⟩ := hpicked.compatible; rw [hm] at hm'; cases hm'
      have hversion := (candidates_sorted hcands).2 pick hpicked.mem
      have hle := htagged.tagged e.url (h.chosen name e he) raw pick.tag pick.version m hraw htag
        hversion hm hallows
      exact decide_eq_false (not_le.2 (hle.trans_lt hlower))
    · exact .inl (decide_eq_false hlower)
  cases m with
  | topLevel req => rfl
  | recheck name => exact hname s h name
  | pending edge =>
    simp only [Move.raises]
    split
    · rfl
    split
    · rfl
    · rename_i m _; rw [hname (s.addConstraint m.name edge.source edge.constraint)
        ⟨h.chosen, h.pending⟩, Bool.and_false]

/-- **Whether a resolve comes to an end**: in a finite world the loop ends exactly where only
    so many of its moves replace a package by one that is not of a lower version. It does where no
    tag carries a manifest of a higher version, for which only the tags count that the requests
    lead to and whose manifests allow the running version. -/
theorem iterateToFixpoint_ends_iff (hw : w.IsFinite) (s : ResolverState V R) :
    ((∃ fuel r, iterateToFixpoint w fuel s = some r) ↔
      ∃ n, ∀ fuel, raised w (fixpointTrace w fuel s) ≤ n) ∧
    ((∀ {url raw tag v m}, w.listTags url = .ok raw → tag ∈ raw →
        parseTagAsVersion w tag = some v → w.readManifest url tag = .ok m → m.version ≤ v) →
      ∃ fuel r, iterateToFixpoint w fuel s = some r) ∧
    ∀ (urls : Set String) (requests : List (ResolveRequest R)) (prefer : Assoc String V),
      (∀ req ∈ requests, req.address.toGitUrl ∈ urls) → w.TaggedWithin urls →
        addAll w requests { new with preferVersions := prefer } = .ok s →
          ∃ fuel r, iterateToFixpoint w fuel s = some r := by
  obtain ⟨b, hb⟩ := exists_within hw s
  have hends : ∀ urls : Set String, w.TaggedWithin urls → Reaches urls s →
      ∃ fuel r, iterateToFixpoint w fuel s = some r := by
    intro urls htagged hreaches
    have hnone : ∀ fuel, raised w (fixpointTrace w fuel s) ≤ 0 := by
      intro fuel
      refine le_of_eq (countP_eq_zero.2 fun x hx => ?_)
      have hbefore := @fixpointTrace_steps _ _ _ w s fuel _ [] (reaches_steps htagged)
        (fun _ => hreaches) x hx nofun
      rw [raises_eq_false htagged hbefore]; exact Bool.false_ne_true
    exact iterateToFixpoint_ends hb hnone
  refine ⟨⟨?_, ?_⟩, ?_, ?_⟩
  · rintro ⟨fuel, r, h⟩
    refine ⟨raised w (fixpointTrace w fuel s), fun fuel' => ?_⟩
    rcases le_total fuel fuel' with hle | hle
    · rw [(iterateToFixpoint_mono hle h).2]
    · exact raised_mono hle s
  · rintro ⟨n, hfew⟩; exact iterateToFixpoint_ends hb hfew
  · intro htagged
    refine hends Set.univ ⟨fun _ _ _ _ _ _ _ _ _ => trivial, fun _ _ _ _ _ _ hraw htag hv hm _ => ?_⟩
      ⟨fun _ _ _ => trivial, fun _ _ _ _ => trivial⟩
    exact htagged hraw htag hv hm
  intro urls requests prefer hrequests htagged hadd
  have hnew : (∀ req ∈ ([] : List (ResolveRequest R)), req.address.toGitUrl ∈ urls) →
      Reaches urls ({ new with preferVersions := prefer } : ResolverState V R) :=
    fun _ => ⟨nofun, nofun⟩
  exact hends urls htagged (addAll_steps (reaches_steps htagged) hnew hadd hrequests)

/-- A repository whose one tag, `v1.0.0`, carries a manifest of version `v`. -/
def oneTag (v : ℕ) : World ℕ ℕ where
  fetch url := if url = "app" then .ok () else .error "unknown repository"
  listTags _ := .ok ["v1.0.0"]
  resolve _ _ := .error "unknown revision"
  showBlob _ _ := .manifest ⟨"app", v, 0, [], []⟩
  pmacsVersion := 1
  parseVersion s := if s = "1.0.0" then some 1 else none
  reqMatches r v := decide (r ≤ v)
  star := 0

theorem oneTag_isFinite (v : ℕ) : (oneTag v).IsFinite := by
  refine ⟨{"app"}, ?_⟩
  intro url hfetch
  rw [Finset.mem_singleton]
  by_contra hne
  simp [oneTag, hne] at hfetch

/-- The state once the package of `oneTag` was asked for. -/
def appChosen (v : ℕ) : ResolverState ℕ ℕ where
  chosen := AList.insert "app" ⟨.url "app", "v1.0.0", v, ⟨"app", v, 0, [], []⟩, some (.version 1)⟩ ∅
  constraints := AList.insert "app" [(.topLevel, 1)] ∅
  conflicts := []
  pending := []
  preferVersions := ∅

theorem iterateToFixpoint_ends_tagged :
    ∃ fuel r, iterateToFixpoint (oneTag 1) fuel (appChosen 1) = some r := by
  refine (iterateToFixpoint_ends_iff (oneTag_isFinite 1) (appChosen 1)).2.1 ?_
  intro url raw tag v m _ _ hv hm
  cases hm
  unfold parseTagAsVersion at hv
  simp only [oneTag] at hv
  split at hv
  · cases hv; exact le_rfl
  · cases hv

/-- **A tag below its manifest's version**: the loop never ends. -/
theorem mistagged_never_ends :
    new.addAll (oneTag 2) [⟨.url "app", .version 1⟩] = .ok (appChosen 2) ∧
      ∀ fuel, iterateToFixpoint (oneTag 2) fuel (appChosen 2) = none := by
  have hrecheck : recheckAll (oneTag 2) (appChosen 2).names (appChosen 2) =
      .ok (true, appChosen 2) := rfl
  refine ⟨rfl, fun fuel => ?_⟩
  induction fuel with
  | zero => rfl
  | succ fuel ih =>
    have hdrain : drainPending (oneTag 2) fuel (appChosen 2) = some (.ok (appChosen 2)) := by
      cases fuel <;> rfl
    rw [iterateToFixpoint, hdrain]; exact ih

end ResolverState

end Pmacs
