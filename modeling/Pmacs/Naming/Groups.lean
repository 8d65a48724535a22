/-
  What a group of the naming index keeps.

  * `Group.Ok`: the counts, ids and names of a group are those of its paths.
  * `shareAll_spec`, `unshareAll_spec`: what a path's names change, and mark.
  * `Group.Ok.newPath`, `Group.Ok.dropPath`, `Group.Ok.setDepth`: it is kept.
-/
import Pmacs.Naming.Registry
import Pmacs.Naming.PathNames

namespace Pmacs.Naming

open Lib AList List Option

/-! ## The paths that have a name -/

/-- The ids of the paths that have a name among theirs. -/
def idsOf (paths : Assoc BufferName GroupPath) (name : BufferName) : List ℕ :=
  paths.entries.filterMap fun e => if name ∈ e.2.path.names then some e.2.id else none

variable {name : BufferName}

theorem idsOf_insert (paths : Assoc BufferName GroupPath) (whole : BufferName) (e : GroupPath) : idsOf (paths.insert whole e) name =
      if name ∈ e.path.names then e.id :: idsOf (paths.erase whole) name
      else idsOf (paths.erase whole) name := by
  unfold idsOf
  rw [Assoc.entries_insert, filterMap_cons]
  split <;> simp_all

variable {paths : Assoc BufferName GroupPath}

theorem idsOf_lookup {whole : BufferName} {e : GroupPath}
    (h : paths.lookup whole = some e) (name : BufferName) :
    (idsOf paths name).Perm (if name ∈ e.path.names then e.id :: idsOf (paths.erase whole) name
      else idsOf (paths.erase whole) name) := by
  rw [← idsOf_insert]
  exact (Assoc.entries_perm_of_lookup h).filterMap _

theorem mem_idsOf {i : ℕ} : i ∈ idsOf paths name ↔
      ∃ whole e, paths.lookup whole = some e ∧ name ∈ e.path.names ∧ e.id = i := by
  unfold idsOf
  rw [mem_filterMap]
  constructor
  · rintro ⟨⟨whole, e⟩, he, hi⟩
    split at hi
    · cases hi; exact ⟨whole, e, Assoc.mem_entries_iff.1 he, ‹_›, rfl⟩
    · cases hi
  rintro ⟨whole, e, he, hname, rfl⟩
  exact ⟨⟨whole, e⟩, Assoc.mem_entries_iff.2 he, by simp [hname]⟩

/-! ## Sharing names -/

section
variable (groupName : BufferName) (pathId : ℕ)

/-- What sharing or unsharing names does: only the counts of these names change, as `count`
    says, and marks are added. -/
structure Recounted (group : Group) (dirty : Dirty) (names : List BufferName)
    (count : Option (ℕ × ℕ) → Option (ℕ × ℕ)) (s : Group × Dirty) : Prop where
  paths : s.1.paths = group.paths
  named : s.1.named = group.named
  byId : s.1.byId = group.byId
  shared : ∀ n, s.1.shared.lookup n =
    if n ∈ names then count (group.shared.lookup n) else group.shared.lookup n
  dirty : ∀ k ∈ dirty, k ∈ s.2

theorem Recounted.nil (group : Group) (dirty : Dirty) (count : Option (ℕ × ℕ) → Option (ℕ × ℕ)) :
    Recounted group dirty [] count (group, dirty) :=
  ⟨rfl, rfl, rfl, fun _ => by simp, fun _ h => h⟩

theorem Recounted.cons {group group' : Group} {dirty dirty' : Dirty}
    {names : List BufferName} {count : Option (ℕ × ℕ) → Option (ℕ × ℕ)} {s : Group × Dirty}
    (hone : Recounted group dirty [name] count (group', dirty'))
    (hrest : Recounted group' dirty' names count s) (hname : name ∉ names) :
    Recounted group dirty (name :: names) count s := by
  refine ⟨hrest.paths.trans hone.paths, hrest.named.trans hone.named,
    hrest.byId.trans hone.byId, fun n => ?_, fun k hk => hrest.dirty k (hone.dirty k hk)⟩
  rw [hrest.shared, hone.shared]
  by_cases hn : n = name
  · subst hn; simp [hname]
  · simp [hn]

theorem share_recounted (group : Group) (dirty : Dirty) (name : BufferName) :
    Recounted group dirty [name] (fun c => some (tallyAdd c pathId))
      (group.share groupName pathId dirty name) := by
  refine ⟨rfl, rfl, rfl, fun n => ?_, fun k hk => ?_⟩
  · unfold Group.share
    by_cases hn : n = name
    · subst hn; simp
    · simp [lookup_insert_ne hn, hn]
  unfold Group.share; simp only
  split
  · split
    · exact mem_insert_of_mem hk
    · exact hk
  · exact hk

theorem shareAll_spec : ∀ {names : List BufferName} {group : Group} {dirty : Dirty},
    names.Nodup → Recounted group dirty names (fun c => some (tallyAdd c pathId))
      (group.shareAll groupName pathId dirty names)
  | [], _, _, _ => .nil _ _ _
  | name :: names, group, dirty, hnodup => by
    rw [nodup_cons] at hnodup
    exact (share_recounted groupName pathId group dirty name).cons (shareAll_spec hnodup.2) hnodup.1

/-- A path that had a name to itself, and is shown by it, is marked when it is shared. -/
theorem shareAll_marks : ∀ {names : List BufferName} {group : Group} {dirty : Dirty},
    names.Nodup → ∀ {n other : BufferName}, n ∈ names →
      (tallyAdd (group.shared.lookup n) pathId).1 = 2 → group.named.lookup n = some other →
      (groupName, other) ∈ (group.shareAll groupName pathId dirty names).2
  | [], _, _, _, _, _, hn, _, _ => absurd hn not_mem_nil
  | name :: names, group, dirty, hnodup, n, other, hn, htwo, hnamed => by
    rw [nodup_cons] at hnodup; have hone := share_recounted groupName pathId group dirty name
    have hcons : group.shareAll groupName pathId dirty (name :: names) =
        (group.share groupName pathId dirty name).1.shareAll groupName pathId
          (group.share groupName pathId dirty name).2 names := rfl
    rw [hcons]
    by_cases heq : n = name
    · subst heq
      refine (shareAll_spec groupName pathId hnodup.2).dirty _ ?_; unfold Group.share; simp only
      rw [if_pos htwo, hnamed]; exact mem_insert_self
    refine shareAll_marks hnodup.2 ((mem_cons.1 hn).resolve_left heq) ?_ ?_
    · rw [hone.shared, if_neg (by simpa using heq)]; exact htwo
    · exact hnamed

def uncount (pathId : ℕ) (c : Option (ℕ × ℕ)) : Option (ℕ × ℕ) :=
  c.bind fun t => if (tallyRemove t pathId).1 = 0 then none else some (tallyRemove t pathId)

theorem unshare_recounted (group : Group) (dirty : Dirty) (name : BufferName) :
    Recounted group dirty [name] (uncount pathId) (group.unshare groupName pathId dirty name) := by
  unfold Group.unshare
  cases hshared : group.shared.lookup name with
  | none =>
    refine ⟨rfl, rfl, rfl, fun n => ?_, fun k hk => hk⟩
    by_cases hn : n = name
    · subst hn; simp [hshared, uncount]
    · simp [hn]
  | some t =>
    simp only
    split
    · rename_i hzero
      refine ⟨rfl, rfl, rfl, fun n => ?_, fun k hk => hk⟩
      by_cases hn : n = name
      · subst hn; simp [hshared, uncount, hzero]
      · simp [lookup_erase_ne hn, hn]
    rename_i hzero
    refine ⟨rfl, rfl, rfl, fun n => ?_, fun k hk => ?_⟩
    · by_cases hn : n = name
      · subst hn; simp [hshared, uncount, hzero]
      · simp [lookup_insert_ne hn, hn]
    split
    · split
      · exact mem_insert_of_mem hk
      · exact hk
    · exact hk

theorem unshareAll_spec : ∀ {names : List BufferName} {group : Group} {dirty : Dirty},
    names.Nodup → Recounted group dirty names (uncount pathId)
      (group.unshareAll groupName pathId dirty names)
  | [], _, _, _ => .nil _ _ _
  | name :: names, group, dirty, hnodup => by
    rw [nodup_cons] at hnodup
    exact (unshare_recounted groupName pathId group dirty name).cons (unshareAll_spec hnodup.2) hnodup.1

theorem unshareAll_marks : ∀ {names : List BufferName} {group : Group} {dirty : Dirty},
    names.Nodup → ∀ {n other : BufferName} {i : ℕ}, n ∈ names →
      uncount pathId (group.shared.lookup n) = some (1, i) → group.byId.lookup i = some other →
      (groupName, other) ∈ (group.unshareAll groupName pathId dirty names).2
  | [], _, _, _, _, _, _, hn, _, _ => absurd hn not_mem_nil
  | name :: names, group, dirty, hnodup, n, other, i, hn, hone', hid => by
    rw [nodup_cons] at hnodup; have hone := unshare_recounted groupName pathId group dirty name
    have hcons : group.unshareAll groupName pathId dirty (name :: names) =
        (group.unshare groupName pathId dirty name).1.unshareAll groupName pathId
          (group.unshare groupName pathId dirty name).2 names := rfl
    rw [hcons]
    by_cases heq : n = name
    · subst heq
      refine (unshareAll_spec groupName pathId hnodup.2).dirty _ ?_; unfold uncount at hone'
      obtain ⟨t, ht, hcount⟩ := bind_eq_some_iff.1 hone'
      split at hcount
      · cases hcount
      rename_i hzero; rw [some.injEq] at hcount; unfold Group.unshare
      have hid' : group.byId.lookup (tallyRemove t pathId).2 = some other := by
        rw [hcount]; exact hid
      simp [ht, hcount, hid']
    have hid' : (group.unshare groupName pathId dirty name).1.byId.lookup i = some other := by
      rw [hone.byId, hid]
    refine unshareAll_marks hnodup.2 ((mem_cons.1 hn).resolve_left heq) ?_ hid'
    rw [hone.shared, if_neg (by simpa using heq)]; exact hone'

end

/-! ## Groups that are right -/

/-- A group keeps the counts, ids and names of its paths. -/
structure Group.Ok (group : Group) (groupName : BufferName) (nextPath : ℕ) : Prop where
  key : ∀ whole e, group.paths.lookup whole = some e →
    e.path.whole = whole ∧ e.path.group = groupName
  fresh : ∀ whole e, group.paths.lookup whole = some e → e.id < nextPath
  depth : ∀ whole e d, group.paths.lookup whole = some e → e.depth = some d →
    d < e.path.names.length
  byId : ∀ i whole, group.byId.lookup i = some whole ↔
    ∃ e, group.paths.lookup whole = some e ∧ e.id = i
  shared : ∀ n, group.shared.lookup n = tally (idsOf group.paths n)
  named : ∀ n whole, group.named.lookup n = some whole ↔
    ∃ e d, group.paths.lookup whole = some e ∧ e.depth = some d ∧ e.path.name d = n

theorem idsOf_erase_of_none {whole : BufferName} (h : paths.lookup whole = none) :
    idsOf (paths.erase whole) name = idsOf paths name := by
  have herase : (paths.erase whole).entries = paths.entries :=
    kerase_of_notMem_keys (lookup_eq_none.1 h)
  rw [idsOf, herase, idsOf]

theorem Group.ok_default (groupName : BufferName) (nextPath : ℕ) :
    Group.default.Ok groupName nextPath := by
  refine ⟨?_, ?_, ?_, ?_, fun n => rfl, ?_⟩ <;> intros <;> simp_all [Group.default]

namespace Group.Ok

variable {group : Group} {groupName : BufferName} {nextPath : ℕ} (ok : group.Ok groupName nextPath)
include ok

theorem mono {nextPath' : ℕ} (h : nextPath ≤ nextPath') : group.Ok groupName nextPath' :=
  { ok with fresh := fun whole e he => lt_of_lt_of_le (ok.fresh whole e he) h }

variable {w : BufferName}

theorem id_injective {w' : BufferName} {e e' : GroupPath} (he : group.paths.lookup w = some e)
    (he' : group.paths.lookup w' = some e') (hid : e.id = e'.id) : w = w' := by
  have h := (ok.byId e.id w).2 ⟨e, he, rfl⟩
  have h' := (ok.byId e.id w').2 ⟨e', he', hid.symm⟩
  rwa [h, some.injEq] at h'

theorem setHolders {whole : BufferName} {e : GroupPath} (he : group.paths.lookup whole = some e)
    (holders : List (ℕ × BufferId)) :
    ({ group with paths := group.paths.insert whole { e with holders := holders } } : Group).Ok
      groupName nextPath := by
  have hlookup (w : BufferName) (e' : GroupPath) :
      (group.paths.insert whole { e with holders := holders }).lookup w = some e' →
        ∃ e₀, group.paths.lookup w = some e₀ ∧ e'.id = e₀.id ∧ e'.path = e₀.path ∧
          e'.depth = e₀.depth := by
    intro h
    by_cases hw : w = whole
    · subst hw; rw [lookup_insert, some.injEq] at h; subst h
      exact ⟨e, he, rfl, rfl, rfl⟩
    · rw [lookup_insert_ne hw] at h; exact ⟨e', h, rfl, rfl, rfl⟩
  have hlookup' (w : BufferName) (e₀ : GroupPath) : group.paths.lookup w = some e₀ →
      ∃ e', (group.paths.insert whole { e with holders := holders }).lookup w = some e' ∧
        e'.id = e₀.id ∧ e'.path = e₀.path ∧ e'.depth = e₀.depth := by
    intro h
    by_cases hw : w = whole
    · subst hw; rw [he, some.injEq] at h; subst h
      exact ⟨_, lookup_insert _, rfl, rfl, rfl⟩
    · exact ⟨e₀, by rw [lookup_insert_ne hw, h], rfl, rfl, rfl⟩
  refine ⟨fun w e' h => ?_, fun w e' h => ?_, fun w e' d h hd => ?_, fun i w => ?_, fun n => ?_,
    fun n w => ?_⟩
  · obtain ⟨e₀, h₀, -, hpath, -⟩ := hlookup w e' h; rw [hpath]; exact ok.key w e₀ h₀
  · obtain ⟨e₀, h₀, hid, -⟩ := hlookup w e' h; rw [hid]; exact ok.fresh w e₀ h₀
  · obtain ⟨e₀, h₀, -, hpath, hdepth⟩ := hlookup w e' h; rw [hpath]
    exact ok.depth w e₀ d h₀ (hdepth ▸ hd)
  · rw [ok.byId]
    constructor
    · rintro ⟨e₀, h₀, rfl⟩; obtain ⟨e', h', hid, -⟩ := hlookup' w e₀ h₀; exact ⟨e', h', hid⟩
    · rintro ⟨e', h', rfl⟩; obtain ⟨e₀, h₀, hid, -⟩ := hlookup w e' h'; exact ⟨e₀, h₀, hid.symm⟩
  · rw [ok.shared, idsOf_insert]
    exact tally_perm (idsOf_lookup he n)
  rw [ok.named]
  constructor
  · rintro ⟨e₀, d, h₀, hd, hn⟩; obtain ⟨e', h', -, hpath, hdepth⟩ := hlookup' w e₀ h₀
    exact ⟨e', d, h', hdepth ▸ hd, hpath ▸ hn⟩
  rintro ⟨e', d, h', hd, hn⟩; obtain ⟨e₀, h₀, -, hpath, hdepth⟩ := hlookup w e' h'
  exact ⟨e₀, d, h₀, hdepth ▸ hd, hpath ▸ hn⟩

theorem newPath {path : NamePath} (hgroup : path.group = groupName)
    (hnone : group.paths.lookup path.whole = none) (holder : ℕ × BufferId) (dirty : Dirty) :
    (group.newPath nextPath path holder dirty).1.Ok groupName (nextPath + 1) := by
  have hrec := @shareAll_spec path.group nextPath path.names group dirty path.nodup_names
  have hpaths : (group.newPath nextPath path holder dirty).1.paths =
      group.paths.insert path.whole ⟨nextPath, path, [holder], none⟩ := by
    rw [← hrec.paths]; rfl
  have hlookup (w : BufferName) (e : GroupPath) :
      (group.newPath nextPath path holder dirty).1.paths.lookup w = some e ↔
        (w = path.whole ∧ e = ⟨nextPath, path, [holder], none⟩) ∨
          (w ≠ path.whole ∧ group.paths.lookup w = some e) := by
    rw [hpaths]
    by_cases hw : w = path.whole
    · subst hw; simp [eq_comm]
    · simp [lookup_insert_ne hw, hw]
  refine ⟨fun w e h => ?_, fun w e h => ?_, fun w e d h hd => ?_, fun i w => ?_, fun n => ?_,
    fun n w => ?_⟩
  · rcases (hlookup w e).1 h with ⟨rfl, rfl⟩ | ⟨-, h⟩
    · exact ⟨rfl, hgroup⟩
    · exact ok.key w e h
  · rcases (hlookup w e).1 h with ⟨rfl, rfl⟩ | ⟨-, h⟩
    · exact Nat.lt_succ_self _
    · exact Nat.lt_succ_of_lt (ok.fresh w e h)
  · rcases (hlookup w e).1 h with ⟨rfl, rfl⟩ | ⟨-, h⟩
    · cases hd
    · exact ok.depth w e d h hd
  · have hid : (group.newPath nextPath path holder dirty).1.byId =
        group.byId.insert nextPath path.whole := by
      rw [← hrec.byId]; rfl
    rw [hid]
    by_cases hi : i = nextPath
    · subst hi; rw [lookup_insert, some.injEq]
      constructor
      · rintro rfl; exact ⟨_, (hlookup _ _).2 (.inl ⟨rfl, rfl⟩), rfl⟩
      rintro ⟨e, h, he⟩
      rcases (hlookup w e).1 h with ⟨rfl, -⟩ | ⟨-, h⟩
      · rfl
      · exact absurd he (ne_of_lt (ok.fresh w e h))
    rw [lookup_insert_ne hi, ok.byId]
    constructor
    · rintro ⟨e, h, he⟩
      refine ⟨e, (hlookup w e).2 (.inr ⟨?_, h⟩), he⟩; rintro rfl; rw [hnone] at h
      cases h
    rintro ⟨e, h, he⟩
    rcases (hlookup w e).1 h with ⟨-, rfl⟩ | ⟨-, h⟩
    · exact absurd he.symm hi
    · exact ⟨e, h, he⟩
  · have hshared : (group.newPath nextPath path holder dirty).1.shared.lookup n =
        if n ∈ path.names then some (tallyAdd (group.shared.lookup n) nextPath)
        else group.shared.lookup n := hrec.shared n
    rw [hshared, hpaths, idsOf_insert, idsOf_erase_of_none hnone, ok.shared]
    split
    · exact (tally_cons _ _).symm
    · rfl
  have hnamed : (group.newPath nextPath path holder dirty).1.named = group.named := hrec.named
  rw [hnamed, ok.named]
  constructor
  · rintro ⟨e, d, h, hd, hn⟩
    refine ⟨e, d, (hlookup w e).2 (.inr ⟨?_, h⟩), hd, hn⟩; rintro rfl; rw [hnone] at h
    cases h
  rintro ⟨e, d, h, hd, hn⟩
  rcases (hlookup w e).1 h with ⟨-, rfl⟩ | ⟨-, h⟩
  · cases hd
  · exact ⟨e, d, h, hd, hn⟩

omit ok in
theorem dropPath_eq {whole : BufferName} {e : GroupPath} (dirty : Dirty) :
    ∃ group' : Group, group.dropPath (groupName, whole) e dirty =
        group'.unshareAll groupName e.id dirty e.path.names ∧
      group'.paths = group.paths.erase whole ∧ group'.byId = group.byId.erase e.id ∧
      group'.shared = group.shared := by
  refine ⟨_, rfl, ?_⟩
  cases hd : e.depth with
  | none => exact ⟨rfl, rfl, rfl⟩
  | some d =>
    simp only
    split <;> exact ⟨rfl, rfl, rfl⟩

omit ok in
theorem dropPath_spec {whole : BufferName} {e : GroupPath} (dirty : Dirty) :
    (group.dropPath (groupName, whole) e dirty).1.paths = group.paths.erase whole ∧
      ∀ k ∈ dirty, k ∈ (group.dropPath (groupName, whole) e dirty).2 := by
  obtain ⟨group', heq, hpaths, -⟩ := @dropPath_eq group groupName whole e dirty
  have hrec := @unshareAll_spec groupName e.id e.path.names group' dirty e.path.nodup_names
  rw [heq]
  exact ⟨hrec.paths.trans hpaths, hrec.dirty⟩

omit ok in
theorem uncount_tally (i : ℕ) (ids : List ℕ) : uncount i (tally (i :: ids)) = tally ids := by
  rw [tally_cons, uncount, bind_some, tallyRemove_tallyAdd]
  cases ids with
  | nil => rfl
  | cons j ids => simp [tally]

theorem dropPath {whole : BufferName} {e : GroupPath} (he : group.paths.lookup whole = some e)
    (dirty : Dirty) : (group.dropPath (groupName, whole) e dirty).1.Ok groupName nextPath := by
  -- the name the path was shown by
  have hnamed' (d : ℕ) (hd : e.depth = some d) :
      group.named.lookup (e.path.name d) = some whole := (ok.named _ _).2 ⟨e, d, he, hd, rfl⟩
  obtain ⟨group', hgroup', hpaths', hbyId', hshared', hnamed'⟩ : ∃ group' : Group,
      group.dropPath (groupName, whole) e dirty =
        group'.unshareAll groupName e.id dirty e.path.names ∧
      group'.paths = group.paths.erase whole ∧ group'.byId = group.byId.erase e.id ∧
      group'.shared = group.shared ∧
      ∀ n w, group'.named.lookup n = some w ↔ group.named.lookup n = some w ∧ w ≠ whole := by
    refine ⟨_, rfl, ?_⟩
    cases hd : e.depth with
    | none =>
      refine ⟨rfl, rfl, rfl, fun n w => ⟨fun h => ⟨h, ?_⟩, And.left⟩⟩; rintro rfl
      obtain ⟨e', d, he', hd', -⟩ := (ok.named n w).1 h; rw [he, some.injEq] at he'
      rw [← he', hd] at hd'; cases hd'
    | some d =>
      simp only [hnamed' d hd, if_true]
      refine ⟨trivial, trivial, trivial, fun n w => ?_⟩
      by_cases hn : n = e.path.name d
      · subst hn; rw [lookup_erase, hnamed' d hd]; simp [eq_comm]
      rw [lookup_erase_ne hn]
      refine ⟨fun h => ⟨h, ?_⟩, And.left⟩; rintro rfl
      obtain ⟨e', d', he', hd', hn'⟩ := (ok.named n w).1 h; rw [he, some.injEq] at he'; subst he'
      rw [hd, some.injEq] at hd'; exact hn (hd' ▸ hn'.symm)
  have hrec := @unshareAll_spec groupName e.id e.path.names group' dirty e.path.nodup_names
  rw [← hgroup'] at hrec
  have hlookup (w : BufferName) (e' : GroupPath) :
      (group.dropPath (groupName, whole) e dirty).1.paths.lookup w = some e' ↔
        w ≠ whole ∧ group.paths.lookup w = some e' := by
    rw [hrec.paths, hpaths']
    by_cases hw : w = whole
    · subst hw; simp
    · simp [lookup_erase_ne hw, hw]
  refine ⟨fun w e' h => ok.key w e' ((hlookup w e').1 h).2,
    fun w e' h => ok.fresh w e' ((hlookup w e').1 h).2,
    fun w e' d h hd => ok.depth w e' d ((hlookup w e').1 h).2 hd, fun i w => ?_, fun n => ?_,
    fun n w => ?_⟩
  · rw [hrec.byId, hbyId']
    by_cases hi : i = e.id
    · subst hi; rw [lookup_erase]; simp only [reduceCtorEq, false_iff, not_exists, not_and]
      intro e' h hid; exact ((hlookup w e').1 h).1 (ok.id_injective ((hlookup w e').1 h).2 he hid)
    rw [lookup_erase_ne hi, ok.byId]
    constructor
    · rintro ⟨e', h, hid⟩
      refine ⟨e', (hlookup w e').2 ⟨?_, h⟩, hid⟩; rintro rfl; rw [he, some.injEq] at h
      exact hi (h ▸ hid.symm)
    · rintro ⟨e', h, hid⟩; exact ⟨e', ((hlookup w e').1 h).2, hid⟩
  · rw [hrec.shared, hshared', hrec.paths, hpaths', ok.shared, tally_perm (idsOf_lookup he n)]
    split
    · rw [uncount_tally]
    · rfl
  rw [hrec.named, hnamed', ok.named]
  constructor
  · rintro ⟨⟨e', d, h, hd, hn⟩, hw⟩; exact ⟨e', d, (hlookup w e').2 ⟨hw, h⟩, hd, hn⟩
  rintro ⟨e', d, h, hd, hn⟩
  exact ⟨⟨e', d, ((hlookup w e').1 h).2, hd, hn⟩, ((hlookup w e').1 h).1⟩

/-- A path is shown by another of its names, which no other path is shown by. -/
theorem setDepth {whole : BufferName} {e : GroupPath} (he : group.paths.lookup whole = some e)
    {depth : ℕ} (hdepth : depth < e.path.names.length)
    (hother : ∀ w e' d, group.paths.lookup w = some e' → w ≠ whole → e'.depth = some d →
      e'.path.name d ≠ e.path.name depth) :
    (group.setDepth whole e depth).Ok groupName nextPath := by
  have hlookup (w : BufferName) (e' : GroupPath) :
      (group.setDepth whole e depth).paths.lookup w = some e' ↔
        (w = whole ∧ e' = { e with depth := some depth }) ∨
          (w ≠ whole ∧ group.paths.lookup w = some e') := by
    unfold Group.setDepth
    by_cases hw : w = whole
    · subst hw; simp [eq_comm]
    · simp [lookup_insert_ne hw, hw]
  refine ⟨fun w e' h => ?_, fun w e' h => ?_, fun w e' d h hd => ?_, fun i w => ?_, fun n => ?_,
    fun n w => ?_⟩
  · rcases (hlookup w e').1 h with ⟨rfl, rfl⟩ | ⟨-, h⟩
    · exact ok.key w e he
    · exact ok.key w e' h
  · rcases (hlookup w e').1 h with ⟨rfl, rfl⟩ | ⟨-, h⟩
    · exact ok.fresh w e he
    · exact ok.fresh w e' h
  · rcases (hlookup w e').1 h with ⟨rfl, rfl⟩ | ⟨-, h⟩
    · cases hd; exact hdepth
    · exact ok.depth w e' d h hd
  · change group.byId.lookup i = some w ↔ _; rw [ok.byId]
    constructor
    · rintro ⟨e', h, hid⟩
      by_cases hw : w = whole
      · subst hw; rw [he, some.injEq] at h; exact ⟨_, (hlookup w _).2 (.inl ⟨rfl, rfl⟩), h ▸ hid⟩
      · exact ⟨e', (hlookup w e').2 (.inr ⟨hw, h⟩), hid⟩
    rintro ⟨e', h, hid⟩
    rcases (hlookup w e').1 h with ⟨rfl, rfl⟩ | ⟨-, h⟩
    · exact ⟨e, he, hid⟩
    · exact ⟨e', h, hid⟩
  · change group.shared.lookup n = tally (idsOf (group.paths.insert whole _) n)
    rw [ok.shared, idsOf_insert]; exact tally_perm (idsOf_lookup he n)
  have hnamed : (group.setDepth whole e depth).named.lookup n = some w ↔
      (n = e.path.name depth ∧ w = whole) ∨
        (n ≠ e.path.name depth ∧ w ≠ whole ∧ group.named.lookup n = some w) := by
    unfold Group.setDepth
    by_cases hn : n = e.path.name depth
    · subst hn; simp [eq_comm]
    rw [lookup_insert_ne hn]
    simp only [hn, false_and, ne_eq, not_false_eq_true, true_and, false_or]
    cases hd : e.depth with
    | none =>
      refine ⟨fun h => ⟨?_, h⟩, And.right⟩; rintro rfl
      obtain ⟨e', d, he', hd', -⟩ := (ok.named n w).1 h; rw [he, some.injEq] at he'
      rw [← he', hd] at hd'; cases hd'
    | some before =>
      have hbefore := (ok.named _ _).2 ⟨e, before, he, hd, rfl⟩; simp only [hbefore, if_true]
      by_cases hn' : n = e.path.name before
      · subst hn'; rw [lookup_erase, hbefore]; simp [eq_comm]
      rw [lookup_erase_ne hn']
      refine ⟨fun h => ⟨?_, h⟩, And.right⟩; rintro rfl
      obtain ⟨e', d', he', hd', hname⟩ := (ok.named n w).1 h; rw [he, some.injEq] at he'
      subst he'; rw [hd, some.injEq] at hd'; exact hn' (hd' ▸ hname.symm)
  rw [hnamed]
  constructor
  · rintro (⟨rfl, rfl⟩ | ⟨-, hw, h⟩)
    · exact ⟨_, depth, (hlookup w _).2 (.inl ⟨rfl, rfl⟩), rfl, rfl⟩
    obtain ⟨e', d, he', hd, hname⟩ := (ok.named n w).1 h
    exact ⟨e', d, (hlookup w e').2 (.inr ⟨hw, he'⟩), hd, hname⟩
  rintro ⟨e', d, h, hd, hname⟩
  rcases (hlookup w e').1 h with ⟨rfl, rfl⟩ | ⟨hw, h⟩
  · cases hd; exact .inl ⟨hname.symm, rfl⟩
  exact .inr ⟨fun hn => hother w e' d h hw hd (hname.trans hn), hw,
    (ok.named n w).2 ⟨e', d, h, hd, hname⟩⟩

/-! ## What is marked -/

theorem shared_iff (n : BufferName) :
    (group.shared.lookup n).any (fun count => 1 < count.1) = true ↔
      1 < (idsOf group.paths n).length := by
  rw [ok.shared, Option.any_eq_true]
  constructor
  · rintro ⟨t, ht, hlt⟩; obtain ⟨-, rfl⟩ := tally_eq_some.1 ht; simpa using hlt
  intro h
  refine ⟨_, tally_eq_some.2 ⟨?_, rfl⟩, by simpa using h⟩; rintro hnil; simp [hnil] at h

theorem tally_of_not_shared {e : GroupPath} (he : group.paths.lookup w = some e)
    {n : BufferName} (hn : n ∈ e.path.names) (hle : (idsOf group.paths n).length ≤ 1) :
    group.shared.lookup n = some (1, e.id) := by
  have hmem : e.id ∈ idsOf group.paths n := mem_idsOf.2 ⟨w, e, he, hn, rfl⟩
  obtain ⟨i, hi⟩ : ∃ i, idsOf group.paths n = [i] := by
    have := length_pos_of_mem hmem; exact length_eq_one_iff.1 (by omega)
  rw [hi, mem_singleton] at hmem
  rw [ok.shared, hi, ← hmem]
  simp [tally]

theorem newPath_marks {path : NamePath} (hgroup : path.group = groupName)
    (holder : ℕ × BufferId) (dirty : Dirty) {e : GroupPath} {d : ℕ}
    (he : group.paths.lookup w = some e) (hd : e.depth = some d)
    (hle : (idsOf group.paths (e.path.name d)).length ≤ 1) (hn : e.path.name d ∈ path.names) :
    (groupName, w) ∈ (group.newPath nextPath path holder dirty).2 := by
  have hlt := ok.depth w e d he hd
  have hmem : e.path.name d ∈ e.path.names := by
    rw [NamePath.length_names] at hlt; exact e.path.mem_names.2 ⟨d, by omega, rfl⟩
  rw [← hgroup]
  refine shareAll_marks path.group nextPath path.nodup_names hn ?_
    ((ok.named _ w).2 ⟨e, d, he, hd, rfl⟩)
  rw [ok.tally_of_not_shared he hmem hle]
  rfl

theorem dropPath_marks {whole : BufferName} {e : GroupPath} (he : group.paths.lookup whole = some e)
    (dirty : Dirty) {e' : GroupPath} (he' : group.paths.lookup w = some e') (hw : w ≠ whole)
    {n : BufferName} (hn : n ∈ e.path.names) (hn' : n ∈ e'.path.names)
    (hle : (idsOf (group.paths.erase whole) n).length ≤ 1) : (groupName, w) ∈
    (group.dropPath (groupName, whole) e dirty).2 := by
  obtain ⟨group', hgroup', -, hbyId', hshared'⟩ := @dropPath_eq group groupName whole e dirty
  have hid : e'.id ≠ e.id := fun h => hw (ok.id_injective he' he h)
  rw [hgroup']
  refine unshareAll_marks groupName e.id e.path.nodup_names (i := e'.id) hn ?_ ?_
  · have hmem : e'.id ∈ idsOf (group.paths.erase whole) n := by
      refine mem_idsOf.2 ⟨w, e', ?_, hn', rfl⟩; rw [lookup_erase_ne hw, he']
    obtain ⟨i, hi⟩ : ∃ i, idsOf (group.paths.erase whole) n = [i] := by
      have := length_pos_of_mem hmem; exact length_eq_one_iff.1 (by omega)
    rw [hi, mem_singleton] at hmem
    rw [hshared', ok.shared, tally_perm (idsOf_lookup he n), if_pos hn, uncount_tally, hi, hmem]
    simp [tally]
  · rw [hbyId', lookup_erase_ne hid]; exact (ok.byId _ w).2 ⟨e', he', rfl⟩

end Group.Ok

end Pmacs.Naming
