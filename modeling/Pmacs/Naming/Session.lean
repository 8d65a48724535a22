/-
  The names of the whole session.

  * `distinctPaths_spec`: the distinct paths of requests.
  * `Session`: the index is that of the buffers registered, in their order.
  * `Session.derived_names`: where every path is good, the names are the ones that naming the
    whole session gives; `Session.derived_ne`: and none equals another buffer's name.
-/
import Pmacs.Naming.Rounds

namespace Pmacs.Naming

open Lib List Option Registry

variable {p : NamePath}

/-! ## Distinct paths -/

theorem distinctPaths_spec : ∀ requests : List NameRequest,
    ((distinctPaths requests).map NamePath.whole).Nodup ∧
      (∀ p ∈ distinctPaths requests, ∃ r ∈ requests, r.path = p) ∧
      ∀ r ∈ requests, ∃ p ∈ distinctPaths requests, p.whole = r.path.whole
  | [] => by simp [distinctPaths]
  | request :: rest => by
    obtain ⟨hnodup, hsound, hall⟩ := distinctPaths_spec rest; unfold distinctPaths
    refine ⟨?_, ?_, ?_⟩
    · rw [map_cons, nodup_cons]
      refine ⟨fun hmem => ?_, hnodup.sublist (filter_sublist.map _)⟩
      obtain ⟨p, hp, hwhole⟩ := mem_map.1 hmem; have := (mem_filter.1 hp).2
      rw [decide_eq_true_eq] at this; exact this hwhole
    · intro p hp
      rcases mem_cons.1 hp with rfl | hp
      · exact ⟨request, .head _, rfl⟩
      · obtain ⟨r, hr, heq⟩ := hsound p (mem_filter.1 hp).1; exact ⟨r, .tail _ hr, heq⟩
    intro r hr
    by_cases hwhole : r.path.whole = request.path.whole
    · exact ⟨_, .head _, hwhole.symm⟩
    rcases mem_cons.1 hr with rfl | hr
    · exact absurd rfl hwhole
    obtain ⟨p, hp, heq⟩ := hall r hr
    exact ⟨p, .tail _ (mem_filter.2 ⟨hp, by simpa [heq] using hwhole⟩), heq⟩

/-- Several of the distinct paths satisfy what one does when another does. -/
theorem lt_countP_distinct {paths : List NamePath} (hnodup : (paths.map NamePath.whole).Nodup)
    (hp : p ∈ paths) {P : NamePath → Bool} (hP : P p = true) :
    1 < paths.countP P ↔ ∃ q ∈ paths, q.whole ≠ p.whole ∧ P q = true := by
  obtain ⟨before, after, rfl⟩ := append_of_mem hp
  have hne : ∀ q ∈ before ++ after, q.whole ≠ p.whole := by
    have hperm := ((@perm_middle _ p before after).map NamePath.whole).nodup_iff.1 hnodup
    rw [map_cons, nodup_cons] at hperm; intro q hq heq; exact hperm.1 (mem_map.2 ⟨q, hq, heq⟩)
  rw [perm_middle.countP_eq, countP_cons_of_pos hP, Nat.lt_add_left_iff_pos, countP_pos_iff]
  constructor
  · rintro ⟨q, hq, hmem⟩; exact ⟨q, perm_middle.mem_iff.2 (.tail _ hq), hne q hq, hmem⟩
  rintro ⟨q, hq, hwhole, hmem⟩
  rcases mem_cons.1 (perm_middle.mem_iff.1 hq) with rfl | hq
  · exact absurd rfl hwhole
  · exact ⟨q, hq, hmem⟩

/-- What is at a place among the entries that satisfy `P` up to it. -/
theorem getElem?_filter_countP {α : Type} (P : α → Bool) : ∀ (l : List α) {i : ℕ} {a : α},
    l[i]? = some a → P a = true → (l.filter P)[(l.take i).countP P]? = some a
  | [], _, _, h, _ => by simp at h
  | b :: l, 0, a, h, hP => by simp only [getElem?_cons_zero, some.injEq] at h; subst h; simp [hP]
  | b :: l, i + 1, a, h, hP => by
    have ih := getElem?_filter_countP P l h hP
    rw [take_succ_cons, countP_cons, filter_cons]
    split
    · exact ih
    · exact ih

theorem mapM_id_some {α : Type} : ∀ l : List α, (l.map some).mapM id = some l
  | [] => rfl
  | a :: l => by rw [map_cons, mapM_cons, mapM_id_some l]; rfl

/-! ## The buffers of a session -/

variable {id : BufferId}

namespace Registry

def pathOf (r : Registry) (id : BufferId) : Option NamePath :=
  (r.buffers.lookup id).bind Buffer.namePath

def derived (r : Registry) : List (BufferId × NamePath) :=
  r.order.filterMap fun id => (r.pathOf id).map fun path => (id, path)

/-- The requests of a session: the buffers named by a path, holding the names `holds`. -/
def requests (r : Registry) (holds : BufferId → BufferName) : List NameRequest :=
  r.derived.map fun d => ⟨d.2, holds d.1⟩

def reserved (r : Registry) (n : BufferName) : Bool :=
  r.order.any fun id => r.pathOf id = none ∧ r.nameOf id = n

def pathName (r : Registry) (p : NamePath) : BufferName :=
  baseAmong (distinctPaths (r.requests r.nameOf)) r.reserved p

theorem mem_derived {r : Registry} : (id, p) ∈ r.derived ↔ id ∈ r.order ∧ r.pathOf id = some p := by
  unfold derived
  simp only [mem_filterMap, map_eq_some_iff, Prod.mk.injEq]
  constructor
  · rintro ⟨i, hi, q, hq, rfl, rfl⟩; exact ⟨hi, hq⟩
  · rintro ⟨hi, hp⟩; exact ⟨id, hi, p, hp, rfl, rfl⟩

theorem derived_ids (r : Registry) :
    r.derived.map Prod.fst = r.order.filter fun id => (r.pathOf id).isSome := by
  unfold derived
  induction r.order with
  | nil => rfl
  | cons id order ih =>
    rw [filterMap_cons, filter_cons]
    cases h : r.pathOf id with
    | none | some => simpa using ih

end Registry

/-- The index is that of the registered buffers. -/
structure Session (r : Registry) (filed : List Filed) : Prop where
  index : Indexed r.names filed
  names : ∀ f ∈ filed, r.nameOf f.id = f.name
  ids : (filed.map Filed.id).Perm r.order
  registered : ∀ id, id ∈ r.order ↔ (r.buffers.lookup id).isSome = true
  paths : ∀ f ∈ filed, (r.pathOf f.id).map NamePath.whole = f.path.map NamePath.whole
  sorted : r.order.Pairwise fun i j => r.names.placeOf i < r.names.placeOf j
  placed : ∀ id ∈ r.order, r.names.placeOf id < r.names.nextPlace

namespace Session

variable {r : Registry} {filed : List Filed} (s : Session r filed)
include s

theorem nodup_order : r.order.Nodup :=
  s.sorted.imp fun hlt heq => by simp [heq] at hlt

theorem filed_of_derived (h : (id, p) ∈ r.derived) :
    ∃ f ∈ filed, f.id = id ∧ ∃ q, f.path = some q ∧ q.whole = p.whole := by
  obtain ⟨hi, hp⟩ := mem_derived.1 h
  obtain ⟨f, hf, rfl⟩ := mem_map.1 (s.ids.mem_iff.2 hi)
  have hpath := s.paths f hf
  rw [hp, map_some, eq_comm, map_eq_some_iff] at hpath
  exact ⟨f, hf, rfl, hpath⟩

theorem derived_of_filed {f : Filed} (hf : f ∈ filed) {q : NamePath} (hq : f.path = some q) :
    ∃ p, (f.id, p) ∈ r.derived ∧ p.whole = q.whole := by
  have hpath := s.paths f hf
  rw [hq, map_some, map_eq_some_iff] at hpath
  obtain ⟨p, hp, hwhole⟩ := hpath
  exact ⟨p, mem_derived.2 ⟨s.ids.mem_iff.1 (mem_map.2 ⟨f, hf, rfl⟩), hp⟩, hwhole⟩

theorem entry_of_derived (h : (id, p) ∈ r.derived) :
    ∃ e, r.names.entry (p.group, p.whole) = some e ∧ e.path.whole = p.whole := by
  obtain ⟨f, hf, -, q, hq, hwhole⟩ := s.filed_of_derived h
  obtain ⟨e, he⟩ := isSome_iff_exists.1 (s.index.entry f hf q hq)
  have hgroup : q.group = p.group := congrFun (q.names_eq_of_whole hwhole) 0
  rw [hgroup, hwhole] at he
  exact ⟨e, he, (congrArg Prod.snd (s.index.ok.entry_key he)).symm⟩

variable {e : GroupPath} {key : PathKey}

theorem holders_eq (he : r.names.entry key = some e) (hp : p.whole = key.2) :
    e.holders.map Prod.snd = (r.derived.filter fun d => d.2.whole = p.whole).map Prod.fst := by
  have hplace {f : Filed} (hf : f ∈ filed) : r.names.placeOf f.id = f.place := by
    simp [NameIndex.placeOf, s.index.placed f hf]
  have hleft : (e.holders.map Prod.snd).Pairwise fun i j =>
      r.names.placeOf i < r.names.placeOf j := by
    rw [pairwise_map]
    refine (s.index.sorted key e he).imp_of_mem fun {a b} ha hb hlt => ?_
    obtain ⟨f, hf, -, rfl⟩ := (s.index.holders key e he a).1 ha
    obtain ⟨g, hg, -, rfl⟩ := (s.index.holders key e he b).1 hb; rw [hplace hf, hplace hg]
    exact hlt
  have hsublist : ((r.derived.filter fun d => d.2.whole = p.whole).map Prod.fst).Sublist
      r.order := by
    refine (filter_sublist.map _).trans ?_; rw [derived_ids]; exact filter_sublist
  refine List.Perm.eq_of_pairwise (fun i j _ _ hij hji => absurd hij (by omega)) hleft
    (s.sorted.sublist hsublist) ?_
  rw [perm_ext_iff_of_nodup (s.index.nodup_holders he) (s.nodup_order.sublist hsublist)]
  intro id
  simp only [List.mem_map, List.mem_filter, decide_eq_true_eq]
  constructor
  · rintro ⟨a, ha, rfl⟩; obtain ⟨f, hf, ⟨q, hq, hwhole⟩, rfl⟩ := (s.index.holders key e he a).1 ha
    obtain ⟨p', hp', hwhole'⟩ := s.derived_of_filed hf hq
    exact ⟨(f.id, p'), ⟨hp', by rw [hwhole', hwhole, hp]⟩, rfl⟩
  rintro ⟨⟨i, p'⟩, ⟨hmem, hwhole⟩, rfl⟩
  obtain ⟨f, hf, hid, q, hq, hwhole'⟩ := s.filed_of_derived hmem
  exact ⟨(f.place, f.id), (s.index.holders key e he _).2
    ⟨f, hf, ⟨q, hq, by rw [hwhole', ← hp]; exact hwhole⟩, rfl⟩, hid⟩

/-! ## Naming the whole session -/

theorem reserved_iff (n : BufferName) : r.reserved n = true ↔ r.names.reserved.has n = true := by
  unfold reserved
  rw [Counts.has_iff, s.index.reserved, List.countP_pos_iff, List.any_eq_true]
  have hpath {f : Filed} (hf : f ∈ filed) : r.pathOf f.id = none ↔ f.path = none := by
    have := s.paths f hf; rw [← map_eq_none_iff (f := NamePath.whole), this, map_eq_none_iff]
  constructor
  · rintro ⟨id, hid, h⟩; obtain ⟨f, hf, rfl⟩ := mem_map.1 (s.ids.mem_iff.2 hid)
    rw [decide_eq_true_eq, hpath hf, s.names f hf] at h; exact ⟨f, hf, by simpa using h⟩
  rintro ⟨f, hf, h⟩
  refine ⟨f.id, s.ids.mem_iff.1 (mem_map.2 ⟨f, hf, rfl⟩), ?_⟩
  rw [decide_eq_true_eq, hpath hf, s.names f hf]; simpa using h

/-- A path is to be shown by one name, beside the paths of its group or all of them. -/
theorem baseAmong_eq (holds : BufferId → BufferName) (h : (id, p) ∈ r.derived)
    (he : r.names.entry (p.group, p.whole) = some e) (hwhole : e.path.whole = p.whole) :
    baseAmong (distinctPaths (r.requests holds)) r.reserved p =
      r.names.baseOf (p.group, p.whole) e := by
  obtain ⟨hnodup, hsound, hall⟩ := distinctPaths_spec (r.requests holds)
  have hdistinct {i : BufferId} {q : NamePath} (hq : (i, q) ∈ r.derived) :
      ∃ q' ∈ distinctPaths (r.requests holds), q'.whole = q.whole :=
    hall ⟨q, holds i⟩ (mem_map.2 ⟨(i, q), hq, rfl⟩)
  have hnames := e.path.names_congr hwhole
  -- a name is shared among all paths when it is in the group
  have hshared (n : BufferName) (hn : n ∈ p.names) :
      (1 < (distinctPaths (r.requests holds)).countP fun q => n ∈ q.names) ↔
        r.names.shared p.group n = true := by
    obtain ⟨p', hp', hwhole'⟩ := hdistinct h
    rw [lt_countP_distinct hnodup hp' (by simpa [p'.names_congr hwhole'] using hn),
      s.index.ok.shared_iff he (by rwa [hnames])]
    simp only [decide_eq_true_eq]
    constructor
    · rintro ⟨q, hq, hne, hmem⟩; obtain ⟨request, hrequest, rfl⟩ := hsound q hq
      obtain ⟨⟨i, q⟩, hd, rfl⟩ := mem_map.1 hrequest
      obtain ⟨e', he', hwhole''⟩ := s.entry_of_derived hd
      refine ⟨q.whole, e', fun heq => hne (heq.trans hwhole'.symm), ?_, ?_⟩
      · rw [show p.group = q.group by
          rw [← q.groupOf_mem hmem, ← p.groupOf_mem hn]]
        exact he'
      · rwa [e'.path.names_congr hwhole'']
    rintro ⟨whole, e', hne, he', hmem⟩
    obtain ⟨a, ha⟩ := exists_mem_of_ne_nil _ (s.index.nonempty _ e' he')
    obtain ⟨f, hf, ⟨q, hq, hqwhole⟩, -⟩ := (s.index.holders _ e' he' a).1 ha
    obtain ⟨q₁, hd, hwhole₁⟩ := s.derived_of_filed hf hq
    obtain ⟨q₂, hq₂, hwhole₂⟩ := hdistinct hd
    have hkey : e'.path.whole = whole := (congrArg Prod.snd (s.index.ok.entry_key he')).symm
    have heq : q₂.whole = whole := by rw [hwhole₂, hwhole₁, hqwhole]
    refine ⟨q₂, hq₂, by rw [heq, hwhole']; exact hne, ?_⟩
    rwa [q₂.names_congr (heq.trans hkey.symm)]
  have hdepth : nameDepth p (fun n => 1 < (distinctPaths (r.requests holds)).countP
      fun q => n ∈ q.names) r.reserved = r.names.depthOf (p.group, p.whole) e := by
    have hpath : r.names.depthOf (p.group, p.whole) e =
        nameDepth p (r.names.shared p.group) r.names.reserved.has := by
      unfold NameIndex.depthOf nameDepth; rw [hnames]
    rw [hpath]
    refine nameDepth_congr fun n hn => ?_; rw [decide_eq_true_eq, hshared n hn, s.reserved_iff]
  rw [baseAmong, hdepth, NameIndex.baseOf, e.path.names_eq_of_whole hwhole]

theorem pathName_eq (h : (id, p) ∈ r.derived) : r.pathName p = r.names.pathName p := by
  obtain ⟨e, he, hwhole⟩ := s.entry_of_derived h
  rw [pathName, s.baseAmong_eq r.nameOf h he hwhole]
  exact r.names.baseOf_eq_pathName rfl hwhole

theorem names_eq (nm : BufferId → BufferName)
    (he : r.names.entry key = some e) (hp : p.whole = key.2) : Naming.names nm e =
      (r.derived.filter fun d => d.2.whole = p.whole).map fun d => nm d.1 := by
  have := congrArg (map nm) (s.holders_eq he hp)
  simpa [Naming.names, List.map_map, Function.comp_def] using this

theorem nameOf_mem_names (h : (id, p) ∈ r.derived) (he : r.names.entry (p.group, p.whole) = some e) :
    r.nameOf id ∈ Naming.names r.nameOf e := by
  rw [s.names_eq r.nameOf (p := p) he rfl]
  exact mem_map.2 ⟨(id, p), mem_filter.2 ⟨h, by simp⟩, rfl⟩

section
variable {holds : BufferId → BufferName}
  (hgood : ∀ key e, r.names.entry key = some e → Good holds r key e)
  (hlimit : r.order.length + 1 ≤ usizeMax)
include hgood hlimit

omit s in
theorem right_names (he : r.names.entry key = some e) :
    Named (r.names.baseOf key e) (Naming.names holds e)
      (!r.names.reserved.has (r.names.baseOf key e)) (r.names.taken r.nameOf e)
      (Naming.names r.nameOf e) := nameHolders_spec hlimit (hgood key e he).named

/-- What is taken from a path, of the `<N>` of its name: what is reserved, and the names of the
    other paths. -/
theorem taken_eq (he : r.names.entry (p.group, p.whole) = some e) {n : BufferName}
    (hn : withoutSuffix n = some (r.names.baseOf (p.group, p.whole) e)) :
    (r.reserved n || n ∈ (distinctPaths (r.requests holds)).map
      (baseAmong (distinctPaths (r.requests holds)) r.reserved)) = r.names.taken r.nameOf e n := by
  obtain ⟨-, hsound, hall⟩ := distinctPaths_spec (r.requests holds)
  have hnm : ∀ f ∈ filed, r.nameOf f.id = f.name := s.names
  have hreserved (hres : r.reserved n = true) : r.names.taken r.nameOf e n = true := by
    rw [s.reserved_iff, Counts.has_iff, s.index.reserved, countP_pos_iff] at hres
    obtain ⟨f, hf, hpath⟩ := hres; rw [decide_eq_true_eq] at hpath
    refine (s.index.taken_iff hnm he n).2 ⟨f, hf, ?_, hpath.2⟩; rintro ⟨q, hq, -⟩
    rw [hpath.1] at hq; cases hq
  rw [Bool.eq_iff_iff, Bool.or_eq_true, decide_eq_true_eq]
  constructor
  · rintro (hres | hbase)
    · exact hreserved hres
    obtain ⟨q, hq, hbase⟩ := mem_map.1 hbase; obtain ⟨request, hrequest, rfl⟩ := hsound q hq
    obtain ⟨⟨i, q⟩, hd, rfl⟩ := mem_map.1 hrequest
    obtain ⟨e', he', hwhole⟩ := s.entry_of_derived hd
    rw [s.baseAmong_eq holds hd he' hwhole] at hbase
    by_cases hres : r.reserved n = true
    · exact hreserved hres
    -- one of that path's buffers has its name
    have hnamed := right_names hgood hlimit he'
    have hne : Naming.names holds e' ≠ [] := by simpa [Naming.names] using s.index.nonempty _ e' he'
    have hget := (hnamed.keeps _).2 ⟨by
      rw [hbase, Bool.not_eq_true', Bool.eq_false_iff, ne_eq, ← s.reserved_iff]
      exact hres, rfl, keeper_lt _ hne⟩
    obtain ⟨a, ha, hname⟩ := mem_map.1 (mem_of_getElem? hget)
    obtain ⟨f, hf, hholds, rfl⟩ := (s.index.holders _ e' he' a).1 ha
    refine (s.index.taken_iff hnm he n).2 ⟨f, hf, ?_, ?_⟩
    · rintro ⟨q₁, hq₁, hwhole₁⟩; obtain ⟨q₂, hq₂, hwhole₂⟩ := hholds
      obtain rfl : q₁ = q₂ := some.inj (hq₁.symm.trans hq₂)
      have hkey := (s.index.key_eq he hwhole₁).trans (s.index.key_eq he' hwhole₂).symm
      have heq : e = e' := some.inj (he.symm.trans (hkey ▸ he'))
      refine ne_of_withoutSuffix hn ?_; rw [hkey, heq]; exact hbase.symm
    · rw [← s.names f hf]; exact hname.trans hbase
  intro htaken; obtain ⟨f, hf, hholds, hname⟩ := (s.index.taken_iff hnm he n).1 htaken
  cases hpath : f.path with
  | none =>
    left; rw [s.reserved_iff, Counts.has_iff, s.index.reserved, countP_pos_iff]
    exact ⟨f, hf, by simp [hpath, hname]⟩
  | some q =>
    right; obtain ⟨q₁, hd, hwhole₁⟩ := s.derived_of_filed hf hpath
    obtain ⟨e', he', hwhole'⟩ := s.entry_of_derived hd; have hmem := s.nameOf_mem_names hd he'
    rw [s.names f hf, hname] at hmem
    have hbase : n = r.names.baseOf (q₁.group, q₁.whole) e' := by
      by_contra hne
      have hsuffixed := withoutSuffix_of_isSuffixed
        ((right_names hgood hlimit he').suffix n hmem hne).1
      rw [hn, some.injEq] at hsuffixed; have hkey := s.index.baseOf_injective he he' hsuffixed
      exact hholds ⟨q, hpath, hwhole₁.symm.trans (congrArg Prod.snd hkey).symm⟩
    obtain ⟨q₂, hq₂, hwhole₂⟩ := hall ⟨q₁, holds f.id⟩ (mem_map.2 ⟨_, hd, rfl⟩)
    obtain ⟨request, hrequest, rfl⟩ := hsound q₂ hq₂
    obtain ⟨⟨i, q₂⟩, hd₂, rfl⟩ := mem_map.1 hrequest
    refine mem_map.2 ⟨q₂, hq₂, ?_⟩
    have hgroup : q₂.group = q₁.group := congrFun (q₂.names_eq_of_whole hwhole₂) 0
    have hwhole₂' : q₂.whole = q₁.whole := hwhole₂
    have he₂ : r.names.entry (q₂.group, q₂.whole) = some e' := by rw [hgroup, hwhole₂']; exact he'
    rw [s.baseAmong_eq holds hd₂ he₂ (hwhole'.trans hwhole₂'.symm), hgroup, hwhole₂', hbase]

theorem namesOfPath_eq {limit : ℕ} (hlt : r.order.length < limit) (h : (id, p) ∈ r.derived) : namesOfPath (r.requests holds) r.reserved limit p =
      some ((r.derived.filter fun d => d.2.whole = p.whole).map fun d => r.nameOf d.1) := by
  obtain ⟨e, he, hwhole⟩ := s.entry_of_derived h
  have hholds : (((r.requests holds).filter fun q => q.path.whole = p.whole).map (·.holds)) =
      Naming.names holds e := by
    rw [s.names_eq holds (p := p) he rfl, requests, List.filter_map, List.map_map]; rfl
  unfold namesOfPath
  simp only
  rw [s.baseAmong_eq holds h he hwhole, hholds, ← s.names_eq r.nameOf (p := p) he rfl,
    Bool.eq_iff_iff.2 (s.reserved_iff _)]
  refine (nameHolders_congr fun n hn => ?_).trans (nameHolders_mono (by omega) (hgood _ e he).named)
  exact s.taken_eq hgood hlimit he hn

/-- **The names are the ones that naming the whole session at once gives.** -/
theorem derived_names {limit : ℕ} (hlt : r.order.length < limit) :
    deriveNames (r.requests holds) r.reserved limit =
      some (r.derived.map fun d => r.nameOf d.1) := by
  rw [← mapM_id_some (r.derived.map fun d => r.nameOf d.1)]
  refine congrArg (mapM id) (ext_getElem? fun i => ?_)
  rw [getElem?_mapIdx, requests, getElem?_map, getElem?_map, getElem?_map]
  cases hd : r.derived[i]? with
  | none => rfl
  | some d =>
    obtain ⟨id, p⟩ := d; have hmem := mem_of_getElem? hd
    have hpath := s.namesOfPath_eq hgood hlimit hlt hmem; rw [requests] at hpath
    simp only [map_some]; rw [hpath, bind_some, ← map_take, countP_map, getElem?_map]
    have hget := getElem?_filter_countP (fun d : BufferId × NamePath => d.2.whole = p.whole)
      r.derived hd (by simp)
    exact congrArg some (congrArg (Option.map fun d => r.nameOf d.1) hget)

/-- **No derived name equals another buffer's name.** -/
theorem derived_ne (h : (id, p) ∈ r.derived) {id' : BufferId}
    (hid' : id' ∈ r.order) (hne : id' ≠ id) : r.nameOf id' ≠ r.nameOf id := by
  obtain ⟨e, he, hwhole⟩ := s.entry_of_derived h
  have hnamed := right_names hgood hlimit he
  have hmem := s.nameOf_mem_names h he
  obtain ⟨f', hf', rfl⟩ := mem_map.1 (s.ids.mem_iff.2 hid')
  intro heq
  by_cases hholds : f'.Holds p.whole
  · -- the buffers of one path
    obtain ⟨q, hq, hqwhole⟩ := hholds; obtain ⟨q₁, hd, hwhole₁⟩ := s.derived_of_filed hf' hq
    have hnodup := hnamed.nodup; rw [s.names_eq r.nameOf (p := p) he rfl] at hnodup
    have := inj_on_of_nodup_map hnodup (mem_filter.2 ⟨hd, by simp [hwhole₁, hqwhole]⟩)
      (mem_filter.2 ⟨h, by simp⟩) heq
    exact hne (congrArg Prod.fst this)
  -- a name that another buffer has is not taken
  have htaken : r.names.taken r.nameOf e (r.nameOf id) = true :=
    (s.index.taken_iff s.names he _).2 ⟨f', hf', hholds, by rw [← s.names f' hf', heq]⟩
  by_cases hbase : r.nameOf id = r.names.baseOf (p.group, p.whole) e
  · -- the name of the path: it is not reserved, nor named by another path
    obtain ⟨i, hi, hget⟩ := mem_iff_getElem.1 hmem
    have hfree := ((hnamed.keeps i).1 (by rw [getElem?_eq_getElem hi, hget, hbase])).1
    cases hpath : f'.path with
    | none =>
      rw [Bool.not_eq_true', Bool.eq_false_iff, ne_eq, Counts.has_iff, s.index.reserved,
        countP_pos_iff] at hfree
      exact hfree ⟨f', hf', by simp [hpath, ← s.names f' hf', heq, hbase]⟩
    | some q =>
      obtain ⟨q₁, hd, hwhole₁⟩ := s.derived_of_filed hf' hpath
      obtain ⟨e', he', -⟩ := s.entry_of_derived hd
      have hkeys : (p.group, p.whole) ≠ (q₁.group, q₁.whole) := fun hkey =>
        hholds ⟨q, hpath, hwhole₁.symm.trans (congrArg Prod.snd hkey).symm⟩
      have hmem' := s.nameOf_mem_names hd he'; rw [heq] at hmem'
      by_cases hbase' : r.nameOf id = r.names.baseOf (q₁.group, q₁.whole) e'
      · exact hkeys (s.index.baseOf_injective he he' (hbase.symm.trans hbase'))
      have hsuffix := ((right_names hgood hlimit he').suffix _ hmem' hbase').2
      obtain ⟨f, hf, hid, q₂, hq₂, hwhole₂⟩ := s.filed_of_derived h
      have htaken' : r.names.taken r.nameOf e' (r.nameOf id) = true := by
        refine (s.index.taken_iff s.names he' _).2 ⟨f, hf, ?_, ?_⟩
        · rintro ⟨q₃, hq₃, hwhole₃⟩; obtain rfl : q₂ = q₃ := some.inj (hq₂.symm.trans hq₃)
          have hkey := (s.index.key_eq he hwhole₂).trans (s.index.key_eq he' hwhole₃).symm
          exact hkeys hkey
        · rw [← s.names f hf, hid]
      rw [hsuffix] at htaken'; cases htaken'
  · rw [(hnamed.suffix _ hmem hbase).2] at htaken; cases htaken

end

end Session

end Pmacs.Naming
