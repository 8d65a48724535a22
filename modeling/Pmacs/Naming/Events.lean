/-
  What an event does to a registry's index.

  * `unfile_spec`, `file_spec`, `file_carried`: unfiling and filing one buffer.
  * `settle_kept`: the names settle, to the names of the whole session.
  * `insert_kept`, `remove_kept`, `refreshNames_kept`, `setName_kept`: each event.
-/
import Pmacs.Naming.Session

namespace Pmacs.Naming

open Lib AList Function List Option

variable {b : Buffer} {id : BufferId} {dirty : Dirty} {todo : List BufferId} {filed : List Filed}
  {r : Registry}

/-! ## One buffer -/

theorem filed_perm (hnodup : (filed.map Filed.id).Nodup) {f : Filed}
    (hf : f ∈ filed) : filed.Perm (f :: filed.filter fun g => g.id ≠ f.id) := by
  obtain ⟨before, after, rfl⟩ := append_of_mem hf
  have hperm := ((@List.perm_middle _ f before after).map Filed.id).nodup_iff.1 hnodup
  rw [map_cons, nodup_cons] at hperm
  have hne : ∀ g ∈ before ++ after, g.id ≠ f.id := fun g hg heq =>
    hperm.1 (mem_map.2 ⟨g, hg, heq⟩)
  have hfilter : ((before ++ f :: after).filter fun g => g.id ≠ f.id) = before ++ after := by
    rw [filter_append, filter_cons_of_neg (by simp), ← filter_append,
      filter_eq_self]
    intro g hg; simpa using hne g hg
  rw [hfilter]
  exact perm_middle

section
variable {nm : BufferId → BufferName} (h : Mid r.names nm filed dirty)
include h

/-- **Unfiling a buffer**: every path is marked or fresh still, and the path whose `<N>` its name
    can be is marked. -/
theorem unfile_spec {f : Filed} (hf : f ∈ filed) :
    ∃ x' dirty', r.unfile f.id f.name dirty = ({ r with names := x' }, dirty') ∧
      x'.place = r.names.place ∧ x'.nextPlace = r.names.nextPlace ∧
      Mid x' nm (filed.filter fun g => g.id ≠ f.id) dirty' ∧ Cleared x' f.name dirty' := by
  have hcons := h.perm (filed_perm h.index.ids hf)
  unfold Registry.unfile
  cases hp : f.path with
  | none =>
    rw [if_neg (by simp [h.index.member_eq_none hf hp])]
    exact ⟨_, _, rfl, rfl, rfl, hcons.unreserve hp, Mid.cleared_reserved hcons.index.ok⟩
  | some p =>
    rw [if_pos (by simp [h.index.member_eq hf hp])]
    obtain ⟨e, he⟩ := isSome_iff_exists.1 (h.index.entry f hf p hp)
    have L := NameIndex.leave_spec (x := { r.names with held := r.names.held.down f.name })
      h.index.ok (h.index.member_eq hf hp) he dirty
    exact ⟨_, _, rfl, L.place, L.nextPlace, hcons.leave hp, Mid.cleared_derived L.ok⟩

/-- **Filing a buffer** whose name marks what it changes. -/
theorem file_spec (hb : r.buffers.lookup id = some b) (hid : id ∉ filed.map Filed.id) {place : ℕ}
    (hplace : place ∉ filed.map Filed.place) (hplaced : r.names.place.lookup id = some place)
    (hname : nm id = b.name) (hcleared : b.namePath ≠ none → Cleared r.names b.name dirty) :
    ∃ x' dirty', r.file id dirty = ({ r with names := x' }, dirty') ∧
      x'.place = r.names.place ∧ x'.nextPlace = r.names.nextPlace ∧
      Mid x' nm (⟨id, place, b.name, b.namePath⟩ :: filed) dirty' := by
  unfold Registry.file
  simp only [hb]
  cases hp : b.namePath with
  | none =>
    exact ⟨_, _, rfl, rfl, rfl,
      h.reserve (f := ⟨id, place, b.name, none⟩) hid hplace hplaced rfl hname⟩
  | some p =>
    have J := NameIndex.join_spec (x := { r.names with held := r.names.held.up b.name })
      h.index.ok id p dirty
    exact ⟨_, _, rfl, J.place, J.nextPlace, h.join (f := ⟨id, place, b.name, some p⟩) hid hplace
      hplaced rfl hname (hcleared (by simp [hp]))⟩

theorem file_carried (hb : r.buffers.lookup id = some b) (hid : id ∉ filed.map Filed.id) {place : ℕ}
    (hplace : place ∉ filed.map Filed.place) (hplaced : r.names.place.lookup id = some place)
    (hname : nm id = b.name) :
    ∃ x' dirty', r.file id dirty = ({ r with names := x' }, dirty') ∧
      x'.place = r.names.place ∧ x'.nextPlace = r.names.nextPlace ∧
      Indexed x' (⟨id, place, b.name, b.namePath⟩ :: filed) ∧
      ((∀ p, b.namePath = some p → withoutSuffix b.name = none ∨ b.name ≠ x'.pathName p ∨
        ∀ g ∈ filed, ∀ q, g.path = some q → g.name = b.name → b.name ∈ q.names) →
        Ready x' nm (⟨id, place, b.name, b.namePath⟩ :: filed) dirty') := by
  unfold Registry.file
  simp only [hb]
  cases hp : b.namePath with
  | none =>
    have m := h.reserve (f := ⟨id, place, b.name, none⟩) hid hplace hplaced rfl hname
    exact ⟨_, _, rfl, rfl, rfl, m.index, fun _ => m.ready⟩
  | some p =>
    have J := NameIndex.join_spec (x := { r.names with held := r.names.held.up b.name })
      h.index.ok id p dirty
    exact ⟨_, _, rfl, J.place, J.nextPlace,
      (h.join_cases (f := ⟨id, place, b.name, some p⟩) hid hplace hplaced rfl).1,
      fun hcarried => h.join_carried (f := ⟨id, place, b.name, some p⟩) hid hplace hplaced rfl
        hname (hcarried p rfl)⟩

end

/-! ## Settling -/

/-- The session is named as naming it at once, by the names `holds` before, would name it, and no
    derived name equals another buffer's name. -/
structure Registry.NamedAsWhole (r : Registry) (holds : BufferId → BufferName) : Prop where
  derived : ∀ limit, r.order.length < limit →
    deriveNames (r.requests holds) r.reserved limit = some (r.derived.map fun d => r.nameOf d.1)
  distinct : ∀ id p, (id, p) ∈ r.derived → ∀ id' ∈ r.order, id' ≠ id →
    r.nameOf id' ≠ r.nameOf id

theorem Registry.NamedAsWhole.congr {holds holds' : BufferId → BufferName}
    (h : r.NamedAsWhole holds) (heq : ∀ id p, (id, p) ∈ r.derived → holds id = holds' id) :
    r.NamedAsWhole holds' := by
  have hrequests : r.requests holds' = r.requests holds :=
    map_congr_left fun d hd => by rw [heq d.1 d.2 hd]
  refine ⟨fun limit hlimit => ?_, h.distinct⟩
  rw [hrequests]
  exact h.derived limit hlimit

/-- Between events: the index is that of the registered buffers, and every path is fresh. -/
structure Kept (r : Registry) : Prop where
  session : ∃ filed, Session r filed ∧
    ∀ k e, r.names.entry k = some e → Fresh r.names r.nameOf k e
  room : r.order.length + 1 ≤ usizeMax

theorem Kept.named (h : Kept r) : r.NamedAsWhole r.nameOf := by
  obtain ⟨filed, s, hfresh⟩ := h.session
  have hgood : ∀ k e, r.names.entry k = some e → Good r.nameOf r k e := fun k e he =>
    (hfresh k e he).good
  exact ⟨fun limit hlimit => s.derived_names hgood h.room hlimit,
    fun id p hid id' hid' hne => s.derived_ne hgood h.room hid hid' hne⟩

theorem Session.congr_names {r' : Registry} (s : Session r filed)
    (hsame : OnlyNames r r') (hindex : Indexed r'.names (named r'.nameOf filed)) :
    Session r' (named r'.nameOf filed) := by
  have hpath (id : BufferId) : r'.pathOf id = r.pathOf id := by
    unfold Registry.pathOf; rw [hsame.buffers]; cases r.buffers.lookup id <;> rfl
  have hids : (named r'.nameOf filed).map Filed.id = filed.map Filed.id := by
    simp [Naming.named]
  have hplace {id : BufferId} (hid : id ∈ r.order) :
      r'.names.placeOf id = r.names.placeOf id := by
    obtain ⟨f, hf, rfl⟩ := mem_map.1 (s.ids.mem_iff.2 hid); have h := s.index.placed f hf
    have h' := hindex.placed _ (mem_named.2 ⟨f, hf, rfl⟩)
    rw [NameIndex.placeOf, h', NameIndex.placeOf, h]
  refine
    { index := hindex
      names := named_name
      ids := by rw [hids, hsame.order]; exact s.ids
      registered := fun id => by rw [hsame.order, hsame.isSome]; exact s.registered id
      paths := fun f hf => ?_
      sorted := ?_
      placed := fun id hid => ?_ }
  · obtain ⟨g, hg, rfl⟩ := mem_named.1 hf; rw [hpath]; exact s.paths g hg
  · rw [hsame.order]
    refine s.sorted.imp_of_mem fun {i j} hi hj hlt => ?_
    rwa [hplace hi, hplace hj]
  · rw [hsame.order] at hid; rw [hplace hid, hsame.nextPlace]; exact s.placed id hid

variable (order : VisitOrder)

/-- **The names settle, to the names of the whole session.** -/
theorem settle_kept (s : Session r filed) (hready : Ready r.names r.nameOf filed dirty)
    (hroom : r.order.length + 1 ≤ usizeMax) :
    ∃ r', r.settle order dirty = some r' ∧ Kept r' ∧ OnlyNames r r' ∧ r'.NamedAsWhole r.nameOf := by
  have hnamed : named r.nameOf filed = filed := by
    conv_rhs => rw [← map_id filed]
    exact map_congr_left fun f hf => by rw [s.names f hf]; rfl
  have hsettling : Settling r.nameOf filed r ∅ :=
    ⟨hnamed.symm ▸ s.index, fun f _ => rfl, fun f hf =>
      (s.registered f.id).1 (s.ids.mem_iff.1 (mem_map.2 ⟨f, hf, rfl⟩))⟩
  have hlength : filed.length ≤ r.order.length := by
    have := s.ids.length_eq; rw [length_map] at this; omega
  obtain ⟨r', prior', heq, h', hsame, hgood⟩ := settle_spec order hsettling hlength hroom hready
  have s' := s.congr_names hsame h'.index
  have hroom' : r'.order.length + 1 ≤ usizeMax := by rwa [hsame.order]
  refine ⟨r', heq, ⟨⟨_, s', fun k e he => ?_⟩, hroom'⟩, hsame,
    fun limit hlimit => s'.derived_names hgood hroom' hlimit,
    fun id p hid id' hid' hne => s'.derived_ne hgood hroom' hid hid' hne⟩
  exact ⟨(hgood k e he).depth, (Session.right_names hgood hroom' he).again⟩

/-! ## While an event goes on -/

/-- What holds of the registered buffers while an event goes on: those of `todo` may have moved
    to paths they are not filed under yet. -/
structure Busy (r : Registry) (filed : List Filed) (todo : List BufferId) : Prop where
  ids : (filed.map Filed.id).Perm r.order
  registered : ∀ id, id ∈ r.order ↔ (r.buffers.lookup id).isSome = true
  paths : ∀ f ∈ filed, f.id ∉ todo →
    (r.pathOf f.id).map NamePath.whole = f.path.map NamePath.whole
  sorted : r.order.Pairwise fun i j => r.names.placeOf i < r.names.placeOf j
  placed : ∀ id ∈ r.order, r.names.placeOf id < r.names.nextPlace

theorem Busy.session (b : Busy r filed [])
    (index : Indexed r.names filed) (names : ∀ f ∈ filed, r.nameOf f.id = f.name) :
    Session r filed :=
  ⟨index, names, b.ids, b.registered, fun f hf => b.paths f hf not_mem_nil, b.sorted,
    b.placed⟩

variable {x' : NameIndex}

theorem Busy.refile {filed' : List Filed} {todo' : List BufferId}
    (b : Busy r filed todo) (hplace : x'.place = r.names.place)
    (hnext : x'.nextPlace = r.names.nextPlace)
    (hids : (filed'.map Filed.id).Perm (filed.map Filed.id))
    (hpaths : ∀ f ∈ filed', f.id ∉ todo' →
      (r.pathOf f.id).map NamePath.whole = f.path.map NamePath.whole) :
    Busy { r with names := x' } filed' todo' := by
  have hplaceOf : x'.placeOf = r.names.placeOf := by
    ext id; rw [NameIndex.placeOf, hplace, NameIndex.placeOf]
  exact
    { ids := hids.trans b.ids
      registered := b.registered
      paths := hpaths
      sorted := by
        rw [hplaceOf]
        exact b.sorted
      placed := fun id hid => by
        rw [hplaceOf, hnext]; exact b.placed id hid }

variable {x : NameIndex} {ids : List BufferId}

section
variable {f : Filed}

theorem Indexed.place_not_mem (h : Indexed x filed) (hf : f ∈ filed) :
    f.place ∉ (filed.filter fun g => g.id ≠ f.id).map Filed.place := by
  have := (h.perm (filed_perm h.ids hf)).places
  rw [map_cons, nodup_cons] at this
  exact this.1

theorem id_not_mem : f.id ∉ (filed.filter fun g => g.id ≠ f.id).map Filed.id := by
  intro hmem
  obtain ⟨g, hg, hid⟩ := mem_map.1 hmem
  simpa [hid] using (mem_filter.1 hg).2

theorem pathOf_eq (hb : r.buffers.lookup id = some b) : r.pathOf id = b.namePath := by
  rw [Registry.pathOf, hb, bind_some]

theorem nameOf_eq (hb : r.buffers.lookup id = some b) : r.nameOf id = b.name := by
  simp [Registry.nameOf, hb]

variable {buf : Buffer}

theorem unchanged_path (m : Mid r.names r.nameOf filed dirty) (hf : f ∈ filed)
    (h : r.unchanged f.id buf = true) :
    buf.namePath.map NamePath.whole = f.path.map NamePath.whole := by
  unfold Registry.unchanged at h
  cases hp : f.path with
  | none =>
    rw [m.index.member_eq_none hf hp] at h
    cases hbp : buf.namePath with
    | none => rfl
    | some q => simp [hbp] at h
  | some p =>
    obtain ⟨e, he⟩ := isSome_iff_exists.1 (m.index.entry f hf p hp)
    rw [m.index.member_eq hf hp, bind_some, he] at h
    cases hbp : buf.namePath with
    | none => simp [hbp] at h
    | some q =>
      simp only [hbp, NamePath.isOf, decide_eq_true_eq] at h
      have hq : e.path = q := by
        cases hep : e.path; cases q
        simp_all
      rw [map_some, map_some, ← hq]
      exact congrArg some (congrArg Prod.snd (m.index.ok.entry_key he)).symm

/-- A buffer is filed under the path it has now. -/
theorem Busy.refiled (b : Busy r filed (f.id :: todo))
    (hids : (filed.map Filed.id).Nodup) (hf : f ∈ filed)
    (hb : r.buffers.lookup f.id = some buf) (place : ℕ)
    (hplace : x'.place = r.names.place) (hnext : x'.nextPlace = r.names.nextPlace) :
    Busy { r with names := x' }
      (⟨f.id, place, buf.name, buf.namePath⟩ :: filed.filter fun g => g.id ≠ f.id) todo := by
  refine b.refile hplace hnext ((filed_perm hids hf).map Filed.id).symm fun g hg hid => ?_
  rcases mem_cons.1 hg with rfl | hg
  · rw [pathOf_eq hb]
  obtain ⟨hg, hne⟩ := mem_filter.1 hg
  exact b.paths g hg (not_mem_cons_of_ne_of_not_mem (by simpa using hne) hid)

/-- **One buffer is refreshed**: it is filed under the path it has now. -/
theorem refreshName_spec (b : Busy r filed (id :: todo)) (m : Mid r.names r.nameOf filed dirty) :
    ∃ x' dirty' filed', Registry.refreshName (r, dirty) id = ({ r with names := x' }, dirty') ∧
      Busy { r with names := x' } filed' todo ∧ Mid x' r.nameOf filed' dirty' := by
  unfold Registry.refreshName
  cases hb : r.buffers.lookup id with
  | none =>
    refine ⟨r.names, dirty, filed, rfl, ?_, m⟩
    refine b.refile rfl rfl (.refl _) fun f hf hid => ?_
    refine b.paths f hf (not_mem_cons_of_ne_of_not_mem ?_ hid); rintro rfl
    have := (b.registered f.id).1 (b.ids.mem_iff.1 (mem_map.2 ⟨f, hf, rfl⟩)); simp [hb] at this
  | some buf =>
    have hmem : id ∈ r.order := (b.registered id).2 (by simp [hb])
    obtain ⟨f, hf, rfl⟩ := mem_map.1 (b.ids.mem_iff.2 hmem); simp only
    by_cases hunchanged : r.unchanged f.id buf = true
    · -- it is filed under the path it has
      rw [if_pos hunchanged]
      refine ⟨r.names, dirty, filed, rfl, b.refile rfl rfl (.refl _) fun g hg hid => ?_, m⟩
      by_cases heq : g.id = f.id
      · obtain rfl := inj_on_of_nodup_map m.index.ids hg hf heq; rw [pathOf_eq hb]
        exact unchanged_path m hg hunchanged
      · exact b.paths g hg (not_mem_cons_of_ne_of_not_mem heq hid)
    -- it is filed anew
    rw [if_neg hunchanged]
    have hname : buf.name = f.name := by
      rw [← nameOf_eq hb, m.names f hf]
    obtain ⟨x₁, dirty₁, heq₁, hplace₁, hnext₁, m₁, hcleared⟩ := unfile_spec m hf
    obtain ⟨x₂, dirty₂, heq₂, hplace₂, hnext₂, m₂⟩ := file_spec (r := { r with names := x₁ }) m₁
      hb id_not_mem (m.index.place_not_mem hf)
      (by rw [hplace₁]; exact m.index.placed f hf) (nameOf_eq hb)
      (fun _ => hname ▸ hcleared)
    refine ⟨x₂, dirty₂, _, ?_, b.refiled m.index.ids hf hb _ (hplace₂.trans hplace₁)
      (hnext₂.trans hnext₁), m₂⟩
    rw [hname, heq₁]; exact heq₂

/-- **Buffers are refreshed**: the names settle, to those of the whole session. -/
theorem refreshNames_kept (b : Busy r filed ids)
    (m : Mid r.names r.nameOf filed []) (hroom : r.order.length + 1 ≤ usizeMax) :
    ∃ r', r.refreshNames order ids = some r' ∧ Kept r' ∧ r'.NamedAsWhole r.nameOf := by
  have hfold : ∀ (ids : List BufferId) {x : NameIndex} {dirty : Dirty} {filed : List Filed},
      Busy { r with names := x } filed ids → Mid x r.nameOf filed dirty →
      ∃ x' dirty' filed', ids.foldl Registry.refreshName ({ r with names := x }, dirty) =
          ({ r with names := x' }, dirty') ∧
        Busy { r with names := x' } filed' [] ∧ Mid x' r.nameOf filed' dirty' := by
    intro ids
    induction ids with
    | nil => exact fun b m => ⟨_, _, _, rfl, b, m⟩
    | cons id ids ih =>
      intro x dirty filed b m; obtain ⟨x₁, dirty₁, filed₁, heq, b₁, m₁⟩ := refreshName_spec b m
      rw [foldl_cons, heq]; exact ih b₁ m₁
  obtain ⟨x', dirty', filed', heq, b', m'⟩ := hfold ids b m
  obtain ⟨r', hsettle, hkept, -, hnamed⟩ := settle_kept order (b'.session m'.index m'.names) m'.ready hroom
  refine ⟨r', ?_, hkept, hnamed⟩
  unfold Registry.refreshNames
  rw [show (r, ([] : Dirty)) = ({ r with names := r.names }, []) from rfl, heq]
  exact hsettle

end

/-! ## Buffers that move -/

/-- Only the paths of buffers differ, and only of those of `todo`. -/
structure Moved (r r' : Registry) (todo : List BufferId) : Prop where
  order : r'.order = r.order
  names : r'.names = r.names
  nameOf : r'.nameOf = r.nameOf
  isSome : ∀ id, (r'.buffers.lookup id).isSome = (r.buffers.lookup id).isSome
  pathOf : ∀ id ∉ todo, r'.pathOf id = r.pathOf id

namespace Moved

variable {r' r'' : Registry}

theorem refl (r : Registry) (todo : List BufferId) : Moved r r todo :=
  ⟨rfl, rfl, rfl, fun _ => rfl, fun _ _ => rfl⟩

theorem trans (h : Moved r r' todo) (h' : Moved r' r'' todo) : Moved r r'' todo :=
  ⟨h'.order.trans h.order, h'.names.trans h.names, h'.nameOf.trans h.nameOf,
    fun id => (h'.isSome id).trans (h.isSome id),
    fun id hid => (h'.pathOf id hid).trans (h.pathOf id hid)⟩

theorem modify (r : Registry) (id : BufferId) {f : Buffer → Buffer}
    (hname : ∀ b, (f b).name = b.name)
    (hpath : id ∉ todo → ∀ b, (f b).namePath = b.namePath) : Moved r (r.modify id f) todo := by
  unfold Registry.modify
  cases hb : r.buffers.lookup id with
  | none => exact .refl r todo
  | some b =>
    have hlookup (i : BufferId) : (r.buffers.insert id (f b)).lookup i =
        if i = id then some (f b) else r.buffers.lookup i := by
      by_cases hi : i = id
      · subst hi; simp
      · rw [lookup_insert_ne hi, if_neg hi]
    refine ⟨rfl, rfl, ?_, fun i => ?_, fun i hi => ?_⟩
    · ext1 i
      unfold Registry.nameOf; rw [hlookup]
      split
      · rename_i hi; rw [hi, hb, map_some, map_some, hname]
      · rfl
    · rw [hlookup]
      split
      · rename_i hi; rw [hi, hb]; rfl
      · rfl
    unfold Registry.pathOf; rw [hlookup]
    split
    · rename_i heq; subst heq; rw [hb, bind_some, bind_some, hpath hi]
    · rfl

theorem busy (h : Moved r r' todo) (s : Session r filed) : Busy r' filed todo :=
  { ids := by rw [h.order]; exact s.ids
    registered := fun id => by rw [h.order, h.isSome]; exact s.registered id
    paths := fun f hf hid => by rw [h.pathOf _ hid]; exact s.paths f hf
    sorted := by rw [h.order, h.names]; exact s.sorted
    placed := fun id hid => by
      rw [h.order] at hid; rw [h.names]; exact s.placed id hid }

end Moved

theorem Session.mid (s : Session r filed)
    (hfresh : ∀ k e, r.names.entry k = some e → Fresh r.names r.nameOf k e) :
    Mid r.names r.nameOf filed [] :=
  ⟨s.index, s.names, fun k e he => .inr (hfresh k e he)⟩

variable {r₁ : Registry}

theorem moved_kept (h : Kept r) (hmoved : Moved r r₁ ids) :
    ∃ r', r₁.refreshNames order ids = some r' ∧ Kept r' ∧ r'.NamedAsWhole r.nameOf := by
  obtain ⟨filed, s, hfresh⟩ := h.session
  have m : Mid r₁.names r₁.nameOf filed [] := by
    rw [hmoved.names, hmoved.nameOf]; exact s.mid hfresh
  rw [← hmoved.nameOf]
  exact refreshNames_kept order (hmoved.busy s) m (by rw [hmoved.order]; exact h.room)

theorem moved_nil_kept (h : Kept r) (hmoved : Moved r r₁ []) : Kept r₁ := by
  obtain ⟨filed, s, hfresh⟩ := h.session
  have m : Mid r₁.names r₁.nameOf filed [] := by
    rw [hmoved.names, hmoved.nameOf]; exact s.mid hfresh
  refine ⟨⟨filed, (hmoved.busy s).session m.index m.names, fun k e he => ?_⟩, ?_⟩
  · exact (m.fresh k e he).resolve_left not_mem_nil
  · rw [hmoved.order]; exact h.room

/-! ## Buffers that come and go -/

theorem Mid.setPlace {nm : BufferId → BufferName} (m : Mid x nm filed dirty)
    {place : Assoc BufferId ℕ} (nextPlace : ℕ)
    (hplace : ∀ f ∈ filed, place.lookup f.id = x.place.lookup f.id) :
    Mid { x with place := place, nextPlace := nextPlace } nm filed dirty := by
  have h := m.index
  refine ⟨?_, m.names, fun key e he => (m.fresh key e he).imp_right fun hf => ⟨hf.depth, hf.named⟩⟩
  exact { h with placed := fun f hf => (hplace f hf).trans (h.placed f hf) }

/-- What is left when `id` is not filed. -/
theorem filter_ids {order : List BufferId} (id : BufferId) (h : (filed.map Filed.id).Perm order) :
    ((filed.filter fun g => g.id ≠ id).map Filed.id).Perm (order.filter (· ≠ id)) := by
  have := h.filter (· ≠ id)
  rwa [List.filter_map] at this

/-- **A buffer is removed**: the names settle, to those of the session without it. -/
theorem remove_kept (h : Kept r) :
    ∃ r', r.remove order id = some r' ∧ Kept r' ∧ r'.NamedAsWhole r.nameOf := by
  obtain ⟨filed, s, hfresh⟩ := h.session
  unfold Registry.remove
  cases hb : r.buffers.lookup id with
  | none => exact ⟨r, rfl, h, h.named⟩
  | some buf =>
    simp only
    split
    · exact ⟨r, rfl, h, h.named⟩
    have hmem : id ∈ r.order := (s.registered id).2 (by rw [hb]; rfl)
    obtain ⟨f, hf, rfl⟩ := mem_map.1 (s.ids.mem_iff.2 hmem)
    have hname : f.name = buf.name := by rw [← nameOf_eq hb, s.names f hf]
    obtain ⟨x', dirty', heq, hplace, hnext, m, -⟩ := unfile_spec
      (r := { r with buffers := r.buffers.erase f.id, order := r.order.filter (· ≠ f.id) })
      (s.mid hfresh) hf
    rw [← hname, heq]
    -- the registry without the buffer
    have hne {g : Filed} (hg : g ∈ filed.filter fun g => g.id ≠ f.id) : g.id ≠ f.id := by
      simpa using (mem_filter.1 hg).2
    have hlookup {i : BufferId} (hi : i ≠ f.id) :
        (r.buffers.erase f.id).lookup i = r.buffers.lookup i := lookup_erase_ne hi
    set r₁ : Registry := { r with
      buffers := r.buffers.erase f.id
      order := r.order.filter (· ≠ f.id)
      names := { x' with place := x'.place.erase f.id } }
    have hnameOf {i : BufferId} (hi : i ≠ f.id) : r₁.nameOf i = r.nameOf i := by
      unfold Registry.nameOf; rw [hlookup hi]
    have hplaceOf {i : BufferId} (hi : i ≠ f.id) : r₁.names.placeOf i = r.names.placeOf i := by
      unfold NameIndex.placeOf; rw [lookup_erase_ne hi, hplace]
    have m' : Mid r₁.names r₁.nameOf (filed.filter fun g => g.id ≠ f.id) dirty' :=
      (m.congr_names fun g hg => hnameOf (hne hg)).setPlace x'.nextPlace
        fun g hg => lookup_erase_ne (hne hg)
    have b : Busy r₁ (filed.filter fun g => g.id ≠ f.id) [] := by
      refine
        { ids := filter_ids f.id s.ids
          registered := fun i => ?_
          paths := fun g hg _ => ?_
          sorted := ?_
          placed := fun i hi => ?_ }
      · by_cases hi : i = f.id
        · subst hi; simp [r₁]
        · rw [hlookup hi, ← s.registered]; simp [r₁, hi]
      · unfold Registry.pathOf; rw [hlookup (hne hg)]
        exact s.paths g (mem_filter.1 hg).1
      · refine (s.sorted.sublist filter_sublist).imp_of_mem fun {i j} hi hj hlt => ?_
        rw [hplaceOf (by simpa using (mem_filter.1 hi).2),
          hplaceOf (by simpa using (mem_filter.1 hj).2)]
        exact hlt
      rw [hplaceOf (by simpa using (mem_filter.1 hi).2)]; change _ < x'.nextPlace; rw [hnext]
      exact s.placed i (mem_filter.1 hi).1
    have hroom : (r.order.filter (· ≠ f.id)).length + 1 ≤ usizeMax := by
      have := length_filter_le (· ≠ f.id) r.order; have := h.room; omega
    obtain ⟨r', hsettle, hkept, hsame, hnamed⟩ :=
      settle_kept order (b.session m'.index m'.names) m'.ready hroom
    refine ⟨r', hsettle, hkept, hnamed.congr fun i p hip => hnameOf ?_⟩
    have hmem' := (Registry.mem_derived.1 hip).1; rw [hsame.order] at hmem'
    simpa using (mem_filter.1 hmem').2

theorem setName_kept (h : Kept r) (name : BufferName) :
    ∃ r', r.setName order id name = some r' ∧ Kept r' ∧ r'.NamedAsWhole r.nameOf := by
  obtain ⟨filed, s, hfresh⟩ := h.session
  unfold Registry.setName
  cases hb : r.buffers.lookup id with
  | none => exact ⟨r, rfl, h, h.named⟩
  | some buf =>
    simp only; have hmem : id ∈ r.order := (s.registered id).2 (by rw [hb]; rfl)
    obtain ⟨f, hf, rfl⟩ := mem_map.1 (s.ids.mem_iff.2 hmem)
    have hname : f.name = buf.name := by rw [← nameOf_eq hb, s.names f hf]
    obtain ⟨x₁, dirty₁, heq₁, hplace₁, hnext₁, m₁, -⟩ := unfile_spec (s.mid hfresh) hf
    rw [← hname, heq₁]
    have hmodify : Registry.modify { r with names := x₁ } f.id (·.setName name) =
        { r with buffers := r.buffers.insert f.id (buf.setName name), names := x₁ } := by
      unfold Registry.modify; simp only [hb]
    rw [hmodify]
    set buffers := r.buffers.insert f.id (buf.setName name)
    have hlookup {i : BufferId} (hi : i ≠ f.id) : buffers.lookup i = r.buffers.lookup i :=
      lookup_insert_ne hi
    have hnameOf {x : NameIndex} {i : BufferId} (hi : i ≠ f.id) :
        Registry.nameOf { r with buffers := buffers, names := x } i = r.nameOf i := by
      unfold Registry.nameOf; rw [hlookup hi]
    have hself : buffers.lookup f.id = some (buf.setName name) := lookup_insert _
    have m₁' : Mid x₁ (Registry.nameOf { r with buffers := buffers, names := x₁ })
        (filed.filter fun g => g.id ≠ f.id) dirty₁ := m₁.congr_names fun g hg =>
      hnameOf (by simpa using (mem_filter.1 hg).2)
    obtain ⟨x₂, dirty₂, heq₂, hplace₂, hnext₂, m₂⟩ := file_spec
      (r := { r with buffers := buffers, names := x₁ }) m₁' hself id_not_mem
      (s.index.place_not_mem hf) (by rw [hplace₁]; exact s.index.placed f hf) (nameOf_eq hself)
      (fun hpath => absurd rfl hpath)
    rw [heq₂]
    have b : Busy { r with buffers := buffers, names := x₁ } filed [f.id] := by
      refine
        { ids := s.ids
          registered := fun i => ?_
          paths := fun g hg hgid => ?_
          sorted := ?_
          placed := fun i hi => ?_ }
      · by_cases hi : i = f.id
        · subst hi; simp [hmem, hself]
        · rw [hlookup hi]; exact s.registered i
      · unfold Registry.pathOf; rw [hlookup (by simpa using hgid)]
        exact s.paths g hg
      · refine s.sorted.imp fun {i j} hlt => ?_; simpa [NameIndex.placeOf, hplace₁] using hlt
      · have := s.placed i hi; simp only [NameIndex.placeOf, hplace₁, hnext₁] at this ⊢; exact this
    have b' := b.refiled s.index.ids hf hself f.place hplace₂ hnext₂
    obtain ⟨r', hsettle, hkept, hsame, hnamed⟩ :=
      settle_kept order (b'.session m₂.index m₂.names) m₂.ready h.room
    refine ⟨r', hsettle, hkept, hnamed.congr fun i p hip => hnameOf ?_⟩
    -- the buffer that was named is not named by a path
    rintro rfl; have hpath := (Registry.mem_derived.1 hip).2
    rw [Registry.pathOf, hsame.buffers, hself] at hpath; cases hpath

/-- What is left of a registry when the buffer `id` is to be inserted: it is held already, and
    not filed. -/
structure Opened (r : Registry) (id : BufferId) (b : Buffer) (filed : List Filed) : Prop where
  buffer : r.buffers.lookup id = some b
  ids : (filed.map Filed.id).Perm r.order
  not_mem : id ∉ r.order
  registered : ∀ i ≠ id, i ∈ r.order ↔ (r.buffers.lookup i).isSome = true
  paths : ∀ f ∈ filed, (r.pathOf f.id).map NamePath.whole = f.path.map NamePath.whole
  sorted : r.order.Pairwise fun i j => r.names.placeOf i < r.names.placeOf j
  placed : ∀ i ∈ r.order, r.names.placeOf i < r.names.nextPlace

theorem opened_kept (o : Opened r id b filed) (m : Mid r.names r.nameOf filed dirty)
    (hcarried : ∀ p, b.namePath = some p → withoutSuffix b.name = none ∨
      b.name ≠ Registry.pathName { r with order := r.order ++ [id] } p ∨
      ∀ g ∈ filed, ∀ q, g.path = some q → g.name = b.name → b.name ∈ q.names)
    (hroom : r.order.length + 2 ≤ usizeMax) :
    ∃ r₁ dirty₁ r', Registry.file { r with
        order := r.order ++ [id]
        names := { r.names with
          place := r.names.place.insert id r.names.nextPlace
          nextPlace := r.names.nextPlace + 1 } } id dirty = (r₁, dirty₁) ∧
      r₁.settle order dirty₁ = some r' ∧ Kept r' ∧ r'.NamedAsWhole r.nameOf := by
  have hne {i : BufferId} (hi : i ∈ r.order) : i ≠ id := fun heq => o.not_mem (heq ▸ hi)
  have hneFiled {f : Filed} (hf : f ∈ filed) : f.id ≠ id :=
    hne (o.ids.mem_iff.1 (mem_map.2 ⟨f, hf, rfl⟩))
  have hnotFiled : id ∉ filed.map Filed.id := fun hmem => o.not_mem (o.ids.mem_iff.1 hmem)
  have hlast : r.names.nextPlace ∉ filed.map Filed.place := by
    intro hmem; obtain ⟨f, hf, heq⟩ := mem_map.1 hmem
    have := o.placed f.id (o.ids.mem_iff.1 (mem_map.2 ⟨f, hf, rfl⟩))
    rw [NameIndex.placeOf, m.index.placed f hf, getD_some] at this; omega
  have m₁ : Mid { r.names with
      place := r.names.place.insert id r.names.nextPlace
      nextPlace := r.names.nextPlace + 1 } r.nameOf filed dirty :=
    m.setPlace _ fun f hf => lookup_insert_ne (hneFiled hf)
  have hplaceOf {x : NameIndex} (hx : x.place = r.names.place.insert id r.names.nextPlace)
      {i : BufferId} (hi : i ∈ r.order) : x.placeOf i = r.names.placeOf i := by
    rw [NameIndex.placeOf, hx, lookup_insert_ne (hne hi), NameIndex.placeOf]
  have hplaceOf' {x : NameIndex} (hx : x.place = r.names.place.insert id r.names.nextPlace) :
      x.placeOf id = r.names.nextPlace := by
    rw [NameIndex.placeOf, hx, lookup_insert, getD_some]
  obtain ⟨x₂, dirty₂, heq₂, hplace₂, hnext₂, index, hready⟩ := file_carried (r := { r with
      order := r.order ++ [id]
      names := { r.names with
        place := r.names.place.insert id r.names.nextPlace
        nextPlace := r.names.nextPlace + 1 } })
    m₁ o.buffer hnotFiled hlast (lookup_insert _) (nameOf_eq o.buffer)
  set r₂ : Registry := { r with order := r.order ++ [id], names := x₂ }
  have busy : Busy r₂ (⟨id, r.names.nextPlace, b.name, b.namePath⟩ :: filed) [] := by
    refine
      { ids := ?_
        registered := fun i => ?_
        paths := fun g hg _ => ?_
        sorted := ?_
        placed := fun i hi => ?_ }
    · exact (o.ids.cons id).trans (perm_append_singleton id r.order).symm
    · by_cases hi : i = id
      · subst hi; simp [r₂, o.buffer]
      · rw [← o.registered i hi]; simp [r₂, hi]
    · rcases mem_cons.1 hg with rfl | hg
      · rw [pathOf_eq (r := r₂) o.buffer]
      · exact o.paths g hg
    · rw [pairwise_append]
      refine ⟨o.sorted.imp_of_mem fun {i j} hi hj hlt => ?_, pairwise_singleton _ _,
        fun i hi j hj => ?_⟩
      · rwa [hplaceOf hplace₂ hi, hplaceOf hplace₂ hj]
      rw [mem_singleton] at hj; subst hj; rw [hplaceOf hplace₂ hi, hplaceOf' hplace₂]
      exact o.placed i hi
    have hnext : x₂.nextPlace = r.names.nextPlace + 1 := hnext₂; rw [hnext]
    rcases mem_append.1 hi with hi | hi
    · rw [hplaceOf hplace₂ hi]; have := o.placed i hi; omega
    · rw [mem_singleton] at hi; rw [hi, hplaceOf' hplace₂]; omega
  have s : Session r₂ (⟨id, r.names.nextPlace, b.name, b.namePath⟩ :: filed) := by
    refine busy.session index fun g hg => ?_
    rcases mem_cons.1 hg with rfl | hg
    · exact nameOf_eq o.buffer
    · exact m.names g hg
  -- the name its path is to be shown by is the one in the index
  have ready := hready fun p hp => by
    have hpath := pathOf_eq (r := r₂) o.buffer
    rw [← s.pathName_eq (Registry.mem_derived.2 ⟨by simp [r₂], hpath.trans hp⟩)]; exact hcarried p hp
  obtain ⟨r', hsettle, hkept, -, hnamed⟩ := settle_kept order s ready (by
    rw [length_append, length_singleton]; omega)
  exact ⟨_, dirty₂, r', heq₂, hsettle, hkept, hnamed⟩

def Registry.added (r : Registry) (buffer : Buffer) : Registry :=
  { r with
    buffers := r.buffers.insert buffer.id buffer
    order := r.order.filter (· ≠ buffer.id) ++ [buffer.id] }

/-- The name a buffer is inserted with moves no path: it is no `<N>`, or the buffer's path is not
    to be shown by it, or no buffer named by a path is shown by it as a `<N>`. -/
def Registry.Carries (r : Registry) (buffer : Buffer) : Prop :=
  ∀ p, buffer.namePath = some p → withoutSuffix buffer.name = none ∨
    buffer.name ≠ (r.added buffer).pathName p ∨
    ∀ id ∈ r.order, id ≠ buffer.id → ∀ q, r.pathOf id = some q → r.nameOf id = buffer.name →
      buffer.name ∈ q.names

theorem insert_kept (h : Kept r) (buffer : Buffer)
    (hcarried : r.Carries buffer) (hroom : r.order.length + 2 ≤ usizeMax) :
    ∃ r', r.insert order buffer = some r' ∧ Kept r' ∧
      r'.NamedAsWhole (Function.update r.nameOf buffer.id buffer.name) := by
  obtain ⟨filed, s, hfresh⟩ := h.session
  have hself : (r.buffers.insert buffer.id buffer).lookup buffer.id = some buffer :=
    lookup_insert _
  have hlookup {i : BufferId} (hi : i ≠ buffer.id) :
      (r.buffers.insert buffer.id buffer).lookup i = r.buffers.lookup i :=
    lookup_insert_ne hi
  have hnameOf {x : NameIndex} {ids : List BufferId} : Registry.nameOf { r with
      buffers := r.buffers.insert buffer.id buffer, order := ids, names := x } =
        Function.update r.nameOf buffer.id buffer.name := by
    ext1 i
    by_cases hi : i = buffer.id
    · subst hi; rw [nameOf_eq hself, update_self]
    · rw [update_of_ne hi]; unfold Registry.nameOf; rw [hlookup hi]
  -- whether it was registered already or not, it is not filed when it is put at the end
  have hopened {x : NameIndex} {rest : List Filed} {ids : List BufferId}
      (hplace : x.place = r.names.place) (hnext : x.nextPlace = r.names.nextPlace)
      (hrest : rest = filed.filter fun g => g.id ≠ buffer.id)
      (hids : ids = r.order.filter (· ≠ buffer.id)) : Opened { r with
        buffers := r.buffers.insert buffer.id buffer, order := ids, names := x }
        buffer.id buffer rest := by
    subst hrest hids
    have hplaceOf : x.placeOf = r.names.placeOf := by
      ext i; rw [NameIndex.placeOf, hplace, NameIndex.placeOf]
    refine
      { buffer := hself
        ids := filter_ids buffer.id s.ids
        not_mem := by simp
        registered := fun i hi => ?_
        paths := fun g hg => ?_
        sorted := ?_
        placed := fun i hi => ?_ }
    · rw [hlookup hi, ← s.registered]; simp [hi]
    · unfold Registry.pathOf; rw [hlookup (by simpa using (mem_filter.1 hg).2)]
      exact s.paths g (mem_filter.1 hg).1
    · rw [hplaceOf]
      exact s.sorted.sublist filter_sublist
    · rw [hplaceOf, hnext]; exact s.placed i (mem_filter.1 hi).1
  have hcarried' : ∀ p, buffer.namePath = some p → withoutSuffix buffer.name = none ∨
      buffer.name ≠ (r.added buffer).pathName p ∨
      ∀ g ∈ filed.filter fun g => g.id ≠ buffer.id, ∀ q, g.path = some q →
        g.name = buffer.name → buffer.name ∈ q.names := by
    intro p hp
    refine (hcarried p hp).imp_right (Or.imp_right fun hother g hg q hq hname => ?_)
    obtain ⟨hg, hne⟩ := mem_filter.1 hg; have hpath := s.paths g hg
    rw [hq, map_some, map_eq_some_iff] at hpath; obtain ⟨q', hq', hwhole⟩ := hpath
    rw [← q'.names_congr hwhole]
    exact hother g.id (s.ids.mem_iff.1 (mem_map.2 ⟨g, hg, rfl⟩)) (by simpa using hne) q' hq'
      ((s.names g hg).trans hname)
  have hlength : (r.order.filter (· ≠ buffer.id)).length + 2 ≤ usizeMax := by
    have := length_filter_le (· ≠ buffer.id) r.order; omega
  have hupdate {g : Filed} (hg : g ∈ filed.filter fun g => g.id ≠ buffer.id) :
      Function.update r.nameOf buffer.id buffer.name g.id = r.nameOf g.id :=
    update_of_ne (by simpa using (mem_filter.1 hg).2) _ _
  unfold Registry.insert
  simp only
  cases hb : r.buffers.lookup buffer.id with
  | none =>
    have hnot : buffer.id ∉ r.order := fun hmem => by
      have := (s.registered buffer.id).1 hmem; simp [hb] at this
    have hids : r.order = r.order.filter (· ≠ buffer.id) := by
      refine (filter_eq_self.2 fun i hi => ?_).symm
      have hne : i ≠ buffer.id := fun heq => hnot (heq ▸ hi); simpa using hne
    have hrest : filed = filed.filter fun g => g.id ≠ buffer.id := by
      refine (filter_eq_self.2 fun g hg => ?_).symm
      have hne : g.id ≠ buffer.id := fun heq =>
        hnot (heq ▸ s.ids.mem_iff.1 (mem_map.2 ⟨g, hg, rfl⟩))
      simpa using hne
    have m : Mid r.names (Function.update r.nameOf buffer.id buffer.name) filed [] :=
      (s.mid hfresh).congr_names fun g hg => hupdate (hrest ▸ hg)
    have hadded : r.added buffer = { r with
        buffers := r.buffers.insert buffer.id buffer, order := r.order ++ [buffer.id] } := by
      unfold Registry.added; rw [← hids]
    rw [hadded, ← hrest] at hcarried'
    obtain ⟨r₁, dirty₁, r', hfile, hsettle, hkept, hnamed⟩ := opened_kept order
      (hopened rfl rfl hrest hids) (by rw [hnameOf]; exact m) hcarried' hroom
    rw [hnameOf] at hnamed
    refine ⟨r', ?_, hkept, hnamed⟩; simp only [hfile]
    exact hsettle
  | some old =>
    have hmem : buffer.id ∈ r.order := (s.registered buffer.id).2 (by rw [hb]; rfl)
    obtain ⟨f, hf, hid⟩ := mem_map.1 (s.ids.mem_iff.2 hmem)
    have hname : f.name = old.name := by rw [← nameOf_eq hb, ← hid, s.names f hf]
    obtain ⟨x₁, dirty₁, heq₁, hplace₁, hnext₁, m₁, -⟩ := unfile_spec (r := { r with
      buffers := r.buffers.insert buffer.id buffer, order := r.order.filter (· ≠ buffer.id) })
      (s.mid hfresh) hf
    rw [hid] at heq₁ m₁
    have m : Mid x₁ (Function.update r.nameOf buffer.id buffer.name)
        (filed.filter fun g => g.id ≠ buffer.id) dirty₁ := m₁.congr_names fun g hg => hupdate hg
    obtain ⟨r₂, dirty₂, r', hfile, hsettle, hkept, hnamed⟩ := opened_kept order
      (hopened hplace₁ hnext₁ rfl rfl) (by rw [hnameOf]; exact m) hcarried' hlength
    rw [hnameOf] at hnamed
    refine ⟨r', ?_, hkept, hnamed⟩; dsimp only; rw [← hname]
    simp only [heq₁, hfile]; exact hsettle

end Pmacs.Naming
