/-
  What the naming index holds.

  * `NameIndex.Ok`: every group is right; `namedIn_iff`, `loneIn_eq`, `shared_iff`: what is read
    from the index then.
  * `join_spec`, `leave_spec`: what filing and unfiling under a path does to it, and marks.
  * `Indexed`: the index is that of the buffers that are filed; `Indexed.join`,
    `Indexed.leave`: it is kept.
-/
import Pmacs.Naming.Groups

namespace Pmacs.Naming

open Lib AList List Option

variable {key : PathKey} {e : GroupPath} {p : NamePath}

namespace NameIndex

variable {x : NameIndex}

/-! ## Reading the index -/

def Ok (x : NameIndex) : Prop :=
  ∀ groupName group, x.group groupName = some group → group.Ok groupName x.nextPath

variable (groupName : BufferName) {group : Group}

@[simp] theorem group_setGroup {name : BufferName} :
    (x.setGroup groupName group).group name =
      if name = groupName then some group else x.group name := by
  unfold NameIndex.group setGroup
  by_cases h : name = groupName
  · subst h; simp
  · simp [lookup_insert_ne h, h]

theorem entry_setGroup (group : Group) (key : PathKey) : (x.setGroup groupName group).entry key =
      if key.1 = groupName then group.paths.lookup key.2 else x.entry key := by
  unfold entry
  rw [group_setGroup]
  split <;> rfl

theorem shared_setGroup (group : Group) (name n : BufferName) :
    (x.setGroup groupName group).shared name n =
      if name = groupName then (group.shared.lookup n).any (fun count => 1 < count.1)
      else x.shared name n := by
  unfold shared
  rw [group_setGroup]
  split <;> rfl

theorem shared_eq {n : BufferName} : x.shared groupName n =
    (((x.group groupName).getD .default).shared.lookup n).any fun count => 1 < count.1 := by
  unfold shared
  cases x.group groupName <;> rfl

theorem entry_eq (key : PathKey) : x.entry key =
    ((x.group key.1).getD .default).paths.lookup key.2 := by
  unfold entry
  cases x.group key.1 <;> rfl

theorem entry_eq_some : x.entry key = some e ↔
    ∃ group, x.group key.1 = some group ∧ group.paths.lookup key.2 = some e :=
  bind_eq_some_iff

namespace Ok

variable (ok : x.Ok)
include ok

theorem setGroup {groupName : BufferName} (h : group.Ok groupName x.nextPath) :
    (x.setGroup groupName group).Ok := by
  intro name g hg
  rw [group_setGroup] at hg
  split at hg
  · rename_i hname; cases hg; exact hname ▸ h
  · exact ok name g hg

theorem entry_key (he : x.entry key = some e) : key = (e.path.group, e.path.whole) := by
  obtain ⟨group, hgroup, hpath⟩ := entry_eq_some.1 he
  obtain ⟨hwhole, hname⟩ := (ok _ _ hgroup).key _ _ hpath
  rw [hwhole, hname]

theorem entry_depth {d : ℕ} (he : x.entry key = some e)
    (hd : e.depth = some d) : d < e.path.names.length := by
  obtain ⟨group, hgroup, hpath⟩ := entry_eq_some.1 he
  exact (ok _ _ hgroup).depth _ _ d hpath hd

variable {name : BufferName}

theorem namedIn_iff {groupName whole : BufferName} :
    x.namedIn groupName name = some whole ↔ ∃ e d, x.entry (groupName, whole) = some e ∧
      e.depth = some d ∧ e.path.name d = name := by
  unfold namedIn entry
  cases hgroup : x.group groupName with
  | none => simp
  | some group => exact (ok _ _ hgroup).named name whole

theorem shared_iff_length {groupName : BufferName} (hgroup : x.group groupName = some group) :
    x.shared groupName name = true ↔ 1 < (idsOf group.paths name).length := by
  unfold shared
  rw [hgroup]
  exact (ok _ _ hgroup).shared_iff name

theorem loneIn_eq (he : x.entry key = some e)
    (hname : name ∈ e.path.names) (hshared : x.shared key.1 name = false) :
    x.loneIn key.1 name = some key.2 := by
  obtain ⟨group, hgroup, hpath⟩ := entry_eq_some.1 he
  have hle : (idsOf group.paths name).length ≤ 1 := by
    have hnot : ¬x.shared key.1 name = true := by simp [hshared]
    rw [ok.shared_iff_length hgroup] at hnot; omega
  unfold loneIn
  rw [hgroup, bind_some, (ok _ _ hgroup).tally_of_not_shared hpath hname hle]
  exact ((ok _ _ hgroup).byId _ _).2 ⟨e, hpath, rfl⟩

theorem shared_iff (he : x.entry key = some e) (hname : name ∈ e.path.names) : x.shared key.1 name = true ↔
      ∃ whole e', whole ≠ key.2 ∧ x.entry (key.1, whole) = some e' ∧ name ∈ e'.path.names := by
  obtain ⟨group, hgroup, hpath⟩ := entry_eq_some.1 he
  have hperm := idsOf_lookup hpath name
  rw [if_pos hname] at hperm
  rw [ok.shared_iff_length hgroup, hperm.length_eq, length_cons]
  have hentry (whole : BufferName) (e' : GroupPath) :
      x.entry (key.1, whole) = some e' ↔ group.paths.lookup whole = some e' := by
    unfold entry; rw [hgroup, bind_some]
  constructor
  · intro h
    obtain ⟨i, hi⟩ := exists_mem_of_length_pos (by omega :
      0 < (idsOf (group.paths.erase key.2) name).length)
    obtain ⟨whole, e', he', hname', -⟩ := mem_idsOf.1 hi
    have hne : whole ≠ key.2 := by
      rintro rfl; rw [lookup_erase] at he'; cases he'
    rw [lookup_erase_ne hne] at he'; exact ⟨whole, e', hne, (hentry whole e').2 he', hname'⟩
  rintro ⟨whole, e', hne, he', hname'⟩
  have hi : e'.id ∈ idsOf (group.paths.erase key.2) name := by
    refine mem_idsOf.2 ⟨whole, e', ?_, hname', rfl⟩; rw [lookup_erase_ne hne]
    exact (hentry whole e').1 he'
  have := length_pos_of_mem hi; omega

end Ok

/-! ## Filing under a path -/

/-- What filing `id` under the path `key` does: the holders of the path change, nothing else of
    any path; names of other paths may become shared. -/
structure Joined (x x' : NameIndex) (id : BufferId) (key : PathKey) (dirty dirty' : Dirty) :
    Prop where
  held : x'.held = x.held
  reserved : x'.reserved = x.reserved
  place : x'.place = x.place
  nextPlace : x'.nextPlace = x.nextPlace
  member : x'.member = x.member.insert id key
  ok : x'.Ok
  self : ∃ e', x'.entry key = some e' ∧ e'.holders =
    insertHolder (x.placeOf id, id) (((x.entry key).map (·.holders)).getD [])
  other : ∀ k, k ≠ key → x'.entry k = x.entry k
  marks : ∀ k e d, k ≠ key → x.entry k = some e → e.depth = some d →
    x.shared k.1 (e.path.name d) = false → x'.shared k.1 (e.path.name d) = true → k ∈ dirty'
  dirty : ∀ k ∈ dirty, k ∈ dirty'
  self_dirty : key ∈ dirty'

theorem mem_name {d : ℕ} (h : d < p.names.length) : p.name d ∈ p.names := by
  rw [NamePath.length_names] at h
  exact p.mem_names.2 ⟨d, by omega, rfl⟩

theorem join_spec (ok : x.Ok) (id : BufferId) (p : NamePath) (dirty : Dirty) :
    Joined x (x.join id p dirty).1 id (p.group, p.whole) dirty (x.join id p dirty).2 := by
  -- the group the path is filed in
  have hgroupOk : ((x.group p.group).getD .default).Ok p.group x.nextPath := by
    cases hgroup : x.group p.group with
    | none => exact Group.ok_default _ _
    | some group => exact ok _ _ hgroup
  have hkey : x.entry (p.group, p.whole) =
      ((x.group p.group).getD .default).paths.lookup p.whole := entry_eq _
  -- another path of the group is what it was
  have hother {k : PathKey} (hk : k ≠ (p.group, p.whole)) (e : GroupPath) :
      (if k.1 = p.group then
        (((x.group p.group).getD .default).paths.insert p.whole e).lookup k.2
      else x.entry k) = x.entry k := by
    split
    · rename_i hname; have hwhole : k.2 ≠ p.whole := fun h => hk (Prod.ext hname h)
      rw [lookup_insert_ne hwhole, entry_eq, hname]
    · rfl
  unfold join
  simp only
  cases hpath : ((x.group p.group).getD .default).paths.lookup p.whole with
  | some e =>
    -- the path is there: only its holders change
    rw [hpath] at hkey
    refine
      { held := rfl
        reserved := rfl
        place := rfl
        nextPlace := rfl
        member := rfl
        ok := ok.setGroup (hgroupOk.setHolders hpath _)
        self := ⟨{ e with holders := insertHolder (x.placeOf id, id) e.holders },
          (entry_setGroup _ _ _).trans ((if_pos rfl).trans (lookup_insert _)),
          by rw [hkey]; rfl⟩
        other := fun k hk => (entry_setGroup _ _ _).trans (hother hk _)
        marks := fun k e' d hk he' hd hshared hshared' => ?_
        dirty := fun k hk => mem_insert_of_mem hk
        self_dirty := mem_insert_self }
    -- no count changes
    have hsame : (x.setGroup p.group { (x.group p.group).getD .default with
        paths := ((x.group p.group).getD .default).paths.insert p.whole
          { e with holders := insertHolder (x.placeOf id, id) e.holders } }).shared k.1
            (e'.path.name d) = x.shared k.1 (e'.path.name d) := by
      rw [shared_setGroup]
      split
      · rename_i hname; rw [shared_eq, hname]
      · rfl
    have hfalse := hsame.symm.trans hshared'; rw [hshared] at hfalse; cases hfalse
  | none =>
    rw [hpath] at hkey; have hnew := hgroupOk.newPath rfl hpath (x.placeOf id, id) dirty
    have ok' : ({ x with nextPath := x.nextPath + 1 } : NameIndex).Ok :=
      fun name g hg => (ok name g hg).mono (Nat.le_succ _)
    have hrec := @shareAll_spec p.group x.nextPath p.names ((x.group p.group).getD .default)
      dirty p.nodup_names
    have hpaths : (((x.group p.group).getD .default).newPath x.nextPath p
        (x.placeOf id, id) dirty).1.paths = ((x.group p.group).getD .default).paths.insert p.whole
          ⟨x.nextPath, p, [(x.placeOf id, id)], none⟩ := by
      rw [← hrec.paths]; rfl
    refine
      { held := rfl
        reserved := rfl
        place := rfl
        nextPlace := rfl
        member := rfl
        ok := ok'.setGroup hnew
        self := ⟨⟨x.nextPath, p, [(x.placeOf id, id)], none⟩,
          (entry_setGroup _ _ _).trans ((if_pos rfl).trans (by
            exact lookup_insert _)), by rw [hkey]; rfl⟩
        other := fun k hk => (entry_setGroup _ _ _).trans (by
          rw [hpaths]; exact hother hk _)
        marks := fun k e' d hk he' hd hshared hshared' => ?_
        dirty := fun k hk => mem_insert_of_mem (hrec.dirty k hk)
        self_dirty := mem_insert_self }
    have hcount : (((x.group p.group).getD .default).newPath x.nextPath p
        (x.placeOf id, id) dirty).1.shared.lookup (e'.path.name d) =
          if e'.path.name d ∈ p.names then
            some (tallyAdd (((x.group p.group).getD .default).shared.lookup (e'.path.name d))
              x.nextPath)
          else ((x.group p.group).getD .default).shared.lookup (e'.path.name d) := hrec.shared _
    have hnow := (shared_setGroup (x := { x with nextPath := x.nextPath + 1 }) p.group
      _ _ _).symm.trans hshared'
    split at hnow
    · rename_i hname; rw [hcount] at hnow; rw [shared_eq, hname] at hshared
      split at hnow
      · rename_i hmem; rw [entry_eq, hname] at he'
        have hle := (hgroupOk.shared_iff (e'.path.name d)).not.1 (by simp [hshared])
        have hmark := hgroupOk.newPath_marks rfl (x.placeOf id, id) dirty he' hd (by omega) hmem
        rw [show (p.group, k.2) = k from Prod.ext hname.symm rfl] at hmark
        exact mem_insert_of_mem hmark
      · rw [hshared] at hnow; cases hnow
    rw [show ({ x with nextPath := x.nextPath + 1 } : NameIndex).shared k.1 (e'.path.name d) =
      x.shared k.1 (e'.path.name d) from rfl, hshared] at hnow
    cases hnow

/-! ## Unfiling from a path -/

/-- What unfiling `id` from the path `key` does: the holders of the path change, or it goes;
    names of other paths may not be shared any more. -/
structure Left (x x' : NameIndex) (id : BufferId) (key : PathKey) (e : GroupPath)
    (dirty dirty' : Dirty) : Prop where
  held : x'.held = x.held
  reserved : x'.reserved = x.reserved
  place : x'.place = x.place
  nextPlace : x'.nextPlace = x.nextPlace
  member : x'.member = x.member.erase id
  ok : x'.Ok
  gone : (e.holders.eraseP fun h => h.1 = x.placeOf id) = [] → x'.entry key = none
  stays : (e.holders.eraseP fun h => h.1 = x.placeOf id) ≠ [] →
    x'.entry key = some { e with holders := e.holders.eraseP fun h => h.1 = x.placeOf id } ∧
      key ∈ dirty'
  other : ∀ k, k ≠ key → x'.entry k = x.entry k
  marks : ∀ k e' n, k ≠ key → x.entry k = some e' → n ∈ e'.path.names →
    x.shared k.1 n = true → x'.shared k.1 n = false → k ∈ dirty'
  dirty : ∀ k ∈ dirty, k ∈ dirty'

theorem leave_spec (ok : x.Ok) {id : BufferId}
    (hmember : x.member.lookup id = some key) (he : x.entry key = some e)
    (dirty : Dirty) : Left x (x.leave id dirty).1 id key e dirty (x.leave id dirty).2 := by
  obtain ⟨groupName, whole⟩ := key
  obtain ⟨group, hgroup, hpath⟩ := entry_eq_some.1 he
  simp only at hgroup hpath
  have hgroupOk := ok _ _ hgroup
  have hplace : ({ x with member := x.member.erase id } : NameIndex).placeOf id = x.placeOf id :=
    rfl
  have hgroup' : ({ x with member := x.member.erase id } : NameIndex).group groupName =
      some group := hgroup
  -- another path of the group is what it was
  have hother {k : PathKey} (hk : k ≠ (groupName, whole)) {paths : Assoc BufferName GroupPath}
      (hpaths : ∀ w, w ≠ whole → paths.lookup w = group.paths.lookup w) :
      (if k.1 = groupName then paths.lookup k.2 else x.entry k) = x.entry k := by
    split
    · rename_i hname; rw [hpaths _ fun h => hk (Prod.ext hname h), entry, hname, hgroup, bind_some]
    · rfl
  unfold leave
  simp only [hmember, hplace, hgroup', hpath]
  by_cases hempty : (e.holders.eraseP fun h => h.1 = x.placeOf id) = []
  · simp only [hempty, ne_eq, not_true, if_false]; have hdropOk := hgroupOk.dropPath hpath dirty
    obtain ⟨hdropPaths, hdropDirty⟩ := @Group.Ok.dropPath_spec group groupName whole e dirty
    have hdrop : group.dropPath (groupName, whole) { e with holders := [] } dirty =
      group.dropPath (groupName, whole) e dirty := rfl
    rw [hdrop]
    have hpaths : ∀ w, w ≠ whole → (group.dropPath (groupName, whole) e dirty).1.paths.lookup w =
        group.paths.lookup w := fun w hw => by
      rw [hdropPaths, lookup_erase_ne hw]
    have hself : (group.dropPath (groupName, whole) e dirty).1.paths.lookup whole = none := by
      rw [hdropPaths, lookup_erase]
    -- the path left alone with a name is marked, when its group stays
    have hmarks {k : PathKey} {e' : GroupPath} {n : BufferName} (hk : k ≠ (groupName, whole))
        (he' : x.entry k = some e') (hn : n ∈ e'.path.names) (hname : k.1 = groupName)
        (hshared : x.shared k.1 n = true)
        (hshared' : ((group.dropPath (groupName, whole) e dirty).1.shared.lookup n).any
          (fun count => 1 < count.1) = false) :
        k ∈ (group.dropPath (groupName, whole) e dirty).2 := by
      have hw : k.2 ≠ whole := fun h => hk (Prod.ext hname h)
      have hpath' : group.paths.lookup k.2 = some e' := by
        rw [← hpaths _ hw, ← he', ← hother hk hpaths, if_pos hname]
      have hlt := hshared; rw [hname, ok.shared_iff_length hgroup] at hlt
      have hle : (idsOf (group.paths.erase whole) n).length ≤ 1 := by
        have hnot := (hdropOk.shared_iff n).not.1 (by simp [hshared']); rw [hdropPaths] at hnot
        omega
      have hmem : n ∈ e.path.names := by
        by_contra hnot
        have hperm := idsOf_lookup hpath n; rw [if_neg hnot] at hperm; have := hperm.length_eq
        omega
      have hmark := hgroupOk.dropPath_marks hpath dirty hpath' hw hmem hn hle
      rwa [show (groupName, k.2) = k from Prod.ext hname.symm rfl] at hmark
    split
    · rename_i hnil
      have hnone (w : BufferName) :
          (group.dropPath (groupName, whole) e dirty).1.paths.lookup w = none := by
        rw [AList.lookup_eq_none, AList.mem_keys, AList.keys, hnil]; simp
      have hgroup'' (name : BufferName) : NameIndex.group { x with
          member := x.member.erase id
          groups := x.groups.erase groupName } name =
            if name = groupName then none else x.group name := by
        unfold NameIndex.group
        by_cases hname : name = groupName
        · subst hname; simp
        · simp [lookup_erase_ne hname, hname]
      have hentry (k : PathKey) : NameIndex.entry { x with
          member := x.member.erase id
          groups := x.groups.erase groupName } k =
            if k.1 = groupName then none else x.entry k := by
        unfold entry; rw [hgroup'']
        split <;> rfl
      refine
        { held := rfl
          reserved := rfl
          place := rfl
          nextPlace := rfl
          member := rfl
          ok := fun name g hg => ?_
          gone := fun _ => by rw [hentry, if_pos rfl]
          stays := fun h => absurd hempty h
          other := fun k hk => ?_
          marks := fun k e' n hk he' hn hshared hshared' => ?_
          dirty := hdropDirty }
      · rw [hgroup''] at hg
        split at hg
        · cases hg
        · exact ok name g hg
      · rw [hentry, ← hother hk hpaths]
        split
        · exact (hnone _).symm
        · rfl
      by_cases hname : k.1 = groupName
      · rw [← hother hk hpaths, if_pos hname, hnone] at he'; cases he'
      have hfalse : x.shared k.1 n = false := by
        unfold shared at hshared' ⊢
        rwa [hgroup'', if_neg hname] at hshared'
      rw [hshared] at hfalse; cases hfalse
    · refine
        { held := rfl
          reserved := rfl
          place := rfl
          nextPlace := rfl
          member := rfl
          ok := ok.setGroup hdropOk
          gone := fun _ => (entry_setGroup _ _ _).trans ((if_pos rfl).trans hself)
          stays := fun h => absurd hempty h
          other := fun k hk => (entry_setGroup _ _ _).trans (hother hk hpaths)
          marks := fun k e' n hk he' hn hshared hshared' => ?_
          dirty := hdropDirty }
      have hnow := (shared_setGroup (x := { x with member := x.member.erase id }) groupName
        _ _ _).symm.trans hshared'
      split at hnow
      · rename_i hname; exact hmarks hk he' hn hname hshared hnow
      · have hfalse := hshared.symm.trans hnow; cases hfalse
  · simp only [ne_eq, hempty, not_false_eq_true, if_true]
    refine
      { held := rfl
        reserved := rfl
        place := rfl
        nextPlace := rfl
        member := rfl
        ok := ok.setGroup (hgroupOk.setHolders hpath _)
        gone := fun h => absurd h hempty
        stays := fun _ => ⟨(entry_setGroup _ _ _).trans ((if_pos rfl).trans
          (lookup_insert _)), mem_insert_self⟩
        other := fun k hk => (entry_setGroup _ _ _).trans
          (hother hk fun w hw => lookup_insert_ne hw)
        marks := fun k e' n hk he' hn hshared hshared' => ?_
        dirty := fun k hk => mem_insert_of_mem hk }
    -- no count changes
    have hsame : (x.setGroup groupName { group with
        paths := group.paths.insert whole
          { e with holders := e.holders.eraseP fun h => h.1 = x.placeOf id } }).shared k.1 n =
        x.shared k.1 n := by
      rw [shared_setGroup]
      split
      · rename_i hname; rw [shared_eq, hname, hgroup]; rfl
      · rfl
    have hfalse := hshared'.symm.trans (hsame.trans hshared); cases hfalse

end NameIndex

/-! ## The buffers filed -/

structure Filed where
  id : BufferId
  place : ℕ
  name : BufferName
  path : Option NamePath

/-- The buffer holds the path that is `whole` as a whole. -/
def Filed.Holds (f : Filed) (whole : BufferName) : Prop := ∃ p, f.path = some p ∧ p.whole = whole

/-- The index is that of the buffers that are filed. -/
structure Indexed (x : NameIndex) (filed : List Filed) : Prop where
  ids : (filed.map Filed.id).Nodup
  places : (filed.map Filed.place).Nodup
  placed : ∀ f ∈ filed, x.place.lookup f.id = some f.place
  held : ∀ n, x.held.get n = filed.countP fun f => f.name = n
  reserved : ∀ n, x.reserved.get n = filed.countP fun f => f.path = none ∧ f.name = n
  member : ∀ id key, x.member.lookup id = some key ↔
    ∃ f ∈ filed, f.id = id ∧ ∃ p, f.path = some p ∧ key = (p.group, p.whole)
  ok : x.Ok
  sorted : ∀ key e, x.entry key = some e → e.holders.Pairwise fun h h' => h.1 < h'.1
  nonempty : ∀ key e, x.entry key = some e → e.holders ≠ []
  holders : ∀ key e, x.entry key = some e → ∀ h, h ∈ e.holders ↔
    ∃ f ∈ filed, f.Holds key.2 ∧ h = (f.place, f.id)
  entry : ∀ f ∈ filed, ∀ p, f.path = some p → (x.entry (p.group, p.whole)).isSome = true

theorem Indexed.perm {x : NameIndex} {filed filed' : List Filed} (h : Indexed x filed)
    (hperm : filed.Perm filed') : Indexed x filed' := by
  have hmem (f : Filed) : f ∈ filed' ↔ f ∈ filed := hperm.mem_iff.symm
  exact
    { h with
      ids := (hperm.map _).nodup_iff.1 h.ids
      places := (hperm.map _).nodup_iff.1 h.places
      placed := fun f hf => h.placed f ((hmem f).1 hf)
      held := fun n => (h.held n).trans (hperm.countP_eq _)
      reserved := fun n => (h.reserved n).trans (hperm.countP_eq _)
      member := fun id key => by simp only [hmem, h.member]
      holders := fun key e he a => by simp only [hmem, h.holders key e he]
      entry := fun f hf => h.entry f ((hmem f).1 hf) }

/-! ## Holders -/

section
variable {holders : List (ℕ × BufferId)} {holder : ℕ × BufferId}

theorem mem_insertHolder {h : ℕ × BufferId} :
    h ∈ insertHolder holder holders ↔ h = holder ∨ h ∈ holders := by
  unfold insertHolder
  conv_rhs => rw [← takeWhile_append_dropWhile (p := fun h => h.1 < holder.1) (l := holders)]
  simp only [mem_append, mem_cons]
  tauto

theorem insertHolder_ne_nil : insertHolder holder holders ≠ [] := by
  simp [insertHolder]

theorem sorted_insertHolder (hsorted : holders.Pairwise fun h h' => h.1 < h'.1)
    (hne : ∀ h ∈ holders, h.1 ≠ holder.1) :
    (insertHolder holder holders).Pairwise fun h h' => h.1 < h'.1 := by
  induction holders with
  | nil => simp [insertHolder]
  | cons a holders ih =>
    rw [pairwise_cons] at hsorted; unfold insertHolder
    by_cases ha : a.1 < holder.1
    · rw [takeWhile_cons_of_pos (by simpa using ha),
        dropWhile_cons_of_pos (by simpa using ha), cons_append, pairwise_cons]
      refine ⟨fun b hb => ?_, ih hsorted.2 fun h hh => hne h (.tail _ hh)⟩
      rcases mem_insertHolder.1 hb with rfl | hb
      · exact ha
      · exact hsorted.1 b hb
    have hlt : holder.1 < a.1 := by
      have := hne a (.head _); omega
    rw [takeWhile_cons_of_neg (by simpa using ha),
      dropWhile_cons_of_neg (by simpa using ha), nil_append, pairwise_cons,
      pairwise_cons]
    refine ⟨fun b hb => ?_, hsorted⟩
    rcases mem_cons.1 hb with rfl | hb
    · exact hlt
    · exact lt_trans hlt (hsorted.1 b hb)

theorem mem_eraseHolder (hsorted : holders.Pairwise fun h h' => h.1 < h'.1) {place : ℕ}
    {h : ℕ × BufferId} : h ∈ (holders.eraseP fun h => h.1 = place) ↔ h ∈ holders ∧ h.1 ≠ place := by
  induction holders with
  | nil => simp
  | cons a holders ih =>
    rw [pairwise_cons] at hsorted
    by_cases ha : a.1 = place
    · rw [eraseP_cons_of_pos (by simpa using ha), mem_cons]
      constructor
      · intro hh; have := hsorted.1 h hh; exact ⟨.inr hh, by omega⟩
      rintro ⟨rfl | hh, hne⟩
      · exact absurd ha hne
      · exact hh
    rw [eraseP_cons_of_neg (by simpa using ha), mem_cons, ih hsorted.2, mem_cons]
    constructor
    · rintro (rfl | ⟨hh, hne⟩)
      · exact ⟨.inl rfl, ha⟩
      · exact ⟨.inr hh, hne⟩
    rintro ⟨rfl | hh, hne⟩
    · exact .inl rfl
    · exact .inr ⟨hh, hne⟩

end

/-! ## Filing and unfiling -/

namespace Indexed

variable {x : NameIndex} {filed : List Filed}

theorem exists_mem_cons_of_not {P : Filed → Prop} {f : Filed} (hf : ¬P f) :
    (∃ g ∈ f :: filed, P g) ↔ ∃ g ∈ filed, P g := by
  simp [hf]

theorem key_eq (h : Indexed x filed) (he : x.entry key = some e) (hp : p.whole = key.2) : key = (p.group, p.whole) := by
  have hkey := h.ok.entry_key he
  have hwhole : p.whole = e.path.whole := by rw [hp, hkey]
  rw [hkey, hwhole, NamePath.group, NamePath.group, p.names_eq_of_whole hwhole]

theorem empty : Indexed .empty [] := by
  have hentry (key : PathKey) : NameIndex.empty.entry key = none := rfl
  refine
    { ids := nodup_nil
      places := nodup_nil
      placed := nofun
      held := fun _ => rfl
      reserved := fun _ => rfl
      member := fun id key => ?_
      ok := fun _ _ h => ?_
      sorted := fun key e he => ?_
      nonempty := fun key e he => ?_
      holders := fun key e he => ?_
      entry := fun _ h => absurd h not_mem_nil }
  · simp [NameIndex.empty]
  · cases h
  all_goals
    cases he

variable {f : Filed}

theorem join (h : Indexed x filed) (hid : f.id ∉ filed.map Filed.id)
    (hplace : f.place ∉ filed.map Filed.place) (hplaced : x.place.lookup f.id = some f.place) (hp : f.path = some p) (dirty : Dirty) :
    Indexed (NameIndex.join { x with held := x.held.up f.name } f.id p dirty).1 (f :: filed) := by
  have J := NameIndex.join_spec (x := { x with held := x.held.up f.name }) h.ok f.id p dirty
  revert J
  generalize (NameIndex.join { x with held := x.held.up f.name } f.id p dirty).1 = x'
  generalize (NameIndex.join { x with held := x.held.up f.name } f.id p dirty).2 = dirty'
  intro J
  have hplaceOf : x.placeOf f.id = f.place := by simp [NameIndex.placeOf, hplaced]
  have hself (e : GroupPath) (he : x'.entry (p.group, p.whole) = some e) :
      e.holders = insertHolder (f.place, f.id)
        (((x.entry (p.group, p.whole)).map (·.holders)).getD []) := by
    obtain ⟨e', he', hholders⟩ := J.self; rw [he, some.injEq] at he'; subst he'
    rw [hholders]; exact congrArg (fun place => insertHolder (place, f.id) _) hplaceOf
  have hother (key : PathKey) (hkey : key ≠ (p.group, p.whole)) : x'.entry key = x.entry key :=
    J.other key hkey
  -- the holders before
  have hbefore (a : ℕ × BufferId) :
      a ∈ ((x.entry (p.group, p.whole)).map (·.holders)).getD [] ↔
        ∃ g ∈ filed, g.Holds p.whole ∧ a = (g.place, g.id) := by
    cases he : x.entry (p.group, p.whole) with
    | some e => exact h.holders _ e he a
    | none =>
      simp only [map_none, getD_none, not_mem_nil, false_iff, not_exists,
        not_and]
      rintro g hg ⟨q, hq, hwhole⟩ -; have := h.entry g hg q hq
      rw [hwhole, NamePath.group, q.names_eq_of_whole hwhole] at this; rw [NamePath.group] at he
      simp [he] at this
  have hsorted : (((x.entry (p.group, p.whole)).map (·.holders)).getD []).Pairwise
      fun h h' => h.1 < h'.1 := by
    cases he : x.entry (p.group, p.whole) with
    | some e => exact h.sorted _ e he
    | none => exact List.Pairwise.nil
  refine
    { ids := nodup_cons.2 ⟨hid, h.ids⟩
      places := nodup_cons.2 ⟨hplace, h.places⟩
      placed := by rw [J.place]; exact forall_mem_cons.2 ⟨hplaced, h.placed⟩
      held := fun n => ?_
      reserved := fun n => ?_
      member := fun id key => ?_
      ok := J.ok
      sorted := fun key e he => ?_
      nonempty := fun key e he => ?_
      holders := fun key e he a => ?_
      entry := fun g hg q hq => ?_ }
  · rw [J.held, Counts.get_up, h.held, countP_cons]; simp [eq_comm]
  · rw [J.reserved, countP_cons_of_neg (by simp [hp])]; exact h.reserved n
  · rw [J.member]
    by_cases hi : id = f.id
    · subst hi; rw [lookup_insert, some.injEq]
      constructor
      · rintro rfl; exact ⟨f, .head _, rfl, p, hp, rfl⟩
      rintro ⟨g, hg, hgid, q, hq, rfl⟩
      rcases mem_cons.1 hg with rfl | hg
      · rw [hp, some.injEq] at hq; rw [hq]
      · exact absurd (mem_map.2 ⟨g, hg, hgid⟩) hid
    · rw [lookup_insert_ne hi, exists_mem_cons_of_not fun hf => hi hf.1.symm]; exact h.member id key
  · by_cases hkey : key = (p.group, p.whole)
    · subst hkey; rw [hself e he]
      refine sorted_insertHolder hsorted fun a ha hplace' => ?_
      obtain ⟨g, hg, -, rfl⟩ := (hbefore a).1 ha; exact hplace (mem_map.2 ⟨g, hg, hplace'⟩)
    · exact h.sorted key e ((hother key hkey).symm.trans he)
  · by_cases hkey : key = (p.group, p.whole)
    · subst hkey; rw [hself e he]; exact insertHolder_ne_nil
    · exact h.nonempty key e ((hother key hkey).symm.trans he)
  · by_cases hkey : key = (p.group, p.whole)
    · subst hkey; rw [hself e he, mem_insertHolder, hbefore]
      have hf : f.Holds p.whole := ⟨p, hp, rfl⟩
      simp [hf]
    rw [hother key hkey] at he; rw [h.holders key e he, exists_mem_cons_of_not]
    rintro ⟨⟨q, hq, hwhole⟩, -⟩
    rw [hp, some.injEq] at hq; subst hq; exact hkey (h.key_eq he hwhole)
  by_cases hkey : (q.group, q.whole) = (p.group, p.whole)
  · rw [hkey]; obtain ⟨e', he', -⟩ := J.self; simp [he']
  rw [hother _ hkey]
  rcases mem_cons.1 hg with rfl | hg
  · rw [hp, some.injEq] at hq; exact absurd (hq ▸ rfl) hkey
  · exact h.entry g hg q hq

theorem reserve (h : Indexed x filed) (hid : f.id ∉ filed.map Filed.id)
    (hplace : f.place ∉ filed.map Filed.place) (hplaced : x.place.lookup f.id = some f.place)
    (hp : f.path = none) :
    Indexed { x with held := x.held.up f.name, reserved := x.reserved.up f.name }
      (f :: filed) := by
  have hholds (whole : BufferName) : ¬f.Holds whole := by
    rintro ⟨p, hp', -⟩; rw [hp] at hp'; cases hp'
  refine
    { h with
      ids := nodup_cons.2 ⟨hid, h.ids⟩
      places := nodup_cons.2 ⟨hplace, h.places⟩
      placed := forall_mem_cons.2 ⟨hplaced, h.placed⟩
      held := fun n => ?_
      reserved := fun n => ?_
      member := fun id key => (h.member id key).trans (exists_mem_cons_of_not ?_).symm
      holders := fun key e he a => (h.holders key e he a).trans
        (exists_mem_cons_of_not fun hf => hholds _ hf.1).symm
      entry := forall_mem_cons.2 ⟨fun q hq => ?_, h.entry⟩ }
  · rw [Counts.get_up, h.held, countP_cons]; simp [eq_comm]
  · rw [Counts.get_up, h.reserved, countP_cons]; simp [eq_comm, hp]
  · rintro ⟨-, q, hq, -⟩; rw [hp] at hq; cases hq
  · rw [hp] at hq; cases hq

theorem member_eq (h : Indexed x filed) (hf : f ∈ filed)
    (hp : f.path = some p) : x.member.lookup f.id = some (p.group, p.whole) :=
  (h.member _ _).2 ⟨f, hf, rfl, p, hp, rfl⟩

theorem member_eq_none (h : Indexed x filed) (hf : f ∈ filed)
    (hp : f.path = none) : x.member.lookup f.id = none := by
  rw [eq_none_iff_forall_ne_some]
  intro key hkey
  obtain ⟨g, hg, hid, p, hp', -⟩ := (h.member _ _).1 hkey
  have heq := inj_on_of_nodup_map h.ids hg hf hid
  rw [heq, hp] at hp'
  cases hp'

theorem leave {rest : List Filed} (h : Indexed x (f :: rest))
    (hp : f.path = some p) (dirty : Dirty) :
    Indexed (NameIndex.leave { x with held := x.held.down f.name } f.id dirty).1 rest := by
  have hmember := h.member_eq (.head _) hp
  obtain ⟨e, he⟩ := isSome_iff_exists.1 (h.entry f (.head _) p hp)
  have L := NameIndex.leave_spec (x := { x with held := x.held.down f.name }) h.ok hmember he dirty
  revert L
  generalize (NameIndex.leave { x with held := x.held.down f.name } f.id dirty).1 = x'
  generalize (NameIndex.leave { x with held := x.held.down f.name } f.id dirty).2 = dirty'
  intro L
  obtain ⟨hid, hids⟩ := nodup_cons.1 h.ids
  obtain ⟨hplace, hplaces⟩ := nodup_cons.1 h.places
  have hplaceOf : NameIndex.placeOf { x with held := x.held.down f.name } f.id = f.place := by
    simp [NameIndex.placeOf, h.placed f (.head _)]
  have hother (key : PathKey) (hkey : key ≠ (p.group, p.whole)) : x'.entry key = x.entry key :=
    L.other key hkey
  -- the path stays with the holders that are left, if there are any
  have hself (e' : GroupPath) (he' : x'.entry (p.group, p.whole) = some e') :
      e'.holders ≠ [] ∧ e'.holders = e.holders.eraseP fun h => h.1 = f.place := by
    by_cases hnil : (e.holders.eraseP fun h => h.1 = f.place) = []
    · rw [← hplaceOf] at hnil; rw [L.gone hnil] at he'; cases he'
    rw [← hplaceOf] at hnil ⊢; rw [(L.stays hnil).1, some.injEq] at he'; subst he'
    exact ⟨hnil, rfl⟩
  have hmem (a : ℕ × BufferId) :
      a ∈ (e.holders.eraseP fun h => h.1 = f.place) ↔
        ∃ g ∈ rest, g.Holds p.whole ∧ a = (g.place, g.id) := by
    rw [mem_eraseHolder (h.sorted _ _ he), h.holders _ _ he]
    constructor
    · rintro ⟨⟨g, hg, hholds, rfl⟩, hne⟩
      rcases mem_cons.1 hg with rfl | hg
      · exact absurd rfl hne
      · exact ⟨g, hg, hholds, rfl⟩
    rintro ⟨g, hg, hholds, rfl⟩
    exact ⟨⟨g, .tail _ hg, hholds, rfl⟩,
      fun heq => hplace (mem_map.2 ⟨g, hg, heq⟩)⟩
  refine
    { ids := hids
      places := hplaces
      placed := fun g hg => ?_
      held := fun n => ?_
      reserved := fun n => ?_
      member := fun id key => ?_
      ok := L.ok
      sorted := fun key e' he' => ?_
      nonempty := fun key e' he' => ?_
      holders := fun key e' he' a => ?_
      entry := fun g hg q hq => ?_ }
  · rw [L.place]; exact h.placed g (.tail _ hg)
  · rw [L.held, Counts.get_down, h.held, countP_cons]
    by_cases hn : n = f.name
    · simp [hn]
    · simp [hn, Ne.symm hn]
  · rw [L.reserved]
    refine (h.reserved n).trans (countP_cons_of_neg ?_); simp [hp]
  · rw [L.member]
    by_cases hi : id = f.id
    · subst hi; rw [lookup_erase]; simp only [reduceCtorEq, false_iff, not_exists, not_and]
      intro g hg hgid; exact absurd (mem_map.2 ⟨g, hg, hgid⟩) hid
    rw [lookup_erase_ne hi]
    exact (h.member id key).trans (exists_mem_cons_of_not fun hf => hi hf.1.symm)
  · by_cases hkey : key = (p.group, p.whole)
    · subst hkey; rw [(hself e' he').2]; exact (h.sorted _ _ he).sublist eraseP_sublist
    · exact h.sorted key e' ((hother key hkey).symm.trans he')
  · by_cases hkey : key = (p.group, p.whole)
    · subst hkey; exact (hself e' he').1
    · exact h.nonempty key e' ((hother key hkey).symm.trans he')
  · by_cases hkey : key = (p.group, p.whole)
    · subst hkey; rw [(hself e' he').2, hmem]
    rw [hother key hkey] at he'
    refine (h.holders key e' he' a).trans (exists_mem_cons_of_not ?_)
    rintro ⟨⟨q, hq, hwhole⟩, -⟩
    rw [hp, some.injEq] at hq; subst hq; exact hkey (h.key_eq he' hwhole)
  by_cases hkey : (q.group, q.whole) = (p.group, p.whole)
  · rw [hkey]
    have hne : (e.holders.eraseP fun h => h.1 = f.place) ≠ [] := by
      refine ne_nil_of_mem ((hmem (g.place, g.id)).2 ⟨g, hg, ⟨q, hq, ?_⟩, rfl⟩)
      exact congrArg Prod.snd hkey
    rw [← hplaceOf] at hne; simp [(L.stays hne).1]
  · rw [hother _ hkey]; exact h.entry g (.tail _ hg) q hq

theorem unreserve {rest : List Filed} (h : Indexed x (f :: rest)) (hp : f.path = none) :
    Indexed { x with held := x.held.down f.name, reserved := x.reserved.down f.name } rest := by
  obtain ⟨-, hids⟩ := nodup_cons.1 h.ids
  obtain ⟨-, hplaces⟩ := nodup_cons.1 h.places
  refine
    { h with
      ids := hids
      places := hplaces
      placed := fun g hg => h.placed g (.tail _ hg)
      held := fun n => ?_
      reserved := fun n => ?_
      member := fun id key => (h.member id key).trans (exists_mem_cons_of_not ?_)
      holders := fun key e he a => (h.holders key e he a).trans (exists_mem_cons_of_not ?_)
      entry := fun g hg => h.entry g (.tail _ hg) }
  · rw [Counts.get_down, h.held, countP_cons]
    by_cases hn : n = f.name
    · simp [hn]
    · simp [hn, Ne.symm hn]
  · rw [Counts.get_down, h.reserved, countP_cons]
    by_cases hn : n = f.name
    · simp [hn, hp]
    · simp [hn, Ne.symm hn]
  · rintro ⟨-, q, hq, -⟩; rw [hp] at hq; cases hq
  · rintro ⟨⟨q, hq, -⟩, -⟩; rw [hp] at hq; cases hq

end Indexed

end Pmacs.Naming
