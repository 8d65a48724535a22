/-
  Which paths an event marks.

  * `Fresh`: the names of a path's buffers are what they are to be.
  * `Mid`: while an event files and unfiles buffers, every path is marked or fresh;
    `Mid.leave`, `Mid.unreserve`, `Mid.join`, `Mid.reserve`: it is kept.
-/
import Pmacs.Naming.Index
import Pmacs.Naming.Holders

namespace Pmacs.Naming

open Lib List Option Counts

/-! ## The depth of a name -/

section
variable {p : NamePath} {shared reserved shared' reserved' : BufferName → Bool}

/-- The depth of a path's name: every shorter one is shared or reserved, and it is not, or is the
    whole path. -/
theorem nameDepth_iff {d : ℕ} : nameDepth p shared reserved = d ↔
    d < p.names.length ∧ (∀ k < d, shared (p.name k) = true ∨ reserved (p.name k) = true) ∧
      (d + 1 = p.names.length ∨ shared (p.name d) = false ∧ reserved (p.name d) = false) := by
  have hname (k : ℕ) (hk : k < p.names.length) : p.names[k] = p.name k := by simp [NamePath.names]
  have hpos : 0 < p.names.length := by simp
  unfold nameDepth
  constructor
  · rintro rfl
    cases hfind : p.names.findIdx? fun name => !shared name && !reserved name with
    | none =>
      rw [findIdx?_eq_none_iff] at hfind
      refine ⟨by simp, fun k hk => ?_, .inl (by simp)⟩; simp only [getD_none] at hk
      have := hfind (p.name k) (NameIndex.mem_name (by omega))
      simpa [or_iff_not_imp_left] using this
    | some d =>
      obtain ⟨hd, hfree, hbefore⟩ := findIdx?_eq_some_iff_getElem.1 hfind
      refine ⟨hd, fun k hk => ?_, .inr ?_⟩
      · have := hbefore k hk; rw [hname] at this; simpa [or_iff_not_imp_left] using this
      · rw [hname] at hfree; simpa using hfree
  rintro ⟨hd, hbefore, hlast⟩
  by_cases hfree : shared (p.name d) = false ∧ reserved (p.name d) = false
  · have hfind : (p.names.findIdx? fun name => !shared name && !reserved name) = some d := by
      rw [findIdx?_eq_some_iff_getElem]
      refine ⟨hd, by rw [hname]; simp [hfree], fun k hk => ?_⟩; rw [hname]
      rcases hbefore k hk with h | h <;> simp [h]
    rw [hfind]; rfl
  have hfind : (p.names.findIdx? fun name => !shared name && !reserved name) = none := by
    rw [findIdx?_eq_none_iff]; intro n hn; obtain ⟨k, hk, rfl⟩ := p.mem_names.1 hn
    have hlen := hlast.resolve_right hfree; simp only [NamePath.length_names] at hlen
    rcases lt_or_ge k d with hkd | hkd
    · rcases hbefore k hkd with h | h <;> simp [h]
    obtain rfl : k = d := by omega
    simpa using hfree
  rw [hfind, getD_none]; have := hlast.resolve_right hfree; omega

theorem nameDepth_lt : nameDepth p shared reserved < p.names.length := (nameDepth_iff.1 rfl).1

theorem nameDepth_grow (hshared : ∀ n ∈ p.names, shared n = true → shared' n = true)
    (hreserved : ∀ n ∈ p.names, reserved n = true → reserved' n = true)
    (hname : shared (p.name (nameDepth p shared reserved)) = false →
      reserved (p.name (nameDepth p shared reserved)) = false →
      shared' (p.name (nameDepth p shared reserved)) = false ∧
        reserved' (p.name (nameDepth p shared reserved)) = false) :
    nameDepth p shared' reserved' = nameDepth p shared reserved := by
  obtain ⟨hlt, hbefore, hlast⟩ := nameDepth_iff.1 (rfl : nameDepth p shared reserved = _)
  refine nameDepth_iff.2 ⟨hlt, fun k hk => ?_, hlast.imp_right fun h => hname h.1 h.2⟩
  have hmem : p.name k ∈ p.names := NameIndex.mem_name (by omega)
  exact (hbefore k hk).imp (hshared _ hmem) (hreserved _ hmem)

theorem nameDepth_congr (h : ∀ n ∈ p.names,
    (shared n = true ∨ reserved n = true) ↔ (shared' n = true ∨ reserved' n = true)) :
    nameDepth p shared' reserved' = nameDepth p shared reserved := by
  obtain ⟨hlt, hbefore, hlast⟩ := nameDepth_iff.1 (rfl : nameDepth p shared reserved = _)
  refine nameDepth_iff.2 ⟨hlt, fun k hk => ?_, hlast.imp_right fun hfree => ?_⟩
  · exact (h _ (NameIndex.mem_name (by omega))).1 (hbefore k hk)
  · have := (h _ (NameIndex.mem_name hlt)).not.1 (by simp [hfree]); simpa using this

end

/-! ## What is marked -/

variable {k : PathKey} {dirty : Dirty}

theorem mem_mark {groupName : BufferName} {whole : Option BufferName} :
    k ∈ NameIndex.mark groupName whole dirty ↔ k ∈ dirty ∨ k.1 = groupName ∧ whole = some k.2 := by
  obtain ⟨name, w⟩ := k
  cases whole with
  | none => simp [NameIndex.mark]
  | some whole =>
    rw [NameIndex.mark, mem_insert_iff, Prod.mk.injEq, some.injEq, or_comm]; simp only [eq_comm]

theorem mem_foldl_mark {f : Dirty → BufferName → Dirty}
    {P : BufferName → Prop} (hf : ∀ dirty groupName, k ∈ f dirty groupName ↔
      k ∈ dirty ∨ k.1 = groupName ∧ P groupName) :
    ∀ {groups : List BufferName} {dirty : Dirty},
      k ∈ groups.foldl f dirty ↔ k ∈ dirty ∨ k.1 ∈ groups ∧ P k.1
  | [], _ => by simp
  | groupName :: groups, dirty => by
    rw [foldl_cons, mem_foldl_mark hf, hf, mem_cons]
    constructor
    · rintro ((h | ⟨rfl, h⟩) | h)
      · exact .inl h
      · exact .inr ⟨.inl rfl, h⟩
      · exact .inr ⟨.inr h.1, h.2⟩
    rintro (h | ⟨rfl | h, hP⟩)
    · exact .inl (.inl h)
    · exact .inl (.inr ⟨rfl, hP⟩)
    · exact .inr ⟨h, hP⟩

variable {name : BufferName} {x : NameIndex}

/-- What a derived name marks: the path it can be the `<N>` of. -/
theorem mem_derivedChanged : k ∈ x.derivedChanged name dirty ↔ k ∈ dirty ∨
      ∃ base, withoutSuffix name = some base ∧ k.1 ∈ groupsOfName name ∧
        x.namedIn k.1 base = some k.2 := by
  unfold NameIndex.derivedChanged
  cases hbase : withoutSuffix name with
  | none => simp
  | some base =>
    rw [mem_foldl_mark (P := fun groupName => x.namedIn groupName base = some k.2)
      fun _ _ => mem_mark]
    simp

/-- What a reserved name marks: the path it names, the one that has it, and the one it can be the
    `<N>` of. -/
theorem mem_reservedChanged :
    k ∈ x.reservedChanged name dirty ↔ k ∈ dirty ∨ k.1 ∈ groupsOfName name ∧
      (x.namedIn k.1 name = some k.2 ∨ x.loneIn k.1 name = some k.2 ∨
        x.suffixedIn k.1 name = some k.2) := by
  unfold NameIndex.reservedChanged
  rw [mem_foldl_mark (P := fun groupName => x.namedIn groupName name = some k.2 ∨
    x.loneIn groupName name = some k.2 ∨ x.suffixedIn groupName name = some k.2)
    fun dirty groupName => by rw [mem_mark, mem_mark, mem_mark]; tauto]

variable {p : NamePath}

theorem group_mem_groupsOfName (h : name ∈ p.names) : p.group ∈ groupsOfName name := by
  rw [← p.groupOf_mem h]
  exact .head _

theorem group_mem_groupsOfName_suffix {base : BufferName}
    (hbase : base ∈ p.names) (h : withoutSuffix name = some base) :
    p.group ∈ groupsOfName name := by
  rw [← p.groupOf_mem hbase, groupsOfName, h]
  simp

/-! ## Fresh names -/

def names (nm : BufferId → BufferName) (e : GroupPath) : List BufferName :=
  e.holders.map fun h => nm h.2

namespace NameIndex

def depthOf (x : NameIndex) (key : PathKey) (e : GroupPath) : ℕ :=
  nameDepth e.path (x.shared key.1) x.reserved.has

def baseOf (x : NameIndex) (key : PathKey) (e : GroupPath) : BufferName :=
  e.path.name (x.depthOf key e)

def taken (x : NameIndex) (nm : BufferId → BufferName) (e : GroupPath) (n : BufferName) : Bool :=
  (names nm e).count n < x.held.get n

theorem baseOf_mem (x : NameIndex) (key : PathKey) (e : GroupPath) :
    x.baseOf key e ∈ e.path.names := mem_name nameDepth_lt

def pathName (x : NameIndex) (p : NamePath) : BufferName :=
  p.name (nameDepth p (x.shared p.group) x.reserved.has)

theorem baseOf_eq_pathName {key : PathKey} {e : GroupPath}
    (hkey : key.1 = p.group) (hwhole : e.path.whole = p.whole) : x.baseOf key e = x.pathName p := by
  unfold baseOf depthOf pathName nameDepth
  rw [e.path.names_eq_of_whole hwhole, e.path.names_congr hwhole, hkey]

end NameIndex

/-- The path is shown by the name it is to be shown by, and its buffers have right names. -/
structure Fresh (x : NameIndex) (nm : BufferId → BufferName) (key : PathKey) (e : GroupPath) :
    Prop where
  depth : e.depth = some (x.depthOf key e)
  named : Named (x.baseOf key e) (names nm e) (!x.reserved.has (x.baseOf key e))
    (x.taken nm e) (names nm e)

/-- While an event files and unfiles buffers: every path is marked or fresh. -/
structure Mid (x : NameIndex) (nm : BufferId → BufferName) (filed : List Filed) (dirty : Dirty) :
    Prop where
  index : Indexed x filed
  names : ∀ f ∈ filed, nm f.id = f.name
  fresh : ∀ key e, x.entry key = some e → key ∈ dirty ∨ Fresh x nm key e

/-- The path is shown by its name, and its buffers have names that were right with what was taken
    at some time. -/
structure Given (x : NameIndex) (nm : BufferId → BufferName) (key : PathKey) (e : GroupPath) :
    Prop where
  depth : e.depth = some (x.depthOf key e)
  named : ∃ taken, Named (x.baseOf key e) (names nm e) (!x.reserved.has (x.baseOf key e))
    taken (names nm e)

/-- A buffer of a marked path has a `<N>` of the path's name, which it will give up: its own path
    is to be shown by another name. -/
def Owed (x : NameIndex) (nm : BufferId → BufferName) (filed : List Filed) (dirty : Dirty)
    (key : PathKey) (e : GroupPath) : Prop :=
  ∃ f ∈ filed, ∃ q, f.path = some q ∧ (q.group, q.whole) ∈ dirty ∧
    withoutSuffix (nm f.id) = some (x.baseOf key e) ∧ nm f.id ≠ x.pathName q

/-- Before the names settle: every path is marked or fresh, or another path that is marked is to
    give up a name it has to know of. -/
structure Ready (x : NameIndex) (nm : BufferId → BufferName) (filed : List Filed)
    (dirty : Dirty) : Prop where
  index : Indexed x filed
  names : ∀ f ∈ filed, nm f.id = f.name
  fresh : ∀ key e, x.entry key = some e →
    key ∈ dirty ∨ Fresh x nm key e ∨ Given x nm key e ∧ Owed x nm filed dirty key e

theorem Mid.ready {nm : BufferId → BufferName} {filed : List Filed}
    (h : Mid x nm filed dirty) : Ready x nm filed dirty :=
  ⟨h.index, h.names, fun key e he => (h.fresh key e he).imp_right .inl⟩

/-- The path whose `<N>` a name can be is marked. -/
def Cleared (x : NameIndex) (name : BufferName) (dirty : Dirty) : Prop :=
  ∀ key e d, x.entry key = some e → e.depth = some d →
    withoutSuffix name = some (e.path.name d) → key ∈ dirty

section
variable {x' : NameIndex} {nm : BufferId → BufferName} {key : PathKey} {e : GroupPath}

/-- Fresh names stay fresh where the name of the path stays, and no name of theirs is taken. -/
theorem Fresh.of_depth (h : Fresh x nm key e) (hdepth : x'.depthOf key e = x.depthOf key e)
    (hbase : x'.reserved.has (x.baseOf key e) = x.reserved.has (x.baseOf key e))
    (htaken : ∀ n ∈ Naming.names nm e, withoutSuffix n = some (x.baseOf key e) →
      x.taken nm e n = false → x'.taken nm e n = false) : Fresh x' nm key e := by
  have hbaseOf : x'.baseOf key e = x.baseOf key e := by
    rw [NameIndex.baseOf, hdepth, NameIndex.baseOf]
  refine ⟨by rw [hdepth, h.depth], ?_⟩
  rw [hbaseOf, hbase]
  exact h.named.mono htaken

theorem taken_up {n : BufferName} (hheld : x'.held = x.held.up name) (hn : n ≠ name) :
    x'.taken nm e n = x.taken nm e n := by
  unfold NameIndex.taken
  rw [hheld, get_up, if_neg hn, add_zero]

theorem taken_down {n : BufferName} (hheld : x'.held = x.held.down name)
    (h : x.taken nm e n = false) : x'.taken nm e n = false := by
  unfold NameIndex.taken at h ⊢
  rw [hheld, get_down]
  simp only [decide_eq_false_iff_not, not_lt] at h ⊢
  omega

end

/-! ## Filing and unfiling -/

namespace Mid

variable {nm : BufferId → BufferName} {filed rest : List Filed}

theorem perm (h : Mid x nm filed dirty) {filed' : List Filed} (hperm : filed.Perm filed') :
    Mid x nm filed' dirty :=
  ⟨h.index.perm hperm, fun f hf => h.names f (hperm.mem_iff.2 hf), h.fresh⟩

theorem cleared_derived (ok : x.Ok) {name : BufferName} :
    Cleared x name (x.derivedChanged name dirty) := by
  intro key e d he hd hbase
  have hmem := NameIndex.mem_name (ok.entry_depth he hd)
  have hkey := ok.entry_key he
  refine mem_derivedChanged.2 (.inr ⟨_, hbase, ?_, ?_⟩)
  · have := group_mem_groupsOfName_suffix hmem hbase
    rwa [hkey]
  · exact ok.namedIn_iff.2 ⟨e, d, he, hd, rfl⟩

theorem cleared_reserved (ok : x.Ok) {name : BufferName} :
    Cleared x name (x.reservedChanged name dirty) := by
  intro key e d he hd hbase
  have hmem := NameIndex.mem_name (ok.entry_depth he hd)
  have hkey := ok.entry_key he
  refine mem_reservedChanged.2 (.inr ⟨?_, .inr (.inr ?_)⟩)
  · have := group_mem_groupsOfName_suffix hmem hbase
    rwa [hkey]
  · rw [NameIndex.suffixedIn, hbase, bind_some]; exact ok.namedIn_iff.2 ⟨e, d, he, hd, rfl⟩

theorem base_not_shared (ok : x.Ok) {key : PathKey} {e : GroupPath}
    (he : x.entry key = some e) : x.shared key.1 (x.baseOf key e) = false := by
  obtain ⟨-, -, hlast⟩ := nameDepth_iff.1 (rfl : x.depthOf key e = _)
  rcases hlast with hwhole | ⟨hshared, -⟩
  · rw [Bool.eq_false_iff, ne_eq, ok.shared_iff he (x.baseOf_mem key e)]
    rintro ⟨whole, e', hne, he', hmem⟩
    -- the whole path is no name of another
    have hbase : x.baseOf key e = e.path.whole := by
      rw [NamePath.length_names] at hwhole; exact congrArg e.path.name (by omega)
    rw [hbase] at hmem; have heq := e.path.whole_mem_names hmem; have hkey := ok.entry_key he
    have hkey' := ok.entry_key he'; rw [hkey] at hne
    exact hne ((congrArg Prod.snd hkey').trans heq.symm)
  · exact hshared

variable {f : Filed}

theorem unreserve (h : Mid x nm (f :: rest) dirty) (hp : f.path = none) :
    Mid { x with held := x.held.down f.name, reserved := x.reserved.down f.name } nm rest
      (NameIndex.reservedChanged
        { x with held := x.held.down f.name, reserved := x.reserved.down f.name } f.name dirty) := by
  refine ⟨h.index.unreserve hp, fun g hg => h.names g (.tail _ hg), fun key e he => ?_⟩
  have ok := h.index.ok
  rcases h.fresh key e he with hdirty | hfresh
  · exact .inl (mem_reservedChanged.2 (.inl hdirty))
  by_cases hlone : f.name ∈ e.path.names ∧ x.shared key.1 f.name = false
  · -- the one path that has the name is marked
    refine .inl (mem_reservedChanged.2 (.inr ⟨?_, .inr (.inl ?_)⟩))
    · have := group_mem_groupsOfName hlone.1
      rwa [ok.entry_key he]
    · exact ok.loneIn_eq he hlone.1 hlone.2
  right
  have hreserved (n : BufferName) (hn : n ≠ f.name) :
      (x.reserved.down f.name).has n = x.reserved.has n := by
    rw [Bool.eq_iff_iff, has_iff, has_iff, get_down, if_neg hn, Nat.sub_zero]
  have hbase : x.baseOf key e ≠ f.name := fun heq =>
    hlone (heq ▸ ⟨x.baseOf_mem key e, base_not_shared ok he⟩)
  refine hfresh.of_depth (nameDepth_congr fun n hn => ?_) (hreserved _ hbase)
    fun n _ _ hfree => taken_down rfl hfree
  by_cases heq : n = f.name
  · subst heq
    have hshared : x.shared key.1 f.name = true := by
      rw [← Bool.not_eq_false]; exact fun hfalse => hlone ⟨hn, hfalse⟩
    exact ⟨fun _ => .inl hshared, fun _ => .inl hshared⟩
  · rw [hreserved n heq]; rfl

theorem reserve (h : Mid x nm filed dirty) (hid : f.id ∉ filed.map Filed.id)
    (hplace : f.place ∉ filed.map Filed.place) (hplaced : x.place.lookup f.id = some f.place)
    (hp : f.path = none) (hname : nm f.id = f.name) :
    Mid { x with held := x.held.up f.name, reserved := x.reserved.up f.name } nm (f :: filed)
      (NameIndex.reservedChanged
        { x with held := x.held.up f.name, reserved := x.reserved.up f.name } f.name dirty) := by
  refine ⟨h.index.reserve hid hplace hplaced hp, fun g hg => ?_, fun key e he => ?_⟩
  · rcases mem_cons.1 hg with rfl | hg
    · exact hname
    · exact h.names g hg
  have ok := h.index.ok
  rcases h.fresh key e he with hdirty | hfresh
  · exact .inl (mem_reservedChanged.2 (.inl hdirty))
  have hcleared : Cleared _ f.name (NameIndex.reservedChanged
      { x with held := x.held.up f.name, reserved := x.reserved.up f.name } f.name dirty) :=
    cleared_reserved ok
  by_cases hbase : x.baseOf key e = f.name
  · -- the path of that name is marked
    refine .inl (mem_reservedChanged.2 (.inr ⟨?_, .inl ?_⟩))
    · have := group_mem_groupsOfName (hbase ▸ x.baseOf_mem key e)
      rwa [ok.entry_key he]
    · exact ok.namedIn_iff.2 ⟨e, _, he, hfresh.depth, hbase⟩
  by_cases hsuffix : withoutSuffix f.name = some (x.baseOf key e)
  · exact .inl (hcleared key e _ he hfresh.depth hsuffix)
  right
  have hreserved (n : BufferName) (hn : n ≠ f.name) :
      (x.reserved.up f.name).has n = x.reserved.has n := by
    rw [Bool.eq_iff_iff, has_iff, has_iff, get_up, if_neg hn, add_zero]
  refine hfresh.of_depth (nameDepth_grow (fun _ _ h => h) (fun n _ h => ?_)
    fun hshared hfree => ⟨hshared, ?_⟩) (hreserved _ hbase) fun n _ hn hfree => ?_
  · rw [has_iff] at h ⊢; rw [get_up]
    omega
  · exact (hreserved _ hbase).trans hfree
  rw [taken_up (x := x) rfl]
  · exact hfree
  · rintro rfl; exact hsuffix hn

theorem leave (h : Mid x nm (f :: rest) dirty) (hp : f.path = some p) :
    Mid (NameIndex.leave { x with held := x.held.down f.name } f.id dirty).1 nm rest
      ((NameIndex.leave { x with held := x.held.down f.name } f.id dirty).1.derivedChanged f.name
        (NameIndex.leave { x with held := x.held.down f.name } f.id dirty).2) := by
  have ok := h.index.ok
  have hindex := h.index.leave hp dirty
  obtain ⟨e₀, he₀⟩ := isSome_iff_exists.1 (h.index.entry f (.head _) p hp)
  have L := NameIndex.leave_spec (x := { x with held := x.held.down f.name }) ok
    (h.index.member_eq (.head _) hp) he₀ dirty
  revert L hindex
  generalize (NameIndex.leave { x with held := x.held.down f.name } f.id dirty).1 = x'
  generalize (NameIndex.leave { x with held := x.held.down f.name } f.id dirty).2 = dirty'
  intro hindex L
  have hother (key : PathKey) (hkey : key ≠ (p.group, p.whole)) : x'.entry key = x.entry key :=
    L.other key hkey
  have hself (e : GroupPath) (he : x'.entry (p.group, p.whole) = some e) :
      e.path = e₀.path ∧ (p.group, p.whole) ∈ dirty' := by
    by_cases hnil : (e₀.holders.eraseP fun h => h.1 =
        NameIndex.placeOf { x with held := x.held.down f.name } f.id) = []
    · rw [L.gone hnil] at he; cases he
    obtain ⟨he', hdirty⟩ := L.stays hnil; rw [he', some.injEq] at he; subst he
    exact ⟨rfl, hdirty⟩
  refine ⟨hindex, fun g hg => h.names g (.tail _ hg), fun key e he => ?_⟩
  by_cases hkey : key = (p.group, p.whole)
  · subst hkey; exact .inl (mem_derivedChanged.2 (.inl (hself e he).2))
  have he' := he
  rw [hother key hkey] at he'
  rcases h.fresh key e he' with hdirty | hfresh
  · exact .inl (mem_derivedChanged.2 (.inl (L.dirty key hdirty)))
  -- no name is shared that was not
  have hshared (n : BufferName) (hn : n ∈ e.path.names) (hnow : x'.shared key.1 n = true) :
      x.shared key.1 n = true := by
    obtain ⟨whole, e₁, hne, he₁, hn₁⟩ := (L.ok.shared_iff he hn).1 hnow
    refine (ok.shared_iff he' hn).2 ?_
    by_cases hkey₁ : (key.1, whole) = (p.group, p.whole)
    · rw [hkey₁] at he₁; exact ⟨whole, e₀, hne, by rw [hkey₁]; exact he₀, (hself e₁ he₁).1 ▸ hn₁⟩
    · exact ⟨whole, e₁, hne, (hother _ hkey₁).symm.trans he₁, hn₁⟩
  by_cases hmark : ∃ n ∈ e.path.names, x.shared key.1 n = true ∧ x'.shared key.1 n = false
  · obtain ⟨n, hn, hwas, hnow⟩ := hmark
    exact .inl (mem_derivedChanged.2 (.inl (L.marks key e n hkey he' hn hwas hnow)))
  right; have hreserved : x'.reserved = x.reserved := L.reserved
  refine hfresh.of_depth (nameDepth_congr fun n hn => ?_) (by rw [hreserved])
    fun n _ _ hfree => taken_down L.held hfree
  rw [hreserved]
  have : x'.shared key.1 n = x.shared key.1 n := by
    rw [Bool.eq_iff_iff]
    refine ⟨hshared n hn, fun hwas => ?_⟩; rw [← Bool.not_eq_false]
    exact fun hnow => hmark ⟨n, hn, hwas, hnow⟩
  rw [this]

/-- A buffer named by a path is filed: a path that is not marked by that is fresh still, unless
    the name the buffer holds is one that its own buffers have. -/
theorem join_cases (h : Mid x nm filed dirty) (hid : f.id ∉ filed.map Filed.id)
    (hplace : f.place ∉ filed.map Filed.place) (hplaced : x.place.lookup f.id = some f.place)
    (hp : f.path = some p) :
    Indexed (NameIndex.join { x with held := x.held.up f.name } f.id p dirty).1 (f :: filed) ∧
      (p.group, p.whole) ∈ (NameIndex.join { x with held := x.held.up f.name } f.id p dirty).2 ∧
      ∀ key e, (NameIndex.join { x with held := x.held.up f.name } f.id p dirty).1.entry key =
          some e →
        key ∈ (NameIndex.join { x with held := x.held.up f.name } f.id p dirty).2 ∨
        Fresh (NameIndex.join { x with held := x.held.up f.name } f.id p dirty).1 nm key e ∨
        (key ∉ dirty ∧ x.entry key = some e ∧
          withoutSuffix f.name = some (x.baseOf key e) ∧ f.name ∈ Naming.names nm e ∧
          Given (NameIndex.join { x with held := x.held.up f.name } f.id p dirty).1 nm key e ∧
          (NameIndex.join { x with held := x.held.up f.name } f.id p dirty).1.baseOf key e =
            x.baseOf key e) := by
  have ok := h.index.ok
  have hindex := h.index.join hid hplace hplaced hp dirty
  have J := NameIndex.join_spec (x := { x with held := x.held.up f.name }) ok f.id p dirty
  revert J hindex
  generalize (NameIndex.join { x with held := x.held.up f.name } f.id p dirty).1 = x'
  generalize (NameIndex.join { x with held := x.held.up f.name } f.id p dirty).2 = dirty'
  intro hindex J
  have hother (key : PathKey) (hkey : key ≠ (p.group, p.whole)) : x'.entry key = x.entry key :=
    J.other key hkey
  refine ⟨hindex, J.self_dirty, fun key e he => ?_⟩
  by_cases hkey : key = (p.group, p.whole)
  · subst hkey; exact .inl J.self_dirty
  have he' := he
  rw [hother key hkey] at he'
  by_cases hdirty : key ∈ dirty
  · exact .inl (J.dirty key hdirty)
  have hfresh := (h.fresh key e he').resolve_left hdirty
  -- no name stops being shared
  have hshared (n : BufferName) (hn : n ∈ e.path.names) (hwas : x.shared key.1 n = true) :
      x'.shared key.1 n = true := by
    obtain ⟨whole, e₁, hne, he₁, hn₁⟩ := (ok.shared_iff he' hn).1 hwas
    refine (J.ok.shared_iff he hn).2 ?_
    by_cases hkey₁ : (key.1, whole) = (p.group, p.whole)
    · obtain ⟨e₂, he₂, -⟩ := J.self
      refine ⟨whole, e₂, hne, hkey₁ ▸ he₂, ?_⟩; have hkey₂ := J.ok.entry_key he₂
      rw [← hkey₁, ok.entry_key he₁] at hkey₂
      rwa [← e₁.path.names_congr (congrArg Prod.snd hkey₂)]
    · exact ⟨whole, e₁, hne, (hother _ hkey₁).trans he₁, hn₁⟩
  have hbase := base_not_shared ok he'
  by_cases hmark : x'.shared key.1 (x.baseOf key e) = true
  · exact .inl (J.marks key e _ hkey he' hfresh.depth hbase hmark)
  right
  have hreserved : x'.reserved = x.reserved := J.reserved
  have hdepth : x'.depthOf key e = x.depthOf key e :=
    nameDepth_grow hshared (fun n _ h => by rwa [hreserved])
      fun _ hfree => ⟨Bool.eq_false_iff.2 hmark, by rwa [hreserved]⟩
  have hbaseOf : x'.baseOf key e = x.baseOf key e := by
    rw [NameIndex.baseOf, hdepth, NameIndex.baseOf]
  by_cases hcarried : withoutSuffix f.name = some (x.baseOf key e) ∧ f.name ∈ Naming.names nm e
  · refine .inr ⟨hdirty, he', hcarried.1, hcarried.2, ⟨by rw [hdepth, hfresh.depth],
      x.taken nm e, ?_⟩, hbaseOf⟩
    rw [hbaseOf, hreserved]; exact hfresh.named
  refine .inl (hfresh.of_depth hdepth (by rw [hreserved]) fun n hn hsuffix hfree => ?_)
  rw [taken_up J.held]
  · exact hfree
  · rintro rfl; exact hcarried ⟨hsuffix, hn⟩

/-- A buffer named by a path is filed, with a name that marks what it changes. -/
theorem join (h : Mid x nm filed dirty) (hid : f.id ∉ filed.map Filed.id)
    (hplace : f.place ∉ filed.map Filed.place) (hplaced : x.place.lookup f.id = some f.place)
    (hp : f.path = some p) (hname : nm f.id = f.name)
    (hcleared : Cleared x f.name dirty) :
    Mid (NameIndex.join { x with held := x.held.up f.name } f.id p dirty).1 nm (f :: filed)
      (NameIndex.join { x with held := x.held.up f.name } f.id p dirty).2 := by
  obtain ⟨hindex, -, hcases⟩ := h.join_cases hid hplace hplaced hp
  refine ⟨hindex, fun g hg => ?_, fun key e he => ?_⟩
  · rcases mem_cons.1 hg with rfl | hg
    · exact hname
    · exact h.names g hg
  rcases hcases key e he with hmark | hfresh | ⟨hdirty, he', hsuffix, -⟩
  · exact .inl hmark
  · exact .inr hfresh
  have hfresh := (h.fresh key e he').resolve_left hdirty
  exact absurd (hcleared key e _ he' hfresh.depth hsuffix) hdirty

/-- A buffer named by a path is filed with a name it carries: it is no `<N>`, or another name than
    its path is to be shown by, or no buffer has it that is shown by a `<N>`. -/
theorem join_carried (h : Mid x nm filed dirty) (hid : f.id ∉ filed.map Filed.id)
    (hplace : f.place ∉ filed.map Filed.place) (hplaced : x.place.lookup f.id = some f.place)
    (hp : f.path = some p) (hname : nm f.id = f.name)
    (hcarried : withoutSuffix f.name = none ∨
      f.name ≠ (NameIndex.join { x with held := x.held.up f.name } f.id p dirty).1.pathName p ∨
      ∀ g ∈ filed, ∀ q, g.path = some q → g.name = f.name → f.name ∈ q.names) :
    Ready (NameIndex.join { x with held := x.held.up f.name } f.id p dirty).1 nm (f :: filed)
      (NameIndex.join { x with held := x.held.up f.name } f.id p dirty).2 := by
  obtain ⟨hindex, hself, hcases⟩ := h.join_cases hid hplace hplaced hp
  refine ⟨hindex, fun g hg => ?_, fun key e he => ?_⟩
  · rcases mem_cons.1 hg with rfl | hg
    · exact hname
    · exact h.names g hg
  rcases hcases key e he with hmark | hfresh | ⟨-, he', hsuffix, hmem, hgiven, hbase⟩
  · exact .inl hmark
  · exact .inr (.inl hfresh)
  refine .inr (.inr ⟨hgiven, f, .head _, p, hp, hself, ?_, ?_⟩)
  · rw [hname, hbase, hsuffix]
  rw [hname]
  rcases hcarried with hnone | hnot | hother
  · rw [hnone] at hsuffix; cases hsuffix
  · exact hnot
  -- no name of a path is a `<N>` of another name of it
  exfalso; obtain ⟨a, ha, heq⟩ := mem_map.1 hmem
  obtain ⟨g, hg, ⟨q, hq, hwhole⟩, rfl⟩ := (h.index.holders key e he' a).1 ha
  have hq' := hother g hg q hq (by rw [← h.names g hg]; exact heq)
  have hwhole' : e.path.whole = q.whole := by rw [hwhole, h.index.ok.entry_key he']
  rw [← e.path.names_congr hwhole'] at hq'
  obtain ⟨digits, -, hdigits, hf⟩ := eq_of_withoutSuffix hsuffix; rw [hf] at hq'
  refine e.path.not_mem_append (x.baseOf_mem key e) (cons_ne_nil _ _) ?_ hq'
  simp only [mem_cons, mem_append, not_mem_nil, or_false]
  rintro (hc | hc | hc)
  · cases hc
  · exact absurd (all_eq_true.1 hdigits _ hc) (by decide)
  · cases hc

theorem congr_names (h : Mid x nm filed dirty) {nm' : BufferId → BufferName}
    (hnm : ∀ f ∈ filed, nm' f.id = nm f.id) : Mid x nm' filed dirty := by
  refine ⟨h.index, fun f hf => (hnm f hf).trans (h.names f hf), fun key e he => ?_⟩
  refine (h.fresh key e he).imp_right fun hfresh => ?_
  have hnames : Naming.names nm' e = Naming.names nm e := by
    refine map_congr_left fun a ha => ?_
    obtain ⟨f, hf, -, rfl⟩ := (h.index.holders key e he a).1 ha; exact hnm f hf
  have htaken : x.taken nm' e = x.taken nm e := by unfold NameIndex.taken; rw [hnames]
  refine ⟨hfresh.depth, ?_⟩
  rw [hnames, htaken]
  exact hfresh.named

end Mid

end Pmacs.Naming
