/-
  The names settle.

  * `taken_iff`, `baseOf_injective`: what is taken from a path; no two paths have one name.
  * `Settling`: what holds while paths are named; `namePath_spec`: what naming one path does.
-/
import Pmacs.Naming.Fresh

namespace Pmacs.Naming

open Lib AList Function List Option

variable {f : Filed} {e : GroupPath} {p : NamePath} {key : PathKey} {r : Registry}

/-! ## What the index tells -/

/-- `Filed.Holds`, decided. -/
def Filed.holds (f : Filed) (whole : BufferName) : Bool := f.path.any fun p => p.whole = whole

theorem Filed.holds_iff (f : Filed) (whole : BufferName) :
    f.holds whole = true ↔ f.Holds whole := by
  simp [Filed.holds, Filed.Holds, Option.any_eq_true]

variable {nm : BufferId → BufferName} {n : BufferName}

namespace Indexed

variable {x : NameIndex} {filed : List Filed} (h : Indexed x filed)
include h

theorem nodup_holders (he : x.entry key = some e) : (e.holders.map Prod.snd).Nodup := by
  refine List.Nodup.map_on (fun a ha b hb hab => ?_)
    ((h.sorted key e he).imp fun hlt heq => by simp [heq] at hlt)
  obtain ⟨f, hf, -, rfl⟩ := (h.holders key e he a).1 ha
  obtain ⟨g, hg, -, rfl⟩ := (h.holders key e he b).1 hb
  rw [inj_on_of_nodup_map h.ids hf hg hab]

theorem holders_perm (he : x.entry key = some e) :
    (e.holders.map Prod.snd).Perm ((filed.filter fun f => f.holds key.2).map Filed.id) := by
  rw [perm_ext_iff_of_nodup (h.nodup_holders he)
    (h.ids.sublist (filter_sublist.map _))]
  intro id
  simp only [List.mem_map, List.mem_filter, Filed.holds_iff]
  constructor
  · rintro ⟨a, ha, rfl⟩; obtain ⟨f, hf, hholds, rfl⟩ := (h.holders key e he a).1 ha
    exact ⟨f, ⟨hf, hholds⟩, rfl⟩
  rintro ⟨f, ⟨hf, hholds⟩, rfl⟩
  exact ⟨(f.place, f.id), (h.holders key e he _).2 ⟨f, hf, hholds, rfl⟩, rfl⟩

theorem count_names (hnm : ∀ f ∈ filed, nm f.id = f.name) (he : x.entry key = some e) :
    (names nm e).count n = (filed.filter fun f => f.holds key.2).countP fun f => f.name = n := by
  have hnames : names nm e = (e.holders.map Prod.snd).map nm := by
    simp [names]
  rw [hnames, (((h.holders_perm he).map nm).count_eq n), List.map_map, List.count,
    countP_map]
  refine countP_congr fun f hf => ?_
  simp [hnm f (mem_filter.1 hf).1]

/-- A name is taken from a path when a buffer that does not hold the path has it. -/
theorem taken_iff (hnm : ∀ f ∈ filed, nm f.id = f.name)
    (he : x.entry key = some e) (n : BufferName) :
    x.taken nm e n = true ↔ ∃ f ∈ filed, ¬f.Holds key.2 ∧ f.name = n := by
  unfold NameIndex.taken
  rw [decide_eq_true_eq, h.held, h.count_names hnm he,
    countP_eq_countP_filter_add filed _ fun f => f.holds key.2, Nat.lt_add_right_iff_pos,
    countP_pos_iff]
  simp only [mem_filter, Bool.not_eq_true', Bool.eq_false_iff, ne_eq, Filed.holds_iff,
    decide_eq_true_eq, and_assoc]

theorem baseOf_injective {key' : PathKey} {e' : GroupPath} (he : x.entry key = some e)
    (he' : x.entry key' = some e') (hbase : x.baseOf key e = x.baseOf key' e') : key = key' := by
  have hgroup : key.1 = key'.1 := by
    rw [h.ok.entry_key he, h.ok.entry_key he']
    rw [← e.path.groupOf_mem (x.baseOf_mem key e), ← e'.path.groupOf_mem (x.baseOf_mem key' e'),
      hbase]
  by_contra hne
  have hshared : x.shared key.1 (x.baseOf key e) = true := by
    refine (h.ok.shared_iff he (x.baseOf_mem key e)).2
      ⟨key'.2, e', fun hwhole => hne (Prod.ext hgroup hwhole.symm), ?_, ?_⟩
    · rw [hgroup]; exact he'
    · rw [hbase]; exact x.baseOf_mem key' e'
  rw [Mid.base_not_shared h.ok he] at hshared
  cases hshared

/-! ## Showing a path by its name -/

omit h in
theorem entry_setDepth (he : x.entry key = some e) (depth : ℕ)
    (k : PathKey) : (x.setDepth key e depth).entry k =
      if k = key then some { e with depth := some depth } else x.entry k := by
  obtain ⟨group, hgroup, hpath⟩ := NameIndex.entry_eq_some.1 he
  unfold NameIndex.setDepth
  simp only [hgroup]
  split
  · rename_i hdepth
    split
    · rename_i hk; rw [hk, he, ← hdepth]
    · rfl
  rw [NameIndex.entry_setGroup]
  by_cases hname : k.1 = key.1
  · rw [if_pos hname]; unfold Group.setDepth
    by_cases hwhole : k.2 = key.2
    · rw [if_pos (Prod.ext hname hwhole), hwhole]; exact lookup_insert _
    rw [if_neg fun hk => hwhole (congrArg Prod.snd hk)]
    rw [lookup_insert_ne hwhole, NameIndex.entry, hname, hgroup, bind_some]
  · rw [if_neg hname, if_neg fun hk => hname (congrArg Prod.fst hk)]

omit h in
theorem setDepth_same (key : PathKey) (e : GroupPath) (depth : ℕ) :
    (x.setDepth key e depth).held = x.held ∧ (x.setDepth key e depth).reserved = x.reserved ∧
      (x.setDepth key e depth).member = x.member ∧ (x.setDepth key e depth).place = x.place ∧
      (x.setDepth key e depth).nextPlace = x.nextPlace ∧
      (x.setDepth key e depth).shared = x.shared := by
  unfold NameIndex.setDepth
  cases hgroup : x.group key.1 with
  | none => exact ⟨rfl, rfl, rfl, rfl, rfl, rfl⟩
  | some group =>
    simp only
    split
    · exact ⟨rfl, rfl, rfl, rfl, rfl, rfl⟩
    refine ⟨rfl, rfl, rfl, rfl, rfl, ?_⟩; ext name n; rw [NameIndex.shared_setGroup]
    split
    · rename_i hname; rw [NameIndex.shared_eq, hname, hgroup]; rfl
    · rfl

theorem setDepth (he : x.entry key = some e) :
    Indexed (x.setDepth key e (x.depthOf key e)) filed := by
  have hentry := entry_setDepth he (x.depthOf key e)
  obtain ⟨hheld, hreserved, hmember, hplace, -, -⟩ := @setDepth_same x key e (x.depthOf key e)
  have hok : (x.setDepth key e (x.depthOf key e)).Ok := by
    obtain ⟨group, hgroup, hpath⟩ := NameIndex.entry_eq_some.1 he; unfold NameIndex.setDepth
    simp only [hgroup]
    split
    · exact h.ok
    refine h.ok.setGroup ((h.ok _ _ hgroup).setDepth hpath nameDepth_lt fun w e' d he' hw hd => ?_)
    have hentry' : x.entry (key.1, w) = some e' := by
      rw [NameIndex.entry, hgroup, bind_some, he']
    intro heq; have hmem := NameIndex.mem_name (h.ok.entry_depth hentry' hd); rw [heq] at hmem
    have hshared := (h.ok.shared_iff he (x.baseOf_mem key e)).2 ⟨w, e', hw, hentry', hmem⟩
    rw [Mid.base_not_shared h.ok he] at hshared; cases hshared
  have hsame {k : PathKey} {e' : GroupPath}
      (he' : (x.setDepth key e (x.depthOf key e)).entry k = some e') :
      ∃ e₀, x.entry k = some e₀ ∧ e'.holders = e₀.holders := by
    rw [hentry] at he'
    split at he'
    · rename_i hk; cases he'; exact ⟨e, hk ▸ he, rfl⟩
    · exact ⟨e', he', rfl⟩
  refine
    { h with
      placed := fun f hf => by rw [hplace]; exact h.placed f hf
      held := fun n => by rw [hheld]; exact h.held n
      reserved := fun n => by rw [hreserved]; exact h.reserved n
      member := fun id k => by rw [hmember]; exact h.member id k
      ok := hok
      sorted := fun k e' he' => ?_
      nonempty := fun k e' he' => ?_
      holders := fun k e' he' a => ?_
      entry := fun f hf q hq => ?_ }
  · obtain ⟨e₀, he₀, heq⟩ := hsame he'; exact heq ▸ h.sorted k e₀ he₀
  · obtain ⟨e₀, he₀, heq⟩ := hsame he'; exact heq ▸ h.nonempty k e₀ he₀
  · obtain ⟨e₀, he₀, heq⟩ := hsame he'; exact heq ▸ h.holders k e₀ he₀ a
  rw [hentry]
  split
  · rfl
  · exact h.entry f hf q hq

end Indexed

/-! ## Renaming -/

def named (nm : BufferId → BufferName) (filed : List Filed) : List Filed :=
  filed.map fun f => { f with name := nm f.id }

/-- A buffer named by a path gets another name: the counts follow. -/
theorem Indexed.rename_cons {x : NameIndex} {rest : List Filed}
    (h : Indexed x (f :: rest)) (hp : f.path = some p) (n : BufferName) :
    Indexed { x with held := (x.held.down f.name).up n } ({ f with name := n } :: rest) := by
  have hmem {P : Filed → Prop} (hP : P { f with name := n } ↔ P f) :
      (∃ g ∈ { f with name := n } :: rest, P g) ↔ ∃ g ∈ f :: rest, P g := by
    simp [hP]
  exact
    { h with
      placed := fun g hg => by
        rcases mem_cons.1 hg with rfl | hg
        · exact h.placed f (.head _)
        · exact h.placed g (.tail _ hg)
      held := fun m => by
        rw [Counts.get_up, Counts.get_down, h.held, countP_cons, countP_cons]
        simp only [decide_eq_true_eq, eq_comm (a := m)]; omega
      reserved := fun m => by
        refine (h.reserved m).trans ?_
        rw [countP_cons_of_neg (by simp [hp]), countP_cons_of_neg (by simp [hp])]
      member := fun id key => (h.member id key).trans (hmem (by rfl)).symm
      holders := fun key e he a => (h.holders key e he a).trans (hmem (by rfl)).symm
      entry := fun g hg q hq => by
        rcases mem_cons.1 hg with rfl | hg
        · exact h.entry f (.head _) q hq
        · exact h.entry g (.tail _ hg) q hq }

theorem named_congr {nm' : BufferId → BufferName} {filed : List Filed}
    (h : ∀ f ∈ filed, nm f.id = nm' f.id) : named nm filed = named nm' filed :=
  map_congr_left fun f hf => by rw [h f hf]

theorem Indexed.rename {x : NameIndex} {filed : List Filed}
    (h : Indexed x (named nm filed)) (hf : f ∈ filed)
    (hp : f.path = some p) (n : BufferName) :
    Indexed { x with held := (x.held.down (nm f.id)).up n }
      (named (Function.update nm f.id n) filed) := by
  obtain ⟨before, after, rfl⟩ := append_of_mem hf
  have hperm (nm : BufferId → BufferName) : (named nm (before ++ f :: after)).Perm
      ({ f with name := nm f.id } :: named nm (before ++ after)) := by
    exact (perm_middle.map _)
  have hne : ∀ g ∈ before ++ after, g.id ≠ f.id := by
    have hnodup := h.perm (hperm nm) |>.ids; rw [map_cons, nodup_cons] at hnodup; intro g hg heq
    exact hnodup.1 (mem_map.2 ⟨_, mem_map.2 ⟨g, hg, rfl⟩, heq⟩)
  have hrest : named (Function.update nm f.id n) (before ++ after) =
      named nm (before ++ after) :=
    named_congr fun g hg => update_of_ne (hne g hg) _ _
  refine ((h.perm (hperm nm)).rename_cons hp n).perm ?_
  rw [← hrest]
  have := (hperm (Function.update nm f.id n)).symm
  rwa [update_self] at this

/-- Only the names of buffers differ. -/
structure OnlyNames (r r' : Registry) : Prop where
  order : r'.order = r.order
  nextPlace : r'.names.nextPlace = r.names.nextPlace
  buffers : ∀ id, r'.buffers.lookup id =
    (r.buffers.lookup id).map fun b => { b with name := r'.nameOf id }

namespace OnlyNames

theorem refl (r : Registry) : OnlyNames r r :=
  ⟨rfl, rfl, fun id => by
    unfold Registry.nameOf; cases r.buffers.lookup id <;> simp⟩

theorem trans {r' r'' : Registry} (h : OnlyNames r r') (h' : OnlyNames r' r'') : OnlyNames r r'' :=
  ⟨h'.order.trans h.order, h'.nextPlace.trans h.nextPlace, fun id => by
    rw [h'.buffers, h.buffers, Option.map_map]; rfl⟩

theorem isSome {r' : Registry} (h : OnlyNames r r') (id : BufferId) :
    (r'.buffers.lookup id).isSome = (r.buffers.lookup id).isSome := by
  rw [h.buffers, isSome_map]

end OnlyNames

/-- While paths are named, by the names `E` held before the event: the index is that of the
    names held now, and `prior` tells the names before. -/
structure Settling (E : BufferId → BufferName) (filed : List Filed) (r : Registry)
    (prior : Prior) : Prop where
  index : Indexed r.names (named r.nameOf filed)
  prior : ∀ f ∈ filed, (prior.lookup f.id).getD (r.nameOf f.id) = E f.id
  buffers : ∀ f ∈ filed, (r.buffers.lookup f.id).isSome = true

section
variable {E : BufferId → BufferName} {filed : List Filed} {id : BufferId}

theorem nameOf_rename (h : (r.buffers.lookup id).isSome = true)
    (n : BufferName) : (r.rename id n).nameOf = Function.update r.nameOf id n := by
  obtain ⟨b, hb⟩ := isSome_iff_exists.1 h
  ext1 i
  unfold Registry.rename Registry.modify
  simp only [hb]
  by_cases hi : i = id
  · subst hi; simp [Registry.nameOf, Buffer.setDerivedName]
  · simp [Registry.nameOf, lookup_insert_ne hi, hi]

theorem names_rename :
    (r.rename id n).names = { r.names with held := (r.names.held.down (r.nameOf id)).up n } := by
  unfold Registry.rename Registry.modify
  simp only
  split <;> rfl

theorem onlyNames_rename
    (h : (r.buffers.lookup id).isSome = true) (n : BufferName) : OnlyNames r (r.rename id n) := by
  refine ⟨?_, by rw [names_rename], fun i => ?_⟩
  · unfold Registry.rename Registry.modify; simp only
    split <;> rfl
  rw [nameOf_rename h]; obtain ⟨b, hb⟩ := isSome_iff_exists.1 h
  unfold Registry.rename Registry.modify; simp only [hb]
  by_cases hi : i = id
  · subst hi; simp [hb, Buffer.setDerivedName]
  · rw [lookup_insert_ne hi, update_of_ne hi]; exact (OnlyNames.refl r).buffers i

theorem Settling.rename {prior : Prior} (h : Settling E filed r prior)
    (hf : f ∈ filed) (hp : f.path = some p) (n : BufferName) : Settling E filed (r.rename f.id n)
      (if (prior.lookup f.id).isSome then prior else prior.insert f.id (r.nameOf f.id)) := by
  have hsome := h.buffers f hf
  refine ⟨?_, fun g hg => ?_, fun g hg => ?_⟩
  · rw [names_rename, nameOf_rename hsome]; exact h.index.rename hf hp n
  · rw [nameOf_rename hsome, ← h.prior g hg]
    by_cases hid : g.id = f.id
    · rw [hid]
      split
      · rename_i hprior; obtain ⟨m, hm⟩ := isSome_iff_exists.1 hprior; simp [hm]
      rename_i hprior; rw [Bool.not_eq_true, isSome_eq_false_iff, isNone_iff_eq_none] at hprior
      simp [hprior]
    rw [update_of_ne hid]
    split
    · rfl
    · rw [lookup_insert_ne hid]
  · rw [(onlyNames_rename hsome n).isSome]; exact h.buffers g hg

/-- **What renaming buffers does.** -/
theorem renameAll_spec : ∀ {changes : List (BufferId × BufferName)} {r : Registry} {prior : Prior},
    Settling E filed r prior →
    (∀ c ∈ changes, ∃ f ∈ filed, f.id = c.1 ∧ ∃ p, f.path = some p) →
    (changes.map Prod.fst).Nodup →
    ∃ r' prior', Registry.renameAll changes r prior =
        (r', prior', changes.map fun c => (r.nameOf c.1, c.2)) ∧
      Settling E filed r' prior' ∧ OnlyNames r r' ∧
      r'.names = { r.names with held := r'.names.held } ∧
      (∀ c ∈ changes, r'.nameOf c.1 = c.2) ∧
      ∀ id ∉ changes.map Prod.fst, r'.nameOf id = r.nameOf id
  | [], r, prior, h, _, _ =>
    ⟨r, prior, rfl, h, .refl r, rfl, nofun, fun _ _ => rfl⟩
  | (id, n) :: changes, r, prior, h, hall, hnodup => by
    rw [map_cons, nodup_cons] at hnodup; obtain ⟨f, hf, rfl, p, hp⟩ := hall (id, n) (.head _)
    have hsome := h.buffers f hf; have hfirst := h.rename hf hp n
    obtain ⟨r', prior', heq, hsettling, hsame, hnames, hchanged, hother⟩ :=
      renameAll_spec hfirst (fun c hc => hall c (.tail _ hc)) hnodup.2
    have hnameOf := nameOf_rename hsome n
    refine ⟨r', prior', ?_, hsettling, (onlyNames_rename hsome n).trans hsame, ?_,
      fun c hc => ?_, fun id hid => ?_⟩
    · unfold Registry.renameAll; simp only [heq, map_cons, Prod.mk.injEq, cons.injEq, true_and]
      refine map_congr_left fun c hc => ?_; rw [hnameOf, update_of_ne]; rintro hid
      exact hnodup.1 (mem_map.2 ⟨c, hc, hid⟩)
    · rw [hnames, names_rename]
    · rcases mem_cons.1 hc with rfl | hc
      · rw [hother _ hnodup.1, hnameOf, update_self]
      · exact hchanged c hc
    · rw [map_cons, mem_cons, not_or] at hid; rw [hother id hid.2, hnameOf, update_of_ne hid.1]

/-! ## Naming one path -/

/-- What naming the path `key` does: its depth is set, its buffers are renamed, and nothing else
    changes. -/
structure Step (E : BufferId → BufferName) (r r' : Registry) (key : PathKey)
    (renamed : List (BufferName × BufferName)) : Prop where
  same : OnlyNames r r'
  entry : ∀ k, r'.names.entry k = if k = key then
    (r.names.entry k).map fun e => { e with depth := some (r.names.depthOf k e) }
    else r.names.entry k
  shared : r'.names.shared = r.names.shared
  reserved : r'.names.reserved = r.names.reserved
  nameOf : ∀ id, (∀ e, r.names.entry key = some e → id ∉ e.holders.map Prod.snd) →
    r'.nameOf id = r.nameOf id
  named : ∀ e, r.names.entry key = some e →
    nameHolders (r.names.baseOf key e) (names E e) (!r.names.reserved.has (r.names.baseOf key e))
      (r.names.taken r.nameOf e) (r.order.length + 1) = some (names r'.nameOf e)
  of_renamed : ∀ c ∈ renamed, ∃ e h, r.names.entry key = some e ∧ h ∈ e.holders ∧
    c = (r.nameOf h.2, r'.nameOf h.2) ∧ c.1 ≠ c.2
  changed : ∀ e h, r.names.entry key = some e → h ∈ e.holders → r'.nameOf h.2 ≠ r.nameOf h.2 →
    (r.nameOf h.2, r'.nameOf h.2) ∈ renamed

theorem mem_named : f ∈ named nm filed ↔ ∃ g ∈ filed, f = { g with name := nm g.id } := by
  simp [named, eq_comm]

theorem named_name : ∀ f ∈ named nm filed, nm f.id = f.name := by
  intro f hf
  obtain ⟨g, -, rfl⟩ := mem_named.1 hf
  rfl

/-- The changes of a path: each of its buffers that does not have its name yet. -/
def changesOf (holders : List (ℕ × BufferId)) (nm : BufferId → BufferName)
    (names : List BufferName) : List (BufferId × BufferName) :=
  (((holders.zip (holders.map fun h => nm h.2)).zip names).filter fun c => c.1.2 ≠ c.2).map
    fun c => (c.1.1.2, c.2)

theorem changesOf_cons (h : ℕ × BufferId) (holders : List (ℕ × BufferId))
    (nm : BufferId → BufferName) (names : List BufferName) :
    changesOf (h :: holders) nm (n :: names) =
      if nm h.2 ≠ n then (h.2, n) :: changesOf holders nm names else changesOf holders nm names := by
  unfold changesOf
  by_cases hn : nm h.2 = n <;> simp [hn]

theorem mem_changesOf {nm : BufferId → BufferName} {c : BufferId × BufferName} :
    ∀ {holders : List (ℕ × BufferId)} {names : List BufferName},
      c ∈ changesOf holders nm names → c.1 ∈ holders.map Prod.snd ∧ nm c.1 ≠ c.2
  | [], _, h => by simp [changesOf] at h
  | _ :: _, [], h => by simp [changesOf] at h
  | h :: holders, n :: names, hc => by
    rw [changesOf_cons] at hc
    split at hc
    · rename_i hne
      rcases mem_cons.1 hc with rfl | hc
      · exact ⟨.head _, hne⟩
      · exact (mem_changesOf hc).imp_left (.tail _)
    · exact (mem_changesOf hc).imp_left (.tail _)

theorem nodup_changesOf {nm : BufferId → BufferName} :
    ∀ {holders : List (ℕ × BufferId)} {names : List BufferName},
      (holders.map Prod.snd).Nodup → ((changesOf holders nm names).map Prod.fst).Nodup
  | [], _, _ => by simp [changesOf]
  | _ :: _, [], _ => by simp [changesOf]
  | h :: holders, n :: names, hnodup => by
    rw [map_cons, nodup_cons] at hnodup; have hrest := @nodup_changesOf nm holders names hnodup.2
    rw [changesOf_cons]
    split
    · rw [map_cons, nodup_cons]
      refine ⟨fun hmem => ?_, hrest⟩; obtain ⟨c, hc, hid⟩ := mem_map.1 hmem
      have hid' : c.1 = h.2 := hid; exact hnodup.1 (hid' ▸ (mem_changesOf hc).1)
    · exact hrest

theorem names_of_changesOf {nm nm' : BufferId → BufferName} :
    ∀ {holders : List (ℕ × BufferId)} {names : List BufferName},
      (holders.map Prod.snd).Nodup → names.length = holders.length →
      (∀ c ∈ changesOf holders nm names, nm' c.1 = c.2) →
      (∀ id ∈ holders.map Prod.snd, id ∉ (changesOf holders nm names).map Prod.fst →
        nm' id = nm id) →
      (holders.map fun h => nm' h.2) = names
  | [], [], _, _, _, _ => rfl
  | [], _ :: _, _, hlength, _, _ => by simp at hlength
  | _ :: _, [], _, hlength, _, _ => by simp at hlength
  | h :: holders, n :: names, hnodup, hlength, hchanged, hother => by
    rw [map_cons, nodup_cons] at hnodup; rw [changesOf_cons] at hchanged hother
    have hnot : h.2 ∉ (changesOf holders nm names).map Prod.fst := by
      intro hmem; obtain ⟨c, hc, hid⟩ := mem_map.1 hmem
      exact hnodup.1 (hid ▸ (mem_changesOf hc).1)
    have hhead : nm' h.2 = n := by
      by_cases hne : nm h.2 = n
      · rw [if_neg (not_not.2 hne)] at hother; rw [hother _ (.head _) hnot, hne]
      · rw [if_pos hne] at hchanged; exact hchanged _ (.head _)
    rw [map_cons, hhead]
    refine congrArg _ (@names_of_changesOf nm nm' holders names hnodup.2 (by simpa using hlength)
      (fun c hc => ?_) fun id hmem hid => ?_)
    · refine hchanged c ?_
      split
      · exact .tail _ hc
      · exact hc
    have hne : id ≠ h.2 := fun heq => hnodup.1 (heq ▸ hmem)
    refine hother id (.tail _ hmem) ?_
    split
    · simp [hne, hid]
    · exact hid

/-- **What naming a path does.** -/
theorem namePath_spec {prior : Prior} (h : Settling E filed r prior)
    (hlength : filed.length ≤ r.order.length) (key : PathKey) :
    ∃ r' prior' renamed, r.namePath key prior = some (r', prior', renamed) ∧
      Settling E filed r' prior' ∧ Step E r r' key renamed := by
  unfold Registry.namePath
  cases he : r.names.entry key with
  | none =>
    refine ⟨r, prior, [], rfl, h, .refl r, fun k => ?_, rfl, rfl, fun _ _ => rfl, fun e he' => ?_,
      nofun, fun e a he' => ?_⟩
    · split
      · rename_i hk; rw [hk, he]; rfl
      · rfl
    · cases he.symm.trans he'
    · cases he.symm.trans he'
  | some e =>
    have hholds : (e.holders.map fun a => (prior.lookup a.2).getD (r.nameOf a.2)) = names E e := by
      refine map_congr_left fun a ha => ?_
      obtain ⟨f, hf, -, rfl⟩ := (h.index.holders key e he a).1 ha
      obtain ⟨g, hg, rfl⟩ := mem_named.1 hf; exact h.prior g hg
    -- a free number is found
    have htaken : ∀ n, withoutSuffix n = some (r.names.baseOf key e) →
        r.names.taken r.nameOf e n = true →
        n ∈ ((named r.nameOf filed).filter fun f => !f.holds key.2).map Filed.name := by
      intro n _ hn; obtain ⟨f, hf, hholds, rfl⟩ := (h.index.taken_iff named_name he n).1 hn
      refine mem_map.2 ⟨f, mem_filter.2 ⟨hf, ?_⟩, rfl⟩
      simpa [← Filed.holds_iff] using hholds
    have hroom : (((named r.nameOf filed).filter fun f => !f.holds key.2).map Filed.name).length +
        (names E e).length < r.order.length + 1 := by
      have hholders := (h.index.holders_perm he).length_eq
      have hsplit := length_eq_length_filter_add (l := named r.nameOf filed)
        fun f => f.holds key.2
      simp only [length_map, names, named] at hholders hsplit ⊢
      omega
    have hsome : (nameHolders (r.names.baseOf key e) (names E e)
        (!r.names.reserved.has (r.names.baseOf key e)) (r.names.taken r.nameOf e)
        (r.order.length + 1)).isSome = true := nameHolders_isSome htaken hroom
    obtain ⟨ns, hns⟩ := isSome_iff_exists.1 hsome
    have hplan : r.plan key.1 e prior =
        some ⟨r.names.depthOf key e, changesOf e.holders r.nameOf ns⟩ := by
      unfold Registry.plan; rw [hholds]; exact (congrArg (Option.map _) hns).trans rfl
    have hlengthNs : ns.length = e.holders.length := by
      simpa [names] using length_nameHolders hns
    have hnodup := h.index.nodup_holders he
    have hsettling : Settling E filed
        { r with names := r.names.setDepth key e (r.names.depthOf key e) } prior :=
      ⟨h.index.setDepth he, h.prior, h.buffers⟩
    obtain ⟨r', prior', heq, hsettling', hsame, hnames, hchanged, hother⟩ :=
      @renameAll_spec E filed (changesOf e.holders r.nameOf ns) _ _ hsettling (fun c hc => by
        obtain ⟨a, ha, hid⟩ := mem_map.1 (mem_changesOf hc).1
        obtain ⟨f, hf, ⟨p, hp, -⟩, rfl⟩ := (h.index.holders key e he a).1 ha
        obtain ⟨g, hg, rfl⟩ := mem_named.1 hf; exact ⟨g, hg, hid, p, hp⟩) (nodup_changesOf hnodup)
    obtain ⟨-, hreserved, -, -, hnextPlace, hshared⟩ :=
      @Indexed.setDepth_same r.names key e (r.names.depthOf key e)
    have hentry := Indexed.entry_setDepth he (r.names.depthOf key e)
    refine ⟨r', prior', _, by dsimp only; rw [hplan]; exact congrArg some heq, hsettling',
      ⟨hsame.order, hsame.nextPlace.trans hnextPlace, hsame.buffers⟩,
      fun k => ?_, ?_, ?_, fun id hid => ?_, fun e' he' => ?_,
      fun c hc => ?_, fun e' a he' ha hne => ?_⟩
    · rw [hnames]
      refine (hentry k).trans ?_
      split
      · rename_i hk; rw [hk, he]; rfl
      · rfl
    · rw [hnames]; exact hshared
    · rw [hnames]; exact hreserved
    · refine hother id fun hmem => hid e he ?_; obtain ⟨c, hc, rfl⟩ := mem_map.1 hmem
      exact (mem_changesOf hc).1
    · obtain rfl : e = e' := some.inj (he.symm.trans he'); rw [hns]
      exact congrArg some (names_of_changesOf hnodup hlengthNs hchanged
        fun id _ hid => hother id hid).symm
    · obtain ⟨d, hd, rfl⟩ := mem_map.1 hc; obtain ⟨hmem, hne⟩ := mem_changesOf hd
      obtain ⟨a, ha, hid⟩ := mem_map.1 hmem
      refine ⟨e, a, he, ha, ?_, hne⟩; rw [hid, hchanged d hd]; rfl
    obtain rfl : e = e' := some.inj (he.symm.trans he')
    have hmem : a.2 ∈ (changesOf e.holders r.nameOf ns).map Prod.fst := by
      by_contra hnot
      exact hne (hother a.2 hnot)
    obtain ⟨c, hc, hid⟩ := mem_map.1 hmem
    refine mem_map.2 ⟨c, hc, ?_⟩; rw [← hid, hchanged c hc]; rfl

end

end Pmacs.Naming
