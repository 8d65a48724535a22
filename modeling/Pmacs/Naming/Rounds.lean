/-
  The rounds of naming.

  * `Good`, `Own`: the buffers of a path have the names they are to have, or had once.
  * `First`, `Second`: the first round gives every path its name, the second leaves every path
    good, the third changes nothing; `nameAll_run`: what naming one path keeps, a round keeps.
  * `settle_spec`: the names settle.
-/
import Pmacs.Naming.Settle

namespace Pmacs.Naming

open Lib List Option

/-- The path is shown by its name, and its buffers have the names given to them with what is
    taken now. -/
structure Good (E : BufferId → BufferName) (r : Registry) (key : PathKey) (e : GroupPath) :
    Prop where
  depth : e.depth = some (r.names.depthOf key e)
  named : nameHolders (r.names.baseOf key e) (names E e)
    (!r.names.reserved.has (r.names.baseOf key e)) (r.names.taken r.nameOf e)
      (r.order.length + 1) = some (names r.nameOf e)

/-- The path is shown by its name, and its buffers have names given to them with what was taken
    at some time. -/
structure Own (E : BufferId → BufferName) (r : Registry) (key : PathKey) (e : GroupPath) :
    Prop where
  depth : e.depth = some (r.names.depthOf key e)
  named : ∃ taken, nameHolders (r.names.baseOf key e) (names E e)
    (!r.names.reserved.has (r.names.baseOf key e)) taken (r.order.length + 1) =
      some (names r.nameOf e)

variable {E : BufferId → BufferName} {filed : List Filed}
  {e : GroupPath} {key : PathKey} {r : Registry}

theorem Good.own (h : Good E r key e) : Own E r key e := ⟨h.depth, _, h.named⟩

theorem Fresh.good (h : Fresh r.names r.nameOf key e) : Good r.nameOf r key e :=
  ⟨h.depth, h.named.stable⟩

/-! ## One path named -/

variable {k : PathKey}

namespace Step

variable {r' : Registry} {prior prior' : Prior} {renamed : List (BufferName × BufferName)}
  (step : Step E r r' key renamed) (before : Settling E filed r prior)
  (after : Settling E filed r' prior')
include step

theorem depthOf (k : PathKey) (e : GroupPath) : r'.names.depthOf k e = r.names.depthOf k e := by
  unfold NameIndex.depthOf
  rw [step.shared, step.reserved]

theorem baseOf (k : PathKey) (e : GroupPath) : r'.names.baseOf k e = r.names.baseOf k e := by
  unfold NameIndex.baseOf
  rw [step.depthOf]

theorem pathName (p : NamePath) : r'.names.pathName p = r.names.pathName p := by
  unfold NameIndex.pathName
  rw [step.shared, step.reserved]

theorem entry_ne (hk : k ≠ key) : r'.names.entry k = r.names.entry k := by
  rw [step.entry, if_neg hk]

section
include before

theorem nameOf_ne {f : Filed} (hf : f ∈ filed) (hholds : (∃ e, r.names.entry key = some e) →
    ¬f.Holds key.2) : r'.nameOf f.id = r.nameOf f.id := by
  refine step.nameOf f.id fun e he hmem => hholds ⟨e, he⟩ ?_
  obtain ⟨a, ha, hid⟩ := mem_map.1 hmem
  obtain ⟨g, hg, hgholds, rfl⟩ := (before.index.holders key e he a).1 ha
  obtain ⟨g₀, hg₀, rfl⟩ := mem_named.1 hg
  have hnodup : (filed.map Filed.id).Nodup := by
    have := before.index.ids
    rwa [Naming.named, List.map_map] at this
  have heq := List.inj_on_of_nodup_map hnodup hg₀ hf hid
  exact heq ▸ hgholds

theorem names_ne (hk : k ≠ key)
    (he : r.names.entry k = some e) : names r'.nameOf e = names r.nameOf e := by
  refine map_congr_left fun a ha => ?_
  obtain ⟨f, hf, ⟨p, hp, hwhole⟩, rfl⟩ := (before.index.holders k e he a).1 ha
  obtain ⟨g, hg, rfl⟩ := mem_named.1 hf
  refine step.nameOf_ne before hg ?_
  rintro ⟨e', he'⟩ ⟨q, hq, hwhole'⟩
  obtain rfl : p = q := some.inj (hp.symm.trans hq)
  exact hk ((before.index.key_eq he hwhole).trans (before.index.key_eq he' hwhole').symm)

theorem own_ne (hk : k ≠ key) (he : r.names.entry k = some e) (h : Own E r k e) : Own E r' k e := by
  obtain ⟨taken, htaken⟩ := h.named
  refine ⟨by rw [step.depthOf, h.depth], taken, ?_⟩
  rw [step.baseOf, step.reserved, step.same.order, step.names_ne before hk he]
  exact htaken

theorem good_self (after : Settling E filed r' prior')
    (he : r'.names.entry key = some e) : Good E r' key e := by
  have he₀ := he
  rw [step.entry, if_pos rfl, map_eq_some_iff] at he₀
  obtain ⟨e₀, he₀, rfl⟩ := he₀
  refine ⟨by rw [step.depthOf]; rfl, ?_⟩
  have hnamed := step.named e₀ he₀
  rw [step.baseOf, step.reserved, step.same.order]
  -- what is taken from it is what others hold
  have htaken (n : BufferName) : r'.names.taken r'.nameOf
      { e₀ with depth := some (r.names.depthOf key e₀) } n = r.names.taken r.nameOf e₀ n := by
    rw [Bool.eq_iff_iff, after.index.taken_iff named_name he n,
      before.index.taken_iff named_name he₀ n]
    constructor
    · rintro ⟨f, hf, hholds, hname⟩; obtain ⟨g, hg, rfl⟩ := mem_named.1 hf
      exact ⟨_, mem_named.2 ⟨g, hg, rfl⟩, hholds,
        (step.nameOf_ne before hg fun _ => hholds).symm.trans hname⟩
    rintro ⟨f, hf, hholds, hname⟩; obtain ⟨g, hg, rfl⟩ := mem_named.1 hf
    exact ⟨_, mem_named.2 ⟨g, hg, rfl⟩, hholds,
      (step.nameOf_ne before hg fun _ => hholds).trans hname⟩
  exact (nameHolders_congr fun n _ => htaken n).trans hnamed

/-- Another path that is good stays so where no `<N>` of its name came or went. -/
theorem good_ne (after : Settling E filed r' prior') (hk : k ≠ key) (he : r.names.entry k = some e)
    (h : Good E r k e) (hclean : ∀ c ∈ renamed, withoutSuffix c.1 ≠ some (r.names.baseOf k e) ∧
      withoutSuffix c.2 ≠ some (r.names.baseOf k e)) : Good E r' k e := by
  have he' : r'.names.entry k = some e := (step.entry_ne hk).trans he
  refine ⟨by rw [step.depthOf, h.depth], ?_⟩
  rw [step.baseOf, step.reserved, step.same.order, step.names_ne before hk he]
  refine (nameHolders_congr fun n hn => ?_).trans h.named
  -- a buffer that was renamed has no name that matters
  have hname {g : Filed} (hg : g ∈ filed) (hor : r.nameOf g.id = n ∨ r'.nameOf g.id = n) :
      r'.nameOf g.id = r.nameOf g.id := by
    by_contra hne
    have hheld : ∃ e' a, r.names.entry key = some e' ∧ a ∈ e'.holders ∧ a.2 = g.id := by
      by_contra hnot
      refine hne (step.nameOf g.id fun e' he' hmem => hnot ?_)
      obtain ⟨a, ha, hid⟩ := mem_map.1 hmem; exact ⟨e', a, he', ha, hid⟩
    obtain ⟨e', a, hkey, ha, hid⟩ := hheld; rw [← hid] at hne hor
    obtain ⟨hold, hnew⟩ := hclean _ (step.changed e' a hkey ha hne)
    rcases hor with rfl | rfl
    · exact hold hn
    · exact hnew hn
  rw [Bool.eq_iff_iff, after.index.taken_iff named_name he' n,
    before.index.taken_iff named_name he n]
  constructor
  · rintro ⟨f, hf, hholds, heq⟩; obtain ⟨g, hg, rfl⟩ := mem_named.1 hf
    exact ⟨_, mem_named.2 ⟨g, hg, rfl⟩, hholds, (hname hg (.inr heq)).symm.trans heq⟩
  rintro ⟨f, hf, hholds, heq⟩; obtain ⟨g, hg, rfl⟩ := mem_named.1 hf
  exact ⟨_, mem_named.2 ⟨g, hg, rfl⟩, hholds, (hname hg (.inl heq)).trans heq⟩

end

/-- Where the path had names given already, only a `<N>` of its name came or went. -/
theorem renamed_suffix (hlimit : r.order.length + 1 ≤ usizeMax) {c : BufferName × BufferName}
    (hc : c ∈ renamed) (hown : ∀ e, r.names.entry key = some e → Own E r key e) :
    ∃ e, r.names.entry key = some e ∧ withoutSuffix c.1 = some (r.names.baseOf key e) ∧
      withoutSuffix c.2 = some (r.names.baseOf key e) := by
  obtain ⟨e, a, he, ha, rfl, hne⟩ := step.of_renamed c hc
  refine ⟨e, he, ?_⟩
  obtain ⟨taken, hbefore⟩ := (hown e he).named
  have hwas := nameHolders_spec hlimit hbefore
  have hnow := nameHolders_spec hlimit (step.named e he)
  obtain ⟨i, hi, hget⟩ := mem_iff_getElem.1 ha
  have hwas' : (names r.nameOf e)[i]? = some (r.nameOf a.2) := by
    simp [names, hget, hi]
  have hnow' : (names r'.nameOf e)[i]? = some (r'.nameOf a.2) := by
    simp [names, hget, hi]
  -- the same buffer keeps the name of the path, before and after
  have hiff : r.nameOf a.2 = r.names.baseOf key e ↔ r'.nameOf a.2 = r.names.baseOf key e := by
    have h := (hwas.keeps i).trans (hnow.keeps i).symm
    rwa [hwas', hnow', some.injEq, some.injEq] at h
  have hbase : r.nameOf a.2 ≠ r.names.baseOf key e := fun heq => hne (heq.trans (hiff.1 heq).symm)
  have hbase' : r'.nameOf a.2 ≠ r.names.baseOf key e := fun heq => hbase (hiff.2 heq)
  exact ⟨withoutSuffix_of_isSuffixed (hwas.suffix _ (mem_of_getElem? hwas') hbase).1,
    withoutSuffix_of_isSuffixed (hnow.suffix _ (mem_of_getElem? hnow') hbase').1⟩

end Step

/-! ## Marking -/

def marked (x : NameIndex) (renamed : List (BufferName × BufferName)) (next : Dirty) : Dirty :=
  renamed.foldl (fun next c => x.derivedChanged c.2 (x.derivedChanged c.1 next)) next

variable {r' : Registry} {prior' : Prior} {renamed : List (BufferName × BufferName)}

theorem nameAll_cons (key : PathKey) (keys : List PathKey) (r : Registry) (prior : Prior)
    (next : Dirty)
    (h : r.namePath key prior = some (r', prior', renamed)) :
    Registry.nameAll (key :: keys) r prior next =
      Registry.nameAll keys r' prior' (marked r'.names renamed next) := by
  rw [Registry.nameAll, h]
  rfl

theorem mem_marked_of_mem {x : NameIndex} {k : PathKey} : ∀
    {renamed : List (BufferName × BufferName)}
    {next : Dirty}, k ∈ next → k ∈ marked x renamed next
  | [], _, h => h
  | c :: renamed, next, h => by
    have hone : k ∈ x.derivedChanged c.2 (x.derivedChanged c.1 next) :=
      mem_derivedChanged.2 (.inl (mem_derivedChanged.2 (.inl h)))
    exact @mem_marked_of_mem x k renamed _ hone

/-- A path is marked when a `<N>` of its name came or went. -/
theorem mem_marked {x : NameIndex} (ok : x.Ok) {k : PathKey} {d : ℕ}
    (he : x.entry k = some e) (hd : e.depth = some d) :
    ∀ {renamed : List (BufferName × BufferName)} {next : Dirty} {c : BufferName × BufferName},
      c ∈ renamed → withoutSuffix c.1 = some (e.path.name d) ∨
        withoutSuffix c.2 = some (e.path.name d) → k ∈ marked x renamed next
  | [], _, _, hc, _ => absurd hc not_mem_nil
  | c :: renamed, next, c', hc, hor => by
    rcases mem_cons.1 hc with rfl | hc
    · refine @mem_marked_of_mem x k renamed _ ?_
      rcases hor with h | h
      · exact mem_derivedChanged.2 (.inl (Mid.cleared_derived ok k e d he hd h))
      · exact Mid.cleared_derived ok k e d he hd h
    change k ∈ marked x renamed (x.derivedChanged c.2 (x.derivedChanged c.1 next))
    exact mem_marked ok he hd hc hor

/-! ## The first round: every path gets its name -/

/-- In the first round a path is still to be visited, or its buffers have names given; these are
    good, or the path is marked for the next round, or it will be. -/
def First (E : BufferId → BufferName) (filed : List Filed) (todo next : Dirty) (r : Registry) :
    Prop :=
  ∀ k e, r.names.entry k = some e → k ∈ todo ∨
    Own E r k e ∧ (k ∈ next ∨ Good E r k e ∨ Owed r.names r.nameOf filed todo k e)

variable {todo : Dirty} {prior : Prior} {next : Dirty}

theorem Step.owed (step : Step E r r' key renamed)
    (before : Settling E filed r prior) (after : Settling E filed r' prior')
    (hlimit : r.order.length + 1 ≤ usizeMax) (hk : k ≠ key) (he : r.names.entry k = some e)
    (hown : Own E r k e) (howed : Owed r.names r.nameOf filed (key :: todo) k e) : k ∈
    marked r'.names renamed next ∨ Owed r'.names r'.nameOf filed todo k e := by
  obtain ⟨f, hf, q, hq, hmem, hsuffix, hnot⟩ := howed
  have hmember : { f with name := r.nameOf f.id } ∈ Naming.named r.nameOf filed :=
    mem_named.2 ⟨f, hf, rfl⟩
  by_cases hkey : (q.group, q.whole) = key
  · -- its path is visited: no name of it is the one owed
    left; obtain ⟨e₀, he₀⟩ := isSome_iff_exists.1 (before.index.entry _ hmember q hq)
    rw [hkey] at he₀; have hwhole : q.whole = key.2 := congrArg Prod.snd hkey
    have hholder : (f.place, f.id) ∈ e₀.holders :=
      (before.index.holders key e₀ he₀ _).2 ⟨_, hmember, ⟨q, hq, hwhole⟩, rfl⟩
    have hnamed := nameHolders_spec hlimit (step.named e₀ he₀)
    have hname : r'.nameOf f.id ∈ names r'.nameOf e₀ := mem_map.2 ⟨_, hholder, rfl⟩
    have hpathName : r.names.baseOf key e₀ = r.names.pathName q := by
      refine r.names.baseOf_eq_pathName (congrArg Prod.fst hkey).symm ?_
      rw [hwhole, before.index.ok.entry_key he₀]
    have hne : r'.nameOf f.id ≠ r.nameOf f.id := by
      intro heq; rw [heq] at hname
      by_cases hbase : r.nameOf f.id = r.names.baseOf key e₀
      · exact hnot (hbase.trans hpathName)
      have := withoutSuffix_of_isSuffixed (hnamed.suffix _ hname hbase).1
      rw [hsuffix, some.injEq] at this; exact hk (before.index.baseOf_injective he he₀ this)
    have he' : r'.names.entry k = some e := (step.entry_ne hk).trans he
    exact mem_marked after.index.ok he' hown.depth
      (step.changed e₀ _ he₀ hholder hne) (.inl hsuffix)
  -- it is still to be visited
  right
  have hsame : r'.nameOf f.id = r.nameOf f.id := by
    refine step.nameOf_ne before hf ?_; rintro ⟨e', he'⟩ ⟨q', hq', hwhole⟩
    obtain rfl : q = q' := some.inj (hq.symm.trans hq')
    exact hkey (before.index.key_eq he' hwhole).symm
  refine ⟨f, hf, q, hq, (mem_cons.1 hmem).resolve_left hkey, ?_, ?_⟩
  · rw [hsame, step.baseOf]; exact hsuffix
  · rw [hsame, step.pathName]; exact hnot

theorem First.step (step : Step E r r' key renamed)
    (h : Settling E filed r prior) (h' : Settling E filed r' prior')
    (hlimit : r.order.length + 1 ≤ usizeMax) (hfirst : First E filed (key :: todo) next r) :
    First E filed todo (marked r'.names renamed next) r' := by
  intro k e he
  by_cases hk : k = key
  · subst hk; have hgood := step.good_self h h' he; exact .inr ⟨hgood.own, .inr (.inl hgood)⟩
  have he₀ := he; rw [step.entry_ne hk] at he₀
  rcases hfirst k e he₀ with htodo | ⟨hown, hnext | hgood | howed⟩
  · exact .inl ((mem_cons.1 htodo).resolve_left hk)
  · exact .inr ⟨step.own_ne h hk he₀ hown, .inl (mem_marked_of_mem hnext)⟩
  · refine .inr ⟨step.own_ne h hk he₀ hown, ?_⟩
    by_cases hclean : ∀ c ∈ renamed, withoutSuffix c.1 ≠ some (r.names.baseOf k e) ∧
        withoutSuffix c.2 ≠ some (r.names.baseOf k e)
    · exact .inr (.inl (step.good_ne h h' hk he₀ hgood hclean))
    simp only [not_forall, not_and_or, not_not] at hclean; obtain ⟨c, hc, hor⟩ := hclean
    exact .inl (mem_marked h'.index.ok he hgood.depth hc hor)
  · exact .inr ⟨step.own_ne h hk he₀ hown, (step.owed h h' hlimit hk he₀ hown howed).imp_right .inr⟩

/-! ## The second round: every path is good -/

/-- In the second round a path's buffers have names given, which are good unless the path is
    still to be visited. -/
def Second (E : BufferId → BufferName) (todo : Dirty) (r : Registry) : Prop :=
  ∀ k e, r.names.entry k = some e → Own E r k e ∧ (k ∈ todo ∨ Good E r k e)

theorem Second.step (step : Step E r r' key renamed)
    (h : Settling E filed r prior) (h' : Settling E filed r' prior')
    (hlimit : r.order.length + 1 ≤ usizeMax) (hsecond : Second E (key :: todo) r) :
    Second E todo r' := by
  intro k e he
  by_cases hk : k = key
  · subst hk; have hgood := step.good_self h h' he; exact ⟨hgood.own, .inr hgood⟩
  have he₀ := he; rw [step.entry_ne hk] at he₀
  obtain ⟨hown, htodo | hgood⟩ := hsecond k e he₀
  · exact ⟨step.own_ne h hk he₀ hown, .inl ((mem_cons.1 htodo).resolve_left hk)⟩
  refine ⟨step.own_ne h hk he₀ hown, .inr (step.good_ne h h' hk he₀ hgood ?_)⟩; intro c hc
  obtain ⟨e', he', hold, hnew⟩ := step.renamed_suffix hlimit hc fun e' he' => (hsecond key e' he').1
  have hbase : r.names.baseOf key e' ≠ r.names.baseOf k e := fun hbase =>
    hk (h.index.baseOf_injective he₀ he' hbase.symm)
  rw [hold, hnew]; simpa using hbase

/-! ## The third round: nothing changes -/

theorem Second.cons (h : Second E todo r) (key : PathKey) : Second E (key :: todo) r :=
  fun k e he => (h k e he).imp_right (Or.imp_left (mem_cons_of_mem key))

theorem Second.renamed_nil
    (step : Step E r r' key renamed) (hsecond : Second E [] r) : renamed = [] := by
  rw [eq_nil_iff_forall_not_mem]
  intro c hc
  obtain ⟨e, a, he, ha, rfl, hne⟩ := step.of_renamed c hc
  have hgood := (hsecond key e he).2.resolve_left not_mem_nil
  have hsame := hgood.named.symm.trans (step.named e he)
  rw [some.injEq] at hsame
  exact hne (map_inj_left.1 hsame a ha)

/-! ## The rounds -/

theorem nameAll_run {P : Dirty → Dirty → Registry → Prop}
    (hone : ∀ {key : PathKey} {todo next : Dirty} {r r' : Registry} {prior prior' : Prior}
      {renamed : List (BufferName × BufferName)}, Step E r r' key renamed →
      Settling E filed r prior → Settling E filed r' prior' → r.order.length + 1 ≤ usizeMax →
      P (key :: todo) next r → P todo (marked r'.names renamed next) r') :
    ∀ {todo next : Dirty} {r : Registry} {prior : Prior}, Settling E filed r prior →
      filed.length ≤ r.order.length → r.order.length + 1 ≤ usizeMax → P todo next r →
      ∃ r' prior' next', Registry.nameAll todo r prior next = some (r', prior', next') ∧
        Settling E filed r' prior' ∧ OnlyNames r r' ∧ P [] next' r'
  | [], next, r, prior, h, _, _, hP => ⟨r, prior, next, rfl, h, .refl r, hP⟩
  | key :: todo, next, r, prior, h, hlength, hlimit, hP => by
    obtain ⟨r₁, prior₁, renamed, heq, h₁, step⟩ := namePath_spec h hlength key
    have hlength₁ : filed.length ≤ r₁.order.length := by rwa [step.same.order]
    have hlimit₁ : r₁.order.length + 1 ≤ usizeMax := by rwa [step.same.order]
    obtain ⟨r', prior', next', heq', h', hsame, hP'⟩ :=
      nameAll_run hone h₁ hlength₁ hlimit₁ (hone step h h₁ hlimit hP)
    exact ⟨r', prior', next', (nameAll_cons key todo r prior next heq).trans heq', h',
      step.same.trans hsame, hP'⟩

variable (order : VisitOrder)
include order

theorem rounds_nil (fuel : ℕ) (r : Registry) (prior : Prior) :
    Registry.rounds order fuel r prior [] = some r := by
  cases fuel <;> rfl

theorem rounds_next {fuel : ℕ} {dirty : Dirty} (hdirty : dirty ≠ [])
    (h : Registry.nameAll (order.visit fuel dirty) r prior [] = some (r', prior', next)) :
    Registry.rounds order (fuel + 1) r prior dirty = Registry.rounds order fuel r' prior' next := by
  cases dirty with
  | nil => exact absurd rfl hdirty
  | cons key dirty => simp only [Registry.rounds, h]

/-- **The names settle**, in three rounds at most, whatever the order the paths are visited in. -/
theorem settle_spec {dirty : Dirty}
    (h : Settling r.nameOf filed r ∅) (hlength : filed.length ≤ r.order.length)
    (hlimit : r.order.length + 1 ≤ usizeMax) (hready : Ready r.names r.nameOf filed dirty) :
    ∃ r' prior', r.settle order dirty = some r' ∧ Settling r.nameOf filed r' prior' ∧
      OnlyNames r r' ∧ ∀ k e, r'.names.entry k = some e → Good r.nameOf r' k e := by
  have hdone {r' : Registry} (hsecond : Second r.nameOf [] r') :
      ∀ k e, r'.names.entry k = some e → Good r.nameOf r' k e := fun k e he =>
    (hsecond k e he).2.resolve_left not_mem_nil
  unfold Registry.settle
  by_cases hdirty : dirty = []
  · subst hdirty
    refine ⟨r, ∅, rounds_nil order 8 r ∅, h, .refl r, fun k e he => ?_⟩
    rcases hready.fresh k e he with hmem | hfresh | ⟨-, f, -, q, -, hmem, -⟩
    · cases hmem
    · exact hfresh.good
    · cases hmem
  -- every path gets its name
  have hfirst : First r.nameOf filed (order.visit 7 dirty) [] r := by
    intro k e he
    rcases hready.fresh k e he with hmem | hfresh | ⟨hgiven, f, hf, q, hq, hmem, howed⟩
    · exact .inl ((order.perm 7 dirty).mem_iff.2 hmem)
    · exact .inr ⟨hfresh.good.own, .inr (.inl hfresh.good)⟩
    obtain ⟨taken, hnamed⟩ := hgiven.named
    exact .inr ⟨⟨hgiven.depth, taken, hnamed.stable⟩, .inr (.inr
      ⟨f, hf, q, hq, (order.perm 7 dirty).mem_iff.2 hmem, howed⟩)⟩
  obtain ⟨r₁, prior₁, next₁, heq₁, h₁, hsame₁, hfirst₁⟩ := 
    nameAll_run First.step h hlength hlimit hfirst
  rw [rounds_next order hdirty heq₁]
  have hsecond₁ : Second r.nameOf next₁ r₁ := fun k e he => by
    rcases hfirst₁ k e he with hmem | ⟨hown, hnext | hgood | ⟨f, -, q, -, hmem, -⟩⟩
    · cases hmem
    · exact ⟨hown, .inl hnext⟩
    · exact ⟨hown, .inr hgood⟩
    · cases hmem
  by_cases hnext₁ : next₁ = []
  · subst hnext₁; exact ⟨r₁, prior₁, rounds_nil order 7 r₁ prior₁, h₁, hsame₁, hdone hsecond₁⟩
  -- every path is good
  have hvisit₁ : Second r.nameOf (order.visit 6 next₁) r₁ := fun k e he =>
    (hsecond₁ k e he).imp_right (Or.imp_left (order.perm 6 next₁).mem_iff.2)
  obtain ⟨r₂, prior₂, next₂, heq₂, h₂, hsame₂, hsecond₂⟩ :=
    nameAll_run (P := fun todo _ r' => Second r.nameOf todo r') Second.step h₁
      (by rwa [hsame₁.order]) (by rwa [hsame₁.order]) hvisit₁
  rw [rounds_next order hnext₁ heq₂]
  have hsame₂ := hsame₁.trans hsame₂
  by_cases hnext₂ : next₂ = []
  · subst hnext₂; exact ⟨r₂, prior₂, rounds_nil order 6 r₂ prior₂, h₂, hsame₂, hdone hsecond₂⟩
  -- nothing changes
  obtain ⟨r₃, prior₃, _, heq₃, h₃, hsame₃, rfl, hsecond₃⟩ :=
    nameAll_run (P := fun _ next r' => next = [] ∧ Second r.nameOf [] r')
      (fun step h h' hlimit hP => ⟨by rw [hP.2.renamed_nil step, hP.1]; rfl,
        (hP.2.cons _).step step h h' hlimit⟩)
      h₂ (by rwa [hsame₂.order]) (by rwa [hsame₂.order]) ⟨rfl, hsecond₂⟩
  rw [rounds_next order hnext₂ heq₃]
  exact ⟨r₃, prior₃, rounds_nil order 5 r₃ prior₃, h₃, hsame₂.trans hsame₃, hdone hsecond₃⟩

end Pmacs.Naming
