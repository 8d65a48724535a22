/-
  The names of the buffers that hold one path.

  * `withoutSuffix_suffixed`, `isSuffixed_suffixed`: a `<N>` tells what it is the suffix of.
  * `nameHolders_spec`: one of them has the path's name, the others a `<N>` that is free.
  * `nameHolders_congr`, `Named.stable`: the names depend on nothing else, and stay.
-/
import Pmacs.Naming.Names

namespace Pmacs.Naming

open Lib List Option Nat

variable {base name : BufferName} {refused : BufferName → Bool} {c : Char}
  {given names : List BufferName} {n : ℕ}

/-! ## Suffixes -/

theorem isDigit_toDigits (h : c ∈ toDigits 10 n) : c.isDigit = true :=
  isDigit_of_mem_toDigits (by decide) (by decide) h

theorem ne_of_isDigit (h : c.isDigit = true) : c ≠ '<' ∧ c ≠ '>' ∧ c ≠ '+' := by
  refine ⟨?_, ?_, ?_⟩ <;> rintro rfl <;> cases h

/-- What is before a `<`, digits and a `>`. -/
theorem withoutSuffix_eq {base digits : List Char} (hne : digits ≠ [])
    (hd : digits.all Char.isDigit = true) :
    withoutSuffix (base ++ '<' :: (digits ++ ['>'])) = some base := by
  have hrev : ∀ c ∈ digits.reverse, decide (c ≠ '<') = true := by
    intro c hc; rw [decide_eq_true_eq]
    exact (ne_of_isDigit (all_eq_true.1 hd c (mem_reverse.1 hc))).1
  unfold withoutSuffix
  simp only [reverse_append, reverse_cons, reverse_nil, nil_append, cons_append, append_assoc]
  rw [takeWhile_append_of_pos hrev, dropWhile_append_of_pos hrev]
  simpa [hne] using hd

theorem withoutSuffix_suffixed {base : BufferName} (n : ℕ) :
    withoutSuffix (suffixed base n) = some base :=
  withoutSuffix_eq toDigits_ne_nil (all_eq_true.2 fun _ => isDigit_toDigits)

theorem suffixed_injective {m : ℕ} (h : suffixed base m = suffixed base n) : m = n := by
  have hdigits : toDigits 10 m = toDigits 10 n := by
    simpa [suffixed] using h
  rw [← ofDigitChars_ten_toDigits (n := m), hdigits, ofDigitChars_ten_toDigits]

theorem stripFront_eq_some : ∀ {front s rest : List Char},
    stripFront front s = some rest ↔ s = front ++ rest
  | [], s, rest => by simp [stripFront]
  | _ :: _, [], rest => by simp [stripFront]
  | c :: front, d :: s, rest => by
    unfold stripFront
    split
    · rename_i h; subst h; simp [stripFront_eq_some]
    rename_i h; simp only [reduceCtorEq, cons_append, cons.injEq, false_iff, not_and]
    exact fun h' => absurd h'.symm h

theorem stripBack_eq_some {s rest : List Char} : stripBack c s = some rest ↔ s = rest ++ [c] := by
  unfold stripBack
  constructor
  · intro h
    split at h
    · rename_i hlast; cases h
      obtain ⟨hne, hget⟩ := getLast?_eq_some_iff.1 hlast |>.imp fun _ h => h; rw [hget]; simp
    · cases h
  · rintro rfl; simp

theorem length_toDigits_ofDigitChars {digits : List Char} (hne : digits ≠ [])
    (hd : digits.all Char.isDigit = true) :
    (toDigits 10 (ofDigitChars 10 digits 0)).length ≤ digits.length := by
  rw [length_toDigits_le_iff (by decide) (length_pos_iff.2 hne)]
  clear hne
  induction digits with
  | nil => simp
  | cons c digits ih =>
    rw [all_cons, Bool.and_eq_true] at hd; have hrest := ih hd.2
    have hc : c.toNat - '0'.toNat ≤ 9 := by
      have := hd.1; simp only [Char.isDigit, Bool.and_eq_true, decide_eq_true_eq] at this
      have h9 : c.toNat ≤ '9'.toNat := UInt32.le_iff_toNat_le.1 this.2
      have h9' : '9'.toNat = 57 := rfl; have h0 : '0'.toNat = 48 := rfl; omega
    rw [Nat.ofDigitChars_cons, Nat.ofDigitChars_eq_ofDigitChars_zero, length_cons, Nat.pow_succ]
    have := Nat.mul_le_mul_left (10 ^ digits.length) hc; rw [Nat.mul_zero, Nat.zero_add]; omega

/-- A name with a `<N>` of a base is one: it tells the base. -/
theorem withoutSuffix_of_isSuffixed (h : isSuffixed base name = true) :
    withoutSuffix name = some base := by
  unfold isSuffixed at h
  split at h
  · cases h
  rename_i digits hdigits; rw [bind_eq_some_iff] at hdigits
  obtain ⟨rest, hrest, hback⟩ := hdigits; rw [bind_eq_some_iff] at hrest
  obtain ⟨rest', hfront, hopen⟩ := hrest; rw [stripFront_eq_some] at hfront hopen
  rw [stripBack_eq_some] at hback; subst hback hopen hfront
  split at h
  · cases h
  rename_i n hn
  simp only [Bool.and_eq_true, decide_eq_true_eq, length_append, length_cons, length_nil] at h
  obtain ⟨ds, hds, hne, hall, rfl⟩ := parseDecimal_eq_some hn
  rcases hds with rfl | rfl
  · exact withoutSuffix_eq hne hall
  -- with a sign there is one character more than the number is written in
  have := length_toDigits_ofDigitChars hne hall; simp only [length_cons] at h; omega

theorem parseDecimal_toDigits {max : ℕ} (h : n ≤ max) :
    parseDecimal max (toDigits 10 n) = some n := by
  have hvalue := ofDigitChars_ten_toDigits (n := n)
  rw [parseDecimal_of_digits toDigits_ne_nil
    (all_eq_true.2 fun _ => isDigit_toDigits) (by rwa [hvalue]), hvalue]

theorem isSuffixed_suffixed (hlo : 2 ≤ n) (hhi : n ≤ usizeMax) :
    isSuffixed base (suffixed base n) = true := by
  have hstrip : ((stripFront base (suffixed base n)).bind (stripFront ['<'])).bind
      (stripBack '>') = some (toDigits 10 n) := by
    rw [suffixed, stripFront_eq_some.2 rfl, bind_some,
      show stripFront ['<'] ('<' :: (toDigits 10 n ++ ['>'])) =
        some (toDigits 10 n ++ ['>']) from stripFront_eq_some.2 rfl,
      bind_some, stripBack_eq_some.2 rfl]
  unfold isSuffixed
  rw [hstrip]
  simp only [parseDecimal_toDigits hhi]
  simp [suffixed, hlo]
  omega

/-- What a name is a `<N>` of. -/
theorem eq_of_withoutSuffix (h : withoutSuffix name = some base) :
    ∃ digits, digits ≠ [] ∧ digits.all Char.isDigit = true ∧
      name = base ++ '<' :: (digits ++ ['>']) := by
  unfold withoutSuffix at h
  split at h
  · rename_i body hbody; simp only at h
    split at h
    · cases h
    rename_i c before hdrop
    split at h
    · rename_i hdigits; cases h
      have hc : c = '<' := by
        have := head?_dropWhile_not (fun c => decide (c ≠ '<')) body; rw [hdrop] at this
        simpa using this
      subst hc
      have hbody' : body = body.takeWhile (· ≠ '<') ++ '<' :: before := by
        rw [← hdrop, takeWhile_append_dropWhile]
      refine ⟨(body.takeWhile (· ≠ '<')).reverse, by simpa using hdigits.1, ?_, ?_⟩
      · rw [all_reverse]; exact hdigits.2
      rw [← reverse_reverse name, hbody]
      conv_lhs => rw [hbody']
      simp
    · cases h
  · cases h

/-- A name is longer than what it is a `<N>` of. -/
theorem ne_of_withoutSuffix (h : withoutSuffix name = some base) :
    name ≠ base := by
  obtain ⟨digits, -, -, rfl⟩ := eq_of_withoutSuffix h
  simp

/-! ## Filling places -/

/-- `out` is `slots` with the names `given` put into empty places. -/
structure Fills (slots out : List (Option BufferName)) (given : List BufferName) : Prop where
  length : out.length = slots.length
  keeps : ∀ (i : ℕ) (x : BufferName), slots[i]? = some (some x) → out[i]? = some (some x)
  perm : (out.filterMap id).Perm (given ++ slots.filterMap id)

namespace Fills

theorem nil : Fills [] [] [] := ⟨rfl, fun _ _ h => h, .refl _⟩

theorem cons_same {slots out : List (Option BufferName)} (h : Fills slots out given)
    (slot : Option BufferName) : Fills (slot :: slots) (slot :: out) given := by
  refine ⟨by simp [h.length], fun i x hx => ?_, ?_⟩
  · cases i with
    | zero => exact hx
    | succ i => exact h.keeps i x hx
  cases slot with
  | none => simpa using h.perm
  | some x => exact (h.perm.cons x).trans perm_middle.symm

theorem cons_new {slots out : List (Option BufferName)} (h : Fills slots out given)
    (x : BufferName) : Fills (none :: slots) (some x :: out) (x :: given) := by
  refine ⟨by simp [h.length], fun i y hy => ?_, ?_⟩
  · cases i with
    | zero => simp at hy
    | succ i => exact h.keeps i y hy
  · simpa using h.perm

theorem trans {a b c : List (Option BufferName)} {given' : List BufferName}
    (h : Fills a b given) (h' : Fills b c given') : Fills a c (given' ++ given) := by
  refine ⟨h'.length.trans h.length, fun i x hx => h'.keeps i x (h.keeps i x hx), ?_⟩
  rw [append_assoc]
  exact h'.perm.trans (h.perm.append_left given')

end Fills

section
variable {taken : BufferName → Bool}

theorem keepSuffixed_spec : ∀ (used : List BufferName)
    (pairs : List (Option BufferName × BufferName)),
    ∃ given, Fills (pairs.map Prod.fst) (keepSuffixed base taken used pairs).1 given ∧
      (keepSuffixed base taken used pairs).2.Perm (given ++ used) ∧ given.Nodup ∧
      ∀ x ∈ given, isSuffixed base x = true ∧ taken x = false ∧ x ∉ used
  | used, [] => ⟨[], .nil, .refl _, nodup_nil, nofun⟩
  | used, (slot, held) :: rest => by
    unfold keepSuffixed
    split
    · rename_i h; obtain ⟨rfl, hsuffixed, hfree, hused⟩ := h
      obtain ⟨given, hfills, hperm, hnodup, hall⟩ := keepSuffixed_spec (held :: used) rest
      refine ⟨held :: given, hfills.cons_new held, hperm.trans perm_middle,
        nodup_cons.2 ⟨fun hmem => (hall held hmem).2.2 (.head _), hnodup⟩, ?_⟩
      intro x hx
      rcases mem_cons.1 hx with rfl | hx
      · exact ⟨hsuffixed, by simpa using hfree, hused⟩
      · obtain ⟨h1, h2, h3⟩ := hall x hx; exact ⟨h1, h2, fun hmem => h3 (.tail _ hmem)⟩
    obtain ⟨given, hfills, hperm, hnodup, hall⟩ := keepSuffixed_spec used rest
    exact ⟨given, hfills.cons_same slot, hperm, hnodup, hall⟩

theorem nextFree_eq_some : ∀ {fuel n m : ℕ},
    nextFree base refused fuel n = some m →
      n ≤ m ∧ m < n + fuel ∧ refused (suffixed base m) = false ∧
        ∀ k, n ≤ k → k < m → refused (suffixed base k) = true
  | 0, _, _, h => by cases h
  | fuel + 1, n, m, h => by
    unfold nextFree at h
    split at h
    · rename_i hr; obtain ⟨h1, h2, h3, h4⟩ := nextFree_eq_some h
      refine ⟨by omega, by omega, h3, fun k hk hkm => ?_⟩
      rcases Nat.lt_or_eq_of_le hk with hlt | rfl
      · exact h4 k hlt hkm
      · exact hr
    rename_i hr; cases h
    exact ⟨Nat.le_refl _, by omega, by simpa using hr, fun k hk hkm => absurd hkm (by omega)⟩

theorem nextFree_eq_none : ∀ {fuel n : ℕ},
    nextFree base refused fuel n = none →
      ∀ k, n ≤ k → k < n + fuel → refused (suffixed base k) = true
  | 0, _, _, k, hk, hkn => absurd hkn (by omega)
  | fuel + 1, n, h, k, hk, hkn => by
    unfold nextFree at h
    split at h
    · rename_i hr
      rcases Nat.lt_or_eq_of_le hk with hlt | rfl
      · exact nextFree_eq_none h k hlt (by omega)
      · exact hr
    · cases h

theorem fillSuffixed_spec {limit : ℕ} : ∀ {n : ℕ} {used : List BufferName}
    {slots : List (Option BufferName)} {names : List BufferName},
    fillSuffixed base taken limit n used slots = some names →
      ∃ given, Fills slots (names.map some) given ∧ given.Nodup ∧
        ∀ x ∈ given, taken x = false ∧ x ∉ used ∧ ∃ m, n ≤ m ∧ m ≤ limit ∧ x = suffixed base m
  | n, used, [], names, h => by
    cases h; exact ⟨[], .nil, nodup_nil, nofun⟩
  | n, used, some name :: rest, names, h => by
    obtain ⟨names, hnames, rfl⟩ := map_eq_some_iff.1 h
    obtain ⟨given, hfills, hgiven⟩ := fillSuffixed_spec hnames
    exact ⟨given, hfills.cons_same _, hgiven⟩
  | n, used, none :: rest, names, h => by
    unfold fillSuffixed at h
    split at h
    · cases h
    rename_i m hm; obtain ⟨names, hnames, rfl⟩ := map_eq_some_iff.1 h
    obtain ⟨hnm, hml, hfree, -⟩ := nextFree_eq_some hm
    obtain ⟨given, hfills, hnodup, hall⟩ := fillSuffixed_spec hnames
    simp only [Bool.or_eq_false_iff, decide_eq_false_iff_not] at hfree
    refine ⟨suffixed base m :: given, hfills.cons_new _,
      nodup_cons.2 ⟨fun hmem => (hall _ hmem).2.1 (.head _), hnodup⟩, ?_⟩
    intro x hx
    rcases mem_cons.1 hx with rfl | hx
    · exact ⟨hfree.1, hfree.2, m, hnm, by omega, rfl⟩
    obtain ⟨h1, h2, k, hk, hkl, rfl⟩ := hall x hx
    exact ⟨h1, fun hmem => h2 (.tail _ hmem), k, by omega, hkl, rfl⟩

end

/-! ## The names of the holders -/

/-- The names of the buffers holding one path: the keeper has the path's name, when that is
    free, and every other a `<N>` that no other buffer has. -/
structure Named (base : BufferName) (holds : List BufferName) (baseFree : Bool)
    (taken : BufferName → Bool) (names : List BufferName) : Prop where
  length : names.length = holds.length
  nodup : names.Nodup
  keeps : ∀ i : ℕ, names[i]? = some base ↔ baseFree = true ∧ i = keeper base holds ∧ i < holds.length
  suffix : ∀ x ∈ names, x ≠ base → isSuffixed base x = true ∧ taken x = false

theorem keeper_lt (base : BufferName) {holds : List BufferName} (h : holds ≠ []) :
    keeper base holds < holds.length := by
  unfold keeper
  cases hfind : holds.findIdx? (· = base) with
  | none => simpa using length_pos_iff.2 h
  | some i => obtain ⟨hi, -⟩ := findIdx?_eq_some_iff_findIdx_eq.1 hfind; exact hi

/-- The places before any `<N>` is given. -/
def places (base : BufferName) (holds : List BufferName) (baseFree : Bool) :
    List (Option BufferName) :=
  if baseFree ∧ holds ≠ [] then (replicate holds.length none).set (keeper base holds) (some base)
  else replicate holds.length none

section
variable {holds : List BufferName} {baseFree : Bool} {taken : BufferName → Bool} {limit : ℕ}

theorem nameHolders_eq : nameHolders base holds baseFree taken limit =
    fillSuffixed base taken limit 2
      (keepSuffixed base taken [] ((places base holds baseFree).zip holds)).2
      (keepSuffixed base taken [] ((places base holds baseFree).zip holds)).1 := rfl

@[simp] theorem length_places : (places base holds baseFree).length = holds.length := by
  unfold places
  split <;> simp

theorem places_get {i : ℕ} (hi : i < holds.length) : (places base holds baseFree)[i]? =
    some (if baseFree = true ∧ i = keeper base holds then some base else none) := by
  have hne : holds ≠ [] := ne_nil_of_length_pos (by omega)
  unfold places
  cases baseFree with
  | false => simp [hi]
  | true =>
    rw [if_pos ⟨rfl, hne⟩, getElem?_set]
    by_cases hk : keeper base holds = i
    · simp [hk, hi]
    · simp [hk, hi, Ne.symm hk]

theorem places_filterMap : (places base holds baseFree).filterMap id =
    if baseFree ∧ holds ≠ [] then [base] else [] := by
  unfold places
  split
  · rename_i h; have hk := keeper_lt base h.2
    rw [set_eq_take_append_cons_drop, if_pos (by simpa using hk)]
    simp [take_replicate, drop_replicate]
  · simp

theorem map_fst_zip_places :
    ((places base holds baseFree).zip holds).map Prod.fst = places base holds baseFree :=
  map_fst_zip (by simp)

theorem length_nameHolders (h : nameHolders base holds baseFree taken limit = some names) :
    names.length = holds.length := by
  obtain ⟨_, hkept, -⟩ := @keepSuffixed_spec base taken [] ((places base holds baseFree).zip holds)
  obtain ⟨_, hgiven, -⟩ := fillSuffixed_spec h
  simpa using (hkept.trans hgiven).length

/-- **What the holders are named.** -/
theorem nameHolders_spec (hlimit : limit ≤ usizeMax)
    (h : nameHolders base holds baseFree taken limit = some names) :
    Named base holds baseFree taken names := by
  have hlength := length_nameHolders h
  obtain ⟨kept, hkept, hused, hkeptNodup, hkeptAll⟩ := @keepSuffixed_spec base taken []
    ((places base holds baseFree).zip holds)
  obtain ⟨given, hgiven, hgivenNodup, hgivenAll⟩ := fillSuffixed_spec h
  rw [map_fst_zip_places] at hkept
  have hfills := hkept.trans hgiven
  have hperm := hfills.perm
  have hid : (names.map some).filterMap id = names := by simp [filterMap_map]
  rw [hid, places_filterMap] at hperm
  -- a `<N>` that is given is free and is not the base
  have hsuffix : ∀ x ∈ given ++ kept, x ≠ base ∧ isSuffixed base x = true ∧ taken x = false := by
    intro x hx
    have hx' : isSuffixed base x = true ∧ taken x = false := by
      rcases mem_append.1 hx with hx | hx
      · obtain ⟨hfree, -, m, hm, hml, rfl⟩ := hgivenAll x hx
        exact ⟨isSuffixed_suffixed hm (Nat.le_trans hml hlimit), hfree⟩
      · exact ⟨(hkeptAll x hx).1, (hkeptAll x hx).2.1⟩
    exact ⟨ne_of_withoutSuffix (withoutSuffix_of_isSuffixed hx'.1), hx'⟩
  have hnodup : names.Nodup := by
    rw [hperm.nodup_iff, nodup_append]
    refine ⟨?_, ?_, ?_⟩
    · rw [nodup_append]
      refine ⟨hgivenNodup, hkeptNodup, fun x hx y hy => ?_⟩; rintro rfl
      exact (hgivenAll x hx).2.1 (hused.mem_iff.2 (mem_append_left _ hy))
    · split <;> simp
    intro x hx y hy; rintro rfl
    split at hy
    · rw [mem_singleton] at hy; exact (hsuffix x hx).1 hy
    · cases hy
  refine ⟨hlength, hnodup, fun i => ⟨fun hi => ?_, fun hi => ?_⟩, fun x hx hne => ?_⟩
  · have hmem := mem_of_getElem? hi; rw [hperm.mem_iff, mem_append] at hmem
    rcases hmem with hmem | hmem
    · exact absurd rfl (hsuffix base hmem).1
    split at hmem
    · rename_i hfree; have hk := keeper_lt base hfree.2
      have hbase := hfills.keeps (keeper base holds) base (by
        rw [places_get hk, if_pos ⟨hfree.1, rfl⟩])
      rw [getElem?_map, map_eq_some_iff] at hbase; obtain ⟨y, hy, hy'⟩ := hbase; cases hy'
      have hi' := (List.getElem?_eq_some_iff.1 hi).1
      have := (getElem?_inj hi' hnodup).1 (hi.trans hy.symm)
      exact ⟨hfree.1, this, this ▸ hk⟩
    · cases hmem
  · obtain ⟨hfree, rfl, hlt⟩ := hi
    have hbase := hfills.keeps (keeper base holds) base (by
      rw [places_get hlt, if_pos ⟨hfree, rfl⟩])
    rw [getElem?_map, map_eq_some_iff] at hbase; obtain ⟨y, hy, hy'⟩ := hbase; cases hy'
    exact hy
  rw [hperm.mem_iff, mem_append] at hx
  rcases hx with hx | hx
  · exact (hsuffix x hx).2
  split at hx
  · exact absurd (mem_singleton.1 hx) hne
  · cases hx

end

/-! ## What the names depend on -/

section
variable {holds : List BufferName} {baseFree : Bool} {taken taken' : BufferName → Bool} {limit : ℕ}

theorem keepSuffixed_congr (h : ∀ x, withoutSuffix x = some base → taken x = taken' x) :
    ∀ (used : List BufferName) (pairs : List (Option BufferName × BufferName)),
      keepSuffixed base taken used pairs = keepSuffixed base taken' used pairs
  | used, [] => rfl
  | used, (slot, held) :: rest => by
    unfold keepSuffixed
    rw [keepSuffixed_congr h (held :: used) rest, keepSuffixed_congr h used rest]
    cases hsuffixed : isSuffixed base held with
    | false => simp
    | true => rw [h held (withoutSuffix_of_isSuffixed hsuffixed)]

theorem nextFree_congr {refused' : BufferName → Bool}
    (h : ∀ k, refused (suffixed base k) = refused' (suffixed base k)) :
    ∀ fuel n : ℕ, nextFree base refused fuel n = nextFree base refused' fuel n
  | 0, _ => rfl
  | fuel + 1, n => by
    unfold nextFree; rw [h, nextFree_congr h fuel (n + 1)]

theorem fillSuffixed_congr (h : ∀ x, withoutSuffix x = some base → taken x = taken' x) :
    ∀ (n : ℕ) (used : List BufferName) (slots : List (Option BufferName)),
      fillSuffixed base taken limit n used slots = fillSuffixed base taken' limit n used slots
  | n, used, [] => rfl
  | n, used, some name :: rest => by
    unfold fillSuffixed; rw [fillSuffixed_congr h]
  | n, used, none :: rest => by
    unfold fillSuffixed
    have hnext : nextFree base (fun name => taken name || name ∈ used) (limit + 1 - n) n =
        nextFree base (fun name => taken' name || name ∈ used) (limit + 1 - n) n := by
      refine nextFree_congr (fun k => ?_) _ _; rw [h _ (withoutSuffix_suffixed k)]
    rw [hnext]
    cases nextFree base (fun name => taken' name || name ∈ used) (limit + 1 - n) n with
    | none => rfl
    | some m => simp only [fillSuffixed_congr h]

/-- Of the names that are taken, only the `<N>` of the base matter. -/
theorem nameHolders_congr (h : ∀ x, withoutSuffix x = some base → taken x = taken' x) :
    nameHolders base holds baseFree taken limit = nameHolders base holds baseFree taken' limit := by
  rw [nameHolders_eq, nameHolders_eq, keepSuffixed_congr h, fillSuffixed_congr h]

theorem nextFree_mono : ∀ {fuel fuel' n m : ℕ}, fuel ≤ fuel' →
    nextFree base refused fuel n = some m → nextFree base refused fuel' n = some m
  | 0, _, _, _, _, h => by cases h
  | fuel + 1, 0, _, _, hle, _ => absurd hle (by omega)
  | fuel + 1, fuel' + 1, n, m, hle, h => by
    unfold nextFree at h ⊢
    split
    · rename_i hr; rw [if_pos hr] at h; exact nextFree_mono (by omega) h
    rename_i hr
    rwa [if_neg hr] at h

theorem fillSuffixed_mono {limit' : ℕ} (hle : limit ≤ limit') : ∀ {n : ℕ}
    {used : List BufferName} {slots : List (Option BufferName)} {names : List BufferName},
    fillSuffixed base taken limit n used slots = some names →
      fillSuffixed base taken limit' n used slots = some names
  | _, _, [], _, h => h
  | n, used, some name :: rest, names, h => by
    unfold fillSuffixed at h ⊢; obtain ⟨names, hnames, rfl⟩ := map_eq_some_iff.1 h
    rw [fillSuffixed_mono hle hnames, map_some]
  | n, used, none :: rest, names, h => by
    unfold fillSuffixed at h ⊢
    cases hnext : nextFree base (fun name => taken name || name ∈ used) (limit + 1 - n) n with
    | none => rw [hnext] at h; cases h
    | some m =>
      rw [hnext] at h; obtain ⟨names, hnames, rfl⟩ := map_eq_some_iff.1 h
      rw [nextFree_mono (by omega) hnext]; simp [fillSuffixed_mono hle hnames]

/-- A free number that is found is found whatever more numbers are tried. -/
theorem nameHolders_mono {limit' : ℕ} (hle : limit ≤ limit')
    (h : nameHolders base holds baseFree taken limit = some names) :
    nameHolders base holds baseFree taken limit' = some names := by
  exact fillSuffixed_mono hle h

theorem keepSuffixed_kept : ∀ {used : List BufferName} {slots : List (Option BufferName)}
    {names : List BufferName}, slots.length = names.length → names.Nodup →
      (∀ p ∈ slots.zip names, p.1 = some p.2 ∨
        p.1 = none ∧ isSuffixed base p.2 = true ∧ taken p.2 = false ∧ p.2 ∉ used) →
      (keepSuffixed base taken used (slots.zip names)).1 = names.map some
  | used, [], [], _, _, _ => rfl
  | used, slot :: slots, name :: names, hlength, hnodup, h => by
    have hlength' : slots.length = names.length := by simpa using hlength
    rw [nodup_cons] at hnodup
    have hrest : ∀ p ∈ slots.zip names, p.1 = some p.2 ∨
        p.1 = none ∧ isSuffixed base p.2 = true ∧ taken p.2 = false ∧ p.2 ∉ used :=
      fun p hp => h p (.tail _ hp)
    unfold keepSuffixed
    rcases h (slot, name) (.head _) with hslot | ⟨hslot, hsuffixed, hfree, hused⟩
    · simp only at hslot; subst hslot; simp [keepSuffixed_kept hlength' hnodup.2 hrest]
    subst hslot
    have hkept := @keepSuffixed_kept (name :: used) slots names hlength' hnodup.2 (fun p hp => by
      rcases hrest p hp with h | ⟨h1, h2, h3, h4⟩
      · exact .inl h
      refine .inr ⟨h1, h2, h3, fun hmem => ?_⟩
      rcases mem_cons.1 hmem with heq | hmem
      · exact hnodup.1 (heq ▸ (of_mem_zip hp).2)
      · exact h4 hmem)
    simp [hsuffixed, hfree, hused, hkept]

theorem fillSuffixed_full {used : List BufferName} : ∀ names : List BufferName,
    fillSuffixed base taken limit n used (names.map some) = some names
  | [] => rfl
  | name :: names => by
    rw [map_cons]; unfold fillSuffixed; rw [fillSuffixed_full names, map_some]

theorem Named.stable (h : Named base names baseFree taken names) :
    nameHolders base names baseFree taken limit = some names := by
  have hkept := @keepSuffixed_kept base taken [] (places base names baseFree) names
    length_places h.nodup (fun p hp => by
      obtain ⟨i, hi, rfl⟩ := mem_iff_getElem.1 hp
      simp only [length_zip, length_places, Nat.min_self] at hi
      have hplace := @places_get base names baseFree i hi
      rw [getElem?_eq_getElem (by simpa using hi), some.injEq] at hplace; simp only [getElem_zip]
      rw [hplace]
      split
      · rename_i hk
        refine .inl ?_; have := (h.keeps i).2 ⟨hk.1, hk.2, hi⟩; rw [getElem?_eq_getElem hi] at this
        exact this.symm
      rename_i hk
      have hne : names[i] ≠ base := fun heq =>
        hk ((h.keeps i).1 (by rw [getElem?_eq_getElem hi, heq]) |>.imp_right And.left)
      have hsuffix := h.suffix _ (getElem_mem hi) hne
      exact .inr ⟨rfl, hsuffix.1, hsuffix.2, not_mem_nil⟩)
  rw [nameHolders_eq, hkept, fillSuffixed_full]

theorem findIdx?_of_nodup (hnodup : names.Nodup) {i : ℕ}
    (hi : names[i]? = some base) : names.findIdx? (· = base) = some i := by
  obtain ⟨hlt, hget⟩ := List.getElem?_eq_some_iff.1 hi
  rw [findIdx?_eq_some_iff_getElem]
  refine ⟨hlt, by simpa using hget, fun j hj => ?_⟩
  simp only [decide_eq_true_eq]
  intro heq
  have hj' : j < names.length := by omega
  have := (getElem?_inj hj' hnodup).1 (by
    rw [hi, getElem?_eq_getElem hj', heq])
  omega

variable (h : Named base holds baseFree taken names)
include h

theorem Named.again : Named base names baseFree taken names := by
  refine ⟨rfl, h.nodup, fun i => ⟨fun hi => ?_, fun ⟨hfree, hi, hlt⟩ => ?_⟩, h.suffix⟩
  · obtain ⟨hfree, -, -⟩ := (h.keeps i).1 hi; have hlt := (List.getElem?_eq_some_iff.1 hi).1
    refine ⟨hfree, ?_, hlt⟩; have hfind := findIdx?_of_nodup h.nodup hi; simp [keeper, hfind]
  have hk : keeper base holds < holds.length := keeper_lt base (by
    rintro rfl; have := h.length; simp only [length_nil] at this
    omega)
  have hbase := (h.keeps _).2 ⟨hfree, rfl, hk⟩; have hfind := findIdx?_of_nodup h.nodup hbase
  rw [hi, keeper, hfind]; exact hbase

theorem Named.mono
    (htaken : ∀ x ∈ names, withoutSuffix x = some base → taken x = false → taken' x = false) :
    Named base holds baseFree taken' names := by
  refine ⟨h.length, h.nodup, h.keeps, fun x hx hne => ?_⟩
  obtain ⟨hsuffixed, hfree⟩ := h.suffix x hx hne
  exact ⟨hsuffixed, htaken x hx (withoutSuffix_of_isSuffixed hsuffixed) hfree⟩

end

/-! ## A free name is found -/

section
variable {taken : BufferName → Bool} {limit : ℕ} {others : List BufferName}

theorem fillSuffixed_isSome
    (htaken : ∀ x, withoutSuffix x = some base → taken x = true → x ∈ others) :
    ∀ {n : ℕ} {used : List BufferName} {slots : List (Option BufferName)}, 2 ≤ n →
      (∀ k, 2 ≤ k → k < n → suffixed base k ∈ others ++ used) →
      others.length + used.length + slots.countP (·.isNone) < limit →
      (fillSuffixed base taken limit n used slots).isSome = true
  | _, _, [], _, _, _ => rfl
  | n, used, some name :: rest, hn, hseen, hroom => by
    unfold fillSuffixed; rw [isSome_map]
    exact fillSuffixed_isSome htaken hn hseen (by simpa using hroom)
  | n, used, none :: rest, hn, hseen, hroom => by
    rw [countP_cons_of_pos rfl] at hroom; unfold fillSuffixed
    split
    · rename_i hnone
      -- every number up to the limit is of another's name: there are not so many
      exfalso
      have hall : ((range' 2 (limit - 1)).map (suffixed base)) ⊆ others ++ used := by
        intro x hx; obtain ⟨k, hk, rfl⟩ := mem_map.1 hx; rw [mem_range'_1] at hk
        by_cases hkn : k < n
        · exact hseen k hk.1 hkn
        have := nextFree_eq_none hnone k (by omega) (by omega)
        simp only [Bool.or_eq_true, decide_eq_true_eq] at this; rw [mem_append]
        exact this.imp_left (htaken _ (withoutSuffix_suffixed k))
      have hnodup : ((range' 2 (limit - 1)).map (suffixed base)).Nodup :=
        List.Nodup.map (fun _ _ h => suffixed_injective h) nodup_range'
      have hle := (hnodup.subperm hall).length_le
      rw [length_map, length_range', length_append] at hle; omega
    rename_i m hm; obtain ⟨hnm, -, -, hbefore⟩ := nextFree_eq_some hm; rw [isSome_map]
    refine fillSuffixed_isSome htaken (by omega) (fun k hk hkm => ?_) (by
      rw [length_cons]; omega)
    rw [mem_append, mem_cons]
    by_cases hkn : k < n
    · exact (mem_append.1 (hseen k hk hkn)).imp_right .inr
    by_cases hkm' : k = m
    · exact .inr (.inl (by rw [hkm']))
    have := hbefore k (by omega) (by omega)
    simp only [Bool.or_eq_true, decide_eq_true_eq] at this
    exact this.imp (htaken _ (withoutSuffix_suffixed k)) .inr

theorem keepSuffixed_length : ∀ (used : List BufferName)
    (pairs : List (Option BufferName × BufferName)),
    (keepSuffixed base taken used pairs).2.length +
      (keepSuffixed base taken used pairs).1.countP (·.isNone) ≤ used.length + pairs.length
  | used, [] => by simp [keepSuffixed]
  | used, (slot, held) :: rest => by
    unfold keepSuffixed
    split
    · have := keepSuffixed_length (held :: used) rest
      simp only [length_cons, countP_cons] at this ⊢
      simp only [isNone_some, Bool.false_eq_true, if_false]; omega
    have := keepSuffixed_length used rest; simp only [length_cons, countP_cons] at this ⊢
    split <;> omega

/-- **A name is found**, when the numbers tried are more than the buffers. -/
theorem nameHolders_isSome {holds : List BufferName} {baseFree : Bool}
    (htaken : ∀ x, withoutSuffix x = some base → taken x = true → x ∈ others)
    (hroom : others.length + holds.length < limit) :
    (nameHolders base holds baseFree taken limit).isSome = true := by
  rw [nameHolders_eq]
  refine fillSuffixed_isSome htaken (Nat.le_refl 2) (fun k hk hk' => absurd hk' (by omega)) ?_
  have := @keepSuffixed_length base taken [] ((places base holds baseFree).zip holds)
  simp only [length_nil, length_zip, length_places, Nat.min_self] at this
  omega

end

end Pmacs.Naming
