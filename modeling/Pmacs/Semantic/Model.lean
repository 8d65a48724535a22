/-
  What a semantic frontend reconstructs of one family of one buffer (semantic_client.rs).

  * `Item`: something anchored at a range of bytes, a style span or a decoration.
  * `SemanticModel.apply`: a frame's segments applied to the tiles, a straddled tile split.
  * `itemsAt`: what covers a byte; `itemsAt_apply`: a segment replaces what covers its bytes, and
    nothing else does.
-/
import Pmacs.Lib.Ranges
import Pmacs.Terminal.Cell

namespace Pmacs.Semantic

open Lib List Option Range

abbrev ByteRange := Lib.Range

/-- Something anchored at a range of bytes. -/
structure Item (A : Type) where
  range : ByteRange
  what : A
deriving DecidableEq

abbrev StyleSpan := Item Style

inductive DecorationKind where
  | diagnosticError
  | diagnosticWarning
  | diagnosticInfo
  | diagnosticHint
  | selection
  | searchMatch
  | searchMatchActive
  | currentLine
deriving DecidableEq

abbrev Decoration := Item DecorationKind

variable {A : Type}

/-- The item narrowed to `bounds`. -/
def Item.clipped (i : Item A) (bounds : ByteRange) : Option (Item A) :=
  (i.range.inter bounds).map fun range => { i with range := range }

/-- `clip_style_spans`, `clip_decorations`: the items that meet a range, clipped to it. -/
def clip (bounds : ByteRange) (items : List (Item A)) : List (Item A) :=
  items.filterMap (·.clipped bounds)

def covering (items : List (Item A)) (byte : ℕ) : List A :=
  (items.filter fun i => byte ∈ i.range).map (·.what)

variable {byte : ℕ}

theorem covering_clip {bounds : ByteRange} (hb : byte ∈ bounds)
    (items : List (Item A)) : covering (clip bounds items) byte = covering items byte := by
  unfold covering clip
  induction items with
  | nil => rfl
  | cons i items ih =>
    rw [filterMap_cons, Item.clipped]
    cases hinter : i.range.inter bounds with
    | none =>
      have hnot : byte ∉ i.range := fun hi => not_mem_of_inter_eq_none hinter hi hb
      rw [map_none, filter_cons_of_neg (by simpa using hnot)]; exact ih
    | some r =>
      have hmem := mem_of_inter_eq_some hinter (x := byte); rw [map_some]
      by_cases hi : byte ∈ i.range
      · rw [filter_cons_of_pos (by simpa using hmem.2 ⟨hi, hb⟩),
          filter_cons_of_pos (by simpa using hi), map_cons, map_cons, ih]
      rw [filter_cons_of_neg (by simpa using fun hr => hi (hmem.1 hr).1),
        filter_cons_of_neg (by simpa using hi), ih]

theorem mem_covering {items : List (Item A)} {a : A} :
    a ∈ covering items byte ↔ ∃ i ∈ items, byte ∈ i.range ∧ i.what = a := by
  simp only [covering, List.mem_map, List.mem_filter, decide_eq_true_eq, and_assoc]

/-! ## Tiles -/

/-- One reconstructed region. -/
structure Tile (A : Type) where
  range : ByteRange
  items : List (Item A)

def Tile.Apart (t u : Tile A) : Prop := ∀ byte, byte ∈ t.range → byte ∉ u.range

instance : Std.Symm (Tile.Apart (A := A)) := ⟨fun _ _ h byte hu ht => h byte ht hu⟩

/-- The tiles in their order, which is by where they start. -/
abbrev SemanticModel (A : Type) := List (Tile A)

/-- What a frame carries: whether it is a resync, and its segments. -/
structure Segments (A : Type) where
  full : Bool
  segments : List (Tile A)

namespace SemanticModel

def outside (region : ByteRange) (t : Tile A) : List (Tile A) :=
  if (t.range.inter region).isNone then [t]
  else (if t.range.start < region.start then
      [⟨⟨t.range.start, region.start⟩, clip ⟨t.range.start, region.start⟩ t.items⟩] else []) ++
    (if region.stop < t.range.stop then
      [⟨⟨region.stop, t.range.stop⟩, clip ⟨region.stop, t.range.stop⟩ t.items⟩] else [])

def replaceRegion (m : SemanticModel A) (s : Tile A) : SemanticModel A :=
  m.flatMap (outside s.range) ++ [s]

/-- A resync discards everything first; otherwise each segment replaces its own bytes. -/
def apply (m : SemanticModel A) (f : Segments A) : SemanticModel A :=
  (if f.full then f.segments else f.segments.foldl replaceRegion m).insertionSort
    fun t u => Range.Le t.range u.range

/-- `items_at`, each item by what it is. -/
def itemsAt (m : SemanticModel A) (byte : ℕ) : List A :=
  match m.find? fun t => byte ∈ t.range with
  | none => []
  | some t => covering t.items byte

def Disjoint (m : SemanticModel A) : Prop := m.Pairwise Tile.Apart

variable {m : SemanticModel A}

theorem Disjoint.perm {m' : SemanticModel A} (h : Disjoint m) (hperm : m.Perm m') : Disjoint m' :=
  (hperm.pairwise_iff fun h => Std.Symm.symm _ _ h).1 h

section
variable {t s : Tile A}

theorem itemsAt_of_mem (h : Disjoint m) (ht : t ∈ m) (hb : byte ∈ t.range) :
    m.itemsAt byte = covering t.items byte := by
  unfold itemsAt
  cases hfind : m.find? fun t => byte ∈ t.range with
  | none => have := find?_eq_none.1 hfind t ht; exact absurd hb (by simpa using this)
  | some u =>
    have hu := mem_of_find?_eq_some hfind
    have hbu : byte ∈ u.range := by simpa using find?_some hfind
    by_cases heq : u = t
    · rw [heq]
    · exact absurd hb (h.forall hu ht heq byte hbu)

theorem itemsAt_of_not_mem (h : ∀ t ∈ m, byte ∉ t.range) : m.itemsAt byte = [] := by
  have hnone : (m.find? fun t => byte ∈ t.range) = none := by simpa using h
  rw [itemsAt, hnone]

theorem itemsAt_perm {m' : SemanticModel A} (h : Disjoint m) (hperm : m.Perm m') :
    m'.itemsAt byte = m.itemsAt byte := by
  by_cases hin : ∃ t ∈ m, byte ∈ t.range
  · obtain ⟨t, ht, hb⟩ := hin
    rw [itemsAt_of_mem h ht hb, itemsAt_of_mem (h.perm hperm) (hperm.mem_iff.1 ht) hb]
  push Not at hin
  rw [itemsAt_of_not_mem hin, itemsAt_of_not_mem fun t ht => hin t (hperm.mem_iff.2 ht)]

/-- What is left of a tile covers its own bytes outside the region, with what it had there. -/
theorem mem_outside {region : ByteRange} {u : Tile A} (hu : u ∈ outside region t)
    (hb : byte ∈ u.range) :
    byte ∈ t.range ∧ byte ∉ region ∧ covering u.items byte = covering t.items byte := by
  unfold outside at hu
  split at hu
  · rename_i hnone; rw [mem_singleton] at hu; subst hu
    exact ⟨hb, not_mem_of_inter_eq_none (isNone_iff_eq_none.1 hnone) hb, rfl⟩
  rw [mem_append] at hu
  rcases hu with hu | hu
  all_goals
    split at hu
    · rw [mem_singleton] at hu; subst hu; have hcover := covering_clip hb t.items
      rename_i hsome hlt; obtain ⟨r, hr⟩ := ne_none_iff_exists'.1 (isNone_iff_eq_none.not.1 hsome)
      obtain ⟨hlt', -⟩ := inter_eq_some.1 hr; simp only [mem_iff] at hb ⊢
      exact ⟨by omega, by omega, hcover⟩
    · cases hu

theorem exists_mem_outside {region : ByteRange} (hb : byte ∈ t.range) (hnot : byte ∉ region) :
    ∃ u ∈ outside region t, byte ∈ u.range := by
  unfold outside
  split
  · exact ⟨t, mem_singleton_self t, hb⟩
  simp only [mem_iff] at hb hnot
  rcases lt_or_ge byte region.start with hlt | hge
  · rw [if_pos (by omega)]
    exact ⟨_, mem_append_left _ (mem_singleton_self _), by
      simp only [mem_iff]; omega⟩
  rw [if_pos (show region.stop < t.range.stop by omega)]
  exact ⟨_, mem_append_right _ (mem_singleton_self _), by
    simp only [mem_iff]; omega⟩

theorem outside_disjoint (region : ByteRange) (t : Tile A) : Disjoint (outside region t) := by
  unfold outside
  split
  · exact pairwise_singleton _ _
  rename_i hsome; obtain ⟨r, hr⟩ := ne_none_iff_exists'.1 (isNone_iff_eq_none.not.1 hsome)
  obtain ⟨hlt, -⟩ := inter_eq_some.1 hr
  refine pairwise_append.2 ⟨?_, ?_, fun u hu v hv byte hbu hbv => ?_⟩
  · split
    · exact pairwise_singleton _ _
    · exact List.Pairwise.nil
  · split
    · exact pairwise_singleton _ _
    · exact List.Pairwise.nil
  split at hu <;> split at hv <;> simp only [mem_singleton, not_mem_nil] at hu hv
  subst hu hv; simp only [mem_iff] at hbu hbv; omega

theorem replaceRegion_disjoint (h : Disjoint m) (s : Tile A) : Disjoint (m.replaceRegion s) := by
  refine pairwise_append.2 ⟨pairwise_flatMap.2 ⟨fun t _ => outside_disjoint _ t, ?_⟩,
    pairwise_singleton _ _, fun u hu v hv byte hbu => ?_⟩
  · exact h.imp fun {t u} hne v hv w hw byte hbv hbw =>
      hne byte (mem_outside hv hbv).1 (mem_outside hw hbw).1
  rw [mem_singleton] at hv; subst hv; obtain ⟨t, -, hut⟩ := mem_flatMap.1 hu
  exact (mem_outside hut hbu).2.1

/-- **A segment replaces what covers its bytes**, and nothing else. -/
theorem itemsAt_replaceRegion (h : Disjoint m) {s : Tile A} : (m.replaceRegion s).itemsAt byte =
      if byte ∈ s.range then covering s.items byte else m.itemsAt byte := by
  have hdisjoint := replaceRegion_disjoint h s
  split
  · rename_i hin; exact itemsAt_of_mem hdisjoint (mem_append_right _ (mem_singleton_self s)) hin
  rename_i hout
  by_cases hin : ∃ t ∈ m, byte ∈ t.range
  · obtain ⟨t, ht, hb⟩ := hin; obtain ⟨u, hu, hbu⟩ := exists_mem_outside hb hout
    rw [itemsAt_of_mem h ht hb, ← (mem_outside hu hbu).2.2]
    exact itemsAt_of_mem hdisjoint (mem_append_left _ (mem_flatMap.2 ⟨t, ht, hu⟩)) hbu
  push Not at hin
  rw [itemsAt_of_not_mem hin]
  refine itemsAt_of_not_mem fun u hu hbu => ?_
  rcases mem_append.1 hu with hu | hu
  · obtain ⟨t, ht, hut⟩ := mem_flatMap.1 hu; exact hin t ht (mem_outside hut hbu).1
  · rw [mem_singleton] at hu; subst hu; exact hout hbu

end

theorem foldl_replaceRegion : ∀ (segments : List (Tile A)) {m : SemanticModel A}, Disjoint m →
    Disjoint segments → Disjoint (segments.foldl replaceRegion m) ∧
      ∀ byte, (segments.foldl replaceRegion m).itemsAt byte =
        if ∃ s ∈ segments, byte ∈ s.range then itemsAt segments byte else m.itemsAt byte
  | [], m, h, _ => ⟨h, fun byte => by simp⟩
  | s :: segments, m, h, hs => by
    rw [foldl_cons]; have hs' := hs; obtain ⟨hfirst, hrest⟩ := pairwise_cons.1 hs
    obtain ⟨hdisjoint, hat⟩ := foldl_replaceRegion segments (replaceRegion_disjoint h s) hrest
    refine ⟨hdisjoint, fun byte => ?_⟩; rw [hat, itemsAt_replaceRegion h]
    by_cases hlater : ∃ u ∈ segments, byte ∈ u.range
    · obtain ⟨u, hu, hbu⟩ := hlater
      rw [if_pos ⟨u, hu, hbu⟩, if_pos ⟨u, mem_cons_of_mem s hu, hbu⟩,
        itemsAt_of_mem hrest hu hbu, itemsAt_of_mem hs' (mem_cons_of_mem s hu) hbu]
    rw [if_neg hlater]
    by_cases hin : byte ∈ s.range
    · rw [if_pos hin, if_pos ⟨s, mem_cons_self, hin⟩, itemsAt_of_mem hs' mem_cons_self hin]
    rw [if_neg hin, if_neg]; rintro ⟨u, hu, hbu⟩
    rcases mem_cons.1 hu with rfl | hu
    · exact hin hbu
    · exact hlater ⟨u, hu, hbu⟩

variable {segments : List (Tile A)}

theorem itemsAt_apply_full (hs : Disjoint segments) :
    (m.apply ⟨true, segments⟩).itemsAt byte = itemsAt segments byte :=
  itemsAt_perm hs (perm_insertionSort _ _).symm

/-- **A frame of dirty segments** replaces what covers their bytes, and nothing else. -/
theorem itemsAt_apply (h : Disjoint m) (hs : Disjoint segments) :
    (m.apply ⟨false, segments⟩).itemsAt byte =
      if ∃ s ∈ segments, byte ∈ s.range then itemsAt segments byte else m.itemsAt byte := by
  obtain ⟨hdisjoint, hat⟩ := foldl_replaceRegion segments h hs
  rw [← hat byte]
  exact itemsAt_perm hdisjoint (perm_insertionSort _ _).symm

theorem apply_disjoint (h : Disjoint m) {f : Segments A}
    (hs : Disjoint f.segments) : Disjoint (m.apply f) := by
  refine Disjoint.perm ?_ (perm_insertionSort _ _).symm
  split
  · exact hs
  · exact (foldl_replaceRegion f.segments h hs).1

theorem apply_sorted (f : Segments A) :
    (m.apply f).Pairwise fun t u => Le t.range u.range := by
  have : Std.Total fun t u : Tile A => Le t.range u.range :=
    ⟨fun t u => total_of Le t.range u.range⟩
  have : IsTrans (Tile A) fun t u => Le t.range u.range := ⟨fun t u v => trans_of Le⟩
  exact pairwise_insertionSort _ _

end SemanticModel

end Pmacs.Semantic
