/-
  What a projection sends of a buffer's styling and decorations (semantic_render.rs).

  * `changedIntervals`: the bytes whose covering items differ between two sets.
  * `emitStyleSpans`, `renderDecorations`: one frame of each family, against its baseline.
  * `Link`: the producer's baselines, the frontend's models, and the sets projected last.
  * `models_show`: after every frame the models show these sets.
-/
import Pmacs.Semantic.Model
import Pmacs.Window.StyleSpans

namespace Pmacs.Semantic

open Lib List Option

variable {A : Type}

/-! ## The difference of two sets -/

variable {byte : ℕ}

section
variable [DecidableEq A]

def changedIntervals (prev curr : List (Item A)) : List ByteRange :=
  Range.coalesce (((prev.filter fun p => p ∉ curr) ++ curr.filter fun c => c ∉ prev).map (·.range))

/-- An item that covers a byte outside the changed intervals is in both sets. -/
theorem mem_iff_of_not_changed {prev curr : List (Item A)}
    (h : ¬∃ r ∈ changedIntervals prev curr, byte ∈ r) {i : Item A} (hi : byte ∈ i.range) :
    i ∈ prev ↔ i ∈ curr := by
  have hrange (hmem : i ∈ (prev.filter fun p => p ∉ curr) ++ curr.filter fun c => c ∉ prev) :
      False :=
    h (Range.mem_coalesce.2 ⟨i.range, mem_map.2 ⟨i, hmem, rfl⟩, hi⟩)
  constructor
  · intro hp
    by_contra hc
    exact hrange (mem_append_left _ (mem_filter.2 ⟨hp, by simpa using hc⟩))
  intro hc
  by_contra hp
  exact hrange (mem_append_right _ (mem_filter.2 ⟨hc, by simpa using hp⟩))

theorem mem_covering_of_not_changed {prev curr : List (Item A)}
    (h : ¬∃ r ∈ changedIntervals prev curr, byte ∈ r) (a : A) :
    a ∈ covering prev byte ↔ a ∈ covering curr byte := by
  rw [mem_covering, mem_covering]
  constructor
  · rintro ⟨i, hi, hb, rfl⟩; exact ⟨i, (mem_iff_of_not_changed h hb).1 hi, hb, rfl⟩
  · rintro ⟨i, hi, hb, rfl⟩; exact ⟨i, (mem_iff_of_not_changed h hb).2 hi, hb, rfl⟩

end

def Apart (items : List (Item A)) : Prop :=
  items.Pairwise fun i j => ∀ byte, byte ∈ i.range → byte ∉ j.range

variable {items : List (Item A)}

/-- Where no two items share a byte, what covers a byte is told by which item does. -/
theorem covering_congr {items' : List (Item A)} (h : Apart items) (h' : Apart items') (heq : ∀ i, byte ∈ i.range → (i ∈ items ↔ i ∈ items')) :
    covering items byte = covering items' byte := by
  have hone {l : List (Item A)} (hl : Apart l) :
      (l.filter fun i => byte ∈ i.range) = [] ∨ ∃ i, (l.filter fun i => byte ∈ i.range) = [i] := by
    cases hf : l.filter fun i => byte ∈ i.range with
    | nil => exact .inl rfl
    | cons i rest =>
      refine .inr ⟨i, ?_⟩
      cases rest with
      | nil => rfl
      | cons j rest =>
        exfalso
        have hmem (k : Item A) (hk : k ∈ i :: j :: rest) : byte ∈ k.range := by
          rw [← hf] at hk; simpa using (mem_filter.1 hk).2
        have hpair : Apart (i :: j :: rest) := hf ▸ hl.sublist filter_sublist
        exact (pairwise_cons.1 hpair).1 j mem_cons_self byte (hmem i mem_cons_self)
          (hmem j (by simp))
  have hmem (i : Item A) : i ∈ (items.filter fun i => byte ∈ i.range) ↔
      i ∈ items'.filter fun i => byte ∈ i.range := by
    rw [mem_filter, mem_filter, decide_eq_true_eq]; exact and_congr_left fun hb => heq i hb
  unfold covering
  rcases hone h with h₁ | ⟨i, h₁⟩ <;> rcases hone h' with h₂ | ⟨j, h₂⟩
  all_goals rw [h₁, h₂] at hmem
  · rw [h₁, h₂]
  · exact absurd ((hmem j).2 (by simp)) (by simp)
  · exact absurd ((hmem i).1 (by simp)) (by simp)
  · rw [h₁, h₂, mem_singleton.1 ((hmem i).1 (by simp))]

/-! ## One frame -/

/-- The baseline of one family: the viewport, the items, and the generation they were sent at. -/
structure LastFrame (A : Type) where
  visible : ByteRange
  items : List (Item A)
  generation : ℕ

abbrev Sent (A : Type) := Option (LastFrame A) × Option (Segments A)

def fullFrame (visible : ByteRange) (generation : ℕ) (items : List (Item A)) : Sent A :=
  (some ⟨visible, items, generation⟩, some ⟨true, [⟨visible, items⟩]⟩)

/-- The changed intervals alone; nothing where there is none. -/
def dirtyFrame [DecidableEq A] (prev : LastFrame A) (visible : ByteRange) (generation : ℕ)
    (items : List (Item A)) : Sent A :=
  if changedIntervals prev.items items = [] then (some prev, none)
  else
    (some ⟨visible, items, generation⟩,
      some ⟨false, (changedIntervals prev.items items).map fun range => ⟨range, clip range items⟩⟩)

def emitStyleSpans (visible : ByteRange) (generation : ℕ) (spans : List StyleSpan)
    (prev : Option (LastFrame Style)) : Sent Style :=
  match prev with
  | none => fullFrame visible generation spans
  | some p =>
    if p.visible ≠ visible ∨ p.generation ≠ generation then fullFrame visible generation spans
    else dirtyFrame p visible generation spans

def isDiagnosticKind : DecorationKind → Bool
  | .diagnosticError | .diagnosticWarning | .diagnosticInfo | .diagnosticHint => true
  | _ => false

/-- The set of a frame: while the diagnostics are stale those sent last are carried. -/
def frameDecorations (items : List Decoration) (diagHold : Bool)
    (prev : Option (LastFrame DecorationKind)) : List Decoration :=
  match diagHold, prev with
  | true, some p =>
    (items ++ p.items.filter fun d => isDiagnosticKind d.what).insertionSort
      fun d e => d.range.start ≤ e.range.start
  | _, _ => items

def renderDecorations (visible : ByteRange) (generation : ℕ) (items : List Decoration)
    (diagHold : Bool) (prev : Option (LastFrame DecorationKind)) : Sent DecorationKind :=
  let decorations := frameDecorations items diagHold prev
  match prev with
  | none => fullFrame visible generation decorations
  | some p =>
    -- while stale nothing new is said, and the baseline is kept current
    if diagHold ∧ p.visible = visible ∧ decorations = p.items then
      (some { p with generation := generation }, none)
    else if p.visible ≠ visible ∨ !diagHold ∧ p.generation ≠ generation then
      if p.visible = visible ∧ p.items = [] ∧ decorations = [] then
        (some ⟨visible, decorations, generation⟩, none)
      else fullFrame visible generation decorations
    else dirtyFrame p visible generation decorations

/-! ## Runs -/

def folded (styles : List Style) : Style := styles.foldl mergeStyles .default

/-- A projection of a buffer and the frontend it is sent to: the baselines, the models, and the
    sets projected last, the decorations with the viewport they were projected for. -/
structure Link where
  lastSent : Option (LastFrame Style)
  lastDecorations : Option (LastFrame DecorationKind)
  styles : SemanticModel Style
  decos : SemanticModel DecorationKind
  spans : List StyleSpan
  decorations : List Decoration
  visible : ByteRange

namespace Link

def start : Link := ⟨none, none, [], [], [], [], ⟨0, 0⟩⟩

def receive (m : SemanticModel A) (message : Option (Segments A)) : SemanticModel A :=
  match message with
  | none => m
  | some f => m.apply f

/-- A frame's styling; a frame that holds it or finds its key unchanged has none. -/
def styleFrame (l : Link) (visible : ByteRange) (generation : ℕ) (spans : List StyleSpan) : Link :=
  let sent := emitStyleSpans visible generation spans l.lastSent
  { l with
    lastSent := sent.1
    styles := receive l.styles sent.2
    spans := spans }

def decorationsFrame (l : Link) (visible : ByteRange) (generation : ℕ) (items : List Decoration)
    (diagHold : Bool) : Link :=
  let sent := renderDecorations visible generation items diagHold l.lastDecorations
  { l with
    lastDecorations := sent.1
    decos := receive l.decos sent.2
    decorations := frameDecorations items diagHold l.lastDecorations
    visible := visible }

/-- `on_buffer_snapshot_sent`: the baselines are forgotten. -/
def snapshotSent (l : Link) : Link := { l with lastSent := none, lastDecorations := none }

/-- Spans that are sorted, share no byte, and are scoped to the viewport. -/
structure SpansOk (visible : ByteRange) (spans : List StyleSpan) : Prop where
  sorted : spans.Pairwise fun s t => s.range.stop ≤ t.range.start
  within : ∀ s ∈ spans, ∀ byte ∈ s.range, byte ∈ visible

inductive Reaches : Link → Prop where
  | start : Reaches start
  | styleFrame {l : Link} {visible : ByteRange} (generation : ℕ) {spans : List StyleSpan} :
      Reaches l → SpansOk visible spans → Reaches (l.styleFrame visible generation spans)
  | decorationsFrame {l : Link} (visible : ByteRange) (generation : ℕ) (items : List Decoration)
      (diagHold : Bool) :
      Reaches l → Reaches (l.decorationsFrame visible generation items diagHold)
  | snapshotSent {l : Link} : Reaches l → Reaches l.snapshotSent

end Link

/-! ## What a message does to a model -/

namespace SemanticModel

variable {m : SemanticModel A} {visible : ByteRange}

theorem itemsAt_full {m : SemanticModel A} : (m.apply ⟨true, [⟨visible, items⟩]⟩).itemsAt byte =
      if byte ∈ visible then covering items byte else [] := by
  have hone : Disjoint [(⟨visible, items⟩ : Tile A)] := pairwise_singleton _ _
  rw [itemsAt_apply_full hone]
  split
  · rename_i hin; exact itemsAt_of_mem hone (mem_singleton_self _) hin
  · rename_i hout; exact itemsAt_of_not_mem (by simpa using hout)

theorem clipped_disjoint {intervals : List ByteRange} (h : Range.Apart intervals) :
    Disjoint (intervals.map fun range => (⟨range, clip range items⟩ : Tile A)) := by
  refine pairwise_map.2 (h.imp fun {a b} hlt byte ha hb => ?_)
  simp only [Range.mem_iff] at ha hb
  omega

theorem itemsAt_dirty [DecidableEq A] (h : Disjoint m) (prev : List (Item A)) :
    (m.apply ⟨false, (changedIntervals prev items).map fun range =>
        ⟨range, clip range items⟩⟩).itemsAt byte =
      if ∃ r ∈ changedIntervals prev items, byte ∈ r then covering items byte
      else m.itemsAt byte := by
  have hs : Disjoint ((changedIntervals prev items).map fun range =>
      (⟨range, clip range items⟩ : Tile A)) :=
    clipped_disjoint (Range.coalesce_apart _)
  rw [itemsAt_apply h hs]
  by_cases hin : ∃ r ∈ changedIntervals prev items, byte ∈ r
  · obtain ⟨r, hr, hb⟩ := hin
    have hmem : (⟨r, clip r items⟩ : Tile A) ∈ (changedIntervals prev items).map fun range =>
        ⟨range, clip range items⟩ := mem_map.2 ⟨r, hr, rfl⟩
    rw [if_pos ⟨_, hmem, hb⟩, if_pos ⟨r, hr, hb⟩, itemsAt_of_mem hs hmem hb]
    exact covering_clip hb items
  rw [if_neg hin, if_neg]; rintro ⟨t, ht, hb⟩; obtain ⟨r, hr, rfl⟩ := mem_map.1 ht
  exact hin ⟨r, hr, hb⟩

end SemanticModel

namespace Link

open SemanticModel

/-- The tiles are disjoint and in order. -/
structure Tidy (m : SemanticModel A) : Prop where
  disjoint : m.Disjoint
  sorted : m.Pairwise fun t u => Range.Le t.range u.range

theorem Tidy.apply {m : SemanticModel A} (h : Tidy m) {f : Segments A}
    (hs : Disjoint f.segments) : Tidy (m.apply f) :=
  ⟨apply_disjoint h.disjoint hs, apply_sorted f⟩

section
variable {m : SemanticModel A} {visible : ByteRange} {generation : ℕ}

theorem receive_full (m : SemanticModel A) (byte : ℕ) :
    (receive m (fullFrame visible generation items).2).itemsAt byte =
      if byte ∈ visible then covering items byte else [] :=
  itemsAt_full

theorem Tidy.receive_full (h : Tidy m) (visible : ByteRange) (generation : ℕ)
    (items : List (Item A)) : Tidy (receive m (fullFrame visible generation items).2) :=
  h.apply (pairwise_singleton _ _)

variable [DecidableEq A] {prev : LastFrame A}

theorem receive_dirty (h : m.Disjoint) (byte : ℕ) :
    (receive m (dirtyFrame prev visible generation items).2).itemsAt byte =
      if ∃ r ∈ changedIntervals prev.items items, byte ∈ r then covering items byte
      else m.itemsAt byte := by
  unfold dirtyFrame
  split
  · rename_i hnone; rw [hnone]; simp [receive]
  · exact itemsAt_dirty h prev.items

theorem Tidy.receive_dirty (h : Tidy m) :
    Tidy (receive m (dirtyFrame prev visible generation items).2) := by
  unfold dirtyFrame
  split
  · exact h
  · exact h.apply (clipped_disjoint (Range.coalesce_apart _))

/-- The baseline after a frame of changed intervals is the old one or the new one. -/
theorem dirtyFrame_baseline {p : LastFrame A}
    (hp : (dirtyFrame prev visible generation items).1 = some p) :
    p = prev ∧ changedIntervals prev.items items = [] ∨ p = ⟨visible, items, generation⟩ := by
  unfold dirtyFrame at hp
  split at hp
  · rename_i hnone; exact .inl ⟨(some_inj.1 hp).symm, hnone⟩
  · exact .inr (some_inj.1 hp).symm

end

/-! ## Every frame -/

/-- The models show the sets projected last: the spans at every byte, and the decorations at
    every byte of their viewport. -/
structure Shows (l : Link) : Prop where
  styles : ∀ byte, l.styles.itemsAt byte = covering l.spans byte
  decos : ∀ byte ∈ l.visible, ∀ kind,
    kind ∈ l.decos.itemsAt byte ↔ kind ∈ covering l.decorations byte
  stylesTidy : Tidy l.styles
  decosTidy : Tidy l.decos

/-- The baselines say what was projected last. -/
structure Kept (l : Link) : Prop extends Shows l where
  apart : Apart l.spans
  sent : ∀ p, l.lastSent = some p →
    Apart p.items ∧ ∀ byte, covering p.items byte = covering l.spans byte
  baseline : ∀ p, l.lastDecorations = some p → p.visible = l.visible ∧
    ∀ byte kind, kind ∈ covering p.items byte ↔ kind ∈ covering l.decorations byte

variable {spans : List StyleSpan} {visible : ByteRange}

theorem SpansOk.apart (h : SpansOk visible spans) : Apart spans :=
  h.sorted.imp fun {s t} hle byte hs ht => by simp only [Range.mem_iff] at hs ht; omega

theorem SpansOk.covering_eq_nil
    (h : SpansOk visible spans) (hb : byte ∉ visible) : covering spans byte = [] := by
  unfold covering
  rw [map_eq_nil_iff, filter_eq_nil_iff]
  intro s hs hmem
  exact hb (h.within s hs byte (by simpa using hmem))

theorem Kept.start : Kept start where
  styles _ := rfl
  decos _ _ _ := Iff.rfl
  stylesTidy := ⟨.nil, .nil⟩
  decosTidy := ⟨.nil, .nil⟩
  apart := .nil
  sent _ h := by cases h
  baseline _ h := by cases h

variable {l : Link}

theorem Kept.styleFrame (h : Kept l) (generation : ℕ) (hok : SpansOk visible spans) :
    Kept (l.styleFrame visible generation spans) := by
  have hfull : Kept { l with
      lastSent := (fullFrame visible generation spans).1
      styles := receive l.styles (fullFrame visible generation spans).2
      spans := spans } := by
    refine
      { h with
        styles := fun byte => ?_
        stylesTidy := h.stylesTidy.receive_full visible generation spans
        apart := hok.apart
        sent := ?_ }
    · simp only [receive_full]
      split
      · rfl
      · rename_i hout; exact (hok.covering_eq_nil hout).symm
    · rintro p ⟨⟩; exact ⟨hok.apart, fun _ => rfl⟩
  unfold Link.styleFrame emitStyleSpans
  cases hsent : l.lastSent with
  | none => exact hfull
  | some p =>
    simp only
    split
    · exact hfull
    obtain ⟨hapart, hcover⟩ := h.sent p hsent
    -- outside the changed intervals the baseline's spans are the new ones
    have hsame {byte : ℕ} (hout : ¬∃ r ∈ changedIntervals p.items spans, byte ∈ r) :
        covering p.items byte = covering spans byte :=
      covering_congr hapart hok.apart fun i hi => mem_iff_of_not_changed hout hi
    refine
      { h with
        styles := fun byte => ?_
        stylesTidy := h.stylesTidy.receive_dirty
        apart := hok.apart
        sent := fun q hq => ?_ }
    · simp only [receive_dirty h.stylesTidy.disjoint]
      split
      · rfl
      · rename_i hout; rw [h.styles, ← hcover, hsame hout]
    rcases dirtyFrame_baseline hq with ⟨rfl, hnone⟩ | rfl
    · exact ⟨hapart, fun byte => hsame (by simp [hnone])⟩
    · exact ⟨hok.apart, fun _ => rfl⟩

theorem Kept.decorationsFrame (h : Kept l) (visible : ByteRange) (generation : ℕ)
    (items : List Decoration) (diagHold : Bool) :
    Kept (l.decorationsFrame visible generation items diagHold) := by
  unfold Link.decorationsFrame renderDecorations
  generalize frameDecorations items diagHold l.lastDecorations = decorations
  have hfull : Kept { l with
      lastDecorations := (fullFrame visible generation decorations).1
      decos := receive l.decos (fullFrame visible generation decorations).2
      decorations := decorations
      visible := visible } := by
    refine
      { h with
        decos := fun byte hb kind => ?_
        decosTidy := h.decosTidy.receive_full visible generation decorations
        baseline := ?_ }
    · simp only [receive_full]; rw [if_pos hb]
    · rintro p ⟨⟩; exact ⟨rfl, fun _ _ => Iff.rfl⟩
  cases hlast : l.lastDecorations with
  | none => exact hfull
  | some p =>
    obtain ⟨hvisible, hcover⟩ := h.baseline p hlast
    -- a set that covers what the baseline's covers is shown already
    have hshown (hp : p.visible = visible) {byte : ℕ} (hb : byte ∈ visible)
        (kind : DecorationKind) :
        kind ∈ l.decos.itemsAt byte ↔ kind ∈ covering p.items byte := by
      rw [hcover]; exact h.decos byte (by rwa [← hvisible, hp]) kind
    simp only
    split
    · rename_i hheld; obtain ⟨-, hp, rfl⟩ := hheld
      refine
        { h with
          decos := fun byte hb kind => hshown hp hb kind
          baseline := ?_ }
      rintro q ⟨⟩; exact ⟨hp, fun _ _ => Iff.rfl⟩
    split
    · split
      · rename_i hempty; obtain ⟨hp, hnil, rfl⟩ := hempty
        refine
          { h with
            decos := fun byte hb kind => ?_
            baseline := ?_ }
        · rw [← hnil]; exact hshown hp hb kind
        · rintro q ⟨⟩; exact ⟨rfl, fun _ _ => Iff.rfl⟩
      · exact hfull
    rename_i hsame
    have hp : p.visible = visible := by
      by_contra hne
      exact hsame (.inl hne)
    refine
      { h with
        decos := fun byte hb kind => ?_
        decosTidy := h.decosTidy.receive_dirty
        baseline := fun q hq => ?_ }
    · simp only [receive_dirty h.decosTidy.disjoint]
      split
      · rfl
      · rename_i hout; rw [hshown hp hb]; exact mem_covering_of_not_changed hout kind
    rcases dirtyFrame_baseline hq with ⟨rfl, hnone⟩ | rfl
    · exact ⟨hp, fun byte kind => mem_covering_of_not_changed (by simp [hnone]) kind⟩
    · exact ⟨rfl, fun _ _ => Iff.rfl⟩

theorem Kept.snapshotSent (h : Kept l) : Kept l.snapshotSent :=
  { h with
    sent := nofun
    baseline := fun _ hp => by cases hp }

theorem Kept.reaches (h : Reaches l) : Kept l := by
  induction h with
  | start => exact .start
  | styleFrame generation _ hok ih => exact ih.styleFrame generation hok
  | decorationsFrame visible generation items diagHold _ ih =>
    exact ih.decorationsFrame visible generation items diagHold
  | snapshotSent _ ih => exact ih.snapshotSent

/-- **The models show what is projected**: after every message the folded style at every byte is
    the one of the spans projected last, the kinds at every byte of the viewport are those of the
    decorations projected last, and the tiles are disjoint and in order. -/
theorem models_show {l : Link} (h : Reaches l) :
    (∀ byte, folded (l.styles.itemsAt byte) = folded (covering l.spans byte)) ∧
      (∀ byte ∈ l.visible, ∀ kind,
        kind ∈ l.decos.itemsAt byte ↔ kind ∈ covering l.decorations byte) ∧
      Tidy l.styles ∧ Tidy l.decos := by
  have hkept := Kept.reaches h
  exact ⟨fun byte => by rw [hkept.styles], hkept.decos, hkept.stylesTidy, hkept.decosTidy⟩

/-- A span is narrowed, and a selection laid over a search match. -/
def narrowed : Link :=
  let bold : Style := { Style.default with bold := true }
  (((start.styleFrame ⟨0, 10⟩ 1 [⟨⟨2, 6⟩, bold⟩]).styleFrame ⟨0, 10⟩ 1 [⟨⟨2, 4⟩, bold⟩]
    ).decorationsFrame ⟨0, 10⟩ 1 [⟨⟨3, 8⟩, .searchMatch⟩] false
    ).decorationsFrame ⟨0, 10⟩ 1 [⟨⟨5, 6⟩, .selection⟩, ⟨⟨3, 8⟩, .searchMatch⟩] false

theorem models_show_narrowed : (∀ byte, folded (narrowed.styles.itemsAt byte) =
      folded (covering narrowed.spans byte)) ∧ ∀ byte ∈ narrowed.visible, ∀ kind,
      kind ∈ narrowed.decos.itemsAt byte ↔ kind ∈ covering narrowed.decorations byte := by
  have hwithin (bound : ℕ) (hbound : bound ≤ 10) (style : Style) :
      SpansOk ⟨0, 10⟩ [⟨⟨2, bound⟩, style⟩] := by
    refine ⟨pairwise_singleton _ _, fun s hs byte hb => ?_⟩; rw [mem_singleton] at hs; subst hs
    simp only [Range.mem_iff] at hb ⊢; omega
  have h := models_show (l := narrowed) (.decorationsFrame _ _ _ _ (.decorationsFrame _ _ _ _
    (.styleFrame 1 (.styleFrame 1 .start (hwithin 6 (by decide) _)) (hwithin 4 (by decide) _))))
  exact ⟨h.1, h.2.1⟩

end Link

end Pmacs.Semantic
