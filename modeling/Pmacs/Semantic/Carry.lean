/-
  A frontend that carries the decorations it holds across edits (semantic_render.rs, and the
  frontend's merge_decorations and translate_decorations).

  * `mergeDecorations`: what a message does to the held decorations; `mem_mergeDecorations`: at
    every byte.
  * `Carrying`: the producer's baseline, its generation and staleness, and the held copies.
  * `same_freshFrame_iff`: when a frame of a fresh store leaves the held copies right.
  * `Kept`: over runs in which the copies stay those of the baseline while the store is stale.
-/
import Pmacs.Semantic.Projection

namespace Pmacs.Semantic

open Lib List Option

variable {A : Type}

/-- Two sets cover every byte alike. -/
def Same (xs ys : List (Item A)) : Prop :=
  ∀ byte a, a ∈ covering xs byte ↔ a ∈ covering ys byte

namespace Same

variable {xs ys zs : List (Item A)} {a : A} {byte : ℕ}

theorem refl (xs : List (Item A)) : Same xs xs := fun _ _ => Iff.rfl

theorem perm (h : xs.Perm ys) : Same xs ys := fun byte a => by
  simp only [mem_covering, h.mem_iff]

end Same

theorem mem_covering_append {xs ys : List (Item A)} :
    a ∈ covering (xs ++ ys) byte ↔ a ∈ covering xs byte ∨ a ∈ covering ys byte := by
  rw [covering, filter_append, map_append, mem_append]
  rfl

theorem mem_covering_flatMap {B : Type} {f : B → List (Item A)} {xs : List B} :
    a ∈ covering (xs.flatMap f) byte ↔ ∃ x ∈ xs, a ∈ covering (f x) byte := by
  simp only [mem_covering, mem_flatMap]
  constructor
  · rintro ⟨i, ⟨x, hx, hi⟩, hb, ha⟩; exact ⟨x, hx, i, hi, hb, ha⟩
  · rintro ⟨x, hx, i, hi, hb, ha⟩; exact ⟨i, ⟨x, hx, hi⟩, hb, ha⟩

theorem mem_covering_clip {bounds : ByteRange} {items : List (Item A)} :
    a ∈ covering (clip bounds items) byte ↔ byte ∈ bounds ∧ a ∈ covering items byte := by
  constructor
  · intro h; obtain ⟨i, hi, hb, -⟩ := mem_covering.1 h; obtain ⟨j, -, hj⟩ := mem_filterMap.1 hi
    obtain ⟨r, hr, rfl⟩ := map_eq_some_iff.1 hj
    have hbounds := ((Range.mem_of_inter_eq_some hr).1 hb).2
    exact ⟨hbounds, by rwa [covering_clip hbounds] at h⟩
  rintro ⟨hb, h⟩
  rwa [covering_clip hb]

def Nonempty (items : List (Item A)) : Prop := ∀ i ∈ items, i.range.start < i.range.stop

theorem Nonempty.eq_nil {items : List (Item A)} (h : Nonempty items) (hsame : Same items []) :
    items = [] := by
  refine eq_nil_iff_forall_not_mem.2 fun i hi => ?_
  have hmem : i.what ∈ covering items i.range.start :=
    mem_covering.2 ⟨i, hi, Range.mem_iff.2 ⟨le_rfl, h i hi⟩, rfl⟩
  exact absurd ((hsame _ _).1 hmem) (by simp [covering])

theorem Nonempty.clip (bounds : ByteRange) (items : List (Item A)) :
    Nonempty (clip bounds items) := by
  intro i hi
  obtain ⟨j, -, hj⟩ := mem_filterMap.1 hi
  obtain ⟨r, hr, rfl⟩ := map_eq_some_iff.1 hj
  obtain ⟨hlt, rfl⟩ := Range.inter_eq_some.1 hr
  exact hlt

/-! ## A message -/

def cut (dirty : ByteRange) (d : Item A) : List (Item A) :=
  if d.range.stop ≤ dirty.start ∨ d.range.start ≥ dirty.stop then [d]
  else if d.range.start < dirty.start ∧ d.range.stop > dirty.stop then
    [{ d with range := ⟨d.range.start, dirty.start⟩ },
      { d with range := ⟨dirty.stop, d.range.stop⟩ }]
  else if d.range.start < dirty.start then [{ d with range := ⟨d.range.start, dirty.start⟩ }]
  else if d.range.stop > dirty.stop then [{ d with range := ⟨dirty.stop, d.range.stop⟩ }]
  else []

/-- The order of the held items; those of one start stay in the order they had. -/
def byStart (items : List (Item A)) : List (Item A) :=
  items.insertionSort fun d e => d.range.start ≤ e.range.start

def replaceDecorations (segments : List (Tile A)) : List (Item A) :=
  byStart (segments.flatMap (·.items))

/-- The held items are cut around every segment, and the segments' items added. -/
def mergeDecorations (held : List (Item A)) (segments : List (Tile A)) : List (Item A) :=
  byStart ((segments.foldl (fun held s => held.flatMap (cut s.range)) held) ++
    segments.flatMap (·.items))

theorem mem_cut {dirty : ByteRange} {d : Item A} :
    a ∈ covering (cut dirty d) byte ↔ byte ∉ dirty ∧ byte ∈ d.range ∧ d.what = a := by
  simp only [mem_covering, cut, Range.mem_iff]
  split
  · simp only [mem_singleton, exists_eq_left]
    constructor
    · rintro ⟨hb, ha⟩; exact ⟨by omega, hb, ha⟩
    · rintro ⟨-, hb, ha⟩; exact ⟨hb, ha⟩
  split_ifs <;>
    simp only [mem_cons, not_mem_nil, or_false, exists_eq_or_imp, exists_eq_left,
      false_and, exists_false, false_iff] <;>
    grind

theorem Nonempty.cut {d : Item A} (h : d.range.start < d.range.stop) (dirty : ByteRange) :
    Nonempty (cut dirty d) := by
  intro i hi
  unfold Semantic.cut at hi
  split_ifs at hi <;>
    simp only [mem_cons, not_mem_nil, or_false] at hi
  · rw [hi]; exact h
  · rcases hi with rfl | rfl
    · simp only; omega
    · simp only; omega
  · rw [hi]; omega
  · rw [hi]; omega

theorem mem_foldl_cut : ∀ (segments : List (Tile A)) (held : List (Item A)),
    a ∈ covering (segments.foldl (fun held s => held.flatMap (cut s.range)) held) byte ↔
      (∀ s ∈ segments, byte ∉ s.range) ∧ a ∈ covering held byte
  | [], held => by simp
  | s :: segments, held => by
    rw [foldl_cons, mem_foldl_cut segments, mem_covering_flatMap, forall_mem_cons]
    constructor
    · rintro ⟨hrest, d, hd, hcut⟩; obtain ⟨hs, hb, ha⟩ := mem_cut.1 hcut
      exact ⟨⟨hs, hrest⟩, mem_covering.2 ⟨d, hd, hb, ha⟩⟩
    rintro ⟨⟨hs, hrest⟩, hheld⟩; obtain ⟨d, hd, hb, ha⟩ := mem_covering.1 hheld
    exact ⟨hrest, d, hd, mem_cut.2 ⟨hs, hb, ha⟩⟩

theorem Nonempty.foldl_cut : ∀ (segments : List (Tile A)) {held : List (Item A)},
    Nonempty held → Nonempty (segments.foldl (fun held s => held.flatMap (Semantic.cut s.range)) held)
  | [], _, h => h
  | s :: segments, held, h => by
    refine Nonempty.foldl_cut segments fun i hi => ?_; obtain ⟨d, hd, hid⟩ := mem_flatMap.1 hi
    exact Nonempty.cut (h d hd) s.range i hid

theorem mem_byStart {items : List (Item A)} {i : Item A} : i ∈ byStart items ↔ i ∈ items :=
  (perm_insertionSort _ items).mem_iff

theorem same_byStart {items : List (Item A)} : Same (byStart items) items :=
  .perm (perm_insertionSort _ items)

/-- **A message at a byte**: the held items outside the segments, and the segments' own. -/
theorem mem_mergeDecorations {held : List (Item A)} {segments : List (Tile A)} :
    a ∈ covering (mergeDecorations held segments) byte ↔
      (∀ s ∈ segments, byte ∉ s.range) ∧ a ∈ covering held byte ∨
        ∃ s ∈ segments, a ∈ covering s.items byte := by
  rw [mergeDecorations, same_byStart, mem_covering_append, mem_foldl_cut, mem_covering_flatMap]

/-! ## An edit -/

/-- The bytes from `start` to `oldEnd` are replaced by `insertedLen` others. -/
structure TextProjectionEdit where
  start : ℕ
  oldEnd : ℕ
  insertedLen : ℕ

def shiftPosition (pos : ℕ) (edit : TextProjectionEdit) : ℕ :=
  let oldLen := edit.oldEnd - edit.start
  if edit.insertedLen ≥ oldLen then pos + (edit.insertedLen - oldLen)
  else pos - (oldLen - edit.insertedLen)

def translateRangeStart (pos : ℕ) (edit : TextProjectionEdit) : ℕ :=
  if edit.oldEnd = edit.start then
    if pos ≥ edit.start then pos + edit.insertedLen else pos
  else if pos ≤ edit.start then pos
  else if pos ≥ edit.oldEnd then shiftPosition pos edit
  else edit.start

/-- A range that stops at an insertion extends over it. -/
def translateRangeEnd (pos : ℕ) (edit : TextProjectionEdit) : ℕ :=
  if edit.oldEnd = edit.start then
    if pos ≥ edit.start then pos + edit.insertedLen else pos
  else if pos ≤ edit.start then pos
  else if pos ≥ edit.oldEnd then shiftPosition pos edit
  else edit.start + edit.insertedLen

def translateByteRange (range : ByteRange) (edit : TextProjectionEdit) : Option ByteRange :=
  let start := translateRangeStart range.start edit
  let stop := translateRangeEnd range.stop edit
  if start < stop then some ⟨start, stop⟩ else none

def editTouchesRange (range : ByteRange) (edit : TextProjectionEdit) : Bool :=
  edit.start ≤ range.stop && range.start ≤ edit.oldEnd

/-- A diagnostic that the edit touches is dropped; what is left moves with the text. -/
def translateDecorations (decorations : List Decoration) (edit : TextProjectionEdit) :
    List Decoration :=
  decorations.filterMap fun d =>
    if isDiagnosticKind d.what && editTouchesRange d.range edit then none
    else (translateByteRange d.range edit).map fun range => { d with range := range }

theorem nonempty_translateDecorations (decorations : List Decoration) (edit : TextProjectionEdit) :
    Nonempty (translateDecorations decorations edit) := by
  intro i hi
  obtain ⟨d, -, hd⟩ := mem_filterMap.1 hi
  split at hd
  · cases hd
  obtain ⟨r, hr, rfl⟩ := map_eq_some_iff.1 hd
  simp only [translateByteRange, ite_none_right_eq_some, some.injEq] at hr
  obtain ⟨hlt, rfl⟩ := hr; exact hlt

/-! ## Runs -/

/-- The producer's baseline with the generation and the staleness of its store, and the copies
    that the frontend holds. -/
structure Carrying where
  lastDecorations : Option (LastFrame DecorationKind)
  generation : ℕ
  stale : Bool
  held : List Decoration

namespace Carrying

def start : Carrying := ⟨none, 0, false, []⟩

def receive (held : List Decoration) : Option (Segments DecorationKind) → List Decoration
  | none => held
  | some f => if f.full then replaceDecorations f.segments else mergeDecorations held f.segments

def edit (c : Carrying) (e : TextProjectionEdit) : Carrying :=
  { c with
    generation := c.generation + 1
    stale := true
    held := translateDecorations c.held e }

def publish (c : Carrying) : Carrying := { c with stale := false }

def frame (c : Carrying) (visible : ByteRange) (items : List Decoration) : Carrying :=
  let sent := renderDecorations visible c.generation items c.stale c.lastDecorations
  { c with
    lastDecorations := sent.1
    held := receive c.held sent.2 }

inductive Reaches : Carrying → Prop where
  | start : Reaches start
  | edit {c : Carrying} (e : TextProjectionEdit) : Reaches c → Reaches (c.edit e)
  | publish {c : Carrying} : Reaches c → Reaches c.publish
  | frame {c : Carrying} (visible : ByteRange) {items : List Decoration} :
      Reaches c → Nonempty items → Reaches (c.frame visible items)

/-- The copies are right for a frame's difference: there is a resync that says everything, or
    outside the changed intervals they cover what the baseline's items do. -/
def Mergeable (c : Carrying) (visible : ByteRange) (items : List Decoration) : Prop :=
  ∀ p, c.lastDecorations = some p →
    p.visible ≠ visible ∨
    p.generation ≠ c.generation ∧ ¬(p.items = [] ∧ items = []) ∨
    ∀ byte, (¬∃ r ∈ changedIntervals p.items items, byte ∈ r) →
      ∀ kind, kind ∈ covering c.held byte ↔ kind ∈ covering p.items byte

/-- No copy was moved or dropped when a frame is held back or diffed while the store is stale. -/
def Steady (c : Carrying) (visible : ByteRange) : Prop :=
  c.stale → ∀ p, c.lastDecorations = some p → p.visible = visible → Same c.held p.items

/-! ## One frame -/

section
variable {c : Carrying} {held items : List Decoration} {visible : ByteRange} {generation : ℕ}
  {p : LastFrame DecorationKind}

theorem same_receive_fullFrame (held : List Decoration) (visible : ByteRange) (generation : ℕ)
    (items : List Decoration) :
    Same (receive held (fullFrame visible generation items).2) items := by
  show Same (replaceDecorations [⟨visible, items⟩]) items
  rw [replaceDecorations, flatMap_singleton]
  exact same_byStart

theorem mem_receive_dirtyFrame {kind : DecorationKind} :
    kind ∈ covering (receive held (dirtyFrame p visible generation items).2) byte ↔
      if ∃ r ∈ changedIntervals p.items items, byte ∈ r then kind ∈ covering items byte
      else kind ∈ covering held byte := by
  unfold dirtyFrame
  split
  · rename_i hnone; simp [hnone, receive]
  simp only [receive, Bool.false_eq_true, if_false]; rw [mem_mergeDecorations]
  simp only [List.mem_map, forall_exists_index, and_imp, forall_apply_eq_imp_iff₂,
    exists_exists_and_eq_and, mem_covering_clip]
  split
  · rename_i hin; obtain ⟨r, hr, hb⟩ := hin
    constructor
    · rintro (⟨hout, -⟩ | ⟨-, -, -, hkind⟩)
      · exact absurd hb (hout r hr)
      · exact hkind
    · exact fun hkind => .inr ⟨r, hr, hb, hkind⟩
  rename_i hout
  push Not at hout
  constructor
  · rintro (⟨-, hheld⟩ | ⟨r, hr, hb, -⟩)
    · exact hheld
    · exact absurd hb (hout r hr)
  · exact fun hheld => .inl ⟨hout, hheld⟩

/-- The copies are right after a difference when they were right outside of it. -/
theorem same_receive_dirtyFrame_iff :
    Same (receive held (dirtyFrame p visible generation items).2) items ↔
      ∀ byte, (¬∃ r ∈ changedIntervals p.items items, byte ∈ r) →
        ∀ kind, kind ∈ covering held byte ↔ kind ∈ covering p.items byte := by
  constructor
  · intro h byte hout kind; have hkind := h byte kind
    rw [mem_receive_dirtyFrame, if_neg hout] at hkind
    exact hkind.trans (mem_covering_of_not_changed hout kind).symm
  intro h byte kind; rw [mem_receive_dirtyFrame]
  split
  · rfl
  · rename_i hout; exact (h byte hout kind).trans (mem_covering_of_not_changed hout kind)

/-- Everything that a frame does: it resyncs, it holds its set back, it has nothing to say of an
    empty set, or it sends a difference. -/
theorem sent_cases (visible : ByteRange) (generation : ℕ) (items : List Decoration)
    (diagHold : Bool) (prev : Option (LastFrame DecorationKind)) :
    let decorations := frameDecorations items diagHold prev
    let sent := renderDecorations visible generation items diagHold prev
    ((∀ p, prev = some p → p.visible ≠ visible ∨
        diagHold = false ∧ p.generation ≠ generation ∧ ¬(p.items = [] ∧ decorations = [])) ∧
      sent = fullFrame visible generation decorations) ∨
    ∃ p, prev = some p ∧ p.visible = visible ∧
      (diagHold = true ∧ decorations = p.items ∧
        sent = (some { p with generation := generation }, none) ∨
      diagHold = false ∧ p.generation ≠ generation ∧ p.items = [] ∧ decorations = [] ∧
        sent = (some ⟨visible, decorations, generation⟩, none) ∨
      (diagHold = true ∨ p.generation = generation) ∧
        sent = dirtyFrame p visible generation decorations) := by
  simp only [renderDecorations]
  generalize frameDecorations items diagHold prev = decorations
  cases prev with
  | none => exact .inl ⟨nofun, rfl⟩
  | some p =>
    simp only
    split
    · rename_i hheld; exact .inr ⟨p, rfl, hheld.2.1, .inl ⟨hheld.1, hheld.2.2, rfl⟩⟩
    split
    · rename_i hfull
      split
      · rename_i hempty
        rcases hfull with hne | ⟨hfresh, hgen⟩
        · exact absurd hempty.1 hne
        exact .inr ⟨p, rfl, hempty.1,
          .inr (.inl ⟨by simpa using hfresh, hgen, hempty.2.1, hempty.2.2, rfl⟩)⟩
      rename_i hsome
      refine .inl ⟨?_, rfl⟩; rintro q ⟨⟩
      by_cases hvisible : p.visible = visible
      · rcases hfull with hne | ⟨hfresh, hgen⟩
        · exact absurd hvisible hne
        · exact .inr ⟨by simpa using hfresh, hgen, fun h => hsome ⟨hvisible, h⟩⟩
      · exact .inl hvisible
    rename_i hdiff
    push Not at hdiff
    refine .inr ⟨p, rfl, hdiff.1, .inr (.inr ⟨?_, rfl⟩)⟩
    by_cases hstale : diagHold = true
    · exact .inl hstale
    · exact .inr (hdiff.2 (by simpa using hstale))

/-- **A frame of a fresh store** leaves the copies right exactly when they were mergeable. -/
theorem same_freshFrame_iff (hfresh : c.stale = false) :
    Same (c.frame visible items).held items ↔ c.Mergeable visible items := by
  have hitems : frameDecorations items c.stale c.lastDecorations = items := by rw [hfresh]; rfl
  have hcases := sent_cases visible c.generation items c.stale c.lastDecorations
  simp only [hitems] at hcases
  rcases hcases with ⟨hall, hsent⟩ | ⟨p, hlast, hvisible, ⟨hstale, -⟩ | hempty | ⟨hdiff, hsent⟩⟩
  · have hsame : Same (c.frame visible items).held items := by
      rw [frame, hsent]; exact same_receive_fullFrame c.held visible c.generation items
    refine iff_of_true hsame fun p hp => ?_
    rcases hall p hp with hne | ⟨-, hgen, hsome⟩
    · exact .inl hne
    · exact .inr (.inl ⟨hgen, hsome⟩)
  · rw [hfresh] at hstale; cases hstale
  · obtain ⟨-, -, hnil, rfl, hsent⟩ := hempty; rw [frame, hsent]
    constructor
    · intro h q hq; rw [hlast] at hq; cases hq
      exact .inr (.inr fun byte _ kind => by rw [hnil]; exact h byte kind)
    intro h
    rcases h p hlast with hne | ⟨-, hsome⟩ | hout
    · exact absurd hvisible hne
    · exact absurd ⟨hnil, rfl⟩ hsome
    rw [hnil] at hout
    exact fun byte kind => hout byte (by simp [changedIntervals, Range.coalesce]) kind
  have hgen : p.generation = c.generation := hdiff.resolve_left (by simp [hfresh])
  rw [frame, hsent]; rw [same_receive_dirtyFrame_iff]
  constructor
  · intro h q hq; rw [hlast] at hq; cases hq
    exact .inr (.inr h)
  intro h
  rcases h p hlast with hne | ⟨hne, -⟩ | hout
  · exact absurd hvisible hne
  · exact absurd hgen hne
  · exact hout

end

/-! ## Runs whose stale frames are steady -/

/-- A run in which every frame of a stale store is steady. -/
inductive SteadyRun : Carrying → Prop where
  | start : SteadyRun start
  | edit {c : Carrying} (e : TextProjectionEdit) : SteadyRun c → SteadyRun (c.edit e)
  | publish {c : Carrying} : SteadyRun c → SteadyRun c.publish
  | frame {c : Carrying} (visible : ByteRange) {items : List Decoration} :
      SteadyRun c → Nonempty items → c.Steady visible → SteadyRun (c.frame visible items)

/-- The copies are those of the baseline, or an edit came since; no copy is left of an empty
    baseline. -/
structure Kept (c : Carrying) : Prop where
  nonempty : Nonempty c.held
  baseline : ∀ p, c.lastDecorations = some p → Nonempty p.items
  same : ∀ p, c.lastDecorations = some p → p.generation < c.generation ∨ Same c.held p.items
  nil : ∀ p, c.lastDecorations = some p → p.items = [] → c.held = []
  le : ∀ p, c.lastDecorations = some p → p.generation ≤ c.generation

variable {items : List Decoration}

theorem nonempty_byStart (h : Nonempty items) :
    Nonempty (byStart items) := fun i hi => h i (mem_byStart.1 hi)

theorem nonempty_frameDecorations
    {prev : Option (LastFrame DecorationKind)} (h : Nonempty items) (hprev : ∀ p, prev = some p →
    Nonempty p.items) {diagHold : Bool} : Nonempty (frameDecorations items diagHold prev) := by
  unfold frameDecorations
  split
  · rename_i p
    refine nonempty_byStart fun i hi => ?_
    rcases mem_append.1 hi with hi | hi
    · exact h i hi
    · exact hprev p rfl i (mem_filter.1 hi).1
  · exact h

variable {held : List Decoration}

theorem nonempty_mergeDecorations {segments : List (Tile DecorationKind)}
    (h : Nonempty held) (hs : ∀ s ∈ segments, Nonempty s.items) :
    Nonempty (mergeDecorations held segments) := by
  refine nonempty_byStart fun i hi => ?_
  rcases mem_append.1 hi with hi | hi
  · exact Nonempty.foldl_cut segments h i hi
  · obtain ⟨s, hmem, his⟩ := mem_flatMap.1 hi; exact hs s hmem i his

variable {visible : ByteRange}

theorem nonempty_receive_fullFrame (h : Nonempty items) {generation : ℕ} :
    Nonempty (receive held (fullFrame visible generation items).2) := by
  show Nonempty (replaceDecorations [⟨visible, items⟩])
  rw [replaceDecorations, flatMap_singleton]
  exact nonempty_byStart h

theorem nonempty_receive_dirtyFrame (h : Nonempty held)
    (p : LastFrame DecorationKind) {generation : ℕ} :
    Nonempty (receive held (dirtyFrame p visible generation items).2) := by
  unfold dirtyFrame
  split
  · exact h
  refine nonempty_mergeDecorations h fun s hs => ?_; obtain ⟨r, -, rfl⟩ := List.mem_map.1 hs
  exact Nonempty.clip r items

namespace Kept

variable {c : Carrying}

theorem start : Kept start where
  nonempty := by simp [Nonempty, Carrying.start]
  baseline _ h := by cases h
  same _ h := by cases h
  nil _ h := by cases h
  le _ h := by cases h

theorem edit (h : Kept c) (e : TextProjectionEdit) : Kept (c.edit e) where
  nonempty := nonempty_translateDecorations c.held e
  baseline := h.baseline
  same p hp := .inl (Nat.lt_succ_of_le (h.le p hp))
  nil p hp hnil := by
    show translateDecorations c.held e = []
    rw [h.nil p hp hnil]; rfl
  le p hp := Nat.le_succ_of_le (h.le p hp)

theorem publish (h : Kept c) : Kept c.publish := ⟨h.nonempty, h.baseline, h.same, h.nil, h.le⟩

variable {p : LastFrame DecorationKind}

theorem of_same {c' : Carrying} (hne : Nonempty c'.held)
    (hlast : c'.lastDecorations = some p) (hitems : Nonempty p.items)
    (hsame : Same c'.held p.items) (hle : p.generation ≤ c'.generation) : Kept c' := by
  constructor
  · exact hne
  all_goals
    intro q hq; rw [hlast] at hq; cases hq
  · exact hitems
  · exact .inr hsame
  · exact fun hnil => hne.eq_nil (hnil ▸ hsame)
  · exact hle

/-- What a difference is taken from: the copies, when the frame is steady. -/
theorem same_of_diff (h : Kept c) (hsteady : c.Steady visible)
    (hlast : c.lastDecorations = some p) (hvisible : p.visible = visible)
    (hdiff : c.stale = true ∨ p.generation = c.generation) : Same c.held p.items := by
  by_cases hstale : c.stale = true
  · exact hsteady hstale p hlast hvisible
  · have hgen := hdiff.resolve_left hstale; exact (h.same p hlast).resolve_left (by omega)

theorem frame (h : Kept c) (hitems : Nonempty items) (hsteady : c.Steady visible) :
    Kept (c.frame visible items) := by
  have hdecorations : Nonempty (frameDecorations items c.stale c.lastDecorations) :=
    nonempty_frameDecorations hitems h.baseline
  have hcases := sent_cases visible c.generation items c.stale c.lastDecorations
  unfold Carrying.frame
  generalize frameDecorations items c.stale c.lastDecorations = decorations at *
  rcases hcases with ⟨-, hsent⟩ | ⟨p, hlast, hvisible, hheld | hempty | ⟨hdiff, hsent⟩⟩
  · rw [hsent]
    have hne : Nonempty (receive c.held (fullFrame visible c.generation decorations).2) :=
      nonempty_receive_fullFrame hdecorations
    exact of_same hne rfl hdecorations
      (same_receive_fullFrame c.held visible c.generation decorations) le_rfl
  · obtain ⟨hstale, -, hsent⟩ := hheld; rw [hsent]
    exact of_same (p := { p with generation := c.generation }) h.nonempty rfl
      (h.baseline p hlast) (hsteady hstale p hlast hvisible) le_rfl
  · obtain ⟨-, -, hnil, rfl, hsent⟩ := hempty; rw [hsent]
    have hheld : c.held = [] := h.nil p hlast hnil
    exact of_same (p := ⟨visible, [], c.generation⟩) h.nonempty rfl hdecorations
      (by rw [hheld]; exact .refl []) le_rfl
  have hsame : Same c.held p.items := h.same_of_diff hsteady hlast hvisible hdiff
  have hafter : Same (receive c.held (dirtyFrame p visible c.generation decorations).2)
      decorations := same_receive_dirtyFrame_iff.2 fun byte _ => hsame byte
  rw [hsent]
  have hne : Nonempty (receive c.held (dirtyFrame p visible c.generation decorations).2) :=
    nonempty_receive_dirtyFrame h.nonempty p
  by_cases hnone : changedIntervals p.items decorations = []
  · rw [dirtyFrame, if_pos hnone]
    exact of_same h.nonempty rfl (h.baseline p hlast) hsame (h.le p hlast)
  rw [dirtyFrame, if_neg hnone] at hne hafter ⊢
  exact of_same hne rfl hdecorations hafter le_rfl

theorem reaches (h : SteadyRun c) : Kept c := by
  induction h with
  | start => exact .start
  | edit e _ ih => exact ih.edit e
  | publish _ ih => exact ih.publish
  | frame visible _ hitems hsteady ih => exact ih.frame hitems hsteady

theorem mergeable (h : Kept c) : c.Mergeable visible items := by
  intro p hlast
  by_cases hempty : p.items = [] ∧ items = []
  · refine .inr (.inr fun byte _ kind => ?_); rw [h.nil p hlast hempty.1, hempty.1]
  rcases h.same p hlast with hlt | hsame
  · exact .inr (.inl ⟨hlt.ne, hempty⟩)
  · exact .inr (.inr fun byte _ => hsame byte)

theorem diffed (h : Kept c) (hsteady : c.Steady visible) {f : Segments DecorationKind}
    (hf : (renderDecorations visible c.generation items c.stale c.lastDecorations).2 = some f)
    (hfull : f.full = false) : ∃ p, c.lastDecorations = some p ∧ Same c.held p.items := by
  have hcases := sent_cases visible c.generation items c.stale c.lastDecorations
  rcases hcases with ⟨-, hsent⟩ | ⟨p, hlast, hvisible, hheld | hempty | ⟨hdiff, -⟩⟩
  · rw [hsent] at hf; cases hf; cases hfull
  · rw [hheld.2.2] at hf; cases hf
  · rw [hempty.2.2.2.2] at hf; cases hf
  · exact ⟨p, hlast, h.same_of_diff hsteady hlast hvisible hdiff⟩

end Kept

/-- A frame of a fresh store leaves every copy where the producer has it. -/
def HoldsScoped (c : Carrying) : Prop :=
  ∀ visible items, Nonempty items → c.stale = false → Same (c.frame visible items).held items

/-- **The copies are the scoped decorations**: a frame of a fresh store leaves them so exactly
    when they were mergeable; and where no stale frame is held back or diffed over a moved or
    dropped copy every such frame does, and every difference is taken from the copies held. -/
theorem frontend_holds_scoped (c : Carrying) : (∀ visible items, c.stale = false →
      (Same (c.frame visible items).held items ↔ c.Mergeable visible items)) ∧
    (SteadyRun c → c.HoldsScoped ∧ ∀ visible items f, c.Steady visible →
        (renderDecorations visible c.generation items c.stale c.lastDecorations).2 = some f →
          f.full = false → ∃ p, c.lastDecorations = some p ∧ Same c.held p.items) := by
  constructor
  · intro visible items hfresh; exact same_freshFrame_iff hfresh
  intro h; have hkept := Kept.reaches h
  constructor
  · intro visible items _ hfresh
    exact (same_freshFrame_iff hfresh).2 (hkept.mergeable)
  · intro visible items f hsteady hf hfull; exact hkept.diffed hsteady hf hfull

/-- An error is published and shown, and a byte typed behind it. -/
def behind : Carrying := (start.frame ⟨0, 20⟩ [⟨⟨5, 8⟩, .diagnosticError⟩]).edit ⟨15, 15, 1⟩

theorem frontend_holds_scoped_behind :
    (∃ p, behind.lastDecorations = some p ∧ Same behind.held p.items) ∧
    Same ((behind.frame ⟨0, 20⟩ [⟨⟨0, 2⟩, .selection⟩]).publish.frame ⟨0, 20⟩
      [⟨⟨0, 2⟩, .selection⟩, ⟨⟨5, 8⟩, .diagnosticError⟩]).held
      [⟨⟨0, 2⟩, .selection⟩, ⟨⟨5, 8⟩, .diagnosticError⟩] := by
  have hrun : SteadyRun behind :=
    .edit _ (.frame _ .start (by simp [Nonempty]) nofun)
  have hsteady : behind.Steady ⟨0, 20⟩ := by
    rintro - p ⟨⟩ -; exact .refl _
  have hrun' : SteadyRun (behind.frame ⟨0, 20⟩ [⟨⟨0, 2⟩, .selection⟩]).publish :=
    .publish (.frame _ hrun (by simp [Nonempty]) hsteady)
  constructor
  · exact ((frontend_holds_scoped behind).2 hrun).2 ⟨0, 20⟩ [⟨⟨0, 2⟩, .selection⟩]
      ⟨false, [⟨⟨0, 2⟩, [⟨⟨0, 2⟩, .selection⟩]⟩]⟩ hsteady rfl rfl
  · exact ((frontend_holds_scoped _).2 hrun').1 _ _ (by simp [Nonempty]) rfl

/-- An error is published and shown; a byte is typed into it and taken back, and the error is
    published again where it was. -/
def restored : Carrying :=
  let error : List Decoration := [⟨⟨5, 8⟩, .diagnosticError⟩]
  (((((start.frame ⟨0, 20⟩ error).edit ⟨6, 6, 1⟩).frame ⟨0, 20⟩ []).edit ⟨6, 7, 0⟩).frame
    ⟨0, 20⟩ []).publish

/-- The frontend dropped its copy, and the frame has nothing to send. -/
theorem frontend_holds_nothing : ¬∀ c, Reaches c → c.HoldsScoped := by
  intro h
  have hne : Nonempty [(⟨⟨5, 8⟩, .diagnosticError⟩ : Decoration)] := by simp [Nonempty]
  have hnil : Nonempty ([] : List Decoration) := by simp [Nonempty]
  have hreaches : Reaches restored :=
    .publish (.frame _ (.edit _ (.frame _ (.edit _ (.frame _ .start hne)) hnil)) hnil)
  have hsame := h restored hreaches ⟨0, 20⟩ [⟨⟨5, 8⟩, .diagnosticError⟩] hne rfl
  have hheld : (restored.frame ⟨0, 20⟩ [⟨⟨5, 8⟩, .diagnosticError⟩]).held = [] := by decide +kernel
  have hkind := (hsame 5 .diagnosticError).2 (by decide)
  cases hkind

end Carrying

end Pmacs.Semantic
