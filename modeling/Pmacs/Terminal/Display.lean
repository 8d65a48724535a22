/-
  Frames on a terminal (instance_render.rs): what is painted, what is sent for it, and what
  the terminal shows.

  * `RenderState.renderFrame`: a frame is painted, overlaid, colored and compared with the
    frame before, or with a blank grid when the terminal is to be redrawn.
  * `Display.step`: the renderer and the terminal its frames are sent to.
  * `frames_shown`: what the terminal shows after a frame.
-/
import Pmacs.Terminal.Row

namespace Pmacs

open List

/-- What goes into a frame: the cells painted first, the overlays painted over them, and
    what the theme makes of each style. -/
structure GridFrame where
  base : ℕ → ℕ → FrameCell
  overlays : List Overlay
  finish : Style → Style

structure RenderState where
  size : CellSize
  prev : List FrameCell
  next : List FrameCell
  needsFullGrid : Bool
  prev_length : prev.length = size.rows * size.cols
  next_length : next.length = size.rows * size.cols

def blankGrid (size : CellSize) : List FrameCell :=
  List.replicate (size.rows * size.cols) .default

/-- `paint_frame`, as the cells it leaves in a grid. -/
def paintFrame (size : CellSize) (base : ℕ → ℕ → FrameCell) (next : List FrameCell) :
    List FrameCell :=
  next.mapIdx fun i _ => base (i / size.cols) (i % size.cols)

def finishColors (finish : Style → Style) (cells : List FrameCell) : List FrameCell :=
  cells.map fun x => { x with style := finish x.style }

variable (r : RenderState)

namespace RenderState

def new (size : CellSize) : RenderState where
  size := size
  prev := blankGrid size
  next := blankGrid size
  needsFullGrid := true
  prev_length := length_replicate
  next_length := length_replicate

def resize (newSize : CellSize) : RenderState :=
  if newSize = r.size then r else new newSize

def forceFullGridResync : RenderState := { r with needsFullGrid := true }

def painted (f : GridFrame) : List FrameCell :=
  finishColors f.finish
    (paintOtherFrontendOverlays r.size (paintFrame r.size f.base r.next) f.overlays)

theorem painted_length (f : GridFrame) : (r.painted f).length = r.size.rows * r.size.cols := by
  simp [painted, finishColors, paintFrame, r.next_length]

def compared : List FrameCell :=
  if r.needsFullGrid then blankGrid r.size else r.prev

/-- Is the grid large enough to be drawn at all? -/
def Drawable : Prop := ¬(r.size.rows < 2 ∨ r.size.cols = 0)

instance (r : RenderState) : Decidable r.Drawable := inferInstanceAs (Decidable (¬_))

/-- `render_frame`: the spans of the delta, and whether it is a full one. -/
def renderFrame (f : GridFrame) : RenderState × Option (List DiffSpan × Bool) :=
  if r.Drawable then
    ({ r with
        prev := r.painted f
        next := blankGrid r.size
        needsFullGrid := false
        prev_length := r.painted_length f
        next_length := length_replicate },
      some (diff r.compared (r.painted f) r.size.cols r.size, r.needsFullGrid))
  else (r, none)

end RenderState

/-! ## The terminal follows -/

/-- A renderer and the terminal its frames go to. -/
structure Display where
  render : RenderState
  screen : Screen

inductive DisplayEvent where
  /-- The terminal takes another size; what it then shows is its own affair. -/
  | resize (size : CellSize) (screen : Screen)
  /-- A full frame is asked for, for a terminal that may show anything. -/
  | forceResync (screen : Screen)
  | frame (f : GridFrame)

namespace Display

variable (W : GlyphWidth)

def step (d : Display) : DisplayEvent → Display
  | .resize size screen => if size = d.render.size then d else ⟨d.render.resize size, screen⟩
  | .forceResync screen => ⟨d.render.forceFullGridResync, screen⟩
  | .frame f =>
    match d.render.renderFrame f with
    | (render, some (spans, fullGrid)) => ⟨render, d.screen.run W (emitCellDelta spans fullGrid)⟩
    | (render, none) => ⟨render, d.screen⟩

/-- The terminal shows a grid: each glyph in its place and style, a wide one in two
    columns. -/
def Shows (size : CellSize) (cells : List FrameCell) (t : Screen) : Prop :=
  ∀ row col, row < size.rows → col < size.cols → (cellAt cells size.cols row col).Leading →
    t.lines row col = (cellAt cells size.cols row col).head W ∧
      ((cellAt cells size.cols row col).Wide W → (t.lines row (col + 1)).isRight)

/-- Every wide glyph of a frame is followed by its second column, and no other cell is
    one. -/
def WellFormed (size : CellSize) (base : ℕ → ℕ → FrameCell) : Prop :=
  ∀ row < size.rows, RowWhole W size.cols (base row) ∧
    ∀ col < size.cols, ¬(base row col).Leading →
      ∃ c < size.cols, col = c + 1 ∧ (base row c).Wide W

instance (size : CellSize) (base : ℕ → ℕ → FrameCell) : Decidable (WellFormed W size base) :=
  inferInstanceAs (Decidable (∀ row < size.rows, _ ∧ ∀ col < size.cols, _ → _))

/-- No label letter falls on a second column. -/
def LabelsApart (size : CellSize) (f : GridFrame) : Prop :=
  ∀ cursorRow col frontendId color, .label cursorRow col frontendId color ∈ f.overlays →
    labelForFrontendId frontendId ≠ none → labelRow cursorRow < size.rows → col < size.cols →
    (f.base (labelRow cursorRow) col).Leading

/-- A second column that the frame changes, with a change right of it, is changed along
    with its glyph. -/
def RunsAligned (size : CellSize) (old new : List FrameCell) : Prop :=
  ∀ row < size.rows,
    RowAligned W size.cols (cellAt old size.cols row) (cellAt new size.cols row)

instance (size : CellSize) (old new : List FrameCell) : Decidable (RunsAligned W size old new) :=
  inferInstanceAs (Decidable (∀ row < size.rows, _))

/-- A frame that is sent exactly. The terminal's columns and rows are `u16`. -/
structure FrameOk (d : Display) (f : GridFrame) : Prop where
  wellFormed : WellFormed W d.render.size f.base
  labels : LabelsApart d.render.size f
  aligned : RunsAligned W d.render.size d.render.compared (d.render.painted f)
  rows : d.render.size.rows < 2 ^ 16
  cols : d.render.size.cols < 2 ^ 16

def EventOk (d : Display) : DisplayEvent → Prop
  | .frame f => d.FrameOk W f
  | _ => True

/-- The displays that a run through exact frames leads to. -/
def Reaches (d d' : Display) : Prop :=
  Relation.ReflTransGen (fun a b => ∃ ev, a.EventOk W ev ∧ b = a.step W ev) d d'

def start (size : CellSize) (screen : Screen) : Display := ⟨.new size, screen⟩

end Display

/-! ## What is painted -/

variable {row : ℕ} {size : CellSize} {col : ℕ}

theorem cellAt_paintFrame {base : ℕ → ℕ → FrameCell} {next : List FrameCell}
    (hlen : next.length = size.rows * size.cols) (hr : row < size.rows)
    (hc : col < size.cols) : cellAt
    (paintFrame size base next) size.cols row col = base row col := by
  have hlt := index_lt hr hc
  unfold cellAt paintFrame
  rw [getD_eq_getElem _ _ (by simpa [hlen] using hlt), getElem_mapIdx,
    add_comm, Nat.add_mul_div_right _ _ (by omega), Nat.div_eq_of_lt hc, zero_add,
    Nat.add_mul_mod_self_right, Nat.mod_eq_of_lt hc]

variable {cells : List FrameCell}

theorem cellAt_finishColors {finish : Style → Style}
    (hlen : cells.length = size.rows * size.cols) (hr : row < size.rows)
    (hc : col < size.cols) :
    cellAt (finishColors finish cells) size.cols row col =
      { cellAt cells size.cols row col with
        style := finish (cellAt cells size.cols row col).style } := by
  have hlt := index_lt hr hc
  unfold cellAt finishColors
  rw [getD_eq_getElem _ _ (by simpa [hlen] using hlt),
    getD_eq_getElem _ _ (by simpa [hlen] using hlt), getElem_map]

theorem cellAt_blankGrid (row col : ℕ) : cellAt (blankGrid size) size.cols row col = .default := by
  unfold cellAt blankGrid
  by_cases h : row * size.cols + col < size.rows * size.cols
  · rw [getD_eq_getElem _ _ (by simpa using h), getElem_replicate]
  · rw [getD_eq_default _ _ (by simpa using h)]

/-- A painted cell has the glyph it had, or the letter of a label put over a glyph. -/
def Relabeled (size : CellSize) (base : ℕ → ℕ → FrameCell) (cells : List FrameCell) : Prop :=
  cells.length = size.rows * size.cols ∧
    ∀ row < size.rows, ∀ col < size.cols,
      (cellAt cells size.cols row col).glyph = (base row col).glyph ∨
        (base row col).Leading ∧
          ∃ c : Char, c.toNat < 128 ∧ (cellAt cells size.cols row col).glyph = .char c

theorem labelForFrontendId_ascii {raw : ℕ} {c : Char} (h : labelForFrontendId raw = some c) :
    c.toNat < 128 := by
  unfold labelForFrontendId at h
  split at h
  · rename_i hraw; cases h; obtain ⟨lo, hi⟩ := hraw
    interval_cases raw <;> decide
  · cases h

section
variable {base : ℕ → ℕ → FrameCell}

theorem Relabeled.restyle {f : FrameCell → FrameCell} (h : Relabeled size base cells)
    (hf : ∀ x, (f x).glyph = x.glyph) : Relabeled size base (paintCell size row col f cells) := by
  refine ⟨length_paintCell.trans h.1, fun r hr c hc => ?_⟩
  rw [cellAt_paintCell h.1 hr hc]
  split
  · rw [hf]; exact h.2 r hr c hc
  · exact h.2 r hr c hc

theorem Relabeled.relabel {cursorRow : ℕ} {label : Char} {color : Color}
    (h : Relabeled size base cells) (hascii : label.toNat < 128)
    (hl : labelRow cursorRow < size.rows → col < size.cols →
      (base (labelRow cursorRow) col).Leading) :
    Relabeled size base (paintLabelCell size cursorRow col label color cells) := by
  refine ⟨length_paintCell.trans h.1, fun r hr c hc => ?_⟩
  unfold paintLabelCell
  rw [cellAt_paintCell h.1 hr hc]
  split
  · rename_i he
    rcases he with ⟨rfl, rfl⟩
    exact .inr ⟨hl hr hc, label, hascii, rfl⟩
  · exact h.2 r hr c hc

end

variable {f : GridFrame}

theorem RenderState.painted_relabeled
    (h : Display.LabelsApart r.size f) : Relabeled r.size f.base (r.painted f) := by
  have hover : ∀ (overlays : List Overlay) (cells : List FrameCell),
      (∀ o ∈ overlays, o ∈ f.overlays) → Relabeled r.size f.base cells →
      Relabeled r.size f.base (paintOtherFrontendOverlays r.size cells overlays) := by
    intro overlays
    induction overlays with
    | nil => exact fun _ _ h => h
    | cons o overlays ih =>
      intro cells hsub hcells
      refine ih _ (fun o ho => hsub o (.tail _ ho)) ?_
      cases o with
      | cursor | selected => exact hcells.restyle fun _ => rfl
      | label cursorRow col frontendId color =>
        simp only [paintOverlay]
        cases hid : labelForFrontendId frontendId with
        | none => exact hcells
        | some label =>
          exact hcells.relabel (labelForFrontendId_ascii hid)
            (h _ _ _ _ (hsub _ (.head _)) (by simp [hid]))
  have hbase : Relabeled r.size f.base (paintFrame r.size f.base r.next) := by
    refine ⟨by simp [paintFrame, r.next_length], fun row hr col hc => .inl ?_⟩
    rw [cellAt_paintFrame r.next_length hr hc]
  have hfold := hover f.overlays _ (fun _ h => h) hbase
  refine ⟨r.painted_length f, fun row hr col hc => ?_⟩
  unfold painted
  rw [cellAt_finishColors hfold.1 hr hc]
  exact hfold.2 row hr col hc

theorem printable_ascii_narrow (W : GlyphWidth) {c : Char} (h : c.toNat < 128) :
    W.wide (Glyph.char c).printable = false := by
  apply W.narrow_ascii
  split
  · decide
  · exact h

/-- Overlays leave a well-formed frame's wide glyphs whole, label letters put on a second
    column apart. -/
theorem RenderState.painted_whole {W : GlyphWidth} (r : RenderState)
    (hf : Display.WellFormed W r.size f.base) (hl : Display.LabelsApart r.size f)
    (hr : row < r.size.rows) : RowWhole W r.size.cols (cellAt (r.painted f) r.size.cols row) := by
  have hp := (r.painted_relabeled hl).2 row hr
  rintro c hc ⟨hlead, hwide⟩
  rcases hp c hc with hglyph | ⟨-, ch, hascii, hglyph⟩
  · obtain ⟨hc', hcont⟩ := (hf row hr).1 c hc
      ⟨by rwa [FrameCell.Leading, ← hglyph], by rwa [← hglyph]⟩
    refine ⟨hc', fun h => hcont ?_⟩
    rcases hp (c + 1) hc' with hglyph' | ⟨h', -⟩
    · rwa [FrameCell.Leading, ← hglyph']
    · exact h'
  · rw [hglyph, printable_ascii_narrow W hascii] at hwide; cases hwide

/-! ## What is shown -/

namespace Display

variable {W : GlyphWidth}

/-- Every line shows what stays of the old grid. -/
def Kept (W : GlyphWidth) (size : CellSize) (old new : List FrameCell) (t : Screen) : Prop :=
  ∀ row < size.rows, Partway W size.cols (cellAt old size.cols row)
    (cellAt new size.cols row) (t.lines row) 0

variable {t : Screen}

/-- **The spans of a difference turn the old grid into the new.** -/
theorem diff_shows {old new : List FrameCell}
    (hw : ∀ row < size.rows, RowWhole W size.cols (cellAt new size.cols row))
    (ha : RunsAligned W size old new) (hrows : size.rows < 2 ^ 16) (hcols : size.cols < 2 ^ 16)
    (h : Kept W size old new t) (hr : row < size.rows) :
    Partway W size.cols (cellAt old size.cols row) (cellAt new size.cols row)
      ((t.run W ((diff old new size.cols size).flatMap emitSpan)).lines row) size.cols := by
  -- rows are sent from the top; the rows not yet reached are as they were
  have hrun : ∀ k ≤ size.rows, ∀ now : Screen,
      now = t.run W (((List.range k).flatMap fun row =>
        diffRow old new size.cols row size.cols 0 []).flatMap emitSpan) →
      (∀ r < k, Partway W size.cols (cellAt old size.cols r) (cellAt new size.cols r)
        (now.lines r) size.cols) ∧ ∀ r, k ≤ r → now.lines r = t.lines r := by
    intro k
    induction k with
    | zero => rintro _ now rfl; exact ⟨fun r hr => absurd hr (by omega), fun r _ => rfl⟩
    | succ k ih =>
      rintro hk now rfl; obtain ⟨hdone, hrest⟩ := ih (by omega) _ rfl
      rw [range_succ, flatMap_append, flatMap_append, Screen.run_append, flatMap_singleton]
      have hmid := diffRow_shows (hw k hk) (ha k hk) (by omega) hcols.le size.cols 0 [] _
        (zero_add _) ⟨⟨fun _ _ => rfl, by rw [hrest k le_rfl]; exact h k hk⟩, rfl⟩
      refine ⟨fun r hr => ?_, fun r hr => ?_⟩
      · rcases Nat.lt_succ_iff_lt_or_eq.1 hr with hr | rfl
        · rw [hmid.others r (by omega)]; exact hdone r hr
        · exact hmid.partway
      · rw [hmid.others r (by omega), hrest r (by omega)]
  exact (hrun size.rows le_rfl _ rfl).1 row hr

theorem kept_cleared {new : List FrameCell} (t : Screen) :
    Kept W size (blankGrid size) new (t.run W [.resetColor, .reset, .clearAll]) := by
  intro row _
  refine ⟨⟨rfl, fun _ => rfl⟩, fun i hi => absurd hi (by omega), fun i _ _ he _ => ?_⟩
  rw [cellAt_blankGrid] at he
  rw [← he]
  unfold FrameCell.head
  rw [if_neg]
  · rfl
  have := printable_ascii_narrow W (c := ' ') (by decide)
  simp [FrameCell.default, Cell.default, this]

/-- A grid the terminal shows line by line. -/
def Exact (W : GlyphWidth) (size : CellSize) (cells : List FrameCell) (t : Screen) : Prop :=
  ∀ row < size.rows, LinePaired (t.lines row) ∧
    ∀ col < size.cols, (cellAt cells size.cols row col).Leading →
      t.lines row col = (cellAt cells size.cols row col).head W

theorem Exact.shows (h : Exact W size cells t) : Shows W size cells t := by
  intro row col hr hc hl
  obtain ⟨hpaired, hcells⟩ := h row hr
  refine ⟨hcells col hc hl, fun hwide => ?_⟩
  rw [← hpaired.2 col, hcells col hc hl, FrameCell.head_isLeft]
  exact hwide.2

theorem Exact.kept (h : Exact W size cells t) (new : List FrameCell) : Kept W size cells new t := by
  intro row hr
  obtain ⟨hpaired, hcells⟩ := h row hr
  refine ⟨hpaired, fun i hi => absurd hi (by omega), fun i _ hi he hl => ?_⟩
  rw [← he] at hl ⊢
  exact hcells i hi hl

/-- A terminal that is not to be redrawn shows the grid that was last sent. -/
def UpToDate (W : GlyphWidth) (d : Display) : Prop :=
  d.render.needsFullGrid = false → Exact W d.render.size d.render.prev d.screen

variable {d : Display}

theorem UpToDate.frame (h : d.UpToDate W) (hf : d.FrameOk W f) :
    Exact W d.render.size (d.render.painted f) (d.screen.run W (emitCellDelta
        (diff d.render.compared (d.render.painted f) d.render.size.cols d.render.size)
        d.render.needsFullGrid)) := by
  have hw (row : ℕ) (hr : row < d.render.size.rows) :=
    d.render.painted_whole hf.wellFormed hf.labels hr
  -- the terminal shows the grid the frame is compared with, once a full frame cleared it
  obtain ⟨t, hrun, hkept⟩ : ∃ t : Screen,
      d.screen.run W (emitCellDelta
        (diff d.render.compared (d.render.painted f) d.render.size.cols d.render.size)
        d.render.needsFullGrid) =
      t.run W ((diff d.render.compared (d.render.painted f) d.render.size.cols
        d.render.size).flatMap emitSpan) ∧
      Kept W d.render.size d.render.compared (d.render.painted f) t := by
    unfold RenderState.compared emitCellDelta
    cases hfull : d.render.needsFullGrid with
    | true => exact ⟨_, Screen.run_append .., kept_cleared _⟩
    | false => exact ⟨d.screen, rfl, (h hfull).kept _⟩
  rw [hrun]
  intro row hr
  have hpart := diff_shows hw hf.aligned hf.rows hf.cols hkept hr
  exact ⟨hpart.paired, fun col hc hl => hpart.done col hc hl⟩

/-- **Step.** -/
theorem UpToDate.step (h : d.UpToDate W) {ev : DisplayEvent}
    (hev : d.EventOk W ev) : (d.step W ev).UpToDate W := by
  cases ev with
  | resize size screen =>
    simp only [Display.step]
    split
    · exact h
    · rename_i hne; simp [UpToDate, RenderState.resize, hne, RenderState.new]
  | forceResync screen => simp [UpToDate, Display.step, RenderState.forceFullGridResync]
  | frame f =>
    simp only [Display.step, RenderState.renderFrame]
    by_cases hd : d.render.Drawable
    · simp only [hd, ↓reduceIte]; exact fun _ => h.frame hev
    · simp only [hd, ↓reduceIte]; exact h

theorem UpToDate.reaches {d' : Display} (h : d.UpToDate W) (hr : Reaches W d d') :
    d'.UpToDate W := by
  induction hr with
  | refl => exact h
  | tail _ hstep ih => obtain ⟨ev, hev, rfl⟩ := hstep; exact ih.step hev

/-- **Frames are shown as painted.**  However a display was started, resized and resynced,
    and whatever frames it has sent exactly, the terminal shows the next frame's glyphs and
    the style of each when it has run that frame's escapes. -/
theorem frames_shown {size : CellSize} {screen : Screen} {d : Display}
    (h : Reaches W (start size screen) d) {f : GridFrame} (hf : d.FrameOk W f)
    (hd : d.render.Drawable) :
    Shows W d.render.size (d.render.painted f) (d.step W (.frame f)).screen := by
  have hstart : (start size screen).UpToDate W := by simp [UpToDate, start, RenderState.new]
  have hup := hstart.reaches h
  simp only [step, RenderState.renderFrame, hd, ↓reduceIte]
  exact (hup.frame hf).shows

/-- A terminal on which one character is wide. -/
def oneWide : GlyphWidth where
  wide g := g = .char '漢'
  narrow_ascii := by
    intro c h; simp only [Glyph.char.injEq, decide_eq_false_iff_not]; rintro rfl
    exact absurd h (by decide)

def plainCell (g : Glyph) : FrameCell := ⟨⟨g, .default⟩, none⟩

/-- A first row of given cells, with blanks after them and below. -/
def firstRow (cells : List FrameCell) (row col : ℕ) : FrameCell :=
  if row = 0 then cells.getD col .default else .default

def bareScreen : Screen := ⟨fun _ _ => .single (.char 'x') .default, 0, 0, .default⟩

def wideThen (tail : FrameCell) (c : Char) (overlays : List Overlay) : GridFrame where
  base := firstRow [plainCell (.char '漢'), tail, plainCell (.char c)]
  overlays := overlays
  finish := id

/-- A peer's cursor beside a wide glyph, then another letter there and a label below. -/
theorem frames_shown_labeled :
    let d := (start ⟨2, 3⟩ bareScreen).step oneWide
      (.frame (wideThen (plainCell .continuation) 'a' [.cursor 0 2 (.indexed 4)]))
    let f := wideThen (plainCell .continuation) 'b' [.label 0 1 2 (.indexed 4)]
    Shows oneWide d.render.size (d.render.painted f) (d.step oneWide (.frame f)).screen := by
  intro d f
  have hreach : Reaches oneWide (start ⟨2, 3⟩ bareScreen) d := by
    refine .single ⟨.frame _, ?_, rfl⟩
    refine { wellFormed := ?_, labels := ?_, aligned := ?_, rows := ?_, cols := ?_ }
    · decide
    · intro _ _ _ _ hmem; simp [wideThen] at hmem
    · decide +kernel
    · decide
    · decide
  refine frames_shown hreach ⟨?_, ?_, ?_, ?_, ?_⟩ (by decide)
  · decide
  · intro cursorRow col frontendId color hmem
    simp only [f, wideThen, mem_singleton, Overlay.label.injEq] at hmem
    obtain ⟨rfl, rfl, rfl, rfl⟩ := hmem; exact fun _ _ _ => by decide
  · decide +kernel
  · decide
  · decide

/-- A well-formed frame that changes the style of a second column and the cell right of it:
    the changed letter is written over the second column, and the wide glyph goes blank. -/
theorem frames_not_shown :
    let tail : FrameCell := ⟨⟨.continuation, { Style.default with underline := .single }⟩, none⟩
    let f₁ := wideThen (plainCell .continuation) 'a' []
    let f₂ := wideThen tail 'b' []
    let d := (start ⟨2, 3⟩ bareScreen).step oneWide (.frame f₁)
    WellFormed oneWide ⟨2, 3⟩ f₁.base ∧ WellFormed oneWide ⟨2, 3⟩ f₂.base ∧
      ¬Shows oneWide d.render.size (d.render.painted f₂) (d.step oneWide (.frame f₂)).screen := by
  refine ⟨by decide, by decide, fun h => ?_⟩
  exact absurd (h 0 0 (by decide) (by decide) (by decide)).1 (by decide +kernel)

end Display

end Pmacs
