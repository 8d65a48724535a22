/-
  The parser does not see how its input is cut.

  * `joinText` joins adjacent text events, all that cutting a chunk changes;
  * `feedByte_flushed`: a byte read after an early flush of the text run does what
    it does without, up to `joinText`;
  * `feedChunks_flatten` puts both to `Lib.Machine`;
  * `Reached`: the parsers a caller can hold, `Fed`: those in the middle of a chunk, too.
-/
import Pmacs.Terminal.Ansi

namespace Pmacs

open Lib List

variable {p : AnsiParser}

/-! ## Joining text events -/

def consText : AnsiEvent → List AnsiEvent → List AnsiEvent
  | .text s, .text t :: es => .text (s ++ t) :: es
  | ev, es => ev :: es

def joinText (es : List AnsiEvent) : List AnsiEvent := es.foldr consText []

variable {es : List AnsiEvent}

@[simp]
theorem joinText_cons {ev : AnsiEvent} : joinText (ev :: es) = consText ev (joinText es) := rfl

theorem joinText_append (es fs : List AnsiEvent) :
    joinText (es ++ fs) = es.foldr consText (joinText fs) :=
  foldr_append

theorem consText_text_consText {s : List Char} (t : List Char) :
    consText (.text s) (consText (.text t) es) = consText (.text (s ++ t)) es := by
  rcases es with _ | ⟨ev, es⟩
  · rfl
  · cases ev <;> simp [consText]

theorem joinText_joinText_append (es fs : List AnsiEvent) :
    joinText (joinText es ++ fs) = joinText (es ++ fs) := by
  induction es with
  | nil => rfl
  | cons ev es ih =>
    rw [joinText_cons, cons_append, joinText_cons, ← ih]
    rcases hj : joinText es with _ | ⟨ev', es'⟩
    · cases ev <;> rfl
    cases ev with
    | text s =>
      cases ev' with
      | text t => rw [cons_append, joinText_cons, consText_text_consText]; rfl
      | _ => rfl
    | _ => rfl

theorem joinText_append_congr {es' fs fs' : List AnsiEvent} (he : joinText es = joinText es')
    (hf : joinText fs = joinText fs') : joinText (es ++ fs) = joinText (es' ++ fs') := by
  rw [← joinText_joinText_append es, ← joinText_joinText_append es', he, joinText_append,
    joinText_append, hf]

namespace AnsiParser

/-! ## Text runs -/

def flushed (p : AnsiParser) : AnsiParser := { p with textRun := [] }

theorem takeTextRun_eq : p.takeTextRun = (p.textEvents, p.flushed) := rfl

theorem textEvents_of_textRun (h : p.textRun = []) : p.textEvents = [] := by
  rw [textEvents, h]
  rfl

theorem flushed_of_textRun (h : p.textRun = []) : p.flushed = p := by
  rw [flushed, ← h]

theorem textEvents_append (p : AnsiParser) (s : List Char) :
    joinText (p.textEvents ++ { p with textRun := s }.textEvents) =
      joinText { p with textRun := p.textRun ++ s }.textEvents := by
  simp only [textEvents, pushVisible, suppressVisible]
  rcases hr : p.textRun with _ | ⟨c, run⟩
  · rfl
  rcases s with _ | ⟨d, s⟩
  · simp
  by_cases hv : (p.profile == .lineOriented && p.altScreenActive) = true
  · simp [hv]
  · simp only [hv, isEmpty_cons, cons_append, Bool.false_eq_true, if_false]; rfl

/-- What reading a text byte after the bytes `buf` adds to the text run, and the
    bytes that wait then. -/
def textByte (buf : Bytes) (b : UInt8) : List Char × Bytes :=
  if buf.isEmpty && b < 0x80 then ([asChar b], buf)
  else decodeUtf8Buf ((buf ++ [b]).length + 1) (buf ++ [b])

variable {b : UInt8}

theorem pushTextByte_eq : p.pushTextByte b = { p with
        textRun := p.textRun ++ (textByte p.utf8Buf b).1
        utf8Buf := (textByte p.utf8Buf b).2 } := by
  simp only [pushTextByte, textByte, tryDecodeUtf8Buf]
  split_ifs <;> rfl

/-! ## A byte after an early flush -/

/-- Reading with `f` after an early flush is reading with `f`, up to how the text
    is cut. -/
def FlushedEarly (f : AnsiParser → List AnsiEvent × AnsiParser) (p : AnsiParser) : Prop :=
  (f p.flushed).2.flushed = (f p).2.flushed ∧
    joinText (p.textEvents ++ ((f p.flushed).1 ++ (f p.flushed).2.textEvents)) =
      joinText ((f p).1 ++ (f p).2.textEvents)

theorem flushedEarly_of_textRun (f : AnsiParser → List AnsiEvent × AnsiParser)
    (h : p.textRun = []) : FlushedEarly f p := by
  rw [FlushedEarly, flushed_of_textRun h, textEvents_of_textRun h]
  exact ⟨rfl, rfl⟩

theorem flushTextRun_flushed (p : AnsiParser) : p.flushed.flushTextRun.2 = p.flushTextRun.2 ∧
      joinText (p.textEvents ++ p.flushed.flushTextRun.1) = joinText p.flushTextRun.1 := by
  by_cases hu : p.utf8Buf.isEmpty = true
  · have hp : p.flushPendingUtf8AsReplacement = p := if_pos hu
    have hf : p.flushed.flushPendingUtf8AsReplacement = p.flushed := if_pos hu
    rw [flushTextRun, flushTextRun, hp, hf]
    refine ⟨rfl, ?_⟩
    rw [takeTextRun_eq, textEvents_of_textRun (p := p.flushed) rfl, append_nil]; rfl
  have hp : p.flushPendingUtf8AsReplacement =
      { p with textRun := p.textRun ++ [Utf8.replacement], utf8Buf := [] } := if_neg hu
  have hf : p.flushed.flushPendingUtf8AsReplacement =
      { p with textRun := [Utf8.replacement], utf8Buf := [] } := if_neg hu
  rw [flushTextRun, flushTextRun, hp, hf]
  exact ⟨rfl, textEvents_append { p with utf8Buf := [] } [Utf8.replacement]⟩

theorem flushedEarly_flushTextRun (g : AnsiParser → List AnsiEvent)
    {h : AnsiParser → AnsiParser} (hh : ∀ q, (h q).textRun = q.textRun) (p : AnsiParser) :
    FlushedEarly (fun p => (p.flushTextRun.1 ++ g p.flushTextRun.2, h p.flushTextRun.2)) p := by
  obtain ⟨hst, hev⟩ := flushTextRun_flushed p
  have hrun : (h p.flushTextRun.2).textRun = [] := hh _
  simp only [FlushedEarly, hst, textEvents_of_textRun hrun, append_nil, true_and]
  rw [← append_assoc]
  exact joinText_append_congr hev rfl

theorem flushedEarly_push (t : Bytes → List Char × Bytes) : FlushedEarly (fun p => ([], { p with
      textRun := p.textRun ++ (t p.utf8Buf).1, utf8Buf := (t p.utf8Buf).2 })) p := by
  exact ⟨rfl, textEvents_append { p with utf8Buf := (t p.utf8Buf).2 } (t p.utf8Buf).1⟩

theorem flushedEarly_pushTextByte (b : UInt8) (p : AnsiParser) :
    FlushedEarly (fun p => ([], p.pushTextByte b)) p := by
  simp only [pushTextByte_eq]
  exact flushedEarly_push (fun buf => textByte buf b)

theorem flushedEarly_skip : FlushedEarly (fun p => ([], p)) p := by
  simpa using flushedEarly_push (fun buf => ([], buf))

theorem flushedEarly_flushThen {ev : AnsiEvent} : FlushedEarly (fun p => p.flushThen ev) p :=
  flushedEarly_flushTextRun (fun q => q.pushVisible ev) (fun _ => rfl) p

theorem flushedEarly_feedGround : FlushedEarly (fun p => p.feedGround b) p := by
  have hprofile : p.flushed.profile = p.profile := rfl
  simp only [FlushedEarly, feedGround, hprofile]
  split_ifs <;>
    first
    | exact flushedEarly_flushThen
    | exact flushedEarly_pushTextByte b p
    | exact flushedEarly_skip

/-! ## Text runs are gathered in ground only -/

/-- Outside ground no text is held back. -/
def RunInGround (p : AnsiParser) : Prop := p.state ≠ .ground → p.textRun = []

def held (p : AnsiParser) : List Char × Bytes := (p.textRun, p.utf8Buf)

/-- The text held back stays, or all of it is emitted. -/
def HoldsOrFlushes (p q : AnsiParser) : Prop := q.held = p.held ∨ q.held = ([], [])

theorem held_flushTextRun : p.flushTextRun.2.held = ([], []) := by
  rw [flushTextRun, flushPendingUtf8AsReplacement, takeTextRun]
  split_ifs with h
  · exact congrArg (Prod.mk []) (isEmpty_iff.1 h)
  · rfl

theorem held_emitSetStyle : p.emitSetStyle.2.held = p.held := by
  rw [emitSetStyle]
  split_ifs <;> rfl

theorem held_altScreenParam (set : Bool) (p : AnsiParser) (param : CsiParam) :
    (p.altScreenParam set param).2.held = p.held := by
  simp only [altScreenParam]
  split_ifs
  all_goals first | rfl | exact held_emitSetStyle

theorem held_dispatchCsi : (p.dispatchCsi b).2.held = p.held := by
  have hloop : ∀ set params, (Machine.run (altScreenParam set) p params).2.held = p.held :=
    fun set params => Machine.run_inv (P := fun q => q.held = p.held)
      (fun q a hq => (held_altScreenParam set q a).trans hq) rfl params
  simp only [dispatchCsi]
  split_ifs
  · rw [dispatchSgr]
    split_ifs <;> exact held_emitSetStyle
  · simp only [dispatchCsiLineOriented]
    split
    · split <;> rfl
    · split <;> rfl
    · exact hloop true _
    · exact hloop false _
    · rfl
  · rfl

theorem held_feedCsiIntermediate : (p.feedCsiIntermediate b).2.held = p.held := by
  rw [feedCsiIntermediate]
  split_ifs
  · rfl
  · exact held_dispatchCsi
  · rfl

theorem held_feedCsiParam : (p.feedCsiParam b).2.held = p.held := by
  rw [feedCsiParam]
  split
  · rfl
  · exact held_feedCsiIntermediate

variable {again : AnsiParser → UInt8 → List AnsiEvent × AnsiParser}

theorem held_feedState
    (hagain : ∀ (q : AnsiParser) (b : UInt8), q.state = .escape → q.HoldsOrFlushes (again q b).2)
    (hs : p.state ≠ .ground) (b : UInt8) : p.HoldsOrFlushes (feedState again p b).2 := by
  cases h : p.state with
  | ground => exact absurd h hs
  | escape =>
    simp only [feedState, h, feedEscape]
    split_ifs <;> exact .inl rfl
  | escapeIntermediate =>
    simp only [feedState, h, feedEscapeIntermediate]
    split_ifs <;> exact .inl rfl
  | escapeIgnore =>
    simp only [feedState, h, feedEscapeIgnore]
    split_ifs <;> exact .inl rfl
  | csiEntry =>
    simp only [feedState, h, feedCsiEntry]
    split_ifs
    · exact .inl rfl
    · exact .inl (held_feedCsiParam)
  | csiParam => simp only [feedState, h]; exact .inl (held_feedCsiParam)
  | csiIntermediate => simp only [feedState, h]; exact .inl (held_feedCsiIntermediate)
  | csiIgnore =>
    simp only [feedState, h, feedCsiIgnore]
    split_ifs <;> exact .inl rfl
  | oscString =>
    simp only [feedState, h, feedOscString]
    split_ifs <;> exact .inl rfl
  | oscEscPending =>
    simp only [feedState, h, feedOscEscPending]
    split_ifs
    · exact .inl rfl
    · exact hagain { p with oscBody := [], ignoreByteCount := 0, state := .escape } b rfl
  | oscIgnore =>
    simp only [feedState, h, feedOscIgnore]
    split_ifs <;> exact .inl rfl
  | _ => simp only [feedState, h]; exact .inl rfl

theorem held_overLimit : p.overLimit.held = p.held := by
  rw [overLimit]
  split <;> rfl

theorem held_feedByteWith
    (hagain : ∀ (q : AnsiParser) (b : UInt8), q.state = .escape → q.HoldsOrFlushes (again q b).2)
    (hs : p.state ≠ .ground) (b : UInt8) : p.HoldsOrFlushes (feedByteWith again p b).2 := by
  simp only [feedByteWith]
  split_ifs
  · exact .inr (held_flushTextRun)
  · exact .inr (held_flushTextRun)
  · exact .inl (held_overLimit)
  · exact held_feedState hagain (p := { p with
      ignoreByteCount := min (p.ignoreByteCount + 1) usizeMax }) hs b
  · exact held_feedState hagain hs b

theorem held_feedByte (hs : p.state ≠ .ground) (b : UInt8) : p.HoldsOrFlushes (p.feedByte b).2 := by
  refine held_feedByteWith (fun q b hq => ?_) hs b
  refine held_feedByteWith (fun _ _ _ => .inl rfl) ?_ b
  rw [hq]
  exact nofun

theorem textRun_feedByte (hs : p.state ≠ .ground) (hr : p.textRun = []) : (p.feedByte b).2.textRun = [] := by
  rcases held_feedByte hs b with h | h
  · exact (congrArg Prod.fst h).trans hr
  · exact congrArg Prod.fst h

/-- In ground, a byte is a cancel or is read by `feedGround`. -/
theorem feedByte_ground (hs : p.state = .ground) : p.feedByte b =
      if b = 0x1B then (p.flushTextRun.1, p.flushTextRun.2.startNewSequence)
      else if b = 0x18 ∨ b = 0x1A then (p.flushTextRun.1, p.flushTextRun.2.recoverToGround)
      else p.feedGround b := by simp [feedByte, feedByteWith, hs, State.counted, feedState]

theorem state_feedGround : (p.feedGround b).2.state = p.state := by
  have hflush : p.flushTextRun.2.state = p.state := by
    simp only [flushTextRun, takeTextRun, flushPendingUtf8AsReplacement]
    split_ifs <;> rfl
  simp only [feedGround, flushThen, pushTextByte_eq]
  split_ifs <;> first | exact hflush | rfl

/-- **A byte keeps text runs in ground.** -/
theorem runInGround_feedByte (h : p.RunInGround) (b : UInt8) : (p.feedByte b).2.RunInGround := by
  by_cases hs : p.state = .ground
  · rw [feedByte_ground hs]
    split_ifs
    · intro _; rfl
    · intro _; rfl
    · intro hne; rw [state_feedGround] at hne; exact absurd hs hne
  · intro _; exact textRun_feedByte hs (h hs)

/-- **A byte after an early flush** does what it does without. -/
theorem feedByte_flushed (h : p.RunInGround) (b : UInt8) :
    FlushedEarly (fun p => p.feedByte b) p := by
  by_cases hs : p.state = .ground
  · have hf : p.flushed.state = .ground := hs
    simp only [FlushedEarly, feedByte_ground hs, feedByte_ground hf]
    split_ifs
    · simpa [FlushedEarly] using
        flushedEarly_flushTextRun (fun _ => []) (h := startNewSequence) (fun _ => rfl) p
    · simpa [FlushedEarly] using
        flushedEarly_flushTextRun (fun _ => []) (h := recoverToGround) (fun _ => rfl) p
    · exact flushedEarly_feedGround
  · exact flushedEarly_of_textRun _ (h hs)

/-! ## Chunks -/

theorem flushesEarly : Machine.FlushesEarly feedByte takeTextRun RunInGround joinText where
  norm_append := joinText_append_congr
  flush_flush _ := rfl
  step_inv _ b h := runInGround_feedByte h b
  flush_inv _ _ _ := rfl
  step_state _ b h := (feedByte_flushed h b).1
  step_events _ b h := (feedByte_flushed h b).2

/-- The parsers a caller can hold. -/
inductive Reached : AnsiParser → Prop where
  | new (profile : AnsiParserProfile) (byteLimit : ℕ) :
    Reached (withProfileAndConfig profile byteLimit)
  | feed {p : AnsiParser} (bs : Bytes) : Reached p → Reached (p.feed bs).2
  | finish {p : AnsiParser} : Reached p → Reached p.finish.2
  | reset {p : AnsiParser} : Reached p → Reached p.reset

/-- The parsers that bytes and calls lead to. -/
inductive Fed : AnsiParser → Prop where
  | start (profile : AnsiParserProfile) (byteLimit : ℕ) :
    Fed (withProfileAndConfig profile byteLimit)
  | feedByte {p : AnsiParser} (b : UInt8) : Fed p → Fed (p.feedByte b).2
  | takeTextRun {p : AnsiParser} : Fed p → Fed p.takeTextRun.2
  | finish {p : AnsiParser} : Fed p → Fed p.finish.2
  | reset {p : AnsiParser} : Fed p → Fed p.reset

theorem Reached.textRun (h : Reached p) : p.textRun = [] := by
  cases h <;> rfl

/-- **Chunks.** However a stream is cut into chunks, feeding them to a parser gives
    the events of feeding the stream at once, adjacent texts joined, and leaves the
    parser in the same state. -/
theorem feedChunks_flatten {p : AnsiParser} (h : Reached p) (chunks : List Bytes) :
    (p.feedChunks chunks).2 = (p.feed chunks.flatten).2 ∧
      joinText (p.feedChunks chunks).1 = joinText (p.feed chunks.flatten).1 := by
  refine flushesEarly.feeds_flatten (fun _ => h.textRun) ?_ chunks
  rw [takeTextRun_eq, textEvents_of_textRun h.textRun, flushed_of_textRun h.textRun]

/-- A character cut in the middle of its bytes, and a style sequence after it. -/
theorem feedChunks_flatten_cut :
    (new.feedChunks [[0x61, 0xC3], [0xA9, 0x1B, 0x5B], [0x31, 0x6D]]).2 =
        (new.feed [0x61, 0xC3, 0xA9, 0x1B, 0x5B, 0x31, 0x6D]).2 ∧
      joinText (new.feedChunks [[0x61, 0xC3], [0xA9, 0x1B, 0x5B], [0x31, 0x6D]]).1 =
        joinText (new.feed [0x61, 0xC3, 0xA9, 0x1B, 0x5B, 0x31, 0x6D]).1 :=
  feedChunks_flatten (.new .lineOriented defaultByteLimit)
    [[0x61, 0xC3], [0xA9, 0x1B, 0x5B], [0x31, 0x6D]]

end AnsiParser

end Pmacs
