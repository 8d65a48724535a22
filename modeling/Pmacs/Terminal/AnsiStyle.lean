/-
  What the consumer of a line-oriented parser is shown (ansi.rs).

  * `screenStep`: outside the alternate screen anything but an exit may come, inside nothing but it;
  * `Consumer`: who applies the events, with the style and the screens it has seen;
  * `Follows`: what reading does to the consumer, composed by `Follows.trans`; one lemma for each
    function that reads;
  * `LineStream`: a stream of bytes, ends of chunks and ends of the stream, with the style its
    sequences denote; `consumer_style`: the consumer holds it.
-/
import Pmacs.Terminal.AnsiChunks

namespace Pmacs

open Lib List Option

namespace AnsiParser

/-! ## The consumer -/

/-- Whether the consumer is inside the alternate screen after an event; none where it must not
    come. -/
def screenStep : Bool → AnsiEvent → Option Bool
  | false, .alternateScreenEnter => some true
  | false, .alternateScreenExit => none
  | false, _ => some false
  | true, .alternateScreenExit => some false
  | true, _ => none

/-- Who applies the events: the style shown, the screens entered and left. -/
structure Consumer where
  style : Style
  enters : ℕ
  exits : ℕ
deriving DecidableEq, Repr

variable {events : List AnsiEvent}

namespace Consumer

variable {ev : AnsiEvent} {again : AnsiParser → UInt8 → List AnsiEvent × AnsiParser}

def new : Consumer := ⟨.default, 0, 0⟩

def receive (c : Consumer) : AnsiEvent → Consumer
  | .setStyle style => { c with style }
  | .alternateScreenEnter => { c with enters := c.enters + 1 }
  | .alternateScreenExit => { c with exits := c.exits + 1 }
  | _ => c

def receiveAll (c : Consumer) (events : List AnsiEvent) : Consumer := events.foldl receive c

/-- A consumer outside has left as many screens as it entered, one inside one less. -/
def Balanced (c : Consumer) (inside : Bool) : Prop := c.enters = c.exits + inside.toNat

theorem Balanced.receive {c : Consumer} {inside inside' : Bool} (h : c.Balanced inside)
    (hev : screenStep inside ev = some inside') : (c.receive ev).Balanced inside' := by
  cases inside with
  | false =>
    cases ev with
    | alternateScreenEnter => obtain rfl := some.inj hev; exact congrArg (· + 1) h
    | alternateScreenExit => cases hev
    | _ => obtain rfl := some.inj hev; exact h
  | true =>
    cases ev with
    | alternateScreenExit => obtain rfl := some.inj hev; exact h
    | _ => cases hev

theorem Balanced.receiveAll : ∀ {c : Consumer} {inside inside' : Bool},
    c.Balanced inside → events.foldlM screenStep inside = some inside' →
      (c.receiveAll events).Balanced inside' := by
  induction events with
  | nil => intro c inside inside' h hevents; obtain rfl := some.inj hevents; exact h
  | cons ev events ih =>
    intro c inside inside' h hevents; rw [foldlM_cons, bind_eq_bind, bind_eq_some_iff] at hevents
    obtain ⟨next, hnext, hevents⟩ := hevents; exact ih (h.receive hnext) hevents

theorem receiveAll_append (c : Consumer) {es fs : List AnsiEvent} :
    c.receiveAll (es ++ fs) = (c.receiveAll es).receiveAll fs := foldl_append

theorem style_receiveAll : ∀ {c d : Consumer}, c.style = d.style →
    (c.receiveAll events).style = (d.receiveAll events).style := by
  induction events with
  | nil => exact fun h => h
  | cons ev events ih =>
    intro c d h
    refine ih ?_; cases ev <;> first | exact h | rfl

end Consumer

/-! ## What reading does to the consumer -/

/-- The fields that the consumer depends on. -/
def look (p : AnsiParser) : AnsiParserProfile × Bool × Style × Style :=
  (p.profile, p.altScreenActive, p.emittedStyle, p.currentStyle)

/-- Outside the alternate screen the style emitted is the current one. -/
def Synced (p : AnsiParser) : Prop := p.altScreenActive = false → p.emittedStyle = p.currentStyle

def applySgr (style : Style) (params : List CsiParam) : Style :=
  if params.isEmpty then .default else sgrLoop .lineOriented 0 style params

/-- The style of who holds `style` and applies events. -/
def styleAfter (style : Style) (events : List AnsiEvent) : Style :=
  (Consumer.receiveAll ⟨style, 0, 0⟩ events).style

theorem styleAfter_append (style : Style) {es fs : List AnsiEvent} :
    styleAfter style (es ++ fs) = styleAfter (styleAfter style es) fs := by
  rw [styleAfter, styleAfter, styleAfter, Consumer.receiveAll_append]
  exact Consumer.style_receiveAll rfl

/-- Reading emits events that fit the screen, from which the consumer learns the emitted style, and
    applies the style sequences `seqs`. -/
structure Follows (p : AnsiParser) (seqs : List (List CsiParam))
    (out : List AnsiEvent × AnsiParser) : Prop where
  profile : out.2.profile = p.profile
  screens : out.1.foldlM screenStep p.altScreenActive = some out.2.altScreenActive
  emitted : styleAfter p.emittedStyle out.1 = out.2.emittedStyle
  current : out.2.currentStyle = seqs.foldl applySgr p.currentStyle
  synced : Synced p → Synced out.2

variable {seqs : List (List CsiParam)} {out : List AnsiEvent × AnsiParser} {p : AnsiParser}

theorem Follows.trans {seqs' : List (List CsiParam)}
    {out' : List AnsiEvent × AnsiParser} (h : Follows p seqs out)
    (h' : Follows out.2 seqs' out') : Follows p (seqs ++ seqs') (out.1 ++ out'.1, out'.2) := by
  refine ⟨h'.profile.trans h.profile, ?_, ?_, ?_, fun hs => h'.synced (h.synced hs)⟩
  · rw [foldlM_append, h.screens]; exact h'.screens
  · rw [styleAfter_append, h.emitted]; exact h'.emitted
  · rw [h'.current, h.current, foldl_append]

/-- An event that shows something and sets no style. -/
def Plain (ev : AnsiEvent) : Prop :=
  screenStep false ev = some false ∧ ∀ style, styleAfter style [ev] = style

variable {q : AnsiParser}

theorem Follows.plain (hlook : q.look = p.look) (hplain : ∀ ev ∈ events,
    Plain ev) (hhidden : p.altScreenActive = true → events = []) : Follows p [] (events, q) := by
  simp only [look, Prod.mk.injEq] at hlook
  obtain ⟨hprofile, halt, hemitted, hcurrent⟩ := hlook
  refine ⟨hprofile, ?_, ?_, hcurrent, fun hs hq => ?_⟩
  · rw [halt]
    cases hactive : p.altScreenActive with
    | true => rw [hhidden hactive]; rfl
    | false =>
      clear hhidden
      induction events with
      | nil => rfl
      | cons ev events ih =>
        rw [foldlM_cons, (hplain ev mem_cons_self).1]
        exact ih fun ev' hev' => hplain ev' (mem_cons_of_mem ev hev')
  · show styleAfter p.emittedStyle events = q.emittedStyle
    rw [hemitted]
    clear hhidden
    induction events with
    | nil => rfl
    | cons ev events ih =>
      rw [← singleton_append, styleAfter_append, (hplain ev mem_cons_self).2]
      exact ih fun ev' hev' => hplain ev' (mem_cons_of_mem ev hev')
  · rw [hemitted, hcurrent]; exact hs (halt.symm.trans hq)

theorem Follows.silent (hlook : q.look = p.look) : Follows p [] ([], q) :=
  .plain hlook (fun _ h => absurd h not_mem_nil) fun _ => rfl

theorem Follows.quiet (h : Follows p seqs out) (hlook : q.look = out.2.look) :
    Follows p seqs (out.1, q) := by
  have hall := h.trans (Follows.silent hlook)
  rwa [append_nil, append_nil] at hall

/-- Reading depends on the parser through what the consumer depends on. -/
theorem Follows.of_look {p' : AnsiParser} (hlook : p'.look = p.look) (h : Follows p' seqs out) :
    Follows p seqs out := by
  have hall := (Follows.silent hlook).trans h
  exact hall

/-! ## The functions that read -/

/-- Entering and leaving the alternate screen; leaving it shows the style set inside. -/
theorem follows_altScreenParam (set : Bool) (p : AnsiParser) (param : CsiParam) :
    Follows p [] (p.altScreenParam set param) := by
  simp only [altScreenParam]
  split_ifs with hmain henter hleave hstyle
  · -- an enter
    rw [Bool.and_eq_true, Bool.not_eq_true'] at henter
    refine ⟨rfl, ?_, rfl, rfl, by rintro - ⟨⟩⟩
    rw [henter.2]; rfl
  · -- an exit, and the style set inside
    rw [Bool.and_eq_true] at hleave
    have hvisible : suppressVisible { p with altScreenActive := false } = false := by
      rw [suppressVisible, Bool.and_false]
    rw [emitSetStyle, hvisible]
    refine ⟨rfl, ?_, rfl, rfl, fun _ _ => rfl⟩
    rw [hleave.2]; rfl
  · -- an exit with the style already shown
    rw [Bool.and_eq_true] at hleave
    refine ⟨rfl, ?_, rfl, rfl, fun _ _ => ?_⟩
    · rw [hleave.2]; rfl
    · exact (not_not.1 hstyle).symm
  · exact .silent rfl
  · exact .silent rfl

section

variable (hp : p.profile = .lineOriented)

include hp

theorem suppressVisible_eq : p.suppressVisible = p.altScreenActive := by
  rw [suppressVisible, hp]
  exact Bool.true_and _

theorem follows_pushVisible (hlook : q.look = p.look) (hev : Plain ev) :
    Follows p [] (p.pushVisible ev, q) := by
  refine .plain hlook ?_ fun hactive => ?_
  · intro ev' hev'; rw [pushVisible] at hev'
    split_ifs at hev'
    · cases hev'
    · rw [mem_singleton.1 hev']; exact hev
  · rw [pushVisible, suppressVisible_eq hp, hactive]; rfl

theorem follows_takeTextRun : Follows p [] p.takeTextRun := by
  rw [takeTextRun, textEvents]
  split_ifs
  · exact .silent rfl
  have hlook : look { p with textRun := [] } = p.look := rfl
  exact follows_pushVisible hp hlook ⟨rfl, fun _ => rfl⟩

theorem follows_flushTextRun : Follows p [] p.flushTextRun := by
  have hlook : p.flushPendingUtf8AsReplacement.look = p.look := by
    rw [flushPendingUtf8AsReplacement]
    split_ifs <;> rfl
  exact .of_look hlook (follows_takeTextRun ((congrArg Prod.fst hlook).trans hp))

theorem follows_flushThen (hev : Plain ev) : Follows p [] (p.flushThen ev) := by
  have hflush := follows_flushTextRun hp
  exact hflush.trans (follows_pushVisible (hflush.profile.trans hp) rfl hev)

theorem follows_emitSetStyle {style : Style} (hstyle : style = seqs.foldl applySgr p.currentStyle) :
    Follows p seqs (emitSetStyle { p with currentStyle := style }) := by
  have hsuppress : suppressVisible { p with currentStyle := style } = p.altScreenActive :=
    suppressVisible_eq hp
  rw [emitSetStyle, hsuppress]
  split_ifs with hactive
  · refine ⟨rfl, rfl, rfl, hstyle, fun _ h => ?_⟩
    rw [show p.altScreenActive = false from h] at hactive; exact absurd hactive Bool.false_ne_true
  rw [Bool.not_eq_true] at hactive
  refine ⟨rfl, ?_, rfl, hstyle, fun _ _ => rfl⟩
  rw [hactive]; rfl

variable {params : List CsiParam}

theorem follows_dispatchSgr : Follows p [params] (p.dispatchSgr params) := by
  have hstyle : (if params.isEmpty then Style.default else sgrLoop p.profile 0 p.currentStyle params) =
      [params].foldl applySgr p.currentStyle := by rw [hp]; rfl
  rw [dispatchSgr]
  split_ifs with hempty
  · rw [if_pos hempty] at hstyle; exact follows_emitSetStyle hp hstyle
  · rw [if_neg hempty] at hstyle; exact follows_emitSetStyle hp hstyle

theorem follows_run_altScreenParam {set : Bool} :
    Follows p [] (Machine.run (altScreenParam set) p params) := by
  induction params generalizing p with
  | nil => exact .silent rfl
  | cons param params ih =>
    have hone := follows_altScreenParam set p param; exact hone.trans (ih (hone.profile.trans hp))

theorem follows_dispatchCsiLineOriented (marker : Option Char)
    (finalByte : Char) : Follows p [] (p.dispatchCsiLineOriented marker params finalByte) := by
  rw [dispatchCsiLineOriented.eq_def]
  split
  · split
    · exact follows_pushVisible hp rfl ⟨rfl, fun _ => rfl⟩
    · exact follows_pushVisible hp rfl ⟨rfl, fun _ => rfl⟩
    · exact .silent rfl
  · split
    · exact follows_pushVisible hp rfl ⟨rfl, fun _ => rfl⟩
    · exact follows_pushVisible hp rfl ⟨rfl, fun _ => rfl⟩
    · exact .silent rfl
  · exact follows_run_altScreenParam hp
  · exact follows_run_altScreenParam hp
  · exact .silent rfl

end

/-- The style sequence that a final byte completes: `m` without a marker. -/
def sgrOf (p : AnsiParser) (b : UInt8) : List (List CsiParam) :=
  if p.csi.privateMarker.isNone && asChar b == 'm' then [p.csi.finalize] else []

theorem sgrOf_eq_nil {b : UInt8} (hb : ¬ (0x40 ≤ b ∧ b ≤ 0x7E)) : p.sgrOf b = [] := by
  rw [sgrOf, if_neg]
  intro h
  rw [Bool.and_eq_true, beq_iff_eq] at h
  rw [show b = 0x6D from asChar_inj h.2] at hb
  exact hb (by decide)

theorem not_final_of_collect {c csi : CsiCollector} {b : UInt8} (h : collect c b = some csi) :
    ¬ (0x40 ≤ b ∧ b ≤ 0x7E) := by
  rw [collect] at h
  split_ifs at h with hdigit hcolon hsemi
  · rintro ⟨hlow, -⟩; have hhigh := hdigit.2
    simp only [UInt8.le_iff_toNat_le, UInt8.reduceToNat] at hlow hhigh; omega
  · rw [show b = 0x3A from asChar_inj hcolon]; decide
  · rw [show b = 0x3B from asChar_inj hsemi]; decide

/-- The style sequence that a byte completes: in a control sequence, within its byte limit. -/
def sgrRead (p : AnsiParser) (b : UInt8) : List (List CsiParam) :=
  if p.state = .csiEntry ∨ p.state = .csiParam ∨ p.state = .csiIntermediate then
    if p.unknownSequenceByteLimit < min (p.ignoreByteCount + 1) usizeMax then [] else p.sgrOf b
  else []

section

variable (hp : p.profile = .lineOriented)

include hp

variable (b : UInt8)

theorem follows_dispatchCsi : Follows p (p.sgrOf b) (p.dispatchCsi b) := by
  have hone : Follows p (p.sgrOf b)
      (if p.csi.privateMarker.isNone && asChar b == 'm' then p.dispatchSgr p.csi.finalize
        else p.dispatchCsiLineOriented (p.csi.privateMarker.map asChar) p.csi.finalize
          (asChar b)) := by
    rw [sgrOf]
    split_ifs
    · exact follows_dispatchSgr hp
    · exact follows_dispatchCsiLineOriented hp _ _
  have hnone : (p.csi.privateMarker.map asChar).isNone = p.csi.privateMarker.isNone := isNone_map
  simp only [dispatchCsi, hnone, hp, if_true]
  exact hone.quiet rfl

theorem follows_dispatchCsiAndRecover : Follows p (p.sgrOf b) (p.dispatchCsiAndRecover b) :=
  (follows_dispatchCsi hp b).quiet rfl

theorem follows_feedCsiIntermediate : Follows p (p.sgrOf b) (p.feedCsiIntermediate b) := by
  rw [feedCsiIntermediate]
  split_ifs with hinter hfinal
  · rw [sgrOf_eq_nil]
    · exact .silent rfl
    rintro ⟨hlow, -⟩; have hhigh := hinter.2
    simp only [UInt8.le_iff_toNat_le, UInt8.reduceToNat] at hlow hhigh; omega
  · exact follows_dispatchCsiAndRecover hp b
  · rw [sgrOf_eq_nil hfinal]; exact .silent rfl

theorem follows_feedCsiParam : Follows p (p.sgrOf b) (p.feedCsiParam b) := by
  rw [feedCsiParam]
  split
  · rename_i csi hcollect; rw [sgrOf_eq_nil (not_final_of_collect hcollect)]; exact .silent rfl
  · exact follows_feedCsiIntermediate hp b

theorem follows_feedCsiEntry : Follows p (p.sgrOf b) (p.feedCsiEntry b) := by
  rw [feedCsiEntry]
  split_ifs with hmarker
  · rw [sgrOf_eq_nil]
    · exact .silent rfl
    rintro ⟨hlow, -⟩; have hhigh := hmarker.2
    simp only [UInt8.le_iff_toNat_le, UInt8.reduceToNat] at hlow hhigh; omega
  · exact follows_feedCsiParam hp b

theorem follows_feedGround : Follows p [] (p.feedGround b) := by
  rw [feedGround, if_pos hp]
  split_ifs
  · refine follows_flushThen hp ?_; exact ⟨rfl, fun _ => rfl⟩
  · refine follows_flushThen hp ?_; exact ⟨rfl, fun _ => rfl⟩
  · rw [pushTextByte_eq]; exact .silent rfl
  · exact .silent rfl

theorem follows_feedEscape : Follows p [] (p.feedEscape b) := by
  have hnone : ∀ events : List AnsiEvent,
      (if p.profile = .fullScreen then events else []) = [] := by intro events; rw [hp]; rfl
  rw [feedEscape, hnone]
  split_ifs <;> exact .silent rfl

theorem follows_feedEscapeIntermediate : Follows p [] (p.feedEscapeIntermediate b) := by
  have hnone : ∀ slot charset, (if p.profile = .fullScreen then
      [AnsiEvent.designateCharacterSet slot charset] else []) = [] := by
    intro slot charset; rw [hp]; rfl
  simp only [feedEscapeIntermediate, hnone]
  split_ifs
  · exact .silent rfl
  · split <;> exact .silent rfl
  · exact .silent rfl

theorem follows_dispatchOsc : Follows p [] p.dispatchOsc := by
  have hguard : ∀ {ev : AnsiEvent}, Plain ev → p.suppressVisible = false →
      Follows p [] ([ev], { p with oscBody := [] }) := by
    intro ev hev hvisible; have hlook : look { p with oscBody := [] } = p.look := rfl
    refine .plain hlook (fun ev' hev' => ?_) fun hactive => ?_
    · rw [mem_singleton.1 hev']; exact hev
    · rw [suppressVisible_eq hp, hactive] at hvisible; cases hvisible
  have hnone : Follows p [] ([], { p with oscBody := [] }) := .silent rfl
  simp only [dispatchOsc]
  split_ifs with hprompt htitle
  · rw [Bool.and_eq_true, Bool.not_eq_true'] at hprompt
    split
    · exact hguard ⟨rfl, fun _ => rfl⟩ hprompt.2
    · exact hguard ⟨rfl, fun _ => rfl⟩ hprompt.2
    · exact hguard ⟨rfl, fun _ => rfl⟩ hprompt.2
    · exact hguard ⟨rfl, fun _ => rfl⟩ hprompt.2
    · exact hnone
  · rw [Bool.and_eq_true, Bool.not_eq_true'] at htitle; exact hguard ⟨rfl, fun _ => rfl⟩ htitle.2
  · exact hnone

theorem follows_dispatchOscAndRecover : Follows p [] p.dispatchOscAndRecover :=
  (follows_dispatchOsc hp).quiet rfl

/-- Inside a control sequence a byte may complete a style sequence. -/
theorem follows_feedState_csi (hcsi : p.state = .csiEntry ∨ p.state = .csiParam ∨
    p.state = .csiIntermediate) (b : UInt8) : Follows p (p.sgrOf b) (feedState again p b) := by
  rcases hcsi with h | h | h
  · simp only [feedState, h]; exact follows_feedCsiEntry hp b
  · simp only [feedState, h]; exact follows_feedCsiParam hp b
  · simp only [feedState, h]; exact follows_feedCsiIntermediate hp b

theorem follows_feedState
    (hagain : ∀ (q : AnsiParser) (b : UInt8), q.profile = .lineOriented → q.state = .escape →
      Follows q [] (again q b))
    (hcsi : ¬ (p.state = .csiEntry ∨ p.state = .csiParam ∨ p.state = .csiIntermediate))
    (b : UInt8) : Follows p [] (feedState again p b) := by
  cases h : p.state with
  | ground => simp only [feedState, h]; exact follows_feedGround hp b
  | escape => simp only [feedState, h]; exact follows_feedEscape hp b
  | escapeIntermediate => simp only [feedState, h]; exact follows_feedEscapeIntermediate hp b
  | escapeIgnore =>
    simp only [feedState, h, feedEscapeIgnore]
    split_ifs <;> exact .silent rfl
  | csiEntry => exact absurd (.inl h) hcsi
  | csiParam => exact absurd (.inr (.inl h)) hcsi
  | csiIntermediate => exact absurd (.inr (.inr h)) hcsi
  | csiIgnore =>
    simp only [feedState, h, feedCsiIgnore]
    split_ifs <;> exact .silent rfl
  | oscString =>
    simp only [feedState, h, feedOscString]
    split_ifs
    · exact follows_dispatchOscAndRecover hp
    · exact .silent rfl
    · exact .silent rfl
    · exact .silent rfl
  | oscEscPending =>
    simp only [feedState, h, feedOscEscPending]
    split_ifs
    · exact follows_dispatchOscAndRecover hp
    have hlook : look { p with oscBody := [], ignoreByteCount := 0, state := .escape } = p.look :=
      rfl
    exact .of_look hlook (hagain _ b hp rfl)
  | oscIgnore =>
    simp only [feedState, h, feedOscIgnore]
    split_ifs <;> exact .silent rfl
  | _ => simp only [feedState, h]; exact .silent rfl

end

theorem look_overLimit : p.overLimit.look = p.look := by
  rw [overLimit]
  split <;> rfl

theorem sgrRead_csi (hcsi : p.state = .csiEntry ∨ p.state = .csiParam ∨ p.state = .csiIntermediate)
    (hroom : ¬ p.unknownSequenceByteLimit < min (p.ignoreByteCount + 1) usizeMax) {b : UInt8} :
    p.sgrRead b = p.sgrOf b := by
  rw [sgrRead, if_pos hcsi, if_neg hroom]

theorem sgrRead_eq_nil {b : UInt8}
    (h : ¬ (p.state = .csiEntry ∨ p.state = .csiParam ∨ p.state = .csiIntermediate) ∨
      p.unknownSequenceByteLimit < min (p.ignoreByteCount + 1) usizeMax ∨
      ¬ (0x40 ≤ b ∧ b ≤ 0x7E)) : p.sgrRead b = [] := by
  rw [sgrRead]
  split_ifs with hcsi hover
  · rfl
  · rcases h with h | h | h
    · exact absurd hcsi h
    · exact absurd h hover
    · exact sgrOf_eq_nil h
  · rfl

theorem follows_feedByteWith
    (hagain : ∀ (q : AnsiParser) (b : UInt8), q.profile = .lineOriented → q.state = .escape →
      Follows q [] (again q b)) (hp : p.profile = .lineOriented) {b : UInt8} :
    Follows p (p.sgrRead b) (feedByteWith again p b) := by
  have hflush := follows_flushTextRun hp
  simp only [feedByteWith]
  split_ifs with hesc hcancel hcounted hover
  · rw [sgrRead_eq_nil (.inr (.inr (by rw [hesc.1]; decide)))]; exact hflush.quiet rfl
  · rw [sgrRead_eq_nil (.inr (.inr (by rcases hcancel with rfl | rfl <;> decide)))]
    exact hflush.quiet rfl
  · rw [sgrRead_eq_nil (.inr (.inl hover))]; exact .silent (look_overLimit)
  · have hlook : look { p with ignoreByteCount := min (p.ignoreByteCount + 1) usizeMax } = p.look :=
      rfl
    by_cases hcsi : p.state = .csiEntry ∨ p.state = .csiParam ∨ p.state = .csiIntermediate
    · rw [sgrRead_csi hcsi hover]
      exact .of_look hlook (follows_feedState_csi
        (p := { p with ignoreByteCount := min (p.ignoreByteCount + 1) usizeMax }) hp hcsi b)
    rw [sgrRead_eq_nil (.inl hcsi)]
    exact .of_look hlook (follows_feedState
      (p := { p with ignoreByteCount := min (p.ignoreByteCount + 1) usizeMax }) hp hagain hcsi b)
  have hcsi : ¬ (p.state = .csiEntry ∨ p.state = .csiParam ∨ p.state = .csiIntermediate) := by
    rintro (h | h | h) <;> rw [h] at hcounted <;> exact hcounted rfl
  rw [sgrRead_eq_nil (.inl hcsi)]; exact follows_feedState hp hagain hcsi b

/-- **One byte**: events that fit the screen, and the style sequence it completes. -/
theorem follows_feedByte (hp : p.profile = .lineOriented) {b : UInt8} :
    Follows p (p.sgrRead b) (p.feedByte b) := by
  refine follows_feedByteWith (fun q b hq hescape => ?_) hp
  have hnone : q.sgrRead b = [] := by
    refine sgrRead_eq_nil (.inl ?_); rw [hescape]; rintro (h | h | h) <;> cases h
  rw [← hnone]
  -- from the state `escape` there is no second call
  refine follows_feedByteWith (fun r c _ _ => ?_) hq
  exact .silent rfl

/-! ## The end of a stream -/

theorem follows_finish_flush (hp : p.profile = .lineOriented) :
    ∃ events, p.finish.1 = p.flushTextRun.1 ++ events ∧
      events = (if p.altScreenActive then [AnsiEvent.alternateScreenExit] else []) ++
        (if p.emittedStyle ≠ .default then [AnsiEvent.setStyle .default] else []) := by
  refine ⟨_, ?_, rfl⟩
  simp [finish, hp]

/-- The end of a stream leaves the alternate screen and sets the style back. -/
theorem finish_closes (hp : p.profile = .lineOriented) :
    p.finish.1.foldlM screenStep p.altScreenActive = some false ∧
      styleAfter p.emittedStyle p.finish.1 = .default := by
  have hflush := follows_flushTextRun hp
  obtain ⟨events, hfinish, hevents⟩ := follows_finish_flush hp
  have hlook : p.flushTextRun.2.look = p.look := by
    simp only [flushTextRun, takeTextRun, flushPendingUtf8AsReplacement]
    split_ifs <;> rfl
  simp only [look, Prod.mk.injEq] at hlook
  have hscreens := hflush.screens
  have hemitted := hflush.emitted
  rw [hlook.2.1] at hscreens
  rw [hlook.2.2.1] at hemitted
  rw [hfinish, foldlM_append, hscreens, styleAfter_append, hemitted, hevents]
  by_cases hstyle : p.emittedStyle = .default
  · rw [if_neg (not_not.2 hstyle), append_nil]
    cases p.altScreenActive with
    | true | false => exact ⟨rfl, hstyle⟩
  rw [if_pos hstyle]
  cases p.altScreenActive with
  | true | false => exact ⟨rfl, rfl⟩

/-! ## A stream -/

/-- A stream: its parser, the events emitted so far, and the style that the style sequences read so
    far denote. -/
structure LineStream where
  parser : AnsiParser
  events : List AnsiEvent
  denoted : Style
deriving DecidableEq, Repr

namespace LineStream

inductive Call where
  | byte (b : UInt8)
  | endFeed
  | finish
deriving DecidableEq, Repr

def start (byteLimit : ℕ) : LineStream :=
  ⟨withProfileAndConfig .lineOriented byteLimit, [], .default⟩

/-- A byte, the end of a chunk, or the end of a stream, after which a new one begins. -/
def step (s : LineStream) : Call → LineStream
  | .byte b =>
    { parser := (s.parser.feedByte b).2
      events := s.events ++ (s.parser.feedByte b).1
      denoted := (s.parser.sgrRead b).foldl applySgr s.denoted }
  | .endFeed =>
    { s with parser := s.parser.takeTextRun.2, events := s.events ++ s.parser.takeTextRun.1 }
  | .finish =>
    { parser := s.parser.finish.2, events := s.events ++ s.parser.finish.1, denoted := .default }

def run (s : LineStream) (calls : List Call) : LineStream := calls.foldl step s

def consumer (s : LineStream) : Consumer := Consumer.new.receiveAll s.events

/-- What every call keeps. -/
structure Kept (s : LineStream) : Prop where
  profile : s.parser.profile = .lineOriented
  screens : s.events.foldlM screenStep false = some s.parser.altScreenActive
  emitted : s.consumer.style = s.parser.emittedStyle
  current : s.parser.currentStyle = s.denoted
  synced : Synced s.parser

theorem kept_start (byteLimit : ℕ) : Kept (start byteLimit) :=
  ⟨rfl, rfl, rfl, rfl, fun _ => rfl⟩

variable {s : LineStream}

theorem Kept.style_append (h : s.Kept) (events : List AnsiEvent) :
    (Consumer.new.receiveAll (s.events ++ events)).style =
      styleAfter s.parser.emittedStyle events := by
  rw [Consumer.receiveAll_append]
  exact Consumer.style_receiveAll h.emitted

theorem Kept.follows (h : s.Kept) (hout : Follows s.parser seqs out) :
    Kept ⟨out.2, s.events ++ out.1, seqs.foldl applySgr s.denoted⟩ := by
  refine ⟨hout.profile.trans h.profile, ?_, (h.style_append _).trans hout.emitted, ?_,
    hout.synced h.synced⟩
  · rw [foldlM_append, h.screens]; exact hout.screens
  · rw [hout.current, h.current]

theorem Kept.step (h : s.Kept) (call : Call) : (s.step call).Kept := by
  cases call with
  | byte b => exact h.follows (follows_feedByte h.profile)
  | endFeed => exact h.follows (follows_takeTextRun h.profile)
  | finish =>
    obtain ⟨hscreens, hstyle⟩ := finish_closes h.profile
    refine ⟨?_, ?_, (h.style_append _).trans hstyle, rfl, fun _ => rfl⟩
    · exact (follows_flushTextRun h.profile).profile.trans h.profile
    show (s.events ++ s.parser.finish.1).foldlM screenStep false = some false
    rw [foldlM_append, h.screens]; exact hscreens

theorem Kept.run (h : s.Kept) (calls : List Call) : (s.run calls).Kept := by
  induction calls generalizing s with
  | nil => exact h
  | cons call calls ih => exact ih (h.step call)

theorem Kept.balanced (h : s.Kept) : s.consumer.Balanced s.parser.altScreenActive :=
  Consumer.Balanced.receiveAll (show Consumer.new.Balanced false from rfl) h.screens

/-- **What the consumer is shown**: however a stream is cut and ended, the events fit the screen, so
    that screens are entered and left in turn and inside one nothing is shown; a consumer that has
    left the screens it entered holds the style denoted; and at the end it is outside with the
    default style. -/
theorem consumer_style (byteLimit : ℕ) (calls : List Call) :
    (∃ inside, ((start byteLimit).run calls).events.foldlM screenStep false = some inside) ∧
      (((start byteLimit).run calls).consumer.exits =
          ((start byteLimit).run calls).consumer.enters →
        ((start byteLimit).run calls).consumer.style = ((start byteLimit).run calls).denoted) ∧
      ((start byteLimit).run (calls ++ [.finish])).consumer.exits =
        ((start byteLimit).run (calls ++ [.finish])).consumer.enters ∧
      ((start byteLimit).run (calls ++ [.finish])).consumer.style = .default := by
  have hkept := (kept_start byteLimit).run calls
  have hend := (kept_start byteLimit).run (calls ++ [.finish])
  refine ⟨⟨_, hkept.screens⟩, fun hseen => ?_, ?_, ?_⟩
  · have houtside : ((start byteLimit).run calls).parser.altScreenActive = false := by
      have hbalanced := hkept.balanced; rw [Consumer.Balanced, hseen] at hbalanced
      cases hactive : ((start byteLimit).run calls).parser.altScreenActive with
      | false => rfl
      | true => rw [hactive, Bool.toNat_true] at hbalanced; omega
    rw [hkept.emitted, hkept.synced houtside, hkept.current]
  · have hbalanced := hend.balanced
    have houtside : ((start byteLimit).run (calls ++ [.finish])).parser.altScreenActive = false := by
      rw [run, foldl_append]; rfl
    rw [Consumer.Balanced, houtside, Bool.toNat_false] at hbalanced; exact hbalanced.symm
  · rw [hend.emitted, run, foldl_append]; rfl

/-- `ESC [ 1 m` inside the alternate screen, shown on leaving it. -/
def hiddenBold : List Call :=
  ([0x1B, 0x5B, 0x3F, 0x31, 0x30, 0x34, 0x39, 0x68, 0x61, 0x1B, 0x5B, 0x31, 0x6D, 0x1B, 0x5B, 0x3F,
    0x31, 0x30, 0x34, 0x39, 0x6C] : Bytes).map Call.byte

theorem consumer_style_hiddenBold :
    ((start defaultByteLimit).run hiddenBold).consumer.style =
    { Style.default with bold := true } :=
  ((consumer_style defaultByteLimit hiddenBold).2.1 (by decide +kernel)).trans (by decide +kernel)

end LineStream

end AnsiParser

end Pmacs
