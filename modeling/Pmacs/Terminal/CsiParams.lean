/-
  The parameters of a control sequence (ansi.rs).

  * `CsiCollector.reference`: what a parameter string says, split at `;`, its groups at `:`;
  * `finalize_collectAll`: the collector hands over that list, without the last group when it is
    empty and nothing of it was read;
  * `Fed`: the parsers that bytes and calls lead to; one that enters a sequence has nothing collected;
  * `handed_eq_reference_iff`: what a whole sequence hands to `dispatchCsi`.
-/
import Pmacs.Terminal.AnsiChunks

namespace Pmacs

open Lib List Option Machine AnsiParser

namespace CsiCollector

/-! ## What a parameter string says -/

/-- A digit, `:` or `;`. -/
def IsParam (b : UInt8) : Prop := 0x30 ≤ b ∧ b ≤ 0x3B

instance (b : UInt8) : Decidable (IsParam b) := inferInstanceAs (Decidable (_ ∧ _))

/-- The number that digits denote, the largest `u32` when it is larger, `0` of none. -/
def number (digits : Bytes) : ℕ :=
  min (digits.foldl (fun n b => 10 * n + (b.toNat - 0x30)) 0) u32Max

/-- A group: the value before its first `:`, and those after. -/
def referenceGroup (group : Bytes) : CsiParam :=
  match group.splitOn 0x3A with
  | [] => ⟨0, []⟩
  | main :: subs => ⟨number main, subs.map number⟩

variable (c : CsiCollector) (s : Bytes)

/-- The parameters a string says: none of an empty string, otherwise its groups. -/
def reference : List CsiParam :=
  if s.isEmpty then [] else (s.splitOn 0x3B).map referenceGroup

def collectAll : CsiCollector :=
  s.foldl (fun c b => (AnsiParser.collect c b).getD c) c

/-! ## A collector with a group in progress -/

/-- Digits read after `acc`. -/
def numberFrom (acc : Option ℕ) (digits : Bytes) : ℕ :=
  digits.foldl (fun n b => accDigit n (b.toNat - 0x30)) (acc.getD 0)

def completeGroup (group : Bytes) : CsiParam :=
  match group.splitOn 0x3A with
  | [] => ⟨0, []⟩
  | part :: parts =>
    if c.inSubs then
      ⟨c.currentMain.getD 0,
        c.currentSubs ++ numberFrom c.currentSubAcc part :: parts.map (numberFrom none)⟩
    else ⟨numberFrom c.currentMain part, parts.map (numberFrom none)⟩

/-- All groups, with what is left of the string. -/
def resume : List CsiParam :=
  match s.splitOn 0x3B with
  | [] => []
  | group :: groups => c.params ++ c.completeGroup group :: groups.map (completeGroup .default)

/-- Outside subparameters none are kept. -/
def Tidy : Prop := c.inSubs = false → c.currentSubs = [] ∧ c.currentSubAcc = none

/-- Something of the group in progress was read. -/
def pending : Bool := c.currentMain.isSome || c.inSubs

theorem foldl_accDigit {digits : Bytes} (n : ℕ) :
    digits.foldl (fun n b => accDigit n (b.toNat - 0x30)) (min n u32Max) =
      min (digits.foldl (fun n b => 10 * n + (b.toNat - 0x30)) n) u32Max := by
  induction digits generalizing n with
  | nil => rfl
  | cons b digits ih =>
    have hstep : accDigit (min n u32Max) (b.toNat - 0x30) =
        min (10 * n + (b.toNat - 0x30)) u32Max := by
      rw [accDigit]; omega
    rw [foldl_cons, foldl_cons, hstep, ih]

theorem numberFrom_none (digits : Bytes) : numberFrom none digits = number digits :=
  foldl_accDigit 0

theorem completeGroup_default (group : Bytes) :
    completeGroup .default group = referenceGroup group := by
  have hnumber : numberFrom none = number := funext numberFrom_none
  rw [completeGroup, referenceGroup]
  cases group.splitOn 0x3A with
  | nil => rfl
  | cons part parts => simp [default, hnumber]

theorem resume_default : resume .default s = (s.splitOn 0x3B).map referenceGroup := by
  rw [resume]
  cases hs : s.splitOn 0x3B with
  | nil => rfl
  | cons group groups =>
    simp only [default, nil_append, map_cons]
    rw [← default, completeGroup_default, funext completeGroup_default]

/-! ## One byte -/

theorem splitOn_cons_self {sep : UInt8} {s : Bytes} : (sep :: s).splitOn sep = [] ::
    s.splitOn sep := by
  rw [splitOn, splitOnP_cons_eq_if_modifyHead, if_pos (beq_self_eq_true sep), splitOn]

theorem splitOn_cons_of_ne {b sep : UInt8} (h : b ≠ sep) {s : Bytes} :
    (b :: s).splitOn sep = (s.splitOn sep).modifyHead (cons b) := by
  rw [splitOn, splitOnP_cons_eq_if_modifyHead, if_neg (by simpa using h), splitOn]

theorem splitOn_ne_nil (sep : UInt8) (s : Bytes) : ∃ g gs, s.splitOn sep = g :: gs :=
  exists_cons_of_ne_nil (splitOnP_ne_nil _ s)

variable {group : Bytes}

theorem resume_eq {s : Bytes} {groups : List Bytes} (h : s.splitOn 0x3B = group :: groups) :
    c.resume s = c.params ++ c.completeGroup group :: groups.map (completeGroup .default) := by
  rw [resume, h]

theorem completeGroup_digit {b : UInt8} (h : b ≠ 0x3A) :
    (c.pushDigit (b.toNat - 0x30)).completeGroup group = c.completeGroup (b :: group) := by
  obtain ⟨part, parts, hparts⟩ := splitOn_ne_nil 0x3A group
  rw [completeGroup, completeGroup, splitOn_cons_of_ne h, hparts, modifyHead_cons, pushDigit]
  cases hsubs : c.inSubs with
  | true => rfl
  | false => rfl

theorem completeGroup_colon {c : CsiCollector} (hc : c.Tidy) :
    c.pushColon.completeGroup group = c.completeGroup (0x3A :: group) := by
  obtain ⟨part, parts, hparts⟩ := splitOn_ne_nil 0x3A group
  rw [completeGroup, completeGroup, splitOn_cons_self, hparts, pushColon]
  cases hsubs : c.inSubs with
  | true => simp only [if_true, append_assoc, map_cons]; rfl
  | false =>
    obtain ⟨hnil, hnone⟩ := hc hsubs
    simp only [Bool.false_eq_true, if_false, if_true, hnil, hnone, nil_append, map_cons]; rfl

theorem completeGroup_nil {c : CsiCollector} (hc : c.Tidy) :
    c.completeGroup [] = ⟨c.currentMain.getD 0, c.closedSubs⟩ := by
  rw [completeGroup, splitOn_nil, closedSubs]
  cases hsubs : c.inSubs with
  | true => rfl
  | false => simp only [Bool.false_eq_true, if_false, (hc hsubs).1, map_nil]; rfl

theorem completeGroup_pushSemicolon (hc : c.Tidy) :
    c.pushSemicolon.completeGroup group = completeGroup .default group := by
  have hacc : (if c.inSubs = true then none else c.currentSubAcc) = none := by
    cases hsubs : c.inSubs with
    | true => rfl
    | false => simp [(hc hsubs).2]
  rfl

theorem collect_cases {b : UInt8} (h : IsParam b) (c : CsiCollector) :
    (b ≠ 0x3A ∧ b ≠ 0x3B ∧ collect c b = some (c.pushDigit (b.toNat - 0x30))) ∨
      (b = 0x3A ∧ collect c b = some c.pushColon) ∨
      (b = 0x3B ∧ collect c b = some c.pushSemicolon) := by
  obtain ⟨hlow, hhigh⟩ := h
  by_cases hdigit : b ≤ 0x39
  · refine .inl ⟨?_, ?_, ?_⟩
    · rintro rfl; exact absurd hdigit (by decide)
    · rintro rfl; exact absurd hdigit (by decide)
    · rw [collect, if_pos ⟨hlow, hdigit⟩]
  have hb : b = 0x3A ∨ b = 0x3B := by
    simp only [UInt8.le_iff_toNat_le, UInt8.reduceToNat, ← UInt8.toNat_inj] at *; omega
  rcases hb with rfl | rfl
  · exact .inr (.inl ⟨rfl, rfl⟩)
  · exact .inr (.inr ⟨rfl, rfl⟩)

/-- **One byte**: the collector stays tidy, what the string says stays the same, and something of
    the group in progress is read unless the byte ends it. -/
theorem resume_collect {c : CsiCollector} (hc : c.Tidy) {b : UInt8} (hb : IsParam b) (s : Bytes) :
    ∃ c', collect c b = some c' ∧ c'.Tidy ∧ c'.resume s = c.resume (b :: s) ∧
      (c'.pending = true ↔ b ≠ 0x3B) := by
  obtain ⟨group, groups, hgroups⟩ := splitOn_ne_nil 0x3B s
  rcases collect_cases hb c with ⟨hcolon, hsemi, hd⟩ | ⟨rfl, hd⟩ | ⟨rfl, hd⟩
  · refine ⟨_, hd, ?_, ?_, ?_⟩
    · rw [pushDigit]
      split_ifs with hsubs
      · exact fun h => absurd hsubs (by rw [h]; exact Bool.false_ne_true)
      · exact hc
    · have hcons : (b :: s).splitOn 0x3B = (b :: group) :: groups := by
        rw [splitOn_cons_of_ne hsemi, hgroups, modifyHead_cons]
      rw [resume_eq _ hgroups, resume_eq _ hcons, completeGroup_digit c hcolon]
      have hparams : (c.pushDigit (b.toNat - 0x30)).params = c.params := by
        rw [pushDigit]
        split_ifs <;> rfl
      rw [hparams]
    simp only [hsemi, ne_eq, not_false_eq_true, iff_true, pending, pushDigit]
    split_ifs with hsubs
    · rw [hsubs, Bool.or_true]
    · rfl
  · refine ⟨_, hd, ?_, ?_, ?_⟩
    · rw [pushColon]
      split_ifs with hsubs
      · exact fun h => absurd hsubs (by rw [h]; exact Bool.false_ne_true)
      · exact fun h => nomatch h
    · have hcons : (0x3A :: s).splitOn 0x3B = (0x3A :: group) :: groups := by
        rw [splitOn_cons_of_ne (by decide), hgroups, modifyHead_cons]
      rw [resume_eq _ hgroups, resume_eq _ hcons, completeGroup_colon hc]
      have hparams : c.pushColon.params = c.params := by
        rw [pushColon]
        split_ifs <;> rfl
      rw [hparams]
    refine ⟨fun _ => by decide, fun _ => ?_⟩; rw [pending, pushColon]
    split_ifs with hsubs
    · rw [hsubs, Bool.or_true]
    · rw [Bool.or_true]
  refine ⟨_, hd, fun _ => ⟨rfl, ?_⟩, ?_, ?_⟩
  · show (if c.inSubs = true then none else c.currentSubAcc) = none
    split_ifs with hsubs
    · rfl
    · exact (hc (by simpa using hsubs)).2
  · have hcons : (0x3B :: s).splitOn 0x3B = [] :: group :: groups := by
      rw [splitOn_cons_self, hgroups]
    rw [resume_eq _ hgroups, resume_eq _ hcons, completeGroup_nil hc,
      completeGroup_pushSemicolon c hc]
    simp only [pushSemicolon, append_assoc, map_cons]; rfl
  · exact ⟨(fun h => nomatch h), fun h => absurd rfl h⟩

/-! ## A whole string -/

/-- A collector hands over its groups, the one in progress if something of it was read. -/
theorem finalize_eq {c : CsiCollector} (hc : c.Tidy) :
    c.finalize = if c.pending then c.resume [] else (c.resume []).dropLast := by
  have hresume : c.resume [] = c.params ++ [⟨c.currentMain.getD 0, c.closedSubs⟩] := by
    rw [resume_eq c (splitOn_nil _), completeGroup_nil hc]; rfl
  have hpending : (c.currentMain.isSome || (c.inSubs || !c.currentSubs.isEmpty)) = c.pending := by
    rw [pending]
    cases hsubs : c.inSubs with
    | true => rw [Bool.true_or]
    | false => rw [(hc hsubs).1, isEmpty_nil, Bool.not_true, Bool.false_or]
  rw [finalize, hpending, hresume, dropLast_concat]

theorem resume_ne_nil : c.resume s ≠ [] := by
  obtain ⟨group, groups, hgroups⟩ := splitOn_ne_nil 0x3B s
  rw [resume, hgroups]
  simp

/-- **What the collector hands over**: all groups of the string, without the last one when
    nothing of it was read. -/
theorem finalize_collectAll {c : CsiCollector} (hc : c.Tidy) {s : Bytes} (hs : ∀ b ∈ s, IsParam b) :
    (c.collectAll s).finalize =
      if s.getLast? = some 0x3B ∨ (s = [] ∧ c.pending = false) then (c.resume s).dropLast
      else c.resume s := by
  induction s generalizing c with
  | nil => rw [collectAll, foldl_nil, finalize_eq hc]; cases c.pending <;> simp
  | cons b s ih =>
    obtain ⟨c', hc', htidy, hresume, hpending⟩ := resume_collect hc (hs b mem_cons_self) s
    have hstep : c.collectAll (b :: s) = c'.collectAll s := by
      rw [collectAll, foldl_cons, hc', getD_some, collectAll]
    rw [hstep, ih htidy fun b' hb' => hs b' (mem_cons_of_mem b hb'), hresume]
    congr 1
    cases s with
    | nil => rw [← Bool.not_eq_true, hpending]; simp
    | cons b' s' => simp

/-- From an empty collector: what the string says, exactly when it does not end with `;`. -/
theorem finalize_eq_reference_iff {c : CsiCollector} (hparams : c.params = [])
    (hmain : c.currentMain = none) (hsubs : c.currentSubs = []) (hacc : c.currentSubAcc = none)
    (hin : c.inSubs = false) {s : Bytes} (hs : ∀ b ∈ s, IsParam b) :
    (c.collectAll s).finalize = reference s ↔ s.getLast? ≠ some 0x3B := by
  have htidy : c.Tidy := fun _ => ⟨hsubs, hacc⟩
  have hpending : c.pending = false := by rw [pending, hmain, hin]; rfl
  have hresume : c.resume s = (s.splitOn 0x3B).map referenceGroup := by
    have hgroup : ∀ group, c.completeGroup group = completeGroup .default group := by
      intro group; rw [completeGroup, completeGroup, hmain, hsubs, hacc, hin]; rfl
    rw [← resume_default, resume, resume]
    cases s.splitOn 0x3B with
    | nil => rfl
    | cons group groups => dsimp only; rw [hparams, hgroup]; rfl
  rw [finalize_collectAll htidy hs, hpending, hresume, reference]
  cases s with
  | nil => simp
  | cons b s =>
    have hne : (splitOn 0x3B (b :: s)).map referenceGroup ≠ [] := by
      rw [← hresume]; exact resume_ne_nil c _
    by_cases hlast : (b :: s).getLast? = some 0x3B
    · rw [if_pos (.inl hlast), isEmpty_cons, if_neg Bool.false_ne_true]
      refine ⟨fun h => ?_, fun h => absurd hlast h⟩; have hlen := congrArg length h
      rw [length_dropLast] at hlen; have hpos := length_pos_iff.2 hne; omega
    rw [if_neg (by simpa using hlast), isEmpty_cons, if_neg Bool.false_ne_true]
    exact ⟨fun _ => hlast, fun _ => rfl⟩

/-- The marker and the intermediate bytes are not the parameters' concern. -/
theorem collect_keeps {c c' : CsiCollector} {b : UInt8} (h : collect c b = some c') :
    c'.privateMarker = c.privateMarker ∧ c'.intermediates = c.intermediates := by
  rw [collect] at h
  split_ifs at h
  · rw [← some.inj h, pushDigit]
    split_ifs <;> exact ⟨rfl, rfl⟩
  · rw [← some.inj h, pushColon]
    split_ifs <;> exact ⟨rfl, rfl⟩
  · rw [← some.inj h]; exact ⟨rfl, rfl⟩

theorem collectAll_keeps : (c.collectAll s).privateMarker = c.privateMarker ∧
      (c.collectAll s).intermediates = c.intermediates := by
  induction s generalizing c with
  | nil => exact ⟨rfl, rfl⟩
  | cons b s ih =>
    rw [collectAll, foldl_cons]
    cases h : collect c b with
    | none => exact ih c
    | some c' =>
      obtain ⟨hmarker, hinter⟩ := ih c'; obtain ⟨hmarker', hinter'⟩ := collect_keeps h
      exact ⟨hmarker.trans hmarker', hinter.trans hinter'⟩

end CsiCollector

namespace AnsiParser

open CsiCollector

/-! ## Entering a sequence -/

variable (p : AnsiParser)

/-- A parser that has just read the start of a control sequence has collected nothing. -/
def Entered : Prop := p.state = .csiEntry → p.csi = .default

theorem entered_of_ne {p : AnsiParser} (h : p.state ≠ .csiEntry) : Entered p :=
  fun hentry => absurd hentry h

theorem entered_feedCsiIntermediate {b : UInt8} : Entered (p.feedCsiIntermediate b).2 := by
  simp only [feedCsiIntermediate]
  split_ifs
  · exact entered_of_ne (by rintro ⟨⟩)
  · exact entered_of_ne (by rintro ⟨⟩)
  · exact entered_of_ne (by rintro ⟨⟩)

theorem entered_feedCsiParam {b : UInt8} : Entered (p.feedCsiParam b).2 := by
  rw [feedCsiParam]
  split
  · exact entered_of_ne (by rintro ⟨⟩)
  · exact entered_feedCsiIntermediate p

variable {again : AnsiParser → UInt8 → List AnsiEvent × AnsiParser}

/-- What a byte leads to has entered a sequence only by reading its start. -/
theorem entered_feedState
    (hagain : ∀ p b, p.state = .escape → Entered (again p b).2) {p : AnsiParser} {b : UInt8} :
    Entered (feedState again p b).2 := by
  rw [feedState]
  split
  · rename_i hground
    refine entered_of_ne ?_; rw [state_feedGround, hground]
    rintro ⟨⟩
  · rename_i hstate; have hp : Entered p := entered_of_ne (by rw [hstate]; rintro ⟨⟩)
    rw [feedEscape]
    -- the start of a sequence is the one state that matters here
    split_ifs <;> first | exact hp | exact fun _ => rfl | exact entered_of_ne (by rintro ⟨⟩)
  · rename_i hstate; have hp : Entered p := entered_of_ne (by rw [hstate]; rintro ⟨⟩)
    simp only [feedEscapeIntermediate]
    split_ifs <;> first | exact hp | exact entered_of_ne (by rintro ⟨⟩)
  · rename_i hstate; rw [feedEscapeIgnore]
    split_ifs
    · exact entered_of_ne (by rintro ⟨⟩)
    · exact entered_of_ne (by rw [hstate]; rintro ⟨⟩)
  · rw [feedCsiEntry]
    split_ifs
    · exact entered_of_ne (by rintro ⟨⟩)
    · exact entered_feedCsiParam p
  · exact entered_feedCsiParam p
  · exact entered_feedCsiIntermediate p
  · rename_i hstate; rw [feedCsiIgnore]
    split_ifs
    · exact entered_of_ne (by rintro ⟨⟩)
    · exact entered_of_ne (by rw [hstate]; rintro ⟨⟩)
  · rename_i hstate; rw [feedOscString]
    split_ifs
    · exact entered_of_ne (by rintro ⟨⟩)
    · exact entered_of_ne (by rintro ⟨⟩)
    · exact entered_of_ne (by rw [hstate]; rintro ⟨⟩)
    · exact entered_of_ne (by rw [hstate]; rintro ⟨⟩)
  · rw [feedOscEscPending]
    split_ifs
    · exact entered_of_ne (by rintro ⟨⟩)
    · exact hagain _ b rfl
  · rename_i hstate; rw [feedOscIgnore]
    split_ifs
    · exact entered_of_ne (by rintro ⟨⟩)
    · exact entered_of_ne (by rintro ⟨⟩)
    · exact entered_of_ne (by rw [hstate]; rintro ⟨⟩)
  all_goals
    rename_i hstate; exact entered_of_ne (by rw [hstate]; rintro ⟨⟩)

theorem entered_overLimit : Entered p.overLimit := by
  rw [overLimit]
  split <;> exact entered_of_ne (by rintro ⟨⟩)

theorem entered_feedByteWith
    (hagain : ∀ p b, p.state = .escape → Entered (again p b).2) {p : AnsiParser} {b : UInt8} :
    Entered (feedByteWith again p b).2 := by
  simp only [feedByteWith]
  split_ifs
  · exact entered_of_ne (by rintro ⟨⟩)
  · exact entered_of_ne (by rintro ⟨⟩)
  · exact entered_overLimit _
  · exact entered_feedState hagain
  · exact entered_feedState hagain

theorem entered_feedByte {b : UInt8} : Entered (p.feedByte b).2 := by
  refine entered_feedByteWith (fun q c _ => entered_feedByteWith (fun r d hr => ?_))
  exact entered_of_ne (by rw [hr]; exact nofun)

theorem Fed.entered {p : AnsiParser} (h : Fed p) : Entered p := by
  induction h with
  | start profile byteLimit => exact fun _ => rfl
  | feedByte b _ _ => exact entered_feedByte _
  | takeTextRun _ ih => exact ih
  | finish _ _ => exact fun _ => rfl
  | reset _ _ => exact fun _ => rfl

/-! ## The bytes of a sequence -/

/-- A byte read inside a sequence, within its byte limit, by the state's own function. -/
theorem feedByte_within {p : AnsiParser} {b : UInt8} (hesc : b ≠ 0x1B) (hcan : b ≠ 0x18)
    (hsub : b ≠ 0x1A) (hcounted : p.state.counted = true)
    (hroom : p.ignoreByteCount + 1 ≤ p.unknownSequenceByteLimit) :
    p.feedByte b = feedState feedByte
      { p with ignoreByteCount := min (p.ignoreByteCount + 1) usizeMax } b := by
  rw [feedByte_eq, feedByteWith, if_neg (fun h => hesc h.1), if_neg (by rintro (h | h) <;> contradiction),
    if_pos hcounted]
  exact if_neg (by show ¬ p.unknownSequenceByteLimit < min (p.ignoreByteCount + 1) usizeMax; omega)

/-- A sequence goes on: nothing is emitted, `csi` is what is collected, and at most `n` more bytes
    are counted. -/
structure GoesOn (p : AnsiParser) (n : ℕ) (csi : CsiCollector)
    (out : List AnsiEvent × AnsiParser) : Prop where
  events : out.1 = []
  csi : out.2.csi = csi
  counted : out.2.state.counted = true
  count : out.2.ignoreByteCount ≤ p.ignoreByteCount + n
  byteLimit : out.2.unknownSequenceByteLimit = p.unknownSequenceByteLimit

theorem GoesOn.trans {p : AnsiParser} {n n' : ℕ} {csi csi' : CsiCollector} {as bs : Bytes}
    (h : GoesOn p n csi (run feedByte p as))
    (h' : GoesOn (run feedByte p as).2 n' csi'
      (run feedByte (run feedByte p as).2 bs)) :
    GoesOn p (n + n') csi' (run feedByte p (as ++ bs)) := by
  have hcount := h'.count
  have hcount' := h.count
  rw [run_append]
  refine ⟨?_, h'.csi, h'.counted, ?_, h'.byteLimit.trans h.byteLimit⟩
  · rw [h.events, h'.events, append_nil]
  show (run feedByte (run feedByte p as).2 bs).2.ignoreByteCount ≤ _
  omega

theorem GoesOn.cons {p : AnsiParser} {n n' : ℕ} {csi csi' : CsiCollector} {b : UInt8} {bs : Bytes}
    (h : GoesOn p n csi (p.feedByte b))
    (h' : GoesOn (p.feedByte b).2 n' csi' (run feedByte (p.feedByte b).2 bs)) :
    GoesOn p (n + n') csi' (run feedByte p (b :: bs)) := by
  have hone : GoesOn p n csi (run feedByte p [b]) := by
    simpa only [run, append_nil] using h
  exact hone.trans h'

theorem isParam_ne {b : UInt8} (h : IsParam b) : b ≠ 0x1B ∧ b ≠ 0x18 ∧ b ≠ 0x1A := by
  obtain ⟨hlow, -⟩ := h
  refine ⟨?_, ?_, ?_⟩ <;> rintro rfl <;> exact absurd hlow (by decide)

theorem feedByte_param {p : AnsiParser} (hstate : p.state = .csiEntry ∨ p.state = .csiParam)
    {b : UInt8} (hb : IsParam b) (hroom : p.ignoreByteCount + 1 ≤ p.unknownSequenceByteLimit) :
    GoesOn p 1 ((collect p.csi b).getD p.csi) (p.feedByte b) ∧
      (p.feedByte b).2.state = .csiParam := by
  obtain ⟨hesc, hcan, hsub⟩ := isParam_ne hb
  obtain ⟨c, hc⟩ : ∃ c, collect p.csi b = some c := by
    rcases collect_cases hb p.csi with ⟨_, _, h⟩ | ⟨_, h⟩ | ⟨_, h⟩
    · exact ⟨_, h⟩
    · exact ⟨_, h⟩
    · exact ⟨_, h⟩
  have hmarker : ¬ (0x3C ≤ b ∧ b ≤ 0x3F) := by
    rintro ⟨hlow, -⟩; have hhigh := hb.2
    simp only [UInt8.le_iff_toNat_le, UInt8.reduceToNat] at hlow hhigh; omega
  have hcounted : p.state.counted = true := by
    rcases hstate with h | h <;> rw [h] <;> rfl
  rw [feedByte_within hesc hcan hsub hcounted hroom]
  have hparam : ∀ q : AnsiParser, q.csi = p.csi → q.feedCsiParam b =
      ([], { q with csi := c, state := .csiParam }) := by
    intro q hq; rw [feedCsiParam, hq, hc]
  have hread : feedState feedByte
      { p with ignoreByteCount := min (p.ignoreByteCount + 1) usizeMax } b =
        ([], { p with
          ignoreByteCount := min (p.ignoreByteCount + 1) usizeMax, csi := c, state := .csiParam }) := by
    rcases hstate with h | h
    · simp only [feedState, h, feedCsiEntry, if_neg hmarker]; exact hparam _ rfl
    · simp only [feedState, h]; exact hparam _ rfl
  rw [hread, hc]
  exact ⟨⟨rfl, rfl, rfl, min_le_left _ _, rfl⟩, rfl⟩

theorem run_params {s : Bytes} : ∀ {p : AnsiParser},
    (p.state = .csiEntry ∨ p.state = .csiParam) → (∀ b ∈ s, IsParam b) →
    p.ignoreByteCount + s.length ≤ p.unknownSequenceByteLimit →
      GoesOn p s.length (p.csi.collectAll s) (run feedByte p s) ∧
        ((run feedByte p s).2.state = .csiEntry ∨
          (run feedByte p s).2.state = .csiParam) := by
  induction s with
  | nil =>
    intro p hstate _ _
    have hcounted : p.state.counted = true := by
      rcases hstate with h | h <;> rw [h] <;> rfl
    exact ⟨⟨rfl, rfl, hcounted, le_rfl, rfl⟩, hstate⟩
  | cons b s ih =>
    intro p hstate hs hroom; rw [length_cons] at hroom
    obtain ⟨hstep, hstate'⟩ := feedByte_param hstate (hs b mem_cons_self) (by omega)
    have hcount := hstep.count
    obtain ⟨hrest, hstate''⟩ := ih (.inr hstate')
      (fun b' hb' => hs b' (mem_cons_of_mem b hb')) (by rw [hstep.byteLimit]; omega)
    have hall := hstep.cons hrest
    have hcsi : p.csi.collectAll (b :: s) = (p.feedByte b).2.csi.collectAll s := by
      rw [hstep.csi]; rfl
    rw [hcsi, length_cons, add_comm s.length]; exact ⟨hall, hstate''⟩

variable {marker : Option UInt8}

theorem run_marker {p : AnsiParser} (hentry : p.state = .csiEntry)
    (hmarker : ∀ m, marker = some m → 0x3C ≤ m ∧ m ≤ 0x3F) (hnone : p.csi.privateMarker = none)
    (hroom : p.ignoreByteCount + marker.toList.length ≤ p.unknownSequenceByteLimit) :
    GoesOn p marker.toList.length { p.csi with privateMarker := marker }
        (run feedByte p marker.toList) ∧
      ((run feedByte p marker.toList).2.state = .csiEntry ∨
        (run feedByte p marker.toList).2.state = .csiParam) := by
  cases marker with
  | none =>
    refine ⟨⟨rfl, ?_, by rw [toList_none, run, hentry]; rfl, le_rfl, rfl⟩, .inl hentry⟩
    show p.csi = _
    rw [← hnone]
  | some m =>
    have hm := hmarker m rfl
    have hne : m ≠ 0x1B ∧ m ≠ 0x18 ∧ m ≠ 0x1A := by
      refine ⟨?_, ?_, ?_⟩ <;> rintro rfl <;> exact absurd hm.1 (by decide)
    have hread : p.feedByte m = ([], { p with
        ignoreByteCount := min (p.ignoreByteCount + 1) usizeMax
        csi := { p.csi with privateMarker := some m }
        state := .csiParam }) := by
      rw [feedByte_within hne.1 hne.2.1 hne.2.2 (by rw [hentry]; rfl) hroom]
      simp only [feedState, hentry, feedCsiEntry, if_pos hm]
    rw [toList_some, run, run, hread]
    exact ⟨⟨rfl, rfl, rfl, min_le_left _ _, rfl⟩, .inr rfl⟩

def IsIntermediate (b : UInt8) : Prop := 0x20 ≤ b ∧ b ≤ 0x2F

/-- The states in which a sequence goes on. -/
def InCsi : Prop :=
  p.state = .csiEntry ∨ p.state = .csiParam ∨ p.state = .csiIntermediate

theorem InCsi.counted {p : AnsiParser} (h : InCsi p) : p.state.counted = true := by
  rcases h with h | h | h <;> rw [h] <;> rfl

/-- A byte that is no parameter and no marker is read as after the parameters. -/
theorem feedState_inCsi {p : AnsiParser} (h : InCsi p) {b : UInt8}
    (hcollect : collect p.csi b = none)
    (hmarker : ¬ (0x3C ≤ b ∧ b ≤ 0x3F)) : feedState feedByte p b = p.feedCsiIntermediate b := by
  rcases h with h | h | h
  · simp only [feedState, h, feedCsiEntry, if_neg hmarker, feedCsiParam, hcollect]
  · simp only [feedState, h, feedCsiParam, hcollect]
  · simp only [feedState, h]

theorem collect_none {b : UInt8} (h : b < 0x30 ∨ 0x3B < b) {c : CsiCollector} :
    collect c b = none := by
  have hdigit : ¬ (0x30 ≤ b ∧ b ≤ 0x39) := by
    simp only [UInt8.le_iff_toNat_le, UInt8.lt_iff_toNat_lt, UInt8.reduceToNat] at *; omega
  rw [collect, if_neg hdigit, if_neg, if_neg]
  · intro hb; rw [asChar_inj (d := 0x3B) hb] at h; exact absurd h (by decide)
  · intro hb; rw [asChar_inj (d := 0x3A) hb] at h; exact absurd h (by decide)

/-- A byte behind the parameters is read there. -/
theorem feedByte_inCsi {p : AnsiParser} (hp : InCsi p) {b : UInt8}
    (hb : (0x20 ≤ b ∧ b ≤ 0x2F) ∨ 0x40 ≤ b ∧ b ≤ 0x7E)
    (hroom : p.ignoreByteCount + 1 ≤ p.unknownSequenceByteLimit) : p.feedByte b =
      feedCsiIntermediate { p with ignoreByteCount := min (p.ignoreByteCount + 1) usizeMax } b := by
  have hne : b ≠ 0x1B ∧ b ≠ 0x18 ∧ b ≠ 0x1A := by
    refine ⟨?_, ?_, ?_⟩ <;> rintro rfl <;> exact absurd hb (by decide)
  have hout : (b < 0x30 ∨ 0x3B < b) ∧ ¬ (0x3C ≤ b ∧ b ≤ 0x3F) := by
    simp only [UInt8.le_iff_toNat_le, UInt8.lt_iff_toNat_lt, UInt8.reduceToNat] at *; omega
  have hin : InCsi { p with ignoreByteCount := min (p.ignoreByteCount + 1) usizeMax } := hp
  rw [feedByte_within hne.1 hne.2.1 hne.2.2 hp.counted hroom,
    feedState_inCsi hin (collect_none hout.1) hout.2]

theorem feedByte_intermediate {p : AnsiParser} (hp : InCsi p) {b : UInt8} (hb : IsIntermediate b)
    (hroom : p.ignoreByteCount + 1 ≤ p.unknownSequenceByteLimit) :
    GoesOn p 1 { p.csi with intermediates := p.csi.intermediates ++ [b] } (p.feedByte b) ∧
      InCsi (p.feedByte b).2 := by
  rw [feedByte_inCsi hp (.inl hb) hroom, feedCsiIntermediate,
    if_pos (show 0x20 ≤ b ∧ b ≤ 0x2F from hb)]
  exact ⟨⟨rfl, rfl, rfl, min_le_left _ _, rfl⟩, .inr (.inr rfl)⟩

theorem run_intermediates {inter : Bytes} : ∀ {p : AnsiParser}, InCsi p →
    (∀ b ∈ inter, IsIntermediate b) →
    p.ignoreByteCount + inter.length ≤ p.unknownSequenceByteLimit →
      GoesOn p inter.length { p.csi with intermediates := p.csi.intermediates ++ inter }
          (run feedByte p inter) ∧
        InCsi (run feedByte p inter).2 := by
  induction inter with
  | nil =>
    intro p hp _ _
    refine ⟨⟨rfl, ?_, hp.counted, le_rfl, rfl⟩, hp⟩; rw [append_nil]; rfl
  | cons b inter ih =>
    intro p hp hinter hroom; rw [length_cons] at hroom
    obtain ⟨hstep, hin⟩ := feedByte_intermediate hp (hinter b mem_cons_self) (by omega)
    have hcount := hstep.count
    obtain ⟨hrest, hin'⟩ := ih hin (fun b' hb' => hinter b' (mem_cons_of_mem b hb'))
      (by rw [hstep.byteLimit]; omega)
    refine ⟨?_, hin'⟩; have hall := hstep.cons hrest
    rw [hstep.csi, append_assoc, singleton_append] at hall
    rw [length_cons, add_comm inter.length]; exact hall

theorem feedByte_final {p : AnsiParser} (hp : InCsi p) {b : UInt8} (hb : 0x40 ≤ b ∧ b ≤ 0x7E)
    (hroom : p.ignoreByteCount + 1 ≤ p.unknownSequenceByteLimit) :
    p.feedByte b = dispatchCsiAndRecover
      { p with ignoreByteCount := min (p.ignoreByteCount + 1) usizeMax } b := by
  have hinter : ¬ (0x20 ≤ b ∧ b ≤ 0x2F) := by
    rintro ⟨-, h⟩; have hlow := hb.1
    simp only [UInt8.le_iff_toNat_le, UInt8.reduceToNat] at *; omega
  rw [feedByte_inCsi hp (.inr hb) hroom, feedCsiIntermediate, if_neg hinter, if_pos hb]

/-! ## A whole sequence -/

def beforeFinal (marker : Option UInt8) (s inter : Bytes) : AnsiParser :=
  (Machine.run feedByte p (marker.toList ++ s ++ inter)).2

theorem reads_sequence {p : AnsiParser} (hp : Fed p) (hentry : p.state = .csiEntry)
    (hmarker : ∀ m, marker = some m → 0x3C ≤ m ∧ m ≤ 0x3F)
    {s inter : Bytes} (hs : ∀ b ∈ s, IsParam b) (hinter : ∀ b ∈ inter, IsIntermediate b)
    (hroom : p.ignoreByteCount + (marker.toList ++ s ++ inter).length ≤
      p.unknownSequenceByteLimit) :
    GoesOn p (marker.toList ++ s ++ inter).length
        { collectAll { default with privateMarker := marker } s with intermediates := inter }
        (run feedByte p (marker.toList ++ s ++ inter)) ∧
      InCsi (p.beforeFinal marker s inter) := by
  have hcsi := hp.entered hentry
  rw [length_append, length_append] at hroom ⊢
  obtain ⟨hm, hstate⟩ := run_marker hentry hmarker (by rw [hcsi]; rfl) (by omega)
  have hcount := hm.count
  obtain ⟨hps, hstate'⟩ := run_params hstate hs (by rw [hm.byteLimit]; omega)
  have hms := hm.trans hps
  have hcount' := hms.count
  have hin : InCsi (run feedByte p (marker.toList ++ s)).2 := by
    rw [run_append]; exact hstate'.imp_right .inl
  obtain ⟨hi, hin'⟩ := run_intermediates hin hinter (by rw [hms.byteLimit]; omega)
  have hall := hms.trans hi
  rw [hms.csi, hm.csi, hcsi] at hall
  refine ⟨?_, ?_⟩
  · have hnone : (collectAll { default with privateMarker := marker } s).intermediates = [] :=
      (collectAll_keeps _ s).2
    rwa [hnone, nil_append] at hall
  · rw [beforeFinal, run_append]; exact hin'

/-- **What a sequence hands over**: the final byte dispatches the sequence with its marker, its
    intermediate bytes and its parameters, which are what the parameter string says exactly when
    the string does not end with `;`. -/
theorem handed_eq_reference_iff {p : AnsiParser} (hp : Fed p) (hentry : p.state = .csiEntry)
    {marker : Option UInt8} (hmarker : ∀ m, marker = some m → 0x3C ≤ m ∧ m ≤ 0x3F)
    {s inter : Bytes} (hs : ∀ b ∈ s, IsParam b) (hinter : ∀ b ∈ inter, IsIntermediate b)
    {f : UInt8} (hf : 0x40 ≤ f ∧ f ≤ 0x7E)
    (hroom : p.ignoreByteCount + (marker.toList ++ s ++ inter ++ [f]).length ≤
      p.unknownSequenceByteLimit) :
    ∃ count, Machine.run feedByte p (marker.toList ++ s ++ inter ++ [f]) =
        dispatchCsiAndRecover { p.beforeFinal marker s inter with ignoreByteCount := count } f ∧
      (p.beforeFinal marker s inter).csi.privateMarker = marker ∧
      (p.beforeFinal marker s inter).csi.intermediates = inter ∧
      ((p.beforeFinal marker s inter).csi.finalize = reference s ↔ s.getLast? ≠ some 0x3B) := by
  rw [length_append, length_singleton] at hroom
  obtain ⟨hread, hin⟩ := reads_sequence hp hentry hmarker hs hinter (by omega)
  have hcount := hread.count
  have hcsi : (p.beforeFinal marker s inter).csi =
      { collectAll { default with privateMarker := marker } s with intermediates := inter } :=
    hread.csi
  refine ⟨min ((p.beforeFinal marker s inter).ignoreByteCount + 1) usizeMax, ?_, ?_, ?_, ?_⟩
  · rw [Machine.run_append, hread.events, nil_append, Machine.run, Machine.run, append_nil]
    exact feedByte_final hin hf (by
      rw [beforeFinal, hread.byteLimit]; omega)
  · rw [hcsi]; exact (collectAll_keeps _ s).1
  · rw [hcsi]
  · rw [hcsi]; exact finalize_eq_reference_iff rfl rfl rfl rfl rfl hs

theorem handed_eq_reference_iff_bold :
    ∃ count, Machine.run feedByte (Machine.run feedByte new [0x1B, 0x5B]).2
        [0x31, 0x3B, 0x34, 0x3A, 0x33, 0x6D] =
      dispatchCsiAndRecover
        { beforeFinal (Machine.run feedByte new [0x1B, 0x5B]).2 none [0x31, 0x3B, 0x34, 0x3A, 0x33] []
            with ignoreByteCount := count } 0x6D ∧
      (beforeFinal (Machine.run feedByte new [0x1B, 0x5B]).2 none
        [0x31, 0x3B, 0x34, 0x3A, 0x33] []).csi.finalize =
          reference [0x31, 0x3B, 0x34, 0x3A, 0x33] := by
  obtain ⟨count, hrun, -, -, hiff⟩ := handed_eq_reference_iff
    (Fed.feedByte 0x5B (.feedByte 0x1B (.start .lineOriented defaultByteLimit))) rfl
    (fun m (h : none = some m) => nomatch h) (s := [0x31, 0x3B, 0x34, 0x3A, 0x33])
    (by decide +kernel) (fun _ h => absurd h not_mem_nil) (f := 0x6D) (by decide) (by decide)
  exact ⟨count, hrun, hiff.2 (by decide)⟩

/-- `ESC [ 1 ; m` asks for bold and then, by its empty last parameter, for a reset. -/
theorem handed_ne_reference :
    (Machine.run feedByte new [0x1B, 0x5B, 0x31, 0x3B]).2.csi.finalize = [⟨1, []⟩] ∧
      reference [0x31, 0x3B] = [⟨1, []⟩, ⟨0, []⟩] ∧
      (Machine.run feedByte new [0x1B, 0x5B, 0x31, 0x3B, 0x6D]).1 =
        [.setStyle { Style.default with bold := true }] ∧
      (Machine.run feedByte new [0x1B, 0x5B, 0x31, 0x3B, 0x30, 0x6D]).1 =
        [.setStyle .default] := by
  decide +kernel

end AnsiParser

end Pmacs
