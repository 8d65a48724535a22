/-
  The text a parser emits is the lossy decoding of the bytes it accepts (ansi.rs).

  * `Pending`: the bytes that wait for more begin a character, three of them at most;
  * `accepted`: the bytes that ground takes for text; `Quiet`: those that leave it in ground and
    emit nothing of their own;
  * `text_eq_lossy`: the text of a stream of them, in any chunks.
-/
import Pmacs.Lib.Lossy
import Pmacs.Terminal.CsiParams

namespace Pmacs

open Lib List Utf8

namespace AnsiParser

variable {p : AnsiParser} {bs : Bytes}

/-! ## The pending buffer -/

/-- The bytes that wait for more end inside a character. -/
def Pending (buf : Bytes) : Prop := buf = [] ∨ Utf8.scan buf = .incomplete

theorem Pending.length_le {buf : Bytes} (h : Pending buf) : buf.length ≤ 3 := by
  rcases h with rfl | h
  · exact Nat.zero_le _
  · exact (begins_of_incomplete h).2.1

theorem decodeUtf8Buf_spec : ∀ {fuel : ℕ} {buf : Bytes}, buf.length < fuel →
    Pending (decodeUtf8Buf fuel buf).2 ∧ ∀ rest, lossy (buf ++ rest) =
      (decodeUtf8Buf fuel buf).1 ++ lossy ((decodeUtf8Buf fuel buf).2 ++ rest)
  | 0, _, h => absurd h (Nat.not_lt_zero _)
  | fuel + 1, buf, h => by
    rw [decodeUtf8Buf]
    cases hs : scan buf with
    | empty => rw [eq_nil_of_scan_empty hs]; exact ⟨.inl rfl, fun rest => rfl⟩
    | char c n =>
      obtain ⟨hpos, hle⟩ := scan_char_pos hs
      obtain ⟨hne, hend⟩ := scan_ne_incomplete_of_char hs
      obtain ⟨hpending, hdecode⟩ := @decodeUtf8Buf_spec fuel (buf.drop n)
        (by rw [length_drop]; omega)
      refine ⟨hpending, fun rest => ?_⟩
      rw [lossy_of_char ((scan_append hne hend rest).trans hs),
        drop_append_of_le_length hle, hdecode, cons_append]
    | incomplete =>
      -- three bytes at most, so the cap of eight is never reached
      have hlen := (begins_of_incomplete hs).2.1
      rw [if_neg (show ¬ 8 ≤ buf.length by omega)]; exact ⟨.inr hs, fun rest => rfl⟩
    | invalid n =>
      obtain ⟨hpos, hle⟩ := scan_invalid_pos hs
      obtain ⟨hne, hend⟩ := scan_ne_incomplete_of_invalid hs
      obtain ⟨hpending, hdecode⟩ := @decodeUtf8Buf_spec fuel (buf.drop n)
        (by rw [length_drop]; omega)
      refine ⟨hpending, fun rest => ?_⟩
      rw [lossy_of_invalid ((scan_append hne hend rest).trans hs),
        drop_append_of_le_length hle, hdecode, cons_append]

theorem textByte_spec {buf : Bytes} (b : UInt8) :
    (Pending buf → Pending (textByte buf b).2) ∧ ∀ rest, lossy (buf ++ b :: rest) =
      (textByte buf b).1 ++ lossy ((textByte buf b).2 ++ rest) := by
  rw [textByte]
  split_ifs with hascii
  · rw [Bool.and_eq_true, List.isEmpty_iff, decide_eq_true_eq] at hascii
    obtain ⟨rfl, hlow⟩ := hascii
    refine ⟨fun h => h, fun rest => ?_⟩
    have hlow' : b.toNat < 0x80 := by
      simpa only [UInt8.lt_iff_toNat_lt, UInt8.reduceToNat] using hlow
    have hscan : scan (b :: rest) = .char (asChar b) 1 := by
      have hw : leadWidth b = 1 := by rw [leadWidth, if_pos hlow']
      simp only [scan, hw, asChar]
    rw [nil_append, lossy_of_char hscan]; rfl
  obtain ⟨hpending, hdecode⟩ := decodeUtf8Buf_spec (Nat.lt_succ_self (buf ++ [b]).length)
  refine ⟨fun _ => hpending, fun rest => ?_⟩; rw [← hdecode rest, append_assoc, singleton_append]

variable {b : UInt8}

theorem pending_feedGround (h : Pending p.utf8Buf) : Pending (p.feedGround b).2.utf8Buf := by
  have hflush : Pending p.flushTextRun.2.utf8Buf := .inl (congrArg Prod.snd (held_flushTextRun))
  simp only [feedGround, flushThen, pushTextByte_eq]
  split_ifs <;> first | exact hflush | exact (textByte_spec b).1 h | exact h

theorem pending_feedByte (h : Pending p.utf8Buf) : Pending (p.feedByte b).2.utf8Buf := by
  by_cases hs : p.state = .ground
  · have hflush : Pending p.flushTextRun.2.utf8Buf := .inl (congrArg Prod.snd (held_flushTextRun))
    rw [feedByte_ground hs]
    split_ifs
    · exact hflush
    · exact hflush
    · exact pending_feedGround h
  rcases held_feedByte hs b with hheld | hheld
  · have hbuf : (p.feedByte b).2.utf8Buf = p.utf8Buf := congrArg Prod.snd hheld; rw [hbuf]
    exact h
  · exact .inl (congrArg Prod.snd hheld)

theorem Fed.pending (h : Fed p) : Pending p.utf8Buf := by
  induction h with
  | start profile byteLimit => exact .inl rfl
  | feedByte b _ ih => exact pending_feedByte ih
  | takeTextRun _ ih => exact ih
  | finish _ _ => exact .inl rfl
  | reset _ _ => exact .inl rfl

/-! ## Text bytes in ground -/

def TextByte : AnsiParserProfile → UInt8 → Prop
  | .lineOriented, b => b = 0x07 ∨ (0x09 ≤ b ∧ b ≤ 0x0C) ∨ (0x20 ≤ b ∧ b ≤ 0x7E) ∨ 0x80 ≤ b
  | .fullScreen, b => (0x20 ≤ b ∧ b ≤ 0x7E) ∨ 0x80 ≤ b

instance (profile : AnsiParserProfile) (b : UInt8) : Decidable (TextByte profile b) := by
  cases profile
  · exact inferInstanceAs (Decidable (_ ∨ _))
  · exact inferInstanceAs (Decidable (_ ∨ _))

/-- A byte for which ground starts no sequence and emits no event: text, or one it ignores. -/
def Quiet (profile : AnsiParserProfile) (b : UInt8) : Prop :=
  b ≠ 0x1B ∧ b ≠ 0x18 ∧ b ≠ 0x1A ∧
    match profile with
    | .lineOriented => b ≠ 0x0D ∧ b ≠ 0x08
    | .fullScreen => ¬ (0x07 ≤ b ∧ b ≤ 0x0F)

instance (profile : AnsiParserProfile) (b : UInt8) : Decidable (Quiet profile b) := by
  cases profile
  · exact inferInstanceAs (Decidable (_ ∧ _ ∧ _ ∧ _ ∧ _))
  · exact inferInstanceAs (Decidable (_ ∧ _ ∧ _ ∧ ¬ _))

def accepted (profile : AnsiParserProfile) (bs : Bytes) : Bytes :=
  bs.filter fun b => decide (TextByte profile b)

def textOf (events : List AnsiEvent) : List Char :=
  events.flatMap fun | .text s => s | _ => []

theorem feedByte_quiet (hs : p.state = .ground) (hb : Quiet p.profile b) :
    p.feedByte b = ([], if TextByte p.profile b then p.pushTextByte b else p) := by
  obtain ⟨hesc, hcan, hsub, hevent⟩ := hb
  rw [feedByte_ground hs, if_neg hesc, if_neg (by rintro (h | h) <;> contradiction), feedGround]
  cases hprofile : p.profile with
  | lineOriented =>
    rw [hprofile] at hevent; rw [if_pos rfl, if_neg hevent.1, if_neg hevent.2]
    by_cases htext : TextByte .lineOriented b
    · rw [if_pos htext]; exact if_pos htext
    · rw [if_neg htext]; exact if_neg htext
  | fullScreen =>
    rw [hprofile] at hevent
    have hne : ∀ c : UInt8, 0x07 ≤ c ∧ c ≤ 0x0F → b ≠ c := by
      rintro c hc rfl; exact hevent hc
    have hline : ¬ (0x0A ≤ b ∧ b ≤ 0x0C) := by
      intro h
      refine hevent ?_; simp only [UInt8.le_iff_toNat_le, UInt8.reduceToNat] at h ⊢; omega
    rw [if_neg (Ne.symm (by decide)), if_neg (hne 0x07 (by decide)), if_neg (hne 0x08 (by decide)),
      if_neg (hne 0x09 (by decide)), if_neg hline, if_neg (hne 0x0D (by decide)),
      if_neg (hne 0x0E (by decide)), if_neg (hne 0x0F (by decide))]
    by_cases htext : TextByte .fullScreen b
    · rw [if_pos htext]; exact if_pos htext
    · rw [if_neg htext]; exact if_neg htext

/-! ## Reading text -/

/-- The parser reads text and nothing else: what it emitted and what it holds is the text of the
    bytes before it, whatever follows. -/
structure Reads (p : AnsiParser) (bs : Bytes) (out : List AnsiEvent × AnsiParser) : Prop where
  state : out.2.state = p.state
  profile : out.2.profile = p.profile
  suppressVisible : out.2.suppressVisible = p.suppressVisible
  pending : Pending p.utf8Buf → Pending out.2.utf8Buf
  text : ∀ rest, p.textRun ++ Utf8.lossy (p.utf8Buf ++ (bs ++ rest)) =
    textOf out.1 ++ (out.2.textRun ++ Utf8.lossy (out.2.utf8Buf ++ rest))

theorem textOf_append (es fs : List AnsiEvent) : textOf (es ++ fs) = textOf es ++ textOf fs :=
  flatMap_append

theorem Reads.nothing (p : AnsiParser) : Reads p [] ([], p) :=
  ⟨rfl, rfl, rfl, fun h => h, fun _ => rfl⟩

theorem Reads.trans {as : Bytes} {out out' : List AnsiEvent × AnsiParser} (h : Reads p as out)
    (h' : Reads out.2 bs out') : Reads p (as ++ bs) (out.1 ++ out'.1, out'.2) := by
  refine ⟨h'.state.trans h.state, h'.profile.trans h.profile,
    h'.suppressVisible.trans h.suppressVisible, fun hp => h'.pending (h.pending hp), fun rest => ?_⟩
  rw [append_assoc, h.text, h'.text, textOf_append, append_assoc]

theorem reads_feedByte (hs : p.state = .ground)
    (hb : Quiet p.profile b) : Reads p (accepted p.profile [b]) (p.feedByte b) := by
  rw [feedByte_quiet hs hb]
  by_cases htext : TextByte p.profile b
  · obtain ⟨hpending, hdecode⟩ := @textByte_spec p.utf8Buf b
    rw [if_pos htext, accepted, filter_cons_of_pos (by simpa using htext), pushTextByte_eq]
    refine ⟨rfl, rfl, rfl, hpending, fun rest => ?_⟩; rw [filter_nil, singleton_append, hdecode]
    exact (append_assoc _ _ _).symm
  · rw [if_neg htext, accepted, filter_cons_of_neg (by simpa using htext)]; exact Reads.nothing p

theorem reads_run : ∀ {p : AnsiParser}, p.state = .ground → (∀ b ∈ bs, Quiet p.profile b) →
      Reads p (accepted p.profile bs) (Machine.run feedByte p bs) := by
  induction bs with
  | nil => exact fun _ _ => Reads.nothing _
  | cons b bs ih =>
    intro p hs hquiet; have hone := reads_feedByte hs (hquiet b mem_cons_self)
    have hrest := ih (hone.state.trans hs) fun b' hb' => by
      rw [hone.profile]; exact hquiet b' (mem_cons_of_mem b hb')
    rw [hone.profile] at hrest
    have hsplit : accepted p.profile (b :: bs) =
        accepted p.profile [b] ++ accepted p.profile bs := by
      rw [accepted, accepted, accepted, ← filter_append, singleton_append]
    rw [hsplit]; exact hone.trans hrest

theorem textOf_textEvents (hvisible : p.suppressVisible = false) :
    textOf p.textEvents = p.textRun := by
  rw [textEvents, pushVisible, hvisible]
  cases p.textRun with
  | nil => rfl
  | cons c run =>
    show [c :: run].flatten = _
    rw [flatten_singleton]

theorem reads_takeTextRun (hvisible : p.suppressVisible = false) : Reads p [] p.takeTextRun := by
  refine ⟨rfl, rfl, rfl, fun h => h, fun rest => ?_⟩
  rw [takeTextRun, textOf_textEvents hvisible]
  rfl

theorem reads_feed (hs : p.state = .ground) (hvisible : p.suppressVisible = false)
    (hquiet : ∀ b ∈ bs, Quiet p.profile b) : Reads p (accepted p.profile bs) (p.feed bs) := by
  have hrun := reads_run hs hquiet
  have hall := hrun.trans (reads_takeTextRun (hrun.suppressVisible.trans hvisible))
  rwa [append_nil] at hall

theorem reads_feedChunks {chunks : List Bytes} : ∀ {p : AnsiParser}, p.state = .ground →
    p.suppressVisible = false → (∀ b ∈ chunks.flatten, Quiet p.profile b) →
      Reads p (accepted p.profile chunks.flatten) (p.feedChunks chunks) := by
  induction chunks with
  | nil => exact fun _ _ _ => Reads.nothing _
  | cons bs chunks ih =>
    intro p hs hvisible hquiet; rw [flatten_cons] at hquiet ⊢
    have hone := reads_feed hs hvisible fun b hb => hquiet b (mem_append_left _ hb)
    have hrest := ih (hone.state.trans hs) (hone.suppressVisible.trans hvisible) fun b hb => by
      rw [hone.profile]; exact hquiet b (mem_append_right _ hb)
    rw [hone.profile] at hrest
    have hsplit : accepted p.profile (bs ++ chunks.flatten) =
        accepted p.profile bs ++ accepted p.profile chunks.flatten := filter_append _ _
    rw [hsplit]; exact hone.trans hrest

/-- The end of the stream emits what is held, a character cut short as U+FFFD. -/
theorem textOf_finish (hvisible : p.suppressVisible = false) (hpending : Pending p.utf8Buf) :
    textOf p.finish.1 = p.textRun ++ lossy p.utf8Buf := by
  have hflush : textOf p.flushTextRun.1 = p.textRun ++ lossy p.utf8Buf := by
    rw [flushTextRun, takeTextRun, flushPendingUtf8AsReplacement]
    split_ifs with hempty
    · rw [textOf_textEvents hvisible, List.isEmpty_iff.1 hempty, lossy_nil, append_nil]
    rcases hpending with h | h
    · rw [h] at hempty; exact absurd rfl hempty
    rw [lossy_of_incomplete h]
    exact textOf_textEvents (p := { p with
      textRun := p.textRun ++ [replacement], utf8Buf := [] }) hvisible
  simp only [finish, textOf_append, hflush]
  split_ifs <;> simp [textOf]

def streamText (p : AnsiParser) (chunks : List Bytes) : List Char :=
  textOf ((p.feedChunks chunks).1 ++ (p.feedChunks chunks).2.finish.1)

/-- **The text of a stream**: whatever text bytes are fed in ground, in whatever chunks, the text
    emitted by the end is what the bytes accepted stand for, the lossy decoding of them; a character
    among them is emitted whatever stands before it; and no more than three bytes ever wait for
    more. -/
theorem text_eq_lossy {p : AnsiParser} (hp : Fed p) (hground : p.state = .ground)
    (hvisible : p.suppressVisible = false) {chunks : List Bytes}
    (hquiet : ∀ b ∈ chunks.flatten, Quiet p.profile b) : p.streamText chunks =
        p.textRun ++ Utf8.lossy (p.utf8Buf ++ accepted p.profile chunks.flatten) ∧
      Utf8.Decodes (p.utf8Buf ++ accepted p.profile chunks.flatten)
        (Utf8.lossy (p.utf8Buf ++ accepted p.profile chunks.flatten)) ∧
      (∀ bs cs, p.utf8Buf ++ accepted p.profile chunks.flatten = bs ++ Utf8.encode cs →
        p.streamText chunks = p.textRun ++ Utf8.lossy bs ++ cs) ∧
      ∀ q : AnsiParser, Fed q → q.utf8Buf.length ≤ 3 := by
  have hread := reads_feedChunks hground hvisible hquiet
  have hall := hread.text []
  rw [append_nil, append_nil] at hall
  have htext : p.streamText chunks =
      p.textRun ++ Utf8.lossy (p.utf8Buf ++ accepted p.profile chunks.flatten) := by
    rw [streamText, textOf_append, textOf_finish (hread.suppressVisible.trans hvisible)
      (hread.pending hp.pending), hall]
  refine ⟨htext, Utf8.decodes_lossy _, fun bs cs heq => ?_, fun q hq => hq.pending.length_le⟩
  rw [htext, heq, Utf8.lossy_append_encode, append_assoc]

/-- A character cut in the middle, a byte that is none, and one cut short. -/
theorem text_eq_lossy_cut : new.streamText [[0x61, 0xC3], [0x00, 0xA9, 0xFF], [0x62, 0xE2, 0x82]] =
    Utf8.lossy [0x61, 0xC3, 0xA9, 0xFF, 0x62, 0xE2, 0x82] := by
  have htext := (@text_eq_lossy _ (.start .lineOriented defaultByteLimit) rfl rfl
    [[0x61, 0xC3], [0x00, 0xA9, 0xFF], [0x62, 0xE2, 0x82]] (by decide +kernel)).1
  exact htext

end AnsiParser

end Pmacs
