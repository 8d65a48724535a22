/-
  Text is written in pieces, and a delta step by step.

  * `pieces`: what `insert_in_pieces` writes, in the order in which it does;
  * `flatten_pieces`, `pieces_bounded`: the pieces make up the text, and none of them
    is empty or has more than `PIECE_BYTES` bytes;
  * `written_in_pieces`: the text after an insert in pieces and after a delta.
-/
import Pmacs.Crdt.Revert

namespace Pmacs

open Lib List Utf8

variable {L : Loro}

namespace Crdt

/-! ## Pieces -/

/-- The pieces of `s`, the last first. -/
def pieces : ℕ → List Char → List (List Char)
  | 0, _ => []
  | fuel + 1, s =>
    if s.isEmpty then []
    else
      let cut := Utf8.cutAt ((Utf8.encode s).length - pieceBytes) s
      cut.2 :: pieces fuel cut.1

def insertEach (i : ℕ) : List (List Char) → CrdtM L Unit
  | [] => pure ()
  | piece :: rest => L.insert i piece >>= fun _ => insertEach i rest

theorem insertPieces_eq (i fuel : ℕ) (s : List Char) :
    insertPieces (L := L) i fuel s = insertEach i (pieces fuel s) := by
  induction fuel generalizing s with
  | zero => rfl
  | succ fuel ih =>
    rw [insertPieces, pieces]
    split_ifs
    · rfl
    · simp only [insertEach, ih]

theorem flatten_pieces {fuel : ℕ} {s : List Char} (h : s.length ≤ fuel) :
    (pieces fuel s).reverse.flatten = s := by
  induction fuel generalizing s with
  | zero => rw [eq_nil_of_length_eq_zero (Nat.le_zero.1 h)]; rfl
  | succ fuel ih =>
    rw [pieces]
    split_ifs with hempty
    · exact (isEmpty_iff.1 hempty).symm
    have hlt := length_cutAt_lt (by simpa using hempty)
    rw [reverse_cons, flatten_append, ih (by omega), flatten_singleton, cutAt_append]

/-- A cut inside a text is not before the byte where it was asked for. -/
theorem le_cutAt {n : ℕ} {s : List Char} (h : n ≤ (encode s).length) :
    n ≤ (encode (cutAt n s).1).length := by
  induction s generalizing n with
  | nil => cases n with
    | zero => exact Nat.zero_le _
    | succ n => exact absurd h (Nat.not_succ_le_zero n)
  | cons c s ih =>
    cases n with
    | zero => exact Nat.zero_le _
    | succ n =>
      simp only [cutAt, encode_cons, length_append, String.length_utf8EncodeChar] at h ⊢
      have hrest := ih (n := n + 1 - c.utf8Size) (by omega); omega

theorem pieces_bounded {fuel : ℕ} {s piece : List Char} (h : piece ∈ pieces fuel s) :
    piece ≠ [] ∧ (encode piece).length ≤ pieceBytes := by
  induction fuel generalizing s with
  | zero => cases h
  | succ fuel ih =>
    rw [pieces] at h
    split_ifs at h with hempty
    · cases h
    have hcut := cutAt_append ((encode s).length - pieceBytes) s
    rcases mem_cons.1 h with hpiece | h
    · rw [hpiece]
      constructor
      · intro hnil; have hlt := length_cutAt_lt (by simpa using hempty)
        rw [hnil, append_nil] at hcut; rw [hcut] at hlt; exact Nat.lt_irrefl _ hlt
      have hle : (encode s).length - pieceBytes ≤ _ := le_cutAt (s := s) (Nat.sub_le _ _)
      have hlen := congrArg (fun cs => (encode cs).length) hcut
      simp only [encode_append, length_append] at hlen; omega
    · exact ih h

/-! ## Deltas -/

/-- A delta that stays in the text behind a position has steps that end in the text. -/
theorem applyDelta_fits {ds : List TextDelta} {at_ : ℕ} {cs cs' : List Char}
    (h : applyDelta ds (cs.drop at_) = some cs') (hat : at_ ≤ cs.length) :
    (∀ step ∈ steps at_ ds, stepEnd step ≤ cs.length) ∧ patch ds (cs.drop at_) = cs' := by
  induction ds generalizing at_ cs' with
  | nil => exact ⟨nofun, Option.some.inj h⟩
  | cons part ds ih =>
    cases part with
    | retain n attributed =>
      simp only [applyDelta, length_drop, drop_drop] at h
      split_ifs at h with hn
      obtain ⟨rest, hrest, rfl⟩ := Option.map_eq_some_iff.1 h
      obtain ⟨hsteps, hpatch⟩ := ih hrest (by omega)
      exact ⟨hsteps, by rw [patch, drop_drop, hpatch]⟩
    | insert s attributed =>
      obtain ⟨rest, hrest, rfl⟩ := Option.map_eq_some_iff.1 h
      obtain ⟨hsteps, hpatch⟩ := ih hrest hat
      exact ⟨forall_mem_cons.2 ⟨hat, hsteps⟩, by rw [patch, hpatch]⟩
    | delete n =>
      simp only [applyDelta, length_drop, drop_drop] at h
      split_ifs at h with hn
      obtain ⟨hsteps, hpatch⟩ := ih h (by omega)
      refine ⟨forall_mem_cons.2 ⟨?_, hsteps⟩, by rw [patch, drop_drop, hpatch]⟩
      simp only [stepEnd]; omega

theorem applyBody_applyDelta (hL : L.Laws) {delta : List TextDelta} {d : L.Doc}
    {text : List Char} (hplain : ∀ part ∈ delta, TextDelta.attributed part = false)
    (h : applyDelta delta (L.text d) = some text) :
    ∃ d', applyBody delta d = .ok () d' ∧ L.text d' = text := by
  obtain ⟨hfits, hpatch⟩ := applyDelta_fits h (Nat.zero_le (L.text d).length)
  have hback : (steps 0 delta).reverse.Pairwise fun s t => stepEnd t ≤ s.1 := by
    rw [pairwise_reverse]; exact (steps_pairwise delta 0).2
  obtain ⟨d', hd'⟩ := applySteps_ok hL _ d hback fun s hs => hfits s (mem_reverse.1 hs)
  have hnone : ¬ delta.any TextDelta.attributed = true := by simpa using hplain
  have hbody : applyBody delta d = .ok () d' := by rw [applyBody, if_neg hnone, hd']
  exact ⟨d', hbody, (applyBody_text hL hbody).trans hpatch⟩

/-! ## Both -/

/-- **Writing in pieces changes the text as one write does.** At a byte where a
    character starts, the inserts of the pieces of a text leave it as one insert of
    the whole; the pieces are characters of the text in its order, none empty and none
    over `PIECE_BYTES`. A delta without marks, its steps applied from back to front,
    leaves what it says; what a batch has beside it goes through the library after. -/
theorem written_in_pieces (hL : L.Laws) (d : L.Doc) :
    (∀ pos s,
      (∃ u d', checkedUnicode d pos = .ok u ∧ u ≤ (L.text d).length ∧
        pos = Utf8.byteAt (L.text d) u ∧ insertInPieces u s d = .ok () d' ∧
          L.text d' = splice (L.text d) u u s) ∨
      (∀ u ≤ (L.text d).length, pos ≠ Utf8.byteAt (L.text d) u) ∧
        ∃ e, checkedUnicode d pos = .error e) ∧
    (∀ s, (pieces s.length s).reverse.flatten = s ∧
      (∀ piece ∈ pieces s.length s, piece ≠ [] ∧ (Utf8.encode piece).length ≤ pieceBytes) ∧
      ∀ u, insertInPieces (L := L) u s = insertEach u (pieces s.length s)) ∧
    ∀ compensation delta text, L.bodyDelta compensation = some delta →
      (∀ part ∈ delta, TextDelta.attributed part = false) → applyDelta delta (L.text d) = some text →
        ∃ d', L.text d' = text ∧
          (L.restDiff compensation = none → applyInPieces compensation d = .ok () d') ∧
          ∀ rest, L.restDiff compensation = some rest →
            applyInPieces compensation d = L.applyDiff rest d' := by
  refine ⟨fun pos s => ?_, fun s => ⟨flatten_pieces (Nat.le_refl _), fun _ => pieces_bounded,
    fun u => insertPieces_eq u s.length s⟩, ?_⟩
  · cases hpos : checkedUnicode d pos with
    | ok u =>
      obtain ⟨hu, hbyte⟩ := (checkedUnicode_ok hL).1 hpos
      obtain ⟨d', hd', htext⟩ := insertInPieces_spec hL s hu
      exact .inl ⟨u, d', rfl, hu, hbyte, hd', htext⟩
    | error e =>
      refine .inr ⟨fun u hu hbyte => ?_, e, rfl⟩
      rw [(checkedUnicode_ok hL).2 ⟨hu, hbyte⟩] at hpos; cases hpos
  intro compensation delta text hdelta hplain htext
  obtain ⟨d', hbody, hd'⟩ := applyBody_applyDelta hL hplain htext
  refine ⟨d', hd', fun hrest => ?_, fun rest hrest => ?_⟩
  · simp only [applyInPieces, hdelta, hrest, Bind.bind, EStateM.bind, hbody]; rfl
  · simp only [applyInPieces, hdelta, hrest, Bind.bind, EStateM.bind, hbody]

/-- Two adjacent inserts and a delete between them. -/
theorem written_in_pieces_plain :
    ∃ d', applyInPieces (L := Loro.plain) [.insert ['x'] false, .delete 1, .insert ['y'] false]
        ⟨0, [(2, ['a', 'b'])], 0⟩ = .ok () d' ∧ Loro.plain.text d' = ['x', 'y', 'b'] := by
  obtain ⟨d', htext, halone, _⟩ :=
    (written_in_pieces Loro.plain_laws ⟨0, [(2, ['a', 'b'])], 0⟩).2.2
      [.insert ['x'] false, .delete 1, .insert ['y'] false] _ _ rfl (by decide) rfl
  exact ⟨d', halone rfl, htext⟩

end Crdt

end Pmacs
