/-
  The rope's edit mirrors the document's.

  * `Mirrors`: an edit of the rope that gives the new text of the document;
  * `routeOps_spec`: what is routed to the document splices its text, or changed nothing;
    `Splices.mirrors`: the rope's half of it mirrors it;
  * `remoteInsert`, `remoteDelete`: the edits of the two fast paths of an import, the third is
    `remoteDiff`; `remoteEdit_spec`: whichever is taken mirrors it.
-/
import Pmacs.Buffer.Run
import Pmacs.Crdt.Spec

namespace Pmacs

open Lib List Option Utf8

/-! ## Operations -/

/-- The positions of an operation are 64-bit numbers. -/
def EditOp.InRange : EditOp → Prop
  | .insert pos _ => pos ≤ usizeMax
  | .delete range => range.start ≤ usizeMax ∧ range.stop ≤ usizeMax
  | .replace range _ => range.start ≤ usizeMax ∧ range.stop ≤ usizeMax

/-- The operation is no replacement by text of a range that stops before its start,
    with a start between two characters. -/
def EditOp.Ordered (bytes : Bytes) : EditOp → Prop
  | .insert _ _ => True
  | .delete _ => True
  | .replace range ins =>
    ins = [] ∨ range.start ≤ range.stop ∨ Utf8.isCharBoundary bytes range.start = false

/-- The operation starts and ends where characters of a text do. -/
def EditOp.OnBoundaries (op : EditOp) (text : Bytes) : Prop :=
  Utf8.isCharBoundary text op.range.start = true ∧
    Utf8.isCharBoundary text (op.range.start + op.range.len) = true

variable {bytes : Bytes}

/-- Text goes in for a range in order only, when the start is between two characters. -/
theorem EditOp.Ordered.inserted_nil {op : EditOp} (h : op.Ordered bytes)
    (hlt : op.range.stop < op.range.start)
    (hboundary : isCharBoundary bytes op.range.start = true) : op.inserted = [] := by
  cases op with
  | insert pos bytes => exact absurd hlt (lt_irrefl _)
  | delete range => rfl
  | replace range bytes =>
    rcases h with hnil | hle | hoff
    · exact hnil
    · exact absurd hlt (not_lt.2 hle)
    · cases hoff.symm.trans hboundary

namespace Buffer

variable {L : Loro}
  {d d' : L.Doc} {deltas : List (List TextDelta)} {s : List Char} {range : Range} {u v : ℕ}
  {op : EditOp}

/-! ## Forward edits -/

theorem length_encode_pos {cs : List Char} (h : cs ≠ []) : 0 < (encode cs).length := by
  cases cs with
  | nil => exact absurd rfl h
  | cons c cs =>
    rw [encode_cons, List.length_append, String.length_utf8EncodeChar]; have := c.utf8Size_pos
    omega

/-- An operation that, on a rope of the text of `d`, gives one of the text of `d'`, or
    is refused when these are the same. -/
def Mirrors (d d' : L.Doc) (op : EditOp) : Prop :=
  ∀ r : WfRope, r.bytes = Utf8.encode (L.text d) →
    match editRope r op with
    | .ok ed => ed.newRope.bytes = Utf8.encode (L.text d')
    | .error _ => L.text d' = L.text d

theorem mirrors_of_splice (huv : u ≤ v) (hstart : op.range.start = byteAt (L.text d) u)
    (hstop : op.range.stop = byteAt (L.text d) v) (hs : op.inserted = encode s)
    (htext : L.text d' = splice (L.text d) u v s) : Mirrors d d' op := by
  intro r hr
  rcases editRope_spec r op with ⟨_, ed, hed, hsp⟩ | ⟨hout, _⟩
  · simp only [hed]; rw [hsp.bytes, hr, hstart, hstop, hs, htext, encode_splice]
  refine absurd ⟨?_, ?_⟩ hout
  · rw [hstart, hstop]; exact byteAt_mono _ huv
  · rw [hr, hstop]; exact byteAt_le _ v

theorem mirrors_of_lt (h : op.range.stop < op.range.start) (htext : L.text d' = L.text d) :
    Mirrors d d' op := by
  intro r _
  rcases editRope_spec r op with ⟨hwithin, _⟩ | ⟨_, e, herr⟩
  · exact absurd hwithin.1 (not_le.2 h)
  · simp only [herr]; exact htext

theorem noOp_mirrors {d : L.Doc} (hop : isNoOpEdit op = true) : Mirrors d d op := by
  intro r hr
  obtain ⟨hempty, hnil⟩ := (isNoOpEdit_iff op).1 hop
  have hsame : op.range.start = op.range.stop := by simpa [Range.isEmpty] using hempty
  rcases editRope_spec r op with ⟨_, ed, hed, hsp⟩ | ⟨_, e, herr⟩
  · simp only [hed]; rw [hsp.bytes, hnil, ← hsame, splice_same, hr]
  · simp only [herr]

/-- The bytes that the rope mirrors are those of the text that the document reads. -/
theorem normalizedBytes_getD :
    (normalizedBytes bytes).getD bytes = encode (lossy bytes) := by
  rw [normalizedBytes]
  split
  · rename_i cs hcs; rw [lossy_eq_of_fromUtf8 hcs]; exact fromUtf8_eq_some.1 hcs
  · rfl

/-- The bytes that the rope mirrors, of an operation with the bytes that the document reads. -/
theorem inserted_withBytes (op : EditOp) : (withBytes (normalizedBytes op.inserted) op).inserted =
      encode (lossy op.inserted) := by
  rw [← normalizedBytes_getD]
  cases op with
  | insert pos bytes => simp only [EditOp.inserted]; cases normalizedBytes bytes <;> rfl
  | delete range => rfl
  | replace range bytes => simp only [EditOp.inserted]; cases normalizedBytes bytes <;> rfl

/-- The document's half of an operation: where it has characters of the text of `d`, these
    become what the rope is to mirror. -/
structure Splices (d d' : L.Doc) (op : EditOp) (u v : ℕ) (normalized : Option Bytes) : Prop where
  le : u ≤ v
  le_length : v ≤ (L.text d).length
  start : op.range.start = Utf8.byteAt (L.text d) u
  stop : op.range.start + op.range.len = Utf8.byteAt (L.text d) v
  inserted : (withBytes normalized op).inserted = Utf8.encode (Utf8.lossy op.inserted)
  text : L.text d' = splice (L.text d) u v (Utf8.lossy op.inserted)

namespace Splices

variable {normalized : Option Bytes}

theorem isNoOpEdit (h : Splices d d' op u v normalized) (hop : isNoOpEdit op = false) :
    Buffer.isNoOpEdit (withBytes normalized op) = false := by
  rw [Bool.eq_false_iff] at hop ⊢
  intro hnothing
  obtain ⟨hempty, hnil⟩ := (isNoOpEdit_iff _).1 hnothing
  rw [range_withBytes] at hempty
  rw [h.inserted] at hnil
  refine hop ((isNoOpEdit_iff op).2 ⟨hempty, ?_⟩)
  by_contra hne
  exact absurd (length_encode_pos (lossy_ne_nil hne)) (by simp [hnil])

theorem onBoundaries (h : Splices d d' op u v normalized) :
    op.OnBoundaries (encode (L.text d)) :=
  ⟨isCharBoundary_iff.2 ⟨u, le_trans h.le h.le_length, h.start⟩,
    isCharBoundary_iff.2 ⟨v, h.le_length, h.stop⟩⟩

/-- A range in order is mirrored; one that is not takes nothing out and puts nothing in. -/
theorem mirrors (h : Splices d d' op u v normalized)
    (hordered : op.Ordered (encode (L.text d))) : Mirrors d d' (withBytes normalized op) := by
  have hstop := h.stop
  rw [Range.len] at hstop
  rcases lt_or_ge op.range.stop op.range.start with hlt | hge
  · have hstart := h.start
    have hsame : byteAt (L.text d) u = byteAt (L.text d) v := by omega
    obtain rfl := byteAt_inj (le_trans h.le h.le_length) h.le_length hsame
    have htext := h.text
    rw [hordered.inserted_nil hlt h.onBoundaries.1, show lossy [] = [] from rfl,
      splice_same] at htext
    exact mirrors_of_lt (by rw [range_withBytes]; exact hlt) htext
  rw [Nat.add_sub_cancel' hge] at hstop
  exact mirrors_of_splice h.le (by rw [range_withBytes]; exact h.start)
    (by rw [range_withBytes]; exact hstop) h.inserted h.text

end Splices

theorem insertLossy_spec (hL : L.Laws) (pos : ℕ) (bytes : Bytes) (d : L.Doc) :
    (∃ u d', u ≤ (L.text d).length ∧ pos = byteAt (L.text d) u ∧
        insertLossy pos bytes d = .ok (normalizedBytes bytes) d' ∧
          L.text d' = splice (L.text d) u u (lossy bytes)) ∨
      ((∀ u ≤ (L.text d).length, pos ≠ byteAt (L.text d) u) ∧
        ∃ e, insertLossy pos bytes d = .error e d) := by
  simp only [insertLossy, orReject, Bind.bind, EStateM.bind]
  rcases Crdt.insert_spec hL pos (lossy bytes) d with
    ⟨u, d', hu, hpos, hd', htext⟩ | ⟨hnone, e, he⟩
  · rw [hd']; exact .inl ⟨u, d', hu, hpos, rfl, htext⟩
  · rw [he]; exact .inr ⟨hnone, _, rfl⟩

/-- A deletion routed to the document, of nothing when the range stops before its
    start. -/
theorem deleteBytes_spec (hL : L.Laws) (hstart : range.start ≤ usizeMax)
    (hstop : range.stop ≤ usizeMax) (d : L.Doc) :
    (∃ u v d', orReject (Crdt.delete range.start range.len) d = .ok () d' ∧
        Splices d d' (.delete range) u v none) ∨
      (¬ (EditOp.delete range).OnBoundaries (encode (L.text d)) ∧
        ∃ e, orReject (Crdt.delete range.start range.len) d = .error e d) := by
  have hmax : range.start + range.len ≤ usizeMax := by rw [Range.len]; omega
  simp only [orReject]
  rcases Crdt.delete_spec hL hmax d with
    ⟨u, v, d', huv, hv, hfrom, hend, hd', htext⟩ | ⟨hnone, e, he⟩
  · rw [hd']; exact .inl ⟨u, v, d', rfl, huv, hv, hfrom, hend, rfl, htext⟩
  rw [he]
  refine .inr ⟨?_, _, rfl⟩; rintro ⟨hfrom, hto⟩
  obtain ⟨u, hu, hbyte⟩ := isCharBoundary_iff.1 hfrom
  obtain ⟨v, hv, hbyte'⟩ := isCharBoundary_iff.1 hto; exact hnone u v hu hv hbyte hbyte'

/-- What is routed to the document: refused without a trace off its characters, and on them a
    splice of its text. -/
theorem routeOps_spec (hL : L.Laws) (d : L.Doc) (hop : isNoOpEdit op = false)
    (hrange : op.InRange) : (∃ u v normalized d', routeOps op d = .ok (some normalized) d' ∧
        Splices d d' op u v normalized) ∨
      (¬ op.OnBoundaries (encode (L.text d)) ∧ ∃ e, routeOps op d = .error e d) := by
  cases op with
  | insert pos bytes =>
    have hbytes : bytes.isEmpty = false := hop
    simp only [routeOps, hbytes, Bool.false_eq_true, if_false, Functor.map, EStateM.map]
    rcases insertLossy_spec hL pos bytes d with ⟨u, d', hu, hpos, hd', htext⟩ | ⟨hnone, e, he⟩
    · rw [hd']
      refine .inl ⟨u, u, _, d', rfl, Nat.le_refl u, hu, hpos, ?_,
        inserted_withBytes (.insert pos bytes), htext⟩
      simpa [EditOp.range, Range.len] using hpos
    rw [he]
    refine .inr ⟨fun hboundary => ?_, e, rfl⟩
    obtain ⟨u, hu, hbyte⟩ := isCharBoundary_iff.1 hboundary.1; exact hnone u hu hbyte
  | delete range =>
    have hempty : range.isEmpty = false := hop
    simp only [routeOps, hempty, Bool.false_eq_true, if_false, Bind.bind, EStateM.bind]
    rcases deleteBytes_spec hL hrange.1 hrange.2 d with ⟨u, v, d', hd', hsplices⟩ | ⟨hout, e, he⟩
    · rw [hd']; exact .inl ⟨u, v, none, d', rfl, hsplices⟩
    · rw [he]; exact .inr ⟨hout, e, rfl⟩
  | replace range bytes =>
    by_cases hempty : range.isEmpty
    · have hbytes : bytes.isEmpty = false := by simpa [isNoOpEdit, hempty] using hop
      have hsame : range.start = range.stop := by simpa [Range.isEmpty] using hempty
      simp only [routeOps, hempty, hbytes, Bool.false_eq_true, if_false, if_true, Bind.bind,
        EStateM.bind, Pure.pure, EStateM.pure, Functor.map, EStateM.map]
      rcases insertLossy_spec hL range.start bytes d with
        ⟨u, d', hu, hpos, hd', htext⟩ | ⟨hnone, e, he⟩
      · rw [hd']
        refine .inl ⟨u, u, _, d', rfl, Nat.le_refl u, hu, hpos, ?_,
          inserted_withBytes (.replace range bytes), htext⟩
        show range.start + range.len = _
        rw [Range.len, ← hsame, Nat.sub_self, Nat.add_zero, hpos]
      rw [he]
      refine .inr ⟨fun hboundary => ?_, e, rfl⟩
      obtain ⟨u, hu, hbyte⟩ := isCharBoundary_iff.1 hboundary.1; exact hnone u hu hbyte
    simp only [routeOps, hempty, Bool.false_eq_true, if_false, Bind.bind, EStateM.bind]
    rcases deleteBytes_spec hL hrange.1 hrange.2 d with ⟨u, v, d₁, hd₁, h₁⟩ | ⟨hout, e, he⟩
    · rw [hd₁]; have hu : u ≤ (L.text d).length := Nat.le_trans h₁.le h₁.le_length
      have htext₁ : L.text d₁ = splice (L.text d) u v [] := h₁.text
      by_cases hbytes : bytes.isEmpty
      · obtain rfl := isEmpty_iff.1 hbytes
        exact .inl ⟨u, v, none, d₁, rfl, h₁.le, h₁.le_length, h₁.start, h₁.stop, rfl, h₁.text⟩
      -- the start stays a boundary when what follows it goes
      have htake : (L.text d₁).take u = (L.text d).take u := by
        rw [htext₁, splice_nil, take_left' (by rw [length_take]; omega)]
      have hu₁ : u ≤ (L.text d₁).length := by
        rw [htext₁, length_splice [] h₁.le h₁.le_length]; have := h₁.le_length; omega
      have hstart₁ : range.start = byteAt (L.text d₁) u := by
        rw [byteAt_of_take_eq htake]; exact h₁.start
      simp only [hbytes, Bool.false_eq_true, if_false, Functor.map, EStateM.map]
      rcases insertLossy_spec hL range.start bytes d₁ with
        ⟨w, d', hw, hpos, hd', htext⟩ | ⟨hnone, _⟩
      · rw [hd']; have hwu : w = u := byteAt_inj hw hu₁ (by rw [← hpos, hstart₁])
        rw [hwu, htext₁, splice_splice _ hu] at htext
        exact .inl ⟨u, v, _, d', rfl, h₁.le, h₁.le_length, h₁.start, h₁.stop,
          inserted_withBytes (.replace range bytes), htext⟩
      · exact absurd hstart₁ (hnone u hu₁)
    · rw [he]; exact .inr ⟨hout, e, rfl⟩

/-! ## Imports -/

theorem applyDeltas_filter (deltas : List (List TextDelta)) (cs : List Char) :
    applyDeltas (deltas.filter fun delta => !delta.isEmpty) cs = applyDeltas deltas cs := by
  induction deltas generalizing cs with
  | nil => rfl
  | cons delta deltas ih =>
    cases delta with
    | nil => exact ih cs
    | cons step steps => rw [filter_cons_of_pos (by simp)]; simp only [applyDeltas, ih]

theorem findInsert_found :
    ∀ {ds : List TextDelta} {cursor : ℕ} {x y : ℕ × List Char} {cs cs' : List Char},
      findInsert cursor (some x) ds = some y → applyDelta ds cs = some cs' → y = x ∧ cs' = cs
  | [], cursor, x, y, cs, cs', h, hcs => by
    cases h; cases hcs; exact ⟨rfl, rfl⟩
  | .retain n _ :: ds, cursor, x, y, cs, cs', h, hcs => by
    rw [findInsert] at h
    split_ifs at h
    rw [applyDelta] at hcs
    split_ifs at hcs
    obtain ⟨rest, hrest, rfl⟩ := map_eq_some_iff.1 hcs
    obtain ⟨rfl, rfl⟩ := findInsert_found h hrest; exact ⟨rfl, take_append_drop n cs⟩
  | .insert s _ :: ds, cursor, x, y, cs, cs', h, hcs => by
    rw [findInsert] at h
    split_ifs at h with hs hx
    · rw [applyDelta, isEmpty_iff.1 hs] at hcs; obtain ⟨rest, hrest, rfl⟩ := map_eq_some_iff.1 hcs
      exact findInsert_found h hrest
    · exact absurd rfl hx
  | .delete n :: ds, cursor, x, y, cs, cs', h, hcs => by
    rw [findInsert] at h
    split_ifs at h with hn
    subst hn
    exact findInsert_found h hcs

theorem findInsert_spec : ∀ {ds : List TextDelta} {cursor pos : ℕ} {s cs cs' : List Char},
      findInsert cursor none ds = some (pos, s) → applyDelta ds cs = some cs' →
        ∃ k ≤ cs.length, pos = cursor + k ∧ cs' = splice cs k k s
  | .retain n _ :: ds, cursor, pos, s, cs, cs', h, hcs => by
    rw [findInsert] at h
    split_ifs at h
    rw [applyDelta] at hcs
    split_ifs at hcs with hn
    obtain ⟨rest, hrest, rfl⟩ := map_eq_some_iff.1 hcs
    obtain ⟨k, hk, rfl, rfl⟩ := findInsert_spec h hrest; rw [length_drop] at hk
    refine ⟨n + k, by omega, by omega, ?_⟩
    have hlen : (cs.take n).length = n := by rw [length_take]; omega
    have hsplice := splice_append_right (cs.take n) (cs.drop n) k k s
    rw [take_append_drop, hlen] at hsplice; exact hsplice.symm
  | .insert s' _ :: ds, cursor, pos, s, cs, cs', h, hcs => by
    rw [findInsert] at h; obtain ⟨rest, hrest, rfl⟩ := map_eq_some_iff.1 hcs
    split_ifs at h with hs
    · rw [isEmpty_iff.1 hs]; exact findInsert_spec h hrest
    obtain ⟨heq, rfl⟩ := findInsert_found h hrest; cases heq
    exact ⟨0, Nat.zero_le _, rfl, by simp [splice]⟩
  | .delete n :: ds, cursor, pos, s, cs, cs', h, hcs => by
    rw [findInsert] at h
    split_ifs at h with hn
    subst hn; exact findInsert_spec h hcs

theorem findDelete_found : ∀ {ds : List TextDelta} {cursor : ℕ} {x y : ℕ × ℕ} {cs cs' : List Char},
      findDelete cursor (some x) ds = some y → applyDelta ds cs = some cs' → y = x ∧ cs' = cs
  | [], cursor, x, y, cs, cs', h, hcs => by
    cases h; cases hcs; exact ⟨rfl, rfl⟩
  | .retain n _ :: ds, cursor, x, y, cs, cs', h, hcs => by
    rw [findDelete] at h
    split_ifs at h
    rw [applyDelta] at hcs
    split_ifs at hcs
    obtain ⟨rest, hrest, rfl⟩ := map_eq_some_iff.1 hcs
    obtain ⟨rfl, rfl⟩ := findDelete_found h hrest; exact ⟨rfl, take_append_drop n cs⟩
  | .insert s _ :: ds, cursor, x, y, cs, cs', h, hcs => by
    rw [findDelete] at h
    split_ifs at h with hs
    rw [applyDelta, isEmpty_iff.1 hs] at hcs; obtain ⟨rest, hrest, rfl⟩ := map_eq_some_iff.1 hcs
    exact findDelete_found h hrest
  | .delete n :: ds, cursor, x, y, cs, cs', h, hcs => by
    rw [findDelete] at h
    split_ifs at h with hn hx
    · subst hn
      exact findDelete_found h hcs
    · exact absurd rfl hx

theorem findDelete_spec : ∀ {ds : List TextDelta} {cursor pos n : ℕ} {cs cs' : List Char},
      findDelete cursor none ds = some (pos, n) → applyDelta ds cs = some cs' →
        ∃ k, k + n ≤ cs.length ∧ pos = cursor + k ∧ cs' = splice cs k (k + n) []
  | .retain m _ :: ds, cursor, pos, n, cs, cs', h, hcs => by
    rw [findDelete] at h
    split_ifs at h
    rw [applyDelta] at hcs
    split_ifs at hcs with hm
    obtain ⟨rest, hrest, rfl⟩ := map_eq_some_iff.1 hcs
    obtain ⟨k, hk, rfl, rfl⟩ := findDelete_spec h hrest; rw [length_drop] at hk
    refine ⟨m + k, by omega, by omega, ?_⟩
    have hlen : (cs.take m).length = m := by rw [length_take]; omega
    have hsplice := splice_append_right (cs.take m) (cs.drop m) k (k + n) []
    rw [take_append_drop, hlen, ← add_assoc] at hsplice; exact hsplice.symm
  | .insert s _ :: ds, cursor, pos, n, cs, cs', h, hcs => by
    rw [findDelete] at h
    split_ifs at h with hs
    rw [applyDelta, isEmpty_iff.1 hs] at hcs; obtain ⟨rest, hrest, rfl⟩ := map_eq_some_iff.1 hcs
    exact findDelete_spec h hrest
  | .delete m :: ds, cursor, pos, n, cs, cs', h, hcs => by
    rw [findDelete] at h; rw [applyDelta] at hcs
    split_ifs at hcs with hm
    split_ifs at h with hzero
    · subst hzero; exact findDelete_spec h hcs
    obtain ⟨heq, rfl⟩ := findDelete_found h hcs; cases heq
    refine ⟨0, by omega, rfl, ?_⟩; rw [splice_nil, take_zero, nil_append, zero_add]

variable {stop : ℕ}

theorem ropeByteEndAfterChars_eq {cs : List Char} {i n : ℕ}
    (h : ropeByteEndAfterChars (encode cs) (byteAt cs i) n = some stop) :
    stop = byteAt cs (i + n) := by
  rw [ropeByteEndAfterChars] at h
  split_ifs at h with hzero
  dsimp only at h
  generalize hbuf : slice (encode cs) (byteAt cs i) (byteAt cs i +
    min (min (n * 4) (2 ^ 64 - 1)) ((encode cs).length - byteAt cs i)) = buf at h
  have hwindow : buf <+: encode (cs.drop i) := by
    rw [← hbuf, slice, drop_take, ← encode_drop]; exact take_prefix _ _
  cases hvalid : fromUtf8 (buf.take (validUpTo buf)) with
  | none => rw [hvalid, getD_none, length_nil, if_pos (by omega)] at h; cases h
  | some s =>
    rw [hvalid, getD_some] at h
    split_ifs at h with hshort
    cases h
    -- the valid part of the window holds the characters sought
    have hs : s <+: cs.drop i := by
      refine prefix_of_encode ?_; rw [← fromUtf8_eq_some.1 hvalid]
      exact ( take_prefix _ _).trans hwindow
    obtain ⟨rest, hrest⟩ := hs
    have htake : (s ++ rest).take n = s.take n := take_append_of_le_length (by omega)
    rw [byteAt_add, ← hrest, byteAt.eq_1 (s ++ rest), htake]

/-- The difference of two texts, cut at boundaries, turns one into the other. -/
theorem remoteDiff_spec (old new : Bytes) : match remoteDiff old new with
    | none => old = new
    | some (range, inserted) => range.start ≤ range.stop ∧ range.stop ≤ old.length ∧
        splice old range.start range.stop inserted = new := by
  have hpre := backOff_le (isCharBoundary old) (commonPrefix old new)
  rw [remoteDiff]
  generalize backOff (isCharBoundary old) (commonPrefix old new) = pre at *
  have hsuf := backOff_le (fun n => isCharBoundary old (old.length - n) &&
    isCharBoundary new (new.length - n))
    (min (commonPrefix old.reverse new.reverse) (min (old.length - pre) (new.length - pre)))
  generalize backOff (fun n => isCharBoundary old (old.length - n) &&
    isCharBoundary new (new.length - n))
    (min (commonPrefix old.reverse new.reverse) (min (old.length - pre) (new.length - pre))) = suf
    at *
  obtain ⟨hold, hnew⟩ := commonPrefix_le old new
  have htake : old.take pre = new.take pre := take_commonPrefix old new pre hpre
  have hdrop : old.drop (old.length - suf) = new.drop (new.length - suf) := by
    have hrev := take_commonPrefix old.reverse new.reverse suf (by omega)
    rw [take_reverse, take_reverse] at hrev; exact reverse_injective hrev
  split
  · rename_i hnone
    split_ifs at hnone with hall
    rw [← take_append_drop pre old, ← take_append_drop pre new, htake]
    rw [show old.length - suf = pre by omega, show new.length - suf = pre by omega] at hdrop
    rw [hdrop]
  rename_i range inserted hsome
  split_ifs at hsome with hall
  cases hsome; have hle : pre ≤ old.length - suf := by omega
  refine ⟨hle, Nat.sub_le _ _, ?_⟩; have hwithin : pre + suf ≤ new.length := by omega
  exact splice_of_agree htake hdrop hwithin

/-- An edit made for an import mirrors it. -/
def MirrorsImport (d d' : L.Doc) (edit : Option (Range × Bytes)) : Prop :=
  match edit with
  | none => Utf8.encode (L.text d) = Utf8.encode (L.text d')
  | some (range, inserted) => range.start ≤ range.stop ∧
    range.stop ≤ (Utf8.encode (L.text d)).length ∧
      splice (Utf8.encode (L.text d)) range.start range.stop inserted = Utf8.encode (L.text d')

theorem insert_mirrorsImport (hL : L.Laws)
    (himport : applyDeltas deltas (L.text d) = some (L.text d')) {pos at_ : ℕ}
    (hfound : singleRemoteTextInsert deltas = some (pos, s))
    (hat : Crdt.unicodeToUtf8Pos d' pos = some at_) :
    MirrorsImport d d' (some (⟨at_, at_⟩, encode s)) := by
  unfold singleRemoteTextInsert at hfound
  split at hfound
  · simp only [applyDeltas, bind_eq_some_iff] at himport; obtain ⟨cs, hcs, hsame⟩ := himport
    cases hsame; obtain ⟨k, hk, rfl, htext⟩ := findInsert_spec hfound hcs
    rw [Crdt.unicodeToUtf8Pos_eq hL] at hat
    split_ifs at hat
    cases hat
    have htake : (L.text d').take (0 + k) = (L.text d).take (0 + k) := by
      rw [zero_add, htext, splice, append_assoc, take_left' (by rw [length_take]; omega)]
    rw [byteAt_of_take_eq htake, zero_add]
    refine ⟨le_rfl, byteAt_le _ _, ?_⟩; rw [htext, encode_splice]
  · cases hfound

theorem delete_mirrorsImport (hL : L.Laws)
    (himport : applyDeltas deltas (L.text d) = some (L.text d')) {pos n start : ℕ}
    (hfound : singleRemoteTextDelete deltas = some (pos, n))
    (hstart : Crdt.unicodeToUtf8Pos d' pos = some start)
    (hstop : ropeByteEndAfterChars (encode (L.text d)) start n = some stop) :
    MirrorsImport d d' (some (⟨start, stop⟩, [])) := by
  unfold singleRemoteTextDelete at hfound
  split at hfound
  · simp only [applyDeltas, bind_eq_some_iff] at himport; obtain ⟨cs, hcs, hsame⟩ := himport
    cases hsame; obtain ⟨k, hk, rfl, htext⟩ := findDelete_spec hfound hcs
    rw [Crdt.unicodeToUtf8Pos_eq hL] at hstart
    split_ifs at hstart
    cases hstart
    have htake : (L.text d').take (0 + k) = (L.text d).take (0 + k) := by
      rw [zero_add, htext, splice_nil, take_left' (by rw [length_take]; omega)]
    rw [byteAt_of_take_eq htake, zero_add] at hstop ⊢; rw [ropeByteEndAfterChars_eq hstop]
    refine ⟨byteAt_mono _ (Nat.le_add_right k n), byteAt_le _ _, ?_⟩
    rw [htext, encode_splice, encode_nil]
  · cases hfound

def remoteInsert (d : L.Doc) (deltas : List (List TextDelta)) : Option (Range × Bytes) := do
  let (pos, s) ← singleRemoteTextInsert deltas
  let at_ ← Crdt.unicodeToUtf8Pos d pos
  some (⟨at_, at_⟩, Utf8.encode s)

def remoteDelete (rope : Bytes) (d : L.Doc) (deltas : List (List TextDelta)) :
    Option (Range × Bytes) := do
  let (pos, n) ← singleRemoteTextDelete deltas
  let start ← Crdt.unicodeToUtf8Pos d pos
  let stop ← ropeByteEndAfterChars rope start n
  some (⟨start, stop⟩, [])

theorem remoteEdit_eq (rope : Bytes) {d : L.Doc} {deltas : List (List TextDelta)} :
    remoteEdit rope d deltas = match remoteInsert d deltas, remoteDelete rope d deltas with
      | some edit, _ => some (some edit)
      | none, some edit => some (some edit)
      | none, none =>
        if (fromUtf8 rope).isSome then some (remoteDiff rope (encode (L.text d)))
        else none := rfl

theorem findInsert_ne_nil :
    ∀ {ds : List TextDelta} {cursor : ℕ} {found : Option (ℕ × List Char)} {y : ℕ × List Char},
      (∀ x, found = some x → x.2 ≠ []) → findInsert cursor found ds = some y → y.2 ≠ []
  | [], _, _, y, hfound, h => hfound y h
  | .retain n _ :: ds, cursor, found, y, hfound, h => by
    rw [findInsert] at h
    split_ifs at h
    exact findInsert_ne_nil hfound h
  | .insert s _ :: ds, cursor, found, y, hfound, h => by
    rw [findInsert] at h
    split_ifs at h with hs
    · exact findInsert_ne_nil hfound h
    refine findInsert_ne_nil (fun x hx => ?_) h; cases hx
    exact fun hnil => hs (isEmpty_iff.2 hnil)
  | .delete n :: ds, cursor, found, y, hfound, h => by
    rw [findInsert] at h
    split_ifs at h
    exact findInsert_ne_nil hfound h

theorem lt_ropeByteEndAfterChars {rope : Bytes} {start chars : ℕ}
    (h : ropeByteEndAfterChars rope start chars = some stop) : start < stop := by
  rw [ropeByteEndAfterChars] at h
  split_ifs at h with hzero
  dsimp only at h
  split_ifs at h with hshort
  cases h
  generalize (fromUtf8 _).getD [] = s at hshort ⊢
  have hne : s.take chars ≠ [] := by
    intro hnil; have hlen := congrArg length hnil; rw [length_take, length_nil] at hlen
    omega
  have := length_encode_pos hne
  omega

theorem text_ne_of_splice (h : MirrorsImport d d' (some (range, inserted)))
    (hlen : range.stop - range.start ≠ inserted.length) : L.text d' ≠ L.text d := by
  obtain ⟨hle, hstop, hsplice⟩ := h
  intro htext
  rw [htext] at hsplice
  have hlength := congrArg length hsplice
  rw [length_splice inserted hle hstop] at hlength
  omega

variable {edit : Range × Bytes}

theorem remoteInsert_mirrors (hL : L.Laws)
    (himport : applyDeltas deltas (L.text d) = some (L.text d'))
    (h : remoteInsert d' deltas = some edit) :
    MirrorsImport d d' (some edit) ∧ L.text d' ≠ L.text d := by
  simp only [remoteInsert, bind_eq_bind, bind_eq_some_iff] at h
  obtain ⟨⟨pos, s⟩, hfound, at_, hat, hedit⟩ := h
  cases hedit
  have hmirrors := insert_mirrorsImport hL himport hfound hat
  refine ⟨hmirrors, text_ne_of_splice hmirrors ?_⟩
  have hne : s ≠ [] := by
    unfold singleRemoteTextInsert at hfound
    split at hfound
    · exact findInsert_ne_nil (fun _ hnone => by cases hnone) hfound
    · cases hfound
  have := length_encode_pos hne
  rw [Nat.sub_self]
  omega

theorem remoteDelete_mirrors (hL : L.Laws)
    (himport : applyDeltas deltas (L.text d) = some (L.text d'))
    (h : remoteDelete (encode (L.text d)) d' deltas = some edit) :
    MirrorsImport d d' (some edit) ∧ L.text d' ≠ L.text d := by
  simp only [remoteDelete, bind_eq_bind, bind_eq_some_iff] at h
  obtain ⟨⟨pos, n⟩, hfound, start, hstart, stop, hstop, hedit⟩ := h
  cases hedit
  have hmirrors := delete_mirrorsImport hL himport hfound hstart hstop
  refine ⟨hmirrors, text_ne_of_splice hmirrors ?_⟩
  have := lt_ropeByteEndAfterChars hstop
  show stop - start ≠ 0
  omega

theorem remoteDiff_self : remoteDiff bytes bytes = none := by
  have hpre : backOff (isCharBoundary bytes) (commonPrefix bytes bytes) = bytes.length := by
    rw [commonPrefix_self]; exact backOff_self (isCharBoundary_length)
  rw [remoteDiff]
  rw [hpre, Nat.sub_self, Nat.min_self, Nat.min_zero]
  exact if_pos ⟨rfl, rfl⟩

/-- An import does not panic on a rope of the document's text, its edit mirrors it, and there is
    none exactly where the text is the same. -/
theorem remoteEdit_spec (hL : L.Laws) (himport : applyDeltas deltas (L.text d) = some (L.text d')) :
    ∃ edit, remoteEdit (encode (L.text d)) d' deltas = some edit ∧ MirrorsImport d d' edit ∧
      (edit = none ↔ L.text d' = L.text d) := by
  rw [remoteEdit_eq]
  cases hinsert : remoteInsert d' deltas with
  | some edit =>
    obtain ⟨hmirrors, hne⟩ := remoteInsert_mirrors hL himport hinsert
    exact ⟨some edit, rfl, hmirrors, by simp [hne]⟩
  | none =>
    cases hdelete : remoteDelete (encode (L.text d)) d' deltas with
    | some edit =>
      obtain ⟨hmirrors, hne⟩ := remoteDelete_mirrors hL himport hdelete
      exact ⟨some edit, rfl, hmirrors, by simp [hne]⟩
    | none =>
      rw [if_pos (by rw [fromUtf8_encode]; rfl)]
      have hmirrors : MirrorsImport d d' (remoteDiff (encode (L.text d))
        (encode (L.text d'))) := remoteDiff_spec _ _
      refine ⟨_, rfl, hmirrors, fun hnone => ?_, fun htext => ?_⟩
      · rw [hnone] at hmirrors; exact (encode_injective hmirrors).symm
      · rw [htext]; exact remoteDiff_self

end Buffer

end Pmacs
