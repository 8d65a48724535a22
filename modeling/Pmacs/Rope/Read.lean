/-
  Reading a rope (rope.rs).

  * `byteAtIn`, `sliceIn` and `collectLeaves` are the source's recursive readers: the first carries
    a position relative to its node, the other two the node's offset in the rope. They are `none`
    where the source panics (an index out of range, a subtraction below zero, `unreachable!`);
  * `byteAtIn_spec`, `sliceIn_spec`, `collectLeaves_spec`: on a well-formed tree each reads its
    bytes;
  * `Rope.reach_reads`: the readers agree on every rope that edits reach.
-/
import Pmacs.Lib.Integers
import Pmacs.Rope.Spec

namespace Pmacs

open Lib List Option Node

/-! ## Checked operations -/

/-- `bytes[s..e]`, none out of range. -/
def checkedSlice (bytes : Bytes) (s e : ℕ) : Option Bytes :=
  if s ≤ e ∧ e ≤ bytes.length then some (slice bytes s e) else none

/-- `copy_from_slice`: what `out` holds then, none when the lengths differ. -/
def copyFromSlice (out src : Bytes) : Option Bytes :=
  if out.length = src.length then some src else none

@[simp]
theorem checkedSlice_of_le {bytes : Bytes} {s e : ℕ} (hse : s ≤ e) (he : e ≤ bytes.length) :
    checkedSlice bytes s e = some (slice bytes s e) := if_pos ⟨hse, he⟩

/-! ## The readers -/

mutual
/-- The byte at `pos`, relative to the node. -/
def byteAtIn : Node → ℕ → Option UInt8
  | .leaf chunk, pos => chunk[pos]?
  | .internal children _, pos => byteAtChildren children 0 pos

/-- The loop over the children, the first of which starts at `offset`. -/
def byteAtChildren : List Node → ℕ → ℕ → Option UInt8
  | [], _, _ => none
  | child :: rest, offset, pos =>
    if pos < offset + child.len then (checkedSub pos offset).bind (byteAtIn child)
    else byteAtChildren rest (offset + child.len) pos
end

mutual
/-- Copy the bytes `[start, stop)` of the rope, all of which the node holds, into `out`. -/
def sliceIn : Node → ℕ → ℕ → ℕ → Bytes → Option Bytes
  | .leaf chunk, start, stop, nodeOffset, out =>
    (checkedSub start nodeOffset).bind fun localStart =>
    (checkedSub stop nodeOffset).bind fun localEnd =>
    (checkedSlice chunk localStart localEnd).bind (copyFromSlice out)
  | .internal children _, start, stop, nodeOffset, out =>
    sliceChildren children start stop nodeOffset 0 out

/-- The loop over the children, the first of which starts at `offset`, `written` bytes of `out`
    being filled. -/
def sliceChildren : List Node → ℕ → ℕ → ℕ → ℕ → Bytes → Option Bytes
  | [], _, _, _, _, out => some out
  | child :: rest, start, stop, offset, written, out =>
    let childEnd := offset + child.len
    if stop ≤ offset then some out
    else if start < childEnd ∧ max start offset < min stop childEnd then
      let takeStart := max start offset
      let takeEnd := min stop childEnd
      let take := takeEnd - takeStart
      (checkedSlice out written (written + take)).bind fun part =>
      (sliceIn child takeStart takeEnd offset part).bind fun part =>
      sliceChildren rest start stop childEnd (written + take)
        (splice out written (written + take) part)
    else sliceChildren rest start stop childEnd written out
end

mutual
/-- Push the parts of the leaves under a node that lie in `[start, stop)`. -/
def collectLeaves : Node → ℕ → ℕ → ℕ → List Bytes → Option (List Bytes)
  | .leaf chunk, start, stop, nodeOffset, out =>
    let nodeEnd := nodeOffset + chunk.length
    if stop ≤ nodeOffset ∨ nodeEnd ≤ start then some out
    else
      let localStart := start - nodeOffset
      (checkedSub stop nodeOffset).bind fun d =>
      let localEnd := min d chunk.length
      if localStart < localEnd then
        (checkedSlice chunk localStart localEnd).map fun part => out ++ [part]
      else some out
  | .internal children _, start, stop, nodeOffset, out =>
    collectChildren children start stop nodeOffset out

/-- The loop over the children, the first of which starts at `offset`. -/
def collectChildren : List Node → ℕ → ℕ → ℕ → List Bytes → Option (List Bytes)
  | [], _, _, _, out => some out
  | child :: rest, start, stop, offset, out =>
    let childEnd := offset + child.len
    if stop ≤ offset then some out
    else if start < childEnd then
      (collectLeaves child start stop offset out).bind fun out =>
      collectChildren rest start stop childEnd out
    else collectChildren rest start stop childEnd out
end

namespace Rope

/-- `Rope::byte_at`: none where it panics, the inner none past the end. -/
def byteAt (r : Rope) (pos : ℕ) : Option (Option UInt8) :=
  if r.len ≤ pos then some none else (byteAtIn r.root pos).map some

/-- `Rope::slice`: what `out` holds then. Its assertions panic too. -/
def slice (r : Rope) (start stop : ℕ) (out : Bytes) : Option Bytes :=
  if start ≤ stop ∧ stop ≤ r.len ∧ out.length = stop - start then
    if out.isEmpty then some out else sliceIn r.root start stop 0 out
  else none

/-- `Rope::chunks`: what the iterator yields. -/
def chunks (r : Rope) (start stop : ℕ) : Option (List Bytes) :=
  if start < stop then collectLeaves r.root start stop 0 [] else some []

end Rope

/-! ## A byte -/

variable {cs : List Node}

theorem byteAtChildren_spec (hlen : ∀ c ∈ cs, c.len = c.bytes.length)
    (hbyte : ∀ c ∈ cs, ∀ pos < c.bytes.length, byteAtIn c pos = c.bytes[pos]?) :
    ∀ {offset pos : ℕ}, offset ≤ pos → pos - offset < (bytesOf cs).length →
      byteAtChildren cs offset pos = (bytesOf cs)[pos - offset]? := by
  induction cs with
  | nil => intro offset pos _ hpos; exact absurd hpos (Nat.not_lt_zero _)
  | cons c cs ih =>
    intro offset pos hle hpos; have hc := hlen c mem_cons_self
    rw [bytesOf_cons, length_append] at hpos; rw [byteAtChildren, bytesOf_cons]
    split_ifs with hin
    · rw [checkedSub_of_le hle, bind_some, hbyte c mem_cons_self _ (by omega),
        getElem?_append_left (by omega)]
    rw [ih (fun n hn => hlen n (mem_cons_of_mem c hn))
      (fun n hn => hbyte n (mem_cons_of_mem c hn)) (by omega) (by omega),
      getElem?_append_right (by omega), hc, Nat.sub_add_eq]

theorem byteAtIn_spec : ∀ {d : ℕ} {n : Node}, n.WfAt d → ∀ {pos : ℕ}, pos < n.bytes.length →
    byteAtIn n pos = n.bytes[pos]?
  | 0, n, h, pos, _ => by obtain ⟨chunk, rfl, _⟩ := h.leaf_eq; rw [byteAtIn]; rfl
  | d + 1, n, h, pos, hpos => by
    obtain ⟨cs, rfl, _, _, hcs⟩ := h.internal_eq
    have hloop := byteAtChildren_spec (fun c hc => (hcs c hc).len_eq)
      (fun c hc pos => byteAtIn_spec (hcs c hc)) (Nat.zero_le pos) hpos
    rw [makeInternal, byteAtIn, hloop]; rfl

/-! ## A range into a buffer -/

/-- The loop over the children: what is written so far is kept, and the rest of the range
    follows it. -/
theorem sliceChildren_spec (hlen : ∀ c ∈ cs, c.len = c.bytes.length)
    (hslice : ∀ c ∈ cs, ∀ start stop offset out, offset ≤ start → start ≤ stop →
      stop ≤ offset + c.bytes.length → out.length = stop - start →
        sliceIn c start stop offset out = some (slice c.bytes (start - offset) (stop - offset))) :
    ∀ {start stop offset written : ℕ} {out : Bytes}, start ≤ stop → out.length = stop - start →
      stop ≤ offset + (bytesOf cs).length → written = min stop (max start offset) - start →
        sliceChildren cs start stop offset written out =
          some (out.take written ++ slice (bytesOf cs) (start - offset) (stop - offset)) := by
  induction cs with
  | nil =>
    intro start stop offset written out hss hout hstop hwritten
    rw [bytesOf_nil, length_nil] at hstop
    rw [sliceChildren, bytesOf_nil, take_of_length_le (by omega),
      slice_of_le _ (by omega), append_nil]
  | cons c cs ih =>
    intro start stop offset written out hss hout hstop hwritten; have hc := hlen c mem_cons_self
    have ih := @ih (fun n hn => hlen n (mem_cons_of_mem c hn))
      (fun n hn => hslice n (mem_cons_of_mem c hn))
    rw [bytesOf_cons, length_append] at hstop; rw [sliceChildren, bytesOf_cons]
    dsimp only
    by_cases hdone : stop ≤ offset
    · rw [if_pos hdone, take_of_length_le (by omega), slice_of_le _ (by omega), append_nil]
    rw [if_neg hdone, slice_append, hc]
    have hrest : start - offset - c.bytes.length = start - (offset + c.bytes.length) ∧
        stop - offset - c.bytes.length = stop - (offset + c.bytes.length) := by omega
    rw [hrest.1, hrest.2]
    by_cases htake : start < offset + c.bytes.length ∧
        max start offset < min stop (offset + c.bytes.length)
    · obtain ⟨hstart, hlt⟩ := htake
      have htotal : written + (min stop (offset + c.bytes.length) - max start offset) =
          min stop (offset + c.bytes.length) - start := by omega
      have hpart : (slice out written (min stop (offset + c.bytes.length) - start)).length =
          min stop (offset + c.bytes.length) - max start offset := by
        rw [length_slice (by omega)]; omega
      rw [if_pos ⟨hstart, hlt⟩, htotal, checkedSlice_of_le (by omega) (by omega),
        bind_some, hslice c mem_cons_self _ _ _ _ (by omega) (by omega) (by omega) hpart, bind_some]
      -- the child's part of the range
      have hchild : slice c.bytes (max start offset - offset)
          (min stop (offset + c.bytes.length) - offset) =
            slice c.bytes (start - offset) (stop - offset) := by
        rw [slice, slice, show max start offset - offset = start - offset by omega]
        congr 1
        rcases le_total stop (offset + c.bytes.length) with hle | hle
        · rw [min_eq_left hle]
        · rw [take_of_length_le (by omega), take_of_length_le (by omega)]
      have hchildLen : (slice c.bytes (start - offset) (stop - offset)).length =
          min stop (offset + c.bytes.length) - max start offset := by
        rw [← hchild, length_slice (by omega)]; omega
      rw [hchild]
      have houtLen : (splice out written (min stop (offset + c.bytes.length) - start)
          (slice c.bytes (start - offset) (stop - offset))).length = stop - start := by
        rw [length_splice _ (by omega) (by omega), hchildLen]; omega
      have hwrote : (splice out written (min stop (offset + c.bytes.length) - start)
          (slice c.bytes (start - offset) (stop - offset))).take
            (min stop (offset + c.bytes.length) - start) =
          out.take written ++ slice c.bytes (start - offset) (stop - offset) := by
        exact take_left' (by rw [length_append, length_take, hchildLen]; omega)
      rw [ih hss houtLen (by omega) (by omega), hwrote, append_assoc]
    -- no byte of the child is in the range
    rw [if_neg htake, ih hss hout (by omega) (by omega)]
    have hnone : slice c.bytes (start - offset) (stop - offset) = [] := by
      rw [slice, drop_eq_nil_iff, length_take]; omega
    rw [hnone, nil_append]

theorem sliceIn_spec : ∀ {d : ℕ} {n : Node}, n.WfAt d → ∀ (start stop offset : ℕ) (out : Bytes),
    offset ≤ start → start ≤ stop → stop ≤ offset + n.bytes.length → out.length = stop - start →
      sliceIn n start stop offset out = some (slice n.bytes (start - offset) (stop - offset))
  | 0, n, h, start, stop, offset, out, hoffset, hss, hstop, hout => by
    obtain ⟨chunk, rfl, _⟩ := h.leaf_eq; replace hstop : stop ≤ offset + chunk.length := hstop
    have hlen : out.length = (slice chunk (start - offset) (stop - offset)).length := by
      rw [length_slice (by omega)]; omega
    rw [sliceIn, checkedSub_of_le hoffset, bind_some, checkedSub_of_le (by omega),
      bind_some, checkedSlice_of_le (by omega) (by omega), bind_some, copyFromSlice, if_pos hlen]
    rfl
  | d + 1, n, h, start, stop, offset, out, hoffset, hss, hstop, hout => by
    obtain ⟨cs, rfl, _, _, hcs⟩ := h.internal_eq
    have hloop := sliceChildren_spec (fun c hc => (hcs c hc).len_eq)
      (fun c hc => sliceIn_spec (hcs c hc)) hss hout hstop
      (show 0 = min stop (max start offset) - start by omega)
    rw [makeInternal, sliceIn, hloop]; rfl

/-! ## A range as chunks -/

/-- Chunks of a text, none of them empty. -/
def Chunked (bytes : Bytes) (cs : List Bytes) : Prop := cs.flatten = bytes ∧ ∀ c ∈ cs, c ≠ []

theorem chunked_nil : Chunked [] [] := ⟨rfl, nofun⟩

theorem Chunked.append {bs bs' : Bytes} {cs cs' : List Bytes} (h : Chunked bs cs)
    (h' : Chunked bs' cs') : Chunked (bs ++ bs') (cs ++ cs') := by
  refine ⟨by rw [flatten_append, h.1, h'.1], fun c hc => ?_⟩
  rcases mem_append.1 hc with hc | hc
  · exact h.2 c hc
  · exact h'.2 c hc

theorem collectChildren_spec (hlen : ∀ c ∈ cs, c.len = c.bytes.length)
    (hcollect : ∀ c ∈ cs, ∀ start stop offset out, ∃ parts,
      collectLeaves c start stop offset out = some (out ++ parts) ∧
        Chunked (slice c.bytes (start - offset) (stop - offset)) parts) :
    ∀ {start stop offset : ℕ} {out : List Bytes}, ∃ parts,
      collectChildren cs start stop offset out = some (out ++ parts) ∧
        Chunked (slice (bytesOf cs) (start - offset) (stop - offset)) parts := by
  induction cs with
  | nil =>
    intro start stop offset out
    refine ⟨[], by rw [collectChildren, append_nil], ?_⟩
    rw [bytesOf_nil, slice, take_nil, drop_nil]; exact chunked_nil
  | cons c cs ih =>
    intro start stop offset out; have hc := hlen c mem_cons_self
    have ih := @ih (fun n hn => hlen n (mem_cons_of_mem c hn))
      (fun n hn => hcollect n (mem_cons_of_mem c hn))
    have hrest : start - offset - c.bytes.length = start - (offset + c.bytes.length) ∧
        stop - offset - c.bytes.length = stop - (offset + c.bytes.length) := by omega
    rw [collectChildren, bytesOf_cons, slice_append, hrest.1, hrest.2, hc]
    by_cases hdone : stop ≤ offset
    · refine ⟨[], by rw [if_pos hdone, append_nil], ?_⟩
      rw [slice_of_le _ (by omega), slice_of_le _ (by omega)]; exact chunked_nil
    rw [if_neg hdone]
    by_cases hstart : start < offset + c.bytes.length
    · obtain ⟨parts, hparts, hchunked⟩ := hcollect c mem_cons_self start stop offset out
      obtain ⟨parts', hparts', hchunked'⟩ := @ih start stop (offset + c.bytes.length) (out ++ parts)
      refine ⟨parts ++ parts', ?_, hchunked.append hchunked'⟩
      rw [if_pos hstart, hparts, bind_some, hparts', append_assoc]
    obtain ⟨parts, hparts, hchunked⟩ := @ih start stop (offset + c.bytes.length) out
    refine ⟨parts, by rw [if_neg hstart, hparts], ?_⟩
    have hnone : slice c.bytes (start - offset) (stop - offset) = [] := by
      rw [slice, drop_eq_nil_iff, length_take]; omega
    rw [hnone, nil_append]; exact hchunked

theorem collectLeaves_spec : ∀ {d : ℕ} {n : Node}, n.WfAt d →
    ∀ (start stop offset : ℕ) (out : List Bytes), ∃ parts,
      collectLeaves n start stop offset out = some (out ++ parts) ∧
        Chunked (slice n.bytes (start - offset) (stop - offset)) parts
  | 0, n, h, start, stop, offset, out => by
    obtain ⟨chunk, rfl, _⟩ := h.leaf_eq
    show ∃ parts, _ ∧ Chunked (slice chunk (start - offset) (stop - offset)) parts
    rw [collectLeaves]
    by_cases hout : stop ≤ offset ∨ offset + chunk.length ≤ start
    · have hnone : slice chunk (start - offset) (stop - offset) = [] := by
        rw [slice, drop_eq_nil_iff, length_take]; omega
      refine ⟨[], by rw [if_pos hout, append_nil], ?_⟩; rw [hnone]; exact chunked_nil
    rw [if_neg hout, checkedSub_of_le (by omega), bind_some]
    have hmin : slice chunk (start - offset) (stop - offset) =
        slice chunk (start - offset) (min (stop - offset) chunk.length) := by
      rw [slice, slice]
      rcases le_total (stop - offset) chunk.length with hle | hle
      · rw [min_eq_left hle]
      · rw [take_of_length_le hle, min_eq_right hle, take_length]
    rw [hmin]
    by_cases hlt : start - offset < min (stop - offset) chunk.length
    · refine ⟨[slice chunk (start - offset) (min (stop - offset) chunk.length)], ?_, ?_, ?_⟩
      · rw [if_pos hlt, checkedSlice_of_le (by omega) (by omega), map_some]
      · rw [flatten_cons, flatten_nil, append_nil]
      intro c hc; rw [mem_singleton.1 hc]; intro hnil
      have hlength := congrArg List.length hnil
      rw [length_slice (by omega), length_nil] at hlength; omega
    refine ⟨[], by rw [if_neg hlt, append_nil], ?_⟩; rw [slice_of_le _ (by omega)]
    exact chunked_nil
  | d + 1, n, h, start, stop, offset, out => by
    obtain ⟨cs, rfl, _, _, hcs⟩ := h.internal_eq
    have hloop := @collectChildren_spec cs (fun c hc => (hcs c hc).len_eq)
      (fun c hc => collectLeaves_spec (hcs c hc)) start stop offset out
    exact hloop

/-! ## Ropes -/

namespace Rope

/-- **The readers agree.** On every rope that edits reach, none of them panics: within the rope,
    the chunks of a range and the buffer it is copied into are the bytes of the list put through
    the same splices, no chunk is empty, and a byte is that list's. -/
theorem reach_reads {r : Rope} {l : Bytes} (h : Reach r l) :
    (∀ start stop, start ≤ stop → stop ≤ l.length →
      (∃ cs, r.chunks start stop = some cs ∧ cs.flatten = Lib.slice l start stop ∧
        ∀ c ∈ cs, c ≠ []) ∧ ∀ out : Bytes, out.length = stop - start →
        r.slice start stop out = some (Lib.slice l start stop)) ∧
    (∀ i, i < l.length → ∃ b, r.byteAt i = some (some b) ∧ l[i]? = some b) ∧
    ∀ i, l.length ≤ i → r.byteAt i = some none := by
  obtain ⟨hwf, rfl⟩ := h.wf_bytes
  have hlen : r.len = r.bytes.length := hwf.len_eq
  obtain ⟨d, hd⟩ := hwf
  refine ⟨fun start stop hss hstop => ⟨?_, fun out hout => ?_⟩, fun i hi => ?_, fun i hi => ?_⟩
  · rw [chunks]
    by_cases hlt : start < stop
    · obtain ⟨parts, hparts, hchunked⟩ := collectLeaves_spec hd start stop 0 []
      exact ⟨parts, by rw [if_pos hlt, hparts, nil_append], hchunked⟩
    · refine ⟨[], if_neg hlt, ?_, nofun⟩; rw [slice_of_le _ (by omega)]; rfl
  · rw [slice, if_pos ⟨hss, by rw [hlen]; exact hstop, hout⟩]
    split_ifs with hempty
    · have hnil := isEmpty_iff.1 hempty; rw [hnil, length_nil] at hout
      rw [hnil, slice_of_le _ (by omega)]
    exact sliceIn_spec hd start stop 0 out (Nat.zero_le _) hss
      (by rw [zero_add]; exact hstop) hout
  · obtain ⟨b, hb⟩ : ∃ b, r.bytes[i]? = some b := ⟨_, getElem?_eq_getElem hi⟩
    refine ⟨b, ?_, hb⟩
    rw [byteAt, if_neg (by omega), byteAtIn_spec hd hi, show r.root.bytes[i]? = some b from hb]; rfl
  · rw [byteAt, if_pos (by omega)]

/-- A rope of three leaves, read from inside the first to inside the last. -/
theorem reach_reads_leaves : ∃ r, Rope.fromBytes (replicate 2500 97) = some r ∧
    ∃ cs, r.chunks 1000 2100 = some cs ∧ cs.map length = [24, 1024, 52] ∧
      cs.flatten = replicate 1100 97 := by
  have hsome : (Rope.fromBytes (replicate 2500 97)).isSome := by decide +kernel
  obtain ⟨r, hr⟩ := isSome_iff_exists.1 hsome
  have hstop : 2100 ≤ (replicate 2500 (97 : UInt8)).length := by rw [length_replicate]; decide
  obtain ⟨⟨cs, hcs, hflatten, -⟩, -⟩ :=
    (reach_reads (.fromBytes hr)).1 1000 2100 (by decide) hstop
  have hlengths : ((Rope.fromBytes (replicate 2500 97)).bind fun r =>
      (r.chunks 1000 2100).map fun cs => cs.map length) = some [24, 1024, 52] := by decide +kernel
  rw [hr, bind_some, hcs, map_some, some_inj] at hlengths
  exact ⟨r, hr, cs, hcs, hlengths, by rw [hflatten, Lib.slice, take_replicate, drop_replicate]; rfl⟩

end Rope

end Pmacs
