/-
  The rope refines a plain byte list.

  * `Node.WfAt d n`: `n` is a well-formed tree of depth `d`;
  * `insertSmall_spec`, `deleteIn_spec`, `buildBalancedFromNodes_spec`: on well-formed trees the
    internals do not panic, keep the tree well formed, and splice its bytes;
  * `Rope.reach_refines`: every rope that edits can reach is well formed and
    holds the bytes of the list put through the same splices.
-/
import Pmacs.Rope.Tree

namespace Pmacs

open Lib List Option

/-! ## Well-formed trees -/

/-- A well-formed tree of depth `d`: small leaves, between one and eight
    children of one depth, exact cached lengths. -/
def Node.WfAt : ℕ → Node → Prop
  | 0, .leaf b => b.length ≤ maxLeafBytes
  | d + 1, .internal children len =>
    1 ≤ children.length ∧ children.length ≤ maxChildren ∧ len = (children.map Node.len).sum ∧
      ∀ c ∈ children, Node.WfAt d c
  | _, _ => False

/-- A well-formed tree: all its leaves are at one depth. -/
def Node.Wf (n : Node) : Prop := ∃ d, n.WfAt d

variable {d : ℕ} {cs : List Node}

namespace Node

theorem WfAt.leaf_eq {n : Node} (h : n.WfAt 0) : ∃ b, n = leaf b ∧ b.length ≤ maxLeafBytes := by
  cases n with
  | leaf b => exact ⟨b, rfl, h⟩
  | internal cs len => exact h.elim

theorem WfAt.internal_eq {n : Node} (h : n.WfAt (d + 1)) :
    ∃ cs, n = makeInternal cs ∧ 1 ≤ cs.length ∧ cs.length ≤ maxChildren ∧ ∀ c ∈ cs, c.WfAt d := by
  cases n with
  | leaf b => exact h.elim
  | internal cs len => obtain ⟨h1, h8, rfl, hcs⟩ := h; exact ⟨cs, rfl, h1, h8, hcs⟩

theorem wfAt_makeInternal (h1 : 1 ≤ cs.length)
    (h8 : cs.length ≤ maxChildren) (hcs : ∀ c ∈ cs, c.WfAt d) : (makeInternal cs).WfAt (d + 1) :=
  ⟨h1, h8, rfl, hcs⟩

@[simp]
theorem bytes_makeInternal : (makeInternal cs).bytes = bytesOf cs := rfl

@[simp]
theorem bytesOf_nil : bytesOf [] = [] := rfl

@[simp]
theorem bytesOf_cons (c : Node) : bytesOf (c :: cs) = c.bytes ++ bytesOf cs := rfl

theorem bytesOf_eq : bytesOf cs = cs.flatMap bytes := by
  induction cs with
  | nil => rfl
  | cons c cs ih => simp [bytesOf, ih]

@[simp]
theorem bytesOf_append (cs' : List Node) : bytesOf (cs ++ cs') = bytesOf cs ++ bytesOf cs' := by
  simp [bytesOf_eq]

/-- The length a well-formed tree reports is the number of its bytes. -/
theorem WfAt.len_eq : ∀ {d : ℕ} {n : Node}, n.WfAt d → n.len = n.bytes.length
  | 0, n, h => by obtain ⟨b, rfl, _⟩ := h.leaf_eq; rfl
  | d + 1, n, h => by
    obtain ⟨cs, rfl, _, _, hcs⟩ := h.internal_eq
    have hlen : ∀ c ∈ cs, c.len = c.bytes.length := fun c hc => (hcs c hc).len_eq
    rw [bytes_makeInternal, bytesOf_eq, length_flatMap]
    exact congrArg List.sum (map_congr_left hlen)

end Node

/-! ## Insertion -/

/-- What an insertion into a tree of depth `d` may return: nodes of that depth
    that hold `bs`. -/
def NodeOut.Holds (d : ℕ) (bs : Bytes) (out : NodeOut) : Prop :=
  (∀ n ∈ out.nodes, n.WfAt d) ∧ Node.bytesOf out.nodes = bs

theorem NodeOut.nodes_length (out : NodeOut) : 1 ≤ out.nodes.length ∧ out.nodes.length ≤ 2 := by
  cases out <;> simp [NodeOut.nodes]

/-- Replacing one child by the result of its insertion keeps the level well
    formed, whether or not the level splits. -/
theorem spliceInternal_spec {pre post : List Node} {c : Node} {bs : Bytes} {out : NodeOut}
    (h8 : (pre ++ c :: post).length ≤ maxChildren) (hpre : ∀ n ∈ pre, n.WfAt d)
    (hpost : ∀ n ∈ post, n.WfAt d) (hout : out.Holds d bs) :
    (spliceInternal (pre ++ c :: post) pre.length out).Holds (d + 1)
      (Node.bytesOf pre ++ bs ++ Node.bytesOf post) := by
  obtain ⟨hwf, hbs⟩ := hout
  obtain ⟨hn1, hn2⟩ := out.nodes_length
  have hnew : splice (pre ++ c :: post) pre.length (pre.length + 1) out.nodes =
      pre ++ out.nodes ++ post := by simp [splice, drop_append]
  have hall : ∀ n ∈ pre ++ out.nodes ++ post, n.WfAt d := by
    simp only [mem_append]
    rintro n ((h | h) | h)
    · exact hpre n h
    · exact hwf n h
    · exact hpost n h
  have hlen : (pre ++ out.nodes ++ post).length = (pre ++ c :: post).length - 1 + out.nodes.length := by
    simp only [length_append, length_cons]; omega
  have hpos : 1 ≤ (pre ++ c :: post).length := by simp; omega
  simp only [spliceInternal, hnew]
  generalize hv : pre ++ out.nodes ++ post = v at *
  have hbv : Node.bytesOf v = Node.bytesOf pre ++ bs ++ Node.bytesOf post := by
    rw [← hv, Node.bytesOf_append, Node.bytesOf_append, hbs]
  split
  · rename_i hle
    refine ⟨?_, by simpa [NodeOut.nodes, Node.bytesOf] using hbv⟩
    simp only [NodeOut.nodes, mem_singleton, forall_eq]
    exact Node.wfAt_makeInternal (by omega) hle hall
  have h9 : v.length = maxChildren + 1 := by omega
  simp only [maxChildren] at h9
  refine ⟨?_, ?_⟩
  · simp only [NodeOut.nodes, mem_cons, not_mem_nil, or_false, forall_eq_or_imp, forall_eq]
    refine ⟨Node.wfAt_makeInternal ?_ ?_ fun n hn => hall n (mem_of_mem_take hn),
      Node.wfAt_makeInternal ?_ ?_ fun n hn => hall n (mem_of_mem_drop hn)⟩ <;>
    simp only [length_take, length_drop, maxChildren] <;> omega
  simp only [NodeOut.nodes, Node.bytesOf, Node.bytes_makeInternal, append_nil]
  rw [← Node.bytesOf_append, take_append_drop, hbv]

theorem insertChild_spec (pos : ℕ) {bytes : Bytes}
    (ih : ∀ (n : Node) (p : ℕ), n.WfAt d → p ≤ n.len →
      ∃ out, insertSmall n p bytes = some out ∧ out.Holds d (splice n.bytes p p bytes)) :
    ∀ (pre post : List Node), (∀ n ∈ pre, n.WfAt d) → (∀ n ∈ post, n.WfAt d) → post ≠ [] →
      (Node.bytesOf pre).length ≤ pos → pos ≤ (Node.bytesOf (pre ++ post)).length →
      ∃ pre' c post' out bs, pre ++ post = pre' ++ c :: post' ∧
        insertChild post pre.length (Node.bytesOf pre).length pos bytes =
          some (pre'.length, out) ∧ out.Holds d bs ∧
        Node.bytesOf pre' ++ bs ++ Node.bytesOf post' =
          splice (Node.bytesOf (pre ++ post)) pos pos bytes
  | _, [], _, _, hne, _, _ => absurd rfl hne
  | pre, c :: post, hpre, hpost, _, hlo, hhi => by
    have hc : c.WfAt d := hpost c (by simp); have hclen := hc.len_eq; rw [insertChild]
    by_cases hpos : pos ≤ (Node.bytesOf pre).length + c.len
    · obtain ⟨out, hout, hholds⟩ := ih c (pos - (Node.bytesOf pre).length) hc (by omega)
      refine ⟨pre, c, post, out, _, rfl, by simp [hpos, hout], hholds, ?_⟩
      obtain ⟨k, rfl⟩ := Nat.exists_eq_add_of_le hlo
      rw [Nat.add_sub_cancel_left, Node.bytesOf_append, Node.bytesOf_cons, splice_append_right,
        splice_append_left (by omega) (by omega), append_assoc]
    have hlen : (Node.bytesOf (pre ++ [c])).length = (Node.bytesOf pre).length + c.len := by
      simp [hclen]
    have hpost' : post ≠ [] := by
      rintro rfl; omega
    have := insertChild_spec pos ih (pre ++ [c]) post
      (by simp only [mem_append, mem_singleton]; rintro n (h | rfl); exacts [hpre n h, hc])
      (fun n hn => hpost n (by simp [hn])) hpost' (by rw [hlen]; omega)
      (by simpa [append_assoc] using hhi)
    rw [hclen] at hpos; simpa [hpos, hclen, append_assoc] using this

/-- **A small insertion** into a well-formed tree does not panic; it returns one
    or two well-formed trees of the same depth that hold the spliced bytes. -/
theorem insertSmall_spec {bytes : Bytes} (hb : bytes.length ≤ maxLeafBytes) :
    ∀ (d : ℕ) (n : Node) (pos : ℕ), n.WfAt d → pos ≤ n.len →
      ∃ out, insertSmall n pos bytes = some out ∧ out.Holds d (splice n.bytes pos pos bytes)
  | 0, n, pos, h, hpos => by
    obtain ⟨chunk, rfl, hchunk⟩ := h.leaf_eq; simp only [Node.len] at hpos
    have hlen := length_splice bytes (le_refl pos) hpos
    simp only [insertSmall, hpos, ↓reduceIte, Node.bytes]
    split
    · refine ⟨_, rfl, ?_, by simp [NodeOut.nodes, Node.bytesOf, Node.bytes]⟩
      simp only [NodeOut.nodes, mem_singleton, forall_eq, Node.WfAt]; omega
    refine ⟨_, rfl, ?_, by simp [NodeOut.nodes, Node.bytesOf, Node.bytes]⟩
    simp only [NodeOut.nodes, mem_cons, not_mem_nil, or_false, forall_eq_or_imp,
      forall_eq, Node.WfAt, length_take, length_drop]
    omega
  | d + 1, n, pos, h, hpos => by
    have hlen := h.len_eq; obtain ⟨cs, rfl, h1, h8, hcs⟩ := h.internal_eq
    obtain ⟨pre, c, post, out, bs, hsplit, hrun, hholds, hbytes⟩ :=
      insertChild_spec pos (insertSmall_spec hb d) [] cs (by simp) hcs
        (ne_nil_of_length_pos h1) (by simp [Node.bytesOf]) (by simpa [hlen] using hpos)
    simp only [nil_append] at hsplit hbytes; simp only [Node.bytesOf, length_nil] at hrun
    subst hsplit
    refine ⟨_, by rw [Node.makeInternal, insertSmall, hrun]; rfl, ?_⟩
    rw [Node.bytes_makeInternal, ← hbytes]
    exact spliceInternal_spec h8 (fun n hn => hcs n (by simp [hn]))
      (fun n hn => hcs n (by simp [hn])) hholds

theorem insertChunks_spec :
    ∀ (cs : List Bytes), (∀ c ∈ cs, c.length ≤ maxLeafBytes) → ∀ {n : Node} {pos : ℕ}, n.Wf →
      pos ≤ n.bytes.length →
      ∃ m, insertChunks n pos cs = some m ∧ m.Wf ∧ m.bytes = splice n.bytes pos pos cs.flatten
  | [], _, n, pos, hn, _ => ⟨n, rfl, hn, by simp⟩
  | chunk :: rest, hcs, n, pos, ⟨d, hn⟩, hpos => by
    obtain ⟨out, hout, hwf, hbytes⟩ :=
      insertSmall_spec (hcs chunk (by simp)) d n pos hn (by rw [hn.len_eq]; exact hpos)
    -- the root after this chunk, grown by one level when the old one split
    have hroot : ∃ m : Node, m.Wf ∧ m.bytes = splice n.bytes pos pos chunk ∧
        insertChunks n pos (chunk :: rest) = insertChunks m (pos + chunk.length) rest := by
      cases out with
      | one a =>
        exact ⟨a, ⟨d, hwf a (by simp [NodeOut.nodes])⟩,
          by simpa [NodeOut.nodes, Node.bytesOf] using hbytes, by rw [insertChunks, hout]⟩
      | two a b =>
        exact ⟨.makeInternal [a, b],
          ⟨d + 1, Node.wfAt_makeInternal (by simp) (by simp [maxChildren]) hwf⟩, hbytes,
          by rw [insertChunks, hout]⟩
    obtain ⟨m, hm, hmb, hstep⟩ := hroot
    have hmlen : pos + chunk.length ≤ m.bytes.length := by
      rw [hmb, length_splice _ le_rfl hpos]; omega
    obtain ⟨m', hrun, hm', hb'⟩ :=
      insertChunks_spec rest (fun c hc => hcs c (by simp [hc])) hm hmlen
    refine ⟨m', by rw [hstep, hrun], hm', ?_⟩
    rw [hb', hmb, splice_insert_insert _ hpos, flatten_cons]

/-! ## Deletion -/

/-- The loop over the children cuts `[start, stop)` out of their bytes and leaves
    well-formed children; it leaves none only if the range covers them all. -/
theorem deleteChildren_spec {start stop : ℕ} (hss : start < stop)
    (ih : ∀ (n : Node) (s e : ℕ), n.WfAt d → s < e → e ≤ n.len → ¬(s = 0 ∧ e = n.len) →
      ∃ m, deleteIn n s e = some m ∧ m.WfAt d ∧ m.bytes = splice n.bytes s e []) :
    ∀ (cs : List Node) (offset : ℕ), (∀ c ∈ cs, c.WfAt d) →
      ∃ cs', deleteChildren cs offset start stop = some cs' ∧ (∀ c ∈ cs', c.WfAt d) ∧
        cs'.length ≤ cs.length ∧
        Node.bytesOf cs' = splice (Node.bytesOf cs) (start - offset) (stop - offset) [] ∧
        (cs' = [] → cs = [] ∨ start ≤ offset ∧ offset + (Node.bytesOf cs).length ≤ stop)
  | [], offset, _ => ⟨[], rfl, by simp, by simp, by simp [splice_nil], fun _ => Or.inl rfl⟩
  | c :: cs, offset, hcs => by
    have hc : c.WfAt d := hcs c (by simp); have hclen := hc.len_eq
    obtain ⟨cs', hrun, hwf, hlen, hbytes, hnil⟩ :=
      deleteChildren_spec hss ih cs (offset + c.len) fun x hx => hcs x (by simp [hx])
    rw [Nat.sub_add_eq, Nat.sub_add_eq, hclen] at hbytes
    simp only [Node.bytesOf_cons, length_append]
    rw [splice_nil_append (by omega), ← hbytes, deleteChildren, hclen]; rw [hclen] at hrun hnil
    split
    · -- no overlap: the child is kept
      rename_i hout
      refine ⟨c :: cs', by rw [hrun]; rfl, by simpa using ⟨hc, hwf⟩, by simpa using hlen, ?_, by simp⟩
      rw [Node.bytesOf_cons, splice_nil]
      rcases hout with hout | hout
      · rw [show start - offset = 0 by omega, show stop - offset = 0 by omega]; simp
      · rw [take_of_length_le (by omega), drop_eq_nil_of_le (by omega), append_nil]
    split
    · -- the range covers the child: it is dropped
      rename_i hin
      refine ⟨cs', hrun, hwf, by simp only [length_cons]; omega, ?_, fun h => Or.inr ?_⟩
      · rw [splice_nil, show start - offset = 0 by omega, drop_eq_nil_of_le (by omega)]; simp
      rcases hnil h with rfl | hle
      · exact ⟨hin.1, by simpa using hin.2⟩
      · exact ⟨hin.1, by omega⟩
    -- the range covers a part of the child
    obtain ⟨m, hm, hmwf, hmb⟩ := ih c (start - offset) (min (stop - offset) c.bytes.length) hc
      (by omega) (by omega) (by omega)
    refine ⟨m :: cs', by rw [hm, hrun]; rfl, by simpa using ⟨hmwf, hwf⟩, by simpa using hlen, ?_,
      by simp⟩
    rw [Node.bytesOf_cons, hmb, splice_nil, splice_nil]
    rcases le_total (stop - offset) c.bytes.length with h | h
    · rw [min_eq_left h]
    · rw [min_eq_right h, drop_length, drop_eq_nil_of_le h]

/-- **A deletion** of less than the whole of a well-formed tree does not panic and
    keeps the depth. -/
theorem deleteIn_spec :
    ∀ (d : ℕ) (n : Node) (start stop : ℕ), n.WfAt d → start < stop → stop ≤ n.len →
      ¬(start = 0 ∧ stop = n.len) →
      ∃ m, deleteIn n start stop = some m ∧ m.WfAt d ∧ m.bytes = splice n.bytes start stop []
  | 0, n, start, stop, h, hss, hstop, _ => by
    obtain ⟨chunk, rfl, hchunk⟩ := h.leaf_eq; simp only [Node.len] at hstop
    refine ⟨_, by rw [deleteIn, if_pos ⟨by omega, hstop⟩], ?_, rfl⟩
    simp only [Node.WfAt, length_splice _ (le_of_lt hss) hstop, length_nil]; omega
  | d + 1, n, start, stop, h, hss, hstop, hall => by
    have hlen := h.len_eq; obtain ⟨cs, rfl, h1, h8, hcs⟩ := h.internal_eq
    obtain ⟨cs', hrun, hwf, hle, hbytes, hnil⟩ := deleteChildren_spec hss (deleteIn_spec d) cs 0 hcs
    have hne : cs' ≠ [] := by
      intro hcs'
      rcases hnil hcs' with rfl | ⟨hs, he⟩
      · simp at h1
      · rw [Node.bytes_makeInternal] at hlen; exact hall ⟨by omega, by omega⟩
    refine ⟨.makeInternal cs', by rw [Node.makeInternal, deleteIn, hrun]; rfl, ?_, by simpa using hbytes⟩
    exact Node.wfAt_makeInternal (length_pos_of_ne_nil hne) (by omega) hwf

theorem collapseRoot_spec :
    ∀ (d : ℕ) (n : Node), n.WfAt d → (collapseRoot n).Wf ∧ (collapseRoot n).bytes = n.bytes
  | 0, n, h => by obtain ⟨b, rfl, _⟩ := h.leaf_eq; exact ⟨⟨0, h⟩, rfl⟩
  | d + 1, n, h => by
    obtain ⟨cs, rfl, h1, _, hcs⟩ := h.internal_eq
    match cs, h1, hcs with
    | [only], _, hcs =>
      obtain ⟨hwf, hbytes⟩ := collapseRoot_spec d only (hcs only (by simp))
      exact ⟨hwf, by rw [Node.makeInternal, collapseRoot, hbytes]; simp [Node.bytes]⟩
    | _ :: _ :: _, _, _ => exact ⟨⟨d + 1, h⟩, rfl⟩

/-! ## Bulk load -/

theorem groupSize_spec {remaining : ℕ} (h : 0 < remaining) :
    1 ≤ groupSize remaining ∧ groupSize remaining ≤ remaining ∧ groupSize remaining ≤ maxChildren ∧
      (1 < remaining → 2 ≤ groupSize remaining) := by
  have h8 : maxChildren = 8 := rfl
  rw [groupSize]
  by_cases h9 : remaining > maxChildren ∧ remaining - maxChildren = 1
  · rw [if_pos h9]; omega
  · rw [if_neg h9]; omega

/-- One level of the bulk load packs well-formed nodes into well-formed nodes one
    level up; from two nodes on it makes fewer than it takes. -/
theorem packLevel_spec (d : ℕ) :
    ∀ (fuel : ℕ) (cs : List Node), cs.length ≤ fuel → (∀ c ∈ cs, c.WfAt d) →
      (∀ c ∈ packLevel fuel cs, c.WfAt (d + 1)) ∧
        Node.bytesOf (packLevel fuel cs) = Node.bytesOf cs ∧
        (packLevel fuel cs = [] → cs = []) ∧ (packLevel fuel cs).length ≤ cs.length ∧
        (1 < cs.length → (packLevel fuel cs).length < cs.length)
  | 0, cs, h, _ => by have : cs = [] := eq_nil_of_length_eq_zero (by omega); simp [packLevel, this]
  | fuel + 1, cs, h, hcs => by
    by_cases hnil : cs.isEmpty
    · simp_all [packLevel]
    have hpos : 0 < cs.length := length_pos_of_ne_nil (by simpa using hnil)
    obtain ⟨hg1, hg2, hg3, hg4⟩ := groupSize_spec hpos
    obtain ⟨ihwf, ihbytes, _, ihlen, _⟩ := packLevel_spec d fuel
      (cs.drop (groupSize cs.length)) (by simp only [length_drop]; omega)
      fun c hc => hcs c (mem_of_mem_drop hc)
    have htake : (Node.makeInternal (cs.take (groupSize cs.length))).WfAt (d + 1) :=
      Node.wfAt_makeInternal (by simp only [length_take]; omega)
        (by simp only [length_take]; omega) fun c hc => hcs c (mem_of_mem_take hc)
    simp only [packLevel, hnil, Bool.false_eq_true, ↓reduceIte, length_cons, length_drop] at ihlen ⊢
    refine ⟨by simpa using ⟨htake, ihwf⟩, ?_, by simp, by omega, by omega⟩
    rw [Node.bytesOf_cons, Node.bytes_makeInternal, ihbytes, ← Node.bytesOf_append,
      take_append_drop]

theorem packLevels_spec :
    ∀ (fuel d : ℕ) (cs : List Node), cs ≠ [] → cs.length ≤ fuel → (∀ c ∈ cs, c.WfAt d) →
      ∃ n : Node, packLevels fuel cs = [n] ∧ n.Wf ∧ n.bytes = Node.bytesOf cs
  | 0, _, cs, hne, h, _ => absurd (eq_nil_of_length_eq_zero (by omega)) hne
  | fuel + 1, d, cs, hne, h, hcs => by
    obtain ⟨hwf, hbytes, hnil, _, hlt⟩ := packLevel_spec d cs.length cs le_rfl hcs
    rw [packLevels]
    split
    · rename_i h1
      obtain ⟨n, hn, hnwf, hnb⟩ := packLevels_spec fuel (d + 1) (packLevel cs.length cs)
        (fun hp => hne (hnil hp)) (by have := hlt h1; omega) hwf
      exact ⟨n, hn, hnwf, by rw [hnb, hbytes]⟩
    match cs, hne, hcs with
    | [n], _, hcs => exact ⟨n, rfl, ⟨d, hcs n (by simp)⟩, by simp⟩
    | _ :: _ :: _, _, _ => simp at *

theorem buildBalancedFromNodes_spec (hne : cs ≠ []) (hcs : ∀ c ∈ cs, c.WfAt d) :
    ∃ n, buildBalancedFromNodes cs = some n ∧ n.Wf ∧ n.bytes = Node.bytesOf cs := by
  obtain ⟨n, hn, hwf, hbytes⟩ := packLevels_spec cs.length d cs hne le_rfl hcs
  exact ⟨n, by simp [buildBalancedFromNodes, hne, hn], hwf, hbytes⟩

/-! ## The public edits -/

namespace Rope

/-- A rope whose tree is well formed. -/
def Wf (r : Rope) : Prop := r.root.Wf

theorem Wf.len_eq {r : Rope} (h : r.Wf) : r.len = r.bytes.length :=
  h.elim fun _ hd => hd.len_eq

theorem wf_new : new.Wf := ⟨0, Nat.zero_le _⟩

theorem fromBytes_spec (bs : Bytes) : ∃ r, fromBytes bs = some r ∧ r.Wf ∧ r.bytes = bs := by
  by_cases hbs : bs.isEmpty
  · simp only [List.isEmpty_iff] at hbs
    exact ⟨new, by simp [fromBytes, hbs], wf_new, by rw [hbs]; rfl⟩
  have hne : bs ≠ [] := by simpa using hbs
  have hleaf : ∀ c ∈ (chunks maxLeafBytes bs).map Node.leaf, c.WfAt 0 := by
    simp only [List.mem_map]; rintro _ ⟨c, hc, rfl⟩; exact length_of_mem_chunks hc
  have hbytes : Node.bytesOf ((chunks maxLeafBytes bs).map Node.leaf) = bs := by
    rw [Node.bytesOf_eq, flatMap_map]; exact flatMap_id'.trans (flatten_chunks (by decide))
  obtain ⟨n, hn, hwf, hnb⟩ := buildBalancedFromNodes_spec (by simpa using chunks_ne_nil hne) hleaf
  exact ⟨⟨n⟩, by simp [fromBytes, hne, hn], hwf, hnb.trans hbytes⟩

/-- What a successful edit of `r` must be: a well-formed rope with `[s, e)`
    replaced, and its exact description. -/
structure Spliced (r : Rope) (s e : ℕ) (ins : Bytes) (ed : Edit Rope) : Prop where
  wf : ed.newRope.Wf
  bytes : ed.newRope.bytes = splice r.bytes s e ins
  range : ed.range = ⟨s, e⟩
  insertedLen : ed.insertedLen = ins.length
  crdtOp : ed.crdtOp = none

/-- **Insertion**: within the rope it succeeds, past its end it is refused. -/
theorem insert_spec {r : Rope} (h : r.Wf) (pos : ℕ) (bs : Bytes) :
    (pos ≤ r.bytes.length ∧ ∃ ed, r.insert pos bs = some (.ok ed) ∧ r.Spliced pos pos bs ed) ∨
      (r.bytes.length < pos ∧ r.insert pos bs = some (.error (.outOfBounds pos r.bytes.length))) := by
  rw [insert, h.len_eq]
  by_cases hpos : pos > r.bytes.length
  · exact Or.inr ⟨hpos, by rw [if_pos hpos]⟩
  refine Or.inl ⟨by omega, ?_⟩; rw [if_neg hpos]
  by_cases hbs : bs.isEmpty
  · simp only [List.isEmpty_iff] at hbs; subst hbs; exact ⟨_, rfl, h, by simp, rfl, rfl, rfl⟩
  rw [if_neg hbs]
  obtain ⟨m, hm, hwf, hbytes⟩ := insertChunks_spec (chunks maxLeafBytes bs)
    (fun c hc => length_of_mem_chunks hc) h (Nat.le_of_not_gt hpos)
  rw [flatten_chunks (by decide)] at hbytes
  exact ⟨⟨⟨m⟩, ⟨pos, pos⟩, bs.length, none⟩, by rw [hm]; rfl, hwf, hbytes, rfl, rfl, rfl⟩

/-- **Deletion**: a range within the rope succeeds, any other is refused, with
    its start when it ends before it starts and its end otherwise. -/
theorem delete_spec {r : Rope} (h : r.Wf) (start stop : ℕ) : (start ≤ stop ∧ stop ≤ r.bytes.length ∧
        ∃ ed, r.delete start stop = some (.ok ed) ∧ r.Spliced start stop [] ed) ∨
      ((stop < start ∨ r.bytes.length < stop) ∧ r.delete start stop =
        some (.error (.outOfBounds (if start > stop then start else stop) r.bytes.length))) := by
  rw [delete, h.len_eq]
  by_cases hss : start > stop
  · exact Or.inr ⟨Or.inl hss, by rw [if_pos hss, if_pos hss]⟩
  by_cases hstop : stop > r.bytes.length
  · exact Or.inr ⟨Or.inr hstop, by rw [if_neg hss, if_pos hstop, if_neg hss]⟩
  refine Or.inl ⟨by omega, by omega, ?_⟩; rw [if_neg hss, if_neg hstop]
  by_cases heq : start = stop
  · subst heq; exact ⟨_, by rw [if_pos rfl], h, by simp, rfl, rfl, rfl⟩
  rw [if_neg heq]
  by_cases hall : start = 0 ∧ stop = r.bytes.length
  · obtain ⟨rfl, rfl⟩ := hall
    exact ⟨_, by rw [if_pos ⟨rfl, rfl⟩], wf_new, (splice_all _ _).symm, rfl, rfl, rfl⟩
  obtain ⟨d, hd⟩ := h; have hlen : r.root.len = r.bytes.length := hd.len_eq
  obtain ⟨m, hm, hwf, hbytes⟩ :=
    deleteIn_spec d r.root start stop hd (by omega) (by omega) (by omega)
  obtain ⟨hcwf, hcbytes⟩ := collapseRoot_spec d m hwf
  exact ⟨⟨⟨collapseRoot m⟩, ⟨start, stop⟩, 0, none⟩, by rw [if_neg hall, hm]; rfl, hcwf,
    hcbytes.trans hbytes, rfl, rfl, rfl⟩

/-- **Replacement**: as deletion, with the bytes put in at the start. -/
theorem replace_spec {r : Rope} (h : r.Wf) (start stop : ℕ) (bs : Bytes) :
    (start ≤ stop ∧ stop ≤ r.bytes.length ∧
        ∃ ed, r.replace start stop bs = some (.ok ed) ∧ r.Spliced start stop bs ed) ∨
      ((stop < start ∨ r.bytes.length < stop) ∧ r.replace start stop bs =
        some (.error (.outOfBounds (if start > stop then start else stop) r.bytes.length))) := by
  rcases delete_spec h start stop with ⟨hss, hstop, ed, hed, hsp⟩ | ⟨hout, herr⟩
  · refine Or.inl ⟨hss, hstop, ?_⟩
    have hlen : start ≤ ed.newRope.bytes.length := by
      rw [hsp.bytes, length_splice _ hss hstop]; omega
    rcases insert_spec hsp.wf start bs with ⟨_, ed', hed', hsp'⟩ | ⟨hlt, _⟩
    · refine ⟨⟨ed'.newRope, ⟨start, stop⟩, bs.length, none⟩, by rw [replace, hed]; simp only [hed'],
        hsp'.wf, ?_, rfl, rfl, rfl⟩
      rw [hsp'.bytes, hsp.bytes, splice_splice _ (by omega)]
    · omega
  · exact Or.inr ⟨hout, by rw [replace, herr]⟩

/-! ## Edit histories -/

/-- `Reach r bs`: some run of successful edits from `Rope::new` or
    `Rope::from_bytes` ends in `r`, and the same splices on the plain list end in
    `bs`. -/
inductive Reach : Rope → Bytes → Prop
  | new : Reach Rope.new []
  | fromBytes {bs r} : Rope.fromBytes bs = some r → Reach r bs
  | insert {r l pos bs ed} : Reach r l → r.insert pos bs = some (.ok ed) →
      Reach ed.newRope (splice l pos pos bs)
  | delete {r l start stop ed} : Reach r l → r.delete start stop = some (.ok ed) →
      Reach ed.newRope (splice l start stop [])
  | replace {r l start stop bs ed} : Reach r l → r.replace start stop bs = some (.ok ed) →
      Reach ed.newRope (splice l start stop bs)

theorem Reach.wf_bytes {r : Rope} {l : Bytes} (h : Reach r l) : r.Wf ∧ r.bytes = l := by
  induction h with
  | new => exact ⟨wf_new, rfl⟩
  | @fromBytes bs r hr =>
    obtain ⟨r', hr', hwf, hbytes⟩ := fromBytes_spec bs; rw [hr] at hr'
    obtain rfl : r = r' := some.inj hr'; exact ⟨hwf, hbytes⟩
  | @insert r l pos bs ed _ hed ih =>
    obtain ⟨hwf, rfl⟩ := ih
    rcases insert_spec hwf pos bs with ⟨_, ed', hed', hsp⟩ | ⟨_, herr⟩
    · rw [hed] at hed'; obtain rfl : ed = ed' := by simpa using hed'
      exact ⟨hsp.wf, hsp.bytes⟩
    · simp [hed] at herr
  | @delete r l start stop ed _ hed ih =>
    obtain ⟨hwf, rfl⟩ := ih
    rcases delete_spec hwf start stop with ⟨_, _, ed', hed', hsp⟩ | ⟨_, herr⟩
    · rw [hed] at hed'; obtain rfl : ed = ed' := by simpa using hed'
      exact ⟨hsp.wf, hsp.bytes⟩
    · simp [hed] at herr
  | @replace r l start stop bs ed _ hed ih =>
    obtain ⟨hwf, rfl⟩ := ih
    rcases replace_spec hwf start stop bs with ⟨_, _, ed', hed', hsp⟩ | ⟨_, herr⟩
    · rw [hed] at hed'; obtain rfl : ed = ed' := by simpa using hed'
      exact ⟨hsp.wf, hsp.bytes⟩
    · simp [hed] at herr

/-- **The rope refines a byte list.** Every rope that edits reach is well formed
    and holds the bytes of the list put through the same splices; an insertion
    fails exactly past its end, a deletion or replacement exactly on a range that
    ends before it starts or past its end; and no edit panics. -/
theorem reach_refines {r : Rope} {l : Bytes} (h : Reach r l) :
    r.root.Wf ∧ r.bytes = l ∧ r.len = l.length ∧ (∀ pos bs, (∃ res, r.insert pos bs = some res) ∧
        ((∃ e, r.insert pos bs = some (.error e)) ↔ l.length < pos)) ∧
      (∀ start stop, (∃ res, r.delete start stop = some res) ∧
        ((∃ e, r.delete start stop = some (.error e)) ↔ stop < start ∨ l.length < stop)) ∧
      (∀ start stop bs, (∃ res, r.replace start stop bs = some res) ∧
        ((∃ e, r.replace start stop bs = some (.error e)) ↔ stop < start ∨ l.length < stop)) := by
  obtain ⟨hwf, rfl⟩ := h.wf_bytes
  refine ⟨hwf, rfl, hwf.len_eq, fun pos bs => ?_, fun start stop => ?_, fun start stop bs => ?_⟩
  · rcases insert_spec hwf pos bs with ⟨hle, ed, hed, _⟩ | ⟨hlt, herr⟩
    · exact ⟨⟨_, hed⟩, by simp [hed]; omega⟩
    · exact ⟨⟨_, herr⟩, by simp [herr, hlt]⟩
  · rcases delete_spec hwf start stop with ⟨hss, hle, ed, hed, _⟩ | ⟨hout, herr⟩
    · exact ⟨⟨_, hed⟩, by simp [hed]; omega⟩
    · exact ⟨⟨_, herr⟩, by simp [herr, hout]⟩
  rcases replace_spec hwf start stop bs with ⟨hss, hle, ed, hed, _⟩ | ⟨hout, herr⟩
  · exact ⟨⟨_, hed⟩, by simp [hed]; omega⟩
  · exact ⟨⟨_, herr⟩, by simp [herr, hout]⟩

/-- A rope loaded with `ac`, `b` inserted between, the first byte deleted. -/
theorem reach_refines_bc :
    (Rope.mk (.leaf [98, 99])).root.Wf ∧ (Rope.mk (.leaf [98, 99])).bytes = [98, 99] := by
  have h₀ : Reach ⟨.leaf [97, 99]⟩ [97, 99] := .fromBytes rfl
  have h₁ : Reach ⟨.leaf [97, 98, 99]⟩ [97, 98, 99] :=
    @Reach.insert _ _ 1 [98] ⟨⟨.leaf [97, 98, 99]⟩, ⟨1, 1⟩, 1, none⟩ h₀ rfl
  have h₂ : Reach ⟨.leaf [98, 99]⟩ [98, 99] :=
    @Reach.delete _ _ 0 1 ⟨⟨.leaf [98, 99]⟩, ⟨0, 1⟩, 0, none⟩ h₁ rfl
  exact ⟨(reach_refines h₂).1, (reach_refines h₂).2.1⟩

end Rope

/-! ## Well-formed ropes -/

/-- A rope with the proof that its tree is well formed: all that the public
    constructors and edits build. -/
structure WfRope where
  rope : Rope
  wf : rope.Wf

namespace WfRope

def bytes (r : WfRope) : Bytes := r.rope.bytes

def len (r : WfRope) : ℕ := r.rope.len

@[simp]
theorem len_eq (r : WfRope) : r.len = r.bytes.length := r.wf.len_eq

def fromBytes (bs : Bytes) : WfRope :=
  ⟨(Rope.fromBytes bs).get (by
      obtain ⟨r, hr, _⟩ := Rope.fromBytes_spec bs
      simp [hr]), by
    obtain ⟨r, hr, hwf, _⟩ := Rope.fromBytes_spec bs; simpa [hr] using hwf⟩

@[simp]
theorem bytes_fromBytes {bs : Bytes} : (fromBytes bs).bytes = bs := by
  obtain ⟨r, hr, _, hbytes⟩ := Rope.fromBytes_spec bs
  simpa [fromBytes, bytes, hr] using hbytes

/-- An edit of a well-formed rope that did not panic and left a well-formed rope. -/
def attach (res : Option (Except RopeError (Edit Rope)))
    (h : ∃ x, res = some x ∧ ∀ ed, x = .ok ed → ed.newRope.Wf) : Except RopeError (Edit WfRope) :=
  match res, h with
  | none, h => absurd h (by simp)
  | some (.error e), _ => .error e
  | some (.ok ed), h =>
    .ok ⟨⟨ed.newRope, by
      obtain ⟨x, hx, hwf⟩ := h
      exact hwf ed (some.inj hx).symm⟩, ed.range, ed.insertedLen, ed.crdtOp⟩

/-- `Rope::insert`. -/
def insert (r : WfRope) (pos : ℕ) (bs : Bytes) : Except RopeError (Edit WfRope) :=
  attach (r.rope.insert pos bs) (by
    rcases Rope.insert_spec r.wf pos bs with ⟨_, ed, hed, hsp⟩ | ⟨_, herr⟩
    · exact ⟨_, hed, fun _ h => by injection h with h; exact h ▸ hsp.wf⟩
    · exact ⟨_, herr, by simp⟩)

/-- `Rope::delete`. -/
def delete (r : WfRope) (start stop : ℕ) : Except RopeError (Edit WfRope) :=
  attach (r.rope.delete start stop) (by
    rcases Rope.delete_spec r.wf start stop with ⟨_, _, ed, hed, hsp⟩ | ⟨_, herr⟩
    · exact ⟨_, hed, fun _ h => by injection h with h; exact h ▸ hsp.wf⟩
    · exact ⟨_, herr, by simp⟩)

/-- `Rope::replace`. -/
def replace (r : WfRope) (start stop : ℕ) (bs : Bytes) : Except RopeError (Edit WfRope) :=
  attach (r.rope.replace start stop bs) (by
    rcases Rope.replace_spec r.wf start stop bs with ⟨_, _, ed, hed, hsp⟩ | ⟨_, herr⟩
    · exact ⟨_, hed, fun _ h => by injection h with h; exact h ▸ hsp.wf⟩
    · exact ⟨_, herr, by simp⟩)

/-- An edit of `r` that replaces `[s, e)` by `ins` and says so. -/
structure Spliced (r : WfRope) (s e : ℕ) (ins : Bytes) (ed : Edit WfRope) : Prop where
  bytes : ed.newRope.bytes = splice r.bytes s e ins
  range : ed.range = ⟨s, e⟩
  insertedLen : ed.insertedLen = ins.length
  crdtOp : ed.crdtOp = none

variable {r : WfRope} {res : Option (Except RopeError (Edit Rope))}

theorem attach_spliced {s e : ℕ} {ins : Bytes} {ed : Edit Rope} (hed : res = some (.ok ed))
    (hsp : r.rope.Spliced s e ins ed) (h) :
    ∃ ed', attach res h = .ok ed' ∧ r.Spliced s e ins ed' := by
  subst hed
  exact ⟨_, rfl, hsp.bytes, hsp.range, hsp.insertedLen, hsp.crdtOp⟩

theorem attach_error {e : RopeError}
    (herr : res = some (.error e)) (h) : attach res h = .error e := by
  subst herr
  rfl

theorem insert_spec (r : WfRope) (pos : ℕ) (bs : Bytes) :
    (pos ≤ r.bytes.length ∧ ∃ ed, r.insert pos bs = .ok ed ∧ r.Spliced pos pos bs ed) ∨
      (r.bytes.length < pos ∧ r.insert pos bs = .error (.outOfBounds pos r.bytes.length)) := by
  rcases Rope.insert_spec r.wf pos bs with ⟨hpos, ed, hed, hsp⟩ | ⟨hpos, herr⟩
  · exact Or.inl ⟨hpos, attach_spliced hed hsp _⟩
  · exact Or.inr ⟨hpos, attach_error herr _⟩

theorem delete_spec (r : WfRope) (start stop : ℕ) : (start ≤ stop ∧ stop ≤ r.bytes.length ∧
        ∃ ed, r.delete start stop = .ok ed ∧ r.Spliced start stop [] ed) ∨
      ((stop < start ∨ r.bytes.length < stop) ∧ r.delete start stop =
        .error (.outOfBounds (if start > stop then start else stop) r.bytes.length)) := by
  rcases Rope.delete_spec r.wf start stop with ⟨hss, hle, ed, hed, hsp⟩ | ⟨hout, herr⟩
  · exact Or.inl ⟨hss, hle, attach_spliced hed hsp _⟩
  · exact Or.inr ⟨hout, attach_error herr _⟩

theorem replace_spec (r : WfRope) (start stop : ℕ) (bs : Bytes) :
    (start ≤ stop ∧ stop ≤ r.bytes.length ∧
        ∃ ed, r.replace start stop bs = .ok ed ∧ r.Spliced start stop bs ed) ∨
      ((stop < start ∨ r.bytes.length < stop) ∧ r.replace start stop bs =
        .error (.outOfBounds (if start > stop then start else stop) r.bytes.length)) := by
  rcases Rope.replace_spec r.wf start stop bs with ⟨hss, hle, ed, hed, hsp⟩ | ⟨hout, herr⟩
  · exact Or.inl ⟨hss, hle, attach_spliced hed hsp _⟩
  · exact Or.inr ⟨hout, attach_error herr _⟩

theorem ext {r' : WfRope} (h : r.rope = r'.rope) : r = r' := by
  cases r
  cases r'
  cases h
  rfl

variable {ed : Edit WfRope}

theorem attach_same {h} (hres : ∃ range n op, res = some (.ok ⟨r.rope, range, n, op⟩))
    (hed : attach res h = .ok ed) : ed.newRope = r := by
  obtain ⟨range, n, op, rfl⟩ := hres
  cases hed
  exact ext rfl

variable {pos : ℕ}

theorem insert_nil (h : r.insert pos [] = .ok ed) : ed.newRope = r := by
  rcases insert_spec r pos [] with ⟨hpos, _⟩ | ⟨_, herr⟩
  · refine attach_same ⟨⟨pos, pos⟩, 0, none, ?_⟩ h
    rw [Rope.insert, if_neg (by rw [show r.rope.len = r.bytes.length from len_eq r]; omega)]; rfl
  · rw [herr] at h; cases h

theorem delete_self (h : r.delete pos pos = .ok ed) : ed.newRope = r := by
  rcases delete_spec r pos pos with ⟨_, hpos, _⟩ | ⟨_, herr⟩
  · refine attach_same ⟨⟨pos, pos⟩, 0, none, ?_⟩ h
    rw [Rope.delete, if_neg (lt_irrefl pos),
      if_neg (by rw [show r.rope.len = r.bytes.length from len_eq r]; omega), if_pos rfl]
  · rw [herr] at h; cases h

theorem replace_self_nil (h : r.replace pos pos [] = .ok ed) : ed.newRope = r := by
  rcases replace_spec r pos pos [] with ⟨_, hpos, _⟩ | ⟨_, herr⟩
  · have hlen : r.rope.len = r.bytes.length := len_eq r
    refine attach_same ⟨⟨pos, pos⟩, 0, none, ?_⟩ h
    rw [Rope.replace, Rope.delete, if_neg (lt_irrefl pos), if_neg (by omega), if_pos rfl]
    simp only [Rope.insert]; rw [if_neg (by omega)]; rfl
  · rw [herr] at h; cases h

end WfRope

end Pmacs
