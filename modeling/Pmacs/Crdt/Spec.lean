/-
  What crdt.rs does to the text of a document, given the library's laws.

  * `Local`: a computation that only evolves the document, so that it counts new ops
    of the document's own peer alone (`length_spansSince_le`);
  * `Atomic`: a computation whose errors leave the text;
  * `insert_spec`, `delete_spec`: edits at bytes as splices of the text's bytes;
  * `applySteps_atomic`: steps from back to front fail at once or not at all.
-/
import Pmacs.Crdt.Laws

namespace Pmacs

open Lib List Option Utf8

/-! ## Local computations -/

/-- A computation that evolves the document, and imports nothing. -/
def Local {L : Loro} {ε α : Type} (x : EStateM ε L.Doc α) : Prop :=
  ∀ d, L.Evolves d (Loro.after x d)

/-- The errors of a computation leave the text. -/
def Atomic {L : Loro} {ε α : Type} (x : EStateM ε L.Doc α) : Prop :=
  ∀ d e d', x d = .error e d' → L.text d' = L.text d

namespace Local

variable {L : Loro} {ε α β : Type}

theorem pure (a : α) : Local (Pure.pure a : EStateM ε L.Doc α) := fun _ => .refl

variable {x : EStateM ε L.Doc α}

theorem bind {f : α → EStateM ε L.Doc β} (hx : Local x)
    (hf : ∀ a, Local (f a)) : Local (x >>= f) := by
  intro d
  have hd := hx d
  simp only [Loro.after, Bind.bind, EStateM.bind] at hd ⊢
  cases h : x d with
  | ok a d' => rw [h] at hd; exact hd.trans (hf a d')
  | error e d' => rwa [h] at hd

theorem map (f : α → β) (hx : Local x) : Local (f <$> x) := by
  intro d
  have hd := hx d
  simp only [Loro.after, Functor.map, EStateM.map] at hd ⊢
  cases h : x d with
  | ok | error => rwa [h] at hd

theorem of_ok (hx : Local x) {d d' : L.Doc} {a : α} (h : x d = .ok a d') : L.Evolves d d' := by
  have hd := hx d
  rwa [Loro.after, h] at hd

end Local

namespace Crdt

variable {L : Loro}

theorem insertPieces_local (i : ℕ) : ∀ (fuel : ℕ) (s : List Char), Local (L := L)
    (insertPieces i fuel s)
  | 0, _ => .pure ()
  | fuel + 1, s => by
    rw [insertPieces]
    split_ifs
    · exact .pure ()
    · exact .bind (fun d => .insert i _ .refl) fun _ => insertPieces_local i fuel _

variable {pos : ℕ} {s : List Char}

theorem insert_local : Local (L := L) (insert pos s) := by
  intro d
  rw [Loro.after, insert]
  cases checkedUnicode d pos with
  | error e => exact .refl
  | ok unicode => exact insertPieces_local unicode s.length s d

theorem delete_local (len : ℕ) : Local (L := L) (delete pos len) := by
  intro d
  rw [Loro.after, delete]
  cases checkedUnicode d pos with
  | error e => exact .refl
  | ok start =>
    cases checkedUnicode d (min (pos + len) usizeMax) with
    | error e => exact .refl
    | ok stop => exact .delete start (stop - start) .refl

variable {ε α : Type} {x : EStateM ε L.Doc α}

theorem capture_local (hx : Local x) : Local (capture x) := by
  intro d
  have hd := hx d
  rw [Loro.after] at hd ⊢
  rw [capture]
  cases h : x d with
  | ok | error => rwa [h] at hd

theorem capture_ok {a : α} {change : L.Diff} {d d' : L.Doc}
    (h : capture x d = .ok (a, change) d') : x d = .ok a d' ∧ change = L.captured d d' := by
  rw [capture] at h
  split at h
  · rename_i hx; cases h; exact ⟨hx, rfl⟩
  · cases h

theorem capture_error {e : ε} {d d' : L.Doc}
    (h : capture x d = .error e d') : x d = .error e d' := by
  rw [capture] at h
  split at h
  · cases h
  · rename_i hx; cases h; exact hx

theorem applySteps_local : ∀ ss : List (ℕ × (List Char ⊕ ℕ)), Local (L := L) (applySteps ss)
  | [] => .pure ()
  | (at_, .inl s) :: rest => by
    exact .bind (insertPieces_local at_ s.length s) fun _ => applySteps_local rest
  | (at_, .inr n) :: rest => by
    exact .bind (fun d => .delete at_ n .refl) fun _ => applySteps_local rest

theorem applyBody_local {delta : List TextDelta} : Local (L := L) (applyBody delta) := by
  rw [applyBody]
  split_ifs
  · exact fun d => .applyDelta delta .refl
  · exact applySteps_local _

theorem applyInPieces_local (compensation : L.Diff) : Local (applyInPieces compensation) := by
  refine .bind ?_ fun _ => ?_
  · split
    · exact applyBody_local
    · exact .pure ()
  split
  · exact fun d => .applyDiff _ .refl
  · exact .pure ()

variable {base : L.Diff} {before after : L.Frontiers}

theorem undoBetweenInPieces_local : Local (undoBetweenInPieces after before base) := by
  intro d
  simp only [Loro.after, undoBetweenInPieces]
  cases L.diff d after before with
  | error e => exact .refl
  | ok inverse =>
    have happly := applyInPieces_local (L.transform inverse base true) d
    simp only [Loro.after] at happly ⊢
    cases h : applyInPieces (L.transform inverse base true) d with
    | error e d' => rwa [h] at happly
    | ok a d' => rw [h] at happly; exact .commitWith happly

variable {span : IdSpan}

theorem undoSpanByLoro_local : Local (undoSpanByLoro span base) := by
  intro d
  have hundo : L.Evolves d (Loro.after (L.undoInternal span base) d) :=
    .undoInternal span base .refl
  simp only [Loro.after, undoSpanByLoro] at hundo ⊢
  cases h : L.undoInternal span base d with
  | error | ok => rwa [h] at hundo

theorem undoSpanInPieces_local (deps : L.Frontiers) : Local (undoSpanInPieces span deps base) := by
  intro d
  simp only [Loro.after, undoSpanInPieces]
  by_cases hincludes : includesId d span.last
  · rw [if_pos hincludes]; exact undoBetweenInPieces_local d
  · rw [if_neg hincludes]; exact .refl

theorem undoSpanAgainst_commits {d : L.Doc} :
    L.Evolves (L.commit d) (Loro.after (undoSpanAgainst span base) d) := by
  simp only [Loro.after, undoSpanAgainst]
  cases depsOfLinearSpan (L.commit d) span with
  | some deps => exact undoSpanInPieces_local deps (L.commit d)
  | none => exact undoSpanByLoro_local (L.commit d)

variable {change : IntegratedChange L}

theorem undoChangeAgainst_commits {d : L.Doc} :
    L.Evolves (L.commit d) (Loro.after (undoChangeAgainst change base) d) := by
  simp only [Loro.after, undoChangeAgainst]
  by_cases hincludes : includesId (L.commit d) change.span.last
  · rw [if_pos hincludes]; exact undoBetweenInPieces_local (L.commit d)
  · rw [if_neg hincludes]; exact .refl

/-! ## Spans -/

variable {v : VersionVector} {peer : PeerId}

theorem count_of_lookup {n : ℕ} (h : v.lookup peer = some n) : v.count peer = n := by
  rw [VersionVector.count, h, getD_some]

theorem count_of_lookup_none (h : v.lookup peer = none) : v.count peer = 0 := by
  rw [VersionVector.count, h, getD_none]

theorem mem_spansSince {d : L.Doc}
    (h : span ∈ spansSince d v) : v.count span.peer < (L.oplogVv d).count span.peer := by
  rw [spansSince, mem_insertionSort, mem_filterMap] at h
  obtain ⟨⟨peer, n⟩, hentry, hspan⟩ := h
  split_ifs at hspan with hlt
  cases hspan
  rw [count_of_lookup (Assoc.mem_entries_iff.1 hentry)]
  exact hlt

theorem spansSince_eq_nil {d : L.Doc} :
    spansSince d v = [] ↔ ∀ peer, (L.oplogVv d).count peer ≤ v.count peer := by
  constructor
  · intro h peer
    by_contra hlt
    rw [not_le] at hlt
    cases hlookup : (L.oplogVv d).lookup peer with
    | none => rw [count_of_lookup_none hlookup] at hlt; exact Nat.not_lt_zero _ hlt
    | some n =>
      have hcount : (L.oplogVv d).count peer = n := count_of_lookup hlookup
      have hmem : ⟨peer, v.count peer, n⟩ ∈ spansSince d v := by
        rw [spansSince, mem_insertionSort, mem_filterMap]
        refine ⟨⟨peer, n⟩, Assoc.mem_entries_iff.2 hlookup, ?_⟩; rw [hcount] at hlt
        exact if_pos hlt
      rw [h] at hmem; cases hmem
  intro h; rw [eq_nil_iff_forall_not_mem]; intro span hspan
  exact not_lt.2 (h _) (mem_spansSince hspan)

theorem nodup_spansSince (d : L.Doc) (v : VersionVector) :
    ((spansSince d v).map IdSpan.peer).Nodup := by
  have hsublist : ∀ es : List (Sigma fun _ : PeerId => ℕ),
      List.Sublist ((es.filterMap fun e =>
        if v.count e.1 < e.2 then some (IdSpan.mk e.1 (v.count e.1) e.2) else none).map
          IdSpan.peer) es.keys := by
    intro es
    induction es with
    | nil => exact .slnil
    | cons e es ih =>
      rw [filterMap_cons, keys_cons]
      split
      · exact ih.cons _
      rename_i span hspan
      split_ifs at hspan
      cases hspan; exact ih.cons_cons _
  rw [spansSince, ((perm_insertionSort _ _).map IdSpan.peer).nodup_iff]
  exact List.Nodup.sublist (hsublist _) (L.oplogVv d).nodupKeys

section
variable (hL : L.Laws)
include hL

theorem length_spansSince_le {d d' : L.Doc} (h : L.Evolves d d') :
    (spansSince d' (L.oplogVv d)).length ≤ 1 := by
  have hpeer : ∀ span ∈ spansSince d' (L.oplogVv d), span.peer = L.peerId d := by
    intro span hspan
    by_contra hne
    have hlt := mem_spansSince hspan; rw [hL.local_count d d' _ h hne] at hlt
    exact lt_irrefl _ hlt
  have hnodup := nodup_spansSince d' (L.oplogVv d)
  match hspans : spansSince d' (L.oplogVv d) with
  | [] => exact Nat.zero_le 1
  | [span] => exact le_refl 1
  | span :: span' :: rest =>
    rw [hspans] at hpeer hnodup
    have heq : span.peer = span'.peer := by rw [hpeer span (by simp), hpeer span' (by simp)]
    simp [heq] at hnodup

/-- A document that has committed everything and has no new span has the text it had. -/
theorem text_of_no_spans {d d' : L.Doc} (h : L.Evolves d d') (hpending : L.pendingLen d' = 0)
    (hspans : spansSince d' (L.oplogVv d) = []) : L.text d' = L.text d :=
  hL.settled d d' h hpending (spansSince_eq_nil.1 hspans)

/-! ## Positions -/

variable {u : ℕ}

theorem byteToUnicodeOnBoundary_spec {d : L.Doc} (h : byteToUnicodeOnBoundary d pos = some u) :
    u ≤ (L.text d).length ∧ pos = byteAt (L.text d) u := by
  simp only [byteToUnicodeOnBoundary, unicodeAtByte, hL.convertPos_eq, bind_eq_bind,
    bind_eq_some_iff] at h
  obtain ⟨i, hi, h⟩ := h
  by_cases hpos : pos = 0
  · rw [if_pos hpos] at h; cases h; subst hpos
    have hzero := unicodeAtByte_byteAt (Nat.zero_le (L.text d).length)
    rw [byteAt_zero, hi] at hzero; cases hzero
    exact ⟨Nat.zero_le _, (byteAt_zero _).symm⟩
  rw [if_neg hpos, bind_eq_some_iff] at h; obtain ⟨j, hj, h⟩ := h
  split_ifs at h with hlt
  cases h; obtain ⟨hle, hbyte, _⟩ := unicodeAtByte_le hi
  have hbefore := (unicodeAtByte_lt hle hj).1 hlt; exact ⟨hle, by omega⟩

theorem byteToUnicodeOnBoundary_byteAt {d : L.Doc} (h : u ≤ (L.text d).length) :
    byteToUnicodeOnBoundary d (byteAt (L.text d) u) = some u := by
  simp only [byteToUnicodeOnBoundary, unicodeAtByte, hL.convertPos_eq, bind_eq_bind,
    unicodeAtByte_byteAt h, bind_some]
  by_cases hpos : byteAt (L.text d) u = 0
  · rw [if_pos hpos]
  have hle := byteAt_le (L.text d) u
  obtain ⟨v, hv⟩ := unicodeAtByte_isSome (L.text d) (byteAt (L.text d) u - 1) (by omega)
  have hlt : v < u := (unicodeAtByte_lt h hv).2 (by omega)
  rw [if_neg hpos, hv, bind_some, if_pos hlt]

theorem checkedUnicode_ok {d : L.Doc} :
    checkedUnicode d pos = .ok u ↔ u ≤ (L.text d).length ∧ pos = byteAt (L.text d) u := by
  constructor
  · intro h; rw [checkedUnicode] at h
    split_ifs at h
    split at h
    · rename_i hu; cases h; exact byteToUnicodeOnBoundary_spec hL hu
    · cases h
  rintro ⟨hu, rfl⟩; have hle := byteAt_le (L.text d) u
  rw [checkedUnicode, hL.lenUtf8_eq, if_neg (not_lt.2 hle), byteToUnicodeOnBoundary_byteAt hL hu]

end

theorem bisectUnicode_eq (hL : L.Laws) {d : L.Doc} {pos : ℕ} (hpos : pos ≤ (L.text d).length) :
    ∀ (fuel lo hi : ℕ), hi - lo ≤ fuel → lo ≤ byteAt (L.text d) pos →
      byteAt (L.text d) pos ≤ hi → hi ≤ (encode (L.text d)).length →
        bisectUnicode d pos fuel lo hi = some (byteAt (L.text d) pos)
  | 0, lo, hi, hfuel, hlo, hhi, _ => by
    rw [bisectUnicode]
    congr 1
    omega
  | fuel + 1, lo, hi, hfuel, hlo, hhi, hlen => by
    rw [bisectUnicode]
    by_cases hlt : lo < hi
    · obtain ⟨u, hu⟩ := unicodeAtByte_isSome (L.text d) (lo + (hi - lo) / 2) (by omega)
      have hiff := unicodeAtByte_lt hpos hu; simp only [unicodeAtByte, hL.convertPos_eq, hu]
      split_ifs with hup
      · have hbefore := hiff.1 hup
        exact bisectUnicode_eq hL hpos fuel _ _ (by omega) (by omega) hhi hlen
      have hafter : ¬ lo + (hi - lo) / 2 < byteAt (L.text d) pos := fun h => hup (hiff.2 h)
      exact bisectUnicode_eq hL hpos fuel _ _ (by omega) hlo (by omega) (by omega)
    rw [if_neg hlt]
    congr 1
    omega

theorem unicodeToUtf8Pos_eq (hL : L.Laws) {d : L.Doc} : unicodeToUtf8Pos d pos =
      if pos ≤ (L.text d).length then some (byteAt (L.text d) pos) else none := by
  have hend : unicodeAtByte d (L.lenUtf8 d) = some (L.text d).length := by
    rw [unicodeAtByte, hL.convertPos_eq, hL.lenUtf8_eq, ← byteAt_length]
    exact unicodeAtByte_byteAt le_rfl
  rw [unicodeToUtf8Pos, hend]
  by_cases hpos : pos ≤ (L.text d).length
  · have hle := byteAt_le (L.text d) pos
    simp only [if_pos hpos, if_neg (not_lt.2 hpos), hL.lenUtf8_eq]
    exact bisectUnicode_eq hL hpos _ _ _ le_rfl (Nat.zero_le _) hle le_rfl
  · rw [if_neg hpos]; exact if_pos (not_le.1 hpos)

/-! ## Edits -/

theorem length_cutAt_lt (hs : s ≠ []) :
    (cutAt ((encode s).length - pieceBytes) s).1.length < s.length := by
  have hcut := cutAt_append ((encode s).length - pieceBytes) s
  have hlen := length_cutAt ((encode s).length - pieceBytes) s
  cases hn : (encode s).length - pieceBytes with
  | zero => have hpos := length_pos_iff.2 hs; cases s <;> exact hpos
  | succ n =>
    rw [hn] at hcut hlen
    by_contra hge
    have happend := congrArg List.length hcut; rw [length_append] at happend
    have hnil : (cutAt (n + 1) s).2 = [] := eq_nil_of_length_eq_zero (by omega)
    rw [hnil, append_nil] at hcut; rw [hcut] at hlen; simp only [pieceBytes] at hn
    omega

theorem insertPieces_spec (hL : L.Laws) :
    ∀ (fuel : ℕ) (s : List Char) (d : L.Doc) (i : ℕ), s.length ≤ fuel → i ≤ (L.text d).length →
      ∃ d', insertPieces i fuel s d = .ok () d' ∧ L.text d' = splice (L.text d) i i s
  | 0, s, d, i, hs, _ => by
    obtain rfl := eq_nil_of_length_eq_zero (Nat.le_zero.1 hs)
    exact ⟨d, rfl, (splice_same _ _).symm⟩
  | fuel + 1, s, d, i, hs, hi => by
    rw [insertPieces]
    split_ifs with hempty
    · rw [isEmpty_iff.1 hempty]; exact ⟨d, rfl, (splice_same _ _).symm⟩
    have hcut := cutAt_append ((encode s).length - pieceBytes) s
    have hshort : (cutAt ((encode s).length - pieceBytes) s).1.length ≤ fuel := by
      have hlt := length_cutAt_lt (by simpa using hempty); omega
    obtain ⟨d₁, hd₁, htext₁⟩ :=
      hL.insert_ok d i (cutAt ((encode s).length - pieceBytes) s).2 hi
    have hi₁ : i ≤ (L.text d₁).length := by rw [htext₁, length_splice _ (le_refl i) hi]; omega
    obtain ⟨d₂, hd₂, htext₂⟩ := insertPieces_spec hL fuel _ d₁ i hshort hi₁
    refine ⟨d₂, ?_, ?_⟩
    · simp only [Bind.bind, EStateM.bind, hd₁]; exact hd₂
    · rw [htext₂, htext₁, splice_insert_before _ hi, hcut]

theorem insertInPieces_spec (hL : L.Laws) (s : List Char) {d : L.Doc} {i : ℕ}
    (hi : i ≤ (L.text d).length) :
    ∃ d', insertInPieces i s d = .ok () d' ∧ L.text d' = splice (L.text d) i i s :=
  insertPieces_spec hL s.length s d i le_rfl hi

/-- The insertion of a text at a byte: refused without a trace, unless a character
    starts there. -/
theorem insert_spec (hL : L.Laws) (pos : ℕ) (s : List Char) (d : L.Doc) :
    (∃ u d', u ≤ (L.text d).length ∧ pos = byteAt (L.text d) u ∧
        insert pos s d = .ok () d' ∧ L.text d' = splice (L.text d) u u s) ∨
      ((∀ u ≤ (L.text d).length, pos ≠ byteAt (L.text d) u) ∧
        ∃ e, insert pos s d = .error e d) := by
  rw [insert]
  cases hpos : checkedUnicode d pos with
  | ok u =>
    obtain ⟨hu, hbyte⟩ := (checkedUnicode_ok hL).1 hpos
    obtain ⟨d', hd', htext⟩ := insertInPieces_spec hL s hu
    exact .inl ⟨u, d', hu, hbyte, hd', htext⟩
  | error e =>
    refine .inr ⟨?_, e, rfl⟩; intro u hu hbyte; rw [(checkedUnicode_ok hL).2 ⟨hu, hbyte⟩] at hpos
    cases hpos

/-- The deletion of bytes: of whole characters, or refused without a trace. -/
theorem delete_spec (hL : L.Laws) {len : ℕ} (hmax : pos + len ≤ usizeMax) (d : L.Doc) :
    (∃ u v d', u ≤ v ∧ v ≤ (L.text d).length ∧ pos = byteAt (L.text d) u ∧
        pos + len = byteAt (L.text d) v ∧ delete pos len d = .ok () d' ∧
          L.text d' = splice (L.text d) u v []) ∨
      (∀ u v, u ≤ (L.text d).length → v ≤ (L.text d).length → pos = byteAt (L.text d) u →
          pos + len ≠ byteAt (L.text d) v) ∧ ∃ e, delete pos len d = .error e d := by
  rw [delete, min_eq_left hmax]
  cases hpos : checkedUnicode d pos with
  | error e =>
    refine .inr ⟨fun u v hu _ hbyte => ?_, e, rfl⟩
    cases hpos.symm.trans ((checkedUnicode_ok hL).2 ⟨hu, hbyte⟩)
  | ok u =>
    cases hstop : checkedUnicode d (pos + len) with
    | error e =>
      refine .inr ⟨fun _ v _ hv _ hbyte => ?_, e, rfl⟩
      cases hstop.symm.trans ((checkedUnicode_ok hL).2 ⟨hv, hbyte⟩)
    | ok v =>
      obtain ⟨hu, hbyte⟩ := (checkedUnicode_ok hL).1 hpos
      obtain ⟨hv, hbyte'⟩ := (checkedUnicode_ok hL).1 hstop
      have huv : u ≤ v := le_of_byteAt_le hu (by omega)
      obtain ⟨d', hd', htext⟩ := hL.delete_ok d u (v - u) (by omega)
      rw [Nat.add_sub_cancel' huv] at htext
      exact .inl ⟨u, v, d', huv, hv, hbyte, hbyte', hd', htext⟩

/-! ## Steps from back to front -/

def stepEnd : ℕ × (List Char ⊕ ℕ) → ℕ
  | (at_, .inl _) => at_
  | (at_, .inr n) => at_ + n

theorem steps_pairwise : ∀ (ds : List TextDelta) (at_ : ℕ), (∀ step ∈ steps at_ ds, at_ ≤ step.1) ∧
      (steps at_ ds).Pairwise fun s t => stepEnd s ≤ t.1
  | [], at_ => ⟨nofun, .nil⟩
  | .retain n _ :: ds, at_ => by
    obtain ⟨hfrom, horder⟩ := steps_pairwise ds (at_ + n)
    exact ⟨fun step hstep => le_trans (Nat.le_add_right _ _) (hfrom step hstep), horder⟩
  | .insert s _ :: ds, at_ => by
    obtain ⟨hfrom, horder⟩ := steps_pairwise ds at_
    refine ⟨?_, horder.cons hfrom⟩; intro step hstep
    rcases mem_cons.1 hstep with rfl | hstep
    · exact le_rfl
    · exact hfrom step hstep
  | .delete n :: ds, at_ => by
    obtain ⟨hfrom, horder⟩ := steps_pairwise ds (at_ + n)
    refine ⟨?_, horder.cons hfrom⟩; intro step hstep
    rcases mem_cons.1 hstep with rfl | hstep
    · exact le_rfl
    · exact le_trans (Nat.le_add_right _ _) (hfrom step hstep)

def applyStep : ℕ × (List Char ⊕ ℕ) → CrdtM L Unit
  | (at_, .inl s) => insertInPieces at_ s
  | (at_, .inr n) => L.delete at_ n

theorem applySteps_cons (step : ℕ × (List Char ⊕ ℕ)) (rest : List (ℕ × (List Char ⊕ ℕ))) :
    applySteps (L := L) (step :: rest) = applyStep step >>= fun _ => applySteps rest := by
  obtain ⟨at_, s | n⟩ := step <;> rfl

variable {step : ℕ × (List Char ⊕ ℕ)}

theorem applyStep_ok (hL : L.Laws) {d : L.Doc} (h : stepEnd step ≤ (L.text d).length) :
    ∃ d', applyStep step d = .ok () d' ∧ step.1 ≤ (L.text d').length := by
  obtain ⟨at_, s | n⟩ := step
  · obtain ⟨d', hd', htext⟩ := insertInPieces_spec hL s h
    refine ⟨d', hd', ?_⟩; rw [htext, length_splice s le_rfl h]; simp only [stepEnd] at h
    omega
  obtain ⟨d', hd', htext⟩ := hL.delete_ok d at_ n h
  refine ⟨d', hd', ?_⟩; rw [htext, length_splice [] (Nat.le_add_right _ _) h]
  simp only [stepEnd] at h; omega

theorem insertInPieces_error (hL : L.Laws) {i : ℕ} {d : L.Doc} (hs : s ≠ [])
    (h : (L.text d).length < i) :
    ∃ e d', insertInPieces i s d = .error e d' ∧ L.text d' = L.text d := by
  cases s with
  | nil => exact absurd rfl hs
  | cons c s =>
    obtain ⟨e, d', hd', htext⟩ := hL.insert_error d i
      (cutAt ((encode (c :: s)).length - pieceBytes) (c :: s)).2 h
    refine ⟨e, d', ?_, htext⟩
    simp only [insertInPieces, insertPieces, length_cons, isEmpty_cons,
      Bool.false_eq_true, if_false, Bind.bind, EStateM.bind, hd']

theorem applyStep_past (hL : L.Laws) {d : L.Doc}
    (h : (L.text d).length < stepEnd step) : L.text (Loro.after (applyStep step) d) = L.text d := by
  obtain ⟨at_, s | n⟩ := step
  · by_cases hs : s = []
    · subst hs; rfl
    obtain ⟨e, d', hd', htext⟩ := insertInPieces_error hL hs h
    have hstep : applyStep (at_, .inl s) d = .error e d' := hd'; rw [Loro.after, hstep]
    exact htext
  simp only [Loro.after, applyStep]
  cases n with
  | zero => obtain ⟨d', hd', htext⟩ := hL.delete_zero d at_; rw [hd']; exact htext
  | succ n =>
    obtain ⟨e, d', hd', htext⟩ := hL.delete_error d at_ (n + 1) (Nat.succ_pos n) h; rw [hd']
    exact htext

theorem applySteps_ok (hL : L.Laws) : ∀ (ss : List (ℕ × (List Char ⊕ ℕ))) (d : L.Doc),
      ss.Pairwise (fun s t => stepEnd t ≤ s.1) → (∀ s ∈ ss, stepEnd s ≤ (L.text d).length) →
        ∃ d', applySteps ss d = .ok () d'
  | [], d, _, _ => ⟨d, rfl⟩
  | s :: ss, d, horder, hinside => by
    obtain ⟨hbefore, horder⟩ := pairwise_cons.1 horder
    obtain ⟨d₁, hd₁, hle⟩ := applyStep_ok hL (hinside s mem_cons_self)
    obtain ⟨d₂, hd₂⟩ := applySteps_ok hL ss d₁ horder fun t ht => le_trans (hbefore t ht) hle
    refine ⟨d₂, ?_⟩; rw [applySteps_cons]; simp only [Bind.bind, EStateM.bind, hd₁]
    exact hd₂

/-- Steps from back to front fail before they have changed anything. -/
theorem applySteps_atomic (hL : L.Laws) :
    ∀ ss : List (ℕ × (List Char ⊕ ℕ)), ss.Pairwise (fun s t => stepEnd t ≤ s.1) →
      Atomic (L := L) (applySteps ss)
  | [], _, d, e, d', h => nomatch h
  | s :: ss, horder, d, e, d', h => by
    obtain ⟨hbefore, hrest⟩ := pairwise_cons.1 horder; rw [applySteps_cons] at h
    simp only [Bind.bind, EStateM.bind] at h
    rcases lt_or_ge (L.text d).length (stepEnd s) with hpast | hinside
    · have htext := applyStep_past hL hpast; rw [Loro.after] at htext
      cases hs : applyStep s d with
      | error e₁ d₁ => rw [hs] at h htext; cases h; exact htext
      | ok a d₁ => rw [hs] at h htext; exact (applySteps_atomic hL ss hrest d₁ e d' h).trans htext
    -- the step is done, and so are all before it
    obtain ⟨d₁, hd₁, hle⟩ := applyStep_ok hL hinside
    obtain ⟨d₂, hd₂⟩ := applySteps_ok hL ss d₁ hrest fun t ht => le_trans (hbefore t ht) hle
    rw [hd₁] at h; simp only [hd₂] at h; cases h

variable (hL : L.Laws)
include hL

theorem applyBody_atomic (delta : List TextDelta) : Atomic (L := L) (applyBody delta) := by
  rw [applyBody]
  split_ifs
  · exact hL.applyDelta_error delta
  · refine applySteps_atomic hL _ ?_; rw [pairwise_reverse]; exact (steps_pairwise delta 0).2

theorem applyInPieces_atomic {compensation : L.Diff} (hrest : L.restDiff compensation = none) :
    Atomic (applyInPieces compensation) := by
  intro d e d' h
  simp only [applyInPieces, hrest, Bind.bind, EStateM.bind] at h
  cases hdelta : L.bodyDelta compensation with
  | none => simp only [hdelta] at h; cases h
  | some delta =>
    simp only [hdelta] at h
    split at h
    · cases h
    · rename_i hbody; cases h; exact applyBody_atomic hL delta d _ _ hbody

/-! ## Undo -/

theorem undoBetweenInPieces_atomic (after before : L.Frontiers) (base : L.Diff) :
    Atomic (undoBetweenInPieces after before base) := by
  intro d e d' h
  rw [undoBetweenInPieces] at h
  split at h
  · cases h; rfl
  rename_i hdiff
  split at h
  · rename_i happly; cases h
    exact applyInPieces_atomic hL (hL.restDiff_none _ _ _ _ _ _ hdiff) d _ _ happly
  · cases h

variable {base' : L.Diff}

theorem undoBetweenInPieces_pending {d d' : L.Doc}
    (h : undoBetweenInPieces after before base d = .ok base' d') : L.pendingLen d' = 0 := by
  rw [undoBetweenInPieces] at h
  split at h
  · cases h
  split at h
  · cases h
  · cases h; exact hL.commitWith_pending _

theorem undoSpanByLoro_atomic (span : IdSpan) (base : L.Diff) :
    Atomic (undoSpanByLoro span base) := by
  intro d e d' h
  rw [undoSpanByLoro] at h
  split at h
  · rename_i hundo; cases h; exact hL.undoInternal_error _ _ _ _ _ hundo
  · cases h

theorem undoSpanAgainst_atomic : Atomic (undoSpanAgainst span base) := by
  intro d e d' h
  have htext := hL.commit_text d
  rw [undoSpanAgainst] at h
  split at h
  · rw [undoSpanInPieces] at h
    split_ifs at h
    · exact (undoBetweenInPieces_atomic hL _ _ _ _ _ _ h).trans htext
    · cases h; exact htext
  · exact (undoSpanByLoro_atomic hL _ _ _ _ _ h).trans htext

theorem undoSpanAgainst_pending {d d' : L.Doc}
    (h : undoSpanAgainst span base d = .ok base' d') : L.pendingLen d' = 0 := by
  rw [undoSpanAgainst] at h
  split at h
  · rw [undoSpanInPieces] at h
    split_ifs at h
    exact undoBetweenInPieces_pending hL h
  rw [undoSpanByLoro] at h
  split at h
  · cases h
  · rename_i hundo; cases h; exact hL.undoInternal_pending _ _ _ _ _ hundo

theorem undoChangeAgainst_atomic : Atomic (undoChangeAgainst change base) := by
  intro d e d' h
  have htext := hL.commit_text d
  rw [undoChangeAgainst] at h
  split_ifs at h
  · exact (undoBetweenInPieces_atomic hL _ _ _ _ _ _ h).trans htext
  · cases h; exact htext

theorem undoChangeAgainst_pending
    {d d' : L.Doc} (h : undoChangeAgainst change base d = .ok base' d') : L.pendingLen d' = 0 := by
  rw [undoChangeAgainst] at h
  split_ifs at h
  exact undoBetweenInPieces_pending hL h

end Crdt

end Pmacs
