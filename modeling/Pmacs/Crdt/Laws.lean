/-
  What is assumed of the library.

  * `applyDelta`: what a text delta says;
  * `Loro.Laws`: the calls do to the text what they say, and refuse without touching
    it; a document that has committed everything and counts no new op has the text it
    had;
  * `Loro.plain_laws`: the plain library obeys them.
-/
import Pmacs.Crdt.Plain
import Pmacs.Lib.BytePos

namespace Pmacs

open Lib List

def applyDelta : List TextDelta → List Char → Option (List Char)
  | [], cs => some cs
  | .retain n _ :: ds, cs =>
    if n ≤ cs.length then (applyDelta ds (cs.drop n)).map (cs.take n ++ ·) else none
  | .insert s _ :: ds, cs => (applyDelta ds cs).map (s ++ ·)
  | .delete n :: ds, cs => if n ≤ cs.length then applyDelta ds (cs.drop n) else none

def patch : List TextDelta → List Char → List Char
  | [], cs => cs
  | .retain n _ :: ds, cs => cs.take n ++ patch ds (cs.drop n)
  | .insert s _ :: ds, cs => s ++ patch ds cs
  | .delete n :: ds, cs => patch ds (cs.drop n)

def applyDeltas : List (List TextDelta) → List Char → Option (List Char)
  | [], cs => some cs
  | delta :: deltas, cs => (applyDelta delta cs).bind (applyDeltas deltas)

namespace Loro

variable (L : Loro)

/-- The documented behaviour of the library that the buffer relies on: a document with
    one text container. -/
structure Laws : Prop where
  newDoc_text : ∀ peer d, L.newDoc peer = .ok d → L.text d = []
  lenUtf8_eq : ∀ d, L.lenUtf8 d = (Utf8.encode (L.text d)).length
  convertPos_eq : ∀ d pos, L.convertPos d pos = Utf8.unicodeAtByte (L.text d) pos
  insert_ok : ∀ d i s, i ≤ (L.text d).length →
    ∃ d', L.insert i s d = .ok () d' ∧ L.text d' = splice (L.text d) i i s
  insert_error : ∀ d i s, (L.text d).length < i →
    ∃ e d', L.insert i s d = .error e d' ∧ L.text d' = L.text d
  delete_ok : ∀ d i n, i + n ≤ (L.text d).length →
    ∃ d', L.delete i n d = .ok () d' ∧ L.text d' = splice (L.text d) i (i + n) []
  delete_zero : ∀ d i, ∃ d', L.delete i 0 d = .ok () d' ∧ L.text d' = L.text d
  delete_error : ∀ d i n, 0 < n → (L.text d).length < i + n →
    ∃ e d', L.delete i n d = .error e d' ∧ L.text d' = L.text d
  commit_text : ∀ d, L.text (L.commit d) = L.text d
  commitWith_text : ∀ d, L.text (L.commitWith d) = L.text d
  export_ok : ∀ v d, ∃ bytes d', L.exportUpdates v d = .ok bytes d' ∧ L.text d' = L.text d
  import_ok : ∀ bytes d deltas d', L.importUpdates bytes d = .ok deltas d' →
    applyDeltas deltas (L.text d) = some (L.text d')
  import_error : ∀ bytes d e d', L.importUpdates bytes d = .error e d' → L.text d' = L.text d
  applyDelta_ok : ∀ delta d d', L.applyDelta delta d = .ok () d' →
    L.text d' = patch delta (L.text d)
  applyDelta_error : ∀ delta d e d', L.applyDelta delta d = .error e d' → L.text d' = L.text d
  undoInternal_error : ∀ span against d e d', L.undoInternal span against d = .error e d' →
    L.text d' = L.text d
  restDiff_none : ∀ d a b inverse base left, L.diff d a b = .ok inverse →
    L.restDiff (L.transform inverse base left) = none
  commit_pending : ∀ d, L.pendingLen (L.commit d) = 0
  commitWith_pending : ∀ d, L.pendingLen (L.commitWith d) = 0
  undoInternal_pending : ∀ span against d inverses d',
    L.undoInternal span against d = .ok inverses d' → L.pendingLen d' = 0
  local_count : ∀ d d' peer, Evolves L d d' → peer ≠ L.peerId d →
    (L.oplogVv d').count peer = (L.oplogVv d).count peer
  count_mono : ∀ d d' peer, Evolves L d d' →
    (L.oplogVv d).count peer ≤ (L.oplogVv d').count peer
  diff_evolves : ∀ d d' a b diff, Evolves L d d' → L.diff d a b = .ok diff →
    L.diff d' a b = .ok diff
  getChange_evolves : ∀ d d' id c, L.pendingLen d = 0 → Evolves L d d' → L.getChange d id = some c →
    ∃ c', L.getChange d' id = some c' ∧ c'.id = c.id ∧ c'.deps = c.deps ∧
      (c.len ≤ i32Max → c'.len ≤ i32Max) ∧ (c'.len = c.len ∨
        (c.len ≤ c'.len ∧ c.id.counter + c.len = (L.oplogVv d).count id.peer))
  settled : ∀ d d', Evolves L d d' → L.pendingLen d' = 0 →
    (∀ peer, (L.oplogVv d').count peer ≤ (L.oplogVv d).count peer) → L.text d' = L.text d

end Loro

/-! ## The plain library -/

namespace Plain

/-- What calls do to a plain document: its peer stays, ops are added to those it has,
    and none of those leaves the log. -/
structure Extends (d d' : Doc) : Prop where
  peer : d'.peer = d.peer
  log : ∃ new, d'.log = new ++ d.log ∧ ∀ e ∈ new, 0 < e.1
  logged : d.count - d.pending ≤ d'.count - d'.pending

theorem Extends.refl (d : Doc) : Extends d d :=
  ⟨rfl, ⟨[], rfl, nofun⟩, le_rfl⟩

theorem Extends.trans {d d' d'' : Doc} (h : Extends d d') (h' : Extends d' d'') :
    Extends d d'' := by
  obtain ⟨hpeer, ⟨new, hnew, hpos⟩, hlogged⟩ := h
  obtain ⟨hpeer', ⟨new', hnew', hpos'⟩, hlogged'⟩ := h'
  refine ⟨hpeer'.trans hpeer, ⟨new' ++ new, ?_, ?_⟩, le_trans hlogged hlogged'⟩
  · rw [hnew', hnew, append_assoc]
  intro e he
  rcases mem_append.1 he with he | he
  · exact hpos' e he
  · exact hpos e he

variable {d : Doc}

theorem record_extends (k : ℕ) (text : List Char) : Extends d (d.record k text) := by
  cases k with
  | zero => exact .refl d
  | succ k =>
    refine ⟨rfl, ⟨[(k + 1, text)], rfl, ?_⟩, ?_⟩
    · intro e he; rw [mem_singleton.1 he]; exact Nat.succ_pos k
    · simp only [Doc.record, Doc.count, total, map_cons, sum_cons]; omega

theorem commit_extends : Extends d (commit d) :=
  ⟨rfl, ⟨[], rfl, nofun⟩, Nat.sub_le _ _⟩

variable {i : ℕ}

theorem insert_extends (s : List Char) : Extends d (Loro.after (insert i s) d) := by
  rw [Loro.after, insert]
  by_cases hi : i ≤ d.text.length
  · rw [if_pos hi]; exact record_extends _ _
  · rw [if_neg hi]; exact .refl d

theorem delete_extends (n : ℕ) : Extends d (Loro.after (delete i n) d) := by
  rw [Loro.after, delete]
  by_cases hn : n = 0
  · rw [if_pos hn]; exact .refl d
  rw [if_neg hn]
  by_cases hi : i + n ≤ d.text.length
  · rw [if_pos hi]; exact record_extends _ _
  · rw [if_neg hi]; exact .refl d

theorem extends_of_evolves {d d' : Loro.plain.Doc} (h : Loro.Evolves Loro.plain d d') :
    Extends d d' := by
  induction h with
  | refl => exact .refl d
  | insert i s _ ih => exact ih.trans (insert_extends s)
  | delete i n _ ih => exact ih.trans (delete_extends n)
  | applyDelta delta _ ih => exact ih.trans (.refl _)
  | applyDiff diff _ ih => exact ih.trans (.refl _)
  | commit _ ih => exact ih.trans (commit_extends)
  | commitWith _ ih => exact ih.trans (commit_extends)
  | exportUpdates v _ ih => exact ih.trans (commit_extends)
  | undoInternal span against _ ih => exact ih.trans (.refl _)

theorem total_append (new log : List (ℕ × List Char)) : total log ≤ total (new ++ log) := by
  simp [total]

theorem Extends.count {d d' : Doc} (h : Extends d d') : d.count ≤ d'.count := by
  obtain ⟨_, ⟨new, hnew, _⟩, _⟩ := h
  rw [Doc.count, Doc.count, hnew]
  exact total_append new d.log

theorem Extends.text {d d' : Doc} (h : Extends d d') (hcount : d'.count ≤ d.count) :
    d'.text = d.text := by
  obtain ⟨_, ⟨new, hnew, hpos⟩, _⟩ := h
  cases new with
  | nil => rw [Doc.text, Doc.text, hnew, nil_append]
  | cons e new =>
    have he := hpos e mem_cons_self; have htotal := total_append new d.log
    simp only [Doc.count, hnew, total, cons_append, map_cons, sum_cons] at hcount htotal; omega

variable {log : List (ℕ × List Char)} {text : List Char}

theorem textAt_le {n : ℕ} (h : textAt n log = some text) : n ≤ total log := by
  induction log with
  | nil =>
    rw [textAt] at h
    split_ifs at h with hn
    exact le_of_eq hn
  | cons e log ih =>
    simp only [textAt] at h; simp only [total, map_cons, sum_cons] at ih ⊢
    split_ifs at h with hn
    · simp only [total] at hn; omega
    · have := ih h; omega

variable {new : List (ℕ × List Char)}

theorem textAt_append {n : ℕ} (hpos : ∀ e ∈ new,
    0 < e.1) (h : textAt n log = some text) : textAt n (new ++ log) = some text := by
  induction new with
  | nil => exact h
  | cons e new ih =>
    have he := hpos e mem_cons_self; have hle := textAt_le h; have htotal := total_append new log
    rw [cons_append, textAt, if_neg (by omega)]
    exact ih fun e' he' => hpos e' (mem_cons_of_mem e he')

variable {peer : PeerId}

theorem changeAt_lt {c : LoroChange ℕ} (h : changeAt peer i log = some c) : i < total log := by
  cases log with
  | nil => cases h
  | cons e log =>
    have htotal : total (e :: log) = e.1 + total log := by simp [total]
    rw [changeAt] at h
    by_cases hle : total log ≤ i
    · rw [if_pos hle] at h
      by_cases hlt : i < total log + e.1
      · omega
      · rw [if_neg hlt] at h; cases h
    · omega

theorem changeAt_append {c : LoroChange ℕ}
    (h : changeAt peer i log = some c) : changeAt peer i (new ++ log) = some c := by
  induction new with
  | nil => exact h
  | cons e new ih =>
    have hlt := changeAt_lt h; have htotal := total_append new log
    rw [cons_append, changeAt, if_neg (by omega)]; exact ih

theorem delete_zero (i : ℕ) (d : Doc) : delete i 0 d = .ok () d := if_pos rfl

theorem record_text {k : ℕ} (h : k = 0 → text = d.text) : (d.record k text).text = text := by
  cases k with
  | zero => exact (h rfl).symm
  | succ k => rfl

theorem count_peer : (Loro.plain.oplogVv d).count d.peer = d.count := by
  show VersionVector.count (if d.count = 0 then ∅ else AList.singleton d.peer d.count) d.peer = _
  split_ifs with h
  · rw [h]; rfl
  · simp [VersionVector.count, AList.singleton, AList.lookup]

theorem count_of_ne (h : peer ≠ d.peer) : (Loro.plain.oplogVv d).count peer = 0 := by
  show VersionVector.count (if d.count = 0 then ∅ else AList.singleton d.peer d.count) peer = _
  split_ifs
  · rfl
  · simp [VersionVector.count, AList.singleton, AList.lookup, h]

end Plain

theorem Loro.plain_laws : Loro.plain.Laws where
  newDoc_text _ _ h := by
    cases h; rfl
  lenUtf8_eq _ := rfl
  convertPos_eq _ _ := rfl
  insert_ok d i s h := by
    refine ⟨_, if_pos h, Plain.record_text ?_⟩; intro hs
    rw [eq_nil_of_length_eq_zero hs, splice_same]
  insert_error d i s h := ⟨_, _, if_neg (not_le.2 h), rfl⟩
  delete_ok d i n h := by
    by_cases hn : n = 0
    · subst hn; exact ⟨d, Plain.delete_zero i d, (splice_same _ _).symm⟩
    · exact ⟨_, (if_neg hn).trans (if_pos h), Plain.record_text fun h => absurd h hn⟩
  delete_zero d i := ⟨d, Plain.delete_zero i d, rfl⟩
  delete_error d i n hn h :=
    ⟨_, _, (if_neg (Nat.pos_iff_ne_zero.1 hn)).trans (if_neg (not_le.2 h)), rfl⟩
  commit_text _ := rfl
  commitWith_text _ := rfl
  export_ok v d := ⟨[], _, rfl, rfl⟩
  import_ok _ _ _ _ h := nomatch h
  import_error _ _ _ _ h := by
    cases h; rfl
  applyDelta_ok _ _ _ h := nomatch h
  applyDelta_error _ _ _ _ h := by
    cases h; rfl
  undoInternal_error _ _ _ _ _ h := by
    cases h; rfl
  restDiff_none _ _ _ _ _ _ _ := rfl
  commit_pending _ := rfl
  commitWith_pending _ := rfl
  undoInternal_pending _ _ _ _ _ h := nomatch h
  local_count d d' peer h hpeer := by
    have hpeer' : peer ≠ Plain.Doc.peer d' := by rw [(Plain.extends_of_evolves h).peer]; exact hpeer
    exact (Plain.count_of_ne hpeer').trans (Plain.count_of_ne hpeer).symm
  count_mono d d' peer h := by
    have hextends := Plain.extends_of_evolves h
    by_cases hpeer : peer = Plain.Doc.peer d
    · subst hpeer
      have hold : (Loro.plain.oplogVv d).count (Plain.Doc.peer d) = Plain.Doc.count d :=
        Plain.count_peer
      have hnew : (Loro.plain.oplogVv d').count (Plain.Doc.peer d) = Plain.Doc.count d' := by
        rw [← hextends.peer]; exact Plain.count_peer
      rw [hold, hnew]; exact hextends.count
    have hold : (Loro.plain.oplogVv d).count peer = 0 := Plain.count_of_ne hpeer; rw [hold]
    exact Nat.zero_le _
  diff_evolves d d' a b diff h hdiff := by
    obtain ⟨_, ⟨new, hnew, hpos⟩, _⟩ := Plain.extends_of_evolves h
    have hold : Plain.diff d a b = .ok diff := hdiff; show Plain.diff d' a b = .ok diff
    simp only [Plain.diff] at hold ⊢
    split at hold
    · rename_i old new' hat hat'
      rw [hnew, Plain.textAt_append hpos hat, Plain.textAt_append hpos hat']; exact hold
    · cases hold
  getChange_evolves d d' id c _ h hc := by
    obtain ⟨hpeer, ⟨new, hnew, _⟩, hlogged⟩ := Plain.extends_of_evolves h
    have hold : Plain.Doc.getChange d id = some c := hc; simp only [Plain.Doc.getChange] at hold
    split_ifs at hold with hid
    refine ⟨c, ?_, rfl, rfl, fun hlen => hlen, .inl rfl⟩; show Plain.Doc.getChange d' id = some c
    simp only [Plain.Doc.getChange]
    rw [hpeer, if_pos ⟨hid.1, lt_of_lt_of_le hid.2 hlogged⟩, hnew]
    exact Plain.changeAt_append hold
  settled d d' h _ hcount := by
    have hextends := Plain.extends_of_evolves h
    have hold : (Loro.plain.oplogVv d).count (Plain.Doc.peer d) = Plain.Doc.count d :=
      Plain.count_peer
    have hnew : (Loro.plain.oplogVv d').count (Plain.Doc.peer d) = Plain.Doc.count d' := by
      rw [← hextends.peer]; exact Plain.count_peer
    have hle : Plain.Doc.count d' ≤ Plain.Doc.count d := by rw [← hold, ← hnew]; exact hcount _
    exact hextends.text hle

end Pmacs
