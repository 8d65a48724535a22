/-
  Diagnostics carried across edits: at once when they are published, or one by one.

  * `carriedSpan` carries a span edit by edit, as the store does; `carryEnds_eq`: the
    fold over a log with one clamp at its end comes to the same, so it does not matter
    where a publish cuts the edits (`Diagnostic.placed_carried`);
  * `DiagnosticStore.Run` are the runs of the store, and `Wf` what holds in them.
-/
import Pmacs.Lsp.Diagnostics
import Pmacs.Lsp.SemanticTokensRun

namespace Pmacs

open Lib AList List Option DocumentEdit SemanticTokenStore

variable {d : Diagnostic} {e : DocumentEdit} {diags : List Diagnostic} {raw : LspDiagnostic}
  {uri : String} {hi lo w : ℕ}

/-! ## Spans across edits -/

def carriedSpan : List DocumentEdit → ℕ × ℕ → Option (ℕ × ℕ)
  | [], span => some span
  | e :: es, span =>
    if e.deletes span.1 span.2 then none
    else carriedSpan es (e.translateStart span.1,
      max (e.translateEnd span.2) (e.translateStart span.1))

variable (es : List DocumentEdit)

theorem carriedSpan_append (es' : List DocumentEdit) (span : ℕ × ℕ) :
    carriedSpan (es ++ es') span = (carriedSpan es span).bind (carriedSpan es') := by
  induction es generalizing span with
  | nil => rfl
  | cons e es ih =>
    simp only [cons_append, carriedSpan]
    split
    · rfl
    · exact ih _

theorem DocumentEdit.deletes_max {lo : ℕ} (hi : ℕ) :
    e.deletes lo (max hi lo) = e.deletes lo hi := by
  rcases lt_or_ge lo hi with h | h
  · rw [max_eq_left h.le]
  · rw [max_eq_right h]; simp only [deletes, if_neg (lt_irrefl lo), if_neg (not_lt.2 h)]

/-- Where a range is not deleted its ends do not cross, so it may be clamped before the
    edit or after it. -/
theorem DocumentEdit.translateEnd_max (h : e.deletes lo hi = false) :
    max (e.translateEnd (max hi lo)) (e.translateStart lo) =
      max (e.translateEnd hi) (e.translateStart lo) := by
  rcases lt_or_ge lo hi with hlt | hge
  · rw [max_eq_left hlt.le]
  have hcross := e.translateEnd_le_translateStart hge
  -- only strictly inside the replaced text do the two rules differ
  have hsame : e.translateEnd lo = e.translateStart lo := by
    simp only [deletes, if_neg (not_lt.2 hge)] at h; simp only [translateEnd, translateStart]
    split_ifs at h ⊢ <;> simp_all
  rw [max_eq_right hge, hsame, max_self, max_eq_right hcross]

/-- **One clamp at the end** does what a clamp at every edit does. -/
theorem carryEnds_eq (lo hi : ℕ) :
    (carryEnds es lo hi).map (fun span => (span.1, max span.2 span.1)) =
      carriedSpan es (lo, max hi lo) := by
  induction es generalizing lo hi with
  | nil => rfl
  | cons e es ih =>
    simp only [carryEnds, carriedSpan, e.deletes_max]
    cases hdeletes : e.deletes lo hi with
    | true => rfl
    | false => simp only [Bool.false_eq_true, if_false]; rw [ih, e.translateEnd_max hdeletes]

/-! ### Characters that no edit touches -/

/-- No edit replaces or splits the `w` characters at `lo` on their way. -/
def CharsUntouched (w : ℕ) : ℕ → List DocumentEdit → Prop
  | _, [] => True
  | lo, e :: es => (e.oldEnd ≤ lo ∨ lo + w ≤ e.start) ∧ CharsUntouched w (e.translateStart lo) es

/-- And no edit inserts where they end. -/
def NoneAtEnd (w : ℕ) : ℕ → List DocumentEdit → Prop
  | _, [] => True
  | lo, e :: es =>
    (e.oldEnd ≤ lo ∨ lo + w ≤ e.start ∧ ¬ (e.start = lo + w ∧ e.oldEnd = e.start)) ∧
      NoneAtEnd w (e.translateStart lo) es

variable {text : List UInt8}

/-- One exact edit that touches none of the characters of a span. -/
theorem slice_translateStart {ins : List UInt8} (h : e.Exact text ins)
    (hle : lo + w ≤ text.length) (hu : e.oldEnd ≤ lo ∨ lo + w ≤ e.start) :
    e.translateStart lo + w ≤ (e.apply text ins).length ∧
      slice (e.apply text ins) (e.translateStart lo) (e.translateStart lo + w) =
        slice text lo (lo + w) := by
  have hstart := h.start_le
  have hend := h.oldEnd_le
  have hins := h.insertedLen
  rw [length_apply h]
  by_cases hleft : e.oldEnd ≤ lo
  · have hto : e.translateStart lo = lo - (e.oldEnd - e.start) + ins.length := by
      simp only [translateStart, shift, hins]
      split_ifs <;> omega
    refine ⟨by omega, ?_⟩
    have hslice := slice_splice_after (l := text) ins hstart hleft (Nat.le_add_right lo w) hle
    rw [hto, apply, ← hslice]
    congr 1
    omega
  have hright : lo + w ≤ e.start := hu.resolve_left hleft
  have hto : e.translateStart lo = lo := by
    simp only [translateStart]
    split_ifs <;> omega
  rw [hto]; exact ⟨by omega, slice_splice_before ins hright (by omega)⟩

/-- One edit that touches none of the characters leaves them in the span, and at its
    very end where the edit does not insert there. -/
theorem translate_untouched (horder : e.start ≤ e.oldEnd)
    (hspan : lo + w ≤ hi) (hempty : w = 0 → hi = lo) (hu : e.oldEnd ≤ lo ∨ lo + w ≤ e.start) :
    e.deletes lo hi = false ∧
      e.translateStart lo + w ≤ max (e.translateEnd hi) (e.translateStart lo) ∧
      (w = 0 → max (e.translateEnd hi) (e.translateStart lo) = e.translateStart lo) := by
  refine ⟨?_, ?_, ?_⟩
  · simp only [deletes]
    split_ifs <;> simp only [decide_eq_false_iff_not] <;> omega
  · simp only [translateStart, translateEnd, shift]
    split_ifs <;> omega
  intro hw; have hhi := hempty hw
  simp only [translateStart, translateEnd, shift]
  split_ifs <;> omega

theorem translate_noneAtEnd (horder : e.start ≤ e.oldEnd)
    (hu : e.oldEnd ≤ lo ∨ lo + w ≤ e.start ∧ ¬ (e.start = lo + w ∧ e.oldEnd = e.start)) :
    max (e.translateEnd (lo + w)) (e.translateStart lo) = e.translateStart lo + w := by
  simp only [translateStart, translateEnd, shift]
  split_ifs <;> omega

variable {hist : List HistoryEdit}

/-- **Characters that no edit touches** stay in the span that covers them. -/
theorem carriedSpan_untouched
    (hexact : ExactFrom text hist) (hspan : lo + w ≤ hi) (hempty : w = 0 → hi = lo)
    (hle : lo + w ≤ text.length) (hu : CharsUntouched w lo (hist.map (·.1))) :
    ∃ lo' hi', carriedSpan (hist.map (·.1)) (lo, hi) = some (lo', hi') ∧ lo' + w ≤ hi' ∧
      slice (textAfter text hist) lo' (lo' + w) = slice text lo (lo + w) ∧
      (hi = lo + w → NoneAtEnd w lo (hist.map (·.1)) → hi' = lo' + w) := by
  induction hist generalizing text lo hi with
  | nil => exact ⟨lo, hi, rfl, hspan, rfl, fun h _ => h⟩
  | cons x hist ih =>
    obtain ⟨hx, hhist⟩ := hexact; obtain ⟨hux, hu⟩ := hu
    obtain ⟨hdeletes, hspan', hempty'⟩ := translate_untouched hx.start_le hspan hempty hux
    obtain ⟨hle', hslice⟩ := slice_translateStart hx hle hux
    obtain ⟨lo', hi', hcarried, hbound, hslice', hexactly⟩ := ih hhist hspan' hempty' hle' hu
    refine ⟨lo', hi', ?_, hbound, hslice'.trans hslice, ?_⟩
    · simp only [map_cons, carriedSpan, hdeletes, Bool.false_eq_true, if_false]; exact hcarried
    · rintro rfl ⟨hnone, hnones⟩; exact hexactly (translate_noneAtEnd hx.start_le hnone) hnones

/-! ## Publishes -/

namespace Diagnostic

/-- What becomes of a diagnostic computed for a text, across the edits since it. -/
def landed (text : List Char) (enc : PositionEncoding) (d : Diagnostic) : Option Diagnostic :=
  match d.rangeIn text enc with
  | none => some (d.inBytes text enc)
  | some (lo, hi) =>
    (carriedSpan es (lo, max hi lo)).map fun span =>
      { d.inBytes text enc with span := some span }

def carried (d : Diagnostic) (es : List DocumentEdit) : Option Diagnostic :=
  match d.span with
  | none => some d
  | some span => (carriedSpan es span).map fun span => { d with span := some span }

theorem carried_nil : d.carried [] = some d := by
  rcases d with ⟨_, _, _, _, _, _, _, _, span⟩
  cases span <;> rfl

theorem carried_cons (es : List DocumentEdit) :
    d.carried (e :: es) = if d.deletedBy e then none else (d.translate e).carried es := by
  unfold carried deletedBy translate
  cases hspan : d.span with
  | none => simp [hspan]
  | some span =>
    simp only [any_some, carriedSpan]
    split
    · rfl
    · rfl

/-- A span has its start before its end. -/
def Ordered (d : Diagnostic) : Prop := ∀ lo hi, d.span = some (lo, hi) → lo ≤ hi

theorem Ordered.translate (h : d.Ordered) (e : DocumentEdit) : (d.translate e).Ordered := by
  intro lo hi hspan
  unfold Diagnostic.translate at hspan
  split at hspan
  · exact h lo hi hspan
  · cases hspan; exact le_max_right _ _

theorem translate_noop (h : d.Ordered) (he : e.IsNoop) :
    d.deletedBy e = false ∧ d.translate e = d := by
  obtain ⟨hrange, hins⟩ := he
  have hdeletes : ∀ lo hi, e.deletes lo hi = false := fun lo hi => by
    rw [deletes, if_pos hrange]
  have hto : ∀ pos, e.translateStart pos = pos ∧ e.translateEnd pos = pos := by
    intro pos
    simp [translateStart, translateEnd, if_pos hrange, hins]
  constructor
  · unfold deletedBy; cases d.span <;> simp [hdeletes]
  unfold Diagnostic.translate
  split
  · rfl
  · rename_i lo hi hspan; rw [(hto lo).1, (hto hi).2, max_eq_left (h lo hi hspan), ← hspan]

@[simp]
theorem translate_severity (d : Diagnostic) (e : DocumentEdit) :
    (d.translate e).severity = d.severity := by
  unfold Diagnostic.translate
  split <;> rfl

end Diagnostic

/-! ## The store -/

theorem countSeverities_congr {diags' : List Diagnostic}
    (h : diags.map (·.severity) = diags'.map (·.severity)) :
    countSeverities diags = countSeverities diags' := by
  have hfold : ∀ l : List Diagnostic, countSeverities l =
      (l.map (·.severity)).foldl SeverityCounts.bump .zero := fun l => by
    rw [foldl_map, countSeverities]
  rw [hfold, hfold, h]

namespace DiagnosticStore

@[simp]
theorem forUri_bumpEpoch {s : DiagnosticStore} {uri' : String} :
    (s.bumpEpoch uri).forUri uri' = s.forUri uri' := rfl

theorem lookup_hold (s : DiagnosticStore) (uri uri' : String) (diags : List Diagnostic) :
    ((s.hold uri diags).forUri uri' = if uri' = uri then diags else s.forUri uri') ∧
      (s.hold uri diags).severityCountsFor uri' =
        if uri' = uri then countSeverities diags else s.severityCountsFor uri' := by
  unfold hold forUri severityCountsFor
  by_cases huri : uri' = uri
  · subst huri
    cases diags with
    | nil => simp [countSeverities]
    | cons d diags => simp
  split
  · simp [lookup_erase_ne huri]
  · simp [lookup_insert_ne huri]

theorem forUri_translateEdit {s : DiagnosticStore}
    (h : ∀ d ∈ s.forUri uri, d.Ordered) (e : DocumentEdit) : (s.translateEdit uri e).forUri uri =
      ((s.forUri uri).filter fun d => !d.deletedBy e).map (·.translate e) := by
  unfold translateEdit
  by_cases hnoop : e.oldEnd = e.start ∧ e.insertedLen = 0
  · rw [if_pos hnoop]; have hsame := fun d hd => Diagnostic.translate_noop (h d hd) hnoop
    rw [filter_eq_self.2 fun d hd => by simp [(hsame d hd).1]]
    exact ((map_congr_left fun d hd => (hsame d hd).2).trans (map_id _)).symm
  rw [if_neg hnoop]
  cases hheld : s.byUri.lookup uri with
  | none => simp [forUri, hheld]
  | some held =>
    have hfor : s.forUri uri = held := by simp [forUri, hheld]
    simp only [hfor]
    split
    · simp [forUri]
    · rw [forUri_bumpEpoch, (lookup_hold _ _ _ _).1, if_pos rfl]

theorem forUri_foldl_translateEdit (later : List DocumentEdit) {s : DiagnosticStore}
    (h : ∀ d ∈ s.forUri uri, d.Ordered) :
    (later.foldl (fun s e => s.translateEdit uri e) s).forUri uri =
      (s.forUri uri).filterMap (·.carried later) := by
  induction later generalizing s with
  | nil => simp [Diagnostic.carried_nil]
  | cons e later ih =>
    have hnext := forUri_translateEdit h e
    have hordered : ∀ d ∈ (s.translateEdit uri e).forUri uri, d.Ordered := by
      intro d hd; rw [hnext] at hd; obtain ⟨d', hd', rfl⟩ := mem_map.1 hd
      exact (h d' (mem_of_mem_filter hd')).translate e
    rw [foldl_cons, ih hordered, hnext, filterMap_map, filterMap_filter]
    refine filterMap_congr fun d _ => ?_; rw [Diagnostic.carried_cons]; cases d.deletedBy e <;> rfl

theorem forUri_set_perm (s : DiagnosticStore) (uri : String) (diags : List Diagnostic) :
    ((s.set uri diags).forUri uri).Perm diags := by
  rw [set, (lookup_hold _ _ _ _).1, if_pos rfl]
  split
  · exact mergeSort_perm ..
  · exact mergeSort_perm ..

/-- The runs of the store: publishes, and the edits that a recorder reports. -/
inductive Run : DiagnosticStore → Prop
  | new : Run new
  | publish {s} (store : SemanticTokenStore) (ctx : PublishContext) (uri : String)
      (published : List LspDiagnostic) : Run s →
      Run (absorbPublishDiagnostics store ctx s uri published)
  | translateEdit {s} (uri : String) (edit : DocumentEdit) : Run s → Run (s.translateEdit uri edit)
  | clear {s} (uri : String) : Run s → Run (s.clear uri)
  | forget {s} (uri : String) : Run s → Run (s.forget uri)
  | markStale {s} (uri : String) : Run s → Run (s.markStale uri)
  | noteLogged {s} (uri : String) : Run s → Run (s.noteLogged uri)

/-- The counts are those of what is held, and no span ends before it starts. -/
structure Wf (s : DiagnosticStore) : Prop where
  counts : ∀ uri, s.severityCountsFor uri = countSeverities (s.forUri uri)
  ordered : ∀ uri, ∀ d ∈ s.forUri uri, d.Ordered

theorem Wf.hold {s : DiagnosticStore} (h : s.Wf) (uri : String)
    (hdiags : ∀ d ∈ diags, d.Ordered) : (s.hold uri diags).Wf := by
  constructor
  · intro uri'; rw [(lookup_hold s uri uri' diags).1, (lookup_hold s uri uri' diags).2]
    split
    · rfl
    · exact h.counts uri'
  intro uri' d hd; rw [(lookup_hold s uri uri' diags).1] at hd
  split at hd
  · exact hdiags d hd
  · exact h.ordered uri' d hd

theorem Wf.of_eq {s s' : DiagnosticStore} (h : s.Wf) (hheld : s'.byUri = s.byUri)
    (hcounts : s'.severityCounts = s.severityCounts) : s'.Wf := by
  constructor
  · intro uri; rw [severityCountsFor, forUri, hheld, hcounts]; exact h.counts uri
  · intro uri d hd; rw [forUri, hheld] at hd; exact h.ordered uri d hd

theorem Wf.set {s : DiagnosticStore} (h : s.Wf) (uri : String)
    (hdiags : ∀ d ∈ diags, d.Ordered) : (s.set uri diags).Wf := by
  have hbase : Wf (bumpEpoch { s with staleUris := s.staleUris.filter (· ≠ uri) } uri) :=
    h.of_eq rfl rfl
  refine hbase.hold uri fun d hd => ?_
  split at hd
  · exact hdiags d ((mergeSort_perm ..).mem_iff.1 hd)
  · exact hdiags d ((mergeSort_perm ..).mem_iff.1 hd)

theorem Wf.erase {s : DiagnosticStore} (h : s.Wf) (uri : String) :
    Wf { s with byUri := s.byUri.erase uri, severityCounts := s.severityCounts.erase uri } := by
  have hnone : ∀ d ∈ ([] : List Diagnostic), d.Ordered := by simp
  exact h.hold uri hnone

theorem Wf.translateEdit {s : DiagnosticStore} (h : s.Wf) (uri : String) (e : DocumentEdit) :
    (s.translateEdit uri e).Wf := by
  unfold DiagnosticStore.translateEdit
  split
  · exact h
  cases hheld : s.byUri.lookup uri with
  | none => exact h
  | some held =>
    have hfor : s.forUri uri = held := by simp [forUri, hheld]
    have hkept : ∀ d ∈ (held.filter fun d => !d.deletedBy e).map (·.translate e), d.Ordered := by
      intro d hd; obtain ⟨d', hd', rfl⟩ := mem_map.1 hd
      exact (h.ordered uri d' (hfor ▸ mem_of_mem_filter hd')).translate e
    simp only
    split
    · -- nothing was dropped, so the counts still hold
      rename_i hlen; rw [length_map] at hlen
      have hall : held.filter (fun d => !d.deletedBy e) = held := filter_sublist.eq_of_length hlen
      have hsame : countSeverities (held.map (·.translate e)) = countSeverities held :=
        countSeverities_congr (by simp)
      rw [hall] at hkept ⊢
      constructor
      · intro uri'
        by_cases huri : uri' = uri
        · subst huri; have hcounts := h.counts uri'; rw [hfor] at hcounts
          simp only [forUri, lookup_insert, getD_some, hsame]; exact hcounts
        · simp only [forUri, lookup_insert_ne huri]; exact h.counts uri'
      intro uri' d hd
      by_cases huri : uri' = uri
      · subst huri; simp only [forUri, lookup_insert, getD_some] at hd; exact hkept d hd
      · simp only [forUri, lookup_insert_ne huri] at hd; exact h.ordered uri' d hd
    · exact (h.hold uri hkept).of_eq rfl rfl

end DiagnosticStore

/-! ## Publishing anywhere in a history -/

theorem Diagnostic.span_fromLspValue (h : fromLspValue raw = some d) : d.span = none := by
  unfold fromLspValue at h
  split at h
  · cases h; rfl
  · cases h

variable {store : SemanticTokenStore} {ctx : PublishContext}

theorem Diagnostic.placed_ordered {d' : Diagnostic} (hraw : Diagnostic.fromLspValue raw = some d)
    (h : d.placed store uri ctx = some d') : d'.Ordered := by
  have hnone := span_fromLspValue hraw
  intro lo hi hspan
  unfold placed at h
  split at h
  · cases h; rw [hnone] at hspan; cases hspan
  split at h
  · split at h
    · rename_i hcarried; cases h; cases hspan
      unfold carryRangeSince at hcarried
      split at hcarried
      · cases hcarried
      split at hcarried
      · cases hcarried
      split at hcarried
      · cases hcarried
      · cases hcarried; exact le_max_right _ _
    · cases h
    · cases h; cases hspan
  · cases h; simp only [inBytes, hnone] at hspan; cases hspan

theorem absorbPublishDiagnostics_wf {s : DiagnosticStore} (h : s.Wf) (store : SemanticTokenStore)
    (ctx : PublishContext) (uri : String) (published : List LspDiagnostic) :
    (absorbPublishDiagnostics store ctx s uri published).Wf := by
  refine h.set uri fun d hd => ?_
  obtain ⟨raw, -, hraw⟩ := mem_filterMap.1 hd
  obtain ⟨d', hd', hplaced⟩ := bind_eq_some_iff.1 hraw
  exact Diagnostic.placed_ordered hd' hplaced

theorem DiagnosticStore.Run.wf {s : DiagnosticStore} (h : s.Run) : s.Wf := by
  induction h with
  | new => exact ⟨fun _ => rfl, nofun⟩
  | publish store ctx uri published _ ih =>
    exact absorbPublishDiagnostics_wf ih store ctx uri published
  | translateEdit uri edit _ ih => exact ih.translateEdit uri edit
  | clear uri _ ih => exact (ih.erase uri).of_eq rfl rfl
  | forget uri _ ih => exact (ih.erase uri).of_eq rfl rfl
  | markStale uri _ ih =>
    unfold DiagnosticStore.markStale
    split
    · exact ih
    · exact ih.of_eq rfl rfl
  | noteLogged uri _ ih => exact ih.of_eq rfl rfl

/-- A diagnostic placed in the midst of a history and carried over the rest of it comes
    to where the whole history takes it. -/
theorem Diagnostic.placed_carried {log : EditLog} {later : List DocumentEdit}
    {text : List Char} {base : ℕ}
    (hlog : store.logs.lookup uri = some log) (hholds : log.Holds hist)
    (hraw : fromLspValue raw = some d)
    (hanchor : ctx.anchor (store.syncedSeq uri) d = some (text, base))
    (hlogged : log.droppedBelow ≤ base) (hbase : base ≤ hist.length) :
    (d.placed store uri ctx).bind (·.carried later) =
      d.landed ((hist.map (·.1) ++ later).drop base) text ctx.enc := by
  have hnone := span_fromLspValue hraw
  have hhas : store.hasLog uri = true := by simp [hasLog, hlog]
  unfold placed landed
  simp only [hanchor, hhas]
  cases hrange : d.rangeIn text ctx.enc with
  | none => simp [carried, inBytes, hnone]
  | some range =>
    obtain ⟨lo, hi⟩ := range
    have hedits : (log.since base).map (·.1) = (hist.map (·.1)).drop base := by
      rw [EditLog.since_eq hholds hlogged, List.map_map, List.map_drop]; rfl
    have hcarry := carryEnds_eq ((hist.map (·.1)).drop base) lo hi; dsimp only
    rw [drop_append_of_le_length (by simpa using hbase), carriedSpan_append, ← hcarry]
    simp only [carryRangeSince, hlog, if_neg (not_lt.2 hlogged), hedits]
    cases carryEnds ((hist.map (·.1)).drop base) lo hi with
    | none | some => rfl

/-- **Diagnostics across edits.** A publish at any point of a document's history, carried
    over the rest of it, holds what the whole history makes of each diagnostic; characters
    that no edit touches keep their bytes; the counts are those of what is held and no
    span ends before it starts. -/
theorem run_diagnostics :
    (∀ {init s h a} {uri : String} {log : EditLog} {hist later : List HistoryEdit}
        (ctx : PublishContext) (published : List LspDiagnostic)
        (anchor : Diagnostic → List Char × ℕ) {D : DiagnosticStore},
      SemanticTokenStore.Run init s h a → s.logs.lookup uri = some log →
      hist = h uri ++ later → D.Run →
      (∀ raw ∈ published, ∀ d, Diagnostic.fromLspValue raw = some d →
        ctx.anchor (s.syncedSeq uri) d = some (anchor d) ∧ log.droppedBelow ≤ (anchor d).2 ∧
          (anchor d).2 ≤ (h uri).length) →
      (((later.map (·.1)).foldl (fun D e => D.translateEdit uri e)
        (absorbPublishDiagnostics s ctx D uri published)).forUri uri).Perm
        (published.filterMap fun raw => (Diagnostic.fromLspValue raw).bind fun d =>
          d.landed ((hist.map (·.1)).drop (anchor d).2) (anchor d).1 ctx.enc)) ∧
    (∀ {text : List UInt8} {hist : List HistoryEdit} {lo hi : ℕ},
      ExactFrom text hist → lo ≤ hi → hi ≤ text.length →
      CharsUntouched (hi - lo) lo (hist.map (·.1)) →
      ∃ lo' hi', carriedSpan (hist.map (·.1)) (lo, hi) = some (lo', hi') ∧
        lo' + (hi - lo) ≤ hi' ∧
        slice (textAfter text hist) lo' (lo' + (hi - lo)) = slice text lo hi ∧
        (NoneAtEnd (hi - lo) lo (hist.map (·.1)) → hi' = lo' + (hi - lo))) ∧
    ∀ {D : DiagnosticStore}, D.Run → ∀ uri,
      D.severityCountsFor uri = countSeverities (D.forUri uri) ∧
      ∀ d ∈ D.forUri uri, ∀ lo hi, d.span = some (lo, hi) → lo ≤ hi := by
  refine ⟨?_, ?_, ?_⟩
  · rintro init s h a uri log hist later ctx published anchor D hrun hlog rfl hD hlogged
    have hholds := hrun.inv.log uri log hlog
    have hordered := (absorbPublishDiagnostics_wf hD.wf s ctx uri published).ordered uri
    rw [DiagnosticStore.forUri_foldl_translateEdit _ hordered]
    refine ((DiagnosticStore.forUri_set_perm D uri _).filterMap _).trans (.of_eq ?_)
    rw [filterMap_filterMap]
    refine filterMap_congr fun raw hmem => ?_
    cases hraw : Diagnostic.fromLspValue raw with
    | none => rfl
    | some d =>
      obtain ⟨hanchor, hdropped, hbase⟩ := hlogged raw hmem d hraw; rw [map_append]
      exact Diagnostic.placed_carried hlog hholds hraw hanchor hdropped hbase
  · intro text hist lo hi hexact hle hlen hu
    obtain ⟨lo', hi', hcarried, hbound, hslice, hend⟩ := carriedSpan_untouched hexact
      (show lo + (hi - lo) ≤ hi by omega) (by omega) (by omega) hu
    rw [show lo + (hi - lo) = hi by omega] at hslice hend
    exact ⟨lo', hi', hcarried, hbound, hslice, hend rfl⟩
  · intro D hD uri; exact ⟨hD.wf.counts uri, hD.wf.ordered uri⟩

/-- An error on `cd` of `ab cd`, published after `x` was typed at its start and before it
    was deleted again. -/
theorem run_diagnostics_shifted :
    (((absorbPublishDiagnostics (SemanticTokenStore.new.recordEdit "f" ⟨0, 0, 1⟩ ['x'])
        ⟨.utf8, [], some "ab cd".toList, none⟩ .new "f"
        [⟨some ((0, 3), (0, 5)), some "cd", some 1, none, none⟩]).translateEdit "f"
        ⟨0, 1, 0⟩).forUri "f").Perm [⟨0, 3, 0, 5, .error, "cd", none, none, some (3, 5)⟩] ∧
    carriedSpan [⟨0, 0, 1⟩, ⟨0, 1, 0⟩] (3, 5) = some (3, 5) := by
  have hrun := @SemanticTokenStore.Run.recordEdit (fun _ => Utf8.encode "ab cd".toList) _ _ _ "f"
    ⟨0, 0, 1⟩ [120] .new ⟨by decide, by decide, rfl⟩
  have hpublish := @run_diagnostics.1 _ _ _ _ "f" _ _ [(⟨0, 1, 0⟩, [])]
    ⟨.utf8, [], some "ab cd".toList, none⟩ [⟨some ((0, 3), (0, 5)), some "cd", some 1, none, none⟩]
    (fun _ => ("ab cd".toList, 0)) _ hrun rfl rfl .new (by
      intro raw hraw d hd; cases mem_singleton.1 hraw; cases hd
      exact ⟨rfl, le_rfl, Nat.zero_le _⟩)
  have huntouched := @run_diagnostics.2.1 (Utf8.encode "ab cd".toList)
    [(⟨0, 0, 1⟩, [120]), (⟨0, 1, 0⟩, [])] 3 5
    ⟨⟨by decide, by decide, rfl⟩, ⟨by decide, by decide, rfl⟩, trivial⟩ (by decide) (by decide)
    ⟨.inl (by decide), .inl (by decide), trivial⟩
  refine ⟨hpublish.trans (.of_eq (by decide)), ?_⟩
  obtain ⟨lo', hi', hcarried, -⟩ := huntouched
  exact hcarried.trans (hcarried.symm.trans (by decide))

end Pmacs
