/-
  Runs of the semantic-token store.

  * `EditLog.Holds log hist`: the log holds the edits of the history from some
    number on, below which it says they are forgotten; pushing and pruning keep
    this, and `EditLog.since_eq` reads a suffix of the history off it;
  * `SemanticTokenStore.Run`: the runs of the store over exact histories, with
    the answer each entry was last given;
  * `SemanticTokenStore.run_spans`: what the spans of an entry are.
-/
import Pmacs.Lsp.SemanticTokensSpec

namespace Pmacs

open Lib Utf8 AList Function List Option

/-! ## What a log holds -/

def logged (x : HistoryEdit) : DocumentEdit × List Char := (x.1, lossy x.2)

namespace EditLog

variable {hist : List HistoryEdit} {uri : String}

/-- The log holds the edits of `hist` from some number on, and reports every
    number below it as forgotten. -/
structure Holds (log : EditLog) (hist : List HistoryEdit) : Prop where
  nextSeq : log.nextSeq = hist.length
  edits : ∃ lo, lo ≤ log.droppedBelow ∧ lo ≤ hist.length ∧
    log.edits = numbered lo ((hist.drop lo).map logged)

theorem holds_default : EditLog.default.Holds [] :=
  ⟨rfl, 0, le_rfl, le_rfl, rfl⟩

variable {log : EditLog}

theorem Holds.push (h : log.Holds hist)
    (x : HistoryEdit) : (log.push x.1 (lossy x.2)).Holds (hist ++ [x]) := by
  obtain ⟨hnext, lo, hlo, hle, hedits⟩ := h
  have hnew : log.edits ++ [(log.nextSeq, x.1, lossy x.2)] =
      numbered lo (((hist ++ [x]).drop lo).map logged) := by
    rw [drop_append_of_le_length hle, map_append, numbered_append, ← hedits]
    simp only [length_map, length_drop, map_cons, map_nil, numbered]
    rw [show lo + (hist.length - lo) = log.nextSeq by omega]; rfl
  simp only [EditLog.push, hnew]
  split
  · -- past the cap the oldest edit is forgotten
    cases hd : (hist ++ [x]).drop lo with
    | nil =>
      have := congrArg List.length hd
      simp only [length_drop, length_append, length_cons, length_nil] at this; omega
    | cons y ys =>
      have hys : ys = (hist ++ [x]).drop (lo + 1) := by
        rw [← drop_drop, hd, drop_succ_cons, drop_zero]
      have hlt : lo + 1 ≤ (hist ++ [x]).length := by
        simp only [length_append, length_cons, length_nil]; omega
      simp only [map_cons, numbered]
      exact ⟨by simp [hnext], lo + 1, le_rfl, hlt, by rw [hys]⟩
  · exact ⟨by simp [hnext], lo, hlo, by simp; omega, rfl⟩

theorem Holds.prune (h : log.Holds hist) (base : ℕ) : (log.prune base).Holds hist := by
  obtain ⟨hnext, lo, hlo, hle, hedits⟩ := h
  refine ⟨hnext, ?_⟩
  simp only [EditLog.prune, hedits, filter_numbered]
  generalize min (min base log.completionFloor) log.diskFloor = keepFrom
  rw [← map_drop, drop_drop]
  rcases lt_or_ge hist.length keepFrom with hk | hk
  · -- a base past the history leaves nothing, from its end on
    refine ⟨hist.length, by omega, le_rfl, ?_⟩
    rw [drop_eq_nil_of_le (by omega), drop_length]; rfl
  refine ⟨max lo keepFrom, by omega, by omega, ?_⟩
  rw [show lo + (keepFrom - lo) = max lo keepFrom by omega]

variable (h : log.Holds hist)
include h

theorem Holds.of_edits_eq {log' : EditLog}
    (hn : log'.nextSeq = log.nextSeq) (hd : log'.droppedBelow = log.droppedBelow)
    (he : log'.edits = log.edits) : log'.Holds hist := by
  obtain ⟨hnext, lo, hlo, hle, hedits⟩ := h
  exact ⟨hn.trans hnext, lo, hd ▸ hlo, hle, he.trans hedits⟩

theorem Holds.cleared : EditLog.Holds { log with edits := [], droppedBelow := log.nextSeq } hist :=
  ⟨h.nextSeq, hist.length, le_of_eq h.nextSeq.symm, le_rfl, by
    rw [drop_length]; rfl⟩

/-- From a number the log has not forgotten on, it holds the whole history. -/
theorem since_eq {base : ℕ}
    (hb : log.droppedBelow ≤ base) : log.since base = (hist.drop base).map logged := by
  obtain ⟨_, lo, hlo, _, hedits⟩ := h
  rw [EditLog.since, hedits, filter_numbered, map_snd_numbered, ← map_drop, drop_drop,
    show lo + (base - lo) = base by omega]

end EditLog

/-! ## Runs -/

namespace SemanticTokenStore

/-- An answer a server gave: its tokens, the text it saw, the edit number that
    text was current at, and how many edits there were when it was absorbed. -/
structure Answer where
  tokens : List SemanticToken
  text : List Char
  enc : PositionEncoding
  base : ℕ
  absorbedAt : ℕ

def Answer.resolved (a : Answer) : List PositionedToken := resolveTokens a.tokens a.text a.enc

/-- A run of the store: the histories of the documents it is told of, exact from
    the texts `init`, and the last whole answer each entry holds. -/
inductive Run (init : String → List UInt8) : SemanticTokenStore →
    (String → List HistoryEdit) → (SemanticTokenKey → Option Answer) → Prop
  | new : Run init new (fun _ => []) (fun _ => none)
  | recordEdit {s h a uri e ins} : Run init s h a → e.Exact (textAfter (init uri) (h uri)) ins →
      Run init (s.recordEdit uri e (lossy ins))
        (if e.IsNoop then h else Function.update h uri (h uri ++ [(e, ins)])) a
  | set {s h a key r text enc base s'} : Run init s h a →
      s.set key r text enc base = (true, s') →
      Run init s' h (Function.update a key (some ⟨r.tokens, text, enc, base, (h key.uri).length⟩))
  | setRefused {s h a key r text enc base s'} : Run init s h a →
      s.set key r text enc base = (false, s') → Run init s' h a
  | setRange {s h a key r text enc base range s'} : Run init s h a →
      s.setRange key r text enc base range = (true, s') →
      Run init s' h (Function.update a key none)
  | setRangeRefused {s h a key r text enc base range s'} : Run init s h a →
      s.setRange key r text enc base range = (false, s') → Run init s' h a
  | clear {s h a key} : Run init s h a → Run init (s.clear key) h (Function.update a key none)
  | openLog {s h a uri} : Run init s h a → Run init (s.openLog uri) h a
  | noteCompletionBase {s h a uri base} : Run init s h a →
      Run init (s.noteCompletionBase uri base) h a
  | noteDiskFloor {s h a uri seq} : Run init s h a → Run init (s.noteDiskFloor uri seq) h a
  | noteSynced {s h a uri} : Run init s h a → Run init (s.noteSynced uri) h a
  | markStale {s h a uri} : Run init s h a → Run init (s.markStale uri) h a

/-- What an entry holds of the answer it was last given: nothing, or its tokens
    carried across the edits from the answer's number on. -/
def EntryHolds (e : Entry) (a : Answer) (hist : List HistoryEdit) : Prop :=
  e.unalignable = false → a.base ≤ a.absorbedAt →
    e.spans = a.resolved.filterMap (·.carried ((hist.drop a.base).map (·.1)))

/-- The invariant of a run. -/
structure Inv (init : String → List UInt8) (s : SemanticTokenStore)
    (h : String → List HistoryEdit) (a : SemanticTokenKey → Option Answer) : Prop where
  exact : ∀ uri, ExactFrom (init uri) (h uri)
  log : ∀ uri log, s.logs.lookup uri = some log → log.Holds (h uri)
  noLog : ∀ uri, s.logs.lookup uri = none → h uri = []
  entry : ∀ key ans, a key = some ans → ans.absorbedAt ≤ (h key.uri).length ∧
    ∃ e, s.byKey.lookup key = some e ∧ EntryHolds e ans (h key.uri)
  unalignable : ∀ key e, s.byKey.lookup key = some e → e.unalignable = true → e.spans = []

theorem inv_new (init : String → List UInt8) : Inv init new (fun _ => []) (fun _ => none) where
  exact _ := trivial
  log _ _ h := by simp [new] at h
  noLog _ _ := rfl
  entry _ _ h := by cases h
  unalignable _ _ h := by simp [new] at h

/-- The logs when one is put in, for a document that had one or for one that had none. -/
theorem Inv.insertLog {init s h a} (hi : Inv init s h a) {uri : String} {log : EditLog}
    (hlog : log.Holds (h uri)) :
    (∀ uri' log', (s.logs.insert uri log).lookup uri' = some log' → log'.Holds (h uri')) ∧
      ∀ uri', (s.logs.insert uri log).lookup uri' = none → h uri' = [] := by
  refine ⟨fun uri' log' hlog' => ?_, fun uri' hlog' => ?_⟩ <;> by_cases hu : uri' = uri
  · subst hu; rw [lookup_insert] at hlog'; obtain rfl := some.inj hlog'; exact hlog
  · rw [lookup_insert_ne hu] at hlog'; exact hi.log uri' log' hlog'
  · subst hu; simp [lookup_insert] at hlog'
  · rw [lookup_insert_ne hu] at hlog'; exact hi.noLog uri' hlog'

variable {f : EditLog → EditLog}

theorem Inv.modifyLog {init s h a} (hi : Inv init s h a) (uri : String)
    (hf : ∀ log, (f log).nextSeq = log.nextSeq ∧ (f log).droppedBelow = log.droppedBelow ∧
      (f log).edits = log.edits) : Inv init (s.modifyLog uri f) h a := by
  unfold SemanticTokenStore.modifyLog
  cases hl : s.logs.lookup uri with
  | none => exact hi
  | some log =>
    obtain ⟨hn, hd, he⟩ := hf log
    obtain ⟨hlog, hnone⟩ := hi.insertLog ((hi.log uri log hl).of_edits_eq hn hd he)
    exact ⟨hi.exact, hlog, hnone, hi.entry, hi.unalignable⟩

variable {e : Entry}

theorem entryHolds_translated {a : Answer} (x : HistoryEdit)
    (hle : a.absorbedAt ≤ hist.length) (h : EntryHolds e a hist) :
    EntryHolds (if e.unalignable = false then
      { e with spans := translateSpans e.spans x.1, pending := e.pending + 1 } else e) a
      (hist ++ [x]) := by
  intro hal hb
  cases hu : e.unalignable with
  | true => simp [hu] at hal
  | false =>
    have hdrop : (hist ++ [x]).drop a.base = hist.drop a.base ++ [x] :=
      drop_append_of_le_length (by omega)
    have hfold : ((hist.drop a.base).map (·.1)).foldl translateSpans a.resolved = e.spans := by
      rw [foldl_translateSpans, h hu hb]
    rw [hdrop, map_append, ← foldl_translateSpans, foldl_append, hfold]; rfl

/-- Recording an edit keeps the invariant, the history being longer by it. -/
theorem Inv.recordEdit {init s h a} (hi : Inv init s h a) {e : DocumentEdit}
    {ins : List UInt8} (he : e.Exact (textAfter (init uri) (h uri)) ins) :
    Inv init (s.recordEdit uri e (lossy ins))
      (if e.IsNoop then h else Function.update h uri (h uri ++ [(e, ins)])) a := by
  unfold SemanticTokenStore.recordEdit
  by_cases hn : e.IsNoop
  · rw [if_pos (show e.oldEnd = e.start ∧ e.insertedLen = 0 from hn), if_pos hn]; exact hi
  rw [if_neg (show ¬(e.oldEnd = e.start ∧ e.insertedLen = 0) from hn), if_neg hn]
  have hlog : ((s.logs.lookup uri).getD .default).Holds (h uri) := by
    cases hl : s.logs.lookup uri with
    | none => rw [hi.noLog uri hl]; exact EditLog.holds_default
    | some log => exact hi.log uri log hl
  refine ⟨?_, ?_, ?_, ?_, ?_⟩
  · intro uri'
    by_cases hu : uri' = uri
    · subst hu; rw [update_self, exactFrom_append]; exact ⟨hi.exact uri', he, trivial⟩
    · rw [update_of_ne hu]; exact hi.exact uri'
  · intro uri' log' hlog'
    by_cases hu : uri' = uri
    · subst hu; rw [lookup_insert] at hlog'; obtain rfl := some.inj hlog'
      rw [update_self]; exact hlog.push (e, ins)
    · rw [lookup_insert_ne hu] at hlog'; rw [update_of_ne hu]; exact hi.log uri' log' hlog'
  · intro uri' hlog'
    by_cases hu : uri' = uri
    · subst hu; simp [lookup_insert] at hlog'
    · rw [lookup_insert_ne hu] at hlog'; rw [update_of_ne hu]; exact hi.noLog uri' hlog'
  · intro key ans hans; obtain ⟨hle, en, hen, hholds⟩ := hi.entry key ans hans
    by_cases hu : key.uri = uri
    · subst hu
      refine ⟨by simp; omega, _, by rw [Assoc.lookup_mapVal, hen]; rfl, ?_⟩
      simpa using entryHolds_translated (e, ins) hle hholds
    · rw [update_of_ne hu]; exact ⟨hle, en, by rw [Assoc.lookup_mapVal, hen]; simp [hu], hholds⟩
  intro key en hen hal; rw [Assoc.lookup_mapVal, map_eq_some_iff] at hen
  obtain ⟨en₀, hen₀, rfl⟩ := hen
  split at hal
  · rename_i hc; simp [hc.2] at hal
  · rename_i hc; rw [if_neg hc]; exact hi.unalignable key en₀ hen₀ hal

variable {s s' : SemanticTokenStore}

theorem set_accepted {key r text enc base} (hs : s.set key r text enc base = (true, s')) :
    (∃ e, s'.byKey = s.byKey.insert key e ∧ (e.unalignable = true → e.spans = []) ∧
      (e.unalignable = false → match s.logs.lookup key.uri with
        | none => e.spans = resolveTokens r.tokens text enc
        | some log => log.droppedBelow ≤ base ∧
          e.spans = carry log base (resolveTokens r.tokens text enc))) ∧
      (s'.logs = s.logs ∨
        ∃ log, s.logs.lookup key.uri = some log ∧ s'.logs = s.logs.insert key.uri (log.prune base)) := by
  unfold SemanticTokenStore.set at hs
  split at hs
  · cases hs
  cases hl : s.logs.lookup key.uri with
  | none =>
    rw [hl] at hs; obtain rfl := (Prod.mk.inj hs).2
    exact ⟨⟨_, rfl, by simp, fun _ => rfl⟩, Or.inl rfl⟩
  | some log =>
    rw [hl] at hs; dsimp only at hs
    split at hs
    · obtain rfl := (Prod.mk.inj hs).2; exact ⟨⟨_, rfl, fun _ => rfl, by simp⟩, Or.inl rfl⟩
    · rename_i hd; obtain rfl := (Prod.mk.inj hs).2
      exact ⟨⟨_, rfl, by simp, fun _ => ⟨Nat.le_of_not_lt hd, rfl⟩⟩, Or.inr ⟨log, rfl, rfl⟩⟩

theorem Inv.replaceLog {init s h a} (hi : Inv init s h a) {uri : String}
    (hf : ∀ log, log.Holds (h uri) → (f log).Holds (h uri))
    (hlogs : s'.logs = s.logs ∨
      ∃ log, s.logs.lookup uri = some log ∧ s'.logs = s.logs.insert uri (f log)) :
    (∀ uri log, s'.logs.lookup uri = some log → log.Holds (h uri)) ∧
      ∀ uri, s'.logs.lookup uri = none → h uri = [] := by
  rcases hlogs with hlogs | ⟨log, hl, hlogs⟩ <;> rw [hlogs]
  · exact ⟨hi.log, hi.noLog⟩
  · exact hi.insertLog (hf log (hi.log uri log hl))

/-- Putting an entry in under right logs keeps the invariant, given what it holds. -/
theorem Inv.insertEntry {init s h a} (hi : Inv init s h a) {key e answer}
    (hlogs : (∀ uri log, s'.logs.lookup uri = some log → log.Holds (h uri)) ∧
      ∀ uri, s'.logs.lookup uri = none → h uri = [])
    (hbk : s'.byKey = s.byKey.insert key e) (hun : e.unalignable = true → e.spans = [])
    (hholds : ∀ ans, answer = some ans →
      ans.absorbedAt ≤ (h key.uri).length ∧ EntryHolds e ans (h key.uri)) :
    Inv init s' h (Function.update a key answer) := by
  refine ⟨hi.exact, hlogs.1, hlogs.2, fun key' ans hans => ?_, fun key' en hen => ?_⟩ <;>
    by_cases hk : key' = key
  · subst hk; rw [update_self] at hans; obtain ⟨hle, hholds⟩ := hholds ans hans
    exact ⟨hle, e, by rw [hbk, lookup_insert], hholds⟩
  · rw [update_of_ne hk] at hans; rw [hbk, lookup_insert_ne hk]; exact hi.entry key' ans hans
  · subst hk; rw [hbk, lookup_insert] at hen; obtain rfl := some.inj hen; exact hun
  · rw [hbk, lookup_insert_ne hk] at hen; exact hi.unalignable key' en hen

/-- Absorbing an answer keeps the invariant, the answer being the entry's. -/
theorem Inv.set {init s h a} (hi : Inv init s h a) {key r text enc base}
    (hs : s.set key r text enc base = (true, s')) : Inv init s' h (Function.update a key
      (some ⟨r.tokens, text, enc, base, (h key.uri).length⟩)) := by
  obtain ⟨⟨e, hbk, hun, hal⟩, hlogs⟩ := set_accepted hs
  refine hi.insertEntry (hi.replaceLog (fun _ hlog => hlog.prune base) hlogs) hbk hun ?_
  intro ans hans; obtain rfl := some.inj hans
  refine ⟨le_rfl, fun hu _ => ?_⟩; have hal := hal hu
  cases hl : s.logs.lookup key.uri with
  | none => rw [hl] at hal; rw [hi.noLog _ hl, hal]; simp [PositionedToken.carried, Answer.resolved]
  | some log =>
    rw [hl] at hal
    rw [hal.2, carry, EditLog.since_eq (hi.log _ log hl) hal.1, List.map_map, foldl_translateSpans]
    rfl

/-- An accepted range answer touches no log, and no entry but its own. -/
theorem setRange_accepted {key r text enc base range}
    (hs : s.setRange key r text enc base range = (true, s')) :
    s'.logs = s.logs ∧ ∃ e, s'.byKey = s.byKey.insert key e ∧ (e.unalignable = true → e.spans = []) := by
  unfold SemanticTokenStore.setRange at hs
  split at hs
  · cases hs
  obtain rfl := (Prod.mk.inj hs).2
  refine ⟨rfl, _, rfl, ?_⟩
  split_ifs <;> simp

theorem Inv.clear {init s h a} (hi : Inv init s h a) (key : SemanticTokenKey) :
    Inv init (s.clear key) h (Function.update a key none) := by
  have hbk : (s.clear key).byKey = s.byKey.erase key := by
    simp only [SemanticTokenStore.clear]
    split_ifs <;> rfl
  have hlogs : (s.clear key).logs = s.logs ∨ ∃ log, s.logs.lookup key.uri = some log ∧
      (s.clear key).logs =
        s.logs.insert key.uri { log with edits := [], droppedBelow := log.nextSeq } := by
    simp only [SemanticTokenStore.clear]
    split_ifs
    · exact Or.inl rfl
    cases hl : s.logs.lookup key.uri with
    | none => exact Or.inl rfl
    | some log => exact Or.inr ⟨log, rfl, rfl⟩
  obtain ⟨hlog, hnone⟩ := hi.replaceLog (fun _ hlog => hlog.cleared) hlogs
  refine ⟨hi.exact, hlog, hnone, fun key' ans hans => ?_, fun key' en hen => ?_⟩ <;>
    by_cases hk : key' = key
  · subst hk; rw [update_self] at hans; cases hans
  · rw [update_of_ne hk] at hans; rw [hbk, lookup_erase_ne hk]; exact hi.entry key' ans hans
  · subst hk; rw [hbk, lookup_erase] at hen; cases hen
  · rw [hbk, lookup_erase_ne hk] at hen; exact hi.unalignable key' en hen

theorem Inv.openLog {init s h a} (hi : Inv init s h a) (uri : String) :
    Inv init (s.openLog uri) h a := by
  unfold SemanticTokenStore.openLog
  cases hl : s.logs.lookup uri with
  | some log => exact hi
  | none =>
    have hdefault : EditLog.default.Holds (h uri) := by
      rw [hi.noLog uri hl]; exact EditLog.holds_default
    obtain ⟨hlog, hnone⟩ := hi.insertLog hdefault
    exact ⟨hi.exact, hlog, hnone, hi.entry, hi.unalignable⟩

theorem Inv.markStale {init s h a} (hi : Inv init s h a) (uri : String) :
    Inv init (s.markStale uri) h a := by
  unfold SemanticTokenStore.markStale
  cases hl : s.logs.lookup uri with
  | some log => exact hi
  | none => exact ⟨hi.exact, hi.log, hi.noLog, hi.entry, hi.unalignable⟩

theorem refused_eq {key r text enc base}
    (hs : s.set key r text enc base = (false, s')) : s' = s := by
  unfold SemanticTokenStore.set at hs
  repeat' split at hs
  all_goals cases hs
  rfl

theorem setRange_refused_eq {key r text enc base range}
    (hs : s.setRange key r text enc base range = (false, s')) : s' = s := by
  unfold SemanticTokenStore.setRange at hs
  split at hs
  · cases hs; rfl
  · cases hs

/-- **The invariant holds over every run.** -/
theorem Run.inv {init s h a} (hr : Run init s h a) : Inv init s h a := by
  induction hr with
  | new => exact inv_new init
  | recordEdit _ he ih => exact ih.recordEdit he
  | set _ hs ih => exact ih.set hs
  | setRefused _ hs ih => exact refused_eq hs ▸ ih
  | setRange _ hs ih =>
    obtain ⟨hlogs, e, hbk, hun⟩ := setRange_accepted hs
    exact ih.insertEntry (hlogs ▸ ⟨ih.log, ih.noLog⟩) hbk hun nofun
  | setRangeRefused _ hs ih => exact setRange_refused_eq hs ▸ ih
  | clear _ ih => exact ih.clear _
  | openLog _ ih => exact ih.openLog _
  | noteCompletionBase _ ih => exact ih.modifyLog _ fun _ => ⟨rfl, rfl, rfl⟩
  | noteDiskFloor _ ih => exact ih.modifyLog _ fun _ => ⟨rfl, rfl, rfl⟩
  | noteSynced _ ih => exact ih.modifyLog _ fun _ => ⟨rfl, rfl, rfl⟩
  | markStale _ ih => exact ih.markStale _

/-! ## What is painted -/

theorem lowerServer_mem {best : Option (String × Entry)}
    {x : Sigma fun _ : SemanticTokenKey => Entry} {b : String × Entry}
    (h : lowerServer uri best x = some b) : best = some b ∨ x = ⟨⟨b.1, uri⟩, b.2⟩ := by
  unfold lowerServer at h
  split at h
  · rename_i hx; have hself : x = ⟨⟨x.1.server, uri⟩, x.2⟩ := by rw [← hx]
    split at h
    · obtain rfl := some.inj h; exact Or.inr hself
    split at h
    · exact Or.inl h
    · obtain rfl := some.inj h; exact Or.inr hself
  · exact Or.inl h

theorem foldl_lowerServer_mem :
    ∀ (l : List (Sigma fun _ : SemanticTokenKey => Entry)) (best : Option (String × Entry))
      (b : String × Entry), l.foldl (lowerServer uri) best = some b →
      best = some b ∨ (⟨⟨b.1, uri⟩, b.2⟩ : Sigma fun _ : SemanticTokenKey => Entry) ∈ l
  | [], _, _, h => Or.inl h
  | x :: l, best, b, h => by
    rcases foldl_lowerServer_mem l _ b h with h | h
    · rcases lowerServer_mem h with h | rfl
      · exact Or.inl h
      · exact Or.inr (by simp)
    · exact Or.inr (by simp [h])

theorem entryForUri_lookup {server : String}
    (h : s.entryForUri uri = some (server, e)) : s.byKey.lookup ⟨server, uri⟩ = some e := by
  rcases foldl_lowerServer_mem _ _ _ h with h | h
  · cases h
  · exact Assoc.mem_entries_iff.1 h

theorem serverLe_total (a b : String) : serverLe a b = true ∨ serverLe b a = true := by
  simp only [serverLe, decide_eq_true_eq]
  rcases lt_trichotomy (serverSortKey a).1 (serverSortKey b).1 with hlt | heq | hlt
  · exact .inl (.inl hlt)
  · exact (le_total (serverSortKey a).2 (serverSortKey b).2).imp (.inr ⟨heq, ·⟩)
      (.inr ⟨heq.symm, ·⟩)
  · exact .inr (.inl hlt)

theorem serverLe_trans {a b c : String} (hab : serverLe a b = true) (hbc : serverLe b c = true) :
    serverLe a c = true := by
  simp only [serverLe, decide_eq_true_eq] at hab hbc ⊢
  rcases hab with hab | ⟨hab, hab'⟩ <;> rcases hbc with hbc | ⟨hbc, hbc'⟩
  · exact .inl (hab.trans hbc)
  · exact .inl (hbc ▸ hab)
  · exact .inl (hab ▸ hbc)
  · exact .inr ⟨hab.trans hbc, hab'.trans hbc'⟩

theorem lowerServer_le {best : Option (String × Entry)}
    (x : Sigma fun _ : SemanticTokenKey => Entry) {b : String × Entry}
    (h : lowerServer uri best x = some b) : (∀ c, best = some c → serverLe b.1 c.1 = true) ∧
      (x.1.uri = uri → serverLe b.1 x.1.server = true) := by
  have hrefl (a : String) : serverLe a a = true := (serverLe_total a a).elim id id
  unfold lowerServer at h
  split at h
  · split at h
    · obtain rfl := some.inj h; exact ⟨nofun, fun _ => hrefl _⟩
    rename_i c
    split at h
    · rename_i hle; obtain rfl := some.inj h
      exact ⟨fun d hd => some.inj hd ▸ hrefl _, fun _ => hle⟩
    · rename_i hle; obtain rfl := some.inj h
      exact ⟨fun d hd => some.inj hd ▸ (serverLe_total _ _).resolve_left hle, fun _ => hrefl _⟩
  · rename_i hne
    exact ⟨fun c hc => by rw [hc] at h; exact some.inj h ▸ hrefl _, fun hx => absurd hx hne⟩

theorem foldl_lowerServer_le (l : List (Sigma fun _ : SemanticTokenKey => Entry)) :
    ∀ {best : Option (String × Entry)} {b : String × Entry},
      l.foldl (lowerServer uri) best = some b → (∀ c, best = some c → serverLe b.1 c.1 = true) ∧
        ∀ x ∈ l, x.1.uri = uri → serverLe b.1 x.1.server = true := by
  induction l with
  | nil =>
    intro best b h; refine ⟨fun c hc => ?_, nofun⟩
    rw [foldl_nil, hc] at h; exact some.inj h ▸ (serverLe_total _ _).elim id id
  | cons x l ih =>
    intro best b h
    obtain ⟨hbest, hmem⟩ := ih h
    cases hx : lowerServer uri best x with
    | none =>
      have hnone : best = none ∧ x.1.uri ≠ uri := by
        unfold lowerServer at hx
        split at hx
        · split at hx
          · cases hx
          · split at hx <;> cases hx
        · rename_i hne; exact ⟨hx, hne⟩
      refine ⟨by rw [hnone.1]; nofun, fun y hy huri => ?_⟩
      rcases mem_cons.1 hy with rfl | hy
      · exact absurd huri hnone.2
      · exact hmem y hy huri
    | some d =>
      have hle := hbest d hx
      obtain ⟨hprev, hself⟩ := lowerServer_le x hx
      refine ⟨fun c hc => serverLe_trans hle (hprev c hc), fun y hy huri => ?_⟩
      rcases mem_cons.1 hy with rfl | hy
      · exact serverLe_trans hle (hself huri)
      · exact hmem y hy huri

/-- What is painted while the entry of a server is unalignable is another server's, which is not
    higher. -/
theorem positionedTokens_unalignable {key : SemanticTokenKey} {server : String}
    (he : s.byKey.lookup key = some e) (hu : e.unalignable = true) {spans : List PositionedToken}
    (h : s.positionedTokens key.uri = some (server, spans)) :
    server ≠ key.server ∧ serverLe server key.server = true ∧
      ∃ e', s.byKey.lookup ⟨server, key.uri⟩ = some e' ∧ e'.unalignable = false ∧
        e'.spans = spans := by
  unfold positionedTokens at h
  split at h
  · cases h
  split at h
  · cases h
  rename_i server' en hen; have hl := entryForUri_lookup hen
  split at h
  · cases h
  rename_i hen'; obtain ⟨rfl, rfl⟩ := Prod.mk.inj (some.inj h)
  refine ⟨?_, ?_, en, hl, by simpa using hen', rfl⟩
  · rintro rfl; rw [he] at hl; obtain rfl := some.inj hl; exact hen' hu
  · exact (foldl_lowerServer_le _ hen).2 ⟨key, e⟩ (Assoc.mem_entries_iff.2 he) rfl

/-- An answer of a server: its tokens are of the text at edit number `base`, sorted and disjoint. -/
structure Answer.Given (a : Answer) (text : List UInt8) (hist : List HistoryEdit) : Prop where
  base : a.base ≤ a.absorbedAt
  text : encode a.text = textAfter text (hist.take a.base)
  sorted : a.resolved.Pairwise fun t t' => t.stop ≤ t'.start

/-- **Spans of an absorbed answer.** In every run over exact histories an answer is refused, and
    nothing changed, only by an entry that holds an answer for later text. An entry that was given
    an answer for the text at edit number `base` is unalignable and holds no span, where only
    another server that is not a higher one has any painted, or its spans are the answer's tokens,
    carried across exactly the edits from `base` on: sorted, disjoint, non-empty and inside the
    current text. A token none of these edits overlaps or touches covers the bytes it covered in
    the server's text. -/
theorem run_spans {init s h a} (hr : Run init s h a) (key : SemanticTokenKey) :
    (∀ r text enc base, (s.set key r text enc base).1 = false →
      (s.set key r text enc base).2 = s ∧ ∃ e, s.byKey.lookup key = some e ∧
        e.unalignable = false ∧ base < e.baseSeq) ∧
    ∀ ans, a key = some ans → ans.Given (init key.uri) (h key.uri) →
      ∃ e, s.byKey.lookup key = some e ∧ (e.unalignable = true ∧ e.spans = [] ∧
          (∀ server spans, s.positionedTokens key.uri = some (server, spans) →
            server ≠ key.server ∧ serverLe server key.server = true ∧
              ∃ e', s.byKey.lookup ⟨server, key.uri⟩ = some e' ∧ e'.unalignable = false ∧
                e'.spans = spans) ∨
        e.unalignable = false ∧
          e.spans = ans.resolved.filterMap (·.carried (((h key.uri).drop ans.base).map (·.1))) ∧
          SpansWf (textAfter (init key.uri) (h key.uri)).length e.spans ∧
          ∀ t ∈ ans.resolved, t.Untouched (((h key.uri).drop ans.base).map (·.1)) →
            ∃ t' ∈ e.spans, t'.tokenType = t.tokenType ∧ t'.tokenModifiers = t.tokenModifiers ∧
              slice (textAfter (init key.uri) (h key.uri)) t'.start t'.stop =
                slice (encode ans.text) t.start t.stop) := by
  refine ⟨fun r text enc base hrefused => ?_, fun ans hans hgiven => ?_⟩
  · refine ⟨refused_eq (Prod.ext hrefused rfl), ?_⟩
    have hrefuses : s.refuses key base = true := by
      unfold SemanticTokenStore.set at hrefused
      split at hrefused
      · assumption
      split at hrefused
      · cases hrefused
      · split at hrefused <;> cases hrefused
    unfold refuses at hrefuses
    cases he : s.byKey.lookup key with
    | none => rw [he] at hrefuses; cases hrefuses
    | some e => exact ⟨e, rfl, by simpa [he] using hrefuses⟩
  have hi := hr.inv; have htext := hgiven.text
  obtain ⟨_, e, he, hholds⟩ := hi.entry key ans hans
  refine ⟨e, he, ?_⟩
  cases hu : e.unalignable with
  | true =>
    exact Or.inl ⟨rfl, hi.unalignable key e he hu, fun _ _ => positionedTokens_unalignable he hu⟩
  | false =>
    have hspans := hholds hu hgiven.base; have hexact := hi.exact key.uri
    have hfinal : textAfter (init key.uri) (h key.uri) =
        textAfter (encode ans.text) ((h key.uri).drop ans.base) := by
      rw [htext, ← textAfter_append, take_append_drop]
    rw [← take_append_drop ans.base (h key.uri), exactFrom_append, ← htext] at hexact
    have hres : ∀ t ∈ ans.resolved, t.start < t.stop ∧ t.stop ≤ (encode ans.text).length :=
      fun t ht => resolveTokens_inside ht
    refine Or.inr ⟨rfl, hspans, ?_, ?_⟩
    · rw [hspans, hfinal]
      exact spansWf_carried hexact.2
        ⟨hgiven.sorted, fun t ht => (hres t ht).1, fun t ht => (hres t ht).2⟩
    intro t ht hut
    obtain ⟨t', ht', hsl, hty, hm⟩ := slice_carried hexact.2 (hres t ht).1 (hres t ht).2 hut
    rw [hfinal]; exact ⟨t', hspans ▸ mem_filterMap.2 ⟨t, ht, ht'⟩, hty, hm, hsl⟩

/-- `x` was typed at the start of `ab cd`. -/
theorem run_typed : Run (fun _ => encode "ab cd".toList) (new.recordEdit "f" ⟨0, 0, 1⟩ ['x'])
    (Function.update (fun _ => []) "f" [(⟨0, 0, 1⟩, [120])]) (fun _ => none) :=
  @Run.recordEdit (fun _ => encode "ab cd".toList) _ _ _ "f" ⟨0, 0, 1⟩ [120] .new
    ⟨by decide, by decide, rfl⟩

/-- The token `cd` of `ab cd`, answered for the text before `x` was typed and absorbed after. -/
theorem run_spans_shifted :
    ∃ e, (((new.recordEdit "f" ⟨0, 0, 1⟩ ['x']).set ⟨"1", "f"⟩ ⟨[⟨0, 3, 2, 0, 0⟩], none, []⟩
        "ab cd".toList .utf8 0).2.byKey.lookup ⟨"1", "f"⟩) = some e ∧
      (e.unalignable = true ∨ e.spans = [⟨4, 6, 0, 0⟩]) := by
  have hrun := @Run.set _ _ _ _ ⟨"1", "f"⟩ ⟨[⟨0, 3, 2, 0, 0⟩], none, []⟩ "ab cd".toList .utf8 0 _
    run_typed rfl
  obtain ⟨e, he, h⟩ := (run_spans hrun ⟨"1", "f"⟩).2 _ (update_self ..)
    ⟨Nat.zero_le _, rfl, by decide⟩
  refine ⟨e, he, h.imp (·.1) fun h => ?_⟩
  rw [h.2.1]
  decide

/-- An answer for the text before `x` was typed is refused by an entry that has one for the text
    after, and where the edit was forgotten it leaves the entry of its server unalignable while
    another server's tokens are painted. -/
theorem run_spans_not_always :
    (¬ ∀ init s h a, Run init s h a → ∀ key r text enc base,
      Answer.Given ⟨r.tokens, text, enc, base, (h key.uri).length⟩ (init key.uri) (h key.uri) →
      ∃ e, (s.set key r text enc base).2.byKey.lookup key = some e ∧ (e.unalignable = true ∨
        e.spans = (resolveTokens r.tokens text enc).filterMap
          (·.carried (((h key.uri).drop base).map (·.1))))) ∧
    ¬ ∀ init s h a, Run init s h a → ∀ key r text enc base,
      Answer.Given ⟨r.tokens, text, enc, base, (h key.uri).length⟩ (init key.uri) (h key.uri) →
      ∃ e, (s.set key r text enc base).2.byKey.lookup key = some e ∧ (e.unalignable = true →
        (s.set key r text enc base).2.positionedTokens key.uri = none) := by
  refine ⟨fun hall => ?_, fun hall => ?_⟩
  · have hrun := @Run.set _ _ _ _ ⟨"1", "f"⟩ ⟨[⟨0, 0, 3, 0, 0⟩], none, []⟩ "xab cd".toList .utf8 1 _
      run_typed rfl
    obtain ⟨e, he, h⟩ := hall _ _ _ _ hrun ⟨"1", "f"⟩ ⟨[⟨0, 3, 2, 0, 0⟩], none, []⟩ "ab cd".toList
      .utf8 0 ⟨Nat.zero_le _, rfl, by decide⟩
    obtain rfl := some.inj he
    revert h
    decide
  · have hrun := @Run.set _ _ _ _ ⟨"1", "f"⟩ ⟨[⟨0, 0, 3, 0, 0⟩], none, []⟩ "xab cd".toList .utf8 1 _
      (@Run.clear _ _ _ _ ⟨"1", "f"⟩ run_typed) rfl
    obtain ⟨e, he, h⟩ := hall _ _ _ _ hrun ⟨"2", "f"⟩ ⟨[⟨0, 3, 2, 0, 0⟩], none, []⟩ "ab cd".toList
      .utf8 0 ⟨Nat.zero_le _, rfl, by decide⟩
    obtain rfl := some.inj he
    revert h
    decide

end SemanticTokenStore

end Pmacs
