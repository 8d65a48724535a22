/-
  Runs of the async runtime: what came of every job.

  * `Session` is the runtime with what was seen of it: the jobs dispatched, the replies
    read, the settles reported, the results and batches taken;
  * `Tracked` and `Gone` say how a job's entry, or its absence, answers for what was seen;
  * `Kept` is what every event keeps (`kept_step`, `kept_run`).
-/
import Pmacs.Async.JobsSpec

namespace Pmacs.Async

open Lib AsyncRuntime AList List Option PendingJob

variable {Bundle : Type}

/-- What can happen to the runtime. -/
inductive Event (Bundle : Type) where
  | dispatch (spec : JobSpec)
  | cancel (id : JobId)
  /-- A worker, or the main thread for an external job, puts an envelope on the bus. -/
  | reply (env : Option WorkerReply)
  | handOff (id : JobId) (bundle : Bundle)
  | tick
  | takeResult (id : JobId)
  | takeStreamBatches
  | takeParseTree (id : JobId)
  | pushDispatchName (name : String)
  | popDispatchName
  | setDefaultMaxBatch (n : ℕ)

/-- The runtime, and what was seen of it. `received` are the replies a tick read about jobs
    dispatched before it, `arrived` those among them that found the job's entry. -/
structure Session (Bundle : Type) where
  rt : AsyncRuntime Bundle
  dispatched : List (JobId × JobSpec)
  received : List WorkerReply
  arrived : List WorkerReply
  settled : List JobId
  taken : List (JobId × JobOutcome)
  batches : List StreamBatch

namespace Session

variable {id : JobId} {s : Session Bundle}

def start : Session Bundle := ⟨withPool, [], [], [], [], [], []⟩

def step (s : Session Bundle) : Event Bundle → Session Bundle
  | .dispatch spec => { s with
      rt := (s.rt.allocate spec).2
      dispatched := s.dispatched ++ [((s.rt.allocate spec).1, spec)] }
  | .cancel id => { s with rt := s.rt.cancel id }
  | .reply env => { s with rt := s.rt.send env }
  | .handOff id bundle => { s with rt := s.rt.handOff id bundle }
  | .tick => { s with
      rt := s.rt.tick.2
      received := s.received ++ s.rt.replies.filter fun r => decide (r.jobId < s.rt.nextJobId)
      arrived := s.arrived ++ s.rt.replies.filter fun r => (s.rt.pending.lookup r.jobId).isSome
      settled := s.settled ++ s.rt.tick.1.settled }
  | .takeResult id => { s with
      rt := (s.rt.takeResult id).2
      taken := s.taken ++ ((s.rt.takeResult id).1.map fun outcome => (id, outcome)).toList }
  | .takeStreamBatches => { s with
      rt := s.rt.takeStreamBatches.2
      batches := s.batches ++ s.rt.takeStreamBatches.1 }
  | .takeParseTree id => { s with rt := (s.rt.takeParseTree id).2 }
  | .pushDispatchName name => { s with rt := s.rt.pushDispatchName name }
  | .popDispatchName => { s with rt := s.rt.popDispatchName }
  | .setDefaultMaxBatch n => { s with rt := s.rt.setDefaultMaxBatch n }

def run (s : Session Bundle) (events : List (Event Bundle)) : Session Bundle :=
  events.foldl step s

@[simp]
theorem run_append (s : Session Bundle) (es fs : List (Event Bundle)) :
    s.run (es ++ fs) = (s.run es).run fs := foldl_append ..

/-! ## What was seen of one job -/

def repliesTo (s : Session Bundle) (id : JobId) : List ReplyKind := kindsFor id s.received

def arrivals (s : Session Bundle) (id : JobId) : List StreamPayload := items (kindsFor id s.arrived)

/-- The items that a job's batches gave out. -/
def delivered (s : Session Bundle) (id : JobId) : List StreamPayload :=
  (batchesFor id s.batches).flatMap fun batch => batch.items

def under (s : Session Bundle) (key : String) : List JobId :=
  (s.dispatched.filter fun d => d.2.supersede = some key).map Prod.fst

def Taken (s : Session Bundle) (id : JobId) : Prop := ∃ outcome, (id, outcome) ∈ s.taken

/-- The last of the job's batches is closed, with the job's outcome, and no other is. -/
def ClosedLast (s : Session Bundle) (id : JobId) : Prop :=
  ∃ bs b, batchesFor id s.batches = bs ++ [b] ∧ b.closed = true ∧
    b.outcome = verdict (s.repliesTo id) ∧ ∀ c ∈ bs, c.closed = false

/-! ## The invariant -/

/-- A job's entry answers for what was seen. -/
structure Tracked (s : Session Bundle) (id : JobId) (spec : JobSpec) (job : PendingJob) : Prop where
  outcome : job.state.outcome = verdict (s.repliesTo id)
  key : job.supersedeKey = spec.supersede
  stream : job.streamBuffer.isSome = spec.stream.isSome
  buffer : job.streamBuffer.isSome → s.delivered id ++ job.streamBuffer.getD [] = s.arrivals id
  unclosed : ∀ b ∈ batchesFor id s.batches, b.closed = false
  untaken : ¬ s.Taken id

/-- A job without an entry has settled; its result was taken, or its close reported. -/
structure Gone (s : Session Bundle) (id : JobId) (spec : JobSpec) : Prop where
  settled : (verdict (s.repliesTo id)).isSome
  taken : ∀ outcome, (id, outcome) ∈ s.taken → verdict (s.repliesTo id) = some outcome
  how : s.Taken id ∧ (∀ b ∈ batchesFor id s.batches, b.closed = false) ∨
    ¬ s.Taken id ∧ spec.stream.isSome ∧ s.ClosedLast id ∧ s.delivered id = s.arrivals id
  stream : spec.stream.isSome → s.delivered id <+: s.arrivals id

/-- What every event keeps. -/
structure Kept (s : Session Bundle) : Prop where
  ids : ∀ d ∈ s.dispatched, d.1 < s.rt.nextJobId
  distinct : (s.dispatched.map Prod.fst).Nodup
  entries : ∀ id job, s.rt.pending.lookup id = some job → ∃ spec, (id, spec) ∈ s.dispatched
  receivedIds : ∀ r ∈ s.received, r.jobId < s.rt.nextJobId
  arrivedIds : ∀ r ∈ s.arrived, r.jobId < s.rt.nextJobId
  settledIds : ∀ id ∈ s.settled, id < s.rt.nextJobId
  takenIds : ∀ t ∈ s.taken, t.1 < s.rt.nextJobId
  batchIds : ∀ b ∈ s.batches, b.id < s.rt.nextJobId
  present : ∀ id spec job, (id, spec) ∈ s.dispatched → s.rt.pending.lookup id = some job →
    s.Tracked id spec job
  absent : ∀ id spec, (id, spec) ∈ s.dispatched → s.rt.pending.lookup id = none → s.Gone id spec
  settles : ∀ id spec, (id, spec) ∈ s.dispatched →
    s.settled.count id = if (verdict (s.repliesTo id)).isSome then 1 else 0
  current : ∀ key id, s.rt.supersede.lookup key = some id → (s.under key).getLast? = some id ∧
    ∃ job, s.rt.pending.lookup id = some job ∧ job.state = .running ∧ job.supersedeKey = some key
  superseded : ∀ id job key, s.rt.pending.lookup id = some job → job.state = .running →
    job.supersedeKey = some key →
    s.rt.supersede.lookup key = some id ∨ id ∈ s.rt.cancelledTokens

theorem kept_start : (start : Session Bundle).Kept where
  ids := fun _ h => nomatch h
  distinct := nodup_nil
  entries := fun _ _ h => nomatch h
  receivedIds := fun _ h => nomatch h
  arrivedIds := fun _ h => nomatch h
  settledIds := fun _ h => nomatch h
  takenIds := fun _ h => nomatch h
  batchIds := fun _ h => nomatch h
  present := fun _ _ _ h => nomatch h
  absent := fun _ _ h => nomatch h
  settles := fun _ _ h => nomatch h
  current := fun _ _ h => nomatch h
  superseded := fun _ _ _ h => nomatch h

theorem Kept.of_tables (h : s.Kept) {rt : AsyncRuntime Bundle}
    (hnext : rt.nextJobId = s.rt.nextJobId) (hpending : rt.pending = s.rt.pending)
    (hsupersede : rt.supersede = s.rt.supersede)
    (htokens : s.rt.cancelledTokens ⊆ rt.cancelledTokens) : ({ s with rt := rt }).Kept where
  ids := by simpa only [hnext] using h.ids
  distinct := h.distinct
  entries := by simpa only [hpending] using h.entries
  receivedIds := by simpa only [hnext] using h.receivedIds
  arrivedIds := by simpa only [hnext] using h.arrivedIds
  settledIds := by simpa only [hnext] using h.settledIds
  takenIds := by simpa only [hnext] using h.takenIds
  batchIds := by simpa only [hnext] using h.batchIds
  present := by
    intro id spec job hd hjob; rw [hpending] at hjob; exact { h.present id spec job hd hjob with }
  absent := by
    intro id spec hd hjob; rw [hpending] at hjob; exact { h.absent id spec hd hjob with }
  settles := h.settles
  current := by
    intro key id hkey; rw [hsupersede] at hkey; rw [hpending]
    exact h.current key id hkey
  superseded := by
    intro id job key hjob hrunning hkey; rw [hpending] at hjob; rw [hsupersede]
    exact (h.superseded id job key hjob hrunning hkey).imp_right fun hmem => htokens hmem

/-! ## A dispatch -/

theorem kept_dispatch (h : s.Kept) (spec : JobSpec) : (s.step (.dispatch spec)).Kept := by
  have hrt : (s.step (.dispatch spec)).rt = (s.rt.allocate spec).2 := rfl
  have hdispatched : (s.step (.dispatch spec)).dispatched =
      s.dispatched ++ [(s.rt.nextJobId, spec)] := rfl
  have hnext : (s.step (.dispatch spec)).rt.nextJobId = s.rt.nextJobId + 1 := by
    rw [hrt, allocate_eq]
  have hlookup : ∀ id, (s.step (.dispatch spec)).rt.pending.lookup id =
      if id = s.rt.nextJobId then some (s.rt.bornJob spec) else s.rt.pending.lookup id := by
    intro id; rw [hrt, lookup_allocate]
  have hsupersede : (s.step (.dispatch spec)).rt.supersede = (s.rt.claimed spec).supersede := by
    rw [hrt, allocate_eq]
  have htokens : (s.step (.dispatch spec)).rt.cancelledTokens =
      (s.rt.claimed spec).cancelledTokens := by rw [hrt, allocate_eq]
  have hold : ∀ d ∈ s.dispatched, d.1 ≠ s.rt.nextJobId := fun d hd => Nat.ne_of_lt (h.ids d hd)
  have hnew : s.rt.pending.lookup s.rt.nextJobId = none := by
    cases hjob : s.rt.pending.lookup s.rt.nextJobId with
    | none => rfl
    | some job => obtain ⟨spec', hd⟩ := h.entries _ job hjob; exact absurd rfl (hold _ hd)
  -- nothing was ever seen of the new job
  have hunseen : ∀ {rs : List WorkerReply}, (∀ r ∈ rs, r.jobId < s.rt.nextJobId) →
      kindsFor s.rt.nextJobId rs = [] := by
    intro rs hrs; rw [kindsFor, map_eq_nil_iff, filter_eq_nil_iff]; intro r hr
    simpa using Nat.ne_of_lt (hrs r hr)
  have hreplies : s.repliesTo s.rt.nextJobId = [] := hunseen h.receivedIds
  have harrivals : s.arrivals s.rt.nextJobId = [] := congrArg items (hunseen h.arrivedIds)
  have hbatches : batchesFor s.rt.nextJobId s.batches = [] := by
    rw [batchesFor, filter_eq_nil_iff]; intro b hb; simpa using Nat.ne_of_lt (h.batchIds b hb)
  have hunder : ∀ key, (s.step (.dispatch spec)).under key =
      s.under key ++ if spec.supersede = some key then [s.rt.nextJobId] else [] := by
    intro key; rw [under, hdispatched, filter_append, map_append, filter_singleton]
    by_cases hk : spec.supersede = some key <;> simp [hk, under]
  have hcases : ∀ id spec', (id, spec') ∈ (s.step (.dispatch spec)).dispatched →
      (id, spec') ∈ s.dispatched ∧ id ≠ s.rt.nextJobId ∨ id = s.rt.nextJobId ∧ spec' = spec := by
    intro id spec' hd; rw [hdispatched, mem_append, mem_singleton] at hd
    rcases hd with hd | hd
    · exact .inl ⟨hd, hold _ hd⟩
    · cases hd; exact .inr ⟨rfl, rfl⟩
  constructor
  case ids =>
    intro d hd
    rcases hcases d.1 d.2 hd with ⟨hd, _⟩ | ⟨hid, _⟩
    · exact Nat.lt_succ_of_lt (h.ids d hd)
    · rw [hid]; exact Nat.lt_succ_self _
  case distinct =>
    rw [hdispatched, map_append, map_singleton, nodup_append]
    refine ⟨h.distinct, nodup_singleton _, ?_⟩; intro a ha b hb hab
    obtain ⟨d, hd, rfl⟩ := mem_map.1 ha; exact hold d hd (hab.trans (mem_singleton.1 hb))
  case entries =>
    intro id job hjob; rw [hlookup] at hjob
    split at hjob
    next hid => exact ⟨spec, by rw [hid]; exact mem_append_right _ mem_cons_self⟩
    next =>
      obtain ⟨spec', hd⟩ := h.entries id job hjob; exact ⟨spec', mem_append_left _ hd⟩
  case receivedIds =>
    intro r hr; exact Nat.lt_succ_of_lt (h.receivedIds r hr)
  case arrivedIds =>
    intro r hr; exact Nat.lt_succ_of_lt (h.arrivedIds r hr)
  case settledIds =>
    intro id hid; exact Nat.lt_succ_of_lt (h.settledIds id hid)
  case takenIds =>
    intro t ht; exact Nat.lt_succ_of_lt (h.takenIds t ht)
  case batchIds =>
    intro b hb; exact Nat.lt_succ_of_lt (h.batchIds b hb)
  case present =>
    intro id spec' job hd hjob; rw [hlookup] at hjob
    rcases hcases id spec' hd with ⟨hd, hne⟩ | ⟨rfl, rfl⟩
    · rw [if_neg hne] at hjob; exact { h.present id spec' job hd hjob with }
    rw [if_pos rfl] at hjob; cases hjob
    refine ⟨?_, rfl, ?_, ?_, ?_, ?_⟩
    · exact (congrArg verdict hreplies).symm
    · exact isSome_map
    · intro _; have hnone : s.delivered s.rt.nextJobId = [] := by rw [delivered, hbatches]; rfl
      have hbuf : (s.rt.bornJob spec').streamBuffer.getD [] = [] := by
        cases hs : spec'.stream <;> simp [bornJob, hs]
      rw [hbuf, List.append_nil]; exact hnone.trans harrivals.symm
    · intro b hb; have hb : b ∈ batchesFor s.rt.nextJobId s.batches := hb; rw [hbatches] at hb
      cases hb
    · rintro ⟨o, ho⟩; exact absurd (h.takenIds _ ho) (Nat.lt_irrefl _)
  case absent =>
    intro id spec' hd hjob; rw [hlookup] at hjob
    rcases hcases id spec' hd with ⟨hd, hne⟩ | ⟨rfl, rfl⟩
    · rw [if_neg hne] at hjob; exact { h.absent id spec' hd hjob with }
    · exact absurd hjob (by simp)
  case settles =>
    intro id spec' hd
    rcases hcases id spec' hd with ⟨hd, hne⟩ | ⟨rfl, rfl⟩
    · exact h.settles id spec' hd
    have hcount : s.settled.count s.rt.nextJobId = 0 :=
      count_eq_zero.2 fun hmem => Nat.lt_irrefl _ (h.settledIds _ hmem)
    have hverdict : verdict ((s.step (.dispatch spec')).repliesTo s.rt.nextJobId) = none :=
      congrArg verdict hreplies
    rw [hverdict]; exact hcount
  case current =>
    intro key id hkey; rw [hsupersede] at hkey; rw [hlookup, hunder]
    by_cases hspec : spec.supersede = some key
    · rw [(claimed_key s.rt hspec).1, lookup_insert] at hkey; cases hkey
      rw [if_pos hspec, if_pos rfl]; exact ⟨getLast?_concat, _, rfl, rfl, hspec⟩
    have hsame : (s.rt.claimed spec).supersede.lookup key = s.rt.supersede.lookup key := by
      cases hs : spec.supersede with
      | none => rw [claimed, hs]
      | some key' =>
        rw [(claimed_key s.rt hs).1]
        exact lookup_insert_ne fun heq => hspec (hs.trans (congrArg some heq.symm))
    rw [hsame] at hkey; obtain ⟨hlast, job, hjob, hrest⟩ := h.current key id hkey
    rw [if_neg hspec, List.append_nil]
    refine ⟨hlast, job, ?_, hrest⟩; rw [if_neg, hjob]; rintro rfl
    rw [hnew] at hjob; cases hjob
  case superseded =>
    intro id job key hjob hrunning hkey; rw [hsupersede, htokens]; rw [hlookup] at hjob
    split at hjob
    next hid =>
      cases hjob; have hspec : spec.supersede = some key := hkey
      rw [(claimed_key s.rt hspec).1, lookup_insert, hid]; exact .inl rfl
    rename_i hid
    have htok := (claimed_keeps s.rt spec).2
    rcases h.superseded id job key hjob hrunning hkey with hcur | hmem
    · cases hs : spec.supersede with
      | none => rw [claimed, hs]; exact .inl hcur
      | some key' =>
        by_cases hkk : key = key'
        · subst hkk; exact .inr ((claimed_key s.rt hs).2 id job hcur hjob)
        · rw [(claimed_key s.rt hs).1, lookup_insert_ne hkk]; exact .inl hcur
    · exact .inr (htok hmem)

/-! ## A tick -/

theorem kept_tick (h : s.Kept) : (s.step .tick).Kept := by
  have hrt : (s.step .tick).rt = s.rt.tick.2 := rfl
  have hlookup : ∀ id, (s.step .tick).rt.pending.lookup id =
      (s.rt.pending.lookup id).map fun job => job.receiveAll (kindsFor id s.rt.replies) :=
    fun id => lookup_tick s.rt id
  -- what the step sees of the replies, by a test of their jobs
  have hsplit : ∀ (p : JobId → Bool) rs id,
      kindsFor id (rs ++ s.rt.replies.filter fun r => p r.jobId) =
        kindsFor id rs ++ if p id then kindsFor id s.rt.replies else [] := fun p rs id =>
    (kindsFor_append ..).trans (congrArg _ (kindsFor_filter id p s.rt.replies))
  have hreplies : ∀ d ∈ s.dispatched, (s.step .tick).repliesTo d.1 =
      s.repliesTo d.1 ++ kindsFor d.1 s.rt.replies := by
    intro d hd
    refine (hsplit (fun id => decide (id < s.rt.nextJobId)) s.received d.1).trans ?_
    rw [if_pos (decide_eq_true (h.ids d hd))]; rfl
  have harrivals : ∀ id, (s.step .tick).arrivals id = s.arrivals id ++
      if (s.rt.pending.lookup id).isSome then items (kindsFor id s.rt.replies) else [] := by
    intro id
    refine (congrArg items (hsplit (fun id => (s.rt.pending.lookup id).isSome) s.arrived id)).trans ?_
    rw [items_append]
    split <;> rfl
  have hsettledMem : ∀ id ∈ s.rt.tick.1.settled, ∃ job, s.rt.pending.lookup id = some job ∧
      job.state.outcome = none ∧ (verdict (kindsFor id s.rt.replies)).isSome := by
    intro id hid; have hpos := count_pos_iff.2 hid; rw [count_settled_tick] at hpos
    cases hjob : s.rt.pending.lookup id with
    | none => rw [hjob] at hpos; exact absurd hpos (lt_irrefl 0)
    | some job =>
      rw [hjob, elim_some] at hpos
      split at hpos
      next hs => exact ⟨job, rfl, isNone_iff_eq_none.1 hs.1, hs.2⟩
      next => exact absurd hpos (lt_irrefl 0)
  refine { h with
    entries := ?entries, receivedIds := ?receivedIds, arrivedIds := ?arrivedIds
    settledIds := ?settledIds, present := ?present, absent := ?absent, settles := ?settles
    current := ?current, superseded := ?superseded }
  case entries =>
    intro id job hjob; rw [hlookup] at hjob; obtain ⟨job', hjob', _⟩ := map_eq_some_iff.1 hjob
    exact h.entries id job' hjob'
  case receivedIds =>
    intro r hr
    rcases mem_append.1 hr with hr | hr
    · exact h.receivedIds r hr
    · exact of_decide_eq_true (mem_filter.1 hr).2
  case arrivedIds =>
    intro r hr
    rcases mem_append.1 hr with hr | hr
    · exact h.arrivedIds r hr
    obtain ⟨job, hjob⟩ := isSome_iff_exists.1 (mem_filter.1 hr).2
    obtain ⟨spec, hd⟩ := h.entries _ job hjob; exact h.ids _ hd
  case settledIds =>
    intro id hid
    rcases mem_append.1 hid with hid | hid
    · exact h.settledIds id hid
    obtain ⟨job, hjob, _⟩ := hsettledMem id hid; obtain ⟨spec, hd⟩ := h.entries _ job hjob
    exact h.ids _ hd
  case present =>
    intro id spec job hd hjob; rw [hlookup] at hjob
    obtain ⟨job', hjob', rfl⟩ := map_eq_some_iff.1 hjob; have ht := h.present id spec job' hd hjob'
    refine ⟨?_, ?_, ?_, ?_, ht.unclosed, ht.untaken⟩
    · rw [hreplies _ hd, verdict_append, outcome_receiveAll, ht.outcome]
    · rw [supersedeKey_receiveAll, ht.key]
    · rw [streamBuffer_receiveAll, isSome_map, ht.stream]
    intro hstream; rw [streamBuffer_receiveAll, isSome_map] at hstream
    have hbuf := ht.buffer hstream; obtain ⟨buf, hb⟩ := isSome_iff_exists.1 hstream
    rw [hb, getD_some] at hbuf; rw [harrivals, hjob', streamBuffer_receiveAll, hb]
    rw [← hbuf, append_assoc]; rfl
  case absent =>
    intro id spec hd hjob; rw [hlookup, map_eq_none_iff] at hjob
    have hg := h.absent id spec hd hjob
    have hv : verdict ((s.step .tick).repliesTo id) = verdict (s.repliesTo id) := by
      obtain ⟨o, ho⟩ := isSome_iff_exists.1 hg.settled
      rw [hreplies _ hd, verdict_append, ho, some_or]
    have harr : (s.step .tick).arrivals id = s.arrivals id := by
      rw [harrivals, hjob]; exact List.append_nil _
    refine ⟨?_, ?_, ?_, ?_⟩
    · rw [hv]; exact hg.settled
    · rw [hv]; exact hg.taken
    · refine hg.how.imp_right ?_
      rintro ⟨huntaken, hstream, ⟨bs, b, hbs, hclosed, hout, hrest⟩, hall⟩
      refine ⟨huntaken, hstream, ⟨bs, b, hbs, hclosed, ?_, hrest⟩, ?_⟩
      · rw [hv]; exact hout
      · rw [harr]; exact hall
    · rw [harr]; exact hg.stream
  case settles =>
    intro id spec hd
    have hcount : (s.step .tick).settled.count id =
        s.settled.count id + s.rt.tick.1.settled.count id := count_append
    rw [hcount, h.settles id spec hd, count_settled_tick, hreplies _ hd, verdict_append]
    cases hjob : s.rt.pending.lookup id with
    | none => obtain ⟨o, ho⟩ := isSome_iff_exists.1 (h.absent id spec hd hjob).settled; simp [ho]
    | some job =>
      rw [elim_some, (h.present id spec job hd hjob).outcome]
      cases hv : verdict (s.repliesTo id) <;>
        cases hv' : verdict (kindsFor id s.rt.replies) <;> simp
  case current =>
    intro key id hkey; have hkey' := (supersede_tick s.rt key id).1 hkey
    obtain ⟨hlast, job, hjob, hrunning, hjobKey⟩ := h.current key id hkey'.1
    refine ⟨hlast, job.receiveAll (kindsFor id s.rt.replies), ?_, ?_, ?_⟩
    · rw [hlookup, hjob]; rfl
    · have hnot : id ∉ s.rt.tick.1.settled := fun hmem => hkey'.2 ⟨hmem, _,
        (lookup_tick s.rt id).trans (by rw [hjob]; rfl),
        (supersedeKey_receiveAll _ _).trans hjobKey⟩
      have hzero := count_eq_zero.2 hnot
      rw [count_settled_tick, hjob, elim_some, hrunning] at hzero
      rw [← PendingState.outcome_eq_none, outcome_receiveAll, hrunning]
      cases hv : verdict (kindsFor id s.rt.replies) with
      | none => rfl
      | some o => simp [hv, PendingState.outcome] at hzero
    · rw [supersedeKey_receiveAll, hjobKey]
  case superseded =>
    intro id job key hjob hrunning hkey; have hjobAfter := hjob; rw [hlookup] at hjob
    obtain ⟨job', hjob', rfl⟩ := map_eq_some_iff.1 hjob
    rw [supersedeKey_receiveAll] at hkey
    rw [← PendingState.outcome_eq_none, outcome_receiveAll, or_eq_none_iff] at hrunning
    refine (h.superseded id job' key hjob' (PendingState.outcome_eq_none.1 hrunning.1) hkey).imp_left
      fun hcur => (supersede_tick s.rt key id).2 ⟨hcur, ?_⟩
    rintro ⟨hmem, _⟩; obtain ⟨_, _, _, hsome⟩ := hsettledMem id hmem; rw [hrunning.2] at hsome
    cases hsome

/-! ## Taking a result -/

theorem kept_takeResult (h : s.Kept) (id₀ : JobId) : (s.step (.takeResult id₀)).Kept := by
  cases hres : (s.rt.takeResult id₀).1 with
  | none =>
    have hstep : s.step (.takeResult id₀) = s := by simp [step, hres, takeResult_none s.rt hres]
    rw [hstep]; exact h
  | some outcome =>
    obtain ⟨job₀, hjob₀, hout, hpending⟩ := takeResult_some s.rt hres
    have hother : (s.rt.takeResult id₀).2.nextJobId = s.rt.nextJobId ∧
        (s.rt.takeResult id₀).2.supersede = s.rt.supersede ∧
        (s.rt.takeResult id₀).2.cancelledTokens = s.rt.cancelledTokens := by
      unfold takeResult; rw [hjob₀]; simp [hout]
    have hnext : (s.step (.takeResult id₀)).rt.nextJobId = s.rt.nextJobId := hother.1
    have hsupersede : (s.step (.takeResult id₀)).rt.supersede = s.rt.supersede := hother.2.1
    have htokens : (s.step (.takeResult id₀)).rt.cancelledTokens = s.rt.cancelledTokens :=
      hother.2.2
    have htaken : (s.step (.takeResult id₀)).taken = s.taken ++ [(id₀, outcome)] := by
      simp [step, hres]
    have hpending : (s.step (.takeResult id₀)).rt.pending = s.rt.pending.erase id₀ := hpending
    have hlookup : ∀ id, id ≠ id₀ →
        (s.step (.takeResult id₀)).rt.pending.lookup id = s.rt.pending.lookup id := by
      intro id hid; rw [hpending, lookup_erase_ne hid]
    -- what has an entry after the step had it before
    have hbefore : ∀ id job, (s.step (.takeResult id₀)).rt.pending.lookup id = some job →
        id ≠ id₀ ∧ s.rt.pending.lookup id = some job := by
      intro id job hjob
      have hid : id ≠ id₀ := by rintro rfl; rw [hpending, lookup_erase] at hjob; cases hjob
      exact ⟨hid, hlookup id hid ▸ hjob⟩
    have hTaken : ∀ id, id ≠ id₀ → ∀ o, (id, o) ∈ (s.step (.takeResult id₀)).taken ↔
        (id, o) ∈ s.taken := by
      intro id hid o; rw [htaken, mem_append, mem_singleton, Prod.mk.injEq]
      exact or_iff_left fun heq => hid heq.1
    constructor
    case ids => exact hnext ▸ h.ids
    case distinct => exact h.distinct
    case entries => exact fun id job hjob => h.entries id job (hbefore id job hjob).2
    case receivedIds => exact hnext ▸ h.receivedIds
    case arrivedIds => exact hnext ▸ h.arrivedIds
    case settledIds => exact hnext ▸ h.settledIds
    case takenIds =>
      intro t ht; rw [hnext]; rw [htaken, mem_append, mem_singleton] at ht
      rcases ht with ht | rfl
      · exact h.takenIds t ht
      · obtain ⟨spec, hd⟩ := h.entries id₀ job₀ hjob₀; exact h.ids _ hd
    case batchIds => exact hnext ▸ h.batchIds
    case present =>
      intro id spec job hd hjob; obtain ⟨hid, hjob⟩ := hbefore id job hjob
      have ht := h.present id spec job hd hjob; refine { ht with untaken := ?_ }
      rintro ⟨o, ho⟩; exact ht.untaken ⟨o, (hTaken id hid o).1 ho⟩
    case absent =>
      intro id spec hd hjob
      by_cases hid : id = id₀
      · subst hid; have ht := h.present id spec job₀ hd hjob₀
        have hverdict : verdict (s.repliesTo id) = some outcome := ht.outcome.symm.trans hout
        have hone : ∀ o, (id, o) ∈ (s.step (.takeResult id)).taken → o = outcome := by
          intro o ho; rw [htaken, mem_append, mem_singleton] at ho
          exact ho.elim (fun hmem => absurd ⟨o, hmem⟩ ht.untaken) fun heq => congrArg Prod.snd heq
        refine ⟨isSome_iff_exists.2 ⟨outcome, hverdict⟩, ?_, .inl ⟨⟨outcome, ?_⟩, ht.unclosed⟩, ?_⟩
        · intro o ho; rw [hone o ho]; exact hverdict
        · rw [htaken]; exact mem_append_right _ mem_cons_self
        · intro hstream; exact ⟨_, ht.buffer (ht.stream.trans hstream)⟩
      rw [hlookup id hid] at hjob; have hg := h.absent id spec hd hjob
      have hiff : (s.step (.takeResult id₀)).Taken id ↔ s.Taken id :=
        exists_congr fun o => hTaken id hid o
      refine ⟨hg.settled, fun o ho => hg.taken o ((hTaken id hid o).1 ho), ?_, hg.stream⟩
      rw [hiff]; exact hg.how
    case settles => exact h.settles
    case current =>
      intro key id hkey; rw [hsupersede] at hkey
      obtain ⟨hlast, job, hjob, hrunning, hjobKey⟩ := h.current key id hkey
      refine ⟨hlast, job, ?_, hrunning, hjobKey⟩; rw [hlookup id, hjob]; rintro rfl
      rw [hjob₀] at hjob; cases hjob; rw [hrunning] at hout
      exact absurd hout (by simp [PendingState.outcome])
    case superseded =>
      intro id job key hjob hrunning hkey; rw [hsupersede, htokens]
      exact h.superseded id job key (hbefore id job hjob).2 hrunning hkey

/-! ## Taking batches -/

theorem batchesFor_step {s : Session Bundle} {job : PendingJob}
    (hjob : s.rt.pending.lookup id = some job) : batchesFor id (s.step .takeStreamBatches).batches =
      batchesFor id s.batches ++ ((job.drain id).map Prod.fst).toList := by
  have happ : batchesFor id (s.step .takeStreamBatches).batches =
      batchesFor id s.batches ++ batchesFor id s.rt.takeStreamBatches.1 := batchesFor_append ..
  rw [happ, batchesFor_takeStreamBatches, hjob, bind_some]

theorem batchesFor_step_absent (s : Session Bundle) (hjob : s.rt.pending.lookup id = none) :
    batchesFor id (s.step .takeStreamBatches).batches = batchesFor id s.batches := by
  have happ : batchesFor id (s.step .takeStreamBatches).batches =
      batchesFor id s.batches ++ batchesFor id s.rt.takeStreamBatches.1 := batchesFor_append ..
  rw [happ, batchesFor_takeStreamBatches, hjob, bind_none, toList_none, List.append_nil]

/-- **What a batch does to a tracked job**: the job stays tracked, or its close was the last
    thing to report. -/
theorem Tracked.drain {spec : JobSpec} {job job' : PendingJob}
    {batch : StreamBatch} (ht : s.Tracked id spec job) (hjob : s.rt.pending.lookup id = some job)
    (hdrain : job.drain id = some (batch, job')) :
    (batch.closed = false → (s.step .takeStreamBatches).Tracked id spec job') ∧
      (batch.closed = true → (s.step .takeStreamBatches).Gone id spec) := by
  obtain ⟨-, ⟨buf, left, hbuf, hsplit, hjob', hclosed⟩, hout⟩ := drain_some hdrain
  have hbatches : batchesFor id (s.step .takeStreamBatches).batches =
      batchesFor id s.batches ++ [batch] := by rw [batchesFor_step hjob, hdrain]; rfl
  have hdelivered : (s.step .takeStreamBatches).delivered id = s.delivered id ++ batch.items := by
    rw [delivered, hbatches, flatMap_append, flatMap_singleton]; rfl
  have hwhole : s.delivered id ++ batch.items ++ left = s.arrivals id := by
    have := ht.buffer (by rw [hbuf]; rfl); rwa [hbuf, getD_some, hsplit, ← append_assoc] at this
  constructor
  · intro hopen
    refine ⟨?_, ?_, ?_, ?_, ?_, ht.untaken⟩
    · rw [hjob']; exact ht.outcome
    · rw [hjob']; exact ht.key
    · rw [← ht.stream, hjob', hbuf]; rfl
    · intro _; rw [hdelivered, hjob']; exact hwhole
    intro b hb; rw [hbatches, mem_append, mem_singleton] at hb
    rcases hb with hb | rfl
    · exact ht.unclosed b hb
    · exact hopen
  intro hclose; have hparts := hclosed.symm.trans hclose
  rw [Bool.and_eq_true, List.isEmpty_iff] at hparts
  have hall : (s.step .takeStreamBatches).delivered id = s.arrivals id := by
    rw [hdelivered, ← hwhole, hparts.2, List.append_nil]
  refine ⟨?_, ?_, .inr ⟨ht.untaken, ?_, ?_, hall⟩, fun _ => hall ▸ prefix_refl _⟩
  · exact ht.outcome ▸ hparts.1
  · exact fun o ho => absurd ⟨o, ho⟩ ht.untaken
  · rw [← ht.stream, hbuf]; rfl
  · exact ⟨_, batch, hbatches, hclose, (hout hclose).trans ht.outcome, ht.unclosed⟩

theorem kept_takeStreamBatches (h : s.Kept) : (s.step .takeStreamBatches).Kept := by
  have hrt : (s.step .takeStreamBatches).rt = s.rt.takeStreamBatches.2 := rfl
  -- what an entry after the step was before it
  have hbefore : ∀ id job, (s.step .takeStreamBatches).rt.pending.lookup id = some job →
      ∃ job₀, s.rt.pending.lookup id = some job₀ ∧ (job₀.drain id = none ∧ job = job₀ ∨
        ∃ batch, job₀.drain id = some (batch, job) ∧ batch.closed = false) := by
    intro id job hjob; rw [hrt, lookup_takeStreamBatches] at hjob; obtain ⟨job₀, hjob₀, hjob⟩ := bind_eq_some_iff.1 hjob
    refine ⟨job₀, hjob₀, ?_⟩
    cases hdrain : job₀.drain id with
    | none => simp only [hdrain, some.injEq] at hjob; exact .inl ⟨rfl, hjob.symm⟩
    | some r =>
      simp only [hdrain] at hjob
      cases hclosed : r.1.closed with
      | true => simp [hclosed] at hjob
      | false =>
        simp only [hclosed, Bool.false_eq_true, if_false, some.injEq] at hjob
        exact .inr ⟨r.1, congrArg some (Prod.ext rfl hjob), hclosed⟩
  have hstate : ∀ (id : JobId) (job job₀ : PendingJob) (batch : StreamBatch), job₀.drain id = some (batch, job) →
      job.state = job₀.state ∧ job.supersedeKey = job₀.supersedeKey := by
    intro id job job₀ batch hdrain
    obtain ⟨-, ⟨_, _, _, _, hjob', _⟩, _⟩ := drain_some hdrain; rw [hjob']
    exact ⟨rfl, rfl⟩
  refine { h with
    entries := ?entries, batchIds := ?batchIds, present := ?present, absent := ?absent
    current := ?current, superseded := ?superseded }
  case entries =>
    intro id job hjob; obtain ⟨job₀, hjob₀, _⟩ := hbefore id job hjob; exact h.entries id job₀ hjob₀
  case batchIds =>
    intro b hb
    have hmem : b ∈ batchesFor b.id (s.step .takeStreamBatches).batches :=
      mem_filter.2 ⟨hb, decide_eq_true rfl⟩
    cases hjob : s.rt.pending.lookup b.id with
    | none => rw [batchesFor_step_absent s hjob] at hmem; exact h.batchIds b (mem_filter.1 hmem).1
    | some job => obtain ⟨spec, hd⟩ := h.entries _ job hjob; exact h.ids _ hd
  case present =>
    intro id spec job hd hjob; obtain ⟨job₀, hjob₀, hcase⟩ := hbefore id job hjob
    have ht := h.present id spec job₀ hd hjob₀
    rcases hcase with ⟨hdrain, rfl⟩ | ⟨batch, hdrain, hopen⟩
    · have hbatches : batchesFor id (s.step .takeStreamBatches).batches =
          batchesFor id s.batches := by rw [batchesFor_step hjob₀, hdrain]; exact List.append_nil _
      have hdelivered : (s.step .takeStreamBatches).delivered id = s.delivered id := by
        rw [delivered, hbatches]; rfl
      refine ⟨ht.outcome, ht.key, ht.stream, ?_, ?_, ht.untaken⟩
      · rw [hdelivered]; exact ht.buffer
      · rw [hbatches]; exact ht.unclosed
    · exact (ht.drain hjob₀ hdrain).1 hopen
  case absent =>
    intro id spec hd hjob
    cases hjob₀ : s.rt.pending.lookup id with
    | none =>
      have hg := h.absent id spec hd hjob₀; have hbatches := batchesFor_step_absent s hjob₀
      have hdelivered : (s.step .takeStreamBatches).delivered id = s.delivered id := by
        rw [delivered, hbatches]; rfl
      refine ⟨hg.settled, hg.taken, ?_, ?_⟩
      · rw [hbatches, hdelivered]
        refine hg.how.imp_right ?_; rintro ⟨huntaken, hstream, hlast, hall⟩
        refine ⟨huntaken, hstream, ?_, hall⟩
        rw [ClosedLast, hbatches]; exact hlast
      · rw [hdelivered]; exact hg.stream
    | some job₀ =>
      have ht := h.present id spec job₀ hd hjob₀; rw [hrt, lookup_takeStreamBatches, hjob₀, bind_some] at hjob
      cases hdrain : job₀.drain id with
      | none => simp [hdrain] at hjob
      | some r =>
        simp only [hdrain] at hjob
        cases hclosed : r.1.closed with
        | false => simp [hclosed] at hjob
        | true => exact (ht.drain hjob₀ hdrain).2 hclosed
  case current =>
    intro key id hkey; obtain ⟨hlast, job, hjob, hrunning, hjobKey⟩ := h.current key id hkey
    refine ⟨hlast, ?_⟩; rw [hrt, lookup_takeStreamBatches, hjob, bind_some]
    cases hdrain : job.drain id with
    | none => exact ⟨job, rfl, hrunning, hjobKey⟩
    | some r =>
      obtain ⟨-, ⟨_, _, _, _, hjob', hclosed⟩, _⟩ := drain_some hdrain
      have hopen : r.1.closed = false := by rw [hclosed, hrunning]; rfl
      simp only [hopen, Bool.false_eq_true, if_false]
      refine ⟨r.2, rfl, ?_, ?_⟩
      · rw [hjob']; exact hrunning
      · rw [hjob']; exact hjobKey
  case superseded =>
    intro id job key hjob hrunning hkey; obtain ⟨job₀, hjob₀, hcase⟩ := hbefore id job hjob
    rcases hcase with ⟨_, rfl⟩ | ⟨batch, hdrain, _⟩
    · exact h.superseded id job key hjob₀ hrunning hkey
    have hsame := hstate id job job₀ batch hdrain
    exact h.superseded id job₀ key hjob₀ (hsame.1.symm.trans hrunning) (hsame.2.symm.trans hkey)

/-! ## Runs -/

/-- **What every event keeps.** -/
theorem kept_step (h : s.Kept) (event : Event Bundle) : (s.step event).Kept := by
  cases event with
  | dispatch spec => exact kept_dispatch h spec
  | cancel id =>
    exact h.of_tables (nextJobId_cancel s.rt id) (pending_cancel s.rt)
      (supersede_cancel s.rt) (cancelledTokens_cancel s.rt)
  | reply | handOff | takeParseTree | pushDispatchName | popDispatchName | setDefaultMaxBatch =>
    exact h.of_tables rfl rfl rfl (List.Subset.refl _)
  | tick => exact kept_tick h
  | takeResult id => exact kept_takeResult h id
  | takeStreamBatches => exact kept_takeStreamBatches h

theorem kept_run (h : s.Kept) {events : List (Event Bundle)} : (s.run events).Kept := by
  induction events generalizing s with
  | nil => exact h
  | cons event events ih => exact ih (kept_step h event)

theorem cancelledTokens_step (s : Session Bundle) (event : Event Bundle) :
    s.rt.cancelledTokens ⊆ (s.step event).rt.cancelledTokens := by
  cases event with
  | dispatch spec => exact (claimed_keeps s.rt spec).2
  | cancel id => exact cancelledTokens_cancel s.rt
  | takeResult id =>
    have hrt : (s.step (.takeResult id)).rt = (s.rt.takeResult id).2 := rfl; rw [hrt]
    unfold takeResult
    split
    · exact List.Subset.refl _
    · split <;> exact List.Subset.refl _
  | reply | handOff | tick | takeStreamBatches | takeParseTree | pushDispatchName
  | popDispatchName | setDefaultMaxBatch =>
    exact List.Subset.refl _

theorem cancelledTokens_run (s : Session Bundle) (events : List (Event Bundle)) :
    s.rt.cancelledTokens ⊆ (s.run events).rt.cancelledTokens := by
  induction events generalizing s with
  | nil => exact List.Subset.refl _
  | cons event events ih => exact List.Subset.trans (cancelledTokens_step s event) (ih _)

end Session

end Pmacs.Async
