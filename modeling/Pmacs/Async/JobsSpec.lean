/-
  What the operations on the async runtime's jobs do, job by job.

  * `verdict` and `items` read a list of replies: the outcome of the first one that is
    terminal, and the items it carries;
  * `lookup_tick`, `lookup_takeStreamBatches`, `lookup_allocate`: what the table holds after
    an operation.
-/
import Pmacs.Async.Jobs

namespace Pmacs.Async

open Lib AList Function List Option

@[simp]
theorem JobOutcome.outcome_state (o : JobOutcome) : o.state.outcome = some o := by
  cases o <;> rfl

@[simp]
theorem PendingState.outcome_eq_none {a : PendingState} : a.outcome = none ↔ a = .running := by
  cases a <;> simp [PendingState.outcome]

/-! ## Replies -/

variable (kinds : List ReplyKind)

def verdict : Option JobOutcome := kinds.findSome? ReplyKind.outcome

def items : List StreamPayload := kinds.filterMap ReplyKind.item

@[simp]
theorem verdict_append {ks ls : List ReplyKind} :
    verdict (ks ++ ls) = (verdict ks).or (verdict ls) := findSome?_append

@[simp]
theorem items_append {ks ls : List ReplyKind} : items (ks ++ ls) = items ks ++ items ls :=
  filterMap_append

variable (id : JobId)

def kindsFor (replies : List WorkerReply) : List ReplyKind :=
  (replies.filter fun r => r.jobId = id).map fun r => r.kind

@[simp]
theorem kindsFor_append {rs : List WorkerReply} (qs : List WorkerReply) :
    kindsFor id (rs ++ qs) = kindsFor id rs ++ kindsFor id qs := by
  simp [kindsFor]

theorem kindsFor_filter (p : JobId → Bool) (rs : List WorkerReply) :
    kindsFor id (rs.filter fun r => p r.jobId) = if p id then kindsFor id rs else [] := by
  unfold kindsFor
  rw [List.filter_filter]
  cases hp : p id with
  | true =>
    congr 1
    apply filter_congr; intro r _
    by_cases hr : r.jobId = id
    · simp [hr, hp]
    · simp [hr]
  | false =>
    rw [if_neg (by simp), map_eq_nil_iff, filter_eq_nil_iff]; intro r _ hr
    simp only [Bool.and_eq_true, decide_eq_true_eq] at hr; rw [hr.1, hp] at hr
    exact absurd hr.2 (by simp)

/-! ## One job -/

namespace PendingJob

variable (job : PendingJob) (kind : ReplyKind)

theorem outcome_receive :
    (job.receive kind).1.state.outcome = job.state.outcome.or kind.outcome := by
  unfold receive
  split
  next h => rw [h, or_none]
  rename_i o h
  rw [h]
  cases hs : job.state with
  | running => exact JobOutcome.outcome_state o
  | complete | cancelled | failed => simp [PendingState.outcome, hs]

theorem streamBuffer_receive :
    (job.receive kind).1.streamBuffer = job.streamBuffer.map (· ++ kind.item.toList) := by
  have hterminal : ∀ o, kind.outcome = some o → kind.item = none := by
    intro o ho; cases kind <;> simp_all [ReplyKind.outcome, ReplyKind.item]
  unfold receive
  split
  next => rfl
  next o h =>
    rw [hterminal o h]
    split <;> simp

theorem supersedeKey_receive : (job.receive kind).1.supersedeKey = job.supersedeKey := by
  unfold receive
  split
  · rfl
  · split <;> rfl

theorem receive_settles :
    (job.receive kind).2 = (job.state.outcome.isNone && kind.outcome.isSome) := by
  unfold receive
  split
  next h => rw [h]; simp
  next o h =>
    rw [h]; cases hs : job.state <;> simp [PendingState.outcome]

def receiveAll : PendingJob :=
  kinds.foldl (fun job kind => (job.receive kind).1) job

@[simp]
theorem receiveAll_cons (kinds : List ReplyKind) :
    job.receiveAll (kind :: kinds) = (job.receive kind).1.receiveAll kinds := rfl

theorem outcome_receiveAll :
    (job.receiveAll kinds).state.outcome = job.state.outcome.or (verdict kinds) := by
  induction kinds generalizing job with
  | nil => exact or_none.symm
  | cons kind kinds ih =>
    have hsplit : verdict (kind :: kinds) = kind.outcome.or (verdict kinds) := by
      unfold verdict; rw [findSome?_cons]; cases kind.outcome <;> rfl
    rw [receiveAll_cons, ih, outcome_receive, hsplit, Option.or_assoc]

theorem streamBuffer_receiveAll :
    (job.receiveAll kinds).streamBuffer = job.streamBuffer.map (· ++ items kinds) := by
  induction kinds generalizing job with
  | nil => cases hb : job.streamBuffer <;> simp [receiveAll, items, hb]
  | cons kind kinds ih =>
    rw [receiveAll_cons, ih, streamBuffer_receive, Option.map_map]
    congr 1
    funext buf; unfold items; cases hitem : kind.item <;> simp [hitem]

theorem supersedeKey_receiveAll : (job.receiveAll kinds).supersedeKey = job.supersedeKey := by
  induction kinds generalizing job with
  | nil => rfl
  | cons kind kinds ih => rw [receiveAll_cons, ih, supersedeKey_receive]

/-! ## One batch -/

/-- **A batch takes the front of the buffer**, and closes a stream that has settled when
    nothing is left. -/
theorem drain_some {id : JobId} {job job' : PendingJob} {batch : StreamBatch}
    (h : job.drain id = some (batch, job')) :
    batch.id = id ∧
      (∃ buf left, job.streamBuffer = some buf ∧ buf = batch.items ++ left ∧
        job' = { job with streamBuffer := some left } ∧
        batch.closed = (job.state.outcome.isSome && left.isEmpty)) ∧
      (batch.closed = true → batch.outcome = job.state.outcome) := by
  unfold drain at h
  split at h
  · cases h
  next buf hbuf =>
    simp only at h
    split at h
    · cases h
    cases h
    refine ⟨rfl, ⟨buf, _, hbuf, (take_append_drop _ buf).symm, rfl, rfl⟩, ?_⟩; intro hclosed
    exact if_pos hclosed

/-- A stream that has settled always has a batch; it takes an item if there is one. -/
theorem drain_settled {id : JobId} {job : PendingJob} {buf : List StreamPayload}
    (hbuf : job.streamBuffer = some buf) (hsettled : job.state.outcome.isSome) :
    ∃ batch left, job.drain id = some (batch, { job with streamBuffer := some left }) ∧
      left.length ≤ buf.length - 1 := by
  unfold drain
  rw [hbuf]
  simp only [hsettled, Bool.true_eq_false, and_false, if_false]
  refine ⟨_, _, rfl, ?_⟩
  have hcap : 1 ≤ max job.maxBatch 1 := le_max_right _ _
  rw [length_drop]
  omega

end PendingJob

/-! ## The operations -/

namespace AsyncRuntime

variable {Bundle : Type} (rt : AsyncRuntime Bundle)

def replies (rt : AsyncRuntime Bundle) : List WorkerReply := rt.bus.reduceOption

variable {acc : Assoc JobId PendingJob × List JobId} {env : Option WorkerReply}

theorem lookup_readEnvelope {id : JobId} : (readEnvelope acc env).1.lookup id =
      (acc.1.lookup id).map fun job => job.receiveAll (kindsFor id env.toList) := by
  unfold readEnvelope
  split
  next => cases acc.1.lookup id <;> rfl
  rename_i reply
  by_cases hid : reply.jobId = id
  · subst hid
    split
    next h => rw [h]; rfl
    next job h => simp [h, kindsFor, PendingJob.receiveAll]
  have hkinds : kindsFor id [reply] = [] := by simp [kindsFor, hid]
  rw [toList_some, hkinds]
  split
  next => cases acc.1.lookup id <;> rfl
  next job h =>
    rw [lookup_insert_ne (Ne.symm hid)]; cases acc.1.lookup id <;> rfl

theorem lookup_foldl_readEnvelope {bus : List (Option WorkerReply)} {id : JobId} :
    (bus.foldl readEnvelope acc).1.lookup id =
      (acc.1.lookup id).map fun job => job.receiveAll (kindsFor id bus.reduceOption) := by
  induction bus generalizing acc with
  | nil => rw [foldl_nil]; cases acc.1.lookup id <;> rfl
  | cons env bus ih =>
    rw [List.foldl_cons, ih, lookup_readEnvelope, Option.map_map]
    congr 1
    funext job
    have hsplit : kindsFor id (List.reduceOption (env :: bus)) =
        kindsFor id env.toList ++ kindsFor id bus.reduceOption := by
      rw [← kindsFor_append]; cases env <;> rfl
    rw [comp_apply, hsplit]; exact (foldl_append ..).symm

/-- **The tick gives every job its replies.** -/
theorem lookup_tick (id : JobId) : rt.tick.2.pending.lookup id =
    (rt.pending.lookup id).map fun job => job.receiveAll (kindsFor id rt.replies) :=
  lookup_foldl_readEnvelope

theorem count_readEnvelope {id : JobId} : (readEnvelope acc env).2.count id = acc.2.count id +
      ((acc.1.lookup id).elim 0 fun job =>
        if job.state.outcome.isNone ∧ (verdict (kindsFor id env.toList)).isSome then 1 else 0) := by
  unfold readEnvelope
  split
  next => cases acc.1.lookup id <;> simp [kindsFor, verdict]
  rename_i reply
  by_cases hid : reply.jobId = id
  · subst hid
    split
    next h => rw [h]; rfl
    rename_i job h
    have hverdict : verdict (kindsFor reply.jobId (some reply).toList) = reply.kind.outcome := by
      have hkinds : kindsFor reply.jobId (some reply).toList = [reply.kind] := by
        simp [kindsFor]
      rw [hkinds, verdict, findSome?_cons, findSome?_nil]; cases reply.kind.outcome <;> rfl
    rw [PendingJob.receive_settles, hverdict, h]; simp only [elim_some]
    by_cases hs : job.state.outcome.isNone ∧ reply.kind.outcome.isSome
    · rw [if_pos hs, if_pos (by simpa using hs), count_append, count_singleton_self]
    · rw [if_neg hs, if_neg (by simpa using hs), add_zero]
  have hkinds : kindsFor id [reply] = [] := by simp [kindsFor, hid]
  have hzero : ((acc.1.lookup id).elim 0 fun job =>
      if job.state.outcome.isNone ∧ (verdict (kindsFor id (some reply).toList)).isSome then 1
      else 0) = 0 := by rw [toList_some, hkinds]; cases acc.1.lookup id <;> simp [verdict]
  rw [hzero, add_zero]
  split
  next => rfl
  rename_i job h
  split
  · rw [count_append, count_singleton, if_neg (by simpa using hid), add_zero]
  · rfl

theorem count_foldl_readEnvelope (bus : List (Option WorkerReply))
    (acc : Assoc JobId PendingJob × List JobId) (id : JobId) :
    (bus.foldl readEnvelope acc).2.count id = acc.2.count id + ((acc.1.lookup id).elim 0 fun job =>
        if job.state.outcome.isNone ∧ (verdict (kindsFor id bus.reduceOption)).isSome then 1
        else 0) := by
  induction bus generalizing acc with
  | nil => cases acc.1.lookup id <;> simp [kindsFor, verdict]
  | cons env bus ih =>
    have hsplit : verdict (kindsFor id (List.reduceOption (env :: bus))) =
        (verdict (kindsFor id env.toList)).or (verdict (kindsFor id bus.reduceOption)) := by
      rw [← verdict_append, ← kindsFor_append]; cases env <;> rfl
    rw [List.foldl_cons, ih, count_readEnvelope, lookup_readEnvelope, hsplit, add_assoc]
    congr 1
    cases acc.1.lookup id with
    | none => rfl
    | some job =>
      simp only [elim_some, map_some, PendingJob.outcome_receiveAll]
      cases job.state.outcome <;> cases verdict (kindsFor id env.toList) <;> simp

/-- **A tick reports a job settled once**, if it ran and its first terminal reply has come. -/
theorem count_settled_tick (id : JobId) : rt.tick.1.settled.count id =
    (rt.pending.lookup id).elim 0 fun job =>
      if job.state.outcome.isNone ∧ (verdict (kindsFor id rt.replies)).isSome then 1 else 0 := by
  have h := count_foldl_readEnvelope rt.bus (rt.pending, []) id
  rwa [count_nil, zero_add] at h

/-- A key after settled jobs were recorded: it is free if the job it stands for settled. -/
theorem lookup_foldl_recordSettled (pending : Assoc JobId PendingJob) (settled : List JobId)
    (acc : List ResourceOp × Assoc String JobId × List CompletedSlot) {key : String}
    {id : JobId} : (settled.foldl (recordSettled pending) acc).2.1.lookup key = some id ↔
      acc.2.1.lookup key = some id ∧
        ¬ (id ∈ settled ∧ ∃ job, pending.lookup id = some job ∧ job.supersedeKey = some key) := by
  induction settled generalizing acc with
  | nil => simp
  | cons a settled ih =>
    have hone : (recordSettled pending acc a).2.1.lookup key = some id ↔
        acc.2.1.lookup key = some id ∧
          ¬ (id = a ∧ ∃ job, pending.lookup id = some job ∧ job.supersedeKey = some key) := by
      have hsup : (recordSettled pending acc a).2.1 =
          ((pending.lookup a).bind (·.supersedeKey)).elim acc.2.1 fun key =>
            if acc.2.1.lookup key = some a then acc.2.1.erase key else acc.2.1 := by
        unfold recordSettled
        cases hjob : pending.lookup a with
        | none => rfl
        | some job => cases ho : job.state.outcome <;> cases hk : job.supersedeKey <;> simp [ho, hk]
      rw [hsup]
      cases hjob : pending.lookup a with
      | none =>
        simp only [bind_none, elim_none, iff_self_and]; rintro - ⟨rfl, job, hsome, -⟩
        rw [hjob] at hsome; cases hsome
      | some job =>
        cases hkey : job.supersedeKey with
        | none =>
          simp only [bind_some, hkey, elim_none, iff_self_and]; rintro - ⟨rfl, job', hsome, hk⟩
          rw [hjob] at hsome; cases hsome; rw [hkey] at hk
          cases hk
        | some k =>
          simp only [bind_some, hkey, elim_some]
          by_cases hk : key = k
          · subst hk
            by_cases hcur : acc.2.1.lookup key = some a
            · rw [if_pos hcur, lookup_erase]; simp only [reduceCtorEq, hcur, some.injEq, false_iff]
              rintro ⟨rfl, hne⟩; exact hne ⟨rfl, job, hjob, hkey⟩
            rw [if_neg hcur]; simp only [iff_self_and]; rintro hlookup ⟨rfl, -⟩
            exact hcur hlookup
          have hsame : (if acc.2.1.lookup k = some a then acc.2.1.erase k
              else acc.2.1).lookup key = acc.2.1.lookup key := by
            split
            · exact lookup_erase_ne hk
            · rfl
          rw [hsame]; simp only [iff_self_and]; rintro - ⟨rfl, job', hsome, hk'⟩
          rw [hjob] at hsome; cases hsome; rw [hkey] at hk'
          exact hk (some.inj hk').symm
    rw [List.foldl_cons, ih, hone, mem_cons]
    constructor
    · rintro ⟨⟨h, hne⟩, hrest⟩; refine ⟨h, ?_⟩
      rintro ⟨heq | hmem, hjob⟩
      · exact hne ⟨heq, hjob⟩
      · exact hrest ⟨hmem, hjob⟩
    rintro ⟨h, hne⟩; refine ⟨⟨h, ?_⟩, ?_⟩
    · rintro ⟨heq, hjob⟩; exact hne ⟨.inl heq, hjob⟩
    · rintro ⟨hmem, hjob⟩; exact hne ⟨.inr hmem, hjob⟩

/-- **The tick frees the keys of the jobs it settled**, where they still stand for them. -/
theorem supersede_tick (key : String) (id : JobId) :
    rt.tick.2.supersede.lookup key = some id ↔ rt.supersede.lookup key = some id ∧
      ¬ (id ∈ rt.tick.1.settled ∧
        ∃ job, rt.tick.2.pending.lookup id = some job ∧ job.supersedeKey = some key) :=
  lookup_foldl_recordSettled _ _ _

/-! ## Batches -/

def batchesFor (batches : List StreamBatch) : List StreamBatch :=
  batches.filter fun batch => batch.id = id

@[simp]
theorem batchesFor_append (bs cs : List StreamBatch) :
    batchesFor id (bs ++ cs) = batchesFor id bs ++ batchesFor id cs := filter_append ..

/-- **A job has the batch that its own buffer gives.** -/
theorem batchesFor_takeStreamBatches (id : JobId) : batchesFor id rt.takeStreamBatches.1 =
    ((rt.pending.lookup id).bind fun job => (job.drain id).map Prod.fst).toList := by
  refine Assoc.filterMap_entries_filter rt.pending
    (fun id job => (job.drain id).map Prod.fst) (·.id) ?_ id
  intro k job batch h
  obtain ⟨⟨batch', job'⟩, hdrain, rfl⟩ := map_eq_some_iff.1 h
  exact (PendingJob.drain_some hdrain).1

theorem lookup_takeStreamBatches (id : JobId) : rt.takeStreamBatches.2.pending.lookup id =
    (rt.pending.lookup id).bind fun job =>
      match job.drain id with
      | none => some job
      | some (batch, job') => if batch.closed then none else some job' := by
  have hevict : id ∈ ((rt.takeStreamBatches.1.filter fun batch => batch.closed).map
      fun batch => batch.id) ↔
      ∃ batch ∈ batchesFor id rt.takeStreamBatches.1, batch.closed = true := by
    simp only [batchesFor, List.mem_map, List.mem_filter, decide_eq_true_eq]
    constructor
    · rintro ⟨batch, ⟨hmem, hclosed⟩, hid⟩; exact ⟨batch, ⟨hmem, hid⟩, hclosed⟩
    · rintro ⟨batch, ⟨hmem, hid⟩, hclosed⟩; exact ⟨batch, ⟨hmem, hclosed⟩, hid⟩
  rw [batchesFor_takeStreamBatches] at hevict
  have htable : rt.takeStreamBatches.2.pending =
      Assoc.retain (fun id _ => decide (id ∉ (rt.takeStreamBatches.1.filter fun batch =>
        batch.closed).map fun batch => batch.id))
        (Assoc.mapVal (fun id job => ((job.drain id).map Prod.snd).getD job) rt.pending) := rfl
  rw [htable, Assoc.lookup_retain, Assoc.lookup_mapVal, decide_not]
  cases hjob : rt.pending.lookup id with
  | none => rfl
  | some job =>
    rw [hjob] at hevict
    cases hdrain : job.drain id with
    | none =>
      have hkeep : ¬ (id ∈ ((rt.takeStreamBatches.1.filter fun batch => batch.closed).map
          fun batch => batch.id)) := by rw [hevict]; simp [hdrain]
      simp [hdrain, hkeep, Option.filter]
    | some r =>
      simp only [bind_some, hdrain, map_some, toList_some, mem_singleton, exists_eq_left] at hevict
      cases hclosed : r.1.closed with
      | true => have hgone := hevict.2 hclosed; simp [hdrain, hgone, hclosed, Option.filter]
      | false =>
        have hkeep := mt hevict.1 (by simp [hclosed]); simp [hdrain, hkeep, hclosed, Option.filter]

/-! ## Results and births -/

theorem takeResult_some {id : JobId} {outcome : JobOutcome}
    (h : (rt.takeResult id).1 = some outcome) :
    ∃ job, rt.pending.lookup id = some job ∧ job.state.outcome = some outcome ∧
      (rt.takeResult id).2.pending = rt.pending.erase id := by
  unfold takeResult at h ⊢
  cases hjob : rt.pending.lookup id with
  | none => rw [hjob] at h; cases h
  | some job =>
    rw [hjob] at h
    cases ho : job.state.outcome with
    | none => simp [ho] at h
    | some o =>
      simp only [ho, some.injEq] at h; exact ⟨job, rfl, ho.trans (congrArg some h), by simp [ho]⟩

theorem takeResult_none {id : JobId} (h : (rt.takeResult id).1 = none) :
    (rt.takeResult id).2 = rt := by
  unfold takeResult at h ⊢
  cases hjob : rt.pending.lookup id with
  | none => rfl
  | some job =>
    rw [hjob] at h
    cases ho : job.state.outcome with
    | none => simp [ho]
    | some o => simp [ho] at h

@[simp]
theorem pending_cancel {id : JobId} : (rt.cancel id).pending = rt.pending := by
  unfold cancel
  split <;> rfl

@[simp]
theorem supersede_cancel {id : JobId} : (rt.cancel id).supersede = rt.supersede := by
  unfold cancel
  split <;> rfl

@[simp]
theorem nextJobId_cancel (id : JobId) : (rt.cancel id).nextJobId = rt.nextJobId := by
  unfold cancel
  split <;> rfl

theorem cancelledTokens_cancel {id : JobId} :
    rt.cancelledTokens ⊆ (rt.cancel id).cancelledTokens := by
  unfold cancel
  split
  · exact List.Subset.refl _
  · exact subset_cons_self _ _

theorem mem_cancelledTokens_cancel {id : JobId} {job : PendingJob}
    (h : rt.pending.lookup id = some job) : id ∈ (rt.cancel id).cancelledTokens := by
  unfold cancel
  rw [h]
  exact mem_cons_self

/-- The table a job is registered in, before its own entry. -/
def claimed (rt : AsyncRuntime Bundle) (spec : JobSpec) : AsyncRuntime Bundle :=
  match spec.supersede with
  | none => rt
  | some key => rt.claimKey key rt.nextJobId

theorem claimed_keeps (spec : JobSpec) : (rt.claimed spec).pending = rt.pending ∧
    rt.cancelledTokens ⊆ (rt.claimed spec).cancelledTokens := by
  unfold claimed
  split
  · exact ⟨rfl, List.Subset.refl _⟩
  unfold claimKey
  split
  · exact ⟨rfl, List.Subset.refl _⟩
  · exact ⟨pending_cancel rt, cancelledTokens_cancel rt⟩

variable {spec : JobSpec}

/-- **The job that held the key is cancelled**, and the key stands for the new one. -/
theorem claimed_key {key : String} (h : spec.supersede = some key) :
    (rt.claimed spec).supersede = rt.supersede.insert key rt.nextJobId ∧
      ∀ prior job, rt.supersede.lookup key = some prior → rt.pending.lookup prior = some job →
        prior ∈ (rt.claimed spec).cancelledTokens := by
  unfold claimed
  rw [h]
  simp only [claimKey]
  cases hprior : rt.supersede.lookup key with
  | none => exact ⟨rfl, fun prior job hp => absurd hp (by simp)⟩
  | some a =>
    refine ⟨by simp, ?_⟩; intro prior job hp hjob; cases hp
    exact mem_cancelledTokens_cancel rt hjob

def bornJob (rt : AsyncRuntime Bundle) (spec : JobSpec) : PendingJob where
  state := .running
  supersedeKey := spec.supersede
  streamBuffer := spec.stream.map fun _ => []
  maxBatch := spec.stream.getD 0
  kind := spec.kind
  resource := spec.resource
  purpose := composePurpose rt.currentDispatchName spec.purpose

theorem allocate_eq : rt.allocate spec = (rt.nextJobId, { rt.claimed spec with
      nextJobId := rt.nextJobId + 1
      pending := rt.pending.insert rt.nextJobId (rt.bornJob spec) }) := by
  have hpending := (rt.claimed_keeps spec).1
  rw [← hpending]
  rfl

theorem lookup_allocate {id : JobId} : (rt.allocate spec).2.pending.lookup id =
      if id = rt.nextJobId then some (rt.bornJob spec) else rt.pending.lookup id := by
  rw [allocate_eq]
  by_cases hid : id = rt.nextJobId
  · rw [if_pos hid, hid]; exact lookup_insert _
  · rw [if_neg hid]; exact lookup_insert_ne hid

end AsyncRuntime

end Pmacs.Async
