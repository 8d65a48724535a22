/-
  What comes of every job, over every run of the async runtime.

  * `SettlesOnce`, `KeysCurrent` and `StreamsWhole` hold of every run (`jobs_accounted`);
  * a predecessor under a key that ran has its token flipped, whatever happens next;
  * `streams_not_whole`: a stream's items are lost when its result is taken, or when they
    come after its close.
-/
import Pmacs.Async.JobsRun

namespace Pmacs.Async

open Lib AsyncRuntime List Option

variable {Bundle : Type}

namespace Session

/-- Each job settles at most once, with the first terminal reply received for it. -/
structure SettlesOnce (s : Session Bundle) : Prop where
  once : ∀ d ∈ s.dispatched, s.settled.count d.1 ≤ 1
  reported : ∀ d ∈ s.dispatched, d.1 ∈ s.settled ↔ (verdict (s.repliesTo d.1)).isSome
  state : ∀ d ∈ s.dispatched, ∀ job, s.rt.pending.lookup d.1 = some job →
    job.state.outcome = verdict (s.repliesTo d.1)
  taken : ∀ d ∈ s.dispatched, ∀ outcome, (d.1, outcome) ∈ s.taken →
    verdict (s.repliesTo d.1) = some outcome
  closed : ∀ d ∈ s.dispatched, ∀ b ∈ batchesFor d.1 s.batches, b.closed = true →
    b.outcome = verdict (s.repliesTo d.1)

/-- A key stands for the last job dispatched under it, which runs. -/
def KeysCurrent (s : Session Bundle) : Prop :=
  ∀ key id, s.rt.supersede.lookup key = some id → (s.under key).getLast? = some id ∧
    ∃ job, s.rt.pending.lookup id = some job ∧ job.state = .running

/-- The batches of a stream are the items that reached its entry, in order and each once:
    all but those still held while the entry is there, all of them once it is gone, with
    one close at the end. Taking the stream's result instead drops what is held. -/
structure StreamsWhole (s : Session Bundle) : Prop where
  held : ∀ d ∈ s.dispatched, ∀ job buf, s.rt.pending.lookup d.1 = some job →
    job.streamBuffer = some buf → s.delivered d.1 ++ buf = s.arrivals d.1 ∧
      ∀ b ∈ batchesFor d.1 s.batches, b.closed = false
  whole : ∀ d ∈ s.dispatched, d.2.stream.isSome → s.rt.pending.lookup d.1 = none →
    ¬ s.Taken d.1 → s.delivered d.1 = s.arrivals d.1 ∧ s.ClosedLast d.1
  cut : ∀ d ∈ s.dispatched, d.2.stream.isSome → s.Taken d.1 →
    s.rt.pending.lookup d.1 = none ∧ s.delivered d.1 <+: s.arrivals d.1 ∧
      ∀ b ∈ batchesFor d.1 s.batches, b.closed = false

variable {s : Session Bundle}

section
variable (h : s.Kept)
include h

theorem Kept.settlesOnce : s.SettlesOnce where
  once := by
    intro d hd; rw [h.settles d.1 d.2 hd]
    split <;> omega
  reported := by
    intro d hd; rw [← count_pos_iff, h.settles d.1 d.2 hd]
    split
    next hsome => exact iff_of_true Nat.one_pos hsome
    next hnone => exact iff_of_false (Nat.lt_irrefl 0) hnone
  state := fun d hd job hjob => (h.present d.1 d.2 job hd hjob).outcome
  taken := by
    intro d hd o ho
    cases hjob : s.rt.pending.lookup d.1 with
    | none => exact (h.absent d.1 d.2 hd hjob).taken o ho
    | some job => exact absurd ⟨o, ho⟩ (h.present d.1 d.2 job hd hjob).untaken
  closed := by
    intro d hd b hb hclosed
    cases hjob : s.rt.pending.lookup d.1 with
    | some job =>
      rw [(h.present d.1 d.2 job hd hjob).unclosed b hb] at hclosed; cases hclosed
    | none =>
      rcases (h.absent d.1 d.2 hd hjob).how with
        ⟨_, hopen⟩ | ⟨_, _, ⟨bs, last, hbs, _, hout, hrest⟩, _⟩
      · rw [hopen b hb] at hclosed; cases hclosed
      rw [hbs, mem_append, mem_singleton] at hb
      rcases hb with hb | rfl
      · rw [hrest b hb] at hclosed; cases hclosed
      · exact hout

theorem Kept.keysCurrent : s.KeysCurrent := by
  intro key id hkey
  obtain ⟨hlast, job, hjob, hrunning, _⟩ := h.current key id hkey
  exact ⟨hlast, job, hjob, hrunning⟩

theorem Kept.streamsWhole : s.StreamsWhole where
  held := by
    intro d hd job buf hjob hbuf; have ht := h.present d.1 d.2 job hd hjob
    have hwhole := ht.buffer (by rw [hbuf]; rfl); rw [hbuf, getD_some] at hwhole
    exact ⟨hwhole, ht.unclosed⟩
  whole := by
    intro d hd _ hjob huntaken
    rcases (h.absent d.1 d.2 hd hjob).how with ⟨htaken, _⟩ | ⟨_, _, hlast, hall⟩
    · exact absurd htaken huntaken
    · exact ⟨hall, hlast⟩
  cut := by
    intro d hd hstream htaken
    cases hjob : s.rt.pending.lookup d.1 with
    | some job => exact absurd htaken (h.present d.1 d.2 job hd hjob).untaken
    | none =>
      have hg := h.absent d.1 d.2 hd hjob
      refine ⟨rfl, hg.stream hstream, ?_⟩
      exact hg.how.elim (fun hcut => hcut.2) fun hwhole => absurd htaken hwhole.1

/-- **A predecessor that ran is cancelled** when its key is dispatched under again, and
    stays so. -/
theorem Kept.predecessor_cancelled {spec : JobSpec} {key : String}
    (hspec : spec.supersede = some key) {events : List (Event Bundle)} {id : JobId}
    {job : PendingJob} (hjob : s.rt.pending.lookup id = some job) (hrunning : job.state = .running)
    (hkey : job.supersedeKey = some key) :
    id ∈ ((s.step (.dispatch spec)).run events).rt.cancelledTokens := by
  refine cancelledTokens_run _ events ?_
  have hrt : (s.step (.dispatch spec)).rt.cancelledTokens =
      (s.rt.claimed spec).cancelledTokens := by
    change (s.rt.allocate spec).2.cancelledTokens = _; rw [allocate_eq]
  rcases h.superseded id job key hjob hrunning hkey with hcur | hmem
  · exact (claimed_key s.rt hspec).2 id job hcur hjob
  · exact (claimed_keeps s.rt spec).2 hmem

/-- **A stream that has settled closes**: each take shortens its buffer, and the one that
    empties it reports the close. -/
theorem Kept.closes {d : JobId × JobSpec} (hd : d ∈ s.dispatched) {job : PendingJob}
    {buf : List StreamPayload} (hjob : s.rt.pending.lookup d.1 = some job)
    (hbuf : job.streamBuffer = some buf) (hsettled : job.state.outcome.isSome) :
    ∃ n, (s.run (List.replicate n .takeStreamBatches)).rt.pending.lookup d.1 = none ∧
      ¬ (s.run (List.replicate n .takeStreamBatches)).Taken d.1 := by
  induction hlen : buf.length using Nat.strong_induction_on generalizing s job buf with
  | _ n ih =>
    have ht := h.present d.1 d.2 job hd hjob; have hkept := kept_step h .takeStreamBatches
    obtain ⟨batch, left, hdrain, hleft⟩ := @PendingJob.drain_settled d.1 _ _ hbuf hsettled
    have hafter := lookup_takeStreamBatches s.rt d.1; rw [hjob, bind_some, hdrain] at hafter
    cases hclosed : batch.closed with
    | true => refine ⟨1, ?_, ht.untaken⟩; simp only [hclosed, if_true] at hafter; exact hafter
    | false =>
      simp only [hclosed, Bool.false_eq_true, if_false] at hafter
      -- a batch that does not close leaves something, so it took something
      have hshort : left.length < n := by
        obtain ⟨-, ⟨buf', left', hbuf', hsplit, hjob', hclosed'⟩, -⟩ := PendingJob.drain_some hdrain
        have hsame : left' = left := by
          have := congrArg PendingJob.streamBuffer hjob'; exact (some.inj this).symm
        rw [hclosed', hsettled, Bool.true_and, hsame, isEmpty_eq_false_iff] at hclosed
        have hpos := length_pos_iff.2 hclosed; omega
      obtain ⟨m, hm⟩ := ih left.length hshort hkept hd hafter rfl hsettled rfl
      exact ⟨m + 1, by rw [replicate_succ]; exact hm⟩

end

/-- **What comes of every job, over every run**: it settles at most once, with the first
    terminal reply received for it; a key stands for the last job dispatched under it,
    which runs, and the jobs before it that ran are cancelled; a stream whose result is not
    taken gives out the items that reach its entry, and one close after the last of them. -/
theorem jobs_accounted (events : List (Event Bundle)) :
    (start.run events).SettlesOnce ∧ (start.run events).KeysCurrent ∧
      (start.run events).StreamsWhole ∧
      (∀ (spec : JobSpec) (key : String) (later : List (Event Bundle)) (id : JobId)
        (job : PendingJob), spec.supersede = some key →
        (start.run events).rt.pending.lookup id = some job → job.state = .running →
        job.supersedeKey = some key →
        id ∈ (start.run (events ++ .dispatch spec :: later)).rt.cancelledTokens) ∧
      ∀ d ∈ (start.run events).dispatched, ∀ job, job.streamBuffer.isSome →
        (start.run events).rt.pending.lookup d.1 = some job → job.state.outcome.isSome →
        ∃ n, (start.run (events ++ List.replicate n .takeStreamBatches)).rt.pending.lookup d.1 =
            none ∧ ¬ (start.run (events ++ List.replicate n .takeStreamBatches)).Taken d.1 := by
  have h : (start.run events : Session Bundle).Kept := kept_run kept_start
  refine ⟨h.settlesOnce, h.keysCurrent, h.streamsWhole, ?_, ?_⟩
  · intro spec key later id job hspec hjob hrunning hkey; rw [run_append]
    exact h.predecessor_cancelled hspec hjob hrunning hkey
  intro d hd job hstream hjob hsettled; obtain ⟨buf, hbuf⟩ := isSome_iff_exists.1 hstream
  obtain ⟨n, hn⟩ := h.closes hd hjob hbuf hsettled; exact ⟨n, by rw [run_append]; exact hn⟩

def tickerSpec : JobSpec := ⟨.emitN, none, some 1, none, "emit 1 items"⟩

/-- The item and the close of job 0 have come. -/
def tickerSettled : List (Event Unit) :=
  [.dispatch tickerSpec, .reply (some ⟨0, .streamItem (.u64 1)⟩),
    .reply (some ⟨0, .streamClosed⟩), .tick]

/-- The close of job 0 comes, and is reported, before its item. -/
def tickerLate : List (Event Unit) :=
  [.dispatch tickerSpec, .reply (some ⟨0, .streamClosed⟩), .tick, .takeStreamBatches,
    .reply (some ⟨0, .streamItem (.u64 1)⟩), .tick, .takeStreamBatches]

/-- A stream whose entry is gone need not have given out its items, nor have closed: its
    result was taken while it held one, or the item came after the close. -/
theorem streams_not_whole : (¬ ∀ (events : List (Event Unit)), ∀ d ∈ (start.run events).dispatched,
      d.2.stream.isSome → (start.run events).rt.pending.lookup d.1 = none →
        (start.run events).delivered d.1 = items ((start.run events).repliesTo d.1) ∧
          (start.run events).ClosedLast d.1) ∧
      (start.run (tickerSettled ++ [.takeResult 0, .takeStreamBatches])).batches = [] ∧
      (start.run tickerLate).delivered 0 = [] ∧
      items ((start.run tickerLate).repliesTo 0) = [.u64 1] := by
  refine ⟨?_, rfl, rfl, rfl⟩
  intro h
  obtain ⟨hall, -⟩ := h tickerLate (0, tickerSpec) mem_cons_self rfl rfl
  exact absurd hall (cons_ne_nil _ _).symm

end Session

end Pmacs.Async
