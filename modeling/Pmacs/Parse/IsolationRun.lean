/-
  Runs of isolated parses: edits, dispatches, cancellations, and units that die.

  * `IsolationSession` is a view with the jobs dispatched for it and the host of its unit;
    `answered` remembers every parsed answer with the unit's mirror behind it;
  * `mirror_exact`: in turn, the mirror behind every parsed answer is the request's source;
  * `mirror_not_exact`: a cancelled job's edits never reach the unit, which answers the
    next request from a text of the same length.
-/
import Pmacs.Parse.Isolation
import Pmacs.Parse.ViewRun

namespace Pmacs.Parse

open Lib ParseView AList List Option

/-! ## One job -/

/-- The request's edits lead from `before` to its source. -/
structure IsolatedJob.Leads (job : IsolatedJob) (before : Bytes) : Prop where
  paired : job.request.edits.length = job.inserted.length
  replays : replayAll before (job.request.edits.zip job.inserted) = some job.request.source

/-- No edit's offset passes 32 bits. -/
def IsolatedJob.Small (job : IsolatedJob) : Prop :=
  ∀ e ∈ job.request.edits, e.oldEndByte < 2 ^ 32 ∧ e.newEndByte < 2 ^ 32

def AttemptEnd.sentAfter (done : AttemptEnd) (job : IsolatedJob) (sent : Option Bytes) :
    Option Bytes :=
  match done with
  | .parsed _ => some job.request.source
  | .again => sent
  | .stopped (.failed (.desync _ _)) => sent
  | .stopped (.failed _) => some job.request.source
  | .stopped _ => sent

variable (known : String → Bool)

namespace Host

/-- **What a unit's mirror is after an answer** other than a desync: the request's source,
    when the whole text was sent or the edits lead there from the mirror before. -/
theorem source_of_answer {known : String → Bool} {job : IsolatedJob} {unit : Unit} {full : Bool}
    {before : Bytes} {verdict : Verdict} (hleads : job.Leads before)
    (hedits : full = false → unit.source = before ∧ job.Small)
    (h : ∀ have_ want, (unit.parse known (parseCall job.request job.inserted full).1
      (parseCall job.request job.inserted full).2 verdict).1 ≠ .failed (.desync have_ want)) :
    (unit.parse known (parseCall job.request job.inserted full).1
      (parseCall job.request job.inserted full).2 verdict).2.source = job.request.source := by
  rw [Unit.source_parse]
  cases full with
  | true => exact Unit.updateText_full rfl
  | false =>
    obtain ⟨hsource, hsmall⟩ := hedits rfl
    have happly := Unit.applyWireEdits_replay hleads.paired hleads.replays hsmall []
    simp only [nil_append, length_nil] at happly; have hupdate := Unit.updateText_of_parse h
    simp [parseCall, Unit.updateText, hsource, happly]

variable {sent : Option Bytes} {host : Host}

theorem attempt_spec
    (hsynced : host.Synced sent) {job : IsolatedJob} {before : Bytes} (hleads : job.Leads before)
    (first : Bool) (fate : Fate) (hedits : host.slot.synced = true → first = true ∧
      (host.SendsEdits job.limits → sent = some before ∧ job.Small)) :
    (∀ serial, (host.attempt known job first fate).1 = .parsed serial →
      ∃ process, (host.attempt known job first fate).2.processes.lookup serial = some process ∧
        process.unit.source = job.request.source) ∧
      ((host.attempt known job first fate).1 = .again →
        (host.attempt known job first fate).2.slot.synced = false) ∧
      (host.attempt known job first fate).2.Synced
        ((host.attempt known job first fate).1.sentAfter job sent) := by
  unfold attempt
  cases hfor : host.unitFor job.limits first fate with
  | mk result host' =>
    cases result with
    | error error =>
      obtain ⟨hnone, hfailed⟩ := unitFor_error hfor
      refine ⟨nofun, nofun, ?_⟩
      exact synced_of_no_unit hnone _
    | ok pair =>
      obtain ⟨serial, full⟩ := pair
      obtain ⟨hunit, hlt, ⟨process, hprocess⟩, hpart⟩ := unitFor_ok hsynced hfor
      have hbury : ∀ crashed sent', (host'.bury serial crashed).Synced sent' := by
        intro crashed sent'
        refine synced_of_no_unit ?_ sent'; unfold Host.bury; rw [if_pos hunit]
        cases crashed <;> rfl
      cases hcall : fate.call with
      | dies crashed =>
        exact ⟨nofun, nofun, hbury crashed _⟩
      | answers verdict =>
        simp only [hprocess]
        -- the mirror that the call started from
        have hstart : full = false → process.unit.source = before ∧ job.Small := by
          intro hfull; obtain ⟨hsync, hsends, process', hprocess', hsent⟩ := hpart hfull
          obtain ⟨hfirst, hturn⟩ := hedits hsync; obtain ⟨hbefore, hsmall⟩ := hturn (hsends hfirst)
          rw [hprocess] at hprocess'; cases hprocess'; rw [hbefore] at hsent
          exact ⟨(some.inj hsent).symm, hsmall⟩
        have hanswer := @source_of_answer known _ _ _ _ verdict hleads hstart
        set response := process.unit.parse known (parseCall job.request job.inserted full).1
          (parseCall job.request job.inserted full).2 verdict
        set after : Host := { host' with
          processes := host'.processes.insert serial { process with unit := response.2 } }
          with hafter
        have hlookup : after.processes.lookup serial = some { process with unit := response.2 } :=
          lookup_insert _
        -- a slot with the unit, or with none
        have hslots : ∀ (f : Slot → Slot) (sent' : Option Bytes),
            (∀ slot, (f slot).unit = slot.unit) →
            ((f after.slot).synced = true → sent' = some response.2.source) →
            ((if fate.lost then after.bury serial false else after).answered f).Synced sent' := by
          intro f sent' hf hs
          cases fate.lost with
          | true =>
            refine synced_of_no_unit ?_ sent'; simp only [answered, hf]; unfold Host.bury
            rw [if_pos (show after.slot.unit = some serial from hunit)]; rfl
          | false =>
            intro serial' hserial'
            simp only [Bool.false_eq_true, if_false, answered, hf] at hserial' ⊢
            rw [show after.slot.unit = some serial from hunit] at hserial'; cases hserial'
            exact ⟨hlt, _, hlookup, hs⟩
        have hprocesses : ∀ f : Slot → Slot,
            ((if fate.lost then after.bury serial false else after).answered f).processes =
              after.processes := by
          intro f
          cases fate.lost with
          | true =>
            simp only [if_true, answered, Host.bury]
            split <;> rfl
          | false => rfl
        cases hkind : response.1 with
        | parsed generation peakBytes =>
          have hsource := hanswer fun _ _ => by rw [hkind]; simp
          refine ⟨fun serial' h => ?_, nofun, ?_⟩
          · cases h; exact ⟨_, (congrArg _ (hprocesses _)).trans hlookup, hsource⟩
          · exact hslots _ _ (fun _ => rfl) fun _ => congrArg some hsource.symm
        | failed failure =>
          cases failure with
          | desync have_ want =>
            refine ⟨fun serial' h => ?_, fun _ => rfl, ?_⟩
            · cases first <;> cases h
            · exact hslots _ _ (fun _ => rfl) nofun
          | deadline | noTree | language =>
            have hsource := hanswer fun _ _ => by rw [hkind]; simp
            refine ⟨nofun, nofun, ?_⟩
            exact hslots _ _ (fun _ => rfl) fun _ => congrArg some hsource.symm

/-- **One parse**: a parsed answer comes from a unit whose mirror is the request's source,
    and a synced slot's unit mirrors the text last sent. -/
theorem run_spec
    (hsynced : host.Synced sent) {job : IsolatedJob} {before : Bytes} (hleads : job.Leads before)
    (fate₁ fate₂ : Fate) (hedits : host.SendsEdits job.limits → sent = some before ∧ job.Small) :
    (∀ serial, (host.run known job fate₁ fate₂).1 = .parsed serial →
      ∃ process, (host.run known job fate₁ fate₂).2.processes.lookup serial = some process ∧
        process.unit.source = job.request.source) ∧ (host.run known job fate₁ fate₂).2.Synced
        ((host.run known job fate₁ fate₂).1.sentAfter job sent) := by
  obtain ⟨hparsed, hagain, hkept⟩ := attempt_spec known hsynced hleads true fate₁
    fun _ => ⟨rfl, hedits⟩
  unfold run
  cases hfirst : host.attempt known job true fate₁ with
  | mk done host' =>
    rw [hfirst] at hparsed hagain hkept
    cases done with
    | again =>
      obtain ⟨hparsed', _, hkept'⟩ := attempt_spec known hkept hleads false fate₂ fun hsync => by
        rw [hagain rfl] at hsync; cases hsync
      exact ⟨hparsed', hkept'⟩
    | parsed | stopped => exact ⟨hparsed, hkept⟩

theorem Synced.reestablish (h : host.Synced sent)
    (known : String → Bool) (request : ParseRequest) (limits : Limits) (fate : Fate) :
    (host.reestablish known request limits fate).Synced sent := by
  unfold Host.reestablish
  split
  next => exact h
  rename_i hfree
  have hnone : host.slot.unit = none := by
    cases hu : host.slot.unit with
    | none => rfl
    | some serial => exact absurd (.inl (by rw [hu]; rfl)) hfree
  simp only
  split
  next crashed _ =>
    refine synced_of_no_unit ?_ sent; cases crashed <;> exact hnone
  rename_i verdict _
  split
  next =>
    intro serial hserial; cases hserial
    exact ⟨Nat.lt_succ_self _, _, lookup_insert _, nofun⟩
  next =>
    refine synced_of_no_unit ?_ sent; exact hnone

end Host

/-! ## Sessions -/

/-- What can happen to a buffer whose parses are isolated. -/
inductive IsolationEvent where
  /-- An edit, or what comes of a request. -/
  | view (event : ViewEvent)
  | dispatch (limits : Limits)
  | cancel (number : ℕ)
  /-- A worker thread takes a job up, and runs it unless it was cancelled. -/
  | run (number : ℕ) (fate₁ fate₂ : Fate)
  | reestablish (request : ParseRequest) (limits : Limits) (fate : Fate)
  | bury (serial : Serial) (crashed : Bool)
  | forget (mode : Isolation)

/-- A view and its unit. A job stands with the number of its request; `sent` is the text the
    unit was last sent, and `answered` holds every parsed answer with the unit's mirror. -/
structure IsolationSession where
  views : ViewSession
  jobs : List (ℕ × IsolatedJob)
  cancelled : List ℕ
  taken : List ℕ
  host : Host
  sent : Option Bytes
  answered : List (IsolatedJob × Bytes)

namespace IsolationSession

def start (rope : WfRope) (languageName : String) (mode : Isolation) : IsolationSession :=
  ⟨.start rope languageName, [], [], [], .new mode, none, []⟩

def mirrorOf (done : AttemptEnd) (host : Host) : List Bytes :=
  match done with
  | .parsed serial => (host.processes.lookup serial).toList.map fun process => process.unit.source
  | _ => []

def step (known : String → Bool) (s : IsolationSession) : IsolationEvent → IsolationSession
  | .view event => { s with views := s.views.step event }
  | .dispatch limits =>
    let made := s.views.view.makeIsolatedRequest.1
    { s with
      views := s.views.step .makeIsolatedRequest
      jobs := s.jobs ++ [(s.views.made.length, ⟨made.1, made.2, limits⟩)] }
  | .cancel number => { s with cancelled := number :: s.cancelled }
  | .run number fate₁ fate₂ =>
    match s.jobs[number]? with
    | none => s
    | some (_, job) =>
      if number ∈ s.taken then s
      -- a job cancelled before it runs is dropped, its edits with it
      else if number ∈ s.cancelled then { s with taken := number :: s.taken }
      else
        let (done, host) := s.host.run known job fate₁ fate₂
        { s with
          taken := number :: s.taken
          host := host
          sent := done.sentAfter job s.sent
          answered := s.answered ++ (mirrorOf done host).map fun mirror => (job, mirror) }
  | .reestablish request limits fate =>
    { s with host := s.host.reestablish known request limits fate }
  | .bury serial crashed => { s with host := s.host.bury serial crashed }
  | .forget mode => { s with host := s.host.forget mode }

/-- A job that would go out as edits starts from the text last sent: the text of the request
    before its own. No offset of its edits passes 32 bits. -/
def InTurn (s : IsolationSession) (number : ℕ) : Prop :=
  ∀ request job, s.jobs[number]? = some (request, job) → number ∉ s.taken →
    number ∉ s.cancelled → s.host.SendsEdits job.limits →
    s.sent = some (ViewSession.textOf s.views.opened (s.views.made.take request)) ∧ job.Small

/-- Exact edits, jobs taken up in any order. -/
def Delivered (s : IsolationSession) : IsolationEvent → Prop
  | .view event => s.views.Delivered event
  | _ => True

/-- Exact edits, jobs taken up in turn. -/
def Ordered (s : IsolationSession) : IsolationEvent → Prop
  | .view event => s.views.Delivered event
  | .run number _ _ => s.InTurn number
  | _ => True

def Reaches (ok : IsolationSession → IsolationEvent → Prop) (s s' : IsolationSession) : Prop :=
  Relation.ReflTransGen (fun s s' => ∃ event, ok s event ∧ s' = s.step known event) s s'

variable {s s' : IsolationSession} {event : IsolationEvent}

theorem Reaches.move {known : String → Bool} {ok : IsolationSession → IsolationEvent → Prop} (h : Reaches known ok s s')
    (hok : ok s' event) : Reaches known ok s (s'.step known event) := h.tail ⟨event, hok, rfl⟩

/-- What every step in turn keeps: the view's requests, the jobs that stand for them, the
    slot's word on what its unit mirrors, and the answers. -/
structure Kept (s : IsolationSession) : Prop where
  views : s.views.Kept
  jobs : ∀ j ∈ s.jobs, s.views.made[j.1]? = some ⟨j.2.request, j.2.inserted⟩
  synced : s.host.Synced s.sent
  answered : ∀ a ∈ s.answered, a.2 = a.1.request.source

theorem kept_start (rope : WfRope) (languageName : String) (mode : Isolation) :
    (start rope languageName mode).Kept where
  views := ViewSession.kept_start rope languageName
  jobs := nofun
  synced := Host.synced_new mode none
  answered := nofun

/-- A job's edits lead from the text of the request before its own. -/
theorem Kept.leads (h : s.Kept) {j : ℕ × IsolatedJob} (hj : j ∈ s.jobs) :
    j.2.Leads (ViewSession.textOf s.views.opened (s.views.made.take j.1)) := by
  obtain ⟨hlt, hget⟩ := List.getElem?_eq_some_iff.1 (h.jobs j hj)
  refine ⟨h.views.paired _ (hget ▸ List.getElem_mem hlt), ?_⟩
  refine h.views.edits _ ⟨j.2.request, j.2.inserted⟩ (s.views.made.drop (j.1 + 1)) ?_
  rw [← hget, ← drop_eq_getElem_cons hlt, take_append_drop]

theorem made_step (v : ViewSession) (event : ViewEvent) : v.made <+: (v.step event).made := by
  cases event with
  | makeRequest | makeIsolatedRequest => exact prefix_append _ _
  | install number isolated =>
    simp only [ViewSession.step]; cases v.made[number]? <;> exact prefix_refl _
  | edit | markUnparsed | dropCurrent => exact prefix_refl _

theorem getElem?_of_prefix {α : Type} {l l' : List α} (h : l <+: l') {i : ℕ} {a : α}
    (ha : l[i]? = some a) : l'[i]? = some a := by
  obtain ⟨rest, rfl⟩ := h
  rw [List.getElem?_append_left (List.getElem?_eq_some_iff.1 ha).1, ha]

theorem Kept.step {known : String → Bool} (h : s.Kept)
    (hok : s.Ordered event) : (s.step known event).Kept := by
  cases event with
  | view event =>
    exact ⟨h.views.step hok, fun j hj => getElem?_of_prefix (made_step _ event) (h.jobs j hj),
      h.synced, h.answered⟩
  | dispatch limits =>
    have hviews : (s.views.step .makeIsolatedRequest).Kept := by refine h.views.step ?_; trivial
    refine ⟨hviews, ?_, h.synced, h.answered⟩; intro j hj
    rcases mem_append.1 hj with hold | hnew
    · exact getElem?_of_prefix (made_step s.views .makeIsolatedRequest) (h.jobs j hold)
    · rw [mem_singleton.1 hnew]; exact getElem?_concat_length
  | cancel number => exact ⟨h.views, h.jobs, h.synced, h.answered⟩
  | run number fate₁ fate₂ =>
    unfold IsolationSession.step
    cases hjob : s.jobs[number]? with
    | none => simp only [hjob]; exact h
    | some j =>
      obtain ⟨request, job⟩ := j; simp only [hjob]
      split
      next => exact h
      rename_i htaken
      split
      next => exact ⟨h.views, h.jobs, h.synced, h.answered⟩
      rename_i hcancelled
      have hleads := h.leads (mem_of_getElem? hjob)
      obtain ⟨hparsed, hsynced⟩ := Host.run_spec known h.synced hleads fate₁ fate₂
        (hok request job hjob htaken hcancelled)
      refine ⟨h.views, h.jobs, hsynced, ?_⟩; intro a ha
      rcases mem_append.1 ha with hold | hnew
      · exact h.answered a hold
      obtain ⟨mirror, hmirror, rfl⟩ := mem_map.1 hnew
      cases hdone : (s.host.run known job fate₁ fate₂).1 with
      | parsed serial =>
        obtain ⟨process, hprocess, hsource⟩ := hparsed serial hdone
        simp only [mirrorOf, hdone, hprocess, toList_some, map_cons,
          map_nil, mem_singleton] at hmirror
        exact hmirror.trans hsource
      | again | stopped => simp [mirrorOf, hdone] at hmirror
  | reestablish request limits fate =>
    exact ⟨h.views, h.jobs, h.synced.reestablish known request limits fate, h.answered⟩
  | bury serial crashed => exact ⟨h.views, h.jobs, h.synced.bury serial crashed, h.answered⟩
  | forget mode => exact ⟨h.views, h.jobs, Host.synced_of_no_unit rfl s.sent, h.answered⟩

theorem Kept.reaches {known : String → Bool} (h : s.Kept)
    (hreach : Reaches known Ordered s s') : s'.Kept := by
  induction hreach with
  | refl => exact h
  | tail _ hmove ih => obtain ⟨event, hok, rfl⟩ := hmove; exact ih.step hok

/-- **In turn, a parsed answer's mirror is the request's source**, in every run. -/
theorem mirror_exact (known : String → Bool) (rope : WfRope) (languageName : String)
    (mode : Isolation) {s : IsolationSession}
    (h : Reaches known Ordered (start rope languageName mode) s) :
    ∀ a ∈ s.answered, a.2 = a.1.request.source :=
  ((kept_start rope languageName mode).reaches h).answered

/-! ## A job out of turn -/

/-- A buffer of two letters; each is then replaced by another. -/
def twoLetters : IsolationSession := start (WfRope.fromBytes [97, 98]) "rust" .process

def anyLanguage : String → Bool := fun _ => true

def limits : Limits := ⟨.process, 1024, 0⟩

/-- Nothing goes wrong, and the parse gives a tree. -/
def smooth : Fate := ⟨false, true, .answers (.tree 0), false⟩

def replaceFirst : Edit WfRope := ⟨WfRope.fromBytes [120, 98], ⟨0, 1⟩, 1, none⟩

def replaceSecond : Edit WfRope := ⟨WfRope.fromBytes [120, 121], ⟨1, 2⟩, 1, none⟩

theorem exact_replaceFirst : ParseView.Exact (WfRope.fromBytes [97, 98]).bytes replaceFirst := by
  have h := Describes.of_splice (l := ([97, 98] : Bytes)) (s := 0) (e := 1) [120] (by decide)
    (by decide)
  simpa [ParseView.Exact, replaceFirst, splice] using h

theorem exact_replaceSecond : ParseView.Exact (WfRope.fromBytes [120, 98]).bytes replaceSecond := by
  have h := Describes.of_splice (l := ([120, 98] : Bytes)) (s := 1) (e := 2) [121] (by decide)
    (by decide)
  simpa [ParseView.Exact, replaceSecond, splice] using h

def parsedWhole : IsolationSession :=
  (twoLetters.step anyLanguage (.dispatch limits)).step anyLanguage (.run 0 smooth smooth)

/-- The first letter is replaced, and a parse dispatched for it. -/
def firstDispatched : IsolationSession :=
  (parsedWhole.step anyLanguage (.view (.edit replaceFirst))).step anyLanguage (.dispatch limits)

theorem reaches_firstDispatched : Reaches anyLanguage Ordered twoLetters firstDispatched := by
  have hasked : Reaches anyLanguage Ordered twoLetters
      (twoLetters.step anyLanguage (.dispatch limits)) := Reaches.move .refl trivial
  have hwhole : Reaches anyLanguage Ordered twoLetters parsedWhole := by
    refine hasked.move ?_; rintro request job - - - ⟨hsynced, -⟩
    exact absurd hsynced (by simp [twoLetters, start, step, Host.new, Slot.fresh])
  have hedited : Reaches anyLanguage Ordered twoLetters
      (parsedWhole.step anyLanguage (.view (.edit replaceFirst))) := hwhole.move exact_replaceFirst
  exact hedited.move trivial

/-- An edit, whose parse is taken up in turn: its unit mirrors its source. -/
theorem mirror_exact_edit :
    (∀ a ∈ (firstDispatched.step anyLanguage (.run 1 smooth smooth)).answered,
      a.2 = a.1.request.source) ∧
      ((firstDispatched.step anyLanguage (.run 1 smooth smooth)).answered.map Prod.snd) =
        [[97, 98], [120, 98]] := by
  have hturn : firstDispatched.InTurn 1 := by
    intro request job hjob _ _ _
    have hget : firstDispatched.jobs[1]? = some (1, ⟨⟨[120, 98], "rust", none,
        [⟨0, 1, 1, ⟨0, 0⟩, ⟨0, 1⟩, ⟨0, 1⟩⟩], [], none⟩, [[120]], limits⟩) := by rfl
    cases hjob
    refine ⟨by rfl, ?_⟩; intro e he; rw [mem_singleton.1 he]
    exact ⟨by decide, by decide⟩
  exact ⟨mirror_exact anyLanguage _ _ _ (reaches_firstDispatched.move hturn), by rfl⟩

/-- The first letter's job is cancelled before it runs; then the second letter is replaced,
    and parsed. -/
def secondParsed : IsolationSession :=
  ((((firstDispatched.step anyLanguage (.cancel 1)).step anyLanguage (.run 1 smooth smooth)).step
    anyLanguage (.view (.edit replaceSecond))).step anyLanguage (.dispatch limits)).step
      anyLanguage (.run 2 smooth smooth)

theorem Reaches.delivered {known : String → Bool}
    (h : Reaches known Ordered s s') : Reaches known Delivered s s' := by
  induction h with
  | refl => exact .refl
  | tail _ hmove ih =>
    obtain ⟨event, hok, rfl⟩ := hmove
    refine ih.move ?_; cases event <;> first | exact hok | trivial

/-- **A dropped job's edits never reach the unit**, which then answers from another text. -/
theorem mirror_not_exact : ¬ ∀ s, Reaches anyLanguage Delivered twoLetters s →
    ∀ a ∈ s.answered, a.2 = a.1.request.source := by
  intro h
  have hcancelled : Reaches anyLanguage Delivered twoLetters
      (firstDispatched.step anyLanguage (.cancel 1)) :=
    reaches_firstDispatched.delivered.move trivial
  have hdropped : Reaches anyLanguage Delivered twoLetters
      ((firstDispatched.step anyLanguage (.cancel 1)).step anyLanguage (.run 1 smooth smooth)) :=
    hcancelled.move trivial
  have hedited : Reaches anyLanguage Delivered twoLetters
      (((firstDispatched.step anyLanguage (.cancel 1)).step anyLanguage
        (.run 1 smooth smooth)).step anyLanguage (.view (.edit replaceSecond))) :=
    hdropped.move exact_replaceSecond
  have hasked : Reaches anyLanguage Delivered twoLetters
      ((((firstDispatched.step anyLanguage (.cancel 1)).step anyLanguage
        (.run 1 smooth smooth)).step anyLanguage (.view (.edit replaceSecond))).step
          anyLanguage (.dispatch limits)) := hedited.move trivial
  have hrun : Reaches anyLanguage Delivered twoLetters secondParsed := hasked.move trivial
  have hlast : secondParsed.answered.map (fun a => (a.2, a.1.request.source)) =
      [([97, 98], [97, 98]), ([97, 121], [120, 121])] := by rfl
  have hmem : (([97, 121] : Bytes), ([120, 121] : Bytes)) ∈
      secondParsed.answered.map (fun a => (a.2, a.1.request.source)) := by
    exact mem_cons_of_mem _ mem_cons_self
  obtain ⟨a, ha, heq⟩ := mem_map.1 hmem
  have hsame := h secondParsed hrun a ha
  rw [Prod.mk.injEq] at heq
  rw [heq.1, heq.2] at hsame
  cases hsame

end IsolationSession

end Pmacs.Parse
