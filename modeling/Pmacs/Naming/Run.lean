/-
  Whole runs of a registry's events.

  * `Event.Ok`: what the name a buffer is inserted with may be.
  * `Reaches`: what a registry comes to by such events, and `Kept.reaches`, the invariant.
  * `named_as_whole`: after each event the session is named as naming it at once would name it.
-/
import Pmacs.Naming.Events

namespace Pmacs.Naming

open Lib List Option

theorem Kept.empty : Kept .empty := by
  refine ⟨⟨[], ?_, nofun⟩, by decide⟩
  exact
    { index := .empty
      names := by simp
      ids := .nil
      registered := fun id => by simp [Registry.empty]
      paths := by simp
      sorted := .nil
      placed := by simp [Registry.empty] }

/-! ## Events -/

/-- The registry's vector has room for a buffer. -/
def Registry.HasRoom (r : Registry) : Prop := r.order.length + 2 ≤ usizeMax

/-- What an event has to meet: only what is inserted is restricted. -/
def Event.Ok (r : Registry) : Event → Prop
  | .insert buffer => r.Carries buffer ∧ r.HasRoom
  | .insertForPath _ _ => r.HasRoom
  | _ => True

/-- The names before an event: a buffer that is inserted holds the name it comes with. -/
def Event.holds (r : Registry) : Event → BufferId → BufferName
  | .insert buffer => Function.update r.nameOf buffer.id buffer.name
  | .insertForPath buffer _ => Function.update r.nameOf buffer.id []
  | _ => r.nameOf

theorem carries_forPath (r : Registry) (buffer : Buffer) (path : PathBuf) :
    r.Carries (Registry.forPath buffer path) :=
  fun _ _ => .inl rfl

theorem Moved.setPaths (ids : List BufferId) : ∀ (moves : List (BufferId × Option PathBuf))
    (r : Registry), (∀ m ∈ moves, m.1 ∈ ids) →
      Moved r (moves.foldl (fun r m => r.modify m.1 (·.setFilePath m.2)) r) ids
  | [], r, _ => .refl r ids
  | m :: moves, r, h => by
    have hone : Moved r (r.modify m.1 (·.setFilePath m.2)) ids :=
      .modify r m.1 (fun _ => rfl) fun hid => absurd (h m mem_cons_self) hid
    exact hone.trans (setPaths ids moves _ fun m' hm' => h m' (mem_cons_of_mem m hm'))

variable {r : Registry}

/-- **One event**: it ends, and the session is named as naming it at once would name it. -/
theorem Kept.step (order : VisitOrder) (h : Kept r) {ev : Event} (hok : ev.Ok r) :
    ∃ r', r.step order ev = some r' ∧ Kept r' ∧ r'.NamedAsWhole (ev.holds r) := by
  cases ev with
  | insert buffer => exact insert_kept order h buffer hok.1 hok.2
  | insertForPath buffer path =>
    exact insert_kept order h (Registry.forPath buffer path) (carries_forPath r buffer path) hok
  | remove id => exact remove_kept order h
  | nameByPath id path =>
    simp only [Registry.step, Registry.nameByPath]
    cases r.buffers.lookup id with
    | none => exact ⟨r, rfl, h, h.named⟩
    | some b => exact moved_kept order h (.modify r id (fun _ => rfl) fun hid => by simp at hid)
  | nameByDirectory id directory =>
    simp only [Registry.step, Registry.nameByDirectory]
    cases r.buffers.lookup id with
    | none => exact ⟨r, rfl, h, h.named⟩
    | some b => exact moved_kept order h (.modify r id (fun _ => rfl) fun hid => by simp at hid)
  | setName id name => exact setName_kept order h name
  | setPaths moves ids all => exact moved_kept order h (.setPaths ids moves r all)
  | setEditing id inProgress =>
    have hmoved : Moved r (r.modify id fun buf => { buf with editingInProgress := inProgress })
        [] := .modify r id (fun _ => rfl) fun _ _ => rfl
    have hkept := moved_nil_kept h hmoved
    refine ⟨_, rfl, hkept, ?_⟩; change Registry.NamedAsWhole _ r.nameOf; rw [← hmoved.nameOf]
    exact hkept.named

/-! ## Runs -/

/-- What a registry comes to by events, each visiting the marked paths in an order of its own. -/
inductive Reaches : Registry → Prop where
  | empty : Reaches .empty
  | step {r r' : Registry} (order : VisitOrder) {ev : Event} :
      Reaches r → ev.Ok r → r.step order ev = some r' → Reaches r'

theorem Kept.reaches (h : Reaches r) : Kept r := by
  induction h with
  | empty => exact .empty
  | step order _ hok hstep ih =>
    obtain ⟨r₁, heq, hkept, -⟩ := ih.step order hok; rw [hstep, some_inj] at heq; exact heq ▸ hkept

/-- **The names of the whole session.** After every event of every run the naming ends, every
    buffer named by a path has the name that naming the whole session at once gives it, and no
    other buffer has that name. -/
theorem named_as_whole {r : Registry} (h : Reaches r) {ev : Event} (hok : ev.Ok r)
    (order : VisitOrder) : ∃ r', r.step order ev = some r' ∧ r'.NamedAsWhole (ev.holds r) := by
  obtain ⟨r', heq, -, hnamed⟩ := (Kept.reaches h).step order hok
  exact ⟨r', heq, hnamed⟩

/-! ## A buffer that comes back under its name -/

namespace Returning

def part (text : List Char) (ne : text ≠ []) (noSlash : '/' ∉ text) : PathComponent :=
  .normal ⟨[], text, ne, noSlash⟩

/-- `/w/a.rs` -/
def file : PathBuf :=
  [.rootDir, part ['w'] (by decide) (by decide), part "a.rs".toList (by decide) (by decide)]

/-- `/w/a.rs<2>` -/
def suffixed : PathBuf :=
  [.rootDir, part ['w'] (by decide) (by decide), part "a.rs<2>".toList (by decide) (by decide)]

def unnamed (id : BufferId) : Buffer := ⟨id, [], .explicit, none, none, false⟩

/-- The buffer of `/w/a.rs<2>`, as `remove` gave it back. -/
def removed : Buffer := ⟨1, "a.rs<2>".toList, .pathDerived, some suffixed, none, false⟩

def asMarked : VisitOrder := ⟨fun _ dirty => dirty, fun _ _ => .refl _⟩

/-- `/w/a.rs<2>` is opened and killed, and `/w/a.rs` opened twice. -/
def events : List Event :=
  [.insertForPath (unnamed 1) suffixed, .remove 1, .insertForPath (unnamed 2) file,
    .insertForPath (unnamed 3) file]

def run (events : List Event) : Option Registry :=
  events.foldlM (fun r ev => r.step asMarked ev) .empty

theorem run_concat (events : List Event) (ev : Event) :
    run (events ++ [ev]) = (run events).bind fun r => r.step asMarked ev := by
  unfold run
  rw [foldlM_append]
  refine congrArg _ (funext fun r => ?_)
  exact bind_pure _

/-- A run that inserts no named buffer reaches its registry, where there is room. -/
theorem reaches_run {events : List Event} (hok : ∀ ev ∈ events, ∀ r, r.HasRoom → ev.Ok r)
    (hroom : ∀ n < events.length, ∀ r ∈ run (events.take n), r.HasRoom) :
    ∀ n ≤ events.length, ∀ r, run (events.take n) = some r → Reaches r
  | 0, _, r, hr => by
    cases hr; exact .empty
  | n + 1, hn, r, hr => by
    rw [take_succ_eq_append_getElem hn, run_concat, bind_eq_some_iff] at hr
    obtain ⟨r₁, hr₁, hstep⟩ := hr
    exact .step asMarked (reaches_run hok hroom n (by omega) r₁ hr₁)
      (hok _ (getElem_mem hn) r₁ (hroom n hn r₁ hr₁)) hstep

theorem events_room : ∀ n < events.length + 1, ∀ r ∈ run (events.take n), r.HasRoom := by
  have hall : ∀ n < events.length + 1,
      (run (events.take n)).all (fun r => decide (r.order.length + 2 ≤ usizeMax)) = true := by
    decide +kernel
  intro n hn r hr
  have h := hall n hn
  rwa [hr, all_some, decide_eq_true_eq] at h

theorem reaches_events (hr : run events = some r) : Reaches r := by
  refine reaches_run (fun ev hev r hroom => ?_) (fun n hn => events_room n (by omega)) 4
    le_rfl r hr
  simp only [events, mem_cons, not_mem_nil, or_false] at hev
  rcases hev with rfl | rfl | rfl | rfl
  · exact hroom
  · trivial
  · exact hroom
  · exact hroom

end Returning

open Returning in
/-- A third buffer of `/w/a.rs` is opened: it finds a free number. -/
theorem named_as_whole_third : ∃ r r', run events = some r ∧
    r.step asMarked (.insertForPath (unnamed 4) file) = some r' ∧
    r'.NamedAsWhole (Event.holds r (.insertForPath (unnamed 4) file)) := by
  obtain ⟨r, hr⟩ := Option.isSome_iff_exists.1
    (show (run events).isSome = true by decide +kernel)
  have hok : Event.Ok r (.insertForPath (unnamed 4) file) := events_room 4 (by decide) r hr
  obtain ⟨r', hr', hnamed⟩ := named_as_whole (reaches_events hr) hok asMarked
  exact ⟨r, r', hr, hr', hnamed⟩

open Returning in
/-- The buffer of `/w/a.rs<2>` comes back under its name, which a buffer of `/w/a.rs` has. -/
theorem insert_not_named_as_whole : ∃ r r', run events = some r ∧
    r.step asMarked (.insert removed) = some r' ∧
    ¬ r'.NamedAsWhole (Event.holds r (.insert removed)) := by
  obtain ⟨r, hr⟩ := Option.isSome_iff_exists.1
    (show (run events).isSome = true by decide +kernel)
  have hsome : ((run events).bind fun r => r.step asMarked (.insert removed)).any (fun r' =>
      (r'.pathOf 1).isSome && r'.order.contains 1 && r'.order.contains 3 &&
        r'.nameOf 3 == r'.nameOf 1) = true := by decide +kernel
  rw [hr, Option.bind_some, Option.any_eq_true] at hsome
  obtain ⟨r', hr', hsame⟩ := hsome
  simp only [Bool.and_eq_true, List.contains_iff_mem, beq_iff_eq] at hsame
  obtain ⟨⟨⟨hpath, hone⟩, hthree⟩, hname⟩ := hsame
  obtain ⟨p, hp⟩ := Option.isSome_iff_exists.1 hpath
  refine ⟨r, r', hr, hr', fun h => ?_⟩
  exact h.distinct 1 p (Registry.mem_derived.2 ⟨hone, hp⟩) 3 hthree (by decide) hname

end Pmacs.Naming
