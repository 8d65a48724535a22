/-
  Scoped keymaps and the key dispatcher (keymap_stack.rs).

  * `KeymapStack.resolve` asks the scopes in order; `resolve_eq`: the first scope that
    binds the sequence wins, and a scope that has it pending matters when none does;
  * `KeyDispatcher.dispatch` takes a chord, `typeAll` a sequence of them.
-/
import Pmacs.Key.Keymap
import Pmacs.Lib.Assoc

namespace Pmacs

open Lib List Option Branch

abbrev BufferId := ℕ

inductive Scope where
  | buffer (id : BufferId)
  | mode (name : String)
  | global
deriving DecidableEq, Repr

structure ResolvedBinding where
  binding : Binding
  scope : Scope
deriving DecidableEq, Repr

inductive StackResolution where
  | bound (resolved : ResolvedBinding)
  | pending
  | unbound
deriving DecidableEq, Repr

structure KeymapStack where
  global : Keymap
  modes : List (String × Keymap)
  buffers : Assoc BufferId Keymap

namespace KeymapStack

def new : KeymapStack := ⟨.new, [], ∅⟩

def bindGlobal (s : KeymapStack) (sequence : Sequence) (command : String) (source : SourceLocation) :
    Option (Except KeymapError Unit × KeymapStack) :=
  (s.global.bind sequence command source).map fun r => (r.1, { s with global := r.2 })

def bindBuffer (s : KeymapStack) (buffer : BufferId) (sequence : Sequence) (command : String)
    (source : SourceLocation) : Option (Except KeymapError Unit × KeymapStack) :=
  (((s.buffers.lookup buffer).getD .new).bind sequence command source).map fun r =>
    (r.1, { s with buffers := s.buffers.insert buffer r.2 })

/-- The loop over the active modes: the first that binds the sequence, or whether one
    has it pending. -/
def resolveModes (modes : List (String × Keymap)) (sequence : Sequence) :
    List String → Bool → ResolvedBinding ⊕ Bool
  | [], anyPending => .inr anyPending
  | name :: names, anyPending =>
    match modes.find? fun e => e.1 = name with
    | none => resolveModes modes sequence names anyPending
    | some (_, map) =>
      match map.lookup sequence with
      | .bound b => .inl ⟨b, .mode name⟩
      | .pending => resolveModes modes sequence names true
      | .unbound => resolveModes modes sequence names anyPending

/-- The buffer's keymap: a binding, or whether it has the sequence pending. -/
def resolveBuffer (s : KeymapStack) (sequence : Sequence) (activeBuffer : Option BufferId) :
    ResolvedBinding ⊕ Bool :=
  match activeBuffer with
  | none => .inr false
  | some id =>
    match s.buffers.lookup id with
    | none => .inr false
    | some map =>
      match map.lookup sequence with
      | .bound b => .inl ⟨b, .buffer id⟩
      | .pending => .inr true
      | .unbound => .inr false

def resolve (s : KeymapStack) (sequence : Sequence) (activeBuffer : Option BufferId)
    (activeModes : List String) : StackResolution :=
  match s.resolveBuffer sequence activeBuffer with
  | .inl resolved => .bound resolved
  | .inr anyPending =>
    match resolveModes s.modes sequence activeModes anyPending with
    | .inl resolved => .bound resolved
    | .inr anyPending =>
      match s.global.lookup sequence with
      | .bound b => .bound ⟨b, .global⟩
      | .pending => .pending
      | .unbound => if anyPending then .pending else .unbound

end KeymapStack

/-! ## The dispatcher -/

inductive Action where
  | run (command : String) (sequence : Sequence) (scope : Scope)
  | pending (sequence : Sequence)
  | unbound (sequence : Sequence)
deriving DecidableEq, Repr

structure KeyDispatcher where
  pending : Sequence

def lowercaseLast (sequence : Sequence) : Option Sequence :=
  match sequence.getLast? with
  | none => none
  | some last =>
    match last.code with
    | .char ch =>
      if 'A' ≤ ch ∧ ch ≤ 'Z' then
        some (sequence.dropLast ++ [.new (.char ch.toLower) last.modifiers])
      else none
    | _ => none

namespace KeyDispatcher

def new : KeyDispatcher := ⟨[]⟩

def reset (_ : KeyDispatcher) : KeyDispatcher := ⟨[]⟩

def dispatch (d : KeyDispatcher) (chord : Chord) (stack : KeymapStack)
    (activeBuffer : Option BufferId) (activeModes : List String) : Action × KeyDispatcher :=
  let pending := d.pending ++ [chord]
  match stack.resolve pending activeBuffer activeModes with
  | .bound rb => (.run rb.binding.command pending rb.scope, ⟨[]⟩)
  | .pending => (.pending pending, ⟨pending⟩)
  | .unbound =>
    match (if pending.length > 1 then lowercaseLast pending else none) with
    | none => (.unbound pending, ⟨[]⟩)
    | some lowered =>
      match stack.resolve lowered activeBuffer activeModes with
      | .bound rb => (.run rb.binding.command lowered rb.scope, ⟨[]⟩)
      | _ => (.unbound pending, ⟨[]⟩)

/-- Take chords one after the other; the actions, and the dispatcher after them. -/
def typeAll (stack : KeymapStack) (activeBuffer : Option BufferId) (activeModes : List String) :
    KeyDispatcher → Sequence → List Action × KeyDispatcher
  | d, [] => ([], d)
  | d, chord :: chords =>
    let step := d.dispatch chord stack activeBuffer activeModes
    let rest := typeAll stack activeBuffer activeModes step.2 chords
    (step.1 :: rest.1, rest.2)

end KeyDispatcher

/-! ## Scopes -/

variable {sequence : Sequence}

namespace KeymapStack

def scopes (s : KeymapStack) (activeBuffer : Option BufferId) (activeModes : List String) :
    List (Scope × Keymap) :=
  (match activeBuffer.bind fun id => (s.buffers.lookup id).map fun map => (Scope.buffer id, map) with
    | some scope => [scope]
    | none => []) ++
  activeModes.filterMap (fun name =>
    (s.modes.find? fun e => e.1 = name).map fun e => (Scope.mode name, e.2)) ++
  [(Scope.global, s.global)]

/-- What scopes make of a sequence: the first binding, or whether it is pending in one. -/
def firstBound (sequence : Sequence) : List (Scope × Keymap) → Bool → StackResolution
  | [], anyPending => if anyPending then .pending else .unbound
  | (scope, map) :: rest, anyPending =>
    match map.lookup sequence with
    | .bound b => .bound ⟨b, scope⟩
    | .pending => firstBound sequence rest true
    | .unbound => firstBound sequence rest anyPending

theorem firstBound_global (global : Keymap) {sequence : Sequence} {anyPending : Bool} :
    firstBound sequence [(Scope.global, global)] anyPending =
      match global.lookup sequence with
      | .bound b => .bound ⟨b, .global⟩
      | .pending => .pending
      | .unbound => if anyPending then .pending else .unbound := by
  rw [firstBound]
  cases global.lookup sequence <;> rfl

theorem firstBound_modes (modes : List (String × Keymap)) (sequence : Sequence)
    (names : List String)
    (rest : List (Scope × Keymap)) (anyPending : Bool) :
    firstBound sequence (names.filterMap (fun name =>
        (modes.find? fun e => e.1 = name).map fun e => (Scope.mode name, e.2)) ++ rest) anyPending =
      match resolveModes modes sequence names anyPending with
      | .inl resolved => .bound resolved
      | .inr anyPending => firstBound sequence rest anyPending := by
  induction names generalizing anyPending with
  | nil => rfl
  | cons name names ih =>
    rw [resolveModes, filterMap_cons]
    cases hfind : modes.find? fun e => decide (e.1 = name) with
    | none => exact ih anyPending
    | some e =>
      simp only [map_some, cons_append, firstBound]
      cases e.2.lookup sequence with
      | bound b => rfl
      | pending => exact ih true
      | unbound => exact ih anyPending

/-- **The resolver** takes the first scope that binds the sequence. -/
theorem resolve_eq (s : KeymapStack) (sequence : Sequence) (activeBuffer : Option BufferId)
    (activeModes : List String) : s.resolve sequence activeBuffer activeModes =
      firstBound sequence (s.scopes activeBuffer activeModes) false := by
  have hrest : ∀ anyPending, firstBound sequence (activeModes.filterMap (fun name =>
      (s.modes.find? fun e => e.1 = name).map fun e => (Scope.mode name, e.2)) ++
        [(Scope.global, s.global)]) anyPending =
      match resolveModes s.modes sequence activeModes anyPending with
      | .inl resolved => .bound resolved
      | .inr anyPending =>
        match s.global.lookup sequence with
        | .bound b => .bound ⟨b, .global⟩
        | .pending => .pending
        | .unbound => if anyPending then .pending else .unbound := by
    intro anyPending; rw [firstBound_modes]
    cases resolveModes s.modes sequence activeModes anyPending with
    | inl resolved => rfl
    | inr anyPending => exact firstBound_global s.global
  simp only [resolve, scopes, append_assoc, resolveBuffer]
  cases activeBuffer with
  | none => exact (hrest false).symm
  | some id =>
    simp only [bind_some]
    cases s.buffers.lookup id with
    | none => exact (hrest false).symm
    | some map =>
      simp only [map_some, singleton_append, firstBound]
      cases map.lookup sequence with
      | bound b => rfl
      | pending => exact (hrest true).symm
      | unbound => exact (hrest false).symm

/-- A scope binds a sequence, a prefix of it or an extension. -/
def Mentions (map : Keymap) (sequence : Sequence) : Prop :=
  ∃ t b, map.lookup t = .bound b ∧ (t <+: sequence ∨ sequence <+: t)

theorem firstBound_bound {before after : List (Scope × Keymap)} {scope : Scope} {map : Keymap}
    {b : Binding} (anyPending : Bool) (hbefore : ∀ e ∈ before, ∀ b, e.2.lookup sequence ≠ .bound b)
    (hmap : map.lookup sequence = .bound b) :
    firstBound sequence (before ++ (scope, map) :: after) anyPending = .bound ⟨b, scope⟩ := by
  induction before generalizing anyPending with
  | nil => simp [firstBound, hmap]
  | cons e before ih =>
    obtain ⟨scope', map'⟩ := e
    have hrest : ∀ e ∈ before, ∀ b, e.2.lookup sequence ≠ .bound b :=
      fun e he => hbefore e (mem_cons_of_mem _ he)
    have hfirst := hbefore (scope', map') mem_cons_self; rw [cons_append, firstBound]
    cases hlookup : map'.lookup sequence with
    | bound b => exact absurd hlookup (hfirst b)
    | pending => exact ih true hrest
    | unbound => exact ih anyPending hrest

theorem firstBound_pending {scopes : List (Scope × Keymap)}
    (hbound : ∀ e ∈ scopes, ∀ b, e.2.lookup sequence ≠ .bound b) (anyPending : Bool)
    (hpending : anyPending = true ∨ ∃ e ∈ scopes, e.2.lookup sequence = .pending) :
    firstBound sequence scopes anyPending = .pending := by
  induction scopes generalizing anyPending with
  | nil =>
    have htrue : anyPending = true := by simpa using hpending
    rw [firstBound, if_pos htrue]
  | cons e scopes ih =>
    obtain ⟨scope, map⟩ := e
    have hrest : ∀ e ∈ scopes, ∀ b, e.2.lookup sequence ≠ .bound b :=
      fun e he => hbound e (mem_cons_of_mem _ he)
    have hfirst := hbound (scope, map) mem_cons_self; rw [firstBound]
    cases hlookup : map.lookup sequence with
    | bound b => exact absurd hlookup (hfirst b)
    | pending => exact ih hrest true (.inl rfl)
    | unbound =>
      refine ih hrest anyPending ?_
      rcases hpending with htrue | ⟨e, he, hpending⟩
      · exact .inl htrue
      rcases mem_cons.1 he with rfl | he
      · rw [hlookup] at hpending; cases hpending
      · exact .inr ⟨e, he, hpending⟩

end KeymapStack

theorem Branch.lookup_prefix {s rest : Sequence} {branches : List (Chord × Branch)} {b : Binding}
    (hs : s ≠ []) (hrest : rest ≠ []) (h : lookup (s ++ rest) branches = .bound b) :
    lookup s branches = .pending := by
  induction s generalizing branches with
  | nil => exact absurd rfl hs
  | cons head tail ih =>
    rw [cons_append, lookup] at h; rw [lookup]
    have hne : (tail ++ rest).isEmpty = false := by
      cases tail <;> simp [hrest]
    cases hget : get? head branches with
    | none => simp [hget] at h
    | some branch =>
      cases branch with
      | leaf b' => simp [hget, hne] at h
      | submap sub =>
        simp only [hget, hne, Bool.false_eq_true, if_false] at h
        cases tail with
        | nil => rfl
        | cons next tail => exact ih (cons_ne_nil next tail) h

namespace KeyDispatcher

open KeymapStack

variable {stack : KeymapStack} {activeBuffer : Option BufferId} {activeModes : List String}

theorem typeAll_append (d : KeyDispatcher) (s t : Sequence) :
    typeAll stack activeBuffer activeModes d (s ++ t) =
      ((typeAll stack activeBuffer activeModes d s).1 ++ (typeAll stack activeBuffer activeModes
            (typeAll stack activeBuffer activeModes d s).2 t).1,
        (typeAll stack activeBuffer activeModes
          (typeAll stack activeBuffer activeModes d s).2 t).2) := by
  induction s generalizing d with
  | nil => rfl
  | cons chord s ih => simp [typeAll, ih]

theorem typeAll_pending {s : Sequence}
    (h : ∀ t, t ≠ [] → t <+: s → stack.resolve t activeBuffer activeModes = .pending) :
    typeAll stack activeBuffer activeModes new s = (s.inits.tail.map Action.pending, ⟨s⟩) := by
  induction s using List.reverseRecOn with
  | nil => rfl
  | append_singleton s chord ih =>
    have hs := ih fun t ht hts => h t ht (hts.trans (prefix_append s [chord]))
    have hall := h (s ++ [chord]) (by simp) (prefix_refl _); rw [typeAll_append, hs]
    have hinits : (s ++ [chord]).inits.tail = s.inits.tail ++ [s ++ [chord]] := by
      cases s <;> simp
    simp only [typeAll, dispatch, hall, hinits, map_append, map_cons, map_nil]

/-- What a chord leaves pending: nothing, after a command or an unbound sequence; else
    what the stack has pending. -/
theorem dispatch_pending (d : KeyDispatcher) (chord : Chord) :
    ((d.dispatch chord stack activeBuffer activeModes).2.pending = [] ∧
      ∀ s, (d.dispatch chord stack activeBuffer activeModes).1 ≠ .pending s) ∨
    (stack.resolve (d.dispatch chord stack activeBuffer activeModes).2.pending activeBuffer
        activeModes = .pending ∧ (d.dispatch chord stack activeBuffer activeModes).1 =
        .pending (d.dispatch chord stack activeBuffer activeModes).2.pending) := by
  simp only [dispatch]
  split
  · exact .inl ⟨rfl, by simp⟩
  · rename_i hpending; exact .inr ⟨hpending, rfl⟩
  split
  · exact .inl ⟨rfl, by simp⟩
  split
  · exact .inl ⟨rfl, by simp⟩
  · exact .inl ⟨rfl, by simp⟩

theorem typeAll_resolves {d : KeyDispatcher} (hd : d.pending = []) {s : Sequence} :
    ((typeAll stack activeBuffer activeModes d s).2.pending = [] ∨
      stack.resolve (typeAll stack activeBuffer activeModes d s).2.pending activeBuffer
        activeModes = .pending) ∧ ∀ last ∈ (typeAll stack activeBuffer activeModes d s).1.getLast?,
      (∀ t, last ≠ .pending t) → (typeAll stack activeBuffer activeModes d s).2.pending = [] := by
  induction s using List.reverseRecOn with
  | nil => exact ⟨.inl hd, nofun⟩
  | append_singleton s chord _ =>
    rw [typeAll_append]
    rcases @dispatch_pending stack activeBuffer activeModes
      (typeAll stack activeBuffer activeModes d s).2 chord with ⟨hempty, -⟩ | ⟨hpending, haction⟩
    · exact ⟨.inl hempty, fun _ _ _ => hempty⟩
    refine ⟨.inr hpending, fun last hlast hnot => ?_⟩
    simp only [typeAll, getLast?_append, getLast?_singleton, some_or, mem_def, some.injEq] at hlast
    exact absurd (hlast ▸ haction) (hnot _)

theorem typeAll_bound {s : Sequence} {rb : ResolvedBinding} (hs : s ≠ [])
    (hpending : ∀ t, t ≠ [] → t <+: s → t ≠ s → stack.resolve t activeBuffer activeModes = .pending)
    (hbound : stack.resolve s activeBuffer activeModes = .bound rb) :
    typeAll stack activeBuffer activeModes new s =
      (s.inits.tail.dropLast.map Action.pending ++ [.run rb.binding.command s rb.scope], new) := by
  obtain ⟨first, chord, rfl⟩ : ∃ first chord, s = first ++ [chord] :=
    ⟨s.dropLast, s.getLast hs, (dropLast_append_getLast hs).symm⟩
  have hfirst := @typeAll_pending stack activeBuffer activeModes first fun t ht hpre =>
      hpending t ht (hpre.trans (prefix_append first [chord])) fun heq => by
        have hlen := hpre.length_le; rw [heq, length_append, length_singleton] at hlen; omega
  have hinits : (first ++ [chord]).inits.tail.dropLast = first.inits.tail := by
    cases first <;> simp
  rw [typeAll_append, hfirst, hinits]
  simp only [typeAll, dispatch, hbound, new]

end KeyDispatcher

/-! ## A bound sequence -/

variable {t : Sequence}

namespace KeymapStack

/-- Whether one of the scopes binds a proper prefix of a sequence. -/
def Cuts (scopes : List (Scope × Keymap)) (sequence t : Sequence) : Prop :=
  t ≠ [] ∧ t <+: sequence ∧ t ≠ sequence ∧ ∃ e ∈ scopes, ∃ b, e.2.lookup t = .bound b

/-- The most specific of the scopes that bind a sequence, and its binding there. -/
def FirstBinds (scopes : List (Scope × Keymap)) (sequence : Sequence) (e : Scope × Keymap)
    (b : Binding) : Prop :=
  ∃ before after, scopes = before ++ e :: after ∧
    (∀ e ∈ before, ∀ b, e.2.lookup sequence ≠ .bound b) ∧ e.2.lookup sequence = .bound b

theorem exists_firstBinds {scopes : List (Scope × Keymap)}
    (h : ∃ e ∈ scopes, ∃ b, e.2.lookup sequence = .bound b) :
    ∃ e b, FirstBinds scopes sequence e b := by
  induction scopes with
  | nil => obtain ⟨e, he, -⟩ := h; cases he
  | cons head scopes ih =>
    by_cases hhead : ∃ b, head.2.lookup sequence = .bound b
    · obtain ⟨b, hb⟩ := hhead; exact ⟨head, b, [], scopes, rfl, nofun, hb⟩
    have hrest : ∃ e ∈ scopes, ∃ b, e.2.lookup sequence = .bound b := by
      obtain ⟨e, he, b, hb⟩ := h
      rcases mem_cons.1 he with rfl | he
      · exact absurd ⟨b, hb⟩ hhead
      · exact ⟨e, he, b, hb⟩
    obtain ⟨e, b, before, after, rfl, hbefore, hb⟩ := ih hrest
    refine ⟨e, b, head :: before, after, rfl, fun e he b hb => ?_, hb⟩
    rcases mem_cons.1 he with rfl | he
    · exact hhead ⟨b, hb⟩
    · exact hbefore e he b hb

section Typed

variable {stack : KeymapStack} {activeBuffer : Option BufferId} {activeModes : List String}
  {s : Sequence} {before after : List (Scope × Keymap)} {scope : Scope} {map : Keymap} {b : Binding}

theorem ne_nil_of_bound (hmap : map.lookup s = .bound b) : s ≠ [] := by
  rintro rfl
  cases hmap

theorem not_bound_of_not_mentions (hbefore : ∀ e ∈ before, ¬ Mentions e.2 s)
    (hpre : t <+: s) : ∀ e ∈ before, ∀ b, e.2.lookup t ≠ .bound b :=
  fun e he b hb => hbefore e he ⟨t, b, hb, .inl hpre⟩

variable (hscopes : stack.scopes activeBuffer activeModes = before ++ (scope, map) :: after)
include hscopes

theorem resolve_self (hbefore : ∀ e ∈ before, ¬ Mentions e.2 s) (hmap : map.lookup s = .bound b) :
    stack.resolve s activeBuffer activeModes = .bound ⟨b, scope⟩ := by
  rw [resolve_eq, hscopes]
  exact firstBound_bound false (not_bound_of_not_mentions hbefore (prefix_refl s)) hmap

/-- A proper prefix that no less specific scope binds is pending. -/
theorem resolve_prefix (hbefore : ∀ e ∈ before, ¬ Mentions e.2 s) (hmap : map.lookup s = .bound b)
    (ht : t ≠ []) (hpre : t <+: s) (hne : t ≠ s) (hcut : ¬ Cuts after s t) :
    stack.resolve t activeBuffer activeModes = .pending := by
  obtain ⟨rest, rfl⟩ := hpre
  have hrest : rest ≠ [] := by
    rintro rfl; exact hne (append_nil t).symm
  have hown : map.lookup t = .pending := lookup_prefix ht hrest hmap
  rw [resolve_eq, hscopes]
  refine firstBound_pending ?_ false (.inr ⟨(scope, map), by simp, hown⟩)
  intro e he b' hb'
  rcases mem_append.1 he with he | he
  · exact not_bound_of_not_mentions hbefore (prefix_append t rest) e he b' hb'
  rcases mem_cons.1 he with rfl | he
  · rw [hown] at hb'; cases hb'
  · exact hcut ⟨ht, prefix_append t rest, hne, e, he, b', hb'⟩

/-- A proper prefix that a less specific scope binds fires there. -/
theorem resolve_cut (hbefore : ∀ e ∈ before, ¬ Mentions e.2 s) (hmap : map.lookup s = .bound b)
    (hcut : Cuts after s t) : ∃ e b', FirstBinds after t e b' ∧
      stack.resolve t activeBuffer activeModes = .bound ⟨b', e.1⟩ := by
  obtain ⟨ht, ⟨rest, rfl⟩, hne, hbound⟩ := hcut
  obtain ⟨e, b', first, others, rfl, hfirst, hb'⟩ := exists_firstBinds hbound
  have hrest : rest ≠ [] := by
    rintro rfl; exact hne (append_nil t).symm
  have hown : map.lookup t = .pending := lookup_prefix ht hrest hmap
  refine ⟨e, b', ⟨first, others, rfl, hfirst, hb'⟩, ?_⟩
  rw [resolve_eq, hscopes, ← cons_append, ← append_assoc]
  refine firstBound_bound false (fun e' he' b'' hb'' => ?_) hb'
  rcases mem_append.1 he' with he' | he'
  · exact not_bound_of_not_mentions hbefore (prefix_append t rest) e' he' b'' hb''
  rcases mem_cons.1 he' with rfl | he'
  · rw [hown] at hb''; cases hb''
  · exact hfirst e' he' b'' hb''

end Typed

end KeymapStack

open KeymapStack KeyDispatcher

/-- What typing a sequence into a reset dispatcher comes to: its proper prefixes are
    pending, then one command runs. -/
def Fires (stack : KeymapStack) (activeBuffer : Option BufferId) (activeModes : List String)
    (d : KeyDispatcher) (s : Sequence) (command : String) (scope : Scope) : Prop :=
  typeAll stack activeBuffer activeModes d.reset s =
    (s.inits.tail.dropLast.map Action.pending ++ [.run command s scope], KeyDispatcher.new)

theorem not_fires_of_fires_prefix {stack : KeymapStack} {activeBuffer : Option BufferId}
    {activeModes : List String} {d : KeyDispatcher} {s : Sequence} {command command' : String}
    {scope scope' : Scope} (hpre : t <+: s) (hne : t ≠ s)
    (ht : Fires stack activeBuffer activeModes d t command' scope') :
    ¬ Fires stack activeBuffer activeModes d s command scope := by
  intro hs
  obtain ⟨rest, rfl⟩ := hpre
  obtain ⟨chord, rest, rfl⟩ : ∃ chord rest', rest = chord :: rest' := by
    cases rest with
    | nil => exact absurd (append_nil t).symm hne
    | cons chord rest => exact ⟨chord, rest, rfl⟩
  unfold Fires at ht hs
  rw [typeAll_append, ht] at hs
  -- but the last, every action of the whole sequence is a pending one
  have hactions := congrArg (fun r => r.1.dropLast) hs
  simp only [typeAll, dropLast_append_cons, dropLast_singleton, append_nil] at hactions
  have hrun : Action.run command' t scope' ∈ (t ++ chord :: rest).inits.tail.dropLast.map
      Action.pending := by rw [← hactions]; simp
  obtain ⟨_, _, heq⟩ := mem_map.1 hrun
  cases heq

theorem exists_shortest_cut {scopes : List (Scope × Keymap)} {s : Sequence} (h : Cuts scopes s t) :
    ∃ t, Cuts scopes s t ∧ ∀ t', Cuts scopes s t' → t.length ≤ t'.length := by
  classical
  have hex : ∃ n, ∃ t, Cuts scopes s t ∧ t.length = n := ⟨t.length, t, h, rfl⟩
  obtain ⟨shortest, hcut, hlen⟩ := Nat.find_spec hex
  exact ⟨shortest, hcut, fun t' hcut' => hlen ▸ Nat.find_min' hex ⟨t', hcut', rfl⟩⟩

/-- **Typing a bound sequence** runs its command unless a less specific scope binds a
    proper prefix, and then the shortest such prefix runs the binding of the most specific of
    them; the pending keys are always pending in the stack. -/
theorem type_bound_sequence (stack : KeymapStack) (activeBuffer : Option BufferId)
    (activeModes : List String) (d : KeyDispatcher) : (∀ s before scope map after b,
      stack.scopes activeBuffer activeModes = before ++ (scope, map) :: after →
      (∀ e ∈ before, ¬ Mentions e.2 s) → map.lookup s = .bound b →
      (Fires stack activeBuffer activeModes d s b.command scope ↔ ∀ t, ¬ Cuts after s t) ∧
      ∀ t, Cuts after s t → (∀ t', Cuts after s t' → t.length ≤ t'.length) →
        ∃ e b', FirstBinds after t e b' ∧
          Fires stack activeBuffer activeModes d t b'.command e.1) ∧
    ∀ s, ((typeAll stack activeBuffer activeModes d.reset s).2.pending = [] ∨
        stack.resolve (typeAll stack activeBuffer activeModes d.reset s).2.pending activeBuffer
          activeModes = .pending) ∧
      ∀ last ∈ (typeAll stack activeBuffer activeModes d.reset s).1.getLast?,
        (∀ t, last ≠ .pending t) →
          (typeAll stack activeBuffer activeModes d.reset s).2.pending = [] := by
  refine ⟨fun s before scope map after b hscopes hbefore hmap => ?_, fun s => typeAll_resolves rfl⟩
  have hcutFires : ∀ t, Cuts after s t → (∀ t', Cuts after s t' → t.length ≤ t'.length) →
      ∃ e b', FirstBinds after t e b' ∧
        Fires stack activeBuffer activeModes d t b'.command e.1 := by
    intro t hcut hmin; obtain ⟨e, b', hfirst, hbound⟩ := resolve_cut hscopes hbefore hmap hcut
    refine ⟨e, b', hfirst, typeAll_bound hcut.1 (fun t' ht' hpre hne => ?_) hbound⟩
    have hshorter : t'.length < t.length :=
      lt_of_le_of_ne hpre.length_le fun hlen => hne (hpre.eq_of_length hlen)
    have hwhole : t' ≠ s := by
      rintro rfl; exact absurd hcut.2.1.length_le (by omega)
    exact resolve_prefix hscopes hbefore hmap ht' (hpre.trans hcut.2.1) hwhole fun hcut' =>
      absurd (hmin t' hcut') (by omega)
  refine ⟨⟨fun hfires t hcut => ?_, fun hnone => ?_⟩, hcutFires⟩
  · obtain ⟨shortest, hshortest, hmin⟩ := exists_shortest_cut hcut
    obtain ⟨e, b', -, hfirst⟩ := hcutFires shortest hshortest hmin
    exact not_fires_of_fires_prefix hshortest.2.1 hshortest.2.2.1 hfirst hfires
  exact typeAll_bound (ne_nil_of_bound hmap)
    (fun t ht hpre hne => resolve_prefix hscopes hbefore hmap ht hpre hne (hnone t))
    (resolve_self hscopes hbefore hmap)

/-- `x f` in the keymap of buffer 1. -/
def bufferFind : KeymapStack :=
  match KeymapStack.new.bindBuffer 1 [.plain (.char 'x'), .plain (.char 'f')] "find-file"
    ⟨"init", 1⟩ with
  | some (_, stack) => stack
  | none => .new

/-- The same, and `x` in the global keymap. -/
def globalCut : KeymapStack :=
  match bufferFind.bindGlobal [.plain (.char 'x')] "cut" ⟨"init", 2⟩ with
  | some (_, stack) => stack
  | none => .new

/-- Typing `x f` where buffer 1 binds it. -/
theorem type_bound_sequence_find :
    Fires bufferFind (some 1) [] .new [.plain (.char 'x'), .plain (.char 'f')] "find-file"
      (.buffer 1) := by
  have hglobal : ∀ t, ¬ Cuts [(Scope.global, Keymap.new)]
      [.plain (.char 'x'), .plain (.char 'f')] t := by
    rintro t ⟨ht, -, -, e, he, b, hb⟩; cases mem_singleton.1 he
    cases t with
    | nil => exact ht rfl
    | cons chord t => cases hb
  exact (((type_bound_sequence bufferFind (some 1) [] .new).1
    [.plain (.char 'x'), .plain (.char 'f')] [] (.buffer 1) _ [(Scope.global, Keymap.new)]
    ⟨"find-file", ⟨"init", 1⟩⟩ rfl nofun rfl).1).2 hglobal

/-- Buffer 1 binds `x f`, and the first key already runs the global command. -/
theorem global_fires_in_buffer_sequence :
    ∃ map, globalCut.scopes (some 1) [] = [(.buffer 1, map), (.global, globalCut.global)] ∧
      (map.lookup [.plain (.char 'x'), .plain (.char 'f')] = .bound ⟨"find-file", ⟨"init", 1⟩⟩) ∧
      (typeAll globalCut (some 1) [] .new [.plain (.char 'x'), .plain (.char 'f')]).1 =
        [.run "cut" [.plain (.char 'x')] .global, .unbound [.plain (.char 'f')]] :=
  ⟨_, rfl, rfl, rfl⟩

end Pmacs
