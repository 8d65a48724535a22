/-
  Runs of a parse view: edits, requests, and what comes of each request.

  * `Session` is a buffer's rope and its view, with the requests that were made;
  * `requests_replay`: the mirror is the buffer's text, every request's edits lead from
    the text of the request before it to its own, and in order from its prior tree's.
-/
import Pmacs.Parse.View

namespace Pmacs.Parse

open Lib ParseView List Option

inductive ViewEvent where
  | edit (edit : Edit WfRope)
  | makeRequest
  | makeIsolatedRequest
  | markUnparsed
  /-- Install the bundle of a request, by the request's number. -/
  | install (number : ℕ) (isolated : Bool)
  | dropCurrent (always : Bool)

/-- A request, with the bytes that its edits inserted. -/
structure Made where
  request : ParseRequest
  inserted : List Bytes

def Made.edits (made : Made) : List (InputEdit × Bytes) := made.request.edits.zip made.inserted

/-- A buffer's rope and its view. `opened` is the text the view was made with, `installed`
    the number of the request whose bundle was installed last. -/
structure ViewSession where
  rope : WfRope
  view : ParseView
  opened : Bytes
  made : List Made
  installed : Option ℕ

namespace ViewSession

variable {event : ViewEvent} {s s' : ViewSession}

def start (rope : WfRope) (languageName : String) : ViewSession :=
  ⟨rope, .new rope languageName, rope.bytes, [], none⟩

def textOf (opened : Bytes) (made : List Made) : Bytes :=
  (made.getLast?.map fun m => m.request.source).getD opened

def step (s : ViewSession) : ViewEvent → ViewSession
  | .edit edit => { s with rope := edit.newRope, view := s.view.onEdit edit }
  | .makeRequest => { s with
      view := s.view.makeRequest.2
      made := s.made ++ [⟨s.view.makeRequest.1, s.view.pendingInserted⟩] }
  | .makeIsolatedRequest => { s with
      view := s.view.makeIsolatedRequest.2
      made := s.made ++ [⟨s.view.makeIsolatedRequest.1.1, s.view.makeIsolatedRequest.1.2⟩] }
  | .markUnparsed => { s with view := s.view.markUnparsed }
  | .install number isolated =>
    match s.made[number]? with
    | none => s
    | some m => { s with
        view := s.view.install ⟨m.request.source, m.request.languageName, isolated⟩
        installed := some number }
  | .dropCurrent always => { s with view := (s.view.dropCurrent always).2 }

/-- Edits are exact, and only a request's bundle is installed. -/
def Delivered (s : ViewSession) : ViewEvent → Prop
  | .edit edit => ParseView.Exact s.rope.bytes edit
  | .install number _ => number < s.made.length
  | _ => True

/-- The next request starts from no tree, or from the one of the last request made. -/
def Follows (s : ViewSession) : Prop :=
  s.view.priorTree = none ∨ s.installed.map (· + 1) = some s.made.length

/-- What may be delivered, where every request follows the last one. -/
def InOrder (s : ViewSession) : ViewEvent → Prop
  | .makeRequest => s.Follows
  | .makeIsolatedRequest => s.Follows
  | event => s.Delivered event

def Moves (ok : ViewSession → ViewEvent → Prop) (s s' : ViewSession) : Prop :=
  ∃ event, ok s event ∧ s' = s.step event

/-- The sessions that steps reach which `ok` allows. -/
def Reaches (ok : ViewSession → ViewEvent → Prop) (s s' : ViewSession) : Prop :=
  Relation.ReflTransGen (Moves ok) s s'

theorem InOrder.delivered (h : s.InOrder event) : s.Delivered event := by
  cases event with
  | edit | install => exact h
  | makeRequest | makeIsolatedRequest | markUnparsed | dropCurrent => trivial

variable {ok : ViewSession → ViewEvent → Prop}

theorem Reaches.move (h : Reaches ok s s') (hok : ok s' event) :
    Reaches ok s (s'.step event) := h.tail ⟨event, hok, rfl⟩

theorem Reaches.delivered (h : Reaches InOrder s s') : Reaches Delivered s s' := by
  induction h with
  | refl => exact .refl
  | tail _ hmove ih => obtain ⟨event, hok, rfl⟩ := hmove; exact ih.move hok.delivered

/-! ## Any order -/

/-- The view mirrors the buffer, from the text of the last request on, and the edits of
    every request lead from the text of the request before it to its own. -/
structure Kept (s : ViewSession) : Prop where
  mirrors : s.view.Mirrors (textOf s.opened s.made) s.rope.bytes
  edits : ∀ before m after, s.made = before ++ m :: after →
    replayAll (textOf s.opened before) m.edits = some m.request.source
  paired : ∀ m ∈ s.made, m.request.edits.length = m.inserted.length

theorem kept_start (rope : WfRope) (languageName : String) : (start rope languageName).Kept where
  mirrors := mirrors_new rope languageName
  edits := by intro before m after h; exact absurd h (by simp [start])
  paired := nofun

theorem textOf_append (opened : Bytes) (made : List Made) (m : Made) :
    textOf opened (made ++ [m]) = m.request.source := by
  simp [textOf]

theorem Kept.request (h : s.Kept) {m : Made}
    (hm : m = ⟨s.view.makeRequest.1, s.view.pendingInserted⟩) :
    ({ s with
        view := s.view.makeRequest.2
        made := s.made ++ [m] } : ViewSession).Kept where
  mirrors := by
    have hsource : m.request.source = s.rope.bytes := by rw [hm]; exact h.mirrors.source
    have hbase : textOf s.opened (s.made ++ [m]) = s.rope.bytes :=
      (textOf_append s.opened s.made m).trans hsource
    simp only [hbase]; exact h.mirrors.makeRequest
  edits := by
    intro before m' after hsplit
    rcases eq_nil_or_concat after with rfl | ⟨rest, last, rfl⟩
    · obtain ⟨rfl, hlast⟩ := append_inj' hsplit rfl; cases hlast; rw [hm]
      exact h.mirrors.replays.trans (congrArg some h.mirrors.source.symm)
    rw [concat_eq_append, ← cons_append, ← append_assoc] at hsplit
    exact h.edits before m' rest (append_inj' hsplit rfl).1
  paired := by
    intro m' hm'
    rcases mem_append.1 hm' with hold | hnew
    · exact h.paired m' hold
    · rw [mem_singleton.1 hnew, hm]; exact h.mirrors.paired

theorem Kept.step (h : s.Kept) (hok : s.Delivered event) : (s.step event).Kept := by
  cases event with
  | edit edit => exact ⟨h.mirrors.onEdit hok, h.edits, h.paired⟩
  | makeRequest => exact h.request rfl
  | makeIsolatedRequest =>
    have hstep : s.step .makeIsolatedRequest = { s with
        view := s.view.makeRequest.2
        made := s.made ++ [⟨s.view.makeRequest.1, s.view.pendingInserted⟩] } := rfl
    exact h.request rfl
  | markUnparsed => exact ⟨h.mirrors.markUnparsed, h.edits, h.paired⟩
  | install number isolated =>
    unfold ViewSession.step
    cases hm : s.made[number]? with
    | none => simp only [hm]; exact h
    | some m => simp only [hm]; exact ⟨h.mirrors.install _, h.edits, h.paired⟩
  | dropCurrent always => exact ⟨h.mirrors.dropCurrent always, h.edits, h.paired⟩

theorem opened_step (s : ViewSession) (event : ViewEvent) : (s.step event).opened = s.opened := by
  cases event with
  | install number isolated => simp only [ViewSession.step]; cases s.made[number]? <;> rfl
  | edit | makeRequest | makeIsolatedRequest | markUnparsed | dropCurrent => rfl

theorem opened_reaches (h : Reaches ok s s') : s'.opened = s.opened := by
  induction h with
  | refl => rfl
  | tail _ hmove ih => obtain ⟨event, _, rfl⟩ := hmove; rw [opened_step, ih]

theorem Kept.reaches (h : s.Kept) (hreach : Reaches Delivered s s') : s'.Kept := by
  induction hreach with
  | refl => exact h
  | tail _ hmove ih => obtain ⟨event, hok, rfl⟩ := hmove; exact ih.step hok

/-! ## Requests that follow one another -/

/-- The installed bundle is that of the request it was installed for, and every prior tree's
    text leads to its request's by the request's edits. -/
structure Ordered (s : ViewSession) : Prop where
  kept : s.Kept
  current : ∀ bundle, s.view.current = some bundle →
    ∃ number m, s.installed = some number ∧ s.made[number]? = some m ∧
      bundle.source = m.request.source
  prior : ∀ m ∈ s.made, ∀ tree, m.request.priorTree = some tree →
    replayAll tree.text m.edits = some m.request.source

theorem ordered_start (rope : WfRope) (languageName : String) :
    (start rope languageName).Ordered where
  kept := kept_start rope languageName
  current := nofun
  prior := nofun

theorem Ordered.request (h : s.Ordered) (hfollows : s.Follows) {m : Made}
    (hm : m = ⟨s.view.makeRequest.1, s.view.pendingInserted⟩) :
    ({ s with
        view := s.view.makeRequest.2
        made := s.made ++ [m] } : ViewSession).Ordered where
  kept := h.kept.request hm
  current := by
    intro bundle hbundle; obtain ⟨number, m', hinstalled, hget, hsource⟩ := h.current bundle hbundle
    refine ⟨number, m', hinstalled, ?_, hsource⟩; have hlt := (List.getElem?_eq_some_iff.1 hget).1
    exact (List.getElem?_append_left hlt).trans hget
  prior := by
    intro m' hm' tree htree
    rcases mem_append.1 hm' with hold | hnew
    · exact h.prior m' hold tree htree
    rw [mem_singleton.1 hnew, hm] at htree ⊢
    obtain ⟨_, bundle, hbundle, htext⟩ := priorTree_eq_some htree
    obtain ⟨number, last, hinstalled, hget, hsource⟩ := h.current bundle hbundle
    -- the tree is the last request's, whose text the pending edits lead from
    have hlast : textOf s.opened s.made = last.request.source := by
      rcases hfollows with hnone | hnumber
      · rw [show s.view.priorTree = some tree from htree] at hnone; cases hnone
      rw [hinstalled, map_some, some.injEq] at hnumber
      rw [textOf, getLast?_eq_getElem?, ← hnumber, Nat.add_sub_cancel, hget]; rfl
    rw [htext, hsource, ← hlast]
    exact h.kept.mirrors.replays.trans (congrArg some h.kept.mirrors.source.symm)

theorem Ordered.step (h : s.Ordered) (hok : s.InOrder event) : (s.step event).Ordered := by
  have hkept := h.kept.step hok.delivered
  cases event with
  | edit | markUnparsed => exact ⟨hkept, h.current, h.prior⟩
  | makeRequest => exact h.request hok rfl
  | makeIsolatedRequest =>
    have hstep : s.step .makeIsolatedRequest = { s with
        view := s.view.makeRequest.2
        made := s.made ++ [⟨s.view.makeRequest.1, s.view.pendingInserted⟩] } := rfl
    exact h.request hok rfl
  | install number isolated =>
    cases hm : s.made[number]? with
    | none => exact absurd (getElem?_eq_none_iff.1 hm) (not_le.2 hok)
    | some m =>
      have hstep : s.step (.install number isolated) = { s with
          view := s.view.install ⟨m.request.source, m.request.languageName, isolated⟩
          installed := some number } := by simp only [ViewSession.step, hm]
      rw [hstep] at hkept ⊢
      refine ⟨hkept, ?_, h.prior⟩; rintro bundle hbundle; cases hbundle
      exact ⟨number, m, rfl, hm, rfl⟩
  | dropCurrent always =>
    refine ⟨hkept, fun bundle hbundle => ?_, h.prior⟩
    rcases dropCurrent_cases s.view always with heq | heq
    · have hview : (s.step (.dropCurrent always)).view = s.view := heq; rw [hview] at hbundle
      exact h.current bundle hbundle
    have hview : (s.step (.dropCurrent always)).view = _ := heq; rw [hview] at hbundle
    cases hbundle

theorem Ordered.reaches (h : s.Ordered) (hreach : Reaches InOrder s s') : s'.Ordered := by
  induction hreach with
  | refl => exact h
  | tail _ hmove ih => obtain ⟨event, hok, rfl⟩ := hmove; exact ih.step hok

/-! ## The requests of a run -/

/-- **What a view's requests carry.** Whatever happens, the mirror is the buffer's text, the
    edits of every request lead from the text of the request before it to its own, and the
    next request carries no tree when it is cold. Where a request starts from a tree only if
    that is the last request's, its edits lead from the text of that tree to its own. -/
theorem requests_replay (rope : WfRope) (languageName : String) {s : ViewSession}
    (h : Reaches Delivered (start rope languageName) s) : s.view.source = s.rope.bytes ∧
      (∀ before m after, s.made = before ++ m :: after →
        replayAll (textOf rope.bytes before) m.edits = some m.request.source) ∧
      (s.view.coldNext = true → s.view.makeRequest.1.priorTree = none) ∧
      (Reaches InOrder (start rope languageName) s → ∀ m ∈ s.made, ∀ tree,
        m.request.priorTree = some tree → replayAll tree.text m.edits = some m.request.source) := by
  have hkept := (kept_start rope languageName).reaches h
  have hopened : s.opened = rope.bytes := opened_reaches h
  refine ⟨hkept.mirrors.source, ?_, ?_, ?_⟩
  · intro before m after hsplit; rw [← hopened]; exact hkept.edits before m after hsplit
  · intro hcold; simp [ParseView.makeRequest, ParseView.priorTree, hcold]
  · intro hordered; exact ((ordered_start rope languageName).reaches hordered).prior

/-! ## A request made while one is out -/

/-- An empty buffer, and two letters typed into it. -/
def emptySession : ViewSession := start (WfRope.fromBytes []) "rust"

def typeA : Edit WfRope := ⟨WfRope.fromBytes [97], ⟨0, 0⟩, 1, none⟩

def typeB : Edit WfRope := ⟨WfRope.fromBytes [97, 98], ⟨1, 1⟩, 1, none⟩

theorem exact_typeA : ParseView.Exact (WfRope.fromBytes []).bytes typeA := by
  have h := Describes.of_splice (l := ([] : Bytes)) (s := 0) (e := 0) [97] (le_refl 0) (le_refl 0)
  simpa [ParseView.Exact, typeA, splice] using h

theorem exact_typeB : ParseView.Exact (WfRope.fromBytes [97]).bytes typeB := by
  have h := Describes.of_splice (l := ([97] : Bytes)) (s := 1) (e := 1) [98] (le_refl 1) (le_refl 1)
  simpa [ParseView.Exact, typeB, splice] using h

/-- The empty text is parsed and installed, and a letter typed. -/
def parsedSession : ViewSession :=
  ((emptySession.step .makeRequest).step (.install 0 false)).step (.edit typeA)

theorem reaches_parsedSession : Reaches InOrder emptySession parsedSession := by
  have hasked : Reaches InOrder emptySession (emptySession.step .makeRequest) :=
    Reaches.move .refl (.inl rfl)
  have hinstalled : Reaches InOrder emptySession
      ((emptySession.step .makeRequest).step (.install 0 false)) := hasked.move one_pos
  exact hinstalled.move exact_typeA

/-- A second request, made in order, carries the first one's tree. -/
theorem requests_replay_parsed :
    (∀ m ∈ (parsedSession.step .makeRequest).made, ∀ tree, m.request.priorTree = some tree →
      replayAll tree.text m.edits = some m.request.source) ∧
      ((parsedSession.step .makeRequest).made.getLast?.map fun m => m.request.priorTree.isSome) =
        some true := by
  have h : Reaches InOrder emptySession (parsedSession.step .makeRequest) :=
    reaches_parsedSession.move (.inr rfl)
  exact ⟨(requests_replay _ _ h.delivered).2.2.2 h, rfl⟩

/-- **A request made while one is out** may carry a tree that its edits do not lead from,
    and a request without a tree may carry edits. -/
theorem requests_not_replay : (¬ ∀ s, Reaches Delivered emptySession s → ∀ m ∈ s.made, ∀ tree,
      m.request.priorTree = some tree → replayAll tree.text m.edits = some m.request.source) ∧
      ¬ ∀ s, Reaches Delivered emptySession s → ∀ m ∈ s.made, m.request.priorTree = none →
        m.request.edits = [] := by
  constructor
  · intro h
    -- the second letter is typed, and asked for, while the first one's request is out
    have hasked : Reaches Delivered emptySession (parsedSession.step .makeRequest) :=
      reaches_parsedSession.delivered.move trivial
    have htyped : Reaches Delivered emptySession
        ((parsedSession.step .makeRequest).step (.edit typeB)) := hasked.move exact_typeB
    have hreach : Reaches Delivered emptySession
        (((parsedSession.step .makeRequest).step (.edit typeB)).step .makeRequest) :=
      htyped.move trivial
    have hlast := h _ hreach _ (mem_append_right _ mem_cons_self) ⟨[]⟩ (by
      simp [parsedSession, emptySession, start, step, ParseView.new, ParseView.makeRequest,
        ParseView.install, ParseView.onEdit, priorTree, ParseTreeBundle.rootTree])
    have hnone : replayAll [] (Made.edits ⟨(((parsedSession.step .makeRequest).step
        (.edit typeB)).view.makeRequest.1),
        ((parsedSession.step .makeRequest).step (.edit typeB)).view.pendingInserted⟩) = none := by
      rfl
    rw [hnone] at hlast; cases hlast
  intro h
  have htyped : Reaches Delivered emptySession (emptySession.step (.edit typeA)) :=
    Reaches.move .refl exact_typeA
  have hreach : Reaches Delivered emptySession
      ((emptySession.step (.edit typeA)).step .makeRequest) := htyped.move trivial
  have hedits := h _ hreach _ mem_cons_self rfl; exact absurd hedits (cons_ne_nil _ _)

end ViewSession

end Pmacs.Parse
