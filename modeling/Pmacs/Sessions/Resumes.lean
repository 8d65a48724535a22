/-
  What an attach does (daemon.rs, handle_session_established).

  * `beginAttach_daemon`: the view taken or built, and the token minted.
  * `Lost`: an attach that leaves no session also leaves no view, be it the one retained.
  * `Resumed`: an attach whose session is registered has its view under its new token.
-/
import Pmacs.Sessions.Places

namespace Pmacs.Sessions

open Lib AList Function List Option

namespace Daemon

def without (d : Daemon) : Option SessionToken → Custody Place ViewId
  | some token => d.custody.release (.retained token)
  | none => d.custody

def resumedId (d : Daemon) (resume : Option SessionToken) : ViewId :=
  (resume.bind fun token => d.custody (.retained token)).getD d.made

/-! ### An attach -/

section
variable (d : Daemon) (id : FrontendId) (state : SessionState) (size : CellSize)
  (resume : Option SessionToken)

def retainedWithout : Option SessionToken → Assoc SessionToken (RetainedView FrontendView)
  | some token => d.registry.retained.erase token
  | none => d.registry.retained

theorem beginAttach_daemon : (d.beginAttach id state resume).daemon =
    { d with
      registry := { d.registry with retained := d.retainedWithout resume }
      views := d.views.insert id (d.beginAttach id state resume).view
      minted := if state.mintsToken then d.minted + 1 else d.minted
      made := if (d.takePresented resume).2.isSome then d.made else d.made + 1 } := by
  have htake : (d.takePresented resume).1 =
      { d with registry := { d.registry with retained := d.retainedWithout resume } } := by
    cases resume <;> rfl
  unfold beginAttach mintFor
  generalize d.takePresented resume = taken at *
  obtain ⟨d', retained⟩ := taken
  subst htake
  cases retained <;> cases state.mintsToken <;> rfl

theorem beginAttach_sessions :
    (d.beginAttach id state resume).daemon.registry.sessionState = d.registry.sessionState := by
  rw [beginAttach_daemon]
  rfl

theorem beginAttach_retained :
    (d.beginAttach id state resume).daemon.registry.retained = d.retainedWithout resume := by
  rw [beginAttach_daemon]

theorem beginAttach_past : (d.beginAttach id state resume).daemon.registered = d.registered ∧
      (d.beginAttach id state resume).daemon.hooks = d.hooks ∧
      (d.beginAttach id state resume).daemon.ended = d.ended ∧
      (d.beginAttach id state resume).daemon.names = d.names := by
  rw [beginAttach_daemon]
  exact ⟨rfl, rfl, rfl, rfl⟩

theorem beginAttach_token : (d.beginAttach id state resume).state.token =
    if state.mintsToken then some d.minted else none := by
  have hminted : (d.takePresented resume).1.minted = d.minted := by cases resume <;> rfl
  unfold beginAttach mintFor
  generalize d.takePresented resume = taken at *
  obtain ⟨d', retained⟩ := taken
  rw [← hminted]
  cases state.mintsToken <;> rfl

theorem taken_id : (d.takePresented resume).2.map (·.id) =
    resume.bind fun token => d.custody (.retained token) := by
  cases resume with
  | none => rfl
  | some token =>
    rw [Option.bind_some, custody, takePresented, SessionRegistry.takeRetained, Option.map_map]; rfl

theorem beginAttach_view : (d.beginAttach id state resume).view.id = d.resumedId resume := by
  have hmade : (d.takePresented resume).1.made = d.made := by cases resume <;> rfl
  unfold resumedId
  rw [← taken_id, ← hmade]
  unfold beginAttach mintFor
  generalize d.takePresented resume = taken at *
  obtain ⟨d', retained⟩ := taken
  cases retained <;> cases state.mintsToken <;> rfl

/-- Where no session is at `id`, a view registered there is not yet in a place. -/
theorem custody_begin (hid : d.registry.sessionState id = none) {d' : Daemon}
    (hs : d'.registry.sessionState = d.registry.sessionState)
    (hr : d'.registry.retained = d.retainedWithout resume)
    (hv : ∀ j, j ≠ id → (d'.views.lookup j).map (·.id) = (d.views.lookup j).map (·.id)) :
    d'.custody = d.without resume := by
  funext p
  cases p with
  | session j =>
    have hwithout : d.without resume (.session j) = d.custody (.session j) := by
      cases resume <;> simp [without, Custody.release]
    rw [hwithout, custody, custody, hs]
    by_cases hj : j = id
    · subst hj; rw [hid]; rfl
    · rw [hv j hj]
  | retained token =>
    rw [custody, hr]
    cases resume with
    | none => rfl
    | some t =>
      by_cases ht : token = t
      · subst ht; simp [retainedWithout, without, Custody.release]
      · simp [retainedWithout, without, Custody.release, ht, custody]

theorem handleSessionEstablished_live {holder : FrontendId} {bootstrap : Bootstrap}
    (h : resume.bind d.registry.sessionHolding = some holder) :
    d.handleSessionEstablished id state size resume bootstrap = (d, none) := by
  unfold handleSessionEstablished
  rw [h]

theorem handleSessionEstablished_none (bootstrap : Bootstrap)
    (h : resume.bind d.registry.sessionHolding = none) :
    d.handleSessionEstablished id state size resume bootstrap =
      let s := d.beginAttach id state resume
      match bootstrap with
      | .failed => ({ s.daemon with views := s.daemon.views.erase id }, none)
      | .unsent => ((s.daemon.register id s.state size).cleanupProvisionalSession id, none)
      | .written =>
        ((s.daemon.register id s.state size).install id s.state.token s.view.id,
          s.state.token) := by
  unfold handleSessionEstablished
  generalize resume.bind d.registry.sessionHolding = held at h ⊢
  subst h; rfl

end
section
variable {d : Daemon} {id : FrontendId}

/-! ### Attaches -/

/-- An attach that leaves no session: the view retained for its token, if one was, is lost. -/
structure Lost (d d' : Daemon) (resume : Option SessionToken) : Prop where
  sessions : d'.registry.sessionState = d.registry.sessionState
  custody : d'.custody = d.without resume
  views : ∀ j, d'.views.lookup j = none ↔ d.views.lookup j = none
  made : d.made ≤ d'.made
  minted : d.minted ≤ d'.minted
  hooks : d'.hooks = d.hooks
  ended : d'.ended = d.ended
  names : d'.names = d.names

theorem without_within (d : Daemon) (resume : Option SessionToken) :
    Custody.Within (d.without resume) d.custody := by
  cases resume with
  | none => exact fun _ _ h => h
  | some token => exact Custody.release_within _ _

variable {token : SessionToken}

namespace Lost

variable {d' : Daemon} {resume : Option SessionToken}

theorem placeToken (h : Lost d d' resume) : d'.placeToken = d.placeToken := by
  funext p
  cases p with
  | session id => simp only [Daemon.placeToken, h.sessions]
  | retained token => rfl

variable (h : Lost d d' resume)
include h

theorem whole (hw : d.Whole) (hr : ∀ j ∈ d.registered, j ∈ d'.registered) :
    d'.Whole where
  registered j hj := hr j (hw.registered j (h.sessions ▸ hj))
  hooked j hj := hr j (hw.hooked j (h.hooks ▸ hj))
  views j := by rw [h.views, hw.views, h.sessions]

theorem kept (hd : d.Kept) : d'.Kept :=
  hd.within (h.custody.symm ▸ without_within d resume) (fun _ _ _ => by rw [h.placeToken]) h.made
    h.minted h.names fun _ hv => .inl (h.ended ▸ hv)

theorem under {v : ViewId} (hv : d.Under token v) :
    d'.Under token v ∨ resume = some token ∧ d.custody (.retained token) = some v := by
  obtain ⟨p, hp, hpt⟩ := hv
  cases resume with
  | none => exact .inl ⟨p, h.custody.symm ▸ hp, h.placeToken.symm ▸ hpt⟩
  | some t =>
    by_cases hpp : p = .retained t
    · subst hpp; cases hpt; exact .inr ⟨rfl, hp⟩
    refine .inl ⟨p, ?_, h.placeToken.symm ▸ hpt⟩; rw [h.custody]
    exact Custody.release_eq_some.2 ⟨hpp, hp⟩

end Lost

section
variable (d id) (state : SessionState) (size : CellSize) (resume : Option SessionToken)

theorem made_le_beginAttach : d.made ≤ (d.beginAttach id state resume).daemon.made := by
  rw [beginAttach_daemon]
  dsimp only
  split
  · exact Nat.le_refl _
  · exact Nat.le_succ _

theorem minted_le_beginAttach : d.minted ≤ (d.beginAttach id state resume).daemon.minted := by
  rw [beginAttach_daemon]
  dsimp only
  split
  · exact Nat.le_succ _
  · exact Nat.le_refl _

variable {d id resume}

theorem no_session (hw : d.Whole) (hid : id ∉ d.registered) :
    d.registry.sessionState id = none := by
  by_contra h
  exact hid (hw.registered id h)

theorem beginAttach_views (j : FrontendId) (hj : j ≠ id) :
    (d.beginAttach id state resume).daemon.views.lookup j = d.views.lookup j := by
  rw [beginAttach_daemon]
  exact lookup_insert_ne hj

/-- A daemon with the view of an attach gone from `id`, and no session there. -/
theorem lost_of (hw : d.Whole) (hid : id ∉ d.registered) {d' : Daemon}
    (hs : d'.registry.sessionState = d.registry.sessionState)
    (hr : d'.registry.retained = d.retainedWithout resume) (hgone : d'.views.lookup id = none)
    (hv : ∀ j, j ≠ id → (d'.views.lookup j).map (·.id) =
      ((d.beginAttach id state resume).daemon.views.lookup j).map (·.id))
    (hmade : d'.made = (d.beginAttach id state resume).daemon.made)
    (hminted : d'.minted = (d.beginAttach id state resume).daemon.minted)
    (hhooks : d'.hooks = d.hooks) (hended : d'.ended = d.ended) (hnames : d'.names = d.names) :
    Lost d d' resume := by
  have hnone := no_session hw hid
  have hviews : ∀ j, j ≠ id →
      (d'.views.lookup j).map (·.id) = (d.views.lookup j).map (·.id) := by
    intro j hj; rw [hv j hj, beginAttach_views state j hj]
  refine ⟨hs, custody_begin d id resume hnone hs hr hviews, fun j => ?_,
    hmade ▸ made_le_beginAttach d id state resume,
    hminted ▸ minted_le_beginAttach d id state resume, hhooks, hended, hnames⟩
  by_cases hj : j = id
  · subst hj; rw [hgone, (hw.views j).2 hnone]
  · rw [← map_eq_none_iff (f := (·.id)), hviews j hj, map_eq_none_iff]

theorem lost_failed (hw : d.Whole) (hid : id ∉ d.registered)
    (hlive : resume.bind d.registry.sessionHolding = none) :
    Lost d (d.handleSessionEstablished id state size resume .failed).1 resume := by
  rw [handleSessionEstablished_none _ _ _ _ _ _ hlive]
  obtain ⟨_, hhooks, hended, hnames⟩ := beginAttach_past d id state resume
  refine lost_of state hw hid (beginAttach_sessions d id state resume)
    (beginAttach_retained d id state resume) (lookup_erase _ _) ?_ rfl rfl hhooks hended hnames
  rintro j hj
  dsimp only
  rw [lookup_erase_ne hj]

/-- What is registered, and what is set beside it: the same daemon, with the session. -/
theorem register_same (id : FrontendId) (d : Daemon) : Same { d with
      registry := d.registry.registerSession id state
      registered := id :: d.registered } (d.register id state size) := by
  refine Same.trans ?_ (syncAttachSize_same _ state size)
  constructor <;> simp

theorem lost_unsent (hw : d.Whole) (hid : id ∉ d.registered)
    (hlive : resume.bind d.registry.sessionHolding = none) :
    Lost d (d.handleSessionEstablished id state size resume .unsent).1 resume := by
  rw [handleSessionEstablished_none _ _ _ _ _ _ hlive]
  dsimp only
  have hsame := register_same (d.beginAttach id state resume).state size id
    (d.beginAttach id state resume).daemon
  obtain ⟨_, hhooks, hended, hnames⟩ := beginAttach_past d id state resume
  refine lost_of state hw hid ?_ ?_ (lookup_erase _ _) ?_ hsame.made hsame.minted
    (hsame.hooks.trans hhooks) (hsame.ended.trans hended) (hsame.names.trans hnames)
  · funext j
    by_cases hj : j = id
    · subst hj; simp [cleanupProvisionalSession, no_session hw hid]
    · simp [cleanupProvisionalSession, hj, hsame.sessions, beginAttach_sessions]
  · simp only [cleanupProvisionalSession, SessionRegistry.retained_unregisterSession,
      SessionRegistry.retained_shutStream, hsame.retained]
    exact beginAttach_retained d id state resume
  · rintro j hj; simp only [cleanupProvisionalSession]; rw [lookup_erase_ne hj, hsame.views]

/-- An attach whose session is registered, with its view and its token. -/
structure Resumed (d d' : Daemon) (id : FrontendId) (state : SessionState)
    (resume : Option SessionToken) : Prop where
  begun : ∃ d₁, Lost d d₁ resume ∧ d₁.minted = d'.minted ∧ d₁.made = d'.made
  session : ∀ j, d'.registry.sessionState j =
    if j = id then some (d.beginAttach id state resume).state else d.registry.sessionState j
  custody : d'.custody = (d.without resume).put (.session id) (d.resumedId resume)
  views : ∀ j, d'.views.lookup j = none ↔ j ≠ id ∧ d.views.lookup j = none
  registered : d'.registered = id :: d.registered
  hooks : d'.hooks = d.hooks
  ended : d'.ended = d.ended
  names : d'.names =
    nameView d.names (d.beginAttach id state resume).state.token (d.resumedId resume)
  made : d'.made = (d.beginAttach id state resume).daemon.made
  minted : d'.minted = (d.beginAttach id state resume).daemon.minted

theorem resumed_written (hw : d.Whole) (hid : id ∉ d.registered)
    (hlive : resume.bind d.registry.sessionHolding = none) :
    Resumed d (d.handleSessionEstablished id state size resume .written).1 id state resume := by
  have hlost := lost_failed state size hw hid hlive
  rw [handleSessionEstablished_none _ _ _ _ _ _ hlive] at hlost ⊢
  dsimp only at hlost ⊢
  have hview := beginAttach_view d id state resume
  have hviewAt : (d.beginAttach id state resume).daemon.views.lookup id =
      some (d.beginAttach id state resume).view := by rw [beginAttach_daemon]; exact lookup_insert _
  have hsame := register_same (d.beginAttach id state resume).state size id
    (d.beginAttach id state resume).daemon
  obtain ⟨hreg, hhooks, hended, hnames⟩ := beginAttach_past d id state resume
  have hsess : ∀ j, ((d.beginAttach id state resume).daemon.register id
      (d.beginAttach id state resume).state size).registry.sessionState j =
        if j = id then some (d.beginAttach id state resume).state
        else d.registry.sessionState j := by
    intro j; rw [hsame.sessions, SessionRegistry.sessionState_registerSession, beginAttach_sessions]
  have hviews : ∀ j, (((d.beginAttach id state resume).daemon.register id
      (d.beginAttach id state resume).state size).views.lookup j).map (·.id) =
        if j = id then some (d.resumedId resume) else (d.views.lookup j).map (·.id) := by
    intro j; rw [hsame.views]
    by_cases hj : j = id
    · subst hj; rw [if_pos rfl, hviewAt, map_some, hview]
    · rw [if_neg hj, beginAttach_views state j hj]
  refine ⟨⟨_, hlost, hsame.minted.symm, hsame.made.symm⟩, ?_, ?_, ?_, ?_,
    hsame.hooks.trans hhooks, hsame.ended.trans hended, ?_, hsame.made, hsame.minted⟩
  · rintro j; simp [install, hsess]
  · funext p; rw [← hlost.custody]
    cases p with
    | session j =>
      simp only [Daemon.custody, install, SessionRegistry.sessionState_installStream, hsess, hviews]
      by_cases hj : j = id
      · subst hj; simp [Custody.put]
      have hp : Place.session j ≠ Place.session id := fun h => hj (Place.session.inj h)
      simp only [if_neg hj, Custody.put, update_of_ne hp, Daemon.custody,
        lookup_erase_ne hj, beginAttach_views state j hj, beginAttach_sessions]
    | retained token =>
      simp only [Daemon.custody, install, SessionRegistry.retained_installStream, hsame.retained,
        Custody.put]
      rfl
  · rintro j; rw [← map_eq_none_iff (f := (·.id))]; simp only [install, hviews]
    by_cases hj : j = id
    · simp [hj]
    · simp [hj]
  · simp only [install, hsame.registered, hreg]
  · simp only [install, hsame.names, hnames, hview]

theorem resumedId_lt (hd : d.Kept) :
    d.resumedId resume < (d.beginAttach id state resume).daemon.made := by
  rw [beginAttach_daemon]
  dsimp only
  have htaken := taken_id d resume
  unfold resumedId
  rw [← htaken]
  cases hview : (d.takePresented resume).2 with
  | none => exact Nat.lt_succ_self _
  | some view =>
    rw [hview, map_some] at htaken; obtain ⟨token, rfl, hplace⟩ := bind_eq_some_iff.1 htaken.symm
    exact (hd.inPlace _ _ hplace).1

/-- A view that no token names yet, or the one the token presented names. -/
theorem resumedId_free (hd : d.Kept) : ¬ (d.without resume).Held (d.resumedId resume) := by
  unfold resumedId
  rintro ⟨p, hp⟩
  cases hres : resume.bind fun token => d.custody (.retained token) with
  | none => rw [hres] at hp; exact Nat.lt_irrefl _ (hd.inPlace p _ (without_within d resume hp)).1
  | some v =>
    rw [hres] at hp; obtain ⟨token, rfl, hplace⟩ := bind_eq_some_iff.1 hres
    exact hd.single.not_held_release hplace ⟨p, hp⟩

namespace Resumed

variable {d' : Daemon}

section
variable (h : Resumed d d' id state resume)
include h

theorem whole (hw : d.Whole) : d'.Whole where
  registered j hj := by
    rw [h.registered]; rw [h.session] at hj
    by_cases hji : j = id
    · exact hji ▸ mem_cons_self
    · rw [if_neg hji] at hj; exact mem_cons_of_mem _ (hw.registered j hj)
  hooked j hj := by rw [h.registered]; exact mem_cons_of_mem _ (hw.hooked j (h.hooks ▸ hj))
  views j := by
    rw [h.views, h.session, hw.views]
    by_cases hji : j = id <;> simp [hji]

theorem hooksRun (hw : d.Whole) (hid : id ∉ d.registered) (hh : d.HooksRun) : d'.HooksRun := by
  intro j
  rw [h.hooks, h.registered, h.session]
  by_cases hji : j = id
  · subst hji; have hnot : j ∉ d.hooks := fun hj => hid (hw.hooked j hj)
    simp [count_eq_zero_of_not_mem hnot]
  · simpa [hji] using hh j

theorem names_iff (hd : d.Kept) (token : SessionToken)
    (v : ViewId) : d'.names.lookup token = some v ↔ d.names.lookup token = some v ∨
      (d.beginAttach id state resume).state.token = some token ∧ v = d.resumedId resume := by
  rw [h.names]
  have hmint := beginAttach_token d id state resume
  cases ht : (d.beginAttach id state resume).state.token with
  | none => simp [nameView]
  | some t =>
    rw [ht] at hmint
    have hnone : d.names.lookup t = none := by
      by_contra hsome
      obtain ⟨w, hw⟩ := ne_none_iff_exists'.1 hsome
      split at hmint
      · exact Nat.lt_irrefl _ (some.inj hmint ▸ (hd.names t w hw).1)
      · cases hmint
    by_cases htt : token = t
    · subst htt; simp [nameView, hnone, eq_comm]
    · have htt' : t ≠ token := Ne.symm htt; simp [nameView, htt, htt']

theorem placeToken_self : d'.placeToken (.session id) =
    (d.beginAttach id state resume).state.token := by
  rw [Daemon.placeToken, h.session, if_pos rfl, Option.bind_some]

theorem placeToken_of_ne {p : Place} (hp : p ≠ .session id) : d'.placeToken p = d.placeToken p := by
  cases p with
  | session j =>
    have hj : j ≠ id := fun hj => hp (hj ▸ rfl); rw [Daemon.placeToken, h.session, if_neg hj]; rfl
  | retained token => rfl

theorem token_lt (ht : (d.beginAttach id state resume).state.token = some token) :
    token = d.minted ∧ token < d'.minted := by
  rw [h.minted, beginAttach_daemon]
  rw [beginAttach_token] at ht
  cases hm : state.mintsToken with
  | true => rw [hm, if_pos rfl] at ht; cases ht; exact ⟨rfl, Nat.lt_succ_self _⟩
  | false => rw [hm] at ht; cases ht

end

theorem resumedId_not_ended (hd : d.Kept) : d.resumedId resume ∉ d.ended := by
  unfold resumedId
  cases hres : resume.bind fun token => d.custody (.retained token) with
  | none => exact fun h => Nat.lt_irrefl _ (hd.ended _ h)
  | some v =>
    obtain ⟨token, rfl, hplace⟩ := bind_eq_some_iff.1 hres; exact (hd.inPlace _ _ hplace).2

theorem kept (h : Resumed d d' id state resume) (hd : d.Kept)
    (hres : ∀ token, resume = some token → state.mintsToken = true) : d'.Kept := by
  obtain ⟨d₁, hlost, hminted, hmade⟩ := h.begun
  have hself := h.placeToken_self
  refine (hlost.kept hd).put (p := .session id) (v := d.resumedId resume) ?_ ?_ ?_ ?_ ?_
    hmade.symm ?_ hminted.symm ?_ ?_ ?_ ?_
  · rw [hlost.custody]; exact resumedId_free hd
  · rw [hmade, h.made]; exact resumedId_lt state hd
  · rw [hlost.ended]; exact resumedId_not_ended hd
  · rw [h.custody, hlost.custody]
  · rintro q hq; rw [h.placeToken_of_ne state hq, hlost.placeToken]
  · rw [h.ended, hlost.ended]
  · rintro token w hn; rw [hlost.names]
    rcases (h.names_iff state hd token w).1 hn with hold | ⟨ht, rfl⟩
    · exact .inl hold
    · exact .inr ⟨rfl, hminted ▸ (h.token_lt state ht).2, (h.placeToken_self state).trans ht⟩
  · rintro token w hn; rw [hlost.names] at hn; exact (h.names_iff state hd token w).2 (.inl hn)
  · rintro token ht; rw [h.placeToken_self state] at ht
    exact (h.names_iff state hd token _).2 (.inr ⟨ht, rfl⟩)
  rintro token hn; rw [hlost.names] at hn; rw [h.placeToken_self state, beginAttach_token]
  -- a view that a token names was retained for a token presented
  cases resume with
  | none => exact absurd (hd.names token _ hn).2 (Nat.lt_irrefl _)
  | some t => exact ⟨d.minted, by rw [if_pos (hres t rfl)]⟩

/-- What is under a token stays there, but the view given back, which is under the new one. -/
theorem under (h : Resumed d d' id state resume) (hnone : d.registry.sessionState id = none)
    (hres : ∀ token, resume = some token → state.mintsToken = true)
    {v : ViewId} (hv : d.Under token v) : d'.Under token v ∨
      resume = some token ∧ d.resumedId resume = v ∧ d'.Under d.minted v := by
  obtain ⟨d₁, hlost, _, _⟩ := h.begun
  rcases hlost.under hv with ⟨p, hp, hpt⟩ | ⟨rfl, hplace⟩
  · have hne : p ≠ .session id := by
      rintro rfl; have hcust := without_within d resume (hlost.custody ▸ hp)
      rw [Daemon.custody, hnone] at hcust; cases hcust
    refine .inl ⟨p, ?_, ?_⟩
    · rw [h.custody]; exact Custody.put_eq_some.2 (.inr ⟨hne, hlost.custody ▸ hp⟩)
    · rw [h.placeToken_of_ne state hne, ← hlost.placeToken, hpt]
  have hv' : d.resumedId (some token) = v := by simp [resumedId, hplace]
  refine .inr ⟨rfl, hv', .session id, ?_, ?_⟩
  · rw [h.custody, hv']; exact Custody.put_eq_some.2 (.inl ⟨rfl, rfl⟩)
  · rw [h.placeToken_self, beginAttach_token, if_pos (hres token rfl)]

end Resumed

end

end

end Daemon

end Pmacs.Sessions
