/-
  What the daemon's steps keep (daemon.rs, presence.rs).

  * `Whole`, `Kept`: sessions are registered once, no view is in two places, and a view is under
    a token that names it.
  * `Carried`, `Keeps`: a view under a token stays under it, or ends; the teardown of a session,
    alone, at a drain's deadline or on its quit's request, and the retention's passing keep it so.
-/
import Pmacs.Sessions.Attach

namespace Pmacs.Sessions

open Lib AList List Option

namespace Daemon

/-! ## What the daemon's steps do -/

/-- The view is in its place under the token. -/
def Under (d : Daemon) (token : SessionToken) (v : ViewId) : Prop :=
  ∃ p, d.custody p = some v ∧ d.placeToken p = some token

/-- Nothing that a place or a token says changes. -/
structure Same (d d' : Daemon) : Prop where
  sessions : d'.registry.sessionState = d.registry.sessionState
  retained : d'.registry.retained = d.registry.retained
  views : ∀ id, (d'.views.lookup id).map (·.id) = (d.views.lookup id).map (·.id)
  minted : d'.minted = d.minted
  made : d'.made = d.made
  registered : d'.registered = d.registered
  hooks : d'.hooks = d.hooks
  ended : d'.ended = d.ended
  names : d'.names = d.names

variable {d'' : Daemon}

namespace Same

variable {d d' : Daemon}

theorem custody (h : Same d d') : d'.custody = d.custody := by
  funext p
  cases p with
  | session id => simp only [Daemon.custody, h.sessions, h.views]
  | retained token => simp only [Daemon.custody, h.retained]

theorem placeToken (h : Same d d') : d'.placeToken = d.placeToken := by
  funext p
  cases p with
  | session id => simp only [Daemon.placeToken, h.sessions]
  | retained token => rfl

theorem trans (h : Same d d') (h' : Same d' d'') : Same d d'' where
  sessions := h'.sessions.trans h.sessions
  retained := h'.retained.trans h.retained
  views id := (h'.views id).trans (h.views id)
  minted := h'.minted.trans h.minted
  made := h'.made.trans h.made
  registered := h'.registered.trans h.registered
  hooks := h'.hooks.trans h.hooks
  ended := h'.ended.trans h.ended
  names := h'.names.trans h.names

end Same

variable {view : FrontendView} {id : FrontendId}

theorem lookup_insert_same {views : Assoc FrontendId FrontendView}
    {view' : FrontendView} (h : views.lookup id = some view) (hid : view'.id = view.id)
    (j : FrontendId) :
    ((views.insert id view').lookup j).map (·.id) = (views.lookup j).map (·.id) := by
  by_cases hj : j = id
  · subst hj; simp [h, hid]
  · rw [lookup_insert_ne hj]

section
variable (d : Daemon)
include d

theorem writeFailed_same (id : FrontendId) :
    Same d { d with registry := d.registry.writeOutputFailed id d.now } := by
  constructor <;> simp

theorem shutStream_same (id : FrontendId) :
    Same d { d with registry := d.registry.shutStream id } := by
  constructor <;> simp

theorem flags_same (flags : List FrontendId) : Same d { d with flags := flags } := by
  constructor <;> intros <;> rfl

theorem now_same (now : ℕ) : Same d { d with now := now } := by
  constructor <;> intros <;> rfl

theorem declare_same (id : FrontendId) (size : Option CellSize)
    (viewport : Option (BufferId × Position × Position)) : Same d (d.declare id size viewport) := by
  unfold declare
  split
  · next view _ hview =>
    exact ⟨rfl, rfl, lookup_insert_same hview rfl, rfl, rfl, rfl, rfl, rfl, rfl⟩
  · constructor <;> intros <;> rfl

theorem syncAttachSize_same (state : SessionState)
    (size : CellSize) : Same d (d.syncAttachSize id state size) := by
  unfold syncAttachSize
  split
  · next view hview =>
    split
    · exact ⟨rfl, rfl, lookup_insert_same hview rfl, rfl, rfl, rfl, rfl, rfl, rfl⟩
    · constructor <;> intros <;> rfl
  · constructor <;> intros <;> rfl
end

/-! ## What holds in every run -/

/-- A session is registered once, and has a view while it is. -/
structure Whole (d : Daemon) : Prop where
  registered : ∀ id, d.registry.sessionState id ≠ none → id ∈ d.registered
  hooked : ∀ id, id ∈ d.hooks → id ∈ d.registered
  views : ∀ id, d.views.lookup id = none ↔ d.registry.sessionState id = none

/-- No view is in two places, and a view's token names it. -/
structure Kept (d : Daemon) : Prop where
  single : d.custody.Single
  inPlace : ∀ p v, d.custody p = some v → v < d.made ∧ v ∉ d.ended
  ended : ∀ v ∈ d.ended, v < d.made
  named : ∀ p v token, d.custody p = some v → d.placeToken p = some token →
    d.names.lookup token = some v
  token : ∀ p v token, d.names.lookup token = some v → d.custody p = some v →
    ∃ token', d.placeToken p = some token'
  names : ∀ token v, d.names.lookup token = some v → token < d.minted ∧ v < d.made

namespace Same

variable {d d' : Daemon}

theorem whole (h : Same d d') (hd : d.Whole) : d'.Whole where
  registered id hid := h.registered ▸ hd.registered id (h.sessions ▸ hid)
  hooked id hid := h.registered ▸ hd.hooked id (h.hooks ▸ hid)
  views id := by
    rw [h.sessions, ← hd.views id, ← map_eq_none_iff (f := (·.id)), h.views, map_eq_none_iff]

theorem kept (h : Same d d') (hd : d.Kept) : d'.Kept where
  single := h.custody ▸ hd.single
  inPlace p v hp := by rw [h.made, h.ended]; exact hd.inPlace p v (h.custody ▸ hp)
  ended v hv := h.made ▸ hd.ended v (h.ended ▸ hv)
  named p v token hp ht := by
    rw [h.names]; exact hd.named p v token (h.custody ▸ hp) (h.placeToken ▸ ht)
  token p v token hn hp := by
    rw [h.placeToken]; exact hd.token p v token (h.names ▸ hn) (h.custody ▸ hp)
  names token v hn := by rw [h.minted, h.made]; exact hd.names token v (h.names ▸ hn)

end Same

variable {v : ViewId} {token : SessionToken} {p : Place}

namespace Kept

variable {d d' : Daemon}

theorem within (hd : d.Kept) (hc : Custody.Within d'.custody d.custody)
    (ht : ∀ p v, d'.custody p = some v → d'.placeToken p = d.placeToken p)
    (hmade : d.made ≤ d'.made) (hminted : d.minted ≤ d'.minted) (hnames : d'.names = d.names)
    (hended : ∀ v ∈ d'.ended, v ∈ d.ended ∨ d.custody.Held v ∧ ¬ d'.custody.Held v) :
    d'.Kept where
  single := hd.single.within hc
  inPlace p v hp := by
    obtain ⟨hlt, hnot⟩ := hd.inPlace p v (hc hp)
    refine ⟨lt_of_lt_of_le hlt hmade, fun hv => ?_⟩
    rcases hended v hv with h | ⟨_, h⟩
    · exact hnot h
    · exact h ⟨p, hp⟩
  ended v hv := by
    rcases hended v hv with h | ⟨⟨p, hp⟩, _⟩
    · exact lt_of_lt_of_le (hd.ended v h) hmade
    · exact lt_of_lt_of_le (hd.inPlace p v hp).1 hmade
  named p v token hp htoken := by rw [hnames]; exact hd.named p v token (hc hp) (ht p v hp ▸ htoken)
  token p v token hn hp := by rw [ht p v hp]; exact hd.token p v token (hnames ▸ hn) (hc hp)
  names token v hn := by
    obtain ⟨h, h'⟩ := hd.names token v (hnames ▸ hn)
    exact ⟨lt_of_lt_of_le h hminted, lt_of_lt_of_le h' hmade⟩

/-- A view that is in no place is put in one, under a token that names it. -/
theorem put (hd : d.Kept) (hfree : ¬ d.custody.Held v)
    (hv : v < d.made) (hend : v ∉ d.ended) (hc : d'.custody = d.custody.put p v)
    (ht : ∀ q, q ≠ p → d'.placeToken q = d.placeToken q) (hmade : d'.made = d.made)
    (hended : d'.ended = d.ended) (hminted : d'.minted = d.minted)
    (hnew : ∀ token w, d'.names.lookup token = some w → d.names.lookup token = some w ∨
      w = v ∧ token < d.minted ∧ d'.placeToken p = some token)
    (hold : ∀ token w, d.names.lookup token = some w → d'.names.lookup token = some w)
    (hname : ∀ token, d'.placeToken p = some token → d'.names.lookup token = some v)
    (htoken : ∀ token, d.names.lookup token = some v → ∃ token', d'.placeToken p = some token') :
    d'.Kept where
  single := hc ▸ hd.single.put hfree
  inPlace q w hq := by
    rw [hmade, hended]; rw [hc] at hq
    rcases Custody.put_eq_some.1 hq with ⟨_, rfl⟩ | ⟨_, hq⟩
    · exact ⟨hv, hend⟩
    · exact hd.inPlace q w hq
  ended w hw := hmade ▸ hd.ended w (hended ▸ hw)
  named q w token hq htok := by
    rw [hc] at hq
    rcases Custody.put_eq_some.1 hq with ⟨rfl, rfl⟩ | ⟨hne, hq⟩
    · exact hname token htok
    · exact hold token w (hd.named q w token hq (ht q hne ▸ htok))
  token q w token hn hq := by
    rw [hc] at hq
    rcases Custody.put_eq_some.1 hq with ⟨rfl, rfl⟩ | ⟨hne, hcq⟩
    · rcases hnew token v hn with h | ⟨_, _, h⟩
      · exact htoken token h
      · exact ⟨token, h⟩
    rw [ht q hne]
    rcases hnew token w hn with h | ⟨rfl, _, _⟩
    · exact hd.token q w token h hcq
    · exact absurd ⟨q, hcq⟩ hfree
  names token w hn := by
    rw [hminted, hmade]
    rcases hnew token w hn with h | ⟨rfl, h, _⟩
    · exact hd.names token w h
    · exact ⟨h, hv⟩

theorem under_unique (hd : d.Kept) {token' : SessionToken}
    (h : d.Under token v) (h' : d.Under token' v) : token = token' := by
  obtain ⟨p, hp, ht⟩ := h
  obtain ⟨q, hq, ht'⟩ := h'
  have hpq := hd.single hp hq
  subst hpq
  rw [ht] at ht'
  exact some.inj ht'

end Kept

/-! ### A teardown -/

/-- A session unregistered, and its view given up. -/
def dropped (d : Daemon) (id : FrontendId) : Daemon :=
  { d with
    registry := d.registry.unregisterSession id
    views := d.views.erase id
    hooks := id :: d.hooks }

/-- `frontend.detached` ran once for each session registered, at its end. -/
def HooksRun (d : Daemon) : Prop :=
  ∀ id, d.hooks.count id =
    if id ∈ d.registered ∧ d.registry.sessionState id = none then 1 else 0

/-- What is named stays under its token, or ends. -/
structure Carried (d d' : Daemon) : Prop where
  names : d'.names = d.names
  ended : ∀ v ∈ d.ended, v ∈ d'.ended
  under : ∀ token v, d.Under token v → v ∈ d'.ended ∨ d'.Under token v

variable {d' : Daemon}

theorem Same.carried {d : Daemon} (h : Same d d') : Carried d d' where
  names := h.names
  ended _ hv := h.ended.symm ▸ hv
  under token v := by
    rintro ⟨p, hp, ht⟩; exact .inr ⟨p, h.custody.symm ▸ hp, h.placeToken.symm ▸ ht⟩

theorem Carried.trans {d : Daemon} (h : Carried d d') (h' : Carried d' d'') : Carried d d'' where
  names := h'.names.trans h.names
  ended v hv := h'.ended v (h.ended v hv)
  under token v hv := by
    rcases h.under token v hv with hend | hunder
    · exact .inl (h'.ended v hend)
    · exact h'.under token v hunder

theorem Same.hooksRun {d : Daemon} (h : Same d d') (hd : d.HooksRun) : d'.HooksRun := by
  intro id
  rw [h.hooks, h.registered, h.sessions]
  exact hd id

section
variable {d : Daemon}

theorem dropped_custody (d : Daemon) (id : FrontendId) :
    (d.dropped id).custody = d.custody.release (.session id) := by
  funext p
  cases p with
  | session j =>
    by_cases hj : j = id
    · subst hj; simp [custody, dropped, Custody.release]
    · simp [custody, dropped, Custody.release, hj]
  | retained token => simp [custody, dropped, Custody.release]

theorem dropped_placeToken (hp : p ≠ .session id) :
    (d.dropped id).placeToken p = d.placeToken p := by
  cases p with
  | session j => have hj : j ≠ id := fun h => hp (h ▸ rfl); simp [placeToken, dropped, hj]
  | retained token => rfl

theorem dropped_whole (hd : d.Whole) (hid : d.registry.sessionState id ≠ none) :
    (d.dropped id).Whole where
  registered j hj := by refine hd.registered j fun h => hj ?_; simp [dropped, h]
  hooked j hj := by
    rcases mem_cons.1 hj with rfl | hj
    · exact hd.registered j hid
    · exact hd.hooked j hj
  views j := by
    by_cases hj : j = id
    · subst hj; simp [dropped]
    · simp [dropped, hj, hd.views j]

theorem dropped_hooksRun (hd : d.Whole) (hh : d.HooksRun)
    (hid : d.registry.sessionState id ≠ none) : (d.dropped id).HooksRun := by
  intro j
  by_cases hj : j = id
  · subst hj; have hzero := hh j; rw [if_neg fun h => hid h.2] at hzero
    simp [dropped, hzero, hd.registered j hid]
  have hsame := hh j; have hne : id ≠ j := Ne.symm hj
  simpa [dropped, hj, count_cons, hne] using hsame

theorem dropped_kept (hd : d.Kept) (id : FrontendId) : (d.dropped id).Kept := by
  have hwithin : Custody.Within (d.dropped id).custody d.custody :=
    dropped_custody d id ▸ Custody.release_within _ _
  refine hd.within hwithin (fun p v hp => dropped_placeToken ?_) le_rfl le_rfl
    rfl fun v hv => .inl hv
  rw [dropped_custody] at hp
  exact (Custody.release_eq_some.1 hp).1

theorem dropped_under {w : ViewId} (hw : d.custody (.session id) = some w) (hne : v ≠ w)
    (h : d.Under token v) : (d.dropped id).Under token v := by
  obtain ⟨p, hp, ht⟩ := h
  have hp' : p ≠ .session id := by
    rintro rfl; exact hne (some.inj (hp.symm.trans hw))
  refine ⟨p, ?_, (dropped_placeToken hp').trans ht⟩
  rw [dropped_custody]
  exact Custody.release_eq_some.2 ⟨hp', hp⟩

theorem detachFrontend_cases (hd : d.Whole) (retention : ℕ) {state : SessionState}
    (hid : d.registry.sessionState id = some state) :
    ∃ view, d.views.lookup id = some view ∧
      ((∃ token, state.token = some token ∧ d.isDeparting id = false ∧ retention ≠ 0 ∧
          d.detachFrontend id retention = { d.dropped id with
            registry := (d.dropped id).registry.retainView token view d.now }) ∨
        (∃ token, state.token = some token ∧ (d.isDeparting id = true ∨ retention = 0) ∧
          d.detachFrontend id retention = { d.dropped id with ended := view.id :: d.ended }) ∨
        state.token = none ∧ d.detachFrontend id retention = d.dropped id) := by
  cases hview : d.views.lookup id with
  | none => rw [(hd.views id).1 hview] at hid; cases hid
  | some view =>
    refine ⟨view, rfl, ?_⟩; unfold detachFrontend giveUpView; simp only [hid, hview]
    cases htoken : state.token with
    | none => exact .inr (.inr ⟨rfl, rfl⟩)
    | some token =>
      by_cases h : d.isDeparting id = false ∧ retention ≠ 0
      · refine .inl ⟨token, rfl, h.1, h.2, ?_⟩
        simp only [h.1, h.2, Bool.not_false, ne_eq, not_false_eq_true, decide_true, Bool.and_self,
          if_true]
        rfl
      refine .inr (.inl ⟨token, rfl, ?_, ?_⟩)
      · by_cases hr : retention = 0
        · exact .inr hr
        · exact .inl (by simpa [hr] using h)
      have hcond : (!d.isDeparting id && decide (retention ≠ 0)) = false := by
        cases hdep : d.isDeparting id
        · have hr : retention = 0 := by simpa [hdep] using h
          simp [hr]
        · rfl
      simp only [hcond, Bool.false_eq_true, if_false]; rfl

theorem dropped_ended (hd : d.Kept) (hv : d.custody (.session id) = some v) :
    { d.dropped id with ended := v :: d.ended }.Kept := by
  refine hd.within ?_ ?_ le_rfl le_rfl rfl ?_
  · exact dropped_custody d id ▸ Custody.release_within _ _
  · intro p w hp
    have hrelease : d.custody.release (.session id) p = some w := dropped_custody d id ▸ hp
    exact dropped_placeToken (Custody.release_eq_some.1 hrelease).1
  intro w hw
  rcases mem_cons.1 hw with rfl | hw
  · refine .inr ⟨⟨_, hv⟩, ?_⟩; have hnot := hd.single.not_held_release hv
    rwa [← dropped_custody] at hnot
  · exact .inl hw

def kept (d : Daemon) (id : FrontendId) (token : SessionToken) (view : FrontendView) : Daemon :=
  { d.dropped id with registry := (d.dropped id).registry.retainView token view d.now }

theorem kept_custody (token : SessionToken) (view : FrontendView) : (d.kept id token view).custody =
      (d.dropped id).custody.put (.retained token) view.id := by
  funext p
  cases p with
  | session j => rfl
  | retained t =>
    by_cases ht : t = token
    · subst ht; simp [custody, kept, Custody.put, SessionRegistry.retainView]
    · simp [custody, kept, Custody.put, SessionRegistry.retainView, ht]

theorem kept_kept (hd : d.Kept) (hv : d.custody (.session id) = some view.id)
    (ht : d.placeToken (.session id) = some token) : (d.kept id token view).Kept := by
  have hfree : ¬ (d.dropped id).custody.Held view.id := by
    rw [dropped_custody]; exact hd.single.not_held_release hv
  have hnamed : d.names.lookup token = some view.id := hd.named _ _ _ hv ht
  obtain ⟨hlt, hend⟩ := hd.inPlace _ _ hv
  refine (dropped_kept hd id).put hfree hlt hend (kept_custody token view) (fun _ _ => rfl) rfl rfl
    rfl (fun _ _ hn => .inl hn) (fun _ _ hn => hn) ?_ fun _ _ => ⟨token, rfl⟩
  rintro t htt
  cases htt
  exact hnamed

theorem kept_under (hd : d.Kept) (hv : d.custody (.session id) = some view.id)
    (ht : d.placeToken (.session id) = some token) {t : SessionToken}
    (h : d.Under t v) : (d.kept id token view).Under t v := by
  by_cases hvv : v = view.id
  · subst hvv
    refine ⟨.retained token, ?_, ?_⟩
    · rw [kept_custody]; exact Custody.put_eq_some.2 (.inl ⟨rfl, rfl⟩)
    · rw [hd.under_unique h ⟨_, hv, ht⟩]; rfl
  obtain ⟨p, hp, hpt⟩ := dropped_under hv hvv h
  refine ⟨p, ?_, hpt⟩; rw [kept_custody]
  refine Custody.put_eq_some.2 (.inr ⟨?_, hp⟩)
  -- a view retained under the session's token would be the session's own
  rintro rfl; have hnamed := (dropped_kept hd id).named _ _ token hp rfl
  exact hvv (some.inj (hnamed.symm.trans (hd.named _ _ _ hv ht)))

/-- What a step of the daemon keeps, where it loses no view and no session. -/
structure Keeps (d d' : Daemon) : Prop where
  whole : d'.Whole
  kept : d'.Kept
  carried : Carried d d'
  hooksRun : d.HooksRun → d'.HooksRun
  registered : d'.registered = d.registered

theorem Same.keeps (h : Same d d') (hw : d.Whole) (hd : d.Kept) : Keeps d d' :=
  ⟨h.whole hw, h.kept hd, h.carried, h.hooksRun, h.registered⟩

theorem Keeps.trans (h : Keeps d d') (h' : Keeps d' d'') : Keeps d d'' :=
  ⟨h'.whole, h'.kept, h.carried.trans h'.carried, fun hh => h'.hooksRun (h.hooksRun hh),
    h'.registered.trans h.registered⟩

theorem Keeps.refl (hw : d.Whole) (hd : d.Kept) : Keeps d d :=
  ⟨hw, hd, ⟨rfl, fun _ h => h, fun _ _ h => .inr h⟩, fun h => h, rfl⟩

/-- The teardown keeps each view named for its token, or ends it. -/
theorem detachFrontend_keeps (hw : d.Whole) (hd : d.Kept) (id : FrontendId) (retention : ℕ) :
    Keeps d (d.detachFrontend id retention) := by
  cases hid : d.registry.sessionState id with
  | none =>
    have hsame : d.detachFrontend id retention = d := by unfold detachFrontend; rw [hid]
    rw [hsame]; exact Keeps.refl hw hd
  | some state =>
    have hne : d.registry.sessionState id ≠ none := by simp [hid]
    have hwhole := dropped_whole hw hne; have hhooks := fun h => dropped_hooksRun hw h hne
    obtain ⟨view, hview, hcases⟩ := detachFrontend_cases hw retention hid
    have hplace : d.custody (.session id) = some view.id := by rw [custody, hid, hview]; rfl
    have htok : d.placeToken (.session id) = state.token := by rw [placeToken, hid]; rfl
    rcases hcases with ⟨token, ht, _, _, h⟩ | ⟨token, ht, _, h⟩ | ⟨ht, h⟩
    · rw [h]; have ht' := htok.trans ht
      exact ⟨⟨hwhole.registered, hwhole.hooked, hwhole.views⟩, kept_kept hd hplace ht',
        ⟨rfl, fun _ hv => hv, fun _ _ hv => .inr (kept_under hd hplace ht' hv)⟩, hhooks, rfl⟩
    · rw [h]
      refine ⟨⟨hwhole.registered, hwhole.hooked, hwhole.views⟩, dropped_ended hd hplace,
        ⟨rfl, fun _ hv => mem_cons_of_mem _ hv, fun t v hv => ?_⟩, hhooks, rfl⟩
      by_cases hvv : v = view.id
      · exact .inl (hvv ▸ mem_cons_self)
      · exact .inr (dropped_under hplace hvv hv)
    rw [h]
    refine ⟨hwhole, dropped_kept hd id, ⟨rfl, fun _ hv => hv, fun t v hv => .inr ?_⟩, hhooks, rfl⟩
    refine dropped_under hplace ?_ hv; rintro rfl; obtain ⟨p, hp, hpt⟩ := hv
    rw [hd.single hp hplace, htok, ht] at hpt; cases hpt

variable {retention : ℕ}

theorem detachPast_keeps (hw : d.Whole) (hd : d.Kept) (deadline : ℕ) :
    Keeps d (d.detachPast deadline retention) := by
  have hall : ∀ (ids : List FrontendId) (d : Daemon), d.Whole → d.Kept →
      Keeps d (ids.foldl (fun d id => d.detachFrontend id retention) d) := by
    intro ids
    induction ids with
    | nil => exact fun d hw hd => Keeps.refl hw hd
    | cons id ids ih =>
      intro d hw hd; have hone := detachFrontend_keeps hw hd id retention
      exact hone.trans (ih _ hone.whole hone.kept)
  exact hall _ d hw hd

theorem detachRequested_keeps (hw : d.Whole) (hd : d.Kept) :
    Keeps d (d.detachRequested id retention) := by
  unfold detachRequested
  cases d.registry.sessionState id with
  | none => exact Keeps.refl hw hd
  | some state =>
    have hflags : Keeps d (if d.registry.holdsFlag id then { d with flags := id :: d.flags }
        else d) := by
      split
      · exact (flags_same d _).keeps hw hd
      · exact Keeps.refl hw hd
    generalize (if d.registry.holdsFlag id then { d with flags := id :: d.flags } else d) = d₁
      at hflags ⊢
    have hshut := hflags.trans ((shutStream_same d₁ id).keeps hflags.whole hflags.kept)
    exact hshut.trans (detachFrontend_keeps hshut.whole hshut.kept id retention)

theorem expire_custody (hp : (d.expire retention).custody p = some v) :
    d.custody p = some v ∧ ∀ token, p = .retained token → ∀ kept,
      d.registry.retained.lookup token = some kept → ¬ retention ≤ d.now - kept.since := by
  cases p with
  | session j => exact ⟨hp, nofun⟩
  | retained token =>
    simp only [custody, expire, SessionRegistry.expireRetained, Assoc.lookup_retain] at hp
    obtain ⟨kept, hkept, rfl⟩ := map_eq_some_iff.1 hp
    obtain ⟨hlookup, hcond⟩ := filter_eq_some_iff.1 hkept
    refine ⟨by rw [custody, hlookup, map_some], ?_⟩; rintro token' htoken kept' hkept'; cases htoken
    rw [hlookup] at hkept'; cases hkept'; simpa using hcond

theorem expire_keeps (hw : d.Whole) (hd : d.Kept) : Keeps d (d.expire retention) := by
  have hended : ∀ v, v ∈ (d.expire retention).ended ↔ v ∈ d.ended ∨ ∃ token kept,
      d.registry.retained.lookup token = some kept ∧ retention ≤ d.now - kept.since ∧
        kept.view.id = v := by
    intro v; simp only [expire, mem_append, List.mem_map, List.mem_filter, decide_eq_true_eq]
    constructor
    · rintro (⟨⟨token, kept⟩, ⟨hmem, hpast⟩, rfl⟩ | h)
      · exact .inr ⟨token, kept, Assoc.mem_entries_iff.1 hmem, hpast, rfl⟩
      · exact .inl h
    rintro (h | ⟨token, kept, hlookup, hpast, rfl⟩)
    · exact .inr h
    · exact .inl ⟨⟨token, kept⟩, ⟨Assoc.mem_entries_iff.2 hlookup, hpast⟩, rfl⟩
  refine ⟨⟨hw.registered, hw.hooked, hw.views⟩, ?_, ⟨rfl, fun v hv => (hended v).2 (.inl hv), ?_⟩,
    fun h => h, rfl⟩
  · refine hd.within (fun p v hp => (expire_custody hp).1) (fun p v _ => by cases p <;> rfl)
      le_rfl le_rfl rfl fun v hv => ?_
    rcases (hended v).1 hv with h | ⟨token, kept, hlookup, hpast, rfl⟩
    · exact .inl h
    have hplace : d.custody (.retained token) = some kept.view.id := by
      rw [custody, hlookup, map_some]
    refine .inr ⟨⟨_, hplace⟩, ?_⟩; rintro ⟨p, hp⟩; obtain ⟨hcust, hnot⟩ := expire_custody hp
    exact hnot token (hd.single hcust hplace) kept hlookup hpast
  rintro t v ⟨p, hp, hpt⟩
  cases p with
  | session j => exact .inr ⟨.session j, hp, hpt⟩
  | retained token =>
    cases hpt; obtain ⟨kept, hlookup, rfl⟩ := map_eq_some_iff.1 hp
    by_cases hpast : retention ≤ d.now - kept.since
    · exact .inl ((hended _).2 (.inr ⟨t, kept, hlookup, hpast, rfl⟩))
    refine .inr ⟨.retained t, ?_, rfl⟩
    simp [custody, expire, SessionRegistry.expireRetained, hlookup, hpast, Option.filter]
end

end Daemon

end Pmacs.Sessions
