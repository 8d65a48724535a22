/-
  The async runtime's table of jobs (async_runtime.rs), as far as jobs settled from
  outside its workers use it.

  * `registerExternal` allocates a job and cancels the one it supersedes;
  * `completeExternal` sends the reply that settles a job, `sent` is every reply so far.
-/
import Pmacs.Lib.Assoc
import Pmacs.Lsp.Value

namespace Pmacs

open Lib

abbrev JobId := ℕ

inductive JobOutcome where
  | complete (value : Value)
  | failed (message : String)
  | cancelled

def JobOutcome.isCancelled : JobOutcome → Bool
  | .cancelled => true
  | _ => false

structure PendingJob where
  state : Option JobOutcome
  supersedeKey : Option String

structure AsyncRuntime where
  nextJobId : JobId
  supersede : Assoc String JobId
  pending : Assoc JobId PendingJob
  /-- The jobs whose cancellation token is flipped. -/
  cancelledTokens : List JobId
  /-- The replies that the bus has carried, and those not read yet. -/
  sent : List (JobId × JobOutcome)
  unread : List (JobId × JobOutcome)

namespace AsyncRuntime

def new : AsyncRuntime := ⟨1, ∅, ∅, [], [], []⟩

variable (rt : AsyncRuntime) (id : JobId)

/-- `CancellationToken::is_cancelled` of a job's token. -/
def isCancelled : Bool := decide (id ∈ rt.cancelledTokens)

def cancel : AsyncRuntime :=
  match rt.pending.lookup id with
  | none => rt
  | some _ => { rt with cancelledTokens := id :: rt.cancelledTokens }

def cancelPrior (key : String) : AsyncRuntime :=
  match rt.supersede.lookup key with
  | none => rt
  | some prior => rt.cancel prior

variable (key : Option String)

/-- Allocate a job; the prior one under its key is cancelled first. -/
def registerExternal : JobId × AsyncRuntime :=
  let rt' := match key with
    | none => rt
    | some key =>
      let rt := rt.cancelPrior key
      { rt with supersede := rt.supersede.insert key rt.nextJobId }
  (rt.nextJobId, { rt' with
    nextJobId := rt.nextJobId + 1
    pending := rt'.pending.insert rt.nextJobId ⟨none, key⟩ })

def completeExternal (outcome : JobOutcome) : AsyncRuntime :=
  { rt with sent := rt.sent ++ [(id, outcome)], unread := rt.unread ++ [(id, outcome)] }

variable (replies : List (JobId × JobOutcome))

def completeAll : AsyncRuntime :=
  replies.foldl (fun rt reply => rt.completeExternal reply.1 reply.2) rt

/-- Read one reply: a job that is running settles, and its key is free again. -/
def readReply (reply : JobId × JobOutcome) : AsyncRuntime :=
  match rt.pending.lookup reply.1 with
  | none => rt
  | some job =>
    match job.state with
    | some _ => rt
    | none =>
      { rt with
        pending := rt.pending.insert reply.1 { job with state := some reply.2 }
        supersede :=
          match job.supersedeKey with
          | none => rt.supersede
          | some key =>
            if rt.supersede.lookup key = some reply.1 then rt.supersede.erase key
            else rt.supersede }

def tick : AsyncRuntime :=
  rt.unread.foldl readReply { rt with unread := [] }

def takeResult : AsyncRuntime :=
  match rt.pending.lookup id with
  | none => rt
  | some job => if job.state.isSome then { rt with pending := rt.pending.erase id } else rt

@[simp]
theorem sent_cancel : (rt.cancel id).sent = rt.sent := by
  unfold cancel
  split <;> rfl

@[simp]
theorem nextJobId_cancel : (rt.cancel id).nextJobId = rt.nextJobId := by
  unfold cancel
  split <;> rfl

@[simp]
theorem sent_cancelPrior (key : String) : (rt.cancelPrior key).sent = rt.sent := by
  unfold cancelPrior
  split
  · rfl
  · exact sent_cancel rt _

@[simp]
theorem registerExternal_nextJobId :
    (rt.registerExternal key).2.nextJobId = rt.nextJobId + 1 := rfl

@[simp]
theorem registerExternal_sent : (rt.registerExternal key).2.sent = rt.sent := by
  cases key with
  | none => rfl
  | some key => exact sent_cancelPrior rt key

@[simp]
theorem completeAll_sent : (rt.completeAll replies).sent = rt.sent ++ replies := by
  induction replies generalizing rt with
  | nil => exact (List.append_nil _).symm
  | cons reply replies ih =>
    exact (ih _).trans (List.append_assoc _ _ _)

@[simp]
theorem completeAll_nextJobId : (rt.completeAll replies).nextJobId = rt.nextJobId := by
  induction replies generalizing rt with
  | nil => rfl
  | cons reply replies ih => exact ih _

theorem readReply_keeps (reply : JobId × JobOutcome) :
    (rt.readReply reply).sent = rt.sent ∧ (rt.readReply reply).nextJobId = rt.nextJobId := by
  unfold readReply
  split
  · exact ⟨rfl, rfl⟩
  · split <;> exact ⟨rfl, rfl⟩

theorem tick_keeps : rt.tick.sent = rt.sent ∧ rt.tick.nextJobId = rt.nextJobId := by
  have hfold : ∀ (replies : List (JobId × JobOutcome)) (rt : AsyncRuntime),
      (replies.foldl readReply rt).sent = rt.sent ∧
        (replies.foldl readReply rt).nextJobId = rt.nextJobId := by
    intro replies
    induction replies with
    | nil => intro rt; exact ⟨rfl, rfl⟩
    | cons reply replies ih =>
      intro rt; have h := ih (rt.readReply reply); have h' := readReply_keeps rt reply
      exact ⟨h.1.trans h'.1, h.2.trans h'.2⟩
  exact hfold rt.unread { rt with unread := [] }

theorem takeResult_keeps :
    (rt.takeResult id).sent = rt.sent ∧ (rt.takeResult id).nextJobId = rt.nextJobId := by
  unfold takeResult
  split
  · exact ⟨rfl, rfl⟩
  · split <;> exact ⟨rfl, rfl⟩

end AsyncRuntime

end Pmacs
