import EmailExtractor.Library.Run
import EmailExtractor.Queue.Operations

/-!
# Runs of the queue

The store together with the claims handed out so far, and one action for every
transaction of the workers, of the reap loop and of the API. An action carries the
time of its transaction and whatever the database or the caller may choose. A claim
stays in the system for ever, so a handler may come back with it at any moment,
however long ago its row was taken away.
-/

namespace EmailExtractor

namespace Queue

structure System where
  store : Store
  claims : List Claim

inductive Op
  | claim (worker : Str) (tries : List Try)
  | lockDomain (c : Claim)
  | unlockDomain (c : Claim)
  | requeue (c : Claim) (delay : ℚ) (countAttempt : Bool)
  | finish (c : Claim) (result : DomainResult) (fromCache writeCache : Bool)
  | heartbeat (tokens : List Str)
  | reap
  | releaseWorker (worker : Str)
  | requeueFailed (j : JobId)
  | completeIfFinished (j : JobId)
  | completeFinishedJobs
  | pauseActiveJobs (reason : Str)
  | resumeJob (j : JobId)
  | resumePausedFor (reason : Str)
  | cancelJob (j : JobId)
  deriving DecidableEq

structure Action where
  now : Time
  op : Op
  deriving DecidableEq

def Op.caller : Op → Option Claim
  | .lockDomain c => some c
  | .unlockDomain c => some c
  | .requeue c _ _ => some c
  | .finish c _ _ _ => some c
  | _ => none

def Op.apply (now : Time) (s : Store) : Op → Store
  | .claim worker tries => (Queue.claim s now worker tries).1
  | .lockDomain c => (Queue.lockDomain s now c).1
  | .unlockDomain c => Queue.unlockDomain s c
  | .requeue c delay countAttempt => Queue.requeue s now c delay countAttempt
  | .finish c result fromCache writeCache =>
    (Queue.workerFinish s now c result fromCache writeCache).1
  | .heartbeat tokens => Queue.heartbeat s now tokens
  | .reap => (Queue.reap s now).1
  | .releaseWorker worker => Queue.releaseWorker s now worker
  | .requeueFailed j => (Queue.requeueFailed s now j).1
  | .completeIfFinished j => (Queue.completeIfFinished s now j).1
  | .completeFinishedJobs => (Queue.completeFinishedJobs s now).1
  | .pauseActiveJobs reason => Queue.pauseActiveJobs s now reason
  | .resumeJob j => (Queue.resumeJob s now j).1
  | .resumePausedFor reason => (Queue.resumePausedFor s now reason).1
  | .cancelJob j => (Queue.cancelJob s now j).1

def Op.claimed (now : Time) (s : Store) : Op → Option Claim
  | .claim worker tries => (Queue.claim s now worker tries).2
  | _ => none

def Op.webhooks (now : Time) (s : Store) : Op → List Webhook
  | .finish c result fromCache writeCache =>
    (Queue.workerFinish s now c result fromCache writeCache).2
  | _ => []

def Op.Possible (now : Time) (s : Store) : Op → Prop
  | .claim _ tries => ClaimChoices s now tries
  | _ => True

instance (now : Time) (s : Store) (op : Op) : Decidable (op.Possible now s) :=
  match op with
  | .claim _ tries => inferInstanceAs (Decidable (ClaimChoices s now tries))
  | .lockDomain _ | .unlockDomain _ | .requeue .. | .finish .. | .heartbeat _ | .reap
  | .releaseWorker _ | .requeueFailed _ | .completeIfFinished _ | .completeFinishedJobs
  | .pauseActiveJobs _ | .resumeJob _ | .resumePausedFor _ | .cancelJob _ => isTrue trivial

/-- The operation can happen: a caller has the claim it comes with, a new token is
fresh, and the choices are possible. -/
def Op.Enabled (now : Time) (s : System) (op : Op) : Prop :=
  (∀ c ∈ op.caller, c ∈ s.claims) ∧
    (∀ c ∈ op.claimed now s.store, ∀ c' ∈ s.claims, c'.token ≠ c.token) ∧
    op.Possible now s.store

instance (now : Time) (s : System) (op : Op) : Decidable (op.Enabled now s) :=
  inferInstanceAs (Decidable (_ ∧ _ ∧ op.Possible now s.store))

def opStep (s : System) (a : Action) : Option System :=
  if a.op.Enabled a.now s then
    some ⟨a.op.apply a.now s.store, (a.op.claimed a.now s.store).toList ++ s.claims⟩
  else none

abbrev OpStep (s : System) (a : Action) (s' : System) : Prop := opStep s a = some s'

theorem opStep_cases {s s' : System} {a : Action} (h : OpStep s a s') :
    a.op.Enabled a.now s ∧
      s' = ⟨a.op.apply a.now s.store, (a.op.claimed a.now s.store).toList ++ s.claims⟩ := by
  unfold OpStep opStep at h
  rw [Option.ite_none_right_eq_some, Option.some.injEq] at h
  exact ⟨h.1, h.2.symm⟩

/-- The runs from any store, with any claims already handed out. -/
abbrev QueueRun := Transition.Run (fun _ : System => True) OpStep

end Queue

end EmailExtractor
