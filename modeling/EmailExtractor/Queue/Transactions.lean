import EmailExtractor.Library.Run
import EmailExtractor.Queue.Statements

/-!
# The transactions that finish and reopen a job, statement by statement

`finish` (with `complete_if_finished`), `requeue_failed` and
`complete_finished_jobs` of `app/queue.py` as programs of the READ COMMITTED
machine. A program point stands before one statement, commit or rollback of the
source; the argument of a point is a value that the source keeps in a local
variable. `now()` is fixed for a transaction and is one of its parameters.
-/

namespace EmailExtractor

namespace Queue

open ReadCommitted

inductive Txn
  | finish (now : Time) (c : Claim) (result : DomainResult) (fromCache writeCache : Bool)
  | requeueFailed (now : Time) (j : JobId)
  | completeFinishedJobs (now : Time)

/-- What the functions return: `(recorded, job_done)` and the row counts. -/
inductive Outcome
  | finish (recorded jobDone : Bool)
  | requeued (n : ℕ)
  | completed (n : ℕ)
  deriving DecidableEq

inductive Pc
  | ownRow
  | writeCache
  | unlockDomain
  | lockJob
  | completeJob
  | commitFinish (done : Bool)
  | rollbackLost
  | unlockLost
  | commitLost
  | requeueRows
  | reopenJob (n : ℕ)
  | commitRequeue (n : ℕ)
  | sweepJobs
  | commitSweep (n : ℕ)
  | finished (o : Outcome)
  deriving DecidableEq

def Txn.entry : Txn → Pc
  | .finish .. => .ownRow
  | .requeueFailed .. => .requeueRows
  | .completeFinishedJobs _ => .sweepJobs

def Txn.act (rows : Finset Key) : Txn → Pc → Act Val
  | .finish now c result fromCache _, pc =>
    match pc with
    | .ownRow => .exec (finishRow now c result fromCache)
    | .writeCache => .exec (writeCacheStmt now c result)
    | .unlockDomain => .exec (unlockDomainStmt c)
    | .lockJob => .exec (lockJobStmt c.jobId)
    | .completeJob => .exec (completeJob rows now c.jobId)
    | .commitFinish _ => .commit
    | .rollbackLost => .rollback
    | .unlockLost => .exec (unlockDomainStmt c)
    | .commitLost => .commit
    | _ => .halt
  | .requeueFailed now j, pc =>
    match pc with
    | .requeueRows => .exec (requeueFailedRows now j)
    | .reopenJob _ => .exec (reopenJob now j)
    | .commitRequeue _ => .commit
    | _ => .halt
  | .completeFinishedJobs now, pc =>
    match pc with
    | .sweepJobs => .exec (completeJobs rows now)
    | .commitSweep _ => .commit
    | _ => .halt

/-- The program point after a statement that changed the rows `touched`. -/
def Txn.next : Txn → Pc → List Key → Pc
  | .finish _ _ _ fromCache writeCache, .ownRow, touched =>
    if touched = [] then .rollbackLost
    else if !fromCache && writeCache then .writeCache
    else .unlockDomain
  | _, .writeCache, _ => .unlockDomain
  | _, .unlockDomain, _ => .lockJob
  | _, .lockJob, _ => .completeJob
  | _, .completeJob, touched => .commitFinish (decide (touched ≠ []))
  | _, .commitFinish done, _ => .finished (.finish true done)
  | _, .rollbackLost, _ => .unlockLost
  | _, .unlockLost, _ => .commitLost
  | _, .commitLost, _ => .finished (.finish false false)
  | _, .requeueRows, touched =>
    if touched = [] then .commitRequeue 0 else .reopenJob touched.length
  | _, .reopenJob n, _ => .commitRequeue n
  | _, .commitRequeue n, _ => .finished (.requeued n)
  | _, .sweepJobs, touched => .commitSweep touched.length
  | _, .commitSweep n, _ => .finished (.completed n)
  | _, pc, _ => pc

section

variable {T : Type}

/-- The machine that runs the transaction `txn t` in session `t`. -/
def machine (rows : Finset Key) (txn : T → Txn) : Machine Val T Pc where
  act t pc := (txn t).act rows pc
  next t pc touched := (txn t).next pc touched

/-- Nothing has run yet: the database is `db` and every session is at its entry. -/
def Fresh (txn : T → Txn) (db : Db Val) (s : Sys Val T Pc) : Prop :=
  s.committed = db ∧ (∀ k, s.held k = none) ∧ ∀ t, s.session t = ⟨(txn t).entry, none⟩

abbrev TxnRun [DecidableEq T] (rows : Finset Key) (txn : T → Txn) (db : Db Val) :=
  Transition.Run (Fresh txn db) (Step (machine rows txn) rows)

end

end Queue

end EmailExtractor
