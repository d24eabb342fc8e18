import EmailExtractor.Library.ReadCommitted
import EmailExtractor.Queue.Tables
import Mathlib.Data.Finset.Card

/-!
# The statements of the queue

Every statement of `app/queue.py`, of `_transition` and of `_resume_paused_for` in
`app/main.py`, on the three tables together: the row-level clauses of `Tables` with
the conditions on the primary key and the subqueries.
-/

namespace EmailExtractor

namespace Queue

open ReadCommitted

inductive Key
  | job (j : JobId)
  | row (j : JobId) (d : Str)
  | domain (d : Str)
  deriving DecidableEq

/-- The columns stored under a key. -/
@[reducible] def Val : Key → Type
  | .job _ => Job
  | .row _ _ => JobDomain
  | .domain _ => DomainRow

def onJob (cond : Db Val → JobId → Job → Bool) (set : Db Val → JobId → Job → Job) :
    Stmt Val where
  cond db k := match k with
    | .job j => cond db j
    | .row _ _ => fun _ => false
    | .domain _ => fun _ => false
  set db k := match k with
    | .job j => set db j
    | .row _ _ => id
    | .domain _ => id

def onRow (cond : JobId → Str → JobDomain → Bool) (set : JobDomain → JobDomain) :
    Stmt Val where
  cond _ k := match k with
    | .job _ => fun _ => false
    | .row j d => cond j d
    | .domain _ => fun _ => false
  set _ k := match k with
    | .job _ => id
    | .row _ _ => set
    | .domain _ => id

def onDomain (cond : Str → DomainRow → Bool) (set : DomainRow → DomainRow) :
    Stmt Val where
  cond _ k := match k with
    | .job _ => fun _ => false
    | .row _ _ => fun _ => false
    | .domain d => cond d
  set _ k := match k with
    | .job _ => id
    | .row _ _ => id
    | .domain _ => set

section

variable {db : Db Val} {j : JobId} {d : Str}

variable {g : Db Val → JobId → Job → Job} {f : JobId → Str → JobDomain → Bool}

@[simp] theorem onJob_cond_job {f : Db Val → JobId → Job → Bool} {job : Job} :
    (onJob f g).cond db (.job j) job = f db j job := rfl

variable {r : JobDomain}

@[simp] theorem onJob_cond_row {f : Db Val → JobId → Job → Bool} :
    (onJob f g).cond db (.row j d) r = false := rfl

variable {row : DomainRow}

@[simp] theorem onJob_cond_domain {f : Db Val → JobId → Job → Bool} :
    (onJob f g).cond db (.domain d) row = false := rfl

@[simp] theorem onJob_set_job {f : Db Val → JobId → Job → Bool} {job : Job} :
    (onJob f g).set db (.job j) job = g db j job := rfl

variable {g : JobDomain → JobDomain}

@[simp] theorem onRow_cond_job {job : Job} : (onRow f g).cond db (.job j) job = false := rfl

@[simp] theorem onRow_cond_row : (onRow f g).cond db (.row j d) r = f j d r := rfl

@[simp] theorem onRow_cond_domain : (onRow f g).cond db (.domain d) row = false := rfl

@[simp] theorem onRow_set_row : (onRow f g).set db (.row j d) r = g r := rfl

@[simp] theorem onDomain_cond_job {f : Str → DomainRow → Bool} {g : DomainRow → DomainRow}
    {job : Job} : (onDomain f g).cond db (.job j) job = false := rfl

@[simp] theorem onDomain_cond_row {f : Str → DomainRow → Bool} {g : DomainRow → DomainRow} :
    (onDomain f g).cond db (.row j d) r = false := rfl

@[simp] theorem onDomain_cond_domain {f : Str → DomainRow → Bool} {g : DomainRow → DomainRow} :
    (onDomain f g).cond db (.domain d) row = f d row := rfl

@[simp] theorem onDomain_set_domain {f : Str → DomainRow → Bool} {g : DomainRow → DomainRow} :
    (onDomain f g).set db (.domain d) row = g row := rfl

end

def jobAt (db : Db Val) (j : JobId) : Job := db (.job j)

def Key.isRowOf (j : JobId) : Key → Bool
  | .row j' _ => decide (j' = j)
  | _ => false

def Key.liveIn (db : Db Val) (j : JobId) : Key → Bool
  | .row j' d => decide (j' = j) && JobDomain.live (db (.row j' d))
  | _ => false

/-- `EXISTS (SELECT 1 FROM job_domains WHERE job_id = j AND state IN (...))`. -/
def hasLive (rows : Finset Key) (db : Db Val) (j : JobId) : Bool :=
  decide (∃ k ∈ rows, k.liveIn db j = true)

theorem hasLive_eq_true {rows : Finset Key} {db : Db Val} {j : JobId} :
    hasLive rows db j = true ↔
      ∃ d, Key.row j d ∈ rows ∧ JobDomain.live (db (.row j d)) = true := by
  simp only [hasLive, decide_eq_true_eq]
  constructor
  · rintro ⟨k, hk, hlive⟩
    cases k with
    | row j' d =>
      simp only [Key.liveIn, Bool.and_eq_true, decide_eq_true_eq] at hlive
      obtain ⟨rfl, hlive⟩ := hlive
      exact ⟨d, hk, hlive⟩
    | _ => simp [Key.liveIn] at hlive
  · rintro ⟨d, hk, hlive⟩
    exact ⟨_, hk, by simp [Key.liveIn, hlive]⟩

theorem hasLive_mono {rows : Finset Key} {db db' : Db Val} {j : JobId}
    (hsub : ∀ d, JobDomain.live (db' (.row j d)) = true → JobDomain.live (db (.row j d)) = true)
    (hdead : hasLive rows db j = false) : hasLive rows db' j = false := by
  rw [← Bool.not_eq_true, hasLive_eq_true] at hdead ⊢
  rintro ⟨d, hk, hlive⟩
  exact hdead ⟨d, hk, hsub d hlive⟩

/-- `SELECT count(*) FROM job_domains WHERE job_id = j`. -/
def countRows (rows : Finset Key) (j : JobId) : ℕ := (rows.filter fun k => k.isRowOf j).card

/-! ## `claim`, `lock_domain` and `unlock_domain` -/

/-- The `UPDATE` of `_CLAIM_FROM_JOB` on the row picked by its subquery. -/
def claimRow (now : Time) (tok : Str) (j : JobId) (d : Str) : Stmt Val :=
  onRow (fun j' d' _ => decide (j' = j) && decide (d' = d)) (JobDomain.claimed now tok)

def startJob (now : Time) (j : JobId) : Stmt Val :=
  onJob (fun _ j' job => decide (j' = j) && job.unstarted) fun _ _ job => job.started now

def lockDomainStmt (now : Time) (c : Claim) : Stmt Val :=
  onDomain (fun d row => decide (d = c.domain) && row.lockable now)
    (DomainRow.locked now c.token)

def unlockDomainStmt (c : Claim) : Stmt Val :=
  onDomain (fun d row => decide (d = c.domain) && row.lockedBy c.token) DomainRow.unlocked

/-! ## `requeue`, `reap`, `release_worker` and `heartbeat` -/

/-- The row of the claim, as long as the claim holds it. -/
def Claim.owns (c : Claim) (j : JobId) (d : Str) (r : JobDomain) : Bool :=
  decide (j = c.jobId) && decide (d = c.domain) && r.heldBy c.token

def requeueRow (now : Time) (c : Claim) (delay : ℚ) (countAttempt : Bool) : Stmt Val :=
  onRow c.owns (JobDomain.requeued now delay (if countAttempt then 0 else 1))

def reapRows (now : Time) : Stmt Val :=
  onRow (fun _ _ r => r.silent now) (JobDomain.reaped now)

def tokenPattern (worker : Str) : Str := worker ++ "|%".toList

def releaseRows (now : Time) (worker : Str) : Stmt Val :=
  onRow (fun _ _ r => r.heldLike (tokenPattern worker)) (JobDomain.released now)

def releaseDomains (worker : Str) : Stmt Val :=
  onDomain (fun _ row => row.lockedLike (tokenPattern worker)) DomainRow.unlocked

def beatRows (now : Time) (tokens : List Str) : Stmt Val :=
  onRow (fun _ _ r => r.heldByAny tokens) (JobDomain.beat now)

def renewDomains (now : Time) (tokens : List Str) : Stmt Val :=
  onDomain (fun _ row => row.lockedByAny tokens) (DomainRow.renewed now)

/-! ## `finish` and the completion of jobs -/

def finishRow (now : Time) (c : Claim) (result : DomainResult) (fromCache : Bool) :
    Stmt Val :=
  onRow c.owns (JobDomain.finished now result fromCache)

def writeCacheStmt (now : Time) (c : Claim) (result : DomainResult) : Stmt Val :=
  onDomain (fun d _ => decide (d = c.domain)) (DomainRow.cached now result)

/-- `SELECT id FROM jobs WHERE id = :j FOR UPDATE`. -/
def lockJobStmt (j : JobId) : Stmt Val :=
  onJob (fun _ j' _ => decide (j' = j)) fun _ _ job => job

/-- The `UPDATE jobs` that completes the jobs selected by `which`, once they have
nothing left to do. -/
def completeStmt (rows : Finset Key) (now : Time) (which : JobId → Bool) : Stmt Val :=
  onJob (fun db j job => which j && job.active && !hasLive rows db j)
    (fun _ j job => job.completed now (countRows rows j))

def completeJob (rows : Finset Key) (now : Time) (j : JobId) : Stmt Val :=
  completeStmt rows now fun j' => decide (j' = j)

def completeJobs (rows : Finset Key) (now : Time) : Stmt Val :=
  completeStmt rows now fun _ => true

/-! ## `requeue_failed` -/

def requeueFailedRows (now : Time) (j : JobId) : Stmt Val :=
  onRow (fun j' _ r => decide (j' = j) && r.retryable) (JobDomain.requeuedFailed now)

def reopenJob (now : Time) (j : JobId) : Stmt Val :=
  onJob (fun _ j' job => decide (j' = j) && decide (job.status = .done))
    fun _ _ job => job.reopened now

/-! ## Pausing, resuming and cancelling -/

def pauseActiveJobsStmt (now : Time) (reason : Str) : Stmt Val :=
  onJob (fun _ _ job => job.active) fun _ _ job => job.paused now reason

def transitionStmt (now : Time) (j : JobId) (allowed : List JobStatus) (new : JobStatus)
    (reason : Option Str) : Stmt Val :=
  onJob (fun _ j' job => decide (j' = j) && decide (job.status ∈ allowed))
    fun _ _ job => job.transitioned now new reason

def resumePausedForStmt (now : Time) (reason : Str) : Stmt Val :=
  onJob (fun _ _ job => job.pausedFor reason) fun _ _ job => job.resumed now

end Queue

end EmailExtractor
