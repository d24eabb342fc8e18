import EmailExtractor.Library.Like
import EmailExtractor.Schemas

/-!
# Rows of the queue and what the statements do to one row

The tables of `app/models.py` as `app/queue.py` uses them. A table is keyed by its
primary key, so a row holds the other columns. Columns that no modelled statement
reads or writes are left out.

Every `UPDATE` is given by two functions on a single row, its `WHERE` clause on
the non-key columns and its `SET` clause. The transactions, atomic or statement
by statement, are built from these.
-/

namespace EmailExtractor

namespace Queue

/-- A point in time, in seconds. -/
abbrev Time := ℚ

abbrev JobId := ℕ

inductive JobStatus
  | queued
  | running
  | paused
  | done
  | failed
  | cancelled
  deriving DecidableEq

inductive RowState
  | queued
  | running
  | done
  deriving DecidableEq

inductive Stage
  | pending
  | dns
  | discovery
  | fetching
  | extracting
  | judging
  | done
  deriving DecidableEq

/-- A row of `jobs`, keyed by `id`. -/
structure Job where
  createdAt : Time
  status : JobStatus := .queued
  finishedAt : Option Time := none
  doneCount : ℕ := 0
  webhookUrl : Option Str := none
  pauseReason : Option Str := none
  pausedAt : Option Time := none
  startedAt : Option Time := none
  pausedSeconds : ℚ := 0
  ownerId : Option ℕ := none
  fresh : Bool := false
  deriving DecidableEq

/-- A row of `job_domains`, keyed by `(job_id, domain)`. -/
structure JobDomain where
  seq : ℕ
  state : RowState := .queued
  attempts : ℤ := 0
  availableAt : Time
  claimedBy : Option Str := none
  heartbeatAt : Option Time := none
  finishedAt : Option Time := none
  fromCache : Bool := false
  jinaTokens : ℤ := 0
  status : Option Status := none
  result : Option DomainResult := none
  needsReview : Bool := false
  typesafeCalled : Bool := false
  hasPhone : Bool := false
  hasForm : Bool := false
  hasLinkedin : Bool := false
  requeuedAt : Option Time := none
  deriving DecidableEq

/-- A row of `domains`, keyed by `domain`. -/
structure DomainRow where
  stage : Stage := .pending
  status : Option Status := none
  result : Option DomainResult := none
  attempts : ℤ := 0
  updatedAt : Time
  finishedAt : Option Time := none
  lockOwner : Option Str := none
  lockUntil : Option Time := none
  deriving DecidableEq

structure Claim where
  jobId : JobId
  domain : Str
  attempts : ℤ
  token : Str
  notBefore : Option Time := none
  deriving DecidableEq

/-- A worker silent this long has its rows and domain locks taken back. -/
def leaseS : ℚ := 90

/-- Python truth of an optional string. -/
def truthy (s : Option Str) : Bool :=
  match s with
  | none => false
  | some t => !t.isEmpty

/-- `state IN ('queued', 'running')`. -/
def JobDomain.live (r : JobDomain) : Bool :=
  decide (r.state = .queued) || decide (r.state = .running)

/-- `status IN ('queued', 'running')`. -/
def Job.active (j : Job) : Bool :=
  decide (j.status = .queued) || decide (j.status = .running)

/-! ## `claim` -/

/-- `state = 'queued' AND available_at <= now()`. -/
def JobDomain.claimable (now : Time) (r : JobDomain) : Bool :=
  decide (r.state = .queued) && decide (r.availableAt ≤ now)

def JobDomain.claimed (now : Time) (tok : Str) (r : JobDomain) : JobDomain :=
  { r with
    state := .running
    claimedBy := some tok
    heartbeatAt := some now
    attempts := r.attempts + 1 }

/-- The first claim of a job has something to write on it. -/
def Job.unstarted (j : Job) : Bool := decide (j.status = .queued) || j.startedAt.isNone

def Job.started (now : Time) (j : Job) : Job :=
  { j with
    status := if j.status = .queued then .running else j.status
    startedAt := some (j.startedAt.getD now) }

/-! ## `lock_domain` -/

/-- `lock_owner IS NULL OR lock_until < now()`. -/
def DomainRow.lockable (now : Time) (d : DomainRow) : Bool :=
  d.lockOwner.isNone || d.lockUntil.any fun u => decide (u < now)

def DomainRow.locked (now : Time) (tok : Str) (d : DomainRow) : DomainRow :=
  { d with lockOwner := some tok, lockUntil := some (now + leaseS), stage := .fetching }

/-! ## `requeue`, `reap` and `release_worker` -/

def JobDomain.requeued (now : Time) (delay : ℚ) (refund : ℤ) (r : JobDomain) : JobDomain :=
  { r with
    state := .queued
    claimedBy := none
    heartbeatAt := none
    availableAt := now + delay
    attempts := r.attempts - refund }

/-- The worker of a running row has been quiet for longer than the lease. -/
def JobDomain.silent (now : Time) (r : JobDomain) : Bool :=
  decide (r.state = .running) && r.heartbeatAt.any fun t => decide (t < now - leaseS)

def JobDomain.reaped (now : Time) (r : JobDomain) : JobDomain :=
  { r with state := .queued, claimedBy := none, heartbeatAt := none, availableAt := now }

/-- `state = 'running' AND claimed_by LIKE :prefix`. -/
def JobDomain.heldLike (pattern : Str) (r : JobDomain) : Bool :=
  decide (r.state = .running) && r.claimedBy.any (Sql.like pattern)

def JobDomain.released (now : Time) (r : JobDomain) : JobDomain :=
  { r with
    state := .queued
    claimedBy := none
    heartbeatAt := none
    availableAt := now
    attempts := max (r.attempts - 1) 0 }

def DomainRow.lockedLike (pattern : Str) (d : DomainRow) : Bool :=
  d.lockOwner.any (Sql.like pattern)

/-! ## `heartbeat` -/

def JobDomain.heldByAny (tokens : List Str) (r : JobDomain) : Bool :=
  decide (r.state = .running) && r.claimedBy.any fun t => decide (t ∈ tokens)

def JobDomain.beat (now : Time) (r : JobDomain) : JobDomain := { r with heartbeatAt := some now }

def DomainRow.lockedByAny (tokens : List Str) (d : DomainRow) : Bool :=
  d.lockOwner.any fun t => decide (t ∈ tokens)

def DomainRow.renewed (now : Time) (d : DomainRow) : DomainRow :=
  { d with lockUntil := some (now + leaseS) }

/-! ## Pausing, resuming and cancelling a job -/

def Job.paused (now : Time) (reason : Str) (j : Job) : Job :=
  { j with status := .paused, pauseReason := some reason, pausedAt := some now }

/-- The length of the pause that ends now; only pauses after work began count. -/
def Job.pauseLength (now : Time) (j : Job) : ℚ :=
  match j.startedAt, j.pausedAt with
  | some started, some paused => now - max paused started
  | _, _ => 0

/-- The `SET` clause of `_transition`. -/
def Job.transitioned (now : Time) (new : JobStatus) (reason : Option Str) (j : Job) : Job :=
  { j with
    status := new
    pauseReason := reason
    pausedSeconds := j.pausedSeconds + j.pauseLength now
    pausedAt := none
    finishedAt := if new = .cancelled then some (j.finishedAt.getD now) else j.finishedAt }

/-- `status = 'paused' AND pause_reason = :r`. -/
def Job.pausedFor (reason : Str) (j : Job) : Bool :=
  decide (j.status = .paused) && decide (j.pauseReason = some reason)

/-- The `SET` clause of `_resume_paused_for`. -/
def Job.resumed (now : Time) (j : Job) : Job :=
  { j with
    status := .running
    pauseReason := none
    pausedSeconds := j.pausedSeconds + j.pauseLength now
    pausedAt := none }

/-! ## `finish` -/

def JobDomain.heldBy (tok : Str) (r : JobDomain) : Bool :=
  decide (r.state = .running) && decide (r.claimedBy = some tok)

def JobDomain.finished (now : Time) (result : DomainResult) (fromCache : Bool)
    (r : JobDomain) : JobDomain :=
  { r with
    state := .done
    finishedAt := some now
    claimedBy := none
    fromCache := fromCache
    jinaTokens := if fromCache then 0 else result.jinaTokens
    status := some result.status
    result := some result
    needsReview := result.needsReview
    typesafeCalled := result.typesafeCalled && !fromCache
    hasPhone := !result.phones.isEmpty
    hasForm := truthy result.contactFormUrl
    hasLinkedin := truthy (Dict.get? "linkedin".toList result.socials) }

def DomainRow.cached (now : Time) (result : DomainResult) (d : DomainRow) : DomainRow :=
  { d with
    status := some result.status
    result := some result
    stage := .done
    finishedAt := some now
    updatedAt := now
    attempts := d.attempts + 1 }

def DomainRow.lockedBy (tok : Str) (d : DomainRow) : Bool := decide (d.lockOwner = some tok)

def DomainRow.unlocked (d : DomainRow) : DomainRow :=
  { d with
    lockOwner := none
    lockUntil := none
    stage := if d.finishedAt.isNone then .pending else .done }

/-- The `SET` clause of a completion; `rows` counts the job's rows. -/
def Job.completed (now : Time) (rows : ℕ) (j : Job) : Job :=
  { j with status := .done, finishedAt := some now, doneCount := rows }

/-! ## `requeue_failed` -/

def retryableFailureReasons : List Str :=
  ["homepage".toList, "dns".toList, "circuit_open".toList, "domain_timeout".toList,
    "internal_error".toList, "private_address".toList]

/-- The failed rows worth another go. -/
def JobDomain.retryable (r : JobDomain) : Bool :=
  decide (r.state = .done) && decide (r.status = some .fetchFailed) &&
    match r.result with
    | none => false
    | some res =>
      (match res.errorReason with
        | none => false
        | some reason => decide (reason ∈ retryableFailureReasons)) ||
      decide (res.siteStatus = some "too_many_attempts".toList)

def JobDomain.requeuedFailed (now : Time) (r : JobDomain) : JobDomain :=
  { r with
    state := .queued
    attempts := 0
    claimedBy := none
    heartbeatAt := none
    availableAt := now
    requeuedAt := some now }

/-- A done job goes back to running; the time it sat finished is booked as
paused. -/
def Job.reopened (now : Time) (j : Job) : Job :=
  { j with
    status := .running
    pausedSeconds := j.pausedSeconds + (j.finishedAt.map (now - ·)).getD 0
    finishedAt := none }

end Queue

end EmailExtractor
