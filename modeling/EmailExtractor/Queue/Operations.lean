import EmailExtractor.Queue.Statements

/-!
# The queue operations as atomic transactions

Every operation of `app/queue.py`, the status changes of `app/main.py` and
`Worker._finish` as functions on the whole store. Each of them is the sequence of its
statements, executed with nobody else around.

What the database may choose is a parameter: the result of `_PICK_JOBS` and the row
that the subquery of `_CLAIM_FROM_JOB` picks, whose order is only partly given by
their `ORDER BY`. The random part of a token is a parameter too.
-/

namespace EmailExtractor

namespace Queue

open ReadCommitted

def Key.job? : Key → Option JobId
  | .job j => some j
  | _ => none

def Key.rowDomain? : Key → Option Str
  | .row _ d => some d
  | _ => none

/-- The rows of the three tables and their contents. -/
structure Store where
  rows : Finset Key
  val : Db Val

namespace Store

/-- These rows, as they are inserted. -/
def blank (rows : Finset Key) (job : JobId → Job) : Store where
  rows := rows
  val
    | .job j => job j
    | .row _ _ => ({ seq := 0, availableAt := 0 } : JobDomain)
    | .domain _ => ({ updatedAt := 0 } : DomainRow)

def exec (s : Store) (st : Stmt Val) : Store := { s with val := st.apply s.rows s.val }

def hits (s : Store) (st : Stmt Val) : Finset Key := st.selected s.rows s.val

def job (s : Store) (j : JobId) : Job := s.val (.job j)

def row (s : Store) (j : JobId) (d : Str) : JobDomain := s.val (.row j d)

def domain (s : Store) (d : Str) : DomainRow := s.val (.domain d)

section

variable {s : Store} {st : Stmt Val} {j : JobId} {d : Str}

@[simp] theorem rows_exec : (s.exec st).rows = s.rows := rfl

theorem mem_hits {k : Key} : k ∈ s.hits st ↔ k ∈ s.rows ∧ st.cond s.val k (s.val k) = true :=
  Finset.mem_filter

theorem exec_of_hits_eq_empty (h : s.hits st = ∅) : s.exec st = s := by
  have hval : st.apply s.rows s.val = s.val := by
    funext k
    unfold Stmt.apply
    rw [if_neg]
    unfold hits at h
    simp [h]
  simp only [exec, hval]

variable {f : JobId → Str → JobDomain → Bool} {g : JobDomain → JobDomain}

theorem row_mem_hits :
    .row j d ∈ s.hits (onRow f g) ↔ .row j d ∈ s.rows ∧ f j d (s.row j d) = true := mem_hits

theorem row_exec_onRow :
    (s.exec (onRow f g)).row j d =
      if .row j d ∈ s.rows ∧ f j d (s.row j d) = true then g (s.row j d) else s.row j d := by
  simp only [exec, row, Stmt.apply, Stmt.selected, Finset.mem_filter, onRow_cond_row,
    onRow_set_row]
  rfl

@[simp] theorem row_exec_onJob {f : Db Val → JobId → Job → Bool}
    {g : Db Val → JobId → Job → Job} : (s.exec (onJob f g)).row j d = s.row j d := by
  simp [exec, row, Stmt.apply, Stmt.selected]

@[simp] theorem row_exec_onDomain {f : Str → DomainRow → Bool} {g : DomainRow → DomainRow} :
    (s.exec (onDomain f g)).row j d = s.row j d := by
  simp [exec, row, Stmt.apply, Stmt.selected]

@[simp] theorem job_exec_onRow : (s.exec (onRow f g)).job j = s.job j := by
  simp [exec, job, Stmt.apply, Stmt.selected]

@[simp] theorem job_exec_onDomain {f : Str → DomainRow → Bool} {g : DomainRow → DomainRow} :
    (s.exec (onDomain f g)).job j = s.job j := by
  simp [exec, job, Stmt.apply, Stmt.selected]

theorem domain_exec_onDomain {f : Str → DomainRow → Bool} {g : DomainRow → DomainRow} :
    (s.exec (onDomain f g)).domain d =
      if .domain d ∈ s.rows ∧ f d (s.domain d) = true then g (s.domain d)
      else s.domain d := by
  simp only [exec, domain, Stmt.apply, Stmt.selected, Finset.mem_filter,
    onDomain_cond_domain, onDomain_set_domain]
  rfl

end

/-! ## `claim` -/

def isRowWhere (s : Store) (p : JobId → JobDomain → Bool) : Key → Bool
  | .row j d => p j (s.row j d)
  | _ => false

def rowsWhere (s : Store) (p : JobId → JobDomain → Bool) : Finset Key :=
  s.rows.filter fun k => s.isRowWhere p k

theorem row_mem_rowsWhere {s : Store} {p : JobId → JobDomain → Bool} {j : JobId} {d : Str} :
    .row j d ∈ s.rowsWhere p ↔ .row j d ∈ s.rows ∧ p j (s.row j d) = true :=
  Finset.mem_filter

theorem mem_rowsWhere {s : Store} {p : JobId → JobDomain → Bool} {k : Key} :
    k ∈ s.rowsWhere p ↔ ∃ j d, k = .row j d ∧ .row j d ∈ s.rows ∧ p j (s.row j d) = true := by
  unfold rowsWhere
  rw [Finset.mem_filter]
  cases k <;> simp [isRowWhere]

def claimableRows (s : Store) (now : Time) (j : JobId) : Finset Key :=
  s.rowsWhere fun j' r => decide (j' = j) && r.claimable now

/-- The `WHERE` clause of `_PICK_JOBS`. -/
def pickable (s : Store) (now : Time) (j : JobId) : Bool :=
  decide (.job j ∈ s.rows) && (s.job j).active && decide ((s.claimableRows now j) ≠ ∅)

def running (s : Store) (which : JobId → Bool) : ℕ :=
  (s.rowsWhere fun j r =>
    decide (.job j ∈ s.rows) && which j && decide (r.state = .running)).card

/-- The running rows of the owner of the job. Jobs without an owner count as one. -/
def ownerRunning (s : Store) (j : JobId) : ℕ :=
  s.running fun j' => decide ((s.job j').ownerId = (s.job j).ownerId)

def jobRunning (s : Store) (j : JobId) : ℕ := s.running fun j' => decide (j' = j)

/-- The `ORDER BY` clause of `_PICK_JOBS`: `j` may come before `j'`. -/
def ranksBefore (s : Store) (j j' : JobId) : Bool :=
  decide (s.ownerRunning j < s.ownerRunning j') ||
    (decide (s.ownerRunning j = s.ownerRunning j') &&
      (decide (s.jobRunning j < s.jobRunning j') ||
        (decide (s.jobRunning j = s.jobRunning j') &&
          decide ((s.job j).createdAt ≤ (s.job j').createdAt))))

def PickJobs (s : Store) (now : Time) (js : List JobId) : Prop :=
  js.Nodup ∧ js.length ≤ 5 ∧ (∀ j ∈ js, s.pickable now j = true) ∧
    js.Pairwise (fun j j' => s.ranksBefore j j' = true) ∧
    ∀ k ∈ s.rows, ∀ j' ∈ k.job?, s.pickable now j' = true → j' ∉ js →
      js.length = 5 ∧ ∀ j ∈ js, s.ranksBefore j j' = true

/-- The subquery of `_CLAIM_FROM_JOB` may pick the row: nothing that can be claimed
comes before it. -/
def NextRow (s : Store) (now : Time) (j : JobId) (d : Str) : Prop :=
  .row j d ∈ s.claimableRows now j ∧
    ∀ k ∈ s.claimableRows now j, ∀ d' ∈ k.rowDomain?, (s.row j d).seq ≤ (s.row j d').seq

instance (s : Store) (now : Time) (js : List JobId) : Decidable (s.PickJobs now js) :=
  inferInstanceAs (Decidable (_ ∧ _ ∧ _ ∧ _ ∧ _))

instance (s : Store) (now : Time) (j : JobId) (d : Str) : Decidable (s.NextRow now j d) :=
  inferInstanceAs (Decidable (_ ∧ _))

end Store

/-- `new_token`, given its random part. -/
def newToken (worker hex : Str) : Str := worker ++ '|' :: hex

/-- One round of the loop in `claim`: the job, the random part of its token and the
row picked, if the job has one to claim. -/
structure Try where
  jobId : JobId
  hex : Str
  domain : Str
  deriving DecidableEq

/-- The loop of `claim` over the picked jobs. -/
def claimLoop (s : Store) (now : Time) (worker : Str) : List Try → Store × Option Claim
  | [] => (s, none)
  | t :: rest =>
    if s.claimableRows now t.jobId = ∅ then claimLoop s now worker rest
    else
      let tok := newToken worker t.hex
      let s' := s.exec (claimRow now tok t.jobId t.domain)
      let r := s'.row t.jobId t.domain
      (s'.exec (startJob now t.jobId),
        some ⟨t.jobId, t.domain, r.attempts, tok, r.requeuedAt⟩)

def ClaimChoices (s : Store) (now : Time) (tries : List Try) : Prop :=
  s.PickJobs now (tries.map Try.jobId) ∧
    ∀ t ∈ tries, s.claimableRows now t.jobId ≠ ∅ → s.NextRow now t.jobId t.domain

instance (s : Store) (now : Time) (tries : List Try) :
    Decidable (ClaimChoices s now tries) :=
  inferInstanceAs (Decidable (_ ∧ ∀ t ∈ tries, _))

def claim (s : Store) (now : Time) (worker : Str) (tries : List Try) : Store × Option Claim :=
  claimLoop s now worker tries

/-! ## The other operations of a claim -/

/-- `lock_domain`: the row is inserted if it is not there. -/
def lockDomain (s : Store) (now : Time) (c : Claim) : Store × Bool :=
  let s' : Store :=
    if .domain c.domain ∈ s.rows then s
    else
      { rows := insert (.domain c.domain) s.rows
        val := Function.update s.val (.domain c.domain) ({ updatedAt := now } : DomainRow) }
  (s'.exec (lockDomainStmt now c), decide (s'.hits (lockDomainStmt now c) ≠ ∅))

def unlockDomain (s : Store) (c : Claim) : Store := s.exec (unlockDomainStmt c)

def requeue (s : Store) (now : Time) (c : Claim) (delay : ℚ) (countAttempt : Bool) : Store :=
  s.exec (requeueRow now c delay countAttempt)

def heartbeat (s : Store) (now : Time) (tokens : List Str) : Store :=
  if tokens = [] then s
  else (s.exec (beatRows now tokens)).exec (renewDomains now tokens)

/-- `complete_if_finished`; the lock it takes first changes nothing. -/
def completeIfFinished (s : Store) (now : Time) (j : JobId) : Store × Bool :=
  let st := completeJob s.rows now j
  (s.exec st, decide (s.hits st ≠ ∅))

/-- `finish` returns `(recorded, job_done)`. -/
def finish (s : Store) (now : Time) (c : Claim) (result : DomainResult)
    (fromCache writeCache : Bool) : Store × Bool × Bool :=
  let own := finishRow now c result fromCache
  if s.hits own = ∅ then (unlockDomain s c, false, false)
  else
    let s := s.exec own
    let s := if !fromCache && writeCache then s.exec (writeCacheStmt now c result) else s
    let s := s.exec (unlockDomainStmt c)
    let (s, done) := completeIfFinished s now c.jobId
    (s, true, done)

/-! ## Maintenance -/

def reap (s : Store) (now : Time) : Store × ℕ :=
  (s.exec (reapRows now), (s.hits (reapRows now)).card)

def releaseWorker (s : Store) (now : Time) (worker : Str) : Store :=
  (s.exec (releaseRows now worker)).exec (releaseDomains worker)

def requeueFailed (s : Store) (now : Time) (j : JobId) : Store × ℕ :=
  let rows := s.hits (requeueFailedRows now j)
  let s := s.exec (requeueFailedRows now j)
  (if rows = ∅ then s else s.exec (reopenJob now j), rows.card)

def completeFinishedJobs (s : Store) (now : Time) : Store × ℕ :=
  let st := completeJobs s.rows now
  (s.exec st, (s.hits st).card)

/-! ## Status changes -/

def pauseActiveJobs (s : Store) (now : Time) (reason : Str) : Store :=
  s.exec (pauseActiveJobsStmt now reason)

/-- `_transition`: the new status, if the old one was allowed. -/
def transition (s : Store) (now : Time) (j : JobId) (allowed : List JobStatus)
    (new : JobStatus) (reason : Option Str) : Store × Option JobStatus :=
  let st := transitionStmt now j allowed new reason
  (s.exec st, if s.hits st = ∅ then none else some new)

/-- The first transaction of `resume_job`; the second is `complete_if_finished`. -/
def resumeJob (s : Store) (now : Time) (j : JobId) : Store × Option JobStatus :=
  transition s now j [.paused] .running none

def cancelJob (s : Store) (now : Time) (j : JobId) : Store × Option JobStatus :=
  transition s now j [.queued, .running, .paused] .cancelled none

/-- The first transaction of `_resume_paused_for`; the others are a
`complete_if_finished` for each of its jobs. -/
def resumePausedFor (s : Store) (now : Time) (reason : Str) : Store × ℕ :=
  let st := resumePausedForStmt now reason
  (s.exec st, (s.hits st).card)

/-! ## `Worker._finish` -/

/-- The webhooks. In place of `row_indexes` stands the domain whose items they are;
`counts` is left out. -/
inductive Webhook
  | domainDone (url : Str) (j : JobId) (d : Str) (result : DomainResult)
  | jobDone (url : Str) (j : JobId)
  deriving DecidableEq

/-- `Worker._finish` returns what it submits; the job is read from the store. -/
def workerFinish (s : Store) (now : Time) (c : Claim) (result : DomainResult)
    (fromCache writeCache : Bool) : Store × List Webhook :=
  let (s', recorded, jobDone) := finish s now c result fromCache writeCache
  if recorded = false then (s', [])
  else if .job c.jobId ∉ s.rows then (s', [])
  else
    match (s.job c.jobId).webhookUrl.filter fun url => !url.isEmpty with
    | none => (s', [])
    | some url =>
      (s', .domainDone url c.jobId c.domain result ::
        if jobDone then [.jobDone url c.jobId] else [])

theorem workerFinish_store (s : Store) (now : Time) (c : Claim) (result : DomainResult)
    (fromCache writeCache : Bool) :
    (workerFinish s now c result fromCache writeCache).1 =
      (finish s now c result fromCache writeCache).1 := by
  obtain ⟨⟨s', recorded, jobDone⟩, hfin⟩ :
    ∃ x, finish s now c result fromCache writeCache = x := ⟨_, rfl⟩
  simp only [workerFinish, hfin]
  split
  · rfl
  · split
    · rfl
    · split <;> rfl

end Queue

end EmailExtractor
