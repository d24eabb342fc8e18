import EmailExtractor.Queue.System

/-!
# What one operation can do to a row

The statements of an operation are guarded by the token of a claim, by the age of a
heartbeat or by the status of a job. Here this is said once for each table: an
operation leaves a row of `job_domains`, `domains` or `jobs` as it is, or changes it in
one of the listed ways, whose guard then holds. What whole runs preserve is derived
from these lists.
-/

namespace EmailExtractor

namespace Queue

open ReadCommitted List

/-- The action is a `finish` of the row that is recorded. -/
def records (j : JobId) (d : Str) (s : Store) (a : Action) : Bool :=
  match a.op with
  | .finish c result fromCache writeCache =>
    decide (c.jobId = j) && decide (c.domain = d) &&
      (finish s a.now c result fromCache writeCache).2.1
  | _ => false

/-- The action is a `requeue_failed` that takes the row back. -/
def retriesRow (j : JobId) (d : Str) (s : Store) (a : Action) : Bool :=
  match a.op with
  | .requeueFailed j' => decide (.row j d ∈ s.hits (requeueFailedRows a.now j'))
  | _ => false

section

variable {s : Store} {now : Time} {c : Claim} {result : DomainResult}
  {fromCache writeCache : Bool} {j : JobId} {d : Str}

/-! ## One `finish` -/

theorem hits_finishRow_eq_empty :
    s.hits (finishRow now c result fromCache) = ∅ ↔
      ¬ (.row c.jobId c.domain ∈ s.rows ∧
        (s.row c.jobId c.domain).heldBy c.token = true) := by
  constructor
  · rintro hempty ⟨hmem, hheld⟩
    have hhit : Key.row c.jobId c.domain ∈ s.hits (finishRow now c result fromCache) := by
      apply Store.row_mem_hits.mpr
      exact ⟨hmem, by simp [Claim.owns, hheld]⟩
    simp [hempty] at hhit
  · intro hno
    apply Finset.eq_empty_of_forall_notMem
    intro k hk
    rw [Store.mem_hits] at hk
    obtain ⟨hmem, hcond⟩ := hk
    cases k with
    | row j d =>
      simp only [finishRow, Claim.owns, onRow_cond_row, Bool.and_eq_true,
        decide_eq_true_eq] at hcond
      obtain ⟨⟨rfl, rfl⟩, hheld⟩ := hcond
      exact hno ⟨hmem, hheld⟩
    | _ => simp [finishRow] at hcond

theorem recorded_iff : (finish s now c result fromCache writeCache).2.1 = true ↔
    .row c.jobId c.domain ∈ s.rows ∧ (s.row c.jobId c.domain).heldBy c.token = true := by
  unfold finish
  by_cases hempty : s.hits (finishRow now c result fromCache) = ∅
  · simp only [if_pos hempty]
    have hno := hits_finishRow_eq_empty.mp hempty
    simpa using hno
  · simp only [if_neg hempty]
    rw [hits_finishRow_eq_empty, not_not] at hempty
    simpa using hempty

theorem row_finish : (finish s now c result fromCache writeCache).1.row j d =
    (s.exec (finishRow now c result fromCache)).row j d := by
  unfold finish
  by_cases hempty : s.hits (finishRow now c result fromCache) = ∅
  · simp only [if_pos hempty, unlockDomain, unlockDomainStmt, Store.row_exec_onDomain]
    rw [Store.exec_of_hits_eq_empty hempty]
  · simp only [if_neg hempty, completeIfFinished, completeJob, completeStmt,
      unlockDomainStmt, Store.row_exec_onDomain, Store.row_exec_onJob]
    split
    · simp only [writeCacheStmt, Store.row_exec_onDomain]
    · rfl

/-- An unrecorded `finish` at most clears a lock on the domain held by its own
token. -/
theorem finish_of_not_recorded
    (hno : (finish s now c result fromCache writeCache).2.1 = false) :
    (finish s now c result fromCache writeCache).1 = unlockDomain s c := by
  unfold finish at hno ⊢
  by_cases hempty : s.hits (finishRow now c result fromCache) = ∅
  · simp only [if_pos hempty]
  · simp [if_neg hempty] at hno

end

section

variable {s : Store} {now : Time} {j : JobId} {d : Str}

/-! ## Statements on one table -/

variable {f : Db Val → JobId → Job → Bool} {g : Db Val → JobId → Job → Job}

theorem Store.job_exec_onJob :
    (s.exec (onJob f g)).job j =
      if .job j ∈ s.rows ∧ f s.val j (s.job j) = true then g s.val j (s.job j)
      else s.job j := by
  simp only [Store.exec, Store.job, Stmt.apply, Stmt.selected, Finset.mem_filter,
    onJob_cond_job, onJob_set_job]
  rfl

@[simp] theorem Store.domain_exec_onRow {f : JobId → Str → JobDomain → Bool}
    {g : JobDomain → JobDomain} : (s.exec (onRow f g)).domain d = s.domain d := by
  simp [Store.exec, Store.domain, Stmt.apply, Stmt.selected]

@[simp] theorem Store.domain_exec_onJob : (s.exec (onJob f g)).domain d = s.domain d := by
  simp [Store.exec, Store.domain, Stmt.apply, Stmt.selected]

theorem Store.job_mem_hits :
    .job j ∈ s.hits (onJob f g) ↔ .job j ∈ s.rows ∧ f s.val j (s.job j) = true :=
  Store.mem_hits

theorem Store.domain_mem_hits {f : Str → DomainRow → Bool} {g : DomainRow → DomainRow} :
    .domain d ∈ s.hits (onDomain f g) ↔ .domain d ∈ s.rows ∧ f d (s.domain d) = true :=
  Store.mem_hits

/-! ## `claim` -/

/-- A `claim` finds nothing, or takes a row of a job that can be picked and starts the
job. -/
theorem claim_cases (worker : Str) {tries : List Try} (hchoices : ClaimChoices s now tries) :
    claim s now worker tries = (s, none) ∨
      ∃ t ∈ tries, s.pickable now t.jobId = true ∧ .row t.jobId t.domain ∈ s.rows ∧
        (s.row t.jobId t.domain).claimable now = true ∧
        claim s now worker tries =
          ((s.exec (claimRow now (newToken worker t.hex) t.jobId t.domain)).exec
              (startJob now t.jobId),
            some ⟨t.jobId, t.domain, (s.row t.jobId t.domain).attempts + 1,
              newToken worker t.hex, (s.row t.jobId t.domain).requeuedAt⟩) := by
  obtain ⟨⟨-, -, hpick, -⟩, hnext⟩ := hchoices
  have hpick' : ∀ t ∈ tries, s.pickable now t.jobId = true := by
    intro t ht
    exact hpick t.jobId (mem_map_of_mem ht)
  clear hpick
  unfold claim
  induction tries with
  | nil => exact .inl rfl
  | cons t rest ih =>
    unfold claimLoop
    by_cases hempty : s.claimableRows now t.jobId = ∅
    · rw [if_pos hempty]
      rcases ih (fun t' ht' => hnext t' (mem_cons_of_mem t ht'))
        (fun t' ht' => hpick' t' (mem_cons_of_mem t ht')) with hnone | ⟨t', ht', hrest⟩
      · exact .inl hnone
      · exact .inr ⟨t', mem_cons_of_mem t ht', hrest⟩
    · rw [if_neg hempty]
      obtain ⟨hmem, _⟩ := hnext t mem_cons_self hempty
      obtain ⟨hrow, hclaimable⟩ := Store.row_mem_rowsWhere.mp hmem
      simp only [decide_true, Bool.true_and] at hclaimable
      refine .inr ⟨t, mem_cons_self, hpick' t mem_cons_self, hrow, hclaimable, ?_⟩
      have hclaimed : (s.exec (claimRow now (newToken worker t.hex) t.jobId t.domain)).row
          t.jobId t.domain = (s.row t.jobId t.domain).claimed now (newToken worker t.hex) := by
        rw [claimRow, Store.row_exec_onRow, if_pos ⟨hrow, by simp⟩]
      simp only [hclaimed]
      rfl

end

/-! ## Rows of `job_domains` -/

def claimsRow (j : JobId) (d : Str) (s : Store) (a : Action) : Bool :=
  (a.op.claimed a.now s).any fun c => decide (c.jobId = j) && decide (c.domain = d)

/-- The action gives the row back and takes the attempt off its count. -/
def refundsRow (j : JobId) (d : Str) (s : Store) (a : Action) : Bool :=
  match a.op with
  | .requeue c _ countAttempt =>
    !countAttempt && decide (.row j d ∈ s.rows) && c.owns j d (s.row j d)
  | .releaseWorker worker =>
    decide (.row j d ∈ s.rows) && (s.row j d).heldLike (tokenPattern worker)
  | _ => false

def Op.returns : Op → Option Claim
  | .requeue c _ _ => some c
  | .finish c _ _ _ => some c
  | _ => none

inductive RowChange (s : Store) (a : Action) (j : JobId) (d : Str) : JobDomain → Prop
  | same (hclaim : claimsRow j d s a = false) (hrefund : refundsRow j d s a = false)
      (hretry : retriesRow j d s a = false)
      (hkeep : ∀ c ∈ a.op.returns, c.owns j d (s.row j d) = false) :
      RowChange s a j d (s.row j d)
  | claim {worker : Str} {tries : List Try} {c : Claim} (hop : a.op = .claim worker tries)
      (hclaimed : a.op.claimed a.now s = some c) (hj : c.jobId = j) (hd : c.domain = d)
      (hattempts : c.attempts = (s.row j d).attempts + 1)
      (hnotBefore : c.notBefore = (s.row j d).requeuedAt)
      (hclaimable : (s.row j d).claimable a.now = true) :
      RowChange s a j d ((s.row j d).claimed a.now c.token)
  | requeue {c : Claim} {delay : ℚ} {countAttempt : Bool}
      (hop : a.op = .requeue c delay countAttempt) (howns : c.owns j d (s.row j d) = true) :
      RowChange s a j d
        ((s.row j d).requeued a.now delay (if countAttempt then 0 else 1))
  | finish {c : Claim} {result : DomainResult} {fromCache writeCache : Bool}
      (hop : a.op = .finish c result fromCache writeCache)
      (howns : c.owns j d (s.row j d) = true) :
      RowChange s a j d ((s.row j d).finished a.now result fromCache)
  | beat {tokens : List Str} (hop : a.op = .heartbeat tokens)
      (hheld : (s.row j d).heldByAny tokens = true) :
      RowChange s a j d ((s.row j d).beat a.now)
  | reap (hop : a.op = .reap) (hsilent : (s.row j d).silent a.now = true) :
      RowChange s a j d ((s.row j d).reaped a.now)
  | release {worker : Str} (hop : a.op = .releaseWorker worker)
      (hheld : (s.row j d).heldLike (tokenPattern worker) = true) :
      RowChange s a j d ((s.row j d).released a.now)
  | retry (hop : a.op = .requeueFailed j) (hretryable : (s.row j d).retryable = true) :
      RowChange s a j d ((s.row j d).requeuedFailed a.now)

section

variable {s : System} {a : Action} {j : JobId} {d : Str}

theorem Store.row_exec_of_mem {s : Store} (hmem : .row j d ∈ s.rows)
    (f : JobId → Str → JobDomain → Bool) (g : JobDomain → JobDomain) :
    (s.exec (onRow f g)).row j d = if f j d (s.row j d) then g (s.row j d) else s.row j d := by
  rw [Store.row_exec_onRow]
  simp only [hmem, true_and]

theorem claimed_of_claim {worker : Str} {tries : List Try} {now : Time} {s s' : Store} {c : Claim}
    (h : claim s now worker tries = (s', some c)) :
    (Op.claim worker tries).claimed now s = some c := by
  rw [Op.claimed, h]

/-- The operations that write `jobs` alone. -/
def Op.onlyJobs : Op → Bool
  | .completeIfFinished _ | .completeFinishedJobs | .pauseActiveJobs _ | .resumeJob _
  | .resumePausedFor _ | .cancelJob _ => true
  | _ => false

theorem apply_of_onlyJobs (op : Op) (now : Time) (s : Store) (h : op.onlyJobs = true) :
    ∃ f g, op.apply now s = s.exec (onJob f g) := by
  cases op with
  | completeIfFinished | completeFinishedJobs | pauseActiveJobs | resumeJob | resumePausedFor
  | cancelJob => exact ⟨_, _, rfl⟩
  | _ => simp [Op.onlyJobs] at h

theorem claim_rowChange {worker : Str} {tries : List Try} {now : Time} {s : Store}
    (hchoices : ClaimChoices s now tries) (hmem : .row j d ∈ s.rows) :
    RowChange s ⟨now, .claim worker tries⟩ j d ((claim s now worker tries).1.row j d) := by
  rcases claim_cases worker hchoices with hnone | ⟨t, _, _, _, hclaimable, hclaim⟩
  · rw [hnone]
    apply RowChange.same
    · simp [claimsRow, Op.claimed, hnone]
    · rfl
    · rfl
    · simp [Op.returns]
  · simp only [hclaim, startJob, Store.row_exec_onJob, claimRow, Store.row_exec_of_mem hmem,
      Bool.and_eq_true, decide_eq_true_eq]
    split
    · rename_i hpicked
      obtain ⟨rfl, rfl⟩ := hpicked
      exact .claim (c := ⟨_, _, _, _, _⟩) rfl (claimed_of_claim hclaim) rfl rfl rfl rfl hclaimable
    · rename_i hother
      apply RowChange.same
      · simp only [claimsRow, Op.claimed, hclaim, Option.any_some, Bool.and_eq_false_iff,
          decide_eq_false_iff_not]
        by_contra hboth
        simp only [not_or, not_not] at hboth
        exact hother ⟨hboth.1.symm, hboth.2.symm⟩
      · rfl
      · rfl
      · simp [Op.returns]

theorem rowChange (henabled : a.op.Enabled a.now s) (hmem : .row j d ∈ s.store.rows) :
    RowChange s.store a j d ((a.op.apply a.now s.store).row j d) := by
  obtain ⟨now, op⟩ := a
  have hjobs := apply_of_onlyJobs op now s.store
  cases op with
  | claim worker tries => exact claim_rowChange henabled.2.2 hmem
  | lockDomain c =>
    have hsame : ((Op.lockDomain c).apply now s.store).row j d = s.store.row j d := by
      simp only [Op.apply, lockDomain, lockDomainStmt, Store.row_exec_onDomain]
      split
      · rfl
      · simp [Store.row]
    rw [hsame]
    exact .same rfl rfl rfl (by simp [Op.returns])
  | unlockDomain c =>
    simp only [Op.apply, unlockDomain, unlockDomainStmt, Store.row_exec_onDomain]
    exact .same rfl rfl rfl (by simp [Op.returns])
  | requeue c delay countAttempt =>
    simp only [Op.apply, requeue, requeueRow, Store.row_exec_of_mem hmem]
    split
    · rename_i howns
      exact .requeue rfl howns
    · rename_i hnot
      exact .same rfl (by simp [refundsRow, hnot]) rfl (by simpa [Op.returns] using hnot)
  | finish c result fromCache writeCache =>
    rw [Op.apply, workerFinish_store, row_finish, finishRow, Store.row_exec_of_mem hmem]
    split
    · rename_i howns
      exact .finish rfl howns
    · rename_i hnot
      exact .same rfl rfl rfl (by simpa [Op.returns] using hnot)
  | heartbeat tokens =>
    simp only [Op.apply, heartbeat]
    split
    · exact .same rfl rfl rfl (by simp [Op.returns])
    · simp only [renewDomains, Store.row_exec_onDomain, beatRows, Store.row_exec_of_mem hmem]
      split
      · rename_i hheld
        exact .beat rfl hheld
      · exact .same rfl rfl rfl (by simp [Op.returns])
  | reap =>
    simp only [Op.apply, reap, reapRows, Store.row_exec_of_mem hmem]
    split
    · rename_i hsilent
      exact .reap rfl hsilent
    · exact .same rfl rfl rfl (by simp [Op.returns])
  | releaseWorker worker =>
    simp only [Op.apply, releaseWorker, releaseDomains, Store.row_exec_onDomain, releaseRows,
      Store.row_exec_of_mem hmem]
    split
    · rename_i hheld
      exact .release rfl hheld
    · rename_i hnot
      exact .same rfl (by simp [refundsRow, hnot]) rfl (by simp [Op.returns])
  | requeueFailed j' =>
    have hrow : ((Op.requeueFailed j').apply now s.store).row j d =
        (s.store.exec (requeueFailedRows now j')).row j d := by
      simp only [Op.apply, requeueFailed]
      split
      · rfl
      · rw [reopenJob, Store.row_exec_onJob]
    rw [hrow, requeueFailedRows, Store.row_exec_of_mem hmem]
    split
    · rename_i hhit
      simp only [Bool.and_eq_true, decide_eq_true_eq] at hhit
      obtain ⟨rfl, hretryable⟩ := hhit
      exact .retry rfl hretryable
    · rename_i hnot
      refine .same rfl rfl ?_ (by simp [Op.returns])
      simp only [retriesRow, decide_eq_false_iff_not, requeueFailedRows, Store.row_mem_hits]
      exact fun hhit => hnot hhit.2
  | completeIfFinished | completeFinishedJobs | pauseActiveJobs | resumeJob | resumePausedFor
  | cancelJob =>
    obtain ⟨f, g, happly⟩ := hjobs rfl
    rw [happly, Store.row_exec_onJob]
    exact .same rfl rfl rfl (by simp [Op.returns])

variable {r : JobDomain}

section

variable {s : Store} (h : RowChange s a j d r)

include h

theorem RowChange.of_not_running (hidle : (s.row j d).state ≠ .running) :
    r = s.row j d ∨ claimsRow j d s a = true ∧ (s.row j d).state = .queued ∨
      a.op = .requeueFailed j ∧ (s.row j d).retryable = true := by
  cases h with
  | same => exact .inl rfl
  | claim _ hclaimed hj hd _ _ hclaimable =>
    simp_all [JobDomain.claimable, claimsRow]
  | retry hop hretryable => exact .inr (.inr ⟨hop, hretryable⟩)
  | requeue _ howns | finish _ howns => simp [Claim.owns, JobDomain.heldBy, hidle] at howns
  | beat _ hheld => simp [JobDomain.heldByAny, hidle] at hheld
  | reap _ hsilent => simp [JobDomain.silent, hidle] at hsilent
  | release _ hheld => simp [JobDomain.heldLike, hidle] at hheld

theorem RowChange.of_done (hdone : (s.row j d).state = .done) :
    r = s.row j d ∨ a.op = .requeueFailed j ∧ (s.row j d).retryable = true := by
  simpa [hdone] using h.of_not_running (by simp [hdone])

theorem RowChange.eq_of_done (hmem : .row j d ∈ s.rows) (hdone : (s.row j d).state = .done)
    (hretry : retriesRow j d s a = false) : r = s.row j d := by
  rcases h.of_done hdone with hr | ⟨hop, hretryable⟩
  · exact hr
  · simp [retriesRow, hop, requeueFailedRows, Store.row_mem_hits, hmem, hretryable] at hretry

theorem RowChange.of_not_done (hmem : .row j d ∈ s.rows) (hrec : records j d s a = false)
    (hopen : (s.row j d).state ≠ .done) : r.state ≠ .done := by
  cases h with
  | same | beat => exact hopen
  | finish hop howns =>
    simp only [Claim.owns, Bool.and_eq_true, decide_eq_true_eq] at howns
    obtain ⟨⟨rfl, rfl⟩, hheld⟩ := howns
    simp [records, hop, recorded_iff.2 ⟨hmem, hheld⟩] at hrec
  | _ => simp [JobDomain.claimed, JobDomain.requeued, JobDomain.reaped, JobDomain.released,
      JobDomain.requeuedFailed]

theorem RowChange.of_queued (hqueued : (s.row j d).state = .queued) :
    r = s.row j d ∨ claimsRow j d s a = true := by
  simpa [JobDomain.retryable, hqueued] using h.of_not_running (by simp [hqueued])

theorem RowChange.of_requeueFailed (hop : a.op = .requeueFailed j) (hmem : .row j d ∈ s.rows) :
    r = if (s.row j d).retryable then (s.row j d).requeuedFailed a.now else s.row j d := by
  cases h with
  | same _ _ hretry =>
    rw [if_neg]
    intro hretryable
    simp [retriesRow, hop, requeueFailedRows, Store.row_mem_hits, hmem, hretryable] at hretry
  | retry _ hretryable => rw [if_pos hretryable]
  | claim hop' | requeue hop' | finish hop' | beat hop' | reap hop' | release hop' =>
    simp [hop] at hop'

end

end

/-! ## Rows of `domains` -/

def Op.unlocks : Op → Option Claim
  | .unlockDomain c => some c
  | .finish c _ _ _ => some c
  | _ => none

/-- The row as `lock_domain` finds it, after its `INSERT`. -/
def Store.domainOrNew (s : Store) (now : Time) (d : Str) : DomainRow :=
  if .domain d ∈ s.rows then s.domain d else { updatedAt := now }

def DomainRow.finishedBy (now : Time) (tok : Str) (result : DomainResult) (write : Bool)
    (row : DomainRow) : DomainRow :=
  let row := if write then row.cached now result else row
  if row.lockedBy tok then row.unlocked else row

inductive DomainChange (s : Store) (a : Action) (d : Str) : DomainRow → Prop
  | same (hkeep : .domain d ∈ s.rows → ∀ c ∈ a.op.unlocks, c.domain = d →
      (s.domain d).lockOwner ≠ some c.token) : DomainChange s a d (s.domain d)
  | lock {c : Claim} (hop : a.op = .lockDomain c) (hd : c.domain = d)
      (hgot : (lockDomain s a.now c).2 = true)
      (hfree : (s.domainOrNew a.now d).lockable a.now = true) :
      DomainChange s a d ((s.domainOrNew a.now d).locked a.now c.token)
  | unlock {c : Claim} (hop : c ∈ a.op.unlocks) (hd : c.domain = d)
      (howner : (s.domain d).lockOwner = some c.token) :
      DomainChange s a d (s.domain d).unlocked
  | finish {c : Claim} {result : DomainResult} {fromCache writeCache : Bool}
      (hop : a.op = .finish c result fromCache writeCache) (hd : c.domain = d)
      (hrec : records c.jobId d s a = true) :
      DomainChange s a d
        ((s.domain d).finishedBy a.now c.token result (!fromCache && writeCache))
  | renew {tokens : List Str} (hop : a.op = .heartbeat tokens)
      (hlocked : (s.domain d).lockedByAny tokens = true) :
      DomainChange s a d ((s.domain d).renewed a.now)
  | release {worker : Str} (hop : a.op = .releaseWorker worker)
      (hlike : (s.domain d).lockedLike (tokenPattern worker) = true) :
      DomainChange s a d (s.domain d).unlocked

section

variable {s : Store} {now : Time} {a : Action} {d : Str} {c : Claim}

theorem DomainRow.lockOwner_finishedBy {row : DomainRow} {tok : Str} {result : DomainResult}
    {write : Bool} : (row.finishedBy now tok result write).lockOwner =
      if row.lockOwner = some tok then none else row.lockOwner := by
  unfold DomainRow.finishedBy
  cases write with
  | true =>
    simp only [if_true, DomainRow.lockedBy, DomainRow.cached, decide_eq_true_eq]
    split
    · rfl
    · rfl
  | false =>
    simp only [Bool.false_eq_true, if_false, DomainRow.lockedBy, decide_eq_true_eq]
    split
    · rfl
    · rfl

theorem unlockDomain_domain (s : Store) (c : Claim) (d : Str) : (unlockDomain s c).domain d =
    if .domain d ∈ s.rows ∧ c.domain = d ∧ (s.domain d).lockOwner = some c.token then
      (s.domain d).unlocked
    else s.domain d := by
  unfold unlockDomain unlockDomainStmt
  rw [Store.domain_exec_onDomain]
  simp only [DomainRow.lockedBy, Bool.and_eq_true, decide_eq_true_eq, eq_comm (a := d)]

theorem unlockDomain_change (hop : c ∈ a.op.unlocks)
    (honly : ∀ c' ∈ a.op.unlocks, c' = c) :
    DomainChange s a d ((unlockDomain s c).domain d) := by
  rw [unlockDomain_domain]
  split
  · rename_i h
    exact .unlock hop h.2.1 h.2.2
  · rename_i h
    refine .same fun hmem c' hc' hd howner => ?_
    rw [honly c' hc'] at hd howner
    exact h ⟨hmem, hd, howner⟩

theorem finish_domain {result : DomainResult} {fromCache writeCache : Bool}
    (hrec : (finish s now c result fromCache writeCache).2.1 = true) :
    (finish s now c result fromCache writeCache).1.domain d =
      if .domain d ∈ s.rows ∧ c.domain = d then
        (s.domain d).finishedBy now c.token result (!fromCache && writeCache)
      else s.domain d := by
  have hhits : ¬ s.hits (finishRow now c result fromCache) = ∅ := by
    rw [hits_finishRow_eq_empty, not_not]
    exact recorded_iff.mp hrec
  unfold finish
  simp only [if_neg hhits, completeIfFinished, completeJob, completeStmt,
    Store.domain_exec_onJob, unlockDomainStmt, Store.domain_exec_onDomain]
  by_cases hmem : Key.domain d ∈ s.rows
  · by_cases hd : c.domain = d
    · subst hd
      cases hwrite : !fromCache && writeCache with
      | true =>
        simp [hmem, writeCacheStmt, Store.domain_exec_onDomain, finishRow,
          DomainRow.finishedBy]
      | false => simp [hmem, finishRow, DomainRow.finishedBy]
    · have hd' : ¬ d = c.domain := fun h => hd h.symm
      cases hwrite : !fromCache && writeCache with
      | true =>
        simp [hd, hd', writeCacheStmt, Store.domain_exec_onDomain, finishRow]
      | false => simp [hd, hd', finishRow]
  · cases hwrite : !fromCache && writeCache with
    | true => simp [hmem, writeCacheStmt, Store.domain_exec_onDomain, finishRow]
    | false => simp [hmem, finishRow]

/-- The rows of `lock_domain` after its `INSERT`. -/
def Store.withDomain (s : Store) (now : Time) (d : Str) : Store :=
  if .domain d ∈ s.rows then s
  else
    { rows := insert (.domain d) s.rows
      val := Function.update s.val (.domain d) ({ updatedAt := now } : DomainRow) }

theorem lockDomain_eq (s : Store) (now : Time) (c : Claim) : lockDomain s now c =
    ((s.withDomain now c.domain).exec (lockDomainStmt now c),
      decide ((s.withDomain now c.domain).hits (lockDomainStmt now c) ≠ ∅)) := rfl

theorem Store.mem_withDomain {k : Key} : k ∈ (s.withDomain now d).rows ↔
    k = .domain d ∨ k ∈ s.rows := by
  unfold Store.withDomain
  split
  · rename_i hmem
    exact ⟨.inr, fun h => h.elim (fun hk => hk ▸ hmem) id⟩
  · exact Finset.mem_insert

theorem Store.domain_withDomain {d' : Str} : (s.withDomain now d).domain d' =
    if d' = d then s.domainOrNew now d else s.domain d' := by
  unfold Store.withDomain Store.domainOrNew
  by_cases hmem : Key.domain d ∈ s.rows
  · simp only [if_pos hmem]
    split
    · rename_i h
      rw [h]
    · rfl
  · simp only [if_neg hmem]
    split
    · rename_i h
      subst h
      simp [Store.domain]
    · rename_i h
      simp [Store.domain, h]

theorem lockDomain_got : (lockDomain s now c).2 =
    (s.domainOrNew now c.domain).lockable now := by
  rw [lockDomain_eq]
  have hmem : Key.domain c.domain ∈ (s.withDomain now c.domain).rows :=
    Store.mem_withDomain.mpr (.inl rfl)
  have hrow : (s.withDomain now c.domain).domain c.domain = s.domainOrNew now c.domain := by
    rw [Store.domain_withDomain, if_pos rfl]
  cases hfree : (s.domainOrNew now c.domain).lockable now with
  | true =>
    have hhit : Key.domain c.domain ∈
        (s.withDomain now c.domain).hits (lockDomainStmt now c) := by
      rw [lockDomainStmt, Store.domain_mem_hits]
      exact ⟨hmem, by simp [hrow, hfree]⟩
    simp [Finset.ne_empty_of_mem hhit]
  | false =>
    simp only [decide_eq_false_iff_not, not_not]
    apply Finset.eq_empty_of_forall_notMem
    intro k hk
    rw [Store.mem_hits] at hk
    obtain ⟨_, hcond⟩ := hk
    cases k with
    | domain d =>
      simp only [lockDomainStmt, onDomain_cond_domain, Bool.and_eq_true,
        decide_eq_true_eq] at hcond
      obtain ⟨rfl, hlock⟩ := hcond
      have hlock' : ((s.withDomain now c.domain).domain c.domain).lockable now = true := hlock
      rw [hrow, hfree] at hlock'
      exact absurd hlock' (by simp)
    | _ => simp [lockDomainStmt] at hcond

theorem lockDomain_domain : (lockDomain s now c).1.domain d =
    if c.domain = d ∧ (s.domainOrNew now d).lockable now = true then
      (s.domainOrNew now d).locked now c.token
    else s.domain d := by
  rw [lockDomain_eq]
  simp only [lockDomainStmt]
  rw [Store.domain_exec_onDomain]
  by_cases hd : c.domain = d
  · subst hd
    have hmem : Key.domain c.domain ∈ (s.withDomain now c.domain).rows :=
      Store.mem_withDomain.mpr (.inl rfl)
    simp only [Store.domain_withDomain, hmem, if_true, decide_true, Bool.true_and, true_and]
    split
    · rfl
    · rename_i hbusy
      -- a new row is free, so the row was there
      unfold Store.domainOrNew at hbusy ⊢
      split
      · rfl
      · rename_i hnew
        simp [hnew, DomainRow.lockable] at hbusy
  · have hd' : ¬ d = c.domain := fun h => hd h.symm
    simp only [Store.domain_withDomain, hd, hd', if_false, decide_false, Bool.false_and,
      Bool.false_eq_true, and_false, false_and]

theorem domainChange (s : Store) (a : Action) (hpossible : a.op.Possible a.now s) (d : Str) :
    DomainChange s a d ((a.op.apply a.now s).domain d) := by
  obtain ⟨now, op⟩ := a
  have hnone : ∀ op : Op, op.unlocks = none → Key.domain d ∈ s.rows →
      ∀ c ∈ (⟨now, op⟩ : Action).op.unlocks, c.domain = d →
        (s.domain d).lockOwner ≠ some c.token := by
    intro op hop _ c hc
    simp [hop] at hc
  have hjobs := apply_of_onlyJobs op now s
  cases op with
  | claim worker tries =>
    have hsame : ((Op.claim worker tries).apply now s).domain d = s.domain d := by
      rcases claim_cases worker hpossible with h | ⟨t, _, _, _, _, h⟩
      · simp only [Op.apply, h]
      · simp only [Op.apply, h, startJob, claimRow, Store.domain_exec_onJob,
          Store.domain_exec_onRow]
    rw [hsame]
    exact .same (hnone _ rfl)
  | lockDomain c =>
    simp only [Op.apply, lockDomain_domain]
    split
    · rename_i h
      obtain ⟨rfl, hfree⟩ := h
      exact .lock rfl rfl (by rw [lockDomain_got]; exact hfree) hfree
    · exact .same (hnone _ rfl)
  | unlockDomain c =>
    exact unlockDomain_change (by simp [Op.unlocks]) (by simp [Op.unlocks])
  | requeue c delay countAttempt =>
    simp only [Op.apply, requeue, requeueRow, Store.domain_exec_onRow]
    exact .same (hnone _ rfl)
  | finish c result fromCache writeCache =>
    rw [Op.apply, workerFinish_store]
    cases hrec : (finish s now c result fromCache writeCache).2.1 with
    | true =>
      rw [finish_domain hrec]
      split
      · rename_i h
        obtain ⟨_, rfl⟩ := h
        exact .finish rfl rfl (by simp [records, hrec])
      · rename_i h
        refine .same fun hmem c' hc' hd _ => ?_
        simp only [Op.unlocks, Option.mem_def, Option.some.injEq] at hc'
        exact h ⟨hmem, hc' ▸ hd⟩
    | false =>
      rw [finish_of_not_recorded hrec]
      exact unlockDomain_change (by simp [Op.unlocks]) (by simp [Op.unlocks])
  | heartbeat tokens =>
    simp only [Op.apply, heartbeat]
    split
    · exact .same (hnone _ rfl)
    · simp only [renewDomains, Store.domain_exec_onDomain, beatRows, Store.domain_exec_onRow]
      split
      · rename_i h
        exact .renew rfl h.2
      · exact .same (hnone _ rfl)
  | reap =>
    simp only [Op.apply, reap, reapRows, Store.domain_exec_onRow]
    exact .same (hnone _ rfl)
  | releaseWorker worker =>
    simp only [Op.apply, releaseWorker, releaseDomains, Store.domain_exec_onDomain, releaseRows,
      Store.domain_exec_onRow]
    split
    · rename_i h
      exact .release rfl h.2
    · exact .same (hnone _ rfl)
  | requeueFailed j' =>
    have hsame : ((Op.requeueFailed j').apply now s).domain d = s.domain d := by
      simp only [Op.apply, requeueFailed]
      split
      · simp only [requeueFailedRows, Store.domain_exec_onRow]
      · simp only [reopenJob, requeueFailedRows, Store.domain_exec_onRow,
          Store.domain_exec_onJob]
    rw [hsame]
    exact .same (hnone _ rfl)
  | completeIfFinished | completeFinishedJobs | pauseActiveJobs | resumeJob | resumePausedFor
  | cancelJob =>
    obtain ⟨f, g, happly⟩ := hjobs rfl
    rw [happly, Store.domain_exec_onJob]
    exact .same (hnone _ rfl)

end

/-! ## Rows of `jobs` -/

/-- The action marks the job done. -/
def completes (j : JobId) (s : Store) (a : Action) : Bool :=
  match a.op with
  | .finish c result fromCache writeCache =>
    decide (c.jobId = j) && (finish s a.now c result fromCache writeCache).2.2
  | .completeIfFinished j' => decide (j' = j) && (completeIfFinished s a.now j').2
  | .completeFinishedJobs => decide (.job j ∈ s.hits (completeJobs s.rows a.now))
  | _ => false

def Store.finishedJob (s : Store) (j : JobId) : Bool :=
  decide (.job j ∈ s.rows) && (s.job j).active && !hasLive s.rows s.val j

inductive JobChange (s : Store) (a : Action) (j : JobId) : Job → Prop
  | same (hcomp : completes j s a = false) : JobChange s a j (s.job j)
  | start {worker : Str} {tries : List Try} {c : Claim} (hop : a.op = .claim worker tries)
      (hclaimed : a.op.claimed a.now s = some c) (hj : c.jobId = j)
      (hactive : (s.job j).active = true) : JobChange s a j ((s.job j).started a.now)
  | complete (hcomp : completes j s a = true) (hactive : (s.job j).active = true)
      (hdead : hasLive s.rows (a.op.apply a.now s).val j = false) :
      JobChange s a j ((s.job j).completed a.now (countRows s.rows j))
  | reopen (hop : a.op = .requeueFailed j) (hdone : (s.job j).status = .done)
      (hrows : s.hits (requeueFailedRows a.now j) ≠ ∅) :
      JobChange s a j ((s.job j).reopened a.now)
  | pause {reason : Str} (hop : a.op = .pauseActiveJobs reason)
      (hactive : (s.job j).active = true) : JobChange s a j ((s.job j).paused a.now reason)
  | resume (hop : a.op = .resumeJob j) (hpaused : (s.job j).status = .paused) :
      JobChange s a j ((s.job j).transitioned a.now .running none)
  | resumeFor {reason : Str} (hop : a.op = .resumePausedFor reason)
      (hpaused : (s.job j).pausedFor reason = true) :
      JobChange s a j ((s.job j).resumed a.now)
  | cancel (hop : a.op = .cancelJob j)
      (hopen : (s.job j).status ∈ [JobStatus.queued, .running, .paused]) :
      JobChange s a j ((s.job j).transitioned a.now .cancelled none)

section

variable {s : Store} {now : Time} {a : Action} {j : JobId} {c : Claim} {result : DomainResult}
  {fromCache writeCache : Bool}

theorem job_mem_hits_completeStmt {which : JobId → Bool} :
    .job j ∈ s.hits (completeStmt s.rows now which) ↔
      which j = true ∧ s.finishedJob j = true := by
  rw [completeStmt, Store.job_mem_hits]
  simp only [Store.finishedJob, Bool.and_eq_true, decide_eq_true_eq]
  tauto

theorem job_exec_completeStmt {which : JobId → Bool} :
    (s.exec (completeStmt s.rows now which)).job j =
      if which j = true ∧ s.finishedJob j = true then
        (s.job j).completed now (countRows s.rows j)
      else s.job j := by
  rw [completeStmt, Store.job_exec_onJob]
  simp only [Store.finishedJob, Bool.and_eq_true, decide_eq_true_eq]
  congr 1
  apply propext
  tauto

theorem completeIfFinished_got (s : Store) (now : Time) (j : JobId) :
    (completeIfFinished s now j).2 = s.finishedJob j := by
  unfold completeIfFinished
  cases hfin : s.finishedJob j with
  | true =>
    have hhit : Key.job j ∈ s.hits (completeJob s.rows now j) :=
      job_mem_hits_completeStmt.mpr ⟨by simp, hfin⟩
    simp [Finset.ne_empty_of_mem hhit]
  | false =>
    simp only [decide_eq_false_iff_not, not_not]
    apply Finset.eq_empty_of_forall_notMem
    intro k hk
    cases k with
    | job j' =>
      rw [completeJob, job_mem_hits_completeStmt] at hk
      simp only [decide_eq_true_eq] at hk
      obtain ⟨rfl, hfin'⟩ := hk
      simp [hfin] at hfin'
    | _ => simp [Store.mem_hits, completeJob, completeStmt] at hk

theorem finish_lost (hrec : (finish s now c result fromCache writeCache).2.1 = false) :
    (finish s now c result fromCache writeCache).2.2 = false := by
  unfold finish at hrec ⊢
  by_cases hempty : s.hits (finishRow now c result fromCache) = ∅
  · simp only [if_pos hempty]
  · simp [if_neg hempty] at hrec

/-- The store of a recorded `finish` before it looks whether the job is finished. -/
def finishing (s : Store) (now : Time) (c : Claim) (result : DomainResult)
    (fromCache writeCache : Bool) : Store :=
  let s := s.exec (finishRow now c result fromCache)
  let s := if !fromCache && writeCache then s.exec (writeCacheStmt now c result) else s
  s.exec (unlockDomainStmt c)

theorem finishing_rows : (finishing s now c result fromCache writeCache).rows = s.rows := by
  unfold finishing
  split <;> rfl

theorem finishing_job : (finishing s now c result fromCache writeCache).job j = s.job j := by
  unfold finishing
  split <;> simp [finishRow, writeCacheStmt, unlockDomainStmt]

theorem finish_of_recorded (hrec : (finish s now c result fromCache writeCache).2.1 = true) :
    finish s now c result fromCache writeCache =
      ((completeIfFinished (finishing s now c result fromCache writeCache) now c.jobId).1, true,
        (finishing s now c result fromCache writeCache).finishedJob c.jobId) := by
  have hhits : ¬ s.hits (finishRow now c result fromCache) = ∅ := by
    rw [hits_finishRow_eq_empty, not_not]
    exact recorded_iff.mp hrec
  rw [← completeIfFinished_got _ now]
  unfold finish finishing
  simp only [if_neg hhits]

theorem hasLive_congr {rows : Finset Key} {db db' : Db Val}
    (h : ∀ d, JobDomain.live (db (.row j d)) = JobDomain.live (db' (.row j d))) :
    hasLive rows db j = hasLive rows db' j := by
  rw [Bool.eq_iff_iff, hasLive_eq_true, hasLive_eq_true]
  simp only [h]

theorem complete_change (which : JobId → Bool) (s' : Store)
    (hrows : s'.rows = s.rows) (hjob : s'.job j = s.job j)
    (happly : a.op.apply a.now s = s'.exec (completeStmt s'.rows a.now which))
    (hcomp : completes j s a = (which j && s'.finishedJob j)) :
    JobChange s a j ((a.op.apply a.now s).job j) := by
  rw [happly, job_exec_completeStmt, hjob, hrows]
  split
  · rename_i h
    have hfin := h.2
    simp only [Store.finishedJob, Bool.and_eq_true, hjob, hrows, Bool.not_eq_true'] at hfin
    refine .complete (by simp [hcomp, h]) hfin.1.2 ?_
    rw [← hfin.2, happly]
    apply hasLive_congr
    intro d
    have hrow := Store.row_exec_onJob (s := s') (j := j) (d := d)
      (f := fun db j job => which j && job.active && !hasLive s'.rows db j)
      (g := fun _ j job => job.completed a.now (countRows s'.rows j))
    exact congrArg JobDomain.live hrow
  · rename_i h
    refine .same ?_
    rw [hcomp, Bool.and_eq_false_iff]
    by_contra hboth
    simp only [not_or, Bool.not_eq_false] at hboth
    exact h hboth

theorem claim_jobChange {worker : Str} {tries : List Try} (hchoices : ClaimChoices s now tries) :
    JobChange s ⟨now, .claim worker tries⟩ j ((claim s now worker tries).1.job j) := by
  rcases claim_cases worker hchoices with hnone | ⟨t, _, hpick, _, _, hclaim⟩
  · rw [hnone]
    exact .same rfl
  · simp only [hclaim, startJob, Store.job_exec_onJob, claimRow, Store.job_exec_onRow,
      Bool.and_eq_true, decide_eq_true_eq, Store.rows_exec]
    split
    · rename_i h
      obtain ⟨_, rfl, _⟩ := h
      simp only [Store.pickable, Bool.and_eq_true] at hpick
      exact .start (c := ⟨_, _, _, _, _⟩) rfl (claimed_of_claim hclaim) rfl hpick.1.2
    · exact .same rfl

theorem jobChange (s : Store) (a : Action) (hpossible : a.op.Possible a.now s) (j : JobId) :
    JobChange s a j ((a.op.apply a.now s).job j) := by
  obtain ⟨now, op⟩ := a
  cases op with
  | claim worker tries => exact claim_jobChange hpossible
  | lockDomain c =>
    have hsame : ((Op.lockDomain c).apply now s).job j = s.job j := by
      simp only [Op.apply, lockDomain_eq, lockDomainStmt, Store.job_exec_onDomain,
        Store.withDomain]
      split
      · rfl
      · simp [Store.job]
    rw [hsame]
    exact .same rfl
  | unlockDomain c =>
    simp only [Op.apply, unlockDomain, unlockDomainStmt, Store.job_exec_onDomain]
    exact .same rfl
  | requeue c delay countAttempt =>
    simp only [Op.apply, requeue, requeueRow, Store.job_exec_onRow]
    exact .same rfl
  | finish c result fromCache writeCache =>
    cases hrec : (finish s now c result fromCache writeCache).2.1 with
    | true =>
      apply complete_change (fun j' => decide (j' = c.jobId))
        (finishing s now c result fromCache writeCache) finishing_rows finishing_job
      · rw [Op.apply, workerFinish_store, finish_of_recorded hrec]
        rfl
      · simp only [completes, finish_of_recorded hrec]
        by_cases hj : c.jobId = j
        · simp [hj]
        · have hj' : ¬ j = c.jobId := fun h => hj h.symm
          simp [hj, hj']
    | false =>
      rw [Op.apply, workerFinish_store, finish_of_not_recorded hrec]
      simp only [unlockDomain, unlockDomainStmt, Store.job_exec_onDomain]
      refine .same ?_
      simp [completes, finish_lost hrec]
  | heartbeat tokens =>
    simp only [Op.apply, heartbeat]
    split
    · exact .same rfl
    · simp only [renewDomains, Store.job_exec_onDomain, beatRows, Store.job_exec_onRow]
      exact .same rfl
  | reap =>
    simp only [Op.apply, reap, reapRows, Store.job_exec_onRow]
    exact .same rfl
  | releaseWorker worker =>
    simp only [Op.apply, releaseWorker, releaseDomains, Store.job_exec_onDomain, releaseRows,
      Store.job_exec_onRow]
    exact .same rfl
  | requeueFailed j' =>
    simp only [Op.apply, requeueFailed]
    split
    · simp only [requeueFailedRows, Store.job_exec_onRow]
      exact .same rfl
    · rename_i hrows
      simp only [reopenJob, Store.job_exec_onJob, requeueFailedRows, Store.job_exec_onRow,
        Bool.and_eq_true, decide_eq_true_eq]
      split
      · rename_i h
        obtain ⟨_, rfl, hdone⟩ := h
        exact .reopen rfl hdone hrows
      · exact .same rfl
  | completeIfFinished j' =>
    apply complete_change (fun j'' => decide (j'' = j')) s rfl rfl rfl
    simp only [completes, completeIfFinished_got]
    by_cases hj : j' = j
    · simp [hj]
    · have hj' : ¬ j = j' := fun h => hj h.symm
      simp [hj, hj']
  | completeFinishedJobs =>
    apply complete_change (fun _ => true) s rfl rfl rfl
    simp [completes, completeJobs, job_mem_hits_completeStmt]
  | pauseActiveJobs reason =>
    simp only [Op.apply, pauseActiveJobs, pauseActiveJobsStmt, Store.job_exec_onJob]
    split
    · rename_i h
      exact .pause rfl h.2
    · exact .same rfl
  | resumeJob j' =>
    simp only [Op.apply, resumeJob, transition, transitionStmt, Store.job_exec_onJob,
      Bool.and_eq_true, decide_eq_true_eq]
    split
    · rename_i h
      obtain ⟨_, rfl, hpaused⟩ := h
      exact .resume rfl (mem_singleton.mp hpaused)
    · exact .same rfl
  | resumePausedFor reason =>
    simp only [Op.apply, resumePausedFor, resumePausedForStmt, Store.job_exec_onJob]
    split
    · rename_i h
      exact .resumeFor rfl h.2
    · exact .same rfl
  | cancelJob j' =>
    simp only [Op.apply, cancelJob, transition, transitionStmt, Store.job_exec_onJob,
      Bool.and_eq_true, decide_eq_true_eq]
    split
    · rename_i h
      obtain ⟨_, rfl, hopen⟩ := h
      exact .cancel rfl hopen
    · exact .same rfl

end

section

variable {s : System} {a : Action} {j : JobId} {d : Str}

/-! ## Which rows there are -/

theorem mem_rows_apply (hpossible : a.op.Possible a.now s.store) {k : Key} :
    k ∈ (a.op.apply a.now s.store).rows ↔
      k ∈ s.store.rows ∨ ∃ c, a.op = .lockDomain c ∧ k = .domain c.domain := by
  obtain ⟨now, op⟩ := a
  cases op with
  | claim worker tries =>
    rcases claim_cases worker hpossible with h | ⟨t, _, _, _, _, h⟩
    · simp [Op.apply, h]
    · simp [Op.apply, h]
  | lockDomain c =>
    simp only [Op.apply, lockDomain_eq, Store.rows_exec, Store.mem_withDomain,
      Op.lockDomain.injEq, exists_eq_left']
    tauto
  | unlockDomain c => simp [Op.apply, unlockDomain]
  | requeue c delay countAttempt => simp [Op.apply, requeue]
  | finish c result fromCache writeCache =>
    simp only [Op.apply, workerFinish_store]
    cases hrec : (finish s.store now c result fromCache writeCache).2.1 with
    | true => simp [finish_of_recorded hrec, completeIfFinished, finishing_rows]
    | false => simp [finish_of_not_recorded hrec, unlockDomain]
  | heartbeat tokens =>
    simp only [Op.apply, heartbeat]
    split <;> simp
  | requeueFailed j =>
    simp only [Op.apply, requeueFailed]
    split <;> simp
  | _ => simp [Op.apply, reap, releaseWorker, completeIfFinished, completeFinishedJobs,
      pauseActiveJobs, resumeJob, resumePausedFor, cancelJob, transition]

theorem row_mem_apply (hpossible : a.op.Possible a.now s.store) :
    .row j d ∈ (a.op.apply a.now s.store).rows ↔ .row j d ∈ s.store.rows := by
  rw [mem_rows_apply hpossible]
  simp

end

end Queue

end EmailExtractor
