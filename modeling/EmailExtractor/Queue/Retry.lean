import EmailExtractor.Queue.Transactions

/-!
# Retrying a job while it is being completed

`requeue_failed` first requeues rows and then reopens the job if it sees it done.
A completion decides from its own snapshot that the job has nothing left to do.
When the two overlap, the completion does not see the requeued rows and the retry
does not see the completion: the job ends `done` with rows that no worker will
claim. The overlap is the only way to get there: as long as no retry starts to
reopen a job with a completion of it pending, and no completion of a job starts
to match while a retry is about to commit, a done job has no live rows.
-/

namespace EmailExtractor

namespace Queue

open ReadCommitted

/-- A done job has no row left to work on. -/
def DoneIsDead (rows : Finset Key) (db : Db Val) (j : JobId) : Prop :=
  (jobAt db j).status = .done → hasLive rows db j = false

def Txn.retries (j : JobId) : Txn → Bool
  | .requeueFailed _ j' => decide (j' = j)
  | _ => false

/-- The statement at `pc` may complete job `j`. -/
def Txn.completes (j : JobId) : Txn → Pc → Bool
  | .finish _ c _ _ _, .completeJob => decide (c.jobId = j)
  | .completeFinishedJobs _, .sweepJobs => true
  | _, _ => false

/-- The statement at `pc` reopens job `j` if it finds it done. -/
def Txn.reopens (j : JobId) : Txn → Pc → Bool
  | .requeueFailed _ j', .reopenJob _ => decide (j' = j)
  | _, _ => false

/-- A retry has requeued a row; `touched` says so of the statement in progress. -/
def Pc.requeued (touched : Bool) : Pc → Bool
  | .requeueRows => touched
  | .reopenJob n => decide (n ≠ 0)
  | .commitRequeue n => decide (n ≠ 0)
  | _ => false

/-- A retry that has requeued rows has begun to look at the job; `begun` says
whether there is a statement in progress. -/
def Pc.reopening (begun : Bool) : Pc → Bool
  | .reopenJob _ => begun
  | .commitRequeue n => decide (n ≠ 0)
  | _ => false

theorem Pc.requeued_touched {touched : Bool} {pc : Pc} (h : pc.requeued touched = true) :
    pc.requeued true = true := by
  cases pc with
  | requeueRows => rfl
  | _ => exact h

def requeued (x : Session Val Pc) : Bool :=
  x.pc.requeued (x.active.any fun a => !a.touched.isEmpty)

def reopening (x : Session Val Pc) : Bool := x.pc.reopening x.active.isSome

section

variable {T : Type}

/-! ## What a statement does to the rows of one job -/

theorem eq_requeueFailed {x : Txn} {j : JobId} (h : x.retries j = true) :
    ∃ now, x = .requeueFailed now j := by
  cases x with
  | requeueFailed now j' =>
    obtain rfl : j' = j := by simpa [Txn.retries] using h
    exact ⟨now, rfl⟩
  | _ => simp [Txn.retries] at h

theorem retries_not_completes {x : Txn} {j : JobId} {pc : Pc} (h : x.retries j = true) :
    x.completes j pc = false := by
  obtain ⟨now, rfl⟩ := eq_requeueFailed h
  rfl

section

variable {rows : Finset Key} {txn : T → Txn} {j : JobId} {t : T} {pc : Pc}
  {st : Stmt Val} {snap : Db Val}

theorem reopens_of_retries {x : Txn} {j : JobId} {n : ℕ} (h : x.retries j = true) :
    x.reopens j (.reopenJob n) = true := by
  obtain ⟨now, rfl⟩ := eq_requeueFailed h
  exact h

section

variable (hact : (machine rows txn).act t pc = .exec st)

include hact

/-- A statement that changes a row of the job finishes it, or is the first
statement of a retry. -/
theorem exec_row_cases {d : Str} {r : JobDomain} (hcond : st.cond snap (.row j d) r = true) :
    ((txn t).retries j = false ∧ JobDomain.live (st.set snap (.row j d) r) = false) ∨
      ((txn t).retries j = true ∧ pc = .requeueRows) := by
  change (txn t).act rows pc = .exec st at hact
  cases htxn : txn t with
  | finish now c result fromCache writeCache =>
    rw [htxn] at hact
    left
    refine ⟨rfl, ?_⟩
    cases pc <;> simp only [Txn.act, Act.exec.injEq, reduceCtorEq] at hact <;> subst hact
    case ownRow => simp [finishRow, JobDomain.finished, JobDomain.live]
    all_goals
      simp [writeCacheStmt, unlockDomainStmt, lockJobStmt, completeJob, completeStmt] at hcond
  | requeueFailed now j' =>
    rw [htxn] at hact
    right
    cases pc <;> simp only [Txn.act, Act.exec.injEq, reduceCtorEq] at hact <;> subst hact
    case requeueRows =>
      simp only [requeueFailedRows, onRow_cond_row, Bool.and_eq_true,
        decide_eq_true_eq] at hcond
      simp [Txn.retries, hcond.1]
    all_goals simp [reopenJob] at hcond
  | completeFinishedJobs now =>
    rw [htxn] at hact
    cases pc <;> simp only [Txn.act, Act.exec.injEq, reduceCtorEq] at hact
    subst hact
    simp [completeJobs, completeStmt] at hcond

/-- A statement that takes the job locks it as it is, completes it, or reopens
it. -/
theorem exec_job_cases {job : Job} (hcond : st.cond snap (.job j) job = true) :
    ((txn t).retries j = false ∧ (txn t).completes j pc = false ∧
        st.set snap (.job j) job = job) ∨
      ((txn t).completes j pc = true ∧ job.active = true ∧ hasLive rows snap j = false) ∨
      ((txn t).retries j = true ∧ Job.status (st.set snap (.job j) job) = .running) := by
  change (txn t).act rows pc = .exec st at hact
  cases htxn : txn t with
  | finish now c result fromCache writeCache =>
    rw [htxn] at hact
    cases pc <;> simp only [Txn.act, Act.exec.injEq, reduceCtorEq] at hact <;> subst hact
    case lockJob => exact .inl ⟨rfl, rfl, rfl⟩
    case completeJob =>
      right; left
      simp only [completeJob, completeStmt, onJob_cond_job, Bool.and_eq_true,
        decide_eq_true_eq, Bool.not_eq_true'] at hcond
      obtain ⟨⟨rfl, hactive⟩, hlive⟩ := hcond
      simp [Txn.completes, hactive, hlive]
    all_goals simp [finishRow, writeCacheStmt, unlockDomainStmt] at hcond
  | requeueFailed now j' =>
    rw [htxn] at hact
    cases pc <;> simp only [Txn.act, Act.exec.injEq, reduceCtorEq] at hact <;> subst hact
    case reopenJob n =>
      right; right
      simp only [reopenJob, onJob_cond_job, Bool.and_eq_true, decide_eq_true_eq] at hcond
      simp [Txn.retries, hcond.1, reopenJob, Job.reopened]
    all_goals simp [requeueFailedRows] at hcond
  | completeFinishedJobs now =>
    rw [htxn] at hact
    cases pc <;> simp only [Txn.act, Act.exec.injEq, reduceCtorEq] at hact
    subst hact
    right; left
    simp only [completeJobs, completeStmt, onJob_cond_job, Bool.and_eq_true,
      Bool.not_eq_true'] at hcond
    simp [Txn.completes, hcond]

theorem completes_cond {job : Job} (hpc : (txn t).completes j pc = true)
    (hcond : st.cond snap (.job j) job = true) :
    job.active = true ∧ hasLive rows snap j = false := by
  rcases exec_job_cases hact hcond with ⟨_, hno, _⟩ | ⟨_, hfound⟩ | ⟨hretry, _⟩
  · simp [hpc] at hno
  · exact hfound
  · rw [retries_not_completes hretry] at hpc
    simp at hpc

end

theorem reopen_cond {n : ℕ} {job : Job} (hact : (machine rows txn).act t (.reopenJob n) = .exec st)
    (hretry : (txn t).retries j = true) (hcond : st.cond snap (.job j) job = false) :
    job.status ≠ .done := by
  obtain ⟨now, htxn⟩ := eq_requeueFailed hretry
  simp only [machine, htxn, Txn.act, Act.exec.injEq] at hact
  subst hact
  simpa [reopenJob] using hcond

section

variable (hretry : (txn t).retries j = true) (hact : (machine rows txn).act t pc = .exec st)

include hretry hact

theorem reopening_exec {begun : Bool} (hopen : pc.reopening begun = true) :
    ∃ n, pc = .reopenJob n := by
  obtain ⟨now, htxn⟩ := eq_requeueFailed hretry
  cases pc with
  | reopenJob n => exact ⟨n, rfl⟩
  | commitRequeue n => simp [machine, htxn, Txn.act] at hact
  | _ => simp [Pc.reopening] at hopen

theorem requeued_next {touched : List Key} (hreq : pc.requeued (!touched.isEmpty) = true) :
    ((txn t).next pc touched).requeued false = true := by
  obtain ⟨now, htxn⟩ := eq_requeueFailed hretry
  rw [htxn]
  cases pc with
  | requeueRows =>
    have hne : touched ≠ [] := by simpa [Pc.requeued] using hreq
    simp [Txn.next, Pc.requeued, hne]
  | reopenJob n => exact hreq
  | commitRequeue n => simp [machine, htxn, Txn.act] at hact
  | _ => simp [Pc.requeued] at hreq

end

theorem requeued_commit {touched begun : Bool} (hretry : (txn t).retries j = true)
    (hact : (machine rows txn).act t pc = .commit) (hreq : pc.requeued touched = true) :
    pc.reopening begun = true := by
  obtain ⟨now, htxn⟩ := eq_requeueFailed hretry
  cases pc with
  | commitRequeue n => exact hreq
  | requeueRows | reopenJob => simp [machine, htxn, Txn.act] at hact
  | _ => simp [Pc.requeued] at hreq

/-- A retry comes to its commit, with rows requeued, from the statement that
reopens the job. -/
theorem reopening_next (rows : Finset Key) {touched : List Key}
    (hretry : (txn t).retries j = true)
    (hopen : ((txn t).next pc touched).reopening false = true) :
    (∃ n, pc = .reopenJob n) ∧ ∃ st, (machine rows txn).act t pc = .exec st := by
  obtain ⟨now, htxn⟩ := eq_requeueFailed hretry
  rw [htxn] at hopen
  cases pc with
  | requeueRows => by_cases hnil : touched = [] <;> simp [Txn.next, Pc.reopening, hnil] at hopen
  | reopenJob n => simp [machine, htxn, Txn.act]
  | _ => simp [Txn.next, Pc.reopening] at hopen

end

variable [DecidableEq T]

/-- Session `t` has found job `j` finished, and is going to complete it or has
done so without having committed. -/
def CompletionPending (txn : T → Txn) (j : JobId) (s : Sys Val T Pc) (t : T) : Prop :=
  ((txn t).completes j (s.session t).pc = true ∧ (s.session t).Awaits (.job j)) ∨
    ((jobAt (s.view t) j).status = .done ∧ (jobAt s.committed j).status ≠ .done)

/-- Session `t` has requeued rows of job `j` and looked at the job, and has not
committed. -/
def RetryCommitting (txn : T → Txn) (j : JobId) (s : Sys Val T Pc) (t : T) : Prop :=
  (txn t).retries j = true ∧ reopening (s.session t) = true

/-- The completing statement of session `t` would find job `j` finished. -/
def FindsFinished (rows : Finset Key) (txn : T → Txn) (j : JobId) (s : Sys Val T Pc)
    (t : T) : Prop :=
  (txn t).completes j (s.session t).pc = true ∧
    (jobAt (s.view t) j).active = true ∧ hasLive rows (s.view t) j = false

/-- A retry of job `j` and a completion of it do not overlap at this step. -/
def Serialised (rows : Finset Key) (txn : T → Txn) (j : JobId) (s : Sys Val T Pc)
    (l : T × Move Key) : Prop :=
  l.2 = .start → ∀ t,
    ((txn l.1).reopens j (s.session l.1).pc = true → ¬ CompletionPending txn j s t) ∧
    (FindsFinished rows txn j s l.1 → ¬ RetryCommitting txn j s t)

instance (txn : T → Txn) (j : JobId) (s : Sys Val T Pc) (t : T) :
    Decidable (CompletionPending txn j s t) :=
  inferInstanceAs (Decidable (_ ∨ _))

instance (txn : T → Txn) (j : JobId) (s : Sys Val T Pc) (t : T) :
    Decidable (RetryCommitting txn j s t) :=
  inferInstanceAs (Decidable (_ ∧ _))

instance (rows : Finset Key) (db : Db Val) (j : JobId) : Decidable (DoneIsDead rows db j) :=
  inferInstanceAs (Decidable (_ → _))

instance (rows : Finset Key) (txn : T → Txn) (j : JobId) (s : Sys Val T Pc) (t : T) :
    Decidable (FindsFinished rows txn j s t) :=
  inferInstanceAs (Decidable (_ ∧ _))

instance (rows : Finset Key) (txn : Bool → Txn) (j : JobId) (s : Sys Val Bool Pc)
    (l : Bool × Move Key) : Decidable (Serialised rows txn j s l) :=
  inferInstanceAs (Decidable (_ → ∀ _, (_ → ¬ _) ∧ (_ → ¬ _)))

/-! ## The invariant -/

structure RetryInv (rows : Finset Key) (txn : T → Txn) (j : JobId) (s : Sys Val T Pc) :
    Prop where
  done_dead : DoneIsDead rows s.committed j
  held_row : ∀ d t v, s.held (.row j d) = some (t, v) → JobDomain.live v = true →
    (txn t).retries j = true ∧ requeued (s.session t) = true
  retry_version : ∀ t, (txn t).retries j = true → (jobAt (s.view t) j).status = .done →
    (jobAt s.committed j).status = .done
  finished : ∀ t, CompletionPending txn j s t → hasLive rows (s.view t) j = false
  exclusive : ∀ t t', RetryCommitting txn j s t → ¬ CompletionPending txn j s t'
  reopened : ∀ t, RetryCommitting txn j s t →
    (s.session t).Awaits (.job j) ∨ (jobAt (s.view t) j).status ≠ .done

section

variable {rows : Finset Key} {txn : T → Txn} {j : JobId} {s : Sys Val T Pc} {t t' : T}
  {x : Session Val Pc}

theorem not_pending_of_retry (h : (txn t).retries j = true)
    (hversion : (jobAt (s.view t) j).status = .done → (jobAt s.committed j).status = .done) :
    ¬ CompletionPending txn j s t := by
  rintro (⟨hpc, _⟩ | ⟨hview, hcommitted⟩)
  · rw [retries_not_completes h] at hpc
    simp at hpc
  · exact hcommitted (hversion hview)

theorem completionPending_setSession_of_ne (h : t' ≠ t) :
    CompletionPending txn j (s.setSession t x) t' ↔ CompletionPending txn j s t' := by
  simp only [CompletionPending, Sys.session_setSession_of_ne x h, Sys.view_setSession]
  rfl

theorem retryCommitting_setSession_of_ne (h : t' ≠ t) :
    RetryCommitting txn j (s.setSession t x) t' ↔ RetryCommitting txn j s t' := by
  simp only [RetryCommitting, Sys.session_setSession_of_ne x h]

/-- A step that only moves session `t` on keeps the invariant, if the session
becomes a pending completion or a committing retry only as the guard allows. -/
theorem RetryInv.setSession (hinv : RetryInv rows txn j s)
    (hrequeued : (txn t).retries j = true → requeued (s.session t) = true →
      requeued x = true)
    (hpending : (txn t).completes j x.pc = true → x.Awaits (.job j) →
      CompletionPending txn j s t ∨
        (hasLive rows (s.view t) j = false ∧ ∀ t', ¬ RetryCommitting txn j s t'))
    (hretry : (txn t).retries j = true → reopening x = true →
      (RetryCommitting txn j s t ∨ ∀ t', ¬ CompletionPending txn j s t') ∧
        (x.Awaits (.job j) ∨ (jobAt (s.view t) j).status ≠ .done)) :
    RetryInv rows txn j (s.setSession t x) := by
  have hpending' : CompletionPending txn j (s.setSession t x) t →
      CompletionPending txn j s t ∨
        (hasLive rows (s.view t) j = false ∧ ∀ t', ¬ RetryCommitting txn j s t') := by
    rintro (⟨hpc, hawaits⟩ | hview)
    · rw [Sys.session_setSession_self] at hpc hawaits
      exact hpending hpc hawaits
    · left; right
      exact hview
  have hretry' : RetryCommitting txn j (s.setSession t x) t →
      (RetryCommitting txn j s t ∨ ∀ t', ¬ CompletionPending txn j s t') ∧
        (x.Awaits (.job j) ∨ (jobAt (s.view t) j).status ≠ .done) := by
    rintro ⟨h1, h2⟩
    rw [Sys.session_setSession_self] at h2
    exact hretry h1 h2
  constructor
  case done_dead => exact hinv.done_dead
  case retry_version => exact hinv.retry_version
  case held_row =>
    intro d t1 v hv hlive
    obtain ⟨h1, h2⟩ := hinv.held_row d t1 v hv hlive
    by_cases ht : t1 = t
    · subst ht
      rw [Sys.session_setSession_self]
      exact ⟨h1, hrequeued h1 h2⟩
    · rw [Sys.session_setSession_of_ne x ht]
      exact ⟨h1, h2⟩
  case finished =>
    intro t1 hp
    by_cases ht : t1 = t
    · subst ht
      rcases hpending' hp with hp | ⟨hlive, _⟩
      · exact hinv.finished _ hp
      · exact hlive
    · exact hinv.finished _ ((completionPending_setSession_of_ne ht).mp hp)
  case exclusive =>
    intro t1 t2 hr hp
    by_cases h1 : t1 = t
    · subst h1
      by_cases h2 : t2 = t1
      · subst h2
        have hversion := hinv.retry_version _ hr.1
        exact not_pending_of_retry (s := s.setSession t2 x) hr.1 hversion hp
      · have hp' := (completionPending_setSession_of_ne h2).mp hp
        rcases (hretry' hr).1 with hr | hno
        · exact hinv.exclusive _ _ hr hp'
        · exact hno _ hp'
    · have hr' := (retryCommitting_setSession_of_ne h1).mp hr
      by_cases h2 : t2 = t
      · subst h2
        rcases hpending' hp with hp | ⟨_, hno⟩
        · exact hinv.exclusive _ _ hr' hp
        · exact hno _ hr'
      · exact hinv.exclusive _ _ hr' ((completionPending_setSession_of_ne h2).mp hp)
  case reopened =>
    intro t1 hr
    by_cases ht : t1 = t
    · subst ht
      rw [Sys.session_setSession_self]
      exact (hretry' hr).2
    · rw [Sys.session_setSession_of_ne x ht]
      exact hinv.reopened _ ((retryCommitting_setSession_of_ne ht).mp hr)

theorem RetryInv.mem_todo_or_reopened {a : Active Val} (hinv : RetryInv rows txn j s)
    (hactive : (s.session t).active = some a) (hr : RetryCommitting txn j s t) :
    Key.job j ∈ a.todo ∨ (jobAt (s.view t) j).status ≠ .done := by
  rcases hinv.reopened t hr with ⟨a', ha', hmem⟩ | hstatus
  · rw [hactive] at ha'
    cases ha'
    exact .inl hmem
  · exact .inr hstatus

omit [DecidableEq T] in
theorem retryCommitting_of_active {a : Active Val} {n : ℕ} (hretries : (txn t).retries j = true)
    (hactive : (s.session t).active = some a) (hpc : (s.session t).pc = .reopenJob n) :
    RetryCommitting txn j s t :=
  ⟨hretries, by simp [reopening, Pc.reopening, hpc, hactive]⟩

/-- The session may only become a pending completion or a committing retry at the
start of a statement, where the guard speaks. -/
theorem RetryInv.start {st : Stmt Val} (hinv : RetryInv rows txn j s)
    (hjob : Key.job j ∈ rows) (hok : Serialised rows txn j s (t, .start))
    (hact : (machine rows txn).act t (s.session t).pc = .exec st)
    (hidle : (s.session t).active = none) :
    RetryInv rows txn j (s.begin rows t st) := by
  have hguard := hok rfl
  apply hinv.setSession
  · intro _ hreq
    simpa [requeued, hidle] using hreq
  · intro hpc hawaits
    right
    rw [Session.awaits_some, Stmt.selected, Finset.mem_filter] at hawaits
    obtain ⟨hactive, hlive⟩ := completes_cond hact hpc hawaits.2
    exact ⟨hlive, fun t' => (hguard t').2 ⟨hpc, hactive, hlive⟩⟩
  · intro hretries hopen
    obtain ⟨n, hpc⟩ : ∃ n, (s.session t).pc = .reopenJob n := reopening_exec hretries hact hopen
    have hreopens : (txn t).reopens j (s.session t).pc = true := by
      rw [hpc]
      exact reopens_of_retries hretries
    refine ⟨.inr fun t' => (hguard t').1 hreopens, ?_⟩
    rw [Session.awaits_some, Stmt.selected, Finset.mem_filter]
    cases hcond : st.cond (s.view t) (.job j) (s.view t (.job j)) with
    | true => exact .inl ⟨hjob, rfl⟩
    | false =>
      right
      rw [hpc] at hact
      exact reopen_cond hact hretries hcond

section

variable {st : Stmt Val} {a : Active Val} (hinv : RetryInv rows txn j s)
  (hact : (machine rows txn).act t (s.session t).pc = .exec st)
  (hactive : (s.session t).active = some a)

include hinv hact hactive

theorem RetryInv.pass {k : Key} (hk : k ∈ a.todo) (hcond : st.cond a.snap k (s.view t k) = false) :
    RetryInv rows txn j (s.pass t a k) := by
  apply hinv.setSession
  · intro _ hreq
    simpa [requeued, hactive] using hreq
  · intro hpc hawaits
    left; left
    rw [Session.awaits_some] at hawaits
    exact ⟨hpc, a, hactive, Finset.mem_of_mem_erase hawaits⟩
  · intro hretries hopen
    obtain ⟨n, hpc⟩ : ∃ n, (s.session t).pc = .reopenJob n := reopening_exec hretries hact hopen
    have hr := retryCommitting_of_active hretries hactive hpc
    refine ⟨.inl hr, ?_⟩
    rw [Session.awaits_some, Finset.mem_erase]
    by_cases hkj : k = .job j
    · subst hkj
      right
      rw [hpc] at hact
      exact reopen_cond hact hretries hcond
    · exact (hinv.mem_todo_or_reopened hactive hr).imp_left fun hmem => ⟨Ne.symm hkj, hmem⟩

theorem RetryInv.stop (hempty : a.todo = ∅) :
    RetryInv rows txn j (s.setSession t
      ⟨(machine rows txn).next t (s.session t).pc a.touched, none⟩) := by
  apply hinv.setSession
  · intro hretries hreq
    simp only [requeued, hactive, Option.any_some] at hreq
    exact requeued_next hretries hact hreq
  · intro _ hawaits
    exact absurd hawaits Session.awaits_none
  · intro hretries hopen
    obtain ⟨⟨n, hpc⟩, _⟩ := reopening_next rows hretries hopen
    have hr := retryCommitting_of_active hretries hactive hpc
    refine ⟨.inl hr, .inr ?_⟩
    simpa [hempty] using hinv.mem_todo_or_reopened hactive hr

end

/-! A statement that takes a row -/

section

variable {st : Stmt Val} {a : Active Val} {k : Key}

theorem jobAt_hit_self : jobAt ((s.hit t st a (.job j)).view t) j =
    st.set a.snap (.job j) (s.view t (.job j)) := Sys.view_hit_self

theorem jobAt_hit_of_ne (hk : k ≠ .job j) :
    jobAt ((s.hit t st a k).view t) j = jobAt (s.view t) j :=
  Sys.view_hit_of_ne (Ne.symm hk)

theorem pending_of_hit (hact : (machine rows txn).act t (s.session t).pc = .exec st)
    (hactive : (s.session t).active = some a) (hk : k ∈ a.todo) (hfree : s.Free t k)
    (hcond : st.cond a.snap k (s.view t k) = true)
    (hp : CompletionPending txn j (s.hit t st a k) t') : CompletionPending txn j s t' := by
  by_cases ht : t' = t
  · subst ht
    rcases hp with ⟨hpc, hawaits⟩ | ⟨hview, hcommitted⟩
    · left
      rw [Sys.session_hit_self] at hpc hawaits
      rw [Session.awaits_some] at hawaits
      exact ⟨hpc, a, hactive, Finset.mem_of_mem_erase hawaits⟩
    · by_cases hkj : k = .job j
      · subst hkj
        rw [jobAt_hit_self] at hview
        rcases exec_job_cases hact hcond with ⟨_, _, heq⟩ | ⟨hpc, _⟩ | ⟨_, hrun⟩
        · rw [heq] at hview
          exact .inr ⟨hview, hcommitted⟩
        · exact .inl ⟨hpc, a, hactive, hk⟩
        · rw [hrun] at hview
          simp at hview
      · rw [jobAt_hit_of_ne hkj] at hview
        exact .inr ⟨hview, hcommitted⟩
  · unfold CompletionPending at hp ⊢
    rwa [Sys.view_hit_other hfree ht, Sys.session_hit_of_ne ht] at hp

theorem retry_hit_job (hact : (machine rows txn).act t (s.session t).pc = .exec st)
    (hretries : (txn t).retries j = true)
    (hcond : st.cond a.snap (.job j) (s.view t (.job j)) = true) :
    (jobAt ((s.hit t st a (.job j)).view t) j).status = .running := by
  rw [jobAt_hit_self]
  rcases exec_job_cases hact hcond with ⟨hno, _⟩ | ⟨hpc, _⟩ | ⟨_, hrun⟩
  · simp [hretries] at hno
  · simp [retries_not_completes hretries] at hpc
  · exact hrun

theorem retryCommitting_of_hit (hactive : (s.session t).active = some a)
    (hr : RetryCommitting txn j (s.hit t st a k) t') : RetryCommitting txn j s t' := by
  obtain ⟨hretries, hopen⟩ := hr
  refine ⟨hretries, ?_⟩
  by_cases ht : t' = t
  · subst ht
    rw [Sys.session_hit_self] at hopen
    simpa [reopening, hactive] using hopen
  · rwa [Sys.session_hit_of_ne ht] at hopen

theorem RetryInv.hit (hinv : RetryInv rows txn j s)
    (hact : (machine rows txn).act t (s.session t).pc = .exec st)
    (hactive : (s.session t).active = some a) (hk : k ∈ a.todo) (hfree : s.Free t k)
    (hcond : st.cond a.snap k (s.view t k) = true) :
    RetryInv rows txn j (s.hit t st a k) := by
  have hpending : ∀ t', CompletionPending txn j (s.hit t st a k) t' →
      CompletionPending txn j s t' := fun t' => pending_of_hit hact hactive hk hfree hcond
  constructor
  case done_dead => exact hinv.done_dead
  case held_row =>
    intro d t1 v hv hlive
    rcases Sys.held_hit_cases hv with ⟨rfl, rfl, hvv⟩ | ⟨_, hold⟩
    · cases hvv
      rcases exec_row_cases hact hcond with ⟨_, hdead⟩ | ⟨hretries, hpc⟩
      · simp [hdead] at hlive
      · refine ⟨hretries, ?_⟩
        simp [Sys.session_hit_self, requeued, hpc, Pc.requeued]
    · obtain ⟨hretries, hreq⟩ := hinv.held_row d t1 v hold hlive
      refine ⟨hretries, ?_⟩
      by_cases ht : t1 = t
      · subst ht
        rw [Sys.session_hit_self]
        have hne : (a.touched ++ [k]).isEmpty = false := by simp
        simpa only [requeued, Option.any_some, hne, Bool.not_false] using Pc.requeued_touched hreq
      · rwa [Sys.session_hit_of_ne ht]
  case retry_version =>
    intro t1 hretries hview
    by_cases ht : t1 = t
    · subst ht
      by_cases hkj : k = .job j
      · subst hkj
        simp [retry_hit_job hact hretries hcond] at hview
      · rw [jobAt_hit_of_ne hkj] at hview
        exact hinv.retry_version _ hretries hview
    · rw [Sys.view_hit_other hfree ht] at hview
      exact hinv.retry_version _ hretries hview
  case finished =>
    intro t1 hp
    have hdead := hinv.finished t1 (hpending t1 hp)
    by_cases ht : t1 = t
    · subst ht
      apply hasLive_mono _ hdead
      intro d hlive
      by_cases hkd : k = .row j d
      · subst hkd
        rw [Sys.view_hit_self] at hlive
        rcases exec_row_cases hact hcond with ⟨_, hnot⟩ | ⟨hretries, _⟩
        · simp [hnot] at hlive
        · exact absurd (hpending t1 hp)
            (not_pending_of_retry hretries (hinv.retry_version t1 hretries))
      · rwa [Sys.view_hit_of_ne (Ne.symm hkd)] at hlive
    · rwa [Sys.view_hit_other hfree ht]
  case exclusive =>
    intro t1 t2 hr hp
    exact hinv.exclusive t1 t2 (retryCommitting_of_hit hactive hr) (hpending t2 hp)
  case reopened =>
    intro t1 hr
    have hr' := retryCommitting_of_hit hactive hr
    by_cases ht : t1 = t
    · subst ht
      by_cases hkj : k = .job j
      · subst hkj
        simp [retry_hit_job hact hr.1 hcond]
      · rw [jobAt_hit_of_ne hkj]
        rw [Sys.session_hit_self, Session.awaits_some, Finset.mem_erase]
        exact (hinv.mem_todo_or_reopened hactive hr').imp_left fun hmem => ⟨Ne.symm hkj, hmem⟩
    · rw [Sys.view_hit_other hfree ht, Sys.session_hit_of_ne ht]
      exact hinv.reopened t1 hr'

end

/-! The end of a transaction -/

theorem completionPending_of_close {pc : Pc} (hview : s.view t = s.committed)
    (hp : CompletionPending txn j (s.setSession t ⟨pc, none⟩) t') :
    t' ≠ t ∧ CompletionPending txn j s t' := by
  by_cases ht : t' = t
  · subst ht
    exfalso
    rcases hp with ⟨_, hawaits⟩ | ⟨hdone, hcommitted⟩
    · rw [Sys.session_setSession_self] at hawaits
      exact Session.awaits_none hawaits
    · rw [Sys.view_setSession, hview] at hdone
      exact hcommitted hdone
  · exact ⟨ht, (completionPending_setSession_of_ne ht).mp hp⟩

theorem completionPending_of_commit {pc : Pc}
    (hp : CompletionPending txn j ((s.commit t).setSession t ⟨pc, none⟩) t') :
    t' ≠ t ∧ CompletionPending txn j s t' := by
  obtain ⟨ht, hawaits | ⟨hview, hcommitted⟩⟩ :=
    completionPending_of_close Sys.view_commit_self hp
  · exact ⟨ht, .inl hawaits⟩
  · refine ⟨ht, .inr ?_⟩
    unfold jobAt at hview hcommitted ⊢
    rcases s.view_commit_cases (.job j) ht with ⟨h1, h2⟩ | ⟨h1, _⟩
    · rw [h1] at hview
      change Job.status (s.view t (.job j)) ≠ _ at hcommitted
      rw [h2] at hcommitted
      exact ⟨hview, hcommitted⟩
    · rw [h1] at hview
      exact absurd hview hcommitted

theorem completionPending_of_abort {pc : Pc}
    (hp : CompletionPending txn j ((s.abort t).setSession t ⟨pc, none⟩) t') :
    t' ≠ t ∧ CompletionPending txn j s t' := by
  obtain ⟨ht, hp'⟩ := completionPending_of_close Sys.view_abort_self hp
  unfold CompletionPending at hp'
  rw [Sys.view_abort_of_ne ht] at hp'
  exact ⟨ht, hp'⟩

theorem retryCommitting_of_close {pc : Pc}
    (hclose : ∀ st, (machine rows txn).act t pc ≠ .exec st)
    (hr : RetryCommitting txn j (s.setSession t ⟨(machine rows txn).next t pc [], none⟩) t') :
    t' ≠ t ∧ RetryCommitting txn j s t' := by
  by_cases ht : t' = t
  · subst ht
    obtain ⟨hretries, hopen⟩ := hr
    rw [Sys.session_setSession_self] at hopen
    obtain ⟨_, st, hst⟩ := reopening_next rows hretries hopen
    exact absurd hst (hclose st)
  · exact ⟨ht, (retryCommitting_setSession_of_ne ht).mp hr⟩

section

variable (hinv : RetryInv rows txn j s) (hact : (machine rows txn).act t (s.session t).pc = .commit)

include hinv hact

/-- The row committed by `t` was requeued by a retry that has looked at the job, or
was live before. -/
theorem RetryInv.live_at_commit {d : Str} (hlive : JobDomain.live (s.view t (.row j d)) = true) :
    RetryCommitting txn j s t ∨ JobDomain.live (s.committed (.row j d)) = true := by
  rcases s.view_cases t (.row j d) with hv | ⟨_, heq⟩
  · left
    obtain ⟨hretries, hreq⟩ := hinv.held_row d t _ hv hlive
    exact ⟨hretries, requeued_commit hretries hact hreq⟩
  · right
    rwa [heq] at hlive

theorem RetryInv.commit (hidle : (s.session t).active = none) :
    RetryInv rows txn j ((s.commit t).setSession t
      ⟨(machine rows txn).next t (s.session t).pc [], none⟩) := by
  -- a retry that commits has found the job open or has opened it
  have hopen : RetryCommitting txn j s t → (jobAt (s.view t) j).status ≠ .done := by
    intro hr
    rcases hinv.reopened t hr with ⟨a, ha, _⟩ | hstatus
    · simp [hidle] at ha
    · exact hstatus
  constructor
  case done_dead =>
    intro hdone
    by_cases hc : (jobAt s.committed j).status = .done
    · apply hasLive_mono _ (hinv.done_dead hc)
      intro d hlive
      rcases hinv.live_at_commit hact hlive with hr | hlive'
      · exact absurd hdone (hopen hr)
      · exact hlive'
    · exact hinv.finished t (.inr ⟨hdone, hc⟩)
  case held_row =>
    intro d t1 v hv hlive
    have ht : t1 ≠ t := Sys.ne_of_release hv
    rw [Sys.session_setSession_of_ne _ ht]
    exact hinv.held_row d t1 v ((Sys.held_commit_of_ne ht).mp hv) hlive
  case retry_version =>
    intro t1 hretries hview
    rw [Sys.view_setSession] at hview
    change (jobAt (s.view t) j).status = .done
    by_cases ht : t1 = t
    · subst ht
      rwa [Sys.view_commit_self] at hview
    · have hold := hinv.retry_version t1 hretries
      unfold jobAt at hview hold ⊢
      rcases s.view_commit_cases (.job j) ht with ⟨h1, h2⟩ | ⟨h1, _⟩
      · rw [h1] at hview
        rw [h2]
        exact hold hview
      · rwa [h1] at hview
  case finished =>
    intro t1 hp
    obtain ⟨ht, hp'⟩ := completionPending_of_commit hp
    apply hasLive_mono _ (hinv.finished t1 hp')
    intro d hlive
    rw [Sys.view_setSession] at hlive
    rcases s.view_commit_cases (.row j d) ht with ⟨h1, _⟩ | ⟨h1, h2⟩
    · rwa [h1] at hlive
    · rw [h1] at hlive
      rcases hinv.live_at_commit hact hlive with hr | hlive'
      · exact absurd hp' (hinv.exclusive t t1 hr)
      · rwa [h2]
  case exclusive =>
    intro t1 t2 hr hp
    exact hinv.exclusive t1 t2 (retryCommitting_of_close (by simp [hact]) hr).2
      (completionPending_of_commit hp).2
  case reopened =>
    intro t1 hr
    obtain ⟨ht, hr'⟩ := retryCommitting_of_close (by simp [hact]) hr
    rw [Sys.session_setSession_of_ne _ ht, Sys.view_setSession]
    rcases hinv.reopened t1 hr' with hawaits | hstatus
    · exact .inl hawaits
    · right
      have hno := hinv.exclusive t1 t hr'
      unfold jobAt at hstatus ⊢
      rcases s.view_commit_cases (.job j) ht with ⟨h1, _⟩ | ⟨h1, h2⟩
      · rwa [h1]
      · rw [h1]
        rw [h2] at hstatus
        intro hdone
        exact hno (.inr ⟨hdone, hstatus⟩)

end

theorem RetryInv.rollback (hinv : RetryInv rows txn j s)
    (hact : (machine rows txn).act t (s.session t).pc = .rollback) :
    RetryInv rows txn j ((s.abort t).setSession t
      ⟨(machine rows txn).next t (s.session t).pc [], none⟩) := by
  constructor
  case done_dead => exact hinv.done_dead
  case held_row =>
    intro d t1 v hv hlive
    have ht : t1 ≠ t := Sys.ne_of_release hv
    rw [Sys.session_setSession_of_ne _ ht]
    exact hinv.held_row d t1 v ((Sys.held_abort_of_ne ht).mp hv) hlive
  case retry_version =>
    intro t1 hretries hview
    rw [Sys.view_setSession] at hview
    by_cases ht : t1 = t
    · subst ht
      rwa [Sys.view_abort_self] at hview
    · rw [Sys.view_abort_of_ne ht] at hview
      exact hinv.retry_version t1 hretries hview
  case finished =>
    intro t1 hp
    obtain ⟨ht, hp'⟩ := completionPending_of_abort hp
    rw [Sys.view_setSession, Sys.view_abort_of_ne ht]
    exact hinv.finished t1 hp'
  case exclusive =>
    intro t1 t2 hr hp
    exact hinv.exclusive t1 t2 (retryCommitting_of_close (by simp [hact]) hr).2
      (completionPending_of_abort hp).2
  case reopened =>
    intro t1 hr
    obtain ⟨ht, hr'⟩ := retryCommitting_of_close (by simp [hact]) hr
    rw [Sys.session_setSession_of_ne _ ht, Sys.view_setSession, Sys.view_abort_of_ne ht]
    exact hinv.reopened t1 hr'

/-! ## Runs -/

theorem RetryInv.step {s' : Sys Val T Pc} {l : T × Move Key} (hjob : Key.job j ∈ rows)
    (hinv : RetryInv rows txn j s) (hok : Serialised rows txn j s l)
    (hstep : Step (machine rows txn) rows s l s') : RetryInv rows txn j s' := by
  cases hstep with
  | start hact hidle => exact hinv.start hjob hok hact hidle
  | hit hact hactive hk hfree hcond => exact hinv.hit hact hactive hk hfree hcond
  | pass hact hactive hk _ hcond => exact hinv.pass hact hactive hk hcond
  | stop hact hactive hempty => exact hinv.stop hact hactive hempty
  | commit hact hidle => exact hinv.commit hact hidle
  | rollback hact _ => exact hinv.rollback hact

theorem RetryInv.fresh {db : Db Val} (hdb : DoneIsDead rows db j) (hs : Fresh txn db s) :
    RetryInv rows txn j s := by
  obtain ⟨rfl, hheld, hsession⟩ := hs
  have hview : ∀ t, s.view t = s.committed := by
    intro t
    funext k
    apply Sys.view_of_not_held
    simp [hheld]
  have hretry : ∀ t, ¬ RetryCommitting txn j s t := by
    rintro t ⟨_, hopen⟩
    rw [hsession] at hopen
    cases htxn : txn t <;> simp [htxn, Txn.entry, reopening, Pc.reopening] at hopen
  constructor
  case done_dead => exact hdb
  case held_row =>
    intro d t v hv
    simp [hheld] at hv
  case retry_version =>
    intro t _ hdone
    rwa [hview] at hdone
  case finished =>
    rintro t (⟨_, hawaits⟩ | ⟨hdone, hcommitted⟩)
    · rw [hsession] at hawaits
      exact absurd hawaits Session.awaits_none
    · rw [hview] at hdone
      exact absurd hdone hcommitted
  case exclusive =>
    intro t _ hr
    exact absurd hr (hretry t)
  case reopened =>
    intro t hr
    exact absurd hr (hretry t)

/-- A done job has no live rows, at every point of every interleaving in which
retries and completions of the job do not overlap. -/
theorem done_job_has_no_live_rows (rows : Finset Key) (txn : T → Txn) (j : JobId)
    (hjob : Key.job j ∈ rows) (db : Db Val) (hdb : DoneIsDead rows db j)
    (h : List (Sys Val T Pc × (T × Move Key))) (s : Sys Val T Pc)
    (hrun : TxnRun rows txn db h s) (hok : Transition.Guarded (Serialised rows txn j) h) :
    DoneIsDead rows s.committed j :=
  (hrun.invariant (fun _ hs => RetryInv.fresh hdb hs)
    (fun _ _ _ hinv ho hs => hinv.step hjob ho hs) hok).done_dead

end

end

/-! ## One overlapping and one serial run -/

namespace Example

/-- The row `a` is being worked on, the row `b` failed and may be retried. -/
def db : Db Val
  | .job _ => ({ createdAt := 0, status := .running } : Job)
  | .row _ d =>
    if d = "a".toList then
      ({ seq := 0, availableAt := 0, state := .running, claimedBy := some "w".toList } :
        JobDomain)
    else
      ({ seq := 1, availableAt := 0, state := .done, status := some .fetchFailed
         result := some { domain := d, status := .fetchFailed
                          errorReason := some "homepage".toList } } : JobDomain)
  | .domain _ => ({ updatedAt := 0 } : DomainRow)

def rows : Finset Key :=
  {.job 0, .row 0 "a".toList, .row 0 "b".toList, .domain "a".toList}

/-- One session finishes the row `a`, the other retries the job. -/
def txn : Bool → Txn
  | true => .finish 1 ⟨0, "a".toList, 1, "w".toList, none⟩
      { domain := "a".toList, status := .found } false true
  | false => .requeueFailed 1 0

def start : Sys Val Bool Pc := ⟨db, fun _ => none, fun t => ⟨(txn t).entry, none⟩⟩

/-- All moves of one statement that changes the rows `ks`. -/
def run (t : Bool) (ks : List Key) : List (Bool × Move Key) :=
  (t, .start) :: ks.map (fun k => (t, .row k)) ++ [(t, .stop)]

/-- The statements of the finish, with the completion changing the rows `ks`. -/
def finishTo (ks : List Key) : List (Bool × Move Key) :=
  run true [.row 0 "a".toList] ++ run true [.domain "a".toList] ++ run true [] ++
    run true [.job 0] ++ run true ks ++ [(true, .close)]

end Example

/-- The retry requeues `b` and sees a running job; the finish of `a` completes the
job; the retry commits. Both are through, and the done job has a queued row. -/
theorem retry_strands_requeued_row :
    ∃ h s, TxnRun Example.rows Example.txn Example.db h s ∧
      (s.session true).pc = .finished (.finish true true) ∧
      (s.session false).pc = .finished (.requeued 1) ∧
      ¬ DoneIsDead Example.rows s.committed 0 := by
  obtain ⟨h, s, hrun, hfinish, hretry, hdone, hlive⟩ := Transition.Run.exists_of_exec
    (Fresh Example.txn Example.db) (step (machine Example.rows Example.txn) Example.rows)
    Example.start ⟨rfl, fun _ => rfl, fun _ => rfl⟩
    (Example.run false [.row 0 "b".toList] ++ Example.run false [] ++
      Example.finishTo [.job 0] ++ [(false, .close)])
    (fun p => (p.2.session true).pc = .finished (.finish true true) ∧
      (p.2.session false).pc = .finished (.requeued 1) ∧
      (jobAt p.2.committed 0).status = .done ∧
      hasLive Example.rows p.2.committed 0 = true)
    (by decide +kernel)
  refine ⟨h, s, hrun.mono fun _ _ _ => step_sound, hfinish, hretry, ?_⟩
  intro hdead
  rw [hdead hdone] at hlive
  simp at hlive

/-- The finish completes the job and commits before the retry requeues `b`. -/
theorem retry_after_completion :
    ∃ h s, TxnRun Example.rows Example.txn Example.db h s ∧
      (s.session false).pc = .reopenJob 1 ∧ (jobAt s.committed 0).status = .done ∧
      hasLive Example.rows s.committed 0 = false := by
  obtain ⟨h, s, hrun, hok, hpc, hdone⟩ := Transition.Run.exists_of_exec
    (Fresh Example.txn Example.db) (step (machine Example.rows Example.txn) Example.rows)
    Example.start ⟨rfl, fun _ => rfl, fun _ => rfl⟩
    (Example.finishTo [.job 0] ++ Example.run false [.row 0 "b".toList])
    (fun p => (∀ q ∈ p.1, Serialised Example.rows Example.txn 0 q.1 q.2) ∧
      (p.2.session false).pc = .reopenJob 1 ∧ (jobAt p.2.committed 0).status = .done)
    (by decide +kernel)
  have hrun' : TxnRun Example.rows Example.txn Example.db h s :=
    hrun.mono fun _ _ _ => step_sound
  have hdead := done_job_has_no_live_rows Example.rows Example.txn 0 (by decide) Example.db
    (by decide) h s hrun' hok
  exact ⟨h, s, hrun', hpc, hdone, hdead hdone⟩

end Queue

end EmailExtractor
