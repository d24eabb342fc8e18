import EmailExtractor.Queue.Effects
import Mathlib.Algebra.Ring.Nat

/-!
# Which completions are announced

A job becomes done in four places: in the `finish` of its last row, in the
`complete_if_finished` after a resume by hand or after a key was saved, and in the
sweep of the reap loop. Only `Worker._finish` submits a `job.done`. So a run announces
every completion exactly when the other three never find a job that is to be
announced with nothing left to do.
-/

namespace EmailExtractor

namespace Queue

open ReadCommitted

def Webhook.announcesJob (j : JobId) : Webhook → Bool
  | .jobDone _ j' => decide (j' = j)
  | .domainDone .. => false

def jobAnnouncements (j : JobId) (s : Store) (a : Action) : ℕ :=
  (a.op.webhooks a.now s).countP (Webhook.announcesJob j)

def becomesDone (j : JobId) (s : Store) (a : Action) : Bool :=
  decide ((s.job j).status ≠ .done) && decide (((a.op.apply a.now s).job j).status = .done)

/-- The job has a webhook URL and at least one row in the queue. -/
def Store.announceable (s : Store) (j : JobId) : Bool :=
  truthy (s.job j).webhookUrl && decide (∃ k ∈ s.rows, k.isRowOf j = true)

/-- The action submits one `job.done` for every job to be announced that it completes,
and no other one. -/
def Announced (s : Store) (a : Action) : Prop :=
  ∀ j, jobAnnouncements j s a = if becomesDone j s a && s.announceable j then 1 else 0

/-- The action is no completion after a resume, and no sweep, that finds a job to be
announced with nothing left to do. -/
def quiet (s : Store) (a : Action) : Bool :=
  match a.op with
  | .completeIfFinished j => !(s.finishedJob j && s.announceable j)
  | .completeFinishedJobs =>
    decide (∀ k ∈ s.rows, ∀ j ∈ k.job?, (s.finishedJob j && s.announceable j) = false)
  | _ => true

section

variable {s : Store} {a : Action} {j : JobId}

theorem Job.status_ne_done_of_active {job : Job} (h : job.active = true) :
    job.status ≠ .done := by
  intro hdone
  simp [Job.active, hdone] at h

/-- The completing statements are the only ones that make a job done. -/
theorem becomesDone_eq_completes (hpossible : a.op.Possible a.now s) :
    becomesDone j s a = completes j s a := by
  have hchange := jobChange s a hpossible j
  unfold becomesDone
  generalize (a.op.apply a.now s).job j = job at hchange ⊢
  cases hchange with
  | same hcomp => simp [hcomp]
  | start hop _ _ hactive =>
    have hne := Job.status_ne_done_of_active hactive
    have hstarted : ((s.job j).started a.now).status ≠ .done := by
      simp only [Job.started]
      split
      · simp
      · exact hne
    simp [completes, hop, hstarted]
  | complete hcomp hactive _ =>
    simp [hcomp, Job.status_ne_done_of_active hactive, Job.completed]
  | reopen hop _ _ => simp [completes, hop, Job.reopened]
  | pause hop _ => simp [completes, hop, Job.paused]
  | resume hop _ => simp [completes, hop, Job.transitioned]
  | resumeFor hop _ => simp [completes, hop, Job.resumed]
  | cancel hop _ => simp [completes, hop, Job.transitioned]

theorem truthy_iff_filter {url : Option Str} :
    truthy url = (url.filter fun u => !u.isEmpty).isSome := by
  cases url with
  | none => rfl
  | some u => cases u <;> rfl

theorem jobAnnouncements_finish {now : Time} {c : Claim} {result : DomainResult}
    {fromCache writeCache : Bool} :
    jobAnnouncements j s ⟨now, .finish c result fromCache writeCache⟩ =
      if completes j s ⟨now, .finish c result fromCache writeCache⟩ &&
        truthy (s.job j).webhookUrl then 1 else 0 := by
  cases hrec : (finish s now c result fromCache writeCache).2.1 with
  | false =>
    have hdone := finish_lost hrec
    simp [jobAnnouncements, Op.webhooks, workerFinish, completes, hrec, hdone]
  | true =>
    have hfin := finish_of_recorded hrec
    simp only [jobAnnouncements, Op.webhooks, workerFinish, completes, hfin, truthy_iff_filter,
      Bool.true_eq_false, if_false]
    cases hdone : (finishing s now c result fromCache writeCache).finishedJob c.jobId with
    | false =>
      rw [Bool.and_false, Bool.false_and]
      split
      · rfl
      · split
        · rfl
        · simp [Webhook.announcesJob]
    | true =>
      -- a completed job is in its table
      have hmem : Key.job c.jobId ∈ s.rows := by
        simp only [Store.finishedJob, Bool.and_eq_true, decide_eq_true_eq,
          finishing_rows] at hdone
        exact hdone.1.1
      simp only [hmem, not_true_eq_false, if_false, Bool.and_true]
      by_cases hj : c.jobId = j
      · subst hj
        split
        · rename_i hurl
          simp [hurl]
        · rename_i url hurl
          simp [hurl, Webhook.announcesJob]
      · split <;> simp [Webhook.announcesJob, hj]

theorem announced_finish {now : Time} {c : Claim} {result : DomainResult}
    {fromCache writeCache : Bool} :
    Announced s ⟨now, .finish c result fromCache writeCache⟩ := by
  intro j
  have hpossible : (Op.finish c result fromCache writeCache).Possible now s := trivial
  rw [becomesDone_eq_completes (a := ⟨now, _⟩) hpossible, jobAnnouncements_finish,
    Store.announceable]
  cases hcomp : completes j s ⟨now, .finish c result fromCache writeCache⟩ with
  | false => rw [Bool.false_and, Bool.false_and]
  | true =>
    -- the row that was recorded is a row of the job
    have hrows : ∃ k ∈ s.rows, k.isRowOf j = true := by
      simp only [completes, Bool.and_eq_true, decide_eq_true_eq] at hcomp
      obtain ⟨rfl, hdone⟩ := hcomp
      cases hrec : (finish s now c result fromCache writeCache).2.1 with
      | false => simp [finish_lost hrec] at hdone
      | true => exact ⟨_, (recorded_iff.mp hrec).1, by simp [Key.isRowOf]⟩
    simp [hrows]

theorem announced_iff_of_silent (hpossible : a.op.Possible a.now s)
    (hsilent : a.op.webhooks a.now s = []) :
    Announced s a ↔ ∀ j, (completes j s a && s.announceable j) = false := by
  unfold Announced
  apply forall_congr'
  intro j
  rw [becomesDone_eq_completes hpossible, jobAnnouncements, hsilent, List.countP_nil]
  cases completes j s a && s.announceable j <;> simp

theorem completes_sweep {now : Time} :
    completes j s ⟨now, .completeFinishedJobs⟩ = s.finishedJob j := by
  rw [Bool.eq_iff_iff]
  simp [completes, completeJobs, job_mem_hits_completeStmt]

theorem announced_iff_quiet (hpossible : a.op.Possible a.now s) :
    Announced s a ↔ quiet s a = true := by
  obtain ⟨now, op⟩ := a
  cases op with
  | finish c result fromCache writeCache =>
    simp only [announced_finish, quiet]
  | completeIfFinished j =>
    rw [announced_iff_of_silent hpossible rfl]
    simp only [completes, completeIfFinished_got, quiet, Bool.not_eq_true']
    constructor
    · intro h
      simpa using h j
    · intro h j'
      by_cases hj : j = j'
      · subst hj
        simpa using h
      · simp [hj]
  | completeFinishedJobs =>
    rw [announced_iff_of_silent hpossible rfl]
    simp only [completes_sweep, quiet, decide_eq_true_eq]
    constructor
    · intro h k _ j _
      exact h j
    · intro h j
      cases hfin : s.finishedJob j with
      | false => rfl
      | true =>
        have hmem : Key.job j ∈ s.rows := by
          simp only [Store.finishedJob, Bool.and_eq_true, decide_eq_true_eq] at hfin
          exact hfin.1.1
        rw [← hfin]
        exact h _ hmem j rfl
  | _ =>
    rw [announced_iff_of_silent hpossible rfl]
    simp [completes, quiet]

end

/-- In every run, each completion of a job that has a webhook URL and a queue row is
announced once, and nothing else is announced, if and only if no completion after a
resume and no sweep finds such a job with nothing left to do. -/
theorem completions_announced_iff (h : List (System × Action)) (s : System)
    (hrun : QueueRun h s) :
    Transition.Along (fun _ t a _ => Announced t.store a) h s ↔
      Transition.Guarded (fun t a => quiet t.store a = true) h := by
  refine hrun.along_iff_guarded ?_
  intro _ t a _ _ hstep
  obtain ⟨henabled, _⟩ := opStep_cases hstep
  exact announced_iff_quiet henabled.2.2

namespace PausedJob

def store : Store :=
  .blank {.job 0, .row 0 "a".toList, .domain "a".toList} fun _ =>
    { createdAt := 0, webhookUrl := some "u".toList }

def claim : Claim := ⟨0, "a".toList, 1, "w|x".toList, none⟩

def result : DomainResult := { domain := "a".toList, status := .found }

def unpaused : List Action :=
  [⟨0, .claim "w".toList [⟨0, "x".toList, "a".toList⟩]⟩, ⟨1, .finish claim result false true⟩,
    ⟨2, .completeFinishedJobs⟩]

/-- The provider pauses the job while its last row is in flight, the row is recorded,
and the operator resumes the job. -/
def paused : List Action :=
  [⟨0, .claim "w".toList [⟨0, "x".toList, "a".toList⟩]⟩,
    ⟨1, .pauseActiveJobs "jina_account".toList⟩, ⟨2, .finish claim result false true⟩,
    ⟨3, .resumeJob 0⟩, ⟨4, .completeIfFinished 0⟩]

end PausedJob

/-- Without a pause the last `finish` announces the job, and the sweep after it finds
nothing. -/
theorem unpaused_job_announced : ∃ h s, QueueRun h s ∧ h.length = 3 ∧
    (s.store.job 0).status = .done ∧
    Transition.Along (fun _ t a _ => Announced t.store a) h s := by
  obtain ⟨h, s, hrun, hlen, hdone, hquiet⟩ := Transition.Run.exists_of_exec
    (fun _ : System => True) opStep ⟨PausedJob.store, []⟩ trivial PausedJob.unpaused
    (fun p => p.1.length = 3 ∧ (p.2.store.job 0).status = .done ∧
      ∀ q ∈ p.1, quiet q.1.store q.2 = true)
    (by decide +kernel)
  exact ⟨h, s, hrun, hlen, hdone, (completions_announced_iff h s hrun).mpr hquiet⟩

/-- The job is completed by the resume, and no `job.done` is submitted in the whole
run. -/
theorem resumed_job_not_announced : ∃ h s, QueueRun h s ∧
    (∃ p ∈ h, becomesDone 0 p.1.store p.2 = true ∧ p.1.store.announceable 0 = true ∧
      jobAnnouncements 0 p.1.store p.2 = 0) ∧
    (s.store.job 0).status = .done ∧
    (h.map fun p => jobAnnouncements 0 p.1.store p.2).sum = 0 :=
  Transition.Run.exists_of_exec (fun _ : System => True) opStep ⟨PausedJob.store, []⟩ trivial
    PausedJob.paused
    (fun p => (∃ q ∈ p.1, becomesDone 0 q.1.store q.2 = true ∧
        q.1.store.announceable 0 = true ∧ jobAnnouncements 0 q.1.store q.2 = 0) ∧
      (p.2.store.job 0).status = .done ∧
      (p.1.map fun q => jobAnnouncements 0 q.1.store q.2).sum = 0)
    (by decide +kernel)

end Queue

end EmailExtractor
