import EmailExtractor.Jobs.Create

/-!
# The life of a job

`create_job` together with every transaction of the queue. The status of a job moves
along the edges of one small graph, and the columns that go with a status (`finished_at`,
`paused_at` and `pause_reason`) are set and cleared together with it.
-/

namespace EmailExtractor

namespace Jobs

open Queue Transition

/-! ## Runs -/

/-- A `create_job`, or a transaction of the queue. -/
inductive JobMove
  | create (now clock : Time) (j : JobId) (a : NewJob)
  | queue (a : Action)

def JobMove.now : JobMove → Time
  | .create now _ _ _ => now
  | .queue a => a.now

def jobStep (s : System) : JobMove → Option System
  | .create now clock j a =>
    if .job j ∈ s.store.rows then none
    else some { s with store := createJob s.store now clock j a }
  | .queue a => opStep s a

abbrev JobStep (s : System) (m : JobMove) (s' : System) : Prop := jobStep s m = some s'

inductive SystemChange (s : System) : JobMove → System → Prop
  | create {now clock : Time} {j : JobId} {a : NewJob} (hfresh : .job j ∉ s.store.rows) :
      SystemChange s (.create now clock j a) { s with store := createJob s.store now clock j a }
  | queue {a : Action} {s' : System} (hstep : OpStep s a s') : SystemChange s (.queue a) s'

theorem systemChange {s s' : System} {m : JobMove} (hstep : JobStep s m s') :
    SystemChange s m s' := by
  cases m with
  | create now clock j a =>
    simp only [JobStep, jobStep, Option.ite_none_left_eq_some, Option.some.injEq] at hstep
    obtain ⟨hfresh, rfl⟩ := hstep
    exact .create hfresh
  | queue a => exact .queue hstep

/-! ## Status and columns -/

def nextStatuses : JobStatus → List JobStatus
  | .queued => [.running, .done, .paused, .cancelled]
  | .running => [.done, .paused, .cancelled]
  | .paused => [.running, .cancelled]
  | .done => [.running]
  | .failed => []
  | .cancelled => []

structure InStep (job : Job) : Prop where
  finished : job.finishedAt.isSome ↔ job.status = .done ∨ job.status = .cancelled
  paused : job.pausedAt.isSome ↔ job.status = .paused
  reason : job.pauseReason.isSome ↔ job.status = .paused

/-- The transaction is a `requeue_failed` of the job that puts a row back. -/
def PutsBack (s : System) (m : JobMove) (j : JobId) : Prop :=
  ∃ now, m = .queue ⟨now, .requeueFailed j⟩ ∧ 0 < (requeueFailed s.store now j).2

/-- The status stays, or goes to one that follows it; a job that is done needs a row put
back for that. -/
def Follows (s : System) (m : JobMove) (s' : System) (j : JobId) : Prop :=
  (s'.store.job j).status = (s.store.job j).status ∨
    (s'.store.job j).status ∈ nextStatuses (s.store.job j).status ∧
      ((s.store.job j).status = .done → PutsBack s m j)

def JobsInStep (s : System) : Prop := ∀ j, .job j ∈ s.store.rows → InStep (s.store.job j)

/-- The runs from a database whose jobs, if it has any, are in step. -/
abbrev LifeRun := Run JobsInStep JobStep

section

variable {s s' : System} {m : JobMove} {a : Action} {j : JobId} {job : Job}

theorem active_iff : job.active = true ↔ job.status = .queued ∨ job.status = .running := by
  simp [Job.active]

theorem NewJob.inStep (now clock : Time) (a : NewJob) : InStep (a.job now clock) := by
  unfold NewJob.job
  split
  · constructor <;> simp
  · constructor <;> simp

theorem InStep.change {s : Store} (h : InStep (s.job j)) (hchange : JobChange s a j job) :
    InStep job := by
  obtain ⟨hfinished, hpaused, hreason⟩ := h
  cases hchange with
  | same _ => exact ⟨hfinished, hpaused, hreason⟩
  | start _ _ _ hactive =>
    rcases active_iff.mp hactive with hstatus | hstatus
    · constructor <;> simp_all [Job.started]
    · constructor <;> simp_all [Job.started]
  | complete _ hactive _ =>
    rcases active_iff.mp hactive with hstatus | hstatus
    · constructor <;> simp_all [Job.completed]
    · constructor <;> simp_all [Job.completed]
  | reopen _ hdone _ => constructor <;> simp_all [Job.reopened]
  | pause _ hactive =>
    rcases active_iff.mp hactive with hstatus | hstatus
    · constructor <;> simp_all [Job.paused]
    · constructor <;> simp_all [Job.paused]
  | resume _ hstatus => constructor <;> simp_all [Job.transitioned]
  | resumeFor _ hfor =>
    have hstatus : (s.job j).status = .paused := by
      simp only [Job.pausedFor, Bool.and_eq_true, decide_eq_true_eq] at hfor
      exact hfor.1
    constructor <;> simp_all [Job.resumed]
  | cancel _ _ => constructor <;> simp [Job.transitioned]

theorem follows_change (hchange : JobChange s.store a j (s'.store.job j)) :
    Follows s (.queue a) s' j := by
  unfold Follows
  generalize hjob : s'.store.job j = job at hchange ⊢
  cases hchange with
  | same _ => exact .inl rfl
  | start _ _ _ hactive =>
    rcases active_iff.mp hactive with hstatus | hstatus
    · exact .inr (by simp [Job.started, hstatus, nextStatuses])
    · exact .inl (by simp [Job.started, hstatus])
  | complete _ hactive _ =>
    right
    rcases active_iff.mp hactive with hstatus | hstatus
    · simp [Job.completed, hstatus, nextStatuses]
    · simp [Job.completed, hstatus, nextStatuses]
  | reopen hop hdone hrows =>
    refine .inr ⟨by simp [Job.reopened, hdone, nextStatuses], fun _ => ⟨a.now, ?_, ?_⟩⟩
    · rw [← hop]
    · exact Finset.card_pos.mpr (Finset.nonempty_iff_ne_empty.mpr hrows)
  | pause _ hactive =>
    right
    rcases active_iff.mp hactive with hstatus | hstatus
    · simp [Job.paused, hstatus, nextStatuses]
    · simp [Job.paused, hstatus, nextStatuses]
  | resume _ hstatus => exact .inr (by simp [Job.transitioned, hstatus, nextStatuses])
  | resumeFor _ hfor =>
    simp only [Job.pausedFor, Bool.and_eq_true, decide_eq_true_eq] at hfor
    exact .inr (by simp [Job.resumed, hfor.1, nextStatuses])
  | cancel _ hopen =>
    right
    simp only [List.mem_cons, List.not_mem_nil, or_false] at hopen
    rcases hopen with hstatus | hstatus | hstatus
    · simp [Job.transitioned, hstatus, nextStatuses]
    · simp [Job.transitioned, hstatus, nextStatuses]
    · simp [Job.transitioned, hstatus, nextStatuses]

theorem JobsInStep.step (h : JobsInStep s) (hstep : JobStep s m s') : JobsInStep s' := by
  intro j hmem
  cases systemChange hstep with
  | create hfresh =>
    rw [job_createJob]
    rw [job_mem_createJob] at hmem
    split
    · exact NewJob.inStep _ _ _
    · rename_i hne
      exact h j (hmem.resolve_left hne)
  | queue hstep =>
    obtain ⟨henabled, rfl⟩ := opStep_cases hstep
    have hbefore : .job j ∈ s.store.rows := by
      simpa using (mem_rows_apply henabled.2.2).mp hmem
    exact (h j hbefore).change (jobChange s.store _ henabled.2.2 j)

theorem follows_step (hmem : .job j ∈ s.store.rows) (hstep : JobStep s m s') :
    Follows s m s' j := by
  cases systemChange hstep with
  | @create now clock j' a hfresh =>
    have hne : j ≠ j' := by
      rintro rfl
      exact hfresh hmem
    left
    rw [job_createJob, if_neg hne]
  | queue hstep =>
    obtain ⟨henabled, rfl⟩ := opStep_cases hstep
    exact follows_change (jobChange s.store _ henabled.2.2 j)

end

/-- In every run the status of every job moves along the edges only, back from done only
with a row put back, and no job is ever out of step with its status. -/
theorem status_machine_closed {h : List (System × JobMove)} {s : System} (hrun : LifeRun h s) :
    Along (fun _ s m s' => ∀ j, .job j ∈ s.store.rows → Follows s m s' j) h s ∧
      ∀ j, .job j ∈ s.store.rows → InStep (s.store.job j) := by
  refine ⟨?_, hrun.always (fun _ hs => hs) fun _ _ _ hs hstep => hs.step hstep⟩
  exact hrun.along_step fun _ s m s' hstep j hmem => follows_step hmem hstep

namespace OneJob

def start : System where
  store := .blank ∅ fun _ => { createdAt := 0 }
  claims := []

def job : NewJob where
  items := [⟨0, "a".toList, some "a".toList, none, none, "website".toList, []⟩]
  webhookUrl := none
  fresh := false
  ownerId := none
  idempotencyKey := none
  idempotencyFingerprint := none

def failure : DomainResult where
  domain := "a".toList
  status := .fetchFailed
  errorReason := some "homepage".toList

/-- The job is paused and resumed, its domain cannot be fetched, it is retried, and
cancelled. -/
def life : List JobMove :=
  [.create 0 0 0 job,
    .queue ⟨1, .claim "w".toList [⟨0, "x".toList, "a".toList⟩]⟩,
    .queue ⟨3, .pauseActiveJobs "key".toList⟩,
    .queue ⟨7, .resumeJob 0⟩,
    .queue ⟨9, .finish ⟨0, "a".toList, 1, "w|x".toList, none⟩ failure false true⟩,
    .queue ⟨20, .requeueFailed 0⟩,
    .queue ⟨21, .cancelJob 0⟩]

end OneJob

/-- A job goes through every status but one. -/
theorem one_job_in_step : ∃ h s, LifeRun h s ∧
    (statesOf h s).map (fun s => (s.store.job 0).status) =
      [.cancelled, .running, .done, .running, .paused, .running, .queued, .queued] ∧
    InStep (s.store.job 0) := by
  obtain ⟨h, s, hrun, hmem, hstatuses⟩ := Run.exists_of_exec JobsInStep jobStep OneJob.start
    (fun _ hmem => absurd hmem (Finset.notMem_empty _)) OneJob.life
    (fun p => .job 0 ∈ p.2.store.rows ∧
      (statesOf p.1 p.2).map (fun s => (s.store.job 0).status) =
        [.cancelled, .running, .done, .running, .paused, .running, .queued, .queued])
    (by decide +kernel)
  exact ⟨h, s, hrun, hstatuses, (status_machine_closed hrun).2 0 hmem⟩

end Jobs

end EmailExtractor
