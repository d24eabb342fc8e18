import EmailExtractor.Jobs.Lifecycle
import EmailExtractor.Library.Dwell
import Mathlib.Tactic.Ring

/-!
# The active time of a job

`_active_seconds` and `_LIST_PROGRESS` of `app/main.py` compute the time a job has been
able to run from `started_at`, `finished_at`, `paused_at` and `paused_seconds`. What these
columns say is compared with the history of the status: the value is the length of the set
of times since the first claim at which the job was queued or running.

One transaction changes the columns in such a way that the value goes on from where it
stood, at the pace of the new status. The rest is an induction over the run.
-/

namespace EmailExtractor

namespace Jobs

open Queue Transition Signal

/-! ## The two queries -/

/-- What the query of `_active_seconds` selects. -/
def activeValue (now : Time) (job : Job) : Option ℚ :=
  job.startedAt.map fun started =>
    (job.finishedAt.getD now - started) - job.pausedSeconds -
      match job.pausedAt, job.finishedAt with
      | some paused, none => now - max paused started
      | _, _ => 0

def activeSeconds (now : Time) (job : Job) : Option ℚ := (activeValue now job).map (max 0)

def listedSeconds (now : Time) (job : Job) : Option ℚ :=
  match job.startedAt with
  | none => none
  | some started =>
    some (max 0 ((job.finishedAt.getD now - started) - job.pausedSeconds -
      if job.pausedAt.isSome ∧ job.finishedAt.isNone then
        now - max (job.pausedAt.getD now) started
      else 0))

theorem listedSeconds_eq (now : Time) (job : Job) :
    listedSeconds now job = activeSeconds now job := by
  unfold listedSeconds activeSeconds activeValue
  cases job.startedAt with
  | none => rfl
  | some started =>
    cases job.pausedAt with
    | none | some paused => cases job.finishedAt <;> simp

/-! ## One transaction -/

/-- The job is in step with its status, and the status is one that the queue uses. -/
structure Regular (job : Job) : Prop extends InStep job where
  used : job.status ≠ .failed

def activeSince (started now : Time) (job : Job) : ℚ :=
  (activeValue now { job with startedAt := some started }).getD 0

section

variable {s : Store} {a : Action} {j : JobId} {job job' : Job} {started now t : Time}

theorem activeValue_of_started (h : job.startedAt = some started) :
    activeValue now job = some (activeSince started now job) := by
  unfold activeSince activeValue
  rw [h]
  rfl

theorem InStep.of_active (h : InStep job) (hactive : job.active = true) :
    job.finishedAt = none ∧ job.pausedAt = none := by
  have hfinished := h.finished
  have hpaused := h.paused
  rcases active_iff.mp hactive with hstatus | hstatus
  · simp_all
  · simp_all

theorem InStep.of_paused (h : InStep job) (hstatus : job.status = .paused) :
    job.finishedAt = none ∧ ∃ paused, job.pausedAt = some paused := by
  have hfinished := h.finished
  have hpaused := h.paused
  rw [hstatus] at hfinished hpaused
  exact ⟨by simpa using hfinished, Option.isSome_iff_exists.mp (hpaused.mpr rfl)⟩

theorem activeSince_of_active (h : InStep job) (hactive : job.active = true) :
    activeSince started now job = now - started - job.pausedSeconds := by
  obtain ⟨hfinished, hpaused⟩ := h.of_active hactive
  simp [activeSince, activeValue, hfinished, hpaused]

theorem activeSince_of_paused {paused : Time} (hfinished : job.finishedAt = none)
    (hpaused : job.pausedAt = some paused) :
    activeSince started now job = max paused started - started - job.pausedSeconds := by
  simp only [activeSince, activeValue, hfinished, hpaused, Option.map_some, Option.getD_some,
    Option.getD_none]
  ring

theorem activeSince_of_finished {finished : Time} (hfinished : job.finishedAt = some finished) :
    activeSince started now job = finished - started - job.pausedSeconds := by
  simp [activeSince, activeValue, hfinished]

theorem activeSince_later (h : Regular job) (started now t : Time) :
    activeSince started t job =
      activeSince started now job + if job.active then t - now else 0 := by
  by_cases hactive : job.active = true
  · rw [activeSince_of_active h.toInStep hactive, activeSince_of_active h.toInStep hactive,
      if_pos hactive]
    ring
  · rw [if_neg hactive, add_zero]
    by_cases hpaused : job.status = .paused
    · obtain ⟨hfinished, paused, hat⟩ := h.of_paused hpaused
      rw [activeSince_of_paused hfinished hat, activeSince_of_paused hfinished hat]
    · have hover : job.status = .done ∨ job.status = .cancelled := by
        have hused := h.used
        rw [active_iff] at hactive
        cases hstatus : job.status <;> simp_all
      obtain ⟨finished, hat⟩ := Option.isSome_iff_exists.mp (h.finished.mpr hover)
      rw [activeSince_of_finished hat, activeSince_of_finished hat]

theorem pauseLength_of_started (hstarted : job.startedAt = some started) {paused : Time}
    (hpaused : job.pausedAt = some paused) : job.pauseLength now = now - max paused started := by
  simp [Job.pauseLength, hstarted, hpaused]

theorem pauseLength_of_not_paused (hpaused : job.pausedAt = none) : job.pauseLength now = 0 := by
  unfold Job.pauseLength
  rw [hpaused]
  cases job.startedAt <;> rfl

theorem Regular.change (h : Regular (s.job j)) (hchange : JobChange s a j job) : Regular job := by
  refine ⟨h.toInStep.change hchange, ?_⟩
  cases hchange with
  | same _ => exact h.used
  | start _ _ _ hactive =>
    rcases active_iff.mp hactive with hstatus | hstatus
    · simp [Job.started, hstatus]
    · simp [Job.started, hstatus]
  | complete _ _ _ => simp [Job.completed]
  | reopen _ _ _ => simp [Job.reopened]
  | pause _ _ => simp [Job.paused]
  | resume _ _ => simp [Job.transitioned]
  | resumeFor _ _ => simp [Job.resumed]
  | cancel _ _ => simp [Job.transitioned]

theorem active_started (hactive : job.active = true) : (job.started now).active = true := by
  rcases active_iff.mp hactive with hstatus | hstatus
  · simp [Job.active, Job.started, hstatus]
  · simp [Job.active, Job.started, hstatus]

theorem startedAt_change (hstarted : (s.job j).startedAt = some started)
    (hchange : JobChange s a j job) : job.startedAt = some started := by
  cases hchange with
  | start _ _ _ _ => simp [Job.started, hstarted]
  | _ => exact hstarted

/-- A transaction makes no jump in the value: at its own time both sides agree. -/
theorem activeSince_change (h : Regular (s.job j)) (hstarted : (s.job j).startedAt = some started)
    (hle : started ≤ a.now) (hchange : JobChange s a j job) :
    activeSince started a.now job = activeSince started a.now (s.job j) := by
  have hstep := h.toInStep.change hchange
  cases hchange with
  | same _ => rfl
  | start _ _ _ hactive =>
    rw [activeSince_of_active hstep (active_started hactive),
      activeSince_of_active h.toInStep hactive]
    rfl
  | complete _ hactive _ =>
    rw [activeSince_of_finished rfl, activeSince_of_active h.toInStep hactive]
    rfl
  | reopen _ hdone _ =>
    obtain ⟨finished, hat⟩ := Option.isSome_iff_exists.mp (h.finished.mpr (.inl hdone))
    rw [activeSince_of_active hstep (by simp [Job.active, Job.reopened]),
      activeSince_of_finished hat]
    simp only [Job.reopened, hat, Option.map_some, Option.getD_some]
    ring
  | pause _ hactive =>
    obtain ⟨hfinished, _⟩ := h.of_active hactive
    rw [activeSince_of_paused (by exact hfinished) rfl, activeSince_of_active h.toInStep hactive,
      max_eq_left hle]
    rfl
  | resume _ hstatus =>
    obtain ⟨hfinished, paused, hat⟩ := h.of_paused hstatus
    rw [activeSince_of_active hstep (by simp [Job.active, Job.transitioned]),
      activeSince_of_paused hfinished hat]
    simp only [Job.transitioned, pauseLength_of_started hstarted hat]
    ring
  | resumeFor _ hfor =>
    simp only [Job.pausedFor, Bool.and_eq_true, decide_eq_true_eq] at hfor
    obtain ⟨hfinished, paused, hat⟩ := h.of_paused hfor.1
    rw [activeSince_of_active hstep (by simp [Job.active, Job.resumed]),
      activeSince_of_paused hfinished hat]
    simp only [Job.resumed, pauseLength_of_started hstarted hat]
    ring
  | cancel _ hopen =>
    have hat : (s.job j).finishedAt = none →
        ((s.job j).transitioned a.now .cancelled none).finishedAt = some a.now := by
      intro hfinished
      simp [Job.transitioned, hfinished]
    by_cases hactive : (s.job j).active = true
    · obtain ⟨hfinished, hpaused⟩ := h.of_active hactive
      rw [activeSince_of_finished (hat hfinished), activeSince_of_active h.toInStep hactive]
      simp only [Job.transitioned, pauseLength_of_not_paused hpaused, add_zero]
    · have hstatus : (s.job j).status = .paused := by
        rw [active_iff] at hactive
        simp only [List.mem_cons, List.not_mem_nil, or_false] at hopen
        tauto
      obtain ⟨hfinished, paused, hpaused⟩ := h.of_paused hstatus
      rw [activeSince_of_finished (hat hfinished), activeSince_of_paused hfinished hpaused]
      simp only [Job.transitioned, pauseLength_of_started hstarted hpaused]
      ring

end

/-! ## Whole runs -/

def JobMove.claims (j : JobId) (s : Store) : JobMove → Bool
  | .create .. => false
  | .queue a => (a.op.claimed a.now s).any fun c => decide (c.jobId = j)

def everClaimed (j : JobId) (h : List (System × JobMove)) : Bool :=
  h.any fun p => p.2.claims j p.1.store

def jobActive (j : JobId) (s : System) : Bool := (s.store.job j).active

def Unborn (j : JobId) (s : System) : Prop :=
  .job j ∉ s.store.rows ∧ ∀ d, .row j d ∉ s.store.rows

inductive Tracked (j : JobId) (h : List (System × JobMove)) (s : System) : Prop
  | absent (hborn : Unborn j s) (hnever : everClaimed j h = false)
  | waiting (hmem : .job j ∈ s.store.rows) (hregular : Regular (s.store.job j))
      (hstarted : (s.store.job j).startedAt = none) (hzero : (s.store.job j).pausedSeconds = 0)
      (hqueued : ∀ d, .row j d ∈ s.store.rows → (s.store.row j d).state = .queued)
      (hnever : everClaimed j h = false)
  | counted (started : Time) (hmem : .job j ∈ s.store.rows) (hregular : Regular (s.store.job j))
      (hstarted : (s.store.job j).startedAt = some started) (hclaimed : everClaimed j h = true)
      (hcount : ∀ t, InOrder t (timed JobMove.now h s) → started ≤ t ∧
        activeSince started t (s.store.job j) =
          dwell (jobActive j) started t (timed JobMove.now h s))

section

variable {h : List (System × JobMove)} {s s' : System} {m : JobMove} {a : Action} {j : JobId}

theorem NewJob.regular (now clock : Time) (a : NewJob) : Regular (a.job now clock) := by
  refine ⟨NewJob.inStep now clock a, ?_⟩
  unfold NewJob.job
  split <;> simp

theorem job_of_claims (hpossible : a.op.Possible a.now s.store)
    (hclaims : (JobMove.queue a).claims j s.store = true)
    (hstarted : (s.store.job j).startedAt = none) :
    (a.op.apply a.now s.store).job j = (s.store.job j).started a.now ∧
      (s.store.job j).active = true := by
  obtain ⟨now, op⟩ := a
  cases op with
  | claim worker tries =>
    rcases claim_cases worker hpossible with hnone | ⟨t, _, hpick, _, _, hclaim⟩
    · simp [JobMove.claims, Op.claimed, hnone] at hclaims
    · simp only [JobMove.claims, Op.claimed, hclaim, Option.any_some,
        decide_eq_true_eq] at hclaims
      subst hclaims
      simp only [Store.pickable, Bool.and_eq_true, decide_eq_true_eq] at hpick
      refine ⟨?_, hpick.1.2⟩
      simp only [Op.apply, hclaim, startJob, Store.job_exec_onJob, claimRow,
        Store.job_exec_onRow, Store.rows_exec]
      rw [if_pos]
      exact ⟨hpick.1.1, by simp [Job.unstarted, hstarted]⟩
  | _ => simp [JobMove.claims, Op.claimed] at hclaims

theorem not_claims_of_notMem (hpossible : a.op.Possible a.now s.store)
    (hmem : .job j ∉ s.store.rows) : (JobMove.queue a).claims j s.store = false := by
  obtain ⟨now, op⟩ := a
  cases op with
  | claim worker tries =>
    rcases claim_cases worker hpossible with hnone | ⟨t, _, hpick, _, _, hclaim⟩
    · simp [JobMove.claims, Op.claimed, hnone]
    · simp only [JobMove.claims, Op.claimed, hclaim, Option.any_some, decide_eq_false_iff_not]
      rintro rfl
      simp only [Store.pickable, Bool.and_eq_true, decide_eq_true_eq] at hpick
      exact hmem hpick.1.1
  | _ => rfl

theorem everClaimed_cons : everClaimed j ((s, m) :: h) =
    (m.claims j s.store || everClaimed j h) := by
  simp [everClaimed]

theorem claims_of_claimsRow {d : Str} (hrow : claimsRow j d s.store a = true) :
    (JobMove.queue a).claims j s.store = true := by
  simp only [claimsRow, Option.any_eq_true, Bool.and_eq_true, decide_eq_true_eq] at hrow
  obtain ⟨c, hc, hj, -⟩ := hrow
  simp [JobMove.claims, hc, hj]

theorem waiting_change (hstarted : (s.store.job j).startedAt = none)
    (hzero : (s.store.job j).pausedSeconds = 0)
    (hqueued : ∀ d, .row j d ∈ s.store.rows → (s.store.row j d).state = .queued)
    (hclaims : (JobMove.queue a).claims j s.store = false) {job : Job}
    (hchange : JobChange s.store a j job) :
    job.startedAt = none ∧ job.pausedSeconds = 0 := by
  have hpause : (s.store.job j).pauseLength a.now = 0 := by
    simp [Job.pauseLength, hstarted]
  cases hchange with
  | same _ => exact ⟨hstarted, hzero⟩
  | start _ hclaimed hj _ => simp [JobMove.claims, hclaimed, hj] at hclaims
  | complete _ _ _ => exact ⟨hstarted, hzero⟩
  | reopen _ _ hrows =>
    -- a row to take back is a done one
    obtain ⟨k, hk⟩ := Finset.nonempty_iff_ne_empty.mpr hrows
    cases k with
    | row j' d =>
      rw [requeueFailedRows, Store.row_mem_hits] at hk
      simp only [Bool.and_eq_true, decide_eq_true_eq] at hk
      obtain ⟨hmem, rfl, hretryable⟩ := hk
      simp [JobDomain.retryable, hqueued d hmem] at hretryable
    | job _ | domain _ => simp [Store.mem_hits, requeueFailedRows] at hk
  | pause _ _ => exact ⟨hstarted, hzero⟩
  | resume _ _ | cancel _ _ => exact ⟨hstarted, by simp [Job.transitioned, hpause, hzero]⟩
  | resumeFor _ _ => exact ⟨hstarted, by simp [Job.resumed, hpause, hzero]⟩

theorem count_step {started t : Time} (hregular : Regular (s'.store.job j))
    (hcount : ∀ t, InOrder t (timed JobMove.now h s) → started ≤ t ∧
      activeSince started t (s.store.job j) =
        dwell (jobActive j) started t (timed JobMove.now h s))
    (hsame : started ≤ m.now → activeSince started m.now (s'.store.job j) =
      activeSince started m.now (s.store.job j))
    (horder : InOrder t (timed JobMove.now ((s, m) :: h) s')) :
    started ≤ t ∧ activeSince started t (s'.store.job j) =
      dwell (jobActive j) started t (timed JobMove.now ((s, m) :: h) s') := by
  obtain ⟨hle, horder⟩ := horder
  obtain ⟨hstarted, hvalue⟩ := hcount m.now horder
  refine ⟨hstarted.trans hle, ?_⟩
  rw [activeSince_later hregular started m.now t, hsame hstarted, hvalue, timed, dwell,
    max_eq_right hstarted]
  rfl

theorem count_first {t : Time} (hregular : Regular (s'.store.job j))
    (hactive : (s'.store.job j).active = true) (hzero : (s'.store.job j).pausedSeconds = 0)
    (horder : InOrder t (timed JobMove.now ((s, m) :: h) s')) :
    m.now ≤ t ∧ activeSince m.now t (s'.store.job j) =
      dwell (jobActive j) m.now t (timed JobMove.now ((s, m) :: h) s') := by
  obtain ⟨hle, horder⟩ := horder
  refine ⟨hle, ?_⟩
  rw [activeSince_of_active hregular.toInStep hactive, hzero, sub_zero, timed, dwell, max_self,
    dwell_self horder, zero_add, jobActive, if_pos hactive]

theorem Tracked.create {now clock : Time} {j' : JobId} {b : NewJob} (htracked : Tracked j h s)
    (hfresh : .job j' ∉ s.store.rows) :
    Tracked j ((s, .create now clock j' b) :: h)
      { s with store := createJob s.store now clock j' b } := by
  have hclaims : everClaimed j ((s, .create now clock j' b) :: h) = everClaimed j h := by
    rw [everClaimed_cons]
    rfl
  by_cases hj : j = j'
  · subst hj
    cases htracked with
    | absent hborn hnever =>
      have hjob : (createJob s.store now clock j b).job j = b.job now clock := by
        rw [job_createJob, if_pos rfl]
      obtain ⟨hstarted, hzero⟩ :
          (b.job now clock).startedAt = none ∧ (b.job now clock).pausedSeconds = 0 := by
        unfold NewJob.job
        split <;> exact ⟨rfl, rfl⟩
      refine .waiting (job_mem_createJob.mpr (.inl rfl)) (hjob ▸ NewJob.regular _ _ _)
        (hjob ▸ hstarted) (hjob ▸ hzero) (fun d hmem => ?_) (hclaims.trans hnever)
      have hd := (row_mem_createJob_self.mp hmem).resolve_right (hborn.2 d)
      obtain ⟨i, hi⟩ := List.mem_iff_getElem?.mp hd
      rw [row_createJob_self hi]
    | waiting hmem | counted _ hmem => exact absurd hmem hfresh
  · have hjob : (createJob s.store now clock j' b).job j = s.store.job j := by
      rw [job_createJob, if_neg hj]
    have hrow : ∀ d, .row j d ∈ (createJob s.store now clock j' b).rows ↔
        .row j d ∈ s.store.rows := fun d => (row_createJob hj).2
    cases htracked with
    | absent hborn hnever =>
      refine .absent ⟨?_, fun d => (hrow d).not.mpr (hborn.2 d)⟩ (hclaims.trans hnever)
      rw [job_mem_createJob, not_or]
      exact ⟨hj, hborn.1⟩
    | waiting hmem hregular hstarted hzero hqueued hnever =>
      refine .waiting (job_mem_createJob.mpr (.inr hmem)) (by rwa [hjob]) (by rwa [hjob])
        (by rwa [hjob]) (fun d hd => ?_) (hclaims.trans hnever)
      rw [(row_createJob hj).1]
      exact hqueued d ((hrow d).mp hd)
    | counted started hmem hregular hstarted hclaimed hcount =>
      refine .counted started (job_mem_createJob.mpr (.inr hmem)) (by rwa [hjob])
        (by rwa [hjob]) (hclaims.trans hclaimed) fun t horder => ?_
      exact count_step (by rwa [hjob]) hcount (fun _ => by rw [hjob]) horder

theorem Tracked.queue (htracked : Tracked j h s) (hstep : OpStep s a s') :
    Tracked j ((s, .queue a) :: h) s' := by
  obtain ⟨henabled, rfl⟩ := opStep_cases hstep
  have hchange := jobChange s.store a henabled.2.2 j
  have hrow : ∀ d, .row j d ∈ (a.op.apply a.now s.store).rows ↔ .row j d ∈ s.store.rows :=
    fun d => row_mem_apply henabled.2.2
  have hjob : .job j ∈ (a.op.apply a.now s.store).rows ↔ .job j ∈ s.store.rows := by
    rw [mem_rows_apply henabled.2.2]
    simp
  cases htracked with
  | absent hborn hnever =>
    refine .absent ⟨hjob.not.mpr hborn.1, fun d => (hrow d).not.mpr (hborn.2 d)⟩ ?_
    rw [everClaimed_cons, not_claims_of_notMem henabled.2.2 hborn.1, hnever]
    rfl
  | waiting hmem hregular hstarted hzero hqueued hnever =>
    have hregular' := hregular.change hchange
    cases hclaim : (JobMove.queue a).claims j s.store with
    | false =>
      obtain ⟨hstarted', hzero'⟩ := waiting_change hstarted hzero hqueued hclaim hchange
      refine .waiting (hjob.mpr hmem) hregular' hstarted' hzero' (fun d hd => ?_) ?_
      · have hmem' := (hrow d).mp hd
        rcases (rowChange henabled hmem').of_queued (hqueued d hmem') with hsame | hclaimed
        · exact (congrArg JobDomain.state hsame).trans (hqueued d hmem')
        · rw [claims_of_claimsRow hclaimed] at hclaim
          exact absurd hclaim (by simp)
      · rw [everClaimed_cons, hclaim, hnever]
        rfl
    | true =>
      obtain ⟨hjob', hactive⟩ := job_of_claims henabled.2.2 hclaim hstarted
      refine .counted a.now (hjob.mpr hmem) hregular' ?_ ?_ fun t horder => ?_
      · rw [hjob']
        simp [Job.started, hstarted]
      · rw [everClaimed_cons, hclaim]
        rfl
      · refine count_first hregular' ?_ ?_ horder
        · rw [hjob']
          exact active_started hactive
        · rw [hjob']
          exact hzero
  | counted started hmem hregular hstarted hclaimed hcount =>
    refine .counted started (hjob.mpr hmem) (hregular.change hchange)
      (startedAt_change hstarted hchange) ?_ fun t horder => ?_
    · rw [everClaimed_cons, hclaimed, Bool.or_true]
    · exact count_step (hregular.change hchange) hcount
        (fun hle => activeSince_change hregular hstarted hle hchange) horder

theorem Tracked.step (htracked : Tracked j h s) (hstep : JobStep s m s') :
    Tracked j ((s, m) :: h) s' := by
  cases systemChange hstep with
  | create hfresh => exact htracked.create hfresh
  | queue hstep => exact htracked.queue hstep

end

/-- From the creation of a job on, `_active_seconds` is null until a row is claimed. After
that it is the length of the set of times since `started_at` at which the job was queued
or running, it is not negative before it is clamped, and the list shows the same. -/
theorem active_time_exact (j : JobId) (t : Time) {h : List (System × JobMove)} {s : System}
    (hrun : Run (Unborn j) JobStep h s) (hmem : .job j ∈ s.store.rows)
    (horder : InOrder t (timed JobMove.now h s)) :
    (activeSeconds t (s.store.job j) = none ↔ everClaimed j h = false) ∧
      (∀ started ∈ (s.store.job j).startedAt, ∀ active ∈ activeSeconds t (s.store.job j),
        MeasureTheory.volume {u : ℝ | started ≤ u ∧ u ≤ t ∧
            (valueAt (timed (fun m => (JobMove.now m : ℝ)) h s) u).any (jobActive j) = true} =
          ENNReal.ofReal active) ∧
      (∀ value ∈ activeValue t (s.store.job j), 0 ≤ value) ∧
      listedSeconds t (s.store.job j) = activeSeconds t (s.store.job j) := by
  have htracked : Tracked j h s := hrun.always_history (I := Tracked j)
    (fun _ hborn => .absent hborn rfl) fun _ _ _ _ htracked hstep => htracked.step hstep
  cases htracked with
  | absent hborn => exact absurd hmem hborn.1
  | waiting _ _ hstarted _ _ hnever =>
    refine ⟨?_, ?_, ?_, listedSeconds_eq t _⟩ <;>
      simp [activeSeconds, activeValue, hstarted, hnever]
  | counted started _ _ hstarted hclaimed hcount =>
    obtain ⟨hle, hvalue⟩ := hcount t horder
    have hpos : 0 ≤ activeSince started t (s.store.job j) := hvalue ▸ dwell_nonneg horder hle
    have hseconds : activeSeconds t (s.store.job j) =
        some (activeSince started t (s.store.job j)) := by
      rw [activeSeconds, activeValue_of_started hstarted, Option.map_some, max_eq_right hpos]
    refine ⟨by simp [hseconds, hclaimed], ?_, ?_, listedSeconds_eq t _⟩
    · intro started' hat active hactive
      obtain rfl := Option.some.inj (hstarted.symm.trans hat)
      obtain rfl := Option.some.inj (hseconds.symm.trans hactive)
      rw [timed_cast, volume_dwell (inOrder_cast horder) (Rat.cast_le.mpr hle), dwell_cast,
        ← hvalue]
    · intro value hv
      rw [activeValue_of_started hstarted] at hv
      exact Option.some.inj hv ▸ hpos

/-- Two seconds until the pause, two from the end of it to the failure, and one from the
retry to the cancellation. -/
theorem one_job_active_time : ∃ h s, Run (Unborn 0) JobStep h s ∧
    activeSeconds 30 (s.store.job 0) = some 5 ∧ (s.store.job 0).startedAt = some 1 ∧
    MeasureTheory.volume {u : ℝ | ((1 : ℚ) : ℝ) ≤ u ∧ u ≤ ((30 : ℚ) : ℝ) ∧
        (valueAt (timed (fun m => (JobMove.now m : ℝ)) h s) u).any (jobActive 0) = true} =
      ENNReal.ofReal ((5 : ℚ) : ℝ) := by
  obtain ⟨h, s, hrun, hmem, horder, hseconds, hstarted⟩ := Run.exists_of_exec (Unborn 0) jobStep
    OneJob.start ⟨Finset.notMem_empty _, fun _ => Finset.notMem_empty _⟩ OneJob.life
    (fun p => .job 0 ∈ p.2.store.rows ∧ InOrder 30 (timed JobMove.now p.1 p.2) ∧
      activeSeconds 30 (p.2.store.job 0) = some 5 ∧ (p.2.store.job 0).startedAt = some 1)
    (by decide +kernel)
  exact ⟨h, s, hrun, hseconds, hstarted,
    (active_time_exact 0 30 hrun hmem horder).2.1 1 hstarted 5 hseconds⟩

end Jobs

end EmailExtractor
