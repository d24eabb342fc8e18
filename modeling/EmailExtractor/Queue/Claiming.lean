import EmailExtractor.Queue.Effects
import Mathlib.Data.Finset.Max
import Mathlib.Data.Fintype.Basic

/-!
# Claims, statement by statement

`claim` picks jobs in one statement, takes a row in a second and touches the job in a
third; only the first looks at the status of a job. Any number of calls run side by
side, with pauses, cancels and resumes committed between their statements. A statement
sees what has been committed, passes over rows that another call holds (`SKIP LOCKED`)
or waits for them, and what it writes is held until its call commits.

A pause or a cancel that commits after a call has picked the job is not noticed by the
call. Without such a change no row of a stopped job is claimed.
-/

namespace EmailExtractor

namespace Queue

open ReadCommitted List

/-! ## The calls -/

structure Call where
  worker : Str
  now : Time
  deriving DecidableEq

/-- The points of a call, with what it has written. -/
inductive ClaimPc
  | ready
  | picked (call : Call) (js : List JobId)
  | claimed (call : Call) (j : JobId) (d : Str) (row : JobDomain)
  | started (j : JobId) (d : Str) (row : JobDomain) (job : Option Job)
  | over
  deriving DecidableEq

/-- The committed store, the rows that are held, and the calls. -/
structure Claims (T : Type) where
  store : Store
  held : Key → Option T
  call : T → ClaimPc

/-- The transactions that stop jobs and let them go on. -/
inductive StatusChange
  | pause (reason : Str)
  | cancel (j : JobId)
  | resume (j : JobId)
  | resumePausedFor (reason : Str)

def StatusChange.stmt (now : Time) : StatusChange → Stmt Val
  | .pause reason => pauseActiveJobsStmt now reason
  | .cancel j => transitionStmt now j [.queued, .running, .paused] .cancelled none
  | .resume j => transitionStmt now j [.paused] .running none
  | .resumePausedFor reason => resumePausedForStmt now reason

/-- A statement, the commit or the rollback of a call, or a change of status. -/
inductive ClaimMove (T : Type)
  | pick (t : T) (call : Call) (js : List JobId)
  | take (t : T) (hex d : Str)
  | skip (t : T)
  | start (t : T)
  | commit (t : T)
  | rollback (t : T)
  | change (now : Time) (c : StatusChange)

def Store.write (s : Store) (k : Key) (v : Val k) : Store :=
  { s with val := Function.update s.val k v }

def Store.writeClaim (s : Store) (j : JobId) (d : Str) (row : JobDomain) (job : Option Job) :
    Store :=
  let s := s.write (.row j d) row
  match job with
  | some job => s.write (.job j) job
  | none => s

namespace Claims

variable {T : Type} [DecidableEq T]

def Free (s : Claims T) (t : T) (k : Key) : Prop := ∀ t' ∈ s.held k, t' = t

instance (s : Claims T) (t : T) (k : Key) : Decidable (s.Free t k) :=
  inferInstanceAs (Decidable (∀ t' ∈ s.held k, t' = t))

def freeRows (s : Claims T) (t : T) (now : Time) (j : JobId) : Finset Key :=
  (s.store.claimableRows now j).filter fun k => s.Free t k

/-- The subquery of `_CLAIM_FROM_JOB` may pick the row. -/
def NextFree (s : Claims T) (t : T) (now : Time) (j : JobId) (d : Str) : Prop :=
  .row j d ∈ s.freeRows t now j ∧
    ∀ k ∈ s.freeRows t now j, ∀ d' ∈ k.rowDomain?, (s.store.row j d).seq ≤ (s.store.row j d').seq

instance (s : Claims T) (t : T) (now : Time) (j : JobId) (d : Str) :
    Decidable (s.NextFree t now j d) :=
  inferInstanceAs (Decidable (_ ∧ _))

def goto (s : Claims T) (t : T) (pc : ClaimPc) : Claims T :=
  { s with call := Function.update s.call t pc }

def hold (s : Claims T) (t : T) (k : Key) : Claims T :=
  { s with held := Function.update s.held k (some t) }

def release (s : Claims T) (t : T) : Claims T :=
  { s with held := fun k => (s.held k).filter fun t' => decide (t' ≠ t) }

@[simp] theorem call_goto_self {s : Claims T} {t : T} {pc : ClaimPc} :
    (s.goto t pc).call t = pc := by
  simp [goto]

theorem call_goto_of_ne {s : Claims T} {t t' : T} {pc : ClaimPc} (h : t' ≠ t) :
    (s.goto t pc).call t' = s.call t' := by
  simp [goto, h]

end Claims

section

variable {T : Type} [DecidableEq T]

def claimStep (s : Claims T) : ClaimMove T → Option (Claims T)
  | .pick t call js =>
    if s.call t = .ready ∧ s.store.PickJobs call.now js then some (s.goto t (.picked call js))
    else none
  | .take t hex d =>
    match s.call t with
    | .picked call (j :: _) =>
      if s.NextFree t call.now j d then
        let row := (s.store.row j d).claimed call.now (newToken call.worker hex)
        some ((s.hold t (.row j d)).goto t (.claimed call j d row))
      else none
    | _ => none
  | .skip t =>
    match s.call t with
    | .picked call (j :: js) =>
      if s.freeRows t call.now j = ∅ then some (s.goto t (.picked call js)) else none
    | _ => none
  | .start t =>
    match s.call t with
    | .claimed call j d row =>
      if .job j ∈ s.store.rows ∧ (s.store.job j).unstarted = true then
        if s.Free t (.job j) then
          let job := (s.store.job j).started call.now
          some ((s.hold t (.job j)).goto t (.started j d row (some job)))
        else none
      else some (s.goto t (.started j d row none))
    | _ => none
  | .commit t =>
    match s.call t with
    | .started j d row job =>
      some ({ s.release t with store := s.store.writeClaim j d row job }.goto t .over)
    | _ => none
  | .rollback t => some ((s.release t).goto t .over)
  | .change now c =>
    if ∀ k ∈ s.store.hits (c.stmt now), s.held k = none then
      some { s with store := s.store.exec (c.stmt now) }
    else none

abbrev ClaimStep (s : Claims T) (m : ClaimMove T) (s' : Claims T) : Prop :=
  claimStep s m = some s'

def Idle (s : Claims T) : Prop := (∀ k, s.held k = none) ∧ ∀ t, s.call t = .ready

variable {now : Time}

theorem Store.job_write_row {s : Store} {j j' : JobId} {d : Str} {r : JobDomain} :
    (s.write (.row j d) r).job j' = s.job j' := by
  simp [Store.write, Store.job]

/-! ## Stopped jobs -/

/-- The jobs that a call may still claim from, or has claimed from. -/
def ClaimPc.jobs : ClaimPc → List JobId
  | .ready => []
  | .picked _ js => js
  | .claimed _ j _ _ => [j]
  | .started j _ _ _ => [j]
  | .over => []

/-- The change stops the jobs it hits. -/
def StatusChange.stops : StatusChange → Bool
  | .pause _ => true
  | .cancel _ => true
  | .resume _ => false
  | .resumePausedFor _ => false

/-- No job is stopped while a call has picked it. -/
def Undisturbed (s : Claims T) : ClaimMove T → Prop
  | .change now c => c.stops = true → ∀ k ∈ s.store.hits (c.stmt now), ∀ j ∈ k.job?,
      ∀ t, j ∉ (s.call t).jobs
  | _ => True

instance [Fintype T] (s : Claims T) (m : ClaimMove T) : Decidable (Undisturbed s m) :=
  match m with
  | .change now c => inferInstanceAs (Decidable (c.stops = true → ∀ k ∈ s.store.hits (c.stmt now),
      ∀ j ∈ k.job?, ∀ t, j ∉ (s.call t).jobs))
  | .pick .. | .take .. | .skip _ | .start _ | .commit _ | .rollback _ => isTrue trivial

def takesFrom (s : Claims T) : ClaimMove T → Option JobId
  | .take t _ _ =>
    match s.call t with
    | .picked _ (j :: _) => some j
    | _ => none
  | _ => none

def startsJob (s : Claims T) : ClaimMove T → Option JobId
  | .start t =>
    match s.call t with
    | .claimed _ j _ _ => if (s.store.job j).startedAt = none then some j else none
    | _ => none
  | _ => none

/-- A row is taken, and becomes running, only while its job is queued or running; and
`started_at` is not set on a cancelled job, neither by the statement nor by the commit. -/
structure HeedsStops (s : Claims T) (m : ClaimMove T) (s' : Claims T) : Prop where
  taken : ∀ j ∈ takesFrom s m, (s.store.job j).active = true
  running : ∀ j d, (s.store.row j d).state ≠ .running → (s'.store.row j d).state = .running →
    (s.store.job j).active = true
  starting : ∀ j ∈ startsJob s m, (s.store.job j).status ≠ .cancelled
  started : ∀ j, (s.store.job j).startedAt = none → (s'.store.job j).startedAt ≠ none →
    (s.store.job j).status ≠ .cancelled

/-- The jobs of a call are not stopped, and the call does not stop them. -/
structure PicksActive (s : Claims T) : Prop where
  picks : ∀ t, ∀ j ∈ (s.call t).jobs, (s.store.job j).active = true
  writes : ∀ t j d row job, s.call t = .started j d row (some job) → job.active = true

section

variable {s s' : Claims T} {m : ClaimMove T} {t : T} {j : JobId}

theorem Job.active_started {job : Job} (h : job.active = true) :
    (job.started now).active = true := by
  simp only [Job.active, Bool.or_eq_true, decide_eq_true_eq] at h ⊢
  rcases h with h | h <;> simp [Job.started, h]

theorem Job.not_cancelled_of_active {job : Job} (h : job.active = true) :
    job.status ≠ .cancelled := by
  intro hcancelled
  simp [Job.active, hcancelled] at h

theorem active_of_pickable {s : Store} (h : s.pickable now j = true) : (s.job j).active = true := by
  simp only [Store.pickable, Bool.and_eq_true] at h
  exact h.1.2

theorem job_exec_of_not_hit {s : Store} {f : Db Val → JobId → Job → Bool}
    {g : Db Val → JobId → Job → Job} (h : .job j ∉ s.hits (onJob f g)) :
    (s.exec (onJob f g)).job j = s.job j := by
  rw [Store.job_mem_hits] at h
  rw [Store.job_exec_onJob, if_neg h]

theorem change_frame (s : Store) (now : Time) (c : StatusChange) (j : JobId) :
    (∀ d, (s.exec (c.stmt now)).row j d = s.row j d) ∧
      ((s.exec (c.stmt now)).job j).startedAt = (s.job j).startedAt := by
  cases c <;>
    simp only [StatusChange.stmt, pauseActiveJobsStmt, transitionStmt, resumePausedForStmt,
      Store.row_exec_onJob, implies_true, true_and, Store.job_exec_onJob] <;>
    split <;> rfl

theorem change_active {s : Store} {c : StatusChange} (hactive : (s.job j).active = true)
    (hstops : c.stops = true → .job j ∉ s.hits (c.stmt now)) :
    ((s.exec (c.stmt now)).job j).active = true := by
  cases c with
  | pause reason =>
    rw [StatusChange.stmt, pauseActiveJobsStmt, job_exec_of_not_hit (hstops rfl)]
    exact hactive
  | cancel j' =>
    rw [StatusChange.stmt, transitionStmt, job_exec_of_not_hit (hstops rfl)]
    exact hactive
  | resume j' =>
    rw [StatusChange.stmt, transitionStmt, Store.job_exec_onJob]
    split
    · rfl
    · exact hactive
  | resumePausedFor reason =>
    rw [StatusChange.stmt, resumePausedForStmt, Store.job_exec_onJob]
    split
    · rfl
    · exact hactive

theorem job_writeClaim {s : Store} {j' : JobId} {d : Str} {row : JobDomain} {job : Option Job} :
    (s.writeClaim j d row job).job j' = if j' = j then job.getD (s.job j) else s.job j' := by
  unfold Store.writeClaim
  cases job with
  | none =>
    rw [Store.job_write_row, Option.getD_none]
    split
    · rename_i h
      rw [h]
    · rfl
  | some job =>
    by_cases h : j' = j
    · subst h
      simp [Store.write, Store.job]
    · simp [Store.write, Store.job, h]

theorem row_writeClaim {s : Store} {j' : JobId} {d d' : Str} {row : JobDomain}
    {job : Option Job} (h : j' ≠ j) : (s.writeClaim j d row job).row j' d' = s.row j' d' := by
  unfold Store.writeClaim
  cases job <;> simp [Store.write, Store.row, h]

inductive ClaimEffect (s : Claims T) : ClaimMove T → Claims T → Prop
  | pick {t : T} {call : Call} {js : List JobId} (hcall : s.call t = .ready)
      (hjs : s.store.PickJobs call.now js) :
      ClaimEffect s (.pick t call js) (s.goto t (.picked call js))
  | take {t : T} {hex d : Str} {call : Call} {j : JobId} {js : List JobId}
      (hcall : s.call t = .picked call (j :: js)) (hnext : s.NextFree t call.now j d) :
      ClaimEffect s (.take t hex d) ((s.hold t (.row j d)).goto t (.claimed call j d
        ((s.store.row j d).claimed call.now (newToken call.worker hex))))
  | skip {t : T} {call : Call} {j : JobId} {js : List JobId}
      (hcall : s.call t = .picked call (j :: js)) (hempty : s.freeRows t call.now j = ∅) :
      ClaimEffect s (.skip t) (s.goto t (.picked call js))
  | start {t : T} {call : Call} {j : JobId} {d : Str} {row : JobDomain}
      (hcall : s.call t = .claimed call j d row)
      (hhit : .job j ∈ s.store.rows ∧ (s.store.job j).unstarted = true) :
      ClaimEffect s (.start t) ((s.hold t (.job j)).goto t
        (.started j d row (some ((s.store.job j).started call.now))))
  | pass {t : T} {call : Call} {j : JobId} {d : Str} {row : JobDomain}
      (hcall : s.call t = .claimed call j d row)
      (hmiss : ¬ (.job j ∈ s.store.rows ∧ (s.store.job j).unstarted = true)) :
      ClaimEffect s (.start t) (s.goto t (.started j d row none))
  | commit {t : T} {j : JobId} {d : Str} {row : JobDomain} {job : Option Job}
      (hcall : s.call t = .started j d row job) :
      ClaimEffect s (.commit t)
        ({ s.release t with store := s.store.writeClaim j d row job }.goto t .over)
  | rollback {t : T} : ClaimEffect s (.rollback t) ((s.release t).goto t .over)
  | change {now : Time} {c : StatusChange} :
      ClaimEffect s (.change now c) { s with store := s.store.exec (c.stmt now) }

theorem claimEffect (hstep : ClaimStep s m s') : ClaimEffect s m s' := by
  unfold ClaimStep at hstep
  cases m with
  | pick t call js =>
    simp only [claimStep, Option.ite_none_right_eq_some, Option.some.injEq] at hstep
    obtain ⟨⟨hcall, hjs⟩, rfl⟩ := hstep
    exact .pick hcall hjs
  | take t hex d =>
    simp only [claimStep] at hstep
    split at hstep
    · rename_i hcall
      simp only [Option.ite_none_right_eq_some, Option.some.injEq] at hstep
      exact hstep.2 ▸ .take hcall hstep.1
    · simp at hstep
  | skip t =>
    simp only [claimStep] at hstep
    split at hstep
    · rename_i hcall
      simp only [Option.ite_none_right_eq_some, Option.some.injEq] at hstep
      exact hstep.2 ▸ .skip hcall hstep.1
    · simp at hstep
  | start t =>
    simp only [claimStep] at hstep
    split at hstep
    · rename_i hcall
      split at hstep
      · rename_i hhit
        simp only [Option.ite_none_right_eq_some, Option.some.injEq] at hstep
        exact hstep.2 ▸ .start hcall hhit
      · rename_i hmiss
        simp only [Option.some.injEq] at hstep
        exact hstep ▸ .pass hcall hmiss
    · simp at hstep
  | commit t =>
    simp only [claimStep] at hstep
    split at hstep
    · rename_i hcall
      simp only [Option.some.injEq] at hstep
      exact hstep ▸ .commit hcall
    · simp at hstep
  | rollback t =>
    simp only [claimStep, Option.some.injEq] at hstep
    exact hstep ▸ .rollback
  | change now c =>
    simp only [claimStep, Option.ite_none_right_eq_some, Option.some.injEq] at hstep
    exact hstep.2 ▸ .change

section

variable (h : PicksActive s)

include h

theorem PicksActive.goto {pc : ClaimPc} (hpicks : ∀ j ∈ pc.jobs, (s.store.job j).active = true)
    (hwrites : ∀ j d row job, pc = .started j d row (some job) → job.active = true) :
    PicksActive (s.goto t pc) := by
  constructor
  case picks =>
    intro t' j hj
    by_cases ht : t' = t
    · subst ht
      rw [Claims.call_goto_self] at hj
      exact hpicks j hj
    · rw [Claims.call_goto_of_ne ht] at hj
      exact h.picks t' j hj
  case writes =>
    intro t' j d row job hcall
    by_cases ht : t' = t
    · subst ht
      rw [Claims.call_goto_self] at hcall
      exact hwrites j d row job hcall
    · rw [Claims.call_goto_of_ne ht] at hcall
      exact h.writes t' j d row job hcall

omit [DecidableEq T] in
theorem PicksActive.held (held : Key → Option T) : PicksActive { s with held := held } :=
  ⟨h.picks, h.writes⟩

omit [DecidableEq T] in
theorem PicksActive.commit {d : Str} {row : JobDomain} {job : Option Job}
    (hcall : s.call t = .started j d row job) :
    PicksActive { s with store := s.store.writeClaim j d row job } := by
  refine ⟨?_, h.writes⟩
  intro t' j' hj'
  have hactive := h.picks t' j' hj'
  simp only [job_writeClaim]
  split
  · rename_i hj
    subst hj
    cases job with
    | none => exact hactive
    | some job => exact h.writes t j' d row job hcall
  · exact hactive

omit [DecidableEq T] in
theorem PicksActive.change {c : StatusChange} (hok : Undisturbed s (.change now c)) :
    PicksActive { s with store := s.store.exec (c.stmt now) } := by
  refine ⟨fun t j hj => ?_, h.writes⟩
  exact change_active (h.picks t j hj) fun hstops hhit => hok hstops _ hhit j rfl t hj

theorem PicksActive.step (hok : Undisturbed s m) (hstep : ClaimStep s m s') : PicksActive s' := by
  cases claimEffect hstep with
  | pick _ hjs => exact h.goto (fun j hj => active_of_pickable (hjs.2.2.1 j hj)) (by simp)
  | @take t _ d call j js hcall =>
    refine (h.held _).goto (fun j' hj' => ?_) (by simp)
    rw [ClaimPc.jobs, mem_singleton] at hj'
    subst hj'
    exact h.picks t j' (by simp [hcall, ClaimPc.jobs])
  | @skip t call j js hcall =>
    refine h.goto (fun j' hj' => h.picks t j' ?_) (by simp)
    rw [hcall]
    exact mem_cons_of_mem _ hj'
  | @start t call j d row hcall =>
    have hactive := h.picks t j (by simp [hcall, ClaimPc.jobs])
    refine (h.held _).goto (fun j' hj' => ?_) ?_
    · rw [ClaimPc.jobs, mem_singleton] at hj'
      exact hj' ▸ hactive
    · rintro _ _ _ _ ⟨⟩
      exact Job.active_started hactive
  | @pass t call j d row hcall =>
    refine h.goto (fun j' hj' => h.picks t j' ?_) (by simp)
    rw [hcall]
    exact hj'
  | commit hcall => exact ((h.commit hcall).held _).goto (by simp [ClaimPc.jobs]) (by simp)
  | rollback => exact (h.held _).goto (by simp [ClaimPc.jobs]) (by simp)
  | change => exact h.change hok

end

omit [DecidableEq T] in
theorem HeedsStops.of_frame (htaken : ∀ j ∈ takesFrom s m, (s.store.job j).active = true)
    (hstarting : ∀ j ∈ startsJob s m, (s.store.job j).status ≠ .cancelled)
    (hrows : ∀ j d, s'.store.row j d = s.store.row j d)
    (hjobs : ∀ j, (s'.store.job j).startedAt = (s.store.job j).startedAt) :
    HeedsStops s m s' := by
  constructor
  case taken => exact htaken
  case running =>
    intro j d hbefore hafter
    rw [hrows] at hafter
    exact absurd hafter hbefore
  case starting => exact hstarting
  case started =>
    intro j hbefore hafter
    rw [hjobs] at hafter
    exact absurd hbefore hafter

theorem PicksActive.heeds (h : PicksActive s) (hstep : ClaimStep s m s') : HeedsStops s m s' := by
  cases claimEffect hstep with
  | @take t _ d call j js hcall =>
    refine .of_frame ?_ (by simp [startsJob]) (fun _ _ => rfl) (fun _ => rfl)
    simp only [takesFrom, hcall, Option.mem_def, Option.some.injEq]
    rintro j rfl
    exact h.picks t j (by simp [hcall, ClaimPc.jobs])
  | @start t call j d row hcall | @pass t call j d row hcall =>
    refine .of_frame (by simp [takesFrom]) ?_ (fun _ _ => rfl) (fun _ => rfl)
    simp only [startsJob, hcall, Option.mem_def, Option.ite_none_right_eq_some,
      Option.some.injEq]
    rintro j ⟨_, rfl⟩
    exact Job.not_cancelled_of_active (h.picks t j (by simp [hcall, ClaimPc.jobs]))
  | @commit t j d row job hcall =>
    have hactive := h.picks t j (by simp [hcall, ClaimPc.jobs])
    constructor
    case taken => simp [takesFrom]
    case starting => simp [startsJob]
    case running =>
      intro j' d' hbefore hafter
      by_cases hj : j' = j
      · exact hj ▸ hactive
      · exact absurd ((congrArg JobDomain.state (row_writeClaim hj)).symm.trans hafter) hbefore
    case started =>
      intro j' hbefore hafter
      by_cases hj : j' = j
      · exact hj ▸ Job.not_cancelled_of_active hactive
      · have hsame : (s.store.writeClaim j d row job).job j' = s.store.job j' := by
          rw [job_writeClaim, if_neg hj]
        exact absurd ((congrArg Job.startedAt hsame).trans hbefore) hafter
  | @change now c =>
    exact .of_frame (by simp [takesFrom]) (by simp [startsJob])
      (fun j d => (change_frame s.store now c j).1 d)
      (fun j => (change_frame s.store now c j).2)
  | pick _ _ | skip _ _ | rollback =>
    exact .of_frame (by simp [takesFrom]) (by simp [startsJob]) (fun _ _ => rfl) (fun _ => rfl)

omit [DecidableEq T] in
theorem Idle.picksActive (h : Idle s) : PicksActive s := by
  constructor
  case picks => simp [h.2, ClaimPc.jobs]
  case writes => simp [h.2]

end

end

/-- In every interleaving in which no job is paused or cancelled between the statement of
a call that picks it and the end of that call, rows of stopped jobs are neither taken nor
become running, and `started_at` is not set on a cancelled job. -/
theorem stopped_jobs_not_claimed {T : Type} [DecidableEq T]
    (h : List (Claims T × ClaimMove T)) (s : Claims T)
    (hrun : Transition.Run Idle ClaimStep h s) (hok : Transition.Guarded Undisturbed h) :
    Transition.Along (fun _ s m s' => HeedsStops s m s') h s :=
  hrun.along (I := PicksActive) (fun _ hs => hs.picksActive)
    (fun _ _ _ hs hok hstep => hs.step hok hstep) (fun _ _ _ _ hs _ hstep => hs.heeds hstep) hok

namespace LateCancel

def store : Store := .blank {.job 0, .row 0 "a".toList} fun _ => { createdAt := 0 }

def start : Claims Unit := ⟨store, fun _ => none, fun _ => .ready⟩

theorem start_idle : Idle start := ⟨fun _ => rfl, fun _ => rfl⟩

def pick : ClaimMove Unit := .pick () ⟨"w".toList, 1⟩ [0]

def rest : List (ClaimMove Unit) := [.take () "x".toList "a".toList, .start (), .commit ()]

end LateCancel

/-- A job that is paused and resumed before a call and cancelled after it. -/
theorem cancel_after_claim : ∃ (h : List (Claims Unit × ClaimMove Unit)) (s : Claims Unit),
    Transition.Run Idle ClaimStep h s ∧ Transition.Guarded Undisturbed h ∧
      (s.store.job 0).status = .cancelled ∧ (s.store.row 0 "a".toList).state = .running ∧
      Transition.Along (fun _ s m s' => HeedsStops s m s') h s := by
  obtain ⟨h, s, hrun, hok, hcancelled, hrunning⟩ :=
    Transition.Run.exists_of_exec Idle claimStep LateCancel.start LateCancel.start_idle
      ([.change 0 (.pause "jina_account".toList), .change 0 (.resume 0), LateCancel.pick] ++
        LateCancel.rest ++ [.change 2 (.cancel 0)])
      (fun p => (∀ q ∈ p.1, Undisturbed q.1 q.2) ∧ (p.2.store.job 0).status = .cancelled ∧
        (p.2.store.row 0 "a".toList).state = .running)
      (by decide +kernel)
  exact ⟨h, s, hrun, hok, hcancelled, hrunning, stopped_jobs_not_claimed h s hrun hok⟩

/-- A cancel that commits after the call has picked the job: the commit of the call makes
a row of a cancelled job running, and sets `started_at` on the job. -/
theorem cancelled_job_claimed : ∃ (h : List (Claims Unit × ClaimMove Unit)) (s : Claims Unit)
    (m : ClaimMove Unit) (s' : Claims Unit),
    Transition.Run Idle ClaimStep ((s, m) :: h) s' ∧ ¬ HeedsStops s m s' ∧
      (s.store.job 0).status = .cancelled ∧ (s.store.job 0).startedAt = none ∧
      (s'.store.job 0).startedAt = some 1 ∧
      (s.store.row 0 "a".toList).state = .queued ∧
      (s'.store.row 0 "a".toList).state = .running := by
  obtain ⟨h, s', hrun, hlast, hstarted, hrunning⟩ :=
    Transition.Run.exists_of_exec Idle claimStep LateCancel.start LateCancel.start_idle
      ([LateCancel.pick, .change 2 (.cancel 0)] ++ LateCancel.rest)
      (fun p => p.1.head?.any (fun q => decide ((q.1.store.job 0).status = .cancelled ∧
          (q.1.store.job 0).startedAt = none ∧ (q.1.store.row 0 "a".toList).state = .queued)) =
          true ∧
        (p.2.store.job 0).startedAt = some 1 ∧ (p.2.store.row 0 "a".toList).state = .running)
      (by decide +kernel)
  cases h with
  | nil => simp at hlast
  | cons q h =>
    obtain ⟨s, m⟩ := q
    simp only [List.head?_cons, Option.any_some, decide_eq_true_eq] at hlast
    obtain ⟨hcancelled, hunstarted, hqueued⟩ := hlast
    refine ⟨h, s, m, s', hrun, ?_, hcancelled, hunstarted, hstarted, hqueued, hrunning⟩
    intro hheeds
    exact hheeds.started 0 hunstarted (by simp [hstarted]) hcancelled

end Queue

end EmailExtractor
