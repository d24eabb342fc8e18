import EmailExtractor.Jobs.Create
import EmailExtractor.Queue.Attempts

/-!
# The limit of unfinished jobs

A `POST /jobs` counts the unfinished jobs of the person under their lock, so two of them
cannot both pass the limit. Of the operations of the queue one only makes a finished job
unfinished again: `requeue_failed`, which counts nothing.
-/

namespace EmailExtractor

namespace Jobs

open Queue
open Function (update update_self update_of_ne)

def reopens (s : Store) (a : Action) : Option JobId :=
  match a.op with
  | .requeueFailed j =>
    if (s.job j).status = .done ∧ s.hits (requeueFailedRows a.now j) ≠ ∅ then some j else none
  | _ => none

def reserved : Option NewJob → ℕ
  | some a => if uniqueDomains a.items = [] then 0 else 1
  | none => 0

def Api.load (x : Api) (u : ℕ) : ℕ :=
  (activeJobs x.sys.store (some u)).card + reserved (x.posting (some u))

def ApiMove.NonAdmin (u : ℕ) : ApiMove → Prop
  | .post who _ _ => who.userId = some u → who.isAdmin = false
  | _ => True

instance (u : ℕ) (m : ApiMove) : Decidable (m.NonAdmin u) :=
  match m with
  | .post _ _ _ => inferInstanceAs (Decidable (_ → _))
  | .queue _ | .create .. | .rollback _ | .retry .. => isTrue trivial

/-- No job of the person is reopened while they are at the limit. -/
def ReopensBelow (limit : ℤ) (u : ℕ) (x : Api) (m : ApiMove) : Prop :=
  ∀ a ∈ m.action x.sys.store, ∀ j ∈ reopens x.sys.store a,
    (x.sys.store.job j).ownerId = some u → (x.load u : ℤ) < limit

instance (limit : ℤ) (u : ℕ) (x : Api) (m : ApiMove) : Decidable (ReopensBelow limit u x m) :=
  inferInstanceAs (Decidable (∀ a ∈ m.action x.sys.store, ∀ j ∈ reopens x.sys.store a, _ → _))

/-- The person posts jobs as a non-admin only, and none of their jobs is reopened while
they are at the limit. -/
def WithinLimit (limit : ℤ) (u : ℕ) (x : Api) (m : ApiMove) : Prop :=
  m.NonAdmin u ∧ ReopensBelow limit u x m

instance (limit : ℤ) (u : ℕ) (x : Api) (m : ApiMove) : Decidable (WithinLimit limit u x m) :=
  inferInstanceAs (Decidable (_ ∧ _))

structure LimitInit (limit : ℤ) (u : ℕ) (x : Api) : Prop where
  load : ((activeJobs x.sys.store (some u)).card : ℤ) ≤ limit
  posting : ∀ owner, x.posting owner = none

structure LimitInv (limit : ℤ) (u : ℕ) (x : Api) : Prop where
  load : (x.load u : ℤ) ≤ limit
  owner : ∀ owner, ∀ a ∈ x.posting owner, a.ownerId = owner

section

variable {limit : ℤ} {u : ℕ} {x x' : Api} {m : ApiMove} {s : Store} {a : Action}

theorem job_mem_jobsWhere {p : JobId → Job → Bool} {j : JobId} :
    .job j ∈ jobsWhere s p ↔ .job j ∈ s.rows ∧ p j (s.job j) = true :=
  Finset.mem_filter

theorem eq_job_of_mem_jobsWhere {p : JobId → Job → Bool} {k : Key} (hk : k ∈ jobsWhere s p) :
    ∃ j, k = .job j := by
  have hcond := (Finset.mem_filter.mp hk).2
  cases k with
  | job j => exact ⟨j, rfl⟩
  | _ => simp [isJobWhere] at hcond

theorem job_mem_activeJobs {owner : Option ℕ} {j : JobId} : .job j ∈ activeJobs s owner ↔
    .job j ∈ s.rows ∧ (s.job j).ownerId = owner ∧ (s.job j).status ∈ activeStatuses := by
  rw [activeJobs, job_mem_jobsWhere]
  simp only [Bool.and_eq_true, decide_eq_true_eq]

/-! ## Transactions of the queue -/

/-- A job is unfinished after a transaction if it was before, or was reopened; its owner
stays. -/
theorem unfinished_change {j : JobId} {job : Job} (hchange : JobChange s a j job) :
    job.ownerId = (s.job j).ownerId ∧
      (job.status ∈ activeStatuses →
        (s.job j).status ∈ activeStatuses ∨ reopens s a = some j) := by
  cases hchange with
  | same _ => exact ⟨rfl, .inl⟩
  | start _ _ _ hactive | pause _ hactive =>
    refine ⟨rfl, fun _ => .inl ?_⟩
    simp only [Job.active, Bool.or_eq_true, decide_eq_true_eq] at hactive
    rcases hactive with h | h <;> simp [h, activeStatuses]
  | complete _ _ _ => exact ⟨rfl, fun h => by simp [Job.completed, activeStatuses] at h⟩
  | reopen hop hdone hrows => exact ⟨rfl, fun _ => .inr (by simp [reopens, hop, hdone, hrows])⟩
  | resume _ hpaused => exact ⟨rfl, fun _ => .inl (by simp [hpaused, activeStatuses])⟩
  | resumeFor _ hpaused =>
    simp only [Job.pausedFor, Bool.and_eq_true, decide_eq_true_eq] at hpaused
    exact ⟨rfl, fun _ => .inl (by simp [hpaused.1, activeStatuses])⟩
  | cancel _ _ => exact ⟨rfl, fun h => by simp [Job.transitioned, activeStatuses] at h⟩

theorem mem_activeJobs_apply {sys : System} (hpossible : a.op.Possible a.now sys.store)
    {owner : Option ℕ} {k : Key} (hk : k ∈ activeJobs (a.op.apply a.now sys.store) owner) :
    k ∈ activeJobs sys.store owner ∨
      ∃ j ∈ reopens sys.store a, (sys.store.job j).ownerId = owner ∧ k = .job j := by
  obtain ⟨j, rfl⟩ := eq_job_of_mem_jobsWhere hk
  obtain ⟨hmem, howner, hstatus⟩ := job_mem_activeJobs.mp hk
  have hmem' : Key.job j ∈ sys.store.rows := by
    rcases (mem_rows_apply hpossible).mp hmem with h | ⟨_, _, h⟩
    · exact h
    · simp at h
  obtain ⟨hsame, hbefore⟩ := unfinished_change (jobChange sys.store a hpossible j)
  rw [hsame] at howner
  rcases hbefore hstatus with hactive | hreopens
  · exact .inl (job_mem_activeJobs.mpr ⟨hmem', howner, hactive⟩)
  · exact .inr ⟨j, hreopens, howner, rfl⟩

theorem card_activeJobs_apply {sys : System} (hpossible : a.op.Possible a.now sys.store)
    (owner : Option ℕ) : (activeJobs (a.op.apply a.now sys.store) owner).card ≤
      (activeJobs sys.store owner).card +
        if ∃ j ∈ reopens sys.store a, (sys.store.job j).ownerId = owner then 1 else 0 := by
  split
  · rename_i hreopens
    obtain ⟨j, hj, _⟩ := hreopens
    have hsub : activeJobs (a.op.apply a.now sys.store) owner ⊆
        insert (.job j) (activeJobs sys.store owner) := by
      intro k hk
      rcases mem_activeJobs_apply hpossible hk with hold | ⟨j', hj', _, rfl⟩
      · exact Finset.mem_insert_of_mem hold
      · rw [Option.mem_unique hj' hj]
        exact Finset.mem_insert_self _ _
    exact (Finset.card_le_card hsub).trans (Finset.card_insert_le _ _)
  · rename_i hnone
    apply Finset.card_le_card
    intro k hk
    rcases mem_activeJobs_apply hpossible hk with hold | ⟨j, hj, howner, _⟩
    · exact hold
    · exact absurd ⟨j, hj, howner⟩ hnone

theorem LimitInv.queue (h : LimitInv limit u x)
    (hok : ∀ j ∈ reopens x.sys.store a, (x.sys.store.job j).ownerId = some u →
      (x.load u : ℤ) < limit) {sys : System} (hstep : OpStep x.sys a sys) :
    LimitInv limit u { x with sys := sys } := by
  obtain ⟨⟨_, _, hpossible⟩, rfl⟩ := opStep_cases hstep
  refine ⟨?_, h.owner⟩
  have hcard := card_activeJobs_apply hpossible (some u)
  have hload := h.load
  simp only [Api.load] at hload hok ⊢
  split at hcard
  · rename_i hreopens
    obtain ⟨j, hj, howner⟩ := hreopens
    have hroom := hok j hj howner
    omega
  · omega

/-! ## Requests -/

theorem room_of_admit {who : Principal} {r : Request} {webhook : Except Str Unit}
    (hadmin : who.isAdmin = false) (hpassed : x.admit limit who r webhook = .ok none) :
    ((activeJobs x.sys.store who.userId).card : ℤ) < limit := by
  have hcheck : x.checkLimit limit who = .ok () := by
    unfold Api.admit at hpassed
    cases hr : r.check with
    | error e => simp [hr, bind, Except.bind] at hpassed
    | ok _ =>
      rcases hreplay : x.replayOf who r with e | _ | answer
      · simp [hr, hreplay, bind, Except.bind] at hpassed
      · cases webhook with
        | error why => simp [hr, hreplay, bind, Except.bind, Except.mapError] at hpassed
        | ok _ =>
          cases hlimit : x.checkLimit limit who with
          | error e =>
            simp [hr, hreplay, hlimit, bind, Except.bind, Except.mapError] at hpassed
          | ok _ => rfl
      · simp [hr, hreplay, bind, Except.bind, pure, Except.pure] at hpassed
  simpa [Api.checkLimit, hadmin] using hcheck

theorem LimitInv.post (h : LimitInv limit u x) {who : Principal} {r : Request}
    {webhook : Except Str Unit} (hok : who.userId = some u → who.isAdmin = false)
    (hpassed : x.admit limit who r webhook = .ok none) :
    LimitInv limit u
      { x with posting := update x.posting who.userId (some (r.newJob who)) } := by
  constructor
  case load =>
    by_cases hu : who.userId = some u
    · have hroom := room_of_admit (hok hu) hpassed
      rw [hu] at hroom
      simp only [Api.load, hu, update_self, reserved]
      split <;> omega
    · have hload := h.load
      simp only [Api.load, update_of_ne (Ne.symm hu)] at hload ⊢
      exact hload
  case owner =>
    intro owner a ha
    by_cases hu : owner = who.userId
    · subst hu
      simp only [update_self, Option.mem_def, Option.some.injEq] at ha
      rw [← ha]
      rfl
    · simp only [Option.mem_def, update_of_ne hu] at ha
      exact h.owner owner a ha

theorem LimitInv.rollback (h : LimitInv limit u x) (owner : Option ℕ) :
    LimitInv limit u { x with posting := update x.posting owner none } := by
  constructor
  case load =>
    have hload := h.load
    simp only [Api.load] at hload ⊢
    by_cases hu : some u = owner
    · subst hu
      simp only [update_self, reserved]
      omega
    · rwa [update_of_ne hu]
  case owner =>
    intro owner' a ha
    by_cases ho : owner' = owner
    · simp [ho] at ha
    · simp only [Option.mem_def, update_of_ne ho] at ha
      exact h.owner owner' a ha

theorem activeJobs_createJob (s : Store) (now clock : Time) (j : JobId) (a : NewJob)
    (owner : Option ℕ) : activeJobs (createJob s now clock j a) owner ⊆
      if a.ownerId = owner ∧ uniqueDomains a.items ≠ [] then
        insert (.job j) (activeJobs s owner)
      else activeJobs s owner := by
  intro k hk
  obtain ⟨j', rfl⟩ := eq_job_of_mem_jobsWhere hk
  obtain ⟨hmem, howner, hstatus⟩ := job_mem_activeJobs.mp hk
  rw [job_createJob] at howner hstatus
  rw [job_mem_createJob] at hmem
  by_cases hj : j' = j
  · simp only [if_pos hj, NewJob.job] at howner hstatus
    split at hstatus
    · simp [activeStatuses] at hstatus
    · rename_i hwork
      rw [if_neg hwork] at howner
      simp [if_pos (And.intro howner hwork), hj]
  · rw [if_neg hj] at howner hstatus
    have hold := job_mem_activeJobs.mpr ⟨hmem.resolve_left hj, howner, hstatus⟩
    split
    · exact Finset.mem_insert_of_mem hold
    · exact hold

theorem LimitInv.create (h : LimitInv limit u x) {owner : Option ℕ} {a : NewJob}
    (ha : x.posting owner = some a) (now clock : Time) (j : JobId) :
    LimitInv limit u (x.create now clock j a) := by
  have howner := h.owner owner a ha
  have hrolled := h.rollback a.ownerId
  refine ⟨?_, hrolled.owner⟩
  have hload := h.load
  have hcard := Finset.card_le_card (activeJobs_createJob x.sys.store now clock j a (some u))
  simp only [Api.load, Api.create] at hload ⊢
  by_cases hu : a.ownerId = some u
  · have hposting : x.posting (some u) = some a := by rw [← hu, howner, ha]
    simp only [hposting, hu, update_self, reserved] at hload ⊢
    by_cases hwork : uniqueDomains a.items = []
    · rw [if_neg (by simp [hwork])] at hcard
      rw [if_pos hwork] at hload
      omega
    · rw [if_pos ⟨hu, hwork⟩] at hcard
      rw [if_neg hwork] at hload
      have hinsert := Finset.card_insert_le (Key.job j) (activeJobs x.sys.store (some u))
      omega
  · rw [if_neg (fun hc => hu hc.1)] at hcard
    rw [update_of_ne (Ne.symm hu)]
    omega

theorem LimitInv.step (h : LimitInv limit u x) (hok : WithinLimit limit u x m)
    (hstep : ApiStep limit x m x') : LimitInv limit u x' := by
  obtain ⟨hadmin, hroom⟩ := hok
  cases apiChange hstep with
  | unchanged _ => exact h
  | posting hpassed => exact h.post hadmin hpassed
  | create _ ha => exact h.create ha _ _ _
  | rollback => exact h.rollback _
  | queue ha hsys => exact h.queue (hroom _ ha) hsys

end

/-- A person who posts jobs as a non-admin, and none of whose jobs is reopened while they
are at the limit, never has more unfinished jobs than the limit. -/
theorem unfinished_jobs_within_limit (limit : ℤ) (u : ℕ) (h : List (Api × ApiMove)) (x : Api)
    (hrun : Transition.Run (LimitInit limit u) (ApiStep limit) h x)
    (hok : Transition.Guarded (WithinLimit limit u) h) :
    ((activeJobs x.sys.store (some u)).card : ℤ) ≤ limit := by
  have hinv : LimitInv limit u x := by
    refine hrun.invariant (I := LimitInv limit u) (fun x hx => ⟨?_, ?_⟩)
      (fun x m x' hx hok hs => hx.step hok hs) hok
    · simpa [Api.load, reserved, hx.posting] using hx.load
    · simp [hx.posting]
  have hload := hinv.load
  simp only [Api.load] at hload
  omega

namespace Reopened

def who : Principal := ⟨some 7, false⟩

def request : Request where
  items := [⟨0, "a".toList, some "a".toList, none, none, "website".toList, []⟩]
  webhookUrl := none
  fresh := false
  idempotencyKey := none
  fingerprint := []

def start : Api where
  sys := ⟨.blank ∅ fun _ => { createdAt := 0 }, []⟩
  keys _ := none
  fingerprints _ := none
  items _ := []
  posting _ := none

theorem start_init : LimitInit 3 7 start := by
  constructor
  case load => decide
  case posting => exact fun _ => rfl

def posted (now : Time) (j : JobId) : List ApiMove :=
  [.post who request (.ok ()), .create (some 7) now now j]

/-- The homepage of the only domain of job 0 cannot be fetched, and the job is done. -/
def failed : List ApiMove :=
  [.queue ⟨1, .claim "w".toList [⟨0, "x".toList, "a".toList⟩]⟩,
    .queue ⟨2, .finish ⟨0, "a".toList, 1, "w|x".toList, none⟩
      { domain := "a".toList, status := .fetchFailed, errorReason := some "homepage".toList }
      false true⟩]

end Reopened

/-- A job is retried while its owner has no other one. -/
theorem retried_below_limit : ∃ h x,
    Transition.Run (LimitInit 3 7) (ApiStep 3) h x ∧ Transition.Guarded (WithinLimit 3 7) h ∧
      (x.sys.store.job 0).status = .running ∧
      ((activeJobs x.sys.store (some 7)).card : ℤ) ≤ 3 := by
  obtain ⟨h, x, hrun, hok, hstatus⟩ :=
    Transition.Run.exists_of_exec (LimitInit 3 7) (apiStep 3) Reopened.start Reopened.start_init
      (Reopened.posted 0 0 ++ Reopened.failed ++ [.retry 3 Reopened.who (some 0)])
      (fun p => (∀ q ∈ p.1, WithinLimit 3 7 q.1 q.2) ∧ (p.2.sys.store.job 0).status = .running)
      (by decide +kernel)
  exact ⟨h, x, hrun, hok, hstatus, unfinished_jobs_within_limit 3 7 h x hrun hok⟩

/-- The person fills the limit with new jobs after the first one is done, and retries that
one: four unfinished jobs, all of them posted as a non-admin with a limit of three. -/
theorem retry_exceeds_limit : ∃ h x,
    Transition.Run (LimitInit 3 7) (ApiStep 3) h x ∧
      Transition.Guarded (fun _ m => m.NonAdmin 7) h ∧
      (activeJobs x.sys.store (some 7)).card = 4 := by
  obtain ⟨h, x, hrun, hok, hcard⟩ :=
    Transition.Run.exists_of_exec (LimitInit 3 7) (apiStep 3) Reopened.start Reopened.start_init
      (Reopened.posted 0 0 ++ Reopened.failed ++ Reopened.posted 3 1 ++ Reopened.posted 4 2 ++
        Reopened.posted 5 3 ++ [.retry 6 Reopened.who (some 0)])
      (fun p => (∀ q ∈ p.1, q.2.NonAdmin 7) ∧ (activeJobs p.2.sys.store (some 7)).card = 4)
      (by decide +kernel)
  exact ⟨h, x, hrun, hok, hcard⟩

end Jobs

end EmailExtractor
