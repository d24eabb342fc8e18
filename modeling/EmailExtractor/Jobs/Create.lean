import EmailExtractor.Library.Distinct
import EmailExtractor.Queue.Effects
import Mathlib.Data.Finset.Max

/-!
# Creating and retrying jobs

`create_job` of `app/jobs.py`, and `_create_job` with `_replay`, `_get_job` and
`retry_job` of `app/main.py`, from the prepared rows of a request on. A `POST /jobs` has
two parts that others can come between: the checks, made under a lock of the person, and
the transaction that inserts the job, with which the lock ends. Whether the host of a
webhook is acceptable is a question to the network, so the answer is an input.

The other columns of `jobs` that only these functions use stand beside the store of the
queue, and so do the rows of `job_items`.
-/

namespace EmailExtractor

namespace Jobs

open Queue List
open Function (update)

/-! ## Rows of a request -/

structure PreparedItem where
  rowIndex : ℕ
  inputValue : Str
  domain : Option Str
  status : Option Status
  reason : Option Str
  domainSource : Str
  rawRow : Dict Str Str := []
  deriving DecidableEq

structure JobItem where
  rowIndex : ℕ
  inputValue : Str
  domain : Option Str
  status : Option Status
  reason : Option Str
  domainSource : Option Str
  rawRow : Option (Dict Str Str)
  deriving DecidableEq

def PreparedItem.row (it : PreparedItem) : JobItem where
  rowIndex := it.rowIndex
  inputValue := it.inputValue
  domain := it.domain
  status := it.status
  reason := it.reason
  domainSource := some it.domainSource
  rawRow := some it.rawRow

/-- `unique_domains`: in the order of the input. -/
def uniqueDomains (items : List PreparedItem) : List Str :=
  items.foldl (fun out it =>
    match it.domain with
    | some d => if d.isEmpty || out.contains d then out else out ++ [d]
    | none => out) []

def namedDomains (items : List PreparedItem) : List Str :=
  items.filterMap fun it => it.domain.filter fun d => !d.isEmpty

theorem uniqueDomains_eq (items : List PreparedItem) :
    uniqueDomains items = (namedDomains items).eraseDups := by
  rw [← Distinct.foldl_appendNew, namedDomains, foldl_filterMap, uniqueDomains]
  congr 1
  funext out it
  cases it.domain with
  | none => rfl
  | some d =>
    cases d with
    | nil | cons c d => rfl

theorem nodup_uniqueDomains (items : List PreparedItem) : (uniqueDomains items).Nodup := by
  rw [uniqueDomains_eq]
  exact Distinct.nodup_eraseDups _

variable {d : Str}

/-! ## `create_job` -/

/-- The arguments of `create_job` that end up in a modelled column. -/
structure NewJob where
  items : List PreparedItem
  webhookUrl : Option Str
  fresh : Bool
  ownerId : Option ℕ
  idempotencyKey : Option Str
  idempotencyFingerprint : Option Str
  deriving DecidableEq

/-- The row of `jobs`; a job without a domain is done at once. -/
def NewJob.job (now clock : Time) (a : NewJob) : Job :=
  let job : Job :=
    { createdAt := now, webhookUrl := a.webhookUrl, fresh := a.fresh, ownerId := a.ownerId }
  if uniqueDomains a.items = [] then { job with status := .done, finishedAt := some clock }
  else job

def insertJob (s : Store) (j : JobId) (job : Job) : Store where
  rows := insert (.job j) s.rows
  val := update s.val (.job j) job

def insertRow (s : Store) (j : JobId) (d : Str) (r : JobDomain) : Store where
  rows := insert (.row j d) s.rows
  val := update s.val (.row j d) r

def insertDomains (s : Store) (now : Time) (domains : List Str) : Store :=
  domains.foldl (fun s d => s.withDomain now d) s

def insertRows (s : Store) (now : Time) (j : JobId) (domains : List (Str × ℕ)) : Store :=
  domains.foldl (fun s p => insertRow s j p.1 { seq := p.2, availableAt := now }) s

/-- `create_job`, for a new id; `clock` is what Python takes for the time. -/
def createJob (s : Store) (now clock : Time) (j : JobId) (a : NewJob) : Store :=
  let domains := uniqueDomains a.items
  insertRows (insertDomains (insertJob s j (a.job now clock)) now domains) now j domains.zipIdx

def cachedDomains (s : Store) (cutoff : Time) (a : NewJob) : List Str :=
  if a.fresh then []
  else (uniqueDomains a.items).filter fun d =>
    decide (.domain d ∈ s.rows) && ((s.domain d).finishedAt.any fun t => decide (cutoff ≤ t)) &&
      (s.domain d).status.any fun status => decide (status ≠ .fetchFailed)

/-! ## Errors and answers -/

inductive ErrorCode
  | tooManyRows
  | noRows
  | validationError
  | idempotencyConflict
  | invalidWebhookUrl
  | jobLimitReached
  | jobNotFound
  | jobNotRetryable
  deriving DecidableEq

inductive Details
  | none
  | limit (limit : ℕ)
  | field (field msg : Str)
  | job (j : JobId)
  | active (active : ℕ) (limit : ℤ)
  | status (status : JobStatus)
  deriving DecidableEq

structure ApiError where
  code : ErrorCode
  message : Str
  details : Details := .none
  deriving DecidableEq

def commaGroups : Str → Str
  | a :: b :: c :: d :: rest => a :: b :: c :: ',' :: commaGroups (d :: rest)
  | rest => rest

/-- The format `:,`. -/
def commas (n : ℕ) : Str := (commaGroups (Nat.toDigits 10 n).reverse).reverse

example : commas 50000 = "50,000".toList := by decide

def maxItemsPerJob : ℕ := 50000

def idempotencyKeyMax : ℕ := 200

structure Created where
  jobId : JobId
  total : ℕ
  uniqueDomains : ℕ
  cached : ℕ
  queued : ℤ
  replayed : Bool := false
  deriving DecidableEq

def tooManyRows (n : ℕ) : ApiError where
  code := .tooManyRows
  message := commas n ++ " rows; the limit is ".toList ++ commas maxItemsPerJob
  details := .limit maxItemsPerJob

def noRows : ApiError := ⟨.noRows, "there are no rows to process".toList, .none⟩

def badIdempotencyKey : ApiError where
  code := .validationError
  message := "Idempotency-Key must be 1-200 characters".toList
  details := .field "Idempotency-Key".toList "bad length".toList

def idempotencyConflict (j : JobId) : ApiError where
  code := .idempotencyConflict
  message := "this Idempotency-Key was already used for a different request".toList
  details := .job j

def invalidWebhookUrl (why : Str) : ApiError := ⟨.invalidWebhookUrl, why, .none⟩

def jobLimitReached (active : ℕ) (limit : ℤ) : ApiError where
  code := .jobLimitReached
  message := "you already have ".toList ++ (toString active).toList ++
    " unfinished jobs (the limit is ".toList ++ (toString limit).toList ++
    "); wait for one to finish or cancel it".toList
  details := .active active limit

def jobNotFound : ApiError := ⟨.jobNotFound, "no such job".toList, .none⟩

def jobPaused : ApiError where
  code := .jobNotRetryable
  message := "the job is paused; resume it first".toList
  details := .status .paused

def jobCancelled : ApiError where
  code := .jobNotRetryable
  message := "the job was cancelled".toList
  details := .status .cancelled

/-! ## `_create_job` -/

/-- Who makes a request; `none` is the bootstrap key. -/
structure Principal where
  userId : Option ℕ
  isAdmin : Bool
  deriving DecidableEq

structure Request where
  items : List PreparedItem
  webhookUrl : Option Str
  fresh : Bool
  idempotencyKey : Option Str
  fingerprint : Str
  deriving DecidableEq

def Request.newJob (who : Principal) (r : Request) : NewJob where
  items := r.items
  webhookUrl := r.webhookUrl
  fresh := r.fresh
  ownerId := who.userId
  idempotencyKey := r.idempotencyKey
  idempotencyFingerprint := if truthy r.idempotencyKey then some r.fingerprint else none

/-- The system behind the API: the queue, the columns of `jobs` for `_replay`, the rows of
`job_items`, and the requests that have passed their checks and hold the lock of their
person. -/
structure Api where
  sys : System
  keys : JobId → Option Str
  fingerprints : JobId → Option Str
  items : JobId → List JobItem
  posting : Option ℕ → Option NewJob

def activeStatuses : List JobStatus := [.queued, .running, .paused]

def isJobWhere (s : Store) (p : JobId → Job → Bool) : Key → Bool
  | .job j => p j (s.job j)
  | _ => false

def jobsWhere (s : Store) (p : JobId → Job → Bool) : Finset Key :=
  s.rows.filter fun k => isJobWhere s p k

theorem mem_jobsWhere {s : Store} {p : JobId → Job → Bool} {k : Key} : k ∈ jobsWhere s p ↔
    ∃ j, k = .job j ∧ .job j ∈ s.rows ∧ p j (s.job j) = true := by
  unfold jobsWhere
  rw [Finset.mem_filter]
  cases k <;> simp [isJobWhere]

def activeJobs (s : Store) (owner : Option ℕ) : Finset Key :=
  jobsWhere s fun _ job => decide (job.ownerId = owner) && decide (job.status ∈ activeStatuses)

def Api.jobOfKey (x : Api) (who : Principal) (key : Str) : Option JobId :=
  ((jobsWhere x.sys.store fun j job =>
      decide (x.keys j = some key) && decide (job.ownerId = who.userId)).image fun k =>
    k.job?.getD 0).min

def Api.replayed (x : Api) (j : JobId) : Created :=
  let rows := countRows x.sys.store.rows j
  let cached := (x.sys.store.rowsWhere fun j' r => decide (j' = j) && r.fromCache).card
  { jobId := j, total := (x.items j).length, uniqueDomains := rows, cached := cached,
    queued := rows - cached, replayed := true }

def Api.replay (x : Api) (who : Principal) (key fingerprint : Str) :
    Except ApiError (Option Created) :=
  match x.jobOfKey who key with
  | none => .ok none
  | some j =>
    if truthy (x.fingerprints j) ∧ x.fingerprints j ≠ some fingerprint then
      .error (idempotencyConflict j)
    else .ok (some (x.replayed j))

def Request.check (r : Request) : Except ApiError Unit :=
  if maxItemsPerJob < r.items.length then .error (tooManyRows r.items.length)
  else if r.items = [] then .error noRows
  else
    match r.idempotencyKey with
    | none => .ok ()
    | some key =>
      if 0 < key.length ∧ key.length ≤ idempotencyKeyMax then .ok ()
      else .error badIdempotencyKey

def Api.replayOf (x : Api) (who : Principal) (r : Request) : Except ApiError (Option Created) :=
  match r.idempotencyKey with
  | some key => if key.isEmpty then .ok none else x.replay who key r.fingerprint
  | none => .ok none

def Api.checkLimit (limit : ℤ) (x : Api) (who : Principal) : Except ApiError Unit :=
  let active := (activeJobs x.sys.store who.userId).card
  if !who.isAdmin ∧ limit ≤ active then .error (jobLimitReached active limit) else .ok ()

/-- The checks of `_create_job`: an error, the answer for a job that exists already, or
nothing against a new one. -/
def Api.admit (limit : ℤ) (x : Api) (who : Principal) (r : Request)
    (webhook : Except Str Unit) : Except ApiError (Option Created) := do
  r.check
  match ← x.replayOf who r with
  | some answer => return some answer
  | none =>
    webhook.mapError invalidWebhookUrl
    x.checkLimit limit who
    return none

/-- The end of `_create_job`, with the lock. -/
def Api.create (x : Api) (now clock : Time) (j : JobId) (a : NewJob) : Api where
  sys := { x.sys with store := createJob x.sys.store now clock j a }
  keys := update x.keys j a.idempotencyKey
  fingerprints := update x.fingerprints j a.idempotencyFingerprint
  items := update x.items j (a.items.map PreparedItem.row)
  posting := update x.posting a.ownerId none

def created (s : Store) (cutoff : Time) (j : JobId) (a : NewJob) : Created :=
  let cached := (cachedDomains s cutoff a).length
  { jobId := j, total := a.items.length, uniqueDomains := (uniqueDomains a.items).length,
    cached := cached, queued := (uniqueDomains a.items).length - cached }

/-! ## `retry_job` -/

/-- `_get_job` finds the job; an id that is no UUID is `none`. -/
def visible (s : Store) (who : Principal) (id : Option JobId) : Option JobId :=
  id.filter fun j =>
    decide (.job j ∈ s.rows) && (who.isAdmin || decide ((s.job j).ownerId = who.userId))

/-- `retry_job` up to its `requeue_failed`: the job that is retried. -/
def retryJob (s : Store) (who : Principal) (id : Option JobId) : Except ApiError JobId :=
  match visible s who id with
  | none => .error jobNotFound
  | some j =>
    match (s.job j).status with
    | .paused => .error jobPaused
    | .cancelled => .error jobCancelled
    | _ => .ok j

/-! ## Steps -/

/-- A transaction of the queue, the checks of a `POST /jobs`, its insertion or its end
without one, and a `POST /jobs/{id}/retry`. -/
inductive ApiMove
  | queue (a : Action)
  | post (who : Principal) (r : Request) (webhook : Except Str Unit)
  | create (owner : Option ℕ) (now clock : Time) (j : JobId)
  | rollback (owner : Option ℕ)
  | retry (now : Time) (who : Principal) (id : Option JobId)

def ApiMove.action (s : Store) : ApiMove → Option Action
  | .queue a => some a
  | .retry now who id =>
    match retryJob s who id with
    | .ok j => some ⟨now, .requeueFailed j⟩
    | .error _ => none
  | _ => none

/-- One move; `none` when it cannot happen: somebody else has the lock, or the id is
taken. -/
def apiStep (limit : ℤ) (x : Api) (m : ApiMove) : Option Api :=
  match m with
  | .post who r webhook =>
    if (x.posting who.userId).isSome then none
    else
      match x.admit limit who r webhook with
      | .ok none =>
        some { x with posting := update x.posting who.userId (some (r.newJob who)) }
      | _ => some x
  | .create owner now clock j =>
    if .job j ∈ x.sys.store.rows then none
    else (x.posting owner).map (x.create now clock j)
  | .rollback owner => some { x with posting := update x.posting owner none }
  | _ =>
    match m.action x.sys.store with
    | some a => (opStep x.sys a).map fun sys => { x with sys := sys }
    | none => some x

abbrev ApiStep (limit : ℤ) (x : Api) (m : ApiMove) (x' : Api) : Prop :=
  apiStep limit x m = some x'

inductive ApiChange (limit : ℤ) (x : Api) : ApiMove → Api → Prop
  | unchanged {m : ApiMove} (haction : m.action x.sys.store = none) : ApiChange limit x m x
  | posting {who : Principal} {r : Request} {webhook : Except Str Unit}
      (hpassed : x.admit limit who r webhook = .ok none) :
      ApiChange limit x (.post who r webhook)
        { x with posting := update x.posting who.userId (some (r.newJob who)) }
  | create {owner : Option ℕ} {now clock : Time} {j : JobId} {a : NewJob}
      (hfresh : .job j ∉ x.sys.store.rows) (ha : x.posting owner = some a) :
      ApiChange limit x (.create owner now clock j) (x.create now clock j a)
  | rollback {owner : Option ℕ} :
      ApiChange limit x (.rollback owner)
        { x with posting := update x.posting owner none }
  | queue {m : ApiMove} {a : Action} {sys : System} (ha : m.action x.sys.store = some a)
      (hstep : OpStep x.sys a sys) : ApiChange limit x m { x with sys := sys }

theorem apiChange {limit : ℤ} {x x' : Api} {m : ApiMove} (hstep : ApiStep limit x m x') :
    ApiChange limit x m x' := by
  unfold ApiStep apiStep at hstep
  split at hstep
  · split at hstep
    · simp at hstep
    · split at hstep
      · rename_i hpassed
        simp only [Option.some.injEq] at hstep
        exact hstep ▸ .posting hpassed
      · simp only [Option.some.injEq] at hstep
        exact hstep ▸ .unchanged rfl
  · split at hstep
    · simp at hstep
    · rename_i hfresh
      simp only [Option.map_eq_some_iff] at hstep
      obtain ⟨a, ha, rfl⟩ := hstep
      exact .create hfresh ha
  · simp only [Option.some.injEq] at hstep
    exact hstep ▸ .rollback
  · split at hstep
    · rename_i a ha
      simp only [Option.map_eq_some_iff] at hstep
      obtain ⟨sys, hsys, rfl⟩ := hstep
      exact .queue ha hsys
    · rename_i hnone
      simp only [Option.some.injEq] at hstep
      exact hstep ▸ .unchanged hnone

/-! ## What an insertion changes -/

section

variable {s : Store} {now clock : Time} {j j' : JobId} {a : NewJob} {k : Key}

theorem job_insertJob {job : Job} :
    (insertJob s j job).job j' = if j' = j then job else s.job j' := by
  unfold insertJob Store.job
  by_cases h : j' = j
  · subst h
    simp
  · simp [h]

theorem insertDomains_other {domains : List Str} (hk : ∀ d, k ≠ .domain d) :
    (insertDomains s now domains).val k = s.val k ∧
      (k ∈ (insertDomains s now domains).rows ↔ k ∈ s.rows) := by
  unfold insertDomains
  induction domains generalizing s with
  | nil => simp
  | cons d domains ih =>
    rw [foldl_cons, ih.1, ih.2, Store.mem_withDomain]
    refine ⟨?_, by simp [hk]⟩
    unfold Store.withDomain
    split
    · rfl
    · simp [hk]

variable {domains : List (Str × ℕ)}

theorem insertRows_other (hk : ∀ d, k ≠ .row j d) :
    (insertRows s now j domains).val k = s.val k ∧
      (k ∈ (insertRows s now j domains).rows ↔ k ∈ s.rows) := by
  unfold insertRows
  induction domains generalizing s with
  | nil => simp
  | cons p domains ih =>
    rw [foldl_cons, ih.1, ih.2]
    simp [insertRow, hk]

theorem job_createJob : (createJob s now clock j a).job j' =
    if j' = j then a.job now clock else s.job j' := by
  rw [createJob, Store.job, (insertRows_other (by simp)).1, (insertDomains_other (by simp)).1]
  exact job_insertJob

theorem job_mem_createJob : .job j' ∈ (createJob s now clock j a).rows ↔
    j' = j ∨ .job j' ∈ s.rows := by
  rw [createJob, (insertRows_other (by simp)).2, (insertDomains_other (by simp)).2]
  simp [insertJob]

theorem row_createJob (hne : j' ≠ j) :
    (createJob s now clock j a).row j' d = s.row j' d ∧
      (.row j' d ∈ (createJob s now clock j a).rows ↔ .row j' d ∈ s.rows) := by
  have hk : ∀ d', Key.row j' d ≠ .row j d' := by simp [hne]
  rw [createJob, Store.row, (insertRows_other hk).1, (insertRows_other hk).2,
    (insertDomains_other (by simp)).1, (insertDomains_other (by simp)).2]
  simp [insertJob, Store.row]

theorem row_mem_insertRows :
    .row j d ∈ (insertRows s now j domains).rows ↔
      d ∈ domains.map Prod.fst ∨ .row j d ∈ s.rows := by
  unfold insertRows
  induction domains generalizing s with
  | nil => simp
  | cons p domains ih =>
    rw [foldl_cons, ih]
    simp only [insertRow, Finset.mem_insert, Key.row.injEq, true_and, map_cons,
      mem_cons]
    tauto

theorem row_insertRows_of_notMem (s : Store) (now : Time) (j : JobId)
    (hd : d ∉ domains.map Prod.fst) : (insertRows s now j domains).row j d = s.row j d := by
  unfold insertRows
  induction domains generalizing s with
  | nil => rfl
  | cons p domains ih =>
    rw [map_cons, mem_cons, not_or] at hd
    rw [foldl_cons, ih _ hd.2]
    simp [insertRow, Store.row, hd.1]

theorem row_insertRows_of_mem (s : Store) (now : Time) (j : JobId) {i : ℕ}
    (hnodup : (domains.map Prod.fst).Nodup) (hd : (d, i) ∈ domains) :
    (insertRows s now j domains).row j d = { seq := i, availableAt := now } := by
  induction domains generalizing s with
  | nil => simp at hd
  | cons p domains ih =>
    rw [map_cons, nodup_cons] at hnodup
    rw [insertRows, foldl_cons]
    rcases mem_cons.mp hd with rfl | hd
    · -- the rest of the list names other domains
      have hrest := row_insertRows_of_notMem
        (insertRow s j d { seq := i, availableAt := now }) now j hnodup.1
      rw [insertRows] at hrest
      rw [hrest]
      simp [insertRow, Store.row]
    · exact ih _ hnodup.2 hd

theorem row_mem_createJob_self :
    .row j d ∈ (createJob s now clock j a).rows ↔
    d ∈ uniqueDomains a.items ∨ .row j d ∈ s.rows := by
  rw [createJob, row_mem_insertRows, zipIdx_map_fst,
    (insertDomains_other (by simp)).2]
  simp [insertJob]

theorem row_createJob_self {i : ℕ} (hd : (uniqueDomains a.items)[i]? = some d) :
    (createJob s now clock j a).row j d = { seq := i, availableAt := now } := by
  refine row_insertRows_of_mem _ now j ?_ (mem_zipIdx_iff_getElem?.mpr hd)
  rw [zipIdx_map_fst]
  exact nodup_uniqueDomains a.items

end

end Jobs

end EmailExtractor
