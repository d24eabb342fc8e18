import EmailExtractor.Queue.Recording
import EmailExtractor.Worker.Once

/-!
# Retries and the shared cache

`requeue_failed` notes the time at which it takes a row back, and `cached_result` passes over
a failure that is older. Both times are `now()`, which is the start of a transaction, and a
retry reads the job before it updates the rows. So transactions overlap here: one that starts
at a time takes effect at a later one, a `finish` when it commits and a retry when its
`UPDATE` reads the rows, and they are listed in the order in which they take effect.

Which failure is meant is settled by the place of the recording `finish` in the run.
-/

namespace EmailExtractor

namespace Worker

open Queue Transition

/-! ## Overlapping transactions -/

/-- A transaction that starts at `action.now` and takes effect at `effect`. -/
structure Overlap where
  action : Action
  effect : Time
  deriving DecidableEq

structure Clocked where
  sys : System
  clock : Time

def overlapStep (w : Clocked) (x : Overlap) : Option Clocked :=
  if w.clock ≤ x.effect ∧ x.action.now ≤ x.effect then
    (opStep w.sys x.action).map fun s => ⟨s, x.effect⟩
  else none

abbrev OverlapStep (w : Clocked) (x : Overlap) (w' : Clocked) : Prop := overlapStep w x = some w'

abbrev OverlapRun := Run (fun _ : Clocked => True) OverlapStep

theorem overlapStep_cases {w w' : Clocked} {x : Overlap} (h : OverlapStep w x w') :
    OpStep w.sys x.action w'.sys := by
  unfold OverlapStep overlapStep at h
  rw [Option.ite_none_right_eq_some, Option.map_eq_some_iff] at h
  obtain ⟨-, s, hs, rfl⟩ := h
  exact hs

/-! ## What is recorded, published and taken back -/

/-- The `finish` that recorded the result of the row. -/
def recordOf (j : JobId) (d : Str) (h : List (Clocked × Overlap)) : Option (ℕ × Overlap) :=
  latest (fun w x => records j d w.sys.store x.action) h

/-- The transaction writes a result to the row of the domain in the shared cache. -/
def publishesTo (d : Str) (s : Store) (a : Action) : Bool :=
  decide (.domain d ∈ s.rows) && (publishes s a).any fun p => decide (p.1.domain = d)

/-- The `finish` whose result is in the shared cache. -/
def publicationOf (d : Str) (h : List (Clocked × Overlap)) : Option (ℕ × Overlap) :=
  latest (fun w x => publishesTo d w.sys.store x.action) h

/-- The `finish` that recorded the failure for which the row was last put back. -/
def requeuedFor (j : JobId) (d : Str) : List (Clocked × Overlap) → Option (ℕ × Overlap)
  | [] => none
  | (w, x) :: h =>
    if retriesRow j d w.sys.store x.action then recordOf j d h else requeuedFor j d h

def recordedStatus (a : Action) : Option Status :=
  match a.op with
  | .finish _ result _ _ => some result.status
  | _ => none

/-- The rows that a retry takes back although it started before the `finish` that recorded
them, or with it. -/
def takenEarly (w : Clocked) (x : Overlap) : Finset Key :=
  match x.action.op with
  | .requeueFailed j =>
    w.sys.store.rowsWhere fun j' r => decide (j' = j) && r.retryable &&
      r.finishedAt.any fun t => !decide (t < x.action.now)
  | _ => ∅

/-- A retry starts after the start of every `finish` whose failure it takes back. -/
def StartsLater (w : Clocked) (x : Overlap) : Prop := takenEarly w x = ∅

instance (w : Clocked) (x : Overlap) : Decidable (StartsLater w x) :=
  inferInstanceAs (Decidable (_ = _))

section

variable {h : List (Clocked × Overlap)} {w w' : Clocked} {x : Overlap} {s : Store} {a : Action}
  {j : JobId} {d : Str}

theorem retriesRow_iff : retriesRow j d s a = true ↔
    a.op = .requeueFailed j ∧ .row j d ∈ s.rows ∧ (s.row j d).retryable = true := by
  obtain ⟨now, op⟩ := a
  cases op with
  | requeueFailed j' =>
    simp only [retriesRow, requeueFailedRows, Store.row_mem_hits, decide_eq_true_eq,
      Bool.and_eq_true, Op.requeueFailed.injEq]
    constructor
    · rintro ⟨hmem, rfl, hretryable⟩
      exact ⟨rfl, hmem, hretryable⟩
    · rintro ⟨rfl, hmem, hretryable⟩
      exact ⟨hmem, rfl, hretryable⟩
  | _ => simp [retriesRow]

theorem StartsLater.lt {t : Time} (hlater : StartsLater w x)
    (hretries : retriesRow j d w.sys.store x.action = true)
    (ht : (w.sys.store.row j d).finishedAt = some t) : t < x.action.now := by
  obtain ⟨hop, hmem, hretryable⟩ := retriesRow_iff.mp hretries
  simp only [StartsLater, takenEarly, hop] at hlater
  have hnot := Finset.eq_empty_iff_forall_notMem.mp hlater (.row j d)
  rw [Store.row_mem_rowsWhere] at hnot
  simpa [hmem, hretryable, ht] using hnot

theorem status_of_retryable {r : JobDomain} (hretryable : r.retryable = true) :
    r.state = .done ∧ r.status = some .fetchFailed := by
  simp only [JobDomain.retryable, Bool.and_eq_true, decide_eq_true_eq] at hretryable
  exact hretryable.1

/-! ## One transaction -/

theorem done_change {r : JobDomain} (hmem : .row j d ∈ s.rows) (hchange : RowChange s a j d r)
    (hdone : r.state = .done) :
    if records j d s a then r.finishedAt = some a.now ∧ r.status = recordedStatus a
    else r = s.row j d := by
  cases hrec : records j d s a with
  | false =>
    rw [if_neg Bool.false_ne_true]
    have hbefore : (s.row j d).state = .done := by
      by_contra hopen
      exact hchange.of_not_done hmem hrec hopen hdone
    refine (hchange.of_done hbefore).resolve_right ?_
    rintro ⟨hop, hretryable⟩
    rw [hchange.of_requeueFailed hop hmem, if_pos hretryable] at hdone
    simp [JobDomain.requeuedFailed] at hdone
  | true =>
    rw [if_pos rfl]
    cases hchange with
    | finish hop _ => simp [JobDomain.finished, recordedStatus, hop]
    | same _ _ _ hkeep =>
      obtain ⟨c, _, _, _, hop, rfl, rfl, -, hheld, -⟩ := records_cases hrec
      have howns := hkeep c (by rw [hop]; rfl)
      simp [Claim.owns, hheld] at howns
    | beat hop hheld | claim hop | requeue hop | reap hop | release hop | retry hop =>
      simp [records, hop] at hrec

theorem requeuedAt_change {r : JobDomain} (hmem : .row j d ∈ s.rows)
    (hchange : RowChange s a j d r) :
    r.requeuedAt = if retriesRow j d s a then some a.now else (s.row j d).requeuedAt := by
  cases hretries : retriesRow j d s a with
  | true =>
    obtain ⟨hop, -, hretryable⟩ := retriesRow_iff.mp hretries
    rw [hchange.of_requeueFailed hop hmem, if_pos hretryable, if_pos rfl]
    rfl
  | false =>
    rw [if_neg Bool.false_ne_true]
    cases hchange with
    | retry hop hretryable =>
      rw [retriesRow_iff.mpr ⟨hop, hmem, hretryable⟩] at hretries
      exact absurd hretries (by simp)
    | _ => rfl

theorem cache_change (hpossible : a.op.Possible a.now s) (hmem : .domain d ∈ s.rows) :
    if publishesTo d s a then
      ((a.op.apply a.now s).domain d).finishedAt = some a.now ∧
        ((a.op.apply a.now s).domain d).status = recordedStatus a
    else
      ((a.op.apply a.now s).domain d).finishedAt = (s.domain d).finishedAt ∧
        ((a.op.apply a.now s).domain d).status = (s.domain d).status := by
  cases hpub : publishesTo d s a with
  | true =>
    simp only [publishesTo, hmem, decide_true, Bool.true_and, Option.any_eq_true,
      decide_eq_true_eq] at hpub
    obtain ⟨⟨c, t⟩, hpub, rfl⟩ := hpub
    obtain ⟨rfl, r, hop, hrec⟩ := publishes_iff.mp hpub
    simp only [if_true, recordedStatus, hop]
    rw [Op.apply, workerFinish_store, finish_domain hrec, if_pos ⟨hmem, rfl⟩]
    simp only [DomainRow.finishedBy, Bool.not_false, Bool.and_self, if_true]
    split <;> exact ⟨rfl, rfl⟩
  | false =>
    rw [if_neg Bool.false_ne_true]
    have hchange := domainChange s a hpossible d
    generalize (a.op.apply a.now s).domain d = row at hchange ⊢
    cases hchange with
    | same _ => exact ⟨rfl, rfl⟩
    | lock _ _ _ _ =>
      rw [Store.domainOrNew, if_pos hmem]
      exact ⟨rfl, rfl⟩
    | unlock _ _ _ | renew _ _ | release _ _ => exact ⟨rfl, rfl⟩
    | @finish c r fromCache writeCache hop hd hrec =>
      simp only [records, hop, Bool.and_eq_true] at hrec
      cases hwrite : !fromCache && writeCache with
      | true => simp [publishesTo, hmem, publishes, hop, hwrite, hrec.2, hd] at hpub
      | false =>
        simp only [DomainRow.finishedBy, Bool.false_eq_true, if_false]
        split <;> exact ⟨rfl, rfl⟩

end

/-! ## Whole runs -/

/-- The rows and the cache are those of the `finish` they come from, and a row that was put
back was so after the start of the one it was put back for. -/
structure Traced (h : List (Clocked × Overlap)) (w : Clocked) : Prop where
  row : ∀ j d n x, recordOf j d h = some (n, x) → .row j d ∈ w.sys.store.rows →
    (w.sys.store.row j d).state = .done →
    (w.sys.store.row j d).finishedAt = some x.action.now ∧
      (w.sys.store.row j d).status = recordedStatus x.action
  cache : ∀ d n x, publicationOf d h = some (n, x) → .domain d ∈ w.sys.store.rows ∧
    (w.sys.store.domain d).finishedAt = some x.action.now ∧
      (w.sys.store.domain d).status = recordedStatus x.action
  back : ∀ j d n x, requeuedFor j d h = some (n, x) → .row j d ∈ w.sys.store.rows →
    recordedStatus x.action = some .fetchFailed ∧
      ∃ t, (w.sys.store.row j d).requeuedAt = some t ∧ x.action.now < t

section

variable {cfg : Config} {h : List (Clocked × Overlap)} {w w' : Clocked} {x : Overlap}

theorem Traced.step (htraced : Traced h w) (hlater : StartsLater w x)
    (hstep : OverlapStep w x w') : Traced ((w, x) :: h) w' := by
  obtain ⟨henabled, hw'⟩ := opStep_cases (overlapStep_cases hstep)
  have hstore : w'.sys.store = x.action.op.apply x.action.now w.sys.store := by rw [hw']
  have hrows : ∀ j d, .row j d ∈ w'.sys.store.rows → .row j d ∈ w.sys.store.rows := by
    intro j d hmem
    rw [hstore] at hmem
    exact (row_mem_apply henabled.2.2).mp hmem
  have hdomains : ∀ d, .domain d ∈ w.sys.store.rows → .domain d ∈ w'.sys.store.rows := by
    intro d hmem
    rw [hstore]
    exact (mem_rows_apply henabled.2.2).mpr (.inl hmem)
  constructor
  case row =>
    intro j d n y hrecord hmem hdone
    have hchange := rowChange henabled (hrows j d hmem)
    rw [← hstore] at hchange
    have hafter := done_change (hrows j d hmem) hchange hdone
    rcases latest_cons_eq_some.mp hrecord with ⟨hrec, hnow⟩ | ⟨hrec, hrecord⟩
    · rw [if_pos hrec] at hafter
      obtain ⟨-, rfl⟩ := Prod.mk.inj hnow
      exact hafter
    · rw [if_neg (by simp [hrec])] at hafter
      rw [hafter] at hdone ⊢
      exact htraced.row j d n y hrecord (hrows j d hmem) hdone
  case cache =>
    intro d n y hpublication
    rcases latest_cons_eq_some.mp hpublication with ⟨hpub, hnow⟩ | ⟨hpub, hpublication⟩
    · have hbefore : .domain d ∈ w.sys.store.rows := by
        simp only [publishesTo, Bool.and_eq_true, decide_eq_true_eq] at hpub
        exact hpub.1
      have hafter := cache_change henabled.2.2 hbefore
      rw [if_pos hpub, ← hstore] at hafter
      obtain ⟨-, rfl⟩ := Prod.mk.inj hnow
      exact ⟨hdomains d hbefore, hafter⟩
    · obtain ⟨hbefore, hcached⟩ := htraced.cache d n y hpublication
      have hafter := cache_change henabled.2.2 hbefore
      rw [if_neg (by simp [hpub]), ← hstore] at hafter
      rw [hafter.1, hafter.2]
      exact ⟨hdomains d hbefore, hcached⟩
  case back =>
    intro j d n y hback hmem
    have hmem' := hrows j d hmem
    have hchange := rowChange henabled hmem'
    rw [← hstore] at hchange
    rw [requeuedAt_change hmem' hchange]
    simp only [requeuedFor] at hback
    cases hretries : retriesRow j d w.sys.store x.action with
    | true =>
      -- the row was done, with the failure and the time of its `finish`
      rw [hretries, if_pos rfl] at hback
      obtain ⟨-, -, hretryable⟩ := retriesRow_iff.mp hretries
      obtain ⟨hdone, hfailed⟩ := status_of_retryable hretryable
      obtain ⟨hfinished, hstatus⟩ := htraced.row j d n y hback hmem' hdone
      exact ⟨hstatus.symm.trans hfailed, x.action.now, rfl, hlater.lt hretries hfinished⟩
    | false =>
      rw [hretries, if_neg Bool.false_ne_true] at hback
      exact htraced.back j d n y hback hmem'

theorem OverlapRun.traced (hrun : OverlapRun h w) (hlater : Guarded StartsLater h) :
    Traced h w := by
  refine hrun.invariant_history (I := Traced) (fun w _ => ?_)
    (fun _ _ _ _ htraced hlater hstep => htraced.step hlater hstep) hlater
  constructor
  case row => simp [recordOf, latest]
  case cache => simp [publicationOf, latest]
  case back => simp [requeuedFor]

/-- A failure that was recorded before the row was put back is of no use to its claims. -/
theorem not_cacheUsable {clock t : Time} {job : Job} {row : DomainRow} {finished : Time}
    (hfinished : row.finishedAt = some finished) (hstatus : row.status = some .fetchFailed)
    (hlt : finished < t) : cacheUsable cfg clock job row (some t) = false := by
  unfold cacheUsable
  rw [hfinished]
  cases row.result with
  | none => rfl
  | some r =>
    have hfloor : ¬ max job.createdAt t ≤ finished := by
      rw [not_le]
      exact lt_max_of_lt_right hlt
    simp [hfloor, hstatus]

end

/-- If every retry starts after the start of the `finish`es whose failures it takes back, then
no claim of a row that was put back reads the failure for which it was out of the cache, at
whatever time and in whatever state it looks. -/
theorem retry_does_not_read_back (cfg : Config) (h' h : List (Clocked × Overlap)) (w w' : Clocked)
    (x : Overlap) (hrun : OverlapRun (h' ++ (w, x) :: h) w')
    (hlater : Guarded StartsLater (h' ++ (w, x) :: h)) (c : Claim)
    (hclaimed : x.action.op.claimed x.action.now w.sys.store = some c) (failure : ℕ × Overlap)
    (hback : requeuedFor c.jobId c.domain h = some failure) (clock : Time) (job : Job)
    (hread : (cachedResult cfg w'.sys.store clock job c.domain c.notBefore).isSome = true) :
    publicationOf c.domain (h' ++ (w, x) :: h) ≠ some failure := by
  obtain ⟨n, y⟩ := failure
  intro hpublication
  -- the claim takes the time of the retry with it
  obtain ⟨w₁, hrun₁, -⟩ := hrun.of_append
  cases hrun₁ with
  | next hrun₀ hstep =>
    have hlater₀ : Guarded StartsLater h := fun p hp => hlater p (by simp [hp])
    obtain ⟨henabled, -⟩ := opStep_cases (overlapStep_cases hstep)
    obtain ⟨-, -, -, -, -, hmem, hnotBefore, -⟩ := claimed_cases henabled.2.2 hclaimed
    obtain ⟨hfailed, t, hat, hlt⟩ :=
      (OverlapRun.traced hrun₀ hlater₀).back _ _ n y hback hmem
    obtain ⟨-, hfinished, hstatus⟩ := (OverlapRun.traced hrun hlater).cache _ n y hpublication
    rw [hnotBefore, hat, cachedResult, not_cacheUsable hfinished (hstatus.trans hfailed) hlt]
      at hread
    simp at hread

namespace SharedFailure

def cfg : Config where
  maxDomainAttempts := 2
  retryPassDelayS := 0
  cacheDays := 90
  fetchBackend := "jina".toList
  validate := some

def failure : DomainResult where
  domain := "a".toList
  status := .fetchFailed
  errorReason := some "homepage".toList

def start : Clocked where
  sys :=
    { store := .blank
        {.job 0, .job 1, .row 0 "a".toList, .row 1 "a".toList, .domain "a".toList}
        fun _ => { createdAt := 0 }
      claims := [] }
  clock := 0

/-- The row of job 0 is claimed, a `finish` that starts at 3 records the failure, and a retry
that started at the given time takes it back at 5. -/
def retried (retryStart : Time) : List Overlap :=
  [⟨⟨1, .claim "w".toList [⟨0, "x".toList, "a".toList⟩, ⟨1, "x".toList, "a".toList⟩]⟩, 1⟩,
    ⟨⟨3, .finish ⟨0, "a".toList, 1, "w|x".toList, none⟩ failure false true⟩, 4⟩,
    ⟨⟨retryStart, .requeueFailed 0⟩, 5⟩]

/-- Job 1 fetches the domain, and the row of job 0 is claimed again. -/
def refetched : List Overlap :=
  [⟨⟨6, .claim "w".toList [⟨1, "y".toList, "a".toList⟩, ⟨0, "y".toList, "a".toList⟩]⟩, 6⟩,
    ⟨⟨7, .finish ⟨1, "a".toList, 1, "w|y".toList, none⟩
      { domain := "a".toList, status := .found } false true⟩, 7⟩,
    ⟨⟨8, .claim "w".toList [⟨0, "z".toList, "a".toList⟩]⟩, 8⟩]

def reclaimed : List Overlap :=
  [⟨⟨6, .claim "w".toList [⟨0, "y".toList, "a".toList⟩, ⟨1, "y".toList, "a".toList⟩]⟩, 6⟩]

/-- The run ends with a claim of a row that was put back, which gets a result with the status
from the cache. -/
def reads (status : Status) : List (Clocked × Overlap) × Clocked → Bool
  | ([], _) => false
  | ((w, x) :: h, w') =>
    (x.action.op.claimed x.action.now w.sys.store).any fun c =>
      (requeuedFor c.jobId c.domain h).isSome &&
        (cachedResult cfg w'.sys.store 9 (w'.sys.store.job 0) c.domain c.notBefore).any
          fun r => decide (r.status = status)

/-- What the claim finds in the cache is the failure for which the row was put back. -/
def same : List (Clocked × Overlap) × Clocked → Bool
  | ([], _) => false
  | ((w, x) :: h, _) =>
    (x.action.op.claimed x.action.now w.sys.store).all fun c =>
      decide (publicationOf c.domain ((w, x) :: h) = requeuedFor c.jobId c.domain h)

theorem reads_iff {status : Status} {p : Clocked × Overlap} {h : List (Clocked × Overlap)}
    {w' : Clocked} : reads status (p :: h, w') = true ↔ ∃ c failure,
      p.2.action.op.claimed p.2.action.now p.1.sys.store = some c ∧
      requeuedFor c.jobId c.domain h = some failure ∧
      ∃ r, cachedResult cfg w'.sys.store 9 (w'.sys.store.job 0) c.domain c.notBefore = some r ∧
        r.status = status := by
  simp only [reads, Option.any_eq_true, Bool.and_eq_true, decide_eq_true_eq,
    Option.isSome_iff_exists]
  constructor
  · rintro ⟨c, hclaimed, ⟨failure, hback⟩, r, hr, hstatus⟩
    exact ⟨c, failure, hclaimed, hback, r, hr, hstatus⟩
  · rintro ⟨c, failure, hclaimed, hback, r, hr, hstatus⟩
    exact ⟨c, hclaimed, ⟨failure, hback⟩, r, hr, hstatus⟩

end SharedFailure

/-- The retry starts after the `finish`, and the next claim reads what another job has found
since. -/
theorem later_retry_reads_anew : ∃ h w w' x c failure, OverlapRun ((w, x) :: h) w' ∧
    Guarded StartsLater ((w, x) :: h) ∧
    x.action.op.claimed x.action.now w.sys.store = some c ∧
    requeuedFor c.jobId c.domain h = some failure ∧
    (cachedResult SharedFailure.cfg w'.sys.store 9 (w'.sys.store.job 0) c.domain
      c.notBefore).isSome = true ∧
    publicationOf c.domain ((w, x) :: h) ≠ some failure := by
  obtain ⟨h, w', hrun, hlater, hreads⟩ := Run.exists_of_exec (fun _ : Clocked => True) overlapStep
    SharedFailure.start trivial (SharedFailure.retried 4 ++ SharedFailure.refetched)
    (fun p => (∀ q ∈ p.1, StartsLater q.1 q.2) ∧ SharedFailure.reads .found p = true)
    (by decide +kernel)
  cases h with
  | nil => simp [SharedFailure.reads] at hreads
  | cons p h =>
    obtain ⟨c, failure, hclaimed, hback, r, hread, -⟩ := SharedFailure.reads_iff.mp hreads
    have hsome := Option.isSome_iff_exists.mpr ⟨r, hread⟩
    exact ⟨h, p.1, w', p.2, c, failure, hrun, hlater, hclaimed, hback, hsome,
      retry_does_not_read_back SharedFailure.cfg [] h p.1 w' p.2 hrun hlater c hclaimed failure
        hback 9 _ hsome⟩

/-- The retry started before the `finish` and took effect after it, so its time is before that
of the failure: the next claim gets the failure back from the cache. -/
theorem stale_retry_reads_back : ∃ h w w' x c failure, OverlapRun ((w, x) :: h) w' ∧
    x.action.op.claimed x.action.now w.sys.store = some c ∧
    requeuedFor c.jobId c.domain h = some failure ∧
    (cachedResult SharedFailure.cfg w'.sys.store 9 (w'.sys.store.job 0) c.domain
      c.notBefore).isSome = true ∧
    publicationOf c.domain ((w, x) :: h) = some failure := by
  obtain ⟨h, w', hrun, hreads, hsame⟩ := Run.exists_of_exec (fun _ : Clocked => True) overlapStep
    SharedFailure.start trivial (SharedFailure.retried 2 ++ SharedFailure.reclaimed)
    (fun p => SharedFailure.reads .fetchFailed p = true ∧ SharedFailure.same p = true)
    (by decide +kernel)
  cases h with
  | nil => simp [SharedFailure.reads] at hreads
  | cons p h =>
    obtain ⟨c, failure, hclaimed, hback, r, hread, -⟩ := SharedFailure.reads_iff.mp hreads
    simp only [SharedFailure.same, hclaimed, Option.all_some, decide_eq_true_eq] at hsame
    exact ⟨h, p.1, w', p.2, c, failure, hrun, hclaimed, hback,
      Option.isSome_iff_exists.mpr ⟨r, hread⟩, hsame.trans hback⟩

end Worker

end EmailExtractor
