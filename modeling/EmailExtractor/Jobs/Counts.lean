import EmailExtractor.Jobs.Lifecycle
import Mathlib.Algebra.BigOperators.Group.Finset.Basic
import Mathlib.Algebra.Ring.Nat

/-!
# The counters of a job

`job_counts` of `app/jobs.py`: every counter is an aggregate of its own over the rows of
the job. Those that ask for a state agree with one another in every state of the database.
The others count a column that `finish` writes and that stays on a row which
`requeue_failed` puts back, so for them the rows that wait for their next try matter too.
-/

namespace EmailExtractor

namespace Jobs

open Queue Transition List

/-! ## Aggregates -/

/-- `count(*) FILTER (WHERE p)` over the rows of the job. -/
def countWhere (s : Store) (j : JobId) (p : JobDomain → Bool) : ℕ :=
  (s.rowsWhere fun j' r => decide (j' = j) && p r).card

def tokensOf (s : Store) : Key → ℤ
  | .row j d => (s.row j d).jinaTokens
  | _ => 0

/-- `coalesce(sum(jina_tokens), 0)`. -/
def sumTokens (s : Store) (j : JobId) : ℤ :=
  ∑ k ∈ s.rowsWhere fun j' _ => decide (j' = j), tokensOf s k

def statuses : List Status :=
  [.invalidInput, .fetchFailed, .parkedOrForSale, .noBusinessEmail, .found, .formOnly,
    .noContactInfo]

def isDone (r : JobDomain) : Bool := decide (r.state = .done)

/-- `state = 'done' AND status = :status`. -/
def isDoneAs (status : Status) (r : JobDomain) : Bool :=
  isDone r && decide (r.status = some status)

def byStatus (s : Store) (j : JobId) : Dict Status ℕ :=
  (statuses.map fun status => (status, countWhere s j (isDoneAs status))).filter
    fun e => e.2 ≠ 0

structure JobCounts where
  total : ℕ
  invalidRows : ℕ
  emptyRows : ℕ
  byStatus : Dict Status ℕ
  needsReview : ℕ
  typesafeCalls : ℕ
  tokensPerDomain : ℤ
  /-- `captured`. -/
  phones : ℕ
  contactForms : ℕ
  linkedin : ℕ
  uniqueDomains : ℕ
  done : ℕ
  running : ℕ
  retrying : ℕ
  failed : ℕ
  found : ℕ
  cached : ℕ
  jinaTokens : ℤ
  hitRateSoFar : PyFloat

/-- `job_counts`; `divide` and `round` are the division and the rounding of floats. -/
def jobCounts (divide : ℤ → ℤ → PyFloat) (round : PyFloat → ℤ) (s : Store)
    (items : List JobItem) (j : JobId) : JobCounts :=
  let count := countWhere s j
  let done := count isDone
  let found := count (isDoneAs .found)
  let tokens := sumTokens s j
  let fetched := count fun r => isDone r && !r.fromCache && decide (0 < r.jinaTokens)
  { total := items.length
    invalidRows := items.countP fun it => decide (it.status = some .invalidInput)
    emptyRows := items.countP fun it => decide (it.reason = some "empty".toList)
    byStatus := byStatus s j
    needsReview := count JobDomain.needsReview
    typesafeCalls := count JobDomain.typesafeCalled
    tokensPerDomain := if fetched ≠ 0 then round (divide tokens fetched) else 0
    phones := count JobDomain.hasPhone
    contactForms := count JobDomain.hasForm
    linkedin := count JobDomain.hasLinkedin
    uniqueDomains := count fun _ => true
    done := done
    running := count fun r => decide (r.state = .running)
    retrying := count fun r => decide (r.state = .queued) && decide (0 < r.attempts)
    failed := count (isDoneAs .fetchFailed)
    found := found
    cached := count JobDomain.fromCache
    jinaTokens := tokens
    hitRateSoFar := if done ≠ 0 then divide found done else .fin 0 }

section Aggregates

variable {s s' : Store} {j : JobId} {p q : JobDomain → Bool}

theorem mem_countWhere {k : Key} : k ∈ s.rowsWhere (fun j' r => decide (j' = j) && p r) ↔
    ∃ d, k = .row j d ∧ .row j d ∈ s.rows ∧ p (s.row j d) = true := by
  rw [Store.mem_rowsWhere]
  constructor
  · rintro ⟨j', d, rfl, hmem, hp⟩
    rw [Bool.and_eq_true, decide_eq_true_eq] at hp
    obtain ⟨rfl, hp⟩ := hp
    exact ⟨d, rfl, hmem, hp⟩
  · rintro ⟨d, rfl, hmem, hp⟩
    exact ⟨j, d, rfl, hmem, by simp [hp]⟩

theorem countWhere_le (h : ∀ d, .row j d ∈ s.rows → p (s.row j d) = true →
    q (s.row j d) = true) : countWhere s j p ≤ countWhere s j q := by
  refine Finset.card_le_card fun k hk => ?_
  obtain ⟨d, rfl, hmem, hp⟩ := mem_countWhere.mp hk
  exact mem_countWhere.mpr ⟨d, rfl, hmem, h d hmem hp⟩

theorem countWhere_congr (h : ∀ d, .row j d ∈ s.rows → p (s.row j d) = q (s.row j d)) :
    countWhere s j p = countWhere s j q :=
  le_antisymm (countWhere_le fun d hmem hp => h d hmem ▸ hp)
    (countWhere_le fun d hmem hq => (h d hmem).symm ▸ hq)

theorem countWhere_or (h : ∀ r, p r = true → q r = false) :
    countWhere s j (fun r => p r || q r) = countWhere s j p + countWhere s j q := by
  unfold countWhere
  rw [← Finset.card_union_of_disjoint]
  · congr 1
    ext k
    rw [Finset.mem_union, mem_countWhere, mem_countWhere, mem_countWhere]
    simp only [Bool.or_eq_true, and_or_left, exists_or]
  · rw [Finset.disjoint_left]
    intro k hp hq
    obtain ⟨d, rfl, -, hp⟩ := mem_countWhere.mp hp
    obtain ⟨d', hk, -, hq⟩ := mem_countWhere.mp hq
    cases hk
    rw [h _ hp] at hq
    cases hq

theorem countWhere_eq_zero : countWhere s j p = 0 ↔
    ∀ d, .row j d ∈ s.rows → p (s.row j d) = false := by
  rw [countWhere, Finset.card_eq_zero, Finset.eq_empty_iff_forall_notMem]
  constructor
  · intro h d hmem
    rw [← Bool.not_eq_true]
    exact fun hp => h (.row j d) (mem_countWhere.mpr ⟨d, rfl, hmem, hp⟩)
  · intro h k hk
    obtain ⟨d, -, hmem, hp⟩ := mem_countWhere.mp hk
    rw [h d hmem] at hp
    cases hp

theorem countWhere_true_congr (h : ∀ d, .row j d ∈ s'.rows ↔ .row j d ∈ s.rows) :
    countWhere s' j (fun _ => true) = countWhere s j fun _ => true := by
  unfold countWhere
  congr 1
  ext k
  rw [mem_countWhere, mem_countWhere]
  simp only [h]

theorem sum_countWhere_isDoneAs {sts : List Status} (hnodup : sts.Nodup) :
    (sts.map fun status => countWhere s j (isDoneAs status)).sum =
      countWhere s j fun r =>
        isDone r && sts.any fun status => decide (r.status = some status) := by
  induction sts with
  | nil => exact (countWhere_eq_zero.mpr fun d _ => Bool.and_false _).symm
  | cons status sts ih =>
    obtain ⟨hnotMem, hnodup⟩ := nodup_cons.mp hnodup
    rw [map_cons, sum_cons, ih hnodup, ← countWhere_or]
    · refine countWhere_congr fun d _ => ?_
      rw [any_cons, Bool.and_or_distrib_left]
      rfl
    · intro r hr
      rw [isDoneAs, Bool.and_eq_true, decide_eq_true_eq] at hr
      rw [Bool.and_eq_false_iff, any_eq_false]
      refine .inr fun status' hmem => ?_
      rw [hr.2, decide_eq_true_eq, Option.some.injEq]
      rintro rfl
      exact hnotMem hmem

theorem sum_filter_ne_zero (l : List (Status × ℕ)) :
    ((l.filter fun e => decide (e.2 ≠ 0)).map Prod.snd).sum = (l.map Prod.snd).sum := by
  induction l with
  | nil => rfl
  | cons e l ih =>
    by_cases he : e.2 = 0
    · simp [he, ← ih]
    · simp [he, ← ih]

theorem sum_byStatus (h : ∀ d, .row j d ∈ s.rows → (s.row j d).state = .done →
    (s.row j d).status.isSome = true) :
    ((byStatus s j).map Prod.snd).sum = countWhere s j isDone := by
  rw [byStatus, sum_filter_ne_zero, map_map]
  refine (sum_countWhere_isDoneAs (by decide)).trans (countWhere_congr fun d hmem => ?_)
  rw [Bool.and_eq_left_iff_imp]
  intro hdone
  obtain ⟨status, hstatus⟩ := Option.isSome_iff_exists.mp (h d hmem (of_decide_eq_true hdone))
  rw [any_eq_true]
  exact ⟨status, by cases status <;> decide, by simp [hstatus]⟩

end Aggregates

/-! ## What the counters satisfy -/

/-- The counters that ask for a state agree with one another. -/
structure JobCounts.Consistent (c : JobCounts) : Prop where
  statuses : (c.byStatus.map Prod.snd).sum = c.done
  outcomes : c.found + c.failed ≤ c.done
  states : c.done + c.running + c.retrying ≤ c.uniqueDomains

structure JobCounts.WithinDone (c : JobCounts) : Prop where
  cached : c.cached ≤ c.done
  needsReview : c.needsReview ≤ c.done
  typesafeCalls : c.typesafeCalls ≤ c.done
  phones : c.phones ≤ c.done
  contactForms : c.contactForms ≤ c.done
  linkedin : c.linkedin ≤ c.done

/-- The columns that are counted whatever the state of the row. -/
def flags (r : JobDomain) : List Bool :=
  [r.fromCache, r.needsReview, r.typesafeCalled, r.hasPhone, r.hasForm, r.hasLinkedin]

def Unflagged (r : JobDomain) : Prop := ∀ b ∈ flags r, b = false

instance (r : JobDomain) : Decidable (Unflagged r) :=
  List.decidableBAll (fun b => b = false) (flags r)

structure RowsSound (s : System) : Prop where
  parent : ∀ j d, .row j d ∈ s.store.rows → .job j ∈ s.store.rows
  status : ∀ j d, .row j d ∈ s.store.rows → (s.store.row j d).state = .done →
    (s.store.row j d).status.isSome = true

/-- The rows of the job that are not finished have none of the counted columns set. -/
def LiveUnflagged (j : JobId) (s : System) : Prop := ∀ d, .row j d ∈ s.store.rows →
  (s.store.row j d).state ≠ .done → Unflagged (s.store.row j d)

section

variable {divide : ℤ → ℤ → PyFloat} {round : PyFloat → ℤ} {items : List JobItem}
  {s s' : System} {m : JobMove} {j : JobId} {d : Str}

theorem consistent (h : RowsSound s) (j : JobId) :
    (jobCounts divide round s.store items j).Consistent where
  statuses := sum_byStatus fun d => h.status j d
  outcomes := by
    change countWhere s.store j _ + countWhere s.store j _ ≤ countWhere s.store j _
    rw [← countWhere_or]
    · refine countWhere_le fun d _ hp => ?_
      rw [isDoneAs, isDoneAs, ← Bool.and_or_distrib_left, Bool.and_eq_true] at hp
      exact hp.1
    · intro r hr
      rw [isDoneAs, Bool.and_eq_true, decide_eq_true_eq] at hr
      simp [isDoneAs, hr.2]
  states := by
    change countWhere s.store j _ + countWhere s.store j _ + countWhere s.store j _ ≤
      countWhere s.store j _
    rw [← countWhere_or, ← countWhere_or]
    · exact countWhere_le fun _ _ _ => rfl
    · intro r hr
      rw [Bool.or_eq_true, isDone, decide_eq_true_eq, decide_eq_true_eq] at hr
      rcases hr with hr | hr <;> simp [hr]
    · intro r hr
      rw [isDone, decide_eq_true_eq] at hr
      simp [hr]

theorem withinDone (h : LiveUnflagged j s) :
    (jobCounts divide round s.store items j).WithinDone := by
  have hle : ∀ p : JobDomain → Bool, (∀ r, p r ∈ flags r) →
      countWhere s.store j p ≤ countWhere s.store j isDone := by
    intro p hp
    refine countWhere_le fun d hmem hd => ?_
    by_contra hlive
    rw [h d hmem (by simpa [isDone] using hlive) _ (hp _)] at hd
    cases hd
  constructor <;> exact hle _ fun r => by simp [flags]

/-! ## Steps -/

/-- A row after a transaction is new, untouched by the creation of another job, or what an
operation of the queue makes of it. -/
theorem row_step (hsound : RowsSound s) (hstep : JobStep s m s')
    (hmem : .row j d ∈ s'.store.rows) :
    (∃ i now, s'.store.row j d = { seq := i, availableAt := now }) ∨
      .row j d ∈ s.store.rows ∧ s'.store.row j d = s.store.row j d ∨
      .row j d ∈ s.store.rows ∧
        ∃ a, m = .queue a ∧ RowChange s.store a j d (s'.store.row j d) := by
  cases systemChange hstep with
  | @create now clock j' a hfresh =>
    by_cases hj : j = j'
    · subst hj
      rcases row_mem_createJob_self.mp hmem with hd | hold
      · obtain ⟨i, hi⟩ := mem_iff_getElem?.mp hd
        exact .inl ⟨i, now, row_createJob_self hi⟩
      · exact absurd (hsound.parent j d hold) hfresh
    · exact .inr (.inl ⟨(row_createJob hj).2.mp hmem, (row_createJob hj).1⟩)
  | queue hop =>
    obtain ⟨henabled, rfl⟩ := opStep_cases hop
    have hold := (row_mem_apply henabled.2.2).mp hmem
    exact .inr (.inr ⟨hold, _, rfl, rowChange henabled hold⟩)

theorem job_mem_step (hstep : JobStep s m s') (hmem : .job j ∈ s.store.rows) :
    .job j ∈ s'.store.rows := by
  cases systemChange hstep with
  | create _ => exact job_mem_createJob.mpr (.inr hmem)
  | queue hop =>
    obtain ⟨henabled, rfl⟩ := opStep_cases hop
    exact (mem_rows_apply henabled.2.2).mpr (.inl hmem)

theorem status_of_rowChange {s : Store} {a : Action} {r : JobDomain}
    (h : RowChange s a j d r) (hold : (s.row j d).state = .done → (s.row j d).status.isSome = true)
    (hdone : r.state = .done) : r.status.isSome = true := by
  cases h with
  | same => exact hold hdone
  | finish => rfl
  | beat => exact hold hdone
  | _ => cases hdone

theorem RowsSound.step (h : RowsSound s) (hstep : JobStep s m s') : RowsSound s' where
  parent := by
    intro j d hmem
    cases systemChange hstep with
    | @create now clock j' a hfresh =>
      by_cases hj : j = j'
      · exact job_mem_createJob.mpr (.inl hj)
      · exact job_mem_createJob.mpr (.inr (h.parent j d ((row_createJob hj).2.mp hmem)))
    | queue hop =>
      obtain ⟨henabled, rfl⟩ := opStep_cases hop
      exact (mem_rows_apply henabled.2.2).mpr
        (.inl (h.parent j d ((row_mem_apply henabled.2.2).mp hmem)))
  status := by
    intro j d hmem hdone
    rcases row_step h hstep hmem with ⟨i, now, hrow⟩ | ⟨hold, hrow⟩ | ⟨hold, a, -, hchange⟩
    · rw [hrow] at hdone
      cases hdone
    · rw [hrow] at hdone ⊢
      exact h.status j d hold hdone
    · exact status_of_rowChange hchange (h.status j d hold) hdone

def JobMove.retries (j : JobId) : JobMove → Bool
  | .queue a => decide (a.op = .requeueFailed j)
  | _ => false

/-- A `requeue_failed` of the job puts back no row with one of the counted columns set. -/
def PlainRetries (j : JobId) (s : System) (m : JobMove) : Prop :=
  m.retries j = true →
    countWhere s.store j (fun r => r.retryable && decide (¬ Unflagged r)) = 0

instance (j : JobId) (s : System) (m : JobMove) : Decidable (PlainRetries j s m) :=
  inferInstanceAs (Decidable (_ → _))

theorem flags_of_rowChange {s : Store} {a : Action} {r : JobDomain} (h : RowChange s a j d r) :
    r.state = .done ∨ flags r = flags (s.row j d) := by
  cases h with
  | finish => exact .inl rfl
  | _ => exact .inr rfl

theorem LiveUnflagged.step (hsound : RowsSound s) (h : LiveUnflagged j s)
    (hplain : PlainRetries j s m) (hstep : JobStep s m s') : LiveUnflagged j s' := by
  intro d hmem hlive
  rcases row_step hsound hstep hmem with ⟨i, now, hrow⟩ | ⟨hold, hrow⟩ | ⟨hold, a, rfl, hchange⟩
  · rw [hrow]
    simp [Unflagged, flags]
  · rw [hrow] at hlive ⊢
    exact h d hold hlive
  · have hflags := (flags_of_rowChange hchange).resolve_left hlive
    unfold Unflagged
    rw [hflags]
    by_cases hdone : (s.store.row j d).state = .done
    · rcases hchange.of_done hdone with hsame | ⟨hop, hretryable⟩
      · rw [hsame] at hlive
        exact absurd hdone hlive
      · have hnone := countWhere_eq_zero.mp (hplain (decide_eq_true hop)) d hold
        rw [hretryable, Bool.true_and, decide_eq_false_iff_not, not_not] at hnone
        exact hnone
    · exact h d hold hdone

theorem uniqueDomains_step (hstep : JobStep s m s') (hjob : .job j ∈ s.store.rows) :
    countWhere s'.store j (fun _ => true) = countWhere s.store j fun _ => true := by
  refine countWhere_true_congr fun d => ?_
  cases systemChange hstep with
  | @create now clock j' a hfresh =>
    have hj : j ≠ j' := by
      rintro rfl
      exact hfresh hjob
    exact (row_createJob hj).2
  | queue hop =>
    obtain ⟨henabled, rfl⟩ := opStep_cases hop
    exact row_mem_apply henabled.2.2

/-! ## Runs -/

/-- The runs from a database, empty or not, whose finished rows have a status and whose
other rows have none of the counted columns set. -/
abbrev CountsRun := Run (fun s => RowsSound s ∧ ∀ j, LiveUnflagged j s) JobStep

/-- In every run the counters that ask for a state agree, and the number of domains of a
job stays what it was when the job was created. The counters of the columns are at most the
finished rows as long as no retry of the job puts back a row with such a column set. -/
theorem job_counts_consistent (divide : ℤ → ℤ → PyFloat) (round : PyFloat → ℤ)
    (items : List JobItem) {h : List (System × JobMove)} {s : System} (hrun : CountsRun h s)
    (j : JobId) :
    (jobCounts divide round s.store items j).Consistent ∧
      Along (fun _ s _ s' => .job j ∈ s.store.rows → .job j ∈ s'.store.rows ∧
        (jobCounts divide round s'.store items j).uniqueDomains =
          (jobCounts divide round s.store items j).uniqueDomains) h s ∧
      (Guarded (PlainRetries j) h → (jobCounts divide round s.store items j).WithinDone) := by
  have hsound : RowsSound s := hrun.always (fun _ hs => hs.1) fun _ _ _ hs hstep => hs.step hstep
  refine ⟨consistent hsound j, ?_, fun hplain => withinDone ?_⟩
  · exact hrun.along_step fun _ s m s' hstep hjob =>
      ⟨job_mem_step hstep hjob, uniqueDomains_step hstep hjob⟩
  · have hinv : RowsSound s ∧ LiveUnflagged j s := by
      refine Run.invariant (I := fun s => RowsSound s ∧ LiveUnflagged j s) ?_ ?_ hrun hplain
      · exact fun _ hs => ⟨hs.1, hs.2 j⟩
      · exact fun _ _ _ hs hok hstep => ⟨hs.1.step hstep, hs.2.step hs.1 hok hstep⟩
    exact hinv.2

end

namespace RetriedCount

/-- The domain cannot be fetched; the failure comes from the cache or not, and is retried. -/
def retried (fromCache : Bool) : List JobMove :=
  [.create 0 0 0 OneJob.job,
    .queue ⟨1, .claim "w".toList [⟨0, "x".toList, "a".toList⟩]⟩,
    .queue ⟨9, .finish ⟨0, "a".toList, 1, "w|x".toList, none⟩ OneJob.failure fromCache true⟩,
    .queue ⟨20, .requeueFailed 0⟩]

theorem start_sound : RowsSound OneJob.start ∧ ∀ j, LiveUnflagged j OneJob.start := by
  refine ⟨⟨fun j d hmem => ?_, fun j d hmem => ?_⟩, fun j d hmem => ?_⟩ <;>
    exact absurd hmem (Finset.notMem_empty _)

def doneAndCached (s : System) : ℕ × ℕ :=
  (countWhere s.store 0 isDone, countWhere s.store 0 JobDomain.fromCache)

end RetriedCount

/-- A failure that was fetched is retried. -/
theorem fetched_failure_counts : ∃ h s, CountsRun h s ∧ h.length = 4 ∧
    Guarded (PlainRetries 0) h ∧
    (jobCounts (fun _ _ => .nan) (fun _ => 0) s.store [] 0).Consistent ∧
    (jobCounts (fun _ _ => .nan) (fun _ => 0) s.store [] 0).WithinDone := by
  obtain ⟨h, s, hrun, hlength, hplain⟩ := Run.exists_of_exec
    (fun s => RowsSound s ∧ ∀ j, LiveUnflagged j s) jobStep OneJob.start
    RetriedCount.start_sound (RetriedCount.retried false)
    (fun p => p.1.length = 4 ∧ (p.1.all fun x => decide (PlainRetries 0 x.1 x.2)) = true)
    (by decide +kernel)
  have hguarded : Guarded (PlainRetries 0) h :=
    fun x hx => of_decide_eq_true (all_eq_true.mp hplain x hx)
  obtain ⟨hconsistent, -, hwithin⟩ :=
    job_counts_consistent (fun _ _ => .nan) (fun _ => 0) [] hrun 0
  exact ⟨h, s, hrun, hlength, hguarded, hconsistent, hwithin hguarded⟩

/-- A failure from the cache that is retried still counts as cached, but not as done. -/
theorem cached_failure_counts : ∃ h s, CountsRun h s ∧
    (jobCounts (fun _ _ => .nan) (fun _ => 0) s.store [] 0).done = 0 ∧
    (jobCounts (fun _ _ => .nan) (fun _ => 0) s.store [] 0).cached = 1 := by
  obtain ⟨h, s, hrun, hcounts⟩ := Run.exists_of_exec
    (fun s => RowsSound s ∧ ∀ j, LiveUnflagged j s) jobStep OneJob.start
    RetriedCount.start_sound (RetriedCount.retried true)
    (fun p => RetriedCount.doneAndCached p.2 = (0, 1)) (by decide +kernel)
  exact ⟨h, s, hrun, congrArg Prod.fst hcounts, congrArg Prod.snd hcounts⟩

end Jobs

end EmailExtractor
