import EmailExtractor.Queue.Locks
import EmailExtractor.Worker.Starts

/-!
# A handler gives back what it took

A handler that is over holds no row and no lock, whatever `process_domain` did and
whoever took its row meanwhile. The lock of a domain belongs to a handler between its
`lock_domain` and its `unlock_domain` or `finish`, or to one that died; a row belongs to
a handler that is not over. Both follow from what the points of a handler can lead to,
as nobody else comes with its token.
-/

namespace EmailExtractor

namespace Worker

open Queue List

/-- The points between `lock_domain` and `unlock_domain` or `finish`. -/
def Point.holdsLock : Point → Bool
  | .locked => true
  | .cleared => true
  | .fetching => true
  | .pausing => true
  | .unlocking _ => true
  | .finishing _ _ fromCache writeCache => !fromCache && writeCache
  | _ => false

/-- The points after the row has been given back. -/
def Point.returned : Point → Bool
  | .notifying => true
  | .over => true
  | _ => false

/-- The operations with a claim are those of its handler. -/
def OwnCalls (_ : World) (m : Tick) : Prop := ∀ a, m.move = .env a → a.op.caller = none

instance (w : World) (m : Tick) : Decidable (OwnCalls w m) :=
  match hm : m.move with
  | .env a => decidable_of_iff (a.op.caller = none) (by simp [OwnCalls, hm])
  | .step _ | .ends _ _ | .raises _ | .die _ => isTrue (by simp [OwnCalls, hm])

/-- Any store whose rows belong to jobs, with any locks; the claims handed out before
are those of handlers that are gone. -/
structure Begun (w : World) : Prop where
  sane : Sane w.sys
  jobs : ∀ j d, .row j d ∈ w.sys.store.rows → .job j ∈ w.sys.store.rows
  locks : ∀ d, .domain d ∈ w.sys.store.rows → ∀ tok ∈ (w.sys.store.domain d).lockOwner,
    ∃ c ∈ w.sys.claims, c.token = tok ∧ c.domain = d
  gone : ∀ c ∈ w.sys.claims, w.points c = .dead
  points : ∀ c, c ∉ w.sys.claims → w.points c = .ready

/-- Locks and rows belong to handlers that can still give them back, or that died. -/
structure Held (w : World) : Prop where
  sane : Sane w.sys
  jobs : ∀ j d, .row j d ∈ w.sys.store.rows → .job j ∈ w.sys.store.rows
  locks : ∀ d, .domain d ∈ w.sys.store.rows → ∀ tok ∈ (w.sys.store.domain d).lockOwner,
    ∃ c ∈ w.sys.claims, c.token = tok ∧ c.domain = d ∧
      ((w.points c).holdsLock = true ∨ w.points c = .dead)
  rows : ∀ c ∈ w.sys.claims, (w.points c).returned = true →
    ∀ j d, .row j d ∈ w.sys.store.rows → (w.sys.store.row j d).claimedBy ≠ some c.token
  points : ∀ c, c ∉ w.sys.claims → w.points c = .ready

theorem Begun.held {w : World} (h : Begun w) : Held w := by
  constructor
  case sane => exact h.sane
  case jobs => exact h.jobs
  case locks =>
    intro d hmem tok htok
    obtain ⟨c, hc, hcTok, hcd⟩ := h.locks d hmem tok htok
    exact ⟨c, hc, hcTok, hcd, .inr (h.gone c hc)⟩
  case rows =>
    intro c hc hreturned
    simp [h.gone c hc, Point.returned] at hreturned
  case points => exact h.points

section

variable {cfg : Config} {w w' : World} {m : Tick} {a : Action} {c : Claim}

/-! ## Whose operations -/

theorem mem_caller_of_unlocks {op : Op} (h : c ∈ op.unlocks) : c ∈ op.caller := by
  cases op <;> simp [Op.unlocks] at h <;> simp [Op.caller, h]

theorem step_of_caller (hown : OwnCalls w m) (ha : queueAction cfg w m = some a)
    (hc : c ∈ a.op.caller) : m.move = .step c := by
  obtain ⟨time, move⟩ := m
  cases move with
  | env a' =>
    simp only [queueAction, Option.some.injEq] at ha
    rw [← ha, hown a' rfl] at hc
    simp at hc
  | step c' =>
    simp only [queueAction] at ha
    cases hp : w.points c' <;> simp only [hp, Point.action, Option.some.injEq, reduceCtorEq] at ha
    all_goals
      rw [← ha] at hc
      simp only [Op.caller, Option.mem_def, Option.some.injEq, reduceCtorEq] at hc
      try rw [hc]
  | ends c' o | raises c' | die c' => simp [queueAction] at ha

/-! ## Where the points lead -/

theorem lookAgain_holdsLock (cfg : Config) (s : Store) (time : Time) (c : Claim) :
    (lookAgain cfg s time c).holdsLock = true := by
  unfold lookAgain
  split <;> rfl

theorem afterFetch_holdsLock (cfg : Config) (time : Time) (c : Claim) (o : Outcome) :
    (afterFetch cfg time c o).holdsLock = true := by
  cases o with
  | result r =>
    simp only [afterFetch]
    split <;> rfl
  | accountError keyChanged => cases keyChanged <;> rfl
  | error => rfl

theorem holdsLock_change {p : Point} (hchange : PointChange cfg w m c p)
    (h : (w.points c).holdsLock = true ∨ w.points c = .dead) :
    (p.holdsLock = true ∨ p = .dead) ∨
      ∃ a, queueAction cfg w m = some a ∧ c ∈ a.op.unlocks := by
  cases hchange with
  | same _ => exact .inl h
  | ends _ _ => exact .inl (.inl (afterFetch_holdsLock ..))
  | raised _ _ => exact .inl (.inl rfl)
  | die _ => exact .inl (.inr rfl)
  | step hmove hnext =>
    cases hp : w.points c with
    | locked =>
      simp only [hp, Point.next, Option.some.injEq] at hnext
      exact .inl (.inl (hnext ▸ lookAgain_holdsLock ..))
    | cleared | pausing =>
      simp only [hp, Point.next, Option.some.injEq] at hnext
      exact .inl (.inl (hnext ▸ rfl))
    | unlocking next =>
      refine .inr ⟨⟨m.time, .unlockDomain c⟩, ?_, by simp [Op.unlocks]⟩
      simp [queueAction, hmove, hp, Point.action]
    | finishing began r fromCache writeCache =>
      refine .inr ⟨⟨began, .finish c r fromCache writeCache⟩, ?_, by simp [Op.unlocks]⟩
      simp [queueAction, hmove, hp, Point.action]
    | fetching | dead => simp [hp, Point.next] at hnext
    | _ => simp [hp, Point.holdsLock] at h

theorem not_returned_of_holdsLock {p : Point} (h : p.holdsLock = true) : p.returned = false := by
  cases p <;> simp [Point.holdsLock] at h <;> rfl

/-- A handler comes to its end in giving its row back, or because its job is gone. -/
theorem returned_change {p : Point} (hchange : PointChange cfg w m c p)
    (hreturned : p.returned = true) :
    (w.points c).returned = true ∨
      (∃ a, queueAction cfg w m = some a ∧ c ∈ a.op.returns) ∨
      .job c.jobId ∉ w.sys.store.rows := by
  cases hchange with
  | same _ => exact .inl hreturned
  | ends _ _ => simp [not_returned_of_holdsLock (afterFetch_holdsLock ..)] at hreturned
  | raised _ _ => simp [afterRaise, Point.returned] at hreturned
  | die _ => simp [Point.returned] at hreturned
  | step hmove hnext =>
    cases hp : w.points c with
    | ready =>
      simp only [hp, Point.next, look, Option.some.injEq] at hnext
      split at hnext
      · rename_i hgone
        exact .inr (.inr hgone)
      · split at hnext
        · simp [← hnext, Point.returned] at hreturned
        · split at hnext <;> simp [← hnext, Point.returned] at hreturned
    | locking began =>
      simp only [hp, Point.next, Option.some.injEq] at hnext
      split at hnext <;> simp [← hnext, Point.returned] at hreturned
    | locked =>
      simp only [hp, Point.next, Option.some.injEq] at hnext
      simp [← hnext, not_returned_of_holdsLock (lookAgain_holdsLock ..)] at hreturned
    | cleared | pausing =>
      simp only [hp, Point.next, Option.some.injEq] at hnext
      simp [← hnext, Point.returned] at hreturned
    | fetching => simp [hp, Point.next] at hnext
    | unlocking next =>
      simp only [hp, Point.next, Option.some.injEq] at hnext
      cases next <;> simp [← hnext, AfterUnlock.point, Point.returned] at hreturned
    | requeuing why =>
      refine .inr (.inl ⟨⟨m.time, .requeue c (why.delay cfg) why.countAttempt⟩, ?_,
        by simp [Op.returns]⟩)
      simp [queueAction, hmove, hp, Point.action]
    | recording r =>
      refine .inr (.inl ⟨⟨m.time, .finish c r true true⟩, ?_, by simp [Op.returns]⟩)
      simp [queueAction, hmove, hp, Point.action]
    | finishing began r fromCache writeCache =>
      refine .inr (.inl ⟨⟨began, .finish c r fromCache writeCache⟩, ?_,
        by simp [Op.returns]⟩)
      simp [queueAction, hmove, hp, Point.action]
    | dead => simp [hp, Point.next] at hnext
    | _ => exact .inl rfl

theorem point_of_not_claimed (henabled : m.Enabled cfg w) (hc : c ∉ w.sys.claims) :
    nextPoints cfg w m c = w.points c := by
  have hchange := pointChange henabled c
  obtain ⟨_, _, hclaim⟩ := henabled
  generalize nextPoints cfg w m c = p at hchange ⊢
  cases hchange with
  | same _ => rfl
  | step hmove _ | ends hmove _ | raised hmove _ =>
    rw [hmove] at hclaim
    exact absurd hclaim.1 hc
  | die hmove =>
    rw [hmove] at hclaim
    exact absurd hclaim hc

/-! ## Owners of locks and rows -/

theorem lockOwner_cases {s : System} {d tok : Str} (hpossible : a.op.Possible a.now s.store)
    (hmem : .domain d ∈ (a.op.apply a.now s.store).rows)
    (htok : ((a.op.apply a.now s.store).domain d).lockOwner = some tok) :
    (∃ c, a.op = .lockDomain c ∧ c.domain = d ∧ (lockDomain s.store a.now c).2 = true ∧
        c.token = tok) ∨
      (.domain d ∈ s.store.rows ∧ (s.store.domain d).lockOwner = some tok ∧
        ∀ c ∈ a.op.unlocks, c.domain = d → c.token ≠ tok) := by
  by_cases hold : Key.domain d ∈ s.store.rows
  · have hchange := domainChange s.store a hpossible d
    generalize (a.op.apply a.now s.store).domain d = row at hchange htok
    cases hchange with
    | same hkeep =>
      refine .inr ⟨hold, htok, ?_⟩
      rintro c hc hd rfl
      exact hkeep hold c hc hd htok
    | @lock c hop hd hgot hfree =>
      simp only [DomainRow.locked, Option.some.injEq] at htok
      exact .inl ⟨c, hop, hd, hgot, htok⟩
    | unlock _ _ _ => simp [DomainRow.unlocked] at htok
    | @finish c result fromCache writeCache hop hd hrec =>
      rw [DomainRow.lockOwner_finishedBy] at htok
      split at htok
      · simp at htok
      · rename_i hne
        refine .inr ⟨hold, htok, ?_⟩
        rintro c' hc' hd' rfl
        simp only [hop, Op.unlocks, Option.mem_def, Option.some.injEq] at hc'
        exact hne (hc' ▸ htok)
    | renew hop _ => exact .inr ⟨hold, htok, by simp [hop, Op.unlocks]⟩
    | release _ _ => simp [DomainRow.unlocked] at htok
  · -- a row that was not there is inserted and locked by one `lock_domain`
    rcases (mem_rows_apply hpossible).mp hmem with hmem | ⟨c, hop, hd⟩
    · exact absurd hmem hold
    · simp only [Key.domain.injEq] at hd
      subst hd
      have hgot : (lockDomain s.store a.now c).2 = true := by
        rw [lockDomain_got, Store.domainOrNew, if_neg hold]
        rfl
      have howner := (lockOwner_got hgot).2
      rw [hop, Op.apply, howner, Option.some.injEq] at htok
      exact .inl ⟨c, hop, rfl, hgot, htok⟩

theorem claimedBy_cases {s : Store} {j : JobId} {d tok : Str} {r : JobDomain}
    (hchange : RowChange s a j d r) (htok : r.claimedBy = some tok) :
    (∃ c, a.op.claimed a.now s = some c ∧ c.token = tok) ∨
      ((s.row j d).claimedBy = some tok ∧
        ∀ c ∈ a.op.returns, c.owns j d (s.row j d) = false) := by
  cases hchange with
  | same _ _ _ hkeep => exact .inr ⟨htok, hkeep⟩
  | @claim _ _ c _ hclaimed =>
    simp only [JobDomain.claimed, Option.some.injEq] at htok
    exact .inl ⟨c, hclaimed, htok⟩
  | requeue _ _ => simp [JobDomain.requeued] at htok
  | finish _ _ => simp [JobDomain.finished] at htok
  | beat hop _ => exact .inr ⟨htok, by simp [hop, Op.returns]⟩
  | reap _ _ => simp [JobDomain.reaped] at htok
  | release _ _ => simp [JobDomain.released] at htok
  | retry _ _ => simp [JobDomain.requeuedFailed] at htok

/-! ## The invariant -/

theorem locked_of_lockDomain (hown : OwnCalls w m) (henabled : m.Enabled cfg w)
    (ha : queueAction cfg w m = some a) (hop : a.op = .lockDomain c)
    (hgot : (lockDomain w.sys.store a.now c).2 = true) : nextPoints cfg w m c = .locked := by
  have hmove := step_of_caller hown ha (c := c) (by simp [hop, Op.caller])
  have hchange := pointChange henabled c
  generalize nextPoints cfg w m c = p at hchange ⊢
  simp only [queueAction, hmove] at ha
  cases hchange with
  | same hstill => exact absurd hmove hstill
  | ends hmove' _ | raised hmove' _ | die hmove' => simp [hmove] at hmove'
  | step _ hnext =>
    cases hp : w.points c <;> simp only [hp, Point.action, Option.some.injEq, reduceCtorEq] at ha
    case locking began =>
      subst ha
      simp only [hp, Point.next, hgot, if_true, Option.some.injEq] at hnext
      exact hnext.symm
    all_goals simp [← ha] at hop

theorem Held.job_mem (h : Held w) (hc : c ∈ w.sys.claims) {j : JobId} {d : Str}
    (hmem : .row j d ∈ w.sys.store.rows)
    (htok : (w.sys.store.row j d).claimedBy = some c.token) : .job c.jobId ∈ w.sys.store.rows := by
  obtain ⟨_, hj, _⟩ := h.sane.holds hc hmem htok
  exact hj ▸ h.jobs j d hmem

theorem Held.step_idle (h : Held w) (henabled : m.Enabled cfg w)
    (hidle : queueAction cfg w m = none) : Held ⟨w.sys, nextPoints cfg w m, m.time⟩ := by
  constructor
  case sane => exact h.sane
  case jobs => exact h.jobs
  case locks =>
    intro d hmem tok htok
    obtain ⟨c, hc, hcTok, hcd, hpoint⟩ := h.locks d hmem tok htok
    refine ⟨c, hc, hcTok, hcd, ?_⟩
    rcases holdsLock_change (pointChange henabled c) hpoint with hafter | ⟨a, ha, _⟩
    · exact hafter
    · simp [hidle] at ha
  case rows =>
    intro c hc hreturned j d hmem htok
    rcases returned_change (pointChange henabled c) hreturned with hbefore | ⟨a, ha, _⟩ | hgone
    · exact h.rows c hc hbefore j d hmem htok
    · simp [hidle] at ha
    · exact hgone (h.job_mem hc hmem htok)
  case points =>
    intro c hc
    rw [← h.points c hc]
    exact point_of_not_claimed henabled hc

theorem Held.step_op (h : Held w) (hown : OwnCalls w m) (henabled : m.Enabled cfg w)
    (ha : queueAction cfg w m = some a) {s : System} (hstep : OpStep w.sys a s) :
    Held ⟨s, nextPoints cfg w m, m.time⟩ := by
  have hsane := sane_step h.sane hstep
  obtain ⟨hop, rfl⟩ := opStep_cases hstep
  obtain ⟨hcaller, hfresh, hpossible⟩ := hop
  have hnew : ∀ c, c ∉ (a.op.claimed a.now w.sys.store).toList ++ w.sys.claims →
      c ∉ w.sys.claims := fun c hc hold => hc (mem_append_right _ hold)
  constructor
  case sane => exact hsane
  case jobs =>
    intro j d hmem
    exact (mem_rows_apply hpossible).mpr (.inl (h.jobs j d ((row_mem_apply hpossible).mp hmem)))
  case locks =>
    intro d hmem tok htok
    rcases lockOwner_cases hpossible hmem htok with
      ⟨c, hlock, hcd, hgot, hcTok⟩ | ⟨hmem', htok', hkeep⟩
    · refine ⟨c, mem_append_right _ (hcaller c (by simp [hlock, Op.caller])), hcTok, hcd, ?_⟩
      have hlocked := locked_of_lockDomain hown henabled ha hlock hgot
      exact .inl (congrArg Point.holdsLock hlocked)
    · obtain ⟨c, hc, hcTok, hcd, hpoint⟩ := h.locks d hmem' tok htok'
      refine ⟨c, mem_append_right _ hc, hcTok, hcd, ?_⟩
      rcases holdsLock_change (pointChange henabled c) hpoint with hafter | ⟨a', ha', hunlocks⟩
      · exact hafter
      · rw [ha, Option.some.injEq] at ha'
        exact absurd hcTok (hkeep c (ha' ▸ hunlocks) hcd)
  case rows =>
    intro c hc hreturned j d hmem htok
    have hmem' := (row_mem_apply hpossible).mp hmem
    by_cases hold : c ∈ w.sys.claims
    · rcases claimedBy_cases (rowChange ⟨hcaller, hfresh, hpossible⟩ hmem') htok with
        ⟨c', hclaimed, hcTok⟩ | ⟨htok', hkeep⟩
      · exact hfresh c' hclaimed c hold hcTok.symm
      · rcases returned_change (pointChange henabled c) hreturned with
          hbefore | ⟨a', ha', hreturns⟩ | hgone
        · exact h.rows c hold hbefore j d hmem' htok'
        · rw [ha, Option.some.injEq] at ha'
          obtain ⟨_, hj, hd, _⟩ := h.sane.holds hold hmem' htok'
          have hrunning := (h.sane.rows j d hmem').running.mpr (by simp [htok'])
          have howns := Claim.owns_iff.mpr ⟨hj.symm, hd.symm, hrunning, htok'⟩
          simp [hkeep c (ha' ▸ hreturns)] at howns
        · exact hgone (h.job_mem hold hmem' htok')
    · -- the handler of a new claim has not begun
      have hready := (point_of_not_claimed henabled hold).trans (h.points c hold)
      have hnot := congrArg Point.returned hready
      exact absurd (hreturned.symm.trans hnot) (by simp [Point.returned])
  case points =>
    intro c hc
    rw [← h.points c (hnew c hc)]
    exact point_of_not_claimed henabled (hnew c hc)

theorem Held.step (h : Held w) (hown : OwnCalls w m) (hstep : WorldStep cfg w m w') : Held w' := by
  obtain ⟨henabled, hpoints, hclock, hcases⟩ := worldStep_cases hstep
  obtain ⟨s, points, clock⟩ := w'
  subst hpoints hclock
  rcases hcases with ⟨hidle, rfl⟩ | ⟨a, ha, hop⟩
  · exact h.step_idle henabled hidle
  · exact h.step_op hown henabled ha hop

/-! ## Attempts -/

def handsOut (c : Claim) (p : System × Action) : Bool :=
  decide (p.2.op.claimed p.2.now p.1.store = some c)

/-- The attempts of the row of a claim before it was made. -/
def attemptsBefore (c : Claim) (h : List (System × Action)) : Option ℤ :=
  (h.find? (handsOut c)).map fun p => (p.1.store.row c.jobId c.domain).attempts

theorem dead_stays {p : Point} (hchange : PointChange cfg w m c p) (hdead : w.points c = .dead) :
    p = .dead := by
  cases hchange with
  | same _ => exact hdead
  | step _ hnext => simp [hdead, Point.next] at hnext
  | ends _ hfetching => simp [hdead] at hfetching
  | raised _ hraises => simp [hdead, Point.raises] at hraises
  | die _ => rfl

/-- A claim made in the run carries one attempt more than its row had. -/
def Recorded (cfg : Config) (h : List (World × Tick)) (w : World) : Prop :=
  ∀ c ∈ w.sys.claims, w.points c = .dead ∨
    attemptsBefore c (queueHistory cfg h) = some (c.attempts - 1)

theorem Recorded.step {h : List (World × Tick)} (hrec : Recorded cfg h w)
    (hstep : WorldStep cfg w m w') : Recorded cfg ((w, m) :: h) w' := by
  obtain ⟨henabled, hpoints, _, hcases⟩ := worldStep_cases hstep
  intro c hc
  rw [hpoints]
  rcases hcases with ⟨hidle, hsys⟩ | ⟨a, ha, hop⟩
  · rw [hsys] at hc
    rw [queueHistory_cons_of_none hidle]
    exact (hrec c hc).imp_left (dead_stays (pointChange henabled c))
  · obtain ⟨⟨_, hfresh, hpossible⟩, hsys⟩ := opStep_cases hop
    rw [hsys] at hc
    rw [queueHistory_cons_of_some ha]
    rcases mem_append.mp hc with hnew | hold
    · rw [Option.mem_toList] at hnew
      right
      rw [attemptsBefore, List.find?_cons_of_pos (by simpa [handsOut] using hnew)]
      obtain ⟨-, -, -, -, -, -, -, hattempts⟩ := claimed_cases hpossible hnew
      exact congrArg some (eq_sub_of_add_eq hattempts.symm)
    · refine (hrec c hold).imp (dead_stays (pointChange henabled c)) fun hbefore => ?_
      have hother : ¬ handsOut c (w.sys, a) = true := by
        simp only [handsOut, decide_eq_true_eq]
        intro hclaimed
        exact hfresh c hclaimed c hold rfl
      rw [attemptsBefore, List.find?_cons_of_neg hother]
      exact hbefore

theorem requeued_row {why : Cause} (hstep : WorldStep cfg w m w') (hmove : m.move = .step c)
    (hp : w.points c = .requeuing why) (hmem : .row c.jobId c.domain ∈ w.sys.store.rows)
    (howns : c.owns c.jobId c.domain (w.sys.store.row c.jobId c.domain) = true) :
    (w'.sys.store.row c.jobId c.domain).state = .queued ∧
      (w'.sys.store.row c.jobId c.domain).attempts =
        (w.sys.store.row c.jobId c.domain).attempts - if why.countAttempt then 0 else 1 := by
  obtain ⟨_, _, _, hcases⟩ := worldStep_cases hstep
  have haction : queueAction cfg w m =
      some ⟨m.time, .requeue c (why.delay cfg) why.countAttempt⟩ := by
    simp [queueAction, hmove, hp, Point.action]
  rcases hcases with ⟨hidle, _⟩ | ⟨a, ha, hop⟩
  · simp [haction] at hidle
  · rw [haction, Option.some.injEq] at ha
    subst ha
    obtain ⟨henabled, hsys⟩ := opStep_cases hop
    have hchange := rowChange henabled hmem
    rw [hsys]
    generalize (Op.apply _ w.sys.store _).row c.jobId c.domain = r at hchange ⊢
    cases hchange with
    | same _ _ _ hkeep => simp [hkeep c (by simp [Op.returns])] at howns
    | requeue hop _ =>
      simp only [Op.requeue.injEq] at hop
      obtain ⟨_, _, rfl⟩ := hop
      exact ⟨rfl, rfl⟩
    | claim hop | finish hop | beat hop | reap hop | release hop | retry hop => simp at hop

end

/-- A handler that is over holds no row and no lock. A claim that still owns its row when
its handler puts the row back leaves it queued: with the attempts it had before the claim
when the lock was busy or the account of the provider exhausted, else with one more. -/
theorem handler_gives_back (cfg : Config) (h : List (World × Tick)) (w : World)
    (hrun : Transition.Run Begun (WorldStep cfg) h w) (hown : Transition.Guarded OwnCalls h) :
    (∀ c, w.points c = .over →
      (∀ j d, .row j d ∈ w.sys.store.rows →
        ¬ ((w.sys.store.row j d).state = .running ∧
          (w.sys.store.row j d).claimedBy = some c.token)) ∧
      ∀ d, .domain d ∈ w.sys.store.rows →
        (w.sys.store.domain d).lockOwner ≠ some c.token) ∧
    Transition.Along (fun h w m w' => ∀ c why, m.move = .step c → w.points c = .requeuing why →
      .row c.jobId c.domain ∈ w.sys.store.rows →
      c.owns c.jobId c.domain (w.sys.store.row c.jobId c.domain) = true →
      ∃ n, attemptsBefore c (queueHistory cfg h) = some n ∧
        (w'.sys.store.row c.jobId c.domain).state = .queued ∧
        (w'.sys.store.row c.jobId c.domain).attempts =
          if why = .lockBusy ∨ why = .account then n else n + 1) h w := by
  constructor
  · have hheld : Held w := hrun.invariant (fun _ hw => hw.held)
      (fun _ _ _ hw hok hs => hw.step hok hs) hown
    intro c hover
    have hc : c ∈ w.sys.claims := by
      by_contra hc
      simp [hheld.points c hc] at hover
    constructor
    · rintro j d hmem ⟨_, htok⟩
      exact hheld.rows c hc (by rw [hover]; rfl) j d hmem htok
    · intro d hmem htok
      obtain ⟨c', hc', hcTok, _, hpoint⟩ := hheld.locks d hmem c.token htok
      rw [inj_on_of_nodup_map hheld.sane.tokens hc' hc hcTok, hover] at hpoint
      simp [Point.holdsLock] at hpoint
  · refine hrun.along_history (I := fun h w => Held w ∧ Recorded cfg h w) ?_ ?_ ?_ hown
    · exact fun w hw => ⟨hw.held, fun c hc => .inl (hw.gone c hc)⟩
    · exact fun h w m w' hi hok hs => ⟨hi.1.step hok hs, hi.2.step hs⟩
    · intro h w m w' hi hok hs c why hmove hp hmem howns
      obtain ⟨hstate, hattempts⟩ := requeued_row hs hmove hp hmem howns
      have hc : c ∈ w.sys.claims := by
        by_contra hc
        simp [hi.1.points c hc] at hp
      have hbefore := (hi.2 c hc).resolve_left (by simp [hp])
      obtain ⟨_, _, _, hcount⟩ := hi.1.sane.holds hc hmem (Claim.owns_iff.mp howns).2.2.2
      refine ⟨c.attempts - 1, hbefore, hstate, ?_⟩
      rw [hattempts, ← hcount]
      cases why <;> simp [Cause.countAttempt]

namespace BusyLock

def world : World := ⟨⟨SharedDomain.store, []⟩, fun _ => .ready, 0⟩

theorem world_begun : Begun world := by
  constructor
  case sane =>
    refine ⟨nodup_nil, fun j d _ => rowSane_of_unclaimed ?_ rfl le_rfl⟩
    simp [world, SharedDomain.store, Store.row, Store.blank]
  case jobs =>
    intro j d hmem
    simp only [world, SharedDomain.store, Store.blank, Finset.mem_insert, Finset.mem_singleton,
      Key.row.injEq, Key.job.injEq, reduceCtorEq, false_or, or_false] at hmem ⊢
    exact hmem.imp And.left And.left
  case locks =>
    intro d _ tok htok
    simp [world, SharedDomain.store, Store.domain, Store.blank] at htok
  case gone => simp [world]
  case points => exact fun _ _ => rfl

def first : Claim := ⟨0, "a".toList, 1, "w|x".toList, none⟩

def second : Claim := ⟨1, "a".toList, 1, "w|y".toList, none⟩

/-- The handler of the second claim finds the lock taken; the `process_domain` of the
first one raises. -/
def schedule : List Tick :=
  [⟨0, .env ⟨0, .claim "w".toList [⟨0, "x".toList, "a".toList⟩, ⟨1, "z".toList, "a".toList⟩]⟩⟩,
    ⟨1, .step first⟩, ⟨1, .step first⟩,
    ⟨2, .env ⟨2, .claim "w".toList [⟨1, "y".toList, "a".toList⟩]⟩⟩,
    ⟨3, .step second⟩, ⟨3, .step second⟩, ⟨3, .step second⟩, ⟨4, .step first⟩,
    ⟨4, .step first⟩, ⟨5, .ends first .error⟩, ⟨5, .step first⟩, ⟨6, .step first⟩]

end BusyLock

/-- After a busy lock the row has no attempt, after an exception it has one, and neither
handler holds anything. -/
theorem busy_lock_refunded : ∃ h w,
    Transition.Run Begun (WorldStep CrashLoop.config) h w ∧ Transition.Guarded OwnCalls h ∧
      ((w.sys.store.row 1 "a".toList).attempts = 0 ∧
        (w.sys.store.row 0 "a".toList).attempts = 1) ∧
      (w.sys.store.domain "a".toList).lockOwner ≠ some BusyLock.first.token ∧
      ∀ j d, .row j d ∈ w.sys.store.rows → ¬ ((w.sys.store.row j d).state = .running ∧
        (w.sys.store.row j d).claimedBy = some BusyLock.second.token) := by
  obtain ⟨h, w, hrun, hown, hmem, hover, hover', hattempts⟩ :=
    Transition.Run.exists_of_exec Begun (worldStep CrashLoop.config) BusyLock.world
      BusyLock.world_begun BusyLock.schedule
      (fun p => (∀ q ∈ p.1, OwnCalls q.1 q.2) ∧ Key.domain "a".toList ∈ p.2.sys.store.rows ∧
        p.2.points BusyLock.first = .over ∧ p.2.points BusyLock.second = .over ∧
        (p.2.sys.store.row 1 "a".toList).attempts = 0 ∧
        (p.2.sys.store.row 0 "a".toList).attempts = 1)
      (by decide +kernel)
  have hback := (handler_gives_back CrashLoop.config h w hrun hown).1
  exact ⟨h, w, hrun, hown, hattempts, (hback _ hover).2 _ hmem, (hback _ hover').1⟩

end Worker

end EmailExtractor
