import EmailExtractor.Pipeline.Process
import EmailExtractor.Queue.Attempts

/-!
# The handlers of claims

`Worker.handle` and `Worker._handle` of `app/worker.py` with `cached_result` of
`app/queue.py`, transaction by transaction. A handler stands at a point of the
function; one step of it reads the store or is one operation of the queue. `now()` is
the start of the transaction, which for `lock_domain` is the read of the job before
it, so a point inside a transaction carries the time at which it began.

The handlers run side by side with every other transaction on the queue. A handler
may die at any point, after which nothing more is heard of it.
-/

namespace EmailExtractor

namespace Worker

open Queue
open Function (update update_self update_of_ne)

/-! ## The shared cache -/

/-- The settings of the worker, and how a stored result is read. -/
structure Config where
  maxDomainAttempts : ℤ
  retryPassDelayS : ℚ
  cacheDays : ℚ
  fetchBackend : Str
  validate : DomainResult → Option DomainResult

variable (cfg : Config)

/-- `cache_usable`, at the time `clock`. -/
def cacheUsable (clock : Time) (job : Job) (row : DomainRow) (notBefore : Option Time) : Bool :=
  match row.finishedAt, row.result with
  | some finishedAt, some _ =>
    let floor := match notBefore with
      | some t => max job.createdAt t
      | none => job.createdAt
    if floor ≤ finishedAt then true
    else if job.fresh || row.status = some .fetchFailed then false
    else clock - cfg.cacheDays * 86400 ≤ finishedAt
  | _, _ => false

def cachedResult (s : Store) (clock : Time) (job : Job) (domain : Str)
    (notBefore : Option Time) : Option DomainResult :=
  if .domain domain ∈ s.rows ∧ cacheUsable cfg clock job (s.domain domain) notBefore then
    (s.domain domain).result.bind cfg.validate
  else none

/-! ## One handler -/

def maxClaims : ℤ := cfg.maxDomainAttempts + 2

def lockBusyDelayS : ℚ := 10

def errorRetryDelayS : ℚ := 30

/-- Why a row goes back to the queue: another claim fetches the domain, the account of
the provider is exhausted, the provider is to recover first, or an exception. -/
inductive Cause
  | lockBusy
  | account
  | retryPass
  | failed
  deriving DecidableEq

def Cause.delay : Cause → ℚ
  | .lockBusy => lockBusyDelayS
  | .account => 0
  | .retryPass => cfg.retryPassDelayS
  | .failed => errorRetryDelayS

def Cause.countAttempt : Cause → Bool
  | .lockBusy => false
  | .account => false
  | .retryPass => true
  | .failed => true

inductive AfterUnlock
  | requeue (why : Cause)
  | record (result : DomainResult)
  deriving DecidableEq

inductive Point
  | ready
  | locking (began : Time)
  | locked
  | cleared
  | fetching
  | pausing
  | unlocking (next : AfterUnlock)
  | requeuing (why : Cause)
  | recording (result : DomainResult)
  | finishing (began : Time) (result : DomainResult) (fromCache writeCache : Bool)
  | notifying
  | over
  | dead
  deriving DecidableEq

/-- How `process_domain` ends; after an account error the key is reloaded. -/
inductive Outcome
  | result (r : DomainResult)
  | accountError (keyChanged : Bool)
  | error
  deriving DecidableEq

/-- The result of a domain whose processing keeps dying. -/
def tooManyAttempts (domain : Str) : DomainResult :=
  { domain := domain, status := .fetchFailed, errorReason := some "internal_error".toList,
    siteStatus := some "too_many_attempts".toList }

/-- The start of `_handle`, up to its first write. -/
def look (s : Store) (time : Time) (c : Claim) : Point :=
  if .job c.jobId ∉ s.rows then .over
  else
    match cachedResult cfg s time (s.job c.jobId) c.domain c.notBefore with
    | some r => .finishing time r true true
    | none =>
      if maxClaims cfg < c.attempts then .finishing time (tooManyAttempts c.domain) false false
      else .locking time

/-- The second look at the cache, with the lock. -/
def lookAgain (s : Store) (time : Time) (c : Claim) : Point :=
  match cachedResult cfg s time (s.job c.jobId) c.domain c.notBefore with
  | some r => .unlocking (.record r)
  | none => .cleared

/-- The part of `_handle` and `handle` after `process_domain`. -/
def afterFetch (time : Time) (c : Claim) : Outcome → Point
  | .result r =>
    if Pipeline.retryable r && decide (c.attempts < cfg.maxDomainAttempts) then
      .unlocking (.requeue .retryPass)
    else .finishing time r false true
  | .accountError keyChanged => if keyChanged then .unlocking (.requeue .account) else .pausing
  | .error => .unlocking (.requeue .failed)

def AfterUnlock.point : AfterUnlock → Point
  | .requeue why => .requeuing why
  | .record r => .recording r

def Point.action (time : Time) (c : Claim) : Point → Option Action
  | .locking began => some ⟨began, .lockDomain c⟩
  | .pausing => some ⟨time, .pauseActiveJobs (cfg.fetchBackend ++ "_account".toList)⟩
  | .unlocking _ => some ⟨time, .unlockDomain c⟩
  | .requeuing why => some ⟨time, .requeue c (why.delay cfg) why.countAttempt⟩
  | .recording r => some ⟨time, .finish c r true true⟩
  | .finishing began r fromCache writeCache => some ⟨began, .finish c r fromCache writeCache⟩
  | _ => none

/-- The end of `_finish`: the webhooks are handed over. -/
def afterFinish (webhooks : List Webhook) : Point :=
  if webhooks.isEmpty then .over else .notifying

def Point.next (s : Store) (time : Time) (c : Claim) : Point → Option Point
  | .ready => some (look cfg s time c)
  | .locking began => some (if (lockDomain s began c).2 then .locked else .requeuing .lockBusy)
  | .locked => some (lookAgain cfg s time c)
  | .cleared => some .fetching
  | .fetching => none
  | .pausing => some (.unlocking (.requeue .account))
  | .unlocking next => some next.point
  | .requeuing _ => some .over
  | .recording r => some (afterFinish (workerFinish s time c r true true).2)
  | .finishing began r fromCache writeCache =>
    some (afterFinish (workerFinish s began c r fromCache writeCache).2)
  | .notifying => some .over
  | .over => none
  | .dead => none

/-- Where the code may raise outside of `process_domain` and the database: a result is
written out as JSON, and a webhook is handed over. -/
def Point.raises : Point → Bool
  | .recording _ => true
  | .finishing .. => true
  | .notifying => true
  | _ => false

/-- The `except` branch of `handle`. -/
def afterRaise : Point := .unlocking (.requeue .failed)

/-! ## All handlers and the rest of the system -/

/-- The system with the points of the handlers and the time. -/
structure World where
  sys : System
  points : Claim → Point
  clock : Time

/-- A transaction of somebody else, a step of a handler, the end of its
`process_domain`, an exception elsewhere in it, or its death. -/
inductive Move
  | env (a : Action)
  | step (c : Claim)
  | ends (c : Claim) (o : Outcome)
  | raises (c : Claim)
  | die (c : Claim)

structure Tick where
  time : Time
  move : Move

def queueAction (w : World) (m : Tick) : Option Action :=
  match m.move with
  | .env a => some a
  | .step c => (w.points c).action cfg m.time c
  | .ends _ _ => none
  | .raises _ => none
  | .die _ => none

/-- The claim whose handler moves, with its next point. -/
def moved (w : World) (m : Tick) : Option (Claim × Point) :=
  match m.move with
  | .env _ => none
  | .step c => ((w.points c).next cfg w.sys.store m.time c).map (c, ·)
  | .ends c o => if w.points c = .fetching then some (c, afterFetch cfg m.time c o) else none
  | .raises c => if (w.points c).raises then some (c, afterRaise) else none
  | .die c => some (c, .dead)

/-- The move can happen: time does not run backwards, a transaction has begun before it
commits, and a handler has a claim and somewhere to go. -/
def Tick.Enabled (w : World) (m : Tick) : Prop :=
  w.clock ≤ m.time ∧ (∀ a ∈ queueAction cfg w m, a.now ≤ m.time) ∧
    match m.move with
    | .env _ => True
    | .step c => c ∈ w.sys.claims ∧ (moved cfg w m).isSome = true
    | .ends c _ => c ∈ w.sys.claims ∧ (moved cfg w m).isSome = true
    | .raises c => c ∈ w.sys.claims ∧ (moved cfg w m).isSome = true
    | .die c => c ∈ w.sys.claims

instance (w : World) (m : Tick) : Decidable (m.Enabled cfg w) :=
  match hm : m.move with
  | .env _ => decidable_of_iff (w.clock ≤ m.time ∧ ∀ a ∈ queueAction cfg w m, a.now ≤ m.time)
      (by simp [Tick.Enabled, hm])
  | .step c => decidable_of_iff (w.clock ≤ m.time ∧ (∀ a ∈ queueAction cfg w m, a.now ≤ m.time) ∧
      c ∈ w.sys.claims ∧ (moved cfg w m).isSome = true) (by simp [Tick.Enabled, hm])
  | .ends c _ => decidable_of_iff (w.clock ≤ m.time ∧ (∀ a ∈ queueAction cfg w m, a.now ≤ m.time) ∧
      c ∈ w.sys.claims ∧ (moved cfg w m).isSome = true) (by simp [Tick.Enabled, hm])
  | .raises c => decidable_of_iff (w.clock ≤ m.time ∧ (∀ a ∈ queueAction cfg w m, a.now ≤ m.time) ∧
      c ∈ w.sys.claims ∧ (moved cfg w m).isSome = true) (by simp [Tick.Enabled, hm])
  | .die c => decidable_of_iff (w.clock ≤ m.time ∧ (∀ a ∈ queueAction cfg w m, a.now ≤ m.time) ∧
      c ∈ w.sys.claims) (by simp [Tick.Enabled, hm])

def nextPoints (w : World) (m : Tick) : Claim → Point :=
  match moved cfg w m with
  | none => w.points
  | some (c, p) => update w.points c p

def worldStep (w : World) (m : Tick) : Option World :=
  if m.Enabled cfg w then
    match queueAction cfg w m with
    | none => some ⟨w.sys, nextPoints cfg w m, m.time⟩
    | some a => (opStep w.sys a).map fun s => ⟨s, nextPoints cfg w m, m.time⟩
  else none

abbrev WorldStep (w : World) (m : Tick) (w' : World) : Prop := worldStep cfg w m = some w'

section

variable {cfg} {w w' : World} {m : Tick}

theorem worldStep_cases (h : WorldStep cfg w m w') :
    m.Enabled cfg w ∧ w'.points = nextPoints cfg w m ∧ w'.clock = m.time ∧
      ((queueAction cfg w m = none ∧ w'.sys = w.sys) ∨
        ∃ a, queueAction cfg w m = some a ∧ OpStep w.sys a w'.sys) := by
  unfold WorldStep worldStep at h
  rw [Option.ite_none_right_eq_some] at h
  obtain ⟨henabled, h⟩ := h
  cases ha : queueAction cfg w m with
  | none =>
    simp only [ha, Option.some.injEq] at h
    subst h
    exact ⟨henabled, rfl, rfl, .inl ⟨rfl, rfl⟩⟩
  | some a =>
    simp only [ha, Option.map_eq_some_iff] at h
    obtain ⟨s, hs, rfl⟩ := h
    exact ⟨henabled, rfl, rfl, .inr ⟨a, rfl, hs⟩⟩

inductive PointChange (cfg : Config) (w : World) (m : Tick) (c : Claim) : Point → Prop
  | same (hstill : m.move ≠ .step c) : PointChange cfg w m c (w.points c)
  | step {p : Point} (hmove : m.move = .step c)
      (hnext : (w.points c).next cfg w.sys.store m.time c = some p) : PointChange cfg w m c p
  | ends {o : Outcome} (hmove : m.move = .ends c o) (hfetching : w.points c = .fetching) :
      PointChange cfg w m c (afterFetch cfg m.time c o)
  | raised (hmove : m.move = .raises c) (hraises : (w.points c).raises = true) :
      PointChange cfg w m c afterRaise
  | die (hmove : m.move = .die c) : PointChange cfg w m c .dead

theorem pointChange (henabled : m.Enabled cfg w) (c : Claim) :
    PointChange cfg w m c (nextPoints cfg w m c) := by
  obtain ⟨time, move⟩ := m
  obtain ⟨_, _, hmoved⟩ := henabled
  unfold nextPoints
  cases move with
  | env a => exact .same (by simp)
  | step c' =>
    obtain ⟨_, hsome⟩ := hmoved
    simp only [moved, Option.isSome_map, Option.isSome_iff_exists] at hsome
    obtain ⟨p, hp⟩ := hsome
    simp only [moved, hp, Option.map_some]
    by_cases hc : c' = c
    · subst hc
      rw [update_self]
      exact .step rfl hp
    · rw [update_of_ne (fun h => hc h.symm)]
      exact .same (by simp [hc])
  | ends c' o =>
    obtain ⟨_, hsome⟩ := hmoved
    by_cases hfetching : w.points c' = .fetching
    · simp only [moved, if_pos hfetching]
      by_cases hc : c' = c
      · subst hc
        rw [update_self]
        exact .ends rfl hfetching
      · rw [update_of_ne (fun h => hc h.symm)]
        exact .same (by simp)
    · simp [moved, hfetching] at hsome
  | raises c' =>
    obtain ⟨_, hsome⟩ := hmoved
    by_cases hraises : (w.points c').raises = true
    · simp only [moved, if_pos hraises]
      by_cases hc : c' = c
      · subst hc
        rw [update_self]
        exact .raised rfl hraises
      · rw [update_of_ne (fun h => hc h.symm)]
        exact .same (by simp)
    · simp [moved, hraises] at hsome
  | die c' =>
    simp only [moved]
    by_cases hc : c' = c
    · subst hc
      rw [update_self]
      exact .die rfl
    · rw [update_of_ne (fun h => hc h.symm)]
      exact .same (by simp)

/-! ## The queue below the handlers -/

def queueHistory (cfg : Config) (h : List (World × Tick)) : List (System × Action) :=
  h.filterMap fun p => (queueAction cfg p.1 p.2).map (p.1.sys, ·)

theorem queueHistory_cons_of_none {h : List (World × Tick)} (hidle : queueAction cfg w m = none) :
    queueHistory cfg ((w, m) :: h) = queueHistory cfg h := by
  simp [queueHistory, hidle]

theorem queueHistory_cons_of_some {h : List (World × Tick)} {a : Action}
    (ha : queueAction cfg w m = some a) :
    queueHistory cfg ((w, m) :: h) = (w.sys, a) :: queueHistory cfg h := by
  simp [queueHistory, ha]

theorem queueRun {init : World → Prop} {sinit : System → Prop}
    (hinit : ∀ w, init w → sinit w.sys) {h : List (World × Tick)}
    (hrun : Transition.Run init (WorldStep cfg) h w) :
    Transition.Run sinit OpStep (queueHistory cfg h) w.sys := by
  induction hrun with
  | start hw => exact .start (hinit _ hw)
  | next _ hstep ih =>
    obtain ⟨_, _, _, ⟨hnone, hsys⟩ | ⟨a, ha, hop⟩⟩ := worldStep_cases hstep
    · rw [hsys, queueHistory_cons_of_none hnone]
      exact ih
    · rw [queueHistory_cons_of_some ha]
      exact ih.next hop

end

end Worker

end EmailExtractor
