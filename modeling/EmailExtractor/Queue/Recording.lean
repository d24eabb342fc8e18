import EmailExtractor.Queue.Effects
import Mathlib.Algebra.Ring.Nat

/-!
# Each unit of work is recorded at most once

A row that is done stays as it is until a retry takes it back: every other
transaction leaves it alone. So between two retries of a row at most one `finish` of
it is recorded, whichever claims come back with it, and at most one `domain.done`
webhook is submitted.
-/

namespace EmailExtractor

namespace Queue

section

variable {j : JobId} {d : Str}

/-! ## Rounds -/

/-- The row of a recorded `finish` was running, held by the token of its claim, and is
done afterwards. -/
theorem records_cases {s : Store} {a : Action} (hrec : records j d s a = true) :
    ∃ c result fromCache writeCache, a.op = .finish c result fromCache writeCache ∧
      c.jobId = j ∧ c.domain = d ∧ .row j d ∈ s.rows ∧ (s.row j d).heldBy c.token = true ∧
      ((a.op.apply a.now s).row j d).state = .done := by
  obtain ⟨now, op⟩ := a
  cases op with
  | finish c result fromCache writeCache =>
    simp only [records, Bool.and_eq_true, decide_eq_true_eq] at hrec
    obtain ⟨⟨rfl, rfl⟩, hrec⟩ := hrec
    obtain ⟨hmem, hheld⟩ := recorded_iff.mp hrec
    refine ⟨c, result, fromCache, writeCache, rfl, rfl, rfl, hmem, hheld, ?_⟩
    have howns : c.owns c.jobId c.domain (s.row c.jobId c.domain) = true := by
      simp [Claim.owns, hheld]
    rw [Op.apply, workerFinish_store, row_finish, finishRow, Store.row_exec_onRow,
      if_pos ⟨hmem, howns⟩]
    rfl
  | _ => simp [records] at hrec

theorem not_done_of_heldBy {r : JobDomain} {tok : Str} (h : r.heldBy tok = true) :
    r.state ≠ .done := by
  simp only [JobDomain.heldBy, Bool.and_eq_true, decide_eq_true_eq] at h
  simp [h.1]

/-- In a stretch of a run without a retry of the row, a `finish` of it is recorded at
most once, and the row is done from then on. -/
theorem records_le_one {h : List (System × Action)} {s₀ s : System}
    (hrun : Transition.Run (fun t => t = s₀) OpStep h s)
    (hround : ∀ p ∈ h, retriesRow j d p.1.store p.2 = false) :
    (h.countP fun p => records j d p.1.store p.2) ≤ 1 := by
  have hinv : (h.countP fun p => records j d p.1.store p.2) = 0 ∨
      (h.countP fun p => records j d p.1.store p.2) = 1 ∧ .row j d ∈ s.store.rows ∧
        (s.store.row j d).state = .done := by
    have hguard : Transition.Guarded
      (fun (s : System) a => retriesRow j d s.store a = false) h := hround
    refine hrun.invariant_history (I := fun h s =>
      (h.countP fun p => records j d p.1.store p.2) = 0 ∨
        (h.countP fun p => records j d p.1.store p.2) = 1 ∧ .row j d ∈ s.store.rows ∧
          (s.store.row j d).state = .done)
      (fun _ _ => .inl rfl) ?_ hguard
    intro h s a s' hi hok hstep
    obtain ⟨henabled, rfl⟩ := opStep_cases hstep
    cases hrec : records j d s.store a with
    | true =>
      obtain ⟨c, _, _, _, _, _, _, hmem, hheld, hdone⟩ := records_cases hrec
      rcases hi with hzero | ⟨_, _, hdone'⟩
      · right
        exact ⟨by simp [hrec, hzero], (row_mem_apply henabled.2.2).mpr hmem, hdone⟩
      · exact absurd hdone' (not_done_of_heldBy hheld)
    | false =>
      rcases hi with hzero | ⟨hone, hmem, hdone⟩
      · left
        simp [hrec, hzero]
      · right
        have hsame := (rowChange henabled hmem).eq_of_done hmem hdone hok
        refine ⟨by simp [hrec, hone], (row_mem_apply henabled.2.2).mpr hmem, ?_⟩
        exact (congrArg JobDomain.state hsame).trans hdone
  omega

/-! ## Webhooks -/

def Webhook.announces (j : JobId) (d : Str) : Webhook → Bool
  | .domainDone _ j' d' _ => decide (j' = j) && decide (d' = d)
  | .jobDone _ _ => false

def announcements (j : JobId) (d : Str) (s : Store) (a : Action) : ℕ :=
  (a.op.webhooks a.now s).countP (Webhook.announces j d)

theorem announcements_le (j : JobId) (d : Str) (s : Store) (a : Action) :
    announcements j d s a ≤ if records j d s a then 1 else 0 := by
  obtain ⟨now, op⟩ := a
  cases op with
  | finish c result fromCache writeCache =>
    obtain ⟨⟨s', recorded, jobDone⟩, hfin⟩ :
      ∃ x, finish s now c result fromCache writeCache = x := ⟨_, rfl⟩
    simp only [announcements, Op.webhooks, workerFinish, records, hfin]
    cases recorded with
    | false => simp
    | true =>
      simp only [Bool.true_eq_false, if_false, Bool.and_true]
      split
      · simp
      · split
        · simp
        · cases jobDone <;>
            simp [List.countP_cons, Webhook.announces]
  | _ => simp [announcements, Op.webhooks]

theorem announcements_le_one {h : List (System × Action)} {s₀ s : System}
    (hrun : Transition.Run (fun t => t = s₀) OpStep h s)
    (hround : ∀ p ∈ h, retriesRow j d p.1.store p.2 = false) :
    (h.map fun p => announcements j d p.1.store p.2).sum ≤ 1 := by
  apply le_trans _ (records_le_one hrun hround)
  clear hrun hround
  induction h with
  | nil => simp
  | cons p h ih =>
    have hp := announcements_le j d p.1.store p.2
    rw [List.map_cons, List.sum_cons, List.countP_cons]
    omega

structure OnlyUnlocks (c : Claim) (s s' : Store) : Prop where
  rows : s'.rows = s.rows
  jobs : ∀ j, s'.job j = s.job j
  jobDomains : ∀ j d, s'.row j d = s.row j d
  domains : ∀ d, s'.domain d = s.domain d ∨
    (d = c.domain ∧ (s.domain d).lockOwner = some c.token ∧ s'.domain d = (s.domain d).unlocked)
  cached : ∀ d, (s'.domain d).status = (s.domain d).status ∧
    (s'.domain d).result = (s.domain d).result ∧
    (s'.domain d).finishedAt = (s.domain d).finishedAt

theorem onlyUnlocks_unlockDomain (s : Store) (c : Claim) :
    OnlyUnlocks c s (unlockDomain s c) := by
  have hdomain : ∀ d, (unlockDomain s c).domain d = s.domain d ∨
      (d = c.domain ∧ (s.domain d).lockOwner = some c.token ∧
        (unlockDomain s c).domain d = (s.domain d).unlocked) := by
    intro d
    unfold unlockDomain unlockDomainStmt
    rw [Store.domain_exec_onDomain]
    split
    case isTrue h =>
      right
      simp only [DomainRow.lockedBy, Bool.and_eq_true, decide_eq_true_eq] at h
      exact ⟨h.2.1, h.2.2, rfl⟩
    case isFalse => exact .inl rfl
  constructor
  case rows => rfl
  case jobs => simp [unlockDomain, unlockDomainStmt]
  case jobDomains => simp [unlockDomain, unlockDomainStmt]
  case domains => exact hdomain
  case cached =>
    intro d
    rcases hdomain d with hsame | ⟨_, _, hunlocked⟩
    · rw [hsame]
      exact ⟨rfl, rfl, rfl⟩
    · rw [hunlocked]
      exact ⟨rfl, rfl, rfl⟩

/-- Between two retries of a row at most one `finish` of it is recorded and at most
one `domain.done` is submitted. A recorded `finish` comes with the token that the row
is held by, and an unrecorded one changes nothing but its own lock. -/
theorem row_recorded_at_most_once (h₁ round h₂ : List (System × Action)) (s : System)
    (hrun : QueueRun (h₁ ++ round ++ h₂) s) (j : JobId) (d : Str)
    (hround : ∀ p ∈ round, retriesRow j d p.1.store p.2 = false) :
    (round.countP fun p => records j d p.1.store p.2) ≤ 1 ∧
      (round.map fun p => announcements j d p.1.store p.2).sum ≤ 1 ∧
      (∀ p ∈ round, ∀ c result fromCache writeCache,
        p.2.op = .finish c result fromCache writeCache →
        (finish p.1.store p.2.now c result fromCache writeCache).2.1 = true →
          (p.1.store.row c.jobId c.domain).state = .running ∧
            (p.1.store.row c.jobId c.domain).claimedBy = some c.token) ∧
      ∀ p ∈ round, ∀ c result fromCache writeCache,
        p.2.op = .finish c result fromCache writeCache →
        (finish p.1.store p.2.now c result fromCache writeCache).2.1 = false →
          OnlyUnlocks c p.1.store (p.2.op.apply p.2.now p.1.store) := by
  rw [List.append_assoc] at hrun
  obtain ⟨s₁, hrun₁, _⟩ := hrun.of_append
  obtain ⟨s₀, _, hseg⟩ := hrun₁.of_append
  refine ⟨records_le_one hseg hround, announcements_le_one hseg hround, ?_, ?_⟩
  · rintro p _ c result fromCache writeCache _ hrec
    have hheld := (recorded_iff.mp hrec).2
    simpa [JobDomain.heldBy] using hheld
  · rintro p _ c result fromCache writeCache hop hno
    rw [hop, Op.apply, workerFinish_store, finish_of_not_recorded hno]
    exact onlyUnlocks_unlockDomain p.1.store c

end

namespace Reclaimed

def store : Store :=
  .blank {.job 0, .row 0 "a".toList, .domain "a".toList} fun _ =>
    { createdAt := 0, webhookUrl := some "u".toList }

def result : DomainResult := { domain := "a".toList, status := .found }

/-- The row is claimed, reaped, claimed again by the same worker, and then finished by
the handler of the first claim and by that of the second. -/
def schedule : List Action :=
  [⟨0, .claim "w".toList [⟨0, "x".toList, "a".toList⟩]⟩, ⟨100, .reap⟩,
    ⟨100, .claim "w".toList [⟨0, "y".toList, "a".toList⟩]⟩,
    ⟨101, .finish ⟨0, "a".toList, 1, "w|x".toList, none⟩ result false true⟩,
    ⟨102, .finish ⟨0, "a".toList, 2, "w|y".toList, none⟩ result false true⟩]

end Reclaimed

/-- A reaped claim and its successor both finish the row. -/
theorem reclaimed_row_recorded_once :
    ∃ round s, QueueRun ([] ++ round ++ []) s ∧ round.length = 5 ∧
      (s.store.row 0 "a".toList).state = .done ∧
      (round.countP fun p => records 0 "a".toList p.1.store p.2) ≤ 1 := by
  obtain ⟨h, s, hrun, hlen, hdone, hround⟩ := Transition.Run.exists_of_exec
    (fun _ : System => True) opStep ⟨Reclaimed.store, []⟩ trivial Reclaimed.schedule
    (fun p => p.1.length = 5 ∧ (p.2.store.row 0 "a".toList).state = .done ∧
      ∀ q ∈ p.1, retriesRow 0 "a".toList q.1.store q.2 = false)
    (by decide +kernel)
  have hrun' : QueueRun ([] ++ h ++ []) s := by simpa using hrun
  exact ⟨h, s, hrun', hlen, hdone,
    (row_recorded_at_most_once [] h [] s hrun' 0 "a".toList hround).1⟩

end Queue

end EmailExtractor
