import EmailExtractor.Library.Run
import Mathlib.Data.List.Perm.Basic

/-!
# The pool of senders

`WebhookSender` over every interleaving of `submit`, of the senders' loops and of `close`: a
bounded queue, a fixed number of senders, and the counter that `join` waits for. A delivery
that returns or raises is over; `close` cancels the deliveries that are under way when
`join` takes too long, and reports how many are still queued.
-/

namespace EmailExtractor

namespace Webhook

open List

/-- `busy` are the deliveries under way, one for each sender that has one, and `ended` those
that ended, with whether they were cancelled. `reported` is the number that `close` logs. -/
structure Pool (α : Type) where
  submitted : List α := []
  queue : List α := []
  unfinished : ℕ := 0
  taken : List α := []
  busy : List α := []
  ended : List (α × Bool) := []
  closed : Bool := false
  reported : Option ℕ := none

inductive PoolEvent (α : Type)
  | submit (p : α)
  | get
  | ends (i : ℕ)
  | joined
  | timeout

variable {α : Type}

namespace Pool

variable (senders maxPending : ℕ) (s : Pool α)

def put (p : α) : Pool α :=
  { s with
    submitted := s.submitted ++ [p], queue := s.queue ++ [p], unfinished := s.unfinished + 1 }

def get (p : α) (queue : List α) : Pool α :=
  { s with queue := queue, taken := s.taken ++ [p], busy := p :: s.busy }

/-- `task_done()` runs however the delivery ends. -/
def taskDone (i : ℕ) (p : α) : Pool α :=
  { s with
    busy := s.busy.eraseIdx i, ended := (p, s.closed) :: s.ended, unfinished := s.unfinished - 1 }

/-- Nobody submits any more when `close` is called: the worker has gathered its tasks. -/
def step : PoolEvent α → Option (Pool α)
  | .submit p =>
    if s.queue.length < maxPending ∧ s.closed = false then some (s.put p) else none
  | .get =>
    if s.busy.length < senders ∧ s.closed = false then
      match s.queue with
      | p :: queue => some (s.get p queue)
      | [] => none
    else none
  | .ends i => s.busy[i]?.map (s.taskDone i)
  | .joined =>
    if s.unfinished = 0 ∧ s.closed = false then some { s with closed := true } else none
  | .timeout =>
    if s.closed = false then some { s with closed := true, reported := some s.queue.length }
    else none

end Pool

def PoolRun (senders maxPending : ℕ) : List (Pool α × PoolEvent α) → Pool α → Prop :=
  Transition.Run (fun s => s = {}) fun s e s' => s.step senders maxPending e = some s'

/-- Nothing is lost or repeated, the queue is first in first out, the counter of `join` is
exact, and without a report everything was delivered or given up. -/
structure Pool.Kept (senders maxPending : ℕ) (s : Pool α) : Prop where
  queue_le : s.queue.length ≤ maxPending
  busy_le : s.busy.length ≤ senders
  inOrder : s.taken ++ s.queue = s.submitted
  once : (s.ended.map Prod.fst ++ s.busy).Perm s.taken
  unfinished : s.unfinished = s.queue.length + s.busy.length
  unreported : s.closed = false → s.reported = none
  report : s.closed = true → s.queue.length = s.reported.getD 0
  complete : s.reported = none → (∀ x ∈ s.ended, x.2 = false) ∧ (s.closed = true → s.busy = [])

namespace Pool.Kept

variable {senders maxPending : ℕ} {s s' : Pool α} {p : α}

theorem get {queue : List α} (h : Kept senders maxPending s) (hqueue : s.queue = p :: queue)
    (hbusy : s.busy.length < senders) (hopen : s.closed = false) :
    Kept senders maxPending (s.get p queue) := by
  obtain ⟨hle, -, horder, honce, hunfinished, hunreported, hreport, hcomplete⟩ := h
  rw [hqueue] at hle horder hunfinished
  refine ⟨Nat.le_of_succ_le hle, hbusy, ?_, ?_, ?_, hunreported, ?_, ?_⟩
  · exact (append_assoc ..).trans horder
  · exact perm_middle.trans ((honce.cons p).trans (perm_append_singleton p _).symm)
  · simp only [Pool.get, hunfinished, length_cons]
    omega
  · simp [Pool.get, hopen]
  · simpa [Pool.get, hopen] using hcomplete

theorem taskDone {i : ℕ} (h : Kept senders maxPending s) (hp : s.busy[i]? = some p) :
    Kept senders maxPending (s.taskDone i p) := by
  obtain ⟨hle, hbusy, horder, honce, hunfinished, hunreported, hreport, hcomplete⟩ := h
  obtain ⟨hi, rfl⟩ := List.getElem?_eq_some_iff.mp hp
  have hlength := length_eraseIdx_of_lt hi
  refine ⟨hle, ?_, horder, ?_, ?_, hunreported, hreport, fun hnone => ?_⟩
  · exact Nat.le_trans (length_eraseIdx_le ..) hbusy
  · exact (perm_middle.symm.trans
      ((getElem_cons_eraseIdx_perm hi).append_left _)).trans honce
  · simp only [Pool.taskDone, hunfinished, hlength]
    omega
  · -- With nothing reported the pool is open, or nobody has a delivery under way.
    obtain ⟨hended, hidle⟩ := hcomplete hnone
    have hopen : s.closed = false := Bool.eq_false_iff.mpr fun hclosed => by
      simp [hidle hclosed] at hi
    simpa [Pool.taskDone, hopen] using hended

theorem step {e : PoolEvent α} (h : Kept senders maxPending s)
    (hstep : s.step senders maxPending e = some s') : Kept senders maxPending s' := by
  cases e with
  | submit p =>
    obtain ⟨⟨hlt, hopen⟩, hstep⟩ := Option.ite_none_right_eq_some.mp hstep
    cases hstep
    grind [Pool.Kept, Pool.put]
  | get =>
    obtain ⟨⟨hbusy, hopen⟩, hstep⟩ := Option.ite_none_right_eq_some.mp hstep
    split at hstep
    · rename_i hqueue
      cases hstep
      exact h.get hqueue hbusy hopen
    · cases hstep
  | ends i =>
    obtain ⟨p, hp, rfl⟩ := Option.map_eq_some_iff.mp hstep
    exact h.taskDone hp
  | joined =>
    obtain ⟨⟨hzero, hopen⟩, hstep⟩ := Option.ite_none_right_eq_some.mp hstep
    cases hstep
    have hsum := h.unfinished
    obtain ⟨hqueue, hbusy⟩ : s.queue.length = 0 ∧ s.busy.length = 0 := by omega
    exact ⟨h.queue_le, h.busy_le, h.inOrder, h.once, h.unfinished, nofun,
      fun _ => by rw [h.unreported hopen, hqueue]; rfl,
      fun hnone => ⟨(h.complete hnone).1, fun _ => length_eq_zero_iff.mp hbusy⟩⟩
  | timeout =>
    obtain ⟨hopen, hstep⟩ := Option.ite_none_right_eq_some.mp hstep
    cases hstep
    grind [Pool.Kept]

end Pool.Kept

/-- Over every interleaving a payload is delivered once and in its turn, and `close` loses
none without a report. The report counts the queue alone: what was under way is cancelled. -/
theorem pool_kept {senders maxPending : ℕ} {h : List (Pool α × PoolEvent α)} {s : Pool α}
    (hrun : PoolRun senders maxPending h s) : s.Kept senders maxPending := by
  refine hrun.always ?_ fun _ _ _ hkept hstep => hkept.step hstep
  rintro _ rfl
  exact ⟨Nat.zero_le _, Nat.zero_le _, rfl, .nil, rfl, fun _ => rfl, nofun, by simp⟩

theorem pool_kept_closed : ∃ h s, PoolRun 1 2 h s ∧ s.ended = [("a", true)] ∧
    s.reported = some 1 ∧ s.queue.length = 1 := by
  obtain ⟨h, s, hrun, hended, hclosed, hreport⟩ := Transition.Run.exists_of_exec
    (fun s => s = {}) (Pool.step 1 2) _ rfl [.submit "a", .get, .submit "b", .timeout, .ends 0]
    (fun p => p.2.ended = [("a", true)] ∧ p.2.closed = true ∧ p.2.reported = some 1) (by decide)
  exact ⟨h, s, hrun, hended, hreport, by
    rw [(pool_kept hrun).report hclosed, show s.reported = some 1 from hreport]
    rfl⟩

end Webhook

end EmailExtractor
