import Mathlib.Data.List.Nodup
import Mathlib.Data.Set.Card

/-!
# A counting semaphore with a queue

`asyncio.Semaphore`. A task that finds the semaphore locked waits in a queue. A released
permit is handed to the first waiter that has none: the counter does not show it, and the
waiter takes it along when it is resumed. A waiter that is cancelled without a permit drops
out of the queue; one that is cancelled with a permit gives it back.

`Ledger` says where the permits are: on the counter, with woken waiters, or with the tasks
that hold one. Each operation of the semaphore moves one task from one role to another.
-/

/-- A task in the queue; `woken` when it has been handed a permit. -/
structure Waiter (τ : Type*) where
  task : τ
  woken : Bool
  deriving DecidableEq

structure Semaphore (τ : Type*) where
  value : ℕ
  queue : List (Waiter τ)
  deriving DecidableEq

namespace Semaphore

open List
open Function (update)

variable {τ : Type*}

/-! ## The operations -/

def locked (s : Semaphore τ) : Bool := s.value == 0 || !s.queue.isEmpty

/-- `acquire` when the semaphore is not locked. -/
def take (s : Semaphore τ) : Semaphore τ := { s with value := s.value - 1 }

/-- `acquire` when it is locked, up to its await. -/
def enqueue (t : τ) (s : Semaphore τ) : Semaphore τ := { s with queue := s.queue ++ [⟨t, false⟩] }

/-- The queue after its first waiter without a permit is handed one. -/
def wakeFirst : List (Waiter τ) → Option (List (Waiter τ))
  | [] => none
  | w :: q => if w.woken then (wakeFirst q).map (w :: ·) else some (⟨w.task, true⟩ :: q)

def wakeUpNext (s : Semaphore τ) : Semaphore τ :=
  match wakeFirst s.queue with
  | none => s
  | some q => ⟨s.value - 1, q⟩

def release (s : Semaphore τ) : Semaphore τ := wakeUpNext { s with value := s.value + 1 }

/-- The loop at the end of `acquire`: wake waiters while the counter is positive. -/
def wakeLoop : ℕ → List (Waiter τ) → Semaphore τ
  | 0, q => ⟨0, q⟩
  | v + 1, q =>
    match wakeFirst q with
    | none => ⟨v + 1, q⟩
    | some q' => wakeLoop v q'

def wakeUp (s : Semaphore τ) : Semaphore τ := wakeLoop s.value s.queue

section

variable [DecidableEq τ]

/-- The task leaves the queue. Its future is cancelled, or the task goes on. -/
def remove (t : τ) (s : Semaphore τ) : Semaphore τ :=
  { s with queue := s.queue.filter fun w => w.task ≠ t }

/-- `acquire` from its await on, for a waiter that has been handed a permit. -/
def resume (t : τ) (s : Semaphore τ) : Semaphore τ := (s.remove t).wakeUp

/-- The same when the waiter is cancelled. -/
def giveBack (t : τ) (s : Semaphore τ) : Semaphore τ :=
  wakeUp { s.remove t with value := s.value + 1 }

end

/-! ## The ledger -/

inductive Role
  | away
  | waiting
  | holding
  deriving DecidableEq

def handed (s : Semaphore τ) : ℕ := s.queue.countP Waiter.woken

/-- The waiting tasks are in the queue, each of them once, and every permit is on the
counter, with a waiter or with a holder. -/
structure Accounts (limit : ℕ) (s : Semaphore τ) (role : τ → Role) : Prop where
  nodup : (s.queue.map Waiter.task).Nodup
  waiting : ∀ t, t ∈ s.queue.map Waiter.task ↔ role t = .waiting
  permits : ∃ holders : Finset τ, (∀ t, t ∈ holders ↔ role t = .holding) ∧
    s.value + s.handed + holders.card = limit

/-- A task waits for a permit although the counter is positive only where a woken one is
still to be resumed. -/
structure Ledger (limit : ℕ) (s : Semaphore τ) (role : τ → Role) : Prop
    extends Accounts limit s role where
  awake : 0 < s.value → (∃ w ∈ s.queue, w.woken = false) → ∃ w ∈ s.queue, w.woken = true

section

variable {limit : ℕ} {s : Semaphore τ} {role : τ → Role} {t : τ} {q q' : List (Waiter τ)}

/-! ## Waking -/

theorem wakeFirst_eq_none (h : wakeFirst q = none) : ∀ w ∈ q, w.woken = true := by
  induction q with
  | nil => simp
  | cons w q ih =>
    rw [wakeFirst] at h
    split at h
    · rename_i hw
      rw [Option.map_eq_none_iff] at h
      exact forall_mem_cons.mpr ⟨hw, ih h⟩
    · cases h

theorem wakeFirst_eq_some (h : wakeFirst q = some q') :
    q'.map Waiter.task = q.map Waiter.task ∧
      q'.countP Waiter.woken = q.countP Waiter.woken + 1 := by
  induction q generalizing q' with
  | nil => cases h
  | cons w q ih =>
    rw [wakeFirst] at h
    split at h
    · rename_i hw
      obtain ⟨r, hr, rfl⟩ := Option.map_eq_some_iff.mp h
      obtain ⟨htask, hcount⟩ := ih hr
      exact ⟨by simp [htask], by simp [hcount, hw]⟩
    · rename_i hw
      cases h
      exact ⟨rfl, by simp [hw]⟩

theorem Accounts.wake (h : Accounts limit s role) (hpos : 0 < s.value)
    (hq : wakeFirst s.queue = some q) : Accounts limit ⟨s.value - 1, q⟩ role := by
  obtain ⟨htask, hcount⟩ := wakeFirst_eq_some hq
  obtain ⟨holders, hholders, hsum⟩ := h.permits
  refine ⟨by rw [htask]; exact h.nodup, fun t => by rw [htask]; exact h.waiting t,
    holders, hholders, ?_⟩
  unfold handed at hsum ⊢
  simp only [hcount]
  omega

theorem Accounts.wakeLoop {v : ℕ} (h : Accounts limit ⟨v, q⟩ role) :
    Ledger limit (wakeLoop v q) role := by
  induction v generalizing q with
  | zero => exact ⟨h, fun hpos => absurd hpos (lt_irrefl 0)⟩
  | succ v ih =>
    rw [Semaphore.wakeLoop]
    cases hq : wakeFirst q with
    | none =>
      refine ⟨h, ?_⟩
      rintro _ ⟨w, hw, hsleeps⟩
      rw [wakeFirst_eq_none hq w hw] at hsleeps
      cases hsleeps
    | some q' => exact ih (h.wake (Nat.succ_pos v) hq)

theorem Accounts.wakeUp (h : Accounts limit s role) : Ledger limit s.wakeUp role := h.wakeLoop

/-! ## The operations -/

theorem Ledger.new (limit : ℕ) : Ledger limit (⟨limit, []⟩ : Semaphore τ) fun _ => .away := by
  refine ⟨⟨by simp, by simp, ∅, by simp, by simp [handed]⟩, ?_⟩
  rintro _ ⟨w, hw, _⟩
  cases hw

theorem eq_of_task_eq (hnodup : (q.map Waiter.task).Nodup) {w w' : Waiter τ} (hw : w ∈ q)
    (hw' : w' ∈ q) (htask : w.task = w'.task) : w = w' :=
  inj_on_of_nodup_map hnodup hw hw' htask

theorem Accounts.role_eq (h : Accounts limit s role) {woken : Bool}
    (ht : ⟨t, woken⟩ ∈ s.queue) : role t = .waiting :=
  (h.waiting t).mp (mem_map.mpr ⟨_, ht, rfl⟩)

section

variable [DecidableEq τ] {r : Role} {holders : Finset τ}

theorem mem_remove {w : Waiter τ} : w ∈ (s.remove t).queue ↔ w ∈ s.queue ∧ w.task ≠ t := by
  simp [remove]

theorem holders_insert (h : ∀ x, x ∈ holders ↔ role x = .holding) (x : τ) :
    x ∈ insert t holders ↔ update role t .holding x = .holding := by
  by_cases hx : x = t
  · simp [hx]
  · simp [hx, h x]

theorem holders_erase (h : ∀ x, x ∈ holders ↔ role x = .holding) (hr : r ≠ .holding) (x : τ) :
    x ∈ holders.erase t ↔ update role t r x = .holding := by
  by_cases hx : x = t
  · simp [hx, hr]
  · simp [hx, h x]

theorem handed_remove (hnodup : (s.queue.map Waiter.task).Nodup) {woken : Bool}
    (ht : ⟨t, woken⟩ ∈ s.queue) :
    (s.remove t).handed + (if woken then 1 else 0) = s.handed := by
  obtain ⟨value, q⟩ := s
  unfold handed remove
  simp only at hnodup ht ⊢
  induction q with
  | nil => cases ht
  | cons w q ih =>
    rw [map_cons, nodup_cons] at hnodup
    rcases mem_cons.mp ht with rfl | hmem
    · -- Nobody else in the queue is this task.
      have hothers : q.filter (fun w => w.task ≠ t) = q := by
        apply filter_eq_self.mpr
        intro w hw
        apply decide_eq_true
        rintro rfl
        exact hnodup.1 (mem_map.mpr ⟨w, hw, rfl⟩)
      rw [filter_cons_of_neg (by simp), hothers, countP_cons]
    · have hne : w.task ≠ t := by
        rintro rfl
        exact hnodup.1 (mem_map.mpr ⟨_, hmem, rfl⟩)
      have hrest := ih hnodup.2 hmem
      rw [filter_cons_of_pos (by simpa using hne), countP_cons, countP_cons]
      omega

theorem Accounts.queue_remove (h : Accounts limit s role) (hr : r ≠ .waiting) :
    ((s.remove t).queue.map Waiter.task).Nodup ∧
      ∀ x, x ∈ (s.remove t).queue.map Waiter.task ↔ update role t r x = .waiting := by
  refine ⟨h.nodup.sublist (filter_sublist.map _), fun x => ?_⟩
  have hmem : x ∈ (s.remove t).queue.map Waiter.task ↔ x ∈ s.queue.map Waiter.task ∧ x ≠ t := by
    simp only [mem_map, mem_remove]
    constructor
    · rintro ⟨w, ⟨hw, hne⟩, rfl⟩
      exact ⟨⟨w, hw, rfl⟩, hne⟩
    · rintro ⟨⟨w, hw, rfl⟩, hne⟩
      exact ⟨w, ⟨hw, hne⟩, rfl⟩
  rw [hmem, h.waiting]
  by_cases hx : x = t
  · simp [hx, hr]
  · simp [hx]

section

variable (h : Ledger limit s role)

include h

theorem Ledger.take (hfree : s.locked = false) (ht : role t = .away) :
    Ledger limit s.take (update role t .holding) := by
  simp only [locked, Bool.or_eq_false_iff, beq_eq_false_iff_ne, Bool.not_eq_false',
    List.isEmpty_iff] at hfree
  obtain ⟨hpos, hempty⟩ := hfree
  obtain ⟨holders, hholders, hsum⟩ := h.permits
  have hnew : t ∉ holders := by
    rw [hholders, ht]
    simp
  refine ⟨⟨h.nodup, fun x => ?_, insert t holders, holders_insert hholders, ?_⟩, ?_⟩
  · rw [show s.take.queue = s.queue from rfl, h.waiting]
    by_cases hx : x = t
    · simp [hx, ht]
    · simp [hx]
  · rw [Finset.card_insert_of_notMem hnew]
    unfold handed Semaphore.take at *
    simp only at hsum ⊢
    omega
  · rintro _ ⟨w, hw, _⟩
    rw [show s.take.queue = s.queue from rfl, hempty] at hw
    cases hw

theorem Ledger.enqueue (hlocked : s.locked = true) (ht : role t = .away) :
    Ledger limit (s.enqueue t) (update role t .waiting) := by
  have hnew : t ∉ s.queue.map Waiter.task := by
    rw [h.waiting, ht]
    simp
  obtain ⟨holders, hholders, hsum⟩ := h.permits
  refine ⟨⟨?_, fun x => ?_, holders, fun x => ?_, ?_⟩, ?_⟩
  · rw [Semaphore.enqueue, map_append]
    refine nodup_append.mpr ⟨h.nodup, by simp, ?_⟩
    rintro x hx y hy rfl
    rw [map_singleton, mem_singleton] at hy
    rw [hy] at hx
    exact hnew hx
  · rw [Semaphore.enqueue, map_append, mem_append, h.waiting]
    by_cases hx : x = t
    · simp [hx]
    · simp [hx]
  · rw [hholders]
    by_cases hx : x = t
    · simp [hx, ht]
    · simp [hx]
  · unfold handed Semaphore.enqueue at *
    simpa using hsum
  · intro hpos _
    have hqueue : s.queue ≠ [] := by
      have hvalue : s.value ≠ 0 := Nat.ne_of_gt hpos
      simpa [locked, hvalue] using hlocked
    obtain ⟨w, hw⟩ := exists_mem_of_ne_nil _ hqueue
    have hwoken : ∃ w ∈ s.queue, w.woken = true := by
      cases hflag : w.woken with
      | true => exact ⟨w, hw, hflag⟩
      | false => exact h.awake hpos ⟨w, hw, hflag⟩
    obtain ⟨w', hw', hflag⟩ := hwoken
    exact ⟨w', mem_append_left _ hw', hflag⟩

theorem Ledger.resume (ht : ⟨t, true⟩ ∈ s.queue) :
    Ledger limit (s.resume t) (update role t .holding) := by
  obtain ⟨holders, hholders, hsum⟩ := h.permits
  obtain ⟨hnodup, hwaiting⟩ := h.queue_remove (t := t) (r := .holding) (by simp)
  have hhanded := handed_remove h.nodup ht
  have hnew : t ∉ holders := by
    rw [hholders, h.role_eq ht]
    simp
  refine Accounts.wakeUp ⟨hnodup, hwaiting, insert t holders, holders_insert hholders, ?_⟩
  rw [Finset.card_insert_of_notMem hnew]
  rw [if_pos rfl] at hhanded
  have hvalue : (s.remove t).value = s.value := rfl
  omega

theorem Ledger.drop (ht : ⟨t, false⟩ ∈ s.queue) :
    Ledger limit (s.remove t) (update role t .away) := by
  obtain ⟨holders, hholders, hsum⟩ := h.permits
  obtain ⟨hnodup, hwaiting⟩ := h.queue_remove (t := t) (r := .away) (by simp)
  have hhanded := handed_remove h.nodup ht
  have hnew : t ∉ holders := by
    rw [hholders, h.role_eq ht]
    simp
  refine ⟨⟨hnodup, hwaiting, holders.erase t, holders_erase hholders (by simp), ?_⟩, ?_⟩
  · rw [Finset.erase_eq_of_notMem hnew]
    rw [if_neg (by simp)] at hhanded
    have hvalue : (s.remove t).value = s.value := rfl
    omega
  · rintro hpos ⟨w, hw, hsleeps⟩
    obtain ⟨w', hw', hwoken⟩ := h.awake hpos ⟨w, (mem_remove.mp hw).1, hsleeps⟩
    refine ⟨w', mem_remove.mpr ⟨hw', fun heq => ?_⟩, hwoken⟩
    rw [eq_of_task_eq h.nodup hw' ht heq] at hwoken
    cases hwoken

theorem Ledger.giveBack (ht : ⟨t, true⟩ ∈ s.queue) :
    Ledger limit (s.giveBack t) (update role t .away) := by
  obtain ⟨holders, hholders, hsum⟩ := h.permits
  obtain ⟨hnodup, hwaiting⟩ := h.queue_remove (t := t) (r := .away) (by simp)
  have hhanded := handed_remove h.nodup ht
  have hnew : t ∉ holders := by
    rw [hholders, h.role_eq ht]
    simp
  refine Accounts.wakeUp ⟨hnodup, hwaiting, holders.erase t, holders_erase hholders (by simp), ?_⟩
  rw [Finset.erase_eq_of_notMem hnew]
  rw [if_pos rfl] at hhanded
  have hqueue : Semaphore.handed { s.remove t with value := s.value + 1 } =
      (s.remove t).handed := rfl
  rw [hqueue]
  simp only
  omega

theorem Ledger.release (ht : role t = .holding) :
    Ledger limit s.release (update role t .away) := by
  obtain ⟨holders, hholders, hsum⟩ := h.permits
  have hold : t ∈ holders := (hholders t).mpr ht
  have hcard := Finset.card_erase_add_one hold
  have hback : Accounts limit { s with value := s.value + 1 } (update role t .away) := by
    refine ⟨h.nodup, fun x => ?_, holders.erase t, holders_erase hholders (by simp), ?_⟩
    · rw [h.waiting]
      by_cases hx : x = t
      · simp [hx, ht]
      · simp [hx]
    · unfold handed at *
      simp only
      omega
  unfold Semaphore.release wakeUpNext
  cases hq : wakeFirst s.queue with
  | none =>
    refine ⟨hback, ?_⟩
    rintro _ ⟨w, hw, hsleeps⟩
    rw [wakeFirst_eq_none hq w hw] at hsleeps
    cases hsleeps
  | some q =>
    refine ⟨hback.wake (Nat.succ_pos _) hq, fun _ _ => ?_⟩
    have hwoken : 0 < q.countP Waiter.woken := by
      rw [(wakeFirst_eq_some hq).2]
      exact Nat.succ_pos _
    exact countP_pos_iff.mp hwoken

end

end

/-! ## What the ledger says -/

theorem Accounts.encard_le (h : Accounts limit s role) :
    {t | role t = .holding}.encard ≤ limit := by
  obtain ⟨holders, hholders, hsum⟩ := h.permits
  have hset : {t | role t = .holding} = (holders : Set τ) := by
    ext t
    exact (hholders t).symm
  rw [hset, Set.encard_coe_eq_coe_finsetCard]
  exact_mod_cast (by omega : holders.card ≤ limit)

theorem Accounts.limit_pos (h : Accounts limit s role)
    (ht : role t = .holding ∨ ⟨t, true⟩ ∈ s.queue) : 0 < limit := by
  obtain ⟨holders, hholders, hsum⟩ := h.permits
  rcases ht with hold | hwoken
  · have hcard : 0 < holders.card := Finset.card_pos.mpr ⟨t, (hholders t).mpr hold⟩
    omega
  · have hcount : 0 < s.handed := countP_pos_iff.mpr ⟨_, hwoken, rfl⟩
    omega

theorem Accounts.value_eq (h : Accounts limit s role) (haway : ∀ t, role t = .away) :
    s.value = limit := by
  obtain ⟨holders, hholders, hsum⟩ := h.permits
  have hnone : holders = ∅ := by
    apply Finset.eq_empty_of_forall_notMem
    intro t ht
    rw [hholders, haway] at ht
    cases ht
  have hqueue : s.queue = [] := by
    apply eq_nil_iff_forall_not_mem.mpr
    intro w hw
    have hwaits : role w.task = .waiting := h.role_eq hw
    rw [haway] at hwaits
    cases hwaits
  rw [hnone, handed, hqueue] at hsum
  simpa using hsum

theorem Ledger.away (h : Ledger limit s role) (hpos : 0 < limit) (hback : s.value = limit)
    (t : τ) : role t = .away := by
  obtain ⟨holders, hholders, hsum⟩ := h.permits
  have hhanded : s.queue.countP Waiter.woken = 0 := by
    unfold handed at hsum
    omega
  cases hrole : role t with
  | away => rfl
  | holding =>
    have hcard : 0 < holders.card := Finset.card_pos.mpr ⟨t, (hholders t).mpr hrole⟩
    omega
  | waiting =>
    obtain ⟨w, hw, -⟩ := mem_map.mp ((h.waiting t).mpr hrole)
    have hsleep : ∀ w ∈ s.queue, ¬ w.woken = true := countP_eq_zero.mp hhanded
    obtain ⟨w', hw', hwoken⟩ :=
      h.awake (hback ▸ hpos) ⟨w, hw, Bool.eq_false_of_not_eq_true (hsleep w hw)⟩
    exact absurd hwoken (hsleep w' hw')

end

end Semaphore
