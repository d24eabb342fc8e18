import EmailExtractor.Library.Run
import EmailExtractor.Library.Semaphore

/-!
# The slots of a worker

The loop of `Worker.run` with its semaphore, the tasks of `run_one`, and the signal that
stops it. A round of the loop acquires a slot, claims a row and hands the slot to a task,
which releases it however it ends. The signal may come between any two steps:
`_acquire_or_stop` then gives the slot back, or cancels the acquire, which may have been
handed a permit already, and `_drain` cancels the tasks. A task that is cancelled before it
has begun never releases its slot.
-/

namespace EmailExtractor

namespace Worker

/-- Where `run` awaits. -/
inductive LoopPc
  | top
  | acquiring
  | claiming
  | idle
  | draining
  | closed
  deriving DecidableEq

/-- The future of `slots.acquire()`. Nobody but the loop ever waits for a slot. -/
inductive Acquire
  | created
  | waiting
  | cancelling
  | done
  deriving DecidableEq

structure Slots where
  pc : LoopPc
  acquire : Option Acquire
  slots : Semaphore Unit
  /-- The tasks of `run_one` that are not over, and whether they have begun. -/
  tasks : List Bool
  /-- How many were cancelled before they had begun. -/
  lost : ℕ
  stopping : Bool
  deriving DecidableEq

/-- `look` is the test of the loop, `go` its way on after `asyncio.wait`, and `unwind` the end
of an acquire that was cancelled with a permit. -/
inductive SlotEvent
  | stop
  | look
  | acquire
  | resume
  | go
  | unwind
  | claimed (found : Bool)
  | poll
  | start (i : ℕ)
  | finish (i : ℕ)
  | lose (i : ℕ)
  | drained
  deriving DecidableEq

namespace Slots

def new (concurrency : ℕ) : Slots := ⟨.top, none, ⟨concurrency, []⟩, [], 0, false⟩

/-- The permit of the future has been set. -/
def woken (w : Slots) : Prop := ⟨(), true⟩ ∈ w.slots.queue

instance (w : Slots) : Decidable w.woken := inferInstanceAs (Decidable (_ ∈ _))

/-- `acquire.cancel()`: a waiter without a permit is out of the queue at once. -/
def cancelAcquire (w : Slots) : Slots :=
  if w.acquire = some .waiting ∧ w.woken then { w with acquire := some .cancelling }
  else { w with acquire := none, slots := w.slots.remove () }

/-- The end of `_acquire_or_stop`. -/
def acquireOrStop (w : Slots) : Slots :=
  if w.stopping then
    if w.acquire = some .done then
      { w with pc := .draining, acquire := none, slots := w.slots.release }
    else { w.cancelAcquire with pc := .draining }
  else { w with pc := .claiming }

/-- After `claim`: the task is spawned, or the slot is released. -/
def afterClaim (w : Slots) (found : Bool) : Slots :=
  if found then { w with pc := .top, acquire := none, tasks := w.tasks ++ [false] }
  else { w with pc := .idle, acquire := none, slots := w.slots.release }

def step (w : Slots) : SlotEvent → Option Slots
  | .stop => some { w with stopping := true }
  | .look =>
    if w.pc = .top then
      if w.stopping then some { w with pc := .draining }
      else some { w with pc := .acquiring, acquire := some .created }
    else none
  | .acquire =>
    if w.acquire = some .created then
      if w.slots.locked then
        some { w with acquire := some .waiting, slots := w.slots.enqueue () }
      else some { w with acquire := some .done, slots := w.slots.take }
    else none
  | .resume =>
    if w.acquire = some .waiting ∧ w.woken then
      some { w with acquire := some .done, slots := w.slots.resume () }
    else none
  | .go =>
    if w.pc = .acquiring ∧ (w.acquire = some .done ∨ w.stopping = true) then
      some w.acquireOrStop
    else none
  | .unwind =>
    if w.acquire = some .cancelling ∧ w.woken then
      some { w with acquire := none, slots := w.slots.giveBack () }
    else none
  | .claimed found => if w.pc = .claiming then some (w.afterClaim found) else none
  | .poll => if w.pc = .idle then some { w with pc := .top } else none
  | .start i =>
    if w.tasks[i]? = some false ∧ w.pc ≠ .draining then
      some { w with tasks := w.tasks.set i true }
    else none
  | .finish i =>
    if w.tasks[i]? = some true then
      some { w with tasks := w.tasks.eraseIdx i, slots := w.slots.release }
    else none
  -- `_drain` cancels every task before it awaits.
  | .lose i =>
    if w.tasks[i]? = some false ∧ w.pc = .draining then
      some { w with tasks := w.tasks.eraseIdx i, lost := w.lost + 1 }
    else none
  | .drained =>
    if w.pc = .draining ∧ w.tasks = [] then some { w with pc := .closed } else none

end Slots

def SlotsRun (concurrency : ℕ) : List (Slots × SlotEvent) → Slots → Prop :=
  Transition.Run (fun w => w = Slots.new concurrency) fun w e w' => w.step e = some w'

/-! ## What every step keeps -/

/-- The slots that the loop has. -/
def Acquire.held : Option Acquire → ℕ
  | some .done => 1
  | _ => 0

/-- The queue of the semaphore: the loop, if it waits. -/
def Acquire.InQueue : Option Acquire → List (Waiter Unit) → Prop
  | some .waiting, q => q = [⟨(), false⟩] ∨ q = [⟨(), true⟩]
  | some .cancelling, q => q = [⟨(), true⟩]
  | _, q => q = []

def LoopPc.Current : LoopPc → Option Acquire → Prop
  | .top, a | .idle, a => a = none
  | .acquiring, a => a = some .created ∨ a = some .waiting ∨ a = some .done
  | .claiming, a => a = some .done
  | .draining, a | .closed, a => a = none ∨ a = some .cancelling

theorem LoopPc.Current.acquiring {pc : LoopPc} {a a' : Option Acquire} (h : pc.Current a)
    (ha : a = some .created ∨ a = some .waiting) (ha' : a' = some .waiting ∨ a' = some .done) :
    pc.Current a' := by
  cases pc <;> grind [LoopPc.Current]

theorem LoopPc.Current.unwound {pc : LoopPc} (h : pc.Current (some .cancelling)) :
    pc.Current none := by
  cases pc <;> grind [LoopPc.Current]

/-- Every slot is on the counter, handed to the loop, with the loop, with a task, or lost. -/
structure Slots.Kept (limit : ℕ) (w : Slots) : Prop where
  permits : w.slots.value + w.slots.handed + Acquire.held w.acquire + w.tasks.length + w.lost =
    limit
  inQueue : Acquire.InQueue w.acquire w.slots.queue
  current : w.pc.Current w.acquire

namespace Slots

variable {limit : ℕ} {w w' : Slots} {a : Option Acquire} {s : Semaphore Unit}

theorem Kept.new : Kept limit (new limit) := ⟨rfl, rfl, rfl⟩

theorem release_inQueue (h : Acquire.InQueue a s.queue) : Acquire.InQueue a s.release.queue ∧
    s.release.value + s.release.handed = s.value + s.handed + 1 := by
  obtain ⟨value, queue⟩ := s
  have hqueue : queue = [] ∨ queue = [⟨(), true⟩] ∨ queue = [⟨(), false⟩] ∧ a = some .waiting := by
    rcases a with _ | _ | _ | _ | _ <;> simp_all [Acquire.InQueue, or_comm]
  rcases hqueue with rfl | rfl | ⟨rfl, rfl⟩
  · exact ⟨h, rfl⟩
  · exact ⟨h, Nat.add_right_comm value 1 1⟩
  · exact ⟨.inr rfl, rfl⟩

theorem resume_alone (value : ℕ) :
    Semaphore.resume () ⟨value, [⟨(), true⟩]⟩ = ⟨value, []⟩ := by
  cases value with
  | zero => rfl
  | succ value => rfl

theorem Kept.step {e : SlotEvent} (h : Kept limit w) (hstep : w.step e = some w') :
    Kept limit w' := by
  obtain ⟨pc, acquire, ⟨value, queue⟩, tasks, lost, stopping⟩ := w
  obtain ⟨hpermits, hqueue, hcurrent⟩ := h
  cases e with
  | stop => grind [Slots.step, Kept]
  | look | poll => grind [Slots.step, Kept, LoopPc.Current, Acquire.InQueue, Acquire.held]
  | acquire =>
    obtain ⟨rfl, hstep⟩ := Option.ite_none_right_eq_some.mp hstep
    obtain rfl : queue = [] := hqueue
    cases value with
    | zero =>
      cases hstep
      exact ⟨hpermits, .inl rfl, hcurrent.acquiring (.inl rfl) (.inl rfl)⟩
    | succ value =>
      cases hstep
      exact ⟨hpermits, rfl, hcurrent.acquiring (.inl rfl) (.inr rfl)⟩
  | resume =>
    obtain ⟨⟨rfl, hwoken⟩, hstep⟩ := Option.ite_none_right_eq_some.mp hstep
    rcases hqueue with rfl | rfl
    · simp [woken] at hwoken
    · rw [resume_alone] at hstep
      cases hstep
      exact ⟨hpermits, rfl, hcurrent.acquiring (.inr rfl) (.inr rfl)⟩
  | go =>
    grind [Slots.step, woken, acquireOrStop, cancelAcquire, release_inQueue, Kept,
      LoopPc.Current, Acquire.InQueue, Acquire.held, Semaphore.handed, Semaphore.remove]
  | unwind =>
    obtain ⟨⟨rfl, -⟩, hstep⟩ := Option.ite_none_right_eq_some.mp hstep
    obtain rfl : queue = [⟨(), true⟩] := hqueue
    cases hstep
    exact ⟨hpermits, rfl, hcurrent.unwound⟩
  | claimed found =>
    grind [Slots.step, afterClaim, release_inQueue, Kept, LoopPc.Current, Acquire.InQueue,
      Acquire.held]
  | start i => grind [Slots.step, Kept]
  | finish i => grind [Slots.step, release_inQueue, Kept]
  | lose i => grind [Slots.step, Kept]
  | drained => grind [Slots.step, Kept, LoopPc.Current]

end Slots

variable {concurrency : ℕ} {h : List (Slots × SlotEvent)} {w : Slots}

theorem SlotsRun.kept (hrun : SlotsRun concurrency h w) : w.Kept concurrency :=
  hrun.always (by rintro _ rfl; exact .new) fun _ _ _ hkept hstep => hkept.step hstep

/-- The loop and the tasks never have more slots than there are, and none is lost but with
the tasks that were cancelled before they had begun. -/
theorem slots_accounted (hrun : SlotsRun concurrency h w) :
    Acquire.held w.acquire + w.tasks.length ≤ concurrency ∧
      (w.acquire = none → w.slots.value + w.tasks.length + w.lost = concurrency) := by
  have hpermits := hrun.kept.permits
  refine ⟨by omega, fun hnone => ?_⟩
  have hqueue := hrun.kept.inQueue
  rw [hnone] at hpermits hqueue
  simpa [Semaphore.handed, Acquire.held, show w.slots.queue = [] from hqueue] using hpermits

theorem slots_accounted_lost : ∃ h w, SlotsRun 2 h w ∧ w.lost = 1 ∧
    w.slots.value + w.tasks.length + w.lost = 2 := by
  obtain ⟨h, w, hrun, hlost, hnone⟩ := Transition.Run.exists_of_exec
    (fun w => w = Slots.new 2) Slots.step _ rfl
    [.look, .acquire, .go, .claimed true, .look, .acquire, .stop, .go, .lose 0]
    (fun p => p.2.lost = 1 ∧ p.2.acquire = none) (by decide)
  exact ⟨h, w, hrun, hlost, (slots_accounted hrun).2 hnone⟩

/-- The rows claimed after the signal. -/
def claimsAfterStop (h : List (Slots × SlotEvent)) : ℕ :=
  h.countP fun p => p.1.stopping && p.2 = .claimed true

/-- The claims that the loop can still make after the signal. -/
def Slots.spare (w : Slots) : ℕ := if w.stopping = true ∧ w.pc ≠ .claiming then 0 else 1

theorem spare_step {w' : Slots} {e : SlotEvent} (hstep : w.step e = some w') :
    w'.spare + claimsAfterStop [(w, e)] ≤ w.spare := by
  cases e <;> grind [Slots.step, Slots.spare, claimsAfterStop, Slots.acquireOrStop,
    Slots.cancelAcquire, Slots.afterClaim]

theorem SlotsRun.claimsAfterStop_le (hrun : SlotsRun concurrency h w) :
    claimsAfterStop h + w.spare ≤ 1 := by
  refine hrun.always_history (I := fun h w => claimsAfterStop h + w.spare ≤ 1) ?_ ?_
  · rintro _ rfl
    exact le_rfl
  · intro h w e w' hle hstep
    have hspare := spare_step hstep
    have hcons : claimsAfterStop ((w, e) :: h) = claimsAfterStop h + claimsAfterStop [(w, e)] := by
      simp [claimsAfterStop, List.countP_cons]
    omega

def Slots.drains (w : Slots) : Bool := w.pc = .draining || w.pc = .closed

/-- After the signal at most one more row is claimed, and whatever the claim answers, the loop
comes to `_drain` without waiting for a slot or a task. -/
theorem stop_drains (hrun : SlotsRun concurrency h w) (found : Bool) : claimsAfterStop h ≤ 1 ∧
    (w.stopping = true → ∃ es ⊆ [.go, .claimed found, .poll, .look],
      (Transition.exec Slots.step h w es).any (fun p => p.2.drains) = true) := by
  have hle := hrun.claimsAfterStop_le
  refine ⟨by omega, fun hstop => ?_⟩
  cases hpc : w.pc with
  | top => exact ⟨[.look], by simp, by simp [Transition.exec, Slots.step, Slots.drains, hpc, hstop]⟩
  | idle =>
    exact ⟨[.poll, .look], by simp,
      by simp [Transition.exec, Slots.step, Slots.drains, hpc, hstop]⟩
  | acquiring =>
    refine ⟨[.go], by simp, ?_⟩
    have hdrains : w.acquireOrStop.pc = .draining := by
      rw [Slots.acquireOrStop, if_pos hstop]
      split <;> rfl
    simp [Transition.exec, Slots.step, Slots.drains, hpc, hstop, hdrains]
  | claiming =>
    refine ⟨[.claimed found] ++ (if found then [] else [.poll]) ++ [.look], ?_, ?_⟩
    · cases found <;> simp
    · cases found <;>
        simp [Transition.exec, Slots.step, Slots.drains, Slots.afterClaim, hpc, hstop]
  | draining | closed => exact ⟨[], by simp, by simp [Transition.exec, Slots.drains, hpc]⟩

theorem stop_drains_busy : ∃ h w, SlotsRun 1 h w ∧ w.tasks = [true] ∧ claimsAfterStop h = 1 ∧
    ∃ es ⊆ [.go, .claimed false, .poll, .look],
      (Transition.exec Slots.step h w es).any (fun p => p.2.drains) = true := by
  obtain ⟨h, w, hrun, htasks, hclaims, hstop⟩ := Transition.Run.exists_of_exec
    (fun w => w = Slots.new 1) Slots.step _ rfl
    [.look, .acquire, .go, .stop, .claimed true, .start 0]
    (fun p => p.2.tasks = [true] ∧ claimsAfterStop p.1 = 1 ∧ p.2.stopping = true) (by decide)
  exact ⟨h, w, hrun, htasks, hclaims, (stop_drains hrun false).2 hstop⟩

end Worker

end EmailExtractor
