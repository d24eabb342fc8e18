import EmailExtractor.Library.Run
import EmailExtractor.RateLimit.Breaker

/-!
# The breaker among its clients

The state of the system is the breaker, the clock and the calls in flight: the
calls that `check` admitted and that have neither recorded an outcome nor been
abandoned. A call is abandoned when its task is cancelled after `check`, in a
semaphore, in the bucket or in the request (`FetchGate._Slot.__aenter__`,
`_BaseFetcher._attempt_with_retries`): no handler there records an outcome for a
cancelled call.

A call remembers the half-open phase that admitted it as a probe. Every opening
raises `opened_count`, so that number names the phase.
-/

namespace EmailExtractor

namespace RateLimit

open Transition

/-- A call in flight. `probeOf` is the value of `opened_count` when the call was
admitted by a half-open breaker. -/
structure Call where
  probeOf : Option ℕ
  deriving DecidableEq

structure System where
  breaker : Breaker
  now : ℚ
  calls : List Call
  deriving DecidableEq

/-- What the clients of a breaker do. `peek` reads the property `state`, as
`Worker.health` and `seconds_until_close` do. -/
inductive Action
  | check
  | record (i : ℕ) (ok : Bool) (reason : String)
  | abandon (i : ℕ)
  | peek
  | wait (d : ℚ)
  deriving DecidableEq

/-- The tag of a call that the breaker `b` has just admitted. -/
def admittedCall (b : Breaker) : Call :=
  ⟨if b.phase = .halfOpen then some b.openedCount else none⟩

def step (cfg : Config) (s : System) : Action → Option System
  | .check =>
    let r := s.breaker.check cfg s.now
    some { s with
      breaker := r.1
      calls := if r.2.isNone then s.calls ++ [admittedCall r.1] else s.calls }
  | .record i ok reason =>
    if i < s.calls.length then
      some { s with
        breaker := (s.breaker.record cfg ok reason s.now).1
        calls := s.calls.eraseIdx i }
    else none
  | .abandon i =>
    if i < s.calls.length then some { s with calls := s.calls.eraseIdx i } else none
  | .peek => some { s with breaker := s.breaker.state s.now }
  | .wait d => if 0 ≤ d then some { s with now := s.now + d } else none

/-- A fresh breaker with no call in flight, at any clock reading. -/
def Initial (s : System) : Prop := s.breaker = {} ∧ s.calls = []

def Steps (cfg : Config) (s : System) (a : Action) (s' : System) : Prop :=
  step cfg s a = some s'

abbrev ClientRun (cfg : Config) := Run Initial (Steps cfg)

/-- The call is a probe of the half-open phase the breaker is in. -/
def Call.isProbe (b : Breaker) (c : Call) : Bool :=
  decide (b.phase = .halfOpen) && decide (c.probeOf = some b.openedCount)

theorem countP_isProbe_admitted {b : Breaker} (calls : List Call) (hb : b.phase = .halfOpen) :
    (calls ++ [admittedCall b]).countP
      (Call.isProbe { b with probesAdmitted := b.probesAdmitted + 1 }) =
        calls.countP (Call.isProbe b) + 1 := by
  rw [List.countP_append]
  congr 1
  simp [Call.isProbe, admittedCall, hb]

theorem check_step_cases {cfg : Config} {s s' : System} (h : Steps cfg s .check s') :
    ((s.breaker.state s.now).phase ≠ .closed ∧
      s' = { s with breaker := s.breaker.state s.now }) ∨
    ((s.breaker.state s.now).phase = .halfOpen ∧
      s' = { s with
        breaker := { s.breaker.state s.now with
          probesAdmitted := (s.breaker.state s.now).probesAdmitted + 1 }
        calls := s.calls ++ [admittedCall (s.breaker.state s.now)] }) ∨
    ((s.breaker.state s.now).phase = .closed ∧
      s' = { s with
        breaker := s.breaker.state s.now
        calls := s.calls ++ [admittedCall (s.breaker.state s.now)] }) := by
  simp only [Steps, step, Option.some.injEq] at h
  rcases s.breaker.check_cases cfg s.now with
    ⟨hp, hb, hno⟩ | ⟨hp, _, hb, hno⟩ | ⟨hp, _, heq⟩ | ⟨hp, heq⟩
  · refine .inl ⟨by simp [hp], ?_⟩
    rw [← h, hb, if_neg (by simpa using hno)]
  · refine .inl ⟨by simp [hp], ?_⟩
    rw [← h, hb, if_neg (by simpa using hno)]
  · refine .inr (.inl ⟨hp, ?_⟩)
    rw [← h, heq]
    rfl
  · refine .inr (.inr ⟨hp, ?_⟩)
    rw [← h, heq]
    rfl

theorem record_step {cfg : Config} {s s' : System} {i : ℕ} {ok : Bool} {reason : String}
    (h : Steps cfg s (.record i ok reason) s') :
    s' = { s with
      breaker := (s.breaker.record cfg ok reason s.now).1
      calls := s.calls.eraseIdx i } := by
  simp only [Steps, step, Option.ite_none_right_eq_some, Option.some.injEq] at h
  exact h.2.symm

theorem abandon_step {cfg : Config} {s s' : System} {i : ℕ}
    (h : Steps cfg s (.abandon i) s') : s' = { s with calls := s.calls.eraseIdx i } := by
  simp only [Steps, step, Option.ite_none_right_eq_some, Option.some.injEq] at h
  exact h.2.symm

theorem peek_step {cfg : Config} {s s' : System} (h : Steps cfg s .peek s') :
    s' = { s with breaker := s.breaker.state s.now } := by
  simpa [Steps, step] using h.symm

theorem wait_step {cfg : Config} {s s' : System} {d : ℚ} (h : Steps cfg s (.wait d) s') :
    0 ≤ d ∧ s' = { s with now := s.now + d } := by
  simp only [Steps, step, Option.ite_none_right_eq_some, Option.some.injEq] at h
  exact ⟨h.1, h.2.symm⟩

end RateLimit

end EmailExtractor
