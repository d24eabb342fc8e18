import Mathlib.Algebra.Order.Ring.Rat
import Mathlib.Data.Rat.Defs
import EmailExtractor.Library.Dict

/-!
# The circuit breaker

`CircuitBreaker` of `app/ratelimit.py`. Times and durations are exact rationals
in seconds, and one call of a method reads the clock once, so every method takes
the reading `now`. The property `state` moves an open breaker to half open as a
side effect of being read, hence it returns the breaker it leaves behind.

Two operators of the source can raise inside `record`. The product
`open_seconds * 2 ** k` converts `2 ** k` to a float, which fails from `k = 1024`
on, and the failure rate divides by the number of stored outcomes. A method that
raises has already changed the breaker, so its model returns the changed breaker
and the exception side by side.
-/

namespace EmailExtractor

namespace RateLimit

inductive Phase
  | closed
  | opened
  | halfOpen
  deriving DecidableEq, Repr

/-- The configuration fields of the breaker, with the defaults of the source. The floats are
exact here: the rounding of the share of failures and of the clock readings is left out. -/
structure Config where
  provider : String
  window : ℕ := 200
  threshold : ℚ := 3 / 10
  openSeconds : ℚ := 60
  maxOpenSeconds : ℚ := 300
  probes : ℕ := 5
  probesNeeded : ℕ := 3
  minSamples : ℕ := 20
  recoveryMultiple : ℚ := 4

structure Breaker where
  outcomes : List Bool := []
  phase : Phase := .closed
  openedAt : ℚ := 0
  closedAt : ℚ := 0
  openFor : ℚ := 0
  consecutiveOpens : ℕ := 0
  probeResults : List Bool := []
  probesAdmitted : ℕ := 0
  openedCount : ℕ := 0
  failureReasons : Dict String ℕ := []
  lastOpenReasons : Dict String ℕ := []
  deriving DecidableEq

structure CircuitOpen where
  provider : String
  retryIn : ℚ
  deriving DecidableEq

inductive RecordError
  | overflowError
  | zeroDivisionError
  deriving DecidableEq

/-- The least exponent whose power of two no longer converts to a float. -/
def floatExponentLimit : ℕ := 1024

namespace Breaker

/-- The property `state`: an open breaker whose window is over becomes half
open. -/
def state (now : ℚ) (b : Breaker) : Breaker :=
  if b.phase = .opened ∧ b.openFor ≤ now - b.openedAt then
    { b with phase := .halfOpen, probeResults := [], probesAdmitted := 0 }
  else b

/-- `check`: the second component is the exception raised, `none` when the call
is admitted. -/
def check (cfg : Config) (now : ℚ) (b : Breaker) : Breaker × Option CircuitOpen :=
  let b := b.state now
  match b.phase with
  | .opened => (b, some ⟨cfg.provider, b.openFor - (now - b.openedAt)⟩)
  | .halfOpen =>
    -- Admission is counted here, not when a probe reports back.
    if cfg.probes ≤ b.probesAdmitted then (b, some ⟨cfg.provider, 1⟩)
    else ({ b with probesAdmitted := b.probesAdmitted + 1 }, none)
  | .closed => (b, none)

/-- The test in `_open` for a recovery since the last close. A `_closed_at` of
zero is falsy and stands for a breaker that never closed. -/
def recovered (cfg : Config) (now : ℚ) (b : Breaker) : Prop :=
  b.closedAt ≠ 0 ∧ cfg.openSeconds * cfg.recoveryMultiple < now - b.closedAt

instance (cfg : Config) (now : ℚ) (b : Breaker) : Decidable (b.recovered cfg now) :=
  inferInstanceAs (Decidable (_ ∧ _))

/-- `_consecutive_opens` as `_open` uses it, after the reset. -/
def exponent (cfg : Config) (now : ℚ) (b : Breaker) : ℕ :=
  if b.recovered cfg now then 0 else b.consecutiveOpens

/-- The window that `_open` computes from an exponent. -/
def windowOf (cfg : Config) (k : ℕ) : ℚ :=
  min (cfg.openSeconds * 2 ^ k) cfg.maxOpenSeconds

/-- `_open`. When the exponent is too large the product raises before any field
is written. -/
def open_ (cfg : Config) (now : ℚ) (b : Breaker) : Breaker × Option RecordError :=
  let k := b.exponent cfg now
  if floatExponentLimit ≤ k then (b, some .overflowError)
  else
    ({ b with
        openFor := windowOf cfg k
        consecutiveOpens := k + 1
        lastOpenReasons := b.failureReasons
        failureReasons := []
        phase := .opened
        openedAt := now
        outcomes := []
        probeResults := []
        probesAdmitted := 0
        openedCount := b.openedCount + 1 }, none)

def close_ (now : ℚ) (b : Breaker) : Breaker :=
  { b with phase := .closed, closedAt := now, outcomes := [], probeResults := [] }

/-- The counting of failure reasons at the head of `record`. -/
def countReason (ok : Bool) (reason : String) (b : Breaker) : Breaker :=
  if !ok && reason != "" then
    { b with failureReasons :=
        b.failureReasons.set reason (b.failureReasons.getD reason 0 + 1) }
  else b

/-- The branch of `record` for a half-open breaker: collect the result and judge
once `probes` of them are there. -/
def recordProbe (cfg : Config) (ok : Bool) (now : ℚ) (b : Breaker) :
    Breaker × Option RecordError :=
  let b := { b with probeResults := b.probeResults ++ [ok] }
  if cfg.probes ≤ b.probeResults.length then
    if cfg.probesNeeded ≤ b.probeResults.count true then (b.close_ now, none)
    else b.open_ cfg now
  else (b, none)

/-- The rest of `record`: keep the last `window` outcomes and open above the
threshold. An open breaker takes this branch too. -/
def recordOutcome (cfg : Config) (ok : Bool) (now : ℚ) (b : Breaker) :
    Breaker × Option RecordError :=
  let outcomes := b.outcomes ++ [ok]
  let b := { b with outcomes := outcomes.drop (outcomes.length - cfg.window) }
  if b.outcomes.length < cfg.minSamples then (b, none)
  else if b.outcomes.length = 0 then (b, some .zeroDivisionError)
  else if cfg.threshold < (b.outcomes.count false : ℚ) / b.outcomes.length then
    b.open_ cfg now
  else (b, none)

def record (cfg : Config) (ok : Bool) (reason : String) (now : ℚ) (b : Breaker) :
    Breaker × Option RecordError :=
  let b := (b.countReason ok reason).state now
  if b.phase = .halfOpen then b.recordProbe cfg ok now
  else b.recordOutcome cfg ok now

/-! ## What the methods do, case by case -/

theorem state_cases (now : ℚ) (b : Breaker) :
    (b.phase = .opened ∧ b.openFor ≤ now - b.openedAt ∧
      b.state now =
        { b with phase := .halfOpen, probeResults := [], probesAdmitted := 0 }) ∨
    (¬ (b.phase = .opened ∧ b.openFor ≤ now - b.openedAt) ∧ b.state now = b) := by
  unfold state
  split
  · rename_i h
    exact .inl ⟨h.1, h.2, rfl⟩
  · rename_i h
    exact .inr ⟨h, rfl⟩

theorem countReason_eq (ok : Bool) (reason : String) (b : Breaker) :
    b.countReason ok reason =
      { b with failureReasons := (b.countReason ok reason).failureReasons } := by
  unfold countReason
  split <;> rfl

theorem phase_countReason (ok : Bool) (reason : String) (b : Breaker) :
    (b.countReason ok reason).phase = b.phase := by
  rw [countReason_eq]

theorem state_countReason (ok : Bool) (reason : String) (now : ℚ) (b : Breaker) :
    (b.countReason ok reason).state now = (b.state now).countReason ok reason := by
  unfold countReason state
  split <;> split <;> rfl

/-- The breaker `r` is `b` with a window that started at `now`. -/
structure StartsWindow (cfg : Config) (now : ℚ) (b r : Breaker) : Prop where
  exponent_lt : b.exponent cfg now < floatExponentLimit
  phase : r.phase = .opened
  openedAt : r.openedAt = now
  closedAt : r.closedAt = b.closedAt
  openFor : r.openFor = windowOf cfg (b.exponent cfg now)
  consecutiveOpens : r.consecutiveOpens = b.exponent cfg now + 1
  openedCount : r.openedCount = b.openedCount + 1

theorem open_cases (cfg : Config) (now : ℚ) (b : Breaker) :
    (floatExponentLimit ≤ b.exponent cfg now ∧
      b.open_ cfg now = (b, some .overflowError)) ∨
    StartsWindow cfg now b (b.open_ cfg now).1 := by
  unfold open_
  by_cases h : floatExponentLimit ≤ b.exponent cfg now
  · exact .inl ⟨h, by simp [h]⟩
  · refine .inr ⟨Nat.lt_of_not_le h, ?_, ?_, ?_, ?_, ?_, ?_⟩ <;> simp [h]

/-- The outcome `ok` is the last one a half-open breaker waits for and leaves it
with too few successes, so that `record` opens the breaker again. -/
def Reopens (cfg : Config) (ok : Bool) (b : Breaker) : Prop :=
  b.phase = .halfOpen ∧ cfg.probes ≤ b.probeResults.length + 1 ∧
    (b.probeResults ++ [ok]).count true < cfg.probesNeeded

instance (cfg : Config) (ok : Bool) (b : Breaker) : Decidable (b.Reopens cfg ok) :=
  inferInstanceAs (Decidable (_ ∧ _ ∧ _))

/-- What a half-open breaker makes of one more result: it goes on collecting, it
closes, or it opens again. -/
theorem recordProbe_cases (cfg : Config) (ok : Bool) (now : ℚ) (b : Breaker)
    (hb : b.phase = .halfOpen) :
    (b.probeResults.length + 1 < cfg.probes ∧
      b.recordProbe cfg ok now =
        ({ b with probeResults := b.probeResults ++ [ok] }, none)) ∨
    (cfg.probes ≤ b.probeResults.length + 1 ∧
      cfg.probesNeeded ≤ (b.probeResults ++ [ok]).count true ∧
      b.recordProbe cfg ok now =
        (({ b with probeResults := b.probeResults ++ [ok] } : Breaker).close_ now, none)) ∨
    (b.Reopens cfg ok ∧
      b.recordProbe cfg ok now =
        ({ b with probeResults := b.probeResults ++ [ok] } : Breaker).open_ cfg now) := by
  simp only [recordProbe, List.length_append, List.length_singleton]
  by_cases hlen : cfg.probes ≤ b.probeResults.length + 1
  · by_cases hsum : cfg.probesNeeded ≤ (b.probeResults ++ [ok]).count true
    · exact .inr (.inl ⟨hlen, hsum, by rw [if_pos hlen, if_pos hsum]⟩)
    · refine .inr (.inr ⟨⟨hb, hlen, Nat.lt_of_not_le hsum⟩, ?_⟩)
      rw [if_pos hlen, if_neg hsum]
  · exact .inl ⟨Nat.lt_of_not_le hlen, by rw [if_neg hlen]⟩

def keptOutcomes (cfg : Config) (ok : Bool) (b : Breaker) : List Bool :=
  (b.outcomes ++ [ok]).drop ((b.outcomes ++ [ok]).length - cfg.window)

/-- The kept outcomes are enough to judge by and too many of them failed. -/
def Trips (cfg : Config) (ok : Bool) (b : Breaker) : Prop :=
  cfg.minSamples ≤ (b.keptOutcomes cfg ok).length ∧ (b.keptOutcomes cfg ok).length ≠ 0 ∧
    cfg.threshold <
      ((b.keptOutcomes cfg ok).count false : ℚ) / (b.keptOutcomes cfg ok).length

instance (cfg : Config) (ok : Bool) (b : Breaker) : Decidable (b.Trips cfg ok) :=
  inferInstanceAs (Decidable (_ ∧ _ ∧ _))

theorem recordOutcome_cases (cfg : Config) (ok : Bool) (now : ℚ) (b : Breaker) :
    (¬ b.Trips cfg ok ∧
      (b.recordOutcome cfg ok now).1 = { b with outcomes := b.keptOutcomes cfg ok }) ∨
    (b.Trips cfg ok ∧
      b.recordOutcome cfg ok now =
        ({ b with outcomes := b.keptOutcomes cfg ok } : Breaker).open_ cfg now) := by
  simp only [recordOutcome, Trips, keptOutcomes]
  split
  · rename_i h
    exact .inl ⟨fun ht => absurd ht.1 (Nat.not_le_of_lt h), rfl⟩
  · rename_i h
    split
    · rename_i h0
      exact .inl ⟨fun ht => ht.2.1 h0, rfl⟩
    · rename_i h0
      split
      · rename_i hr
        exact .inr ⟨⟨Nat.le_of_not_lt h, h0, hr⟩, rfl⟩
      · rename_i hr
        exact .inl ⟨fun ht => hr ht.2.2, rfl⟩

/-- `record` first reads the state and counts the reason; the phase it then
finds decides the branch. -/
theorem record_eq (cfg : Config) (ok : Bool) (reason : String) (now : ℚ) (b : Breaker) :
    b.record cfg ok reason now =
      if (b.state now).phase = .halfOpen then
        ((b.state now).countReason ok reason).recordProbe cfg ok now
      else ((b.state now).countReason ok reason).recordOutcome cfg ok now := by
  simp only [record, state_countReason, phase_countReason]

/-- The outcome makes `record` call `_open`. -/
def Opens (cfg : Config) (ok : Bool) (b : Breaker) : Prop :=
  b.Reopens cfg ok ∨ (b.phase ≠ .halfOpen ∧ b.Trips cfg ok)

instance (cfg : Config) (ok : Bool) (b : Breaker) : Decidable (b.Opens cfg ok) :=
  inferInstanceAs (Decidable (_ ∨ _))

/-- The fields that only an opening writes. -/
def SameOpening (b b' : Breaker) : Prop :=
  b'.openedAt = b.openedAt ∧ b'.openFor = b.openFor ∧
    b'.consecutiveOpens = b.consecutiveOpens ∧ b'.openedCount = b.openedCount

/-- The breaker `c` differs from `b` only in what an opening does not read. -/
structure SameBefore (cfg : Config) (now : ℚ) (b c : Breaker) : Prop where
  opening : b.SameOpening c
  closedAt : c.closedAt = b.closedAt
  exponent : c.exponent cfg now = b.exponent cfg now

theorem StartsWindow.of_sameBefore {cfg : Config} {now : ℚ} {b c r : Breaker}
    (h : StartsWindow cfg now c r) (hsame : SameBefore cfg now b c) :
    StartsWindow cfg now b r := by
  obtain ⟨⟨_, _, _, hcount⟩, hclosed, hexp⟩ := hsame
  constructor
  · exact hexp ▸ h.exponent_lt
  · exact h.phase
  · exact h.openedAt
  · exact h.closedAt.trans hclosed
  · exact hexp ▸ h.openFor
  · exact hexp ▸ h.consecutiveOpens
  · exact hcount ▸ h.openedCount

theorem read_sameBefore (cfg : Config) (ok : Bool) (reason : String) (now : ℚ)
    (b : Breaker) : SameBefore cfg now b ((b.state now).countReason ok reason) := by
  rw [(b.state now).countReason_eq ok reason]
  rcases b.state_cases now with ⟨_, _, hst⟩ | ⟨_, hst⟩
  · rw [hst]
    exact ⟨⟨rfl, rfl, rfl, rfl⟩, rfl, rfl⟩
  · rw [hst]
    exact ⟨⟨rfl, rfl, rfl, rfl⟩, rfl, rfl⟩

theorem state_phase_ne_closed (now : ℚ) (b : Breaker) :
    (b.state now).phase ≠ .closed ↔ b.phase ≠ .closed := by
  rcases b.state_cases now with ⟨hp, _, hst⟩ | ⟨_, hst⟩
  · rw [hst]
    simp [hp]
  · rw [hst]

/-- The effect of `record` on the breaker, in three cases: it starts a window, it
closes the breaker, or it leaves phase and opening as it found them. -/
theorem record_effect (cfg : Config) (ok : Bool) (reason : String) (now : ℚ)
    (b : Breaker) :
    ((b.state now).Opens cfg ok ∧
      StartsWindow cfg now b (b.record cfg ok reason now).1) ∨
    (¬ (b.state now).Opens cfg ok ∧ (b.state now).phase = .halfOpen ∧
      (b.record cfg ok reason now).1.phase = .closed ∧
      (b.record cfg ok reason now).1.closedAt = now ∧
      b.SameOpening (b.record cfg ok reason now).1) ∨
    (((b.state now).Opens cfg ok → floatExponentLimit ≤ b.exponent cfg now) ∧
      (b.record cfg ok reason now).1.phase = (b.state now).phase ∧
      (b.record cfg ok reason now).1.closedAt = b.closedAt ∧
      b.SameOpening (b.record cfg ok reason now).1) := by
  have hread := b.read_sameBefore cfg ok reason now
  have hcount := (b.state now).countReason_eq ok reason
  have hphase := (b.state now).phase_countReason ok reason
  rw [b.record_eq cfg ok reason now]
  split
  · rename_i hp
    rcases recordProbe_cases cfg ok now _ (hphase.trans hp) with
      ⟨hlt, heq⟩ | ⟨_, hsum, heq⟩ | ⟨hre, heq⟩
    · rw [heq]
      refine .inr (.inr ⟨?_, hphase, hread.closedAt, hread.opening⟩)
      rintro (⟨_, hlen, _⟩ | ⟨hne, _⟩)
      · rw [hcount] at hlt
        exact absurd hlen (Nat.not_le_of_lt hlt)
      · exact absurd hp hne
    · rw [heq]
      refine .inr (.inl ⟨?_, hp, rfl, rfl, hread.opening⟩)
      rintro (⟨_, _, hfew⟩ | ⟨hne, _⟩)
      · rw [hcount] at hsum
        exact absurd hsum (Nat.not_le_of_lt hfew)
      · exact absurd hp hne
    · rw [heq]
      rw [hcount] at hre
      rcases open_cases cfg now { (b.state now).countReason ok reason with
          probeResults := ((b.state now).countReason ok reason).probeResults ++ [ok] } with
        ⟨hbig, hraise⟩ | hstart
      · rw [hraise]
        exact .inr (.inr ⟨fun _ => hread.exponent ▸ hbig, hphase, hread.closedAt,
          hread.opening⟩)
      · exact .inl ⟨.inl hre, hstart.of_sameBefore ⟨hread.opening, hread.closedAt,
          hread.exponent⟩⟩
  · rename_i hp
    rcases recordOutcome_cases cfg ok now ((b.state now).countReason ok reason) with
      ⟨hno, heq⟩ | ⟨htrip, heq⟩
    · rw [heq]
      refine .inr (.inr ⟨?_, hphase, hread.closedAt, hread.opening⟩)
      rintro (⟨hh, _⟩ | ⟨_, ht⟩)
      · exact absurd hh hp
      · rw [hcount] at hno
        exact absurd ht hno
    · rw [heq]
      rw [hcount] at htrip
      rcases open_cases cfg now { (b.state now).countReason ok reason with
          outcomes := ((b.state now).countReason ok reason).keptOutcomes cfg ok } with
        ⟨hbig, hraise⟩ | hstart
      · rw [hraise]
        exact .inr (.inr ⟨fun _ => hread.exponent ▸ hbig, hphase, hread.closedAt,
          hread.opening⟩)
      · exact .inl ⟨.inr ⟨hp, htrip⟩, hstart.of_sameBefore ⟨hread.opening,
          hread.closedAt, hread.exponent⟩⟩

theorem check_cases (cfg : Config) (now : ℚ) (b : Breaker) :
    ((b.state now).phase = .opened ∧ (b.check cfg now).1 = b.state now ∧
      (b.check cfg now).2 ≠ none) ∨
    ((b.state now).phase = .halfOpen ∧ cfg.probes ≤ (b.state now).probesAdmitted ∧
      (b.check cfg now).1 = b.state now ∧ (b.check cfg now).2 ≠ none) ∨
    ((b.state now).phase = .halfOpen ∧ (b.state now).probesAdmitted < cfg.probes ∧
      b.check cfg now =
        ({ b.state now with probesAdmitted := (b.state now).probesAdmitted + 1 }, none)) ∨
    ((b.state now).phase = .closed ∧ b.check cfg now = (b.state now, none)) := by
  unfold check
  cases h : (b.state now).phase with
  | opened | closed => simp [h]
  | halfOpen =>
    by_cases hfull : cfg.probes ≤ (b.state now).probesAdmitted
    · simp [h, hfull]
    · simp [h, hfull, Nat.lt_of_not_le hfull]

end Breaker

end RateLimit

end EmailExtractor
