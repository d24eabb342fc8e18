import EmailExtractor.RateLimit.Bucket
import Mathlib.Algebra.Order.Floor.Ring
import Mathlib.Data.Rat.Floor

/-!
# The local and the shared bucket

`TokenBucket` and `RedisTokenBucket` of `app/ratelimit.py` on one clock, in exact arithmetic.
The local bucket keeps the time of its last refill and the deadline of the penalty. Redis
keeps a pair of tokens and time that the first attempt writes, and the penalty under a key
that expires. Both apply the rate in force at an attempt to all the time since the attempt
before, and so answer every timeline of attempts and penalties alike.
-/

namespace EmailExtractor

namespace RateLimit

open Transition List

variable {K : Type*} [Field K] [LinearOrder K]

structure LimiterConfig where
  ratePerMinute : ℕ
  capacity : Option ℕ := none
  deriving DecidableEq

def LimiterConfig.rate (cfg : LimiterConfig) : K := cfg.ratePerMinute / 60

/-- `_capacity`, by default a fiftieth of the budget for a minute. -/
def LimiterConfig.cap (cfg : LimiterConfig) : K :=
  (cfg.capacity.getD (max 1 (cfg.ratePerMinute / 50)) : ℕ)

/-! ## The local bucket -/

structure TokenBucket (K : Type*) where
  tokens : K
  updated : K
  penaltyFactor : K
  penaltyUntil : K
  deriving DecidableEq

namespace TokenBucket

def new (cap now : K) : TokenBucket K := ⟨cap, now, 1, 0⟩

def effectiveRate (rate now : K) (b : TokenBucket K) : K :=
  if now < b.penaltyUntil then rate * b.penaltyFactor else rate

def refill (rate cap now : K) (b : TokenBucket K) : TokenBucket K :=
  { b with
    tokens := min cap (b.tokens + (now - b.updated) * b.effectiveRate rate now)
    updated := now }

/-- One round of `acquire`: the wait unless the tokens are taken. -/
def tryAcquire (rate cap now n : K) (b : TokenBucket K) : Option K × TokenBucket K :=
  let b := b.refill rate cap now
  if n ≤ b.tokens then (none, { b with tokens := b.tokens - n })
  else (some ((n - b.tokens) / max (b.effectiveRate rate now) (1 / 10 ^ 9)), b)

def penalize (now fraction seconds : K) (b : TokenBucket K) : TokenBucket K :=
  { b with penaltyFactor := RateLimit.penaltyFactor fraction, penaltyUntil := now + seconds }

end TokenBucket

/-! ## The bucket in Redis -/

/-- The key of the penalty: its value and the time at which it expires. -/
structure PenaltyKey (K : Type*) where
  factor : K
  expires : K
  deriving DecidableEq

/-- What `RedisTokenBucket` keeps in Redis. -/
structure RedisBucket (K : Type*) where
  bucket : Option (Bucket K)
  penalty : Option (PenaltyKey K)
  deriving DecidableEq

namespace RedisBucket

/-- `GET KEYS[2]`, with the default of the script. -/
def factor (now : K) (s : RedisBucket K) : K :=
  match s.penalty with
  | none => 1
  | some p => if now < p.expires then p.factor else 1

/-- `_try`: an execution of the script. It returns the wait, and zero when the tokens are
taken. -/
def tryAcquire (rate cap now n : K) (s : RedisBucket K) : K × RedisBucket K :=
  let r := bucketScript rate cap s.bucket ⟨now, n, s.factor now⟩
  (r.1, { s with bucket := some r.2 })

/-- `penalize`, with the task that sets the key run at once. The key lives for
`int(seconds * 1000)` milliseconds. -/
def penalize [FloorRing K] (now fraction seconds : K) (s : RedisBucket K) : RedisBucket K :=
  { s with penalty := some ⟨penaltyFactor fraction, now + (⌊seconds * 1000⌋ : K) / 1000⟩ }

end RedisBucket

/-! ## Timelines -/

/-- What happens to a limiter, with the reading of the clock. -/
inductive LimiterEvent (K : Type*)
  | attempt (now n : K)
  | penalize (now fraction seconds : K)
  deriving DecidableEq

def LimiterEvent.time : LimiterEvent K → K
  | .attempt now _ => now
  | .penalize now _ _ => now

/-- An attempt wants a token at least, and a penalty is in force for a positive number of
milliseconds. -/
def LimiterEvent.Valid : LimiterEvent K → Prop
  | .attempt _ n => 1 ≤ n
  | .penalize _ fraction seconds =>
    0 ≤ fraction ∧ fraction ≤ 1 ∧ ∃ ms : ℕ, 0 < ms ∧ seconds * 1000 = ms

/-- The events come one after the other from `start` on. -/
structure Timeline (start : K) (events : List (LimiterEvent K)) : Prop where
  valid : ∀ e ∈ events, e.Valid
  started : ∀ e ∈ events, start ≤ e.time
  ordered : events.Pairwise fun e e' => e.time ≤ e'.time

namespace Timeline

variable {start : K} {e : LimiterEvent K} {events : List (LimiterEvent K)}

theorem tail (h : Timeline start (e :: events)) : Timeline start events :=
  ⟨fun x hx => h.valid x (mem_cons_of_mem _ hx),
    fun x hx => h.started x (mem_cons_of_mem _ hx), h.ordered.of_cons⟩

theorem tail_from (h : Timeline start (e :: events)) : Timeline e.time events :=
  ⟨h.tail.valid, (pairwise_cons.mp h.ordered).1, h.tail.ordered⟩

end Timeline

/-- What an attempt comes to: the wait unless it is granted, and the tokens after it. -/
structure LimiterAnswer (K : Type*) where
  wait : Option K
  tokens : K
  deriving DecidableEq

def TokenBucket.step (cfg : LimiterConfig) (b : TokenBucket K) :
    LimiterEvent K → Option (LimiterAnswer K) × TokenBucket K
  | .attempt now n =>
    let (wait, b) := b.tryAcquire cfg.rate cfg.cap now n
    (some ⟨wait, b.tokens⟩, b)
  | .penalize now fraction seconds => (none, b.penalize now fraction seconds)

theorem TokenBucket.updated_attempt (cfg : LimiterConfig) (b : TokenBucket K) (now n : K) :
    (b.step cfg (.attempt now n)).2.updated = now := by
  simp only [TokenBucket.step, TokenBucket.tryAcquire]
  split
  · rfl
  · rfl

/-- The bucket in Redis through an event. The attempt is granted when the wait is zero. -/
def RedisBucket.step [FloorRing K] (cfg : LimiterConfig) (s : RedisBucket K) :
    LimiterEvent K → Option (LimiterAnswer K) × RedisBucket K
  | .attempt now n =>
    let (wait, s) := s.tryAcquire cfg.rate cfg.cap now n
    (s.bucket.map fun b => ⟨if wait ≤ 0 then none else some wait, b.t⟩, s)
  | .penalize now fraction seconds => (none, s.penalize now fraction seconds)

/-! ## The simulation -/

section

variable [IsStrictOrderedRing K] {cfg : LimiterConfig} {b : TokenBucket K} {s : RedisBucket K}
  {now n fraction seconds : K}

/-- The local bucket and the one in Redis hold the same: the tokens, once Redis has them,
with their time, and the rate in force. -/
structure SameLimiter (cfg : LimiterConfig) (b : TokenBucket K) (s : RedisBucket K) : Prop where
  tokens_le : b.tokens ≤ cfg.cap
  bucket : s.bucket = some ⟨b.tokens, b.updated⟩ ∨ s.bucket = none ∧ b.tokens = cfg.cap
  rate : ∀ now, b.effectiveRate cfg.rate now = cfg.rate * s.factor now
  factor : ∀ now, 1 / 20 ≤ s.factor now

namespace SameLimiter

section

variable (h : SameLimiter cfg b s)

include h

/-- A penalty never brings the rate below a twentieth, far above the guard of the wait. -/
theorem guard_lt (hrpm : 1 ≤ cfg.ratePerMinute) (now : K) :
    1 / 10 ^ 9 < cfg.rate * s.factor now := by
  have hrate : (1 / 60 : K) ≤ cfg.rate := by
    have hone : (1 : K) ≤ cfg.ratePerMinute := by exact_mod_cast hrpm
    unfold LimiterConfig.rate
    linarith
  calc (1 / 10 ^ 9 : K) < 1 / 60 * (1 / 20) := by norm_num
    _ ≤ cfg.rate * s.factor now := by
        have hlow := h.factor now
        gcongr

theorem rate_pos (hrpm : 1 ≤ cfg.ratePerMinute) (now : K) : 0 < cfg.rate * s.factor now :=
  lt_trans (by positivity) (h.guard_lt hrpm now)

theorem refill (hrpm : 1 ≤ cfg.ratePerMinute) (hnow : b.updated ≤ now) :
    refilled cfg.rate cfg.cap s.bucket ⟨now, n, s.factor now⟩ =
      ⟨(b.refill cfg.rate cfg.cap now).tokens, now⟩ := by
  have hpos := h.rate_pos hrpm now
  have helapsed : 0 ≤ now - b.updated := sub_nonneg.mpr hnow
  unfold TokenBucket.refill
  rw [h.rate now]
  rcases h.bucket with hbucket | ⟨hnone, hfull⟩
  · rw [hbucket, refilled_some]
    rcases lt_or_eq_of_le hnow with hlater | hsame
    · rw [if_pos hlater]
    · rw [if_neg (by rw [hsame]; exact lt_irrefl _), ← hsame, sub_self, zero_mul, add_zero,
        min_eq_right h.tokens_le]
  · rw [hnone, refilled_none, hfull]
    congr 1
    exact (min_eq_left (le_add_of_nonneg_right (by positivity))).symm

omit [IsStrictOrderedRing K] in
theorem of_tokens {tokens updated : K} (htokens : tokens ≤ cfg.cap) :
    SameLimiter cfg { b with tokens := tokens, updated := updated }
      { s with bucket := some ⟨tokens, updated⟩ } :=
  ⟨htokens, .inl rfl, h.rate, h.factor⟩

theorem attempt [FloorRing K] (hrpm : 1 ≤ cfg.ratePerMinute) (hnow : b.updated ≤ now) (hn : 1 ≤ n) :
    (b.step cfg (.attempt now n)).1 = (s.step cfg (.attempt now n)).1 ∧
      SameLimiter cfg (b.step cfg (.attempt now n)).2 (s.step cfg (.attempt now n)).2 := by
  have hrefill := h.refill (n := n) hrpm hnow
  have hwithin : (b.refill cfg.rate cfg.cap now).tokens ≤ cfg.cap := min_le_left _ _
  by_cases hgrant : n ≤ (b.refill cfg.rate cfg.cap now).tokens
  · have hscript : bucketScript cfg.rate cfg.cap s.bucket ⟨now, n, s.factor now⟩ =
        (0, ⟨(b.refill cfg.rate cfg.cap now).tokens - n, now⟩) := by
      unfold bucketScript grants
      rw [hrefill]
      exact if_pos (decide_eq_true hgrant)
    simp only [TokenBucket.step, TokenBucket.tryAcquire, if_pos hgrant, RedisBucket.step,
      RedisBucket.tryAcquire, hscript, Option.map_some, le_refl, if_true]
    exact ⟨trivial, h.of_tokens (by linarith)⟩
  · have hpos := h.rate_pos hrpm now
    have hscript : bucketScript cfg.rate cfg.cap s.bucket ⟨now, n, s.factor now⟩ =
        ((n - (b.refill cfg.rate cfg.cap now).tokens) / (cfg.rate * s.factor now),
          ⟨(b.refill cfg.rate cfg.cap now).tokens, now⟩) := by
      unfold bucketScript grants
      rw [hrefill]
      exact if_neg (by simpa using hgrant)
    have hrate : (b.refill cfg.rate cfg.cap now).effectiveRate cfg.rate now =
        cfg.rate * s.factor now := h.rate now
    have hwait : ¬ (n - (b.refill cfg.rate cfg.cap now).tokens) / (cfg.rate * s.factor now) ≤ 0 :=
      not_le.mpr (div_pos (sub_pos.mpr (not_le.mp hgrant)) hpos)
    simp only [TokenBucket.step, TokenBucket.tryAcquire, if_neg hgrant, RedisBucket.step,
      RedisBucket.tryAcquire, hscript, Option.map_some, if_neg hwait, hrate,
      max_eq_left (h.guard_lt hrpm now).le]
    exact ⟨trivial, h.of_tokens hwithin⟩

theorem penalize [FloorRing K] (hvalid : (LimiterEvent.penalize now fraction seconds).Valid) :
    SameLimiter cfg (b.penalize now fraction seconds) (s.penalize now fraction seconds) := by
  obtain ⟨hfraction, -, ms, -, hms⟩ := hvalid
  have hexpires : now + (⌊seconds * 1000⌋ : K) / 1000 = now + seconds := by
    rw [hms, Int.floor_natCast]
    push_cast
    rw [← hms]
    ring
  have hfactor : ∀ t, (s.penalize now fraction seconds).factor t =
      if t < now + seconds then penaltyFactor fraction else 1 := by
    intro t
    rw [← hexpires]
    rfl
  refine ⟨h.tokens_le, h.bucket, fun t => ?_, fun t => ?_⟩
  · rw [hfactor]
    by_cases hforce : t < now + seconds
    · rw [if_pos hforce]
      exact if_pos hforce
    · rw [if_neg hforce, mul_one]
      exact if_neg hforce
  · rw [hfactor]
    split
    · exact le_max_left _ _
    · norm_num

end

end SameLimiter

theorem sameLimiter_new (start : K) :
    SameLimiter cfg (TokenBucket.new cfg.cap start) ⟨none, none⟩ := by
  refine ⟨le_rfl, .inr ⟨rfl, rfl⟩, fun now => ?_, fun now => ?_⟩
  · unfold TokenBucket.effectiveRate
    simp [TokenBucket.new, RedisBucket.factor]
  · norm_num [RedisBucket.factor]

end

/-- On every timeline the two limiters grant the same attempts, name the same wait for each
refused one and hold the same tokens after each attempt. -/
theorem limiters_agree [IsStrictOrderedRing K] [FloorRing K] (cfg : LimiterConfig)
    (hrpm : 1 ≤ cfg.ratePerMinute) (start : K) (events : List (LimiterEvent K))
    (htimeline : Timeline start events) :
    answers (TokenBucket.step cfg) (.new cfg.cap start) events =
      answers (RedisBucket.step cfg) ⟨none, none⟩ events := by
  -- The relation also says that the events to come are a timeline from the last refill on.
  apply answers_eq_of_simulation
    (R := fun events b s => SameLimiter cfg b s ∧ Timeline b.updated events) ?_
    ⟨sameLimiter_new start, htimeline⟩
  rintro e events b s ⟨hsame, htimeline⟩
  cases e with
  | attempt now n =>
    have hnow : b.updated ≤ now := htimeline.started _ mem_cons_self
    obtain ⟨hanswer, hnext⟩ := hsame.attempt hrpm hnow (htimeline.valid _ mem_cons_self)
    refine ⟨hanswer, hnext, ?_⟩
    rw [TokenBucket.updated_attempt]
    exact htimeline.tail_from
  | penalize now fraction seconds =>
    exact ⟨rfl, hsame.penalize (htimeline.valid _ mem_cons_self), htimeline.tail⟩

/-- An attempt for three tokens of two, a penalty, and an attempt that the penalty delays. -/
def slowed : List (LimiterEvent ℚ) :=
  [.attempt 1 3, .attempt 1 1, .attempt 2 1, .penalize 2 (1 / 4) 60, .attempt 3 2]

/-- The bucket is refilled with three quarters of a token in the second after the penalty. -/
theorem slowed_limiters_agree :
    answers (TokenBucket.step ⟨60, some 2⟩) (.new 2 0) slowed =
        [some ⟨some 1, 2⟩, some ⟨none, 1⟩, some ⟨none, 1⟩, none,
          some ⟨some (1 / 3), 7 / 4⟩] ∧
      answers (TokenBucket.step ⟨60, some 2⟩) (.new 2 0) slowed =
        answers (RedisBucket.step ⟨60, some 2⟩) ⟨none, none⟩ slowed := by
  refine ⟨by decide +kernel, limiters_agree ⟨60, some 2⟩ (by decide) 0 slowed ?_⟩
  constructor
  case valid =>
    simp only [slowed, forall_mem_cons, LimiterEvent.Valid]
    exact ⟨by norm_num, by norm_num, by norm_num, ⟨by norm_num, by norm_num, 60000, by norm_num⟩,
      by norm_num, by simp⟩
  case started => decide +kernel
  case ordered => decide +kernel

end RateLimit

end EmailExtractor
