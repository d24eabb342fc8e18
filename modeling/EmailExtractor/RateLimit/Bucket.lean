import EmailExtractor.Library.Run
import Mathlib.Algebra.BigOperators.Group.List.Basic
import Mathlib.Algebra.Order.Field.Basic
import Mathlib.Algebra.Order.Ring.Rat
import Mathlib.Data.Rat.Defs
import Mathlib.Tactic.GCongr
import Mathlib.Tactic.Linarith
import Mathlib.Tactic.Positivity
import Mathlib.Tactic.Ring

/-!
# The shared token bucket

`_BUCKET_LUA` of `app/ratelimit.py`, which Redis executes as one step, in exact arithmetic
and without the expiry of its key. Every client passes the reading of its own clock. A
reading that is not later than the stored one refills nothing and does not set the clock
of the bucket back, so what has been granted, together with what is left, never exceeds
the capacity and what the rate allows since the first reading.
-/

namespace EmailExtractor

namespace RateLimit

open Transition

variable {K : Type*} [Field K] [LinearOrder K]

structure Bucket (K : Type*) where
  t : K
  ts : K
  deriving DecidableEq

/-- What an execution of the script comes with: the reading of the client's clock, the
tokens it wants, and the penalty that is in force. -/
structure Attempt (K : Type*) where
  now : K
  n : K
  factor : K
  deriving DecidableEq

/-- The bucket after its refill; without one in Redis a full bucket. -/
def refilled (rate cap : K) (b : Option (Bucket K)) (e : Attempt K) : Bucket K :=
  let t := (b.map Bucket.t).getD cap
  let ts := (b.map Bucket.ts).getD e.now
  if ts < e.now then ⟨min cap (t + (e.now - ts) * (rate * e.factor)), e.now⟩ else ⟨t, ts⟩

def grants (rate cap : K) (b : Option (Bucket K)) (e : Attempt K) : Bool :=
  decide (e.n ≤ (refilled rate cap b e).t)

/-- The script: the seconds to wait, and the bucket it stores. -/
def bucketScript (rate cap : K) (b : Option (Bucket K)) (e : Attempt K) : K × Bucket K :=
  let b' := refilled rate cap b e
  if grants rate cap b e then (0, { b' with t := b'.t - e.n })
  else ((e.n - b'.t) / (rate * e.factor), b')

def penaltyFactor (fraction : K) : K := max (1 / 20) (1 - fraction)

def BucketStep (rate cap : K) (b : Option (Bucket K)) (e : Attempt K) (b' : Option (Bucket K)) :
    Prop :=
  b' = some (bucketScript rate cap b e).2

abbrev BucketRun (rate cap : K) :=
  Run (fun b : Option (Bucket K) => b = none) (BucketStep rate cap)

/-- The client wants a token at least, and the penalty is one. -/
def Attempt.Valid (e : Attempt K) : Prop := 1 ≤ e.n ∧ 0 < e.factor ∧ e.factor ≤ 1

def granted (rate cap : K) (h : List (Option (Bucket K) × Attempt K)) : K :=
  (h.map fun p => if grants rate cap p.1 p.2 then p.2.n else 0).sum

def largestReading (first : K) (h : List (Option (Bucket K) × Attempt K)) : K :=
  (h.map fun p => p.2.now).foldr max first

def firstReading (h : List (Option (Bucket K) × Attempt K)) : Option K :=
  h.getLast?.map fun p => p.2.now

section

variable {rate cap : K} {e : Attempt K} {s : Bucket K}

/-! ## One execution -/

theorem refilled_none : refilled rate cap none e = ⟨cap, e.now⟩ := by
  simp [refilled]

theorem refilled_some : refilled rate cap (some s) e =
    if s.ts < e.now then ⟨min cap (s.t + (e.now - s.ts) * (rate * e.factor)), e.now⟩ else s := rfl

theorem refilled_ts : (refilled rate cap (some s) e).ts = max s.ts e.now := by
  rw [refilled_some]
  split
  · rename_i hlater
    exact (max_eq_right (le_of_lt hlater)).symm
  · rename_i hlater
    exact (max_eq_left (not_lt.mp hlater)).symm

theorem bucketScript_ts {b : Option (Bucket K)} :
    (bucketScript rate cap b e).2.ts = (refilled rate cap b e).ts := by
  unfold bucketScript
  split <;> rfl

theorem bucketScript_t (rate cap : K) (b : Option (Bucket K)) (e : Attempt K) :
    (if grants rate cap b e then e.n else 0) + (bucketScript rate cap b e).2.t =
      (refilled rate cap b e).t := by
  unfold bucketScript
  split
  · exact add_sub_cancel _ _
  · exact zero_add _

theorem ts_le_of_step {b b' : Option (Bucket K)} (hstep : BucketStep rate cap b e b') :
    ∀ s ∈ b, ∀ s' ∈ b', s.ts ≤ s'.ts := by
  rintro s rfl s' hs'
  rw [hstep, Option.mem_def, Option.some.injEq] at hs'
  rw [← hs', bucketScript_ts, refilled_ts]
  exact le_max_left _ _

theorem granted_cons (p : Option (Bucket K) × Attempt K)
    (h : List (Option (Bucket K) × Attempt K)) : granted rate cap (p :: h) =
      (if grants rate cap p.1 p.2 then p.2.n else 0) + granted rate cap h := by
  simp [granted]

end

section

variable [IsStrictOrderedRing K] {rate cap : K} {e : Attempt K} {s : Bucket K}

/-- The tokens of a stored bucket are within the capacity. -/
def Bucket.Within (cap : K) (s : Bucket K) : Prop := 0 ≤ s.t ∧ s.t ≤ cap

theorem refilled_bounds (hrate : 0 < rate) (he : e.Valid) (hs : s.Within cap) :
    (refilled rate cap (some s) e).Within cap ∧
      (refilled rate cap (some s) e).t ≤ s.t + rate * (max s.ts e.now - s.ts) := by
  obtain ⟨_, hpos, hone⟩ := he
  rw [refilled_some]
  split
  · rename_i hlater
    have hpassed : 0 ≤ e.now - s.ts := sub_nonneg.mpr (le_of_lt hlater)
    have hgain : 0 ≤ (e.now - s.ts) * (rate * e.factor) := by positivity
    have hless : (e.now - s.ts) * (rate * e.factor) ≤ rate * (e.now - s.ts) := by
      calc (e.now - s.ts) * (rate * e.factor) ≤ (e.now - s.ts) * (rate * 1) := by gcongr
        _ = rate * (e.now - s.ts) := by ring
    refine ⟨⟨le_min (hs.1.trans hs.2) (add_nonneg hs.1 hgain), min_le_left _ _⟩, ?_⟩
    rw [max_eq_right (le_of_lt hlater)]
    exact (min_le_right _ _).trans (add_le_add_right hless s.t)
  · rename_i hlater
    rw [max_eq_left (not_lt.mp hlater), sub_self, mul_zero, add_zero]
    exact ⟨hs, le_rfl⟩

theorem bucketScript_within {b : Option (Bucket K)} (he : e.Valid)
    (hrefilled : (refilled rate cap b e).Within cap) :
    (bucketScript rate cap b e).2.Within cap := by
  have hn : 0 ≤ e.n := zero_le_one.trans he.1
  unfold bucketScript
  split
  · rename_i hgrants
    exact ⟨sub_nonneg.mpr (of_decide_eq_true hgrants), (sub_le_self _ hn).trans hrefilled.2⟩
  · exact hrefilled

theorem wait_pos {b : Option (Bucket K)} (hrate : 0 < rate) (he : e.Valid)
    (hrefused : grants rate cap b e = false) : 0 < (bucketScript rate cap b e).1 := by
  have hlack : (refilled rate cap b e).t < e.n := not_le.mp (of_decide_eq_false hrefused)
  unfold bucketScript
  rw [hrefused, if_neg Bool.false_ne_true]
  exact div_pos (sub_pos.mpr hlack) (mul_pos hrate he.2.1)

/-! ## Runs -/

/-- What a run has granted and left in the bucket is covered by the capacity and by the
time that has passed since the first reading. -/
structure Balanced (rate cap first : K) (h : List (Option (Bucket K) × Attempt K))
    (s : Bucket K) : Prop where
  within : s.Within cap
  began : firstReading h = some first
  latest : s.ts = largestReading first h
  balance : granted rate cap h + s.t ≤ cap + rate * (s.ts - first)

theorem Balanced.start (hcap : 1 ≤ cap) (he : e.Valid) :
    Balanced rate cap e.now [(none, e)] (bucketScript rate cap none e).2 := by
  have hfull : (refilled rate cap none e).Within cap := by
    rw [refilled_none]
    exact ⟨zero_le_one.trans hcap, le_rfl⟩
  constructor
  case within => exact bucketScript_within he hfull
  case began => rfl
  case latest => simp [bucketScript_ts, refilled_none, largestReading]
  case balance =>
    have htaken := bucketScript_t rate cap none e
    rw [refilled_none] at htaken
    simp [granted, bucketScript_ts, refilled_none, htaken]

theorem Balanced.next {first : K} {h : List (Option (Bucket K) × Attempt K)}
    (hrate : 0 < rate) (he : e.Valid) (hs : Balanced rate cap first h s) :
    Balanced rate cap first ((some s, e) :: h) (bucketScript rate cap (some s) e).2 := by
  obtain ⟨hwithin, hgain⟩ := refilled_bounds hrate he hs.within
  constructor
  case within => exact bucketScript_within he hwithin
  case began =>
    have hne : h ≠ [] := by
      rintro rfl
      cases hs.began
    rw [← hs.began, firstReading, List.getLast?_cons_of_ne_nil hne, firstReading]
  case latest =>
    rw [bucketScript_ts, refilled_ts, hs.latest, max_comm]
    rfl
  case balance =>
    have htaken := bucketScript_t rate cap (some s) e
    have hbefore := hs.balance
    rw [granted_cons, bucketScript_ts, refilled_ts]
    calc (if grants rate cap (some s) e then e.n else 0) + granted rate cap h +
          (bucketScript rate cap (some s) e).2.t
        = granted rate cap h + (refilled rate cap (some s) e).t := by rw [← htaken]; ring
      _ ≤ granted rate cap h + (s.t + rate * (max s.ts e.now - s.ts)) := by gcongr
      _ ≤ cap + rate * (s.ts - first) + rate * (max s.ts e.now - s.ts) := by linarith
      _ = cap + rate * (max s.ts e.now - first) := by ring

theorem balanced_run {h : List (Option (Bucket K) × Attempt K)} {b : Option (Bucket K)}
    (hrate : 0 < rate) (hcap : 1 ≤ cap) (hrun : BucketRun rate cap h b)
    (hvalid : Guarded (fun _ e => e.Valid) h) :
    (h = [] ∧ b = none) ∨ ∃ s first, b = some s ∧ Balanced rate cap first h s := by
  refine hrun.invariant_history (I := fun h b =>
    (h = [] ∧ b = none) ∨ ∃ s first, b = some s ∧ Balanced rate cap first h s) ?_ ?_ hvalid
  · exact fun b hb => .inl ⟨rfl, hb⟩
  · intro h b e b' hinv he hstep
    right
    rcases hinv with ⟨rfl, rfl⟩ | ⟨s, first, rfl, hs⟩
    · exact ⟨_, _, hstep, .start hcap he⟩
    · exact ⟨_, _, hstep, hs.next hrate he⟩

/-- The bucket stays within its capacity, its clock never goes back, a refused client is
told to wait, and any number of clients with any clocks are granted no more than the
capacity and the rate allow. -/
theorem shared_rate_holds (rate cap : K) (hrate : 0 < rate) (hcap : 1 ≤ cap)
    (h : List (Option (Bucket K) × Attempt K)) (b : Option (Bucket K))
    (hrun : BucketRun rate cap h b) (hvalid : Guarded (fun _ e => e.Valid) h) :
    (∀ s ∈ b, 0 ≤ s.t ∧ s.t ≤ cap) ∧
      Along (fun _ b e b' => (∀ s ∈ b, ∀ s' ∈ b', s.ts ≤ s'.ts) ∧
        (grants rate cap b e = false → 0 < (bucketScript rate cap b e).1)) h b ∧
      ∀ first ∈ firstReading h,
        granted rate cap h ≤ cap + rate * (largestReading first h - first) := by
  have halong : Along (fun _ b e b' => (∀ s ∈ b, ∀ s' ∈ b', s.ts ≤ s'.ts) ∧
      (grants rate cap b e = false → 0 < (bucketScript rate cap b e).1)) h b := by
    refine Run.along (I := fun _ => True) (fun _ _ => trivial) (fun _ _ _ _ _ _ => trivial) ?_
      hrun hvalid
    intro _ b e b' _ he hstep
    exact ⟨ts_le_of_step hstep, wait_pos hrate he⟩
  rcases balanced_run hrate hcap hrun hvalid with ⟨rfl, rfl⟩ | ⟨s, first, rfl, hs⟩
  · exact ⟨by simp, halong, by simp [firstReading]⟩
  · refine ⟨?_, halong, ?_⟩
    · rintro s' ⟨rfl⟩
      exact hs.within
    · intro first' hfirst
      rw [hs.began, Option.mem_def, Option.some.injEq] at hfirst
      subst hfirst
      rw [← hs.latest]
      have hbalance := hs.balance
      have hleft := hs.within.1
      linarith

end

/-- A client takes two of three tokens, one whose clock is behind is refused, and the
first comes back a second later. -/
theorem skewed_clients_share_rate :
    ∃ h b, BucketRun (1 : ℚ) 3 h b ∧ h.map (fun p => grants (1 : ℚ) 3 p.1 p.2) =
        [true, false, true] ∧
      granted 1 3 h = 4 ∧ granted 1 3 h ≤ 3 + 1 * (largestReading 10 h - 10) := by
  have hrun : BucketRun (1 : ℚ) 3 _ _ :=
    .next (a := ⟨11, 2, 1⟩) (.next (a := ⟨9, 2, 1 / 2⟩) (.next (a := ⟨10, 2, 1⟩) (.start rfl) rfl)
      rfl) rfl
  refine ⟨_, _, hrun, by decide +kernel, by decide +kernel, ?_⟩
  refine (shared_rate_holds 1 3 one_pos (by norm_num) _ _ hrun ?_).2.2 10 rfl
  simp [guarded_cons, Attempt.Valid]
  norm_num

end RateLimit

end EmailExtractor
