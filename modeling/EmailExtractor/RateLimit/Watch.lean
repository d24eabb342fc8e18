import EmailExtractor.RateLimit.Escalation
import Mathlib.Data.List.DropRight

/-!
# What a closed breaker watches

From a fresh or a just closed breaker a sequence of outcomes is recorded. As long as the
breaker stays closed it stores the last `window` of them, and it opens at the first outcome
with which too many of these are failures.

The exception is an escalation counter of 1024 or more. `_open` then raises, and the breaker
stays closed with an outcome too many.
-/

namespace EmailExtractor

namespace RateLimit

open Transition List

structure Report where
  ok : Bool
  reason : String
  now : ℚ
  deriving DecidableEq

/-- The breaker after a sequence of calls of `record`. An exception of one call reaches its
caller, and the next call meets the breaker as it was left. -/
def recordAll (cfg : Config) (b : Breaker) (rs : List Report) : Breaker :=
  rs.foldl (fun b r => (b.record cfg r.ok r.reason r.now).1) b

/-- The breaker is closed before and after every one of the records. -/
def StaysClosed (cfg : Config) (b : Breaker) (rs : List Report) : Prop :=
  ∀ ps, ps <+: rs → (recordAll cfg b ps).phase = .closed

/-- A breaker that has not been used, or that has just closed. -/
def JustClosed (b : Breaker) : Prop :=
  b = {} ∨ ∃ now b', b = Breaker.close_ now b'

/-- The last `window` of the recorded outcomes. -/
def watched (cfg : Config) (rs : List Report) : List Bool :=
  (rs.map Report.ok).rtake cfg.window

/-- Too few outcomes to judge by, or few enough failures among them. -/
def Tolerated (cfg : Config) (outcomes : List Bool) : Prop :=
  outcomes.length < cfg.minSamples ∨
    (outcomes.count false : ℚ) ≤ cfg.threshold * outcomes.length

instance (cfg : Config) (outcomes : List Bool) : Decidable (Tolerated cfg outcomes) :=
  inferInstanceAs (Decidable (_ ∨ _))

/-- No outcome so far has been one too many. -/
def Calm (cfg : Config) (rs : List Report) : Prop :=
  ∀ ps, ps <+: rs → Tolerated cfg (watched cfg ps)

/-- As long as it is closed the breaker stores the last outcomes, they are tolerated, and
the next record opens it exactly when they no longer are. -/
def WatchesLast (cfg : Config) (b : Breaker) (rs : List Report) : Prop :=
  ∀ ps, ps <+: rs → StaysClosed cfg b ps →
    (recordAll cfg b ps).outcomes = watched cfg ps ∧ Tolerated cfg (watched cfg ps) ∧
      ∀ r, ps ++ [r] <+: rs → ((recordAll cfg b (ps ++ [r])).phase = .opened ↔
        ¬ Tolerated cfg (watched cfg (ps ++ [r])))

/-- At the first outcome too many the escalation counter converts to a float. -/
def FirstExcessInRange (cfg : Config) (b : Breaker) (rs : List Report) : Prop :=
  ∀ ps r, ps ++ [r] <+: rs → Calm cfg ps → ¬ Tolerated cfg (watched cfg (ps ++ [r])) →
    b.exponent cfg r.now < floatExponentLimit

theorem rtake_rtake_append {α : Type*} (n : ℕ) (l : List α) (x : α) :
    (l.rtake n ++ [x]).rtake n = (l ++ [x]).rtake n := by
  cases n with
  | zero => simp
  | succ n =>
    rw [rtake_concat_succ, rtake_concat_succ]
    congr 1
    simp only [rtake_eq_reverse_take_reverse, reverse_reverse, take_take]
    simp

section

variable {cfg : Config} {b c : Breaker} {rs ps : List Report} {r : Report}

@[simp] theorem recordAll_nil : recordAll cfg b [] = b := rfl

theorem recordAll_concat : recordAll cfg b (rs ++ [r]) =
    ((recordAll cfg b rs).record cfg r.ok r.reason r.now).1 := by
  simp [recordAll]

theorem forall_prefix_concat {P : List Report → Prop} : (∀ ps, ps <+: rs ++ [r] → P ps) ↔
    (∀ ps, ps <+: rs → P ps) ∧ P (rs ++ [r]) := by
  simp only [prefix_concat_iff, or_imp, forall_and, forall_eq, and_comm]

theorem staysClosed_concat : StaysClosed cfg b (rs ++ [r]) ↔
    StaysClosed cfg b rs ∧ (recordAll cfg b (rs ++ [r])).phase = .closed :=
  forall_prefix_concat

theorem calm_concat : Calm cfg (rs ++ [r]) ↔
    Calm cfg rs ∧ Tolerated cfg (watched cfg (rs ++ [r])) := forall_prefix_concat

theorem watched_concat :
    watched cfg (rs ++ [r]) = (watched cfg rs ++ [r.ok]).rtake cfg.window := by
  unfold watched
  rw [rtake_rtake_append, map_append, map_singleton]

theorem trips_iff (hmin : 1 ≤ cfg.minSamples) (ok : Bool) :
    c.Trips cfg ok ↔ ¬ Tolerated cfg (c.keptOutcomes cfg ok) := by
  unfold Breaker.Trips Tolerated
  generalize c.keptOutcomes cfg ok = outcomes
  rw [not_or, not_lt, not_le]
  apply and_congr_right
  intro hlen
  have hpos : (0 : ℚ) < outcomes.length := by exact_mod_cast (hmin.trans hlen)
  rw [lt_div_iff₀ hpos]
  exact and_iff_right (Nat.one_le_iff_ne_zero.mp (hmin.trans hlen))

/-- One record at a closed breaker: the outcome is stored, and when it is one too many the
breaker opens or `_open` raises. -/
theorem record_closed_cases (hmin : 1 ≤ cfg.minSamples) (hc : c.phase = .closed) (r : Report) :
    (¬ Tolerated cfg (c.keptOutcomes cfg r.ok) ∧ c.exponent cfg r.now < floatExponentLimit ∧
      (c.record cfg r.ok r.reason r.now).1.phase = .opened) ∨
    ((Tolerated cfg (c.keptOutcomes cfg r.ok) ∨ floatExponentLimit ≤ c.exponent cfg r.now) ∧
      ∃ reasons, (c.record cfg r.ok r.reason r.now).1 =
        { c with outcomes := c.keptOutcomes cfg r.ok, failureReasons := reasons }) := by
  have hread : c.state r.now = c := by
    rcases c.state_cases r.now with ⟨hopen, _⟩ | ⟨_, heq⟩
    · rw [hc] at hopen
      cases hopen
    · exact heq
  rw [c.record_eq cfg, hread, if_neg (by simp [hc])]
  have hcount := c.countReason_eq r.ok r.reason
  rw [hcount]
  rcases Breaker.recordOutcome_cases cfg r.ok r.now
    { c with failureReasons := (c.countReason r.ok r.reason).failureReasons } with
    ⟨hno, heq⟩ | ⟨htrip, heq⟩
  · rw [trips_iff hmin, not_not] at hno
    exact .inr ⟨.inl hno, _, heq⟩
  · rw [trips_iff hmin] at htrip
    rw [heq]
    rcases Breaker.open_cases cfg r.now
      { c with
        outcomes := c.keptOutcomes cfg r.ok
        failureReasons := (c.countReason r.ok r.reason).failureReasons } with
      ⟨hbig, hraise⟩ | hstart
    · refine .inr ⟨.inr hbig, (c.countReason r.ok r.reason).failureReasons, ?_⟩
      exact congrArg Prod.fst hraise
    · exact .inl ⟨htrip, hstart.exponent_lt, hstart.phase⟩

/-! ## A sequence of records -/

/-- The breaker `c` is `b` after the records, and has been closed all the time. -/
structure Watching (cfg : Config) (b : Breaker) (rs : List Report) (c : Breaker) : Prop where
  closed : c.phase = .closed
  outcomes : c.outcomes = watched cfg rs
  exponent : ∀ now, c.exponent cfg now = b.exponent cfg now

theorem JustClosed.watching (hb : JustClosed b) : Watching cfg b [] b := by
  rcases hb with rfl | ⟨now, b', rfl⟩
  · exact ⟨rfl, by simp [watched, List.rtake], fun _ => rfl⟩
  · exact ⟨rfl, by simp [watched, List.rtake, Breaker.close_], fun _ => rfl⟩

theorem Watching.kept (hc : Watching cfg b rs c) (r : Report) :
    c.keptOutcomes cfg r.ok = watched cfg (rs ++ [r]) := by
  rw [watched_concat, ← hc.outcomes]
  rfl

section

variable (hmin : 1 ≤ cfg.minSamples)

include hmin

theorem Watching.step (hc : Watching cfg b rs c) (r : Report) :
    (¬ Tolerated cfg (watched cfg (rs ++ [r])) ∧ b.exponent cfg r.now < floatExponentLimit ∧
      (c.record cfg r.ok r.reason r.now).1.phase = .opened) ∨
    ((Tolerated cfg (watched cfg (rs ++ [r])) ∨ floatExponentLimit ≤ b.exponent cfg r.now) ∧
      Watching cfg b (rs ++ [r]) (c.record cfg r.ok r.reason r.now).1) := by
  rw [← hc.kept, ← hc.exponent]
  rcases record_closed_cases hmin hc.closed r with hopen | ⟨hstays, reasons, heq⟩
  · exact .inl hopen
  · refine .inr ⟨hstays, ?_⟩
    rw [heq]
    exact ⟨hc.closed, hc.kept r, hc.exponent⟩

theorem StaysClosed.watching (hb : JustClosed b) (hclosed : StaysClosed cfg b rs) :
    Watching cfg b rs (recordAll cfg b rs) := by
  induction rs using List.reverseRecOn with
  | nil => exact hb.watching
  | append_singleton rs r ih =>
    obtain ⟨hbefore, hlast⟩ := staysClosed_concat.mp hclosed
    rw [recordAll_concat] at hlast ⊢
    rcases (ih hbefore).step hmin r with ⟨_, _, hopen⟩ | ⟨_, hnext⟩
    · rw [hopen] at hlast
      cases hlast
    · exact hnext

theorem Calm.staysClosed (hb : JustClosed b) (hcalm : Calm cfg rs) : StaysClosed cfg b rs := by
  induction rs using List.reverseRecOn with
  | nil =>
    intro ps hps
    rw [prefix_nil.mp hps]
    have hstart : Watching cfg b [] b := hb.watching
    exact hstart.closed
  | append_singleton rs r ih =>
    obtain ⟨hbefore, hlast⟩ := calm_concat.mp hcalm
    refine staysClosed_concat.mpr ⟨ih hbefore, ?_⟩
    rw [recordAll_concat]
    rcases ((ih hbefore).watching hmin hb).step hmin r with ⟨hno, _⟩ | ⟨_, hnext⟩
    · exact absurd hlast hno
    · exact hnext.closed

/-- A breaker that opens when it should is calm for as long as it is closed. -/
theorem FirstExcessInRange.calm (hb : JustClosed b) (hrange : FirstExcessInRange cfg b rs)
    (hps : ps <+: rs) (hclosed : StaysClosed cfg b ps) : Calm cfg ps := by
  induction ps using List.reverseRecOn with
  | nil =>
    intro qs hqs
    rw [prefix_nil.mp hqs]
    left
    simpa [watched, List.rtake] using Nat.lt_of_succ_le hmin
  | append_singleton ps r ih =>
    have hcalm := ih ((prefix_append _ _).trans hps) (staysClosed_concat.mp hclosed).1
    refine calm_concat.mpr ⟨hcalm, ?_⟩
    by_contra hno
    have hlt := hrange ps r hps hcalm hno
    have hlast := (staysClosed_concat.mp hclosed).2
    rw [recordAll_concat] at hlast
    rcases ((staysClosed_concat.mp hclosed).1.watching hmin hb).step hmin r with
      ⟨_, _, hopen⟩ | ⟨htolerated | hbig, _⟩
    · rw [hopen] at hlast
      cases hlast
    · exact hno htolerated
    · exact absurd hlt (Nat.not_lt_of_le hbig)

end

theorem firstExcessInRange_fresh : FirstExcessInRange cfg {} rs := by
  intro _ r _ _ _
  simp [Breaker.exponent, Breaker.recovered, floatExponentLimit]

end

/-- A fresh or just closed breaker watches exactly the last `window` outcomes, and opens at
exactly the first outcome too many, if and only if the escalation counter is in the range of
a float there. -/
theorem watches_last_iff (cfg : Config) (hmin : 1 ≤ cfg.minSamples) (b : Breaker)
    (hb : JustClosed b) (rs : List Report) :
    WatchesLast cfg b rs ↔ FirstExcessInRange cfg b rs := by
  constructor
  · intro h ps r hps hcalm hno
    have hclosed := hcalm.staysClosed hmin hb
    have hopen := ((h ps ((prefix_append _ _).trans hps) hclosed).2.2 r hps).mpr hno
    rw [recordAll_concat] at hopen
    rcases (hclosed.watching hmin hb).step hmin r with ⟨_, hlt, _⟩ | ⟨_, hnext⟩
    · exact hlt
    · rw [hnext.closed] at hopen
      cases hopen
  · intro hrange ps hps hclosed
    have hwatching := hclosed.watching hmin hb
    have hcalm := hrange.calm hmin hb hps hclosed
    refine ⟨hwatching.outcomes, hcalm ps (prefix_refl _), fun r hr => ?_⟩
    rw [recordAll_concat]
    rcases hwatching.step hmin r with ⟨hno, _, hopen⟩ | ⟨hstays, hnext⟩
    · exact iff_of_true hopen hno
    · refine iff_of_false ?_ ?_
      · rw [hnext.closed]
        simp
      · intro hno
        rcases hstays with htolerated | hbig
        · exact hno htolerated
        · exact absurd (hrange ps r hr hcalm hno) (Nat.not_lt_of_le hbig)

/-- Twenty failures after a hundred and eighty successes are tolerated, and sixty-one of the
last two hundred outcomes are not. -/
theorem fresh_breaker_watches :
    WatchesLast { provider := "jina" } {}
      (List.replicate 180 ⟨true, "", 1⟩ ++ List.replicate 61 ⟨false, "ConnectError", 2⟩) :=
  (watches_last_iff { provider := "jina" } (by decide) {} (.inl rfl) _).mpr
    firstExcessInRange_fresh

/-! ## A breaker that flaps -/

/-- A breaker that has closed at `c`, after `k` openings in a row. -/
def flapped (k n p : ℕ) (o c w : ℚ) : Breaker :=
  { openedAt := o, closedAt := c, openFor := w, consecutiveOpens := k, openedCount := n,
    probesAdmitted := p }

section

variable {k n p : ℕ} {o c w t : ℚ}

theorem windowOf_singleProbe_nonneg (k : ℕ) : 0 ≤ Breaker.windowOf singleProbe k := by
  have hpow : (0 : ℚ) ≤ 60 * 2 ^ k := by positivity
  exact le_min hpow (by norm_num [singleProbe])

theorem exponent_of_closedAt {b : Breaker} (hb : b.closedAt = 0 ∨ b.closedAt = t) :
    b.exponent singleProbe t = b.consecutiveOpens := by
  apply if_neg
  rintro ⟨hne, hlong⟩
  rcases hb with hzero | hnow
  · exact hne hzero
  · norm_num [hnow, singleProbe] at hlong

theorem not_tolerated_failure : ¬ Tolerated singleProbe [false] := by
  norm_num [Tolerated, singleProbe]

theorem record_flapped : (flapped k n p o c w).record singleProbe false "" t =
    ({ flapped k n p o c w with outcomes := [false] } : Breaker).open_ singleProbe t := by
  have hread : (flapped k n p o c w).record singleProbe false "" t =
      (flapped k n p o c w).recordOutcome singleProbe false t := by
    simp [Breaker.record, Breaker.countReason, Breaker.state, flapped]
  have hkept : (flapped k n p o c w).keptOutcomes singleProbe false = [false] := by
    simp [Breaker.keptOutcomes, flapped, singleProbe]
  rw [hread]
  rcases Breaker.recordOutcome_cases singleProbe false t (flapped k n p o c w) with
    ⟨hno, _⟩ | ⟨_, heq⟩
  · refine absurd ?_ hno
    rw [trips_iff (by decide), hkept]
    exact not_tolerated_failure
  · rw [heq, hkept]

theorem run_flap {h : List (System × Action)} (hc : c = 0 ∨ c = t)
    (hk : k < floatExponentLimit)
    (hrun : ClientRun singleProbe h ⟨flapped k n p o c w, t, []⟩) :
    ∃ h' w' t', ClientRun singleProbe h' ⟨flapped (k + 1) (n + 1) 1 t t' w', t', []⟩ := by
  let w' := Breaker.windowOf singleProbe k
  have hw : 0 ≤ w' := windowOf_singleProbe_nonneg k
  let opened : Breaker :=
    { phase := .opened, openedAt := t, closedAt := c, openFor := w',
      consecutiveOpens := k + 1, openedCount := n + 1 }
  have hopen : (flapped k n p o c w).record singleProbe false "" t = (opened, none) := by
    have hexp : Breaker.exponent singleProbe t
        { flapped k n p o c w with outcomes := [false] } = k := exponent_of_closedAt hc
    rw [record_flapped]
    simp only [Breaker.open_, hexp, if_neg (Nat.not_le_of_lt hk)]
    rfl
  have hadmit : Steps singleProbe ⟨flapped k n p o c w, t, []⟩ .check
      ⟨flapped k n p o c w, t, [⟨none⟩]⟩ := rfl
  have hfail : Steps singleProbe ⟨flapped k n p o c w, t, [⟨none⟩]⟩ (.record 0 false "")
      ⟨opened, t, []⟩ := by
    simp [Steps, step, hopen]
  have hwait : Steps singleProbe ⟨opened, t, []⟩ (.wait w') ⟨opened, t + w', []⟩ := if_pos hw
  have hprobe : Steps singleProbe ⟨opened, t + w', []⟩ .check
      ⟨{ opened with phase := .halfOpen, probesAdmitted := 1 }, t + w', [⟨some (n + 1)⟩]⟩ := by
    simp [Steps, step, opened, Breaker.check, Breaker.state, singleProbe, admittedCall]
  have hclose : Steps singleProbe
      ⟨{ opened with phase := .halfOpen, probesAdmitted := 1 }, t + w', [⟨some (n + 1)⟩]⟩
      (.record 0 true "") ⟨flapped (k + 1) (n + 1) 1 t (t + w') w', t + w', []⟩ := rfl
  exact ⟨_, _, _, ((((hrun.next hadmit).next hfail).next hwait).next hprobe).next hclose⟩

theorem exists_flapped (hk : k ≤ floatExponentLimit) :
    ∃ h n p o c w t, (c = 0 ∨ c = t) ∧
      ClientRun singleProbe h ⟨flapped k n p o c w, t, []⟩ := by
  induction k with
  | zero => exact ⟨[], 0, 0, 0, 0, 0, 1, .inl rfl, .start ⟨rfl, rfl⟩⟩
  | succ k ih =>
    obtain ⟨h, n, p, o, c, w, t, hc, hrun⟩ := ih (Nat.le_of_succ_le hk)
    obtain ⟨h', w', t', hnext⟩ := run_flap hc hk hrun
    exact ⟨h', n + 1, 1, t, t', w', t', .inr rfl, hnext⟩

end

/-- A breaker with one probe flaps 1024 times. Just closed, it then meets a failure: `_open`
raises, and the breaker stays closed although all the outcomes it stores are failures. -/
theorem exhausted_breaker_stays_closed :
    ∃ h s, ClientRun singleProbe h s ∧ JustClosed s.breaker ∧
      (s.breaker.record singleProbe false "" s.now).2 = some .overflowError ∧
      (recordAll singleProbe s.breaker [⟨false, "", s.now⟩]).phase = .closed ∧
      (recordAll singleProbe s.breaker [⟨false, "", s.now⟩]).outcomes = [false] ∧
      ¬ Tolerated singleProbe [false] := by
  obtain ⟨h, n, p, o, c, w, t, hc, hrun⟩ := exists_flapped (Nat.le_refl floatExponentLimit)
  have hraise : (flapped floatExponentLimit n p o c w).record singleProbe false "" t =
      ({ flapped floatExponentLimit n p o c w with outcomes := [false] },
        some .overflowError) := by
    have hexp : Breaker.exponent singleProbe t
        { flapped floatExponentLimit n p o c w with outcomes := [false] } =
          floatExponentLimit := exponent_of_closedAt hc
    rw [record_flapped]
    exact if_pos (Nat.le_of_eq hexp.symm)
  have hall : recordAll singleProbe (flapped floatExponentLimit n p o c w) [⟨false, "", t⟩] =
      { flapped floatExponentLimit n p o c w with outcomes := [false] } :=
    congrArg Prod.fst hraise
  refine ⟨h, _, hrun, .inr ⟨c, flapped floatExponentLimit n p o c w, rfl⟩,
    congrArg Prod.snd hraise, ?_, ?_, not_tolerated_failure⟩
  · rw [hall]
    rfl
  · rw [hall]

end RateLimit

end EmailExtractor
