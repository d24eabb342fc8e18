import EmailExtractor.RateLimit.Escalation
import Mathlib.Data.List.Infix
import Mathlib.Order.Interval.Set.Basic

/-!
# How long an outage the breaker can count

`_open` computes the window from `2 ** _consecutive_opens`, and the counter goes back to zero
only when `_open` finds a recovery. So the counter is the number of calls of `_open` since
then, as long as a float can hold the power; the first call beyond that raises, and so does
every one after it.
-/

namespace EmailExtractor

namespace RateLimit

open Transition List

/-- The calls of `_open` in a run, from the last one that found a recovery on. The calls that
raise are counted too. -/
def openCalls (cfg : Config) : List (System × Action) → ℕ
  | [] => 0
  | (s, .record _ ok _) :: h =>
    if (s.breaker.state s.now).Opens cfg ok then
      if s.breaker.recovered cfg s.now then 1 else openCalls cfg h + 1
    else openCalls cfg h
  | _ :: h => openCalls cfg h

/-- What a step that calls `_open` has to do: the power of two is a float, no exception
leaves `record`, and the window is positive and at most the largest one. -/
def Computes (cfg : Config) (_ : List (System × Action)) (s : System) (a : Action)
    (s' : System) : Prop :=
  ∀ i ok reason, a = .record i ok reason → (s.breaker.state s.now).Opens cfg ok →
    s.breaker.exponent cfg s.now ≤ 1023 ∧
    (s.breaker.record cfg ok reason s.now).2 ≠ some .overflowError ∧
    s'.breaker.openFor ∈ Set.Ioc 0 cfg.maxOpenSeconds

/-! ## The exception -/

namespace Breaker

variable {cfg : Config} {ok : Bool} {reason : String} {now : ℚ} {b : Breaker}

theorem open_overflows_iff : (b.open_ cfg now).2 = some .overflowError ↔
    floatExponentLimit ≤ b.exponent cfg now := by
  unfold open_
  dsimp only
  split
  · rename_i hbig
    exact iff_of_true rfl hbig
  · rename_i hsmall
    exact iff_of_false (by simp) hsmall

theorem recordProbe_overflows_iff (hb : b.phase = .halfOpen) :
    (b.recordProbe cfg ok now).2 = some .overflowError ↔
      b.Opens cfg ok ∧ floatExponentLimit ≤ b.exponent cfg now := by
  have hopens : b.Opens cfg ok ↔ b.Reopens cfg ok := or_iff_left fun h => h.1 hb
  rw [hopens]
  rcases recordProbe_cases cfg ok now b hb with ⟨hlt, heq⟩ | ⟨_, hsum, heq⟩ | ⟨hre, heq⟩
  · rw [heq]
    exact iff_of_false (by simp) fun h => Nat.not_le_of_lt hlt h.1.2.1
  · rw [heq]
    exact iff_of_false (by simp) fun h => Nat.not_le_of_lt h.1.2.2 hsum
  · rw [heq, open_overflows_iff]
    exact (and_iff_right hre).symm

theorem recordOutcome_overflows_iff (hb : b.phase ≠ .halfOpen) :
    (b.recordOutcome cfg ok now).2 = some .overflowError ↔
      b.Opens cfg ok ∧ floatExponentLimit ≤ b.exponent cfg now := by
  have hopens : b.Opens cfg ok ↔ b.Trips cfg ok :=
    (or_iff_right fun h => hb h.1).trans (and_iff_right hb)
  rw [hopens]
  rcases recordOutcome_cases cfg ok now b with ⟨hno, _⟩ | ⟨htrip, heq⟩
  · refine iff_of_false ?_ fun h => hno h.1
    unfold recordOutcome
    dsimp only
    split
    · simp
    · rename_i hlen
      split
      · simp
      · rename_i hne
        split
        · rename_i hrate
          exact absurd ⟨Nat.le_of_not_lt hlen, hne, hrate⟩ hno
        · simp
  · rw [heq, open_overflows_iff]
    exact (and_iff_right htrip).symm

/-- The exception leaves `record` exactly when it calls `_open` with an exponent that is too
large. -/
theorem record_overflows_iff : (b.record cfg ok reason now).2 = some .overflowError ↔
    (b.state now).Opens cfg ok ∧ floatExponentLimit ≤ b.exponent cfg now := by
  have hread := b.read_sameBefore cfg ok reason now
  have hcount := (b.state now).countReason_eq ok reason
  have hphase := (b.state now).phase_countReason ok reason
  have hopens : ((b.state now).countReason ok reason).Opens cfg ok ↔
      (b.state now).Opens cfg ok := by
    rw [hcount]
    rfl
  rw [record_eq]
  split
  · rename_i hp
    rw [recordProbe_overflows_iff (hphase.trans hp), hopens, hread.exponent]
  · rename_i hp
    rw [recordOutcome_overflows_iff (hphase.symm ▸ hp), hopens, hread.exponent]

theorem exponent_of_recovered (h : b.recovered cfg now) : b.exponent cfg now = 0 := if_pos h

theorem exponent_of_not_recovered (h : ¬ b.recovered cfg now) :
    b.exponent cfg now = b.consecutiveOpens := if_neg h

end Breaker

/-! ## The counter -/

variable {cfg : Config} {h : List (System × Action)} {s s' : System} {a : Action}

theorem openCalls_of_opens {i : ℕ} {ok : Bool} {reason : String}
    (hopens : (s.breaker.state s.now).Opens cfg ok) :
    openCalls cfg ((s, .record i ok reason) :: h) =
      if s.breaker.recovered cfg s.now then 1 else openCalls cfg h + 1 := if_pos hopens

theorem openCalls_of_not_opens {i : ℕ} {ok : Bool} {reason : String}
    (hopens : ¬ (s.breaker.state s.now).Opens cfg ok) :
    openCalls cfg ((s, .record i ok reason) :: h) = openCalls cfg h := if_neg hopens

theorem openCalls_of_ne_record (ha : ∀ i ok reason, a ≠ .record i ok reason) :
    openCalls cfg ((s, a) :: h) = openCalls cfg h := by
  cases a with
  | record i ok reason => exact absurd rfl (ha i ok reason)
  | _ => rfl

/-- The counter is the number of calls of `_open`, until it is exhausted. -/
def Counts (cfg : Config) (h : List (System × Action)) (b : Breaker) : Prop :=
  b.consecutiveOpens = min (openCalls cfg h) floatExponentLimit

/-- The exponent of a call of `_open` is in range exactly when the call is not one too many. -/
theorem Counts.exponent_lt_iff (hs : Counts cfg h s.breaker) {i : ℕ} {ok : Bool}
    {reason : String} (hopens : (s.breaker.state s.now).Opens cfg ok) :
    s.breaker.exponent cfg s.now < floatExponentLimit ↔
      openCalls cfg ((s, .record i ok reason) :: h) ≤ floatExponentLimit := by
  rw [openCalls_of_opens hopens]
  by_cases hrec : s.breaker.recovered cfg s.now
  · rw [if_pos hrec, Breaker.exponent_of_recovered hrec]
    decide
  · rw [if_neg hrec, Breaker.exponent_of_not_recovered hrec, hs, min_lt_iff]
    exact or_iff_left (Nat.lt_irrefl _)

theorem counts_step (hs : Counts cfg h s.breaker) (hstep : Steps cfg s a s') :
    Counts cfg ((s, a) :: h) s'.breaker := by
  rcases record_or_frame hstep with ⟨i, ok, reason, rfl⟩ | ⟨ha, ⟨-, -, hcount, -⟩, -⟩
  · rw [record_step hstep, Counts]
    rcases s.breaker.record_effect cfg ok reason s.now with
      ⟨hopens, hstart⟩ | ⟨hno, _, _, _, _, _, hcount, _⟩ | ⟨hbig, _, _, _, _, hcount, _⟩
    · have hlt := hstart.exponent_lt
      rw [hstart.consecutiveOpens, openCalls_of_opens hopens]
      by_cases hrec : s.breaker.recovered cfg s.now
      · rw [if_pos hrec, Breaker.exponent_of_recovered hrec]
        rfl
      · rw [Breaker.exponent_of_not_recovered hrec, hs] at hlt ⊢
        rw [if_neg hrec]
        omega
    · rw [hcount, openCalls_of_not_opens hno, hs]
    · rw [hcount]
      by_cases hopens : (s.breaker.state s.now).Opens cfg ok
      · -- `_open` has raised, so no recovery was found and the counter stays exhausted.
        have hle := hbig hopens
        have hrec : ¬ s.breaker.recovered cfg s.now := by
          intro hrec
          rw [Breaker.exponent_of_recovered hrec] at hle
          exact Nat.not_succ_le_zero 1023 hle
        rw [Breaker.exponent_of_not_recovered hrec, hs] at hle
        rw [hs, openCalls_of_opens hopens, if_neg hrec]
        omega
      · rw [openCalls_of_not_opens hopens, hs]
  · rw [Counts, openCalls_of_ne_record ha, hcount]
    exact hs

theorem counts_of_run (hrun : ClientRun cfg h s) : Counts cfg h s.breaker := by
  induction hrun with
  | start hs =>
    rw [hs.1]
    rfl
  | next _ hstep ih => exact counts_step ih hstep

/-! ## The window -/

section

variable (hopen : 0 < cfg.openSeconds) (hmax : 0 < cfg.maxOpenSeconds)

include hopen hmax

theorem windowOf_mem (k : ℕ) : Breaker.windowOf cfg k ∈ Set.Ioc 0 cfg.maxOpenSeconds :=
  ⟨lt_min (mul_pos hopen (pow_pos two_pos k)) hmax, min_le_right _ _⟩

/-- A breaker that has opened has a window in range, also after `_open` has raised. -/
theorem openFor_mem_of_run (hrun : ClientRun cfg h s) (hopened : s.breaker.openedCount ≠ 0) :
    s.breaker.openFor ∈ Set.Ioc 0 cfg.maxOpenSeconds := by
  induction hrun with
  | start hs =>
    rw [hs.1] at hopened
    exact absurd rfl hopened
  | @next h s s' a _ hstep ih =>
    have hkeep : s.breaker.SameOpening s'.breaker →
        s'.breaker.openFor ∈ Set.Ioc 0 cfg.maxOpenSeconds := by
      rintro ⟨_, hfor, _, hcount⟩
      rw [hfor]
      rw [hcount] at hopened
      exact ih hopened
    rcases record_or_frame hstep with ⟨i, ok, reason, rfl⟩ | ⟨-, hsame, -⟩
    · rw [record_step hstep] at hkeep ⊢
      rcases s.breaker.record_effect cfg ok reason s.now with
        ⟨_, hstart⟩ | ⟨_, _, _, _, hsame⟩ | ⟨_, _, _, hsame⟩
      · rw [hstart.openFor]
        exact windowOf_mem hopen hmax _
      · exact hkeep hsame
      · exact hkeep hsame
    · exact hkeep hsame

/-! ## Runs -/

/-- A step from a state in which the counter is not exhausted computes its window exactly when
it does not exhaust the counter. -/
theorem computes_iff (hs : Counts cfg h s.breaker) (hcalls : openCalls cfg h ≤ floatExponentLimit)
    (hstep : Steps cfg s a s') :
    Computes cfg h s a s' ↔ openCalls cfg ((s, a) :: h) ≤ floatExponentLimit := by
  rcases record_or_frame hstep with ⟨i, ok, reason, rfl⟩ | ⟨ha, -⟩
  · by_cases hopens : (s.breaker.state s.now).Opens cfg ok
    · rw [← hs.exponent_lt_iff hopens]
      constructor
      · intro hcomputes
        exact Nat.lt_succ_of_le (hcomputes i ok reason rfl hopens).1
      · rintro hlt _ _ _ ⟨⟩ _
        refine ⟨Nat.le_of_lt_succ hlt, ?_, ?_⟩
        · rw [Ne, Breaker.record_overflows_iff]
          exact fun hbig => Nat.not_le_of_lt hlt hbig.2
        · rw [record_step hstep]
          rcases s.breaker.record_effect cfg ok reason s.now with
            ⟨_, hstart⟩ | ⟨hno, _⟩ | ⟨hbig, _⟩
          · rw [hstart.openFor]
            exact windowOf_mem hopen hmax _
          · exact absurd hopens hno
          · exact absurd (hbig hopens) (Nat.not_le_of_lt hlt)
    · rw [openCalls_of_not_opens hopens]
      refine iff_of_true ?_ hcalls
      rintro _ _ _ ⟨⟩ hopens'
      exact absurd hopens' hopens
  · rw [openCalls_of_ne_record ha]
    refine iff_of_true ?_ hcalls
    intro i ok reason hrec
    exact absurd hrec (ha i ok reason)

theorem along_computes_iff (hrun : ClientRun cfg h s) :
    Along (Computes cfg) h s ↔
      ∀ h', h' <:+ h → openCalls cfg h' ≤ floatExponentLimit := by
  induction hrun with
  | start _ =>
    refine iff_of_true trivial ?_
    intro h' hh'
    rw [suffix_nil.mp hh']
    exact Nat.zero_le _
  | @next h s s' a hrun hstep ih =>
    have hsuffix : (∀ h', h' <:+ (s, a) :: h → openCalls cfg h' ≤ floatExponentLimit) ↔
        openCalls cfg ((s, a) :: h) ≤ floatExponentLimit ∧
          ∀ h', h' <:+ h → openCalls cfg h' ≤ floatExponentLimit := by
      simp only [suffix_cons_iff, forall_eq_or_imp]
    rw [Along, ih, hsuffix]
    refine and_congr_left fun hall => ?_
    exact computes_iff hopen hmax (counts_of_run hrun) (hall h (suffix_refl h)) hstep

end

/-- The window is computable throughout a run exactly when `_open` is never called more than
1024 times without finding a recovery; and whatever happens, a breaker that has opened has a
window in range. -/
theorem open_window_computable_iff (cfg : Config) (hopen : 0 < cfg.openSeconds)
    (hmax : 0 < cfg.maxOpenSeconds) (h : List (System × Action)) (s : System)
    (hrun : ClientRun cfg h s) :
    (Along (Computes cfg) h s ↔ ∀ h', h' <:+ h → openCalls cfg h' ≤ floatExponentLimit) ∧
    (s.breaker.openedCount ≠ 0 → s.breaker.openFor ∈ Set.Ioc 0 cfg.maxOpenSeconds) :=
  ⟨along_computes_iff hopen hmax hrun, openFor_mem_of_run hopen hmax hrun⟩

/-- An outage of two windows. -/
theorem second_window_computable :
    ∃ h s, ClientRun singleProbe h s ∧ s.breaker.openFor = 120 ∧
      Along (Computes singleProbe) h s := by
  obtain ⟨h, s, hrun, hcalls, hwin⟩ :=
    Run.exists_of_exec Initial (step singleProbe) ⟨{}, 1, []⟩ ⟨rfl, rfl⟩
      [.check, .record 0 false "ConnectError", .wait 60, .check,
        .record 0 false "ConnectError"]
      (fun p => (∀ h' ∈ p.1.tails, openCalls singleProbe h' ≤ floatExponentLimit) ∧
        p.2.breaker.openFor = 120)
      (by decide +kernel)
  refine ⟨h, s, hrun, hwin, (open_window_computable_iff singleProbe (by decide +kernel)
    (by decide +kernel) h s hrun).1.mpr ?_⟩
  intro h' hh'
  exact hcalls h' ((mem_tails h' h).mpr hh')

/-! ## An outage that does not end -/

def standard : Config := { provider := "jina" }

/-- A breaker that has opened `k` times and never closed, at the start of its window. -/
def outage (k : ℕ) (t w : ℚ) : System :=
  ⟨{ phase := .opened, openedAt := t, openFor := w, consecutiveOpens := k, openedCount := k },
    t, []⟩

/-- The same breaker after its window, with `a` probes admitted and `i` of them failed. -/
def probed (k : ℕ) (t w : ℚ) (a i : ℕ) : Breaker :=
  { phase := .halfOpen, openedAt := t, openFor := w, consecutiveOpens := k, openedCount := k,
    probesAdmitted := a, probeResults := List.replicate i false }

section

variable {k a i : ℕ} {t w now : ℚ}

theorem exponent_probed : (probed k t w a i).exponent standard now = k :=
  Breaker.exponent_of_not_recovered fun hrec => hrec.1 rfl

theorem opens_probed : ((probed k t w a 4).state now).Opens standard false :=
  .inl ⟨rfl, Nat.le_refl 5, Nat.succ_pos 2⟩

theorem check_probed (ha : a < 5) :
    (probed k t w a i).check standard now = (probed k t w (a + 1) i, none) := by
  rcases (probed k t w a i).check_cases standard now with
    ⟨hp, _⟩ | ⟨_, hfull, _⟩ | ⟨_, _, heq⟩ | ⟨hp, _⟩
  · cases hp
  · exact absurd hfull (Nat.not_le_of_lt ha)
  · exact heq
  · cases hp

theorem steps_check_probed (ha : a < 5) :
    Steps standard ⟨probed k t w a i, now, []⟩ .check
      ⟨probed k t w (a + 1) i, now, [⟨some k⟩]⟩ := by
  rw [Steps, step, check_probed ha]
  rfl

theorem record_probed (hi : i + 1 < 5) : (probed k t w a i).record standard false "" now =
    (probed k t w a (i + 1), none) := by
  have hread : (probed k t w a i).record standard false "" now =
      (probed k t w a i).recordProbe standard false now := rfl
  rw [hread]
  rcases Breaker.recordProbe_cases standard false now (probed k t w a i) rfl with
    ⟨_, heq⟩ | ⟨hlen, _⟩ | ⟨hre, _⟩
  · rw [heq, probed, ← replicate_succ']
    rfl
  · rw [probed, length_replicate] at hlen
    exact absurd hlen (Nat.not_le_of_lt hi)
  · have hlen := hre.2.1
    rw [probed, length_replicate] at hlen
    exact absurd hlen (Nat.not_le_of_lt hi)

theorem run_failed_probes (hw : 0 ≤ w) (hrun : ClientRun standard h (outage k t w))
    (hi : i < 5) : ∃ h', ClientRun standard h' ⟨probed k t w i i, t + w, []⟩ := by
  induction i with
  | zero =>
    have hwait : Steps standard (outage k t w) (.wait w)
        { outage k t w with now := t + w } := if_pos hw
    have hpeek : Steps standard { outage k t w with now := t + w } .peek
        ⟨probed k t w 0 0, t + w, []⟩ := by
      simp [Steps, step, outage, probed, Breaker.state]
    exact ⟨_, (hrun.next hwait).next hpeek⟩
  | succ i ih =>
    obtain ⟨h', hprobed⟩ := ih (Nat.lt_of_succ_lt hi)
    have hfail : Steps standard ⟨probed k t w (i + 1) i, t + w, [⟨some k⟩]⟩
        (.record 0 false "") ⟨probed k t w (i + 1) (i + 1), t + w, []⟩ := by
      simp [Steps, step, record_probed hi]
    exact ⟨_, (hprobed.next (steps_check_probed (Nat.lt_of_succ_lt hi))).next hfail⟩

theorem run_last_probe (hw : 0 ≤ w) (hrun : ClientRun standard h (outage k t w)) :
    ∃ h', ClientRun standard h' ⟨probed k t w 5 4, t + w, [⟨some k⟩]⟩ := by
  obtain ⟨h', hprobed⟩ := run_failed_probes hw hrun (Nat.lt_succ_self 4)
  exact ⟨_, hprobed.next (steps_check_probed (Nat.lt_succ_self 4))⟩

theorem run_failed_phase (hw : 0 ≤ w) (hk : k < floatExponentLimit)
    (hrun : ClientRun standard h (outage k t w)) :
    ∃ h', ClientRun standard h' (outage (k + 1) (t + w) (Breaker.windowOf standard k)) := by
  obtain ⟨h', hprobed⟩ := run_last_probe hw hrun
  have hopen : (probed k t w 5 4).record standard false "" (t + w) =
      ((outage (k + 1) (t + w) (Breaker.windowOf standard k)).breaker, none) := by
    have hread : (probed k t w 5 4).record standard false "" (t + w) =
        (probed k t w 5 5).open_ standard (t + w) := rfl
    rw [hread, Breaker.open_, exponent_probed]
    exact if_neg (Nat.not_le_of_lt hk)
  have hfail : Steps standard ⟨probed k t w 5 4, t + w, [⟨some k⟩]⟩ (.record 0 false "")
      (outage (k + 1) (t + w) (Breaker.windowOf standard k)) := by
    rw [Steps, step, hopen]
    rfl
  exact ⟨_, hprobed.next hfail⟩

theorem exists_outage (hk : k < floatExponentLimit) :
    ∃ h t w, 0 ≤ w ∧ ClientRun standard h (outage (k + 1) t w) := by
  induction k with
  | zero =>
    obtain ⟨h, s, hrun, rfl⟩ :=
      Run.exists_of_exec Initial (step standard) ⟨{}, 1, []⟩ ⟨rfl, rfl⟩
        (List.replicate 20 [.check, .record 0 false ""]).flatten
        (fun p => outage 1 1 60 = p.2) (by decide +kernel)
    exact ⟨h, 1, 60, by decide, hrun⟩
  | succ k ih =>
    obtain ⟨h, t, w, hw, hrun⟩ := ih (Nat.lt_of_succ_lt hk)
    obtain ⟨h', hnext⟩ := run_failed_phase hw hk hrun
    exact ⟨h', t + w, _, (windowOf_mem (by decide) (by decide) (k + 1)).1.le, hnext⟩

end

/-- Twenty failures open the breaker of a gate, and then 1023 half-open phases fail. At the
fifth failure of the next one the exponent is 1024, and the exception leaves `record`. -/
theorem long_outage_overflows :
    ∃ h s, ClientRun standard h s ∧ s.breaker.closedAt = 0 ∧
      (s.breaker.state s.now).Opens standard false ∧
      s.breaker.exponent standard s.now = 1024 ∧
      (s.breaker.record standard false "" s.now).2 = some .overflowError := by
  obtain ⟨h, t, w, hw, hrun⟩ := exists_outage (Nat.lt_succ_self 1023)
  obtain ⟨h', hprobed⟩ := run_last_probe hw hrun
  refine ⟨h', _, hprobed, rfl, opens_probed, exponent_probed, ?_⟩
  rw [Breaker.record_overflows_iff]
  exact ⟨opens_probed, Nat.le_of_eq exponent_probed.symm⟩

end RateLimit

end EmailExtractor
