import Mathlib.Tactic.Linarith
import EmailExtractor.RateLimit.Clients

/-!
# When a half-open breaker lets its next probe through

A half-open breaker admits `probes` calls and leaves the phase once `probes`
results are in. The two are counted apart, so the phase ends only if every
admission is answered by a result. The invariant `Accounted` says exactly this:
an admission is a collected result or a probe still in flight. It is kept by
every step but two, the abandoning of a probe and the reopening whose window can
no longer be computed.
-/

namespace EmailExtractor

namespace RateLimit

open Transition List

/-- The breaker's books balance at the clock reading `now` with `calls` in
flight. -/
structure Accounted (cfg : Config) (now : ℚ) (calls : List Call) (b : Breaker) :
    Prop where
  openedAt_le : b.phase = .opened → b.openedAt ≤ now
  results_lt : b.phase = .halfOpen → b.probeResults.length < cfg.probes
  admitted_le : b.phase = .halfOpen →
    b.probesAdmitted ≤ b.probeResults.length + calls.countP (Call.isProbe b)

/-- The steps that keep the books balanced. No probe of the current half-open
phase is abandoned, and no half-open breaker is made to open again with an
exponent that does not fit a float. -/
def KeepsProbes (cfg : Config) (s : System) : Action → Prop
  | .abandon i => ∀ c ∈ s.calls[i]?, c.isProbe s.breaker = false
  | .record _ ok _ => (s.breaker.state s.now).Reopens cfg ok →
      s.breaker.exponent cfg s.now < floatExponentLimit
  | _ => True

instance (cfg : Config) (s : System) (a : Action) : Decidable (KeepsProbes cfg s a) :=
  match a with
  | .abandon i => inferInstanceAs (Decidable (∀ c ∈ s.calls[i]?, c.isProbe s.breaker = false))
  | .record _ _ _ => inferInstanceAs (Decidable (_ → _))
  | .check | .peek | .wait _ => isTrue trivial

theorem countP_eraseIdx_add_one (p : Call → Bool) (calls : List Call) (i : ℕ) :
    calls.countP p ≤ (calls.eraseIdx i).countP p + 1 := by
  induction calls generalizing i with
  | nil => simp
  | cons c calls ih =>
    cases i with
    | zero =>
      simp only [eraseIdx_zero, tail_cons, countP_cons]
      split <;> omega
    | succ i =>
      simp only [eraseIdx_cons_succ, countP_cons]
      have := ih i
      omega

theorem countP_eraseIdx_of_not (p : Call → Bool) (calls : List Call) (i : ℕ)
    (hi : ∀ c ∈ calls[i]?, p c = false) :
    (calls.eraseIdx i).countP p = calls.countP p := by
  induction calls generalizing i with
  | nil => simp
  | cons c calls ih =>
    cases i with
    | zero =>
      have hc : p c = false := hi c (by simp)
      simp [hc]
    | succ i =>
      have hrest := ih i (fun c hc => hi c (by simpa using hc))
      simp [countP_cons, hrest]

namespace Accounted

variable {cfg : Config} {now : ℚ} {calls : List Call} {b : Breaker}

theorem of_closed (hb : b.phase = .closed) : Accounted cfg now calls b := by
  constructor <;> intro h <;> simp [hb] at h

theorem of_opened (hb : b.phase = .opened) (hat : b.openedAt ≤ now) :
    Accounted cfg now calls b := by
  constructor
  · intro _
    exact hat
  · intro h
    simp [hb] at h
  · intro h
    simp [hb] at h

theorem state (hprobes : 1 ≤ cfg.probes) (h : Accounted cfg now calls b) :
    Accounted cfg now calls (b.state now) := by
  rcases b.state_cases now with ⟨_, _, heq⟩ | ⟨_, heq⟩
  · rw [heq]
    constructor
    · intro hp
      simp at hp
    · intro _
      show 0 < cfg.probes
      omega
    · intro _
      simp
  · rw [heq]
    exact h

theorem countReason (ok : Bool) (reason : String) (h : Accounted cfg now calls b) :
    Accounted cfg now calls (b.countReason ok reason) := by
  rw [b.countReason_eq ok reason]
  exact ⟨h.openedAt_le, h.results_lt, h.admitted_le⟩

theorem admitProbe (hb : b.phase = .halfOpen) (h : Accounted cfg now calls b) :
    Accounted cfg now (calls ++ [admittedCall b])
      { b with probesAdmitted := b.probesAdmitted + 1 } := by
  constructor
  · exact h.openedAt_le
  · exact h.results_lt
  · intro _
    have hle := h.admitted_le hb
    rw [countP_isProbe_admitted calls hb]
    show b.probesAdmitted + 1 ≤
      b.probeResults.length + (calls.countP (Call.isProbe b) + 1)
    omega

theorem open_ (hexp : b.exponent cfg now < floatExponentLimit) :
    Accounted cfg now calls (b.open_ cfg now).1 := by
  rcases b.open_cases cfg now with ⟨hbig, _⟩ | hstart
  · omega
  · exact of_opened hstart.phase hstart.openedAt.le

theorem recordProbe (ok : Bool) (i : ℕ) (hb : b.phase = .halfOpen)
    (hexp : b.Reopens cfg ok → b.exponent cfg now < floatExponentLimit)
    (h : Accounted cfg now calls b) :
    Accounted cfg now (calls.eraseIdx i) (b.recordProbe cfg ok now).1 := by
  rcases b.recordProbe_cases cfg ok now hb with ⟨hlt, heq⟩ | ⟨_, _, heq⟩ | ⟨hre, heq⟩
  · rw [heq]
    constructor
    · intro hp
      simp [hb] at hp
    · intro _
      simpa using hlt
    · intro _
      have hle := h.admitted_le hb
      have herase := countP_eraseIdx_add_one (Call.isProbe b) calls i
      have hcong : (calls.eraseIdx i).countP
          (Call.isProbe { b with probeResults := b.probeResults ++ [ok] }) =
            (calls.eraseIdx i).countP (Call.isProbe b) := rfl
      rw [hcong, length_append, length_singleton]
      show b.probesAdmitted ≤ _
      omega
  · rw [heq]
    exact of_closed rfl
  · rw [heq]
    exact open_ (hexp hre)

theorem recordOutcome (ok : Bool) (i : ℕ) (hb : b.phase ≠ .halfOpen)
    (h : Accounted cfg now calls b) :
    Accounted cfg now (calls.eraseIdx i) (b.recordOutcome cfg ok now).1 := by
  have hstay : Accounted cfg now (calls.eraseIdx i)
      { b with outcomes := b.keptOutcomes cfg ok } :=
    ⟨h.openedAt_le, fun hp => absurd hp hb, fun hp => absurd hp hb⟩
  rcases b.recordOutcome_cases cfg ok now with ⟨_, heq⟩ | ⟨_, heq⟩
  · rw [heq]
    exact hstay
  · rw [heq]
    rcases Breaker.open_cases cfg now { b with outcomes := b.keptOutcomes cfg ok } with
      ⟨_, hraise⟩ | hstart
    · rw [hraise]
      exact hstay
    · exact of_opened hstart.phase hstart.openedAt.le

theorem record (ok : Bool) (reason : String) (i : ℕ) (hprobes : 1 ≤ cfg.probes)
    (hexp : (b.state now).Reopens cfg ok → b.exponent cfg now < floatExponentLimit)
    (h : Accounted cfg now calls b) :
    Accounted cfg now (calls.eraseIdx i) (b.record cfg ok reason now).1 := by
  have hread := (h.state hprobes).countReason ok reason
  have heq := (b.state now).countReason_eq ok reason
  have hsame := (b.read_sameBefore cfg ok reason now).exponent
  rw [b.record_eq cfg ok reason now]
  split
  · rename_i hp
    refine hread.recordProbe ok i ?_ ?_
    · rw [heq]
      exact hp
    · intro hre
      rw [hsame]
      rw [heq] at hre
      exact hexp hre
  · rename_i hp
    refine hread.recordOutcome ok i ?_
    rw [heq]
    exact hp

end Accounted

section

variable {cfg : Config} (hprobes : 1 ≤ cfg.probes)

include hprobes

theorem accounted_step {s s' : System} {a : Action} (h : Accounted cfg s.now s.calls s.breaker)
    (hok : KeepsProbes cfg s a) (hstep : Steps cfg s a s') :
    Accounted cfg s'.now s'.calls s'.breaker := by
  have hread := h.state hprobes
  cases a with
  | check =>
    rcases check_step_cases hstep with ⟨_, rfl⟩ | ⟨hp, rfl⟩ | ⟨hp, rfl⟩
    · exact hread
    · exact hread.admitProbe hp
    · exact Accounted.of_closed hp
  | record i ok reason =>
    rw [record_step hstep]
    exact h.record ok reason i hprobes hok
  | abandon i =>
    rw [abandon_step hstep]
    refine ⟨h.openedAt_le, h.results_lt, ?_⟩
    intro hp
    show s.breaker.probesAdmitted ≤ s.breaker.probeResults.length +
      (s.calls.eraseIdx i).countP (Call.isProbe s.breaker)
    rw [countP_eraseIdx_of_not _ _ _ hok]
    exact h.admitted_le hp
  | peek =>
    rw [peek_step hstep]
    exact hread
  | wait d =>
    obtain ⟨hd, rfl⟩ := wait_step hstep
    refine ⟨?_, h.results_lt, h.admitted_le⟩
    intro hp
    have hat : s.breaker.openedAt ≤ s.now := h.openedAt_le hp
    show s.breaker.openedAt ≤ s.now + d
    linarith

theorem accounted_of_run {h : List (System × Action)} {s : System} (hrun : ClientRun cfg h s)
    (hok : Guarded (KeepsProbes cfg) h) : Accounted cfg s.now s.calls s.breaker := by
  refine hrun.invariant (I := fun s => Accounted cfg s.now s.calls s.breaker) ?_ ?_ hok
  · intro s hs
    exact Accounted.of_closed (by rw [hs.1])
  · intro s a s' hs hok hstep
    exact accounted_step hprobes hs hok hstep

/-- With balanced books and no call in flight, `check` admits a call as soon as
the current window is over. -/
theorem Accounted.check_admits {now : ℚ} {b : Breaker} (h : Accounted cfg now [] b) {d : ℚ}
    (hwin : b.openFor ≤ d) : (b.check cfg (now + d)).2 = none := by
  have hroom : (b.state (now + d)).phase ≠ .opened ∧
      ((b.state (now + d)).phase = .halfOpen →
        (b.state (now + d)).probesAdmitted < cfg.probes) := by
    rcases b.state_cases (now + d) with ⟨_, _, heq⟩ | ⟨hno, heq⟩
    · rw [heq]
      exact ⟨by simp, fun _ => hprobes⟩
    · rw [heq]
      constructor
      · intro hp
        have hat := h.openedAt_le hp
        exact hno ⟨hp, by linarith⟩
      · intro hp
        have hle := h.admitted_le hp
        have hlt := h.results_lt hp
        simp only [countP_nil, Nat.add_zero] at hle
        omega
  rcases b.check_cases cfg (now + d) with
    ⟨hp, _⟩ | ⟨hp, hfull, _⟩ | ⟨_, _, heq⟩ | ⟨_, heq⟩
  · exact absurd hp hroom.1
  · have := hroom.2 hp
    omega
  · rw [heq]
  · rw [heq]

end

/-- In every run in which no probe of a current half-open phase is abandoned and
no half-open breaker has to open again with an exponent past the float range,
every state without a call in flight admits a call once the current window has
elapsed. -/
theorem breaker_never_wedges (cfg : Config) (hneeded : 1 ≤ cfg.probesNeeded)
    (hle : cfg.probesNeeded ≤ cfg.probes) (h : List (System × Action)) (s : System)
    (hrun : ClientRun cfg h s) (hok : Guarded (KeepsProbes cfg) h) (hidle : s.calls = [])
    (d : ℚ) (hwin : s.breaker.openFor ≤ d) :
    (s.breaker.check cfg (s.now + d)).2 = none := by
  have hprobes : 1 ≤ cfg.probes := hneeded.trans hle
  have hacc := accounted_of_run hprobes hrun hok
  rw [hidle] at hacc
  exact hacc.check_admits hprobes hwin

/-- A failed call opens this breaker. A minute later a probe is admitted, and the late result
of an earlier call is taken for that of a probe. The half-open phase still admits a call. -/
theorem breaker_admits_after_window :
    ∃ h s, ClientRun { provider := "jina", minSamples := 1 } h s ∧
      s.breaker.phase = .halfOpen ∧ s.breaker.probeResults = [true, false] ∧
      (s.breaker.check { provider := "jina", minSamples := 1 } (s.now + 60)).2 = none := by
  let cfg : Config := { provider := "jina", minSamples := 1 }
  obtain ⟨h, s, hrun, hok, hidle, hphase, hresults, hwin⟩ :=
    Run.exists_of_exec Initial (step cfg) ⟨{}, 1, []⟩ ⟨rfl, rfl⟩
      [.check, .check, .record 0 false "ConnectError", .wait 60, .check, .record 0 true "",
        .record 0 false "ConnectError"]
      (fun p => (∀ q ∈ p.1, KeepsProbes cfg q.1 q.2) ∧ p.2.calls = [] ∧
        p.2.breaker.phase = .halfOpen ∧ p.2.breaker.probeResults = [true, false] ∧
        p.2.breaker.openFor ≤ 60)
      (by decide +kernel)
  exact ⟨h, s, hrun, hphase, hresults,
    breaker_never_wedges cfg (by decide) (by decide) h s hrun hok hidle 60 hwin⟩

theorem check_refuses_of_full {cfg : Config} {b : Breaker} (hp : b.phase = .halfOpen)
    (hfull : cfg.probes ≤ b.probesAdmitted) (now : ℚ) : (b.check cfg now).2 ≠ none := by
  have hst : b.state now = b := by simp [Breaker.state, hp]
  rcases b.check_cases cfg now with ⟨_, _, hno⟩ | ⟨_, _, _, hno⟩ | ⟨_, hlt, _⟩ | ⟨hc, _⟩
  · exact hno
  · exact hno
  · rw [hst] at hlt
    omega
  · rw [hst, hp] at hc
    simp at hc

/-- Twenty failures open the breaker, the window passes, and the five probes it
admits are all cancelled: with no call in flight every later `check` is
refused. -/
theorem cancelled_probes_wedge :
    ∃ h s, ClientRun { provider := "jina" } h s ∧ s.calls = [] ∧
      ∀ d, 0 ≤ d → (s.breaker.check { provider := "jina" } (s.now + d)).2 ≠ none := by
  let cfg : Config := { provider := "jina" }
  obtain ⟨h, s, hrun, hidle, hphase, hfull⟩ :=
    Run.exists_of_exec Initial (step cfg) ⟨{}, 1, []⟩ ⟨rfl, rfl⟩
      ((List.replicate 20 [.check, .record 0 false "ConnectError"]).flatten ++
        .wait 60 :: List.replicate 5 .check ++ List.replicate 5 (.abandon 0))
      (fun p => p.2.calls = [] ∧ p.2.breaker.phase = .halfOpen ∧
        cfg.probes ≤ p.2.breaker.probesAdmitted)
      (by decide +kernel)
  exact ⟨h, s, hrun, hidle, fun d _ => check_refuses_of_full hphase hfull _⟩

end RateLimit

end EmailExtractor
