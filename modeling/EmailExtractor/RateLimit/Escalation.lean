import Mathlib.Tactic.Linarith
import Mathlib.Tactic.Ring
import EmailExtractor.RateLimit.Clients

/-!
# Escalation of the open window

Each opening doubles the window up to `max_open_seconds`. The counter behind the
doubling goes back to zero when `_open` finds the last close more than
`open_seconds * recovery_multiple` in the past. The time of the last close says
how long the breaker held closed only if it is still closed: in the middle of an
outage it is the time of a close that the outage has since undone. The results
here separate the two cases.
-/

namespace EmailExtractor

namespace RateLimit

open Transition

/-- Outside the closed phase the window is the one of the last opening. -/
def Windowed (cfg : Config) (b : Breaker) : Prop :=
  b.phase ≠ .closed →
    ∃ k, b.consecutiveOpens = k + 1 ∧ b.openFor = Breaker.windowOf cfg k

/-- The breaker has been closed over a last stretch of the run longer than
`open_seconds * recovery_multiple`. -/
def HeldClosed (cfg : Config) (h : List (System × Action)) (s : System) : Prop :=
  ∃ newer q older, statesOf h s = newer ++ q :: older ∧
    (∀ r ∈ newer ++ [q], r.breaker.phase = .closed) ∧
    cfg.openSeconds * cfg.recoveryMultiple < s.now - q.now

/-- What one step has to do for the escalation to survive an outage. Probes that
fail double the window, and an opening that does not continue the escalation
follows a stretch in which the breaker held closed. -/
def Escalates (cfg : Config) (h : List (System × Action)) (s : System) (a : Action)
    (s' : System) : Prop :=
  (∀ i ok reason, a = .record i ok reason → (s.breaker.state s.now).Reopens cfg ok →
    s'.breaker.phase = .opened ∧
      s'.breaker.openFor = min (2 * s.breaker.openFor) cfg.maxOpenSeconds) ∧
  (s'.breaker.openedCount ≠ s.breaker.openedCount →
    s'.breaker.consecutiveOpens = s.breaker.consecutiveOpens + 1 ∨ HeldClosed cfg h s)

/-- The steps that keep the escalation. Failed probes find no close long past and
an exponent in range, and no opening of a breaker that is not closed finds a
close long past. -/
def KeepsEscalation (cfg : Config) (s : System) : Action → Prop
  | .record _ ok _ =>
    ((s.breaker.state s.now).Reopens cfg ok →
      s.breaker.exponent cfg s.now < floatExponentLimit) ∧
    ((s.breaker.state s.now).Opens cfg ok → s.breaker.phase ≠ .closed →
      ¬ s.breaker.recovered cfg s.now)
  | _ => True

instance (cfg : Config) (s : System) (a : Action) :
    Decidable (KeepsEscalation cfg s a) := by
  cases a <;> unfold KeepsEscalation <;> infer_instance

variable {cfg : Config} {s s' : System} {h : List (System × Action)}

theorem windowOf_succ (hmax : 0 ≤ cfg.maxOpenSeconds) (k : ℕ) :
    Breaker.windowOf cfg (k + 1) =
      min (2 * Breaker.windowOf cfg k) cfg.maxOpenSeconds := by
  have hdouble : cfg.openSeconds * 2 ^ (k + 1) = 2 * (cfg.openSeconds * 2 ^ k) := by ring
  unfold Breaker.windowOf
  rw [hdouble]
  rcases le_total (cfg.openSeconds * 2 ^ k) cfg.maxOpenSeconds with h | h
  · rw [min_eq_left h]
  · rw [min_eq_right h, min_eq_right (by linarith), min_eq_right (by linarith)]

/-- The steps other than `record` read the state at most: opening and time of
the last close stay, and only an open breaker changes its phase. -/
theorem record_or_frame {a : Action} (hstep : Steps cfg s a s') :
    (∃ i ok reason, a = .record i ok reason) ∨ (∀ i ok reason, a ≠ .record i ok reason) ∧
      s.breaker.SameOpening s'.breaker ∧ s'.breaker.closedAt = s.breaker.closedAt ∧
      (s'.breaker.phase = .closed ↔ s.breaker.phase = .closed) := by
  have hread : s.breaker.SameOpening (s.breaker.state s.now) ∧
      (s.breaker.state s.now).closedAt = s.breaker.closedAt ∧
      ((s.breaker.state s.now).phase = .closed ↔ s.breaker.phase = .closed) := by
    refine ⟨?_, ?_, not_iff_not.mp (s.breaker.state_phase_ne_closed s.now)⟩
    all_goals
      rcases s.breaker.state_cases s.now with ⟨_, _, hst⟩ | ⟨_, hst⟩ <;> rw [hst]
    all_goals exact ⟨rfl, rfl, rfl, rfl⟩
  refine or_iff_not_imp_left.mpr fun ha => ⟨by simpa using ha, ?_⟩
  cases a with
  | check =>
    rcases check_step_cases hstep with ⟨_, rfl⟩ | ⟨_, rfl⟩ | ⟨_, rfl⟩ <;> exact hread
  | record i ok reason => exact absurd ⟨i, ok, reason, rfl⟩ ha
  | abandon i =>
    rw [abandon_step hstep]
    exact ⟨⟨rfl, rfl, rfl, rfl⟩, rfl, Iff.rfl⟩
  | peek =>
    rw [peek_step hstep]
    exact hread
  | wait d =>
    rw [(wait_step hstep).2]
    exact ⟨⟨rfl, rfl, rfl, rfl⟩, rfl, Iff.rfl⟩

theorem windowed_step {a : Action} (h : Windowed cfg s.breaker) (hstep : Steps cfg s a s') :
    Windowed cfg s'.breaker := by
  -- An opening sets the window; every other step keeps it and leaves `closed` only
  -- through an opening.
  have hkeep : s.breaker.SameOpening s'.breaker →
      (s'.breaker.phase ≠ .closed → s.breaker.phase ≠ .closed) →
      Windowed cfg s'.breaker := by
    rintro ⟨_, hfor, hcount, _⟩ hphase hopen
    obtain ⟨k, hk, hwin⟩ := h (hphase hopen)
    exact ⟨k, hcount.trans hk, hfor.trans hwin⟩
  rcases record_or_frame hstep with ⟨i, ok, reason, rfl⟩ | ⟨-, hsame, -, hphase⟩
  · rw [record_step hstep] at hkeep ⊢
    rcases s.breaker.record_effect cfg ok reason s.now with
      ⟨_, hstart⟩ | ⟨_, hhalf, hclosed, _, hsame⟩ | ⟨_, hphase, _, hsame⟩
    · intro _
      exact ⟨_, hstart.consecutiveOpens, hstart.openFor⟩
    · intro hopen
      exact absurd hclosed hopen
    · refine hkeep hsame ?_
      intro hopen
      rw [← s.breaker.state_phase_ne_closed s.now, ← hphase]
      exact hopen
  · exact hkeep hsame (fun hopen => fun hc => hopen (hphase.mpr hc))

theorem windowed_of_run {s : System} (hrun : ClientRun cfg h s) : Windowed cfg s.breaker := by
  induction hrun with
  | start hs =>
    intro hopen
    rw [hs.1] at hopen
    exact absurd rfl hopen
  | next _ hstep ih => exact windowed_step ih hstep

/-- A closed breaker with a close on record has been closed since then. -/
def ClosedSince (h : List (System × Action)) (s : System) : Prop :=
  s.breaker.phase = .closed → s.breaker.closedAt ≠ 0 →
    ∃ newer q older, statesOf h s = newer ++ q :: older ∧
      (∀ r ∈ newer ++ [q], r.breaker.phase = .closed) ∧ q.now = s.breaker.closedAt

theorem closedSince_step {a : Action} (hs : ClosedSince h s) (hstep : Steps cfg s a s') :
    ClosedSince ((s, a) :: h) s' := by
  -- A step between two closed states with the same close extends the stretch.
  have hextend : s.breaker.phase = .closed → s'.breaker.closedAt = s.breaker.closedAt →
      ClosedSince ((s, a) :: h) s' := by
    intro hp hat hp' hne
    obtain ⟨newer, q, older, hlist, hall, hq⟩ := hs hp (hat ▸ hne)
    refine ⟨s' :: newer, q, older, ?_, ?_, hq.trans hat.symm⟩
    · rw [statesOf_cons, hlist, List.cons_append]
    · intro r hr
      rcases List.mem_cons.mp hr with rfl | hr
      · exact hp'
      · exact hall r hr
  intro hp' hne
  rcases record_or_frame hstep with ⟨i, ok, reason, rfl⟩ | ⟨-, -, hat, hphase⟩
  · have heq := record_step hstep
    rcases s.breaker.record_effect cfg ok reason s.now with
      ⟨_, hstart⟩ | ⟨_, _, _, hat, _⟩ | ⟨_, hphase, hat, _⟩
    · have hopen := hstart.phase
      rw [heq] at hp'
      exact absurd (hopen.symm.trans hp') (by simp)
    · refine ⟨[], s', statesOf h s, rfl, ?_, ?_⟩
      · intro r hr
        rw [List.nil_append, List.mem_singleton] at hr
        rw [hr]
        exact hp'
      · rw [heq]
        exact hat.symm
    · refine hextend ?_ (by rw [heq]; exact hat) hp' hne
      rw [heq] at hp'
      by_contra hopen
      exact (s.breaker.state_phase_ne_closed s.now).mpr hopen (hphase ▸ hp')
  · exact hextend (hphase.mp hp') hat hp' hne

theorem closedSince_of_run {s : System} (hrun : ClientRun cfg h s) : ClosedSince h s := by
  induction hrun with
  | start hs =>
    intro _ hne
    rw [hs.1] at hne
    exact absurd rfl hne
  | next _ hstep ih => exact closedSince_step ih hstep

theorem HeldClosed.phase {s : System} (hheld : HeldClosed cfg h s) : s.breaker.phase = .closed := by
  obtain ⟨newer, q, older, hlist, hall, _⟩ := hheld
  cases newer with
  | nil =>
    have hq : s = q := (List.cons.inj hlist).1
    rw [hq]
    exact hall q (by simp)
  | cons r newer =>
    have hr : s = r := (List.cons.inj hlist).1
    rw [hr]
    exact hall r (by simp)

theorem heldClosed_of_recovered {s : System} (hs : ClosedSince h s)
    (hp : s.breaker.phase = .closed) (hrec : s.breaker.recovered cfg s.now) :
    HeldClosed cfg h s := by
  obtain ⟨newer, q, older, hlist, hall, hq⟩ := hs hp hrec.1
  refine ⟨newer, q, older, hlist, hall, ?_⟩
  rw [hq]
  exact hrec.2

theorem keeps_of_escalates {i : ℕ} {ok : Bool} {reason : String} (hrun : ClientRun cfg h s)
    (hstep : Steps cfg s (.record i ok reason) s')
    (hesc : Escalates cfg h s (.record i ok reason) s') :
    KeepsEscalation cfg s (.record i ok reason) := by
  obtain ⟨hdouble, hreturn⟩ := hesc
  rw [record_step hstep] at hdouble hreturn
  refine ⟨?_, ?_⟩
  · intro hre
    obtain ⟨hopened, _⟩ := hdouble i ok reason rfl hre
    rcases s.breaker.record_effect cfg ok reason s.now with
      ⟨_, hstart⟩ | ⟨hno, _⟩ | ⟨_, hphase, _⟩
    · exact hstart.exponent_lt
    · exact absurd (.inl hre) hno
    · exact absurd (hopened.symm.trans (hphase.trans hre.1)) (by simp)
  · intro hopens hne hrec
    have hzero : s.breaker.exponent cfg s.now = 0 := if_pos hrec
    rcases s.breaker.record_effect cfg ok reason s.now with
      ⟨_, hstart⟩ | ⟨hno, _⟩ | ⟨hbig, _⟩
    · have hcount := hstart.openedCount
      have hone := hstart.consecutiveOpens
      rcases hreturn (by rw [hcount]; simp) with hnext | hheld
      · -- The counter is back at one, yet outside `closed` it was positive before.
        obtain ⟨k, hk, _⟩ := windowed_of_run hrun hne
        rw [hone, hzero, hk] at hnext
        simp at hnext
      · exact hne hheld.phase
    · exact hno hopens
    · have hle := hbig hopens
      rw [hzero] at hle
      exact absurd hle (by decide)

theorem escalates_of_keeps (hmax : 0 ≤ cfg.maxOpenSeconds) {i : ℕ} {ok : Bool} {reason : String}
    (hrun : ClientRun cfg h s) (hstep : Steps cfg s (.record i ok reason) s')
    (hkeep : KeepsEscalation cfg s (.record i ok reason)) :
    Escalates cfg h s (.record i ok reason) s' := by
  obtain ⟨hrange, hclose⟩ := hkeep
  have hexp : ¬ s.breaker.recovered cfg s.now →
      s.breaker.exponent cfg s.now = s.breaker.consecutiveOpens := fun hno => if_neg hno
  rw [record_step hstep]
  refine ⟨?_, ?_⟩
  · intro i' ok' reason' ha hre
    cases ha
    have hne : s.breaker.phase ≠ .closed := by
      rw [← s.breaker.state_phase_ne_closed s.now, hre.1]
      simp
    have hsame := hexp (hclose (.inl hre) hne)
    rcases s.breaker.record_effect cfg ok reason s.now with
      ⟨_, hstart⟩ | ⟨hno, _⟩ | ⟨hbig, _⟩
    · obtain ⟨k, hk, hfor⟩ := windowed_of_run hrun hne
      refine ⟨hstart.phase, ?_⟩
      rw [hstart.openFor, hsame, hk, hfor]
      exact windowOf_succ hmax k
    · exact absurd (.inl hre) hno
    · exact absurd (hbig (.inl hre)) (Nat.not_le_of_lt (hrange hre))
  · intro hcount
    rcases s.breaker.record_effect cfg ok reason s.now with
      ⟨hopens, hstart⟩ | ⟨_, _, _, _, hsame⟩ | ⟨_, _, _, hsame⟩
    · by_cases hrec : s.breaker.recovered cfg s.now
      · right
        have hp : s.breaker.phase = .closed := by
          by_contra hne
          exact hclose hopens hne hrec
        exact heldClosed_of_recovered (closedSince_of_run hrun) hp hrec
      · left
        rw [hstart.consecutiveOpens, hexp hrec]
    · exact absurd hsame.2.2.2 hcount
    · exact absurd hsame.2.2.2 hcount

theorem escalates_iff (hmax : 0 ≤ cfg.maxOpenSeconds) {a : Action} (hrun : ClientRun cfg h s)
    (hstep : Steps cfg s a s') : Escalates cfg h s a s' ↔ KeepsEscalation cfg s a := by
  rcases record_or_frame hstep with ⟨i, ok, reason, rfl⟩ | ⟨ha, hsame, -⟩
  · exact ⟨keeps_of_escalates hrun hstep, escalates_of_keeps hmax hrun hstep⟩
  · have hkeeps : KeepsEscalation cfg s a := by
      cases a with
      | record i ok reason => exact absurd rfl (ha i ok reason)
      | _ => trivial
    refine iff_of_true ⟨?_, ?_⟩ hkeeps
    · intro i ok reason hrec
      exact absurd hrec (ha i ok reason)
    · intro hcount
      exact absurd hsame.2.2.2 hcount

/-- The escalation survives every outage of a run exactly when every step of the
run keeps it. -/
theorem escalation_survives_iff (cfg : Config) (hmax : 0 ≤ cfg.maxOpenSeconds)
    (h : List (System × Action)) (s : System) (hrun : ClientRun cfg h s) :
    Along (Escalates cfg) h s ↔ Guarded (KeepsEscalation cfg) h := by
  apply hrun.along_iff_guarded
  intro h s a s' hrun hstep
  exact escalates_iff hmax hrun hstep

def singleProbe : Config :=
  { provider := "jina", minSamples := 1, probes := 1, probesNeeded := 1 }

/-- A first outage of two windows: the second one is twice the first. -/
theorem escalation_survives_first_outage :
    ∃ h s, ClientRun singleProbe h s ∧ s.breaker.openFor = 120 ∧
      Along (Escalates singleProbe) h s := by
  obtain ⟨h, s, hrun, hok, hwin⟩ :=
    Run.exists_of_exec Initial (step singleProbe) ⟨{}, 1, []⟩ ⟨rfl, rfl⟩
      [.check, .record 0 false "ConnectError", .wait 60, .check,
        .record 0 false "ConnectError"]
      (fun p => (∀ q ∈ p.1, KeepsEscalation singleProbe q.1 q.2) ∧
        p.2.breaker.openFor = 120)
      (by decide +kernel)
  exact ⟨h, s, hrun, hwin,
    (escalation_survives_iff singleProbe (by decide +kernel) h s hrun).mpr hok⟩

/-- The window `w` passes and the five probes of the half-open phase fail. -/
def failedProbes (w : ℚ) : List Action :=
  .wait w :: (List.replicate 5 [.check, .record 0 false "ConnectError"]).flatten

/-- Twenty failures open the breaker, five good probes close it after a minute,
and twenty more failures start an outage that is never left. Its third window is
a minute long again. -/
theorem stale_close_resets_escalation :
    ∃ h s s', ClientRun { provider := "jina" } h s ∧
      Steps { provider := "jina" } s (.record 0 false "ConnectError") s' ∧
      (s.breaker.state s.now).Reopens { provider := "jina" } false ∧
      s.breaker.openFor = 240 ∧ s'.breaker.openFor = 60 ∧
      min (2 * s.breaker.openFor) ({ provider := "jina" } : Config).maxOpenSeconds = 300 := by
  let cfg : Config := { provider := "jina" }
  let failures : List Action :=
    (List.replicate 20 [.check, .record 0 false "ConnectError"]).flatten
  obtain ⟨h, s, hrun, s', hrest⟩ :=
    Run.exists_of_exec Initial (step cfg) ⟨{}, 1, []⟩ ⟨rfl, rfl⟩
      (failures ++ .wait 60 :: (List.replicate 5 [.check, .record 0 true ""]).flatten ++
        failures ++ failedProbes 120 ++ (failedProbes 240).dropLast)
      (fun p => ∃ s' ∈ step cfg p.2 (.record 0 false "ConnectError"),
        (p.2.breaker.state p.2.now).Reopens cfg false ∧
        p.2.breaker.openFor = 240 ∧ s'.breaker.openFor = 60 ∧
        min (2 * p.2.breaker.openFor) cfg.maxOpenSeconds = 300)
      (by decide +kernel)
  exact ⟨h, s, s', hrun, hrest⟩

end RateLimit

end EmailExtractor
