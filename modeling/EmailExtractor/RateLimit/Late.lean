import EmailExtractor.RateLimit.Escalation

/-!
# Late results

A call may report back long after `check` admitted it, when the breaker is in another phase.
`record` does not know which call an outcome is of. An open breaker stores it, and opens
anew when enough of the outcomes stored since the opening have failed. A half-open breaker
takes it for the result of a probe.

The results here say what holds as long as no late outcome does such a thing.
-/

namespace EmailExtractor

namespace RateLimit

open Transition

/-! ## Outcomes recorded by an open breaker -/

/-- The opening stays as it is, or is the start of one by a breaker that was closed or half
open. -/
def Unmoved (s s' : System) : Prop :=
  s.breaker.SameOpening s'.breaker ∨
    (s.breaker.state s.now).phase ≠ .opened ∧ s'.breaker.phase = .opened

/-- No outcome recorded while the breaker is open trips it, unless the new window can no
longer be computed. -/
def LateHarmless (cfg : Config) (s : System) : Action → Prop
  | .record _ ok _ => (s.breaker.state s.now).phase = .opened →
      (s.breaker.state s.now).Trips cfg ok → floatExponentLimit ≤ s.breaker.exponent cfg s.now
  | _ => True

instance (cfg : Config) (s : System) (a : Action) : Decidable (LateHarmless cfg s a) :=
  match a with
  | .record _ _ _ => inferInstanceAs (Decidable (_ → _ → _))
  | .abandon _ | .check | .peek | .wait _ => isTrue trivial

section

variable {cfg : Config} {s s' s₁ : System} {a : Action}

theorem unmoved_iff (hstep : Steps cfg s a s') : Unmoved s s' ↔ LateHarmless cfg s a := by
  rcases record_or_frame hstep with ⟨i, ok, reason, rfl⟩ | ⟨ha, hsame, -⟩
  · rw [record_step hstep]
    rcases s.breaker.record_effect cfg ok reason s.now with
      ⟨hopens, hstart⟩ | ⟨_, hhalf, _, _, hsame⟩ | ⟨hbig, _, _, hsame⟩
    · -- an opening counts itself, so it is no late one only if the breaker was not open
      have hmoved : ¬ s.breaker.SameOpening (s.breaker.record cfg ok reason s.now).1 := by
        rintro ⟨_, _, _, hcount⟩
        rw [hstart.openedCount] at hcount
        omega
      constructor
      · rintro (hsame | ⟨hopen, _⟩)
        · exact absurd hsame hmoved
        · exact fun hp => absurd hp hopen
      · intro hharmless
        refine .inr ⟨fun hp => ?_, hstart.phase⟩
        have htrips : (s.breaker.state s.now).Trips cfg ok := by
          rcases hopens with hre | ⟨_, htrips⟩
          · exact absurd (hre.1.symm.trans hp) (by simp)
          · exact htrips
        exact absurd (hharmless hp htrips) (Nat.not_le_of_lt hstart.exponent_lt)
    · refine iff_of_true (.inl hsame) fun hp => ?_
      exact absurd (hhalf.symm.trans hp) (by simp)
    · refine iff_of_true (.inl hsame) fun hp htrips => ?_
      exact hbig (.inr ⟨by simp [hp], htrips⟩)
  · refine iff_of_true (.inl hsame) ?_
    cases a with
    | record i ok reason => exact absurd rfl (ha i ok reason)
    | _ => trivial

theorem now_le_of_step (hstep : Steps cfg s a s') : s.now ≤ s'.now := by
  cases a with
  | check => rcases check_step_cases hstep with ⟨_, rfl⟩ | ⟨_, rfl⟩ | ⟨_, rfl⟩ <;> exact le_rfl
  | record i ok reason => rw [record_step hstep]
  | abandon i => rw [abandon_step hstep]
  | peek => rw [peek_step hstep]
  | wait d =>
    obtain ⟨hd, rfl⟩ := wait_step hstep
    exact le_add_of_nonneg_right hd

theorem open_step (hstep : Steps cfg s a s') (hharmless : LateHarmless cfg s a)
    (hphase : s.breaker.phase = .opened) (hread : s.breaker.state s.now = s.breaker) :
    s'.breaker.phase = .opened ∧ s.breaker.SameOpening s'.breaker := by
  have hopen : (s.breaker.state s.now).phase = .opened := hread.symm ▸ hphase
  have hsame : s.breaker.SameOpening s'.breaker := by
    rcases (unmoved_iff hstep).mpr hharmless with hsame | ⟨hno, _⟩
    · exact hsame
    · exact absurd hopen hno
  refine ⟨?_, hsame⟩
  cases a with
  | check =>
    rcases check_step_cases hstep with ⟨_, rfl⟩ | ⟨hp, _⟩ | ⟨hp, _⟩
    · exact hopen
    · exact absurd (hp.symm.trans hopen) (by simp)
    · exact absurd (hp.symm.trans hopen) (by simp)
  | record i ok reason =>
    rw [record_step hstep] at hsame ⊢
    rcases s.breaker.record_effect cfg ok reason s.now with
      ⟨_, hstart⟩ | ⟨_, hhalf, _⟩ | ⟨_, hkept, _⟩
    · exact hstart.phase
    · exact absurd (hhalf.symm.trans hopen) (by simp)
    · exact hkept.trans hopen
  | abandon i =>
    rw [abandon_step hstep]
    exact hphase
  | peek =>
    rw [peek_step hstep]
    exact hopen
  | wait d =>
    rw [(wait_step hstep).2]
    exact hphase

/-! ## How long an opening lasts -/

/-- Until the end of the window the opening of `s₁` is the one the breaker is in, and later
openings are counted. -/
structure OpenedBy (s₁ s : System) : Prop where
  count : s₁.breaker.openedCount ≤ s.breaker.openedCount
  same : s.breaker.openedCount = s₁.breaker.openedCount → s₁.breaker.SameOpening s.breaker
  lasts : s.now < s₁.breaker.openedAt + s₁.breaker.openFor →
    s.breaker.phase = .opened ∧ s₁.breaker.SameOpening s.breaker

theorem state_eq_of_window (hwindow : s.now < s.breaker.openedAt + s.breaker.openFor) :
    s.breaker.state s.now = s.breaker := by
  rcases s.breaker.state_cases s.now with ⟨_, hover, _⟩ | ⟨_, heq⟩
  · linarith
  · exact heq

theorem OpenedBy.step (h : OpenedBy s₁ s) (hharmless : LateHarmless cfg s a)
    (hstep : Steps cfg s a s') : OpenedBy s₁ s' := by
  have hcount : s.breaker.SameOpening s'.breaker ∨
      s'.breaker.openedCount = s.breaker.openedCount + 1 := by
    rcases record_or_frame hstep with ⟨i, ok, reason, rfl⟩ | ⟨-, hsame, -⟩
    · rw [record_step hstep]
      rcases s.breaker.record_effect cfg ok reason s.now with
        ⟨_, hstart⟩ | ⟨_, _, _, _, hsame⟩ | ⟨_, _, _, hsame⟩
      · exact .inr hstart.openedCount
      · exact .inl hsame
      · exact .inl hsame
    · exact .inl hsame
  have htrans : s₁.breaker.SameOpening s.breaker → s.breaker.SameOpening s'.breaker →
      s₁.breaker.SameOpening s'.breaker := by
    rintro ⟨h1, h2, h3, h4⟩ ⟨h1', h2', h3', h4'⟩
    exact ⟨h1'.trans h1, h2'.trans h2, h3'.trans h3, h4'.trans h4⟩
  constructor
  case count =>
    have hle := h.count
    rcases hcount with hsame | hnext
    · rw [hsame.2.2.2]
      exact hle
    · omega
  case same =>
    intro heq
    have hle := h.count
    rcases hcount with hsame | hnext
    · exact htrans (h.same (hsame.2.2.2.symm.trans heq)) hsame
    · omega
  case lasts =>
    intro hwindow
    have hbefore := lt_of_le_of_lt (now_le_of_step hstep) hwindow
    obtain ⟨hphase, hsame⟩ := h.lasts hbefore
    have hread : s.breaker.state s.now = s.breaker := by
      apply state_eq_of_window
      rw [hsame.1, hsame.2.1]
      exact hbefore
    obtain ⟨hphase', hsame'⟩ := open_step hstep hharmless hphase hread
    exact ⟨hphase', htrans hsame hsame'⟩

theorem opening_lasts (hopen : s₁.breaker.phase = .opened) {h : List (System × Action)}
    (hrun : Run (fun x => x = s₁) (Steps cfg) h s) (hok : Guarded (LateHarmless cfg) h) :
    ((s.breaker.state s.now).phase = .opened ∧
        s.breaker.openedCount = s₁.breaker.openedCount) ↔
      s.now < s₁.breaker.openedAt + s₁.breaker.openFor := by
  have hopened : OpenedBy s₁ s := by
    refine hrun.invariant (I := OpenedBy s₁) ?_ (fun _ _ _ hs hok hstep => hs.step hok hstep) hok
    rintro s rfl
    exact ⟨le_rfl, fun _ => ⟨rfl, rfl, rfl, rfl⟩, fun _ => ⟨hopen, rfl, rfl, rfl, rfl⟩⟩
  constructor
  · rintro ⟨hread, hcount⟩
    obtain ⟨hat, hfor, _, _⟩ := hopened.same hcount
    rw [← hat, ← hfor]
    rcases s.breaker.state_cases s.now with ⟨_, _, heq⟩ | ⟨hno, heq⟩
    · rw [heq] at hread
      cases hread
    · rw [heq] at hread
      by_contra hover
      exact hno ⟨hread, by linarith⟩
  · intro hwindow
    obtain ⟨hphase, hsame⟩ := hopened.lasts hwindow
    refine ⟨?_, hsame.2.2.2⟩
    rw [state_eq_of_window (by rw [hsame.1, hsame.2.1]; exact hwindow)]
    exact hphase

end

/-- Time, length and count of the openings change only where a closed or half-open breaker
opens, exactly in the runs in which no outcome recorded by an open breaker trips it; and
then an opening lasts exactly as long as its window. -/
theorem late_results_unmoved_iff (cfg : Config) (h : List (System × Action)) (s : System)
    (hrun : ClientRun cfg h s) :
    (Along (fun _ s _ s' => Unmoved s s') h s ↔ Guarded (LateHarmless cfg) h) ∧
      ∀ s₁ h₁ s₂, s₁.breaker.phase = .opened → Run (fun x => x = s₁) (Steps cfg) h₁ s₂ →
        Guarded (LateHarmless cfg) h₁ →
        (((s₂.breaker.state s₂.now).phase = .opened ∧
            s₂.breaker.openedCount = s₁.breaker.openedCount) ↔
          s₂.now < s₁.breaker.openedAt + s₁.breaker.openFor) := by
  constructor
  · apply hrun.along_iff_guarded
    intro _ s a s' _ hstep
    exact unmoved_iff hstep
  · intro s₁ h₁ s₂ hopen hafter hok
    exact opening_lasts hopen hafter hok

def admitted (n : ℕ) : List Action := List.replicate n .check

def reported (n : ℕ) (ok : Bool) : List Action :=
  List.replicate n (.record 0 ok (if ok then "" else "ConnectError"))

/-- Twenty failures open the breaker, and five more that come in half a minute later leave
its opening as it is. -/
theorem few_late_failures_unmoved :
    ∃ h s, ClientRun { provider := "jina" } h s ∧ s.breaker.openedAt = 1 ∧ s.now = 31 ∧
      Along (fun _ s _ s' => Unmoved s s') h s := by
  let cfg : Config := { provider := "jina" }
  obtain ⟨h, s, hrun, hok, hat, hnow⟩ :=
    Run.exists_of_exec Initial (step cfg) ⟨{}, 1, []⟩ ⟨rfl, rfl⟩
      (admitted 25 ++ reported 20 false ++ .wait 30 :: reported 5 false)
      (fun p => (∀ q ∈ p.1, LateHarmless cfg q.1 q.2) ∧ p.2.breaker.openedAt = 1 ∧ p.2.now = 31)
      (by decide +kernel)
  exact ⟨h, s, hrun, hat, hnow, (late_results_unmoved_iff cfg h s hrun).1.mpr hok⟩

/-- Forty calls are in flight, twenty failures open the breaker, and the other twenty fail
half a minute later: the breaker opens a second time, for twice as long. -/
theorem late_failures_move_opening :
    ∃ h s s', ClientRun { provider := "jina" } h s ∧
      Steps { provider := "jina" } s (.record 0 false "ConnectError") s' ∧
      s.breaker.phase = .opened ∧ s.now < s.breaker.openedAt + s.breaker.openFor ∧
      s.breaker.openedAt = 1 ∧ s.breaker.openFor = 60 ∧ s.breaker.openedCount = 1 ∧
      s'.breaker.openedAt = 31 ∧ s'.breaker.openFor = 120 ∧ s'.breaker.openedCount = 2 := by
  let cfg : Config := { provider := "jina" }
  obtain ⟨h, s, hrun, s', hrest⟩ :=
    Run.exists_of_exec Initial (step cfg) ⟨{}, 1, []⟩ ⟨rfl, rfl⟩
      (admitted 40 ++ reported 20 false ++ .wait 30 :: reported 19 false)
      (fun p => ∃ s' ∈ step cfg p.2 (.record 0 false "ConnectError"),
        p.2.breaker.phase = .opened ∧ p.2.now < p.2.breaker.openedAt + p.2.breaker.openFor ∧
        p.2.breaker.openedAt = 1 ∧ p.2.breaker.openFor = 60 ∧ p.2.breaker.openedCount = 1 ∧
        s'.breaker.openedAt = 31 ∧ s'.breaker.openFor = 120 ∧ s'.breaker.openedCount = 2)
      (by decide +kernel)
  exact ⟨h, s, s', hrun, hrest⟩

end RateLimit

end EmailExtractor
