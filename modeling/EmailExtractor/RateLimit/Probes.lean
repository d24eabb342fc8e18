import EmailExtractor.RateLimit.Late

/-!
# Whose results a half-open breaker judges by

A half-open breaker closes or opens again by the results it has collected. These are the
outcomes recorded in the phase, by whichever calls. When only probes of the phase report in
it, they are the outcomes of these probes, in order, and no more of them than were admitted.

The number of openings names a half-open phase: a call with this number was admitted as a
probe of the phase.
-/

namespace EmailExtractor

namespace RateLimit

open Transition List

/-- The step admits a call as a probe of the half-open phase after the `n`-th opening. -/
def admitsProbe (cfg : Config) (n : ℕ) (s : System) : Action → Bool
  | .check =>
    (s.breaker.check cfg s.now).2.isNone &&
      decide ((admittedCall (s.breaker.check cfg s.now).1).probeOf = some n)
  | _ => false

/-- The calls admitted since the half-open phase after the `n`-th opening began. -/
def admissions (cfg : Config) (n : ℕ) (h : List (System × Action)) : ℕ :=
  h.countP fun p => admitsProbe cfg n p.1 p.2

/-- The outcome of a probe of that phase that the step records. -/
def probeOutcome (n : ℕ) (s : System) : Action → Option Bool
  | .record i ok _ =>
    if s.calls[i]?.any fun c => decide (c.probeOf = some n) then some ok else none
  | _ => none

/-- The outcomes of the probes of that phase, in the order in which they were recorded. -/
def collected (n : ℕ) (h : List (System × Action)) : List Bool :=
  h.reverse.filterMap fun p => probeOutcome n p.1 p.2

/-- Whoever reports to a half-open breaker is a probe of the phase. -/
def ProbesReport (s : System) : Action → Prop
  | .record i _ _ => (s.breaker.state s.now).phase = .halfOpen →
      s.calls[i]?.any (Call.isProbe (s.breaker.state s.now)) = true
  | _ => True

instance (s : System) (a : Action) : Decidable (ProbesReport s a) :=
  match a with
  | .record _ _ _ => inferInstanceAs (Decidable (_ → _))
  | .abandon _ | .check | .peek | .wait _ => isTrue trivial

/-- The half-open phase after the `n`-th opening has begun. -/
def Breaker.Began (b : Breaker) (n : ℕ) : Prop :=
  n < b.openedCount ∨ n = b.openedCount ∧ b.phase ≠ .opened

section

variable {cfg : Config} {n : ℕ} {h : List (System × Action)} {s s' : System} {a : Action}

theorem admissions_cons : admissions cfg n ((s, a) :: h) =
    admissions cfg n h + if admitsProbe cfg n s a then 1 else 0 :=
  countP_cons

theorem collected_cons :
    collected n ((s, a) :: h) = collected n h ++ (probeOutcome n s a).toList := by
  unfold collected
  rw [reverse_cons, filterMap_append]
  cases hout : probeOutcome n s a <;> simp [hout]

theorem countP_eraseIdx_of_counted {p : Call → Bool} {calls : List Call} {i : ℕ}
    (hi : calls[i]?.any p = true) : (calls.eraseIdx i).countP p + 1 = calls.countP p := by
  induction calls generalizing i with
  | nil => simp at hi
  | cons c calls ih =>
    cases i with
    | zero =>
      have hc : p c = true := by simpa using hi
      simp [hc]
    | succ i =>
      have hrest := ih (i := i) (by simpa using hi)
      simp only [eraseIdx_cons_succ, countP_cons]
      omega

/-! ## The books of a half-open phase -/

structure ProbeBooks (cfg : Config) (h : List (System × Action)) (b : Breaker)
    (calls : List Call) : Prop where
  calls_began : ∀ c ∈ calls, ∀ n ∈ c.probeOf, b.Began n
  admissions_began : ∀ n, admissions cfg n h ≠ 0 → b.Began n
  collected_began : ∀ n, collected n h ≠ [] → b.Began n
  admitted : b.phase = .halfOpen → b.probesAdmitted = admissions cfg b.openedCount h
  results : b.phase = .halfOpen → b.probeResults = collected b.openedCount h
  answered : b.phase = .halfOpen →
    b.probeResults.length + calls.countP (Call.isProbe b) ≤ b.probesAdmitted

theorem Breaker.Began.mono {b r : Breaker} (h : b.Began n) (hcount : b.openedCount ≤ r.openedCount)
    (hphase : r.openedCount = b.openedCount → r.phase = .opened → b.phase = .opened) :
    r.Began n := by
  rcases h with hlt | ⟨rfl, hnot⟩
  · exact .inl (Nat.lt_of_lt_of_le hlt hcount)
  · rcases Nat.lt_or_eq_of_le hcount with hlt | heq
    · exact .inl hlt
    · exact .inr ⟨heq, fun hr => hnot (hphase heq.symm hr)⟩

namespace ProbeBooks

variable {b r : Breaker} {calls calls' : List Call}

theorem state (hb : ProbeBooks cfg h b calls) (now : ℚ) :
    ProbeBooks cfg h (b.state now) calls := by
  rcases b.state_cases now with ⟨hopen, _, heq⟩ | ⟨_, heq⟩
  · have hnew : ¬ b.Began b.openedCount := by
      rintro (hlt | ⟨_, hnot⟩)
      · exact Nat.lt_irrefl _ hlt
      · exact hnot hopen
    have hbegan : ∀ {n}, b.Began n → (b.state now).Began n := by
      intro n hn
      exact hn.mono (by rw [heq]) fun _ _ => hopen
    refine ⟨fun c hc n hn => hbegan (hb.calls_began c hc n hn),
      fun n hn => hbegan (hb.admissions_began n hn),
      fun n hn => hbegan (hb.collected_began n hn), ?_, ?_, ?_⟩
    · intro _
      rw [heq]
      by_contra hne
      exact hnew (hb.admissions_began _ (Ne.symm hne))
    · intro _
      rw [heq]
      by_contra hne
      exact hnew (hb.collected_began _ (Ne.symm hne))
    · intro _
      rw [heq]
      have hnone : calls.countP
          (Call.isProbe { b with phase := .halfOpen, probeResults := [], probesAdmitted := 0 }) =
          0 := by
        apply countP_eq_zero.mpr
        intro c hc hprobe
        simp only [Call.isProbe, Bool.and_eq_true, decide_eq_true_eq] at hprobe
        exact hnew (hb.calls_began c hc _ hprobe.2)
      simp [hnone]
  · rw [heq]
    exact hb

theorem silent (hb : ProbeBooks cfg h b calls) (hadmits : ∀ n, admitsProbe cfg n s a = false)
    (houtcome : ∀ n, probeOutcome n s a = none) (hcalls : calls'.Sublist calls) :
    ProbeBooks cfg ((s, a) :: h) b calls' := by
  have hadmissions : ∀ n, admissions cfg n ((s, a) :: h) = admissions cfg n h := by
    intro n
    simp [admissions_cons, hadmits n]
  have hcollected : ∀ n, collected n ((s, a) :: h) = collected n h := by
    intro n
    simp [collected_cons, houtcome n]
  constructor
  case calls_began => exact fun c hc => hb.calls_began c (hcalls.subset hc)
  case admissions_began => simpa only [hadmissions] using hb.admissions_began
  case collected_began => simpa only [hcollected] using hb.collected_began
  case admitted => simpa only [hadmissions] using hb.admitted
  case results => simpa only [hcollected] using hb.results
  case answered =>
    intro hp
    exact le_trans (Nat.add_le_add_left hcalls.countP_le _) (hb.answered hp)

theorem admits (hb : ProbeBooks cfg h b calls) (hp : b.phase = .halfOpen)
    (hadmits : ∀ n, admitsProbe cfg n s a = decide (n = b.openedCount))
    (houtcome : ∀ n, probeOutcome n s a = none) :
    ProbeBooks cfg ((s, a) :: h) { b with probesAdmitted := b.probesAdmitted + 1 }
      (calls ++ [admittedCall b]) := by
  have hcurrent : b.Began b.openedCount := .inr ⟨rfl, by simp [hp]⟩
  have hcollected : ∀ n, collected n ((s, a) :: h) = collected n h := by
    intro n
    simp [collected_cons, houtcome n]
  have htag : (admittedCall b).probeOf = some b.openedCount := if_pos hp
  constructor
  case calls_began =>
    intro c hc n hn
    rcases mem_append.mp hc with hc | hc
    · exact hb.calls_began c hc n hn
    · rw [mem_singleton.mp hc, htag, Option.mem_some] at hn
      subst hn
      exact hcurrent
  case admissions_began =>
    intro n hn
    by_cases hsame : n = b.openedCount
    · subst hsame
      exact hcurrent
    · rw [admissions_cons, hadmits, decide_eq_false hsame] at hn
      exact hb.admissions_began n hn
  case collected_began =>
    intro n hn
    rw [hcollected] at hn
    exact hb.collected_began n hn
  case admitted =>
    intro _
    rw [admissions_cons, hadmits, decide_eq_true rfl]
    exact congrArg (· + 1) (hb.admitted hp)
  case results =>
    intro _
    rw [hcollected]
    exact hb.results hp
  case answered =>
    intro _
    rw [countP_isProbe_admitted calls hp]
    exact Nat.succ_le_succ (hb.answered hp)

section Record

variable {i : ℕ} {ok : Bool} {reason : String}

section

variable (hb : ProbeBooks cfg h b s.calls)

include hb

theorem recorded_began (hn : collected n ((s, .record i ok reason) :: h) ≠ []) : b.Began n := by
  rw [collected_cons] at hn
  by_cases hbefore : collected n h = []
  · rw [hbefore, nil_append] at hn
    cases hcall : s.calls[i]? with
    | none => simp [probeOutcome, hcall] at hn
    | some c =>
      have htag : c.probeOf = some n := by
        by_contra hno
        simp [probeOutcome, hcall, hno] at hn
      exact hb.calls_began c (mem_of_getElem? hcall) n htag
  · exact hb.collected_began n hbefore

theorem leave (hbegan : ∀ n, b.Began n → r.Began n) (hr : r.phase ≠ .halfOpen) :
    ProbeBooks cfg ((s, .record i ok reason) :: h) r (s.calls.eraseIdx i) := by
  have hadmissions : ∀ n, admissions cfg n ((s, .record i ok reason) :: h) =
      admissions cfg n h := by
    intro n
    simp [admissions_cons, admitsProbe]
  constructor
  case calls_began =>
    intro c hc n hn
    exact hbegan n (hb.calls_began c (mem_of_mem_eraseIdx hc) n hn)
  case admissions_began =>
    intro n hn
    rw [hadmissions] at hn
    exact hbegan n (hb.admissions_began n hn)
  case collected_began => exact fun n hn => hbegan n (hb.recorded_began hn)
  case admitted => exact fun hp => absurd hp hr
  case results => exact fun hp => absurd hp hr
  case answered => exact fun hp => absurd hp hr

theorem collect (hp : b.phase = .halfOpen) (hprobe : s.calls[i]?.any (Call.isProbe b) = true) :
    ProbeBooks cfg ((s, .record i ok reason) :: h)
      { b with probeResults := b.probeResults ++ [ok] } (s.calls.eraseIdx i) := by
  have hadmissions : ∀ n, admissions cfg n ((s, .record i ok reason) :: h) =
      admissions cfg n h := by
    intro n
    simp [admissions_cons, admitsProbe]
  have houtcome : probeOutcome b.openedCount s (.record i ok reason) = some ok := by
    have htag : (s.calls[i]?.any fun c => decide (c.probeOf = some b.openedCount)) = true := by
      cases hcall : s.calls[i]? with
      | none => simp [hcall] at hprobe
      | some c => simpa [hcall, Call.isProbe, hp] using hprobe
    rw [probeOutcome, if_pos htag]
  constructor
  case calls_began =>
    intro c hc n hn
    exact hb.calls_began c (mem_of_mem_eraseIdx hc) n hn
  case admissions_began =>
    intro n hn
    rw [hadmissions] at hn
    exact hb.admissions_began n hn
  case collected_began => exact fun n hn => hb.recorded_began hn
  case admitted =>
    intro _
    rw [hadmissions]
    exact hb.admitted hp
  case results =>
    intro _
    rw [collected_cons, houtcome]
    exact congrArg (· ++ [ok]) (hb.results hp)
  case answered =>
    intro _
    have hcount := countP_eraseIdx_of_counted hprobe
    have hbefore := hb.answered hp
    rw [length_append, length_singleton]
    change b.probeResults.length + 1 + (s.calls.eraseIdx i).countP (Call.isProbe b) ≤
      b.probesAdmitted
    omega

theorem leave_open (hcount : r.openedCount = b.openedCount + 1) (hr : r.phase = .opened) :
    ProbeBooks cfg ((s, .record i ok reason) :: h) r (s.calls.eraseIdx i) := by
  refine hb.leave (fun n hn => hn.mono (by omega) fun hsame => by omega) ?_
  rw [hr]
  simp

theorem recordProbe (now : ℚ) (hp : b.phase = .halfOpen)
    (hprobe : s.calls[i]?.any (Call.isProbe b) = true) :
    ProbeBooks cfg ((s, .record i ok reason) :: h) (b.recordProbe cfg ok now).1
      (s.calls.eraseIdx i) := by
  rcases b.recordProbe_cases cfg ok now hp with ⟨_, heq⟩ | ⟨_, _, heq⟩ | ⟨_, heq⟩
  · rw [heq]
    exact hb.collect hp hprobe
  · rw [heq]
    refine hb.leave (fun n hn => hn.mono (le_refl b.openedCount) fun _ hclosed => ?_) ?_
    · cases hclosed
    · simp [Breaker.close_]
  · rw [heq]
    rcases Breaker.open_cases cfg now { b with probeResults := b.probeResults ++ [ok] } with
      ⟨_, hraise⟩ | hstart
    · rw [hraise]
      exact hb.collect hp hprobe
    · exact hb.leave_open hstart.openedCount hstart.phase

theorem recordOutcome (now : ℚ) (hp : b.phase ≠ .halfOpen) :
    ProbeBooks cfg ((s, .record i ok reason) :: h) (b.recordOutcome cfg ok now).1
      (s.calls.eraseIdx i) := by
  have hstored : ProbeBooks cfg ((s, .record i ok reason) :: h)
      { b with outcomes := b.keptOutcomes cfg ok } (s.calls.eraseIdx i) :=
    hb.leave (fun n hn => hn) hp
  rcases b.recordOutcome_cases cfg ok now with ⟨_, heq⟩ | ⟨_, heq⟩
  · rw [heq]
    exact hstored
  · rw [heq]
    rcases Breaker.open_cases cfg now { b with outcomes := b.keptOutcomes cfg ok } with
      ⟨_, hraise⟩ | hstart
    · rw [hraise]
      exact hstored
    · exact hb.leave_open hstart.openedCount hstart.phase

end

end Record

theorem countReason (hb : ProbeBooks cfg h b calls) (ok : Bool) (reason : String) :
    ProbeBooks cfg h (b.countReason ok reason) calls := by
  rw [b.countReason_eq ok reason]
  exact ⟨hb.calls_began, hb.admissions_began, hb.collected_began, hb.admitted, hb.results,
    hb.answered⟩

theorem step (hb : ProbeBooks cfg h s.breaker s.calls) (hok : ProbesReport s a)
    (hstep : Steps cfg s a s') : ProbeBooks cfg ((s, a) :: h) s'.breaker s'.calls := by
  have hread := hb.state s.now
  cases a with
  | check =>
    simp only [Steps, RateLimit.step, Option.some.injEq] at hstep
    subst hstep
    rcases s.breaker.check_cases cfg s.now with
      ⟨_, hbreaker, hno⟩ | ⟨_, _, hbreaker, hno⟩ | ⟨hp, _, heq⟩ | ⟨hp, heq⟩
    iterate 2
      have hrefused : (s.breaker.check cfg s.now).2.isNone = false := by
        rw [Option.isNone_eq_false_iff, Option.isSome_iff_ne_none]
        exact hno
      rw [hbreaker, hrefused]
      exact hread.silent (fun _ => by simp [admitsProbe, hrefused]) (fun _ => rfl) (.refl _)
    · rw [heq]
      refine hread.admits hp (fun n => ?_) fun _ => rfl
      simp [admitsProbe, heq, admittedCall, hp, eq_comm]
    · rw [heq]
      have htag : (admittedCall (s.breaker.state s.now)).probeOf = none := by
        simp [admittedCall, hp]
      have hsilent := hread.silent (a := .check) (s := s)
        (fun n => by simp [admitsProbe, heq, htag]) (fun _ => rfl) (.refl _)
      refine ⟨?_, hsilent.admissions_began, hsilent.collected_began, ?_, ?_, ?_⟩
      · intro c hc n hn
        rcases mem_append.mp hc with hc | hc
        · exact hread.calls_began c hc n hn
        · rw [mem_singleton.mp hc, htag] at hn
          cases hn
      all_goals
        intro hhalf
        exact absurd (hhalf.symm.trans hp) (by simp)
  | record i ok reason =>
    rw [record_step hstep, s.breaker.record_eq cfg ok reason s.now]
    have hcounted := hread.countReason ok reason
    have hreason := (s.breaker.state s.now).countReason_eq ok reason
    split
    · rename_i hp
      refine hcounted.recordProbe s.now (by rw [hreason]; exact hp) ?_
      rw [hreason]
      exact hok hp
    · rename_i hp
      exact hcounted.recordOutcome s.now (by rw [hreason]; exact hp)
  | abandon i =>
    rw [abandon_step hstep]
    exact hb.silent (fun _ => rfl) (fun _ => rfl) (eraseIdx_sublist _ _)
  | peek =>
    rw [peek_step hstep]
    exact hread.silent (fun _ => rfl) (fun _ => rfl) (.refl _)
  | wait d =>
    rw [(wait_step hstep).2]
    exact hb.silent (fun _ => rfl) (fun _ => rfl) (.refl _)

theorem initial (hs : Initial s) : ProbeBooks cfg [] s.breaker s.calls := by
  obtain ⟨hbreaker, hcalls⟩ := hs
  rw [hbreaker, hcalls]
  refine ⟨by simp, by simp [admissions], by simp [collected], ?_, ?_, ?_⟩
  all_goals
    intro hhalf
    cases hhalf

theorem of_run (hrun : ClientRun cfg h s) (hok : Guarded ProbesReport h) :
    ProbeBooks cfg h s.breaker s.calls := by
  exact hrun.invariant_history (I := fun h s => ProbeBooks cfg h s.breaker s.calls)
    (fun _ hs => .initial hs) (fun _ _ _ _ hb hok hstep => hb.step hok hstep) hok

theorem judged (hb : ProbeBooks cfg h b calls) (hp : b.phase = .halfOpen) :
    b.probeResults.length ≤ admissions cfg b.openedCount h ∧
      b.probeResults = collected b.openedCount h := by
  refine ⟨?_, hb.results hp⟩
  rw [← hb.admitted hp]
  exact le_trans (Nat.le_add_right _ _) (hb.answered hp)

end ProbeBooks

end

/-- In every half-open state the collected results are the outcomes of the probes of the
phase, and no more than the calls admitted since it began; and so are the results by which
an outcome makes the breaker close or open again. -/
theorem verdict_from_probes (cfg : Config) (h : List (System × Action)) (s : System)
    (hrun : ClientRun cfg h s) (hok : Guarded ProbesReport h) :
    (s.breaker.phase = .halfOpen →
        s.breaker.probeResults.length ≤ admissions cfg s.breaker.openedCount h ∧
          s.breaker.probeResults = collected s.breaker.openedCount h) ∧
      Along (fun h s a _ => ∀ i ok reason, a = .record i ok reason →
        (s.breaker.state s.now).phase = .halfOpen →
          ((s.breaker.state s.now).probeResults ++ [ok]).length ≤
              admissions cfg s.breaker.openedCount h ∧
            (s.breaker.state s.now).probeResults ++ [ok] =
              collected s.breaker.openedCount ((s, a) :: h)) h s := by
  constructor
  · exact (ProbeBooks.of_run hrun hok).judged
  · refine hrun.along_history (I := fun h s => ProbeBooks cfg h s.breaker s.calls)
      (fun _ hs => .initial hs) (fun _ _ _ _ hb hok hstep => hb.step hok hstep) ?_ hok
    rintro h s _ _ hb hok _ i ok reason rfl hp
    have hread := hb.state s.now
    have hbooks : ProbeBooks cfg ((s, .record i ok reason) :: h) _ _ :=
      hread.collect hp (hok hp)
    have hcollect := hbooks.judged hp
    rw [admissions_cons] at hcollect
    have hcount : (s.breaker.state s.now).openedCount = s.breaker.openedCount := by
      rcases s.breaker.state_cases s.now with ⟨_, _, heq⟩ | ⟨_, heq⟩
      · rw [heq]
      · rw [heq]
    rw [← hcount]
    exact hcollect

/-- After the window five probes are admitted, four of them report a success, and these
four are what the breaker goes by. -/
theorem four_probes_judged :
    ∃ h s, ClientRun { provider := "jina" } h s ∧ s.breaker.phase = .halfOpen ∧
      s.breaker.probeResults = [true, true, true, true] ∧
      s.breaker.probeResults.length ≤ admissions { provider := "jina" } s.breaker.openedCount h ∧
      s.breaker.probeResults = collected s.breaker.openedCount h := by
  let cfg : Config := { provider := "jina" }
  obtain ⟨h, s, hrun, hok, hphase, hresults⟩ :=
    Run.exists_of_exec Initial (step cfg) ⟨{}, 1, []⟩ ⟨rfl, rfl⟩
      (admitted 20 ++ reported 20 false ++ .wait 60 :: admitted 5 ++ reported 4 true)
      (fun p => (∀ q ∈ p.1, ProbesReport q.1 q.2) ∧ p.2.breaker.phase = .halfOpen ∧
        p.2.breaker.probeResults = [true, true, true, true])
      (by decide +kernel)
  exact ⟨h, s, hrun, hphase, hresults, (verdict_from_probes cfg h s hrun hok).1 hphase⟩

/-- Twenty-five calls are in flight and twenty failures open the breaker. The other five
succeed after the window: four results are collected where no call has been admitted, and
the fifth closes the breaker. -/
theorem late_successes_close_breaker :
    ∃ h s s', ClientRun { provider := "jina" } h s ∧
      Steps { provider := "jina" } s (.record 0 true "") s' ∧
      s.breaker.phase = .halfOpen ∧ s.breaker.probeResults.length = 4 ∧
      admissions { provider := "jina" } s.breaker.openedCount h = 0 ∧
      s'.breaker.phase = .closed := by
  let cfg : Config := { provider := "jina" }
  obtain ⟨h, s, hrun, s', hstep, hrest⟩ :=
    Run.exists_of_exec Initial (step cfg) ⟨{}, 1, []⟩ ⟨rfl, rfl⟩
      (admitted 25 ++ reported 20 false ++ .wait 60 :: reported 4 true)
      (fun p => ∃ s' ∈ step cfg p.2 (.record 0 true ""), p.2.breaker.phase = .halfOpen ∧
        p.2.breaker.probeResults.length = 4 ∧
        admissions cfg p.2.breaker.openedCount p.1 = 0 ∧ s'.breaker.phase = .closed)
      (by decide +kernel)
  exact ⟨h, s, s', hrun, hstep, hrest⟩

end RateLimit

end EmailExtractor
