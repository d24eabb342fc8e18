import EmailExtractor.RateLimit.Gate

/-!
# The dictionary of a gate

What the tasks of a gate do to its dictionary of domains. A task works with one domain at a
time, the one its stage shows or the one it checks in with, and it may add an entry for that
domain. Only `release_domain` takes an entry out, and an entry that it leaves is used by a
task at that moment.
-/

namespace EmailExtractor

namespace RateLimit

open Transition Semaphore
open Function (update update_self update_of_ne)

variable {τ δ : Type*}

/-- The domain that a task has come to the gate for. -/
def Stage.domain? : Stage δ → Option δ
  | .outside => none
  | .naps d | .waitsGlobal d | .cancelledGlobal d => some d
  | .waitsDomain d _ | .cancelledDomain d _ | .waitsBucket d _ | .inside d _ => some d

theorem Stage.domain?_of_uses {st : Stage δ} {d : δ} {i : ℕ} (h : st.uses = some (d, i)) :
    st.domain? = some d := by
  cases st with
  | waitsDomain | waitsBucket | inside =>
    cases h
    rfl
  | outside | naps | waitsGlobal | cancelledGlobal | cancelledDomain => cases h

inductive Move
  | check (v : Verdict)
  | resume
  | cancel
  | unwind
  | grant
  | leave
  deriving DecidableEq

def Move.action (t : τ) (d : δ) : Move → GateAction τ δ
  | .check v => .check t d v
  | .resume => .resume t
  | .cancel => .cancel t
  | .unwind => .unwind t
  | .grant => .grant t
  | .leave => .leave t

variable [DecidableEq δ] {cfg : GateConfig} {g g' : Gate τ δ} {t : τ} {d e : δ} {i : ℕ}

/-! ## Entries -/

theorem domainSem_keeps (d : δ) (h : g.perDomain e = some i) :
    (g.domainSem cfg d).2.perDomain e = some i := by
  unfold Gate.domainSem
  cases hd : g.perDomain d with
  | some j => exact h
  | none =>
    have hne : e ≠ d := by
      rintro rfl
      rw [hd] at h
      cases h
    exact (update_of_ne hne ..).trans h

theorem domainSem_entry (h : (g.domainSem cfg d).2.perDomain e = some i) :
    g.perDomain e = some i ∨ e = d ∧ i = g.created := by
  unfold Gate.domainSem at h
  cases hd : g.perDomain d with
  | some j =>
    rw [hd] at h
    exact .inl h
  | none =>
    rw [hd] at h
    by_cases hed : e = d
    · rw [hed] at h
      have hnew : some g.created = some i := (update_self d _ _).symm.trans h
      cases hnew
      exact .inr ⟨hed, rfl⟩
    · exact .inl ((update_of_ne hed ..).symm.trans h)

/-- No object is named by two domains. -/
def NamesApart (g : Gate τ δ) : Prop :=
  ∀ d e i, g.perDomain d = some i → g.perDomain e = some i → d = e

theorem NamesApart.domainSem (h : NamesApart g) (hkept : Kept cfg g) (d : δ) :
    NamesApart (g.domainSem cfg d).2 := by
  intro a b i ha hb
  rcases domainSem_entry ha with hold | ⟨hda, hnew⟩
  · rcases domainSem_entry hb with hold' | ⟨-, hnew'⟩
    · exact h a b i hold hold'
    · exact absurd hnew' (ne_of_lt (hkept.listed a i hold))
  · rcases domainSem_entry hb with hold' | ⟨hdb, -⟩
    · exact absurd hnew (ne_of_lt (hkept.listed b i hold'))
    · exact hda.trans hdb.symm

/-- What one step of the task `t`, which has come for `d`, does to the stages and the
dictionary. -/
structure Moved (cfg : GateConfig) (t : τ) (d : δ) (g g' : Gate τ δ) : Prop where
  others : ∀ t', t' ≠ t → g'.stage t' = g.stage t'
  own : ∀ e, (g'.stage t).domain? = some e → e = d ∨ (g.stage t).domain? = some e
  entries : g'.perDomain = g.perDomain ∨ ∃ e, (e = d ∨ (g.stage t).domain? = some e) ∧
    g'.perDomain = (g.domainSem cfg e).2.perDomain

theorem Moved.keeps (h : Moved cfg t d g g') (he : g.perDomain e = some i) :
    g'.perDomain e = some i := by
  rcases h.entries with hsame | ⟨e', -, hnew⟩
  · rw [hsame]
    exact he
  · rw [hnew]
    exact domainSem_keeps e' he

theorem Moved.entry (h : Moved cfg t d g g') (he : g'.perDomain e = some i) :
    g.perDomain e = some i ∨ e = d ∨ (g.stage t).domain? = some e := by
  rcases h.entries with hsame | ⟨e', hdomain, hnew⟩
  · rw [hsame] at he
    exact .inl he
  · rw [hnew] at he
    rcases domainSem_entry he with hold | ⟨rfl, -⟩
    · exact .inl hold
    · exact .inr hdomain

theorem Moved.namesApart (h : Moved cfg t d g g') (hkept : Kept cfg g) (hapart : NamesApart g) :
    NamesApart g' := by
  intro a b i
  rcases h.entries with hsame | ⟨e', -, hnew⟩
  · rw [hsame]
    exact hapart a b i
  · rw [hnew]
    exact hapart.domainSem hkept e' a b i

/-! ## Releasing a domain -/

theorem releaseDomain_entry (h : (g.releaseDomain cfg d).perDomain e = some i) :
    g.perDomain e = some i ∧ (e = d → (g.sems i).value ≠ cfg.perDomainConcurrency) := by
  unfold Gate.releaseDomain at h
  split at h
  · rename_i hd
    refine ⟨h, fun hed => ?_⟩
    rw [hed, hd] at h
    cases h
  · rename_i j hd
    split at h
    · have hne : e ≠ d := by
        rintro rfl
        cases (update_self e _ _).symm.trans h
      exact ⟨(update_of_ne hne ..).symm.trans h, fun hed => absurd hed hne⟩
    · rename_i hback
      refine ⟨h, fun hed => ?_⟩
      rw [hed, hd] at h
      cases h
      exact hback

theorem releaseDomain_stage : (g.releaseDomain cfg d).stage = g.stage := by
  unfold Gate.releaseDomain
  split
  · rfl
  · split
    · rfl
    · rfl

theorem NamesApart.releaseDomain (h : NamesApart g) : NamesApart (g.releaseDomain cfg d) :=
  fun a b i ha hb => h a b i (releaseDomain_entry ha).1 (releaseDomain_entry hb).1

omit [DecidableEq δ] in
/-- Where not all permits of an object are back, a task waits at it or holds it. -/
theorem Kept.exists_user (h : Kept cfg g) (hapart : NamesApart g) (hentry : g.perDomain d = some i)
    (hout : (g.sems i).value ≠ cfg.perDomainConcurrency) :
    ∃ t, (g.stage t).uses = some (d, i) := by
  obtain ⟨t, ht⟩ : ∃ t, (g.stage t).domainRole i ≠ .away := by
    by_contra hnobody
    push Not at hnobody
    exact hout ((h.domain i).value_eq hnobody)
  have hpos : 0 < cfg.perDomainConcurrency := by
    obtain ⟨holders, -, hsum⟩ := (h.domain i).permits
    omega
  cases huses : (g.stage t).uses with
  | none => exact absurd (Stage.domainRole_of_uses_none huses i) ht
  | some p =>
    obtain ⟨e, j⟩ := p
    have hij : j = i := by
      by_contra hne
      exact ht (Stage.domainRole_of_uses_ne huses hne)
    have hed : e = d := hapart e d i (hij ▸ h.named hpos t e j huses) hentry
    exact ⟨t, by rw [huses, hij, hed]⟩

/-! ## The moves of a task -/

variable [DecidableEq τ]

theorem Moved.setStage {st : Stage δ} (hstage : g'.stage = update g.stage t st)
    (hst : ∀ e, st.domain? = some e → e = d ∨ (g.stage t).domain? = some e)
    (hentries : g'.perDomain = g.perDomain ∨ ∃ e, (e = d ∨ (g.stage t).domain? = some e) ∧
      g'.perDomain = (g.domainSem cfg e).2.perDomain) : Moved cfg t d g g' := by
  refine ⟨fun t' hne => ?_, fun e he => ?_, hentries⟩
  · rw [hstage, update_of_ne hne]
  · rw [hstage, update_self] at he
    exact hst e he

theorem acquireDomain_perDomain (s : Semaphore τ) :
    (Gate.acquireDomain cfg t d { g with global := s }).perDomain =
      (g.domainSem cfg d).2.perDomain := by
  unfold Gate.acquireDomain
  rw [domainSem_setGlobal]
  dsimp only
  split
  · rfl
  · rfl

theorem acquireDomain_stage (cfg : GateConfig) (t : τ) (d : δ) (g : Gate τ δ)
    (s : Semaphore τ) :
    ∃ st : Stage δ, st.domain? = some d ∧
      (Gate.acquireDomain cfg t d { g with global := s }).stage = update g.stage t st := by
  unfold Gate.acquireDomain
  rw [domainSem_setGlobal]
  dsimp only
  split
  · refine ⟨.waitsDomain d (g.domainSem cfg d).1, rfl, ?_⟩
    exact congrArg (update · t _) (domainSem_stage cfg g d)
  · refine ⟨.waitsBucket d (g.domainSem cfg d).1, rfl, ?_⟩
    exact congrArg (update · t _) (domainSem_stage cfg g d)

theorem Moved.acquireDomain (s : Semaphore τ) (he : e = d ∨ (g.stage t).domain? = some e) :
    Moved cfg t d g (Gate.acquireDomain cfg t e { g with global := s }) := by
  obtain ⟨st, hst, hstage⟩ := acquireDomain_stage cfg t e g s
  refine .setStage hstage (fun e' he' => ?_) (.inr ⟨e, he, acquireDomain_perDomain s⟩)
  rw [hst] at he'
  cases he'
  exact he

theorem Moved.releaseBoth (he : (g.stage t).domain? = some e) :
    Moved cfg t d g ((g.releaseBoth cfg e).setStage t .outside) := by
  refine .setStage (congrArg (update · t _) (domainSem_stage cfg g e)) ?_
    (.inr ⟨e, .inr he, rfl⟩)
  rintro _ ⟨⟩

theorem Moved.acquireGlobal : Moved cfg t d g (g.acquireGlobal cfg t d) := by
  unfold Gate.acquireGlobal
  split
  · refine .setStage rfl (fun e he => ?_) (.inl rfl)
    cases he
    exact .inl rfl
  · exact .acquireDomain _ (.inl rfl)

theorem Moved.resume (h : g.resume cfg t = some g') : Moved cfg t d g g' := by
  unfold Gate.resume at h
  split at h
  · rename_i e hst
    obtain ⟨-, ⟨⟩⟩ := Option.ite_none_right_eq_some.mp h
    exact .acquireDomain _ (.inr (congrArg Stage.domain? hst))
  · rename_i e i hst
    obtain ⟨-, ⟨⟩⟩ := Option.ite_none_right_eq_some.mp h
    exact .setStage rfl (fun e' he' => .inr ((congrArg Stage.domain? hst).trans he')) (.inl rfl)
  · cases h

theorem Moved.cancel (h : g.cancel t = some g') : Moved cfg t d g g' := by
  unfold Gate.cancel at h
  split at h
  case h_3 => cases h
  all_goals
    rename_i hst
    obtain ⟨-, ⟨⟩⟩ := Option.ite_none_right_eq_some.mp h
    exact .setStage rfl (fun e' he' => .inr ((congrArg Stage.domain? hst).trans he')) (.inl rfl)

theorem Moved.outside (hstage : g'.stage = update g.stage t .outside)
    (hentries : g'.perDomain = g.perDomain) : Moved cfg t d g g' := by
  refine .setStage hstage ?_ (.inl hentries)
  rintro _ ⟨⟩

theorem Moved.unwind (h : g.unwind cfg t = some g') : Moved cfg t d g g' := by
  unfold Gate.unwind at h
  split at h
  · cases h
    exact .outside rfl rfl
  · obtain ⟨-, ⟨⟩⟩ := Option.ite_none_right_eq_some.mp h
    exact .outside rfl rfl
  · cases h
    exact .outside rfl rfl
  · obtain ⟨-, ⟨⟩⟩ := Option.ite_none_right_eq_some.mp h
    exact .outside rfl rfl
  · cases h
    exact .outside rfl rfl
  · rename_i e i hst
    cases h
    exact .releaseBoth (congrArg Stage.domain? hst)
  · cases h
  · cases h

theorem moved_step {m : Move} (h : g.step cfg (m.action t d) = some g') : Moved cfg t d g g' := by
  cases m with
  | check v =>
    obtain ⟨-, hgoes⟩ := Option.ite_none_right_eq_some.mp h
    cases v with
    | admits =>
      cases hgoes
      exact .acquireGlobal
    | naps =>
      cases hgoes
      refine .setStage rfl (fun e he => ?_) (.inl rfl)
      cases he
      exact .inl rfl
    | raises =>
      cases hgoes
      exact .outside rfl rfl
  | resume => exact .resume h
  | cancel => exact .cancel h
  | unwind => exact .unwind h
  | grant =>
    unfold Move.action Gate.step at h
    dsimp only at h
    split at h
    · rename_i e i hst
      cases h
      exact .setStage rfl (fun e' he' => .inr ((congrArg Stage.domain? hst).trans he'))
        (.inl rfl)
    · cases h
  | leave =>
    unfold Move.action Gate.step at h
    dsimp only at h
    split at h
    · rename_i e i hst
      cases h
      exact .releaseBoth (congrArg Stage.domain? hst)
    · cases h

theorem idle_step {m : Move} (h : g.step cfg (m.action t d) = some g') (hm : m ≠ .check .admits)
    (hidle : (g.stage t).Idle) : (g'.stage t).Idle ∧ g'.perDomain = g.perDomain := by
  cases m with
  | check v =>
    obtain ⟨-, hgoes⟩ := Option.ite_none_right_eq_some.mp h
    cases v with
    | admits => exact absurd rfl hm
    | naps =>
      cases hgoes
      exact ⟨.inr ⟨d, update_self ..⟩, rfl⟩
    | raises =>
      cases hgoes
      exact ⟨.inl (update_self ..), rfl⟩
  | unwind =>
    rcases hidle with hst | ⟨e, hst⟩
    · simp only [Move.action, Gate.step, Gate.unwind, hst] at h
      cases h
    · simp only [Move.action, Gate.step, Gate.unwind, hst] at h
      cases h
      exact ⟨.inl (update_self ..), rfl⟩
  | resume | cancel | grant | leave =>
    rcases hidle with hst | ⟨e, hst⟩
    · simp only [Move.action, Gate.step, Gate.resume, Gate.cancel, hst] at h
      cases h
    · simp only [Move.action, Gate.step, Gate.resume, Gate.cancel, hst] at h
      cases h

end RateLimit

end EmailExtractor
