import Mathlib.Data.List.Basic

/-!
# Runs of a labelled transition system

A run is recorded together with its history: the list of pairs of a state and
the action taken in it, the latest pair first. Keeping the states in the
history lets a property speak about what held along a stretch of the run, and a
condition on every step is a condition on every pair of the history.

`exec` is the computable counterpart for a step function in `Option`; every
successful execution is a run. A machine that answers every action is compared with another
one by a simulation relation.
-/

namespace Transition

variable {σ α : Type*}

/-- `Run init step h s`: the state `s` is reached from an initial state along
the history `h`, whose head is the latest state and the action taken in it. -/
inductive Run (init : σ → Prop) (step : σ → α → σ → Prop) :
    List (σ × α) → σ → Prop
  | start {s : σ} : init s → Run init step [] s
  | next {h : List (σ × α)} {s s' : σ} {a : α} :
      Run init step h s → step s a s' → Run init step ((s, a) :: h) s'

def statesOf (h : List (σ × α)) (s : σ) : List σ := s :: h.map Prod.fst

@[simp] theorem statesOf_nil (s : σ) : statesOf ([] : List (σ × α)) s = [s] := rfl

@[simp] theorem statesOf_cons (p : σ × α) (h : List (σ × α)) (s : σ) :
    statesOf (p :: h) s = s :: statesOf h p.1 := rfl

/-- Every step of the history meets `ok`, read in the state before the step. -/
def Guarded (ok : σ → α → Prop) (h : List (σ × α)) : Prop :=
  ∀ p ∈ h, ok p.1 p.2

@[simp] theorem guarded_nil (ok : σ → α → Prop) : Guarded ok [] := by
  simp [Guarded]

@[simp] theorem guarded_cons (ok : σ → α → Prop) (p : σ × α) (h : List (σ × α)) :
    Guarded ok (p :: h) ↔ ok p.1 p.2 ∧ Guarded ok h := by
  simp [Guarded]

theorem guarded_true (h : List (σ × α)) : Guarded (fun _ _ => True) h := fun _ _ => trivial

section

variable {init : σ → Prop} {step : σ → α → σ → Prop} {ok : σ → α → Prop}
  {P : List (σ × α) → σ → α → σ → Prop} {h : List (σ × α)} {s : σ}

/-- The invariant rule, for an invariant that may read the history: it holds
initially and every step that meets `ok` keeps it. -/
theorem Run.invariant_history {I : List (σ × α) → σ → Prop} (hinit : ∀ s, init s → I [] s)
    (hstep : ∀ h s a s', I h s → ok s a → step s a s' → I ((s, a) :: h) s')
    (hrun : Run init step h s) (hok : Guarded ok h) : I h s := by
  induction hrun with
  | start hs => exact hinit _ hs
  | next _ hs ih =>
    rw [guarded_cons] at hok
    exact hstep _ _ _ _ (ih hok.2) hok.1 hs

theorem Run.always_history {I : List (σ × α) → σ → Prop} (hinit : ∀ s, init s → I [] s)
    (hstep : ∀ h s a s', I h s → step s a s' → I ((s, a) :: h) s') (hrun : Run init step h s) :
    I h s := by
  exact hrun.invariant_history hinit (fun h s a s' hi _ hs => hstep h s a s' hi hs)
    (guarded_true h)

theorem Run.invariant {I : σ → Prop} (hinit : ∀ s, init s → I s)
    (hstep : ∀ s a s', I s → ok s a → step s a s' → I s') (hrun : Run init step h s)
    (hok : Guarded ok h) : I s :=
  hrun.invariant_history (I := fun _ s => I s) hinit
    (fun _ s a s' hi ho hs => hstep s a s' hi ho hs) hok

theorem Run.always {I : σ → Prop} (hinit : ∀ s, init s → I s)
    (hstep : ∀ s a s', I s → step s a s' → I s') (hrun : Run init step h s) : I s := by
  exact hrun.invariant hinit (fun s a s' hi _ hs => hstep s a s' hi hs) (guarded_true h)

/-- The property `P` holds of every step of the run: it is given the history
before the step, the state, the action and the next state. -/
def Along (P : List (σ × α) → σ → α → σ → Prop) : List (σ × α) → σ → Prop
  | [], _ => True
  | (s, a) :: h, s' => P h s a s' ∧ Along P h s

/-- A property of single steps that is equivalent to a guard, on every run,
holds along a run exactly when the whole run is guarded. -/
theorem Run.along_iff_guarded
    (hiff : ∀ h s a s', Run init step h s → step s a s' → (P h s a s' ↔ ok s a))
    (hrun : Run init step h s) : Along P h s ↔ Guarded ok h := by
  induction hrun with
  | start _ => simp [Along]
  | next hr hs ih => rw [Along, guarded_cons, hiff _ _ _ _ hr hs, ih]

/-- What every step from a state of the invariant does holds along every guarded run,
for an invariant that may read the history. -/
theorem Run.along_history {I : List (σ × α) → σ → Prop} (hinit : ∀ s, init s → I [] s)
    (hstep : ∀ h s a s', I h s → ok s a → step s a s' → I ((s, a) :: h) s')
    (hP : ∀ h s a s', I h s → ok s a → step s a s' → P h s a s') (hrun : Run init step h s)
    (hok : Guarded ok h) : Along P h s := by
  induction hrun with
  | start _ => trivial
  | next hr hs ih =>
    rw [guarded_cons] at hok
    exact ⟨hP _ _ _ _ (hr.invariant_history hinit hstep hok.2) hok.1 hs, ih hok.2⟩

theorem Run.along {I : σ → Prop} (hinit : ∀ s, init s → I s)
    (hstep : ∀ s a s', I s → ok s a → step s a s' → I s')
    (hP : ∀ h s a s', I s → ok s a → step s a s' → P h s a s') (hrun : Run init step h s)
    (hok : Guarded ok h) : Along P h s :=
  hrun.along_history (I := fun _ s => I s) hinit
    (fun _ s a s' hi ho hs => hstep s a s' hi ho hs) hP hok

theorem Run.along_step (hP : ∀ h s a s', step s a s' → P h s a s') (hrun : Run init step h s) :
    Along P h s := by
  induction hrun with
  | start _ => trivial
  | next _ hs ih => exact ⟨hP _ _ _ _ hs, ih⟩

theorem Run.mono {step step' : σ → α → σ → Prop} (hsub : ∀ s a s', step s a s' → step' s a s')
    (hrun : Run init step h s) : Run init step' h s := by
  induction hrun with
  | start hs => exact .start hs
  | next _ hs ih => exact ih.next (hsub _ _ _ hs)

theorem Run.of_append {h₁ h₂ : List (σ × α)} (hrun : Run init step (h₁ ++ h₂) s) :
    ∃ s', Run init step h₂ s' ∧ Run (fun t => t = s') step h₁ s := by
  induction h₁ generalizing s with
  | nil => exact ⟨s, hrun, .start rfl⟩
  | cons p h₁ ih =>
    rw [List.cons_append] at hrun
    cases hrun with
    | next hr hs =>
      obtain ⟨s', hr', hseg⟩ := ih hr
      exact ⟨s', hr', hseg.next hs⟩

end

/-- The latest action of the history that passes the test, with its position in the run. -/
def latest (test : σ → α → Bool) : List (σ × α) → Option (ℕ × α)
  | [] => none
  | (s, a) :: h => if test s a then some (h.length, a) else latest test h

theorem latest_cons_eq_some {test : σ → α → Bool} {s : σ} {a : α} {h : List (σ × α)}
    {e : ℕ × α} : latest test ((s, a) :: h) = some e ↔
      test s a = true ∧ (h.length, a) = e ∨ test s a = false ∧ latest test h = some e := by
  rw [latest]
  cases test s a with
  | true => simp
  | false => simp

/-- Run a list of actions through a step function, extending the history, and
stop at the first action that is not enabled. -/
def exec (step : σ → α → Option σ) :
    List (σ × α) → σ → List α → Option (List (σ × α) × σ)
  | h, s, [] => some (h, s)
  | h, s, a :: as => (step s a).bind fun s' => exec step ((s, a) :: h) s' as

theorem Run.exec {init : σ → Prop} {step : σ → α → Option σ}
    {h h' : List (σ × α)} {s s' : σ} {as : List α}
    (hrun : Run init (fun s a s' => step s a = some s') h s)
    (hexec : exec step h s as = some (h', s')) :
    Run init (fun s a s' => step s a = some s') h' s' := by
  induction as generalizing h s with
  | nil =>
    cases hexec
    exact hrun
  | cons a as ih =>
    obtain ⟨t, ht, hrest⟩ := Option.bind_eq_some_iff.mp hexec
    exact ih (hrun.next ht) hrest

theorem exec_actions {step : σ → α → Option σ} {h h' : List (σ × α)} {s s' : σ} {as : List α}
    (hexec : exec step h s as = some (h', s')) :
    h'.map Prod.snd = as.reverse ++ h.map Prod.snd := by
  induction as generalizing h s with
  | nil =>
    cases hexec
    rfl
  | cons a as ih =>
    obtain ⟨t, -, hrest⟩ := Option.bind_eq_some_iff.mp hexec
    simp [ih hrest]

theorem Run.exists_of_exec (init : σ → Prop) (step : σ → α → Option σ) (s : σ)
    (hs : init s) (as : List α) (Q : List (σ × α) × σ → Prop) [DecidablePred Q]
    (htest : (Transition.exec step [] s as).any (fun p => decide (Q p)) = true) :
    ∃ h s', Run init (fun s a s' => step s a = some s') h s' ∧ Q (h, s') := by
  cases hexec : Transition.exec step [] s as with
  | none => simp [hexec] at htest
  | some p =>
    rw [hexec] at htest
    exact ⟨p.1, p.2, Run.exec (.start hs) hexec, of_decide_eq_true htest⟩

/-! ## Machines that answer -/

section Answers

variable {τ ω : Type*}

def answers (step : σ → α → ω × σ) : σ → List α → List ω
  | _, [] => []
  | s, a :: as => (step s a).1 :: answers step (step s a).2 as

/-- Two machines give the same answers if a relation between their states, which may read
the actions to come, is kept by every action and makes the next answers equal. -/
theorem answers_eq_of_simulation {step : σ → α → ω × σ} {step' : τ → α → ω × τ}
    {R : List α → σ → τ → Prop}
    (hstep : ∀ a as s t, R (a :: as) s t →
      (step s a).1 = (step' t a).1 ∧ R as (step s a).2 (step' t a).2)
    {as : List α} {s : σ} {t : τ} (h : R as s t) : answers step s as = answers step' t as := by
  induction as generalizing s t with
  | nil => rfl
  | cons a as ih =>
    obtain ⟨hanswer, hnext⟩ := hstep a as s t h
    rw [answers, answers, hanswer, ih hnext]

end Answers

end Transition
