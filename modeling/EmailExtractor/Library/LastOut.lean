import EmailExtractor.Library.Run
import Mathlib.Logic.Function.Basic

/-!
# The last one out

A fixed family of parties leaves a room through a door that admits one at a time.
At the door a party looks who has left before: if all the others are gone it is
the last one out and has to turn off the light. Whatever the order, when all are
gone exactly one of them has done so.
-/

namespace LastOut

open Function (update update_self update_of_ne)

variable {ι : Type}

inductive Stage
  | waiting
  | holding
  | chosen
  | decided (b : Bool)
  | gone (b : Bool)
  deriving DecidableEq

namespace Stage

def inside : Stage → Bool
  | .holding => true
  | .chosen => true
  | .decided _ => true
  | _ => false

def isGone : Stage → Bool
  | .gone _ => true
  | _ => false

end Stage

variable [DecidableEq ι]

inductive Step (σ : ι → Stage) : ι → (ι → Stage) → Prop
  | enter {i : ι} (hi : σ i = .waiting) (hfree : ∀ i', (σ i').inside = false) :
      Step σ i (update σ i .holding)
  | choose {i : ι} (hi : σ i = .holding) (hlast : ∀ i', i' ≠ i → (σ i').isGone = true) :
      Step σ i (update σ i .chosen)
  | decline {i : ι} (hi : σ i = .holding) (hother : ∃ i', i' ≠ i ∧ (σ i').isGone = false) :
      Step σ i (update σ i (.decided false))
  | decide {i : ι} (hi : σ i = .chosen) : Step σ i (update σ i (.decided true))
  | leave {i : ι} {b : Bool} (hi : σ i = .decided b) :
      Step σ i (update σ i (.gone b))

def Init (σ : ι → Stage) : Prop := ∀ i, σ i = .waiting

structure Inv (σ : ι → Stage) : Prop where
  one_inside : ∀ i i', (σ i).inside = true → (σ i').inside = true → i = i'
  last : ∀ i, σ i = .chosen ∨ σ i = .decided true → ∀ i', i' ≠ i → (σ i').isGone = true
  not_last : ∀ i, σ i = .decided false → ∃ i', i' ≠ i ∧ (σ i').isGone = false
  winner : (∃ i, σ i = .gone true) ↔ ∀ i, (σ i).isGone = true
  unique : ∀ i i', σ i = .gone true → σ i' = .gone true → i = i'

section

variable {σ : ι → Stage} {i : ι} {x : Stage}

omit [DecidableEq ι] in
theorem not_all_gone (hi : (σ i).isGone = false) : ¬ ∀ i, (σ i).isGone = true := by
  intro hall
  simp [hall i] at hi

theorem isGone_update (hx : x.isGone = (σ i).isGone) (i' : ι) :
    (update σ i x i').isGone = (σ i').isGone := by
  by_cases h : i' = i
  · subst h
    rwa [update_self]
  · rw [update_of_ne h]

/-- A party that moves without leaving, at most into a free door, keeps the
invariant if it knows what its new place says about the others. -/
theorem Inv.move (hinv : Inv σ) (hi : (σ i).isGone = false) (hx : x.isGone = false)
    (hdoor : x.inside = true → (σ i).inside = true ∨ ∀ i', (σ i').inside = false)
    (hlast : x = .chosen ∨ x = .decided true → ∀ i', i' ≠ i → (σ i').isGone = true)
    (hother : x = .decided false → ∃ i', i' ≠ i ∧ (σ i').isGone = false) :
    Inv (update σ i x) := by
  have hgone := isGone_update (hx.trans hi.symm)
  have htrue : ∀ i', update σ i x i' = .gone true ↔ σ i' = .gone true := by
    intro i'
    by_cases h : i' = i
    · subst h
      rw [update_self]
      constructor <;> intro heq
      · simp [heq, Stage.isGone] at hx
      · simp [heq, Stage.isGone] at hi
    · rw [update_of_ne h]
  have hdoor' : ∀ i', i' ≠ i → x.inside = true → (σ i').inside = false := by
    intro i' hne hins
    rcases hdoor hins with hold | hfree
    · cases hi' : (σ i').inside with
      | false => rfl
      | true => exact absurd (hinv.one_inside i' i hi' hold) hne
    · exact hfree i'
  constructor
  case one_inside =>
    intro i1 i2 h1 h2
    by_cases hi1 : i1 = i <;> by_cases hi2 : i2 = i
    · rw [hi1, hi2]
    · subst hi1
      rw [update_self] at h1
      rw [update_of_ne hi2, hdoor' i2 hi2 h1] at h2
      simp at h2
    · subst hi2
      rw [update_self] at h2
      rw [update_of_ne hi1, hdoor' i1 hi1 h2] at h1
      simp at h1
    · rw [update_of_ne hi1] at h1
      rw [update_of_ne hi2] at h2
      exact hinv.one_inside i1 i2 h1 h2
  case last =>
    intro i1 h1 i2 hne
    rw [hgone]
    by_cases hi1 : i1 = i
    · subst hi1
      rw [update_self] at h1
      exact hlast h1 i2 hne
    · rw [update_of_ne hi1] at h1
      exact hinv.last i1 h1 i2 hne
  case not_last =>
    intro i1 h1
    simp only [hgone]
    by_cases hi1 : i1 = i
    · subst hi1
      rw [update_self] at h1
      exact hother h1
    · rw [update_of_ne hi1] at h1
      exact hinv.not_last i1 h1
  case winner =>
    simp only [hgone, htrue]
    exact hinv.winner
  case unique =>
    intro i1 i2
    rw [htrue, htrue]
    exact hinv.unique i1 i2

theorem Inv.leave {b : Bool} (hinv : Inv σ) (hi : σ i = .decided b) :
    Inv (update σ i (.gone b)) := by
  have hnot : ¬ ∃ i', σ i' = .gone true := by
    rw [hinv.winner]
    apply not_all_gone (i := i)
    simp [hi, Stage.isGone]
  have hinside : ∀ i', i' ≠ i → (σ i').inside = false := by
    intro i' hne
    cases hi' : (σ i').inside with
    | false => rfl
    | true => exact absurd (hinv.one_inside i' i hi' (by simp [hi, Stage.inside])) hne
  constructor
  case one_inside =>
    intro i1 i2 h1 h2
    by_cases hi1 : i1 = i
    · subst hi1
      simp [Stage.inside] at h1
    · rw [update_of_ne hi1, hinside i1 hi1] at h1
      simp at h1
  case last =>
    intro i1 h1
    by_cases hi1 : i1 = i
    · subst hi1
      simp at h1
    · rw [update_of_ne hi1] at h1
      rcases h1 with h1 | h1
      · simpa [h1, Stage.inside] using hinside i1 hi1
      · simpa [h1, Stage.inside] using hinside i1 hi1
  case not_last =>
    intro i1 h1
    by_cases hi1 : i1 = i
    · subst hi1
      simp at h1
    · rw [update_of_ne hi1] at h1
      simpa [h1, Stage.inside] using hinside i1 hi1
  case winner =>
    cases b with
    | true =>
      have hall : ∀ i', (update σ i (.gone true) i').isGone = true := by
        intro i'
        by_cases h : i' = i
        · subst h
          simp [Stage.isGone]
        · rw [update_of_ne h]
          exact hinv.last i (.inr hi) i' h
      exact ⟨fun _ => hall, fun _ => ⟨i, update_self ..⟩⟩
    | false =>
      obtain ⟨i', hne, hi'⟩ := hinv.not_last i hi
      constructor
      · rintro ⟨i1, h1⟩
        by_cases h : i1 = i
        · subst h
          simp at h1
        · rw [update_of_ne h] at h1
          exact absurd ⟨i1, h1⟩ hnot
      · intro hall
        have hgone := hall i'
        rw [update_of_ne hne, hi'] at hgone
        simp at hgone
  case unique =>
    intro i1 i2 h1 h2
    by_cases hi1 : i1 = i <;> by_cases hi2 : i2 = i
    · rw [hi1, hi2]
    · rw [update_of_ne hi2] at h2
      exact absurd ⟨i2, h2⟩ hnot
    · rw [update_of_ne hi1] at h1
      exact absurd ⟨i1, h1⟩ hnot
    · rw [update_of_ne hi1] at h1
      exact absurd ⟨i1, h1⟩ hnot

omit [DecidableEq ι] in
theorem Inv.init [Nonempty ι] (hs : Init σ) : Inv σ := by
  have hgone : ∀ i, (σ i).isGone = false := by
    intro i
    rw [hs i]
    rfl
  obtain ⟨i0⟩ := ‹Nonempty ι›
  constructor
  case one_inside =>
    intro i i' h
    simp [hs i, Stage.inside] at h
  case last =>
    intro i h
    simp [hs i] at h
  case not_last =>
    intro i h
    simp [hs i] at h
  case winner =>
    constructor
    · rintro ⟨i, h⟩
      simp [hs i] at h
    · intro hall
      exact absurd hall (not_all_gone (hgone i0))
  case unique =>
    intro i i' h
    simp [hs i] at h

theorem Inv.step {σ' : ι → Stage} (hinv : Inv σ) (hstep : Step σ i σ') : Inv σ' := by
  cases hstep with
  | enter hi hfree =>
    apply hinv.move (by simp [hi, Stage.isGone]) rfl (fun _ => .inr hfree)
    · simp
    · simp
  | choose hi hlast =>
    apply hinv.move (by simp [hi, Stage.isGone]) rfl (fun _ => .inl (by simp [hi, Stage.inside]))
    · exact fun _ => hlast
    · simp
  | decline hi hother =>
    apply hinv.move (by simp [hi, Stage.isGone]) rfl (fun _ => .inl (by simp [hi, Stage.inside]))
    · simp
    · exact fun _ => hother
  | decide hi =>
    apply hinv.move (by simp [hi, Stage.isGone]) rfl (fun _ => .inl (by simp [hi, Stage.inside]))
    · exact fun _ => hinv.last i (.inl hi)
    · simp
  | leave hi => exact hinv.leave hi

end

theorem Inv.of_run [Nonempty ι] {h : List ((ι → Stage) × ι)} {σ : ι → Stage}
    (hrun : Transition.Run Init Step h σ) : Inv σ :=
  hrun.always (fun _ hs => Inv.init hs) (fun _ _ _ hinv hs => hinv.step hs)

theorem existsUnique_last [Nonempty ι] {h : List ((ι → Stage) × ι)} {σ : ι → Stage}
    (hrun : Transition.Run Init Step h σ) (hall : ∀ i, (σ i).isGone = true) :
    ∃! i, σ i = .gone true := by
  have hinv := Inv.of_run hrun
  obtain ⟨i, hi⟩ := hinv.winner.mpr hall
  exact ⟨i, hi, fun i' hi' => hinv.unique i' i hi' hi⟩

end LastOut
