import EmailExtractor.Library.Run
import Mathlib.MeasureTheory.Measure.Lebesgue.Basic

/-!
# How long a signal has a value

A piecewise constant signal is the list of its changes, the latest first: a time, and the
value from that time on. `dwell` adds up the pieces of an interval on which the value meets
a test. It is the length of the set of times at which it does (`volume_dwell`).

A run whose actions have times is a signal, with the states for values.
-/

namespace Signal

open MeasureTheory

variable {K β σ α : Type*}

/-- The states of a run, each with the time from which it holds. -/
def timed (time : α → K) : List (σ × α) → σ → List (K × σ)
  | [], _ => []
  | (s, a) :: h, s' => (time a, s') :: timed time h s

section

variable [LinearOrder K]

def valueAt (l : List (K × β)) (u : K) : Option β :=
  (l.find? fun c => decide (c.1 ≤ u)).map Prod.snd

/-- The changes are in order, and none is after `t`. -/
def InOrder : K → List (K × β) → Prop
  | _, [] => True
  | t, (u, _) :: l => u ≤ t ∧ InOrder u l

instance InOrder.decidable : (t : K) → (l : List (K × β)) → Decidable (InOrder t l)
  | _, [] => isTrue trivial
  | t, (u, _) :: l =>
    have := InOrder.decidable u l
    inferInstanceAs (Decidable (u ≤ t ∧ InOrder u l))

theorem InOrder.mono {t t' : K} {l : List (K × β)} (h : InOrder t l) (hle : t ≤ t') :
    InOrder t' l := by
  cases l with
  | nil => trivial
  | cons c l => exact ⟨h.1.trans hle, h.2⟩

theorem valueAt_cons_of_le {u x : K} {b : β} (l : List (K × β)) (h : u ≤ x) :
    valueAt ((u, b) :: l) x = some b := by
  simp [valueAt, h]

theorem valueAt_cons_of_lt {u x : K} {b : β} (l : List (K × β)) (h : x < u) :
    valueAt ((u, b) :: l) x = valueAt l x := by
  simp [valueAt, not_le.mpr h]

variable [Field K]

/-- The time in `[a, t]` during which the value meets `p`. -/
def dwell (p : β → Bool) (a : K) : K → List (K × β) → K
  | _, [] => 0
  | t, (u, b) :: l => dwell p a (max a u) l + if p b then t - max a u else 0

variable {p : β → Bool} {a t : K} {l : List (K × β)}

theorem dwell_self (h : InOrder a l) : dwell p a a l = 0 := by
  induction l with
  | nil => rfl
  | cons c l ih =>
    obtain ⟨hle, hrest⟩ := h
    rw [dwell, max_eq_left hle, ih (hrest.mono hle), sub_self, ite_self, add_zero]

theorem dwell_nonneg [IsStrictOrderedRing K] (h : InOrder t l) (ha : a ≤ t) :
    0 ≤ dwell p a t l := by
  induction l generalizing t with
  | nil => exact le_rfl
  | cons c l ih =>
    obtain ⟨hle, hrest⟩ := h
    have hpiece : 0 ≤ if p c.2 then t - max a c.1 else 0 := by
      split
      · exact sub_nonneg.mpr (max_le ha hle)
      · exact le_rfl
    exact add_nonneg (ih (hrest.mono (le_max_right _ _)) (le_max_left _ _)) hpiece

end

/-! ## Rational times -/

theorem timed_cast (time : α → ℚ) (h : List (σ × α)) (s : σ) :
    timed (fun a => (time a : ℝ)) h s = (timed time h s).map fun c => ((c.1 : ℝ), c.2) := by
  induction h generalizing s with
  | nil => rfl
  | cons c h ih => rw [timed, timed, List.map_cons, ih]

theorem inOrder_cast {t : ℚ} {l : List (ℚ × β)} (h : InOrder t l) :
    InOrder (t : ℝ) (l.map fun c => ((c.1 : ℝ), c.2)) := by
  induction l generalizing t with
  | nil => trivial
  | cons c l ih => exact ⟨Rat.cast_le.mpr h.1, ih h.2⟩

theorem dwell_cast (p : β → Bool) (a t : ℚ) (l : List (ℚ × β)) :
    dwell p (a : ℝ) t (l.map fun c => ((c.1 : ℝ), c.2)) = ((dwell p a t l : ℚ) : ℝ) := by
  induction l generalizing t with
  | nil => simp [dwell]
  | cons c l ih =>
    rw [List.map_cons, dwell, dwell, ← Rat.cast_max, ih, Rat.cast_add]
    split <;> simp

/-! ## The length of a set of times -/

section

variable {p : β → Bool} {a t : ℝ} {l : List (ℝ × β)}

/-- The times of `[a, t)` at which the value meets `p`, split at the latest change. -/
theorem setOf_valueAt_cons {u : ℝ} {b : β} (hu : u ≤ t) (ha : a ≤ t) :
    {x | a ≤ x ∧ x < t ∧ (valueAt ((u, b) :: l) x).any p = true} =
      {x | a ≤ x ∧ x < max a u ∧ (valueAt l x).any p = true} ∪
        if p b then Set.Ico (max a u) t else ∅ := by
  have hpiece : ∀ x, x ∈ (if p b then Set.Ico (max a u) t else ∅) ↔
      p b = true ∧ max a u ≤ x ∧ x < t := by
    intro x
    split <;> simp_all
  ext x
  rw [Set.mem_union, hpiece, Set.mem_ofPred_eq, Set.mem_ofPred_eq]
  by_cases hx : u ≤ x
  · rw [valueAt_cons_of_le l hx, Option.any_some]
    constructor
    · rintro ⟨hax, hxt, hb⟩
      exact .inr ⟨hb, max_le hax hx, hxt⟩
    · rintro (⟨hax, hlt, -⟩ | ⟨hb, hmax, hxt⟩)
      · exact absurd hlt (not_lt.mpr (max_le hax hx))
      · exact ⟨(le_max_left a u).trans hmax, hxt, hb⟩
  · rw [valueAt_cons_of_lt l (not_le.mp hx)]
    constructor
    · rintro ⟨hax, hxt, hl⟩
      exact .inl ⟨hax, lt_max_of_lt_right (not_le.mp hx), hl⟩
    · rintro (⟨hax, hlt, hl⟩ | ⟨-, hmax, -⟩)
      · exact ⟨hax, hlt.trans_le (max_le ha hu), hl⟩
      · exact absurd ((le_max_right a u).trans hmax) hx

theorem volume_dwell_Ico (h : InOrder t l) (ha : a ≤ t) :
    volume {x | a ≤ x ∧ x < t ∧ (valueAt l x).any p = true} = ENNReal.ofReal (dwell p a t l) := by
  induction l generalizing t with
  | nil => simp [valueAt, dwell]
  | cons c l ih =>
    obtain ⟨u, b⟩ := c
    obtain ⟨hu, hrest⟩ := h
    have hbefore : InOrder (max a u) l := hrest.mono (le_max_right _ _)
    have hpiece : volume (if p b then Set.Ico (max a u) t else ∅) =
        ENNReal.ofReal (if p b then t - max a u else 0) := by
      split <;> simp
    have hdisjoint : Disjoint {x | a ≤ x ∧ x < max a u ∧ (valueAt l x).any p = true}
        (if p b then Set.Ico (max a u) t else ∅) := by
      split
      · exact Set.disjoint_left.mpr fun x hx hx' => absurd hx.2.1 (not_lt.mpr hx'.1)
      · exact Set.disjoint_empty _
    have hmeasurable : MeasurableSet (if p b then Set.Ico (max a u) t else ∅) := by
      split
      · exact measurableSet_Ico
      · exact MeasurableSet.empty
    have hlength : 0 ≤ if p b then t - max a u else 0 := by
      split
      · exact sub_nonneg.mpr (max_le ha hu)
      · exact le_rfl
    rw [setOf_valueAt_cons hu ha, measure_union hdisjoint hmeasurable,
      ih hbefore (le_max_left _ _), hpiece, dwell,
      ENNReal.ofReal_add (dwell_nonneg hbefore (le_max_left _ _)) hlength]

/-- `dwell` is the length of the set of times of `[a, t]` at which the value meets `p`. -/
theorem volume_dwell (h : InOrder t l) (ha : a ≤ t) :
    volume {x | a ≤ x ∧ x ≤ t ∧ (valueAt l x).any p = true} = ENNReal.ofReal (dwell p a t l) := by
  rw [← volume_dwell_Ico h ha]
  have hends : Set.Iic t =ᵐ[volume] Set.Iio t := Iio_ae_eq_Iic.symm
  have hset : ∀ s : Set ℝ, {x | a ≤ x ∧ x ∈ s ∧ (valueAt l x).any p = true} =
      {x | a ≤ x ∧ (valueAt l x).any p = true} ∩ s := by
    intro s
    ext x
    simp only [Set.mem_ofPred_eq, Set.mem_inter_iff]
    tauto
  have hle := hset (Set.Iic t)
  have hlt := hset (Set.Iio t)
  simp only [Set.mem_Iic, Set.mem_Iio] at hle hlt
  rw [hle, hlt]
  exact measure_congr (ae_eq_set_inter (ae_eq_refl _) hends)

end

end Signal
