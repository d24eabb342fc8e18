import Mathlib.Order.Basic

/-!
# Serving the least served

Counters of which one at a time is raised, always a smallest one among those still open,
stay within one of each other as long as they are open. Counters may close at any time and
never open again.
-/

namespace Balance

variable {ι : Type*}

/-- The open counters differ by one at most. -/
def Balanced (isOpen : ι → Prop) (count : ι → ℕ) : Prop :=
  ∀ i i', isOpen i → isOpen i' → count i ≤ count i' + 1

variable {isOpen isOpen' : ι → Prop} {count count' : ι → ℕ}

theorem Balanced.of_zero (h : ∀ i, count i = 0) : Balanced isOpen count := by
  intro i _ _ _
  rw [h i]
  exact Nat.zero_le _

theorem Balanced.mono (h : Balanced isOpen count) (hopen : ∀ i, isOpen' i → isOpen i)
    (hcount : ∀ i, isOpen' i → count' i = count i) : Balanced isOpen' count' := by
  intro i i' hi hi'
  rw [hcount i hi, hcount i' hi']
  exact h i i' (hopen i hi) (hopen i' hi')

theorem Balanced.raise [DecidableEq ι] (h : Balanced isOpen count) {least : ι}
    (hleast : ∀ i, isOpen i → count least ≤ count i) (hopen : ∀ i, isOpen' i → isOpen i)
    (hcount : ∀ i, isOpen' i → count' i = if i = least then count i + 1 else count i) :
    Balanced isOpen' count' := by
  intro i i' hi hi'
  rw [hcount i hi, hcount i' hi']
  have hbalance := h i i' (hopen i hi) (hopen i' hi')
  by_cases hraised : i = least
  · subst hraised
    have hmin := hleast i' (hopen i' hi')
    rw [if_pos rfl]
    split <;> omega
  · rw [if_neg hraised]
    split <;> omega

end Balance
