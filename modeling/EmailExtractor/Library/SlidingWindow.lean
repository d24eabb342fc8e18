import Mathlib.Algebra.Order.Group.Defs
import Mathlib.Data.List.Basic

/-!
# Sliding windows

Times on a line, and those of them that lie in a half-open window of a fixed width. A bound
on the number of times in every window is kept by one more time at the end if the window
that ends there has room for it, so only the windows at the times themselves have to be
counted. Times that have left the window at one reading of the clock have left it at every
later one, so they may be forgotten.
-/

namespace SlidingWindow

open List

variable {K : Type*} [AddCommGroup K] [LinearOrder K]

def recent (w now : K) (times : List K) : List K := times.filter fun t => decide (now - t < w)

def within (w t : K) (times : List K) : List K :=
  times.filter fun x => decide (t - w < x ∧ x ≤ t)

/-- No window holds more than `n` of the times. -/
def AtMost (n : ℕ) (w : K) (times : List K) : Prop := ∀ t, (within w t times).length ≤ n

theorem recent_append (w now : K) (times times' : List K) :
    recent w now (times ++ times') = recent w now times ++ recent w now times' :=
  filter_append ..

theorem atMost_nil (n : ℕ) (w : K) : AtMost n w [] := fun _ => Nat.zero_le n

variable [IsOrderedAddMonoid K] {w now now' : K} {times : List K} {n : ℕ}

/-- What is forgotten at one reading of the clock is not missed at a later one. -/
theorem recent_recent (h : now ≤ now') (times : List K) :
    recent w now' (recent w now times) = recent w now' times := by
  unfold recent
  rw [filter_filter]
  refine filter_congr fun t _ => ?_
  rw [Bool.and_eq_left_iff_imp, decide_eq_true_eq, decide_eq_true_eq]
  intro ht
  exact lt_of_le_of_lt (sub_le_sub_right h t) ht

theorem recent_eq_within (h : ∀ t ∈ times, t ≤ now) : recent w now times = within w now times := by
  unfold recent within
  refine filter_congr fun t ht => ?_
  rw [decide_eq_decide, sub_lt_comm]
  exact (and_iff_left (h t ht)).symm

theorem AtMost.concat (h : AtMost n w times) (hroom : (recent w now times).length < n) :
    AtMost n w (times ++ [now]) := by
  intro t
  have hsplit : within w t (times ++ [now]) = within w t times ++ within w t [now] :=
    filter_append ..
  rw [hsplit, length_append]
  rcases lt_or_ge t now with hlt | hge
  · -- a window that ends before the new time
    have hnone : within w t [now] = [] := by
      simp [within, hlt]
    rw [hnone]
    exact h t
  · -- what such a window holds of the other times is recent at the new one
    have hsub : (within w t times).Sublist (recent w now times) := by
      refine monotone_filter_right times fun x hx => ?_
      rw [decide_eq_true_eq] at hx ⊢
      rw [sub_lt_comm]
      exact lt_of_le_of_lt (sub_le_sub_right hge w) hx.1
    have hone : (within w t [now]).length ≤ 1 := length_filter_le ..
    have hle := hsub.length_le
    omega

end SlidingWindow
