import Mathlib.Algebra.Order.Ring.Rat
import Mathlib.Data.Rat.Defs

/-!
# Floating-point numbers as values

The values a float can take: the finite ones, which are rationals, the two
infinities, and the value that is not a number. The comparisons are those of the
language: every comparison with `nan` is false, so `<` and `≥` are not each
other's negation.
-/

inductive PyFloat
  | nan
  | negInf
  | posInf
  | fin (q : ℚ)
  deriving DecidableEq

namespace PyFloat

/-- `x < y`. -/
def lt : PyFloat → PyFloat → Bool
  | nan, _ => false
  | _, nan => false
  | negInf, negInf => false
  | negInf, _ => true
  | posInf, _ => false
  | fin _, negInf => false
  | fin _, posInf => true
  | fin p, fin q => p < q

/-- `x >= y`. -/
def ge : PyFloat → PyFloat → Bool
  | nan, _ => false
  | _, nan => false
  | x, y => !lt x y

@[simp] theorem lt_nan (y : PyFloat) : lt nan y = false := by cases y <;> rfl

@[simp] theorem ge_nan (y : PyFloat) : ge nan y = false := by cases y <;> rfl

theorem ge_fin_eq {x : PyFloat} (hx : x ≠ nan) (q : ℚ) : ge x (fin q) = !lt x (fin q) := by
  cases x with
  | nan => exact absurd rfl hx
  | negInf | posInf | fin p => rfl

end PyFloat
