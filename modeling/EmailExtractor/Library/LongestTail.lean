import Mathlib.Data.List.Basic

/-!
# The longest tail with a property

A list is cut before the longest of its tails that has a property, as a host name is cut
before its longest public suffix.
-/

namespace LongestTail

variable {α : Type*} (p : List α → Bool)

/-- The list cut before its longest tail with the property; without one the tail is empty. -/
def cut : List α → List α × List α
  | [] => ([], [])
  | a :: l => if p (a :: l) then ([], a :: l) else (a :: (cut l).1, (cut l).2)

variable {p}

theorem cut_eq_self {l : List α} (h : ∀ t, t ≠ [] → t <:+ l → p t = false) :
    cut p l = (l, []) := by
  induction l with
  | nil => rfl
  | cons a l ih =>
    have hl := ih fun t hne ht => h t hne (ht.trans (List.suffix_cons a l))
    rw [cut, if_neg (by rw [h _ (List.cons_ne_nil a l) List.suffix_rfl]; simp), hl]

end LongestTail
