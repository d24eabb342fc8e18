import Mathlib.Data.Nat.Notation
import Mathlib.Order.Basic

/-!
# Lists in chunks

A list cut into chunks of a fixed length, of which the last may be shorter. A loop over the
chunks with an inner loop over each is the loop over the list, also where the outer one
counts the elements that are past.
-/

namespace EmailExtractor

namespace Chunks

open List

variable {α β : Type*} {n : ℕ} {l : List α}

def chunks (n : ℕ) (l : List α) : List (List α) :=
  (List.range ((l.length + n - 1) / n)).map fun k => (l.drop (k * n)).take n

theorem flatten_slices (n m : ℕ) (l : List α) :
    ((List.range m).map fun k => (l.drop (k * n)).take n).flatten = l.take (m * n) := by
  induction m with
  | zero => simp
  | succ m ih =>
    rw [range_succ, map_append, flatten_append, ih, Nat.succ_mul, take_add]
    simp

theorem flatten_chunks (hn : 0 < n) (l : List α) : (chunks n l).flatten = l := by
  unfold chunks
  rw [flatten_slices]
  apply take_of_length_le
  -- the last slice ends at the end of the list or behind it
  have hlt := Nat.lt_mul_div_succ (l.length + n - 1) hn
  rw [Nat.mul_add, Nat.mul_one, Nat.mul_comm] at hlt
  omega

theorem foldl_chunks (hn : 0 < n) (f : β → α → β) (b : β) (l : List α) :
    (chunks n l).foldl (fun b chunk => chunk.foldl f b) b = l.foldl f b := by
  rw [← foldl_flatten, flatten_chunks hn]

/-- The loop over the chunks that counts the elements. -/
def foldlCounting (f : β → List (α × ℕ) → β) (p : β × ℕ) (ls : List (List α)) : β × ℕ :=
  ls.foldl (fun p chunk => (f p.1 (chunk.zipIdx p.2), p.2 + chunk.length)) p

theorem foldlCounting_eq {f : β → List (α × ℕ) → β} (hnil : ∀ b, f b [] = b)
    (happend : ∀ b l l', f b (l ++ l') = f (f b l) l') (b : β) (i : ℕ) (ls : List (List α)) :
    (foldlCounting f (b, i) ls).1 = f b (ls.flatten.zipIdx i) := by
  unfold foldlCounting
  induction ls generalizing b i with
  | nil => exact (hnil b).symm
  | cons chunk ls ih =>
    rw [foldl_cons, ih, flatten_cons, zipIdx_append, happend, Nat.add_comm]

end Chunks

end EmailExtractor
