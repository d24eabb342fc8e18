import EmailExtractor.Library.Text

/-!
# Ends of a text

`str.strip` and `str.strip(chars)` are one operation: the characters of a class are taken
off both ends, and a text that begins and ends with another character is kept. The parts
before and after the last separator are read off from where it stands.
-/

namespace Str

open List

/-! ## Taking characters off both ends -/

def trim (p : Char → Bool) (s : Str) : Str := ((s.dropWhile p).reverse.dropWhile p).reverse

theorem strip_eq_trim (U : Unicode) (s : Str) : U.strip s = trim U.isSpace s := rfl

theorem stripChars_eq_trim (cs s : Str) : stripChars cs s = trim (cs.contains ·) s := rfl

/-- The text begins and ends with a character outside the class, or is empty. -/
structure Bare (p : Char → Bool) (s : Str) : Prop where
  head : ∀ c ∈ s.head?, p c = false
  last : ∀ c ∈ s.getLast?, p c = false

section Trim

variable {p : Char → Bool} {s : Str}

theorem dropWhile_eq_self (h : ∀ c ∈ s.head?, p c = false) : s.dropWhile p = s := by
  cases s with
  | nil => rfl
  | cons c s => exact dropWhile_cons_of_neg (Bool.eq_false_iff.mp (h c rfl))

theorem trim_eq_self (h : Bare p s) : trim p s = s := by
  have hlast : ∀ c ∈ s.reverse.head?, p c = false := by
    rw [List.head?_reverse]
    exact h.last
  rw [trim, dropWhile_eq_self h.head, dropWhile_eq_self hlast, reverse_reverse]

theorem exists_trim (p : Char → Bool) (s : Str) :
    ∃ a b, s = a ++ (trim p s ++ b) ∧ (∀ c ∈ a, p c = true) ∧ ∀ c ∈ b, p c = true := by
  have hfront := takeWhile_append_dropWhile (p := p) (l := s)
  have hback := takeWhile_append_dropWhile (p := p) (l := (s.dropWhile p).reverse)
  refine ⟨s.takeWhile p, ((s.dropWhile p).reverse.takeWhile p).reverse, ?_, ?_, ?_⟩
  · rw [trim, ← reverse_append, hback, reverse_reverse, hfront]
  · exact fun c hc => all_eq_true.mp all_takeWhile c hc
  · exact fun c hc => all_eq_true.mp all_takeWhile c (mem_reverse.mp hc)

theorem trim_ne_nil {c : Char} (hc : c ∈ s) (hp : p c = false) : trim p s ≠ [] := by
  intro hnil
  obtain ⟨a, b, hs, ha, hb⟩ := exists_trim p s
  rw [hs, hnil, nil_append] at hc
  rcases mem_append.mp hc with hmem | hmem
  · exact Bool.false_ne_true (hp.symm.trans (ha c hmem))
  · exact Bool.false_ne_true (hp.symm.trans (hb c hmem))

theorem rstripChars_sublist (cs s : Str) : (rstripChars cs s).Sublist s := by
  have hsub := (dropWhile_sublist (cs.contains ·) (l := s.reverse)).reverse
  rwa [reverse_reverse] at hsub

theorem trim_sublist (p : Char → Bool) (s : Str) : (trim p s).Sublist s := by
  obtain ⟨a, b, hs, -⟩ := exists_trim p s
  conv_rhs => rw [hs]
  exact (sublist_append_left _ b).trans (sublist_append_right a _)

theorem not_of_getLast?_trim {c : Char} (h : c ∈ (trim p s).getLast?) : p c = false := by
  rw [trim, List.getLast?_reverse] at h
  have hnot := List.head?_dropWhile_not p (s.dropWhile p).reverse
  rw [h] at hnot
  simpa using hnot

theorem bare_of_forall (h : ∀ c ∈ s, p c = false) : Bare p s where
  head := fun c hc => h c (mem_of_mem_head? hc)
  last := fun c hc => h c (mem_of_mem_getLast? hc)

theorem rstripChars_eq_self {cs : Str} (h : ∀ c ∈ s.getLast?, cs.contains c = false) :
    rstripChars cs s = s := by
  have hlast : ∀ c ∈ s.reverse.head?, cs.contains c = false := by
    rw [List.head?_reverse]
    exact h
  rw [rstripChars, dropWhile_eq_self hlast, reverse_reverse]

end Trim

/-! ## Around the last separator -/

section Last

variable {a : Char} {s t : Str}

theorem ne_of_notMem (h : a ∉ t) : ∀ c ∈ t, decide (c ≠ a) = true := by
  intro c hc
  rw [decide_eq_true_eq]
  rintro rfl
  exact h hc

theorem exists_last (h : a ∈ s) : ∃ u t, s = u ++ a :: t ∧ a ∉ t := by
  obtain ⟨t, u, hs, ht⟩ := eq_append_cons_of_mem (mem_reverse.mpr h)
  refine ⟨u.reverse, t.reverse, ?_, fun hmem => ht (mem_reverse.mp hmem)⟩
  rw [← reverse_reverse s, hs]
  simp

theorem afterLast_of_notMem (h : a ∉ s) : afterLast a s = s := by
  have hrev := ne_of_notMem fun hmem => h (mem_reverse.mp hmem)
  have htake : (s.reverse ++ []).takeWhile (· ≠ a) = s.reverse ++ [].takeWhile (· ≠ a) :=
    takeWhile_append_of_pos hrev
  rw [append_nil, takeWhile_nil, append_nil] at htake
  rw [afterLast, htake, reverse_reverse]

theorem reverse_append_cons (s t : Str) (a : Char) :
    (s ++ a :: t).reverse = t.reverse ++ a :: s.reverse := by
  simp

theorem afterLast_append_cons (h : a ∉ t) (s : Str) : afterLast a (s ++ a :: t) = t := by
  have hrev := ne_of_notMem fun hmem => h (mem_reverse.mp hmem)
  rw [afterLast, reverse_append_cons, takeWhile_append_of_pos hrev,
    takeWhile_cons_of_neg (by simp), append_nil, reverse_reverse]

theorem afterLast_append_of_mem (h : a ∈ t) (s : Str) : afterLast a (s ++ t) = afterLast a t := by
  have hpart : ¬ (t.reverse.takeWhile (· ≠ a)).length = t.reverse.length := by
    intro hall
    have htake : t.reverse.takeWhile (· ≠ a) = t.reverse :=
      (List.takeWhile_prefix _).eq_of_length hall
    have hmem : a ∈ t.reverse.takeWhile (· ≠ a) := by
      rw [htake]
      exact mem_reverse.mpr h
    have hne := all_eq_true.mp all_takeWhile a hmem
    exact absurd rfl (of_decide_eq_true hne)
  rw [afterLast, afterLast, reverse_append, takeWhile_append, if_neg hpart]

theorem beforeLast_append_cons (h : a ∉ t) (s : Str) : beforeLast a (s ++ a :: t) = s := by
  have hrev := ne_of_notMem fun hmem => h (mem_reverse.mp hmem)
  rw [beforeLast, reverse_append_cons, dropWhile_append_of_pos hrev,
    dropWhile_cons_of_neg (by simp), drop_succ_cons, drop_zero,
    reverse_reverse]

end Last

/-! ## Parts -/

theorem contains_eq_false {c : Char} {s : Str} (h : c ∉ s) : s.contains c = false := by
  rw [← Bool.not_eq_true, contains_iff_mem]
  exact h

theorem hasSub_iff {p s : Str} : hasSub p s = true ↔ p <:+: s := by
  induction s with
  | nil => rw [hasSub, List.isEmpty_iff, List.infix_nil]
  | cons c s ih =>
    rw [hasSub, Bool.or_eq_true, ih, List.isPrefixOf_iff_prefix, infix_cons_iff]

end Str
