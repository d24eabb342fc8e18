import EmailExtractor.Library.RegexMatch

/-!
# Literal texts in a text

A literal text that is found in a longer one has a place there. A character that the
literal does not match cuts the longer text in two, and the place is on one side of it.
-/

namespace Regex

open List

variable {eq : Char → Char → Bool} {p q s t w x y : Str} {c : Char}

theorem append_cons_eq_append (hc : c ∉ w) (h : s ++ c :: t = x ++ (w ++ y)) :
    (∃ y', y = y' ++ c :: t ∧ s = x ++ (w ++ y')) ∨
      ∃ x', x = s ++ c :: x' ∧ t = x' ++ (w ++ y) := by
  rcases append_eq_append_iff.mp h with ⟨a, hx, ha⟩ | ⟨a, hs, ha⟩
  · cases a with
    | nil =>
      rw [append_nil] at hx
      cases w with
      | nil => exact .inl ⟨[], ha.symm, by rw [hx, append_nil, append_nil]⟩
      | cons d w => exact absurd (head_eq_of_cons_eq ha ▸ mem_cons_self) hc
    | cons d a =>
      obtain ⟨rfl, rfl⟩ := cons_eq_cons.mp ha
      exact .inr ⟨a, hx, rfl⟩
  · rcases append_eq_append_iff.mp ha with ⟨b, rfl, hy⟩ | ⟨b, rfl, hb⟩
    · exact .inl ⟨b, hy, hs⟩
    · cases b with
      | nil => exact .inl ⟨[], hb.symm, by rw [hs, append_nil, append_nil]⟩
      | cons d b =>
        obtain ⟨rfl, -⟩ := cons_eq_cons.mp hb
        exact absurd (mem_append_right _ mem_cons_self) hc

theorem found_lit_iff : found (lit eq p) s = true ↔
    ∃ x w y, s = x ++ (w ++ y) ∧ List.Forall₂ (fun a c => eq a c = true) p w := by
  rw [found_iff]
  simp only [reads_lit]

theorem found_lit (hw : List.Forall₂ (fun a c => eq a c = true) p w) (x y : Str) :
    found (lit eq p) (x ++ (w ++ y)) = true :=
  found_lit_iff.mpr ⟨x, w, y, rfl, hw⟩

section Cut

variable (hp : ∀ a ∈ p, eq a c = false)

include hp

section

variable (hw : List.Forall₂ (fun a c => eq a c = true) p w)

include hw

theorem notMem_of_forall₂ : c ∉ w :=
  have hreads : Reads (lit eq p) none w [] := reads_lit.mpr hw
  notMem_of_reads (avoids_lit hp) hreads

theorem lit_behind (hs : found (lit eq p) s = false) (h : s ++ c :: t = x ++ (w ++ y)) :
    ∃ x', x = s ++ c :: x' ∧ t = x' ++ (w ++ y) := by
  refine (append_cons_eq_append (notMem_of_forall₂ hp hw) h).resolve_left ?_
  rintro ⟨y', -, rfl⟩
  rw [found_lit hw] at hs
  cases hs

theorem lit_before (ht : found (lit eq p) t = false) (h : s ++ c :: t = x ++ (w ++ y)) :
    ∃ y', y = y' ++ c :: t ∧ s = x ++ (w ++ y') := by
  refine (append_cons_eq_append (notMem_of_forall₂ hp hw) h).resolve_right ?_
  rintro ⟨x', -, rfl⟩
  rw [found_lit hw] at ht
  cases ht

end

theorem not_found_append_cons (hs : found (lit eq p) s = false)
    (ht : found (lit eq p) t = false) : found (lit eq p) (s ++ c :: t) = false := by
  rw [← Bool.not_eq_true, found_lit_iff]
  rintro ⟨x, w, y, heq, hw⟩
  obtain ⟨x', -, rfl⟩ := lit_behind hp hw hs heq
  rw [found_lit hw] at ht
  cases ht

end Cut

theorem not_found_of_length (h : s.length < p.length) : found (lit eq p) s = false := by
  rw [← Bool.not_eq_true, found_lit_iff]
  rintro ⟨x, w, y, rfl, hw⟩
  rw [hw.length_eq, length_append, length_append] at h
  omega

theorem not_found_of_forall {a : Char} (ha : a ∈ p) (h : ∀ c ∈ s, eq a c = false) :
    found (lit eq p) s = false := by
  rw [← Bool.not_eq_true, found_lit_iff]
  rintro ⟨x, w, y, rfl, hw⟩
  obtain ⟨c, hc, heq⟩ := exists_of_forall₂ hw ha
  rw [h c (mem_append_right _ (mem_append_left _ hc))] at heq
  cases heq

theorem not_found_of_infix (hpq : p <:+: q) (h : found (lit eq p) s = false) :
    found (lit eq q) s = false := by
  obtain ⟨a, b, rfl⟩ := hpq
  rw [← Bool.not_eq_true, found_lit_iff] at h ⊢
  rintro ⟨x, w, y, rfl, hw⟩
  refine h ⟨x ++ w.take a.length, (w.drop a.length).take p.length,
    (w.drop a.length).drop p.length ++ y, ?_, ?_⟩
  · rw [append_assoc, ← append_assoc (List.take p.length _), take_append_drop,
      ← append_assoc (List.take a.length w), take_append_drop]
  · have hdrop := List.forall₂_drop a.length hw
    rw [append_assoc, drop_left] at hdrop
    have htake := List.forall₂_take p.length hdrop
    rwa [take_left] at htake

end Regex
