import Mathlib.Data.List.Induction
import Mathlib.Data.List.Nodup

/-!
# First occurrences

A loop that appends what it has not met before collects the first occurrences, which are
`List.eraseDups`.
-/

namespace Distinct

open List

variable {α : Type*} [BEq α] [LawfulBEq α]

theorem eraseDups_append_singleton (l : List α) (a : α) :
    (l ++ [a]).eraseDups = if l.contains a then l.eraseDups else l.eraseDups ++ [a] := by
  rw [eraseDups_append]
  by_cases ha : a ∈ l
  · simp [List.removeAll, ha]
  · simp [List.removeAll, ha, eraseDups_cons]

theorem nodup_eraseDups (l : List α) : l.eraseDups.Nodup := by
  induction l using List.reverseRecOn with
  | nil => simp
  | append_singleton l a ih =>
    rw [eraseDups_append_singleton]
    split
    · exact ih
    · rename_i ha
      rw [contains_iff_mem, ← mem_eraseDups] at ha
      exact nodup_append.mpr ⟨ih, nodup_singleton a, by
        intro b hb c hc hbc
        rw [mem_singleton] at hc
        exact ha (hc ▸ hbc ▸ hb)⟩

def appendNew (out : List α) (a : α) : List α := if out.contains a then out else out ++ [a]

theorem foldl_appendNew (l : List α) : l.foldl appendNew [] = l.eraseDups := by
  induction l using List.reverseRecOn with
  | nil => rfl
  | append_singleton l a ih =>
    have hcontains : l.eraseDups.contains a = l.contains a := by
      rw [Bool.eq_iff_iff, contains_iff_mem, contains_iff_mem, mem_eraseDups]
    rw [foldl_append, ih, eraseDups_append_singleton, foldl_cons, foldl_nil,
      appendNew, hcontains]

theorem foldl_appendNew_eraseDups (l l' : List α) :
    l'.foldl appendNew l.eraseDups = (l ++ l').eraseDups := by
  rw [← foldl_appendNew, ← foldl_appendNew, foldl_append]

theorem eraseDups_of_nodup {l : List α} (h : l.Nodup) : l.eraseDups = l := by
  induction l using List.reverseRecOn with
  | nil => rfl
  | append_singleton l a ih =>
    obtain ⟨hl, -, hdisjoint⟩ := nodup_append.mp h
    have ha : a ∉ l := fun hmem => hdisjoint a hmem a (mem_singleton_self a) rfl
    rw [eraseDups_append_singleton, if_neg (by simpa using ha), ih hl]

theorem mem_foldl_appendNew {l out : List α} {a : α} :
    a ∈ l.foldl appendNew out ↔ a ∈ out ∨ a ∈ l := by
  induction l generalizing out with
  | nil => simp
  | cons b l ih =>
    rw [foldl_cons, ih, appendNew]
    split
    · rename_i hb
      rw [contains_iff_mem] at hb
      constructor
      · exact fun h => h.imp_right (mem_cons_of_mem b)
      · rintro (h | h)
        · exact .inl h
        · rcases mem_cons.mp h with rfl | h
          · exact .inl hb
          · exact .inr h
    · simp [or_assoc]

theorem foldl_appendNew_of_eraseDups (l out : List α) :
    l.eraseDups.foldl appendNew out = l.foldl appendNew out := by
  induction l using List.reverseRecOn with
  | nil => rfl
  | append_singleton l a ih =>
    rw [eraseDups_append_singleton, foldl_append]
    split
    · rename_i ha
      have hmem : a ∈ l.foldl appendNew out :=
        mem_foldl_appendNew.mpr (.inr (contains_iff_mem.mp ha))
      rw [ih, foldl_cons, foldl_nil, appendNew,
        if_pos (contains_iff_mem.mpr hmem)]
    · rw [foldl_append, ih]

theorem eraseDups_flatMap_eraseDups {β : Type*} (f : β → List α) (bs : List β) :
    (bs.flatMap fun b => (f b).eraseDups).eraseDups = (bs.flatMap f).eraseDups := by
  induction bs using List.reverseRecOn with
  | nil => rfl
  | append_singleton bs b ih =>
    rw [flatMap_append, flatMap_append, ← foldl_appendNew_eraseDups,
      ← foldl_appendNew_eraseDups, ih, flatMap_singleton, flatMap_singleton,
      foldl_appendNew_of_eraseDups]

end Distinct
