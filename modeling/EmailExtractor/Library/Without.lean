import Mathlib.Data.List.TakeWhile

/-!
# Lists without some of their bad elements
-/

theorem List.filter_ite_append {α : Type*} {p : α → Bool} {l : List α} {x : α} {c c' : Bool}
    (h : p x = true → c' = c) : (if c then l else l ++ [x]).filter p =
      if p x then if c' then l.filter p else l.filter p ++ [x] else l.filter p := by
  cases hx : p x with
  | true =>
    rw [if_pos rfl, h hx]
    split
    · rfl
    · rw [List.filter_append, List.filter_cons_of_pos hx, List.filter_nil]
  | false =>
    rw [if_neg Bool.false_ne_true]
    split
    · rfl
    · rw [List.filter_append, List.filter_cons_of_neg (by simp [hx]), List.filter_nil,
        List.append_nil]

/-- `l'` is `l` without some of its `bad` elements. -/
inductive Without {α : Type*} (bad : α → Prop) : List α → List α → Prop
  | nil : Without bad [] []
  | keep (x : α) {l l' : List α} : Without bad l l' → Without bad (x :: l) (x :: l')
  | drop {x : α} {l l' : List α} : bad x → Without bad l l' → Without bad (x :: l) l'

/-- The lists are equal up to a bad element of the first. -/
def Parts {α : Type*} (bad : α → Prop) (l l' : List α) : Prop :=
  l' = l ∨ ∃ p x r r', l = p ++ x :: r ∧ l' = p ++ r' ∧ bad x

namespace Parts

variable {α β : Type*} {bad : α → Prop} {l l' : List α}

theorem cons (x : α) (h : Parts bad l l') : Parts bad (x :: l) (x :: l') := by
  rcases h with rfl | ⟨p, y, r, r', rfl, rfl, hy⟩
  · exact .inl rfl
  · exact .inr ⟨x :: p, y, r, r', rfl, rfl, hy⟩

theorem append {m m' : List α} (h : Parts bad l l') (hm : Parts bad m m') :
    Parts bad (l ++ m) (l' ++ m') := by
  rcases h with rfl | ⟨p, x, r, r', rfl, rfl, hx⟩
  · rcases hm with rfl | ⟨p, x, r, r', rfl, rfl, hx⟩
    · exact .inl rfl
    · exact .inr ⟨l' ++ p, x, r, r', by simp, by simp, hx⟩
  · exact .inr ⟨p, x, r ++ m, r' ++ m', by simp, by simp, hx⟩

theorem map {bad' : β → Prop} (f : α → β) (h : Parts bad l l') (hf : ∀ x, bad x → bad' (f x)) :
    Parts bad' (l.map f) (l'.map f) := by
  rcases h with rfl | ⟨p, x, r, r', rfl, rfl, hx⟩
  · exact .inl rfl
  · exact .inr ⟨p.map f, f x, r.map f, r'.map f, by simp, by simp, hf x hx⟩

/-- If no bad element passes the test and none is the first that does not, the first element
that does not pass is the same. -/
theorem dropWhile {p : α → Bool} {x : α} {t : List α} (h : Parts bad l l')
    (hp : ∀ x, bad x → p x = false) (ht : l.dropWhile p = x :: t) (hx : ¬ bad x) :
    ∃ t', l'.dropWhile p = x :: t' ∧ Parts bad t t' := by
  rcases h with rfl | ⟨before, y, r, r', rfl, rfl, hy⟩
  · exact ⟨t, ht, .inl rfl⟩
  · rw [List.dropWhile_append] at ht ⊢
    cases hbefore : before.dropWhile p with
    | nil =>
      rw [hbefore, List.isEmpty_nil, if_pos rfl,
        List.dropWhile_cons_of_neg (by simp [hp y hy])] at ht
      exact absurd ((List.cons.inj ht).1 ▸ hy) hx
    | cons z more =>
      rw [hbefore, if_neg (by simp)] at ht
      obtain ⟨rfl, rfl⟩ := List.cons.inj ht
      exact ⟨more ++ r', rfl, .inr ⟨more, y, r, r', rfl, rfl, hy⟩⟩

theorem dropWhile_eq_nil {p : α → Bool} (h : Parts bad l l') (hp : ∀ x, bad x → p x = false)
    (hnil : l.dropWhile p = []) : l'.dropWhile p = [] := by
  rcases h with rfl | ⟨before, y, r, r', rfl, rfl, hy⟩
  · exact hnil
  · have hall := List.dropWhile_eq_nil_iff.mp hnil y (by simp)
    rw [hp y hy] at hall
    cases hall

end Parts

namespace Without

open List

variable {α : Type*} {bad : α → Prop} {l l' : List α}

theorem refl (l : List α) : Without bad l l := by
  induction l with
  | nil => exact .nil
  | cons x l ih => exact .keep x ih

theorem append {m m' : List α} (h : Without bad l l') (hm : Without bad m m') :
    Without bad (l ++ m) (l' ++ m') := by
  induction h with
  | nil => exact hm
  | keep x _ ih => exact .keep x ih
  | drop hx _ ih => exact .drop hx ih

theorem subset (h : Without bad l l') : ∀ x ∈ l', x ∈ l := by
  induction h with
  | nil => exact fun x hx => hx
  | keep y _ ih =>
    intro x hx
    rcases mem_cons.mp hx with rfl | hx
    · exact mem_cons_self ..
    · exact mem_cons_of_mem _ (ih x hx)
  | drop _ _ ih => exact fun x hx => mem_cons_of_mem _ (ih x hx)

theorem length_le (h : Without bad l l') : l'.length ≤ l.length := by
  induction h with
  | nil => exact Nat.le_refl _
  | keep x _ ih => exact Nat.succ_le_succ ih
  | drop _ _ ih => exact Nat.le_succ_of_le ih

theorem eq_of_forall_not (h : Without bad l l') (hl : ∀ x ∈ l, ¬ bad x) : l' = l := by
  induction h with
  | nil => rfl
  | keep x _ ih => rw [ih fun y hy => hl y (mem_cons_of_mem _ hy)]
  | drop hx _ _ => exact absurd hx (hl _ (mem_cons_self ..))

theorem filter (p : α → Bool) (h : Without bad l l') :
    Without bad (l.filter p) (l'.filter p) := by
  induction h with
  | nil => exact .nil
  | keep x _ ih =>
    rw [filter_cons, filter_cons]
    split
    · exact .keep x ih
    · exact ih
  | drop hx _ ih =>
    rw [filter_cons]
    split
    · exact .drop hx ih
    · exact ih

theorem filter_eq {p : α → Bool} (h : Without bad l l') (hp : ∀ x ∈ l, bad x → p x = false) :
    l'.filter p = l.filter p := by
  induction h with
  | nil => rfl
  | keep x _ ih =>
    rw [filter_cons, filter_cons, ih fun y hy => hp y (mem_cons_of_mem _ hy)]
  | drop hx _ ih =>
    rw [filter_cons, hp _ (mem_cons_self ..) hx,
      ih fun y hy => hp y (mem_cons_of_mem _ hy)]
    rfl

/-- Cut at one length, the lists are equal or part at a bad element. -/
theorem take_parts (n : ℕ) (h : Without bad l l') : Parts bad (l.take n) (l'.take n) := by
  induction h generalizing n with
  | nil => exact .inl rfl
  | keep x _ ih =>
    cases n with
    | zero => exact .inl rfl
    | succ n => exact (ih n).cons x
  | @drop x l l' hx _ _ =>
    cases n with
    | zero => exact .inl rfl
    | succ n => exact .inr ⟨[], x, l.take n, l'.take (n + 1), rfl, rfl, hx⟩

end Without
