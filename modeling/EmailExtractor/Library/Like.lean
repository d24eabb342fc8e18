import EmailExtractor.Library.Text

/-!
# SQL `LIKE`

Pattern matching of a whole string: `%` stands for any sequence of characters,
`_` for any one of them, and a backslash takes the next character of the pattern
literally. A pattern that ends in the backslash matches nothing.
-/

namespace Sql

open List

/-- `like pattern s`: the string `s` matches the pattern. -/
def like : Str → Str → Bool
  | [], s => s.isEmpty
  | '%' :: p, s => (List.range (s.length + 1)).any fun n => like p (s.drop n)
  | '_' :: p, s =>
    match s with
    | [] => false
    | _ :: s => like p s
  | '\\' :: [], _ => false
  | '\\' :: c :: p, s =>
    match s with
    | [] => false
    | c' :: s => decide (c' = c) && like p s
  | c :: p, s =>
    match s with
    | [] => false
    | c' :: s => decide (c' = c) && like p s
termination_by structural p => p

/-- The text has no character with a meaning of its own in a pattern. -/
def Literal (p : Str) : Prop := ∀ c ∈ p, c ≠ '%' ∧ c ≠ '_' ∧ c ≠ '\\'

instance (p : Str) : Decidable (Literal p) :=
  List.decidableBAll (fun c => c ≠ '%' ∧ c ≠ '_' ∧ c ≠ '\\') p

theorem Literal.append {p q : Str} (hp : Literal p) (hq : Literal q) : Literal (p ++ q) := by
  intro c hc
  exact (mem_append.mp hc).elim (hp c) (hq c)

theorem like_percent (s : Str) : like ['%'] s = true := by
  simp only [like, any_eq_true, mem_range]
  exact ⟨s.length, by omega, by simp⟩

theorem like_cons_cons {c c' : Char} (h : c ≠ '%' ∧ c ≠ '_' ∧ c ≠ '\\') (p s : Str) :
    like (c :: p) (c' :: s) = (decide (c' = c) && like p s) := by
  obtain ⟨hpercent, hunderscore, hbackslash⟩ := h
  simp [like, hbackslash]

theorem like_cons_nil {c : Char} (h : c ≠ '%' ∧ c ≠ '_' ∧ c ≠ '\\') (p : Str) :
    like (c :: p) [] = false := by
  obtain ⟨hpercent, hunderscore, hbackslash⟩ := h
  simp [like, hbackslash]

theorem like_literal_append {p : Str} (hp : Literal p) (s : Str) :
    like (p ++ ['%']) s = true ↔ p <+: s := by
  induction p generalizing s with
  | nil => simp [like_percent]
  | cons c p ih =>
    have hc := hp c mem_cons_self
    have hp' : Literal p := fun c hc => hp c (mem_cons_of_mem _ hc)
    rw [cons_append]
    cases s with
    | nil => simp [like_cons_nil hc]
    | cons c' s =>
      rw [like_cons_cons hc, Bool.and_eq_true, decide_eq_true_eq, ih hp',
        cons_prefix_cons, eq_comm]

example : like "w1|%".toList "w1|a%b".toList = true := by decide

example : like "w_|%".toList "w1|ab".toList = true := by decide

end Sql
