import EmailExtractor.Library.Text

/-!
# Hexadecimal digits

Digits of either case are read; four digits, in lower case, write a number below `2 ^ 16`,
and two digits a byte.
-/

namespace Hex

def digit? (c : Char) : Option ℕ :=
  if '0' ≤ c ∧ c ≤ '9' then some (c.toNat - 48)
  else if 'a' ≤ c ∧ c ≤ 'f' then some (c.toNat - 87)
  else if 'A' ≤ c ∧ c ≤ 'F' then some (c.toNat - 55)
  else none

def read (n : ℕ) : Str → Option ℕ
  | [] => some n
  | c :: s => (digit? c).bind fun d => read (16 * n + d) s

def four (n : ℕ) : Str :=
  [Nat.digitChar (n / 4096 % 16), Nat.digitChar (n / 256 % 16), Nat.digitChar (n / 16 % 16),
    Nat.digitChar (n % 16)]

theorem digit?_digitChar {d : ℕ} (h : d < 16) : digit? (Nat.digitChar d) = some d := by
  have hall : ∀ d < 16, digit? (Nat.digitChar d) = some d := by decide
  exact hall d h

theorem read_four {n : ℕ} (h : n < 65536) : read 0 (four n) = some n := by
  simp only [four, read, digit?_digitChar (Nat.mod_lt _ (by decide : 0 < 16)), Option.bind_some]
  congr 1
  omega

theorem toNat_lt_of_mem_four {n : ℕ} {c : Char} (h : c ∈ four n) : c.toNat < 128 := by
  have hall : ∀ d < 16, (Nat.digitChar d).toNat < 128 := by decide
  simp only [four, List.mem_cons, List.not_mem_nil, or_false] at h
  rcases h with rfl | rfl | rfl | rfl <;> exact hall _ (Nat.mod_lt _ (by decide))

def two (n : ℕ) : Str := [Nat.digitChar (n / 16 % 16), Nat.digitChar (n % 16)]

theorem digit?_of_toLower {c : Char} {d : ℕ} (hd : d < 16) (h : c.toLower = Nat.digitChar d) :
    digit? c = some d := by
  have hupper : ∀ d < 16, (Char.ofNat ((Nat.digitChar d).toNat - 32)).isUpper = true →
      digit? (Char.ofNat ((Nat.digitChar d).toNat - 32)) = some d := by
    decide
  rcases Unicode.eq_or_of_toLower h with rfl | ⟨hc, rfl⟩
  · exact digit?_digitChar hd
  · exact hupper d hd hc

theorem read_two {a b : Char} {n : ℕ} (hn : n < 256)
    (h : [a, b].map Char.toLower = two n) : read 0 [a, b] = some n := by
  obtain ⟨ha, hb⟩ := List.cons_eq_cons.mp h
  have hhigh := digit?_of_toLower (Nat.mod_lt _ (by decide)) ha
  have hlow := digit?_of_toLower (Nat.mod_lt _ (by decide)) (List.head_eq_of_cons_eq hb)
  simp only [read, hhigh, hlow, Option.bind_some]
  congr 1
  omega

theorem digit?_quote : digit? '"' = none := by decide

theorem quote_notMem_four (n : ℕ) : '"' ∉ four n := by
  intro hmem
  have hdigit : ∀ c ∈ four n, (digit? c).isSome = true := by
    simp [four, digit?_digitChar (Nat.mod_lt _ (by decide : 0 < 16))]
  have hquote := hdigit _ hmem
  rw [digit?_quote] at hquote
  cases hquote

end Hex
