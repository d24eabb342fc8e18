import EmailExtractor.Library.Text
import Mathlib.Data.List.Forall2
import Mathlib.Order.Bounds.Basic

/-!
# Searching in a text

`str.find` and slices with positions as numbers, and what it means to look for a text in a
lower-cased copy. `str.lower` maps one character to one, with a single exception: the capital I
with a dot above becomes two characters. So a position in the copy is the position in the text,
shifted by the number of these letters before it.
-/

namespace Str

open List

/-! ## Positions -/

def OccursAt (p s : Str) (i : ℕ) : Prop := p <+: s.drop i

instance (p s : Str) (i : ℕ) : Decidable (OccursAt p s i) :=
  inferInstanceAs (Decidable (p <+: s.drop i))

def indexOf (p : Str) : Str → Option ℕ
  | [] => if p = [] then some 0 else none
  | c :: s => if p.isPrefixOf (c :: s) then some 0 else (indexOf p s).map (· + 1)

/-- `s.find(p, pos)`. -/
def find (p s : Str) (pos : ℕ) : Option ℕ := (indexOf p (s.drop pos)).map (pos + ·)

/-- `s[i:j]`. -/
def slice (s : Str) (i j : ℕ) : Str := (s.take j).drop i

/-- The text with its ASCII letters in lower case. -/
def fold (s : Str) : Str := s.map Char.toLower

variable {p s t : Str} {i j pos : ℕ} {c : Char}

theorem occursAt_iff : OccursAt p s i ↔ ∀ k c, p[k]? = some c → s[i + k]? = some c := by
  rw [OccursAt, prefix_iff_getElem?]
  constructor
  · intro h k c hk
    obtain ⟨hlt, rfl⟩ := List.getElem?_eq_some_iff.mp hk
    rw [← List.getElem?_drop]
    exact h k hlt
  · intro h k hk
    rw [List.getElem?_drop]
    exact h k p[k] (List.getElem?_eq_getElem hk)

theorem occursAt_singleton : OccursAt [c] s i ↔ s[i]? = some c := by
  rw [occursAt_iff]
  constructor
  · intro h
    exact h 0 c rfl
  · rintro h (_ | k) a hk
    · cases hk
      exact h
    · cases hk

theorem OccursAt.le_length (h : OccursAt p s i) (hp : p ≠ []) : i + p.length ≤ s.length := by
  have hlen := h.length_le
  have hpos := length_pos_of_ne_nil hp
  rw [length_drop] at hlen
  omega

/-! ## `find` -/

theorem indexOf_eq_none_iff : indexOf p s = none ↔ ∀ j, ¬ OccursAt p s j := by
  induction s with
  | nil =>
    rw [indexOf]
    split
    · rename_i hp
      simp [OccursAt, hp]
    · rename_i hp
      simp [OccursAt, hp]
  | cons c s ih =>
    rw [indexOf]
    split
    · rename_i hp
      simp only [reduceCtorEq, false_iff, not_forall, not_not]
      exact ⟨0, List.isPrefixOf_iff_prefix.mp hp⟩
    · rename_i hp
      rw [Option.map_eq_none_iff, ih]
      constructor
      · rintro h (_ | j)
        · exact fun h0 => hp (List.isPrefixOf_iff_prefix.mpr h0)
        · exact h j
      · exact fun h j => h (j + 1)

theorem occursAt_of_indexOf (h : indexOf p s = some i) :
    OccursAt p s i ∧ ∀ j < i, ¬ OccursAt p s j := by
  induction s generalizing i with
  | nil =>
    obtain ⟨rfl, ⟨⟩⟩ := Option.ite_none_right_eq_some.mp h
    exact ⟨List.nil_prefix, fun j hj => absurd hj j.not_lt_zero⟩
  | cons c s ih =>
    rw [indexOf] at h
    split at h
    · rename_i hp
      cases h
      exact ⟨List.isPrefixOf_iff_prefix.mp hp, fun j hj => absurd hj j.not_lt_zero⟩
    · rename_i hp
      obtain ⟨k, hk, rfl⟩ := Option.map_eq_some_iff.mp h
      obtain ⟨hat, hbefore⟩ := ih hk
      refine ⟨hat, ?_⟩
      rintro (_ | j) hj
      · exact fun h0 => hp (List.isPrefixOf_iff_prefix.mpr h0)
      · exact hbefore j (Nat.lt_of_succ_lt_succ hj)

theorem find_eq_none_iff : find p s pos = none ↔ ∀ j, pos ≤ j → ¬ OccursAt p s j := by
  rw [find, Option.map_eq_none_iff, indexOf_eq_none_iff]
  simp only [OccursAt, drop_drop]
  constructor
  · intro h j hj
    have hsplit := h (j - pos)
    rwa [Nat.add_sub_cancel' hj] at hsplit
  · exact fun h j => h (pos + j) (Nat.le_add_right pos j)

theorem isLeast_of_find (h : find p s pos = some i) :
    IsLeast {j | pos ≤ j ∧ OccursAt p s j} i := by
  obtain ⟨k, hk, rfl⟩ := Option.map_eq_some_iff.mp h
  obtain ⟨hat, hbefore⟩ := occursAt_of_indexOf hk
  simp only [OccursAt, drop_drop] at hat hbefore
  refine ⟨⟨Nat.le_add_right pos k, hat⟩, ?_⟩
  rintro j ⟨hj, hoccurs⟩
  by_contra hlt
  refine hbefore (j - pos) (by omega) ?_
  rwa [Nat.add_sub_cancel' hj]

end Str

/-! ## Lower case -/

/-- What `str.lower` makes of a character. The only character outside ASCII with an ASCII
letter as its lower case is the Kelvin sign; a capital sigma has two lower-case forms, and which
one it gets depends on its neighbours. -/
def LowersTo (c : Char) (l : Str) : Prop :=
  if c = 'İ' then l = ['i', '\u0307']
  else ∃ a, l = [a] ∧ if c.val < 128 then a = c.toLower else 128 ≤ a.val ∨ a = 'k'

/-- `str.lower` maps character by character. -/
def Unicode.LowersEach (U : Unicode) : Prop :=
  ∀ s, ∃ ls, List.Forall₂ LowersTo s ls ∧ U.lower s = ls.flatten

namespace Unicode

open List

/-- The tables restricted to ASCII and the capital I with a dot above. -/
def dotted : Unicode where
  __ := ascii
  lower s := s.flatMap fun c => if c = 'İ' then ['i', '\u0307'] else [c.toLower]

variable {U : Unicode} {p s : Str} {ls : List Str} {c : Char} {l : Str}

/-- What can be looked for in the lower-cased copy: ASCII in which no letter comes from a
character outside ASCII. -/
def Plain (p : Str) : Prop := (∀ a ∈ p, a.val < 128 ∧ a ≠ 'k') ∧ p.getLast? ≠ some 'i'

instance (p : Str) : Decidable (Plain p) :=
  haveI : Decidable (∀ a ∈ p, a.val < 128 ∧ a ≠ 'k') := List.decidableBAll _ _
  instDecidableAnd

theorem toLower_eq_self (hc : ¬ c.val < 128) : c.toLower = c := by
  apply dif_neg
  rintro ⟨-, hle⟩
  have hZ : c.val ≤ 90 := hle
  exact hc (UInt32.lt_of_le_of_lt hZ (by decide))

theorem Plain.tail {a : Char} (h : Plain (a :: p)) : Plain p := by
  refine ⟨(forall_mem_cons.mp h.1).2, fun hlast => h.2 ?_⟩
  rw [List.getLast?_cons, hlast]
  rfl

/-- The two characters that the dotted letter becomes do not begin a plain text, and the
second of them does not occur in one. -/
theorem Plain.not_prefix (hp : Plain p) (hne : p ≠ []) (t : Str) :
    ¬ p <+: 'i' :: '\u0307' :: t ∧ ¬ p <+: '\u0307' :: t := by
  have hdot : '\u0307' ∉ p := fun h => absurd (hp.1 _ h).1 (by decide)
  constructor
  · rintro ⟨r, hr⟩
    match p, hne, hr with
    | [a], _, hr => exact hp.2 (by rw [(List.cons.inj hr).1]; rfl)
    | a :: b :: p, _, hr =>
      have hb : b = '\u0307' := (List.cons.inj (List.cons.inj hr).2).1
      exact hdot (hb ▸ mem_cons_of_mem _ (mem_cons_self ..))
  · rintro ⟨r, hr⟩
    match p, hne, hr with
    | a :: p, _, hr => exact hdot ((List.cons.inj hr).1 ▸ mem_cons_self ..)

theorem Plain.not_prefix_fold (hp : Plain p) (hne : p ≠ []) (s : Str) :
    ¬ p <+: Str.fold ('İ' :: s) := by
  rintro ⟨r, hr⟩
  match p, hne, hr with
  | a :: p, _, hr =>
    have ha : a = 'İ' := (List.cons.inj hr).1
    exact absurd (hp.1 a (mem_cons_self ..)).1 (by rw [ha]; decide)

theorem lowersTo_of_ne (hc : c ≠ 'İ') (h : LowersTo c l) :
    ∃ a, l = [a] ∧ ∀ b : Char, b.val < 128 → b ≠ 'k' → (b = a ↔ b = c.toLower) := by
  rw [LowersTo, if_neg hc] at h
  obtain ⟨a, rfl, ha⟩ := h
  refine ⟨a, rfl, fun b hb hk => ?_⟩
  split at ha
  · rw [ha]
  · rename_i hout
    rw [toLower_eq_self hout]
    constructor
    · rintro rfl
      exact absurd hb (UInt32.not_lt.mpr (ha.resolve_right hk))
    · rintro rfl
      exact absurd hb hout

theorem Plain.prefix_flatten (h : List.Forall₂ LowersTo s ls) (hp : Plain p) :
    p <+: ls.flatten ↔ p <+: Str.fold s := by
  induction h generalizing p with
  | nil => rfl
  | @cons c l s ls hl _ ih =>
    match p with
    | [] => exact iff_of_true List.nil_prefix List.nil_prefix
    | a :: p =>
      by_cases hc : c = 'İ'
      · rw [LowersTo, if_pos hc] at hl
        rw [hc, hl]
        exact iff_of_false (hp.not_prefix (cons_ne_nil _ _) _).1
          (hp.not_prefix_fold (cons_ne_nil _ _) s)
      · obtain ⟨b, rfl, hb⟩ := lowersTo_of_ne hc hl
        have ha := hp.1 a (mem_cons_self ..)
        rw [Str.fold, map_cons, flatten_cons, singleton_append,
          cons_prefix_cons, cons_prefix_cons, hb a ha.1 ha.2, ih hp.tail]
        rfl

/-- Where the lower-cased copy has what stands at the position `i`: every dotted letter before
it takes one place more. -/
def shifted (s : Str) (i : ℕ) : ℕ := i + (s.take i).count 'İ'

@[simp] theorem shifted_zero : shifted s 0 = 0 := rfl

theorem shifted_cons (i : ℕ) :
    shifted (c :: s) (i + 1) = shifted s i + if c = 'İ' then 2 else 1 := by
  rw [shifted, shifted, take_succ_cons, count_cons]
  by_cases hc : c = 'İ'
  · simp [hc]
    omega
  · simp [hc]
    omega

/-- A plain text stands in the copy where the dotted letters shift it to. -/
theorem LowersEach.occursAt_lower (hU : U.LowersEach) (hp : Plain p) (hne : p ≠ []) (j : ℕ) :
    Str.OccursAt p (U.lower s) j ↔ ∃ i, Str.OccursAt p (Str.fold s) i ∧ shifted s i = j := by
  obtain ⟨ls, hls, heq⟩ := hU s
  rw [heq]
  clear heq
  induction hls generalizing j with
  | nil => simp [shifted, Str.fold]
  | @cons c l s ls hl hls ih =>
    rw [← Nat.or_exists_add_one]
    simp only [shifted_zero, shifted_cons]
    by_cases hc : c = 'İ'
    · subst hc
      rw [LowersTo, if_pos rfl] at hl
      subst hl
      have hfirst : ¬ Str.OccursAt p (Str.fold ('İ' :: s)) 0 := hp.not_prefix_fold hne s
      match j with
      | 0 => exact iff_of_false (hp.not_prefix hne _).1 (by simp [hfirst])
      | 1 => exact iff_of_false (hp.not_prefix hne _).2 (by simp)
      | j + 2 => simpa [Str.OccursAt, Str.fold] using ih j
    · have hfirst := hp.prefix_flatten (.cons hl hls)
      obtain ⟨b, rfl, -⟩ := lowersTo_of_ne hc hl
      match j with
      | 0 => simpa [Str.OccursAt, hc] using hfirst
      | j + 1 => simpa [Str.OccursAt, Str.fold, hc] using ih j

theorem lowersEach_dotted : dotted.LowersEach := by
  intro s
  refine ⟨s.map fun c => if c = 'İ' then ['i', '\u0307'] else [c.toLower], ?_, rfl⟩
  rw [List.forall₂_map_right_iff, List.forall₂_same]
  intro c _
  rw [LowersTo]
  split
  · rfl
  · refine ⟨c.toLower, rfl, ?_⟩
    split
    · rfl
    · rename_i hc
      rw [toLower_eq_self hc]
      exact .inl (UInt32.not_lt.mp hc)

theorem LowersEach.lower_eq (hU : U.LowersEach) (hs : ∀ c ∈ s, c = 'İ' ∨ c.val < 128) :
    U.lower s = dotted.lower s := by
  obtain ⟨ls, hls, heq⟩ := hU s
  rw [heq]
  clear heq
  induction hls with
  | nil => rfl
  | @cons c l s ls hl _ ih =>
    rw [forall_mem_cons] at hs
    have hfirst : l = if c = 'İ' then ['i', '\u0307'] else [c.toLower] := by
      rw [LowersTo] at hl
      split at hl
      · rename_i hc
        rw [if_pos hc, hl]
      · rename_i hc
        obtain ⟨a, rfl, ha⟩ := hl
        rw [if_pos (hs.1.resolve_left hc)] at ha
        rw [if_neg hc, ha]
    rw [flatten_cons, ih hs.2, hfirst]
    rfl

end Unicode
