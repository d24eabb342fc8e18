import Mathlib.Data.List.Basic

/-!
# Text

A string is the list of its code points. What the runtime takes from the Unicode
tables (case mapping, character classes, normalisation) is a parameter;
`Unicode.ascii` is the restriction of the tables to ASCII, on which programs can be
evaluated.
-/

/-- A string as the list of its code points. -/
abbrev Str := List Char

/-- The parts of the Unicode tables that string methods read. -/
structure Unicode where
  lower : Str → Str
  isSpace : Char → Bool
  isAlnum : Char → Bool
  isWord : Char → Bool
  isDigit : Char → Bool
  /-- Equality of characters up to case, as a case-insensitive pattern has it. -/
  sameCase : Char → Char → Bool
  nfkc : Str → Str

namespace Unicode

open List

/-- The tables restricted to ASCII. -/
def ascii : Unicode where
  lower s := s.map Char.toLower
  isSpace c := c = ' ' || c = '\t' || c = '\n' || c = '\r' || c.val = 11 || c.val = 12
  isAlnum := Char.isAlphanum
  isWord c := c.isAlphanum || c = '_'
  isDigit := Char.isDigit
  sameCase a b := a.toLower = b.toLower
  nfkc s := s

theorem val_le_of_isSpace {c : Char} (h : ascii.isSpace c = true) : c.val ≤ 0x20 := by
  simp only [ascii, Bool.or_eq_true, decide_eq_true_eq] at h
  rcases h with ((((rfl | rfl) | rfl) | rfl) | h) | h
  · decide
  · decide
  · decide
  · decide
  · rw [h]
    decide
  · rw [h]
    decide

theorem not_isSpace_of_lt {c : Char} (h : 0x20 < c.val) : ascii.isSpace c = false := by
  rw [← Bool.not_eq_true]
  intro hspace
  exact absurd (val_le_of_isSpace hspace) (UInt32.not_le.mpr h)

/-- `str.strip()`. -/
def strip (U : Unicode) (s : Str) : Str :=
  (((s.dropWhile U.isSpace).reverse).dropWhile U.isSpace).reverse

/-- What holds of `str.lower`: it maps ASCII letter by letter, lower-casing leaves only
characters that it keeps, and a text of such characters is kept. -/
structure LawfulLower (U : Unicode) : Prop where
  ascii : ∀ c : Char, c.val < 128 → U.lower [c] = [c.toLower]
  keeps : ∀ s, ∀ c ∈ U.lower s, U.lower [c] = [c]
  eq_self : ∀ s, (∀ c ∈ s, U.lower [c] = [c]) → U.lower s = s

theorem toLower_idem (c : Char) : c.toLower.toLower = c.toLower := by
  by_cases h : c.val ≥ 'A'.val ∧ c.val ≤ 'Z'.val
  · have hval : c.toLower.val = c.val + ('a'.val - 'A'.val) :=
      congrArg Char.val (dif_pos h)
    have hlower : ¬ (c.toLower.val ≥ 'A'.val ∧ c.toLower.val ≤ 'Z'.val) := by
      rw [hval]
      simp only [UInt32.le_iff_toNat_le, ge_iff_le, UInt32.toNat_add] at h ⊢
      simp only [Char.reduceVal, UInt32.reduceToNat, UInt32.reduceSub] at h ⊢
      omega
    exact dif_neg hlower
  · have hsame : c.toLower = c := dif_neg h
    rw [hsame, hsame]

theorem eq_or_of_toLower {b c : Char} (h : c.toLower = b) :
    c = b ∨ c.isUpper = true ∧ c = Char.ofNat (b.toNat - 32) := by
  by_cases hupper : c.val ≥ 'A'.val ∧ c.val ≤ 'Z'.val
  · have hval : c.toLower.val = c.val + ('a'.val - 'A'.val) :=
      congrArg Char.val (dif_pos hupper)
    have hnat : b.toNat = c.toNat + 32 := by
      rw [← h]
      change c.toLower.val.toNat = c.val.toNat + 32
      rw [hval]
      simp only [UInt32.le_iff_toNat_le, ge_iff_le] at hupper
      simp only [UInt32.toNat_add, Char.reduceVal, UInt32.reduceToNat, UInt32.reduceSub] at hupper ⊢
      omega
    refine .inr ⟨decide_eq_true hupper, ?_⟩
    rw [hnat, Nat.add_sub_cancel, Char.ofNat_toNat]
  · have hsame : c.toLower = c := dif_neg hupper
    exact .inl (hsame.symm.trans h)

theorem lawfulLower_ascii : ascii.LawfulLower where
  ascii _ _ := rfl
  keeps := by
    intro s c hc
    obtain ⟨a, -, rfl⟩ := mem_map.mp hc
    exact congrArg (fun b => [b]) (toLower_idem a)
  eq_self := by
    intro s hs
    have hid : ∀ c ∈ s, c.toLower = id c := fun c hc => head_eq_of_cons_eq (hs c hc)
    rw [show ascii.lower s = s.map Char.toLower from rfl, map_congr_left hid, map_id]

/-- Lower-casing a text lower-cases an ASCII part of it letter by letter, whatever stands
around the part, and adds nothing where nothing stands. -/
def LowersWithin (U : Unicode) : Prop :=
  ∀ before part after : Str, (∀ c ∈ part, c.val < 128) →
    ∃ before' after', U.lower (before ++ (part ++ after)) =
        before' ++ (part.map Char.toLower ++ after') ∧
      (before = [] → before' = []) ∧ (after = [] → after' = [])

theorem LowersWithin.ascii {U : Unicode} (h : U.LowersWithin) {s : Str}
    (hs : ∀ c ∈ s, c.val < 128) : U.lower s = s.map Char.toLower := by
  obtain ⟨before, after, hlower, hbefore, hafter⟩ := h [] s [] hs
  rwa [hbefore rfl, hafter rfl, nil_append, append_nil, nil_append,
    append_nil] at hlower

theorem lowersWithin_ascii : ascii.LowersWithin := by
  intro before part after _
  refine ⟨before.map Char.toLower, after.map Char.toLower, ?_, ?_, ?_⟩
  · rw [← map_append, ← map_append]
    rfl
  · rintro rfl
    rfl
  · rintro rfl
    rfl

end Unicode

namespace Str

open List

/-- `s.startswith(p)`. -/
def startsWith (s p : Str) : Bool := p.isPrefixOf s

/-- `s.endswith(p)`. -/
def endsWith (s p : Str) : Bool := p.isSuffixOf s

/-- `p in s`. -/
def hasSub (p : Str) : Str → Bool
  | [] => p.isEmpty
  | c :: s => p.isPrefixOf (c :: s) || hasSub p s

/-- `s.partition(c)` without the separator; the flag says whether it was found. -/
def partition (c : Char) : Str → Str × Bool × Str
  | [] => ([], false, [])
  | a :: s =>
    if a = c then ([], true, s)
    else
      let (l, found, r) := partition c s
      (a :: l, found, r)

/-- The text after the last `c`, or the whole text: `s.rpartition(c)[2]`. -/
def afterLast (c : Char) (s : Str) : Str := (s.reverse.takeWhile (· ≠ c)).reverse

/-- The text before the last `c`, empty without one: `s.rpartition(c)[0]`. -/
def beforeLast (c : Char) (s : Str) : Str := ((s.reverse.dropWhile (· ≠ c)).drop 1).reverse

/-- `s.rstrip(chars)`. -/
def rstripChars (cs s : Str) : Str := (s.reverse.dropWhile (cs.contains ·)).reverse

/-- `s.strip(chars)`. -/
def stripChars (cs s : Str) : Str := rstripChars cs (s.dropWhile (cs.contains ·))

/-- `s.isascii()`. -/
def isAscii (s : Str) : Bool := s.all fun c => c.val < 128

theorem val_lt_of_isAscii {s : Str} (h : isAscii s = true) : ∀ c ∈ s, c.val < 128 :=
  fun c hc => of_decide_eq_true (all_eq_true.mp h c hc)

theorem toNat_lt_of_isAscii {s : Str} (h : isAscii s = true) : ∀ c ∈ s, c.toNat < 128 :=
  fun c hc => UInt32.lt_iff_toNat_lt.mp (val_lt_of_isAscii h c hc)

def decimal (s : Str) : ℕ := s.foldl (fun n c => 10 * n + (c.toNat - '0'.toNat)) 0

/-- `sep.join(parts)`. -/
def join (sep : Str) (parts : List Str) : Str := List.intercalate sep parts

theorem partition_of_notMem {c : Char} {s : Str} (h : c ∉ s) :
    partition c s = (s, false, []) := by
  induction s with
  | nil => rfl
  | cons a s ih =>
    rw [mem_cons, not_or] at h
    rw [partition, if_neg (Ne.symm h.1), ih h.2]

theorem partition_append_cons {c : Char} {s : Str} (h : c ∉ s) (rest : Str) :
    partition c (s ++ c :: rest) = (s, true, rest) := by
  induction s with
  | nil => rw [nil_append, partition, if_pos rfl]
  | cons a s ih =>
    rw [mem_cons, not_or] at h
    rw [cons_append, partition, if_neg (Ne.symm h.1), ih h.2]

theorem append_cons_inj {c : Char} {s s' t t' : Str} (hs : c ∉ s) (hs' : c ∉ s')
    (h : s ++ c :: t = s' ++ c :: t') : s = s' ∧ t = t' := by
  have hparts := congrArg (partition c) h
  rw [partition_append_cons hs, partition_append_cons hs'] at hparts
  exact ⟨congrArg Prod.fst hparts, congrArg (fun parts => parts.2.2) hparts⟩

theorem mem_join {c : Char} {sep : Str} {parts : List Str} (h : c ∈ join sep parts) :
    c ∈ sep ∨ ∃ part ∈ parts, c ∈ part := by
  unfold join at h
  induction parts with
  | nil => simp at h
  | cons part parts ih =>
    cases parts with
    | nil => exact .inr ⟨part, mem_singleton_self part, by simpa using h⟩
    | cons next parts =>
      rw [intercalate_cons_cons, append_assoc, mem_append,
        mem_append] at h
      rcases h with h | h | h
      · exact .inr ⟨part, mem_cons_self .., h⟩
      · exact .inl h
      · exact (ih h).imp_right fun ⟨p, hp, hc⟩ => ⟨p, mem_cons_of_mem _ hp, hc⟩

theorem sublist_join {sep part : Str} {parts : List Str} (hpart : part ∈ parts) :
    part.Sublist (join sep parts) := by
  unfold join
  induction parts with
  | nil => cases hpart
  | cons first parts ih =>
    cases parts with
    | nil =>
      rw [intercalate_singleton]
      exact mem_singleton.mp hpart ▸ List.Sublist.refl _
    | cons next parts =>
      rw [intercalate_cons_cons, append_assoc]
      rcases mem_cons.mp hpart with rfl | hpart
      · exact sublist_append_left _ _
      · exact (ih hpart).trans
          ((sublist_append_right _ _).trans (sublist_append_right _ _))

theorem sublist_of_mem_splitOn {a : Char} {s part : Str} (hpart : part ∈ s.splitOn a) :
    part.Sublist s := by
  have h : part.Sublist (join [a] (s.splitOn a)) := sublist_join hpart
  rwa [join, intercalate_splitOn] at h

theorem mem_of_mem_splitOn {a c : Char} {s part : Str} (hpart : part ∈ s.splitOn a)
    (hc : c ∈ part) : c ∈ s :=
  (sublist_of_mem_splitOn hpart).mem hc

theorem notMem_of_mem_splitOn {a : Char} {s part : Str} (hpart : part ∈ s.splitOn a) :
    a ∉ part := by
  induction s generalizing part with
  | nil =>
    rw [splitOn_nil, mem_singleton] at hpart
    simp [hpart]
  | cons c s ih =>
    rw [splitOn_cons_eq_if_modifyHead] at hpart
    split at hpart
    · rcases mem_cons.mp hpart with rfl | hpart
      · exact not_mem_nil
      · exact ih hpart
    · rename_i hc
      cases hs : s.splitOn a with
      | nil => exact absurd hs (splitOn_ne_nil a s)
      | cons first rest =>
        rw [hs, modifyHead_cons] at hpart
        rcases mem_cons.mp hpart with rfl | hpart
        · rw [mem_cons, not_or]
          exact ⟨fun h => hc (by rw [h]; exact BEq.rfl),
            ih (by rw [hs]; exact mem_cons_self ..)⟩
        · exact ih (by rw [hs]; exact mem_cons_of_mem _ hpart)

theorem afterLast_sublist (a : Char) (s : Str) : (afterLast a s).Sublist s := by
  have h := (takeWhile_sublist (· ≠ a) (l := s.reverse)).reverse
  rwa [reverse_reverse] at h

theorem notMem_afterLast {a : Char} {s : Str} : a ∉ afterLast a s := by
  intro h
  have htest := all_eq_true.mp all_takeWhile a (mem_reverse.mp h)
  simp at htest

theorem mem_of_mem_afterLast {a c : Char} {s : Str} (h : c ∈ afterLast a s) : c ∈ s :=
  (afterLast_sublist a s).mem h

theorem mem_of_mem_beforeLast {a c : Char} {s : Str} (h : c ∈ beforeLast a s) : c ∈ s := by
  rw [beforeLast, mem_reverse] at h
  exact mem_reverse.mp ((dropWhile_sublist _).mem (mem_of_mem_drop h))

/-- The line boundaries of `str.splitlines`, a carriage return before a line feed
being one boundary with it. -/
def isLineBreak (c : Char) : Bool :=
  c = '\n' || c = '\r' || c.val = 0x0b || c.val = 0x0c || c.val = 0x1c || c.val = 0x1d ||
    c.val = 0x1e || c.val = 0x85 || c.val = 0x2028 || c.val = 0x2029

/-- `s.splitlines()`; `cur` is the line read so far, reversed. -/
def splitLinesFrom (cur : Str) : Str → List Str
  | [] => if cur.isEmpty then [] else [cur.reverse]
  | '\r' :: '\n' :: s => cur.reverse :: splitLinesFrom [] s
  | c :: s =>
    if isLineBreak c then cur.reverse :: splitLinesFrom [] s
    else splitLinesFrom (c :: cur) s

def splitLines (s : Str) : List Str := splitLinesFrom [] s

end Str
