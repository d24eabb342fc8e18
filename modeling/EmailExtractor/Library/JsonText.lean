import EmailExtractor.Library.Dict
import EmailExtractor.Library.Hex

/-!
# JSON texts of strings

How a writer of JSON puts a string into a text: the units of the string one after the
other between two quotation marks, each as itself or escaped. Which units stand for
themselves is a parameter. The text of a unit is read back whatever follows it, and every
quotation mark inside a string has a backslash directly before it, so that the text of a
string can be found from its end as well.
-/

namespace JsonText

open List

/-! ## Units -/

def shortEscapes : List (ℕ × Char) :=
  [(0x22, '"'), (0x5c, '\\'), (0x0a, 'n'), (0x0d, 'r'), (0x09, 't'), (0x08, 'b'), (0x0c, 'f')]

def escape (plain : ℕ → Bool) (n : ℕ) : Str :=
  match shortEscapes.find? fun e => e.1 = n with
  | some e => ['\\', e.2]
  | none => if plain n then [Char.ofNat n] else '\\' :: 'u' :: Hex.four n

/-- What `plain` lets through are characters, and anything else has four digits. -/
structure Writable (plain : ℕ → Bool) (n : ℕ) : Prop where
  valid : plain n = true → n.isValidChar
  small : plain n = false → n < 65536

def readUnit : Str → Option (ℕ × Str)
  | '\\' :: 'u' :: a :: b :: c :: d :: rest => (Hex.read 0 [a, b, c, d]).map (·, rest)
  | '\\' :: c :: rest => (shortEscapes.find? fun e => e.2 = c).map fun e => (e.1, rest)
  | '"' :: _ => none
  | c :: rest => some (c.toNat, rest)
  | [] => none

variable {plain : ℕ → Bool} {n : ℕ}

theorem escape_cases (h : Writable plain n) :
    (∃ c, (n, c) ∈ shortEscapes ∧ escape plain n = ['\\', c]) ∨
      (∃ c : Char, c.toNat = n ∧ c ≠ '"' ∧ c ≠ '\\' ∧ escape plain n = [c]) ∨
      n < 65536 ∧ escape plain n = '\\' :: 'u' :: Hex.four n := by
  unfold escape
  cases hfind : shortEscapes.find? fun e => decide (e.1 = n) with
  | some e =>
    have hn : e.1 = n := by simpa using List.find?_some hfind
    left
    refine ⟨e.2, ?_, rfl⟩
    rw [← hn]
    exact List.mem_of_find?_eq_some hfind
  | none =>
    right
    rw [List.find?_eq_none] at hfind
    cases hplain : plain n with
    | false => exact .inr ⟨h.small hplain, rfl⟩
    | true =>
      have hval : (Char.ofNat n).toNat = n :=
        congrArg Char.toNat (dif_pos (h.valid hplain))
      refine .inl ⟨Char.ofNat n, hval, fun hc => ?_, fun hc => ?_, rfl⟩
      · rw [hc] at hval
        exact hfind (0x22, '"') (by decide) (by simpa using hval)
      · rw [hc] at hval
        exact hfind (0x5c, '\\') (by decide) (by simpa using hval)

theorem readUnit_plain {c : Char} (hquote : c ≠ '"') (hslash : c ≠ '\\') (rest : Str) :
    readUnit (c :: rest) = some (c.toNat, rest) := by
  unfold readUnit
  split <;> simp_all

theorem readUnit_short {c : Char} (hmem : (n, c) ∈ shortEscapes) (rest : Str) :
    readUnit ('\\' :: c :: rest) = some (n, rest) := by
  have hall : ∀ e ∈ shortEscapes,
      (shortEscapes.find? fun e' => e'.2 = e.2) = some e ∧ e.2 ≠ 'u' := by
    decide
  obtain ⟨hfind, hu⟩ := hall _ hmem
  simp [readUnit, hfind, hu]

theorem readUnit_escape (h : Writable plain n) (rest : Str) :
    readUnit (escape plain n ++ rest) = some (n, rest) := by
  rcases escape_cases h with ⟨c, hmem, hescape⟩ | ⟨c, rfl, hquote, hslash, hescape⟩ |
    ⟨hsmall, hescape⟩
  · rw [hescape]
    exact readUnit_short hmem rest
  · rw [hescape]
    exact readUnit_plain hquote hslash rest
  · rw [hescape]
    exact congrArg (Option.map (·, rest)) (Hex.read_four hsmall)

theorem toNat_lt_of_mem_escape (hplain : ∀ n, plain n = true → n < 128) {c : Char}
    (h : c ∈ escape plain n) : c.toNat < 128 := by
  have hshort : ∀ e ∈ shortEscapes, e.2.toNat < 128 := by decide
  unfold escape at h
  cases hfind : shortEscapes.find? fun e => decide (e.1 = n) with
  | some e =>
    rw [hfind] at h
    rcases List.mem_cons.mp h with rfl | h
    · decide
    · rw [List.mem_singleton.mp h]
      exact hshort e (List.mem_of_find?_eq_some hfind)
  | none =>
    rw [hfind] at h
    dsimp only at h
    split at h
    · rename_i hn
      have hlt := hplain n hn
      have hval : (Char.ofNat n).toNat = n :=
        congrArg Char.toNat (dif_pos (.inl (Nat.lt_trans hlt (by decide))))
      rw [List.mem_singleton.mp h, hval]
      exact hlt
    · rcases List.mem_cons.mp h with rfl | h
      · decide
      · rcases List.mem_cons.mp h with rfl | h
        · decide
        · exact Hex.toNat_lt_of_mem_four h

/-! ## Strings -/

def quoted (plain : ℕ → Bool) (units : List ℕ) : Str :=
  '"' :: (units.flatMap (escape plain) ++ ['"'])

def readUnits : ℕ → Str → Option (List ℕ × Str)
  | 0, _ => none
  | _ + 1, '"' :: rest => some ([], rest)
  | k + 1, s => (readUnit s).bind fun r => (readUnits k r.2).map fun r' => (r.1 :: r'.1, r'.2)

def readString : Str → Option (List ℕ × Str)
  | '"' :: s => readUnits s.length s
  | _ => none

variable {units : List ℕ}

theorem escape_ne_nil (h : Writable plain n) : escape plain n ≠ [] := by
  rcases escape_cases h with ⟨c, -, hescape⟩ | ⟨c, -, -, -, hescape⟩ | ⟨-, hescape⟩ <;>
    · rw [hescape]
      exact List.cons_ne_nil _ _

theorem readUnits_escape (h : Writable plain n) (k : ℕ) (rest : Str) :
    readUnits (k + 1) (escape plain n ++ rest) =
      (readUnits k rest).map fun r => (n :: r.1, r.2) := by
  have hread := readUnit_escape h rest
  cases hs : escape plain n ++ rest with
  | nil => exact absurd (List.append_eq_nil_iff.mp hs).1 (escape_ne_nil h)
  | cons c s =>
    rw [hs] at hread
    have hc : c ≠ '"' := by
      rintro rfl
      simp [readUnit] at hread
    rw [readUnits, hread]
    · rfl
    · rintro _ ⟨rfl, -⟩
      exact hc rfl

section

variable (h : ∀ n ∈ units, Writable plain n)

include h

theorem readUnits_flatMap {k : ℕ} (hk : units.length < k) (rest : Str) :
    readUnits k (units.flatMap (escape plain) ++ '"' :: rest) = some (units, rest) := by
  induction units generalizing k with
  | nil =>
    cases k with
    | zero => cases hk
    | succ k => rfl
  | cons n units ih =>
    cases k with
    | zero => cases hk
    | succ k =>
      rw [List.flatMap_cons, List.append_assoc, readUnits_escape (h n List.mem_cons_self),
        ih (fun m hm => h m (List.mem_cons_of_mem n hm)) (Nat.lt_of_succ_lt_succ hk)]
      rfl

theorem length_le_flatMap : units.length ≤ (units.flatMap (escape plain)).length := by
  induction units with
  | nil => exact Nat.le_refl 0
  | cons n units ih =>
    have hn := List.length_pos_iff.mpr (escape_ne_nil (h n List.mem_cons_self))
    have ih := ih fun m hm => h m (List.mem_cons_of_mem n hm)
    rw [List.flatMap_cons, List.length_append, List.length_cons]
    omega

theorem readString_quoted (rest : Str) :
    readString (quoted plain units ++ rest) = some (units, rest) := by
  have hlength := length_le_flatMap h
  rw [quoted, List.cons_append, List.append_assoc, readString, List.singleton_append]
  refine readUnits_flatMap h ?_ rest
  rw [List.length_append, List.length_cons]
  omega

theorem quoted_injective {units' : List ℕ} (h' : ∀ n ∈ units', Writable plain n)
    (heq : quoted plain units = quoted plain units') : units = units' := by
  have hread := readString_quoted h []
  rw [heq, readString_quoted h' []] at hread
  exact (congrArg Prod.fst (Option.some.inj hread)).symm

end

/-! ## From the end -/

def Guarded (s : Str) : Prop := ∀ before after, s = before ++ '"' :: after →
  before.getLast? = some '\\'

theorem Guarded.append {s t : Str} (hs : Guarded s) (ht : Guarded t) : Guarded (s ++ t) := by
  intro before after heq
  rcases append_eq_append_iff.mp heq with ⟨x, hbefore, hx⟩ | ⟨x, hx, hafter⟩
  · rw [hbefore, List.getLast?_append, ht x after hx]
    rfl
  · cases x with
    | nil =>
      rw [append_nil] at hx
      rw [nil_append] at hafter
      exact absurd (ht [] after hafter.symm) (by simp)
    | cons c x =>
      rw [cons_append, List.cons.injEq] at hafter
      exact hs before x (by rw [hx, ← hafter.1])

theorem guarded_of_notMem {s : Str} (h : '"' ∉ s) : Guarded s := by
  rintro before after rfl
  exact absurd (by simp) h

theorem guarded_escape (h : Writable plain n) : Guarded (escape plain n) := by
  rcases escape_cases h with ⟨c, -, hescape⟩ | ⟨c, -, hquote, -, hescape⟩ | ⟨-, hescape⟩
  · rw [hescape]
    intro before after heq
    match before with
    | [] => cases heq
    | [b] =>
      rw [List.cons_append, List.cons.injEq] at heq
      rw [← heq.1]
      rfl
    | b :: b' :: before => simp at heq
  · rw [hescape]
    exact guarded_of_notMem (by simpa using Ne.symm hquote)
  · rw [hescape]
    exact guarded_of_notMem (by simpa using Hex.quote_notMem_four n)

theorem guarded_flatMap (h : ∀ n ∈ units, Writable plain n) :
    Guarded (units.flatMap (escape plain)) := by
  induction units with
  | nil => exact guarded_of_notMem List.not_mem_nil
  | cons n units ih =>
    rw [List.flatMap_cons]
    exact (guarded_escape (h n List.mem_cons_self)).append
      (ih fun m hm => h m (List.mem_cons_of_mem n hm))

/-- The last quotation mark without a backslash splits a text in one way only. -/
theorem eq_of_append_quote {s s' e e' : Str} (he : Guarded e) (he' : Guarded e')
    (hs : s.getLast? ≠ some '\\') (hs' : s'.getLast? ≠ some '\\')
    (heq : s ++ '"' :: e = s' ++ '"' :: e') : s = s' ∧ e = e' := by
  have hshift : ∀ {s s' e e' x : Str}, Guarded e → s'.getLast? ≠ some '\\' → s' = s ++ x →
      '"' :: e = x ++ '"' :: e' → x = [] := by
    intro s s' e e' x he hs' hx hrest
    cases x with
    | nil => rfl
    | cons c x =>
      rw [List.cons_append, List.cons.injEq] at hrest
      refine absurd ?_ hs'
      rw [hx, List.getLast?_append, List.getLast?_cons, he x e' hrest.2]
      rfl
  rcases List.append_eq_append_iff.mp heq with ⟨x, hx, hrest⟩ | ⟨x, hx, hrest⟩
  · obtain rfl := hshift he hs' hx hrest
    exact ⟨by rw [hx, List.append_nil], by simpa using hrest⟩
  · obtain rfl := hshift he' hs hx hrest
    exact ⟨by rw [hx, List.append_nil], by simpa using hrest.symm⟩

/-! ## Units of sixteen bits -/

/-- The units of a code point: itself, or a pair of surrogates. -/
def units16 (n : ℕ) : List ℕ :=
  if n < 0x10000 then [n] else [0xd800 + (n - 0x10000) / 1024, 0xdc00 + (n - 0x10000) % 1024]

def IsHigh (n : ℕ) : Prop := 0xd800 ≤ n ∧ n < 0xdc00

def IsLow (n : ℕ) : Prop := 0xdc00 ≤ n ∧ n < 0xe000

instance : DecidablePred IsHigh := fun _ => inferInstanceAs (Decidable (_ ∧ _))

instance : DecidablePred IsLow := fun _ => inferInstanceAs (Decidable (_ ∧ _))

def joinUnits : List ℕ → List ℕ
  | a :: b :: rest =>
    if IsHigh a ∧ IsLow b then
      (0x10000 + (a - 0xd800) * 1024 + (b - 0xdc00)) :: joinUnits rest
    else a :: joinUnits (b :: rest)
  | rest => rest

/-- No two neighbours are surrogates that make a pair. -/
def Unpaired (s : List ℕ) : Prop := s.IsChain fun a b => ¬ (IsHigh a ∧ IsLow b)

theorem units16_lt {m : ℕ} (hn : n < 0x110000) (hm : m ∈ units16 n) : m < 0x10000 := by
  unfold units16 at hm
  split at hm
  · rw [List.mem_singleton.mp hm]
    assumption
  · simp only [List.mem_cons, List.not_mem_nil, or_false] at hm
    omega

theorem joinUnits_cons {a : ℕ} {rest : List ℕ}
    (h : ∀ b ∈ rest.head?, ¬ (IsHigh a ∧ IsLow b)) :
    joinUnits (a :: rest) = a :: joinUnits rest := by
  cases rest with
  | nil => rfl
  | cons b rest => rw [joinUnits, if_neg (h b rfl)]

theorem joinUnits_units16 {s : List ℕ} (hlt : ∀ n ∈ s, n < 0x110000) (h : Unpaired s) :
    joinUnits (s.flatMap units16) = s := by
  induction s with
  | nil => rfl
  | cons n s ih =>
    have htail : Unpaired s := by
      cases s with
      | nil => exact .nil
      | cons m s => exact (List.isChain_cons_cons.mp h).2
    have ih := ih (fun m hm => hlt m (List.mem_cons_of_mem n hm)) htail
    have hn := hlt n List.mem_cons_self
    rw [List.flatMap_cons]
    by_cases hsmall : n < 0x10000
    · rw [units16, if_pos hsmall, List.singleton_append, joinUnits_cons, ih]
      -- the next unit is the next code point, or the first surrogate of one
      intro b hb hpair
      cases s with
      | nil => cases hb
      | cons m s =>
        rw [List.flatMap_cons] at hb
        unfold units16 at hb
        split at hb
        · obtain rfl := Option.some.inj hb
          exact (List.isChain_cons_cons.mp h).1 hpair
        · obtain rfl := Option.some.inj hb
          have hm := hlt m (List.mem_cons_of_mem n List.mem_cons_self)
          have hlow := hpair.2.1
          omega
    · have hpair : IsHigh (0xd800 + (n - 0x10000) / 1024) ∧
          IsLow (0xdc00 + (n - 0x10000) % 1024) := by
        unfold IsHigh IsLow
        omega
      have hjoined : 0x10000 + (0xd800 + (n - 0x10000) / 1024 - 0xd800) * 1024 +
          (0xdc00 + (n - 0x10000) % 1024 - 0xdc00) = n := by
        omega
      rw [units16, if_neg hsmall, List.cons_append, List.singleton_append, joinUnits,
        if_pos hpair, ih, hjoined]

/-! ## Objects of strings -/

def member (plain : ℕ → Bool) (item : Str × Str) : Str :=
  quoted plain (item.1.map Char.toNat) ++ ": ".toList ++ quoted plain (item.2.map Char.toNat)

def object (plain : ℕ → Bool) (items : Dict Str Str) : Str :=
  '{' :: Str.join ", ".toList (items.map (member plain)) ++ ['}']

def ofUnits (units : List ℕ) : Str := units.map Char.ofNat

def readMember (s : Str) : Option ((Str × Str) × Str) :=
  (readString s).bind fun k =>
    match k.2 with
    | ':' :: ' ' :: s => (readString s).map fun v => ((ofUnits k.1, ofUnits v.1), v.2)
    | _ => none

def readMembers : ℕ → Str → Option (Dict Str Str × Str)
  | 0, _ => none
  | k + 1, s => (readMember s).bind fun item =>
    match item.2 with
    | '}' :: rest => some ([item.1], rest)
    | ',' :: ' ' :: rest => (readMembers k rest).map fun r => (item.1 :: r.1, r.2)
    | _ => none

def readObject : Str → Option (Dict Str Str × Str)
  | '{' :: '}' :: rest => some ([], rest)
  | '{' :: s => readMembers s.length s
  | _ => none

def WritesChars (plain : ℕ → Bool) : Prop := ∀ c : Char, Writable plain c.toNat

theorem ofUnits_toNat (s : Str) : ofUnits (s.map Char.toNat) = s := by
  rw [ofUnits, List.map_map]
  exact (List.map_congr_left fun c _ => Char.ofNat_toNat c).trans (List.map_id s)

theorem WritesChars.forall (h : WritesChars plain) (s : Str) :
    ∀ n ∈ s.map Char.toNat, Writable plain n := by
  intro n hn
  obtain ⟨c, -, rfl⟩ := List.mem_map.mp hn
  exact h c

theorem readMember_member (h : WritesChars plain) (item : Str × Str) (rest : Str) :
    readMember (member plain item ++ rest) = some (item, rest) := by
  rw [member, List.append_assoc, List.append_assoc, readMember, readString_quoted (h.forall _)]
  change ((readString (quoted plain (item.2.map Char.toNat) ++ rest)).map _) = _
  rw [readString_quoted (h.forall _), Option.map_some, ofUnits_toNat, ofUnits_toNat]

theorem join_members (item item' : Str × Str) (items : Dict Str Str) :
    Str.join ", ".toList ((item :: item' :: items).map (member plain)) =
      member plain item ++ (',' :: ' ' ::
        Str.join ", ".toList ((item' :: items).map (member plain))) := by
  simp [Str.join, List.intercalate]

theorem readMembers_join (h : WritesChars plain) {items : Dict Str Str} (hne : items ≠ [])
    {k : ℕ} (hk : items.length ≤ k) (rest : Str) :
    readMembers k (Str.join ", ".toList (items.map (member plain)) ++ '}' :: rest) =
      some (items, rest) := by
  induction items generalizing k with
  | nil => exact absurd rfl hne
  | cons item items ih =>
    cases k with
    | zero => cases hk
    | succ k =>
      cases items with
      | nil =>
        rw [List.map_singleton, Str.join, List.intercalate_singleton, readMembers,
          readMember_member h]
        rfl
      | cons item' items =>
        have ih := ih (List.cons_ne_nil _ _) (Nat.le_of_succ_le_succ hk)
        rw [join_members, List.append_assoc, readMembers, readMember_member h]
        exact congrArg (Option.map fun r => (item :: r.1, r.2)) ih

theorem length_le_join (plain : ℕ → Bool) (items : Dict Str Str) :
    items.length ≤ (Str.join ", ".toList (items.map (member plain))).length := by
  induction items with
  | nil => exact Nat.le_refl 0
  | cons item items ih =>
    cases items with
    | nil =>
      rw [List.map_singleton, Str.join, List.intercalate_singleton, member, quoted]
      simp
    | cons item' items =>
      rw [join_members]
      simp only [List.length_append, List.length_cons] at ih ⊢
      omega

theorem head?_join (item : Str × Str) (items : Dict Str Str) :
    (Str.join ", ".toList ((item :: items).map (member plain))).head? = some '"' := by
  cases items with
  | nil =>
    rw [map_singleton, Str.join, intercalate_singleton]
    rfl
  | cons item' items =>
    rw [join_members]
    rfl

theorem readObject_object (h : WritesChars plain) (items : Dict Str Str) (rest : Str) :
    readObject (object plain items ++ rest) = some (items, rest) := by
  cases items with
  | nil => rfl
  | cons item items =>
    have hlength := length_le_join plain (item :: items)
    have htext : object plain (item :: items) ++ rest =
        '{' :: (Str.join ", ".toList ((item :: items).map (member plain)) ++ '}' :: rest) := by
      simp [object]
    rw [htext, readObject]
    · refine readMembers_join h (cons_ne_nil item items) ?_ rest
      rw [length_append]
      exact Nat.le_trans hlength (Nat.le_add_right _ _)
    · intro rest' hclosed
      have hhead := congrArg List.head? hclosed
      rw [List.head?_append, head?_join] at hhead
      cases hhead

end JsonText
