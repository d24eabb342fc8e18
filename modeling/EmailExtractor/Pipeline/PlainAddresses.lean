import EmailExtractor.Pipeline.Trimming

/-!
# The characters of an accepted address

The patterns are written with ASCII ranges and ignore case, so four letters outside ASCII
match them. Two of the four do not survive `clean`: the dotted capital becomes an `i` with a
combining dot, which is in no class, and the Kelvin sign becomes a `k`. The other two, the
dotless `ı` and the long `ſ`, are in lower case already, and reach the accepted address,
unless they are among the letters that are cut off its last label.
-/

namespace EmailExtractor

namespace Pipeline

open List

variable {U : Unicode} {isAlpha : Char → Bool} {extract : Str → ExtractResult} {raw e : Str}
  {c : Char}

/-- An ASCII lower-case letter, a digit or a mark of an address. -/
def PlainChar (c : Char) : Prop :=
  c.isLower = true ∨ c.isDigit = true ∨ c ∈ "._%+-@".toList

instance (c : Char) : Decidable (PlainChar c) := inferInstanceAs (Decidable (_ ∨ _ ∨ _))

section Surviving

variable (U : Unicode) (P : Patterns)

/-- How many letters `fix_tld` cuts off the domain. -/
def cutLetters (domain : Str) : ℕ :=
  if (P.extract domain).suffix ≠ [] then 0
  else
    match trimTargets.find? fun target =>
        gluedTo U P domain target && (P.extract (trimmedTo domain target)).suffix ≠ [] with
    | some target => ((domain.splitOn '.').getLastD []).length - target.length
    | none => 0

/-- The part of the text that `_accept` keeps: without a sentence behind it, without the
spaces and the punctuation around it, and without the letters glued to its last label. -/
def surviving (raw : Str) : Str :=
  let part := core U (unglueSentence U P raw)
  part.take (part.length - cutLetters U P (Str.afterLast '@' (U.lower part)))

end Surviving

theorem not_plainChar_of_mem_keptLetters (h : c ∈ Unicode.keptLetters) : ¬ PlainChar c := by
  have hall : Unicode.keptLetters.all (fun c => !decide (PlainChar c)) = true := by decide
  have hnot := all_eq_true.mp hall c h
  simpa using hnot

theorem plainChar_or_folded (hU : U.LawfulLower) (hF : U.FoldsCase)
    (h : inClass U localChars c = true) (hlower : LowerChar U c) :
    PlainChar c ∨ c ∈ Unicode.foldedLetters := by
  refine (inClass_cases hF localChars_ascii h).imp_left ?_
  rintro ⟨hval, a, ha, heq⟩
  have hall : localChars.all (fun a => decide (a.toLower = a) && decide (PlainChar a)) = true := by
    decide
  obtain ⟨hself, hplain⟩ := Bool.and_eq_true_iff.mp (all_eq_true.mp hall a ha)
  have hc : c.toLower = c := by
    rw [LowerChar, hU.ascii c hval] at hlower
    exact head_eq_of_cons_eq hlower
  rw [of_decide_eq_true hself, hc] at heq
  rw [← heq]
  exact of_decide_eq_true hplain

theorem kept_of_folded (hL : U.LowersFolded) (h : c ∈ Unicode.foldedLetters)
    (hlower : LowerChar U c) : c ∈ Unicode.keptLetters := by
  unfold LowerChar at hlower
  simp only [Unicode.foldedLetters, mem_cons, not_mem_nil, or_false] at h
  rcases h with rfl | rfl | rfl | rfl
  · rw [hL.dotted] at hlower
    exact absurd hlower (by decide)
  · decide
  · decide
  · rw [hL.kelvin] at hlower
    exact absurd hlower (by decide)

theorem plainChar_or_kept (hU : U.LowersText) (hF : U.FoldsCase) (hL : U.LowersFolded)
    (h : accept U (emailPatterns U isAlpha extract) raw = some e) (hc : c ∈ e) :
    PlainChar c ∨ c ∈ Unicode.keptLetters := by
  obtain ⟨a, rfl, hsound⟩ := sound_of_accept hU hF h
  have hlower := hsound.lower c hc
  rcases a.mem_text hF hc with hclass | rfl
  · exact (plainChar_or_folded hU.lawful hF hclass hlower).imp_right
      fun hfolded => kept_of_folded hL hfolded hlower
  · exact .inl (by decide)

theorem surviving_isInfix (raw : Str) :
    surviving U (emailPatterns U isAlpha extract) raw <:+: raw := by
  refine (List.take_prefix _ _).isInfix.trans ((core_isInfix U _).trans ?_)
  cases hg : gluedPattern.groupOf (core U raw) with
  | none => exact (unglueSentence_of_none hg).symm ▸ infix_rfl
  | some g =>
    have hglued : unglueSentence U (emailPatterns U isAlpha extract) raw = g :=
      congrArg (Option.getD · raw) hg
    obtain ⟨-, -, word, line, -, -, -, -, -, hcore⟩ := glued_cases hg
    rw [hglued]
    refine List.IsInfix.trans ?_ (core_isInfix U raw)
    rw [hcore]
    exact (prefix_append _ _).isInfix

theorem Address.dot_notMem_text (hF : U.FoldsCase) (a : Address U) : '\u0307' ∉ a.text := by
  intro hmem
  rcases a.mem_text hF hmem with hclass | heq
  · rcases inClass_cases hF localChars_ascii hclass with ⟨hval, -⟩ | hfolded
    · exact absurd hval (by decide)
    · exact absurd hfolded (by decide)
  · exact absurd heq (by decide)

theorem fixTld_eq_take (hU : U.LawfulLower) (hF : U.FoldsCase) {a : Address U}
    (hlower : ∀ c ∈ a.text, LowerChar U c)
    (h : fixTld U (emailPatterns U isAlpha extract) a.text = some e) :
    e = a.text.take (a.text.length -
      cutLetters U (emailPatterns U isAlpha extract) a.domain) := by
  unfold fixTld at h
  rw [a.beforeLast_text hF, a.afterLast_text hF] at h
  dsimp only at h
  unfold cutLetters
  split_ifs at h with hparts hbad hsuffix
  · rw [if_pos hsuffix, Nat.sub_zero, take_length]
    exact (Option.some.inj h).symm
  · obtain ⟨target, hfind, rfl⟩ := Option.map_eq_some_iff.mp h
    have ht := mem_of_find?_eq_some hfind
    have hfound := List.find?_some hfind
    obtain ⟨hglued, -⟩ := Bool.and_eq_true_iff.mp hfound
    obtain ⟨tail, htail, -⟩ := tail_of_gluedTo hF hU hlower hglued
    rw [if_neg hsuffix, hfind, a.splitOn_domain hF, getLastD_concat, a.trimmedTo_domain hF ht]
    have htext : a.text = (a.withTld hF ht).text ++ tail := by
      simp [Address.text, Address.domain, Address.withTld, htail]
    dsimp only
    rw [htail, length_append, Nat.add_sub_cancel_left, htext, length_append,
      Nat.add_sub_cancel, take_left]
    rfl

theorem lower_surviving (hU : U.LowersText) (hE : U.LowersEach) (hF : U.FoldsCase)
    (h : accept U (emailPatterns U isAlpha extract) raw = some e) :
    U.lower (surviving U (emailPatterns U isAlpha extract) raw) = e ∧
      'Σ' ∉ surviving U (emailPatterns U isAlpha extract) raw := by
  obtain ⟨a, ha, hfix⟩ := accept_cases hF h
  rw [clean_eq] at ha
  have hsigma := a.sigma_notMem hU hF ha
  refine ⟨?_, fun hmem => hsigma (mem_of_mem_take hmem)⟩
  obtain ⟨hlength, htake⟩ := hU.lower_take hE hsigma (by rw [ha]; exact a.dot_notMem_text hF)
  rw [surviving, htake, ← hlength, ha, a.afterLast_text hF]
  exact (fixTld_eq_take hU.lawful hF (a.kept_of_lower hU ha) hfix).symm

/-- An accepted address is plain ASCII exactly when the part of the text that is kept has
neither a dotless `ı` nor a long `ſ` in it. -/
theorem accepted_plain_iff (hU : U.LowersText) (hE : U.LowersEach) (hF : U.FoldsCase)
    (hL : U.LowersFolded) (h : accept U (emailPatterns U isAlpha extract) raw = some e) :
    surviving U (emailPatterns U isAlpha extract) raw <:+: raw ∧
    ((∀ c ∈ e, PlainChar c) ↔
      ∀ c ∈ Unicode.keptLetters, c ∉ surviving U (emailPatterns U isAlpha extract) raw) := by
  obtain ⟨hlower, hsigma⟩ := lower_surviving hU hE hF h
  refine ⟨surviving_isInfix raw, fun hall c hkept hc => ?_, fun hnone c hc => ?_⟩
  · refine not_plainChar_of_mem_keptLetters hkept (hall c ?_)
    rw [← hlower, hU.apart _ hsigma, mem_flatMap]
    exact ⟨c, hc, by rw [hL.kept c hkept]; exact mem_cons_self⟩
  · refine (plainChar_or_kept hU hF hL h hc).resolve_right fun hkept => hnone c hkept ?_
    exact hL.origin _ c (by rw [hlower]; exact hc) hkept

def isDotlessAlpha (c : Char) : Bool := c.isAlpha || c = 'ı'

/-- The Kelvin sign becomes a letter, and a dotless letter may be cut off. -/
theorem kelvin_address_plain :
    accept .folding (emailPatterns .folding isDotlessAlpha (suffixOf ["com".toList]))
      "\u212aim@acme.comıı".toList = some "kim@acme.com".toList ∧
    ∀ c ∈ "kim@acme.com".toList, PlainChar c := by
  have h : accept .folding (emailPatterns .folding isDotlessAlpha (suffixOf ["com".toList]))
      "\u212aim@acme.comıı".toList = some "kim@acme.com".toList := by
    decide +kernel
  have hnone : Unicode.keptLetters.all (fun c => !(surviving .folding
      (emailPatterns .folding isDotlessAlpha (suffixOf ["com".toList]))
        "\u212aim@acme.comıı".toList).contains c) = true := by
    decide +kernel
  refine ⟨h, (accepted_plain_iff Unicode.lowersText_folding Unicode.lowersEach_folding
    Unicode.foldsCase_folding Unicode.lowersFolded_folding h).2.mpr fun c hc => ?_⟩
  have hc := all_eq_true.mp hnone c hc
  rwa [Bool.not_eq_true', ← Bool.not_eq_true, contains_iff_mem] at hc

/-- Each of the two letters stays. -/
theorem dotless_address_accepted :
    accept .folding (emailPatterns .folding Char.isAlpha (suffixOf ["com".toList]))
      "ınfo@acme.com".toList = some "ınfo@acme.com".toList ∧ ¬ PlainChar 'ı' ∧
    accept .folding (emailPatterns .folding Char.isAlpha (suffixOf ["com".toList]))
      "ſales@acme.com".toList = some "ſales@acme.com".toList ∧ ¬ PlainChar 'ſ' := by
  refine ⟨?_, ?_, ?_, ?_⟩
  · decide +kernel
  · decide
  · decide +kernel
  · decide

end Pipeline

end EmailExtractor
