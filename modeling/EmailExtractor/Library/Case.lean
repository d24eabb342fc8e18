import EmailExtractor.Library.Search
import EmailExtractor.Library.UrlParts

/-!
# Case

What is assumed of `str.lower` and of patterns that ignore case. Lower-casing does not look
across a slash, so it works segment by segment, and it neither makes nor removes a
character that is no letter. An ASCII character of a pattern matches its two cases; a
letter may match a few characters outside ASCII, and nothing else.
-/

namespace Unicode

open List

/-- Lower-casing works character by character, and on both sides of a slash apart. -/
structure LowersParts (U : Unicode) : Prop where
  each : U.LowersEach
  slash : ∀ s t, U.lower (s ++ '/' :: t) = U.lower s ++ '/' :: U.lower t

/-- The characters outside ASCII that equal an ASCII letter up to case. -/
def foldedLetters : List Char := ['İ', 'ı', 'ſ', '\u212a']

/-- Patterns ignore the case of ASCII characters, and take few others for letters. -/
structure FoldsCase (U : Unicode) : Prop where
  ascii : ∀ a c : Char, a.val < 128 → c.val < 128 →
    (U.sameCase a c = true ↔ a.toLower = c.toLower)
  other : ∀ a c : Char, a.val < 128 → ¬ c.val < 128 → U.sameCase a c = true →
    a.isAlpha = true ∧ c ∈ foldedLetters

def keptLetters : List Char := ['ı', 'ſ']

/-- Lower-casing leaves an ASCII letter of two of them, and keeps the kept ones and makes
none. -/
structure LowersFolded (U : Unicode) : Prop where
  dotted : U.lower ['İ'] = ['i', '\u0307']
  kelvin : U.lower ['\u212a'] = ['k']
  kept : ∀ c ∈ keptLetters, U.lower [c] = [c]
  origin : ∀ s, ∀ c ∈ U.lower s, c ∈ keptLetters → c ∈ s

/-- The capital sigma and what it becomes. -/
def sigmas : List Char := ['Σ', 'σ', 'ς']

/-- Lower-casing looks around a capital sigma only, and leaves a sigma of it. -/
structure LowersText (U : Unicode) : Prop where
  lawful : U.LawfulLower
  apart : ∀ s, 'Σ' ∉ s → U.lower s = s.flatMap fun c => U.lower [c]
  sigma : ∀ s, 'Σ' ∈ s → ∃ c ∈ U.lower s, c ∈ sigmas

/-- Spaces have no case, and no letter or digit is one. -/
structure PlainSpaces (U : Unicode) : Prop where
  newline : U.isSpace '\n' = true
  lower : ∀ c, U.isSpace c = true → U.lower [c] = [c]
  lowered : ∀ c d, d ∈ U.lower [c] → U.isSpace d = true → d = c
  visible : ∀ c : Char, c.isAlphanum = true ∨ c = 'Σ' ∨ c ∈ foldedLetters → U.isSpace c = false

/-! ## Characters that are no letters -/

theorem toLower_eq_of_not_isAlpha {b c : Char} (hb : ¬ b.isAlpha = true) :
    c.toLower = b ↔ c = b := by
  by_cases hc : c.isUpper = true
  · refine iff_of_false (fun h => ?_) (fun h => ?_)
    · rw [← h] at hb
      exact hb (Url.isAlpha_toLower (Url.isAlpha_iff.mpr (.inl hc)))
    · rw [← h] at hb
      exact hb (Url.isAlpha_iff.mpr (.inl hc))
  · rw [Url.toLower_of_not_isUpper hc]

section Lower

variable {U : Unicode}

theorem LowersEach.mem_lower (hU : U.LowersEach) {b : Char} (hb : b.val < 128)
    (halpha : ¬ b.isAlpha = true) (s : Str) : b ∈ U.lower s ↔ b ∈ s := by
  obtain ⟨ls, hls, heq⟩ := hU s
  rw [heq]
  clear heq
  induction hls with
  | nil => rfl
  | @cons c l s ls hl _ ih =>
    rw [flatten_cons, mem_append, mem_cons, ih]
    refine or_congr_left ?_
    by_cases hc : c = 'İ'
    · subst hc
      rw [LowersTo, if_pos rfl] at hl
      subst hl
      refine iff_of_false (fun h => ?_) (fun h => ?_)
      · rcases mem_cons.mp h with rfl | h
        · exact halpha (by decide)
        · rw [mem_singleton.mp h] at hb
          exact absurd hb (by decide)
      · rw [h] at hb
        exact absurd hb (by decide)
    · obtain ⟨a, rfl, ha⟩ := lowersTo_of_ne hc hl
      have hk : b ≠ 'k' := by
        rintro rfl
        exact halpha (by decide)
      rw [mem_singleton, ha b hb hk, eq_comm, toLower_eq_of_not_isAlpha halpha, eq_comm]

theorem LowersEach.lower_eq_nil_iff (hU : U.LowersEach) (s : Str) : U.lower s = [] ↔ s = [] := by
  obtain ⟨ls, hls, heq⟩ := hU s
  rw [heq]
  cases hls with
  | nil => exact iff_of_true rfl rfl
  | @cons c l s ls hl _ =>
    refine iff_of_false (fun h => ?_) (cons_ne_nil _ _)
    have hnil : l = [] := (append_eq_nil_iff.mp h).1
    rw [LowersTo] at hl
    split at hl
    · rw [hnil] at hl
      cases hl
    · obtain ⟨a, ha, -⟩ := hl
      rw [hnil] at ha
      cases ha

theorem LowersParts.splitOn_lower (hU : U.LowersParts) (s : Str) :
    (U.lower s).splitOn '/' = (s.splitOn '/').map U.lower := by
  have hjoin : ∀ parts : List Str, parts ≠ [] → (∀ part ∈ parts, '/' ∉ part) →
      U.lower (List.intercalate ['/'] parts) =
        List.intercalate ['/'] (parts.map U.lower) := by
    intro parts hne hparts
    induction parts with
    | nil => exact absurd rfl hne
    | cons part parts ih =>
      cases parts with
      | nil => rw [intercalate_singleton, map_singleton, intercalate_singleton]
      | cons next parts =>
        rw [map_cons, map_cons, intercalate_cons_cons,
          intercalate_cons_cons, append_assoc, append_assoc,
          singleton_append, singleton_append, hU.slash,
          ih (cons_ne_nil _ _) fun p hp => hparts p (mem_cons_of_mem _ hp)]
        rfl
  have hslash : ∀ part ∈ (s.splitOn '/').map U.lower, '/' ∉ part := by
    intro part hpart hmem
    obtain ⟨p, hp, rfl⟩ := mem_map.mp hpart
    rw [hU.each.mem_lower (by decide) (by decide)] at hmem
    exact Str.notMem_of_mem_splitOn hp hmem
  have hlower := hjoin (s.splitOn '/') (splitOn_ne_nil _ _)
    fun part hpart => Str.notMem_of_mem_splitOn hpart
  rw [intercalate_splitOn] at hlower
  rw [hlower, splitOn_intercalate '/' hslash]
  exact fun h => splitOn_ne_nil '/' s (map_eq_nil_iff.mp h)

theorem LowersText.lower_append (hU : U.LowersText) {s t : Str} (hs : 'Σ' ∉ s) (ht : 'Σ' ∉ t) :
    U.lower (s ++ t) = U.lower s ++ U.lower t := by
  have hsigma : 'Σ' ∉ s ++ t := fun h => (mem_append.mp h).elim hs ht
  rw [hU.apart _ hsigma, hU.apart s hs, hU.apart t ht, flatMap_append]

theorem LowersText.lower_take (hU : U.LowersText) (hE : U.LowersEach) {s : Str} (hs : 'Σ' ∉ s)
    (hdot : '\u0307' ∉ U.lower s) :
    (U.lower s).length = s.length ∧ ∀ n, U.lower (s.take n) = (U.lower s).take n := by
  have htake : ∀ n, 'Σ' ∉ s.take n := fun n h => hs (mem_of_mem_take h)
  simp only [fun n => hU.apart _ (htake n), hU.apart s hs] at hdot ⊢
  clear hs htake
  induction s with
  | nil => simp
  | cons c s ih =>
    rw [flatMap_cons, mem_append, not_or] at hdot
    obtain ⟨hlength, htakes⟩ := ih hdot.2
    obtain ⟨a, ha⟩ : ∃ a, U.lower [c] = [a] := by
      obtain ⟨ls, hls, heq⟩ := hE [c]
      cases hls with
      | @cons _ l _ _ hl hnil =>
        cases hnil
        rw [flatten_cons, flatten_nil, append_nil] at heq
        rw [heq] at hdot ⊢
        rw [LowersTo] at hl
        split at hl
        · exact absurd (by rw [hl]; decide) hdot.1
        · exact hl.imp fun _ h => h.1
    rw [flatMap_cons, ha, singleton_append]
    refine ⟨congrArg Nat.succ hlength, fun n => ?_⟩
    cases n with
    | zero => rfl
    | succ n =>
      rw [take_succ_cons, flatMap_cons, ha, htakes, singleton_append,
        take_succ_cons]

end Lower

section Fold

variable {U : Unicode} {a c : Char}

theorem FoldsCase.eq_of_not_isAlpha (hU : U.FoldsCase) (ha : a.val < 128)
    (halpha : ¬ a.isAlpha = true) (h : U.sameCase a c = true) : c = a := by
  by_cases hc : c.val < 128
  · have hlower := (hU.ascii a c ha hc).mp h
    have hself : a.toLower = a := (toLower_eq_of_not_isAlpha halpha).mpr rfl
    rw [hself] at hlower
    exact (toLower_eq_of_not_isAlpha halpha).mp hlower.symm
  · exact absurd (hU.other a c ha hc h).1 halpha

theorem FoldsCase.not_sameCase (hU : U.FoldsCase) (ha : a.val < 128) (hc : c.val < 128)
    (halpha : ¬ c.isAlpha = true) (hne : a ≠ c) : U.sameCase a c = false := by
  rw [← Bool.not_eq_true]
  intro h
  have hlower := (hU.ascii a c ha hc).mp h
  have hself : c.toLower = c := (toLower_eq_of_not_isAlpha halpha).mpr rfl
  rw [hself] at hlower
  exact hne ((toLower_eq_of_not_isAlpha halpha).mp hlower)

end Fold

/-! ## The tables on ASCII and the dotted letter -/

theorem toLower_val_lt {c : Char} (h : c.val < 128) : c.toLower.val < 128 := by
  by_cases hc : c.isUpper = true
  · have hlower := (Url.isLower_iff.mp (Url.isLower_toLower hc)).2
    exact UInt32.lt_of_le_of_lt hlower (by decide)
  · rwa [Url.toLower_of_not_isUpper hc]

theorem foldsCase_dotted : dotted.FoldsCase where
  ascii := fun _ _ _ _ => decide_eq_true_iff
  other := by
    intro a c ha hc h
    have hlower : a.toLower = c.toLower := of_decide_eq_true h
    have hself : c.toLower = c := Url.toLower_of_not_isUpper fun hupper =>
      hc (UInt32.lt_of_le_of_lt (Url.isUpper_iff.mp hupper).2 (by decide))
    rw [hself] at hlower
    exact absurd (hlower ▸ toLower_val_lt ha) hc

theorem foldsCase_ascii : ascii.FoldsCase where
  ascii := foldsCase_dotted.ascii
  other := foldsCase_dotted.other

theorem lowersParts_dotted : dotted.LowersParts where
  each := lowersEach_dotted
  slash := by
    intro s t
    change (List.map _ (s ++ '/' :: t)).flatten =
      (List.map _ s).flatten ++ '/' :: (List.map _ t).flatten
    rw [map_append, flatten_append, map_cons, flatten_cons]
    rfl

theorem dotted_lower (s : Str) :
    dotted.lower s = s.flatMap fun c => if c = 'İ' then ['i', '\u0307'] else [c.toLower] := rfl

theorem lowersText_of_flatMap {U : Unicode} {f : Char → Str} (hlower : ∀ s, U.lower s = s.flatMap f)
    (hascii : ∀ c, c.val < 128 → f c = [c.toLower]) (hkeeps : ∀ c, ∀ d ∈ f c, f d = [d])
    (hsigma : ∃ c ∈ f 'Σ', c ∈ sigmas) : U.LowersText := by
  have hsingle : ∀ c, U.lower [c] = f c := by
    intro c
    rw [hlower, flatMap_singleton]
  refine ⟨⟨?_, ?_, ?_⟩, ?_, ?_⟩
  · intro c hc
    rw [hsingle, hascii c hc]
  · intro s c hc
    rw [hlower] at hc
    obtain ⟨a, -, ha⟩ := mem_flatMap.mp hc
    rw [hsingle]
    exact hkeeps a c ha
  · intro s hs
    have hchar : ∀ c ∈ s, f c = [c] := by
      intro c hc
      rw [← hsingle]
      exact hs c hc
    rw [hlower, flatMap_congr hchar, flatMap_singleton']
  · intro s _
    rw [hlower]
    exact flatMap_congr fun c _ => (hsingle c).symm
  · intro s hs
    obtain ⟨c, hc, hmem⟩ := hsigma
    rw [hlower]
    exact ⟨c, mem_flatMap.mpr ⟨'Σ', hs, hc⟩, hmem⟩

theorem lowersText_dotted : dotted.LowersText := by
  refine lowersText_of_flatMap dotted_lower ?_ ?_ ⟨'Σ', by decide, by decide⟩
  · intro c hc
    have hne : c ≠ 'İ' := by
      rintro rfl
      exact absurd hc (by decide)
    rw [if_neg hne]
  · intro c d hd
    split at hd
    · rcases mem_cons.mp hd with rfl | hd
      · rfl
      · rw [mem_singleton.mp hd]
        rfl
    · rename_i hne
      rw [mem_singleton.mp hd, toLower_idem, if_neg]
      -- the dotted letter is the lower case of itself only
      intro heq
      exact hne ((toLower_eq_of_not_isAlpha (by decide)).mp heq)

theorem val_lt_of_isSpace {c : Char} (h : dotted.isSpace c = true) : c.val < 48 :=
  have hascii : ascii.isSpace c = true := h
  UInt32.lt_of_le_of_lt (val_le_of_isSpace hascii) (by decide)

theorem not_isAlpha_of_isSpace {c : Char} (h : dotted.isSpace c = true) : ¬ c.isAlpha = true := by
  have hlt := val_lt_of_isSpace h
  intro halpha
  rcases Url.isAlpha_iff.mp halpha with hc | hc
  · exact absurd (UInt32.lt_of_le_of_lt (Url.isUpper_iff.mp hc).1 hlt) (by decide)
  · exact absurd (UInt32.lt_of_le_of_lt (Url.isLower_iff.mp hc).1 hlt) (by decide)

theorem plainSpaces_dotted : dotted.PlainSpaces where
  newline := by decide
  lower := by
    intro c hc
    have hlt := val_lt_of_isSpace hc
    rw [lowersText_dotted.lawful.ascii c (UInt32.lt_trans hlt (by decide)),
      Url.toLower_of_not_isUpper]
    exact fun hupper => not_isAlpha_of_isSpace hc (Url.isAlpha_iff.mpr (.inl hupper))
  lowered := by
    intro c d hd hspace
    rw [dotted_lower, flatMap_singleton] at hd
    split at hd
    · have hvisible : ['i', '\u0307'].all (fun c => !dotted.isSpace c) = true := by decide
      have hnot := all_eq_true.mp hvisible d hd
      simp [hspace] at hnot
    · have hlower := mem_singleton.mp hd
      exact ((toLower_eq_of_not_isAlpha (not_isAlpha_of_isSpace hspace)).mp hlower.symm).symm
  visible := by
    intro c hc
    rw [← Bool.not_eq_true]
    intro hspace
    have hlt := val_lt_of_isSpace hspace
    rcases hc with hc | rfl | hc
    · rcases Bool.or_eq_true_iff.mp hc with hc | hc
      · exact not_isAlpha_of_isSpace hspace hc
      · exact absurd (UInt32.lt_of_le_of_lt (Url.isDigit_iff.mp hc).1 hlt) (by decide)
    · exact absurd hlt (by decide)
    · have hall : foldedLetters.all (fun c => !decide (c.val < 48)) = true := by decide
      have hnot := all_eq_true.mp hall c hc
      simp [hlt] at hnot

/-! ## The tables with the folded letters -/

/-- The ASCII letter that a folded letter equals up to case. -/
def foldChar (c : Char) : Char :=
  if c = 'İ' ∨ c = 'ı' then 'i' else if c = 'ſ' then 's' else if c = '\u212a' then 'k'
  else c.toLower

/-- The tables on ASCII and the folded letters. -/
def folding : Unicode where
  __ := dotted
  lower s := s.flatMap fun c => if c = '\u212a' then ['k'] else dotted.lower [c]
  sameCase a b := foldChar a = foldChar b

theorem foldChar_of_notMem {c : Char} (h : c ∉ foldedLetters) : foldChar c = c.toLower := by
  simp only [foldedLetters, mem_cons, not_mem_nil, or_false, not_or] at h
  obtain ⟨hdotted, hdotless, hlong, hkelvin⟩ := h
  rw [foldChar, if_neg (not_or.mpr ⟨hdotted, hdotless⟩), if_neg hlong, if_neg hkelvin]

theorem notMem_foldedLetters {c : Char} (h : c.val < 128) : c ∉ foldedLetters := by
  intro hmem
  have hall : foldedLetters.all (fun c => !decide (c.val < 128)) = true := by decide
  have hnot := all_eq_true.mp hall c hmem
  simp [h] at hnot

theorem foldsCase_folding : folding.FoldsCase where
  ascii := by
    intro a c ha hc
    have hsame : folding.sameCase a c = decide (foldChar a = foldChar c) := rfl
    rw [hsame, decide_eq_true_iff, foldChar_of_notMem (notMem_foldedLetters ha),
      foldChar_of_notMem (notMem_foldedLetters hc)]
  other := by
    intro a c ha hc h
    have hsame : foldChar a = foldChar c := of_decide_eq_true h
    rw [foldChar_of_notMem (notMem_foldedLetters ha)] at hsame
    by_cases hmem : c ∈ foldedLetters
    · refine ⟨?_, hmem⟩
      have hall : foldedLetters.all (fun c => (foldChar c).isAlpha) = true := by decide
      have halpha := all_eq_true.mp hall c hmem
      rw [← hsame] at halpha
      by_contra hno
      rw [(toLower_eq_of_not_isAlpha hno).mpr rfl] at halpha
      exact hno halpha
    · rw [foldChar_of_notMem hmem] at hsame
      have hdotted : dotted.sameCase a c = true := decide_eq_true hsame
      exact foldsCase_dotted.other a c ha hc hdotted

theorem mem_of_mem_dotted_lower {c : Char} (hc : ¬ c.val < 128) (hdot : c ≠ '\u0307') {s : Str}
    (h : c ∈ dotted.lower s) : c ∈ s := by
  have halpha : ¬ c.isAlpha = true := by
    intro halpha
    rcases Url.isAlpha_iff.mp halpha with hupper | hlower
    · exact hc (UInt32.lt_of_le_of_lt (Url.isUpper_iff.mp hupper).2 (by decide))
    · exact hc (UInt32.lt_of_le_of_lt (Url.isLower_iff.mp hlower).2 (by decide))
  rw [dotted_lower] at h
  obtain ⟨a, ha, hmem⟩ := mem_flatMap.mp h
  split at hmem
  · rcases mem_cons.mp hmem with rfl | hmem
    · exact absurd (by decide) hc
    · exact absurd (mem_singleton.mp hmem) hdot
  · have hlower := (mem_singleton.mp hmem).symm
    rwa [(toLower_eq_of_not_isAlpha halpha).mp hlower] at ha

theorem folding_lower (s : Str) : folding.lower s =
    s.flatMap fun c => if c = '\u212a' then ['k'] else dotted.lower [c] := rfl

theorem lowersText_folding : folding.LowersText := by
  refine lowersText_of_flatMap folding_lower ?_ ?_ ⟨'Σ', by decide, by decide⟩
  · intro c hc
    have hne : c ≠ '\u212a' := by
      rintro rfl
      exact absurd hc (by decide)
    rw [if_neg hne, lowersText_dotted.lawful.ascii c hc]
  · intro c d hd
    split at hd
    · rw [mem_singleton.mp hd]
      rfl
    · rename_i hne
      have hd' : d ≠ '\u212a' := by
        rintro rfl
        have hmem := mem_of_mem_dotted_lower (by decide) (by decide) hd
        exact hne (mem_singleton.mp hmem).symm
      rw [if_neg hd']
      exact lowersText_dotted.lawful.keeps [c] d hd

theorem lowersEach_folding : folding.LowersEach := by
  intro s
  refine ⟨s.map fun c => if c = '\u212a' then ['k'] else dotted.lower [c], ?_, rfl⟩
  rw [List.forall₂_map_right_iff, List.forall₂_same]
  intro c _
  split
  · rename_i hc
    rw [hc]
    exact ⟨'k', rfl, .inr rfl⟩
  · obtain ⟨ls, hls, heq⟩ := lowersEach_dotted [c]
    cases hls with
    | cons hl hnil =>
      cases hnil
      rw [heq, flatten_cons, flatten_nil, append_nil]
      exact hl

theorem lowersFolded_folding : folding.LowersFolded where
  dotted := rfl
  kelvin := rfl
  kept := by
    intro c hc
    simp only [keptLetters, mem_cons, not_mem_nil, or_false] at hc
    rcases hc with rfl | rfl
    · rfl
    · rfl
  origin := by
    intro s c hc hkept
    have hall : keptLetters.all (fun c => !decide (c.val < 128) && decide (c ≠ '\u0307')) =
        true := by
      decide
    have hletter := all_eq_true.mp hall c hkept
    simp only [Bool.and_eq_true, Bool.not_eq_true', decide_eq_false_iff_not,
      decide_eq_true_eq] at hletter
    rw [folding_lower] at hc
    obtain ⟨a, ha, hmem⟩ := mem_flatMap.mp hc
    split at hmem
    · rw [mem_singleton.mp hmem] at hkept
      exact absurd hkept (by decide)
    · have hself := mem_of_mem_dotted_lower hletter.1 hletter.2 hmem
      rwa [mem_singleton.mp hself]

end Unicode
