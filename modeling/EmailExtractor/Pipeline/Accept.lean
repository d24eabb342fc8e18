import EmailExtractor.Normalize

/-!
# Accepting an address

`_accept` of `app/pipeline/extract/emails.py` and what it calls: a text is cleaned,
checked against the pattern of an address, and text glued to its last label is cut off.
The patterns and the public suffix list are parameters.

An accepted address is in lower case, so the spelling under which the judge is asked
about an address is the one under which it was found.
-/

namespace EmailExtractor

namespace Pipeline

open List

structure Patterns where
  /-- `EMAIL_FULL.fullmatch`. -/
  emailFull : Str → Bool
  /-- The group of `_GLUED_SENTENCE.match`. -/
  gluedSentence : Str → Option Str
  /-- `_ASSET_TAIL.search`. -/
  assetTail : Str → Bool
  isAlpha : Char → Bool
  extract : Str → ExtractResult

def trimTargets : List Str :=
  ["com", "net", "org", "edu", "gov", "mil", "int", "io", "co", "us", "biz", "info"].map
    String.toList

def trimPunctuation : Str := ".,;:!?)]\x7d>\"'".toList

section

variable (U : Unicode) (P : Patterns)

def clean (email : Str) : Str := U.lower (Str.stripChars trimPunctuation (U.strip email))

def unglueSentence (raw : Str) : Str :=
  (P.gluedSentence (Str.stripChars trimPunctuation (U.strip raw))).getD raw

def versionLike (domain : Str) : Bool :=
  let body := (domain.splitOn '.').dropLast
  2 ≤ body.length && body.any fun label => !label.isEmpty && label.all U.isDigit

def trimmedTo (domain target : Str) : Str :=
  Str.join ['.'] ((domain.splitOn '.').dropLast ++ [target])

def gluedTo (domain target : Str) : Bool :=
  let last := U.lower ((domain.splitOn '.').getLastD [])
  let tail := last.drop target.length
  Str.startsWith last target && 2 ≤ tail.length && tail.all P.isAlpha

def fixTld (email : Str) : Option Str :=
  let name := Str.beforeLast '@' email
  let domain := Str.afterLast '@' email
  if name = [] || domain = [] then none
  else if P.assetTail domain || versionLike U domain then none
  else if (P.extract domain).suffix ≠ [] then some email
  else
    let target := trimTargets.find? fun target =>
      gluedTo U P domain target && (P.extract (trimmedTo domain target)).suffix ≠ []
    target.map fun target => name ++ '@' :: trimmedTo domain target

def accept (raw : Str) : Option Str :=
  let email := clean U (unglueSentence U P raw)
  if email = [] || !P.emailFull email then none else fixTld U P email

end

/-! ## The case of an accepted address -/

section Case

variable {U : Unicode} {P : Patterns}

def LowerChar (U : Unicode) (c : Char) : Prop := U.lower [c] = [c]

theorem lowerChar_of_mem_trimTargets (hU : U.LawfulLower) {target : Str}
    (htarget : target ∈ trimTargets) : ∀ c ∈ target, LowerChar U c := by
  have hascii : trimTargets.all (List.all · fun c => decide (c.val < 128 ∧ c.toLower = c)) := by
    decide
  intro c hc
  have hc' := all_eq_true.mp (all_eq_true.mp hascii target htarget) c hc
  obtain ⟨hval, hlower⟩ := of_decide_eq_true hc'
  rw [LowerChar, hU.ascii c hval, hlower]

theorem lowerChar_of_mem_trimmedTo (hU : U.LawfulLower) {domain target : Str}
    (hdomain : ∀ c ∈ domain, LowerChar U c) (htarget : target ∈ trimTargets) :
    ∀ c ∈ trimmedTo domain target, LowerChar U c := by
  intro c hc
  rcases Str.mem_join hc with hdot | ⟨part, hpart, hc⟩
  · rw [mem_singleton.mp hdot, LowerChar, hU.ascii '.' (by decide)]
    rfl
  · rcases mem_append.mp hpart with hlabel | hlast
    · exact hdomain c (Str.mem_of_mem_splitOn ((dropLast_sublist _).mem hlabel) hc)
    · rw [mem_singleton.mp hlast] at hc
      exact lowerChar_of_mem_trimTargets hU htarget c hc

theorem lowerChar_of_fixTld (hU : U.LawfulLower) {email e : Str}
    (hemail : ∀ c ∈ email, LowerChar U c) (h : fixTld U P email = some e) :
    ∀ c ∈ e, LowerChar U c := by
  simp only [fixTld] at h
  split_ifs at h with hparts htail hsuffix
  · exact Option.some.inj h ▸ hemail
  · obtain ⟨target, hfind, rfl⟩ := Option.map_eq_some_iff.mp h
    have htarget := mem_of_find?_eq_some hfind
    intro c hc
    rcases mem_append.mp hc with hname | hrest
    · exact hemail c (Str.mem_of_mem_beforeLast hname)
    · rcases mem_cons.mp hrest with rfl | hdomain
      · rw [LowerChar, hU.ascii '@' (by decide)]
        rfl
      · exact lowerChar_of_mem_trimmedTo hU
          (fun c hc => hemail c (Str.mem_of_mem_afterLast hc)) htarget c hdomain

theorem lower_of_accept (hU : U.LawfulLower) {raw e : Str} (h : accept U P raw = some e) :
    U.lower e = e := by
  simp only [accept] at h
  split_ifs at h with hcheck
  exact hU.eq_self e (lowerChar_of_fixTld hU (hU.keeps _) h)

end Case

end Pipeline

end EmailExtractor
