import EmailExtractor.Ingest.Cell
import EmailExtractor.Library.RegexMatch
import EmailExtractor.Library.Trim
import EmailExtractor.Library.UrlParts

/-!
# Crawl keys as sites

Every crawl key is that of an admissible site: its host is no address, no social network
and no bare platform, and a host under a platform is its own key.
-/

namespace EmailExtractor

namespace Ingest

open Normalize Url List

/-! ## Host names -/

def lastLabel (s : Str) : Str := (s.splitOn '.').getLastD []

def hostChar (c : Char) : Bool :=
  ('a' ≤ c && c ≤ 'z') || c.isDigit || c = '-' || c = '.'

/-- The characters of a lower-case ASCII host. -/
def HostChars (host : Str) : Prop := ∀ c ∈ host, hostChar c = true

structure CleanHost (host : Str) : Prop where
  chars : HostChars host
  labels : ∀ label ∈ host.splitOn '.', label ≠ []

theorem HostChars.disjoint {host bad : Str} (h : HostChars host)
    (hbad : bad.any hostChar = false) : host.Disjoint bad :=
  fun c hc hmem => any_eq_false.mp hbad c hmem (h c hc)

theorem HostChars.slash_notMem {host : Str} (h : HostChars host) : '/' ∉ host :=
  fun hslash => absurd (h '/' hslash) (by decide)

theorem stripWww_cases {U : Unicode} (hdot : U.isDigit '.' = false) (host : Str) :
    stripWww U host = host ∨ ∃ label, '.' ∉ label ∧ host = label ++ '.' :: stripWww U host := by
  unfold stripWww
  split
  · rename_i hwww
    split
    · rename_i bare hbare
      refine .inr ⟨"www".toList ++ (host.drop 3).takeWhile U.isDigit, ?_, ?_⟩
      · rw [mem_append, not_or]
        refine ⟨by decide, fun hmem => ?_⟩
        have hdigit := all_eq_true.mp all_takeWhile '.' hmem
        rw [hdot] at hdigit
        exact Bool.false_ne_true hdigit
      · have hsplit := takeWhile_append_dropWhile (p := U.isDigit) (l := host.drop 3)
        rw [hbare] at hsplit
        obtain ⟨rest, hrest⟩ := List.isPrefixOf_iff_prefix.mp hwww
        have hdrop : host.drop 3 = rest := by rw [← hrest]; rfl
        rw [append_assoc, hsplit, hdrop, hrest]
    · exact .inl rfl
  · exact .inl rfl

/-! ## Hosts under other hosts -/

theorem isUnder_iff {host h : Str} :
    isUnder host h = true ↔ host = h ∨ ∃ p, host = p ++ '.' :: h := by
  rw [isUnder, Bool.or_eq_true, decide_eq_true_eq, Str.endsWith, isSuffixOf_iff_suffix]
  refine or_congr_right ⟨?_, ?_⟩
  · rintro ⟨p, hp⟩
    exact ⟨p, hp.symm⟩
  · rintro ⟨p, hp⟩
    exact ⟨p, hp.symm⟩

theorem isUnder_trans {host h g : Str} (h₁ : isUnder host h = true) (h₂ : isUnder h g = true) :
    isUnder host g = true := by
  rw [isUnder_iff] at h₁ h₂ ⊢
  rcases h₁ with rfl | ⟨p, rfl⟩
  · exact h₂
  · rcases h₂ with rfl | ⟨q, rfl⟩
    · exact .inr ⟨p, rfl⟩
    · exact .inr ⟨p ++ '.' :: q, by rw [append_assoc, cons_append]⟩

theorem isUnder_or_isUnder {host g h : Str} (hg : isUnder host g = true)
    (hh : isUnder host h = true) : isUnder g h = true ∨ isUnder h g = true := by
  rcases isUnder_iff.mp hg with rfl | ⟨p, hp⟩
  · exact .inl hh
  rcases isUnder_iff.mp hh with rfl | ⟨q, hq⟩
  · exact .inr hg
  rcases append_eq_append_iff.mp (hp.symm.trans hq) with ⟨r, -, hr⟩ | ⟨r, -, hr⟩
  · cases r with
    | nil => exact .inl (isUnder_iff.mpr (.inl (List.cons.inj hr).2))
    | cons d r => exact .inl (isUnder_iff.mpr (.inr ⟨r, (List.cons.inj hr).2⟩))
  · cases r with
    | nil => exact .inr (isUnder_iff.mpr (.inl (List.cons.inj hr).2))
    | cons d r => exact .inr (isUnder_iff.mpr (.inr ⟨r, (List.cons.inj hr).2⟩))

theorem lastLabel_of_isUnder {host h : Str} (hunder : isUnder host h = true) :
    lastLabel host = lastLabel h := by
  rcases isUnder_iff.mp hunder with rfl | ⟨p, rfl⟩
  · rfl
  · rw [lastLabel, lastLabel, splitOn_append_cons_self, getLastD_eq_getLast?,
      getLastD_eq_getLast?, List.getLast?_append_of_ne_nil _ (splitOn_ne_nil _ _)]

theorem subset_of_isUnder {host h : Str} (hunder : isUnder host h = true) : h ⊆ host := by
  rcases isUnder_iff.mp hunder with rfl | ⟨p, rfl⟩
  · exact List.Subset.refl _
  · exact fun c hc => mem_append_right _ (mem_cons_of_mem _ hc)

theorem eq_of_isUnder_siteBuilder {a b : Str} (ha : a ∈ siteBuilderSuffixes)
    (hb : b ∈ siteBuilderSuffixes) (h : isUnder a b = true) : a = b := by
  have hall : siteBuilderSuffixes.all (fun a =>
      siteBuilderSuffixes.all fun b => !isUnder a b || a = b) = true := by
    decide
  have hpair := all_eq_true.mp (all_eq_true.mp hall a ha) b hb
  rw [h] at hpair
  simpa using hpair

theorem siteBuilderSuffix_eq_none_iff {host : Str} :
    siteBuilderSuffix host = none ↔ ∀ b ∈ siteBuilderSuffixes, isUnder host b = false := by
  rw [siteBuilderSuffix, List.find?_eq_none]
  exact forall₂_congr fun b _ => Bool.eq_false_iff.symm

theorem siteBuilderSuffix_spec {host suffix : Str} (h : siteBuilderSuffix host = some suffix) :
    suffix ∈ siteBuilderSuffixes ∧ isUnder host suffix = true :=
  ⟨mem_of_find?_eq_some h, List.find?_some h⟩

/-! ## The host of a token -/

section

variable {N : Normalizer} {host path key : Str}

theorem hostAndPath_cases {U : Unicode} {token : Str}
    (h : hostAndPath U token = some (host, path)) :
    validHost host = true ∧ path.Disjoint "?#\t\r\n".toList := by
  simp only [hostAndPath] at h
  split at h
  · cases h
  · rename_i parts hparts
    split_ifs at h with hempty hvalid hlabels
    obtain ⟨rfl, rfl⟩ := Prod.mk.inj (Option.some.inj h)
    simp only [Bool.or_eq_true, Bool.not_eq_true', not_or, Bool.not_eq_false] at hvalid
    exact ⟨hvalid.1, path_of_urlsplit hparts⟩

theorem disjoint_validHost {bad : Str} (h : validHost host = true)
    (hbad : bad.any (fun c => isHostLetter c || c = '.' || c = '-') = false) :
    host.Disjoint bad := by
  intro c hc hmem
  have hall := all_eq_true.mp (Bool.and_eq_true_iff.mp h).2 c hc
  exact any_eq_false.mp hbad c hmem hall

theorem disjoint_of_validHost (h : validHost host = true) :
    host.Disjoint "/?#\t\r\n".toList :=
  disjoint_validHost h (by decide)

theorem stripWww_subset (U : Unicode) (host : Str) : stripWww U host ⊆ host := by
  unfold stripWww
  split
  · split
    · rename_i bare hbare
      intro c hc
      have hmem : c ∈ (host.drop 3).dropWhile U.isDigit := by
        rw [hbare]
        exact mem_cons_of_mem _ hc
      exact mem_of_mem_drop ((dropWhile_sublist _).mem hmem)
    · exact List.Subset.refl _
  · exact List.Subset.refl _

/-! ## The key of a host -/

theorem hostOfKey_of_notMem {key : Str} (h : '/' ∉ key) : hostOfKey key = key := by
  rw [hostOfKey, Str.partition_of_notMem h]

theorem hostOfKey_append (host rest : Str) : hostOfKey (host ++ '/' :: rest) = hostOfKey host := by
  unfold hostOfKey
  induction host with
  | nil => rfl
  | cons a s ih =>
    rw [cons_append, Str.partition, Str.partition]
    split
    · rfl
    · exact congrArg (a :: ·) ih

theorem hostOfKey_builderKey (host suffix path : Str) :
    hostOfKey (builderKey host suffix path) = hostOfKey host := by
  unfold builderKey
  split
  · split
    · exact hostOfKey_append _ _
    · rfl
  · rfl

theorem tryHost_accepts {source : DomainSource} {display : Str} {notes : List Str}
    {n : NormalizedInput} (h : tryHost N source display notes host path = some n)
    (hkey : n.domain = some key) :
    ipv4 N.unicode host = false ∧ ∃ encoded,
      toPunycode N (stripWww N.unicode host) = some encoded ∧ '.' ∈ encoded ∧
      isSocial encoded path = false ∧ KeyOf N encoded path key := by
  cases hostOutcome_of_eq h with
  | address | refused => cases hkey
  | accepted hip hencoded hdot hsocial hkeyOf =>
    cases hkey
    exact ⟨hip, _, hencoded, hdot, hsocial, hkeyOf⟩

/-! ## The token that decides -/

def DecidedBy (N : Normalizer) (raw token : Str) : Prop :=
  ∃ fragment ∈ fragments N.unicode (N.unicode.strip raw),
    token ∈ tokens ((mailRest N fragment).getD fragment) ∧
      ∃ source notes, tryToken N source (N.unicode.strip raw) notes token =
        some (normalizeInput N raw)

/-- The token's host, without one leading `www` label and encoded. -/
def HostOf (N : Normalizer) (token encoded : Str) : Prop :=
  ∃ host path, hostAndPath N.unicode token = some (host, path) ∧
    toPunycode N (stripWww N.unicode host) = some encoded

theorem normalizeInput_cases (N : Normalizer) (raw : Str) :
    (nullTokens.contains (N.unicode.lower (N.unicode.strip raw)) = true ∨
        fragments N.unicode (N.unicode.strip raw) = []) ∧ (normalizeInput N raw).ok = false ∨
      ∃ notes, (∃ fragment ∈ fragments N.unicode (N.unicode.strip raw),
          normalizeFragment N fragment (N.unicode.strip raw) notes = some (normalizeInput N raw)) ∨
        (∀ fragment ∈ fragments N.unicode (N.unicode.strip raw),
          normalizeFragment N fragment (N.unicode.strip raw) notes = none) ∧
          (normalizeInput N raw).ok = false := by
  unfold normalizeInput
  dsimp only
  by_cases hnull : nullTokens.contains (N.unicode.lower (N.unicode.strip raw)) = true
  · rw [if_pos hnull]
    exact .inl ⟨.inl hnull, rfl⟩
  · rw [if_neg hnull]
    cases hfrags : fragments N.unicode (N.unicode.strip raw) with
    | nil => exact .inl ⟨.inr rfl, rfl⟩
    | cons first others =>
      dsimp only
      generalize (if 1 < (first :: others).length then ["multiple_values".toList] else []) = notes
      refine .inr ⟨notes, ?_⟩
      split
      · rename_i n hn
        exact .inl (exists_of_findSome?_eq_some hn)
      · rename_i hn
        exact .inr ⟨List.findSome?_eq_none_iff.mp hn, rfl⟩

theorem decidedBy_of_domain {raw : Str} (hkey : (normalizeInput N raw).domain = some key) :
    ∃ token, DecidedBy N raw token := by
  have hok : (normalizeInput N raw).ok = true := by
    rcases normalizeInput_wellFormed N raw with ⟨_, hdomain, -, hvalid⟩ | ⟨hnone, -⟩
    · simp [NormalizedInput.ok, hdomain, hvalid]
    · rw [hkey] at hnone
      cases hnone
  rcases normalizeInput_cases N raw with
    ⟨-, hrefused⟩ | ⟨notes, ⟨fragment, hfragment, hdecides⟩ | ⟨-, hrefused⟩⟩
  · exact absurd (hok.symm.trans hrefused) (by decide)
  · unfold normalizeFragment at hdecides
    split at hdecides
    · rename_i rest hrest
      split at hdecides
      · rw [← Option.some.inj hdecides] at hkey
        cases hkey
      · obtain ⟨token, hmem, htoken⟩ := exists_of_findSome?_eq_some hdecides
        exact ⟨token, fragment, hfragment, by rwa [hrest], .email, notes, htoken⟩
    · rename_i hrest
      obtain ⟨token, hmem, htoken⟩ := exists_of_findSome?_eq_some hdecides
      exact ⟨token, fragment, hfragment, by rwa [hrest], .website, notes, htoken⟩
  · exact absurd (hok.symm.trans hrefused) (by decide)

theorem DecidedBy.keyOf {raw token : Str} (h : DecidedBy N raw token)
    (hkey : (normalizeInput N raw).domain = some key) :
    ∃ host path encoded, hostAndPath N.unicode token = some (host, path) ∧
      toPunycode N (stripWww N.unicode host) = some encoded ∧ '.' ∈ encoded ∧
      isSocial encoded path = false ∧ KeyOf N encoded path key := by
  obtain ⟨_, -, -, source, notes, htoken⟩ := h
  obtain ⟨⟨host, path⟩, hparsed, hhost⟩ := Option.bind_eq_some_iff.mp htoken
  obtain ⟨-, encoded, hencoded, hdot, hsocial, hkeyOf⟩ := tryHost_accepts hhost hkey
  exact ⟨host, path, encoded, hparsed, hencoded, hdot, hsocial, hkeyOf⟩

/-- The crawl key is made from a host and a path that were read out of a token. -/
def KeyFrom (N : Normalizer) (key : Str) : Prop :=
  ∃ token host path encoded, hostAndPath N.unicode token = some (host, path) ∧
    toPunycode N (stripWww N.unicode host) = some encoded ∧
    (key = (N.extract encoded).registeredDomain ∨ ∃ suffix, key = builderKey encoded suffix path)

theorem keyFrom_of_normalizeInput {raw : Str}
    (hkey : (normalizeInput N raw).domain = some key) : KeyFrom N key := by
  obtain ⟨token, htoken⟩ := decidedBy_of_domain hkey
  obtain ⟨host, path, encoded, hparsed, hencoded, -, -, hkeyOf⟩ := htoken.keyOf hkey
  refine ⟨token, host, path, encoded, hparsed, hencoded, ?_⟩
  cases hkeyOf with
  | builder => exact .inr ⟨_, rfl⟩
  | root => exact .inl rfl

end

/-! ## Admissible sites -/

/-- What is assumed of the public suffix list, of the encoding of names and of the digits:
a registrable domain is an aligned end of the host with at least two labels, no host with
a last label of digits has one, and an encoded name has no slash. -/
structure Normalizer.Suffixed (N : Normalizer) : Prop where
  root : ∀ host, (N.extract host).registeredDomain = [] ∨
    isUnder host (N.extract host).registeredDomain = true ∧
      '.' ∈ (N.extract host).registeredDomain
  digits : ∀ host, lastLabel host ≠ [] → (lastLabel host).all N.unicode.isDigit = true →
    (N.extract host).registeredDomain = []
  idna : ∀ host encoded, N.idna host = some encoded → '/' ∉ encoded
  letters : ∀ c : Char, c.isAlpha = true → N.unicode.isDigit c = false

/-- The host may be crawled as the site of a business. -/
structure Admissible (N : Normalizer) (host : Str) : Prop where
  ne_nil : host ≠ []
  dot : '.' ∈ host
  address : ipv4 N.unicode host = false
  social : ∀ h ∈ socialHosts, isUnder host h = false
  platform : host ∉ siteBuilderSuffixes

def StrictlyUnder (host : Str) : Prop :=
  ∃ b ∈ siteBuilderSuffixes, isUnder host b = true ∧ host ≠ b

section Admissible

variable {N : Normalizer} {host path key : Str}

theorem slash_notMem_of_hostOf
    (hidna : ∀ host encoded, N.idna host = some encoded → '/' ∉ encoded) {token encoded : Str}
    (hparsed : hostAndPath N.unicode token = some (host, path))
    (hencoded : toPunycode N (stripWww N.unicode host) = some encoded) : '/' ∉ encoded := by
  unfold toPunycode at hencoded
  split at hencoded
  · cases hencoded
    intro hmem
    exact disjoint_of_validHost (hostAndPath_cases hparsed).1 (stripWww_subset _ _ hmem) (by decide)
  · exact hidna _ _ hencoded

theorem lastLabel_of_ipv4 {U : Unicode} (h : ipv4 U host = true) :
    lastLabel host ≠ [] ∧ (lastLabel host).all U.isDigit = true := by
  obtain ⟨-, hall⟩ := Bool.and_eq_true_iff.mp h
  have hmem : lastLabel host ∈ host.splitOn '.' := by
    rw [lastLabel, getLastD_eq_getLast?, List.getLast?_eq_some_getLast (splitOn_ne_nil _ _)]
    exact getLast_mem _
  have hpart := all_eq_true.mp hall _ hmem
  simp only [Bool.and_eq_true, decide_eq_true_eq] at hpart
  exact ⟨length_pos_iff.mp hpart.1.1, hpart.2⟩

theorem not_ipv4_of_siteBuilder (hN : N.Suffixed) {b : Str} (hb : b ∈ siteBuilderSuffixes)
    (h : isUnder host b = true) : ipv4 N.unicode host = false := by
  rw [← Bool.not_eq_true]
  intro hip
  obtain ⟨-, hdigits⟩ := lastLabel_of_ipv4 hip
  rw [lastLabel_of_isUnder h] at hdigits
  -- the last label of a platform begins with a letter
  have hletter : siteBuilderSuffixes.all (fun b => (lastLabel b).any Char.isAlpha) = true := by
    decide
  obtain ⟨c, hc, halpha⟩ := any_eq_true.mp (all_eq_true.mp hletter b hb)
  have hdigit := all_eq_true.mp hdigits c hc
  rw [hN.letters c halpha] at hdigit
  exact Bool.false_ne_true hdigit

theorem not_social_of_isSocial {encoded : Str} (hsocial : isSocial encoded path = false) :
    ∀ h ∈ socialHosts, isUnder encoded h = false := by
  obtain ⟨hhosts, -⟩ := Bool.or_eq_false_iff.mp hsocial
  exact fun h hh => Bool.eq_false_iff.mpr (any_eq_false.mp hhosts h hh)

theorem KeyOf.admissible (hN : N.Suffixed) {encoded : Str} (h : KeyOf N encoded path key)
    (hslash : '/' ∉ encoded) (hdot : '.' ∈ encoded) (hsocial : isSocial encoded path = false) :
    Admissible N (hostOfKey key) := by
  have hnot := not_social_of_isSocial hsocial
  cases h with
  | @builder suffix hsuffix hne =>
    obtain ⟨hmem, hunder⟩ := siteBuilderSuffix_spec hsuffix
    rw [hostOfKey_builderKey, hostOfKey_of_notMem hslash]
    refine ⟨ne_nil_of_mem hdot, hdot, not_ipv4_of_siteBuilder hN hmem hunder, hnot, ?_⟩
    exact fun hplatform => hne (eq_of_isUnder_siteBuilder hplatform hmem hunder)
  | root hsuffix hroot =>
    obtain ⟨hunder, hdot⟩ := (hN.root encoded).resolve_left hroot
    rw [hostOfKey_of_notMem fun hmem => hslash (subset_of_isUnder hunder hmem)]
    refine ⟨hroot, hdot, ?_, fun h hh => ?_, fun hplatform => ?_⟩
    · rw [← Bool.not_eq_true]
      intro hip
      obtain ⟨hne, hdigits⟩ := lastLabel_of_ipv4 hip
      rw [← lastLabel_of_isUnder hunder] at hne hdigits
      exact hroot (hN.digits encoded hne hdigits)
    · rw [← Bool.not_eq_true]
      intro hsocial
      exact Bool.false_ne_true ((hnot h hh).symm.trans (isUnder_trans hunder hsocial))
    · have hbuilder := siteBuilderSuffix_eq_none_iff.mp hsuffix _ hplatform
      exact Bool.false_ne_true (hbuilder.symm.trans hunder)

theorem KeyOf.host_eq {encoded : Str} (h : KeyOf N encoded path key) (hslash : '/' ∉ encoded)
    (hunder : StrictlyUnder encoded) : hostOfKey key = encoded := by
  cases h with
  | builder => rw [hostOfKey_builderKey, hostOfKey_of_notMem hslash]
  | root hsuffix =>
    obtain ⟨b, hb, hunder, -⟩ := hunder
    have hnone := siteBuilderSuffix_eq_none_iff.mp hsuffix b hb
    exact absurd (hnone.symm.trans hunder) Bool.false_ne_true

theorem DecidedBy.host_eq (hN : N.Suffixed) {raw token encoded : Str}
    (h : DecidedBy N raw token) (hkey : (normalizeInput N raw).domain = some key)
    (hhost : HostOf N token encoded) (hunder : StrictlyUnder encoded) :
    hostOfKey key = encoded := by
  obtain ⟨host, path, encoded', hparsed, hencoded, -, -, hkeyOf⟩ := h.keyOf hkey
  obtain ⟨host', path', hparsed', hencoded'⟩ := hhost
  obtain ⟨rfl, rfl⟩ := Prod.mk.inj (Option.some.inj (hparsed.symm.trans hparsed'))
  obtain rfl := Option.some.inj (hencoded.symm.trans hencoded')
  exact hkeyOf.host_eq (slash_notMem_of_hostOf hN.idna hparsed hencoded) hunder

/-- Every cell that is accepted has the key of an admissible site; a host strictly under a
platform is the host of its key, so two of them share no key; and a cell that is not
accepted has no key. -/
theorem crawl_keys_are_admissible (hN : N.Suffixed) :
    (∀ raw, (normalizeInput N raw).ok = true → ∃ key,
        (normalizeInput N raw).domain = some key ∧ Admissible N (hostOfKey key) ∧
        (∃ token, DecidedBy N raw token) ∧
        ∀ token encoded, DecidedBy N raw token → HostOf N token encoded →
          StrictlyUnder encoded → hostOfKey key = encoded) ∧
      (∀ raw raw' token token' encoded encoded', DecidedBy N raw token →
        DecidedBy N raw' token' → HostOf N token encoded → HostOf N token' encoded' →
        StrictlyUnder encoded → StrictlyUnder encoded' → encoded ≠ encoded' →
        (normalizeInput N raw).ok = true → (normalizeInput N raw').ok = true →
        (normalizeInput N raw).domain ≠ (normalizeInput N raw').domain) ∧
      ∀ raw, (normalizeInput N raw).ok = false → (normalizeInput N raw).domain = none := by
  refine ⟨fun raw hok => ?_, ?_, fun raw hok => ?_⟩
  · obtain ⟨key, hkey⟩ := Option.isSome_iff_exists.mp (Bool.and_eq_true_iff.mp hok).1
    obtain ⟨token, htoken⟩ := decidedBy_of_domain hkey
    obtain ⟨host, path, encoded, hparsed, hencoded, hdot, hsocial, hkeyOf⟩ := htoken.keyOf hkey
    have hslash := slash_notMem_of_hostOf hN.idna hparsed hencoded
    exact ⟨key, hkey, hkeyOf.admissible hN hslash hdot hsocial, ⟨token, htoken⟩,
      fun _ _ hdecided hhost hunder => hdecided.host_eq hN hkey hhost hunder⟩
  · intro raw raw' token token' encoded encoded' htoken htoken' hhost hhost' hunder hunder'
      hne hok hok' hsame
    obtain ⟨key, hkey⟩ := Option.isSome_iff_exists.mp (Bool.and_eq_true_iff.mp hok).1
    have hkey' := hsame.symm.trans hkey
    exact hne ((htoken.host_eq hN hkey hhost hunder).symm.trans
      (htoken'.host_eq hN hkey' hhost' hunder'))
  · rcases normalizeInput_wellFormed N raw with ⟨_, hdomain, -, hvalid⟩ | ⟨hnone, -⟩
    · rw [NormalizedInput.ok, hdomain, hvalid] at hok
      cases hok
    · exact hnone

end Admissible

section Example

def acmeExtract (host : Str) : ExtractResult :=
  if isUnder host "acme.com".toList then ⟨[], "acme".toList, "com".toList⟩ else ⟨[], [], []⟩

def acmeNormalizer : Normalizer := ⟨.ascii, acmeExtract, fun _ => none⟩

theorem acmeExtract_registeredDomain (host : Str) :
    (acmeExtract host).registeredDomain =
      if isUnder host "acme.com".toList then "acme.com".toList else [] := by
  unfold acmeExtract
  split
  · decide
  · decide

theorem acmeNormalizer_suffixed : acmeNormalizer.Suffixed where
  root := by
    intro host
    change (acmeExtract host).registeredDomain = [] ∨
      isUnder host (acmeExtract host).registeredDomain = true ∧
        _ ∈ (acmeExtract host).registeredDomain
    rw [acmeExtract_registeredDomain]
    split
    · rename_i h
      exact .inr ⟨h, by decide⟩
    · exact .inl rfl
  digits := by
    intro host _ hdigits
    change (acmeExtract host).registeredDomain = []
    rw [acmeExtract_registeredDomain]
    refine if_neg fun h => ?_
    rw [lastLabel_of_isUnder h] at hdigits
    exact absurd hdigits (by decide)
  idna := fun _ _ h => by cases h
  letters := fun _ hc => not_isDigit_of_isAlpha hc

/-- The key of a host under a platform. -/
theorem bob_key_admissible :
    acmeNormalizer.Suffixed ∧
      (normalizeInput acmeNormalizer "see www.bob.wixsite.com".toList).ok = true ∧
      StrictlyUnder "bob.wixsite.com".toList ∧
      HostOf acmeNormalizer "www.bob.wixsite.com".toList "bob.wixsite.com".toList ∧
      ∃ key, (normalizeInput acmeNormalizer "see www.bob.wixsite.com".toList).domain = some key ∧
        Admissible acmeNormalizer (hostOfKey key) ∧ hostOfKey key = "bob.wixsite.com".toList := by
  have hhost : HostOf acmeNormalizer "www.bob.wixsite.com".toList "bob.wixsite.com".toList :=
    ⟨"www.bob.wixsite.com".toList, [], by decide +kernel, by decide⟩
  have hunder : StrictlyUnder "bob.wixsite.com".toList :=
    ⟨"wixsite.com".toList, by decide, by decide, by decide⟩
  have hdecided : DecidedBy acmeNormalizer "see www.bob.wixsite.com".toList
      "www.bob.wixsite.com".toList :=
    ⟨"see www.bob.wixsite.com".toList, by decide +kernel, by decide +kernel, .website, [],
      by decide +kernel⟩
  have hok : (normalizeInput acmeNormalizer "see www.bob.wixsite.com".toList).ok = true := by
    decide +kernel
  obtain ⟨key, hkey, hadmissible, -, heq⟩ :=
    (crawl_keys_are_admissible acmeNormalizer_suffixed).1 _ hok
  exact ⟨acmeNormalizer_suffixed, hok, hunder, hhost, key, hkey, hadmissible,
    heq _ _ hdecided hhost hunder⟩

end Example

end Ingest

end EmailExtractor
