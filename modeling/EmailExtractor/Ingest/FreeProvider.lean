import EmailExtractor.Ingest.Keys
import EmailExtractor.Ingest.Table
import EmailExtractor.Library.LongestTail

/-!
# Free mail providers

The provider test of `_normalize_fragment` looks at the text after the last `@`; the crawl
key is taken from a host read out of that text. A free provider becomes a crawl target exactly
when the host that decides has its label and the text has not, as decoration around the
address makes it, or when the text after the `@` is read as a website.
-/

namespace EmailExtractor

namespace Ingest

open Normalize List

/-! ## The public suffix list -/

/-- The labels make up a public suffix. -/
def IsSuffix (known : Str → Bool) (labels : List Str) : Bool := known (Str.join ['.'] labels)

/-- A host cut before its longest public suffix; without one the last label is the domain. -/
def splitSuffix (known : Str → Bool) (host : Str) : ExtractResult :=
  let (before, suffix) := LongestTail.cut (IsSuffix known) (host.splitOn '.')
  { subdomain := Str.join ['.'] before.dropLast
    domain := before.getLastD []
    suffix := Str.join ['.'] suffix }

/-- What is assumed of `tldextract` for the set `known` of public suffixes. -/
structure ExtractsSuffix (known : Str → Bool) (extract : Str → ExtractResult) : Prop where
  host : ∀ host, CleanHost host → known (lastLabel host) = true →
    extract host = splitSuffix known host
  unknown : ∀ s, known (lastLabel s) = false →
    (extract s).suffix = [] ∧ (extract s).domain = lastLabel s

/-- Cutting before the longest known suffix is as assumed, if the last label of every known
suffix is known. -/
theorem extractsSuffix_splitSuffix {known : Str → Bool}
    (hknown : ∀ s, known s = true → known (lastLabel s) = true) :
    ExtractsSuffix known (splitSuffix known) where
  host _ _ _ := rfl
  unknown := by
    intro s hs
    have hcut : LongestTail.cut (IsSuffix known) (s.splitOn '.') = (s.splitOn '.', []) := by
      refine LongestTail.cut_eq_self fun t hne ht => ?_
      by_contra hsuffix
      have hlast := hknown _ (by simpa [IsSuffix] using hsuffix)
      have hlabels : (Str.join ['.'] t).splitOn '.' = t :=
        splitOn_intercalate '.' (fun label hlabel =>
          Str.notMem_of_mem_splitOn (ht.subset hlabel)) hne
      obtain ⟨before, hbefore⟩ := ht
      rw [lastLabel, ← hbefore, getLastD_eq_getLast?,
        List.getLast?_append_of_ne_nil _ hne, ← getLastD_eq_getLast?] at hs
      rw [lastLabel, hlabels, hs] at hlast
      exact Bool.false_ne_true hlast
    rw [splitSuffix, hcut]
    exact ⟨rfl, rfl⟩

/-! ## The host that decides -/

section

variable (N : Normalizer)

/-- The test for a free provider, on the text after the last `@`. -/
def testsFree (rest : Str) : Bool :=
  freeEmailLabels.contains (N.extract (testedHost N rest)).domain

/-- The host and the path of the first token that gives an outcome. -/
def decidingHost (text : Str) : Option (Str × Str) :=
  (tokens text).findSome? fun token =>
    (hostAndPath N.unicode token).filter fun parsed =>
      (tryHost N .website [] [] parsed.1 parsed.2).isSome

/-- The text of a fragment in which a host is looked for. -/
def searched (fragment : Str) : Str := (mailRest N fragment).getD fragment

/-- The first fragment that gives an outcome. -/
def decidingFragment (raw : Str) : Option Str :=
  if nullTokens.contains (N.unicode.lower (N.unicode.strip raw)) then none
  else
    (fragments N.unicode (N.unicode.strip raw)).find? fun fragment =>
      (mailRest N fragment).any (testsFree N) || (decidingHost N (searched N fragment)).isSome

/-- The host passes the checks, and the label of its key is that of a free provider. -/
def FreeHost (host path : Str) : Prop :=
  ipv4 N.unicode host = false ∧ ∃ encoded,
    toPunycode N (stripWww N.unicode host) = some encoded ∧ isSocial encoded path = false ∧
    siteBuilderSuffix encoded ≠ some encoded ∧
    (N.extract (hostOfKey (registrable N.extract encoded))).domain ∈ freeEmailLabels

/-- A cell that gives a crawl key through an address gives that of no free provider. -/
def NotFree (n : NormalizedInput) : Prop :=
  n.ok = true → n.domainSource = .email → ∀ key ∈ n.domain,
    (N.extract (hostOfKey key)).domain ∉ freeEmailLabels

def IsFree (n : NormalizedInput) : Prop :=
  ∃ key ∈ n.domain, (N.extract (hostOfKey key)).domain ∈ freeEmailLabels

/-- The free provider is found in the text that is tested, if the host that decides is one. -/
def ProviderCaught (raw : Str) : Prop :=
  ∀ fragment ∈ decidingFragment N raw, ∀ rest ∈ mailRest N fragment,
    ∀ parsed ∈ decidingHost N rest, FreeHost N parsed.1 parsed.2 → testsFree N rest = true

/-- Nothing in the cell is read as a site or as a free provider. -/
def Unread (raw : Str) : Prop :=
  ∀ fragment ∈ decidingFragment N raw, (mailRest N fragment).any (testsFree N) = false ∧
    ∀ parsed ∈ decidingHost N (searched N fragment), ipv4 N.unicode parsed.1 = true

/-- The host that decides is no free provider, or is tested as one. -/
def NoProvider (raw : Str) : Prop :=
  ∀ fragment ∈ decidingFragment N raw, ∀ parsed ∈ decidingHost N (searched N fragment),
    FreeHost N parsed.1 parsed.2 → (mailRest N fragment).any (testsFree N) = true

end

section

variable {N : Normalizer} {source : DomainSource} {display host path : Str} {notes : List Str}
  {n : NormalizedInput}

theorem tryHost_isFree_iff (h : tryHost N source display notes host path = some n) :
    IsFree N n ↔ FreeHost N host path := by
  cases hostOutcome_of_eq h with
  | address hip =>
    refine iff_of_false (fun h => ?_) fun h => ?_
    · obtain ⟨_, ⟨⟩, _⟩ := h
    · exact Bool.false_ne_true (h.1.symm.trans hip)
  | @refused encoded hip hencoded hdot hrefused =>
    refine iff_of_false (fun h => ?_) fun ⟨_, encoded', hencoded', hsocial, hplatform, _⟩ => ?_
    · obtain ⟨_, ⟨⟩, _⟩ := h
    · obtain rfl := Option.some.inj (hencoded.symm.trans hencoded')
      rcases hrefused with hrefused | hrefused
      · exact Bool.false_ne_true (hsocial.symm.trans hrefused)
      · exact hplatform hrefused
  | @accepted encoded key hip hencoded hdot hsocial hkey =>
    have hhost : hostOfKey key = hostOfKey (registrable N.extract encoded) ∧
        siteBuilderSuffix encoded ≠ some encoded := by
      unfold registrable
      cases hkey with
      | builder hsuffix hne => simpa [hsuffix, hostOfKey_builderKey] using Ne.symm hne
      | root hsuffix => simp [hsuffix]
    constructor
    · rintro ⟨_, ⟨⟩, hfree⟩
      rw [hhost.1] at hfree
      exact ⟨hip, encoded, hencoded, hsocial, hhost.2, hfree⟩
    · rintro ⟨-, encoded', hencoded', -, -, hfree⟩
      obtain rfl := Option.some.inj (hencoded.symm.trans hencoded')
      rw [← hhost.1] at hfree
      exact ⟨key, rfl, hfree⟩

theorem tryHost_unread_iff (h : tryHost N source display notes host path = some n) :
    n.ok = false ∧ n.reason ≠ some .freeEmailOnly ∧ n.reason ≠ some .socialOrDirectory ↔
      ipv4 N.unicode host = true := by
  cases hostOutcome_of_eq h with
  | address hip => simp [NormalizedInput.ok, hip]
  | refused hip => simp [hip]
  | accepted hip => simp [NormalizedInput.ok, hip]

theorem findSome?_bind {α β γ : Type*} (f : α → Option β) (g : β → Option γ) (l : List α) :
    l.findSome? (fun a => (f a).bind g) =
      (l.findSome? fun a => (f a).filter fun b => (g b).isSome).bind g := by
  induction l with
  | nil => rfl
  | cons a l ih =>
    rw [List.findSome?_cons, List.findSome?_cons]
    cases f a with
    | none => exact ih
    | some b =>
      cases hg : g b with
      | none => simpa [hg, Option.filter_some] using ih
      | some c => simp [hg, Option.filter_some]

theorem findSome?_tokens (text : Str) :
    (tokens text).findSome? (tryToken N source display notes) =
      (decidingHost N text).bind fun parsed =>
        tryHost N source display notes parsed.1 parsed.2 := by
  have hsame : ∀ parsed : Str × Str,
      (tryHost N source display notes parsed.1 parsed.2).isSome =
        (tryHost N .website [] [] parsed.1 parsed.2).isSome := by
    intro parsed
    rw [Bool.eq_iff_iff, tryHost_isSome_iff, tryHost_isSome_iff]
  unfold tryToken decidingHost
  rw [findSome?_bind]
  simp only [hsame]

/-! ## The outcome of a fragment and of a cell -/

theorem normalizeFragment_cases {fragment : Str}
    (h : normalizeFragment N fragment display notes = some n) :
    (mailRest N fragment).any (testsFree N) = true ∧ n.domain = none ∧
        n.reason = some .freeEmailOnly ∨
      (mailRest N fragment).any (testsFree N) = false ∧
        ∃ parsed ∈ decidingHost N (searched N fragment),
          tryHost N (if (mailRest N fragment).isSome then .email else .website) display notes
            parsed.1 parsed.2 = some n := by
  unfold normalizeFragment at h
  unfold searched
  cases hrest : mailRest N fragment with
  | none =>
    rw [hrest] at h
    dsimp only at h
    rw [findSome?_tokens] at h
    exact .inr ⟨rfl, Option.bind_eq_some_iff.mp h⟩
  | some rest =>
    rw [hrest] at h
    dsimp only at h
    split at h
    · rename_i hfree
      cases h
      exact .inl ⟨hfree, rfl, rfl⟩
    · rename_i hfree
      rw [findSome?_tokens] at h
      exact .inr ⟨by simpa [testsFree] using hfree, Option.bind_eq_some_iff.mp h⟩

theorem normalizeFragment_isSome (display : Str) (notes : List Str) (fragment : Str) :
    (normalizeFragment N fragment display notes).isSome =
      ((mailRest N fragment).any (testsFree N) ||
        (decidingHost N (searched N fragment)).isSome) := by
  have hdecides : ∀ (source : DomainSource) (text : Str),
      ((tokens text).findSome? (tryToken N source display notes)).isSome =
        (decidingHost N text).isSome := by
    intro source text
    rw [findSome?_tokens]
    cases hparsed : decidingHost N text with
    | none => rfl
    | some parsed =>
      obtain ⟨token, -, hfilter⟩ := exists_of_findSome?_eq_some hparsed
      have hsome := (Option.filter_eq_some_iff.mp hfilter).2
      rw [tryHost_isSome_iff] at hsome
      exact tryHost_isSome_iff.mpr hsome
  unfold normalizeFragment searched
  cases mailRest N fragment with
  | none => exact hdecides .website fragment
  | some rest =>
    dsimp only
    rw [Option.any_some, Option.getD_some, ← hdecides .email]
    unfold testsFree
    split
    · rename_i hfree
      rw [hfree]
      rfl
    · rename_i hfree
      rw [Bool.not_eq_true] at hfree
      rw [hfree, Bool.false_or]

theorem normalizeInput_decided (N : Normalizer) (raw : Str) :
    (decidingFragment N raw = none ∧ (normalizeInput N raw).domain = none ∧
        (normalizeInput N raw).reason ≠ some .freeEmailOnly ∧
        (normalizeInput N raw).reason ≠ some .socialOrDirectory) ∨
      ∃ fragment notes, decidingFragment N raw = some fragment ∧
        normalizeFragment N fragment (N.unicode.strip raw) notes =
          some (normalizeInput N raw) := by
  unfold normalizeInput decidingFragment
  dsimp only
  split
  · exact .inl ⟨rfl, rfl, by simp, by simp⟩
  cases hfrags : fragments N.unicode (N.unicode.strip raw) with
  | nil => exact .inl ⟨rfl, rfl, by simp, by simp⟩
  | cons first others =>
    dsimp only
    generalize (if 1 < (first :: others).length then ["multiple_values".toList] else []) = notes
    simp only [← normalizeFragment_isSome (N.unicode.strip raw) notes]
    split
    · rename_i n hn
      obtain ⟨before, fragment, after, hsplit, hdecides, hbefore⟩ :=
        List.findSome?_eq_some_iff.mp hn
      refine .inr ⟨fragment, notes, List.find?_eq_some_iff_append.mpr
        ⟨by rw [hdecides]; rfl, before, after, hsplit, fun a ha => ?_⟩, hdecides⟩
      rw [hbefore a ha]
      rfl
    · rename_i hn
      refine .inl ⟨List.find?_eq_none.mpr fun a ha => ?_, rfl, by simp, by simp⟩
      rw [List.findSome?_eq_none_iff.mp hn a ha]
      simp

theorem notFree_tryHost_iff (h : tryHost N source display notes host path = some n) :
    NotFree N n ↔ (source = .email → ¬ IsFree N n) := by
  cases hostOutcome_of_eq h with
  | address | refused => simp [NotFree, IsFree]
  | accepted => simp [NotFree, IsFree, NormalizedInput.ok]

theorem notFree_of_domain (h : n.domain = none) : NotFree N n ∧ ¬ IsFree N n ∧ n.ok = false := by
  simp [NotFree, IsFree, NormalizedInput.ok, h]

theorem notFree_normalizeInput_iff (raw : Str) :
    NotFree N (normalizeInput N raw) ↔ ProviderCaught N raw := by
  unfold ProviderCaught
  rcases normalizeInput_decided N raw with ⟨hnone, hdomain, -⟩ | ⟨fragment, notes, hdecides, hn⟩
  · simp [hnone, notFree_of_domain hdomain]
  rw [hdecides]
  rcases normalizeFragment_cases hn with ⟨hfree, hdomain, -⟩ | ⟨hfree, ⟨host, path⟩, hparsed, htry⟩
  · refine iff_of_true (notFree_of_domain hdomain).1 ?_
    rintro _ ⟨⟩ rest hrest _ _ _
    rwa [hrest, Option.any_some] at hfree
  · rw [notFree_tryHost_iff htry, tryHost_isFree_iff htry]
    unfold searched at hparsed
    cases hrest : mailRest N fragment with
    | none => simp [hrest]
    | some rest =>
      rw [hrest, Option.any_some] at hfree
      rw [hrest, Option.getD_some] at hparsed
      rw [Option.mem_def] at hparsed
      simp [hrest, hparsed, hfree]

theorem isFree_normalizeInput_iff (raw : Str) :
    ¬ IsFree N (normalizeInput N raw) ↔ NoProvider N raw := by
  unfold NoProvider
  rcases normalizeInput_decided N raw with ⟨hnone, hdomain, -⟩ | ⟨fragment, notes, hdecides, hn⟩
  · simp [hnone, notFree_of_domain hdomain]
  rw [hdecides]
  rcases normalizeFragment_cases hn with ⟨hfree, hdomain, -⟩ | ⟨hfree, ⟨host, path⟩, hparsed, htry⟩
  · simp [notFree_of_domain hdomain, hfree]
  · rw [Option.mem_def] at hparsed
    simp [tryHost_isFree_iff htry, hfree, hparsed]

theorem unread_iff (raw : Str) :
    (normalizeInput N raw).ok = false ∧ (normalizeInput N raw).reason ≠ some .freeEmailOnly ∧
      (normalizeInput N raw).reason ≠ some .socialOrDirectory ↔ Unread N raw := by
  unfold Unread
  rcases normalizeInput_decided N raw with
    ⟨hnone, hdomain, hreason⟩ | ⟨fragment, notes, hdecides, hn⟩
  · rw [hnone, (notFree_of_domain (N := N) hdomain).2.2]
    simp [hreason]
  rw [hdecides]
  rcases normalizeFragment_cases hn with ⟨hfree, -, hreason⟩ | ⟨hfree, ⟨host, path⟩, hparsed, htry⟩
  · simp [hfree, hreason]
  · rw [Option.mem_def] at hparsed
    rw [tryHost_unread_iff htry]
    simp [hfree, hparsed]

theorem notFree_normalizeCell_iff (derive : Bool) (v : Str) :
    NotFree N (normalizeCell N derive v) ↔ ProviderCaught N v ∧
      (derive = true → '@' ∈ v → Unread N v → NoProvider N (Str.afterLast '@' v)) := by
  rw [← notFree_normalizeInput_iff, ← isFree_normalizeInput_iff, ← unread_iff]
  unfold normalizeCell
  dsimp only
  split
  · rename_i hcond
    simp only [Bool.and_eq_true, Bool.not_eq_true', contains_iff_mem, ne_eq,
      decide_eq_true_eq] at hcond
    obtain ⟨⟨⟨⟨hderive, hok⟩, hat⟩, hfree⟩, hsocial⟩ := hcond
    have hself : NotFree N (normalizeInput N v) := fun h => absurd (hok.symm.trans h) (by decide)
    simp only [hself, hderive, hat, hok, hfree, hsocial, ne_eq, not_false_eq_true, and_self,
      true_and, forall_const]
    split
    · rename_i hderived
      simp only [NotFree, IsFree, NormalizedInput.ok] at hderived ⊢
      simp [hderived]
    · rename_i hderived
      refine iff_of_true hself ?_
      rintro ⟨key, hkey, -⟩
      have hvalid := (normalizeInput_wellFormed N (Str.afterLast '@' v)).resolve_right
        fun h => by rw [h.1] at hkey; cases hkey
      obtain ⟨key, hkey, -, hvalid⟩ := hvalid
      exact hderived (by simp [NormalizedInput.ok, hkey, hvalid])
  · rename_i hcond
    refine ⟨fun h => ⟨h, fun hderive hat hunread => absurd ?_ hcond⟩, And.left⟩
    simp [hderive, hat, hunread]

end

namespace OneSuffix

def known (s : Str) : Bool := s = "com".toList

def normalizer : Normalizer := ⟨.ascii, splitSuffix known, fun _ => none⟩

theorem extracts : ExtractsSuffix known normalizer.extract := by
  refine extractsSuffix_splitSuffix fun s hs => ?_
  rw [of_decide_eq_true hs]
  decide

end OneSuffix

end Ingest

end EmailExtractor
