import EmailExtractor.Discovery.SameSite
import EmailExtractor.Ingest.Keys

/-!
# Sites in a path

A host under `wixsite.com` carries many sites, one in each first path segment, so their
crawl keys have the form `host/segment`. The crawl URL of such a key carries the segment,
but discovery goes by the host: it keeps to the segment only as far as the candidates that
are not outbid do, and the fixed paths are outside of it.
-/

namespace EmailExtractor

open Normalize Url List

/-! ## Crawl keys with a path -/

namespace Ingest

/-- What is assumed of the public suffix list and of the encoding of names: neither puts a
delimiter into a host. -/
structure Normalizer.Plain (N : Normalizer) : Prop where
  extract : ∀ host, '/' ∉ host → '/' ∉ (N.extract host).registeredDomain
  idna : ∀ token host path encoded, hostAndPath N.unicode token = some (host, path) →
    N.idna (stripWww N.unicode host) = some encoded → encoded.Disjoint "/?#\t\r\n".toList

section

variable {N : Normalizer} {host path key : Str}

theorem toPunycode_disjoint (hN : N.Plain) {token encoded : Str}
    (h : hostAndPath N.unicode token = some (host, path))
    (hencoded : toPunycode N (stripWww N.unicode host) = some encoded) :
    encoded.Disjoint "/?#\t\r\n".toList := by
  unfold toPunycode at hencoded
  split at hencoded
  · cases hencoded
    exact disjoint_of_subset_left (stripWww_subset _ _)
      (disjoint_of_validHost (hostAndPath_cases h).1)
  · exact hN.idna token host path encoded h hencoded

def firstSegment (path : Str) : Option Str := (path.splitOn '/').find? (· ≠ [])

theorem scoped_key (hN : N.Plain) {raw segment : Str} (hhost : '/' ∉ host)
    (hkey : (normalizeInput N raw).domain = some (host ++ '/' :: segment)) :
    host.Disjoint "/?#\t\r\n".toList ∧ segment ≠ [] ∧
      segment.Disjoint "/?#\t\r\n".toList := by
  obtain ⟨token, host', path, encoded, hparsed, hencoded, hcases⟩ :=
    keyFrom_of_normalizeInput hkey
  have hclean := toPunycode_disjoint hN hparsed hencoded
  have hslash : '/' ∉ encoded := fun hmem => hclean hmem (by decide)
  have hin : '/' ∈ host ++ '/' :: segment := by simp
  rcases hcases with hroot | ⟨suffix, hbuilder⟩
  · rw [hroot] at hin
    exact absurd hin (hN.extract encoded hslash)
  · unfold builderKey at hbuilder
    split at hbuilder
    · split at hbuilder
      · rename_i first hfirst
        -- both sides are cut at their first slash
        have hcut := congrArg (Str.partition '/') hbuilder
        rw [Str.partition_append_cons hhost, Str.partition_append_cons hslash] at hcut
        obtain ⟨rfl, hsegment⟩ := Prod.mk.inj hcut
        obtain rfl : segment = first := (Prod.mk.inj hsegment).2
        have hmem := mem_of_find?_eq_some hfirst
        have hne : segment ≠ [] := by simpa using List.find?_some hfirst
        have hpath := (hostAndPath_cases hparsed).2
        refine ⟨hclean, hne, disjoint_cons_right.mpr ⟨?_, ?_⟩⟩
        · exact Str.notMem_of_mem_splitOn hmem
        · exact fun c hc => hpath (Str.mem_of_mem_splitOn hmem hc)
      · rw [hbuilder] at hin
        exact absurd hin hslash
    · rw [hbuilder] at hin
      exact absurd hin hslash

end

end Ingest

/-! ## The crawl URL of a key with a path -/

namespace Discovery

open Ingest (Normalizer normalizeInput firstSegment scoped_key)

def scopedParts (host segment : Str) : SplitResult :=
  ⟨"https".toList, host, '/' :: (segment ++ ['/']), [], []⟩

theorem isScheme_https : IsScheme "https".toList where
  alpha := ⟨'h', "ttps".toList, rfl, by decide⟩
  chars := all_eq_true.mp (by decide)
  lower := by decide

theorem https_usesNetloc : "https".toList ∈ usesNetloc := by decide

section

variable {host segment : Str}

theorem placed_scopedParts (hhost : host.Disjoint "/?#\t\r\n".toList)
    (hsegment : segment.Disjoint "/?#\t\r\n".toList) : (scopedParts host segment).Placed where
  scheme := .inr isScheme_https
  netloc := hhost
  path := .inr rfl
  pathChars := by
    have hchars : segment.Disjoint "?#\t\r\n".toList :=
      disjoint_of_subset_right (by decide) hsegment
    simp only [scopedParts, disjoint_cons_left, disjoint_append_left]
    exact ⟨by decide, hchars, by decide, disjoint_nil_left _⟩
  queryChars := disjoint_nil_left _
  fragment := rfl
  authority := .inr ⟨cons_ne_nil _ _, https_usesNetloc⟩

theorem crawlUrl_eq (hhost : host.Disjoint "/?#\t\r\n".toList) (hne : segment ≠ [])
    (hsegment : segment.Disjoint "/?#\t\r\n".toList) :
    crawlUrl (host ++ '/' :: segment) "https".toList false =
      urlunsplit (scopedParts host segment) := by
  have hslash : '/' ∉ host := fun hmem => hhost hmem (by decide)
  have hquery : (scopedParts host segment).queryPart = [] := rfl
  rw [urlunsplit_of_placed (placed_scopedParts hhost hsegment), hquery, append_nil, crawlUrl,
    Str.partition_append_cons hslash]
  dsimp only
  rw [if_pos hne, append_assoc, append_assoc]
  rfl

end

def segmentOf (W : Web) (url : Str) : Option Str :=
  (urlsplit W.unicode url).toOption.bind fun parts => firstSegment parts.path

theorem segmentOf_of_urlsplit {W : Web} {url : Str} {parts : SplitResult}
    (h : urlsplit W.unicode url = .ok parts) : segmentOf W url = firstSegment parts.path := by
  rw [segmentOf, h]
  rfl

/-! ## The selected pages -/

namespace Site

variable {W : Web} {own url anchor : Str} {c : ScoredUrl}

theorem segmentOf_target (hU : W.unicode.LawfulLower) (hurl : HasDomain W own url)
    (hscore : scoreUrl W.unicode url anchor = .ok (some c)) :
    segmentOf W c.target = segmentOf W url := by
  obtain ⟨host, hhost, hne, -⟩ := hurl
  obtain ⟨parts, hparts, rfl⟩ := hostOf_ok_iff.mp hhost
  have htarget := urlsplit_target hscore hparts (placed_of_urlsplit hparts (netloc_ne_nil hU hne))
  rw [segmentOf_of_urlsplit htarget, segmentOf_of_urlsplit hparts]

theorem segmentOf_fixedAt {S : Site} {final : SplitResult}
    (hfinal : urlsplit W.unicode S.finalUrl = .ok final) (hscheme : Resolves final) {path : Str}
    (h : FixedAt W final path url c) : segmentOf W c.target = some (path.dropWhile (· = '/')) := by
  obtain ⟨hpath, hurl, hscore⟩ := h
  obtain ⟨hhead, hchars, -⟩ := fixed_reference W.unicode final.scheme hpath
  have hplaced := placed_with_path hfinal hscheme.1 (mem_usesNetloc hscheme.2) hhead hchars
  rw [fallbackUrl_eq hfinal hscheme.1 hscheme.2 hpath] at hurl
  obtain rfl := Except.ok.inj hurl
  have hchecks := checks_of_urlsplit hfinal
  have htarget := urlsplit_target hscore (urlsplit_urlunsplit hplaced hchecks) hplaced
  have hsegments : ∀ path ∈ fixedFallbackPaths,
      firstSegment path = some (path.dropWhile (· = '/')) := by
    decide
  rw [segmentOf_of_urlsplit htarget]
  exact hsegments path hpath

/-- Among the candidates that are not outbid, the links and pages are in the segment, and
there is no fixed path but the segment itself. -/
structure KeepsPath (W : Web) (S : Site) (final : SplitResult) (segment : Str) : Prop where
  found : ∀ u c, S.FoundAt W final u c → S.Stands W final c → segmentOf W u = some segment
  fixed : ∀ path u c, FixedAt W final path u c → S.Stands W final c →
    path.dropWhile (· = '/') = segment

def exampleNormalizer : Normalizer where
  unicode := .ascii
  extract := oneLabelSuffix
  idna _ := none

theorem plain_exampleNormalizer : exampleNormalizer.Plain where
  extract := by
    intro host hhost
    change '/' ∉ (oneLabelSuffix host).registeredDomain
    have hlabel : ∀ label ∈ (host.splitOn '.').reverse, '/' ∉ label := fun label hmem hslash =>
      hhost (Str.mem_of_mem_splitOn (mem_reverse.mp hmem) hslash)
    unfold oneLabelSuffix ExtractResult.registeredDomain
    split
    · rename_i suffix domain sub heq
      rw [heq] at hlabel
      have hsuffix := hlabel suffix (by simp)
      have hdomain := hlabel domain (by simp)
      dsimp only
      split
      · simp [hsuffix, hdomain]
      · exact not_mem_nil
    · exact not_mem_nil
  idna := by
    intro _ _ _ _ _ hencoded
    cases hencoded

def plumbingSite : Site where
  finalUrl := crawlUrl "bob.wixsite.com/plumbing".toList "https".toList false
  html := "links".toList
  robots := []
  rootSitemap := []
  docs _ := []
  limit := 4

def ownLinks : Web :=
  exampleWeb fun _ => [⟨"contact".toList, "Contact".toList⟩, ⟨"about".toList, "About".toList⟩]

def otherLinks : Web :=
  exampleWeb fun _ => [⟨"/catering/contact".toList, "Contact".toList⟩]

theorem plumbing_key :
    (normalizeInput exampleNormalizer "https://bob.wixsite.com/plumbing".toList).domain =
      some ("bob.wixsite.com".toList ++ '/' :: "plumbing".toList) := by
  decide +kernel

theorem ownLinks_targets :
    ((plumbingSite.discover ownLinks).toOption.map
      fun found => found.1.map ScoredUrl.target) =
      some (["https://bob.wixsite.com/plumbing/contact",
        "https://bob.wixsite.com/plumbing/about"].map String.toList) := by
  decide +kernel

theorem plumbing_keepsPath {final : SplitResult}
    (hfinal : urlsplit ownLinks.unicode plumbingSite.finalUrl = .ok final)
    (hscheme : Resolves final) : plumbingSite.KeepsPath ownLinks final "plumbing".toList := by
  have hsettled : settled (plumbingSite.candidates ownLinks) = true := by decide +kernel
  have hlinks : ∀ l ∈ plumbingSite.links ownLinks,
      segmentOf ownLinks l.1 = some "plumbing".toList := by
    decide +kernel
  have hcandidates : ∀ c ∈ plumbingSite.candidates ownLinks,
      segmentOf ownLinks c.target = some "plumbing".toList := by
    decide +kernel
  constructor
  · rintro u c ⟨anchor, hlink | ⟨hopen, -⟩, -⟩ -
    · exact hlinks (u, anchor) hlink
    · rw [hsettled] at hopen
      cases hopen
  · intro path u c hfixed hstands
    have hoffered := (isBest_of_mem_best hstands.1).1
    rw [offered, if_pos hsettled] at hoffered
    have hsegment := hcandidates c hoffered
    rw [segmentOf_fixedAt hfinal hscheme hfixed] at hsegment
    exact Option.some.inj hsegment

end Site

end Discovery

end EmailExtractor
