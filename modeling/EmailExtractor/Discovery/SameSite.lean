import EmailExtractor.Discovery.Offered

/-!
# The site of the selected pages

The links of the homepage and the pages of the sitemaps pass a test on the registrable
domain of the host, and the fixed paths are built from the final URL. So a selected page is
on the business's own site, as far as the site has a registrable domain: the registrable
domains of two hosts are also equal when neither host has one. The fixed paths lose the host
if `urljoin` does not resolve the scheme of the final URL.
-/

namespace EmailExtractor

namespace Discovery

open Url Normalize List

variable {W : Web} {own url : Str}

/-! ## The tests -/

def HasDomain (W : Web) (own url : Str) : Prop :=
  ∃ host, hostOf W url = .ok host ∧ host ≠ [] ∧ registrable W.extract host = own

theorem hasDomain_of_sameSite (h : sameSite W own url = .ok true) : HasDomain W own url := by
  rw [sameSite, Except.bind_eq_ok] at h
  obtain ⟨host, hhost, h⟩ := h
  have htest : host ≠ [] ∧ registrable W.extract host = own := by
    simpa [pure, Except.pure] using h
  exact ⟨host, hhost, htest⟩

theorem hasDomain_of_keptLink {base : Str} {node : Anchor} {l : Str × Str}
    (h : l ∈ keptLink W own base node) : HasDomain W own l.1 := by
  unfold keptLink readLink at h
  cases hhref : linkHref W node with
  | none => simp [hhref, Except.toOption] at h
  | some href =>
    cases hu : resolve W base href with
    | error e => simp [hhref, hu, Except.toOption] at h
    | ok u =>
      cases hs : urlsplit W.unicode u with
      | error e => simp [hhref, hu, hs, bind, Except.bind, Except.toOption] at h
      | ok parts =>
        simp only [hhref, hu, hs, bind, Except.bind, pure, Except.pure] at h
        split at h
        · cases h
        · split at h
          · cases h
          · rename_i htest
            cases h
            rw [not_or, not_ne_iff] at htest
            exact ⟨_, hostOf_ok_iff.mpr ⟨parts, hs, rfl⟩, htest⟩

def Walk.OnSite (W : Web) (own : Str) (w : Walk) : Prop := ∀ u ∈ w.pages, HasDomain W own u

theorem addPages_onSite {w v : Walk} {us : List Str} (hw : w.OnSite W own)
    (h : addPages W own w us = .ok v) : v.OnSite W own := by
  induction us generalizing w with
  | nil =>
    cases h
    exact hw
  | cons u us ih =>
    obtain ⟨same, pages, hsame, hpages, hcases⟩ := addPages_cons_cases h
    have hall : ∀ u ∈ pages, HasDomain W own u := by
      rw [hpages]
      cases same with
      | false => exact hw
      | true =>
        intro v hv
        rcases mem_append.mp hv with hv | hv
        · exact hw v hv
        · rw [mem_singleton.mp hv]
          exact hasDomain_of_sameSite hsame
    rcases hcases with ⟨-, rfl⟩ | ⟨-, hrest⟩
    · exact hall
    · exact ih (w := { w with pages := pages }) hall hrest

theorem readDoc_onSite {w v : Walk} {text : Str} {depth : ℕ} (hw : w.OnSite W own)
    (h : readDoc W own w text depth = .ok v) : v.OnSite W own := by
  rcases readEntries_cases h with ⟨-, hpages⟩ | ⟨-, -, rfl⟩ | ⟨-, -, -, rfl⟩
  · exact addPages_onSite hw hpages
  · exact hw
  · exact hw

theorem run_fetchDocs_onSite {docs : Str → Str} {budget : ℕ} {seen : List Str} {w : Walk}
    (hfull : w.full = false) (hw : w.OnSite W own) {pages : List Str}
    (h : (fetchDocs W own budget seen w).run docs = .ok pages) :
    ∀ u ∈ pages, HasDomain W own u := by
  induction budget generalizing seen w with
  | zero =>
    cases h
    exact hw
  | succ budget ih =>
    rcases run_fetchDocs_cases hfull h with ⟨-, rfl⟩ | ⟨u, depth, queue, v, -, hread, hcases⟩
    · exact hw
    · have hv : v.OnSite W own := readDoc_onSite (w := ⟨w.pages, queue, w.full⟩) hw hread
      rcases hcases with ⟨-, rfl⟩ | ⟨hvfull, hrest⟩
      · exact hv
      · exact ih hvfull hv hrest

namespace Site

variable {S : Site} {final : SplitResult} {chosen : List ScoredUrl} {diag : Diag}

theorem hasDomain_of_mem_links (hfinal : urlsplit W.unicode S.finalUrl = .ok final)
    (h : S.discover W = .ok (chosen, diag)) {l : Str × Str} (hl : l ∈ S.links W) :
    HasDomain W (ownDomain W final) l.1 := by
  have hnodes := (links_of_discover hfinal (Except.isOk_iff.mpr ⟨_, h⟩)).1
  rw [discover_eq hfinal, Except.bind_eq_ok] at h
  obtain ⟨links, hlinks, -⟩ := h
  rw [Site.links, toOption_getD_of_eq hlinks] at hl
  rw [extractLinks_eq hfinal] at hlinks
  obtain ⟨node, -, hkept⟩ := linkLoop_mem hnodes hlinks l hl
  exact hasDomain_of_keptLink hkept

theorem hasDomain_of_mem_pages {u : Str} (hu : u ∈ S.pages W own) : HasDomain W own u := by
  unfold pages at hu
  cases hpages : S.sitemapPages W own with
  | error e =>
    rw [hpages] at hu
    cases hu
  | ok pages =>
    rw [hpages] at hu
    rw [sitemapPages, Except.bind_eq_ok] at hpages
    obtain ⟨seeds, -, hrun⟩ := hpages
    rw [run_collectSitemapUrls, Except.bind_eq_ok] at hrun
    obtain ⟨w, hread, hrun⟩ := hrun
    have hw : w.OnSite W own :=
      readDoc_onSite (w := ⟨[], seeds.map (·, 0), false⟩) (by simp [Walk.OnSite]) hread
    split at hrun
    · cases hrun
      exact hw u hu
    · rename_i hfull
      exact run_fetchDocs_onSite (by simpa using hfull) hw hrun u hu

theorem hasDomain_of_foundAt (hfinal : urlsplit W.unicode S.finalUrl = .ok final)
    (h : S.discover W = .ok (chosen, diag)) {c : ScoredUrl} (hfound : S.FoundAt W final url c) :
    HasDomain W (ownDomain W final) url := by
  obtain ⟨anchor, hfind, -⟩ := hfound
  rcases hfind with hlink | ⟨-, hpage, -⟩
  · exact hasDomain_of_mem_links hfinal h (l := (url, anchor)) hlink
  · exact hasDomain_of_mem_pages hpage

end Site

/-! ## The URL to fetch -/

theorem urlsplit_target {U : Unicode} {anchor : Str} {c : ScoredUrl} {parts : SplitResult}
    (h : scoreUrl U url anchor = .ok (some c)) (hparts : urlsplit U url = .ok parts)
    (hplaced : SplitResult.Placed { parts with fragment := [] }) :
    urlsplit U c.target = .ok { parts with fragment := [] } := by
  obtain ⟨parts', _, hparts', -, -, -, -, -, -, -, -, hfetch⟩ := scoreUrl_cases h
  obtain rfl : parts = parts' := by
    rw [hparts] at hparts'
    exact Except.ok.inj hparts'
  have htarget : c.target = urlunsplit { parts with fragment := [] } := by
    rw [ScoredUrl.target, hfetch, if_pos (urlunsplit_ne_nil hplaced)]
  have hchecks := checks_of_urlsplit hparts
  rw [htarget, urlsplit_urlunsplit hplaced hchecks]

theorem lower_nil {U : Unicode} (hU : U.LawfulLower) : U.lower [] = [] :=
  hU.eq_self [] (by simp)

theorem netloc_ne_nil (hU : W.unicode.LawfulLower) {parts : SplitResult}
    (h : W.unicode.lower (parts.hostname W.unicode) ≠ []) : parts.netloc ≠ [] := by
  intro hnil
  refine h ?_
  have hhost : parts.hostname W.unicode = W.unicode.lower [] ++ [] := by
    rw [SplitResult.hostname, hnil]
    rfl
  rw [hhost, lower_nil hU, append_nil, lower_nil hU]

theorem mem_usesNetloc {scheme : Str} (h : scheme ∈ usesRelative) : scheme ∈ usesNetloc := by
  have hsubset : usesRelative ⊆ usesNetloc := by decide
  exact hsubset h

theorem fixed_reference (U : Unicode) (scheme : Str) {path : Str}
    (h : path ∈ fixedFallbackPaths) :
    path.head? = some '/' ∧ path.Disjoint "?#\t\r\n".toList ∧
      path.dropWhile (· = '/') ≠ [] ∧ ';' ∉ path.dropWhile (· = '/') ∧
      urlsplitWith U (path.dropWhile (· = '/')) scheme =
        .ok ⟨scheme, [], path.dropWhile (· = '/'), [], []⟩ ∧
      joinPath ['/'] (path.dropWhile (· = '/')) = path ∧ '/' ∉ path.dropWhile (· = '/') ∧
      path.dropWhile (· = '/') ≠ ".".toList ∧ path.dropWhile (· = '/') ≠ "..".toList := by
  have hcases : path = "/contact".toList ∨ path = "/contact-us".toList ∨
      path = "/about".toList ∨ path = "/about-us".toList := by
    simpa [fixedFallbackPaths] using h
  rcases hcases with rfl | rfl | rfl | rfl
  all_goals
    refine ⟨rfl, ?_, by decide, by decide, rfl, by decide⟩
    simp

theorem fallbackUrl_eq {final : SplitResult} {finalUrl path : Str}
    (hfinal : urlsplit W.unicode finalUrl = .ok final) (hscheme : final.scheme ≠ [])
    (hrelative : final.scheme ∈ usesRelative) (hpath : path ∈ fixedFallbackPaths) :
    fallbackUrl W final path =
      .ok (urlunsplit ⟨final.scheme, final.netloc, path, [], []⟩) := by
  have huses := mem_usesNetloc hrelative
  obtain ⟨-, -, hne, hparams, hsplit, hjoin, -⟩ := fixed_reference W.unicode final.scheme hpath
  have hchecks := checks_of_urlsplit hfinal
  have hroot : SplitResult.Placed ⟨final.scheme, final.netloc, ['/'], [], []⟩ :=
    placed_with_path hfinal hscheme huses rfl (by simp)
  have hbase : final.scheme ++ "://".toList ++ final.netloc ++ ['/'] =
      urlunsplit ⟨final.scheme, final.netloc, ['/'], [], []⟩ := by
    rw [urlunsplit_of_placed hroot]
    simp [SplitResult.schemePart, SplitResult.queryPart, hscheme]
  rw [fallbackUrl, hbase,
    urljoin_path hroot hchecks (by simp) hrelative huses hne hparams hsplit, hjoin]

/-! ## The site -/

namespace Site

/-- The host of the URL is the host of the final URL, or both have the same registrable
domain. -/
def Owns (W : Web) (S : Site) (url : Str) : Prop :=
  ∃ host own, hostOf W url = .ok host ∧ hostOf W S.finalUrl = .ok own ∧
    (host = own ∨
      registrable W.extract host = registrable W.extract own ∧ registrable W.extract own ≠ [])

variable {S : Site} {final : SplitResult} {anchor : Str} {c : ScoredUrl}

theorem hostOf_target (hU : W.unicode.LawfulLower) (hurl : HasDomain W own url)
    (hscore : scoreUrl W.unicode url anchor = .ok (some c)) :
    hostOf W c.target = hostOf W url := by
  obtain ⟨host, hhost, hne, -⟩ := hurl
  obtain ⟨parts, hparts, rfl⟩ := hostOf_ok_iff.mp hhost
  have htarget := urlsplit_target hscore hparts (placed_of_urlsplit hparts (netloc_ne_nil hU hne))
  rw [hhost]
  exact hostOf_ok_iff.mpr ⟨_, htarget, rfl⟩

/-- A URL that passed the test of discovery is on the site, if the site has a registrable
domain. -/
theorem owns_of_hasDomain (hU : W.unicode.LawfulLower)
    (hfinal : urlsplit W.unicode S.finalUrl = .ok final) (hown : ownDomain W final ≠ [])
    (hurl : HasDomain W (ownDomain W final) url)
    (hscore : scoreUrl W.unicode url anchor = .ok (some c)) : S.Owns W c.target := by
  have htarget := hostOf_target hU hurl hscore
  obtain ⟨host, hhost, -, hdomain⟩ := hurl
  exact ⟨host, _, htarget.trans hhost, hostOf_ok_iff.mpr ⟨final, hfinal, rfl⟩,
    .inr ⟨hdomain, hown⟩⟩

/-- The fixed paths are on the host of the final URL, if its scheme is one that `urljoin`
resolves. -/
theorem owns_of_fallbackUrl (hfinal : urlsplit W.unicode S.finalUrl = .ok final)
    (hscheme : final.scheme ≠ []) (hrelative : final.scheme ∈ usesRelative) {path : Str}
    (hpath : path ∈ fixedFallbackPaths) (hurl : fallbackUrl W final path = .ok url)
    (hscore : scoreUrl W.unicode url anchor = .ok (some c)) : S.Owns W c.target := by
  obtain ⟨hhead, hchars, -⟩ := fixed_reference W.unicode final.scheme hpath
  have hplaced := placed_with_path hfinal hscheme (mem_usesNetloc hrelative) hhead hchars
  have hchecks := checks_of_urlsplit hfinal
  rw [fallbackUrl_eq hfinal hscheme hrelative hpath] at hurl
  obtain rfl := Except.ok.inj hurl
  have htarget := urlsplit_target hscore (urlsplit_urlunsplit hplaced hchecks) hplaced
  exact ⟨_, _, hostOf_ok_iff.mpr ⟨_, htarget, rfl⟩, hostOf_ok_iff.mpr ⟨final, hfinal, rfl⟩,
    .inl rfl⟩

/-- The scheme of the final URL is one that `urljoin` resolves. -/
def Resolves (final : SplitResult) : Prop := final.scheme ≠ [] ∧ final.scheme ∈ usesRelative

theorem hostOf_of_netloc_nil (hU : W.unicode.LawfulLower) {parts : SplitResult}
    (hparts : urlsplit W.unicode url = .ok parts) (hnil : parts.netloc = []) :
    hostOf W url = .ok [] := by
  refine hostOf_ok_iff.mpr ⟨parts, hparts, ?_⟩
  by_contra hne
  exact netloc_ne_nil hU hne hnil

/-- If `urljoin` does not resolve the scheme, a fixed path is left without a host. -/
theorem hostOf_fixedAt (hU : W.unicode.LawfulLower)
    (hfinal : urlsplit W.unicode S.finalUrl = .ok final) (hscheme : ¬ Resolves final)
    {path : Str} (h : FixedAt W final path url c) : hostOf W c.target = .ok [] := by
  obtain ⟨hpath, hurl, hscore⟩ := h
  obtain ⟨-, -, hne, hparams, hsplit, -⟩ := fixed_reference W.unicode final.scheme hpath
  obtain ⟨-, -, -, -, hplain, -, hslash, hdots⟩ := fixed_reference W.unicode [] hpath
  have hcases : url = path.dropWhile (· = '/') ∨ ∃ s, url = ':' :: s := by
    have hnetloc := netloc_of_urlsplit hfinal
    rw [fallbackUrl, append_assoc _ final.netloc] at hurl
    rcases scheme_of_urlsplit hfinal with hnil | hname
    · rw [hnil] at hurl
      rcases urljoin_of_colon hnetloc hne hslash hdots hparams hplain with hjoin | ⟨s, hjoin⟩
      · exact .inl (Except.ok.inj (hurl.symm.trans hjoin))
      · exact .inr ⟨s, Except.ok.inj (hurl.symm.trans hjoin)⟩
    · obtain ⟨query, fragment, hbase⟩ :=
        urlsplit_location hname hnetloc (.inr ⟨[], rfl⟩) (checks_of_urlsplit hfinal)
      have hrelative : final.scheme ∉ usesRelative := by
        obtain ⟨a, s, heq, -⟩ := hname.alpha
        exact fun hmem => hscheme ⟨by simp [heq], hmem⟩
      have hparse := urlparse_of_urlsplitWith hbase (show ';' ∉ pathOf ['/'] by decide)
      rw [urljoin_of_urlparse (by simp) hne hparams hparse hsplit, if_neg hrelative] at hurl
      exact .inl (Except.ok.inj hurl).symm
  obtain ⟨parts, _, hparts, -, -, -, -, -, -, -, -, hfetch⟩ := scoreUrl_cases hscore
  rcases hcases with rfl | ⟨s, rfl⟩
  · obtain rfl := Except.ok.inj (hparts.symm.trans hplain)
    have htarget : c.target = path.dropWhile (· = '/') := by
      have hunsplit := urlunsplit_path (fun hhead => hslash (mem_of_mem_head? hhead)) []
      rw [ScoredUrl.target, hfetch, hunsplit]
      simp [hne]
    rw [htarget]
    exact hostOf_of_netloc_nil hU hplain rfl
  · obtain ⟨query, fragment, hcolon⟩ := urlsplit_colon (U := W.unicode) s
    obtain rfl := Except.ok.inj (hparts.symm.trans hcolon)
    have htarget : ∃ s', c.target = ':' :: s' := by
      rw [ScoredUrl.target, hfetch, urlunsplit_path (by simp), if_pos (by simp)]
      exact ⟨_, rfl⟩
    obtain ⟨s', htarget⟩ := htarget
    obtain ⟨_, _, hcolon⟩ := urlsplit_colon (U := W.unicode) s'
    rw [htarget]
    exact hostOf_of_netloc_nil hU hcolon rfl

/-- Among the candidates that are not outbid, the links and pages of a site without a
registrable domain are on its host, and none is a fixed path that has lost the host. -/
structure KeepsHost (W : Web) (S : Site) (final : SplitResult) : Prop where
  found : ownDomain W final = [] → ∀ u c, S.FoundAt W final u c → S.Stands W final c →
    hostOf W u = hostOf W S.finalUrl
  fixed : ¬ Resolves final → hostOf W S.finalUrl ≠ .ok [] →
    ∀ path u c, FixedAt W final path u c → ¬ S.Stands W final c

def sitemapSite : Site :=
  exampleSite "" "Sitemap: https://acme.com/s.xml" "" "<loc>https://www.acme.com/team</loc>"

theorem sitemapSite_targets :
    ((sitemapSite.discover (exampleWeb exampleLinks)).toOption.map
      fun found => found.1.map ScoredUrl.target) =
      some (["https://acme.com/contact", "https://acme.com/contact-us",
        "https://www.acme.com/team", "https://acme.com/about"].map String.toList) := by
  decide +kernel

theorem sitemapSite_keepsHost : sitemapSite.KeepsHost (exampleWeb exampleLinks) exampleFinal :=
  ⟨fun hown => absurd hown (by decide +kernel),
    fun hscheme => absurd ⟨by decide, by decide⟩ hscheme⟩

/-- A document with links to another address, read by tools that know no suffix of an
address. -/
def addressWeb : Web where
  unicode := .ascii
  extract host := ⟨[], host, []⟩
  anchors _ := [⟨"http://5.6.7.8/contact".toList, "Contact".toList⟩,
    ⟨"http://5.6.7.8/about".toList, "About".toList⟩]
  unescape := id

def addressSite : Site where
  finalUrl := "http://1.2.3.4/".toList
  html := "links".toList
  robots := []
  rootSitemap := []
  docs _ := []
  limit := 4

end Site

end Discovery

end EmailExtractor
