import EmailExtractor.Pipeline.Accept
import EmailExtractor.Pipeline.Choice
import EmailExtractor.Pipeline.Emails
import EmailExtractor.Pipeline.Harvest

/-!
# Where the addresses of a result come from

An address travels from a page through the candidates of the page, the merged
candidates, the ranking, the addresses the judge is asked about and the judgment into
the result. Each of these is keyed by the address as `_accept` returns it, so every
address of a harvested result was found on a fetched page, and the status says whether
there is one.
-/

namespace EmailExtractor

namespace Pipeline

open List

/-- The readers of `app/pipeline`; how the documents are parsed and matched is arbitrary,
and so is what reads phones, socials and forms. -/
def siteReaders (T : PageTools) (P : Patterns) (K : RankTools) (others : Extractors) :
    Extractors :=
  { others with
    extractPage := fun html url =>
      .ok (Pipeline.extractPage { T with accept := Pipeline.accept T.unicode P } html url)
    mergePages := Pipeline.mergePages
    rankCandidates := Pipeline.rankCandidates K }

/-- The candidate has an address in lower case and was found on some of the pages. -/
structure Sourced (U : Unicode) (urls : List Str) (c : EmailCandidate) : Prop where
  email_ne : c.email ≠ []
  lower : U.lower c.email = c.email
  sources_ne : c.sourceUrls ≠ []
  sources : c.sourceUrls ⊆ urls

/-! ## The candidates of a page -/

section Page

variable {U : Unicode} {T : PageTools} {urls : List Str}

theorem Sourced.mono {urls' : List Str} {c : EmailCandidate} (h : Sourced U urls c)
    (hsub : urls ⊆ urls') : Sourced U urls' c :=
  ⟨h.email_ne, h.lower, h.sources_ne, fun _ hu => hsub (h.sources hu)⟩

theorem addFound_sourced (haccept : ∀ raw e, T.accept raw = some e → U.lower e = e)
    (cfEmails : List Str) (url raw : Str) (method : ExtractionMethod) {f : Found}
    (hf : ∀ item ∈ f.candidates, Sourced U [url] item.2) :
    ∀ item ∈ (addFound T cfEmails url f raw method).candidates, Sourced U [url] item.2 := by
  intro item hitem
  unfold addFound at hitem
  split at hitem
  · exact hf item hitem
  · rename_i email hemail
    obtain ⟨hemail, hne⟩ := Option.filter_eq_some_iff.mp hemail
    split at hitem
    · rcases Dict.mem_of_mem_set hitem with rfl | hitem
      · exact ⟨by simpa using hne, haccept raw email hemail, cons_ne_nil _ _,
          List.Subset.refl _⟩
      · exact hf item hitem
    · rename_i old hold
      dsimp only at hitem
      split at hitem
      · rcases Dict.mem_of_mem_set hitem with rfl | hitem
        · -- only the method changes
          have hsourced := hf _ (Dict.mem_of_get? hold)
          exact ⟨hsourced.email_ne, hsourced.lower, hsourced.sources_ne, hsourced.sources⟩
        · exact hf item hitem
      · exact hf item hitem

theorem extractPage_sourced (haccept : ∀ raw e, T.accept raw = some e → U.lower e = e)
    (html url : Str) : ∀ c ∈ (extractPage T html url).1, Sourced U [url] c := by
  have hfold : ∀ (cfEmails : List Str) (sources : List (Str × ExtractionMethod)),
      ∀ item ∈ (sources.foldl (fun f source => addFound T cfEmails url f source.1 source.2)
        {}).candidates, Sourced U [url] item.2 := by
    intro cfEmails sources
    refine List.foldlRecOn
      (motive := fun f : Found => ∀ item ∈ f.candidates, Sourced U [url] item.2) sources _
      (fun _ h => absurd h not_mem_nil) ?_
    exact fun f hf source _ => addFound_sourced haccept cfEmails url source.1 source.2 hf
  intro c hc
  unfold extractPage at hc
  split at hc
  · exact absurd hc not_mem_nil
  · obtain ⟨c', hc', rfl⟩ := mem_map.mp hc
    obtain ⟨item, hitem, rfl⟩ := mem_map.mp (mem_mergeSort.mp hc')
    have hsourced := hfold _ _ item hitem
    exact ⟨hsourced.email_ne, hsourced.lower, hsourced.sources_ne, hsourced.sources⟩

end Page

/-! ## Merging the pages -/

section Merge

variable {U : Unicode} {urls : List Str}

/-- The dictionary of `merge_pages`: each address once, under itself. -/
structure Merged (U : Unicode) (urls : List Str) (merged : Dict Str EmailCandidate) : Prop where
  nodup : (merged.map Prod.fst).Nodup
  key : ∀ item ∈ merged, item.2.email = item.1
  sourced : ∀ item ∈ merged, Sourced U urls item.2

theorem Merged.nil : Merged U urls [] :=
  ⟨nodup_nil, fun _ h => absurd h not_mem_nil, fun _ h => absurd h not_mem_nil⟩

theorem Merged.set {merged : Dict Str EmailCandidate} {c : EmailCandidate}
    (h : Merged U urls merged) (hc : Sourced U urls c) :
    Merged U urls (Dict.set c.email c merged) where
  nodup := Dict.nodup_keys_set _ _ h.nodup
  key := by
    intro item hitem
    rcases Dict.mem_of_mem_set hitem with rfl | hitem
    · rfl
    · exact h.key item hitem
  sourced := by
    intro item hitem
    rcases Dict.mem_of_mem_set hitem with rfl | hitem
    · exact hc
    · exact h.sourced item hitem

theorem Sourced.merge {old c : EmailCandidate} (hold : Sourced U urls old)
    (hc : Sourced U urls c) : Sourced U urls (mergeCandidate old c) := by
  have hmem : ∀ u, u ∈ (mergeCandidate old c).sourceUrls ↔ u ∈ old.sourceUrls ∨ u ∈ c.sourceUrls :=
    fun u => Distinct.mem_foldl_appendNew
  refine ⟨hold.email_ne, hold.lower, ?_, fun u hu => ?_⟩
  · obtain ⟨u, hu⟩ := exists_mem_of_ne_nil _ hold.sources_ne
    exact ne_nil_of_mem ((hmem u).mpr (.inl hu))
  · exact ((hmem u).mp hu).elim (fun h => hold.sources h) fun h => hc.sources h

theorem Merged.mergeInto {merged : Dict Str EmailCandidate} {c : EmailCandidate}
    (pageIndex : ℕ) (h : Merged U urls merged) (hc : Sourced U urls c) :
    Merged U urls (mergeInto pageIndex merged c) := by
  unfold Pipeline.mergeInto
  split
  · exact h.set (c := { c with order := pageIndex * 10000 + c.order })
      ⟨hc.email_ne, hc.lower, hc.sources_ne, hc.sources⟩
  · rename_i old hold
    have hmem := Dict.mem_of_get? hold
    have hemail : (mergeCandidate old c).email = c.email := h.key _ hmem
    rw [← hemail]
    exact h.set ((h.sourced _ hmem).merge hc)

theorem mergePages_sourced {perPage : List (List EmailCandidate)}
    (h : ∀ page ∈ perPage, ∀ c ∈ page, Sourced U urls c) :
    ((mergePages perPage).map EmailCandidate.email).Nodup ∧
      ∀ c ∈ mergePages perPage, Sourced U urls c := by
  have hmerged : Merged U urls (perPage.zipIdx.foldl
      (fun merged page => page.1.foldl (mergeInto page.2) merged) []) := by
    refine List.foldlRecOn perPage.zipIdx _ .nil fun merged hmerged page hpage => ?_
    refine List.foldlRecOn page.1 _ hmerged fun merged hmerged c hc => ?_
    exact hmerged.mergeInto page.2 (h page.1 (fst_mem_of_mem_zipIdx hpage) c hc)
  constructor
  · refine ((mergeSort_perm _ _).map EmailCandidate.email).nodup_iff.mpr ?_
    rw [map_map]
    exact (map_congr_left hmerged.key).symm ▸ hmerged.nodup
  · intro c hc
    obtain ⟨item, hitem, rfl⟩ := mem_map.mp (mem_mergeSort.mp hc)
    exact hmerged.sourced item hitem

end Merge

/-! ## The ranked addresses -/

/-- The ranked addresses are distinct, within the cap, and found on the pages. -/
structure Provenance (U : Unicode) (urls : List Str) (ranked : List RankedEmail) : Prop where
  nodup : (ranked.map RankedEmail.email).Nodup
  length_le : ranked.length ≤ maxCandidates
  sourced : ∀ r ∈ ranked, Sourced U urls r.candidate

section Ranked

variable {U : Unicode} {urls : List Str} {T : PageTools} {P : Patterns} {K : RankTools}
  {others : Extractors} {s : Scratch} {x : Extracted}

theorem Provenance.sublist {ranked ranked' : List RankedEmail} (h : Provenance U urls ranked)
    (hsub : ranked'.Sublist ranked) : Provenance U urls ranked' :=
  ⟨h.nodup.sublist (hsub.map _), hsub.length_le.trans h.length_le,
    fun r hr => h.sourced r (hsub.mem hr)⟩

theorem rankCandidates_provenance {candidates : List EmailCandidate}
    (hnodup : (candidates.map EmailCandidate.email).Nodup)
    (hsourced : ∀ c ∈ candidates, Sourced U urls c) (site : Str) (scores : Dict Str ℤ) :
    Provenance U urls (rankCandidates K candidates site scores) := by
  let kept := candidates.filter fun c => (shouldDrop K c.email).isNone
  have hkept : kept.Sublist candidates := filter_sublist
  have hemails : (kept.map (classify K site)).map RankedEmail.email =
      kept.map EmailCandidate.email := by
    rw [map_map]
    rfl
  refine ⟨?_, length_take_le _ _, fun r hr => ?_⟩
  · refine List.Nodup.sublist ((take_sublist _ _).map _) ?_
    refine ((mergeSort_perm _ _).map RankedEmail.email).nodup_iff.mpr ?_
    rw [hemails]
    exact hnodup.sublist (hkept.map _)
  · obtain ⟨c, hc, rfl⟩ := mem_map.mp (mem_mergeSort.mp (mem_of_mem_take hr))
    exact hsourced c (hkept.mem hc)

theorem gatherPages_perPage {pages : List Page} {g g' : Gathered}
    (h : gatherPages (siteReaders T P K others) g pages = .ok g') :
    g'.perPage = g.perPage ++ pages.map fun page =>
      (extractPage { T with accept := accept T.unicode P } page.html page.url).1 := by
  induction pages generalizing g with
  | nil =>
    rw [← Except.ok.inj h]
    simp
  | cons page pages ih =>
    rw [gatherPages] at h
    obtain ⟨⟨candidates, text, title⟩, hpage, h⟩ := Except.bind_eq_ok.mp h
    obtain ⟨phones, -, h⟩ := Except.bind_eq_ok.mp h
    obtain ⟨socials, -, h⟩ := Except.bind_eq_ok.mp h
    have hcandidates := congrArg Prod.fst (Except.ok.inj hpage)
    dsimp only at hcandidates
    rw [ih h, map_cons, hcandidates, append_assoc, singleton_append]

theorem extractPages_provenance (hU : T.unicode.LawfulLower)
    (h : extractPages (siteReaders T P K others) s = .ok x) :
    Provenance T.unicode (s.pages.map Page.url) x.ranked := by
  obtain ⟨g, hg, h⟩ := Except.bind_eq_ok.mp h
  obtain ⟨form, -, h⟩ := Except.bind_eq_ok.mp h
  have hperPage := gatherPages_perPage hg
  have hpages : ∀ page ∈ g.perPage, ∀ c ∈ page,
      Sourced T.unicode (s.pages.map Page.url) c := by
    intro page hpage c hc
    rw [hperPage] at hpage
    obtain ⟨p, hp, rfl⟩ := mem_map.mp hpage
    have hpage := extractPage_sourced (fun raw e he => lower_of_accept hU he) p.html p.url c hc
    exact hpage.mono fun u hu => mem_singleton.mp hu ▸ mem_map_of_mem hp
  obtain ⟨hnodup, hsourced⟩ := mergePages_sourced hpages
  rw [← Except.ok.inj h]
  exact (rankCandidates_provenance hnodup hsourced _ _).sublist filter_sublist

end Ranked

/-! ## The judgment -/

/-- The judgment is about the ranked addresses, and names its source if it picks one. -/
structure Judgment.Within (ranked : List RankedEmail) (j : Judgment) : Prop where
  best : ∀ e ∈ j.bestEmail, e ∈ ranked.map RankedEmail.email
  business : ∀ e ∈ j.businessEmails, e ∈ ranked.map RankedEmail.email
  source : j.bestEmail.isSome → j.bestEmailSource.isSome
  site : ∃ text, siteStatusText j.siteStatus = .ok text

/-- What `judge` can return for the ranked addresses if the answers it gets are of the
expected types. -/
def JudgedFor (U : Unicode) (F : Floats) (settings : JudgeSettings) (ranked : List RankedEmail)
    (j : Judgment) : Prop :=
  ∃ post domain pageTitle, (∀ body answers, post body = some answers → WellTyped F answers) ∧
    judge U F settings post ranked domain pageTitle = .ok j

section Judge

variable {U : Unicode} {F : Floats} {settings : JudgeSettings} {ranked : List RankedEmail}
  {j : Judgment}

theorem rulesOnly_within (ranked : List RankedEmail) : (rulesOnly ranked).Within ranked := by
  cases ranked with
  | nil => exact ⟨by simp [rulesOnly], by simp [rulesOnly], by simp [rulesOnly], none, rfl⟩
  | cons r rs =>
    refine ⟨fun e he => ?_, fun e he => ?_, fun _ => rfl, none, rfl⟩
    · rw [← Option.some.inj he]
      exact mem_cons_self ..
    · exact (filter_sublist.map RankedEmail.email).mem he

theorem mem_of_mem_judgedEmails (hlower : ∀ r ∈ ranked, U.lower r.email = r.email) {e : Str}
    (he : e ∈ judgedEmails U ranked) : e ∈ ranked.map RankedEmail.email := by
  rw [judgedEmails_eq] at he
  have he' := mem_eraseDups.mp (mem_of_mem_take he)
  rwa [lowerEmails, map_congr_left hlower] at he'

theorem verdict_within {choice : Str} {confidence : PyFloat} {belongs : Dict Str PyFloat}
    {site : Json} {emails : List Str} (hlower : ∀ r ∈ ranked, U.lower r.email = r.email)
    (hemails : ∀ e ∈ emails, e ∈ ranked.map RankedEmail.email)
    (hsite : ∃ text, siteStatusText site = .ok text) :
    (verdict U settings choice confidence belongs site emails ranked).Within ranked := by
  have hbusiness : ∀ p : Str → Bool, ∀ e ∈ emails.filter p,
      e ∈ ranked.map RankedEmail.email :=
    fun p e he => hemails e (mem_filter.mp he).1
  unfold verdict
  dsimp only
  split
  · rename_i hpick
    refine ⟨fun e he => ?_, hbusiness _, fun _ => rfl, hsite⟩
    rw [← Option.some.inj he]
    simp only [Bool.and_eq_true, contains_iff_mem] at hpick
    exact hemails choice hpick.1.1
  split
  · exact ⟨fun e he => absurd he (by simp), hbusiness _, fun h => absurd h (by simp), hsite⟩
  · refine ⟨fun e he => ?_, hbusiness _, fun _ => ?_, hsite⟩
    · dsimp only at he
      cases hhead : ranked.head? with
      | none => simp [hhead] at he
      | some r =>
        have hr := mem_of_mem_head? hhead
        simp only [hhead, Option.map_some] at he
        split_ifs at he
        · exact hbusiness _ e (mem_of_mem_head? he)
        · rw [← Option.some.inj he, hlower r hr]
          exact mem_map_of_mem hr
    · dsimp only
      split_ifs <;> rfl

theorem siteStatusText_ok {site : Json} (h : site = .null ∨ site.IsText) :
    ∃ text, siteStatusText site = .ok text := by
  rcases h with rfl | ⟨s, rfl⟩
  · exact ⟨none, rfl⟩
  · exact ⟨some s, rfl⟩

theorem judgedFor_within (hlower : ∀ r ∈ ranked, U.lower r.email = r.email)
    (h : JudgedFor U F settings ranked j) : j.Within ranked := by
  obtain ⟨post, domain, pageTitle, hpost, h⟩ := h
  unfold judge at h
  split_ifs at h with hcall
  · rw [← Except.ok.inj h]
    exact rulesOnly_within ranked
  · dsimp only at h
    split at h
    · -- a call that raises is answered by the rules
      rw [← Except.ok.inj h]
      have hrules := rulesOnly_within ranked
      exact ⟨hrules.best, hrules.business, hrules.source, hrules.site⟩
    · rename_i answers hanswers
      have htyped := hpost _ answers hanswers
      obtain ⟨belongs, hdecide, -⟩ := decide_eq (U := U) settings htyped
        (nodup_judgedEmails (U := U)) ranked
      rw [show (buildBody U settings ranked domain pageTitle).2 = judgedEmails U ranked from rfl,
        hdecide] at h
      rw [← Except.ok.inj h]
      exact verdict_within hlower (fun e he => mem_of_mem_judgedEmails hlower he)
        (siteStatusText_ok (part_read htyped.site).2.1.2)

end Judge

/-! ## The result -/

/-- The addresses of the result are its candidates', each candidate was found on a fetched
page, and status and source say whether there is a best address. -/
structure Accounted (r : DomainResult) : Prop where
  best : ∀ e ∈ r.bestEmail, e ∈ r.allEmails.map EmailCandidateOut.email
  business : ∀ e ∈ r.businessEmails, e ∈ r.allEmails.map EmailCandidateOut.email
  distinct : (r.allEmails.map EmailCandidateOut.email).Nodup
  capped : r.allEmails.length ≤ 50
  sourced : ∀ c ∈ r.allEmails, c.sourceUrls ≠ [] ∧ c.sourceUrls ⊆ r.pagesFetched
  found_iff : r.status = .found ↔ r.bestEmail ≠ none
  source_iff : r.bestEmailSource = none ↔ r.bestEmail = none

/-- What a scratchpad remembers of an extraction is the extraction of its pages. -/
def Scratch.Faithful (X : Extractors) (s : Scratch) : Prop :=
  ∀ x, cached s = some x → extractPages X s = .ok x

section Result

variable {U : Unicode} {X : Extractors} {s s' : Scratch} {x : Extracted} {j : Judgment}

/-- `_extract_all` gives the extraction of the pages, and remembers nothing else. -/
theorem Scratch.Faithful.extractAll (hs : s.Faithful X) (hx : extractPages X s = .ok x) :
    ∃ s', extractAll X s = .ok (x, s') ∧ s'.pages = s.pages ∧ s'.Faithful X := by
  cases hc : cached s with
  | some y =>
    have hy : y = x := Except.ok.inj ((hs y hc).symm.trans hx)
    refine ⟨s, ?_, rfl, hs⟩
    rw [Pipeline.extractAll, hc, hy]
  | none =>
    refine ⟨{ s with extracted := some (s.pages.length, x) }, ?_, rfl, fun y hy => ?_⟩
    · rw [Pipeline.extractAll, hc]
      dsimp only
      rw [hx]
      rfl
    · have hy : x = y := by simpa [cached] using hy
      rw [← hy]
      exact hx

theorem knownBest_of_within (h : j.Within x.ranked) : knownBest x.ranked j = j := by
  unfold knownBest
  split_ifs with hunknown
  · cases hbest : j.bestEmail with
    | none => simp [hbest, given] at hunknown
    | some e =>
      have he := h.best e hbest
      rw [hbest, Option.getD_some, contains_iff_mem.mpr he] at hunknown
      simp at hunknown
  · rfl

theorem assignStatus_eq_found_iff {i : StatusInputs} (hinvalid : i.invalidInput = false)
    (hfailed : i.fetchFailed = false) : assignStatus i = .found ↔ given i.bestEmail = true := by
  unfold assignStatus
  cases hgiven : given i.bestEmail with
  | true => simp [hinvalid, hfailed]
  | false =>
    rw [hinvalid, hfailed]
    split_ifs <;> simp_all

theorem given_iff (h : ∀ e ∈ j.bestEmail, e ≠ []) :
    given j.bestEmail = true ↔ j.bestEmail ≠ none := by
  cases hbest : j.bestEmail with
  | none => simp [given]
  | some e => simpa [given] using h e hbest

theorem resultOf_accounted {urls : List Str} (hurls : s.pages.map Page.url = urls)
    (hx : Provenance U urls x.ranked) (hj : j.Within x.ranked) (domain : Str)
    (site reason : Option Str) : Accounted (resultOf domain s x j site reason) := by
  have hemails : (resultOf domain s x j site reason).allEmails.map EmailCandidateOut.email =
      x.ranked.map RankedEmail.email := by
    simp only [resultOf, map_map]
    rfl
  have hgiven : given j.bestEmail = true ↔ j.bestEmail ≠ none := by
    refine given_iff fun e he => ?_
    obtain ⟨r, hr, rfl⟩ := mem_map.mp (hj.best e he)
    exact (hx.sourced r hr).email_ne
  refine ⟨?_, ?_, ?_, ?_, ?_, ?_, ?_⟩
  · rw [hemails]
    exact hj.best
  · rw [hemails]
    exact hj.business
  · rw [hemails]
    exact hx.nodup
  · exact (length_map _).le.trans hx.length_le
  · intro c hc
    obtain ⟨r, hr, rfl⟩ := mem_map.mp hc
    have hsourced := hx.sourced r hr
    exact ⟨hsourced.sources_ne, by rw [← hurls] at hsourced; exact hsourced.sources⟩
  · dsimp only [resultOf]
    rw [assignStatus_eq_found_iff rfl rfl]
    exact hgiven
  · change (if given j.bestEmail then j.bestEmailSource else none) = none ↔ j.bestEmail = none
    split_ifs with hbest
    · have hsome := Option.isSome_iff_ne_none.mpr (hgiven.mp hbest)
      exact iff_of_false (Option.isSome_iff_ne_none.mp (hj.source hsome)) (hgiven.mp hbest)
    · exact iff_of_true rfl (not_not.mp fun h => hbest (hgiven.mpr h))

end Result

/-- Over any pages that can be extracted, with the rules' judgment or one that `judge` can
return for them, `_harvest` returns a result that accounts for its addresses. -/
theorem harvest_accounts {T : PageTools} (hU : T.unicode.LawfulLower) (P : Patterns)
    (K : RankTools) (others : Extractors) (F : Floats) (settings : JudgeSettings) {s : Scratch}
    {x : Extracted} (hs : s.Faithful (siteReaders T P K others))
    (hx : extractPages (siteReaders T P K others) s = .ok x) (domain : Str)
    (reason : Option Str) (judgment : Option Judgment)
    (hj : ∀ j ∈ judgment, JudgedFor T.unicode F settings x.ranked j) :
    ∃ r, harvest (siteReaders T P K others) domain s judgment reason = .ok r ∧ Accounted r := by
  obtain ⟨s', hall, hpages, -⟩ := hs.extractAll hx
  have hprovenance := extractPages_provenance hU hx
  have hwithin : (judgment.getD (rulesOnly x.ranked)).Within x.ranked := by
    cases judgment with
    | none => exact rulesOnly_within x.ranked
    | some j => exact judgedFor_within (fun r hr => (hprovenance.sourced r hr).lower) (hj j rfl)
  obtain ⟨site, hsite⟩ := hwithin.site
  refine ⟨_, ?_, resultOf_accounted (by rw [hpages]) hprovenance hwithin domain site reason⟩
  simp only [harvest, hall, knownBest_of_within hwithin, hsite, bind, Except.bind]
  rfl

namespace ListedPage

/-- Documents that list addresses, one a line. -/
def tools : PageTools where
  unicode := .ascii
  decodeHtml html := (html, [])
  normalizeHtml := id
  visibleText := id
  pageTitle _ := []
  hrefs _ := []
  attributes _ := []
  mailtoAddresses _ := []
  jsonld _ := ([], [])
  regexEmails _ := []
  findEmails := Str.splitLines
  scriptBodies _ := []
  accept _ := none
  contextFor _ _ := []

def extract (host : Str) : ExtractResult where
  subdomain := []
  domain := (Str.partition '.' host).1
  suffix := (Str.partition '.' host).2.2

def patterns : Patterns where
  emailFull email := email.contains '@'
  gluedSentence _ := none
  assetTail _ := false
  isAlpha := Char.isAlpha
  extract := extract

def rankTools : RankTools where
  unicode := .ascii
  extract := extract
  badLocal _ := false
  hexish _ := false
  digits _ := false

def others : Extractors where
  extractPage _ _ := .error .valueError
  extractPhones _ _ := .ok []
  extractSocials _ _ := .ok []
  pickContactFormUrl _ := .ok none
  pageTitle _ := .ok []
  mergePages _ := []
  rankCandidates _ _ _ := []

def readers : Extractors := siteReaders tools patterns rankTools others

def homeUrl : Str := "https://acme.com/".toList

def contactUrl : Str := "https://acme.com/contact".toList

def scratch : Scratch where
  finalDomain := some "acme.com".toList
  pages := [⟨homeUrl, 0, "Bob@acme.net".toList⟩, ⟨contactUrl, 1, "bob@acme.net".toList⟩]

def found (url : Str) : EmailCandidate where
  email := "bob@acme.net".toList
  method := .text
  sourceUrls := [url]
  order := 1

def candidate : EmailCandidate := { found homeUrl with sourceUrls := [homeUrl, contactUrl] }

def extracted : Extracted where
  ranked := [classify rankTools "acme.com".toList candidate]
  phones := []
  socials := []
  contactFormUrl := none

theorem extractPage_eq {p : Page} (hp : p ∈ scratch.pages) :
    extractPage { tools with accept := accept .ascii patterns } p.html p.url =
      ([found p.url], p.html, []) := by
  have hfound : ∀ p ∈ scratch.pages, p.html ≠ [] ∧ ((pageSources tools p.html p.html).foldl
      (fun f source => addFound { tools with accept := accept .ascii patterns } [] p.url f
        source.1 source.2) {}).candidates.map Prod.snd = [found p.url] := by decide +kernel
  obtain ⟨hne, hfound⟩ := hfound p hp
  rw [extractPage, if_neg hne]
  change ((List.mergeSort (List.map Prod.snd (List.foldl (fun f source =>
    addFound { tools with accept := accept .ascii patterns } [] p.url f source.1 source.2) {}
    (pageSources tools p.html p.html)).candidates) _).map _, _, _) = _
  rw [hfound, mergeSort_singleton]
  rfl

theorem mergePages_eq : mergePages [[found homeUrl], [found contactUrl]] = [candidate] := by
  change List.mergeSort [candidate] _ = _
  rw [mergeSort_singleton]

theorem rankCandidates_eq (scores : Dict Str ℤ) :
    rankCandidates rankTools [candidate] "acme.com".toList scores = extracted.ranked := by
  change (List.mergeSort [classify rankTools "acme.com".toList candidate] _).take _ = _
  rw [mergeSort_singleton]
  rfl

theorem extractPages_eq : extractPages readers scratch = .ok extracted := by
  have hpage : ∀ p ∈ scratch.pages, readers.extractPage p.html p.url =
      .ok ([found p.url], p.html, []) := fun p hp => congrArg Except.ok (extractPage_eq hp)
  obtain ⟨hhome, hrest⟩ := forall_mem_cons.mp hpage
  have hcontact := forall_mem_singleton.mp hrest
  have hgather : gatherPages readers {} scratch.pages =
      .ok { perPage := [[found homeUrl], [found contactUrl]] } := by
    simp only [scratch, gatherPages, hhome, hcontact, bind, Except.bind]
    rfl
  rw [extractPages, hgather]
  change Except.ok (Extracted.mk ((rankCandidates rankTools (mergePages [[found homeUrl],
    [found contactUrl]]) "acme.com".toList _).filter _) [] [] none) = _
  rw [mergePages_eq, rankCandidates_eq]
  rfl

end ListedPage

/-- An address on two pages, in capitals on one of them, that is not the site's own. The judge
says that it belongs, and the result accounts for it. -/
theorem judged_page_accounts : ∃ j r,
    JudgedFor .ascii exampleFloats exampleSettings ListedPage.extracted.ranked j ∧
      j.bestEmail = some "bob@acme.net".toList ∧
      harvest ListedPage.readers "acme.com".toList ListedPage.scratch (some j) none = .ok r ∧
      Accounted r := by
  have hbest : (judge .ascii exampleFloats exampleSettings
      (fun _ => some (exampleAnswers (.fin (9 / 10)))) ListedPage.extracted.ranked []
      []).toOption.map Judgment.bestEmail = some (some "bob@acme.net".toList) := by
    decide +kernel
  obtain ⟨j, hjudge, hbest⟩ := Option.map_eq_some_iff.mp hbest
  have hj : JudgedFor .ascii exampleFloats exampleSettings ListedPage.extracted.ranked j := by
    refine ⟨_, [], [], fun _ answers hanswers => ?_, Except.toOption_eq_some.mp hjudge⟩
    rw [← Option.some.inj hanswers]
    exact exampleAnswers_wellTyped _
  obtain ⟨r, hr, haccounted⟩ := harvest_accounts Unicode.lawfulLower_ascii ListedPage.patterns
    ListedPage.rankTools ListedPage.others exampleFloats exampleSettings (T := ListedPage.tools)
    (fun _ hx => absurd hx (by simp [cached, ListedPage.scratch])) ListedPage.extractPages_eq
    "acme.com".toList none (some j) (fun _ hmem => Option.some.inj hmem ▸ hj)
  exact ⟨j, r, hj, hbest, hr, haccounted⟩

end Pipeline

end EmailExtractor
