import EmailExtractor.Pipeline.Typesafe

/-!
# From pages to a result

The scratchpad of a domain and what `app/pipeline/run.py` makes of it: extraction over
the pages, the judgment and the result record, with the status table of
`app/pipeline/status.py`. What reads a single page is a parameter and may raise.
-/

namespace EmailExtractor

namespace Pipeline

structure DnsResult where
  resolves : Bool
  aDomain : Bool
  aWww : Bool
  mxProvider : MxProvider
  nsHosts : List Str

structure Page where
  url : Str
  score : ℕ
  html : Str
  deriving DecidableEq

structure Extractors where
  extractPage : Str → Str → Except PyExn (List EmailCandidate × Str × Str)
  extractPhones : Str → Str → Except PyExn (List Str)
  extractSocials : Str → Str → Except PyExn (Dict Str Str)
  pickContactFormUrl : List Page → Except PyExn (Option Str)
  pageTitle : Str → Except PyExn Str
  mergePages : List (List EmailCandidate) → List EmailCandidate
  rankCandidates : List EmailCandidate → Str → Dict Str ℤ → List RankedEmail

/-- What `_extract_pages` returns. -/
structure Extracted where
  ranked : List RankedEmail
  phones : List Str
  socials : Dict Str Str
  contactFormUrl : Option Str

structure Scratch where
  dns : Option DnsResult := none
  finalDomain : Option Str := none
  homeHtml : Str := []
  pages : List Page := []
  tokens : ℤ := 0
  extracted : Option (ℕ × Extracted) := none

/-! ## Extraction -/

structure Gathered where
  perPage : List (List EmailCandidate) := []
  phones : List Str := []
  socials : Dict Str Str := []

/-- `d.setdefault(k, v)`. -/
def setDefault (d : Dict Str Str) (item : Str × Str) : Dict Str Str :=
  if (Dict.get? item.1 d).isSome then d else Dict.set item.1 item.2 d

variable (X : Extractors)

def gatherPages (g : Gathered) : List Page → Except PyExn Gathered
  | [] => .ok g
  | page :: pages => do
      let (candidates, text, _) ← X.extractPage page.html page.url
      let phones ← X.extractPhones page.html text
      let socials ← X.extractSocials page.html page.url
      gatherPages
        { perPage := g.perPage ++ [candidates]
          phones := phones.foldl (fun ps p => if ps.contains p then ps else ps ++ [p]) g.phones
          socials := socials.foldl setDefault g.socials } pages

/-- `_extract_pages`: only an address with a source among the fetched pages is kept. -/
def extractPages (s : Scratch) : Except PyExn Extracted := do
  let g ← gatherPages X {} s.pages
  let scores := s.pages.foldl (fun d p => Dict.set p.url (p.score : ℤ) d) []
  let ranked := X.rankCandidates (X.mergePages g.perPage) (s.finalDomain.getD []) scores
  let fetched := s.pages.map Page.url
  let form ← X.pickContactFormUrl s.pages
  return {
    ranked := ranked.filter fun r => r.candidate.sourceUrls.any fetched.contains
    phones := g.phones
    socials := g.socials
    contactFormUrl := form }

def cached (s : Scratch) : Option Extracted :=
  s.extracted.bind fun (n, x) => if n = s.pages.length then some x else none

/-- `_extract_all`: once for each number of pages. -/
def extractAll (s : Scratch) : Except PyExn (Extracted × Scratch) :=
  match cached s with
  | some x => .ok (x, s)
  | none => do
      let x ← extractPages X s
      return (x, { s with extracted := some (s.pages.length, x) })

/-! ## Status and result -/

structure StatusInputs where
  invalidInput : Bool := false
  fetchFailed : Bool := false
  parked : Bool := false
  typesafeSaidNone : Bool := false
  bestEmail : Option Str := none
  businessEmails : List Str := []
  contactFormUrl : Option Str := none

def given (s : Option Str) : Bool := s.any (· ≠ [])

def assignStatus (i : StatusInputs) : Status :=
  if i.invalidInput then .invalidInput
  else if i.fetchFailed then .fetchFailed
  else if i.parked && !given i.bestEmail then .parkedOrForSale
  else if i.typesafeSaidNone && !(!i.businessEmails.isEmpty || given i.bestEmail) then
    .noBusinessEmail
  else if given i.bestEmail then .found
  else if given i.contactFormUrl then .formOnly
  else .noContactInfo

/-- The text or null that the result record accepts as `site_status`. -/
def siteStatusText : Json → Except PyExn (Option Str)
  | .null => .ok none
  | .str s => .ok (some s)
  | _ => .error .validationError

/-- The best address of `_harvest`: one that is not known is replaced by the rules'. -/
def knownBest (ranked : List RankedEmail) (j : Judgment) : Judgment :=
  if given j.bestEmail && !(ranked.map RankedEmail.email).contains (j.bestEmail.getD []) then
    { j with
      bestEmail := rulesBest ranked, bestEmailSource := some .rules, confidence := none }
  else j

def resultOf (domain : Str) (s : Scratch) (x : Extracted) (j : Judgment)
    (siteStatus errorReason : Option Str) : DomainResult where
  domain := domain
  finalDomain := s.finalDomain
  status := assignStatus
    { parked := j.siteStatus.isStr "parked_or_for_sale".toList
      typesafeSaidNone := j.saidNone
      bestEmail := j.bestEmail
      businessEmails := j.businessEmails
      contactFormUrl := x.contactFormUrl }
  bestEmail := j.bestEmail
  bestEmailSource := if given j.bestEmail then j.bestEmailSource else none
  confidence := j.confidence
  needsReview := j.needsReview || given errorReason
  businessEmails := j.businessEmails
  allEmails := x.ranked.map fun r =>
    { email := r.email, sourceUrls := r.candidate.sourceUrls, method := r.candidate.method,
      rank := r.rank, belongs := Dict.get? r.email j.belongs }
  phones := x.phones.take 5
  socials := x.socials
  contactFormUrl := x.contactFormUrl
  mxProvider := s.dns.map DnsResult.mxProvider
  pagesFetched := s.pages.map Page.url
  jinaTokens := s.tokens
  typesafeCalled := j.typesafeCalled
  typesafeError := j.typesafeError
  siteStatus := siteStatus
  errorReason := errorReason

/-- `_harvest`; without a judgment the rules decide alone. -/
def harvest (domain : Str) (s : Scratch) (judgment : Option Judgment)
    (errorReason : Option Str) : Except PyExn DomainResult := do
  let (x, s) ← extractAll X s
  let j := knownBest x.ranked (judgment.getD (rulesOnly x.ranked))
  let siteStatus ← siteStatusText j.siteStatus
  return resultOf domain s x j siteStatus errorReason

/-! ## What a harvested result says of its pages -/

variable {X}

theorem assignStatus_ne_fetchFailed {i : StatusInputs} (h : i.fetchFailed = false) :
    assignStatus i ≠ .fetchFailed := by
  unfold assignStatus
  rw [h]
  split_ifs <;> simp_all

theorem extractAll_pages {s s' : Scratch} {x : Extracted} (h : extractAll X s = .ok (x, s')) :
    s'.pages = s.pages ∧ s'.tokens = s.tokens := by
  unfold extractAll at h
  cases hc : cached s with
  | some y =>
    simp only [hc, Except.ok.injEq, Prod.mk.injEq] at h
    rw [h.2]
    exact ⟨rfl, rfl⟩
  | none =>
    cases hx : extractPages X s with
    | error e => simp [hc, hx, bind, Except.bind] at h
    | ok y =>
      simp only [hc, hx, bind, Except.bind, pure, Except.pure, Except.ok.injEq,
        Prod.mk.injEq] at h
      rw [← h.2]
      exact ⟨rfl, rfl⟩

/-- A harvested result lists the pages of the scratchpad, counts its tokens and is no
failure to fetch. -/
theorem harvest_spec {domain : Str} {s : Scratch} {j : Option Judgment} {reason : Option Str}
    {r : DomainResult} (h : harvest X domain s j reason = .ok r) :
    r.pagesFetched = s.pages.map Page.url ∧ r.jinaTokens = s.tokens ∧
      r.status ≠ .fetchFailed ∧ r.errorReason = reason := by
  unfold harvest at h
  cases hx : extractAll X s with
  | error e => simp [hx, bind, Except.bind] at h
  | ok xs =>
    obtain ⟨x, s'⟩ := xs
    obtain ⟨hpages, htokens⟩ := extractAll_pages hx
    simp only [hx, bind, Except.bind] at h
    cases hs : siteStatusText (knownBest x.ranked (j.getD (rulesOnly x.ranked))).siteStatus with
    | error e => simp [hs] at h
    | ok site =>
      simp only [hs, pure, Except.pure, Except.ok.injEq] at h
      rw [← h]
      refine ⟨by rw [← hpages]; rfl, by rw [← htokens]; rfl, ?_, rfl⟩
      dsimp only [resultOf]
      apply assignStatus_ne_fetchFailed
      rfl

end Pipeline

end EmailExtractor
