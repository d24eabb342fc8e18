import EmailExtractor.Discovery.Discover
import EmailExtractor.Pipeline.Harvest
import EmailExtractor.Pipeline.Parked

/-!
# The stages of a domain

`app/pipeline/run.py`: the homepage ladder, the stages of `_process` between the points
where it awaits, the handlers of `_attempt_domain` and the retry loop of
`process_domain`. The answers of the fetcher and of the other services come from
outside; a call of `get_html` returns a page, raises a `FetchError` or raises
`CircuitOpen`. An error that is raised again carries the number of the call that
raised it.
-/

namespace EmailExtractor

namespace Pipeline

open Url Normalize Discovery

inductive ErrorClass
  | transient
  | permanent
  | blocked
  | providerAccount
  | bug
  deriving DecidableEq

structure FetchError where
  errorClass : ErrorClass
  reason : Str
  deriving DecidableEq

structure FetchResult where
  finalUrl : Str
  html : Str
  jinaTokens : Option ℤ := none
  deriving DecidableEq

inductive Answer
  | page (r : FetchResult)
  | error (e : FetchError)
  | circuitOpen
  deriving DecidableEq

structure Failure where
  error : FetchError
  call : ℕ
  deriving DecidableEq

inductive Exn
  | circuitOpen
  | fetch (f : Failure)
  | py (e : PyExn)
  deriving DecidableEq

/-- The tools and settings of the pipeline. -/
structure Env where
  web : Web
  visibleText : Str → Str
  extractors : Extractors
  floats : Floats
  judge : JudgeSettings
  maxPagesPerDomain : ℤ
  earlyStopOnFirstGood : Bool
  maxDomainAttempts : ℤ

def typeName : PyExn → Str
  | .attributeError => "AttributeError".toList
  | .typeError => "TypeError".toList
  | .valueError => "ValueError".toList
  | .overflowError => "OverflowError".toList
  | .validationError => "ValidationError".toList

def FetchResult.tokens (r : FetchResult) : ℤ := r.jinaTokens.getD 0

/-! ## Results without a harvest -/

def fetchFailed (domain : Str) (reason : Str) (mx : Option MxProvider) : DomainResult :=
  { domain := domain, status := .fetchFailed, errorReason := some reason, mxProvider := mx }

def internalError (domain name : Str) : DomainResult :=
  { domain := domain, status := .fetchFailed, errorReason := some "internal_error".toList,
    siteStatus := some name }

def handle (domain : Str) : Exn → Except Exn DomainResult
  | .circuitOpen => .ok (fetchFailed domain "circuit_open".toList none)
  | .fetch f =>
    if f.error.errorClass = .providerAccount then .error (.fetch f)
    else .ok (internalError domain "FetchError".toList)
  | .py e => .ok (internalError domain (typeName e))

/-- The handler of `_attempt_domain` for the deadline. -/
def handleTimeout (env : Env) (domain : Str) (s : Scratch) : Except Exn DomainResult :=
  if s.pages ≠ [] then
    match harvest env.extractors domain s none (some "domain_timeout".toList) with
    | .ok r => .ok r
    | .error e => .error (.py e)
  else
    .ok (fetchFailed domain "domain_timeout".toList (s.dns.map DnsResult.mxProvider))

/-! ## Stages 1 and 2 -/

def homepageLadder : List (Str × Bool) :=
  [("https".toList, false), ("https".toList, true), ("http".toList, false)]

def ladderFor (dns : DnsResult) : List (Str × Bool) :=
  if dns.resolves then
    let rungs := homepageLadder.filter fun rung => if rung.2 then dns.aWww else dns.aDomain
    if rungs = [] then homepageLadder else rungs
  else homepageLadder

def ladderUrls (domain : Str) (dns : DnsResult) : List Str :=
  (ladderFor dns).map fun rung => crawlUrl domain rung.1 rung.2

def preflight (env : Env) (domain : Str) (dns : DnsResult) : Option DomainResult :=
  if !dns.resolves then some (fetchFailed domain "dns".toList (some dns.mxProvider))
  else if checkNs env.web.unicode dns.nsHosts then
    some
      { domain := domain, status := .parkedOrForSale, mxProvider := some dns.mxProvider,
        siteStatus := some "parked_or_for_sale".toList }
  else none

structure Home where
  page : Option FetchResult
  failure : Option Failure

/-- What `fetch_homepage` does with the answer of one rung: it returns, or raises, or
goes on to the next rung. -/
inductive RungStep
  | home (h : Home)
  | raised
  | next

/-- The body of the loop of `fetch_homepage`; `last` says that no rung is left. -/
def onRung (call : ℕ) (last : Bool) : Answer → RungStep
  | .page r => .home ⟨some r, none⟩
  | .error e =>
    if e.errorClass = .providerAccount || last then .home ⟨none, some ⟨e, call⟩⟩ else .next
  | .circuitOpen => .raised

def robotsUrl (domain : Str) : Str :=
  "https://".toList ++ hostOfKey domain ++ "/robots.txt".toList

def sitemapUrl (domain : Str) : Str :=
  "https://".toList ++ hostOfKey domain ++ "/sitemap.xml".toList

/-! ## Stage 3 -/

/-- Where the code after wave 1 leads: the attempt is over, or discovery of the
homepage starts. -/
inductive AfterWave1
  | over (out : Except Exn DomainResult)
  | discover (s : Scratch) (home : FetchResult) (c : Fetching (List ScoredUrl × Diag))

/-- The part of `_process` from the end of wave 1 to discovery. -/
def afterWave1 (env : Env) (domain : Str) (s : Scratch) (home : Home)
    (robotsText sitemapText : Str) : AfterWave1 :=
  let mx := s.dns.map DnsResult.mxProvider
  match home.page with
  | none =>
    match home.failure with
    | none => .over (.ok (fetchFailed domain "homepage".toList mx))
    | some f =>
      if f.error.errorClass = .providerAccount then .over (handle domain (.fetch f))
      else .over (.ok (fetchFailed domain f.error.reason mx))
  | some page =>
    match hostOf env.web page.finalUrl with
    | .error _ => .over (handle domain (.py .valueError))
    | .ok host =>
      let root := registrable env.web.extract host
      let finalDomain := if root = [] then domain else root
      let s := { s with finalDomain := some finalDomain, homeHtml := page.html }
      match isParked env.web.unicode env.visibleText page.finalUrl page.html with
      | .error _ => .over (handle domain (.py .valueError))
      | .ok true =>
        .over (.ok
          { domain := domain, finalDomain := some finalDomain,
            status := .parkedOrForSale,
            siteStatus := some "parked_or_for_sale".toList, mxProvider := mx,
            pagesFetched := [page.finalUrl], jinaTokens := page.tokens })
      | .ok false =>
        -- the wave-1 texts belong to the host before the redirect
        let sameSite := finalDomain = registrable env.web.extract (hostOfKey domain)
        .discover s page
          (discoverPages env.web page.finalUrl page.html
            (if sameSite then robotsText else []) (if sameSite then sitemapText else [])
            (env.maxPagesPerDomain - 1).toNat)

/-! ## Stages 4 to 7 -/

def recordHome (s : Scratch) (home : FetchResult) : Scratch :=
  { s with
    pages := s.pages ++ [⟨home.finalUrl, 0, home.html⟩], tokens := s.tokens + home.tokens }

def contactOf (selected : List ScoredUrl) : Option ScoredUrl :=
  selected.find? fun c => c.tier = some .contact

def restOf (selected : List ScoredUrl) : List ScoredUrl :=
  selected.eraseP fun c => c.tier = some .contact

structure PageRead where
  page : Page
  tokens : ℤ

/-- `fetch_page`: a fetch error is an empty page, an open breaker is raised. -/
def fetchPage (c : ScoredUrl) : Answer → Except Exn PageRead
  | .page r => .ok ⟨⟨r.finalUrl, c.score, r.html⟩, r.tokens⟩
  | .error _ => .ok ⟨⟨c.target, c.score, []⟩, 0⟩
  | .circuitOpen => .error .circuitOpen

def record (s : Scratch) (r : PageRead) : Scratch :=
  { s with
    tokens := s.tokens + r.tokens
    pages := if r.page.html ≠ [] then s.pages ++ [r.page] else s.pages }

def earlyCandidates (X : Extractors) : List Page → Except PyExn (List (List EmailCandidate))
  | [] => .ok []
  | p :: ps => do
      let (candidates, _, _) ← X.extractPage p.html p.url
      let rest ← earlyCandidates X ps
      return candidates :: rest

/-- The pages still to fetch after the contact page: none when the early stop fires. -/
def afterContact (env : Env) (s : Scratch) (rest : List ScoredUrl) :
    Except PyExn (List ScoredUrl) :=
  if env.earlyStopOnFirstGood then do
    let perPage ← earlyCandidates env.extractors s.pages
    let early := env.extractors.rankCandidates (env.extractors.mergePages perPage)
      (s.finalDomain.getD []) []
    match early with
    | r :: _ =>
      if r.rank = 1 ∧ (r.candidate.method = .mailto ∨ r.candidate.method = .jsonld) then
        return []
      return rest
    | [] => return rest
  else .ok rest

structure Brief where
  ranked : List RankedEmail
  title : Str
  scratch : Scratch

/-- `_judge_pages` up to the call of the judge. -/
def brief (env : Env) (s : Scratch) : Except PyExn Brief := do
  let (x, s) ← extractAll env.extractors s
  let title ← env.extractors.pageTitle s.homeHtml
  return ⟨x.ranked, title, s⟩

/-- The end of `_process`, given the answer of the endpoint of the judge. -/
def conclude (env : Env) (domain : Str) (b : Brief) (post : Json → Option Json) :
    Except PyExn DomainResult := do
  let site := b.scratch.finalDomain.getD domain
  let j ← judge env.web.unicode env.floats env.judge post b.ranked site b.title
  harvest env.extractors domain b.scratch (some j) none

/-! ## One attempt -/

structure World where
  dns : DnsResult
  text : Str → Str
  post : Json → Option Json

inductive CallKind
  | homepage
  | page
  deriving DecidableEq

structure Call where
  kind : CallKind
  url : Str
  number : ℕ
  answer : Answer
  deriving DecidableEq

section Attempt

variable (env : Env) (domain : Str) (answers : ℕ → Answer)

/-- `fetch_homepage`, its first call being the `n`-th. -/
def fetchHomepage : ℕ → List Str → Except Exn Home × List Call
  | _, [] => (.ok ⟨none, none⟩, [])
  | n, url :: urls =>
    let call : Call := ⟨.homepage, url, n, answers n⟩
    match onRung n urls.isEmpty (answers n) with
    | .home h => (.ok h, [call])
    | .raised => (.error .circuitOpen, [call])
    | .next =>
      let (out, calls) := fetchHomepage (n + 1) urls
      (out, call :: calls)

/-- `gather` over `fetch_page`: every call is made, and one that raises is raised. -/
def fetchRest : ℕ → List ScoredUrl → Except Exn (List PageRead) × List Call
  | _, [] => (.ok [], [])
  | n, c :: cs =>
    let (rest, calls) := fetchRest (n + 1) cs
    let out :=
      match fetchPage c (answers n) with
      | .error e => .error e
      | .ok r =>
        match rest with
        | .error e => .error e
        | .ok rs => .ok (r :: rs)
    (out, ⟨.page, c.target, n, answers n⟩ :: calls)

def finishPages (w : World) (s : Scratch) : Except Exn DomainResult :=
  match brief env s >>= fun b => conclude env domain b w.post with
  | .ok r => .ok r
  | .error e => handle domain (.py e)

def readRest (w : World) (n : ℕ) (s : Scratch) (rest : List ScoredUrl) :
    Except Exn DomainResult × List Call :=
  let (reads, calls) := fetchRest answers n rest
  match reads with
  | .error e => (handle domain e, calls)
  | .ok rs => (finishPages env domain w (rs.foldl record s), calls)

def readSelected (w : World) (n : ℕ) (s : Scratch) (selected : List ScoredUrl) :
    Except Exn DomainResult × List Call :=
  match contactOf selected with
  | none => readRest env domain answers w n s (restOf selected)
  | some c =>
    let call : Call := ⟨.page, c.target, n, answers n⟩
    match fetchPage c (answers n) with
    | .error e => (handle domain e, [call])
    | .ok r =>
      match afterContact env (record s r) (restOf selected) with
      | .error e => (handle domain (.py e), [call])
      | .ok rest =>
        let (out, calls) := readRest env domain answers w (n + 1) (record s r) rest
        (out, call :: calls)

def readSite (w : World) (n : ℕ) (s : Scratch) (home : FetchResult)
    (c : Fetching (List ScoredUrl × Diag)) : Except Exn DomainResult × List Call :=
  match c.run w.text with
  | .error _ => (handle domain (.py .valueError), [])
  | .ok (selected, _) => readSelected env domain answers w n (recordHome s home) selected

/-- `_attempt_domain` without a deadline, its first call being the `n`-th. -/
def attemptDomain (w : World) (n : ℕ) : Except Exn DomainResult × List Call :=
  match preflight env domain w.dns with
  | some r => (.ok r, [])
  | none =>
    let (home, calls) := fetchHomepage answers n (ladderUrls domain w.dns)
    match home with
    | .error e => (handle domain e, calls)
    | .ok h =>
      match afterWave1 env domain { dns := some w.dns } h (w.text (robotsUrl domain))
          (w.text (sitemapUrl domain)) with
      | .over out => (out, calls)
      | .discover s page c =>
        let (out, calls') :=
          readSite env domain answers w (n + calls.length) s page c
        (out, calls ++ calls')

/-- `RETRYABLE_DOMAIN_REASONS`. -/
def retryable (r : DomainResult) : Bool := r.errorReason = some "circuit_open".toList

/-- The loop of `process_domain`: the `k`-th attempt, with `left` more after it. -/
def attemptsFrom (worlds : ℕ → World) : ℕ → ℕ → ℕ → Except Exn DomainResult × List Call
  | 0, k, n => attemptDomain env domain answers (worlds k) n
  | left + 1, k, n =>
    let (out, calls) := attemptDomain env domain answers (worlds k) n
    match out with
    | .error e => (.error e, calls)
    | .ok r =>
      if retryable r then
        let (out, calls') := attemptsFrom worlds left (k + 1) (n + calls.length)
        (out, calls ++ calls')
      else (.ok r, calls)

/-- `process_domain`: what it returns or raises, and the calls it makes. -/
def processDomain (worlds : ℕ → World) : Except Exn DomainResult × List Call :=
  attemptsFrom env domain answers worlds ((max 1 env.maxDomainAttempts).toNat - 1) 0 0

end Attempt

end Pipeline

end EmailExtractor
