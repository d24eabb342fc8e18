import EmailExtractor.Discovery.Sources
import EmailExtractor.Library.Coroutine

/-!
# Page discovery

`app/pipeline/discovery/__init__.py`: the walk over the sitemaps and
`discover_pages`. Both await the texts of sitemap documents, so they are coroutines
whose questions are the URLs to fetch and whose answers are the texts, blank when the
fetch fails.
-/

namespace EmailExtractor

namespace Discovery

open Url Normalize

def fixedFallbackPaths : List Str :=
  ["/contact", "/contact-us", "/about", "/about-us"].map String.toList

def maxSitemapDocs : ℕ := 4

def minScoredBeforeFallback : ℕ := 2

abbrev Fetching := Coroutine Str Str ValueError

variable (W : Web)

def sameSite (own url : Str) : Except ValueError Bool := do
  let host ← hostOf W url
  return host ≠ [] && registrable W.extract host = own

/-! ## The walk over the sitemaps -/

/-- The pages read so far, the documents still to read, and whether the walk is over
because there are enough pages. -/
structure Walk where
  pages : List Str
  queue : List (Str × ℕ)
  full : Bool := false

def addPages (own : Str) (w : Walk) : List Str → Except ValueError Walk
  | [] => .ok w
  | u :: us => do
      let same ← sameSite W own u
      let pages := if same then w.pages ++ [u] else w.pages
      if maxUrls ≤ pages.length then return { w with pages := pages, full := true }
      addPages own { w with pages := pages } us

/-- The body of the loop of `collect_sitemap_urls` once the entries are read. -/
def readEntries (own : Str) (w : Walk) (urls : List Str) (isIndex : Bool) (depth : ℕ) :
    Except ValueError Walk :=
  if isIndex then
    if maxDepth ≤ depth then .ok w
    else do
      let same ← filterOk (sameSite W own) urls
      let children ← orderChildren W same
      return { w with
        queue := w.queue ++ (children.take maxChildren).map fun c => (c, depth + 1) }
  else addPages W own w urls

/-- The body of the loop of `collect_sitemap_urls` once it has the text. -/
def readDoc (own : Str) (w : Walk) (text : Str) (depth : ℕ) : Except ValueError Walk :=
  readEntries W own w (extractUrls W text).1 (extractUrls W text).2 depth

/-- The rounds of the loop that read the texts given at the start. -/
def readSeeds (own : Str) (w : Walk) : List Str → Except ValueError Walk
  | [] => .ok w
  | text :: texts => do
      let w ← readDoc W own w text 0
      if w.full then return w
      readSeeds own w texts

def nextDoc (own : Str) (seen : List Str) :
    List (Str × ℕ) → Except ValueError (Option ((Str × ℕ) × List (Str × ℕ)))
  | [] => .ok none
  | doc :: queue =>
    if seen.contains doc.1 then nextDoc own seen queue
    else do
      if ← sameSite W own doc.1 then return some (doc, queue)
      nextDoc own seen queue

/-- The rounds of the loop that fetch, with a budget of documents. -/
def fetchDocs (own : Str) : ℕ → List Str → Walk → Fetching (List Str)
  | 0, _, w => .ret w.pages
  | budget + 1, seen, w =>
    .bind (.lift (nextDoc W own seen w.queue)) fun
      | none => .ret w.pages
      | some ((url, depth), queue) =>
        .ask url fun text =>
          if text = [] then fetchDocs own budget (url :: seen) { w with queue := queue }
          else
            .bind (.lift (readDoc W own { w with queue := queue } text depth)) fun w =>
              if w.full then .ret w.pages
              else fetchDocs own budget (url :: seen) w

def collectSitemapUrls (own : Str) (seedTexts seedUrls : List Str) : Fetching (List Str) :=
  .bind (.lift (readSeeds W own ⟨[], seedUrls.map (·, 0), false⟩ (seedTexts.filter (· ≠ []))))
    fun w => if w.full then .ret w.pages else fetchDocs W own maxSitemapDocs [] w

/-! ## Discovery -/

structure Diag where
  shortcut : Bool := false
  fromLinks : ℕ := 0
  fromSitemap : ℕ := 0
  fallback : Bool := false
  deriving DecidableEq

def scoreAll : List (Str × Str) → Except ValueError (List ScoredUrl)
  | [] => .ok []
  | (url, anchor) :: us => do
      let scored ← scoreUrl W.unicode url anchor
      let rest ← scoreAll us
      return scored.toList ++ rest

def fallbackUrl (final : SplitResult) (path : Str) : Except ValueError Str :=
  urljoin W.unicode (final.scheme ++ "://".toList ++ final.netloc ++ ['/'])
    (path.dropWhile (· = '/'))

def scoreFallbacks (final : SplitResult) : List Str → Except ValueError (List ScoredUrl)
  | [] => .ok []
  | path :: paths => do
      let url ← fallbackUrl W final path
      let scored ← scoreUrl W.unicode url []
      let rest ← scoreFallbacks final paths
      return scored.toList ++ rest

/-- The last part of `discover_pages`, from the pages of the sitemaps on. -/
def chooseFrom (final : SplitResult) (limit : ℕ) (candidates : List ScoredUrl)
    (sitemapPages : List Str) : Except ValueError (List ScoredUrl × Diag) := do
  let scored ← scoreAll W (sitemapPages.map (·, []))
  let all := candidates ++ scored
  let diag : Diag := { fromLinks := candidates.length, fromSitemap := scored.length }
  let chosen := select all limit
  -- only a match with a tier counts towards the threshold
  if (chosen.filter fun c => c.tier.isSome).length < minScoredBeforeFallback then
    let fixed ← scoreFallbacks W final fixedFallbackPaths
    return (select (all ++ fixed) limit, { diag with fallback := true })
  return (chosen, diag)

def discoverPages (finalUrl homepageHtml robotsText rootSitemapText : Str) (limit : ℕ) :
    Fetching (List ScoredUrl × Diag) :=
  .bind (.lift do
    let final ← urlsplit W.unicode finalUrl
    let links ← extractLinks W homepageHtml finalUrl
    let candidates ← scoreAll W links
    return (final, candidates)) fun (final, candidates) =>
  if hasTier candidates .contact && hasTier candidates .about then
    .ret (select candidates limit, { shortcut := true, fromLinks := candidates.length })
  else
    let own := registrable W.extract
      (W.unicode.lower (final.hostname W.unicode))
    .bind (.lift (parseSitemaps W robotsText own)) fun seedUrls =>
    .bind (collectSitemapUrls W own [rootSitemapText] seedUrls) fun sitemapPages =>
    .lift (chooseFrom W final limit candidates sitemapPages)

end Discovery

end EmailExtractor
