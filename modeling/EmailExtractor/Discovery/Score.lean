import Mathlib.Data.List.Sort
import EmailExtractor.Library.Dict
import EmailExtractor.Library.Regex
import EmailExtractor.Library.Url

/-!
# Scoring and selecting URLs

`app/pipeline/discovery/score.py`: the canonical form of a URL, its exclusion, its
tier and score, and the selection of the pages to fetch. A parse of the URL or of its
port can raise, so `canonical` and `score_url` are fallible.
-/

namespace EmailExtractor

namespace Discovery

open Url

inductive Tier
  | contact
  | quote
  | about
  | legal
  | locations
  deriving DecidableEq

def tiers : List (Tier × ℕ × List Str) :=
  [(.contact, 100, ["contact", "contact-us", "contactus", "get-in-touch",
      "reach-us"].map String.toList),
    (.quote, 80, ["quote", "get-a-quote", "request-a-quote", "free-estimate", "estimate",
      "schedule", "book", "booking", "appointment"].map String.toList),
    (.about, 60, ["about", "about-us", "our-story", "team", "our-team", "leadership",
      "staff", "meet-the-team", "company", "who-we-are"].map String.toList),
    (.legal, 40, ["privacy", "privacy-policy", "accessibility", "terms",
      "terms-of-service", "legal"].map String.toList),
    (.locations, 20, ["locations", "location", "offices", "careers",
      "jobs"].map String.toList)]

def anchorKeywords : List Str :=
  ["contact", "get in touch", "quote", "estimate", "schedule", "about", "our team",
    "meet the team", "privacy", "accessibility", "locations", "careers"].map String.toList

def anchorBonus : ℕ := 10

def excludedSegments : List Str :=
  ["blog", "news", "tag", "tags", "category", "categories", "product", "products", "shop",
    "cart", "checkout", "account", "login", "wp-admin", "feed", "rss", "author",
    "search"].map String.toList

def forbiddenPrefixes : List Str :=
  ["/wp-admin", "/cart", "/checkout", "/account", "/login"].map String.toList

def assetExtensions : List Str :=
  ["pdf", "jpg", "jpeg", "png", "gif", "svg", "webp", "bmp", "ico", "avif", "tif", "tiff",
    "zip", "gz", "tar", "rar", "7z", "doc", "docx", "xls", "xlsx", "ppt", "pptx", "rtf",
    "mp4", "mp3", "wav", "mov", "avi", "webm", "css", "js", "json", "xml", "rss", "atom",
    "woff", "woff2", "ttf", "eot", "otf", "csv", "txt", "exe", "dmg",
    "apk"].map String.toList

/-! ## Patterns -/

section Patterns

variable (U : Unicode)

open Regex

/-- `\s+`. -/
def whitespace : Regex := plus (char U.isSpace)

/-- `^(?:19|20)\d\d$`. -/
def yearPattern : Regex :=
  all [start, any [lit (· = ·) "19".toList, lit (· = ·) "20".toList], char U.isDigit,
    char U.isDigit, finish]

/-- `[-_]+`. -/
def tokenSplit : Regex := plus (char fun c => c = '-' || c = '_')

/-- `/index\.(?:html?|php|aspx?|jsp|cfm|shtml)$`, up to case. -/
def indexPattern : Regex :=
  all [lit U.sameCase "/index.".toList,
    any [seq (lit U.sameCase "htm".toList) (opt (lit U.sameCase "l".toList)),
      lit U.sameCase "php".toList,
      seq (lit U.sameCase "asp".toList) (opt (lit U.sameCase "x".toList)),
      lit U.sameCase "jsp".toList, lit U.sameCase "cfm".toList,
      lit U.sameCase "shtml".toList],
    finish]

def keywordPattern (k : Str) : Regex :=
  all (k.map fun c => if c = ' ' then whitespace U else char (U.sameCase c))

/-- The anchor keywords as whole words, longest first. -/
def anchorPattern : Regex :=
  all [wordBoundary U.isWord,
    any ((anchorKeywords.insertionSort fun a b => b.length ≤ a.length).map (keywordPattern U)),
    wordBoundary U.isWord]

end Patterns

/-! ## One URL -/

structure ScoredUrl where
  url : Str
  score : ℕ
  tier : Option Tier
  depth : ℕ
  anchor : Str
  fetchUrl : Str
  deriving DecidableEq

def ScoredUrl.target (c : ScoredUrl) : Str := if c.fetchUrl ≠ [] then c.fetchUrl else c.url

section Scoring

variable (U : Unicode)

def canonical (url : Str) : Except ValueError Str := do
  let parts ← urlsplit U url
  let host := U.lower (parts.hostname U)
  let host := if Str.startsWith host "www.".toList then host.drop 4 else host
  let port ← parts.port
  let host :=
    match port with
    | none => host
    | some p =>
      if p ≠ 0 ∧ p ≠ 80 ∧ p ≠ 443 then host ++ ':' :: (Nat.repr p).toList else host
  let path := if parts.path = [] then ['/'] else parts.path
  let path := U.lower ((indexPattern U).sub ['/'] path)
  let path :=
    if 1 < path.length then
      if Str.rstripChars ['/'] path = [] then ['/'] else Str.rstripChars ['/'] path
    else path
  return urlunsplit ⟨"https".toList, host, path, [], []⟩

def segments (path : Str) : List Str := (path.splitOn '/').filter (· ≠ [])

def tokens (segment : Str) : List Str := (tokenSplit.split segment).filter (· ≠ [])

def extensionOf (path : Str) : Option Str :=
  match (segments path).getLast? with
  | none => none
  | some last =>
    if last.contains '.' then
      let ext := U.lower (Str.afterLast '.' last)
      -- only a short alphanumeric run is an extension
      if ext ≠ [] && ext.all U.isAlnum && ext.length ≤ 5 then some ext else none
    else none

def isExcluded (path : Str) : Bool :=
  let low := U.lower path
  forbiddenPrefixes.any (Str.startsWith low) ||
    (segments low).any (fun seg =>
      excludedSegments.contains seg || (yearPattern U).matchesStart seg) ||
    (extensionOf U low).any assetExtensions.contains

def tierFor (path : Str) : Option Tier × ℕ :=
  let segs := (segments path).map U.lower
  let toks := segs.flatMap tokens
  match tiers.find? fun t => t.2.2.any fun k => segs.contains k || toks.contains k with
  | some (name, score, _) => (some name, score)
  | none => (none, 0)

def anchorMatches (anchor : Str) : Bool :=
  let a := U.strip ((whitespace U).sub [' '] (U.lower anchor))
  a ≠ [] && (anchorPattern U).found a

/-- `score_url`; `none` means never fetch this URL. -/
def scoreUrl (url anchor : Str) : Except ValueError (Option ScoredUrl) := do
  let parts ← urlsplit U url
  let rawPath := if parts.path = [] then ['/'] else parts.path
  if isExcluded U rawPath then return none
  let (tier, base) := tierFor U rawPath
  let total := base + if anchorMatches U anchor then anchorBonus else 0
  if total = 0 then return none
  let canon ← canonical U url
  let canonParts ← urlsplit U canon
  return some
    { url := canon, score := total, tier := tier, depth := (segments canonParts.path).length,
      anchor := anchor, fetchUrl := urlunsplit { parts with fragment := [] } }

end Scoring

/-! ## Selection -/

def bestByUrl (candidates : List ScoredUrl) : Dict Str ScoredUrl :=
  candidates.foldl (fun best c =>
    match Dict.get? c.url best with
    | none => Dict.set c.url c best
    | some prev => if prev.score < c.score then Dict.set c.url c best else best) []

/-- The order of `select`: higher score, smaller depth, shorter URL, URL. -/
def selectLe (a b : ScoredUrl) : Bool :=
  if a.score ≠ b.score then b.score < a.score
  else if a.depth ≠ b.depth then a.depth < b.depth
  else if a.url.length ≠ b.url.length then a.url.length < b.url.length
  else !decide (b.url < a.url)

def pick (limit cap : ℕ) : List ScoredUrl → Dict (Option Tier) ℕ → List ScoredUrl →
    List ScoredUrl
  | chosen, _, [] => chosen
  | chosen, perTier, c :: cs =>
    if limit ≤ chosen.length then chosen
    else if cap ≤ Dict.getD perTier c.tier 0 then pick limit cap chosen perTier cs
    else
      pick limit cap (chosen ++ [c])
        (Dict.set c.tier (Dict.getD perTier c.tier 0 + 1) perTier) cs

def perTierCap : ℕ := 2

/-- `select` with all of its arguments. -/
def selectWith (candidates : List ScoredUrl) (limit cap : ℕ) : List ScoredUrl :=
  pick limit cap [] []
    (((bestByUrl candidates).map Prod.snd).insertionSort fun a b => selectLe a b)

def select (candidates : List ScoredUrl) (limit : ℕ) : List ScoredUrl :=
  selectWith candidates limit perTierCap

def hasTier (candidates : List ScoredUrl) (tier : Tier) : Bool :=
  candidates.any fun c => c.tier = some tier

end Discovery

end EmailExtractor
