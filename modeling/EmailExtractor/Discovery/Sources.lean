import EmailExtractor.Discovery.Score
import EmailExtractor.Normalize

/-!
# Where URLs come from

The three readers of discovery: the links of the homepage
(`app/pipeline/discovery/links.py`), the `Sitemap:` lines of robots.txt
(`robots.py`) and the entries of a sitemap (`sitemap.py`). The HTML parser, the
public suffix list and the entity table are parameters.
-/

namespace EmailExtractor

namespace Discovery

open Url Normalize

/-- An `a[href]` node. -/
structure Anchor where
  href : Str
  text : Str

structure Web where
  unicode : Unicode
  /-- `tldextract`. -/
  extract : Str → ExtractResult
  /-- The `a[href]` nodes of a document, none when the HTML parser raises. -/
  anchors : Str → List Anchor
  /-- `html.unescape`. -/
  unescape : Str → Str

variable (W : Web)

/-- The host of a URL in lower case: `(urlsplit(url).hostname or "").lower()`. -/
def hostOf (url : Str) : Except ValueError Str := do
  let parts ← urlsplit W.unicode url
  return W.unicode.lower (parts.hostname W.unicode)

/-! ## Homepage links -/

def skipSchemes : List Str :=
  ["mailto:", "tel:", "javascript:", "sms:", "fax:", "data:", "file:",
    "callto:"].map String.toList

def resolve (base href : Str) : Except ValueError Str := do
  let url ← urljoin W.unicode base href
  urldefrag W.unicode url

def anchorText (text : Str) : Str :=
  (W.unicode.lower (W.unicode.strip ((whitespace W.unicode).sub [' '] text))).take 120

def linkHref (node : Anchor) : Option Str :=
  let href := W.unicode.strip node.href
  if href = [] || href.head? = some '#' ||
      skipSchemes.any (Str.startsWith (W.unicode.lower href)) then none
  else some href

/-- One round of the loop of `extract_links` up to the test for duplicates: the link
kept, if any. -/
def readLink (own base : Str) (node : Anchor) : Except ValueError (Option (Str × Str)) :=
  match linkHref W node with
  | none => .ok none
  | some href =>
    match resolve W base href with
    | .error _ => .ok none
    | .ok absolute => do
        let parts ← urlsplit W.unicode absolute
        if parts.scheme ≠ "http".toList ∧ parts.scheme ≠ "https".toList then return none
        let host := W.unicode.lower (parts.hostname W.unicode)
        if host = [] ∨ registrable W.extract host ≠ own then return none
        return some (absolute, anchorText W node.text)

/-- The loop of `extract_links`; `out` holds the links kept so far. -/
def linkLoop (own base : Str) (out : List (Str × Str)) :
    List Anchor → Except ValueError (List (Str × Str))
  | [] => .ok out
  | node :: nodes => do
      match ← readLink W own base node with
      | none => linkLoop own base out nodes
      | some link =>
        if (out.map Prod.fst).contains link.1 then linkLoop own base out nodes
        else linkLoop own base (out ++ [link]) nodes

def linkNodes (html : Str) : List Anchor := if html = [] then [] else W.anchors html

/-- `extract_links`. The base is parsed only when there is a document. -/
def extractLinks (html base : Str) : Except ValueError (List (Str × Str)) :=
  if html = [] then .ok []
  else do
    let host ← hostOf W base
    linkLoop W (registrable W.extract host) base [] (linkNodes W html)

/-! ## robots.txt -/

/-- `^\s*sitemap:\s*(\S+)`, up to case, at any line. -/
def sitemapLine (U : Unicode) : Regex :=
  Regex.all [.lineStart, .many (.char U.isSpace), .lit U.sameCase "sitemap:".toList,
    .many (.char U.isSpace), .group (.plus (.char fun c => !U.isSpace c))]

def maxSitemaps : ℕ := 5

def isHttp (U : Unicode) (url : Str) : Bool :=
  Str.startsWith (U.lower url) "http://".toList ||
    Str.startsWith (U.lower url) "https://".toList

/-- The URLs of the `Sitemap:` lines, none when the text is an HTML page. -/
def sitemapLines (robotsText : Str) : List Str :=
  let U := W.unicode
  let head := U.lower ((robotsText.dropWhile U.isSpace).take 15)
  if Str.startsWith head "<!doctype".toList || Str.startsWith head "<html".toList then []
  else
    ((sitemapLine U).findAll robotsText).map fun raw =>
      Str.stripChars "<>\"'".toList (U.strip raw)

def sitemapLoop (own : Str) (limit : ℕ) (out : List Str) :
    List Str → Except ValueError (List Str)
  | [] => .ok out
  | url :: urls =>
    if isHttp W.unicode url then do
      let host ← hostOf W url
      if host = [] ∨ registrable W.extract host ≠ own then sitemapLoop own limit out urls
      else
        let out := if out.contains url then out else out ++ [url]
        if limit ≤ out.length then return out else sitemapLoop own limit out urls
    else sitemapLoop own limit out urls

def parseSitemaps (robotsText siteHost : Str) : Except ValueError (List Str) :=
  sitemapLoop W (registrable W.extract siteHost) maxSitemaps [] (sitemapLines W robotsText)

/-! ## Sitemaps -/

def maxUrls : ℕ := 5000

def maxChildren : ℕ := 3

def maxDepth : ℕ := 2

def excludeChildTokens : List Str :=
  ["product", "products", "post", "posts", "blog", "news", "image", "images", "video",
    "videos", "category", "categories", "tag", "tags", "author",
    "authors"].map String.toList

def preferChildToken : Str := "page".toList

section Patterns

variable (U : Unicode)

open Regex

/-- `(?:\w+:)?` and a tag name, up to case. -/
def tagName (name : String) : Regex :=
  seq (opt (seq (plus (char U.isWord)) (char (· = ':')))) (lit U.sameCase name.toList)

/-- `<(?:\w+:)?loc[^>]*>`, up to case. -/
def locOpen : Regex :=
  all [char (· = '<'), tagName U "loc", many (char (· ≠ '>')), char (· = '>')]

/-- The pattern of a `<loc>` element, with or without CDATA. -/
def locPattern : Regex :=
  all [locOpen U, many (char U.isSpace), opt (lit U.sameCase "<![CDATA[".toList),
    group (star false (char fun _ => true)), opt (lit U.sameCase "]]>".toList),
    many (char U.isSpace), lit (· = ·) "</".toList, tagName U "loc", many (char U.isSpace),
    char (· = '>')]

/-- `<(?:\w+:)?sitemapindex[\s>]`, up to case. -/
def indexOpen : Regex :=
  all [char (· = '<'), tagName U "sitemapindex", char fun c => U.isSpace c || c = '>']

end Patterns

def isSitemapIndex (text : Str) : Bool := (indexOpen W.unicode).found (text.take 2048)

def locValue (raw : Str) : Option Str :=
  let U := W.unicode
  let value := W.unescape (U.strip raw)
  let value :=
    if value.contains '<' then
      W.unescape (U.strip (((locOpen U).split value).getLastD []))
    else value
  if value = [] || value.contains '<' || value.contains '>' || !isHttp U value then none
  else some value

def distinct (out : List Str) : List Str → List Str
  | [] => out
  | u :: us => distinct (if out.contains u then out else out ++ [u]) us

def parseLocs (text : Str) : List Str :=
  distinct [] (((locPattern W.unicode).findAll text).filterMap (locValue W))

def parsePlainText (text : Str) : List Str :=
  ((Str.splitLines text).map W.unicode.strip).filter fun line =>
    isHttp W.unicode line && !line.contains ' '

/-- `extract_urls`: the entries, and whether the text is an index. -/
def extractUrls (text : Str) : List Str × Bool :=
  let locs := parseLocs W text
  if locs ≠ [] then (locs, isSitemapIndex W text) else (parsePlainText W text, false)

def lastSegmentTokens (url : Str) : Except ValueError (List Str) := do
  let parts ← urlsplit W.unicode url
  match (segments parts.path).getLast? with
  | none => return []
  | some last => return ((W.unicode.lower last).splitOn '.').flatMap tokens

def childIsExcluded (url : Str) : Except ValueError Bool := do
  let toks ← lastSegmentTokens W url
  return toks.any excludeChildTokens.contains

def filterOk (p : Str → Except ValueError Bool) : List Str → Except ValueError (List Str)
  | [] => .ok []
  | u :: us => do
      let b ← p u
      let rest ← filterOk p us
      return if b then u :: rest else rest

def orderChildren (urls : List Str) : Except ValueError (List Str) := do
  let keep ← filterOk (fun u => do return !(← childIsExcluded W u)) urls
  let preferred ← filterOk (fun u => do
    return (← lastSegmentTokens W u).contains preferChildToken) keep
  return preferred ++ keep.filter fun u => !preferred.contains u

end Discovery

end EmailExtractor
