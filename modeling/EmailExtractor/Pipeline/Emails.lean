import EmailExtractor.Pipeline.Rank

/-!
# The addresses of a page

`extract_page` and `merge_pages` of `app/pipeline/extract/emails.py`: every source of a
page is read in turn, and an address found again keeps its place and takes the better
method; the candidates of all pages are merged in the same way. The HTML parser and the
passes over the text (`decode_html`, `normalize_html`, `visible_text`, the patterns) are
parameters that raise nothing.
-/

namespace EmailExtractor

/-- `_RANK`: the place in `METHOD_PRECEDENCE`. -/
def ExtractionMethod.precedence : ExtractionMethod → ℕ
  | .mailto => 0
  | .jsonld => 1
  | .cloudflare => 2
  | .text => 3
  | .attribute => 4
  | .script => 5

namespace Pipeline

/-- What `extract_page` calls. A document that cannot be parsed has no links and no
attributes. -/
structure PageTools where
  unicode : Unicode
  decodeHtml : Str → Str × List Str
  normalizeHtml : Str → Str
  visibleText : Str → Str
  pageTitle : Str → Str
  /-- The `href` of every `a[href]`, in document order. -/
  hrefs : Str → List Str
  /-- The attribute values of every element, in document order. -/
  attributes : Str → List Str
  mailtoAddresses : Str → List Str
  /-- `jsonld.extract`: the addresses, and the bodies that could not be parsed. -/
  jsonld : Str → List Str × List Str
  regexEmails : Str → List Str
  /-- `EMAIL.findall`. -/
  findEmails : Str → List Str
  /-- `bodies(html, "script")`. -/
  scriptBodies : Str → List Str
  accept : Str → Option Str
  contextFor : Str → Str → Str

structure Found where
  candidates : Dict Str EmailCandidate := []
  counter : ℕ := 0

variable (T : PageTools)

def effectiveMethod (cfEmails : List Str) (email : Str) (method : ExtractionMethod) :
    ExtractionMethod :=
  if cfEmails.contains email &&
      ([.text, .mailto, .attribute, .script] : List ExtractionMethod).contains method then
    .cloudflare
  else method

def addFound (cfEmails : List Str) (url : Str) (f : Found) (raw : Str)
    (method : ExtractionMethod) : Found :=
  match (T.accept raw).filter (· ≠ []) with
  | none => f
  | some email =>
    let method := effectiveMethod cfEmails email method
    match Dict.get? email f.candidates with
    | none =>
      { candidates := Dict.set email
          { email := email, method := method, sourceUrls := [url], order := f.counter + 1 }
          f.candidates
        counter := f.counter + 1 }
    | some old =>
      if method.precedence < old.method.precedence then
        { f with candidates := Dict.set email { old with method := method } f.candidates }
      else f

def pageSources (normalised text : Str) : List (Str × ExtractionMethod) :=
  let mailto := (T.hrefs normalised).flatMap fun node =>
    let href := T.unicode.strip node
    if T.unicode.lower (href.take 7) = "mailto:".toList then T.mailtoAddresses href else []
  let (good, failed) := T.jsonld normalised
  let attributes := ((T.attributes normalised).filter (·.contains '@')).flatMap T.findEmails
  mailto.map (·, .mailto) ++ good.map (·, .jsonld) ++
    (failed.flatMap T.regexEmails).map (·, .script) ++
    (T.findEmails text).map (·, .text) ++ attributes.map (·, .attribute) ++
    ((T.scriptBodies normalised).flatMap T.findEmails).map (·, .script)

/-- `extract_page`: the candidates, the visible text and the title. -/
def extractPage (html url : Str) : List EmailCandidate × Str × Str :=
  if html = [] then ([], [], [])
  else
    let (decoded, cfEmails) := T.decodeHtml html
    let normalised := T.normalizeHtml decoded
    let text := T.visibleText normalised
    let found := (pageSources T normalised text).foldl
      (fun f source => addFound T cfEmails url f source.1 source.2) {}
    let candidates := (found.candidates.map Prod.snd).mergeSort fun a b => a.order ≤ b.order
    (candidates.map fun c => { c with context := T.contextFor text c.email }, text,
      T.pageTitle normalised)

/-- The candidate `old` after the occurrence `c` of its address on a later page. -/
def mergeCandidate (old c : EmailCandidate) : EmailCandidate :=
  { old with
    sourceUrls := c.sourceUrls.foldl (fun us u => if us.contains u then us else us ++ [u])
      old.sourceUrls
    method := if c.method.precedence < old.method.precedence then c.method else old.method
    context := if old.context = [] && c.context ≠ [] then c.context else old.context }

def mergeInto (pageIndex : ℕ) (merged : Dict Str EmailCandidate) (c : EmailCandidate) :
    Dict Str EmailCandidate :=
  match Dict.get? c.email merged with
  | none => Dict.set c.email { c with order := pageIndex * 10000 + c.order } merged
  | some old => Dict.set c.email (mergeCandidate old c) merged

def mergePages (perPage : List (List EmailCandidate)) : List EmailCandidate :=
  let merged := perPage.zipIdx.foldl
    (fun merged page => page.1.foldl (mergeInto page.2) merged) []
  (merged.map Prod.snd).mergeSort fun a b => a.order ≤ b.order

end Pipeline

end EmailExtractor
