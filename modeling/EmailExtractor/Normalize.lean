import EmailExtractor.Library.Text

/-!
# Crawl keys

The parts of `app/pipeline/normalize.py` that the stages after the input cell use:
the crawl key of a host and the URLs built from a crawl key. The public suffix list
is behind `tldextract`, whose answer is a parameter.
-/

namespace EmailExtractor

structure ExtractResult where
  subdomain : Str
  domain : Str
  suffix : Str

def ExtractResult.registeredDomain (r : ExtractResult) : Str :=
  if r.suffix ≠ [] && r.domain ≠ [] then r.domain ++ '.' :: r.suffix else []

namespace Normalize

def siteBuilderSuffixes : List Str :=
  ["wixsite.com", "squarespace.com", "godaddysites.com", "weebly.com", "square.site",
    "webflow.io", "wordpress.com", "blogspot.com", "myshopify.com", "carrd.co",
    "editorx.io"].map String.toList

def isUnder (host h : Str) : Bool := host = h || Str.endsWith host ('.' :: h)

def siteBuilderSuffix (host : Str) : Option Str := siteBuilderSuffixes.find? (isUnder host)

/-- `registrable`: the full host for a site builder, else the registrable domain. -/
def registrable (extract : Str → ExtractResult) (host : Str) : Str :=
  if (siteBuilderSuffix host).isSome then host else (extract host).registeredDomain

def crawlUrl (domain scheme : Str) (www : Bool) : Str :=
  let (host, _, path) := Str.partition '/' domain
  scheme ++ "://".toList ++ (if www then "www.".toList else []) ++ host ++ ['/'] ++
    (if path ≠ [] then path ++ ['/'] else [])

def hostOfKey (domain : Str) : Str := (Str.partition '/' domain).1

end Normalize

end EmailExtractor
