import EmailExtractor.Discovery.Sources

/-!
# Parked domains

`app/pipeline/parked.py`: the name servers, final URLs and phrases that mark a parked
domain. The visible text of a document, which the HTML parser gives, is a parameter.
-/

namespace EmailExtractor

namespace Pipeline

open Url Normalize

def parkingNsMarkers : List Str :=
  ["sedoparking", "bodis", "parkingcrew", "above.com", "dan.com", "afternic",
    "hugedomains", "namebrightdns", "parklogic"].map String.toList

def parkingHosts : List Str :=
  ["dan.com", "afternic.com", "hugedomains.com", "sedo.com",
    "undeveloped.com"].map String.toList

def parkingHostPaths : List (Str × List Str) :=
  [("godaddy.com".toList, ["/forsale".toList])]

def forSalePhrases : List Str :=
  ["this domain is for sale", "buy this domain", "domain may be for sale",
    "this domain has been registered"].map String.toList

def weakPhrases : List Str := ["parked free", "future home of", "coming soon"].map String.toList

def weakMaxChars : ℕ := 300

/-- `_ns_marker_hit`: a marker with a dot is a domain, another is a whole label. -/
def nsMarkerHit (ns marker : Str) : Bool :=
  if marker.contains '.' then isUnder ns marker else (ns.splitOn '.').contains marker

def checkNs (U : Unicode) (nsHosts : List Str) : Bool :=
  nsHosts.any fun ns => parkingNsMarkers.any (nsMarkerHit (Str.rstripChars ['.'] (U.lower ns)))

def checkFinalUrl (U : Unicode) (finalUrl : Str) : Except ValueError Bool := do
  let parts ← urlsplit U finalUrl
  let host := U.lower (parts.hostname U)
  return parkingHosts.any (isUnder host) ||
    parkingHostPaths.any fun (h, paths) =>
      isUnder host h && paths.any (Str.startsWith parts.path)

/-- `check_text` on the visible text. -/
def checkText (U : Unicode) (text : Str) : Bool :=
  let low := U.lower text
  forSalePhrases.any (Str.hasSub · low) ||
    (text.length < weakMaxChars && weakPhrases.any (Str.hasSub · low))

/-- `is_parked` on a fetched homepage. -/
def isParked (U : Unicode) (visibleText : Str → Str) (finalUrl html : Str) :
    Except ValueError Bool := do
  let byUrl ← if finalUrl = [] then pure false else checkFinalUrl U finalUrl
  let byText := html ≠ [] && checkText U (visibleText html)
  return byUrl || byText

end Pipeline

end EmailExtractor
