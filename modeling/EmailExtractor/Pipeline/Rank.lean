import Mathlib.Data.Char
import Mathlib.Data.List.Lex
import Mathlib.Data.Prod.Lex
import EmailExtractor.Normalize
import EmailExtractor.Schemas

/-!
# Candidates and ranked candidates

The records of `app/pipeline/extract/emails.py` and `app/pipeline/filter_rank.py`, and the
ranking: which candidates are dropped, how the others are classified, and the order in
which the first `MAX_CANDIDATES` are kept. The patterns for local parts and `tldextract`
are parameters.
-/

namespace EmailExtractor

namespace Pipeline

open List

structure EmailCandidate where
  email : Str
  method : ExtractionMethod
  sourceUrls : List Str := []
  context : Str := []
  order : ℤ := 0
  deriving DecidableEq

structure RankedEmail where
  candidate : EmailCandidate
  rank : ℕ
  own : Bool
  role : Bool
  free : Bool
  deriving DecidableEq

def RankedEmail.email (r : RankedEmail) : Str := r.candidate.email

def rulesBest (ranked : List RankedEmail) : Option Str := ranked.head?.map RankedEmail.email

/-! ## The ranking -/

def maxCandidates : ℕ := 50

def assetSuffixes : List Str :=
  [".png", ".jpg", ".jpeg", ".gif", ".webp", ".svg", ".bmp", ".ico", ".css", ".js",
    ".json", ".woff", ".woff2", ".ttf", ".eot", ".mp4", ".webm", ".avif", ".tif",
    ".tiff"].map String.toList

def badDomains : List Str :=
  ["example.com", "example.org", "example.net", "domain.com", "yourdomain.com",
    "yoursite.com", "website.com", "email.com", "mysite.com", "test.com", "sentry.io",
    "wixpress.com", "sentry-next.wixpress.com", "wix.com", "squarespace.com",
    "godaddysites.com", "weebly.com", "wordpress.com", "shopify.com", "myshopify.com",
    "sentry.wixpress.com"].map String.toList

def roleLocals : List Str :=
  ["info", "hello", "contact", "sales", "support", "office", "admin", "team", "service",
    "help", "inquiries", "enquiries", "inquiry", "enquiry", "mail", "reception", "booking",
    "bookings", "appointments", "estimates", "quotes", "marketing", "hr", "careers", "jobs",
    "billing", "accounts", "privacy", "legal", "media", "press", "webmaster"].map
    String.toList

def freeLabels : List Str :=
  ["gmail", "yahoo", "hotmail", "outlook", "aol", "icloud", "msn", "live", "comcast",
    "att", "sbcglobal", "verizon", "bellsouth", "me", "ymail", "protonmail", "proton",
    "mail", "gmx", "zoho", "yandex"].map String.toList

def siblingMinLabel : ℕ := 5

inductive DropReason
  | tooLong
  | asset
  | malformed
  | localTooLong
  | badDomain
  | badLocal
  | opaqueLocal
  deriving DecidableEq

structure RankTools where
  unicode : Unicode
  extract : Str → ExtractResult
  /-- `BAD_LOCAL.match`. -/
  badLocal : Str → Bool
  /-- `_HEXISH.match`. -/
  hexish : Str → Bool
  /-- `_DIGITS.match`. -/
  digits : Str → Bool

variable (K : RankTools)

def localAndDomain (email : Str) : Str × Str :=
  (K.unicode.lower (Str.beforeLast '@' email), K.unicode.lower (Str.afterLast '@' email))

def shouldDrop (email : Str) : Option DropReason :=
  if 254 < email.length then some .tooLong
  else if assetSuffixes.any (Str.endsWith email) then some .asset
  else
    let (name, domain) := localAndDomain K email
    if name = [] || domain = [] then some .malformed
    else if 64 < name.length then some .localTooLong
    else if badDomains.contains domain then some .badDomain
    else
      let root := (K.extract domain).registeredDomain
      if root ≠ [] && badDomains.contains root then some .badDomain
      else if K.badLocal name then some .badLocal
      else if K.hexish name || K.digits name then some .opaqueLocal
      else none

def secondLevel (domain : Str) : Str := K.unicode.lower (K.extract domain).domain

/-- `is_own`: the same site, a subdomain of it, or a sibling brand. -/
def isOwn (emailDomain siteDomain : Str) : Bool :=
  if siteDomain = [] then false
  else
    let site := K.unicode.lower siteDomain
    let host := K.unicode.lower emailDomain
    if host = site || Str.endsWith host ('.' :: site) then true
    else
      let a := secondLevel K host
      let b := secondLevel K site
      if freeLabels.contains a then false
      else siblingMinLabel ≤ a.length && siblingMinLabel ≤ b.length &&
        (Str.hasSub a b || Str.hasSub b a)

def isFree (emailDomain : Str) : Bool := freeLabels.contains (secondLevel K emailDomain)

/-- `classify`, with the candidate it classifies. -/
def classify (siteDomain : Str) (c : EmailCandidate) : RankedEmail :=
  let (name, domain) := localAndDomain K c.email
  let own := isOwn K domain siteDomain
  let role := roleLocals.contains name
  let free := isFree K domain
  { candidate := c
    rank := if own && !role then 1 else if own && role then 2 else if free then 3 else 4
    own := own
    role := role
    free := free }

def bestPageScore (pageScores : Dict Str ℤ) (r : RankedEmail) : ℤ :=
  match r.candidate.sourceUrls.map fun u => Dict.getD pageScores u 0 with
  | [] => 0
  | score :: scores => scores.foldl max score

def rankKey (pageScores : Dict Str ℤ) (r : RankedEmail) : ℕ ×ₗ ℕ ×ₗ ℤ ×ₗ ℤ ×ₗ Str :=
  let direct := r.candidate.method = .mailto || r.candidate.method = .jsonld
  toLex (r.rank, toLex (if direct then 0 else 1, toLex (-bestPageScore pageScores r,
    toLex (r.candidate.order, r.email))))

def rankCandidates (candidates : List EmailCandidate) (siteDomain : Str)
    (pageScores : Dict Str ℤ) : List RankedEmail :=
  let ranked := (candidates.filter fun c => (shouldDrop K c.email).isNone).map
    (classify K siteDomain)
  (ranked.mergeSort fun a b => rankKey pageScores a ≤ rankKey pageScores b).take maxCandidates

/-! ## What the ranking returns -/

section

variable {candidates candidates' : List EmailCandidate} {site : Str} {scores : Dict Str ℤ}
  {a b r : RankedEmail}

def keptCandidates (candidates : List EmailCandidate) (site : Str) : List RankedEmail :=
  (candidates.filter fun c => (shouldDrop K c.email).isNone).map (classify K site)

def sortedCandidates (candidates : List EmailCandidate) (site : Str) (scores : Dict Str ℤ) :
    List RankedEmail :=
  (keptCandidates K candidates site).mergeSort fun a b => rankKey scores a ≤ rankKey scores b

variable {K}

theorem rankCandidates_eq_take : rankCandidates K candidates site scores =
    (sortedCandidates K candidates site scores).take maxCandidates := rfl

theorem mem_keptCandidates : r ∈ keptCandidates K candidates site ↔
    ∃ c ∈ candidates, shouldDrop K c.email = none ∧ classify K site c = r := by
  simp [keptCandidates, and_assoc]

theorem map_email_keptCandidates : (keptCandidates K candidates site).map RankedEmail.email =
    (candidates.filter fun c => (shouldDrop K c.email).isNone).map EmailCandidate.email := by
  rw [keptCandidates, map_map]
  rfl

theorem sortedCandidates_perm :
    (sortedCandidates K candidates site scores).Perm (keptCandidates K candidates site) :=
  mergeSort_perm _ _

theorem nodup_email_sortedCandidates (hnodup : (candidates.map EmailCandidate.email).Nodup)
    (site : Str) (scores : Dict Str ℤ) :
    ((sortedCandidates K candidates site scores).map RankedEmail.email).Nodup := by
  rw [(sortedCandidates_perm.map RankedEmail.email).nodup_iff, map_email_keptCandidates]
  exact hnodup.sublist (filter_sublist.map _)

theorem email_eq_of_rankKey (h : rankKey scores a = rankKey scores b) : a.email = b.email :=
  congrArg (fun k : ℕ ×ₗ ℕ ×ₗ ℤ ×ₗ ℤ ×ₗ Str => (ofLex (ofLex (ofLex (ofLex k).2).2).2).2) h

theorem pairwise_sortedCandidates (candidates : List EmailCandidate) (site : Str)
    (scores : Dict Str ℤ) : (sortedCandidates K candidates site scores).Pairwise
      fun a b => rankKey scores a ≤ rankKey scores b := by
  refine List.Pairwise.imp (fun h => of_decide_eq_true h)
    (pairwise_mergeSort (fun a b c hab hbc => ?_) (fun a b => ?_)
      (keptCandidates K candidates site))
  · rw [decide_eq_true_eq] at hab hbc ⊢
    exact le_trans hab hbc
  · rw [Bool.or_eq_true, decide_eq_true_eq, decide_eq_true_eq]
    exact le_total _ _

theorem strict_sortedCandidates (hnodup : (candidates.map EmailCandidate.email).Nodup)
    (site : Str) (scores : Dict Str ℤ) :
    (sortedCandidates K candidates site scores).Pairwise
      fun a b => rankKey scores a < rankKey scores b := by
  have hne := pairwise_map.mp (nodup_email_sortedCandidates (K := K) hnodup site scores)
  refine (pairwise_sortedCandidates candidates site scores).imp₂ (fun a b hle hemail => ?_) hne
  exact lt_of_le_of_ne hle fun hkey => hemail (email_eq_of_rankKey hkey)

theorem sortedCandidates_congr (hnodup : (candidates.map EmailCandidate.email).Nodup)
    (hperm : candidates'.Perm candidates) : sortedCandidates K candidates' site scores =
      sortedCandidates K candidates site scores := by
  have hkept : (keptCandidates K candidates' site).Perm (keptCandidates K candidates site) :=
    (hperm.filter _).map _
  have hnodup' : (candidates'.map EmailCandidate.email).Nodup :=
    (hperm.map EmailCandidate.email).nodup_iff.mpr hnodup
  refine List.Perm.eq_of_pairwise (fun a b _ _ hab hba => ?_)
    (strict_sortedCandidates hnodup' site scores) (strict_sortedCandidates hnodup site scores)
    ((sortedCandidates_perm.trans hkept).trans sortedCandidates_perm.symm)
  exact absurd hba (lt_asymm hab)

def acmeTools : RankTools where
  unicode := .ascii
  extract _ := ⟨[], "acme".toList, "com".toList⟩
  badLocal _ := false
  hexish _ := false
  digits _ := false

def acmeCandidates : List EmailCandidate :=
  [⟨"info@acme.com".toList, .mailto, [], [], 1⟩, ⟨"bob@acme.com".toList, .text, [], [], 2⟩]

end

end Pipeline

end EmailExtractor
