import EmailExtractor.Library.Dict
import EmailExtractor.Library.PyFloat
import EmailExtractor.Library.Text

/-!
# The output record

`DomainResult` of `app/schemas.py`, the record one domain's processing returns and
the queue stores. `processed_at` is left out: nothing modelled reads it.
-/

namespace EmailExtractor

inductive Status
  | invalidInput
  | fetchFailed
  | parkedOrForSale
  | noBusinessEmail
  | found
  | formOnly
  | noContactInfo
  deriving DecidableEq

inductive ExtractionMethod
  | mailto
  | jsonld
  | cloudflare
  | text
  | attribute
  | script
  deriving DecidableEq

inductive MxProvider
  | google
  | microsoft
  | other
  | none
  deriving DecidableEq

inductive EmailSource
  | typesafe
  | rules
  deriving DecidableEq

structure EmailCandidateOut where
  email : Str
  sourceUrls : List Str := []
  method : ExtractionMethod
  rank : ℕ
  belongs : Option PyFloat := none
  deriving DecidableEq

structure DomainResult where
  domain : Str
  finalDomain : Option Str := none
  status : Status
  bestEmail : Option Str := none
  bestEmailSource : Option EmailSource := none
  confidence : Option PyFloat := none
  needsReview : Bool := false
  businessEmails : List Str := []
  allEmails : List EmailCandidateOut := []
  phones : List Str := []
  socials : Dict Str Str := []
  contactFormUrl : Option Str := none
  mxProvider : Option MxProvider := none
  siteStatus : Option Str := none
  pagesFetched : List Str := []
  jinaTokens : ℤ := 0
  typesafeCalled : Bool := false
  typesafeError : Bool := false
  errorReason : Option Str := none
  deriving DecidableEq

end EmailExtractor
