import EmailExtractor.Library.Json
import EmailExtractor.Pipeline.Rank

/-!
# The TypeSafe judgment

`app/pipeline/typesafe.py`: when the judge is called, the request it is sent, and the
decision made from its answers, which may be any JSON value. The transport is left
out: a call to the endpoint either raises or returns the answers.
-/

namespace EmailExtractor

namespace Pipeline

structure Judgment where
  bestEmail : Option Str := none
  bestEmailSource : Option EmailSource := none
  confidence : Option PyFloat := none
  needsReview : Bool := false
  businessEmails : List Str := []
  siteStatus : Json := .null
  typesafeCalled : Bool := false
  typesafeError : Bool := false
  saidNone : Bool := false
  belongs : Dict Str PyFloat := []

structure JudgeSettings where
  typesafeModel : Str
  typesafeConfidenceMin : ℚ
  typesafeBelongsMin : ℚ

def maxJudgeCandidates : ℕ := 10

def shouldCall (ranked : List RankedEmail) : Bool :=
  !ranked.isEmpty && (2 ≤ ranked.length || ranked.any fun r => 3 ≤ r.rank)

def rulesOnly (ranked : List RankedEmail) : Judgment :=
  match ranked with
  | [] => {}
  | r :: _ =>
    { bestEmail := some r.email
      bestEmailSource := some .rules
      businessEmails :=
        (ranked.filter fun r => r.rank = 1 || r.rank = 2).map RankedEmail.email }

/-! ## The request -/

/-- The loop of `build_body` that picks the candidates to ask about. -/
def pickCandidates (U : Unicode) (seen : List Str) (picked : List RankedEmail) :
    List RankedEmail → List RankedEmail
  | [] => picked
  | r :: rs =>
    if seen.contains (U.lower r.email) then pickCandidates U seen picked rs
    else if maxJudgeCandidates ≤ picked.length + 1 then picked ++ [r]
    else pickCandidates U (U.lower r.email :: seen) (picked ++ [r]) rs

def bestContactQ (domain : Str) : Str :=
  "Which email is the best way to reach the owner or a decision maker at ".toList ++
    "the business that owns ".toList ++ domain ++
    "? Prefer a named person at the business over a generic inbox. ".toList ++
    "Emails for the web designer, hosting platform, software vendor, or ".toList ++
    "other third parties do not count.".toList

def siteStatusQ (domain : Str) : Str :=
  "What kind of website is ".toList ++ domain ++ "?".toList

def belongsQ (email domain : Str) : Str :=
  "Does the email ".toList ++ email ++ " belong to the business that owns ".toList ++
    domain ++ " (the owner, an employee, or a company inbox), rather than ".toList ++
    "a web designer, platform, vendor, or other third party?".toList

def belongsKey (i : ℕ) : Str := "belongs_".toList ++ (Nat.repr i).toList

def object (members : List (String × Json)) : Json :=
  .obj (members.map fun m => (m.1.toList, m.2))

def textOf (s : String) : Json := .str s.toList

def siteCriteria : Json :=
  object
    [("operating_business", textOf
        "A real business that is currently operating and selling products or services."),
      ("parked_or_for_sale", textOf
        "A parked domain, placeholder, or domain listed for sale."),
      ("other", textOf
        "Something else, such as a personal blog, directory, or closed business.")]

def bodyOf (settings : JudgeSettings) (picked : List RankedEmail) (emails : List Str)
    (domain pageTitle : Str) : Json :=
  let criteria := Dict.set "none".toList (textOf "None of these emails belongs to this business.")
    (emails.map (·, Json.null))
  let belongs := picked.mapIdx fun i r => (belongsKey i, object
    [("type", textOf "noul"), ("instructions", .str (belongsQ r.email domain))])
  object
    [("model", .str settings.typesafeModel),
      ("state", object
        [("business_domain", .str domain),
          ("page_title", .str (pageTitle.take 150)),
          ("candidates", .arr (picked.map fun r => object
            [("email", .str r.email),
              ("context", .str (r.candidate.context.take 400)),
              ("source_url", .str (r.candidate.sourceUrls.headD []))]))]),
      ("questions", .obj
        ([("best_contact".toList, object
            [("type", textOf "choice"), ("instructions", .str (bestContactQ domain)),
              ("criteria", .obj criteria)]),
          ("site_status".toList, object
            [("type", textOf "choice"), ("instructions", .str (siteStatusQ domain)),
              ("criteria", siteCriteria)])] ++ belongs))]

/-- `build_body`: the request, and the addresses its answers map onto. -/
def buildBody (U : Unicode) (settings : JudgeSettings) (ranked : List RankedEmail)
    (domain pageTitle : Str) : Json × List Str :=
  let picked := pickCandidates U [] [] ranked
  let emails := picked.map fun r => U.lower r.email
  (bodyOf settings picked emails domain pageTitle, emails)

/-! ## The decision -/

section Decision

variable (U : Unicode) (F : Floats) (settings : JudgeSettings)

/-- The number given for one address; what is no number counts as 0. -/
def readNoul (answers : Json) (i : ℕ) : Except PyExn PyFloat := do
  let node ← answers.get (belongsKey i)
  let noul ← (node.orElse (.obj [])).get "noul".toList
  match noul.toFloat F with
  | .ok x => return x
  | .error .typeError => return .fin 0
  | .error .valueError => return .fin 0
  | .error e => throw e

/-- The loop of `decide` over the addresses, from the `i`-th on. -/
def readBelongs (answers : Json) : ℕ → Dict Str PyFloat → List Str →
    Except PyExn (Dict Str PyFloat)
  | _, belongs, [] => .ok belongs
  | i, belongs, email :: emails => do
      let x ← readNoul F answers i
      readBelongs answers (i + 1) (Dict.set email x belongs) emails

def verdict (choice : Str) (confidence : PyFloat) (belongs : Dict Str PyFloat) (site : Json)
    (emails : List Str) (ranked : List RankedEmail) : Judgment :=
  let belongsMin := PyFloat.fin settings.typesafeBelongsMin
  let confident := confidence.ge (.fin settings.typesafeConfidenceMin)
  let business := emails.filter fun e => (Dict.getD belongs e (.fin 0)).ge belongsMin
  let common : Judgment :=
    { businessEmails := business, siteStatus := site, typesafeCalled := true,
      belongs := belongs }
  if emails.contains choice && confident && (Dict.getD belongs choice (.fin 0)).ge belongsMin then
    { common with
      bestEmail := some choice, bestEmailSource := some .typesafe,
      confidence := some confidence }
  else if choice = "none".toList && confident then
    { common with
      bestEmailSource := some .typesafe, confidence := some confidence, saidNone := true }
  else
    let fallback := ranked.head?.map fun r => U.lower r.email
    -- never an address the judge called foreign
    let fallback :=
      match fallback with
      | some e => if (Dict.getD belongs e (.fin 1)).lt belongsMin then business.head? else some e
      | none => none
    { common with
      bestEmail := fallback
      bestEmailSource := if fallback.any (· ≠ []) then some .rules else some .typesafe
      needsReview := true }

def decide (answers : Json) (emails : List Str) (ranked : List RankedEmail) :
    Except PyExn Judgment := do
  let best := (← answers.get "best_contact".toList).orElse (.obj [])
  let rawChoice ← ((← best.get "choice".toList).orElse (.str [])).strip U
  let confidence ← ((← best.get "confidence".toList).orElse (.float (.fin 0))).toFloat F
  let belongs ← readBelongs F answers 0 [] emails
  let siteStatus := (← answers.get "site_status".toList).orElse (.obj [])
  let site ← siteStatus.get "choice".toList
  let _ ← ((← siteStatus.get "confidence".toList).orElse (.float (.fin 0))).toFloat F
  return verdict U settings (U.lower rawChoice) confidence belongs site emails ranked

/-- `TypeSafeClient.judge`; `post` is `none` where the call to the endpoint raises. -/
def judge (post : Json → Option Json) (ranked : List RankedEmail) (domain pageTitle : Str) :
    Except PyExn Judgment :=
  if !shouldCall ranked then .ok (rulesOnly ranked)
  else
    let (body, emails) := buildBody U settings ranked domain pageTitle
    match post body with
    | none => .ok { rulesOnly ranked with typesafeError := true }
    | some answers => decide U F settings answers emails ranked

end Decision

end Pipeline

end EmailExtractor
