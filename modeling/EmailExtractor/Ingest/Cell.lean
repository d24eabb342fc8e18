import EmailExtractor.Library.Regex
import EmailExtractor.Library.Url
import EmailExtractor.Normalize

/-!
# Input cells

`normalize_input` of `app/pipeline/normalize.py`: one input cell is split into fragments,
each fragment into candidate hosts, and the first host that decides gives the crawl key of
the cell or the reason why it has none. The public suffix list and the IDNA encoding of
names that are not ASCII are parameters.
-/

namespace EmailExtractor

namespace Ingest

open Normalize List

/-- What `normalize_input` reads besides the cell. -/
structure Normalizer where
  unicode : Unicode
  /-- `tldextract`. -/
  extract : Str → ExtractResult
  /-- `host.encode("idna")` of a host that is not ASCII. -/
  idna : Str → Option Str

inductive Reason
  | empty
  | notAUrl
  | freeEmailOnly
  | socialOrDirectory
  deriving DecidableEq

def Reason.text : Reason → Str
  | .empty => "empty".toList
  | .notAUrl => "not_a_url".toList
  | .freeEmailOnly => "free_email_only".toList
  | .socialOrDirectory => "social_or_directory".toList

inductive DomainSource
  | website
  | email
  deriving DecidableEq

def DomainSource.text : DomainSource → Str
  | .website => "website".toList
  | .email => "email".toList

structure NormalizedInput where
  domain : Option Str := none
  display : Str := []
  invalid : Bool := false
  reason : Option Reason := none
  domainSource : DomainSource := .website
  notes : List Str := []
  deriving DecidableEq

def NormalizedInput.ok (n : NormalizedInput) : Bool := n.domain.isSome && !n.invalid

/-! ## Constants -/

def nullTokens : List Str :=
  ["", "-", "--", "n/a", "na", "none", "null", "nil", "#n/a", "#na", "not available",
    "unknown", "tbd", "."].map String.toList

def pathScopedSuffixes : List Str := ["wixsite.com".toList]

def socialHosts : List Str :=
  ["facebook.com", "fb.com", "instagram.com", "linkedin.com", "yelp.com", "g.page",
    "business.site", "linktr.ee", "x.com", "twitter.com", "youtube.com", "angi.com",
    "homeadvisor.com", "thumbtack.com", "bbb.org", "nextdoor.com",
    "tiktok.com"].map String.toList

def socialPathHosts : List (Str × List Str) :=
  [("google.com".toList, ["/maps".toList]), ("goo.gl".toList, ["/maps".toList])]

def freeEmailLabels : List Str :=
  ["gmail", "yahoo", "hotmail", "outlook", "aol", "icloud", "msn", "live", "comcast",
    "att", "sbcglobal", "verizon", "bellsouth", "me", "ymail", "protonmail",
    "mail"].map String.toList

/-! ## Patterns -/

def isWide (c : Char) : Bool := 0xa1 ≤ c.val && c.val ≤ 0xffff

section

variable (U : Unicode)

def separators : Regex :=
  .alt (.plus (.char fun c => ",;|\n\r\t".toList.contains c))
    (.all [.plus (.char U.isSpace), .char (· = '/'), .plus (.char U.isSpace)])

def hostish : Regex :=
  let letter := Regex.char fun c => c.isAlphanum || isWide c
  let last := Regex.char fun c => c.isAlpha || isWide c
  .group (.all [letter,
    .opt (.seq (.many (.char fun c => c.isAlphanum || isWide c || "._-".toList.contains c))
      letter),
    .char (· = '.'), last, last, .upTo last 22])

def isHostLetter (c : Char) : Bool := ('a' ≤ c && c ≤ 'z') || c.isDigit || isWide c

/-- `_VALID_HOST.match`, on a text without line feeds. -/
def validHost (host : Str) : Bool :=
  host.head?.any isHostLetter && host.getLast?.any isHostLetter &&
    host.all fun c => isHostLetter c || c = '.' || c = '-'

/-- `_IPV4.match`, on a text without line feeds. -/
def ipv4 (host : Str) : Bool :=
  let parts := host.splitOn '.'
  parts.length = 4 && parts.all fun part =>
    1 ≤ part.length && part.length ≤ 3 && part.all U.isDigit

/-- `_WWW.sub("", host)`. -/
def stripWww (host : Str) : Str :=
  if Str.startsWith host "www".toList then
    match (host.drop 3).dropWhile U.isDigit with
    | '.' :: bare => bare
    | _ => host
  else host

/-! ## Hosts -/

def fragments (value : Str) : List Str :=
  let parts := ((Regex.split (separators U) value).map U.strip).filter (· ≠ [])
  if parts ≠ [] then parts else if U.strip value ≠ [] then [U.strip value] else []

def tokens (fragment : Str) : List Str :=
  let cleaned := Str.stripChars " \t\"'`()[]\x7b\x7d<>".toList fragment
  (if cleaned ≠ [] then [cleaned] else []) ++ Regex.findAll hostish fragment

def hostAndPath (token : Str) : Option (Str × Str) :=
  let candidate :=
    if Str.hasSub "//".toList token then token
    else "http://".toList ++ token.dropWhile (· = '/')
  match Url.urlsplit U candidate with
  | .error _ => none
  | .ok parts =>
    let host := Str.rstripChars ['.'] (U.lower (U.strip (parts.hostname U)))
    if host = [] || !host.contains '.' then none
    else if !validHost host || Str.hasSub "..".toList host then none
    else if (host.splitOn '.').any (· = []) then none
    else some (host, parts.path)

end

def isSocial (host path : Str) : Bool :=
  socialHosts.any (isUnder host) || socialPathHosts.any fun h =>
    isUnder host h.1 && h.2.any (Str.startsWith path)

/-! ## Fragments -/

section

variable (N : Normalizer)

/-- `_to_punycode`: an ASCII host is its own encoding, and where the encoding of one
raises, the text itself is taken. -/
def toPunycode (host : Str) : Option Str :=
  if Str.isAscii host then some host else N.idna host

def builderKey (host suffix path : Str) : Str :=
  if pathScopedSuffixes.contains suffix then
    match (path.splitOn '/').find? (· ≠ []) with
    | some first => host ++ '/' :: first
    | none => host
  else host

/-- What the body of the loop of `_normalize_fragment` makes of a host; `none` goes on with
the next token. -/
def tryHost (source : DomainSource) (display : Str) (notes : List Str) (host path : Str) :
    Option NormalizedInput :=
  let refused (reason : Reason) : NormalizedInput :=
    { display := display, invalid := true, reason := some reason, notes := notes }
  let accepted (key : Str) : NormalizedInput :=
    { domain := some key, display := display, domainSource := source, notes := notes }
  if ipv4 N.unicode host then some (refused .notAUrl)
  else
    match toPunycode N (stripWww N.unicode host) with
    | none => none
    | some host =>
      if host = [] || !host.contains '.' then none
      else if isSocial host path then some (refused .socialOrDirectory)
      else
        match siteBuilderSuffix host with
        | some suffix =>
          if host = suffix then some (refused .socialOrDirectory)
          else some (accepted (builderKey host suffix path))
        | none =>
          let root := (N.extract host).registeredDomain
          if root ≠ [] then some (accepted root) else none

def tryToken (source : DomainSource) (display : Str) (notes : List Str) (token : Str) :
    Option NormalizedInput :=
  (hostAndPath N.unicode token).bind fun parsed =>
    tryHost N source display notes parsed.1 parsed.2

/-- The text after the last `@` of a fragment that is taken for an address. -/
def mailRest (fragment : Str) : Option Str :=
  let lower := N.unicode.lower fragment
  let url := Str.startsWith lower "http://".toList || Str.startsWith lower "https://".toList
  let rest := Str.afterLast '@' fragment
  if fragment.contains '@' && !url && Str.beforeLast '@' fragment ≠ [] && rest.contains '.' then
    some rest
  else none

def testedHost (rest : Str) : Str :=
  Str.rstripChars ['.'] (N.unicode.lower (N.unicode.strip rest))

def normalizeFragment (fragment display : Str) (notes : List Str) : Option NormalizedInput :=
  match mailRest N fragment with
  | some rest =>
    if freeEmailLabels.contains (N.extract (testedHost N rest)).domain then
      some { display := display, invalid := true, reason := some .freeEmailOnly,
             domainSource := .email, notes := notes }
    else (tokens rest).findSome? (tryToken N .email display notes)
  | none => (tokens fragment).findSome? (tryToken N .website display notes)

def normalizeInput (raw : Str) : NormalizedInput :=
  let value := N.unicode.strip raw
  if nullTokens.contains (N.unicode.lower value) then
    { display := value, invalid := true, reason := some .empty }
  else
    match fragments N.unicode value with
    | [] => { display := value, invalid := true, reason := some .empty }
    | frags =>
      let notes := if 1 < frags.length then ["multiple_values".toList] else []
      match frags.findSome? fun fragment => normalizeFragment N fragment value notes with
      | some n => n
      | none => { display := value, invalid := true, reason := some .notAUrl, notes := notes }

end

/-! ## The outcome of a host -/

/-- The crawl key of a host that passes the checks: under a platform the host itself, with
a path segment where the platform has its sites in paths, else the registrable domain. -/
inductive KeyOf (N : Normalizer) (encoded path : Str) : Str → Prop
  | builder {suffix : Str} (hsuffix : siteBuilderSuffix encoded = some suffix)
      (hne : encoded ≠ suffix) : KeyOf N encoded path (builderKey encoded suffix path)
  | root (hsuffix : siteBuilderSuffix encoded = none)
      (hroot : (N.extract encoded).registeredDomain ≠ []) :
      KeyOf N encoded path (N.extract encoded).registeredDomain

/-- What the loop makes of a host, and what was checked. -/
inductive HostOutcome (N : Normalizer) (source : DomainSource) (display : Str)
    (notes : List Str) (host path : Str) : Option NormalizedInput → Prop
  | address (hip : ipv4 N.unicode host = true) :
      HostOutcome N source display notes host path
        (some { display := display, invalid := true, reason := some .notAUrl, notes := notes })
  | passed (hip : ipv4 N.unicode host = false)
      (hnone : ∀ encoded, toPunycode N (stripWww N.unicode host) = some encoded →
        '.' ∈ encoded → isSocial encoded path = false ∧ registrable N.extract encoded = []) :
      HostOutcome N source display notes host path none
  | refused {encoded : Str} (hip : ipv4 N.unicode host = false)
      (hencoded : toPunycode N (stripWww N.unicode host) = some encoded) (hdot : '.' ∈ encoded)
      (hrefused : isSocial encoded path = true ∨ siteBuilderSuffix encoded = some encoded) :
      HostOutcome N source display notes host path
        (some { display := display, invalid := true, reason := some .socialOrDirectory,
                notes := notes })
  | accepted {encoded key : Str} (hip : ipv4 N.unicode host = false)
      (hencoded : toPunycode N (stripWww N.unicode host) = some encoded) (hdot : '.' ∈ encoded)
      (hsocial : isSocial encoded path = false) (hkey : KeyOf N encoded path key) :
      HostOutcome N source display notes host path
        (some { domain := some key, display := display, domainSource := source, notes := notes })

section

variable {N : Normalizer}

theorem tryHost_outcome (N : Normalizer) (source : DomainSource) (display : Str)
    (notes : List Str) (host path : Str) :
    HostOutcome N source display notes host path
      (tryHost N source display notes host path) := by
  unfold tryHost
  dsimp only
  split
  · exact .address ‹_›
  rename_i hip
  rw [Bool.not_eq_true] at hip
  split
  · rename_i hnone
    exact .passed hip fun encoded hencoded => by rw [hnone] at hencoded; cases hencoded
  rename_i encoded hencoded
  split
  · rename_i hempty
    refine .passed hip fun encoded' hencoded' hdot => ?_
    obtain rfl := Option.some.inj (hencoded.symm.trans hencoded')
    simp [hdot, ne_nil_of_mem hdot] at hempty
  rename_i hdot
  rw [Bool.or_eq_true, not_or, Bool.not_eq_true', Bool.not_eq_false, contains_iff_mem] at hdot
  split
  · exact .refused hip hencoded hdot.2 (.inl ‹_›)
  rename_i hsocial
  rw [Bool.not_eq_true] at hsocial
  split
  · rename_i suffix hsuffix
    split
    · rename_i heq
      exact .refused hip hencoded hdot.2 (.inr (heq ▸ hsuffix))
    · exact .accepted hip hencoded hdot.2 hsocial (.builder hsuffix ‹_›)
  · rename_i hsuffix
    split
    · exact .accepted hip hencoded hdot.2 hsocial (.root hsuffix ‹_›)
    · rename_i hroot
      refine .passed hip fun encoded' hencoded' _ => ?_
      obtain rfl := Option.some.inj (hencoded.symm.trans hencoded')
      rw [registrable, hsuffix]
      exact ⟨hsocial, not_not.mp hroot⟩

/-- Whether a host decides depends on nothing but the host and the path. -/
theorem tryHost_isSome_iff {source : DomainSource} {display host path : Str}
    {notes : List Str} : (tryHost N source display notes host path).isSome = true ↔
      ipv4 N.unicode host = true ∨ ∃ encoded,
        toPunycode N (stripWww N.unicode host) = some encoded ∧ '.' ∈ encoded ∧
        (isSocial encoded path = true ∨ registrable N.extract encoded ≠ []) := by
  have houtcome := tryHost_outcome N source display notes host path
  generalize tryHost N source display notes host path = outcome at houtcome
  cases houtcome with
  | address hip => simp [hip]
  | passed hip hnone =>
    simp only [hip, Option.isSome_none, Bool.false_eq_true, false_or, false_iff]
    rintro ⟨encoded, hencoded, hdot, hdecides⟩
    simp [hnone encoded hencoded hdot] at hdecides
  | refused hip hencoded hdot hrefused =>
    refine iff_of_true rfl (.inr ⟨_, hencoded, hdot, hrefused.imp_right fun hsuffix => ?_⟩)
    rw [registrable, hsuffix]
    exact ne_nil_of_mem hdot
  | accepted hip hencoded hdot hsocial hkey =>
    refine iff_of_true rfl (.inr ⟨_, hencoded, hdot, .inr ?_⟩)
    unfold registrable
    cases hkey with
    | builder hsuffix => simpa [hsuffix] using ne_nil_of_mem hdot
    | root hsuffix hroot => simpa [hsuffix] using hroot

/-! ## Well-formed outcomes -/

def NormalizedInput.WellFormed (n : NormalizedInput) : Prop :=
  (∃ key, n.domain = some key ∧ key ≠ [] ∧ n.invalid = false) ∨
    n.domain = none ∧ n.invalid = true

theorem builderKey_ne_nil {host : Str} (h : host ≠ []) (suffix path : Str) :
    builderKey host suffix path ≠ [] := by
  unfold builderKey
  split
  · split
    · simp
    · exact h
  · exact h

theorem hostOutcome_of_eq {source : DomainSource} {display host path : Str} {notes : List Str}
    {out : Option NormalizedInput} (h : tryHost N source display notes host path = out) :
    HostOutcome N source display notes host path out :=
  h ▸ tryHost_outcome ..

theorem tryHost_wellFormed {source : DomainSource} {display host path : Str} {notes : List Str}
    {n : NormalizedInput} (h : tryHost N source display notes host path = some n) :
    n.WellFormed := by
  cases hostOutcome_of_eq h with
  | address | refused => exact .inr ⟨rfl, rfl⟩
  | accepted _ _ hdot _ hkey =>
    refine .inl ⟨_, rfl, ?_, rfl⟩
    cases hkey with
    | builder => exact builderKey_ne_nil (ne_nil_of_mem hdot) _ _
    | root _ hroot => exact hroot

theorem normalizeFragment_wellFormed {fragment display : Str} {notes : List Str}
    {n : NormalizedInput} (h : normalizeFragment N fragment display notes = some n) :
    n.WellFormed := by
  have htokens : ∀ (source : DomainSource) (l : List Str),
      l.findSome? (tryToken N source display notes) = some n → n.WellFormed := by
    intro source l hl
    obtain ⟨token, -, htoken⟩ := exists_of_findSome?_eq_some hl
    obtain ⟨parsed, -, hhost⟩ := Option.bind_eq_some_iff.mp htoken
    exact tryHost_wellFormed hhost
  unfold normalizeFragment at h
  split at h
  · split at h
    · cases h
      exact .inr ⟨rfl, rfl⟩
    · exact htokens .email _ h
  · exact htokens .website _ h

theorem normalizeInput_wellFormed (N : Normalizer) (raw : Str) :
    (normalizeInput N raw).WellFormed := by
  unfold normalizeInput
  dsimp only
  split
  · exact .inr ⟨rfl, rfl⟩
  · split
    · exact .inr ⟨rfl, rfl⟩
    · split
      · rename_i n hn
        obtain ⟨fragment, -, hfragment⟩ := exists_of_findSome?_eq_some hn
        exact normalizeFragment_wellFormed hfragment
      · exact .inr ⟨rfl, rfl⟩

end

end Ingest

end EmailExtractor
