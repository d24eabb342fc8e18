import EmailExtractor.Library.Regex
import EmailExtractor.Library.Url
import EmailExtractor.Pipeline.Emails
import EmailExtractor.Pipeline.Harvest

/-!
# Social links

`extract_socials` of `app/pipeline/extract/socials.py` over the references of a page, and
what it means for `_extract_pages`. The HTML parser is a parameter: it gives the `href`
attributes of the links of a document, in their order. The readers of a page other than
`extract_page` and `extract_socials` are parameters too; only `urlsplit` raises.

A reference that `urlsplit` rejects ends `extract_socials`, and with it the extraction
over all pages of the domain.
-/

namespace EmailExtractor

namespace Pipeline

open Url List

def networks : Dict Str (List Str) :=
  [("facebook", ["facebook.com", "fb.com", "fb.me"]), ("instagram", ["instagram.com"]),
    ("linkedin", ["linkedin.com"]), ("x", ["x.com", "twitter.com"]),
    ("youtube", ["youtube.com", "youtu.be"]), ("tiktok", ["tiktok.com"]),
    ("yelp", ["yelp.com"])].map fun (name, domains) => (name.toList, domains.map String.toList)

def hostMatches (host : Str) (domains : List Str) : Bool := domains.any (Normalize.isUnder host)

section

variable (U : Unicode)

def dropPath : Regex :=
  let text := fun s : String => Regex.lit U.sameCase s.toList
  .any [.seq .start (text "/sharer"),
    .all [.start, text "/share", .opt (.alt (text "r") (text "article")),
      .alt (text "/") .finish],
    text "/intent/", text "/dialog/", text "/plugins/", .seq .start (text "/share.php")]

def linkedinOk : Regex :=
  let text := fun s : String => Regex.lit U.sameCase s.toList
  .all [text "/", .any [text "company", text "in", text "school", text "showcase"], text "/"]

/-! ## `extract_socials` -/

/-- The reference of a link, if it is not passed over at once. -/
def socialHref (node : Str) : Option Str :=
  let href := U.strip node
  if href = [] || Str.startsWith href ['#'] then none else some href

def splitHref (href : Str) : Except ValueError SplitResult :=
  urlsplit U (if Str.hasSub ['/', '/'] href then href
    else "https://".toList ++ href.dropWhile (· = '/'))

def socialHost (parts : SplitResult) : Str := U.lower (parts.hostname U)

def socialPath (parts : SplitResult) : Str := if parts.path = [] then ['/'] else parts.path

def socialLink (href host path : Str) : Str :=
  if Str.hasSub ['/', '/'] href then href else "https://".toList ++ host ++ path

/-- The loop over the networks: the one that gets the link. -/
def chooseNetwork (out : Dict Str Str) (host path : Str) : Dict Str (List Str) → Option Str
  | [] => none
  | (name, domains) :: rest =>
    if (Dict.get? name out).isSome || !hostMatches host domains then
      chooseNetwork out host path rest
    else if name = "linkedin".toList && !(linkedinOk U).found path then
      chooseNetwork out host path rest
    else some name

def storeLink (out : Dict Str Str) (href : Str) (parts : SplitResult) : Dict Str Str :=
  let host := socialHost U parts
  let path := socialPath parts
  if host = [] || (dropPath U).found path then out
  else
    match chooseNetwork U out host path networks with
    | none => out
    | some name => Dict.set name (socialLink href host path) out

def socialLoop (out : Dict Str Str) : List Str → Except ValueError (Dict Str Str)
  | [] => .ok out
  | node :: nodes =>
    match socialHref U node with
    | none => socialLoop out nodes
    | some href => do
        let parts ← splitHref U href
        socialLoop (storeLink U out href parts) nodes

def socialNodes (hrefs : Str → List Str) (html : Str) : List Str :=
  if html = [] then [] else hrefs html

def extractSocials (hrefs : Str → List Str) (html : Str) : Except ValueError (Dict Str Str) :=
  socialLoop U [] (socialNodes hrefs html)

/-! ## What it is for -/

/-- The reference can be split, or is not looked at. -/
def Readable (node : Str) : Prop :=
  ∀ href ∈ socialHref U node, ∃ parts, splitHref U href = .ok parts

def accepts (name host path : Str) : Bool :=
  host ≠ [] && !(dropPath U).found path && (Dict.get? name networks).any (hostMatches host) &&
    (name ≠ "linkedin".toList || (linkedinOk U).found path)

def linkFor (name node : Str) : Option Str :=
  match socialHref U node with
  | none => none
  | some href =>
    match splitHref U href with
    | .error _ => none
    | .ok parts =>
      let host := socialHost U parts
      let path := socialPath parts
      if accepts U name host path then some (socialLink href host path) else none

def firstLink (name : Str) (nodes : List Str) : Option Str := nodes.findSome? (linkFor U name)

end

section

variable {U : Unicode} {out : Dict Str Str} {host path name : Str}

/-! ## One network for a host -/

theorem isUnder_iff {d : Str} : Normalize.isUnder host d = true ↔ '.' :: d <:+ '.' :: host := by
  rw [suffix_cons_iff, List.cons.injEq, eq_comm (a := d)]
  simp [Normalize.isUnder, Str.endsWith]

theorem networks_apart : ∀ p ∈ networks, ∀ q ∈ networks, p.1 ≠ q.1 →
    ∀ d ∈ p.2, ∀ d' ∈ q.2, ¬ '.' :: d <:+ '.' :: d' := by
  decide

theorem network_unique {p q : Str × List Str} (hp : p ∈ networks) (hq : q ∈ networks)
    (hmatch : hostMatches host p.2 = true) (hmatch' : hostMatches host q.2 = true) :
    p.1 = q.1 := by
  simp only [hostMatches, any_eq_true, isUnder_iff] at hmatch hmatch'
  obtain ⟨d, hd, hunder⟩ := hmatch
  obtain ⟨d', hd', hunder'⟩ := hmatch'
  by_contra hne
  rcases suffix_or_suffix_of_suffix hunder hunder' with h | h
  · exact networks_apart p hp q hq hne d hd d' hd' h
  · exact networks_apart q hq p hp (Ne.symm hne) d' hd' d hd h

theorem mem_networks_iff {domains : List Str} :
    (name, domains) ∈ networks ↔ Dict.get? name networks = some domains := by
  have hget : ∀ p ∈ networks, Dict.get? p.1 networks = some p.2 := by decide
  exact ⟨hget (name, domains), Dict.mem_of_get?⟩

/-- The network may take a link of the host and path. -/
def Takes (U : Unicode) (host path : Str) (network : Str × List Str) : Prop :=
  hostMatches host network.2 = true ∧
    (network.1 = "linkedin".toList → (linkedinOk U).found path = true)

theorem accepts_iff : accepts U name host path = true ↔
    host ≠ [] ∧ (dropPath U).found path = false ∧
      ∃ domains, (name, domains) ∈ networks ∧ Takes U host path (name, domains) := by
  simp only [accepts, Bool.and_eq_true, Bool.or_eq_true, Bool.not_eq_true', decide_eq_true_eq,
    Option.any_eq_true, mem_networks_iff, Takes]
  grind

theorem chooseNetwork_cons (U : Unicode) (out : Dict Str Str) (host path : Str)
    (network : Str × List Str) (nets : Dict Str (List Str)) :
    Dict.get? network.1 out = none ∧ Takes U host path network ∧
        chooseNetwork U out host path (network :: nets) = some network.1 ∨
      ¬ (Dict.get? network.1 out = none ∧ Takes U host path network) ∧
        chooseNetwork U out host path (network :: nets) = chooseNetwork U out host path nets := by
  obtain ⟨name, domains⟩ := network
  simp only [chooseNetwork, Takes]
  generalize "linkedin".toList = linkedin
  cases Dict.get? name out <;> cases hostMatches host domains <;>
    cases (linkedinOk U).found path <;> by_cases h : name = linkedin <;> simp [h]

/-- The loop over the networks gives the link to the one network that may take it, unless
that network has its link. -/
theorem chooseNetwork_eq_some_iff {nets : Dict Str (List Str)}
    (hunique : ∀ p ∈ nets, ∀ q ∈ nets, hostMatches host p.2 = true →
      hostMatches host q.2 = true → p.1 = q.1) :
    chooseNetwork U out host path nets = some name ↔
      Dict.get? name out = none ∧
        ∃ domains, (name, domains) ∈ nets ∧ Takes U host path (name, domains) := by
  induction nets with
  | nil => simp [chooseNetwork]
  | cons network nets ih =>
    specialize ih fun p hp q hq => hunique p (.tail _ hp) q (.tail _ hq)
    rcases chooseNetwork_cons U out host path network nets with ⟨hfree, htakes, h⟩ | ⟨hnot, h⟩
    · rw [h]
      constructor
      · rintro ⟨⟩
        exact ⟨hfree, network.2, .head _, htakes⟩
      · rintro ⟨_, domains, hmem, htakes'⟩
        rw [hunique _ (.head _) _ hmem htakes.1 htakes'.1]
    · rw [h, ih]
      constructor
      · rintro ⟨hfree, domains, hmem, htakes⟩
        exact ⟨hfree, domains, .tail _ hmem, htakes⟩
      · rintro ⟨hfree, domains, hmem, htakes⟩
        rcases mem_cons.1 hmem with rfl | hmem
        · exact absurd ⟨hfree, htakes⟩ hnot
        · exact ⟨hfree, domains, hmem, htakes⟩

theorem chosen_iff (out : Dict Str Str) (hhost : host ≠ [])
    (hkeep : (dropPath U).found path = false) (name : Str) :
    chooseNetwork U out host path networks = some name ↔
      Dict.get? name out = none ∧ accepts U name host path = true := by
  rw [chooseNetwork_eq_some_iff fun p hp q hq => network_unique hp hq, accepts_iff]
  exact ⟨fun ⟨hfree, hnet⟩ => ⟨hfree, hhost, hkeep, hnet⟩,
    fun ⟨hfree, _, _, hnet⟩ => ⟨hfree, hnet⟩⟩

/-! ## The loop over the links -/

section

variable {node href : Str} {nodes : List Str} {parts : SplitResult}

theorem get?_storeLink (name : Str) :
    Dict.get? name (storeLink U out href parts) =
      (Dict.get? name out).or
        (if accepts U name (socialHost U parts) (socialPath parts) then
          some (socialLink href (socialHost U parts) (socialPath parts)) else none) := by
  unfold storeLink
  generalize socialHost U parts = host
  generalize socialPath parts = path
  dsimp only
  split_ifs with hpass haccept haccept
  · rw [accepts_iff] at haccept
    simp [haccept.1, haccept.2.1] at hpass
  · simp
  all_goals
    simp only [Bool.or_eq_true, decide_eq_true_eq, not_or, Bool.not_eq_true] at hpass
    have hchosen := chosen_iff out hpass.1 hpass.2 name
    cases hnet : chooseNetwork U out host path networks with
    | none => cases hget : Dict.get? name out <;> simp_all
    | some name' =>
      by_cases hname : name = name'
      · subst hname
        simp_all
      · cases hget : Dict.get? name out <;> simp_all [Dict.get?_set_of_ne]

theorem socialLoop_skip (hnode : socialHref U node = none) :
    socialLoop U out (node :: nodes) = socialLoop U out nodes := by
  simp [socialLoop, hnode]

theorem socialLoop_store (hnode : socialHref U node = some href)
    (hparts : splitHref U href = .ok parts) :
    socialLoop U out (node :: nodes) = socialLoop U (storeLink U out href parts) nodes := by
  rw [socialLoop, hnode]
  simp only [hparts]
  rfl

theorem socialLoop_raise {e : ValueError} (hnode : socialHref U node = some href)
    (hparts : splitHref U href = .error e) : socialLoop U out (node :: nodes) = .error e := by
  rw [socialLoop, hnode]
  simp only [hparts]
  rfl

theorem firstLink_cons (name : Str) :
    firstLink U name (node :: nodes) = (linkFor U name node).or (firstLink U name nodes) := by
  rw [firstLink, List.findSome?_cons]
  cases linkFor U name node <;> rfl

theorem socialLoop_get (hread : ∀ node ∈ nodes, Readable U node) (out : Dict Str Str) :
    ∃ out', socialLoop U out nodes = .ok out' ∧
      ∀ name, Dict.get? name out' = (Dict.get? name out).or (firstLink U name nodes) := by
  induction nodes generalizing out with
  | nil => exact ⟨out, rfl, by simp [firstLink]⟩
  | cons node nodes ih =>
    specialize ih fun node hnode => hread node (.tail _ hnode)
    have hnode := hread node (.head _)
    simp only [firstLink_cons, linkFor]
    cases hhref : socialHref U node with
    | none => simpa [socialLoop_skip hhref] using ih out
    | some href =>
      obtain ⟨parts, hparts⟩ := hnode href hhref
      obtain ⟨out', hout', hget⟩ := ih (storeLink U out href parts)
      refine ⟨out', by rw [socialLoop_store hhref hparts, hout'], fun name => ?_⟩
      rw [hget name, get?_storeLink, Option.or_assoc]
      simp only [hparts]

theorem socialLoop_readable {out' : Dict Str Str} (hok : socialLoop U out nodes = .ok out') :
    ∀ node ∈ nodes, Readable U node := by
  induction nodes generalizing out with
  | nil => simp
  | cons node nodes ih =>
    cases hhref : socialHref U node with
    | none =>
      rw [socialLoop_skip hhref] at hok
      exact forall_mem_cons.2 ⟨by simp [Readable, hhref], ih hok⟩
    | some href =>
      cases hparts : splitHref U href with
      | error e =>
        rw [socialLoop_raise hhref hparts] at hok
        cases hok
      | ok parts =>
        rw [socialLoop_store hhref hparts] at hok
        exact forall_mem_cons.2 ⟨by simp [Readable, hhref, hparts], ih hok⟩

end

/-! ## Extraction over the pages -/

/-- The result holds the first acceptable link of each network. -/
def FirstLinks (U : Unicode) (nodes : List Str) (result : Except ValueError (Dict Str Str)) :
    Prop :=
  ∃ out, result = .ok out ∧ ∀ name, Dict.get? name out = firstLink U name nodes

theorem extractSocials_firstLinks_iff (hrefs : Str → List Str) (html : Str) :
    FirstLinks U (socialNodes hrefs html) (extractSocials U hrefs html) ↔
      ∀ node ∈ socialNodes hrefs html, Readable U node := by
  constructor
  · rintro ⟨out, hok, _⟩
    exact socialLoop_readable hok
  · intro hread
    obtain ⟨out, hok, hget⟩ := socialLoop_get hread []
    exact ⟨out, hok, fun name => by simpa [Dict.get?] using hget name⟩

end

/-- The readers of a page, of which only `extract_socials` splits URLs. -/
structure PageReaders where
  tools : PageTools
  extractPhones : Str → Str → List Str
  pickContactFormUrl : List Page → Option Str
  mergePages : List (List EmailCandidate) → List EmailCandidate
  rankCandidates : List EmailCandidate → Str → Dict Str ℤ → List RankedEmail

namespace PageReaders

variable (R : PageReaders)

def socials (html : Str) : Except ValueError (Dict Str Str) :=
  Pipeline.extractSocials R.tools.unicode R.tools.hrefs html

def nodes (page : Page) : List Str := socialNodes R.tools.hrefs page.html

def extractors : Extractors where
  extractPage html url := .ok (Pipeline.extractPage R.tools html url)
  extractPhones html text := .ok (R.extractPhones html text)
  extractSocials html _ := (R.socials html).mapError fun _ => .valueError
  pickContactFormUrl pages := .ok (R.pickContactFormUrl pages)
  pageTitle html := .ok (R.tools.pageTitle html)
  mergePages := R.mergePages
  rankCandidates := R.rankCandidates

variable {R}

theorem gatherPages_ok {pages : List Page}
    (hsocials : ∀ page ∈ pages, ∃ out, R.socials page.html = .ok out) (g : Gathered) :
    ∃ g', gatherPages R.extractors g pages = .ok g' := by
  induction pages generalizing g with
  | nil => exact ⟨g, rfl⟩
  | cons page pages ih =>
    obtain ⟨out, hout⟩ := hsocials page (.head _)
    obtain ⟨g', hg'⟩ := ih (fun page hpage => hsocials page (.tail _ hpage)) _
    refine ⟨g', ?_⟩
    rw [gatherPages]
    simp only [extractors, hout]
    exact hg'

theorem extractPages_ok {s : Scratch}
    (hsocials : ∀ page ∈ s.pages, ∃ out, R.socials page.html = .ok out) :
    ∃ x, extractPages R.extractors s = .ok x := by
  obtain ⟨g, hg⟩ := gatherPages_ok hsocials {}
  rw [extractPages, hg]
  exact ⟨_, rfl⟩

end PageReaders

/-- Extraction over the pages of a domain succeeds, with the first acceptable link of each
network for every page, exactly when every reference it looks at can be split. -/
theorem extraction_complete_iff (R : PageReaders) (s : Scratch) :
    ((∃ x, extractPages R.extractors s = .ok x) ∧
        ∀ page ∈ s.pages, FirstLinks R.tools.unicode (R.nodes page) (R.socials page.html)) ↔
      ∀ page ∈ s.pages, ∀ node ∈ R.nodes page, Readable R.tools.unicode node := by
  have hpage := fun page : Page =>
    extractSocials_firstLinks_iff (U := R.tools.unicode) R.tools.hrefs page.html
  constructor
  · rintro ⟨_, hlinks⟩ page hmem
    exact (hpage page).1 (hlinks page hmem)
  · intro hread
    have hlinks := fun page hmem => (hpage page).2 (hread page hmem)
    refine ⟨PageReaders.extractPages_ok fun page hmem => ?_, hlinks⟩
    obtain ⟨out, hok, _⟩ := hlinks page hmem
    exact ⟨out, hok⟩

/-- Readers for documents that list their references, one a line. -/
def lineReaders : PageReaders where
  tools :=
    { unicode := .ascii
      decodeHtml := fun html => (html, [])
      normalizeHtml := id
      visibleText := fun _ => []
      pageTitle := fun _ => []
      hrefs := Str.splitLines
      attributes := fun _ => []
      mailtoAddresses := fun _ => []
      jsonld := fun _ => ([], [])
      regexEmails := fun _ => []
      findEmails := fun _ => []
      scriptBodies := fun _ => []
      accept := fun _ => none
      contextFor := fun _ _ => [] }
  extractPhones := fun _ _ => []
  pickContactFormUrl := fun _ => none
  mergePages := fun _ => []
  rankCandidates := fun _ _ _ => []

/-- A template placeholder left in a link ends the extraction, although the page also has a
link that can be read. -/
theorem placeholder_link_raises :
    extractPages lineReaders.extractors
        { pages := [⟨"https://acme.com/".toList, 0,
            "http://[site-url]/\nhttps://facebook.com/acme".toList⟩] } = .error .valueError ∧
      firstLink .ascii "facebook".toList
          (Str.splitLines "http://[site-url]/\nhttps://facebook.com/acme".toList) =
        some "https://facebook.com/acme".toList :=
  ⟨rfl, by decide +kernel⟩

end Pipeline

end EmailExtractor
