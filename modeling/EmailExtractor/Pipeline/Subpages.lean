import EmailExtractor.Pipeline.Account

/-!
# What a sub-page can do to a domain

Once the homepage of a domain is fetched, an attempt should end with a harvested
result. A fetch error of a sub-page does not prevent it, since `fetch_page` takes it
for an empty page. An open breaker does: `CircuitOpen` is no `FetchError`, it leaves
`fetch_page`, and the attempt ends as if nothing had been fetched. The same comes of an
exception of discovery, of extraction or of the judgment.
-/

namespace EmailExtractor

namespace Pipeline

open Url Normalize Discovery List

def Answer.tokens : Answer → ℤ
  | .page r => r.tokens
  | _ => 0

def readOf (c : ScoredUrl) : Answer → PageRead
  | .page r => ⟨⟨r.finalUrl, c.score, r.html⟩, r.tokens⟩
  | _ => ⟨⟨c.target, c.score, []⟩, 0⟩

def readsFrom (answers : ℕ → Answer) : ℕ → List ScoredUrl → List PageRead
  | _, [] => []
  | n, c :: cs => readOf c (answers n) :: readsFrom answers (n + 1) cs

def pageTokens (calls : List Call) : ℤ :=
  ((calls.filter fun c => c.kind = .page).map fun c => c.answer.tokens).sum

/-- No call for a sub-page meets an open breaker. -/
def BreakerClosed (calls : List Call) : Prop :=
  ∀ c ∈ calls, c.kind = .page → c.answer ≠ .circuitOpen

variable (env : Env) (domain : Str) (answers : ℕ → Answer)

theorem fetchPage_eq {c : ScoredUrl} {a : Answer} (h : a ≠ .circuitOpen) :
    fetchPage c a = .ok (readOf c a) := by
  cases a with
  | page r => rfl
  | error e => rfl
  | circuitOpen => exact absurd rfl h

theorem readOf_tokens (c : ScoredUrl) (a : Answer) : (readOf c a).tokens = a.tokens := by
  cases a <;> rfl

theorem pageTokens_append (calls calls' : List Call) :
    pageTokens (calls ++ calls') = pageTokens calls + pageTokens calls' := by
  simp [pageTokens]

theorem pageTokens_of_homepage {calls : List Call} (h : ∀ c ∈ calls, c.kind = .homepage) :
    pageTokens calls = 0 := by
  have hnone : calls.filter (fun c => c.kind = .page) = [] := by
    refine filter_eq_nil_iff.mpr fun c hc => ?_
    simp [h c hc]
  rw [pageTokens, hnone]
  rfl

/-! ## Wave 3 -/

section

variable (n : ℕ) (cs : List ScoredUrl)

include n cs

theorem fetchRest_of_closed (h : BreakerClosed (fetchRest answers n cs).2) :
    (fetchRest answers n cs).1 = .ok (readsFrom answers n cs) := by
  induction cs generalizing n with
  | nil => rfl
  | cons c cs ih =>
    have hfirst : answers n ≠ .circuitOpen :=
      h ⟨.page, c.target, n, answers n⟩ (mem_cons_self ..) rfl
    have hrest := ih (n + 1) fun c' hc' => h c' (mem_cons_of_mem _ hc')
    simp only [fetchRest, fetchPage_eq hfirst, hrest, readsFrom]

theorem closed_of_fetchRest_ok {rs : List PageRead} (hout : (fetchRest answers n cs).1 = .ok rs) :
    BreakerClosed (fetchRest answers n cs).2 := by
  induction cs generalizing n rs with
  | nil => exact fun c hc => absurd hc not_mem_nil
  | cons c cs ih =>
    unfold fetchRest at hout ⊢
    dsimp only at hout ⊢
    split at hout
    · cases hout
    · rename_i r hr
      split at hout
      · cases hout
      · rename_i rs' hrs
        refine forall_mem_cons.mpr ⟨fun _ hopen => ?_, ih (n + 1) hrs⟩
        dsimp only at hopen
        rw [hopen] at hr
        cases hr

theorem fetchRest_of_open (h : ¬ BreakerClosed (fetchRest answers n cs).2) :
    (fetchRest answers n cs).1 = .error .circuitOpen := by
  cases hout : (fetchRest answers n cs).1 with
  | error e => rw [fetchRest_error answers n cs hout]
  | ok rs => exact absurd (closed_of_fetchRest_ok answers n cs hout) h

theorem pageTokens_fetchRest :
    pageTokens (fetchRest answers n cs).2 =
      ((readsFrom answers n cs).map PageRead.tokens).sum := by
  induction cs generalizing n with
  | nil => rfl
  | cons c cs ih =>
    have hcons : pageTokens (fetchRest answers n (c :: cs)).2 =
        (answers n).tokens + pageTokens (fetchRest answers (n + 1) cs).2 := by
      simp [fetchRest, pageTokens]
    rw [hcons, ih (n + 1), readsFrom, map_cons, sum_cons, readOf_tokens]

end

theorem foldl_record (s : Scratch) (rs : List PageRead) :
    (rs.foldl record s).tokens = s.tokens + (rs.map PageRead.tokens).sum ∧
      ∀ p ∈ s.pages, p ∈ (rs.foldl record s).pages := by
  induction rs generalizing s with
  | nil => simp
  | cons r rs ih =>
    obtain ⟨htokens, hpages⟩ := ih (record s r)
    refine ⟨?_, fun p hp => hpages p ?_⟩
    · rw [foldl_cons, htokens, map_cons, sum_cons, record]
      exact Int.add_assoc ..
    · unfold record
      dsimp only
      split
      · exact mem_append_left _ hp
      · exact hp

/-! ## Waves 2 and 3 -/

def withContact (n : ℕ) (s : Scratch) (selected : List ScoredUrl) : Scratch :=
  match contactOf selected with
  | none => s
  | some c => record s (readOf c (answers n))

def wave3 (s : Scratch) (selected : List ScoredUrl) : Except PyExn (List ScoredUrl) :=
  match contactOf selected with
  | none => .ok (restOf selected)
  | some _ => afterContact env s (restOf selected)

def wave3Call (n : ℕ) (selected : List ScoredUrl) : ℕ :=
  match contactOf selected with
  | none => n
  | some _ => n + 1

/-- Nothing raises on what is fetched: not discovery, not the early stop, not the
extraction and the judgment of the pages. -/
def NothingRaises (w : World) (n : ℕ) (s : Scratch) (home : FetchResult)
    (c : Fetching (List ScoredUrl × Diag)) : Prop :=
  ∃ selected diag rest, c.run w.text = .ok (selected, diag) ∧
    wave3 env (withContact answers n (recordHome s home) selected) selected = .ok rest ∧
    ∃ r, (brief env ((readsFrom answers (wave3Call n selected) rest).foldl record
      (withContact answers n (recordHome s home) selected)) >>= fun b =>
        conclude env domain b w.post) = .ok r

/-- The result is harvested: it lists the homepage, is no failure to fetch, and counts
the tokens of the homepage and of every sub-page. -/
structure Harvested (home : FetchResult) (calls : List Call) (r : DomainResult) : Prop where
  homepage : home.finalUrl ∈ r.pagesFetched
  status : r.status ≠ .fetchFailed
  tokens : r.jinaTokens = home.tokens + pageTokens calls
  reason : r.errorReason = none

theorem conclude_spec {s : Scratch} {w : World} {r : DomainResult}
    (h : (brief env s >>= fun b => conclude env domain b w.post) = .ok r) :
    r.pagesFetched = s.pages.map Page.url ∧ r.jinaTokens = s.tokens ∧
      r.status ≠ .fetchFailed ∧ r.errorReason = none := by
  unfold brief at h
  cases hx : extractAll env.extractors s with
  | error e => simp [hx, bind, Except.bind] at h
  | ok xs =>
    obtain ⟨x, s'⟩ := xs
    obtain ⟨hpages, htokens⟩ := extractAll_pages hx
    cases ht : env.extractors.pageTitle s'.homeHtml with
    | error e => simp [hx, ht, bind, Except.bind] at h
    | ok title =>
      simp only [hx, ht, bind, Except.bind, pure, Except.pure, conclude] at h
      split at h
      · cases h
      · have hspec := harvest_spec h
        rwa [hpages, htokens] at hspec

theorem not_harvested_handle_py {home : FetchResult} {calls : List Call} {e : PyExn} :
    ¬ ∃ r, handle domain (.py e) = .ok r ∧ Harvested home calls r := by
  rintro ⟨r, ⟨⟩, hr⟩
  exact hr.status rfl

theorem not_harvested_circuitOpen {home : FetchResult} {calls : List Call} :
    ¬ ∃ r, handle domain .circuitOpen = .ok r ∧ Harvested home calls r := by
  rintro ⟨r, ⟨⟩, hr⟩
  exact hr.status rfl

theorem readRest_calls (w : World) (n : ℕ) (s : Scratch) (rest : List ScoredUrl) :
    (readRest env domain answers w n s rest).2 = (fetchRest answers n rest).2 := by
  unfold readRest
  dsimp only
  split <;> rfl

/-- Wave 3 after the calls `before`, over a scratchpad that holds the homepage. -/
theorem readRest_harvested_iff (w : World) (n : ℕ) {s : Scratch} {home : FetchResult}
    (before : List Call) (rest : List ScoredUrl)
    (hpages : (⟨home.finalUrl, 0, home.html⟩ : Page) ∈ s.pages)
    (htokens : s.tokens = home.tokens + pageTokens before) :
    (∃ r, (readRest env domain answers w n s rest).1 = .ok r ∧
        Harvested home (before ++ (readRest env domain answers w n s rest).2) r) ↔
      BreakerClosed (readRest env domain answers w n s rest).2 ∧
        ∃ r, (brief env ((readsFrom answers n rest).foldl record s) >>= fun b =>
          conclude env domain b w.post) = .ok r := by
  rw [readRest_calls]
  by_cases hclosed : BreakerClosed (fetchRest answers n rest).2
  · have hout : (readRest env domain answers w n s rest).1 =
        finishPages env domain w ((readsFrom answers n rest).foldl record s) := by
      simp only [readRest, fetchRest_of_closed answers n rest hclosed]
    obtain ⟨htokens', hpages'⟩ := foldl_record s (readsFrom answers n rest)
    rw [hout, finishPages]
    cases hfinish : (brief env ((readsFrom answers n rest).foldl record s) >>= fun b =>
        conclude env domain b w.post) with
    | error e =>
      refine iff_of_false (not_harvested_handle_py domain) ?_
      rintro ⟨-, r, ⟨⟩⟩
    | ok r =>
      obtain ⟨hlist, hsum, hstatus, hreason⟩ := conclude_spec env domain hfinish
      refine iff_of_true ⟨r, rfl, ?_, hstatus, ?_, hreason⟩ ⟨hclosed, r, rfl⟩
      · rw [hlist]
        exact mem_map.mpr ⟨_, hpages' _ hpages, rfl⟩
      · rw [hsum, htokens', htokens, pageTokens_append, pageTokens_fetchRest, Int.add_assoc]
  · have hout : (readRest env domain answers w n s rest).1 = handle domain .circuitOpen := by
      simp only [readRest, fetchRest_of_open answers n rest hclosed]
    rw [hout]
    exact iff_of_false (not_harvested_circuitOpen domain) fun h => hclosed h.1

/-- Waves 2 and 3 over a scratchpad that holds the homepage alone. -/
theorem readSelected_harvested_iff (w : World) (n : ℕ) {s : Scratch} (home : FetchResult)
    (selected : List ScoredUrl)
    (hpages : (⟨home.finalUrl, 0, home.html⟩ : Page) ∈ s.pages)
    (htokens : s.tokens = home.tokens) :
    (∃ r, (readSelected env domain answers w n s selected).1 = .ok r ∧
        Harvested home (readSelected env domain answers w n s selected).2 r) ↔
      BreakerClosed (readSelected env domain answers w n s selected).2 ∧
        ∃ rest, wave3 env (withContact answers n s selected) selected = .ok rest ∧
          ∃ r, (brief env ((readsFrom answers (wave3Call n selected) rest).foldl record
            (withContact answers n s selected)) >>= fun b =>
              conclude env domain b w.post) = .ok r := by
  unfold readSelected wave3 withContact wave3Call
  cases contactOf selected with
  | none =>
    have hrest := readRest_harvested_iff env domain answers w n [] (restOf selected) hpages
      (by rw [htokens]; exact (Int.add_zero _).symm)
    simpa using hrest
  | some c =>
    dsimp only
    by_cases hopen : answers n = .circuitOpen
    · -- the contact page meets an open breaker
      have hpage : fetchPage c (answers n) = .error .circuitOpen := by
        rw [hopen]
        rfl
      simp only [hpage]
      refine iff_of_false (not_harvested_circuitOpen domain) fun h => ?_
      exact h.1 _ (mem_singleton_self _) rfl hopen
    · simp only [fetchPage_eq hopen]
      cases hearly : afterContact env (record s (readOf c (answers n))) (restOf selected) with
      | error e =>
        refine iff_of_false (not_harvested_handle_py domain) ?_
        rintro ⟨-, rest, ⟨⟩, -⟩
      | ok rest =>
        have hcall : pageTokens [⟨.page, c.target, n, answers n⟩] = (answers n).tokens := by
          simp [pageTokens]
        have hrecord := foldl_record s [readOf c (answers n)]
        have hrest := readRest_harvested_iff env domain answers w (n + 1)
          (s := record s (readOf c (answers n)))
          [⟨.page, c.target, n, answers n⟩] rest (hrecord.2 _ hpages)
          (by rw [hcall, ← readOf_tokens c, ← htokens]; rfl)
        have hclosed : ∀ calls, BreakerClosed (⟨.page, c.target, n, answers n⟩ :: calls) ↔
            BreakerClosed calls := by
          intro calls
          exact ⟨fun h c' hc' => h c' (mem_cons_of_mem _ hc'),
            fun h => forall_mem_cons.mpr ⟨fun _ => hopen, h⟩⟩
        simpa [hclosed] using hrest

theorem readSite_harvested_iff (w : World) (n : ℕ) {s : Scratch} (home : FetchResult)
    (c : Fetching (List ScoredUrl × Diag)) (htokens : s.tokens = 0) :
    (∃ r, (readSite env domain answers w n s home c).1 = .ok r ∧
        Harvested home (readSite env domain answers w n s home c).2 r) ↔
      BreakerClosed (readSite env domain answers w n s home c).2 ∧
        NothingRaises env domain answers w n s home c := by
  unfold readSite NothingRaises
  cases c.run w.text with
  | error e =>
    refine iff_of_false (not_harvested_handle_py domain) ?_
    rintro ⟨-, _, _, _, ⟨⟩, -⟩
  | ok found =>
    obtain ⟨selected, diag⟩ := found
    have hiff := readSelected_harvested_iff env domain answers w n
      (s := recordHome s home) home selected
      (mem_append_right _ (mem_singleton_self _))
      (by rw [recordHome]; simp [htokens])
    dsimp only
    rw [hiff]
    simp

/-! ## The attempt -/

theorem hostOf_of_isParked {page : FetchResult} {b : Bool}
    (h : isParked env.web.unicode env.visibleText page.finalUrl page.html = .ok b) :
    ∃ host, hostOf env.web page.finalUrl = .ok host := by
  unfold isParked at h
  cases hsplit : urlsplit env.web.unicode page.finalUrl with
  | ok parts => exact ⟨_, hostOf_ok_iff.mpr ⟨parts, hsplit, rfl⟩⟩
  | error e =>
    have hne : page.finalUrl ≠ [] := by
      intro hnil
      rw [hnil] at hsplit
      cases hsplit
    simp [hne, checkFinalUrl, hsplit, bind, Except.bind] at h

theorem afterWave1_of_not_parked {s : Scratch} {home : FetchResult} (failure : Option Failure)
    (robots sitemap : Str)
    (h : isParked env.web.unicode env.visibleText home.finalUrl home.html = .ok false) :
    ∃ s' c, afterWave1 env domain s ⟨some home, failure⟩ robots sitemap =
      .discover s' home c ∧ s'.tokens = s.tokens := by
  obtain ⟨host, hhost⟩ := hostOf_of_isParked env h
  unfold afterWave1
  simp only [hhost, h]
  exact ⟨_, _, rfl, rfl⟩

theorem preflight_eq_none {dns : DnsResult} (hresolves : dns.resolves = true)
    (hns : checkNs env.web.unicode dns.nsHosts = false) : preflight env domain dns = none := by
  simp [preflight, hresolves, hns]

/-- Once the homepage of a resolving domain that is not parked is fetched, the attempt
returns a harvested result if and only if no sub-page meets an open breaker and nothing
raises on what was fetched. -/
theorem attempt_harvested_iff (w : World) (n : ℕ) {home : FetchResult}
    {failure : Option Failure} (hresolves : w.dns.resolves = true)
    (hns : checkNs env.web.unicode w.dns.nsHosts = false)
    (hhome : (fetchHomepage answers n (ladderUrls domain w.dns)).1 = .ok ⟨some home, failure⟩)
    (hparked : isParked env.web.unicode env.visibleText home.finalUrl home.html = .ok false) :
    ∃ s c, afterWave1 env domain { dns := some w.dns } ⟨some home, failure⟩
        (w.text (robotsUrl domain)) (w.text (sitemapUrl domain)) = .discover s home c ∧
      ((∃ r, (attemptDomain env domain answers w n).1 = .ok r ∧
          Harvested home (attemptDomain env domain answers w n).2 r) ↔
        BreakerClosed (attemptDomain env domain answers w n).2 ∧
          NothingRaises env domain answers w
            (n + (fetchHomepage answers n (ladderUrls domain w.dns)).2.length) s home c) := by
  obtain ⟨s, c, hdiscover, htokens⟩ := afterWave1_of_not_parked env domain
    (s := { dns := some w.dns }) failure (w.text (robotsUrl domain))
    (w.text (sitemapUrl domain)) hparked
  refine ⟨s, c, hdiscover, ?_⟩
  have hkind := fetchHomepage_kind answers n (ladderUrls domain w.dns)
  have hpre := preflight_eq_none env domain hresolves hns
  have hattempt : attemptDomain env domain answers w n =
      ((readSite env domain answers w
          (n + (fetchHomepage answers n (ladderUrls domain w.dns)).2.length) s home c).1,
        (fetchHomepage answers n (ladderUrls domain w.dns)).2 ++
          (readSite env domain answers w
            (n + (fetchHomepage answers n (ladderUrls domain w.dns)).2.length) s home c).2) := by
    simp only [attemptDomain, hpre, hhome, hdiscover]
  rw [hattempt]
  have hiff := readSite_harvested_iff env domain answers w
    (n + (fetchHomepage answers n (ladderUrls domain w.dns)).2.length) home c htokens
  generalize (fetchHomepage answers n (ladderUrls domain w.dns)).2 = ladder at *
  have hharvest : ∀ calls r, Harvested home (ladder ++ calls) r ↔ Harvested home calls r := by
    intro calls r
    have hsum : pageTokens (ladder ++ calls) = pageTokens calls := by
      rw [pageTokens_append, pageTokens_of_homepage hkind, Int.zero_add]
    constructor
    · exact fun h => ⟨h.homepage, h.status, by rw [← hsum]; exact h.tokens, h.reason⟩
    · exact fun h => ⟨h.homepage, h.status, by rw [hsum]; exact h.tokens, h.reason⟩
  have hclosed : ∀ calls, BreakerClosed (ladder ++ calls) ↔ BreakerClosed calls := by
    intro calls
    refine ⟨fun h c hc => h c (mem_append_right _ hc), fun h c hc hpage => ?_⟩
    rcases mem_append.mp hc with hc | hc
    · rw [hkind c hc] at hpage
      cases hpage
    · exact h c hc hpage
  simpa only [hharvest, hclosed] using hiff

section Example

def transientError : FetchError := ⟨.transient, "timeout".toList⟩

/-- An error of the contact page leaves a harvested result. -/
theorem harvested_despite_error :
    ∃ r, (attemptDomain exampleEnv "acme.com".toList (exampleCalls (.error transientError))
          exampleWorld 0).1 = .ok r ∧
        Harvested exampleHomepage (attemptDomain exampleEnv "acme.com".toList
          (exampleCalls (.error transientError)) exampleWorld 0).2 r := by
  obtain ⟨s, c, hdiscover, hharvested⟩ := attempt_harvested_iff exampleEnv "acme.com".toList
    (exampleCalls (.error transientError)) exampleWorld 0 rfl (by decide +kernel) rfl
    (by decide +kernel)
  refine hharvested.mpr ⟨?_, ?_⟩
  · unfold BreakerClosed
    decide +kernel
  · cases hdiscover
    exact ⟨_, _, _, rfl, rfl, _, rfl⟩

/-- The breaker opens after the homepage is fetched: the contact page is refused, and the
attempt ends as if nothing had been fetched. -/
theorem open_breaker_discards_homepage :
    (attemptDomain exampleEnv "acme.com".toList (exampleCalls .circuitOpen) exampleWorld 0).2 =
        [⟨.homepage, "https://acme.com/".toList, 0, .page exampleHomepage⟩,
          ⟨.page, "https://acme.com/contact".toList, 1, .circuitOpen⟩] ∧
      (attemptDomain exampleEnv "acme.com".toList (exampleCalls .circuitOpen) exampleWorld 0).1 =
        .ok (fetchFailed "acme.com".toList "circuit_open".toList none) := by
  decide +kernel

end Example

end Pipeline

end EmailExtractor
