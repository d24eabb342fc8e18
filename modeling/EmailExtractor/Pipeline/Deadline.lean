import EmailExtractor.Pipeline.Timeline

/-!
# What the deadline keeps

When the deadline falls, `_attempt_domain` harvests the scratchpad. A page is entered
there only when the coroutine goes on after the await that brought it: the homepage
after discovery, a page of wave 3 after the last of its wave. What has arrived until
then is waiting, and the deadline drops it.
-/

namespace EmailExtractor

namespace Pipeline

open Url Normalize Discovery List

/-! ## Arrived and waiting pages -/

def tokensOf (pages : List Arrival) : ℤ := (pages.map fun x => x.result.tokens).sum

def withHtml (pages : List Arrival) : List Arrival := pages.filter fun x => x.result.html ≠ []

def withoutHtml (pages : List Arrival) : List Arrival := pages.filter fun x => x.result.html = []

def PageTask.pages (t : PageTask) : List Arrival :=
  match t.answer with
  | none => []
  | some a => a.pages .page

def HomeTask.pages : HomeTask → List Arrival
  | .ended _ ⟨some r, _⟩ => [⟨.homepage, r⟩]
  | _ => []

/-- The pages that have arrived and are not entered in the scratchpad yet. -/
def Stage.waiting : Stage → List Arrival
  | .wave1 home _ _ => home.pages
  | .discovery _ home _ _ => [⟨.homepage, home⟩]
  | .others tasks => tasks.flatMap PageTask.pages
  | _ => []

/-- The result keeps what has arrived: it lists every page with a document, counts
their tokens, and is no failure to fetch when a homepage is among them. -/
structure Keeps (arrived : List Arrival) (r : DomainResult) : Prop where
  listed : ∀ x ∈ withHtml arrived, x.result.finalUrl ∈ r.pagesFetched
  tokens : r.jinaTokens = tokensOf (withHtml arrived)
  status : r.status = .fetchFailed → ∀ x ∈ arrived, x.kind ≠ .homepage

/-- Nothing is lost by a deadline: no homepage waits, a waiting page with a document has
the URL of a page of the scratchpad, the waiting pages cost as much as the pages without
a document, and the readers raise nothing on the pages of the scratchpad. -/
structure NothingLost (env : Env) (a : Attempt) : Prop where
  home : ∀ x ∈ a.stage.waiting, x.kind ≠ .homepage
  listed : ∀ x ∈ withHtml a.stage.waiting, x.result.finalUrl ∈ a.scratch.pages.map Page.url
  tokens : tokensOf a.stage.waiting = tokensOf (withoutHtml a.arrived)
  reads : a.scratch.pages ≠ [] → ∃ x, extractAll env.extractors a.scratch = .ok x

theorem tokensOf_append (xs ys : List Arrival) :
    tokensOf (xs ++ ys) = tokensOf xs + tokensOf ys := by
  simp [tokensOf]

theorem tokensOf_split (xs : List Arrival) :
    tokensOf xs = tokensOf (withHtml xs) + tokensOf (withoutHtml xs) := by
  induction xs with
  | nil => rfl
  | cons x xs ih =>
    by_cases hx : x.result.html = [] <;>
      simp [tokensOf, withHtml, withoutHtml, hx] at ih ⊢ <;> omega

/-! ## The books of an attempt -/

/-- Before the homepage is entered: the scratchpad has no page, and what has arrived
waits. -/
structure Before (arrived : List Arrival) (s : Scratch) (waiting : List Arrival) : Prop where
  pages : s.pages = []
  tokens : s.tokens = 0
  arrived : arrived = waiting

/-- After the homepage is entered: every page that has arrived is entered or waits. -/
structure After (arrived : List Arrival) (s : Scratch) (waiting : List Arrival) : Prop where
  pages : s.pages ≠ []
  kind : ∀ x ∈ waiting, x.kind = .page
  mem : ∀ x ∈ waiting, x ∈ arrived
  listed : ∀ x ∈ arrived, x.result.html ≠ [] →
    x ∈ waiting ∨ x.result.finalUrl ∈ s.pages.map Page.url
  tokens : tokensOf arrived = s.tokens + tokensOf waiting

def Booked (arrived : List Arrival) (p : Scratch × Stage) : Prop :=
  match p.2 with
  | .over _ => True
  | .dns _ | .wave1 .. | .discovery .. => Before arrived p.1 p.2.waiting
  | .contact .. | .others _ | .judging _ => After arrived p.1 p.2.waiting

namespace After

variable {arrived waiting : List Arrival} {s : Scratch}

theorem congr {s' : Scratch} (h : After arrived s waiting) (hpages : s'.pages = s.pages)
    (htokens : s'.tokens = s.tokens) : After arrived s' waiting := by
  refine ⟨?_, h.kind, h.mem, ?_, ?_⟩
  · rw [hpages]
    exact h.pages
  · rw [hpages]
    exact h.listed
  · rw [htokens]
    exact h.tokens

theorem arrive (h : After arrived s waiting) (before after : List Arrival)
    (hwaiting : waiting = before ++ after) (answer : Answer) :
    After (arrived ++ answer.pages .page) s (before ++ answer.pages .page ++ after) := by
  subst hwaiting
  have hkind : ∀ x ∈ answer.pages .page, x.kind = .page := by
    cases answer <;> simp [Answer.pages]
  refine ⟨h.pages, fun x hx => ?_, fun x hx => ?_, fun x hx hhtml => ?_, ?_⟩
  · simp only [mem_append] at hx
    rcases hx with (hx | hx) | hx
    · exact h.kind x (mem_append_left _ hx)
    · exact hkind x hx
    · exact h.kind x (mem_append_right _ hx)
  · simp only [mem_append] at hx ⊢
    rcases hx with (hx | hx) | hx
    · exact .inl (h.mem x (mem_append_left _ hx))
    · exact .inr hx
    · exact .inl (h.mem x (mem_append_right _ hx))
  · rcases mem_append.mp hx with hx | hx
    · rcases h.listed x hx hhtml with hw | hlisted
      · left
        simp only [mem_append] at hw ⊢
        tauto
      · exact .inr hlisted
    · left
      simp only [mem_append]
      tauto
  · have htokens := h.tokens
    simp only [tokensOf_append] at htokens ⊢
    omega

theorem record {c : ScoredUrl} {answer : Answer} {r : PageRead}
    (h : After arrived s (answer.pages .page ++ waiting)) (hr : fetchPage c answer = .ok r) :
    After arrived (record s r) waiting := by
  have hold : ∀ p ∈ s.pages, p ∈ (Pipeline.record s r).pages := (foldl_record s [r]).2
  have htokens : tokensOf (answer.pages .page) = r.tokens := by
    cases answer with
    | page res =>
      cases hr
      simp [Answer.pages, tokensOf]
    | error e =>
      cases hr
      rfl
    | circuitOpen => cases hr
  have hnew : ∀ x ∈ answer.pages .page, x.result.html ≠ [] →
      x.result.finalUrl ∈ (Pipeline.record s r).pages.map Page.url := by
    intro x hx hhtml
    cases answer with
    | page res =>
      cases hr
      obtain rfl := mem_singleton.mp hx
      simp [Pipeline.record, show res.html ≠ [] from hhtml]
    | error e => cases hx
    | circuitOpen => cases hr
  refine ⟨?_, fun x hx => h.kind x (mem_append_right _ hx),
    fun x hx => h.mem x (mem_append_right _ hx), fun x hx hhtml => ?_, ?_⟩
  · obtain ⟨p, hp⟩ := exists_mem_of_ne_nil _ h.pages
    exact ne_nil_of_mem (hold p hp)
  · rcases h.listed x hx hhtml with hw | hlisted
    · rcases mem_append.mp hw with hw | hw
      · exact .inr (hnew x hw hhtml)
      · exact .inl hw
    · obtain ⟨p, hp, hurl⟩ := mem_map.mp hlisted
      exact .inr (mem_map.mpr ⟨p, hold p hp, hurl⟩)
  · rw [h.tokens, tokensOf_append, htokens]
    exact (Int.add_assoc ..).symm

theorem recordAll {tasks : List PageTask} {rs : List PageRead}
    (h : After arrived s (tasks.flatMap PageTask.pages))
    (hgather : gatherTasks tasks = some (.ok rs)) :
    After arrived (rs.foldl Pipeline.record s) [] := by
  induction tasks generalizing s rs with
  | nil =>
    cases hgather
    exact h
  | cons t ts ih =>
    rw [gatherTasks] at hgather
    split at hgather
    · cases hgather
    · cases hgather
    · rename_i r rs' hanswer hrest
      cases hgather
      obtain ⟨answer, hsome, hr⟩ := Option.map_eq_some_iff.mp hanswer
      rw [flatMap_cons, PageTask.pages, hsome] at h
      rw [foldl_cons]
      exact ih (h.record hr) hrest
    · cases hgather

end After

theorem Before.recordHome {arrived : List Arrival} {s : Scratch} {home : FetchResult}
    (h : Before arrived s [⟨.homepage, home⟩]) : After arrived (recordHome s home) [] := by
  refine ⟨by simp [Pipeline.recordHome], by simp, by simp, fun x hx _ => .inr ?_, ?_⟩
  · rw [h.arrived] at hx
    obtain rfl := mem_singleton.mp hx
    simp [Pipeline.recordHome]
  · rw [h.arrived, Pipeline.recordHome, h.tokens]
    simp [tokensOf]

/-! ## The books along a run -/

section Booked

variable (env : Env) (domain : Str) {arrived : List Arrival} {s : Scratch}

theorem brief_scratch {b : Brief} (h : brief env s = .ok b) :
    b.scratch.pages = s.pages ∧ b.scratch.tokens = s.tokens := by
  unfold brief at h
  cases hx : extractAll env.extractors s with
  | error e => simp [hx, bind, Except.bind] at h
  | ok xs =>
    cases ht : env.extractors.pageTitle xs.2.homeHtml with
    | error e => simp [hx, ht, bind, Except.bind] at h
    | ok title =>
      simp only [hx, ht, bind, Except.bind, pure, Except.pure, Except.ok.injEq] at h
      rw [← h]
      exact extractAll_pages hx

theorem booked_startJudge (h : After arrived s []) :
    Booked arrived (startJudge env domain s) := by
  unfold startJudge
  cases hb : brief env s with
  | error e => trivial
  | ok b =>
    obtain ⟨hpages, htokens⟩ := brief_scratch env hb
    exact h.congr hpages htokens

theorem waiting_tasksFrom (n : ℕ) (cs : List ScoredUrl) :
    (tasksFrom n cs).flatMap PageTask.pages = [] := by
  induction cs generalizing n with
  | nil => rfl
  | cons c cs ih => exact ih (n + 1)

theorem booked_startRest (n : ℕ) (rest : List ScoredUrl) (h : After arrived s []) :
    Booked arrived (startRest env domain n s rest) := by
  unfold startRest
  split
  · exact booked_startJudge env domain h
  · dsimp only [Booked, Stage.waiting]
    rwa [waiting_tasksFrom]

theorem booked_startPages (n : ℕ) (selected : List ScoredUrl) (h : After arrived s []) :
    Booked arrived (startPages env domain n s selected) := by
  unfold startPages
  cases contactOf selected with
  | none => exact booked_startRest env domain n _ h
  | some c => exact h

theorem booked_startDiscovery (n : ℕ) {home : FetchResult}
    (c : Fetching (List ScoredUrl × Diag)) (h : Before arrived s [⟨.homepage, home⟩]) :
    Booked arrived (startDiscovery env domain n s home c) := by
  cases c with
  | ret found => exact booked_startPages env domain n _ h.recordHome
  | fail e => trivial
  | ask url k => exact h

theorem afterWave1_discover {home : Home} {robots sitemap : Str} {s' : Scratch}
    {page : FetchResult} {c : Fetching (List ScoredUrl × Diag)}
    (h : afterWave1 env domain s home robots sitemap = .discover s' page c) :
    home.page = some page ∧ s'.pages = s.pages ∧ s'.tokens = s.tokens := by
  unfold afterWave1 at h
  dsimp only at h
  split at h
  · split at h
    · cases h
    · split at h <;> cases h
  · rename_i page' hpage
    split at h
    · cases h
    · split at h
      · cases h
      · cases h
      · cases h
        exact ⟨hpage, rfl, rfl⟩

theorem booked_endWave1 {home : HomeTask} {robots sitemap : Option Str} {p : Scratch × Stage}
    (h : Booked arrived (s, .wave1 home robots sitemap))
    (hend : endWave1 env domain s home robots sitemap = some p) : Booked arrived p := by
  unfold endWave1 at hend
  split at hend
  · cases hend
    trivial
  · rename_i n home robots sitemap
    split at hend
    · cases hend
      trivial
    · rename_i s' page c hwave
      obtain ⟨hpage, hpages, htokens⟩ := afterWave1_discover env domain hwave
      obtain ⟨page', failure⟩ := home
      obtain rfl : page' = some page := hpage
      cases hend
      exact booked_startDiscovery env domain n c
        ⟨hpages.trans h.pages, htokens.trans h.tokens, h.arrived⟩
  · cases hend

theorem pages_startLadder (n : ℕ) (urls : List Str) : (startLadder n urls).pages = [] := by
  cases urls <;> rfl

theorem pages_afterRung (call : ℕ) (rest : List Str) (answer : Answer) :
    (afterRung call rest answer).pages = answer.pages .homepage := by
  cases answer with
  | page r => rfl
  | circuitOpen => rfl
  | error e =>
    rw [afterRung, onRung]
    by_cases hlast : (e.errorClass = .providerAccount || rest.isEmpty) = true
    · rw [if_pos hlast]
      rfl
    · rw [if_neg hlast]
      exact pages_startLadder (call + 1) rest

theorem booked_endContact (call : ℕ) (page : ScoredUrl) (rest : List ScoredUrl)
    (answer : Answer) (h : After arrived s []) :
    Booked (arrived ++ answer.pages .page) (endContact env domain call s page rest answer) := by
  unfold endContact
  cases hr : fetchPage page answer with
  | error e => trivial
  | ok r =>
    have hrecord : After (arrived ++ answer.pages .page) (record s r) [] :=
      (h.arrive [] [] rfl answer).record hr
    dsimp only
    cases afterContact env (record s r) rest with
    | error e => trivial
    | ok rest => exact booked_startRest env domain (call + 1) rest hrecord

theorem waiting_answerTask {k : ℕ} {answer : Answer} {ts ts' : List PageTask}
    (h : answerTask k answer ts = some ts') :
    ∃ before after, ts.flatMap PageTask.pages = before ++ after ∧
      ts'.flatMap PageTask.pages = before ++ answer.pages .page ++ after := by
  obtain ⟨before, t, after, -, hanswer, rfl, rfl⟩ := exists_of_answerTask h
  refine ⟨before.flatMap PageTask.pages, after.flatMap PageTask.pages, ?_, ?_⟩
  · simp [PageTask.pages, hanswer]
  · simp [PageTask.pages]

theorem booked_endOthers {tasks : List PageTask} {p : Scratch × Stage}
    (h : After arrived s (tasks.flatMap PageTask.pages))
    (hend : endOthers env domain s tasks = some p) : Booked arrived p := by
  unfold endOthers at hend
  split at hend
  · cases hend
  · cases hend
    trivial
  · rename_i rs hgather
    cases hend
    exact booked_startJudge env domain (h.recordAll hgather)

theorem booked_step {a a' : Attempt} {e : Event} (h : Booked a.arrived (a.scratch, a.stage))
    (hstep : a.step env domain e = some a') : Booked a'.arrived (a'.scratch, a'.stage) := by
  obtain ⟨s, stage, arrived⟩ := a
  cases e with
  | deadline => cases stage <;> cases hstep <;> trivial
  | resolved dns =>
    cases stage with
    | dns n =>
      dsimp only [Attempt.step, Attempt.onDns] at hstep
      split at hstep
      · cases hstep
        trivial
      · cases hstep
        refine ⟨h.pages, h.tokens, ?_⟩
        exact h.arrived.trans (pages_startLadder n (ladderUrls domain dns)).symm
    | _ => cases hstep
  | html k answer =>
    cases stage with
    | wave1 home robots sitemap =>
      cases home with
      | trying call url rest =>
        dsimp only [Attempt.step, Attempt.onWave1] at hstep
        split at hstep
        · cases hstep
          refine ⟨h.pages, h.tokens, ?_⟩
          have hnone : arrived = [] := h.arrived
          dsimp only [Attempt.goto, Attempt.arrive, Stage.waiting]
          rw [pages_afterRung, hnone, nil_append]
        · cases hstep
      | ended n home | raised => cases hstep
    | contact call page rest =>
      dsimp only [Attempt.step, Attempt.onContact] at hstep
      split at hstep
      · cases hstep
        exact booked_endContact env domain call page rest answer h
      · cases hstep
    | others tasks =>
      obtain ⟨tasks', htasks, rfl⟩ := Option.map_eq_some_iff.mp hstep
      obtain ⟨before, after, hts, hts'⟩ := waiting_answerTask htasks
      have harrive := After.arrive h before after hts answer
      rw [← hts'] at harrive
      exact harrive
    | _ => cases hstep
  | robots text | sitemap text =>
    cases stage with
    | wave1 home robots sitemap =>
      dsimp only [Attempt.step, Attempt.onWave1] at hstep
      split at hstep
      · cases hstep
        exact h
      · cases hstep
    | _ => cases hstep
  | document asked text =>
    cases stage with
    | discovery n home url k =>
      dsimp only [Attempt.step, Attempt.onDiscovery] at hstep
      split at hstep
      · cases hstep
        exact booked_startDiscovery env domain n _ h
      · cases hstep
    | _ => cases hstep
  | judged post =>
    cases stage with
    | judging b =>
      cases hstep
      trivial
    | _ => cases hstep
  | resume =>
    cases stage with
    | wave1 home robots sitemap =>
      obtain ⟨p, hp, rfl⟩ := Option.map_eq_some_iff.mp hstep
      exact booked_endWave1 env domain h hp
    | others tasks =>
      obtain ⟨p, hp, rfl⟩ := Option.map_eq_some_iff.mp hstep
      exact booked_endOthers env domain h hp
    | _ => cases hstep

theorem booked_of_run {n : ℕ} {h : List (Attempt × Event)} {a : Attempt}
    (hrun : Attempt.Runs env domain n h a) : Booked a.arrived (a.scratch, a.stage) := by
  refine Transition.Run.always (I := fun a => Booked a.arrived (a.scratch, a.stage))
    (fun a hstart => ?_) (fun a e a' ih hstep => booked_step env domain ih hstep) hrun
  rw [hstart]
  exact ⟨rfl, rfl, rfl⟩

end Booked

/-! ## The result at the deadline -/

theorem harvest_rules_ok {X : Extractors} {s : Scratch} {x : Extracted × Scratch}
    (domain : Str) (reason : Option Str) (h : extractAll X s = .ok x) :
    ∃ r, harvest X domain s none reason = .ok r := by
  have hsite : siteStatusText (knownBest x.1.ranked (rulesOnly x.1.ranked)).siteStatus =
      .ok none := by
    have hknown : (knownBest x.1.ranked (rulesOnly x.1.ranked)).siteStatus = .null := by
      unfold knownBest rulesOnly
      split <;> split <;> rfl
    rw [hknown]
    rfl
  simp only [harvest, h, bind, Except.bind, Option.getD_none, hsite]
  exact ⟨_, rfl⟩

theorem extractAll_of_harvest {X : Extractors} {domain : Str} {s : Scratch}
    {j : Option Judgment} {reason : Option Str} {r : DomainResult}
    (h : harvest X domain s j reason = .ok r) : ∃ x, extractAll X s = .ok x := by
  cases hx : extractAll X s with
  | ok x => exact ⟨x, rfl⟩
  | error e => simp [harvest, hx, bind, Except.bind] at h

section Kept

variable {env : Env} {domain : Str} {a : Attempt}

theorem keeps_iff_of_before (h : Before a.arrived a.scratch a.stage.waiting) :
    (∃ r, handleTimeout env domain a.scratch = .ok r ∧ Keeps a.arrived r) ↔
      NothingLost env a := by
  have hout : handleTimeout env domain a.scratch =
      .ok (fetchFailed domain "domain_timeout".toList
        (a.scratch.dns.map DnsResult.mxProvider)) := by
    rw [handleTimeout, if_neg (not_not_intro h.pages)]
  have htokens := tokensOf_split a.arrived
  constructor
  · intro hkeeps
    obtain ⟨r, hr, hkeeps⟩ := hkeeps
    rw [hout] at hr
    cases hr
    refine ⟨?_, ?_, ?_, fun hne => absurd h.pages hne⟩
    · rw [← h.arrived]
      exact hkeeps.status rfl
    · rw [← h.arrived]
      exact fun x hx => absurd (hkeeps.listed x hx) not_mem_nil
    · have hzero : (0 : ℤ) = tokensOf (withHtml a.arrived) := hkeeps.tokens
      rw [← h.arrived]
      omega
  · intro hlost
    refine ⟨_, hout, fun x hx => ?_, ?_, fun _ => ?_⟩
    · have hlisted := hlost.listed x (by rwa [← h.arrived])
      rwa [h.pages] at hlisted
    · have hwaiting := hlost.tokens
      rw [← h.arrived] at hwaiting
      change (0 : ℤ) = tokensOf (withHtml a.arrived)
      omega
    · rw [h.arrived]
      exact hlost.home

theorem keeps_iff_of_after (h : After a.arrived a.scratch a.stage.waiting) :
    (∃ r, handleTimeout env domain a.scratch = .ok r ∧ Keeps a.arrived r) ↔
      NothingLost env a := by
  have hsplit := tokensOf_split a.arrived
  have htokens := h.tokens
  rw [handleTimeout, if_pos h.pages]
  constructor
  · intro hkeeps
    obtain ⟨r, hr, hkeeps⟩ := hkeeps
    split at hr
    · rename_i r' hharvest
      cases hr
      obtain ⟨hlist, hsum, -, -⟩ := harvest_spec hharvest
      refine ⟨fun x hx => by simp [h.kind x hx], fun x hx => ?_, ?_,
        fun _ => extractAll_of_harvest hharvest⟩
      · rw [← hlist]
        obtain ⟨hmem, hhtml⟩ := mem_filter.mp hx
        exact hkeeps.listed x (mem_filter.mpr ⟨h.mem x hmem, hhtml⟩)
      · have hkept := hkeeps.tokens
        omega
    · cases hr
  · intro hlost
    obtain ⟨x, hx⟩ := hlost.reads h.pages
    obtain ⟨r, hr⟩ := harvest_rules_ok domain (some "domain_timeout".toList) hx
    obtain ⟨hlist, hsum, hstatus, -⟩ := harvest_spec hr
    rw [hr]
    refine ⟨r, rfl, fun x hx => ?_, ?_, fun hfailed => absurd hfailed hstatus⟩
    · rw [hlist]
      obtain ⟨hmem, hhtml⟩ := mem_filter.mp hx
      rcases h.listed x hmem (of_decide_eq_true hhtml) with hw | hlisted
      · exact hlost.listed x (mem_filter.mpr ⟨hw, hhtml⟩)
      · exact hlisted
    · have hwaiting := hlost.tokens
      omega

end Kept

/-- The deadline, at any point of any run, keeps every page that has arrived if and only
if nothing is lost in the state it meets. -/
theorem deadline_keeps_iff (env : Env) (domain : Str) (n : ℕ) {h : List (Attempt × Event)}
    {a a' : Attempt} (hrun : Attempt.Runs env domain n h a)
    (hstep : a.step env domain .deadline = some a') :
    (∃ r, a'.stage = .over (.ok r) ∧ Keeps a'.arrived r) ↔ NothingLost env a := by
  have hbooked := booked_of_run env domain hrun
  have hend : a' = a.goto (a.scratch, .over (handleTimeout env domain a.scratch)) := by
    obtain ⟨s, stage, arrived⟩ := a
    cases stage <;> cases hstep <;> rfl
  have hkeeps : (∃ r, handleTimeout env domain a.scratch = .ok r ∧ Keeps a.arrived r) ↔
      NothingLost env a := by
    obtain ⟨s, stage, arrived⟩ := a
    cases stage with
    | dns | wave1 | discovery => exact keeps_iff_of_before hbooked
    | contact | others | judging => exact keeps_iff_of_after hbooked
    | _ => cases hstep
  rw [← hkeeps, hend]
  simp [Attempt.goto]

section Example

/-- The deadline falls while the contact page is awaited: the homepage is kept. -/
theorem deadline_during_contact :
    ∃ h a a', Attempt.Runs exampleEnv "acme.com".toList 0 h a ∧
      a.step exampleEnv "acme.com".toList .deadline = some a' ∧
      a'.arrived = [⟨.homepage, exampleHomepage⟩] ∧
      ∃ r, a'.stage = .over (.ok r) ∧ Keeps a'.arrived r := by
  obtain ⟨h, a, hrun, hwaiting, harrived, hreads, hstep⟩ := Transition.Run.exists_of_exec
    (fun a => a = Attempt.start 0) (Attempt.step exampleEnv "acme.com".toList)
    (Attempt.start 0) rfl
    [.resolved exampleWorld.dns, .html 0 (.page exampleHomepage), .robots [], .sitemap [],
      .resume]
    (fun p => p.2.stage.waiting = [] ∧ p.2.arrived = [⟨.homepage, exampleHomepage⟩] ∧
      (extractAll exampleEnv.extractors p.2.scratch).isOk = true ∧
      (p.2.step exampleEnv "acme.com".toList .deadline).map Attempt.arrived =
        some [⟨.homepage, exampleHomepage⟩])
    (by decide +kernel)
  obtain ⟨a', ha', harrived'⟩ := Option.map_eq_some_iff.mp hstep
  refine ⟨h, a, a', hrun, ha', harrived', ?_⟩
  refine (deadline_keeps_iff exampleEnv "acme.com".toList 0 hrun ha').mpr ⟨?_, ?_, ?_, ?_⟩
  · simp [hwaiting]
  · simp [hwaiting, withHtml]
  · rw [hwaiting, harrived]
    decide +kernel
  · intro _
    cases hx : extractAll exampleEnv.extractors a.scratch with
    | ok x => exact ⟨x, rfl⟩
    | error e =>
      rw [hx] at hreads
      cases hreads

/-- The deadline falls while discovery reads a sitemap: the homepage is lost. -/
theorem deadline_during_discovery :
    ∃ h a r, Attempt.Runs exampleEnv "acme.com".toList 0 h a ∧
      a.arrived = [⟨.homepage, exampleHomepage⟩] ∧ a.stage = .over (.ok r) ∧
      r = fetchFailed "acme.com".toList "domain_timeout".toList (some .google) ∧
      ¬ Keeps a.arrived r := by
  obtain ⟨h, a, hrun, harrived, hresult⟩ := Transition.Run.exists_of_exec
    (fun a => a = Attempt.start 0) (Attempt.step exampleEnv "acme.com".toList)
    (Attempt.start 0) rfl
    [.resolved exampleWorld.dns, .html 0 (.page exampleHomepage),
      .robots "Sitemap: https://acme.com/pages.xml".toList, .sitemap [], .resume, .deadline]
    (fun p => p.2.arrived = [⟨.homepage, exampleHomepage⟩] ∧ p.2.stage.result =
      some (.ok (fetchFailed "acme.com".toList "domain_timeout".toList (some .google))))
    (by decide +kernel)
  refine ⟨h, a, _, hrun, harrived, ?_, rfl, fun hkeeps => ?_⟩
  · exact Stage.eq_over_of_result hresult
  · refine hkeeps.status rfl ⟨.homepage, exampleHomepage⟩ ?_ rfl
    rw [harrived]
    exact mem_singleton_self _

end Example

end Pipeline

end EmailExtractor
