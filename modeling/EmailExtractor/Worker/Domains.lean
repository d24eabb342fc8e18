import EmailExtractor.Library.Url
import EmailExtractor.Queue.Tables
import EmailExtractor.RateLimit.Entries

/-!
# The domains in the gates of a worker

A worker with a `JinaFetcher`. Pages go through the gate of the provider, `robots.txt` and
the sitemaps through the gate of the direct fetcher. The `finally` of `_handle` calls
`release_domain` on the gate of the provider once `process_domain` is over.

Where every page fetch of a handler is over by then, the gate of the provider has entries
only for domains that are being processed. The gate of the direct fetcher is never told, and
keeps the entry of every domain it has seen. A page fetch that outlives `process_domain`
leaves an entry in the gate of the provider too: `asyncio.gather` does not wait for the other
fetches when one of them raises `CircuitOpen`.
-/

namespace EmailExtractor

namespace Worker

open Queue RateLimit Transition Url List

def hostOf (U : Unicode) (url : Str) : Except ValueError Str := do
  let parts ← urlsplit U url
  return U.lower (parts.hostname U)

/-- `domain or host_of(url)`. -/
def fetchKey (U : Unicode) (domain url : Str) : Except ValueError Str :=
  if domain = [] then hostOf U url else .ok domain

/-- `get_html` and `get_text`. -/
inductive FetchKind
  | page
  | text
  deriving DecidableEq

structure FetchTask where
  task : ℕ
  kind : FetchKind
  claim : Claim
  deriving DecidableEq

/-- The gate of the provider and that of the direct fetcher, the claims whose handlers have
not come to `process_domain`, are in it or past it, and the outstanding fetches. -/
structure Crawl where
  gates : FetchKind → Gate ℕ Str
  started : List Claim
  processing : List Claim
  ending : List Claim
  fetches : List FetchTask

inductive CrawlAction
  | enter (c : Claim)
  | answer (c : Claim)
  | process (c : Claim)
  | spawn (f : FetchTask)
  | move (f : FetchTask) (url : Str) (m : Move)
  | done (f : FetchTask)
  | release (c : Claim)
  | leave (c : Claim)
  deriving DecidableEq

variable (U : Unicode) (cfgs : FetchKind → GateConfig)

namespace Crawl

def new : Crawl := ⟨fun k => Gate.new (cfgs k), [], [], [], []⟩

def setGate (s : Crawl) (k : FetchKind) (g : Gate ℕ Str) : Crawl :=
  { s with gates := Function.update s.gates k g }

def step (s : Crawl) : CrawlAction → Option Crawl
  | .enter c => some { s with started := c :: s.started }
  -- The handler ends without a fetch: a cached result, or a domain that is locked.
  | .answer c =>
    if c ∈ s.started then some { s with started := s.started.erase c } else none
  | .process c =>
    if c ∈ s.started then
      some { s with started := s.started.erase c, processing := c :: s.processing }
    else none
  | .spawn f =>
    if f.claim ∈ s.processing ∧ f.task ∉ s.fetches.map FetchTask.task then
      some { s with fetches := f :: s.fetches }
    else none
  | .move f url m =>
    if f ∈ s.fetches then
      match fetchKey U f.claim.domain url with
      | .error _ => none
      | .ok d =>
        ((s.gates f.kind).step (cfgs f.kind) (m.action f.task d)).map (s.setGate f.kind)
    else none
  | .done f =>
    if f ∈ s.fetches ∧ (s.gates f.kind).stage f.task = .outside then
      some { s with fetches := s.fetches.erase f }
    else none
  -- The `finally`, however `process_domain` ended.
  | .release c =>
    if c ∈ s.processing then
      some { s.setGate .page ((s.gates .page).releaseDomain (cfgs .page) c.domain) with
        processing := s.processing.erase c
        ending := c :: s.ending }
    else none
  | .leave c =>
    if c ∈ s.ending then some { s with ending := s.ending.erase c } else none

def Quiet (s : Crawl) : Prop :=
  s.started = [] ∧ s.processing = [] ∧ s.ending = [] ∧ s.fetches = []

instance (s : Crawl) : Decidable s.Quiet := inferInstanceAs (Decidable (_ ∧ _ ∧ _ ∧ _))

end Crawl

abbrev CrawlRun :=
  Run (fun s : Crawl => s = Crawl.new cfgs) (fun s a s' => s.step U cfgs a = some s')

/-- The claims are of domains with a name, and when `process_domain` of a claim ends, the
page fetches that it began have ended. -/
def PagesAwaited (s : Crawl) : CrawlAction → Prop
  | .enter c => c.domain ≠ []
  | .release c => ∀ f ∈ s.fetches, f.kind = .page → f.claim ≠ c
  | _ => True

/-- No fetch of a text is admitted to the gate of the direct fetcher. -/
def NoTexts (_ : Crawl) : CrawlAction → Prop
  | .move f _ m => f.kind = .text → m ≠ .check .admits
  | _ => True

instance (s : Crawl) : (a : CrawlAction) → Decidable (PagesAwaited s a)
  | .enter c => inferInstanceAs (Decidable (c.domain ≠ []))
  | .release c => inferInstanceAs (Decidable (∀ f ∈ s.fetches, f.kind = .page → f.claim ≠ c))
  | .answer _ | .process _ | .spawn _ | .move _ _ _ | .done _ | .leave _ => .isTrue trivial

instance (s : Crawl) : (a : CrawlAction) → Decidable (NoTexts s a)
  | .move f _ m => inferInstanceAs (Decidable (f.kind = .text → m ≠ .check .admits))
  | .enter _ | .answer _ | .process _ | .spawn _ | .done _ | .release _ | .leave _ =>
    .isTrue trivial

/-! ## The gate of the provider -/

/-- The entries are for domains in process, and so is every page fetch. -/
structure Tidy (cfg : GateConfig) (s : Crawl) : Prop where
  kept : Kept cfg (s.gates .page)
  apart : NamesApart (s.gates .page)
  started : ∀ c ∈ s.started, c.domain ≠ []
  processing : ∀ c ∈ s.processing, c.domain ≠ []
  fetching : ∀ f ∈ s.fetches, f.kind = .page → f.claim ∈ s.processing
  placed : ∀ t d, ((s.gates .page).stage t).domain? = some d →
    ∃ f ∈ s.fetches, f.task = t ∧ f.kind = .page ∧ f.claim.domain = d
  entered : ∀ d i, (s.gates .page).perDomain d = some i → ∃ c ∈ s.processing, c.domain = d

variable {U cfgs} {s s' : Crawl} {cfg : GateConfig}

@[simp] theorem setGate_self (k : FetchKind) (g : Gate ℕ Str) : (s.setGate k g).gates k = g := by
  unfold Crawl.setGate
  exact Function.update_self ..

@[simp] theorem setGate_of_ne {k k' : FetchKind} (hne : k' ≠ k) (g : Gate ℕ Str) :
    (s.setGate k g).gates k' = s.gates k' := by
  unfold Crawl.setGate
  exact Function.update_of_ne hne ..

theorem step_move {f : FetchTask} {url : Str} {m : Move}
    (h : s.step U cfgs (.move f url m) = some s') :
    f ∈ s.fetches ∧ ∃ d g, fetchKey U f.claim.domain url = .ok d ∧
      (s.gates f.kind).step (cfgs f.kind) (m.action f.task d) = some g ∧
      s' = s.setGate f.kind g := by
  obtain ⟨hf, hmove⟩ := Option.ite_none_right_eq_some.mp h
  cases hkey : fetchKey U f.claim.domain url with
  | error e =>
    rw [hkey] at hmove
    cases hmove
  | ok d =>
    rw [hkey] at hmove
    obtain ⟨g, hg, hs'⟩ := Option.map_eq_some_iff.mp hmove
    exact ⟨hf, d, g, rfl, hg, hs'.symm⟩

theorem tidy_new : Tidy (cfgs .page) (Crawl.new cfgs) := by
  refine ⟨.new, ?_, ?_, ?_, ?_, ?_, ?_⟩
  · rintro _ _ _ ⟨⟩
  · rintro _ ⟨⟩
  · rintro _ ⟨⟩
  · rintro _ ⟨⟩
  · rintro _ _ ⟨⟩
  · rintro _ _ ⟨⟩

theorem fetchKey_of_ne_nil {domain url : Str} (h : domain ≠ []) :
    fetchKey U domain url = .ok domain := if_neg h

theorem Tidy.move {f : FetchTask} {m : Move} {g : Gate ℕ Str} (h : Tidy cfg s)
    (hf : f ∈ s.fetches) (hkind : f.kind = .page)
    (hstep : (s.gates .page).step cfg (m.action f.task f.claim.domain) = some g) :
    Tidy cfg (s.setGate .page g) := by
  have hmoved := moved_step hstep
  have hg : (s.setGate .page g).gates .page = g := setGate_self ..
  have hclaim : f.claim ∈ s.processing := h.fetching f hf hkind
  refine ⟨?_, ?_, h.started, h.processing, h.fetching, ?_, ?_⟩
  · rw [hg]
    exact h.kept.step hstep
  · rw [hg]
    exact hmoved.namesApart h.kept h.apart
  · rw [hg]
    intro t d hd
    by_cases ht : t = f.task
    · rw [ht] at hd ⊢
      rcases hmoved.own d hd with rfl | hold
      · exact ⟨f, hf, rfl, hkind, rfl⟩
      · exact h.placed f.task d hold
    · rw [hmoved.others t ht] at hd
      exact h.placed t d hd
  · rw [hg]
    intro d i hd
    rcases hmoved.entry hd with hold | rfl | hstage
    · exact h.entered d i hold
    · exact ⟨f.claim, hclaim, rfl⟩
    · obtain ⟨f', hf', -, hkind', hdomain⟩ := h.placed f.task d hstage
      exact ⟨f'.claim, h.fetching f' hf' hkind', hdomain⟩

/-- An entry that `release_domain` leaves is used by a fetch for another claim, and that one
is still in process. -/
theorem Tidy.release {c : Claim} (h : Tidy cfg s)
    (hawaited : ∀ f ∈ s.fetches, f.kind = .page → f.claim ≠ c) :
    Tidy cfg { s.setGate .page ((s.gates .page).releaseDomain cfg c.domain) with
      processing := s.processing.erase c
      ending := c :: s.ending } := by
  have hg : (s.setGate .page ((s.gates .page).releaseDomain cfg c.domain)).gates .page =
      (s.gates .page).releaseDomain cfg c.domain := setGate_self ..
  have hfetching : ∀ f ∈ s.fetches, f.kind = .page → f.claim ∈ s.processing.erase c :=
    fun f hf hkind => (mem_erase_of_ne (hawaited f hf hkind)).mpr (h.fetching f hf hkind)
  refine ⟨?_, ?_, h.started, fun c' hc' => h.processing c' (mem_of_mem_erase hc'),
    hfetching, ?_, ?_⟩
  · rw [hg]
    exact h.kept.releaseDomain c.domain
  · rw [hg]
    exact h.apart.releaseDomain
  · rw [hg, releaseDomain_stage]
    exact h.placed
  · rw [hg]
    intro d i hd
    obtain ⟨hentry, hout⟩ := releaseDomain_entry hd
    by_cases hdomain : d = c.domain
    · obtain ⟨t, huses⟩ := h.kept.exists_user h.apart hentry (hout hdomain)
      obtain ⟨f, hf, -, hkind, hfd⟩ := h.placed t d (Stage.domain?_of_uses huses)
      exact ⟨f.claim, hfetching f hf hkind, hfd⟩
    · obtain ⟨c', hc', hcd⟩ := h.entered d i hentry
      have hne : c' ≠ c := by
        rintro rfl
        exact hdomain hcd.symm
      exact ⟨c', (mem_erase_of_ne hne).mpr hc', hcd⟩

theorem Tidy.setText (h : Tidy cfg s) (g : Gate ℕ Str) : Tidy cfg (s.setGate .text g) := by
  have hg : (s.setGate .text g).gates .page = s.gates .page := setGate_of_ne (by decide) g
  refine ⟨?_, ?_, h.started, h.processing, h.fetching, ?_, ?_⟩
  · rw [hg]
    exact h.kept
  · rw [hg]
    exact h.apart
  · rw [hg]
    exact h.placed
  · rw [hg]
    exact h.entered

theorem Tidy.done {f : FetchTask} (h : Tidy cfg s)
    (hout : (s.gates f.kind).stage f.task = .outside) :
    Tidy cfg { s with fetches := s.fetches.erase f } := by
  refine ⟨h.kept, h.apart, h.started, h.processing,
    fun f' hf' => h.fetching f' (mem_of_mem_erase hf'), ?_, h.entered⟩
  intro t d hd
  obtain ⟨f', hf', htask, hkind, hdomain⟩ := h.placed t d hd
  have hne : f' ≠ f := by
    rintro rfl
    rw [hkind, htask] at hout
    rw [hout] at hd
    cases hd
  exact ⟨f', (mem_erase_of_ne hne).mpr hf', htask, hkind, hdomain⟩

theorem Tidy.step {a : CrawlAction} (h : Tidy (cfgs .page) s) (hok : PagesAwaited s a)
    (hstep : s.step U cfgs a = some s') : Tidy (cfgs .page) s' := by
  cases a with
  | enter c =>
    cases hstep
    refine ⟨h.kept, h.apart, ?_, h.processing, h.fetching, h.placed, h.entered⟩
    exact forall_mem_cons.mpr ⟨hok, h.started⟩
  | answer c =>
    obtain ⟨-, ⟨⟩⟩ := Option.ite_none_right_eq_some.mp hstep
    exact ⟨h.kept, h.apart, fun c' hc' => h.started c' (mem_of_mem_erase hc'),
      h.processing, h.fetching, h.placed, h.entered⟩
  | process c =>
    obtain ⟨hc, ⟨⟩⟩ := Option.ite_none_right_eq_some.mp hstep
    refine ⟨h.kept, h.apart, fun c' hc' => h.started c' (mem_of_mem_erase hc'),
      forall_mem_cons.mpr ⟨h.started c hc, h.processing⟩,
      fun f hf hkind => mem_cons_of_mem c (h.fetching f hf hkind), h.placed, ?_⟩
    intro d i hd
    obtain ⟨c', hc', hcd⟩ := h.entered d i hd
    exact ⟨c', mem_cons_of_mem c hc', hcd⟩
  | spawn f =>
    obtain ⟨hf, ⟨⟩⟩ := Option.ite_none_right_eq_some.mp hstep
    refine ⟨h.kept, h.apart, h.started, h.processing,
      forall_mem_cons.mpr ⟨fun _ => hf.1, h.fetching⟩, ?_, h.entered⟩
    intro t d hd
    obtain ⟨f', hf', hrest⟩ := h.placed t d hd
    exact ⟨f', mem_cons_of_mem f hf', hrest⟩
  | move f url m =>
    obtain ⟨hf, d, g, hkey, hg, rfl⟩ := step_move hstep
    cases hkind : f.kind with
    | page =>
      rw [fetchKey_of_ne_nil (h.processing _ (h.fetching f hf hkind))] at hkey
      cases hkey
      rw [hkind] at hg
      exact h.move hf hkind hg
    | text => exact h.setText g
  | done f =>
    obtain ⟨hf, ⟨⟩⟩ := Option.ite_none_right_eq_some.mp hstep
    exact h.done hf.2
  | release c =>
    obtain ⟨-, ⟨⟩⟩ := Option.ite_none_right_eq_some.mp hstep
    exact h.release hok
  | leave c =>
    obtain ⟨-, ⟨⟩⟩ := Option.ite_none_right_eq_some.mp hstep
    exact ⟨h.kept, h.apart, h.started, h.processing, h.fetching, h.placed, h.entered⟩

theorem Tidy.page_empty (h : Tidy cfg s) (hquiet : s.Quiet) (d : Str) :
    (s.gates .page).perDomain d = none := by
  cases hd : (s.gates .page).perDomain d with
  | none => rfl
  | some i =>
    obtain ⟨c, hc, -⟩ := h.entered d i hd
    rw [hquiet.2.1] at hc
    cases hc

/-! ## The gate of the direct fetcher -/

theorem setGate_page_text (g : Gate ℕ Str) :
    (s.setGate .page g).gates .text = s.gates .text := setGate_of_ne (by decide) g

theorem text_step {a : CrawlAction} (hstep : s.step U cfgs a = some s') :
    s'.gates .text = s.gates .text ∨ ∃ f url m d g, a = .move f url m ∧ f.kind = .text ∧
      (s.gates .text).step (cfgs .text) (m.action f.task d) = some g ∧ s'.gates .text = g := by
  cases a with
  | enter c =>
    cases hstep
    exact .inl rfl
  | answer c | process c | spawn f | done f | leave c =>
    obtain ⟨-, ⟨⟩⟩ := Option.ite_none_right_eq_some.mp hstep
    exact .inl rfl
  | release c =>
    obtain ⟨-, ⟨⟩⟩ := Option.ite_none_right_eq_some.mp hstep
    exact .inl (setGate_page_text ((s.gates .page).releaseDomain (cfgs .page) c.domain))
  | move f url m =>
    obtain ⟨-, d, g, -, hg, rfl⟩ := step_move hstep
    cases hkind : f.kind with
    | page => exact .inl (setGate_page_text g)
    | text =>
      rw [hkind] at hg
      exact .inr ⟨f, url, m, d, g, rfl, hkind, hg, setGate_self .text g⟩

/-- No task is at the semaphores of the gate, and there is no entry. -/
def Untouched (g : Gate ℕ Str) : Prop :=
  (∀ t, (g.stage t).Idle) ∧ ∀ d, g.perDomain d = none

theorem untouched_step {a : CrawlAction} (h : Untouched (s.gates .text)) (hok : NoTexts s a)
    (hstep : s.step U cfgs a = some s') : Untouched (s'.gates .text) := by
  rcases text_step hstep with hsame | ⟨f, url, m, d, g, rfl, hkind, hg, hnew⟩
  · rw [hsame]
    exact h
  · obtain ⟨hidle, hentries⟩ := idle_step hg (hok hkind) (h.1 f.task)
    rw [hnew]
    refine ⟨fun t => ?_, fun e => (congrFun hentries e).trans (h.2 e)⟩
    by_cases ht : t = f.task
    · rw [ht]
      exact hidle
    · rw [(moved_step hg).others t ht]
      exact h.1 t

theorem text_keeps {a : CrawlAction} {d : Str} {i : ℕ} (hstep : s.step U cfgs a = some s')
    (hd : (s.gates .text).perDomain d = some i) : (s'.gates .text).perDomain d = some i := by
  rcases text_step hstep with hsame | ⟨f, url, m, e, g, -, -, hg, hnew⟩
  · rw [hsame]
    exact hd
  · rw [hnew]
    exact (moved_step hg).keeps hd

theorem text_keeps_run {h : List (Crawl × CrawlAction)} {d : Str} {i : ℕ}
    (hd : (s.gates .text).perDomain d = some i)
    (hrun : Run (fun t => t = s) (fun s a s' => s.step U cfgs a = some s') h s') :
    (s'.gates .text).perDomain d = some i := by
  refine hrun.always (I := fun t : Crawl => (t.gates .text).perDomain d = some i) ?_ ?_
  · rintro _ rfl
    exact hd
  · intro _ _ _ ht hstep
    exact text_keeps hstep ht

/-! ## Runs -/

/-- In every run in which no text fetch is admitted, and in which page fetches end before the
processing of their domain does: when no handler is running and no fetch is outstanding,
neither gate has a semaphore for a domain. -/
theorem gates_forget_domains (U : Unicode) (cfgs : FetchKind → GateConfig)
    (h : List (Crawl × CrawlAction)) (s : Crawl) (hrun : CrawlRun U cfgs h s)
    (hpages : Guarded PagesAwaited h) (htexts : Guarded NoTexts h) (hquiet : s.Quiet)
    (k : FetchKind) (d : Str) : (s.gates k).perDomain d = none := by
  cases k with
  | page =>
    have htidy : Tidy (cfgs .page) s := by
      refine hrun.invariant ?_ (fun _ _ _ => Tidy.step) hpages
      rintro _ rfl
      exact tidy_new
    exact htidy.page_empty hquiet d
  | text =>
    have hnew : Untouched ((Crawl.new cfgs).gates .text) := ⟨fun _ => .inl rfl, fun _ => rfl⟩
    have huntouched : Untouched (s.gates .text) := by
      refine hrun.invariant (I := fun s : Crawl => Untouched (s.gates .text)) ?_ ?_ htexts
      · rintro _ rfl
        exact hnew
      · intro _ _ _
        exact untouched_step
    exact huntouched.2 d

/-! ## One domain -/

def defaultLimits (_ : FetchKind) : GateConfig := ⟨50, 2⟩

def acme : Claim := ⟨1, "acme.com".toList, 1, "t".toList, none⟩

def fetchActions (f : FetchTask) (url : Str) : List CrawlAction :=
  [.spawn f, .move f url (.check .admits), .move f url .grant, .move f url .leave, .done f]

/-- The homepage is fetched and the handler ends. -/
theorem homepage_forgotten : ∃ h s, CrawlRun Unicode.ascii defaultLimits h s ∧ s.Quiet ∧
    h.length = 9 ∧ (s.gates .page).perDomain "acme.com".toList = none := by
  obtain ⟨h, s, hrun, hpages, htexts, hquiet, hlength⟩ := Run.exists_of_exec
    (fun s : Crawl => s = Crawl.new defaultLimits) (Crawl.step .ascii defaultLimits)
    (Crawl.new defaultLimits) rfl
    ([.enter acme, .process acme] ++
      fetchActions ⟨0, .page, acme⟩ "https://acme.com/".toList ++ [.release acme, .leave acme])
    (fun p => (∀ q ∈ p.1, PagesAwaited q.1 q.2) ∧ (∀ q ∈ p.1, NoTexts q.1 q.2) ∧ p.2.Quiet ∧
      p.1.length = 9)
    (by decide +kernel)
  exact ⟨h, s, hrun, hquiet, hlength,
    gates_forget_domains _ _ h s hrun hpages htexts hquiet .page _⟩

/-- The entry of a domain whose `robots.txt` was fetched stays in the gate of the direct
fetcher, whatever happens later. And where the breaker refuses one of two pages and
`process_domain` ends while the other page is being fetched, the entry stays in the gate of
the provider. -/
theorem domains_stay_in_gates :
    (∃ h s, CrawlRun Unicode.ascii defaultLimits h s ∧ Guarded PagesAwaited h ∧ s.Quiet ∧
      ∀ h' s', Run (fun t => t = s)
          (fun s a s' => s.step Unicode.ascii defaultLimits a = some s') h' s' →
        (s'.gates .text).perDomain "acme.com".toList = some 0) ∧
    ∃ h s, CrawlRun Unicode.ascii defaultLimits h s ∧ Guarded NoTexts h ∧ s.Quiet ∧
      (s.gates .page).perDomain "acme.com".toList = some 0 := by
  obtain ⟨h, s, hrun, hpages, hquiet, hentry⟩ := Run.exists_of_exec
    (fun s : Crawl => s = Crawl.new defaultLimits) (Crawl.step .ascii defaultLimits)
    (Crawl.new defaultLimits) rfl
    ([.enter acme, .process acme] ++
      fetchActions ⟨0, .text, acme⟩ "https://acme.com/robots.txt".toList ++
      fetchActions ⟨1, .page, acme⟩ "https://acme.com/".toList ++ [.release acme, .leave acme])
    (fun p => (∀ q ∈ p.1, PagesAwaited q.1 q.2) ∧ p.2.Quiet ∧
      (p.2.gates .text).perDomain "acme.com".toList = some 0)
    (by decide +kernel)
  obtain ⟨h', s', hrun', htexts, hquiet', hentry'⟩ := Run.exists_of_exec
    (fun s : Crawl => s = Crawl.new defaultLimits) (Crawl.step .ascii defaultLimits)
    (Crawl.new defaultLimits) rfl
    ([.enter acme, .process acme, .spawn ⟨0, .page, acme⟩, .spawn ⟨1, .page, acme⟩,
      .move ⟨0, .page, acme⟩ "https://acme.com/about".toList (.check .admits),
      .move ⟨0, .page, acme⟩ "https://acme.com/about".toList .grant] ++
      -- The other page waits for the breaker until its half minute is over.
      List.replicate 4 (.move ⟨1, .page, acme⟩ "https://acme.com/team".toList (.check .naps)) ++
      [.move ⟨1, .page, acme⟩ "https://acme.com/team".toList (.check .raises),
      .done ⟨1, .page, acme⟩, .release acme, .leave acme,
      .move ⟨0, .page, acme⟩ "https://acme.com/about".toList .leave, .done ⟨0, .page, acme⟩])
    (fun p => (∀ q ∈ p.1, NoTexts q.1 q.2) ∧ p.2.Quiet ∧
      (p.2.gates .page).perDomain "acme.com".toList = some 0)
    (by decide +kernel)
  refine ⟨⟨h, s, hrun, hpages, hquiet, ?_⟩, h', s', hrun', htexts, hquiet', hentry'⟩
  intro _ _ hlater
  exact text_keeps_run hentry hlater

end Worker

end EmailExtractor
