import EmailExtractor.Discovery.Robust
import EmailExtractor.Pipeline.Process

/-!
# Provider account errors

A `FetchError` of class `PROVIDER_ACCOUNT` has to reach the worker. On the homepage
ladder it does: the ladder stops, `_process` raises it and the handlers let it pass.
On a sub-page `fetch_page` takes it for an empty page, so it is absorbed into the
result. An error raised again is known by the number of its call.
-/

namespace EmailExtractor

namespace Pipeline

open Url Normalize Discovery List

def Call.RaisesAccount (c : Call) (e : FetchError) : Prop :=
  c.answer = .error e ∧ e.errorClass = .providerAccount

def Numbered (n : ℕ) (calls : List Call) : Prop :=
  calls.map Call.number = List.range' n calls.length

theorem Numbered.nil (n : ℕ) : Numbered n [] := rfl

theorem Numbered.cons {n : ℕ} {c : Call} {calls : List Call} (hc : c.number = n)
    (h : Numbered (n + 1) calls) : Numbered n (c :: calls) := by
  unfold Numbered at *
  rw [map_cons, h, hc, length_cons, List.range'_succ]

theorem Numbered.append {n : ℕ} {calls calls' : List Call} (h : Numbered n calls)
    (h' : Numbered (n + calls.length) calls') : Numbered n (calls ++ calls') := by
  unfold Numbered at *
  rw [map_append, h, h', length_append, List.range'_append_1]

theorem Numbered.eq_of_number {n : ℕ} {calls : List Call} (h : Numbered n calls) {c c' : Call}
    (hc : c ∈ calls) (hc' : c' ∈ calls) (heq : c.number = c'.number) : c = c' := by
  have hnodup : (calls.map Call.number).Nodup := by
    rw [h]
    exact nodup_range'
  exact inj_on_of_nodup_map hnodup hc hc' heq

variable (env : Env) (domain : Str) (answers : ℕ → Answer)

/-! ## The homepage ladder -/

section

variable (n : ℕ) (urls : List Str)

include n urls

theorem fetchHomepage_numbered : Numbered n (fetchHomepage answers n urls).2 := by
  induction urls generalizing n with
  | nil => exact .nil n
  | cons url urls ih =>
    unfold fetchHomepage
    dsimp only
    split
    · exact .cons rfl (.nil _)
    · exact .cons rfl (.nil _)
    · exact .cons rfl (ih (n + 1))

theorem fetchHomepage_kind : ∀ c ∈ (fetchHomepage answers n urls).2, c.kind = .homepage := by
  induction urls generalizing n with
  | nil => simp [fetchHomepage]
  | cons url urls ih =>
    unfold fetchHomepage
    dsimp only
    split
    · simp
    · simp
    · simpa using ih (n + 1)

theorem fetchHomepage_account {c : Call} {e : FetchError}
    (hc : c ∈ (fetchHomepage answers n urls).2) (he : c.RaisesAccount e) :
    (fetchHomepage answers n urls).1 = .ok ⟨none, some ⟨e, c.number⟩⟩ := by
  induction urls generalizing n with
  | nil => simp [fetchHomepage] at hc
  | cons url urls ih =>
    -- the first call, where the answer of the rung decides
    have hfirst : answers n = .error e →
        onRung n urls.isEmpty (answers n) = .home ⟨none, some ⟨e, n⟩⟩ := by
      intro h
      rw [h, onRung, if_pos (by simp [he.2])]
    unfold fetchHomepage at hc ⊢
    dsimp only at hc ⊢
    split at hc
    · rename_i h hstep
      obtain rfl := mem_singleton.mp hc
      rw [hfirst he.1] at hstep
      cases hstep
      rfl
    · rename_i hstep
      obtain rfl := mem_singleton.mp hc
      rw [hfirst he.1] at hstep
      cases hstep
    · rename_i hstep
      rcases mem_cons.mp hc with rfl | hc
      · rw [hfirst he.1] at hstep
        cases hstep
      · exact ih (n + 1) hc

theorem fetchHomepage_failure {h : Home} {f : Failure}
    (hout : (fetchHomepage answers n urls).1 = .ok h) (hf : h.failure = some f) :
    ∃ c ∈ (fetchHomepage answers n urls).2, c.number = f.call ∧ c.answer = .error f.error := by
  induction urls generalizing n with
  | nil =>
    cases hout
    cases hf
  | cons url urls ih =>
    unfold fetchHomepage at hout ⊢
    dsimp only at hout ⊢
    split at hout
    · rename_i h' hstep
      cases hout
      refine ⟨_, mem_singleton_self _, ?_⟩
      cases hans : answers n with
      | page r =>
        rw [hans, onRung] at hstep
        cases hstep
        cases hf
      | error e =>
        rw [hans, onRung] at hstep
        split at hstep
        · cases hstep
          cases hf
          exact ⟨rfl, rfl⟩
        · cases hstep
      | circuitOpen =>
        rw [hans, onRung] at hstep
        cases hstep
    · cases hout
    · obtain ⟨c, hc, hc'⟩ := ih (n + 1) hout
      exact ⟨c, mem_cons_of_mem _ hc, hc'⟩

theorem fetchHomepage_error {x : Exn} (hout : (fetchHomepage answers n urls).1 = .error x) :
    x = .circuitOpen := by
  induction urls generalizing n with
  | nil => cases hout
  | cons url urls ih =>
    unfold fetchHomepage at hout
    dsimp only at hout
    split at hout
    · cases hout
    · cases hout
      rfl
    · exact ih (n + 1) hout

end

/-! ## After the homepage -/

theorem afterWave1_error {s : Scratch} {h : Home} {robots sitemap : Str} {x : Exn}
    (hover : afterWave1 env domain s h robots sitemap = .over (.error x)) :
    ∃ f, h.failure = some f ∧ f.error.errorClass = .providerAccount ∧ x = .fetch f := by
  unfold afterWave1 at hover
  dsimp only at hover
  split at hover
  · split at hover
    · cases hover
    · rename_i f hf
      split at hover
      · rename_i hclass
        rw [handle, if_pos hclass] at hover
        cases hover
        exact ⟨f, hf, hclass, rfl⟩
      · cases hover
  · split at hover
    · cases hover
    · split at hover <;> cases hover

theorem afterWave1_account {s : Scratch} {f : Failure} {robots sitemap : Str}
    (hf : f.error.errorClass = .providerAccount) :
    afterWave1 env domain s ⟨none, some f⟩ robots sitemap = .over (.error (.fetch f)) := by
  simp [afterWave1, handle, hf]

theorem fetchRest_numbered (n : ℕ) (cs : List ScoredUrl) :
    Numbered n (fetchRest answers n cs).2 := by
  induction cs generalizing n with
  | nil => exact .nil n
  | cons c cs ih => exact .cons rfl (ih (n + 1))

theorem fetchRest_kind (n : ℕ) (cs : List ScoredUrl) :
    ∀ c ∈ (fetchRest answers n cs).2, c.kind = .page := by
  induction cs generalizing n with
  | nil => simp [fetchRest]
  | cons c cs ih => simpa [fetchRest] using ih (n + 1)

theorem fetchRest_error (n : ℕ) (cs : List ScoredUrl) {x : Exn}
    (hout : (fetchRest answers n cs).1 = .error x) : x = .circuitOpen := by
  induction cs generalizing n with
  | nil => cases hout
  | cons c cs ih =>
    unfold fetchRest at hout
    dsimp only at hout
    split at hout
    · rename_i e he
      cases hout
      cases hans : answers n with
      | page r | error e => simp [hans, fetchPage] at he
      | circuitOpen =>
        simp only [hans, fetchPage, Except.error.injEq] at he
        exact he.symm
    · split at hout
      · rename_i e he
        cases hout
        exact ih (n + 1) he
      · cases hout

/-- Calls for sub-pages, and a result whatever they answer. -/
structure Absorbs (n : ℕ) (run : Except Exn DomainResult × List Call) : Prop where
  numbered : Numbered n run.2
  kind : ∀ c ∈ run.2, c.kind = .page
  returns : ∀ x, run.1 ≠ .error x

theorem handle_py_returns (e : PyExn) (x : Exn) : handle domain (.py e) ≠ .error x := by
  rw [handle]
  exact fun h => by cases h

theorem handle_circuitOpen_returns (x : Exn) : handle domain .circuitOpen ≠ .error x := by
  rw [handle]
  exact fun h => by cases h

theorem finishPages_returns (w : World) (s : Scratch) (x : Exn) :
    finishPages env domain w s ≠ .error x := by
  unfold finishPages
  split
  · exact fun h => by cases h
  · exact handle_py_returns domain _ x

theorem readRest_absorbs (w : World) (n : ℕ) (s : Scratch) (rest : List ScoredUrl) :
    Absorbs n (readRest env domain answers w n s rest) := by
  have hnumbered := fetchRest_numbered answers n rest
  have hkind := fetchRest_kind answers n rest
  unfold readRest
  cases hout : (fetchRest answers n rest).1 with
  | error e =>
    obtain rfl := fetchRest_error answers n rest hout
    simp only [hout]
    exact ⟨hnumbered, hkind, handle_circuitOpen_returns domain⟩
  | ok rs =>
    simp only [hout]
    exact ⟨hnumbered, hkind, finishPages_returns env domain w _⟩

theorem fetchPage_error {c : ScoredUrl} {a : Answer} {x : Exn} (h : fetchPage c a = .error x) :
    x = .circuitOpen ∧ a = .circuitOpen := by
  cases a with
  | page r | error e => cases h
  | circuitOpen =>
    cases h
    exact ⟨rfl, rfl⟩

theorem readSelected_absorbs (w : World) (n : ℕ) (s : Scratch) (selected : List ScoredUrl) :
    Absorbs n (readSelected env domain answers w n s selected) := by
  unfold readSelected
  split
  · exact readRest_absorbs env domain answers w n s _
  · rename_i c _
    have hcall : ∀ c' ∈ [(⟨.page, c.target, n, answers n⟩ : Call)], c'.kind = .page := by simp
    dsimp only
    split
    · rename_i e he
      obtain ⟨rfl, -⟩ := fetchPage_error he
      exact ⟨.cons rfl (.nil _), hcall, handle_circuitOpen_returns domain⟩
    · rename_i r _
      split
      · exact ⟨.cons rfl (.nil _), hcall, handle_py_returns domain _⟩
      · rename_i rest _
        have hrest := readRest_absorbs env domain answers w
          (n + 1) (record s r) rest
        exact ⟨.cons rfl hrest.numbered, forall_mem_cons.mpr ⟨rfl, hrest.kind⟩,
          hrest.returns⟩

theorem readSite_absorbs (w : World) (n : ℕ) (s : Scratch) (home : FetchResult)
    (c : Fetching (List ScoredUrl × Diag)) :
    Absorbs n (readSite env domain answers w n s home c) := by
  unfold readSite
  split
  · exact ⟨.nil _, by simp, handle_py_returns domain _⟩
  · exact readSelected_absorbs env domain answers w n _ _

/-! ## Attempts -/

/-- Every account error of the ladder is raised, and nothing else is. -/
structure Accounts (n : ℕ) (run : Except Exn DomainResult × List Call) : Prop where
  numbered : Numbered n run.2
  home : ∀ c ∈ run.2, c.kind = .homepage → ∀ e, c.RaisesAccount e →
    run.1 = .error (.fetch ⟨e, c.number⟩)
  raised : ∀ x, run.1 = .error x →
    ∃ c ∈ run.2, ∃ e, c.kind = .homepage ∧ x = .fetch ⟨e, c.number⟩

theorem attemptDomain_accounts (w : World) (n : ℕ) :
    Accounts n (attemptDomain env domain answers w n) := by
  unfold attemptDomain
  cases preflight env domain w.dns with
  | some r => exact ⟨.nil n, by simp, fun x h => by cases h⟩
  | none =>
    have hnumbered := fetchHomepage_numbered answers n (ladderUrls domain w.dns)
    have hkind := fetchHomepage_kind answers n (ladderUrls domain w.dns)
    have haccount := @fetchHomepage_account answers n (ladderUrls domain w.dns)
    have hfailure := @fetchHomepage_failure answers n (ladderUrls domain w.dns)
    have herror := @fetchHomepage_error answers n (ladderUrls domain w.dns)
    generalize fetchHomepage answers n (ladderUrls domain w.dns) = ladder at *
    obtain ⟨out, calls⟩ := ladder
    dsimp only at *
    cases out with
    | error e =>
      obtain rfl := herror rfl
      refine ⟨hnumbered, fun c hc _ e he => ?_, fun x h => ?_⟩
      · cases haccount hc he
      · exact absurd h (handle_circuitOpen_returns domain x)
    | ok h =>
      dsimp only
      split
      · rename_i out hover
        refine ⟨hnumbered, fun c hc _ e he => ?_, fun x hx => ?_⟩
        · obtain rfl := Except.ok.inj (haccount hc he)
          rw [afterWave1_account env domain he.2] at hover
          cases hover
          rfl
        · dsimp only at hx
          obtain rfl := hx
          obtain ⟨f, hf, -, rfl⟩ := afterWave1_error env domain hover
          obtain ⟨c, hc, hcall, -⟩ := hfailure rfl hf
          exact ⟨c, hc, f.error, hkind c hc, by rw [hcall]⟩
      · rename_i s page c hdiscover
        have hsite := readSite_absorbs env domain answers
          w (n + calls.length) s page c
        refine ⟨hnumbered.append hsite.numbered, fun c' hc' hhome e he => ?_, fun x hx => ?_⟩
        · rcases mem_append.mp hc' with hc' | hc'
          · obtain rfl := Except.ok.inj (haccount hc' he)
            rw [afterWave1_account env domain he.2] at hdiscover
            cases hdiscover
          · rw [hsite.kind c' hc'] at hhome
            cases hhome
        · exact absurd hx (hsite.returns x)

theorem attemptsFrom_accounts (worlds : ℕ → World) (left k n : ℕ) :
    Accounts n (attemptsFrom env domain answers worlds left k n) := by
  induction left generalizing k n with
  | zero => exact attemptDomain_accounts env domain answers (worlds k) n
  | succ left ih =>
    have hfirst := attemptDomain_accounts env domain answers
      (worlds k) n
    unfold attemptsFrom
    generalize attemptDomain env domain answers (worlds k) n = first at *
    obtain ⟨out, calls⟩ := first
    dsimp only
    cases out with
    | error e => exact hfirst
    | ok r =>
      dsimp only
      split
      · have hrest := ih (k + 1) (n + calls.length)
        refine ⟨hfirst.numbered.append hrest.numbered, fun c hc hhome e he => ?_,
          fun x hx => ?_⟩
        · rcases mem_append.mp hc with hc | hc
          · cases hfirst.home c hc hhome e he
          · exact hrest.home c hc hhome e he
        · obtain ⟨c, hc, e, hce⟩ := hrest.raised x hx
          exact ⟨c, mem_append_right _ hc, e, hce⟩
      · exact hfirst

/-- A provider account error raised by a call is raised by `process_domain` for every
call if and only if no call for a sub-page raises one. -/
theorem account_error_raised_iff (env : Env) (domain : Str) (answers : ℕ → Answer)
    (worlds : ℕ → World) :
    (∀ c ∈ (processDomain env domain answers worlds).2, ∀ e, c.RaisesAccount e →
        (processDomain env domain answers worlds).1 = .error (.fetch ⟨e, c.number⟩)) ↔
      ∀ c ∈ (processDomain env domain answers worlds).2, c.kind = .page →
        ∀ e, ¬ c.RaisesAccount e := by
  have hspec : Accounts 0 (processDomain env domain answers worlds) :=
    attemptsFrom_accounts env domain answers worlds _ 0 0
  constructor
  · intro h c hc hpage e he
    obtain ⟨c', hc', e', hhome, heq⟩ := hspec.raised _ (h c hc e he)
    have hnumber : c.number = c'.number := by
      simp only [Exn.fetch.injEq, Failure.mk.injEq] at heq
      exact heq.2
    obtain rfl := hspec.numbered.eq_of_number hc hc' hnumber
    rw [hpage] at hhome
    cases hhome
  · intro h c hc e he
    cases hkind : c.kind with
    | homepage => exact hspec.home c hc hkind e he
    | page => exact absurd he (h c hc hkind e)

/-! ## An error on a sub-page -/

section Example

def exampleHome : Str := "<a href=/contact>Contact</a>".toList

/-- Tools that read the one link of the example, and find no address anywhere. -/
def exampleEnv : Env where
  web := exampleWeb fun html =>
    if html = exampleHome then [⟨"/contact".toList, "Contact".toList⟩] else []
  visibleText html := if html = exampleHome then "Contact".toList else html
  extractors :=
    { extractPage := fun _ _ => .ok ([], [], [])
      extractPhones := fun _ _ => .ok []
      extractSocials := fun _ _ => .ok []
      pickContactFormUrl := fun _ => .ok none
      pageTitle := fun _ => .ok []
      mergePages := List.flatten
      rankCandidates := fun _ _ _ => [] }
  floats := ⟨fun n => some (.fin n), fun _ => none⟩
  judge := ⟨"jev-latest".toList, 4 / 5, 1 / 2⟩
  maxPagesPerDomain := 5
  earlyStopOnFirstGood := false
  maxDomainAttempts := 3

def exampleWorld : World where
  dns := ⟨true, true, true, .google, []⟩
  text _ := []
  post _ := none

def exampleHomepage : FetchResult where
  finalUrl := "https://acme.com/".toList
  html := exampleHome
  jinaTokens := some 7

/-- The homepage is fetched, the first sub-page call gets `first`, every other an empty
page. -/
def exampleCalls (first : Answer) : ℕ → Answer
  | 0 => .page exampleHomepage
  | 1 => first
  | _ => .page { finalUrl := "https://acme.com/about".toList, html := [] }

def accountError : FetchError := ⟨.providerAccount, "jina_account".toList⟩

/-- An account error on the contact page ends in a result. -/
theorem account_error_absorbed :
    (∃ c ∈ (processDomain exampleEnv "acme.com".toList (exampleCalls (.error accountError))
        fun _ => exampleWorld).2, c.RaisesAccount accountError) ∧
      (processDomain exampleEnv "acme.com".toList (exampleCalls (.error accountError))
        fun _ => exampleWorld).1.isOk := by
  unfold Call.RaisesAccount
  decide +kernel

end Example

end Pipeline

end EmailExtractor
