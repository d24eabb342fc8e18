import EmailExtractor.Library.Run
import EmailExtractor.Pipeline.Subpages

/-!
# An attempt in time

`attemptDomain` runs an attempt to its end. Here the same stages are cut where
`_process` awaits: an attempt waits for the answers of the services, which come in any
order, and the deadline may fall between any two of them. A `gather` keeps the results
of its tasks until the coroutine goes on, so what a task returned is not yet in the
scratchpad; `arrived` is the record of the pages that calls of `get_html` returned.

Without a deadline the order does not matter: every run with the answers of an oracle
ends as `attemptDomain` says.
-/

namespace EmailExtractor

namespace Pipeline

open Url Normalize Discovery

/-! ## Stages and events -/

/-- The task of `fetch_homepage`: it waits for the answer of a rung, or it is over. -/
inductive HomeTask
  | trying (call : ℕ) (url : Str) (rest : List Str)
  | ended (next : ℕ) (home : Home)
  | raised

/-- A task of `fetch_page`, with the answer of its call. -/
structure PageTask where
  call : ℕ
  page : ScoredUrl
  answer : Option Answer := none

/-- Where `_process` awaits. The numbers are those of the calls of `get_html`. -/
inductive Stage
  | dns (next : ℕ)
  | wave1 (home : HomeTask) (robots sitemap : Option Str)
  | discovery (next : ℕ) (home : FetchResult) (url : Str)
      (k : Str → Fetching (List ScoredUrl × Diag))
  | contact (call : ℕ) (page : ScoredUrl) (rest : List ScoredUrl)
  | others (tasks : List PageTask)
  | judging (b : Brief)
  | over (out : Except Exn DomainResult)

structure Arrival where
  kind : CallKind
  result : FetchResult
  deriving DecidableEq

structure Attempt where
  scratch : Scratch
  stage : Stage
  arrived : List Arrival

/-- What an attempt waits for. `resume` is the coroutine going on after a `gather`. -/
inductive Event
  | resolved (dns : DnsResult)
  | html (call : ℕ) (answer : Answer)
  | robots (text : Str)
  | sitemap (text : Str)
  | document (url text : Str)
  | judged (post : Json → Option Json)
  | resume
  | deadline

def Answer.pages (kind : CallKind) : Answer → List Arrival
  | .page r => [⟨kind, r⟩]
  | _ => []

def Stage.result : Stage → Option (Except Exn DomainResult)
  | .over out => some out
  | _ => none

theorem Stage.eq_over_of_result {stage : Stage} {out : Except Exn DomainResult}
    (h : stage.result = some out) : stage = .over out := by
  cases stage <;> simp_all [Stage.result]

namespace Attempt

def start (n : ℕ) : Attempt := ⟨{}, .dns n, []⟩

def goto (a : Attempt) (p : Scratch × Stage) : Attempt :=
  { a with scratch := p.1, stage := p.2 }

def arrive (a : Attempt) (kind : CallKind) (answer : Answer) : Attempt :=
  { a with arrived := a.arrived ++ answer.pages kind }

end Attempt

/-! ## From one stage to the next -/

section Steps

variable (env : Env) (domain : Str)

def startLadder (n : ℕ) : List Str → HomeTask
  | [] => .ended n ⟨none, none⟩
  | url :: urls => .trying n url urls

def afterRung (call : ℕ) (rest : List Str) (answer : Answer) : HomeTask :=
  match onRung call rest.isEmpty answer with
  | .home h => .ended (call + 1) h
  | .raised => .raised
  | .next => startLadder (call + 1) rest

def startJudge (s : Scratch) : Scratch × Stage :=
  match brief env s with
  | .error e => (s, .over (handle domain (.py e)))
  | .ok b => (b.scratch, .judging b)

def tasksFrom : ℕ → List ScoredUrl → List PageTask
  | _, [] => []
  | n, c :: cs => { call := n, page := c } :: tasksFrom (n + 1) cs

def startRest (n : ℕ) (s : Scratch) (rest : List ScoredUrl) : Scratch × Stage :=
  if rest = [] then startJudge env domain s else (s, .others (tasksFrom n rest))

def startPages (n : ℕ) (s : Scratch) (selected : List ScoredUrl) : Scratch × Stage :=
  match contactOf selected with
  | none => startRest env domain n s (restOf selected)
  | some c => (s, .contact n c (restOf selected))

/-- Discovery up to the next document it asks for. -/
def startDiscovery (n : ℕ) (s : Scratch) (home : FetchResult) :
    Fetching (List ScoredUrl × Diag) → Scratch × Stage
  | .ret (selected, _) => startPages env domain n (recordHome s home) selected
  | .fail _ => (s, .over (handle domain (.py .valueError)))
  | .ask url k => (s, .discovery n home url k)

def endWave1 (s : Scratch) :
    HomeTask → Option Str → Option Str → Option (Scratch × Stage)
  | .raised, _, _ => some (s, .over (handle domain .circuitOpen))
  | .ended n h, some robots, some sitemap =>
    match afterWave1 env domain s h robots sitemap with
    | .over out => some (s, .over out)
    | .discover s page c => some (startDiscovery env domain n s page c)
  | _, _, _ => none

def endContact (call : ℕ) (s : Scratch) (page : ScoredUrl) (rest : List ScoredUrl)
    (answer : Answer) : Scratch × Stage :=
  match fetchPage page answer with
  | .error e => (s, .over (handle domain e))
  | .ok r =>
    match afterContact env (record s r) rest with
    | .error e => (record s r, .over (handle domain (.py e)))
    | .ok rest => startRest env domain (call + 1) (record s r) rest

/-- The answer of a call, kept by the task that waits for it. -/
def answerTask (call : ℕ) (answer : Answer) : List PageTask → Option (List PageTask)
  | [] => none
  | t :: ts =>
    if t.call = call ∧ t.answer = none then some ({ t with answer := some answer } :: ts)
    else (answerTask call answer ts).map (t :: ·)

/-- What `gather` gives: an exception as soon as a task raises, the pages once every
task is over. -/
def gatherTasks : List PageTask → Option (Except Exn (List PageRead))
  | [] => some (.ok [])
  | t :: ts =>
    match t.answer.map (fetchPage t.page), gatherTasks ts with
    | some (.error e), _ => some (.error e)
    | _, some (.error e) => some (.error e)
    | some (.ok r), some (.ok rs) => some (.ok (r :: rs))
    | _, _ => none

def endOthers (s : Scratch) (tasks : List PageTask) : Option (Scratch × Stage) :=
  match gatherTasks tasks with
  | none => none
  | some (.error e) => some (s, .over (handle domain e))
  | some (.ok rs) => some (startJudge env domain (rs.foldl record s))

def endJudge (b : Brief) (post : Json → Option Json) : Except Exn DomainResult :=
  match conclude env domain b post with
  | .ok r => .ok r
  | .error e => handle domain (.py e)

/-! ## The step function -/

namespace Attempt

variable (a : Attempt)

def onDns (n : ℕ) : Event → Option Attempt
  | .resolved dns =>
    let s := { a.scratch with dns := some dns }
    match preflight env domain dns with
    | some r => some (a.goto (s, .over (.ok r)))
    | none => some (a.goto (s, .wave1 (startLadder n (ladderUrls domain dns)) none none))
  | _ => none

def onWave1 (home : HomeTask) (robots sitemap : Option Str) : Event → Option Attempt
  | .html k answer =>
    match home with
    | .trying call _ rest =>
      if k = call then
        some ((a.arrive .homepage answer).goto
          (a.scratch, .wave1 (afterRung call rest answer) robots sitemap))
      else none
    | _ => none
  | .robots text =>
    if robots = none then some (a.goto (a.scratch, .wave1 home (some text) sitemap))
    else none
  | .sitemap text =>
    if sitemap = none then some (a.goto (a.scratch, .wave1 home robots (some text)))
    else none
  | .resume => (endWave1 env domain a.scratch home robots sitemap).map a.goto
  | _ => none

def onDiscovery (next : ℕ) (home : FetchResult) (url : Str)
    (k : Str → Fetching (List ScoredUrl × Diag)) : Event → Option Attempt
  | .document asked text =>
    if asked = url then some (a.goto (startDiscovery env domain next a.scratch home (k text)))
    else none
  | _ => none

def onContact (call : ℕ) (page : ScoredUrl) (rest : List ScoredUrl) : Event → Option Attempt
  | .html k answer =>
    if k = call then
      some ((a.arrive .page answer).goto
        (endContact env domain call a.scratch page rest answer))
    else none
  | _ => none

def onOthers (tasks : List PageTask) : Event → Option Attempt
  | .html k answer =>
    (answerTask k answer tasks).map fun tasks =>
      (a.arrive .page answer).goto (a.scratch, .others tasks)
  | .resume => (endOthers env domain a.scratch tasks).map a.goto
  | _ => none

def onJudging (b : Brief) : Event → Option Attempt
  | .judged post => some (a.goto (a.scratch, .over (endJudge env domain b post)))
  | _ => none

/-- The deadline ends every stage with what the scratchpad holds. -/
def step (a : Attempt) (e : Event) : Option Attempt :=
  match a.stage, e with
  | .over _, _ => none
  | _, .deadline => some (a.goto (a.scratch, .over (handleTimeout env domain a.scratch)))
  | .dns n, e => a.onDns env domain n e
  | .wave1 home robots sitemap, e => a.onWave1 env domain home robots sitemap e
  | .discovery n home url k, e => a.onDiscovery env domain n home url k e
  | .contact call page rest, e => a.onContact env domain call page rest e
  | .others tasks, e => a.onOthers env domain tasks e
  | .judging b, e => a.onJudging env domain b e

def Runs (n : ℕ) : List (Attempt × Event) → Attempt → Prop :=
  Transition.Run (fun a => a = start n) fun a e a' => a.step env domain e = some a'

end Attempt

end Steps

/-! ## The outcome of a stage

What an attempt will return when the answers that are still to come are those of
`answers` and `w`. No step with such an answer changes it. -/

section Outcome

variable (env : Env) (domain : Str) (answers : ℕ → Answer) (w : World)

/-- What the task of the ladder will return, and the number of the next call. -/
def HomeTask.finish : HomeTask → Except Exn (ℕ × Home)
  | .trying call url rest =>
    match fetchHomepage answers call (url :: rest) with
    | (.error e, _) => .error e
    | (.ok h, calls) => .ok (call + calls.length, h)
  | .ended next h => .ok (next, h)
  | .raised => .error .circuitOpen

def wave1Outcome (s : Scratch) (home : HomeTask) (robots sitemap : Str) :
    Except Exn DomainResult :=
  match home.finish answers with
  | .error e => handle domain e
  | .ok (n, h) =>
    match afterWave1 env domain s h robots sitemap with
    | .over out => out
    | .discover s page c => (readSite env domain answers w n s page c).1

def contactOutcome (call : ℕ) (s : Scratch) (page : ScoredUrl) (rest : List ScoredUrl) :
    Except Exn DomainResult :=
  match fetchPage page (answers call) with
  | .error e => handle domain e
  | .ok r =>
    match afterContact env (record s r) rest with
    | .error e => handle domain (.py e)
    | .ok rest => (readRest env domain answers w (call + 1) (record s r) rest).1

def finishTasks : List PageTask → Except Exn (List PageRead)
  | [] => .ok []
  | t :: ts =>
    match fetchPage t.page (t.answer.getD (answers t.call)) with
    | .error e => .error e
    | .ok r =>
      match finishTasks ts with
      | .error e => .error e
      | .ok rs => .ok (r :: rs)

def outcomeAt (s : Scratch) : Stage → Except Exn DomainResult
  | .dns n =>
    match preflight env domain w.dns with
    | some r => .ok r
    | none =>
      wave1Outcome env domain answers w { s with dns := some w.dns }
        (startLadder n (ladderUrls domain w.dns)) (w.text (robotsUrl domain))
        (w.text (sitemapUrl domain))
  | .wave1 home robots sitemap =>
    wave1Outcome env domain answers w s home (robots.getD (w.text (robotsUrl domain)))
      (sitemap.getD (w.text (sitemapUrl domain)))
  | .discovery n home url k => (readSite env domain answers w n s home (.ask url k)).1
  | .contact call page rest => contactOutcome env domain answers w call s page rest
  | .others tasks =>
    match finishTasks answers tasks with
    | .error e => handle domain e
    | .ok rs => finishPages env domain w (rs.foldl record s)
  | .judging b => endJudge env domain b w.post
  | .over out => out

/-- The answer is the one of `answers` and `w`. -/
def Event.From : Event → Prop
  | .resolved dns => dns = w.dns
  | .html k answer => answer = answers k
  | .robots text => text = w.text (robotsUrl domain)
  | .sitemap text => text = w.text (sitemapUrl domain)
  | .document url text => text = w.text url
  | .judged post => post = w.post
  | .resume => True
  | .deadline => False

theorem finish_startLadder (n : ℕ) (urls : List Str) :
    (startLadder n urls).finish answers =
      match fetchHomepage answers n urls with
      | (.error e, _) => .error e
      | (.ok h, calls) => .ok (n + calls.length, h) := by
  cases urls <;> rfl

theorem finish_afterRung (call : ℕ) (url : Str) (rest : List Str) :
    (afterRung call rest (answers call)).finish answers =
      (HomeTask.trying call url rest).finish answers := by
  rw [HomeTask.finish, fetchHomepage, afterRung]
  cases onRung call rest.isEmpty (answers call) with
  | home h => rfl
  | raised => rfl
  | next =>
    dsimp only
    rw [finish_startLadder]
    cases hrest : fetchHomepage answers (call + 1) rest with
    | mk out calls =>
      cases out with
      | error e => rfl
      | ok h => simp [Nat.add_assoc, Nat.add_comm 1]

theorem finishTasks_tasksFrom (n : ℕ) (cs : List ScoredUrl) :
    finishTasks answers (tasksFrom n cs) = (fetchRest answers n cs).1 := by
  induction cs generalizing n with
  | nil => rfl
  | cons c cs ih =>
    rw [tasksFrom, finishTasks, ih (n + 1), fetchRest]
    rfl

theorem exists_of_answerTask {k : ℕ} {answer : Answer} {ts ts' : List PageTask}
    (h : answerTask k answer ts = some ts') :
    ∃ before t after, t.call = k ∧ t.answer = none ∧ ts = before ++ t :: after ∧
      ts' = before ++ { t with answer := some answer } :: after := by
  induction ts generalizing ts' with
  | nil => cases h
  | cons t ts ih =>
    rw [answerTask] at h
    split at h
    · rename_i hwaits
      cases h
      exact ⟨[], t, ts, hwaits.1, hwaits.2, rfl, rfl⟩
    · obtain ⟨us, hus, rfl⟩ := Option.map_eq_some_iff.mp h
      obtain ⟨before, t', after, hcall, hanswer, rfl, rfl⟩ := ih hus
      exact ⟨t :: before, t', after, hcall, hanswer, rfl, rfl⟩

theorem finishTasks_answerTask {k : ℕ} {ts ts' : List PageTask}
    (h : answerTask k (answers k) ts = some ts') :
    finishTasks answers ts' = finishTasks answers ts := by
  obtain ⟨before, t, after, rfl, hanswer, rfl, rfl⟩ := exists_of_answerTask h
  clear h
  induction before with
  | nil =>
    rw [List.nil_append, List.nil_append, finishTasks, finishTasks, hanswer]
    rfl
  | cons t' before ih =>
    rw [List.cons_append, List.cons_append, finishTasks, finishTasks, ih]

theorem finishTasks_error {ts : List PageTask} {x : Exn}
    (h : finishTasks answers ts = .error x) : x = .circuitOpen := by
  induction ts with
  | nil => cases h
  | cons t ts ih =>
    rw [finishTasks] at h
    split at h
    · rename_i e he
      cases h
      exact (fetchPage_error he).1
    · split at h
      · rename_i e he
        cases h
        exact ih he
      · cases h

theorem finishTasks_gatherTasks {ts : List PageTask} {out : Except Exn (List PageRead)}
    (h : gatherTasks ts = some out) : finishTasks answers ts = out := by
  induction ts generalizing out with
  | nil => exact Option.some.inj h
  | cons t ts ih =>
    rw [gatherTasks] at h
    rw [finishTasks]
    cases hts : gatherTasks ts with
    | none =>
      -- the first task has raised
      cases ht : t.answer.map (fetchPage t.page) with
      | none => simp [hts, ht] at h
      | some first =>
        cases first with
        | ok r => simp [hts, ht] at h
        | error e =>
          obtain ⟨a, ha, hfetch⟩ := Option.map_eq_some_iff.mp ht
          rw [ht, hts] at h
          cases h
          simp [ha, hfetch]
    | some rest =>
      rw [ih hts]
      cases rest with
      | error e =>
        obtain rfl := finishTasks_error answers (ih hts)
        have hout : out = .error .circuitOpen := by
          cases ht : t.answer.map (fetchPage t.page) with
          | none =>
            rw [ht, hts] at h
            exact (Option.some.inj h).symm
          | some first =>
            cases first with
            | ok r =>
              rw [ht, hts] at h
              exact (Option.some.inj h).symm
            | error e =>
              obtain ⟨a, ha, hfetch⟩ := Option.map_eq_some_iff.mp ht
              obtain ⟨rfl, -⟩ := fetchPage_error hfetch
              rw [ht, hts] at h
              exact (Option.some.inj h).symm
        rw [hout]
        cases hfirst : fetchPage t.page (t.answer.getD (answers t.call)) with
        | error x => rw [(fetchPage_error hfirst).1]
        | ok r => rfl
      | ok rs =>
        cases ht : t.answer with
        | none => simp [ht, hts] at h
        | some a =>
          rw [ht, hts, Option.map_some] at h
          rw [Option.getD_some]
          cases hfirst : fetchPage t.page a with
          | error x =>
            rw [hfirst] at h
            exact Option.some.inj h
          | ok r =>
            rw [hfirst] at h
            exact Option.some.inj h

theorem outcomeAt_startJudge (s : Scratch) :
    outcomeAt env domain answers w (startJudge env domain s).1 (startJudge env domain s).2 =
      finishPages env domain w s := by
  unfold startJudge finishPages
  cases brief env s with
  | error e => rfl
  | ok b => rfl

theorem outcomeAt_startRest (n : ℕ) (s : Scratch) (rest : List ScoredUrl) :
    outcomeAt env domain answers w (startRest env domain n s rest).1
        (startRest env domain n s rest).2 =
      (readRest env domain answers w n s rest).1 := by
  unfold startRest readRest
  by_cases hrest : rest = []
  · rw [if_pos hrest, outcomeAt_startJudge, hrest]
    rfl
  · rw [if_neg hrest]
    dsimp only [outcomeAt]
    rw [finishTasks_tasksFrom]
    cases (fetchRest answers n rest).1 <;> rfl

theorem outcomeAt_startPages (n : ℕ) (s : Scratch) (selected : List ScoredUrl) :
    outcomeAt env domain answers w (startPages env domain n s selected).1
        (startPages env domain n s selected).2 =
      (readSelected env domain answers w n s selected).1 := by
  unfold startPages readSelected
  cases contactOf selected with
  | none => exact outcomeAt_startRest env domain answers w n s _
  | some c =>
    dsimp only [outcomeAt, contactOutcome]
    cases fetchPage c (answers n) with
    | error e => rfl
    | ok r =>
      dsimp only
      cases afterContact env (record s r) (restOf selected) <;> rfl

theorem outcomeAt_startDiscovery (n : ℕ) (s : Scratch) (home : FetchResult)
    (c : Fetching (List ScoredUrl × Diag)) :
    outcomeAt env domain answers w (startDiscovery env domain n s home c).1
        (startDiscovery env domain n s home c).2 =
      (readSite env domain answers w n s home c).1 := by
  cases c with
  | ret found => exact outcomeAt_startPages env domain answers w n _ _
  | fail e => rfl
  | ask url k => rfl

theorem outcomeAt_endWave1 {s : Scratch} {home : HomeTask} {robots sitemap : Option Str}
    {p : Scratch × Stage} (h : endWave1 env domain s home robots sitemap = some p) :
    outcomeAt env domain answers w p.1 p.2 =
      outcomeAt env domain answers w s (.wave1 home robots sitemap) := by
  dsimp only [outcomeAt, wave1Outcome]
  cases home with
  | trying call url rest => cases h
  | raised =>
    cases h
    rfl
  | ended n home =>
    cases robots with
    | none => cases h
    | some robots =>
      cases sitemap with
      | none => cases h
      | some sitemap =>
        rw [endWave1] at h
        dsimp only [HomeTask.finish, Option.getD_some]
        cases hwave : afterWave1 env domain s home robots sitemap with
        | discover s' page c =>
          rw [hwave] at h
          cases h
          exact outcomeAt_startDiscovery env domain answers w n s' page c
        | _ =>
          rw [hwave] at h
          cases h
          rfl

theorem outcomeAt_endContact (call : ℕ) (s : Scratch) (page : ScoredUrl)
    (rest : List ScoredUrl) :
    outcomeAt env domain answers w
        (endContact env domain call s page rest (answers call)).1
        (endContact env domain call s page rest (answers call)).2 =
      outcomeAt env domain answers w s (.contact call page rest) := by
  dsimp only [endContact, outcomeAt, contactOutcome]
  cases fetchPage page (answers call) with
  | error e => rfl
  | ok r =>
    dsimp only
    cases afterContact env (record s r) rest with
    | error e => rfl
    | ok rest => exact outcomeAt_startRest env domain answers w (call + 1) _ rest

theorem outcomeAt_endOthers {s : Scratch} {tasks : List PageTask} {p : Scratch × Stage}
    (h : endOthers env domain s tasks = some p) :
    outcomeAt env domain answers w p.1 p.2 =
      outcomeAt env domain answers w s (.others tasks) := by
  unfold endOthers at h
  cases hgather : gatherTasks tasks with
  | none => simp [hgather] at h
  | some out =>
    dsimp only [outcomeAt]
    rw [finishTasks_gatherTasks answers hgather]
    rw [hgather] at h
    cases out with
    | error e =>
      cases h
      rfl
    | ok rs =>
      cases h
      exact outcomeAt_startJudge env domain answers w _

namespace Attempt

def outcome (a : Attempt) : Except Exn DomainResult :=
  outcomeAt env domain answers w a.scratch a.stage

theorem outcome_start (n : ℕ) :
    (start n).outcome env domain answers w = (attemptDomain env domain answers w n).1 := by
  dsimp only [outcome, start, outcomeAt, attemptDomain, wave1Outcome]
  cases preflight env domain w.dns with
  | some r => rfl
  | none =>
    dsimp only
    rw [finish_startLadder]
    cases fetchHomepage answers n (ladderUrls domain w.dns) with
    | mk out calls =>
      cases out with
      | error e => rfl
      | ok h =>
        dsimp only
        generalize afterWave1 env domain { dns := some w.dns } h
          (w.text (robotsUrl domain)) (w.text (sitemapUrl domain)) = wave
        cases wave <;> rfl

theorem step_outcome {a a' : Attempt} {e : Event} (h : a.step env domain e = some a')
    (hfrom : e.From domain answers w) :
    a'.outcome env domain answers w = a.outcome env domain answers w := by
  obtain ⟨s, stage, arrived⟩ := a
  cases e with
  | deadline => exact hfrom.elim
  | resolved dns =>
    obtain rfl : dns = w.dns := hfrom
    cases stage with
    | dns n =>
      dsimp only [step, onDns] at h
      dsimp only [outcome, outcomeAt]
      cases hpre : preflight env domain w.dns with
      | some r =>
        rw [hpre] at h
        cases h
        rfl
      | none =>
        rw [hpre] at h
        cases h
        rfl
    | _ => cases h
  | html k answer =>
    obtain rfl : answer = answers k := hfrom
    cases stage with
    | wave1 home robots sitemap =>
      cases home with
      | trying call url rest =>
        dsimp only [step, onWave1] at h
        split at h
        · rename_i hk
          subst hk
          cases h
          dsimp only [outcome, outcomeAt, goto, arrive, wave1Outcome]
          rw [finish_afterRung answers k url rest]
        · cases h
      | ended n home | raised => cases h
    | contact call page rest =>
      dsimp only [step, onContact] at h
      split at h
      · rename_i hk
        subst hk
        cases h
        exact outcomeAt_endContact env domain answers w k s page rest
      · cases h
    | others tasks =>
      obtain ⟨tasks', htasks, rfl⟩ := Option.map_eq_some_iff.mp h
      dsimp only [outcome, outcomeAt, goto, arrive]
      rw [finishTasks_answerTask answers htasks]
    | _ => cases h
  | robots text | sitemap text =>
    obtain rfl : text = _ := hfrom
    cases stage with
    | wave1 home robots sitemap =>
      dsimp only [step, onWave1] at h
      split at h
      · rename_i hnone
        cases h
        rw [hnone]
        rfl
      · cases h
    | _ => cases h
  | document asked text =>
    obtain rfl : text = w.text asked := hfrom
    cases stage with
    | discovery n home url k =>
      dsimp only [step, onDiscovery] at h
      split at h
      · rename_i hurl
        subst hurl
        cases h
        exact outcomeAt_startDiscovery env domain answers w n s home _
      · cases h
    | _ => cases h
  | judged post =>
    obtain rfl : post = w.post := hfrom
    cases stage with
    | judging b =>
      cases h
      rfl
    | _ => cases h
  | resume =>
    cases stage with
    | wave1 home robots sitemap =>
      obtain ⟨p, hp, rfl⟩ := Option.map_eq_some_iff.mp h
      exact outcomeAt_endWave1 env domain answers w hp
    | others tasks =>
      obtain ⟨p, hp, rfl⟩ := Option.map_eq_some_iff.mp h
      exact outcomeAt_endOthers env domain answers w hp
    | _ => cases h

section Late

variable {n : ℕ} {h : List (Attempt × Event)} {a : Attempt} (hrun : Runs env domain n h a)
  (hfrom : Transition.Guarded (fun _ e => e = .deadline ∨ e.From domain answers w) h)

include hrun hfrom

/-- With a deadline at any point, an attempt ends as `attemptDomain` says or with the handler
of the deadline. -/
theorem Runs.result_cases {out : Except Exn DomainResult} (hout : a.stage = .over out) :
    out = (attemptDomain env domain answers w n).1 ∨ ∃ s, out = handleTimeout env domain s := by
  have hcases := Transition.Run.invariant
    (I := fun a => a.outcome env domain answers w = (attemptDomain env domain answers w n).1 ∨
      ∃ s, a.stage = .over (handleTimeout env domain s))
    (fun a hstart => .inl (by rw [hstart, outcome_start]))
    (fun a e a' ih he hstep => by
      obtain ⟨s, stage, arrived⟩ := a
      rcases ih with ih | ⟨_, rfl⟩
      · rcases he with rfl | he
        · cases stage <;> cases hstep <;> exact .inr ⟨s, rfl⟩
        · exact .inl ((step_outcome env domain answers w hstep he).trans ih)
      · cases hstep) hrun hfrom
  rw [outcome, hout] at hcases
  exact hcases.imp id fun ⟨s, hs⟩ => ⟨s, Stage.over.inj hs⟩

/-- An error of a fetch that ends an attempt is one of the homepage, deadline or not. -/
theorem Runs.raised {x : Failure} (hout : a.stage = .over (.error (.fetch x))) :
    ∃ c ∈ (attemptDomain env domain answers w n).2, ∃ e, c.kind = .homepage ∧
      x = ⟨e, c.number⟩ := by
  rcases hrun.result_cases env domain answers w hfrom hout with hraised | ⟨s, htimeout⟩
  · obtain ⟨c, hc, e, hkind, heq⟩ :=
      (attemptDomain_accounts env domain answers w n).raised _ hraised.symm
    exact ⟨c, hc, e, hkind, Exn.fetch.inj heq⟩
  · unfold handleTimeout at htimeout
    split_ifs at htimeout
    split at htimeout <;> cases htimeout

end Late

/-- A run without a deadline ends as `attemptDomain` says, in whatever order the answers
come. -/
theorem Runs.result_eq {n : ℕ} {h : List (Attempt × Event)} {a : Attempt}
    (hrun : Runs env domain n h a)
    (hfrom : Transition.Guarded (fun _ e => e.From domain answers w) h)
    {out : Except Exn DomainResult} (hout : a.stage = .over out) :
    out = (attemptDomain env domain answers w n).1 := by
  have houtcome : a.outcome env domain answers w = (attemptDomain env domain answers w n).1 :=
    Transition.Run.invariant
      (I := fun a => a.outcome env domain answers w = (attemptDomain env domain answers w n).1)
      (fun a hstart => by rw [hstart, outcome_start])
      (fun a e a' ih he hstep => by rw [step_outcome env domain answers w hstep he, ih])
      hrun hfrom
  rw [← houtcome, outcome, hout]
  rfl

end Attempt

end Outcome

/-- Every call gets another page. -/
def pageAnswers : ℕ → Answer
  | 0 => .page exampleHomepage
  | k => .page { finalUrl := "https://acme.com/about".toList, html := List.replicate k 'x' }

def shuffled : List Event :=
  [.resolved exampleWorld.dns, .html 0 (pageAnswers 0), .robots [], .sitemap [], .resume] ++
    [1, 4, 2, 3].map (fun k => .html k (pageAnswers k)) ++ [.resume, .judged exampleWorld.post]

/-- The last of the sub-pages is there first. -/
theorem shuffled_result :
    ∃ h a out, Attempt.Runs exampleEnv "acme.com".toList 0 h a ∧
      h.map Prod.snd = shuffled.reverse ∧ a.stage = .over out ∧
      out = (attemptDomain exampleEnv "acme.com".toList pageAnswers exampleWorld 0).1 := by
  have hover : ((Transition.exec (Attempt.step exampleEnv "acme.com".toList) []
      (Attempt.start 0) shuffled).bind fun p => p.2.stage.result).isSome = true := by
    decide +kernel
  obtain ⟨out, hover⟩ := Option.isSome_iff_exists.mp hover
  obtain ⟨⟨h, a⟩, hexec, hout⟩ := Option.bind_eq_some_iff.mp hover
  have hevents : h.map Prod.snd = shuffled.reverse :=
    (Transition.exec_actions hexec).trans (List.append_nil _)
  have hrun : Attempt.Runs exampleEnv "acme.com".toList 0 h a := .exec (.start rfl) hexec
  have hstage := Stage.eq_over_of_result hout
  refine ⟨h, a, out, hrun, hevents, hstage,
    hrun.result_eq _ _ _ exampleWorld (fun p hp => ?_) hstage⟩
  have hmem : p.2 ∈ shuffled := List.mem_reverse.mp (hevents ▸ List.mem_map_of_mem hp)
  have hfrom : ∀ e ∈ shuffled, e.From "acme.com".toList pageAnswers exampleWorld := by
    simp [shuffled, Event.From, exampleWorld]
  exact hfrom _ hmem

end Pipeline

end EmailExtractor
