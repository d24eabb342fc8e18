import Mathlib
import EmailExtractor.Pipeline.Answers
import EmailExtractor.Pipeline.Process
import EmailExtractor.RateLimit.Breaker

/-!
# What the retry loops tell the breaker

`_BaseFetcher._attempt_with_retries` and `TypeSafeClient._post` as programs that may raise
and that keep the list of their calls on the breaker. Other tasks use the breaker in between,
so each call finds it in a state given from outside.

Every call that `check` admits should be recorded once. The loop of the fetcher keeps to
this. In `_post` a response below 400 is recorded as a success before its body is read, and
a body that cannot be read is recorded a second time.
-/

namespace EmailExtractor

namespace Fetch

open Pipeline RateLimit Std.Do List

set_option mvcgen.warning false

/-! ## Exceptions -/

/-- The classes of exceptions that the handlers tell apart. `httpError` stands for the
other subclasses of `httpx.HTTPError`. -/
inductive ExcKind
  | runtimeError
  | tooManyRedirects
  | connectError
  | connectTimeout
  | poolTimeout
  | httpError
  | other
  deriving DecidableEq

structure Exc where
  kind : ExcKind
  typeName : Str
  text : Str
  deriving DecidableEq

structure FetchError where
  errorClass : ErrorClass
  reason : Str
  detail : Str := []
  provider : Bool := false
  deriving DecidableEq

def FetchError.retryable (e : FetchError) : Bool := e.errorClass = .transient

/-- What a step of the loops may raise, other than a cancellation. -/
inductive Raised
  | circuitOpen (e : CircuitOpen)
  | fetchError (e : FetchError)
  | exception (e : Exc)
  deriving DecidableEq

def ExcKind.providerHealth : ExcKind → Bool
  | .connectError | .connectTimeout | .poolTimeout => true
  | _ => false

def excToFetchError (U : Unicode) (exc : Exc) (provider : Bool) : FetchError :=
  if exc.kind = .tooManyRedirects then ⟨.permanent, "redirect_loop".toList, exc.typeName, false⟩
  else if exc.kind = .connectError && (U.lower exc.text).hasSub "certificate".toList then
    ⟨.permanent, "ssl_error".toList, exc.text.take 120, false⟩
  else if exc.kind = .other || exc.kind = .runtimeError then
    ⟨.bug, "internal_error".toList, (exc.typeName ++ ": ".toList ++ exc.text).take 200, false⟩
  else ⟨.transient, "homepage".toList, exc.typeName, provider && exc.kind.providerHealth⟩

def excOfRecord : RecordError → Exc
  | .overflowError => ⟨.other, "OverflowError".toList, "int too large to convert to float".toList⟩
  | .zeroDivisionError => ⟨.other, "ZeroDivisionError".toList, "division by zero".toList⟩

/-! ## The calls on the breaker -/

inductive BreakerCall
  | check (admitted : Bool)
  | record (ok : Bool) (reason : String)
  deriving DecidableEq

/-- What the loops find outside, by the calls they have made so far: the breaker with the
reading of the clock, and what `random.random()` gives. -/
structure Shared where
  config : Config
  breaker : List BreakerCall → Breaker × ℚ
  random : List BreakerCall → ℚ

/-- Programs that may raise and that list their calls on the breaker. -/
abbrev BreakerM := ExceptT Raised (StateM (List BreakerCall))

variable (U : Unicode) (S : Shared)

def check : BreakerM Unit := do
  let calls ← get
  match ((S.breaker calls).1.check S.config (S.breaker calls).2).2 with
  | none => set (calls ++ [BreakerCall.check true])
  | some e =>
    set (calls ++ [BreakerCall.check false])
    throw (Raised.circuitOpen e)

def record (ok : Bool) (reason : String) : BreakerM Unit := do
  let calls ← get
  set (calls ++ [BreakerCall.record ok reason])
  match ((S.breaker calls).1.record S.config ok reason (S.breaker calls).2).2 with
  | none => return
  | some e => throw (Raised.exception (excOfRecord e))

def eval {α : Type} : Except Raised α → BreakerM α
  | .ok a => return a
  | .error e => throw e

/-! ## The fetcher -/

def maxBreakerWait : ℚ := 30

/-- The loop of `_Slot.__aenter__` over the breaker, with a bound on its rounds. -/
def enterLoop : ℕ → ℚ → BreakerM Unit
  | 0, _ => throw (.circuitOpen ⟨S.config.provider, 0⟩)
  | fuel + 1, waited =>
    tryCatch (check S) fun
      | .circuitOpen e => do
          let calls ← get
          -- Jittered so every waiter does not resume in lockstep.
          let nap := min (max e.retryIn (1 / 2)) 5 * (1 + S.random calls * (1 / 2))
          if maxBreakerWait < waited + nap then throw (.circuitOpen e)
          enterLoop fuel (waited + nap)
      | e => throw e

/-- The breaker's part of `_Slot.__aenter__`. A nap takes half a second at least, so that
sixty-one rounds are all there can be. -/
def enter : BreakerM Unit := enterLoop S 61 0

/-- One attempt after the breaker: `bucket.acquire()` may raise, and then `fn()` is run. -/
structure FetchRound where
  bucket : Except Raised Unit
  fn : Except Raised FetchResult

/-- How a round of a retry loop ends, unless it raises: it returns or it goes on with the
error in `last`. -/
inductive Round (α : Type)
  | returns (a : α)
  | goesOn (last : Raised)

/-- The part of the handlers that the two kinds of errors share. -/
def failed (providerBacked lastAttempt : Bool) (e : FetchError) : BreakerM (Round FetchResult) := do
  if providerBacked then
    record S (!e.provider) (String.ofList (if e.detail ≠ [] then e.detail else e.reason))
  if !e.retryable || lastAttempt then throw (.fetchError e)
  return .goesOn (.fetchError e)

def attemptBody (providerBacked : Bool) (r : FetchRound) : BreakerM (Round FetchResult) := do
  enter S
  eval r.bucket
  let result ← eval r.fn
  if providerBacked then record S true ""
  return .returns result

def attemptRound (providerBacked lastAttempt : Bool) (r : FetchRound) :
    BreakerM (Round FetchResult) :=
  tryCatch (attemptBody S providerBacked r) fun
    | .circuitOpen e => throw (.circuitOpen e)
    | .fetchError e => failed S providerBacked lastAttempt e
    | .exception e => failed S providerBacked lastAttempt (excToFetchError U e providerBacked)

def attemptRounds (providerBacked : Bool) : List FetchRound → Raised → BreakerM FetchResult
  | [], last => throw last
  | r :: rounds, _ => do
      match ← attemptRound U S providerBacked rounds.isEmpty r with
      | .returns result => return result
      | .goesOn last => attemptRounds providerBacked rounds last

/-- `_attempt_with_retries`: two retries, and an attempt has always been made when the loop
is over. -/
def attemptWithRetries (providerBacked : Bool) (rounds : ℕ → FetchRound) : BreakerM FetchResult :=
  attemptRounds U S providerBacked ((List.range 3).map rounds)
    (.exception ⟨.other, "AssertionError".toList, []⟩)

/-! ## The judge's endpoint -/

structure Response where
  status : ℕ
  body : Decoded

def runtimeError (text : Str) : Raised := .exception ⟨.runtimeError, "RuntimeError".toList, text⟩

/-- `_post` raises again what its first two handlers catch. -/
def Raised.reraised : Raised → Bool
  | .circuitOpen _ => true
  | .exception e => e.kind = .runtimeError
  | .fetchError _ => false

/-- `r.json().get("answers") or {}`. -/
def Decoded.answers : Decoded → Except Raised Json
  | .recursionError => .error (.exception ⟨.runtimeError, "RecursionError".toList, []⟩)
  | .valueError => .error (.exception ⟨.other, "JSONDecodeError".toList, []⟩)
  | .json j =>
    match j.get "answers".toList with
    | .ok answers => .ok (answers.orElse (.obj []))
    | .error e => .error (.exception ⟨.other, typeName e, []⟩)

def httpStatus (status : ℕ) : Raised :=
  runtimeError ("typesafe HTTP ".toList ++ (toString status).toList)

def postBody (request : Except Raised Response) : BreakerM (Round Json) := do
  let r ← eval request
  if r.status = 429 || r.status = 529 || 500 ≤ r.status && r.status < 600 then
    record S false ""
    return .goesOn (httpStatus r.status)
  else if 400 ≤ r.status then
    record S (!(r.status = 401 || r.status = 402 || r.status = 403)) ""
    throw (httpStatus r.status)
  else
    record S true ""
    let answers ← eval (Decoded.answers r.body)
    return .returns answers

def postHandler (e : Raised) : BreakerM (Round Json) := do
  if e.reraised then throw e
  record S false ""
  return .goesOn e

def postRound (request : Except Raised Response) : BreakerM (Round Json) := do
  check S
  tryCatch (postBody S request) (postHandler S)

def postRounds : List (Except Raised Response) → Raised → BreakerM Json
  | [], last => throw last
  | request :: requests, _ => do
      match ← postRound S request with
      | .returns answers => return answers
      | .goesOn last => postRounds requests last

def post (requests : ℕ → Except Raised Response) : BreakerM Json :=
  postRounds S ((List.range (retryDelays + 1)).map requests)
    (runtimeError "typesafe exhausted".toList)

/-! ## Admissions and outcomes -/

def BreakerCall.isAdmission : BreakerCall → Bool
  | .check admitted => admitted
  | .record _ _ => false

def BreakerCall.isOutcome : BreakerCall → Bool
  | .check _ => false
  | .record _ _ => true

def admissions (calls : List BreakerCall) : ℕ := calls.countP BreakerCall.isAdmission

def outcomes (calls : List BreakerCall) : ℕ := calls.countP BreakerCall.isOutcome

def surplus (calls : List BreakerCall) : ℤ := outcomes calls - admissions calls

@[simp] theorem surplus_admitted (calls : List BreakerCall) :
    surplus (calls ++ [.check true]) = surplus calls - 1 := by
  simp [surplus, outcomes, admissions, BreakerCall.isAdmission, BreakerCall.isOutcome]
  omega

@[simp] theorem surplus_refused (calls : List BreakerCall) :
    surplus (calls ++ [.check false]) = surplus calls := by
  simp [surplus, outcomes, admissions, BreakerCall.isAdmission, BreakerCall.isOutcome]

@[simp] theorem surplus_recorded (calls : List BreakerCall) (ok : Bool) (reason : String) :
    surplus (calls ++ [.record ok reason]) = surplus calls + 1 := by
  simp [surplus, outcomes, admissions, BreakerCall.isAdmission, BreakerCall.isOutcome]
  omega

def RecordReturns : Prop :=
  ∀ calls ok reason,
    ((S.breaker calls).1.record S.config ok reason (S.breaker calls).2).2 = none

/-- The expression does not raise `CircuitOpen`; only `check` does. -/
def NoCircuitOpen {α : Type} (x : Except Raised α) : Prop := ∀ c, x ≠ .error (.circuitOpen c)

/-- The admissions that an attempt which raises leaves to the handlers. -/
def Raised.pending : Raised → ℤ
  | .circuitOpen _ => 0
  | _ => 1

/-- The request ends in a way that `_post` records once. It raises, and nothing that is
raised again; or it gets a response, and if the body is read, it is an object in JSON or
raises what is raised again. -/
def RecordedOnce : Except Raised Response → Prop
  | .error e => e.reraised = false
  | .ok r => r.status < 400 → r.body = .recursionError ∨ ∃ j, r.body = .json j ∧ j.IsObject

def toReply : Except Raised Response → Reply
  | .ok r => .responds r.status r.body
  | .error e => if e.reraised then .runtimeError else .exception

def recordsOf (request : Except Raised Response) : List BreakerCall :=
  (toReply request).handle.1.map fun ok => .record ok ""

def Round.toEnd : Round Json → PostEnd
  | .goesOn _ => .retries
  | .returns answers => .returns answers

def Raised.toEnd (e : Raised) : PostEnd := if e.reraised then .raises else .retries

def Raised.records (e : Raised) : List BreakerCall :=
  if e.reraised then [] else [.record false ""]

def Admits (calls : List BreakerCall) : Prop :=
  ((S.breaker calls).1.check S.config (S.breaker calls).2).2 = none

def after {α : Type} (m : BreakerM α) (calls : List BreakerCall) : List BreakerCall :=
  (m.run.run calls).2

section

variable {U S} {d : ℤ} {before : List BreakerCall}

theorem after_of_triple {α : Type} {m : BreakerM α} {P Q : List BreakerCall → Prop}
    (h : ⦃fun calls => ⌜P calls⌝⦄ m
      ⦃post⟨fun _ calls => ⌜Q calls⌝, fun _ calls => ⌜Q calls⌝⟩⦄)
    {calls : List BreakerCall} (hcalls : P calls) : Q (after m calls) := by
  have hrun := h calls hcalls
  simp only [wp, PredTrans.apply_pushExcept, PredTrans.apply_pushArg,
    PredTrans.apply_Pure_pure] at hrun
  unfold after
  revert hrun
  rcases m.run.run calls with ⟨_ | _, _⟩
  · exact id
  · exact id

/-! ## The steps -/

@[spec] theorem check_spec :
    ⦃fun calls => ⌜calls = before⌝⦄ check S
    ⦃post⟨fun _ calls => ⌜Admits S before ∧ calls = before ++ [.check true]⌝,
      fun e calls => ⌜¬ Admits S before ∧ (∃ c, e = .circuitOpen c) ∧
        calls = before ++ [.check false]⌝⟩⦄ := by
  mvcgen [check]
  all_goals simp_all [Admits]

@[spec] theorem record_spec (hret : RecordReturns S) (ok : Bool) (reason : String) :
    ⦃fun calls => ⌜calls = before⌝⦄ record S ok reason
    ⦃post⟨fun _ calls => ⌜calls = before ++ [.record ok reason]⌝, fun _ _ => ⌜False⌝⟩⦄ := by
  mvcgen [record]
  case vc1 => simp_all
  case vc2 calls _ _ hraise =>
    rw [hret calls ok reason] at hraise
    cases hraise

@[spec] theorem eval_spec {α : Type} (x : Except Raised α) :
    ⦃fun calls => ⌜calls = before⌝⦄ eval x
    ⦃post⟨fun a calls => ⌜x = .ok a ∧ calls = before⌝,
      fun e calls => ⌜x = .error e ∧ calls = before⌝⟩⦄ := by
  mvcgen [eval]

/-! ## The fetcher's rounds -/

theorem enterLoop_congr (hrandom : ∀ calls, 0 ≤ S.random calls) {n m : ℕ} {waited : ℚ}
    (h : ∀ nap, 1 / 2 ≤ nap → ¬ maxBreakerWait < waited + nap →
      enterLoop S n (waited + nap) = enterLoop S m (waited + nap)) :
    enterLoop S (n + 1) waited = enterLoop S (m + 1) waited := by
  rw [enterLoop, enterLoop]
  congr 1
  funext e
  cases e with
  | circuitOpen e =>
    simp only
    congr 1
    funext calls
    have hjitter : (1 : ℚ) ≤ 1 + S.random calls * (1 / 2) := by
      linarith [hrandom calls]
    have hnap : (1 / 2 : ℚ) ≤ min (max e.retryIn (1 / 2)) 5 := by
      exact le_min (le_max_right _ _) (by norm_num)
    by_cases hlong : maxBreakerWait <
        waited + min (max e.retryIn (1 / 2)) 5 * (1 + S.random calls * (1 / 2))
    · simp only [if_pos hlong]
      rfl
    · simp only [if_neg hlong]
      exact h _ (by nlinarith) hlong
  | fetchError e => rfl
  | exception e => rfl

theorem enterLoop_fuel (hrandom : ∀ calls, 0 ≤ S.random calls) (fuel : ℕ) {waited : ℚ}
    (hlong : maxBreakerWait < waited + (fuel + 1) / 2) :
    enterLoop S (fuel + 2) waited = enterLoop S (fuel + 1) waited := by
  induction fuel generalizing waited with
  | zero =>
    refine enterLoop_congr hrandom fun nap hnap hshort => absurd ?_ hshort
    norm_num at hlong
    linarith
  | succ fuel ih =>
    refine enterLoop_congr hrandom fun nap hnap _ => ih ?_
    push_cast at hlong
    linarith

/-- The bound on the rounds of `_Slot.__aenter__` is never reached. -/
theorem enterLoop_eq_enter (hrandom : ∀ calls, 0 ≤ S.random calls) (n : ℕ) :
    enterLoop S (61 + n) 0 = enter S := by
  induction n with
  | zero => rfl
  | succ n ih =>
    have hlong : maxBreakerWait < (0 : ℚ) + ((60 + n : ℕ) + 1) / 2 := by
      have hn : (0 : ℚ) ≤ n := Nat.cast_nonneg n
      push_cast
      norm_num [maxBreakerWait]
      linarith
    have hstep := enterLoop_fuel hrandom (60 + n) hlong
    rw [show 61 + (n + 1) = 60 + n + 2 by omega, hstep, ← ih]
    congr 1
    omega

theorem NoCircuitOpen.pending {α : Type} {x : Except Raised α} {e : Raised}
    (h : NoCircuitOpen x) (hx : x = .error e) : e.pending = 1 := by
  cases e with
  | circuitOpen c => exact absurd hx (h c)
  | fetchError e => rfl
  | exception e => rfl

@[spec] theorem enterLoop_spec (fuel : ℕ) (waited : ℚ) :
    ⦃fun calls => ⌜surplus calls = d⌝⦄ enterLoop S fuel waited
    ⦃post⟨fun _ calls => ⌜surplus calls = d - 1⌝,
      fun e calls => ⌜(∃ c, e = .circuitOpen c) ∧ surplus calls = d⌝⟩⦄ := by
  induction fuel generalizing waited with
  | zero =>
    mvcgen [enterLoop]
    simp_all
  | succ fuel ih =>
    mvcgen [enterLoop, ih]
    all_goals simp_all

@[spec] theorem attemptBody_spec (hret : RecordReturns S) (r : FetchRound)
    (hbucket : NoCircuitOpen r.bucket) (hfn : NoCircuitOpen r.fn) :
    ⦃fun calls => ⌜surplus calls = d⌝⦄ attemptBody S true r
    ⦃post⟨fun _ calls => ⌜surplus calls = d⌝,
      fun e calls => ⌜surplus calls = d - e.pending⌝⟩⦄ := by
  mvcgen [attemptBody, enter]
  all_goals grind [Raised.pending, NoCircuitOpen.pending, surplus_recorded]

@[spec] theorem failed_spec (hret : RecordReturns S) (lastAttempt : Bool) (e : FetchError) :
    ⦃fun calls => ⌜surplus calls = d⌝⦄ failed S true lastAttempt e
    ⦃post⟨fun _ calls => ⌜surplus calls = d + 1⌝, fun _ calls => ⌜surplus calls = d + 1⌝⟩⦄ := by
  mvcgen [failed]
  all_goals simp_all

@[spec] theorem attemptRound_spec (hret : RecordReturns S) (lastAttempt : Bool) (r : FetchRound)
    (hbucket : NoCircuitOpen r.bucket) (hfn : NoCircuitOpen r.fn) :
    ⦃fun calls => ⌜surplus calls = d⌝⦄ attemptRound U S true lastAttempt r
    ⦃post⟨fun _ calls => ⌜surplus calls = d⌝, fun _ calls => ⌜surplus calls = d⌝⟩⦄ := by
  mvcgen [attemptRound]
  all_goals grind [Raised.pending]

theorem attemptRounds_spec (hret : RecordReturns S) (rounds : List FetchRound)
    (hrounds : ∀ r ∈ rounds, NoCircuitOpen r.bucket ∧ NoCircuitOpen r.fn) (last : Raised) :
    ⦃fun calls => ⌜surplus calls = d⌝⦄ attemptRounds U S true rounds last
    ⦃post⟨fun _ calls => ⌜surplus calls = d⌝, fun _ calls => ⌜surplus calls = d⌝⟩⦄ := by
  induction rounds generalizing last with
  | nil => mvcgen [attemptRounds]
  | cons r rounds ih =>
    obtain ⟨hbucket, hfn⟩ := hrounds r mem_cons_self
    have ih := ih fun r hr => hrounds r (mem_cons_of_mem _ hr)
    mvcgen [attemptRounds, ih]
    all_goals simp_all

/-! ## The rounds of `_post` -/

def Response.retried (r : Response) : Bool :=
  r.status = 429 || r.status = 529 || 500 ≤ r.status && r.status < 600

theorem handle_of_retried {r : Response} (h : r.retried = true) :
    (toReply (.ok r)).handle = ([false], .retries) := if_pos h

theorem handle_of_refused {r : Response} (h : ¬ r.retried = true) (hstatus : 400 ≤ r.status) :
    (toReply (.ok r)).handle =
      ([!(r.status = 401 || r.status = 402 || r.status = 403)], .raises) :=
  (if_neg h).trans (if_pos hstatus)

theorem handle_of_read {r : Response} (h : ¬ r.retried = true) (hstatus : ¬ 400 ≤ r.status) :
    (∀ answers, Decoded.answers r.body = .ok answers →
      (toReply (.ok r)).handle = ([true], .returns answers)) ∧
    ∀ e, Decoded.answers r.body = .error e →
      (toReply (.ok r)).handle = (if e.reraised then [true] else [true, false], e.toEnd) := by
  have hhandle : ∀ {p : List Bool × PostEnd}, _ → (toReply (.ok r)).handle = p :=
    ((if_neg h).trans (if_neg hstatus)).trans
  cases hr : r.body with
  | recursionError | valueError =>
    refine ⟨by rintro _ ⟨⟩, ?_⟩
    rintro _ ⟨⟩
    exact hhandle (by rw [hr]; rfl)
  | json j =>
    cases hget : j.get "answers".toList with
    | ok a =>
      simp only [Decoded.answers, hget]
      refine ⟨?_, by rintro _ ⟨⟩⟩
      rintro _ ⟨⟩
      exact hhandle (by simp only [hr, hget])
    | error x =>
      simp only [Decoded.answers, hget]
      refine ⟨by rintro _ ⟨⟩, ?_⟩
      rintro _ ⟨⟩
      exact hhandle (by simp only [hr, hget]; rfl)

theorem handle_error (e : Raised) :
    (toReply (.error e)).handle = (if e.reraised then [] else [false], e.toEnd) := by
  cases h : e.reraised <;> simp [toReply, Raised.toEnd, h, Reply.handle]

@[spec] theorem postBody_spec (hret : RecordReturns S) (request : Except Raised Response) :
    ⦃fun calls => ⌜calls = before⌝⦄ postBody S request
    ⦃post⟨fun round calls => ⌜round.toEnd = (toReply request).handle.2 ∧
        calls = before ++ recordsOf request⌝,
      fun e calls => ⌜e.toEnd = (toReply request).handle.2 ∧
        calls ++ e.records = before ++ recordsOf request⌝⟩⦄ := by
  mvcgen [postBody]
  case vc2 r hretried _ hr _ _ hrecord =>
    rw [hrecord, hr.2, hr.1, recordsOf, handle_of_retried hretried]
    simp_all [Round.toEnd]
  case vc4 r hretried hstatus _ hr _ _ hrecord =>
    rw [hrecord, hr.2, hr.1, recordsOf, handle_of_refused hretried hstatus]
    simp_all [httpStatus, runtimeError, Raised.toEnd, Raised.reraised, Raised.records]
  case vc6 r hretried hstatus _ hr _ _ hrecord _ _ hread =>
    rw [hread.2, hrecord, hr.2, hr.1, recordsOf, (handle_of_read hretried hstatus).1 _ hread.1]
    simp_all [Round.toEnd]
  case vc7 r hretried hstatus _ hr _ _ hrecord e _ =>
    rintro hread rfl
    rw [hrecord, hr.2, hr.1, recordsOf, (handle_of_read hretried hstatus).2 _ hread]
    cases h : e.reraised <;> simp_all [Raised.records]
  case vc8 e _ =>
    rintro rfl rfl
    rw [recordsOf, handle_error]
    cases h : e.reraised <;> simp_all [Raised.records]

@[spec] theorem postHandler_spec (hret : RecordReturns S) (e : Raised) :
    ⦃fun calls => ⌜calls = before⌝⦄ postHandler S e
    ⦃post⟨fun round calls => ⌜round.toEnd = e.toEnd ∧ calls = before ++ e.records⌝,
      fun _ calls => ⌜e.toEnd = .raises ∧ calls = before ++ e.records⌝⟩⦄ := by
  mvcgen [postHandler]
  all_goals simp_all [Raised.toEnd, Raised.records, Round.toEnd]

@[spec] theorem postRound_spec (hret : RecordReturns S) (request : Except Raised Response) :
    ⦃fun calls => ⌜calls = before⌝⦄ postRound S request
    ⦃post⟨fun round calls => ⌜Admits S before ∧ round.toEnd = (toReply request).handle.2 ∧
        calls = before ++ .check true :: recordsOf request⌝,
      fun _ calls => ⌜¬ Admits S before ∧ calls = before ++ [.check false] ∨
        Admits S before ∧ (toReply request).handle.2 = .raises ∧
          calls = before ++ .check true :: recordsOf request⌝⟩⦄ := by
  mvcgen [postRound]
  all_goals simp_all

theorem answers_ok {body : Decoded} {answers : Json} (h : Decoded.answers body = .ok answers) :
    ∃ j, body = .json j ∧ j.IsObject := by
  cases body with
  | recursionError | valueError => cases h
  | json j =>
    cases hget : j.get "answers".toList with
    | ok a => exact ⟨j, rfl, (get_eq_ok_iff.mp hget).1⟩
    | error e => simp only [Decoded.answers, hget, reduceCtorEq] at h

theorem answers_error {body : Decoded} {e : Raised} (h : Decoded.answers body = .error e) :
    (e.reraised = true ↔ body = .recursionError) ∧ ¬ ∃ j, body = .json j ∧ j.IsObject := by
  cases body with
  | recursionError =>
    cases h
    simp [Raised.reraised]
  | valueError =>
    cases h
    simp [Raised.reraised]
  | json j =>
    cases hget : j.get "answers".toList with
    | ok a => simp only [Decoded.answers, hget, reduceCtorEq] at h
    | error x =>
      simp only [Decoded.answers, hget, Except.error.injEq] at h
      rw [← h]
      refine ⟨by simp [Raised.reraised], ?_⟩
      rintro ⟨_, ⟨rfl⟩, hj⟩
      rw [get_eq_ok_iff.mpr ⟨hj, rfl⟩] at hget
      cases hget

theorem Response.le_status_of_retried {r : Response} (h : r.retried = true) :
    400 ≤ r.status := by
  simp only [Response.retried, Bool.or_eq_true, Bool.and_eq_true, decide_eq_true_eq] at h
  omega

theorem recordedOnce_iff {request : Except Raised Response} :
    RecordedOnce request ↔ (recordsOf request).length = 1 := by
  rw [recordsOf, length_map]
  cases request with
  | error e =>
    rw [handle_error]
    cases h : e.reraised <;> simp [RecordedOnce, h]
  | ok r =>
    by_cases hretried : r.retried = true
    · rw [handle_of_retried hretried]
      exact iff_of_true (fun h => absurd h (Nat.not_lt_of_le (r.le_status_of_retried hretried))) rfl
    · by_cases hstatus : 400 ≤ r.status
      · rw [handle_of_refused hretried hstatus]
        exact iff_of_true (fun h => absurd h (Nat.not_lt_of_le hstatus)) rfl
      · cases hread : Decoded.answers r.body with
        | ok answers =>
          rw [(handle_of_read hretried hstatus).1 _ hread]
          exact iff_of_true (fun _ => .inr (answers_ok hread)) rfl
        | error e =>
          obtain ⟨hagain, hobject⟩ := answers_error hread
          rw [(handle_of_read hretried hstatus).2 _ hread]
          cases h : e.reraised <;>
            simp_all [RecordedOnce, Nat.lt_of_not_le hstatus]

theorem surplus_round (request : Except Raised Response) :
    surplus (before ++ .check true :: recordsOf request) =
      surplus before + (recordsOf request).length - 1 := by
  simp [surplus, outcomes, admissions, recordsOf, BreakerCall.isAdmission,
    BreakerCall.isOutcome, countP_cons, countP_map, Function.comp_def]
  omega

/-- The request is made if those before it are tried again. -/
theorem postRounds_spec (hret : RecordReturns S) (requests : List (Except Raised Response))
    (honce : ∀ i : ℕ, (∀ k < i, ∀ request ∈ requests[k]?, (toReply request).handle.2 = .retries) →
      ∀ request ∈ requests[i]?, RecordedOnce request) (last : Raised) :
    ⦃fun calls => ⌜surplus calls = d⌝⦄ postRounds S requests last
    ⦃post⟨fun _ calls => ⌜surplus calls = d⌝, fun _ calls => ⌜surplus calls = d⌝⟩⦄ := by
  induction requests generalizing last with
  | nil => mvcgen [postRounds]
  | cons request requests ih =>
    have hfirst := recordedOnce_iff.mp (honce 0 (by simp) request rfl)
    have hrest (hagain : (toReply request).handle.2 = .retries) := ih fun i hbefore =>
      honce (i + 1) fun k hk => by
        cases k with
        | zero => simpa using hagain
        | succ k => exact hbefore k (Nat.lt_of_succ_lt_succ hk)
    mvcgen [postRounds, hrest]
    all_goals grind [surplus_round, surplus_refused, Round.toEnd]

def recorded (calls : List BreakerCall) : List Bool :=
  calls.filterMap fun
    | .check _ => none
    | .record ok _ => some ok

theorem recorded_round (request : Except Raised Response) :
    recorded (before ++ .check true :: recordsOf request) =
      recorded before ++ (toReply request).handle.1 := by
  simp [recorded, recordsOf, filterMap_map]

theorem recorded_refused : recorded (before ++ [.check false]) = recorded before := by
  simp [recorded]

/-- What the checks of these calls have answered. -/
def checked (calls : List BreakerCall) : List Bool :=
  calls.filterMap fun
    | .check admitted => some admitted
    | .record _ _ => none

theorem checked_round (request : Except Raised Response) :
    checked (before ++ .check true :: recordsOf request) = checked before ++ [true] := by
  simp [checked, recordsOf, filterMap_map]

/-- The flags of the rounds that `postLoop` comes to. -/
def asked : List PostCall → List Bool
  | [] => []
  | ⟨false, _⟩ :: _ => [false]
  | ⟨true, reply⟩ :: posts =>
    match reply.handle.2 with
    | .retries => true :: asked posts
    | _ => [true]

section

variable {reply : Reply} {posts : List PostCall}

theorem postLoop_raises (h : reply.handle.2 = .raises) :
    postLoop (⟨true, reply⟩ :: posts) = (reply.handle.1, none) ∧
      asked (⟨true, reply⟩ :: posts) = [true] := by
  rw [postLoop, asked]
  rcases hreply : reply.handle with ⟨records, e⟩
  rw [hreply] at h
  subst h
  exact ⟨rfl, rfl⟩

theorem postLoop_returns {answers : Json} (h : reply.handle.2 = .returns answers) :
    postLoop (⟨true, reply⟩ :: posts) = (reply.handle.1, some answers) ∧
      asked (⟨true, reply⟩ :: posts) = [true] := by
  rw [postLoop, asked]
  rcases hreply : reply.handle with ⟨records, e⟩
  rw [hreply] at h
  subst h
  exact ⟨rfl, rfl⟩

theorem postLoop_retries (h : reply.handle.2 = .retries) :
    postLoop (⟨true, reply⟩ :: posts) =
        (reply.handle.1 ++ (postLoop posts).1, (postLoop posts).2) ∧
      asked (⟨true, reply⟩ :: posts) = true :: asked posts := by
  rw [postLoop, asked]
  rcases hreply : reply.handle with ⟨records, e⟩
  rw [hreply] at h
  subst h
  exact ⟨rfl, rfl⟩

end

/-- The loop of `_post`, after these calls, ends as the judge's model says with the answers
that its own checks have got. -/
def LikePostLoop (before : List BreakerCall) (requests : List (Except Raised Response))
    (result : Option Json) (calls : List BreakerCall) : Prop :=
  ∃ posts : List PostCall, posts.map PostCall.reply = requests.map toReply ∧
    checked calls = checked before ++ asked posts ∧
      (postLoop posts).2 = result ∧ recorded calls = recorded before ++ (postLoop posts).1

namespace LikePostLoop

variable {request : Except Raised Response} {requests : List (Except Raised Response)}
  {result : Option Json} {calls : List BreakerCall}

theorem of_first (admitted : Bool)
    (h : ∀ posts, checked calls =
          checked before ++ asked (⟨admitted, toReply request⟩ :: posts) ∧
        (postLoop (⟨admitted, toReply request⟩ :: posts)).2 = result ∧
        recorded calls =
          recorded before ++ (postLoop (⟨admitted, toReply request⟩ :: posts)).1) :
    LikePostLoop before (request :: requests) result calls :=
  ⟨⟨admitted, toReply request⟩ :: requests.map fun r => ⟨true, toReply r⟩,
    by simp [Function.comp_def], h _⟩

theorem refused : LikePostLoop before (request :: requests) none (before ++ [.check false]) := by
  refine of_first false fun _ => ⟨by simp [checked, asked], rfl, ?_⟩
  rw [recorded_refused]
  simp [postLoop]

theorem raises (h : (toReply request).handle.2 = .raises) :
    LikePostLoop before (request :: requests) none
      (before ++ .check true :: recordsOf request) := by
  refine of_first true fun _ => ?_
  rw [(postLoop_raises h).1, (postLoop_raises h).2, checked_round, recorded_round]
  exact ⟨rfl, rfl, rfl⟩

theorem returns {answers : Json} (h : (toReply request).handle.2 = .returns answers) :
    LikePostLoop before (request :: requests) (some answers)
      (before ++ .check true :: recordsOf request) := by
  refine of_first true fun _ => ?_
  rw [(postLoop_returns h).1, (postLoop_returns h).2, checked_round, recorded_round]
  exact ⟨rfl, rfl, rfl⟩

theorem retries (hend : (toReply request).handle.2 = .retries)
    (h : LikePostLoop (before ++ .check true :: recordsOf request) requests result calls) :
    LikePostLoop before (request :: requests) result calls := by
  obtain ⟨posts, hposts, hchecked, hresult, hcalls⟩ := h
  obtain ⟨hloop, hasked⟩ := @postLoop_retries _ posts hend
  refine ⟨⟨true, toReply request⟩ :: posts, by simp [hposts], ?_, ?_, ?_⟩
  · rw [hasked, hchecked, checked_round, append_assoc, singleton_append]
  · rw [hloop]
    exact hresult
  · rw [hloop, hcalls, recorded_round, append_assoc]

end LikePostLoop

/-- As long as `record` returns, the loop of `_post` is the one of the judge's model. -/
theorem postRounds_likePostLoop (hret : RecordReturns S)
    (requests : List (Except Raised Response)) (last : Raised) :
    ⦃fun calls => ⌜calls = before⌝⦄ postRounds S requests last
    ⦃post⟨fun answers calls => ⌜LikePostLoop before requests (some answers) calls⌝,
      fun _ calls => ⌜LikePostLoop before requests none calls⌝⟩⦄ := by
  induction requests generalizing last before with
  | nil =>
    mvcgen [postRounds]
    exact ⟨[], rfl, by simp_all [asked], rfl, by simp_all [postLoop]⟩
  | cons request requests ih =>
    mvcgen [postRounds, ih]
    case vc2 hcalls _ _ _ _ hround =>
      rw [hround.2.2, hcalls]
      exact .returns hround.2.1.symm
    case vc3 hcalls _ _ _ _ hround _ _ =>
      rw [hround.2.2, hcalls]
      exact .retries hround.2.1.symm
    case vc4 hcalls _ _ _ _ hround _ _ =>
      rw [hround.2.2, hcalls]
      exact .retries hround.2.1.symm
    case vc5 hcalls _ _ =>
      rw [hcalls]
      rintro (⟨_, rfl⟩ | ⟨_, hend, rfl⟩)
      · exact .refused
      · exact .raises hend

end

/-- `record` is called once for every call that `check` admits: in the loop of the fetcher,
where only the breaker raises `CircuitOpen`, and in `_post`, where every request that is made
is recorded once. These are exactly the requests after which an admitted round has its outcome. -/
theorem one_outcome_per_admission (S : Shared) (hret : RecordReturns S) :
    (∀ (U : Unicode) (rounds : ℕ → FetchRound),
      (∀ i, NoCircuitOpen (rounds i).bucket ∧ NoCircuitOpen (rounds i).fn) →
        outcomes (after (attemptWithRetries U S true rounds) []) =
          admissions (after (attemptWithRetries U S true rounds) [])) ∧
      (∀ requests : ℕ → Except Raised Response, (∀ i ≤ retryDelays,
          (∀ k < i, (toReply (requests k)).handle.2 = .retries) → RecordedOnce (requests i)) →
        outcomes (after (post S requests) []) = admissions (after (post S requests) [])) ∧
      ∀ (request : Except Raised Response) (calls : List BreakerCall), Admits S calls →
        (surplus (after (postRound S request) calls) = surplus calls ↔
          RecordedOnce request) := by
  refine ⟨fun U rounds hrounds => ?_, fun requests honce => ?_, fun request calls hadmits => ?_⟩
  · have hzero : surplus (after (attemptWithRetries U S true rounds) []) = 0 := by
      refine after_of_triple (attemptRounds_spec hret _ ?_ _)
        (P := fun calls => surplus calls = 0) rfl
      simpa using fun i _ => hrounds i
    rw [surplus] at hzero
    omega
  · have hzero : surplus (after (post S requests) []) = 0 := by
      refine after_of_triple (postRounds_spec hret _ ?_ _) (P := fun calls => surplus calls = 0) rfl
      intro i hbefore request hrequest
      obtain ⟨hi, rfl⟩ : i < retryDelays + 1 ∧ requests i = request := by
        simpa [getElem?_eq_some_iff] using hrequest
      refine honce i (Nat.le_of_lt_succ hi) fun k hk => hbefore k hk _ ?_
      simp [getElem?_range (hk.trans hi)]
    rw [surplus] at hzero
    omega
  · have hround : ⦃fun before => ⌜before = calls⌝⦄ postRound S request
        ⦃post⟨fun _ after => ⌜after = calls ++ .check true :: recordsOf request⌝,
          fun _ after => ⌜after = calls ++ .check true :: recordsOf request⌝⟩⦄ := by
      mvcgen
      all_goals simp_all
    rw [after_of_triple hround rfl, surplus_round, recordedOnce_iff]
    omega

def unused : Shared := ⟨{ provider := "typesafe" }, fun _ => ({}, 1), fun _ => 0⟩

theorem recordReturns_unused : RecordReturns unused := by
  intro calls ok reason
  have hread : ({} : Breaker).state 1 = {} := rfl
  change (({} : Breaker).record { provider := "typesafe" } ok reason 1).2 = none
  rw [Breaker.record_eq, hread, if_neg (by decide), Breaker.countReason_eq]
  generalize (Breaker.countReason ok reason {}).failureReasons = reasons
  simp [Breaker.recordOutcome]

/-- A breaker that opened for a minute, sixteen seconds of which are left. With the jitter at
its middle, six and a quarter pass with every nap. -/
def closing : Shared :=
  ⟨{ provider := "firecrawl" },
    fun calls => ({ phase := .opened, openedAt := 10, openFor := 60 }, 54 + 25 / 4 * calls.length),
    fun _ => 1 / 2⟩

theorem closing_waits_then_admits :
    after (enter closing) [] = List.replicate 3 (.check false) ++ [.check true] ∧
      enterLoop closing (61 + 39) 0 = enter closing :=
  ⟨by decide +kernel, enterLoop_eq_enter (fun _ => by norm_num [closing]) 39⟩

def retried : List (Except Raised Response) := [.ok ⟨503, .valueError⟩, .ok ⟨200, .json (.obj [])⟩]

theorem postRounds_likePostLoop_retried :
    ⦃fun calls => ⌜calls = []⌝⦄ postRounds unused retried (runtimeError [])
    ⦃post⟨fun answers calls => ⌜LikePostLoop [] retried (some answers) calls⌝,
      fun _ calls => ⌜LikePostLoop [] retried none calls⌝⟩⦄ :=
  @postRounds_likePostLoop unused [] recordReturns_unused retried (runtimeError [])

/-- A server error is recorded and tried again, and so is the answer after it. -/
theorem server_error_recorded_once :
    outcomes (after (post unused fun i =>
        .ok ⟨if i = 0 then 503 else 200, .json (.obj [])⟩) []) = 2 ∧
      outcomes (after (post unused fun i =>
          .ok ⟨if i = 0 then 503 else 200, .json (.obj [])⟩) []) =
        admissions (after (post unused fun i =>
          .ok ⟨if i = 0 then 503 else 200, .json (.obj [])⟩) []) := by
  refine ⟨by decide +kernel, (one_outcome_per_admission unused recordReturns_unused).2.1 _ ?_⟩
  intro i _ _ _
  exact .inr ⟨.obj [], rfl, [], rfl⟩

def replay (cfg : Config) (now : ℚ) (calls : List BreakerCall) : Breaker :=
  calls.foldl (fun b call =>
    match call with
    | .check _ => (b.check cfg now).1
    | .record ok reason => (b.record cfg ok reason now).1) {}

/-- A client that has the breaker for itself. -/
def alone : Shared :=
  ⟨{ provider := "typesafe" }, fun calls => (replay { provider := "typesafe" } 1 calls, 1),
    fun _ => 0⟩

/-- A body that is not JSON is one response and two outcomes. -/
theorem unreadable_body_recorded_twice :
    after (post alone fun i => .ok ⟨200, if i = 0 then .valueError else .json (.obj [])⟩) [] =
        [.check true, .record true "", .record false "", .check true, .record true ""] ∧
      outcomes (after (post alone fun i =>
          .ok ⟨200, if i = 0 then .valueError else .json (.obj [])⟩) []) ≠
        admissions (after (post alone fun i =>
          .ok ⟨200, if i = 0 then .valueError else .json (.obj [])⟩) []) := by
  decide +kernel

end Fetch

end EmailExtractor
