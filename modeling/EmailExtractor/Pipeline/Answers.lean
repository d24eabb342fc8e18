import Mathlib.Tactic.MkIffOfInductiveProp
import EmailExtractor.Pipeline.Choice

/-!
# Answers that cannot be read

`TypeSafeClient._post` with its retries, and when `judge` returns. A call that fails is
answered by the rules. An answer that `decide` cannot read is not: `decide` runs outside
the guard of `judge`, and what it raises leaves `judge`.
-/

namespace EmailExtractor

namespace Pipeline

/-! ## The call -/

inductive Decoded
  | json (j : Json)
  | valueError
  | recursionError

inductive Reply
  | responds (status : ℕ) (body : Decoded)
  | runtimeError
  | exception

structure PostCall where
  /-- `breaker.check` returns. -/
  admitted : Bool
  reply : Reply

inductive PostEnd
  | retries
  | raises
  | returns (answers : Json)

/-- The number of `RETRY_DELAYS`. -/
def retryDelays : ℕ := 5

/-- The round after `breaker.check`: what it records with the breaker, and how it ends. -/
def Reply.handle : Reply → List Bool × PostEnd
  | .runtimeError => ([], .raises)
  | .exception => ([false], .retries)
  | .responds status body =>
    if status = 429 || status = 529 || 500 ≤ status && status < 600 then ([false], .retries)
    else if 400 ≤ status then ([!(status = 401 || status = 402 || status = 403)], .raises)
    else
      match body with
      | .recursionError => ([true], .raises)
      | .valueError => ([true, false], .retries)
      | .json j =>
        match j.get "answers".toList with
        | .ok answers => ([true], .returns (answers.orElse (.obj [])))
        | .error _ => ([true, false], .retries)

/-- The loop of `_post`: what it records, and the answers unless it raises. -/
def postLoop : List PostCall → List Bool × Option Json
  | [] => ([], none)
  | a :: calls =>
    if !a.admitted then ([], none)
    else
      match a.reply.handle with
      | (records, .raises) => (records, none)
      | (records, .returns answers) => (records, some answers)
      | (records, .retries) =>
        let (more, result) := postLoop calls
        (records ++ more, result)

def post (calls : ℕ → PostCall) : List Bool × Option Json :=
  postLoop ((List.range (retryDelays + 1)).map calls)

/-! ## Answers that can be read -/

/-- The answers of the judge about `n` addresses, as far as `decide` reads them: parts that
are objects, a choice that is a text and numbers that are floats or can be made floats,
wherever the value does not give way to a default. -/
@[mk_iff]
structure Interpretable (F : Floats) (answers : Json) (n : ℕ) : Prop where
  object : answers.IsObject
  best : (lookup answers "best_contact".toList).Yields Json.IsObject
  choice : (lookup (lookup answers "best_contact".toList) "choice".toList).Yields Json.IsText
  confidence : (lookup (lookup answers "best_contact".toList) "confidence".toList).Yields
    (Json.Convertible F)
  belongs : ∀ i < n, (lookup answers (belongsKey i)).Yields Json.IsObject
  noul : ∀ i < n, ∀ m, lookup (lookup answers (belongsKey i)) "noul".toList = .int m →
    (F.ofInt m).isSome
  site : (lookup answers "site_status".toList).Yields Json.IsObject
  siteConfidence : (lookup (lookup answers "site_status".toList) "confidence".toList).Yields
    (Json.Convertible F)

section

variable {U : Unicode} {F : Floats} {answers j v : Json} {k : Str}

theorem get_eq_ok_iff : j.get k = .ok v ↔ j.IsObject ∧ lookup j k = v := by
  cases j <;> simp [Json.get, Json.IsObject, lookup, Except.toOption]

theorem lookup_of_not_truthy (h : ¬ j.truthy = true) : lookup j k = .null := by
  cases j with
  | obj m =>
    have hm : m = [] := by simpa [Json.truthy] using h
    rw [hm]
    rfl
  | _ => rfl

@[simp] theorem lookup_orElse : lookup (j.orElse (.obj [])) k = lookup j k := by
  unfold Json.orElse
  split_ifs with h
  · rfl
  · rw [lookup_of_not_truthy h]
    rfl

@[simp] theorem isObject_orElse : (j.orElse (.obj [])).IsObject ↔ j.Yields Json.IsObject :=
  Json.orElse_iff Json.IsObject j ⟨[], rfl⟩

theorem strip_orElse_returns_iff :
    ((j.orElse (.str [])).strip U).isOk = true ↔ j.Yields Json.IsText := by
  rw [Json.isOk_strip]
  exact Json.orElse_iff Json.IsText j ⟨[], rfl⟩

theorem toFloat_orElse_returns_iff :
    ((j.orElse (.float (.fin 0))).toFloat F).isOk = true ↔ j.Yields (Json.Convertible F) := by
  rw [Json.isOk_toFloat]
  exact Json.orElse_iff (Json.Convertible F) j trivial

/-- Only an integer too large for a float escapes the guard around the conversion. -/
theorem readNoul_returns_iff (hobj : answers.IsObject) (i : ℕ) :
    (readNoul F answers i).isOk = true ↔
      (lookup answers (belongsKey i)).Yields Json.IsObject ∧
        ∀ m, lookup (lookup answers (belongsKey i)) "noul".toList = .int m →
          (F.ofInt m).isSome := by
  simp only [readNoul, Except.isOk_bind, get_eq_ok_iff, hobj, true_and, and_assoc,
    exists_eq_left', isObject_orElse, lookup_orElse, exists_and_left]
  refine and_congr_right fun _ => ?_
  generalize lookup (lookup answers (belongsKey i)) "noul".toList = noul
  cases noul with
  | int m => cases h : F.ofInt m <;> simp [Json.toFloat, h, throw, throwThe, MonadExceptOf.throw]
  | str s => cases h : F.ofStr s <;> simp [Json.toFloat, h]
  | _ => simp [Json.toFloat]

theorem readBelongs_returns_iff (start : ℕ)
    (belongs : Dict Str PyFloat) (emails : List Str) :
    (readBelongs F answers start belongs emails).isOk = true ↔
      ∀ i < emails.length, (readNoul F answers (start + i)).isOk = true := by
  induction emails generalizing start belongs with
  | nil => simp [readBelongs]
  | cons email emails ih =>
    simp only [readBelongs, Except.isOk_bind, ih, exists_and_right, ← Except.isOk_iff,
      List.length_cons, Nat.forall_lt_succ_left]
    simp [Nat.add_comm, Nat.add_left_comm]

theorem decide_returns_iff (settings : JudgeSettings) (emails : List Str)
    (ranked : List RankedEmail) :
    (decide U F settings answers emails ranked).isOk = true ↔
      Interpretable F answers emails.length := by
  have hread : answers.IsObject → ((readBelongs F answers 0 [] emails).isOk = true ↔
      ∀ i < emails.length, (lookup answers (belongsKey i)).Yields Json.IsObject ∧
        ∀ m, lookup (lookup answers (belongsKey i)) "noul".toList = .int m →
          (F.ofInt m).isSome) := by
    intro hobj
    simp only [readBelongs_returns_iff, readNoul_returns_iff hobj, Nat.zero_add]
  simp only [decide, Except.isOk_bind, get_eq_ok_iff, and_assoc, exists_eq_left',
    isObject_orElse, lookup_orElse, exists_and_left, exists_and_right, Except.isOk_pure,
    and_true, strip_orElse_returns_iff, toFloat_orElse_returns_iff, ← Except.isOk_iff,
    interpretable_iff]
  constructor
  · rintro ⟨hobj, hbest, hchoice, -, hconf, hbelongs, -, hsite, -, hsiteConf⟩
    rw [hread hobj] at hbelongs
    exact ⟨hobj, hbest, hchoice, hconf, fun i hi => (hbelongs i hi).1,
      fun i hi => (hbelongs i hi).2, hsite, hsiteConf⟩
  · rintro ⟨hobj, hbest, hchoice, hconf, hnode, hnoul, hsite, hsiteConf⟩
    have hbelongs := (hread hobj).2 fun i hi => ⟨hnode i hi, hnoul i hi⟩
    exact ⟨hobj, hbest, hchoice, hbest, hconf, hbelongs, hobj, hsite, hsite, hsiteConf⟩

end

/-! ## When the judge returns -/

section

variable {U : Unicode} {F : Floats} {settings : JudgeSettings} {ranked : List RankedEmail}
  {domain pageTitle : Str} {ask : Json → Option Json}

theorem judge_of_not_called (hcall : ¬ shouldCall ranked = true) :
    judge U F settings ask ranked domain pageTitle = .ok (rulesOnly ranked) := by
  simp [judge, hcall]

theorem judge_of_raised (hcall : shouldCall ranked = true)
    (hask : ask (buildBody U settings ranked domain pageTitle).1 = none) :
    judge U F settings ask ranked domain pageTitle =
      .ok { rulesOnly ranked with typesafeError := true } := by
  simp [judge, hcall, hask]

theorem judge_of_answered {answers : Json} (hcall : shouldCall ranked = true)
    (hask : ask (buildBody U settings ranked domain pageTitle).1 = some answers) :
    judge U F settings ask ranked domain pageTitle =
      decide U F settings answers (buildBody U settings ranked domain pageTitle).2 ranked := by
  simp [judge, hcall, hask]

end

/-- The judge returns a judgment, the rules' one if there is nothing it can interpret. -/
def Judged (F : Floats) (ranked : List RankedEmail) (n : ℕ) (reply : Option Json)
    (result : Except PyExn Judgment) : Prop :=
  ∃ j, result = .ok j ∧
    ((∀ answers ∈ reply, ¬ Interpretable F answers n) →
      { j with typesafeError := false } = rulesOnly ranked)

@[simp] theorem rulesOnly_without_error (ranked : List RankedEmail) :
    { rulesOnly ranked with typesafeError := false } = rulesOnly ranked := by
  cases ranked <;> rfl

theorem judged_decide_iff {U : Unicode} {F : Floats} (settings : JudgeSettings) {answers : Json}
    (emails : List Str) (ranked : List RankedEmail) :
    Judged F ranked emails.length (some answers)
        (decide U F settings answers emails ranked) ↔
      Interpretable F answers emails.length := by
  constructor
  · rintro ⟨j, hj, -⟩
    exact (decide_returns_iff settings emails ranked).1 (Except.isOk_iff.2 ⟨j, hj⟩)
  · intro hread
    obtain ⟨j, hj⟩ :=
      Except.isOk_iff.1 ((decide_returns_iff (U := U) settings emails ranked).2 hread)
    exact ⟨j, hj, fun hnot => absurd hread (hnot answers rfl)⟩

/-- Whatever the calls to the endpoint come to, the judge returns a judgment, and the rules'
one for answers it cannot interpret, exactly when it gets no such answers. -/
theorem judge_returns_iff (U : Unicode) (F : Floats) (settings : JudgeSettings)
    (calls : Json → ℕ → PostCall) (ranked : List RankedEmail) (domain pageTitle : Str) :
    let request := buildBody U settings ranked domain pageTitle
    let reply := (post (calls request.1)).2
    Judged F ranked request.2.length reply
        (judge U F settings (fun body => (post (calls body)).2) ranked domain pageTitle) ↔
      (shouldCall ranked = true →
        ∀ answers ∈ reply, Interpretable F answers request.2.length) := by
  intro request reply
  by_cases hcall : shouldCall ranked = true
  · cases hreply : reply with
    | none =>
      rw [judge_of_raised hcall hreply]
      exact iff_of_true ⟨_, rfl, fun _ => rulesOnly_without_error ranked⟩ (by simp)
    | some answers =>
      rw [judge_of_answered hcall hreply]
      simpa [hcall] using judged_decide_iff settings request.2 ranked
  · rw [judge_of_not_called hcall]
    exact iff_of_true ⟨_, rfl, fun _ => rulesOnly_without_error ranked⟩ fun h => absurd h hcall

/-- A text in place of the part about the best contact loses the domain. -/
theorem text_for_best_contact_raises :
    judge .ascii exampleFloats exampleSettings
        (fun _ => (post fun _ => ⟨true, .responds 200 (.json (object
          [("answers", object [("best_contact", textOf "info@acme.com")])]))⟩).2)
        exampleRanked "acme.com".toList [] = .error .attributeError := by
  rfl

end Pipeline

end EmailExtractor
