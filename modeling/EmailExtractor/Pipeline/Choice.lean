import EmailExtractor.Library.Distinct
import EmailExtractor.Pipeline.Typesafe

/-!
# What the judge can choose

Given answers of the expected types, `decide` attributes the `i`-th answer to the
`i`-th distinct address, and picks an address that the answers say belongs to the
business, or none. The one way past the check is a belonging score that is not a
number, against which the tests `< min` and `>= min` both fail.
-/

namespace EmailExtractor

namespace Pipeline

open List

/-! ## The addresses asked about -/

variable {U : Unicode} {F : Floats} {settings : JudgeSettings} {answers : Json}
  {ranked : List RankedEmail}

def lowerEmails (U : Unicode) (ranked : List RankedEmail) : List Str :=
  ranked.map fun r => U.lower r.email

def judgedEmails (U : Unicode) (ranked : List RankedEmail) : List Str :=
  lowerEmails U (pickCandidates U [] [] ranked)

/-- The loop appends the distinct addresses not seen yet, up to the cap. -/
theorem lowerEmails_pickCandidates (seen : List Str) {picked : List RankedEmail}
    (hlen : picked.length < maxJudgeCandidates) :
    lowerEmails U (pickCandidates U seen picked ranked) = lowerEmails U picked ++
      (((lowerEmails U ranked).filter fun e => !seen.contains e).eraseDups).take
        (maxJudgeCandidates - picked.length) := by
  induction ranked generalizing seen picked with
  | nil => simp [pickCandidates, lowerEmails]
  | cons r ranked ih =>
    obtain ⟨room, hroom⟩ : ∃ room, maxJudgeCandidates - picked.length = room + 1 :=
      ⟨maxJudgeCandidates - picked.length - 1, by omega⟩
    by_cases hseen : seen.contains (U.lower r.email)
    · rw [pickCandidates, if_pos hseen, ih seen hlen]
      simp only [lowerEmails, map_cons, filter_cons, hseen, Bool.not_true,
        Bool.false_eq_true, if_false]
    · have hsplit : ((lowerEmails U (r :: ranked)).filter fun e => !seen.contains e).eraseDups =
          U.lower r.email :: ((lowerEmails U ranked).filter fun e =>
            !(U.lower r.email :: seen).contains e).eraseDups := by
        simp only [lowerEmails, map_cons, filter_cons, hseen, Bool.not_false, if_true]
        rw [eraseDups_cons, filter_filter]
        have hfilter : (fun e => (!e == U.lower r.email) && !seen.contains e) =
            fun e => !(U.lower r.email :: seen).contains e := by
          funext e
          rw [contains_cons, Bool.not_or]
        rw [hfilter]
      rw [hsplit, hroom, take_succ_cons, pickCandidates, if_neg hseen]
      split
      · have hzero : room = 0 := by omega
        simp [lowerEmails, hzero]
      · rename_i hcap
        have hlen' : (picked ++ [r]).length < maxJudgeCandidates := by
          rw [length_append, length_singleton]
          omega
        rw [ih (U.lower r.email :: seen) hlen']
        have hroom' : maxJudgeCandidates - (picked ++ [r]).length = room := by
          rw [length_append, length_singleton]
          omega
        rw [hroom']
        simp [lowerEmails]

theorem judgedEmails_eq : judgedEmails U ranked =
    ((lowerEmails U ranked).eraseDups).take maxJudgeCandidates := by
  unfold judgedEmails
  rw [lowerEmails_pickCandidates [] (by decide)]
  simp [lowerEmails]

theorem nodup_judgedEmails : (judgedEmails U ranked).Nodup := by
  rw [judgedEmails_eq]
  exact (Distinct.nodup_eraseDups _).sublist (take_sublist ..)

theorem judgedEmails_cons (r : RankedEmail) (ranked : List RankedEmail) :
    ∃ es, judgedEmails U (r :: ranked) = U.lower r.email :: es := by
  rw [judgedEmails_eq]
  simp only [lowerEmails, map_cons, eraseDups_cons]
  exact ⟨_, rfl⟩

/-! ## Answers of the expected types -/

/-- Every member the decision reads is absent, null or of its type. -/
structure WellTyped (F : Floats) (answers : Json) : Prop where
  best : answers.Member "best_contact".toList fun b =>
    b.Member "choice".toList Json.IsText ∧ b.Member "confidence".toList (Json.IsNumber F)
  belongs : ∀ i, answers.Member (belongsKey i) fun n =>
    n.Member "noul".toList (Json.IsNumber F)
  site : answers.Member "site_status".toList fun s =>
    s.Member "choice".toList Json.IsText ∧ s.Member "confidence".toList (Json.IsNumber F)

def lookup (j : Json) (k : Str) : Json := (j.get k).toOption.getD .null

def textD : Json → Str
  | .str s => s
  | _ => []

def chosen (U : Unicode) (answers : Json) : Str :=
  U.lower (U.strip (textD (lookup (lookup answers "best_contact".toList) "choice".toList)))

def confidenceOf (F : Floats) (answers : Json) : PyFloat :=
  (((lookup (lookup answers "best_contact".toList) "confidence".toList).orElse
    (.float (.fin 0))).toFloat F).toOption.getD (.fin 0)

def answered (F : Floats) (answers : Json) (i : ℕ) : PyFloat :=
  ((lookup (lookup answers (belongsKey i)) "noul".toList).toFloat F).toOption.getD (.fin 0)

theorem get_eq_lookup {j : Json} {k : Str} {p : Json → Prop} (h : j.Member k p) :
    j.get k = .ok (lookup j k) ∧ (lookup j k = .null ∨ p (lookup j k)) := by
  obtain ⟨v, hv, hp⟩ := h
  have hlookup : lookup j k = v := by
    rw [lookup, hv]
    rfl
  rw [hlookup]
  exact ⟨hv, hp⟩

theorem get_orElse_eq_lookup {v : Json} {k : Str}
    (h : v = .null ∨ ∃ w, v.get k = .ok w) :
    (v.orElse (.obj [])).get k = .ok (lookup v k) := by
  rcases h with rfl | ⟨w, hw⟩
  · rfl
  · cases v with
    | obj m =>
      cases m with
      | nil | cons item m => rfl
    | _ => simp [Json.get] at hw

theorem strip_orElse {v : Json} (h : v = .null ∨ v.IsText) :
    (v.orElse (.str [])).strip U = .ok (U.strip (textD v)) := by
  rcases h with rfl | ⟨s, rfl⟩
  · rfl
  · cases s <;> rfl

theorem toFloat_orElse {v : Json} (h : v = .null ∨ v.IsNumber F) :
    ∃ x, (v.orElse (.float (.fin 0))).toFloat F = .ok x :=
  Json.toFloat_of_isNumber (Json.orElse_cases h (.inl ⟨.fin 0, rfl⟩))

theorem readNoul_eq (h : WellTyped F answers) (i : ℕ) :
    readNoul F answers i = .ok (answered F answers i) := by
  obtain ⟨hget, hnode⟩ := get_eq_lookup (h.belongs i)
  have hnoul : lookup answers (belongsKey i) = .null ∨
      ∃ w, (lookup answers (belongsKey i)).get "noul".toList = .ok w := by
    rcases hnode with hnode | hnode
    · exact .inl hnode
    · exact .inr ⟨_, (get_eq_lookup hnode).1⟩
  have hvalue : lookup (lookup answers (belongsKey i)) "noul".toList = .null ∨
      (lookup (lookup answers (belongsKey i)) "noul".toList).IsNumber F := by
    rcases hnode with hnode | hnode
    · exact .inl (by rw [hnode]; rfl)
    · exact (get_eq_lookup hnode).2
  unfold readNoul answered
  simp only [hget, get_orElse_eq_lookup hnoul, bind, Except.bind]
  rcases hvalue with hvalue | hvalue
  · rw [hvalue]
    rfl
  · obtain ⟨x, hx⟩ := Json.toFloat_of_isNumber hvalue
    rw [hx]
    rfl

theorem readBelongs_eq (h : WellTyped F answers) {emails : List Str} (hnodup : emails.Nodup)
    (start : ℕ) (belongs : Dict Str PyFloat) :
    ∃ d, readBelongs F answers start belongs emails = .ok d ∧
      (∀ i e, emails[i]? = some e → Dict.get? e d = some (answered F answers (start + i))) ∧
      ∀ e ∉ emails, Dict.get? e d = Dict.get? e belongs := by
  induction emails generalizing start belongs with
  | nil => exact ⟨belongs, rfl, by simp, fun _ _ => rfl⟩
  | cons email emails ih =>
    obtain ⟨hnotin, hrest⟩ := nodup_cons.mp hnodup
    obtain ⟨d, hd, hget, hother⟩ :=
      ih hrest (start + 1) (Dict.set email (answered F answers start) belongs)
    refine ⟨d, ?_, fun i e hi => ?_, fun e he => ?_⟩
    · simp only [readBelongs, readNoul_eq h, bind, Except.bind]
      exact hd
    · cases i with
      | zero =>
        simp only [List.getElem?_cons_zero, Option.some.injEq] at hi
        rw [← hi, hother email hnotin, Dict.get?_set_self, Nat.add_zero]
      | succ i =>
        rw [hget i e (by simpa using hi), Nat.add_assoc, Nat.add_comm 1 i]
    · rw [mem_cons, not_or] at he
      rw [hother e he.2, Dict.get?_set_of_ne he.1]

theorem part_read {k : Str} (h : answers.Member k fun b =>
      b.Member "choice".toList Json.IsText ∧ b.Member "confidence".toList (Json.IsNumber F)) :
    answers.get k = .ok (lookup answers k) ∧
      (((lookup answers k).orElse (.obj [])).get "choice".toList =
          .ok (lookup (lookup answers k) "choice".toList) ∧
        (lookup (lookup answers k) "choice".toList = .null ∨
          (lookup (lookup answers k) "choice".toList).IsText)) ∧
      (((lookup answers k).orElse (.obj [])).get "confidence".toList =
          .ok (lookup (lookup answers k) "confidence".toList) ∧
        (lookup (lookup answers k) "confidence".toList = .null ∨
          (lookup (lookup answers k) "confidence".toList).IsNumber F)) := by
  obtain ⟨hget, hnull | ⟨hchoice, hconf⟩⟩ := get_eq_lookup h
  · have hmember : ∀ k', lookup (lookup answers k) k' = .null := by
      intro k'
      rw [hnull]
      rfl
    exact ⟨hget, ⟨get_orElse_eq_lookup (.inl hnull), .inl (hmember _)⟩,
      ⟨get_orElse_eq_lookup (.inl hnull), .inl (hmember _)⟩⟩
  · obtain ⟨hchoice, htext⟩ := get_eq_lookup hchoice
    obtain ⟨hconf, hnum⟩ := get_eq_lookup hconf
    exact ⟨hget, ⟨get_orElse_eq_lookup (.inr ⟨_, hchoice⟩), htext⟩,
      ⟨get_orElse_eq_lookup (.inr ⟨_, hconf⟩), hnum⟩⟩

theorem decide_eq (settings : JudgeSettings) (h : WellTyped F answers) {emails : List Str}
    (hnodup : emails.Nodup) (ranked : List RankedEmail) :
    ∃ belongs, decide U F settings answers emails ranked =
        .ok (verdict U settings (chosen U answers) (confidenceOf F answers) belongs
          (lookup (lookup answers "site_status".toList) "choice".toList) emails ranked) ∧
      ∀ i e, emails[i]? = some e → Dict.get? e belongs = some (answered F answers i) := by
  obtain ⟨belongs, hbelongs, hget, -⟩ := readBelongs_eq h hnodup 0 []
  obtain ⟨hbest, ⟨hchoice, htext⟩, ⟨hconf, hnum⟩⟩ := part_read h.best
  obtain ⟨hsite, ⟨hsiteChoice, -⟩, ⟨hsiteConf, hsiteNum⟩⟩ := part_read h.site
  have hconfidence : ((lookup (lookup answers "best_contact".toList)
      "confidence".toList).orElse (.float (.fin 0))).toFloat F =
      .ok (confidenceOf F answers) := by
    obtain ⟨x, hx⟩ := toFloat_orElse hnum
    rw [confidenceOf, hx]
    rfl
  obtain ⟨_, hsiteConfidence⟩ := toFloat_orElse hsiteNum
  refine ⟨belongs, ?_, fun i e hi => by simpa using hget i e hi⟩
  unfold decide
  simp only [hbest, hchoice, hconf, hsite, hsiteChoice, hsiteConf, hbelongs, bind,
    Except.bind, strip_orElse htext, hconfidence, hsiteConfidence, pure, Except.pure]
  rfl

/-! ## The choice -/

/-- The judge names an address with enough confidence, and says that it belongs. -/
def Accepted (F : Floats) (U : Unicode) (settings : JudgeSettings) (answers : Json)
    (emails : List Str) : Prop :=
  (confidenceOf F answers).ge (.fin settings.typesafeConfidenceMin) ∧
    ∃ i, emails[i]? = some (chosen U answers) ∧
      (answered F answers i).ge (.fin settings.typesafeBelongsMin)

/-- The judge says with enough confidence that no address is the business's. -/
def SaysNone (F : Floats) (U : Unicode) (settings : JudgeSettings) (answers : Json) : Prop :=
  chosen U answers = "none".toList ∧
    (confidenceOf F answers).ge (.fin settings.typesafeConfidenceMin)

/-- The judgment attributes the answers to the addresses, picks only an address that
belongs, gives a confidence only for a pick of the judge, and picks nothing when the
judge says that there is nothing. -/
structure NoLeak (F : Floats) (settings : JudgeSettings) (answers : Json)
    (emails : List Str) (j : Judgment) : Prop where
  belongs : ∀ i e, emails[i]? = some e → Dict.get? e j.belongs = some (answered F answers i)
  best : ∀ e ∈ j.bestEmail, e ∈ emails ∧ e ∈ j.businessEmails ∧
    (Dict.getD j.belongs e (.fin 0)).ge (.fin settings.typesafeBelongsMin)
  confidence : j.confidence ≠ none → j.bestEmailSource = some .typesafe
  saidNone : j.saidNone → j.bestEmail = none

section Verdict

variable {emails : List Str} {belongs : Dict Str PyFloat} {site : Json}

theorem accepted_iff
    (hget : ∀ i e, emails[i]? = some e → Dict.get? e belongs = some (answered F answers i)) :
    (emails.contains (chosen U answers) &&
        (confidenceOf F answers).ge (.fin settings.typesafeConfidenceMin) &&
        (Dict.getD belongs (chosen U answers) (.fin 0)).ge
          (.fin settings.typesafeBelongsMin)) = true ↔
      Accepted F U settings answers emails := by
  have hvalue : ∀ i, emails[i]? = some (chosen U answers) →
      Dict.getD belongs (chosen U answers) (.fin 0) = answered F answers i := by
    intro i hi
    rw [Dict.getD, hget i _ hi, Option.getD_some]
  simp only [Bool.and_eq_true, contains_iff_mem, Accepted]
  constructor
  · rintro ⟨⟨hmem, hconf⟩, hge⟩
    obtain ⟨i, hi⟩ := mem_iff_getElem?.mp hmem
    exact ⟨hconf, i, hi, by rwa [hvalue i hi] at hge⟩
  · rintro ⟨hconf, i, hi, hge⟩
    exact ⟨⟨mem_of_getElem? hi, hconf⟩, by rwa [hvalue i hi]⟩

/-- The verdict keeps to the addresses that belong exactly when the first address's
score is a number, or the judge made a pick, or said that there is none. -/
theorem verdict_noLeak_iff (r : RankedEmail) (rs : List RankedEmail)
    (hfirst : emails[0]? = some (U.lower r.email))
    (hget : ∀ i e, emails[i]? = some e → Dict.get? e belongs = some (answered F answers i)) :
    NoLeak F settings answers emails
        (verdict U settings (chosen U answers) (confidenceOf F answers) belongs site emails
          (r :: rs)) ↔
      answered F answers 0 ≠ .nan ∨ Accepted F U settings answers emails ∨
        SaysNone F U settings answers := by
  have hmem := mem_of_getElem? hfirst
  have hscore : ∀ d, Dict.getD belongs (U.lower r.email) d = answered F answers 0 := by
    intro d
    rw [Dict.getD, hget 0 _ hfirst, Option.getD_some]
  by_cases hacc : Accepted F U settings answers emails
  · -- the pick of the judge
    have htest := (accepted_iff hget).mpr hacc
    rw [verdict, if_pos htest]
    simp only [Bool.and_eq_true, contains_iff_mem] at htest
    obtain ⟨⟨hin, -⟩, hge⟩ := htest
    refine iff_of_true ⟨hget, fun e he => ?_, fun _ => rfl, fun h => ?_⟩ (.inr (.inl hacc))
    · obtain rfl := Option.some.inj he
      exact ⟨hin, mem_filter.mpr ⟨hin, hge⟩, hge⟩
    · exact absurd h (by simp)
  · rw [verdict, if_neg fun h => hacc ((accepted_iff hget).mp h)]
    by_cases hnone : SaysNone F U settings answers
    · -- the judge says there is none
      rw [if_pos (by simpa [SaysNone] using hnone)]
      refine iff_of_true ⟨hget, fun e he => ?_, fun _ => rfl, fun _ => rfl⟩
        (.inr (.inr hnone))
      exact absurd he (by simp)
    · -- the fallback to the first address
      rw [if_neg (by simpa [SaysNone] using hnone)]
      simp only [List.head?_cons, Option.map_some, hscore, hacc, hnone, or_false]
      split
      · rename_i hlt
        refine iff_of_true ⟨hget, fun e he => ?_, fun h => ?_, fun h => ?_⟩ fun hnan => ?_
        · have hbusiness := mem_of_mem_head? he
          obtain ⟨hin, hge⟩ := mem_filter.mp hbusiness
          exact ⟨hin, hbusiness, hge⟩
        · exact absurd rfl h
        · exact absurd h (by simp)
        · rw [hnan, PyFloat.lt_nan] at hlt
          exact absurd hlt Bool.false_ne_true
      · rename_i hlt
        constructor
        · intro h hnan
          have hge := (h.best _ rfl).2.2
          rw [hscore, hnan, PyFloat.ge_nan] at hge
          exact absurd hge Bool.false_ne_true
        · intro hnan
          have hge : (answered F answers 0).ge (.fin settings.typesafeBelongsMin) := by
            rw [PyFloat.ge_fin_eq hnan]
            simpa using hlt
          refine ⟨hget, fun e he => ?_, fun h => absurd rfl h, fun h => absurd h (by simp)⟩
          obtain rfl := Option.some.inj he
          refine ⟨hmem, mem_filter.mpr ⟨hmem, ?_⟩, ?_⟩ <;> rw [hscore] <;> exact hge

end Verdict

/-- The answers are attributed by position to the distinct addresses, and the judgment
picks only an address that belongs, exactly when the first address's score is a
number, or the judge's pick is accepted, or the judge says that there is none. -/
theorem decide_never_leaks_iff (h : WellTyped F answers) (hne : ranked ≠ [])
    (domain pageTitle : Str) :
    let emails := (buildBody U settings ranked domain pageTitle).2
    emails = ((lowerEmails U ranked).eraseDups).take maxJudgeCandidates ∧
      ∃ j, decide U F settings answers emails ranked = .ok j ∧
        (NoLeak F settings answers emails j ↔
          answered F answers 0 ≠ .nan ∨ Accepted F U settings answers emails ∨
            SaysNone F U settings answers) := by
  intro emails
  have hemails : emails = judgedEmails U ranked := rfl
  obtain ⟨r, rs, rfl⟩ := exists_cons_of_ne_nil hne
  obtain ⟨es, hcons⟩ := judgedEmails_cons (U := U) r rs
  obtain ⟨belongs, hdecide, hget⟩ :=
    decide_eq (U := U) settings h (nodup_judgedEmails (U := U)) (r :: rs)
  rw [hemails]
  refine ⟨judgedEmails_eq, _, hdecide, verdict_noLeak_iff r rs ?_ hget⟩
  rw [hcons]
  rfl

section Example

/-- A runtime that converts integers exactly and texts not at all. -/
def exampleFloats : Floats where
  ofInt n := some (.fin n)
  ofStr _ := none

def exampleSettings : JudgeSettings where
  typesafeModel := "jev-latest".toList
  typesafeConfidenceMin := 4 / 5
  typesafeBelongsMin := 1 / 2

def exampleRanked : List RankedEmail :=
  [⟨{ email := "bob@acme.com".toList, method := .text }, 1, true, false, false⟩,
    ⟨{ email := "info@acme.com".toList, method := .mailto }, 2, true, true, false⟩]

def exampleAnswers (noul : PyFloat) : Json :=
  object
    [("best_contact", object
        [("choice", textOf "info@acme.com"), ("confidence", .float (.fin (1 / 10)))]),
      ("belongs_0", object [("noul", .float noul)]),
      ("belongs_1", object [("noul", .float (.fin (9 / 10)))])]

theorem exampleAnswers_wellTyped (noul : PyFloat) :
    WellTyped exampleFloats (exampleAnswers noul) where
  best := ⟨_, rfl, .inr ⟨⟨_, rfl, .inr ⟨_, rfl⟩⟩, ⟨_, rfl, .inr (.inl ⟨_, rfl⟩)⟩⟩⟩
  belongs := by
    intro i
    refine Json.member_of_forall (fun item hitem => ?_) (belongsKey i)
    simp only [map_cons, map_nil, mem_cons, not_mem_nil, or_false] at hitem
    rcases hitem with rfl | rfl | rfl
    · exact ⟨.null, by simp [object, Dict.get?], .inl rfl⟩
    · exact ⟨_, by simp [object, Dict.get?], .inr (.inl ⟨noul, rfl⟩)⟩
    · exact ⟨_, by simp [object, Dict.get?], .inr (.inl ⟨.fin (9 / 10), rfl⟩)⟩
  site := ⟨.null, by simp [exampleAnswers, object, Dict.get?], .inl rfl⟩

/-- With a first score that is not a number the judgment picks an address that is not
among the business's. -/
theorem nan_score_leaks :
    WellTyped exampleFloats (exampleAnswers .nan) ∧
      (decide .ascii exampleFloats exampleSettings (exampleAnswers .nan)
          (buildBody .ascii exampleSettings exampleRanked [] []).2
          exampleRanked).toOption.map (fun j => (j.bestEmail, j.businessEmails)) =
        some (some "bob@acme.com".toList, ["info@acme.com".toList]) :=
  ⟨exampleAnswers_wellTyped .nan, by decide +kernel⟩

/-- With a low first score the same judgment keeps to the business's addresses. -/
theorem low_score_does_not_leak :
    let emails := (buildBody .ascii exampleSettings exampleRanked [] []).2
    ∃ j, decide .ascii exampleFloats exampleSettings (exampleAnswers (.fin (1 / 5))) emails
        exampleRanked = .ok j ∧
      NoLeak exampleFloats exampleSettings (exampleAnswers (.fin (1 / 5))) emails j := by
  intro emails
  obtain ⟨-, j, hj, hleak⟩ := @decide_never_leaks_iff .ascii exampleFloats exampleSettings _
    exampleRanked (exampleAnswers_wellTyped (.fin (1 / 5))) (by simp [exampleRanked]) [] []
  exact ⟨j, hj, hleak.mpr (.inl (by decide +kernel))⟩

end Example

end Pipeline

end EmailExtractor
