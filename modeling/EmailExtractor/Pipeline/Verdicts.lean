import EmailExtractor.Pipeline.Choice
import EmailExtractor.Pipeline.Harvest

/-!
# What the status says beside the addresses

`_harvest` takes the status from the best address, from the verdict on the site and
from the word that there is no address, and the business's addresses from the answers
about each of them. The two agree unless the judge says that none of the addresses is
the business's while it says of one of them that it is. The verdict on the site counts
whatever its confidence.
-/

namespace EmailExtractor

namespace Pipeline

open List

variable {U : Unicode} {F : Floats} {settings : JudgeSettings} {ranked : List RankedEmail}

def judgmentOf (U : Unicode) (F : Floats) (settings : JudgeSettings) (answers : Option Json)
    (ranked : List RankedEmail) (domain pageTitle : Str) : Except PyExn (Option Judgment) :=
  match answers with
  | none => .ok none
  | some answers => do
      let emails := (buildBody U settings ranked domain pageTitle).2
      let j ← decide U F settings answers emails ranked
      return some j

def siteChoice (answers : Json) : Json :=
  lookup (lookup answers "site_status".toList) "choice".toList

def siteConfidence (F : Floats) (answers : Json) : PyFloat :=
  (((lookup (lookup answers "site_status".toList) "confidence".toList).orElse
    (.float (.fin 0))).toFloat F).toOption.getD (.fin 0)

/-- The statuses that say there is no address to write to. -/
def Quiet (status : Status) : Prop :=
  status = .noBusinessEmail ∨ status = .formOnly ∨ status = .noContactInfo

def Addressed (U : Unicode) (ranked : List RankedEmail) : Prop :=
  ∀ r ∈ ranked, r.email ≠ [] ∧ U.lower r.email ≠ []

/-- The judge says that there is none, and yet that one of the addresses belongs to
the business, on a site it does not call parked. -/
def Overruled (U : Unicode) (F : Floats) (settings : JudgeSettings) (ranked : List RankedEmail)
    (answers : Json) : Prop :=
  SaysNone F U settings answers ∧ ¬ Accepted F U settings answers (judgedEmails U ranked) ∧
    (∃ i e, (judgedEmails U ranked)[i]? = some e ∧
      (answered F answers i).ge (.fin settings.typesafeBelongsMin)) ∧
    (siteChoice answers).isStr "parked_or_for_sale".toList = false

/-- The answers leave a best address: a pick of the judge, or, unless the judge says that
there is none, the first address if it is not called foreign, or one that belongs. -/
def Contacted (U : Unicode) (F : Floats) (settings : JudgeSettings) (ranked : List RankedEmail)
    (answers : Json) : Prop :=
  Accepted F U settings answers (judgedEmails U ranked) ∨
    ¬ SaysNone F U settings answers ∧ ranked ≠ [] ∧
      ((answered F answers 0).lt (.fin settings.typesafeBelongsMin) = false ∨
        ∃ i e, (judgedEmails U ranked)[i]? = some e ∧
          (answered F answers i).ge (.fin settings.typesafeBelongsMin))

/-! ## The best address and the business's addresses -/

theorem given_some {s : Str} (h : s ≠ []) : given (some s) = true := by
  simpa [given] using h

theorem given_head?_iff {l : List Str} (hl : ∀ e ∈ l, e ≠ []) :
    given l.head? = true ↔ ∃ e, e ∈ l := by
  cases l with
  | nil => simp [given]
  | cons e l => exact iff_of_true (given_some (hl e mem_cons_self)) ⟨e, mem_cons_self⟩

theorem given_knownBest {j : Judgment} (haddr : Addressed U ranked)
    (hne : given j.bestEmail = true → ranked ≠ []) :
    given (knownBest ranked j).bestEmail = given j.bestEmail := by
  unfold knownBest
  split
  · rename_i h
    rw [Bool.and_eq_true] at h
    obtain ⟨r, rs, rfl⟩ := exists_cons_of_ne_nil (hne h.1)
    rw [h.1]
    exact given_some (haddr r mem_cons_self).1
  · rfl

theorem knownBest_businessEmails (j : Judgment) :
    (knownBest ranked j).businessEmails = j.businessEmails := by
  unfold knownBest
  split <;> rfl

theorem knownBest_siteStatus (ranked : List RankedEmail) (j : Judgment) :
    (knownBest ranked j).siteStatus = j.siteStatus := by
  unfold knownBest
  split <;> rfl

theorem given_rulesOnly (haddr : Addressed U ranked) :
    given (rulesOnly ranked).bestEmail = !ranked.isEmpty := by
  cases ranked with
  | nil => rfl
  | cons r rs => exact given_some (haddr r mem_cons_self).1

theorem rulesOnly_ranked (haddr : Addressed U ranked)
    (h : given (rulesOnly ranked).bestEmail = true) : ranked ≠ [] := by
  rintro rfl
  rw [given_rulesOnly haddr] at h
  exact absurd h (by decide)

theorem mem_lowerEmails_of_mem_judgedEmails {e : Str} (h : e ∈ judgedEmails U ranked) :
    e ∈ lowerEmails U ranked := by
  rw [judgedEmails_eq] at h
  exact mem_eraseDups.mp (mem_of_mem_take h)

theorem ne_nil_of_mem_judgedEmails (haddr : Addressed U ranked) {e : Str}
    (h : e ∈ judgedEmails U ranked) : e ≠ [] := by
  obtain ⟨r, hr, rfl⟩ := mem_map.mp (mem_lowerEmails_of_mem_judgedEmails h)
  exact (haddr r hr).2

/-- What a judgment on answers of the expected types says. -/
structure Reports (U : Unicode) (F : Floats) (settings : JudgeSettings) (ranked : List RankedEmail)
    (answers : Json) (j : Judgment) : Prop where
  site : j.siteStatus = siteChoice answers
  business : ∀ e, e ∈ j.businessEmails ↔ ∃ i, (judgedEmails U ranked)[i]? = some e ∧
    (answered F answers i).ge (.fin settings.typesafeBelongsMin)
  saidNone : j.saidNone = true ↔
    SaysNone F U settings answers ∧ ¬ Accepted F U settings answers (judgedEmails U ranked)
  best : given j.bestEmail = true ↔ Contacted U F settings ranked answers

section Verdict

variable {answers : Json} {belongs : Dict Str PyFloat}

theorem mem_business_iff (settings : JudgeSettings)
    (hget : ∀ i e, (judgedEmails U ranked)[i]? = some e →
      Dict.get? e belongs = some (answered F answers i)) (e : Str) :
    e ∈ (judgedEmails U ranked).filter (fun e =>
        (Dict.getD belongs e (.fin 0)).ge (.fin settings.typesafeBelongsMin)) ↔
      ∃ i, (judgedEmails U ranked)[i]? = some e ∧
        (answered F answers i).ge (.fin settings.typesafeBelongsMin) := by
  rw [mem_filter]
  constructor
  · rintro ⟨hmem, hge⟩
    obtain ⟨i, hi⟩ := mem_iff_getElem?.mp hmem
    rw [Dict.getD, hget i e hi] at hge
    exact ⟨i, hi, hge⟩
  · rintro ⟨i, hi, hge⟩
    refine ⟨mem_of_getElem? hi, ?_⟩
    rw [Dict.getD, hget i e hi]
    exact hge

theorem verdict_reports (haddr : Addressed U ranked)
    (hget : ∀ i e, (judgedEmails U ranked)[i]? = some e →
      Dict.get? e belongs = some (answered F answers i)) :
    Reports U F settings ranked answers
      (verdict U settings (chosen U answers) (confidenceOf F answers) belongs
        (siteChoice answers) (judgedEmails U ranked) ranked) := by
  have hbusiness := mem_business_iff settings hget
  by_cases hacc : Accepted F U settings answers (judgedEmails U ranked)
  · -- the pick of the judge, which is one of the addresses
    have htest := (accepted_iff hget).mpr hacc
    rw [verdict, if_pos htest]
    obtain ⟨i, hi, -⟩ := hacc.2
    have hmem := mem_of_getElem? hi
    have hgiven := given_some (ne_nil_of_mem_judgedEmails haddr hmem)
    refine ⟨rfl, hbusiness, ?_, iff_of_true hgiven (.inl hacc)⟩
    exact iff_of_false Bool.false_ne_true fun h => h.2 hacc
  · rw [verdict, if_neg fun h => hacc ((accepted_iff hget).mp h)]
    by_cases hnone : SaysNone F U settings answers
    · rw [if_pos (by simpa [SaysNone] using hnone)]
      refine ⟨rfl, hbusiness, iff_of_true rfl ⟨hnone, hacc⟩, ?_⟩
      exact iff_of_false Bool.false_ne_true fun h => h.elim hacc fun h => h.1 hnone
    · -- the fallback to the first address, or to the first that belongs
      rw [if_neg (by simpa [SaysNone] using hnone)]
      refine ⟨rfl, hbusiness, iff_of_false Bool.false_ne_true fun h => hnone h.1, ?_⟩
      simp only [Contacted, hacc, hnone, not_false_eq_true, true_and, false_or]
      cases ranked with
      | nil => exact iff_of_false Bool.false_ne_true fun h => h.1 rfl
      | cons r rs =>
        obtain ⟨es, hcons⟩ := judgedEmails_cons (U := U) r rs
        have hscore : Dict.getD belongs (U.lower r.email) (.fin 1) = answered F answers 0 := by
          rw [Dict.getD, hget 0 _ (by rw [hcons]; rfl), Option.getD_some]
        simp only [List.head?_cons, Option.map_some, hscore, ne_eq, reduceCtorEq,
          not_false_eq_true, true_and]
        split
        · rename_i hlt
          rw [hlt, given_head?_iff fun e he =>
            ne_nil_of_mem_judgedEmails haddr (mem_of_mem_filter he)]
          simp only [hbusiness, Bool.true_eq_false, false_or]
          exact exists_comm
        · rename_i hlt
          exact iff_of_true (given_some (haddr r mem_cons_self).2)
            (.inl (Bool.not_eq_true _ ▸ hlt))

theorem Contacted.ranked_ne (h : Contacted U F settings ranked answers) : ranked ≠ [] := by
  rcases h with ⟨-, i, hi, -⟩ | ⟨-, hne, -⟩
  · rintro rfl
    simp [judgedEmails_eq, lowerEmails] at hi
  · exact hne

end Verdict

/-! ## The status of a harvested result -/

section Harvest

variable {X : Extractors} {domain : Str} {s s' : Scratch} {x : Extracted} {j : Judgment}
  {siteStatus reason : Option Str}

/-- A harvested result is parked when the judge calls the site so, at any confidence, and
there is no best address; it is quiet when there is neither. -/
theorem resultOf_status :
    ((resultOf domain s x j siteStatus reason).status = .parkedOrForSale ↔
      j.siteStatus.isStr "parked_or_for_sale".toList = true ∧ given j.bestEmail = false) ∧
    (Quiet (resultOf domain s x j siteStatus reason).status ↔
      j.siteStatus.isStr "parked_or_for_sale".toList = false ∧ given j.bestEmail = false) := by
  dsimp only [resultOf, assignStatus]
  cases given j.bestEmail with
  | true =>
    simp only [Bool.not_true, Bool.and_false, Bool.or_true, Bool.false_eq_true, if_false, if_true]
    simp [Quiet]
  | false =>
    cases j.siteStatus.isStr "parked_or_for_sale".toList with
    | true => simp [Quiet]
    | false =>
      simp only [Bool.false_and, Bool.false_eq_true, if_false, false_and, and_self, iff_false,
        iff_true]
      unfold Quiet
      split_ifs <;> decide

theorem harvest_eq (hx : extractAll X s = .ok (x, s')) (judgment : Option Judgment)
    (hsite : siteStatusText (judgment.getD (rulesOnly x.ranked)).siteStatus = .ok siteStatus) :
    harvest X domain s judgment reason =
      .ok (resultOf domain s' x (knownBest x.ranked (judgment.getD (rulesOnly x.ranked)))
        siteStatus reason) := by
  rw [← knownBest_siteStatus x.ranked] at hsite
  unfold harvest
  simp only [hx, bind, Except.bind, hsite, pure, Except.pure]

theorem rulesOnly_siteStatus (ranked : List RankedEmail) :
    (rulesOnly ranked).siteStatus = .null := by
  cases ranked <;> rfl

theorem siteStatusText_of_wellTyped {answers : Json} (h : WellTyped F answers) :
    ∃ t, siteStatusText (siteChoice answers) = .ok t := by
  obtain ⟨-, ⟨-, hnull | ⟨t, ht⟩⟩, -⟩ := part_read h.site
  · exact ⟨none, by rw [siteChoice, hnull]; rfl⟩
  · exact ⟨some t, by rw [siteChoice, ht]; rfl⟩

theorem judgmentOf_eq {answers : Json}
    (h : decide U F settings answers (judgedEmails U ranked) ranked = .ok j)
    (about pageTitle : Str) :
    judgmentOf U F settings (some answers) ranked about pageTitle = .ok (some j) := by
  have hemails : (buildBody U settings ranked about pageTitle).2 = judgedEmails U ranked := rfl
  simp only [judgmentOf, hemails, h, bind, Except.bind, pure, Except.pure]

theorem judgmentOf_reports (settings : JudgeSettings) {answers : Json} (h : WellTyped F answers)
    (haddr : Addressed U ranked) (about pageTitle : Str) :
    ∃ j, judgmentOf U F settings (some answers) ranked about pageTitle = .ok (some j) ∧
      Reports U F settings ranked answers j := by
  obtain ⟨belongs, hdecide, hget⟩ :=
    decide_eq (U := U) settings h (nodup_judgedEmails (U := U)) ranked
  exact ⟨_, judgmentOf_eq hdecide about pageTitle, verdict_reports haddr hget⟩

/-- A result that says there is no address comes with none exactly when the answers do
not say both that there is none and that one belongs. -/
theorem quiet_result_has_no_business_iff {answers : Option Json} (hx : extractAll X s = .ok (x, s'))
    (haddr : Addressed U x.ranked) (htyped : ∀ a ∈ answers, WellTyped F a)
    (about pageTitle : Str) :
    ∃ judgment r, judgmentOf U F settings answers x.ranked about pageTitle = .ok judgment ∧
      harvest X domain s judgment reason = .ok r ∧
      ((Quiet r.status → r.businessEmails = []) ↔
        ¬ ∃ a ∈ answers, Overruled U F settings x.ranked a) := by
  cases answers with
  | none =>
    refine ⟨none, _, rfl, harvest_eq hx none (by rw [Option.getD_none, rulesOnly_siteStatus]; rfl),
      iff_of_true (fun hquiet => ?_) (by simp)⟩
    obtain ⟨-, hbest⟩ := resultOf_status.2.mp hquiet
    rw [Option.getD_none, given_knownBest haddr (rulesOnly_ranked haddr),
      given_rulesOnly haddr] at hbest
    have hnil : x.ranked = [] := by simpa using hbest
    dsimp only [resultOf]
    rw [knownBest_businessEmails, Option.getD_none, hnil]
    rfl
  | some answers =>
    have hwell := htyped answers rfl
    obtain ⟨j, hj, hrep⟩ := judgmentOf_reports settings hwell haddr about pageTitle
    obtain ⟨t, ht⟩ := siteStatusText_of_wellTyped hwell
    rw [← hrep.site] at ht
    refine ⟨some j, _, hj, harvest_eq hx (some j) ht, ?_⟩
    have hgiven : given (knownBest x.ranked j).bestEmail = given j.bestEmail :=
      given_knownBest haddr fun h => (hrep.best.mp h).ranked_ne
    rw [resultOf_status.2]
    dsimp only [resultOf]
    rw [Option.getD_some, knownBest_businessEmails, knownBest_siteStatus, hgiven, hrep.site]
    constructor
    · rintro hquiet ⟨a, ha, hover⟩
      obtain rfl := Option.some.inj ha
      obtain ⟨hnone, hacc, ⟨i, e, hi, hge⟩, hsite⟩ := hover
      have hbest : given j.bestEmail = false := by
        rw [← Bool.not_eq_true, hrep.best]
        exact fun h => h.elim hacc fun h => h.1 hnone
      have hbusiness := hquiet ⟨hsite, hbest⟩
      have hmem := (hrep.business e).mpr ⟨i, hi, hge⟩
      rw [hbusiness] at hmem
      exact not_mem_nil hmem
    · rintro hagree ⟨hsite, hbest⟩
      rw [← Bool.not_eq_true, hrep.best] at hbest
      rw [eq_nil_iff_forall_not_mem]
      intro e he
      obtain ⟨i, hi, hge⟩ := (hrep.business e).mp he
      have hne : x.ranked ≠ [] := by
        intro hnil
        simp [hnil, judgedEmails_eq, lowerEmails] at hi
      have hacc := fun h => hbest (.inl h)
      have hnone : SaysNone F U settings answers := by
        by_contra hnot
        exact hbest (.inr ⟨hnot, hne, .inr ⟨i, e, hi, hge⟩⟩)
      exact hagree ⟨answers, rfl, hnone, hacc, ⟨i, e, hi, hge⟩, hsite⟩

/-- A verdict that the site is parked decides the status, whatever its confidence, exactly
when the answers leave no best address. -/
theorem parked_verdict_decides_iff {answers : Json} (hx : extractAll X s = .ok (x, s'))
    (haddr : Addressed U x.ranked) (htyped : WellTyped F answers) (about pageTitle : Str) :
    ∃ judgment r, judgmentOf U F settings (some answers) x.ranked about pageTitle = .ok judgment ∧
      harvest X domain s judgment reason = .ok r ∧
      (r.status ≠ .parkedOrForSale ↔
        (siteChoice answers).isStr "parked_or_for_sale".toList = false ∨
          Contacted U F settings x.ranked answers) := by
  obtain ⟨j, hj, hrep⟩ := judgmentOf_reports settings htyped haddr about pageTitle
  obtain ⟨t, ht⟩ := siteStatusText_of_wellTyped htyped
  rw [← hrep.site] at ht
  refine ⟨some j, _, hj, harvest_eq hx (some j) ht, ?_⟩
  rw [Ne, resultOf_status.1, Option.getD_some, knownBest_siteStatus, hrep.site, not_and_or,
    Bool.not_eq_true, Bool.not_eq_false,
    given_knownBest haddr fun h => (hrep.best.mp h).ranked_ne, hrep.best]

end Harvest

section Example

/-- Answers with a confident choice of no address, the given score of the first address
and the given verdict on the site, of low confidence. -/
def noneAnswers (noul : ℚ) (site : String) : Json :=
  object
    [("best_contact", object
        [("choice", textOf "none"), ("confidence", .float (.fin (9 / 10)))]),
      ("site_status", object
        [("choice", textOf site), ("confidence", .float (.fin (1 / 10)))]),
      ("belongs_0", object [("noul", .float (.fin noul))]),
      ("belongs_1", object [("noul", .float (.fin (1 / 10)))])]

theorem noneAnswers_wellTyped (noul : ℚ) (site : String) :
    WellTyped exampleFloats (noneAnswers noul site) where
  best := ⟨_, rfl, .inr ⟨⟨_, rfl, .inr ⟨_, rfl⟩⟩, ⟨_, rfl, .inr (.inl ⟨_, rfl⟩)⟩⟩⟩
  belongs := by
    intro i
    refine Json.member_of_forall (fun item hitem => ?_) (belongsKey i)
    simp only [map_cons, map_nil, mem_cons, not_mem_nil, or_false] at hitem
    rcases hitem with rfl | rfl | rfl | rfl
    · exact ⟨.null, by simp [object, Dict.get?], .inl rfl⟩
    · exact ⟨.null, by simp [object, Dict.get?], .inl rfl⟩
    · exact ⟨_, by simp [object, Dict.get?], .inr (.inl ⟨.fin noul, rfl⟩)⟩
    · exact ⟨_, by simp [object, Dict.get?], .inr (.inl ⟨.fin (1 / 10), rfl⟩)⟩
  site := by
    refine ⟨object [("choice", textOf site), ("confidence", .float (.fin (1 / 10)))],
      by simp [noneAnswers, object, Dict.get?], .inr ⟨?_, ?_⟩⟩
    · exact ⟨textOf site, by simp [object, Dict.get?], .inr ⟨_, rfl⟩⟩
    · exact ⟨.float (.fin (1 / 10)), by simp [object, Dict.get?], .inr (.inl ⟨_, rfl⟩)⟩

def exampleExtractors : Extractors where
  extractPage _ _ := .ok ([], [], [])
  extractPhones _ _ := .ok []
  extractSocials _ _ := .ok []
  pickContactFormUrl _ := .ok none
  pageTitle _ := .ok []
  mergePages _ := []
  rankCandidates _ _ _ := []

def exampleExtracted : Extracted where
  ranked := exampleRanked
  phones := []
  socials := []
  contactFormUrl := none

/-- A scratchpad after the judge was asked about its one page. -/
def exampleScratch : Scratch where
  finalDomain := some "acme.com".toList
  pages := [⟨"https://acme.com/".toList, 0, []⟩]
  extracted := some (1, exampleExtracted)

def harvestAnswers (answers : Json) : Except PyExn DomainResult := do
  let judgment ← judgmentOf .ascii exampleFloats exampleSettings (some answers) exampleRanked
    "acme.com".toList []
  harvest exampleExtractors "acme.com".toList exampleScratch judgment none

theorem exampleRanked_addressed : Addressed .ascii exampleRanked := by
  intro r hr
  simp only [exampleRanked, mem_cons, not_mem_nil, or_false] at hr
  rcases hr with rfl | rfl <;> decide

theorem noneAnswers_low {i : ℕ} {e : Str}
    (hi : (judgedEmails .ascii exampleRanked)[i]? = some e) :
    ¬ (answered exampleFloats (noneAnswers (2 / 10) "operating_business") i).ge
      (.fin exampleSettings.typesafeBelongsMin) = true := by
  have hlen : (judgedEmails .ascii exampleRanked).length = 2 := by decide +kernel
  have hlt := (List.getElem?_eq_some_iff.mp hi).1
  rw [hlen] at hlt
  rcases i with _ | _ | i
  · decide +kernel
  · decide +kernel
  · omega

/-- The judge says that no address is the business's and gives the first one a high
score: the result says that there is no contact and lists the address. -/
theorem no_contact_info_with_business_email :
    WellTyped exampleFloats (noneAnswers (9 / 10) "operating_business") ∧
      (harvestAnswers (noneAnswers (9 / 10) "operating_business")).toOption.map
          (fun r => (r.status, r.businessEmails)) =
        some (.noContactInfo, ["bob@acme.com".toList]) :=
  ⟨noneAnswers_wellTyped _ _, by decide +kernel⟩

/-- With a low score the status and the addresses agree. -/
theorem no_business_email_without_addresses :
    ∃ judgment r,
      judgmentOf .ascii exampleFloats exampleSettings
          (some (noneAnswers (2 / 10) "operating_business")) exampleRanked [] [] = .ok judgment ∧
      harvest exampleExtractors "acme.com".toList exampleScratch judgment none = .ok r ∧
      (Quiet r.status → r.businessEmails = []) := by
  obtain ⟨judgment, r, hjudgment, hr, hagree⟩ := @quiet_result_has_no_business_iff .ascii
    exampleFloats exampleSettings exampleExtractors "acme.com".toList exampleScratch exampleScratch
    exampleExtracted none (some (noneAnswers (2 / 10) "operating_business")) rfl
    exampleRanked_addressed (fun a ha => Option.some.inj ha ▸ noneAnswers_wellTyped _ _) [] []
  refine ⟨judgment, r, hjudgment, hr, hagree.mpr ?_⟩
  rintro ⟨a, ha, -, -, ⟨i, e, hi, hge⟩, -⟩
  obtain rfl := Option.some.inj ha
  exact noneAnswers_low hi hge

/-- A verdict that the site is parked, of confidence 0.1, decides the status. -/
theorem unsure_parked_verdict_decides :
    WellTyped exampleFloats (noneAnswers (2 / 10) "parked_or_for_sale") ∧
      (siteConfidence exampleFloats (noneAnswers (2 / 10) "parked_or_for_sale")).lt
          (.fin (8 / 10)) = true ∧
      (harvestAnswers (noneAnswers (2 / 10) "parked_or_for_sale")).toOption.map
          DomainResult.status = some .parkedOrForSale :=
  ⟨noneAnswers_wellTyped _ _, by decide +kernel, by decide +kernel⟩

/-- A verdict that the site is a business leaves the status to the addresses. -/
theorem business_verdict_does_not_park :
    ∃ judgment r,
      judgmentOf .ascii exampleFloats exampleSettings
          (some (noneAnswers (2 / 10) "operating_business")) exampleRanked [] [] = .ok judgment ∧
      harvest exampleExtractors "acme.com".toList exampleScratch judgment none = .ok r ∧
      r.status ≠ .parkedOrForSale := by
  obtain ⟨judgment, r, hjudgment, hr, hparks⟩ := @parked_verdict_decides_iff .ascii
    exampleFloats exampleSettings exampleExtractors "acme.com".toList exampleScratch exampleScratch
    exampleExtracted none _ rfl exampleRanked_addressed
    (noneAnswers_wellTyped (2 / 10) "operating_business") [] []
  exact ⟨judgment, r, hjudgment, hr, hparks.mpr (.inl (by decide +kernel))⟩

end Example

end Pipeline

end EmailExtractor
