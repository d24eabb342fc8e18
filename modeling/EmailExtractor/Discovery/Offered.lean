import EmailExtractor.Discovery.Robust
import EmailExtractor.Discovery.Selection

/-!
# What discovery chooses from

Discovery takes candidates from three sources: the links of the homepage, the pages of the
sitemaps unless the links settle the selection, and the fixed paths if too few pages with a
tier have been found. What it selects are the candidates that no better ones outbid.
-/

namespace EmailExtractor

namespace Discovery

open Url Normalize List

variable {W : Web} {c : ScoredUrl}

/-! ## Scores and tiers -/

theorem tierFor_cases (U : Unicode) (path : Str) :
    tierFor U path = (none, 0) ∨
      (tierFor U path).1.isSome = true ∧ anchorBonus < (tierFor U path).2 := by
  have htiers : ∀ t ∈ tiers, anchorBonus < t.2.1 := by decide
  unfold tierFor
  dsimp only
  split
  · rename_i hfind
    exact .inr ⟨rfl, htiers _ (mem_of_find?_eq_some hfind)⟩
  · exact .inl rfl

theorem Scored.tiered_iff {U : Unicode} (h : Scored U c) :
    c.tier.isSome = true ↔ anchorBonus < c.score := by
  obtain ⟨url, anchor, h⟩ := h
  obtain ⟨parts, _, -, -, -, -, htier, hscore, -⟩ := scoreUrl_cases h
  rcases tierFor_cases U (rawPath parts) with hnone | ⟨hsome, hbase⟩
  · rw [htier, hscore, hnone]
    simp only [Option.isSome_none, Bool.false_eq_true, false_iff]
    split <;> decide
  · rw [htier, hscore, hsome]
    simp only [true_iff]
    exact Nat.lt_of_lt_of_le hbase (Nat.le_add_right ..)

theorem score_le_of_selectLe {a b : ScoredUrl} (h : selectLe a b = true) : b.score ≤ a.score := by
  unfold selectLe at h
  split at h
  · exact Nat.le_of_lt (of_decide_eq_true h)
  · rename_i heq
    exact Nat.le_of_eq (not_not.mp heq).symm

theorem exists_of_mem_scoreAll {us : List (Str × Str)} {scored : List ScoredUrl}
    (h : scoreAll W us = .ok scored) (hc : c ∈ scored) :
    ∃ u ∈ us, scoreUrl W.unicode u.1 u.2 = .ok (some c) := by
  induction us generalizing scored with
  | nil =>
    cases h
    cases hc
  | cons u us ih =>
    rw [scoreAll, Except.bind_eq_ok] at h
    obtain ⟨first, hfirst, h⟩ := h
    obtain ⟨rest, hrest, h⟩ := Except.bind_eq_ok.mp h
    cases h
    rcases mem_append.mp hc with hc | hc
    · rw [Option.mem_toList] at hc
      exact ⟨u, mem_cons_self .., by rw [hfirst, Option.mem_def.mp hc]⟩
    · obtain ⟨v, hv, hscore⟩ := ih hrest hc
      exact ⟨v, mem_cons_of_mem _ hv, hscore⟩

theorem exists_of_mem_scoreFallbacks {final : SplitResult} {paths : List Str}
    {scored : List ScoredUrl} (h : scoreFallbacks W final paths = .ok scored) (hc : c ∈ scored) :
    ∃ path ∈ paths, ∃ u, fallbackUrl W final path = .ok u ∧
      scoreUrl W.unicode u [] = .ok (some c) := by
  induction paths generalizing scored with
  | nil =>
    cases h
    cases hc
  | cons path paths ih =>
    rw [scoreFallbacks, Except.bind_eq_ok] at h
    obtain ⟨u, hu, h⟩ := h
    obtain ⟨first, hfirst, h⟩ := Except.bind_eq_ok.mp h
    obtain ⟨rest, hrest, h⟩ := Except.bind_eq_ok.mp h
    cases h
    rcases mem_append.mp hc with hc | hc
    · rw [Option.mem_toList] at hc
      exact ⟨path, mem_cons_self .., u, hu, by rw [hfirst, Option.mem_def.mp hc]⟩
    · obtain ⟨p, hp, hscore⟩ := ih hrest hc
      exact ⟨p, mem_cons_of_mem _ hp, hscore⟩

/-! ## When the fixed paths are tried -/

/-- At most one page is asked for, or at most one of those found has a tier. -/
def Few (candidates : List ScoredUrl) (limit : ℕ) : Prop :=
  limit < minScoredBeforeFallback ∨
    (best candidates).countP (fun c => c.tier.isSome) < minScoredBeforeFallback

instance (candidates : List ScoredUrl) (limit : ℕ) : Decidable (Few candidates limit) :=
  inferInstanceAs (Decidable (_ ∨ _))

/-- The caps leave out no page with a tier as long as fewer than two are taken, as the pages
with a tier come first. -/
theorem short_iff {U : Unicode} {candidates : List ScoredUrl} {limit : ℕ}
    (hscored : ∀ c ∈ candidates, Scored U c) :
    short candidates limit = true ↔ Few candidates limit := by
  have hsub := sublist_selectWith candidates limit perTierCap
  have hperm := perm_insertionSort (fun a b => selectLe a b = true) (best candidates)
  have hsorted := pairwise_insertionSort (fun a b => selectLe a b = true) (best candidates)
  have hshort : short candidates limit = true ↔
      (selectWith candidates limit perTierCap).countP (fun c => c.tier.isSome) < 2 := by
    rw [short, decide_eq_true_iff, countP_eq_length_filter]
    rfl
  rw [hshort]
  constructor
  · intro hfew
    by_contra hmany
    obtain ⟨hlimit, hcount⟩ := not_or.mp hmany
    -- a page with a tier is taken, or two with a tier are taken before it
    have htaken : ∀ c ∈ best candidates, c.tier.isSome = true →
        c ∈ selectWith candidates limit perTierCap := by
      intro c hc htier
      by_contra hout
      have hbetter : ∀ d ∈ selectWith candidates limit perTierCap, selectLe d c = true →
          d.tier.isSome = true := by
        intro d hd hle
        have hd := (isBest_of_mem_best (hperm.mem_iff.mp (hsub.subset hd))).1
        have hcand := (isBest_of_mem_best hc).1
        rw [(hscored d hd).tiered_iff]
        rw [(hscored c hcand).tiered_iff] at htier
        exact Nat.lt_of_lt_of_le htier (score_le_of_selectLe hle)
      rw [selectWith_eq] at hout hbetter hfew
      rcases Greedy.full_of_notMem_pick (r := selectLe) hsorted (hperm.mem_iff.mpr hc) hout
        with hfull | hfull
      · have hle := Nat.le_trans hfull (countP_mono_left hbetter)
        exact hlimit (Nat.lt_of_le_of_lt hle hfew)
      · refine absurd (Nat.le_trans hfull (countP_mono_left fun d hd hboth => ?_))
          (Nat.not_le.mpr hfew)
        exact hbetter d hd (Bool.and_eq_true_iff.mp hboth).1
    have hnodup : (best candidates).Nodup := .of_map _ (nodup_url_best candidates)
    have hsubset : ((best candidates).filter fun c => c.tier.isSome) ⊆
        (selectWith candidates limit perTierCap).filter fun c => c.tier.isSome := by
      intro c hc
      obtain ⟨hc, htier⟩ := mem_filter.mp hc
      exact mem_filter.mpr ⟨htaken c hc htier, htier⟩
    have hle := (subperm_of_subset (hnodup.filter _) hsubset).length_le
    rw [← countP_eq_length_filter, ← countP_eq_length_filter] at hle
    exact hcount (Nat.lt_of_le_of_lt hle hfew)
  · rintro (hlimit | hcount)
    · refine Nat.lt_of_le_of_lt countP_le_length (Nat.lt_of_le_of_lt ?_ hlimit)
      rw [selectWith_eq]
      exact Greedy.length_pick_le [] _ (Nat.zero_le _)
    · refine Nat.lt_of_le_of_lt hsub.countP_le ?_
      rwa [hperm.countP_eq]

/-! ## The candidates of a site -/

namespace Site

variable (W) (S : Site) (final : SplitResult)

def fixedCandidates : List ScoredUrl :=
  (scoreFallbacks W final fixedFallbackPaths).toOption.getD []

def offered : List ScoredUrl :=
  if settled (S.candidates W) then S.candidates W
  else if Few (S.found W (ownDomain W final)) S.limit then
    S.found W (ownDomain W final) ++ fixedCandidates W final
  else S.found W (ownDomain W final)

/-- The candidate is kept under its URL, and no better ones outbid it. -/
def Stands (c : ScoredUrl) : Prop :=
  c ∈ best (S.offered W final) ∧ ¬ Outbid (S.offered W final) S.limit perTierCap c

/-- A link of the homepage with its text or, if the links do not settle the selection, a page
of the sitemaps. -/
def Finds (u anchor : Str) : Prop :=
  (u, anchor) ∈ S.links W ∨
    settled (S.candidates W) = false ∧ u ∈ S.pages W (ownDomain W final) ∧ anchor = []

def FoundAt (u : Str) (c : ScoredUrl) : Prop :=
  ∃ anchor, S.Finds W final u anchor ∧ scoreUrl W.unicode u anchor = .ok (some c)

def FixedAt (path u : Str) (c : ScoredUrl) : Prop :=
  path ∈ fixedFallbackPaths ∧ fallbackUrl W final path = .ok u ∧
    scoreUrl W.unicode u [] = .ok (some c)

variable {W S final} {chosen : List ScoredUrl} {diag : Diag}

theorem foundAt_of_mem_candidates (h : c ∈ S.candidates W) : ∃ u, S.FoundAt W final u c := by
  unfold candidates at h
  cases hscored : scoreAll W (S.links W) with
  | error e =>
    rw [hscored] at h
    cases h
  | ok scored =>
    rw [hscored] at h
    obtain ⟨l, hl, hscore⟩ := exists_of_mem_scoreAll hscored h
    exact ⟨l.1, l.2, .inl hl, hscore⟩

theorem foundAt_of_mem_found (hopen : settled (S.candidates W) = false)
    (h : c ∈ S.found W (ownDomain W final)) : ∃ u, S.FoundAt W final u c := by
  rcases mem_append.mp h with h | h
  · exact foundAt_of_mem_candidates h
  · cases hscored : scoreAll W ((S.pages W (ownDomain W final)).map (·, [])) with
    | error e =>
      rw [hscored] at h
      cases h
    | ok scored =>
      rw [hscored] at h
      obtain ⟨l, hl, hscore⟩ := exists_of_mem_scoreAll hscored h
      obtain ⟨u, hu, rfl⟩ := mem_map.mp hl
      exact ⟨u, [], .inr ⟨hopen, hu, rfl⟩, hscore⟩

theorem offered_cases (h : c ∈ S.offered W final) :
    (∃ u, S.FoundAt W final u c) ∨ ∃ path u, FixedAt W final path u c := by
  unfold offered at h
  split at h
  · exact .inl (foundAt_of_mem_candidates h)
  · rename_i hopen
    have hopen := Bool.not_eq_true _ ▸ hopen
    split at h
    · rcases mem_append.mp h with h | h
      · exact .inl (foundAt_of_mem_found hopen h)
      · unfold fixedCandidates at h
        cases hscored : scoreFallbacks W final fixedFallbackPaths with
        | error e =>
          rw [hscored] at h
          cases h
        | ok scored =>
          rw [hscored] at h
          obtain ⟨path, hpath, u, hu, hscore⟩ := exists_of_mem_scoreFallbacks hscored h
          exact .inr ⟨path, u, hpath, hu, hscore⟩
    · exact .inl (foundAt_of_mem_found hopen h)

theorem Stands.cases (h : S.Stands W final c) :
    (∃ u, S.FoundAt W final u c) ∨ ∃ path u, FixedAt W final path u c :=
  offered_cases (isBest_of_mem_best h.1).1

theorem chosen_eq (hfinal : urlsplit W.unicode S.finalUrl = .ok final)
    (h : S.discover W = .ok (chosen, diag)) : chosen = select (S.offered W final) S.limit := by
  rw [discover_eq hfinal, Except.bind_eq_ok] at h
  obtain ⟨links, hlinks, h⟩ := h
  obtain ⟨candidates, hcandidates, h⟩ := Except.bind_eq_ok.mp h
  obtain rfl : S.links W = links := toOption_getD_of_eq hlinks
  obtain rfl : S.candidates W = candidates := toOption_getD_of_eq hcandidates
  unfold offered
  split at h
  · rename_i hsettled
    cases h
    rw [if_pos hsettled]
  · rename_i hopen
    obtain ⟨pages, hpages, h⟩ := Except.bind_eq_ok.mp h
    obtain rfl : S.pages W (ownDomain W final) = pages := toOption_getD_of_eq hpages
    rw [chooseFrom, Except.bind_eq_ok] at h
    obtain ⟨scored, hscored, h⟩ := h
    have hfound : S.found W (ownDomain W final) = S.candidates W ++ scored :=
      congrArg (S.candidates W ++ ·) (toOption_getD_of_eq hscored)
    have hall : ∀ c ∈ S.found W (ownDomain W final), Scored W.unicode c := by
      intro c hc
      obtain ⟨u, anchor, -, hscore⟩ := foundAt_of_mem_found (by simpa using hopen) hc
      exact ⟨u, anchor, hscore⟩
    have hshort := @short_iff _ _ S.limit hall
    rw [short, decide_eq_true_iff] at hshort
    rw [if_neg hopen]
    dsimp only at h
    rw [← hfound] at h
    split at h
    · rename_i hfew
      obtain ⟨fixed, hfixed, h⟩ := Except.bind_eq_ok.mp h
      cases h
      rw [if_pos (hshort.mp hfew), fixedCandidates, toOption_getD_of_eq hfixed]
    · rename_i hmany
      cases h
      rw [if_neg (hshort.not.mp hmany)]

theorem mem_chosen_iff (hfinal : urlsplit W.unicode S.finalUrl = .ok final)
    (h : S.discover W = .ok (chosen, diag)) : c ∈ chosen ↔ S.Stands W final c := by
  rw [chosen_eq hfinal h]
  exact mem_selectWith_iff

end Site

end Discovery

end EmailExtractor
