import Mathlib.Data.Char
import Mathlib.Data.List.Lex
import Mathlib.Data.Prod.Lex
import EmailExtractor.Discovery.Canonical
import EmailExtractor.Library.Greedy

/-!
# What is selected

`select` keeps the best candidate under every canonical URL, orders what is left and takes
it greedily under two caps. So a candidate is selected if it is the one kept under its URL
and no cap is reached by better ones. As tier and depth are those of the canonical URL, only
the set of the candidates matters, and not the order in which they were found.
-/

namespace EmailExtractor

namespace Discovery

open Url List

variable {U : Unicode} {candidates done : List ScoredUrl} {c d : ScoredUrl}

/-! ## The order -/

def ScoredUrl.view (c : ScoredUrl) : Str × ℕ × Option Tier × ℕ :=
  (c.url, c.score, c.tier, c.depth)

def viewTier (v : Str × ℕ × Option Tier × ℕ) : Option Tier := v.2.2.1

def viewKey : Str × ℕ × Option Tier × ℕ → ℤ ×ₗ ℕ ×ₗ ℕ ×ₗ Str
  | (url, score, _, depth) => toLex (-(score : ℤ), toLex (depth, toLex (url.length, url)))

def sortKey (c : ScoredUrl) : ℤ ×ₗ ℕ ×ₗ ℕ ×ₗ Str := viewKey c.view

theorem sortKey_eq (c : ScoredUrl) :
    sortKey c = toLex (-(c.score : ℤ), toLex (c.depth, toLex (c.url.length, c.url))) := rfl

theorem selectLe_iff (a b : ScoredUrl) : selectLe a b = true ↔ sortKey a ≤ sortKey b := by
  simp only [sortKey_eq, Prod.Lex.toLex_le_toLex, Int.neg_lt_neg_iff, Int.neg_inj, Int.ofNat_lt,
    Int.ofNat_inj]
  unfold selectLe
  by_cases hscore : a.score = b.score
  · rw [if_neg (not_not.mpr hscore)]
    simp only [hscore, Nat.lt_irrefl, false_or, true_and]
    by_cases hdepth : a.depth = b.depth
    · rw [if_neg (not_not.mpr hdepth)]
      simp only [hdepth, Nat.lt_irrefl, false_or, true_and]
      by_cases hlength : a.url.length = b.url.length
      · rw [if_neg (not_not.mpr hlength)]
        simp [hlength]
      · rw [if_pos hlength]
        simp [hlength]
    · rw [if_pos hdepth]
      simp [hdepth]
  · rw [if_pos hscore]
    simp [hscore]

instance : IsTrans ScoredUrl fun a b => selectLe a b = true where
  trans a b c hab hbc := by
    rw [selectLe_iff] at hab hbc ⊢
    exact le_trans hab hbc

instance : Std.Total fun a b : ScoredUrl => selectLe a b = true where
  total a b := by
    rw [selectLe_iff, selectLe_iff]
    exact le_total _ _

theorem url_eq_of_selectLe {a b : ScoredUrl} (hab : selectLe a b = true)
    (hba : selectLe b a = true) : a.url = b.url := by
  rw [selectLe_iff] at hab hba
  exact congrArg (fun k : ℤ ×ₗ ℕ ×ₗ ℕ ×ₗ Str => (ofLex (ofLex (ofLex k).2).2).2)
    (le_antisymm hab hba)

/-! ## The best candidate under each URL -/

def keepBest (best : Dict Str ScoredUrl) (c : ScoredUrl) : Dict Str ScoredUrl :=
  match Dict.get? c.url best with
  | none => Dict.set c.url c best
  | some prev => if prev.score < c.score then Dict.set c.url c best else best

structure BestOf (done : List ScoredUrl) (best : Dict Str ScoredUrl) : Prop where
  nodup : (best.map Prod.fst).Nodup
  greatest : ∀ url c, Dict.get? url best = some c →
    c.url = url ∧ c ∈ done ∧ ∀ d ∈ done, d.url = url → d.score ≤ c.score
  present : ∀ d ∈ done, ∃ c, Dict.get? d.url best = some c

theorem BestOf.set {best : Dict Str ScoredUrl} (h : BestOf done best)
    (hc : ∀ d ∈ done, d.url = c.url → d.score ≤ c.score) :
    BestOf (done ++ [c]) (Dict.set c.url c best) where
  nodup := Dict.nodup_keys_set c.url c h.nodup
  greatest := by
    intro url b hb
    by_cases hurl : url = c.url
    · subst hurl
      rw [Dict.get?_set_self] at hb
      obtain rfl := Option.some.inj hb
      refine ⟨rfl, mem_append_right _ (mem_singleton_self _), fun d hd hdurl => ?_⟩
      rcases mem_append.mp hd with hd | hd
      · exact hc d hd hdurl
      · rw [mem_singleton.mp hd]
    · rw [Dict.get?_set_of_ne hurl] at hb
      obtain ⟨rfl, hmem, hmax⟩ := h.greatest url b hb
      refine ⟨rfl, mem_append_left _ hmem, fun d hd hdurl => ?_⟩
      rcases mem_append.mp hd with hd | hd
      · exact hmax d hd hdurl
      · rw [mem_singleton.mp hd] at hdurl
        exact absurd hdurl.symm hurl
  present := by
    intro d hd
    by_cases hurl : d.url = c.url
    · rw [hurl]
      exact ⟨c, Dict.get?_set_self ..⟩
    · rw [Dict.get?_set_of_ne hurl]
      rcases mem_append.mp hd with hd | hd
      · exact h.present d hd
      · rw [mem_singleton.mp hd] at hurl
        exact absurd rfl hurl

theorem keepBest_bestOf {best : Dict Str ScoredUrl} (h : BestOf done best) (c : ScoredUrl) :
    BestOf (done ++ [c]) (keepBest best c) := by
  unfold keepBest
  cases hget : Dict.get? c.url best with
  | none =>
    refine h.set fun d hd hurl => ?_
    obtain ⟨b, hb⟩ := h.present d hd
    rw [hurl, hget] at hb
    cases hb
  | some prev =>
    obtain ⟨hprevUrl, hprev, hmax⟩ := h.greatest c.url prev hget
    dsimp only
    split
    · rename_i hlt
      exact h.set fun d hd hurl => Nat.le_of_lt (Nat.lt_of_le_of_lt (hmax d hd hurl) hlt)
    · rename_i hle
      refine ⟨h.nodup, fun url b hb => ?_, fun d hd => ?_⟩
      · obtain ⟨rfl, hmem, hbmax⟩ := h.greatest url b hb
        refine ⟨rfl, mem_append_left _ hmem, fun d hd hdurl => ?_⟩
        rcases mem_append.mp hd with hd | hd
        · exact hbmax d hd hdurl
        · -- the candidate itself is no better than what is kept under its URL
          rw [mem_singleton.mp hd] at hdurl ⊢
          rw [← hdurl, hget] at hb
          rw [← Option.some.inj hb]
          exact Nat.le_of_not_lt hle
      · rcases mem_append.mp hd with hd | hd
        · exact h.present d hd
        · rw [mem_singleton.mp hd]
          exact ⟨prev, hget⟩

theorem bestOf_bestByUrl (candidates : List ScoredUrl) :
    BestOf candidates (bestByUrl candidates) := by
  have hfold : ∀ (cs done : List ScoredUrl) (best : Dict Str ScoredUrl), BestOf done best →
      BestOf (done ++ cs) (cs.foldl keepBest best) := by
    intro cs
    induction cs with
    | nil =>
      intro done best h
      rw [append_nil]
      exact h
    | cons c cs ih =>
      intro done best h
      have hrest := ih (done ++ [c]) (keepBest best c) (keepBest_bestOf h c)
      rwa [append_assoc] at hrest
  exact hfold candidates [] [] ⟨nodup_nil, by simp [Dict.get?], by simp⟩

def best (candidates : List ScoredUrl) : List ScoredUrl := (bestByUrl candidates).map Prod.snd

def IsBest (candidates : List ScoredUrl) (c : ScoredUrl) : Prop :=
  c ∈ candidates ∧ ∀ d ∈ candidates, d.url = c.url → d.score ≤ c.score

theorem isBest_of_mem_best (h : c ∈ best candidates) : IsBest candidates c := by
  have hbest := bestOf_bestByUrl candidates
  obtain ⟨⟨url, c⟩, hitem, rfl⟩ := mem_map.mp h
  obtain ⟨rfl, hmem, hmax⟩ := hbest.greatest url c (Dict.get?_of_mem hbest.nodup hitem)
  exact ⟨hmem, hmax⟩

theorem exists_mem_best (h : d ∈ candidates) : ∃ c ∈ best candidates, c.url = d.url := by
  have hbest := bestOf_bestByUrl candidates
  obtain ⟨c, hc⟩ := hbest.present d h
  exact ⟨c, mem_map.mpr ⟨_, Dict.mem_of_get? hc, rfl⟩, (hbest.greatest _ _ hc).1⟩

theorem nodup_url_best (candidates : List ScoredUrl) :
    ((best candidates).map ScoredUrl.url).Nodup := by
  have hbest := bestOf_bestByUrl candidates
  have hkeys : (best candidates).map ScoredUrl.url = (bestByUrl candidates).map Prod.fst := by
    rw [best, map_map]
    refine map_congr_left fun item hitem => ?_
    exact (hbest.greatest item.1 item.2 (Dict.get?_of_mem hbest.nodup hitem)).1
  rw [hkeys]
  exact hbest.nodup

/-! ## The pick -/

theorem pick_eq_greedy (limit cap : ℕ) (cs : List ScoredUrl) {chosen : List ScoredUrl}
    {perTier : Dict (Option Tier) ℕ}
    (h : ∀ t, Dict.getD perTier t 0 = chosen.countP fun c => c.tier = t) :
    pick limit cap chosen perTier cs = Greedy.pick ScoredUrl.tier limit cap chosen cs := by
  induction cs generalizing chosen perTier with
  | nil => rfl
  | cons c cs ih =>
    rw [pick, Greedy.pick, h c.tier]
    split
    · rfl
    · split
      · exact ih h
      · refine ih fun t => ?_
        rw [countP_append, countP_singleton]
        by_cases ht : c.tier = t
        · subst ht
          rw [if_pos (decide_eq_true rfl), Dict.getD, Dict.get?_set_self]
          rfl
        · rw [if_neg (by simpa using ht), Dict.getD, Dict.get?_set_of_ne (Ne.symm ht),
            Nat.add_zero]
          exact h t

theorem selectWith_eq (candidates : List ScoredUrl) (limit cap : ℕ) :
    selectWith candidates limit cap = Greedy.pick ScoredUrl.tier limit cap []
      ((best candidates).insertionSort fun a b => selectLe a b) :=
  pick_eq_greedy limit cap _ fun _ => rfl

theorem sublist_selectWith (candidates : List ScoredUrl) (limit cap : ℕ) :
    (selectWith candidates limit cap).Sublist
      ((best candidates).insertionSort fun a b => selectLe a b) := by
  obtain ⟨t, ht, hsub⟩ := Greedy.exists_sublist ScoredUrl.tier limit cap []
    ((best candidates).insertionSort fun a b => selectLe a b)
  rwa [selectWith_eq, ht]

theorem sortKey_lt_of_selectLe {a b : ScoredUrl} (hle : selectLe a b = true)
    (hurl : a.url ≠ b.url) : sortKey a < sortKey b := by
  refine lt_of_le_of_ne ((selectLe_iff a b).mp hle) fun heq => hurl ?_
  exact url_eq_of_selectLe hle ((selectLe_iff b a).mpr (le_of_eq heq.symm))

theorem sorted_best (candidates : List ScoredUrl) :
    ((best candidates).insertionSort fun a b => selectLe a b).Pairwise fun a b =>
      sortKey a < sortKey b := by
  have hperm := perm_insertionSort (fun a b => selectLe a b = true) (best candidates)
  have hsorted := pairwise_insertionSort (fun a b => selectLe a b = true) (best candidates)
  have hdistinct := pairwise_map.mp
    ((hperm.map ScoredUrl.url).nodup_iff.mpr (nodup_url_best candidates))
  exact (hsorted.and hdistinct).imp fun h => sortKey_lt_of_selectLe h.1 h.2

/-- The candidates that are kept and among the first `cap` of their tier. -/
def leading (candidates : List ScoredUrl) (cap : ℕ) : List ScoredUrl :=
  Greedy.leading sortKey ScoredUrl.tier cap (best candidates)

/-- There are `cap` better candidates of its tier, or `limit` better ones that are
among the first of theirs. -/
def Outbid (candidates : List ScoredUrl) (limit cap : ℕ) (c : ScoredUrl) : Prop :=
  cap ≤ (best candidates).countP (fun d => sortKey d < sortKey c ∧ d.tier = c.tier) ∨
    limit ≤ (leading candidates cap).countP fun d => sortKey d < sortKey c

instance (candidates : List ScoredUrl) (limit cap : ℕ) (c : ScoredUrl) :
    Decidable (Outbid candidates limit cap c) :=
  inferInstanceAs (Decidable (_ ∨ _))

theorem mem_selectWith_iff {limit cap : ℕ} :
    c ∈ selectWith candidates limit cap ↔
      c ∈ best candidates ∧ ¬ Outbid candidates limit cap c := by
  have hperm := perm_insertionSort (fun a b => selectLe a b = true) (best candidates)
  have hleading : (Greedy.leading sortKey ScoredUrl.tier cap
      ((best candidates).insertionSort fun a b => selectLe a b)).Perm (leading candidates cap) :=
    Greedy.leading_perm hperm
  rw [selectWith_eq, Greedy.mem_pick_iff (sorted_best candidates), hleading.mem_iff,
    hleading.countP_eq, Outbid, not_or, not_le, not_le, ← and_assoc]
  refine and_congr_left fun _ => ?_
  rw [leading, Greedy.leading, mem_filter, decide_eq_true_iff]

/-- What the selection is, in terms of the candidates alone. -/
structure Selected (candidates : List ScoredUrl) (limit cap : ℕ) (chosen : List ScoredUrl) :
    Prop where
  distinct : (chosen.map ScoredUrl.url).Nodup
  length : chosen.length ≤ limit
  perTier : ∀ tier, chosen.countP (fun c => c.tier = tier) ≤ cap
  sorted : chosen.Pairwise fun a b => sortKey a < sortKey b
  best : ∀ c ∈ chosen, IsBest candidates c
  maximal : ∀ d ∈ candidates, (∀ c ∈ chosen, c.url ≠ d.url) →
    limit ≤ chosen.countP (fun c => sortKey c < sortKey d) ∨
      cap ≤ chosen.countP fun c => sortKey c < sortKey d ∧ c.tier = d.tier

theorem isBest_perm {candidates' : List ScoredUrl} (hperm : candidates.Perm candidates') :
    IsBest candidates' c ↔ IsBest candidates c := by
  unfold IsBest
  simp only [hperm.mem_iff]

section Scored

variable (hU : U.LowersParts) (hF : U.FoldsCase) (hscored : ∀ c ∈ candidates, Scored U c)

include hU hF hscored

theorem tier_eq_of_url_eq (hc : c ∈ candidates) (hd : d ∈ candidates) (hurl : c.url = d.url) :
    c.tier = d.tier := by
  rw [(hscored c hc).tier_eq hU hF, (hscored d hd).tier_eq hU hF, hurl]

theorem selected_selectWith (limit cap : ℕ) :
    Selected candidates limit cap (selectWith candidates limit cap) := by
  have hsub := sublist_selectWith candidates limit cap
  have hperm := perm_insertionSort (fun a b => selectLe a b = true) (best candidates)
  have hsorted := pairwise_insertionSort (fun a b => selectLe a b = true) (best candidates)
  have hmem : ∀ c ∈ selectWith candidates limit cap, c ∈ best candidates :=
    fun c hc => hperm.mem_iff.mp (hsub.subset hc)
  have hdistinct : ((selectWith candidates limit cap).map ScoredUrl.url).Nodup :=
    (hsub.map ScoredUrl.url).nodup
      ((hperm.map ScoredUrl.url).nodup_iff.mpr (nodup_url_best candidates))
  refine ⟨hdistinct, ?_, ?_, ?_, ?_, ?_⟩
  · rw [selectWith_eq]
    exact Greedy.length_pick_le [] _ (Nat.zero_le _)
  · intro tier
    rw [selectWith_eq]
    exact Greedy.countP_pick_le [] _ (fun _ => Nat.zero_le _) tier
  · exact (sorted_best candidates).sublist hsub
  · exact fun c hc => isBest_of_mem_best (hmem c hc)
  · intro d hd hout
    obtain ⟨b, hb, hurl⟩ := exists_mem_best hd
    obtain ⟨hbmem, hbmax⟩ := isBest_of_mem_best hb
    have htier := tier_eq_of_url_eq hU hF hscored hbmem hd hurl
    have hbd : selectLe b d = true := by
      rw [selectLe_iff, sortKey_eq, sortKey_eq, hurl,
        (hscored b hbmem).depth_eq (hscored d hd) hurl, Prod.Lex.toLex_le_toLex]
      exact (lt_or_eq_of_le (Int.neg_le_neg (Int.ofNat_le.mpr (hbmax d hd hurl.symm)))).imp id
        fun heq => ⟨heq, le_refl _⟩
    have hbefore : ∀ c ∈ selectWith candidates limit cap, selectLe c b = true →
        sortKey c < sortKey d := by
      intro c hc hcb
      refine sortKey_lt_of_selectLe ?_ (hout c hc)
      exact IsTrans.trans (r := fun a b => selectLe a b = true) c b d hcb hbd
    have hbout : b ∉ selectWith candidates limit cap := fun hmem => hout b hmem hurl
    rw [selectWith_eq] at hbout hbefore ⊢
    rcases Greedy.full_of_notMem_pick (r := selectLe) hsorted (hperm.mem_iff.mpr hb) hbout
      with hfull | hfull
    · left
      refine Nat.le_trans hfull (countP_mono_left fun c hc hcb => ?_)
      exact decide_eq_true (hbefore c hc hcb)
    · right
      refine Nat.le_trans hfull (countP_mono_left fun c hc hcb => ?_)
      obtain ⟨hcb, hct⟩ := Bool.and_eq_true_iff.mp hcb
      exact decide_eq_true ⟨hbefore c hc hcb, (of_decide_eq_true hct).trans htier⟩

/-! ## Order independence -/

theorem view_eq_of_isBest (hc : IsBest candidates c) (hd : IsBest candidates d)
    (hurl : c.url = d.url) : c.view = d.view := by
  have hscore : c.score = d.score := Nat.le_antisymm (hd.2 c hc.1 hurl) (hc.2 d hd.1 hurl.symm)
  have htier := tier_eq_of_url_eq hU hF hscored hc.1 hd.1 hurl
  have hdepth := (hscored c hc.1).depth_eq (hscored d hd.1) hurl
  rw [ScoredUrl.view, ScoredUrl.view, hurl, hscore, htier, hdepth]

theorem mem_view_best {v : Str × ℕ × Option Tier × ℕ} :
    v ∈ (best candidates).map ScoredUrl.view ↔ ∃ c, IsBest candidates c ∧ c.view = v := by
  constructor
  · intro hv
    obtain ⟨c, hc, rfl⟩ := mem_map.mp hv
    exact ⟨c, isBest_of_mem_best hc, rfl⟩
  · rintro ⟨c, hc, rfl⟩
    obtain ⟨b, hb, hurl⟩ := exists_mem_best hc.1
    rw [← view_eq_of_isBest hU hF hscored (isBest_of_mem_best hb) hc hurl]
    exact mem_map_of_mem hb

theorem view_sorted_eq {candidates' : List ScoredUrl} (hperm : candidates.Perm candidates') :
    ((best candidates').insertionSort fun a b => selectLe a b).map ScoredUrl.view =
      ((best candidates).insertionSort fun a b => selectLe a b).map ScoredUrl.view := by
  have hscored' : ∀ c ∈ candidates', Scored U c := fun c hc => hscored c (hperm.mem_iff.mpr hc)
  have hsort := fun cs : List ScoredUrl =>
    perm_insertionSort (fun a b => selectLe a b = true) cs
  have hviews : ∀ cs : List ScoredUrl,
      (((best cs).insertionSort fun a b => selectLe a b).map ScoredUrl.view).Pairwise
        fun v w => viewKey v ≤ viewKey w := by
    intro cs
    have hsorted := pairwise_insertionSort (fun a b => selectLe a b = true) (best cs)
    exact pairwise_map.mpr (hsorted.imp fun h => (selectLe_iff _ _).mp h)
  have hnodup : ∀ cs : List ScoredUrl, ((best cs).map ScoredUrl.view).Nodup := by
    intro cs
    refine List.Nodup.of_map Prod.fst ?_
    rw [map_map]
    exact nodup_url_best cs
  have hbest : ((best candidates').map ScoredUrl.view).Perm
      ((best candidates).map ScoredUrl.view) := by
    refine (perm_ext_iff_of_nodup (hnodup _) (hnodup _)).mpr fun v => ?_
    rw [mem_view_best hU hF hscored', mem_view_best hU hF hscored]
    exact exists_congr fun c => and_congr_left fun _ => isBest_perm hperm
  -- the order of two pages is the order of what is read of them
  refine List.Perm.eq_of_pairwise ?_ (hviews candidates') (hviews candidates) ?_
  · intro v w hv hw hvw hwv
    obtain ⟨c, hc, rfl⟩ := mem_map.mp hv
    obtain ⟨d, hd, rfl⟩ := mem_map.mp hw
    have hc := isBest_of_mem_best ((hsort _).mem_iff.mp hc)
    have hd := isBest_of_mem_best ((hsort _).mem_iff.mp hd)
    refine view_eq_of_isBest hU hF hscored ((isBest_perm hperm).mp hc) hd ?_
    exact url_eq_of_selectLe ((selectLe_iff c d).mpr hvw) ((selectLe_iff d c).mpr hwv)
  · exact (((hsort _).map _).trans hbest).trans ((hsort _).map _).symm

/-- The selection does not depend on the order in which the candidates were found: it is
greedy over the best candidate under each canonical URL. -/
theorem selection_order_independent {candidates' : List ScoredUrl}
    (hperm : candidates.Perm candidates') (limit cap : ℕ) :
    (selectWith candidates' limit cap).map ScoredUrl.view =
        (selectWith candidates limit cap).map ScoredUrl.view ∧
      Selected candidates limit cap (selectWith candidates limit cap) := by
  refine ⟨?_, selected_selectWith hU hF hscored limit cap⟩
  have hcls : ∀ c : ScoredUrl, viewTier c.view = c.tier := fun _ => rfl
  rw [selectWith_eq, selectWith_eq, Greedy.pick_map ScoredUrl.view hcls,
    Greedy.pick_map ScoredUrl.view hcls, view_sorted_eq hU hF hscored hperm]

end Scored

/-! ## One page found twice -/

def contactPage (score : ℕ) (anchor published : String) : ScoredUrl :=
  ⟨"https://acme.com/contact".toList, score, some .contact, 1, anchor.toList, published.toList⟩

theorem contact_found_twice_either_order :
    let plain := contactPage 100 "" "https://acme.com/contact"
    let named := contactPage 110 "Contact us" "http://www.acme.com/Contact/index.html"
    (∀ c ∈ [plain, named], Scored Unicode.dotted c) ∧ [plain, named].Perm [named, plain] ∧
      ((selectWith [named, plain] 4 2).map ScoredUrl.view =
          (selectWith [plain, named] 4 2).map ScoredUrl.view ∧
        Selected [plain, named] 4 2 (selectWith [plain, named] 4 2)) := by
  have hplain : Scored Unicode.dotted (contactPage 100 "" "https://acme.com/contact") :=
    ⟨"https://acme.com/contact".toList, [], by decide +kernel⟩
  have hnamed : Scored Unicode.dotted
      (contactPage 110 "Contact us" "http://www.acme.com/Contact/index.html") :=
    ⟨"http://www.acme.com/Contact/index.html#form".toList, "Contact us".toList,
      by decide +kernel⟩
  have hscored : ∀ c ∈ [contactPage 100 "" "https://acme.com/contact",
      contactPage 110 "Contact us" "http://www.acme.com/Contact/index.html"],
      Scored Unicode.dotted c := by
    intro c hc
    rcases mem_cons.mp hc with rfl | hc
    · exact hplain
    · rw [mem_singleton.mp hc]
      exact hnamed
  exact ⟨hscored, List.Perm.swap .., selection_order_independent Unicode.lowersParts_dotted
    Unicode.foldsCase_dotted hscored (List.Perm.swap ..) 4 2⟩

end Discovery

end EmailExtractor
