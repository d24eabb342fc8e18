import EmailExtractor.Library.Distinct
import EmailExtractor.Pipeline.Emails

/-!
# What merging the pages keeps

The loop of `merge_pages` collects the candidates under their addresses, so what it returns
for an address depends on the occurrences of that address only, in the order of the pages:
the best of their methods, all of their URLs, the first context there is. Merging groups of
pages first and then the results gives the same methods and URLs.
-/

namespace EmailExtractor

namespace Pipeline

open List

variable {perPage : List (List EmailCandidate)} {occ : List EmailCandidate}
  {m m' c : EmailCandidate} {e : Str}

def occurrences (e : Str) (perPage : List (List EmailCandidate)) : List EmailCandidate :=
  perPage.flatten.filter fun c => decide (c.email = e)

theorem occurrences_append (e : Str) (first second : List (List EmailCandidate)) :
    occurrences e (first ++ second) = occurrences e first ++ occurrences e second := by
  simp [occurrences]

theorem occurrences_ne_nil :
    occurrences e perPage ≠ [] ↔ ∃ page ∈ perPage, ∃ c ∈ page, c.email = e := by
  simp [occurrences]

/-! ## One address -/

theorem ExtractionMethod.precedence_injective :
    Function.Injective ExtractionMethod.precedence := by
  intro a b h
  cases a <;> cases b <;> first | rfl | cases h

structure Summarises (occ : List EmailCandidate) (m : EmailCandidate) : Prop where
  method_mem : m.method ∈ occ.map EmailCandidate.method
  method_le : ∀ c ∈ occ, m.method.precedence ≤ c.method.precedence
  sources : m.sourceUrls = (occ.flatMap EmailCandidate.sourceUrls).eraseDups
  context : m.context = ((occ.map EmailCandidate.context).find? (· ≠ [])).getD []

theorem Summarises.first (hurls : c.sourceUrls.Nodup) (order : ℤ) :
    Summarises [c] { c with order := order } where
  method_mem := mem_singleton_self _
  method_le := by
    intro d hd
    rw [mem_singleton.mp hd]
  sources := by
    rw [flatMap_singleton, Distinct.eraseDups_of_nodup hurls]
  context := by
    by_cases hcontext : c.context = []
    · simp [hcontext]
    · simp [hcontext]

theorem Summarises.merge (h : Summarises occ m) (c : EmailCandidate) :
    Summarises (occ ++ [c]) (mergeCandidate m c) where
  method_mem := by
    rw [map_append]
    unfold mergeCandidate
    dsimp only
    split
    · exact mem_append_right _ (mem_singleton_self _)
    · exact mem_append_left _ h.method_mem
  method_le := by
    have hle : (mergeCandidate m c).method.precedence ≤ m.method.precedence ∧
        (mergeCandidate m c).method.precedence ≤ c.method.precedence := by
      unfold mergeCandidate
      dsimp only
      split <;> omega
    intro d hd
    rcases mem_append.mp hd with hd | hd
    · exact hle.1.trans (h.method_le d hd)
    · rw [mem_singleton.mp hd]
      exact hle.2
  sources := by
    rw [flatMap_append, flatMap_singleton, ← Distinct.foldl_appendNew_eraseDups,
      ← h.sources]
    rfl
  context := by
    have hcontext := h.context
    rw [map_append, List.find?_append]
    unfold mergeCandidate
    dsimp only
    cases hfind : (occ.map EmailCandidate.context).find? (· ≠ []) with
    | none =>
      rw [hfind] at hcontext
      by_cases hc : c.context = []
      · simp [hcontext, hc]
      · simp [hcontext, hc]
    | some context =>
      rw [hfind] at hcontext
      have hne : context ≠ [] := by simpa using List.find?_some hfind
      simp [hcontext, hne]

theorem Summarises.unique (h : Summarises occ m) (h' : Summarises occ m') :
    m'.method = m.method ∧ m'.sourceUrls = m.sourceUrls := by
  refine ⟨ExtractionMethod.precedence_injective (le_antisymm ?_ ?_), ?_⟩
  · obtain ⟨c, hc, hmethod⟩ := mem_map.mp h.method_mem
    rw [← hmethod]
    exact h'.method_le c hc
  · obtain ⟨c, hc, hmethod⟩ := mem_map.mp h'.method_mem
    rw [← hmethod]
    exact h.method_le c hc
  · rw [h.sources, h'.sources]

/-! ## The loop -/

def indexed (perPage : List (List EmailCandidate)) : List (ℕ × EmailCandidate) :=
  perPage.zipIdx.flatMap fun page => page.1.map fun c => (page.2, c)

def firstSeen (p : ℕ × EmailCandidate) : EmailCandidate :=
  { p.2 with order := p.1 * 10000 + p.2.order }

def mergedByEmail (perPage : List (List EmailCandidate)) : Dict Str EmailCandidate :=
  Dict.collect (fun p => p.2.email) firstSeen (fun old p => mergeCandidate old p.2)
    (indexed perPage)

theorem mergeInto_eq (pageIndex : ℕ) (merged : Dict Str EmailCandidate) (c : EmailCandidate) :
    mergeInto pageIndex merged c = Dict.collectStep (fun p => p.2.email) firstSeen
      (fun old p => mergeCandidate old p.2) merged (pageIndex, c) := by
  unfold mergeInto Dict.collectStep
  dsimp only
  cases Dict.get? c.email merged with
  | none => rfl
  | some old => rfl

theorem mergePages_eq (perPage : List (List EmailCandidate)) :
    mergePages perPage =
      ((mergedByEmail perPage).map Prod.snd).mergeSort fun a b => a.order ≤ b.order := by
  unfold mergePages mergedByEmail Dict.collect indexed
  rw [foldl_flatMap]
  simp only [foldl_map, ← mergeInto_eq]

theorem indexed_occurrences (e : Str) (perPage : List (List EmailCandidate)) :
    ((indexed perPage).filter fun p => decide (p.2.email = e)).map Prod.snd =
      occurrences e perPage := by
  have hflatten : (indexed perPage).map Prod.snd = perPage.flatten := by
    rw [indexed, map_flatMap]
    simp only [map_map, Function.comp_def, map_id']
    rw [flatMap_def, zipIdx_map_fst]
  rw [occurrences, ← hflatten, filter_map]
  rfl

theorem collected_summarises {ps : List (ℕ × EmailCandidate)}
    (hurls : ∀ p ∈ ps, p.2.sourceUrls.Nodup)
    (h : Dict.collected firstSeen (fun old p => mergeCandidate old p.2) ps = some m) :
    Summarises (ps.map Prod.snd) m := by
  induction ps using List.reverseRecOn generalizing m with
  | nil => cases h
  | append_singleton ps p ih =>
    rw [Dict.collected_append_singleton] at h
    obtain rfl := Option.some.inj h
    rw [map_append]
    cases hps : Dict.collected firstSeen (fun old p => mergeCandidate old p.2) ps with
    | none =>
      have hnil : ps = [] := by
        cases ps with
        | nil => rfl
        | cons q qs => cases hps
      subst hnil
      exact .first (hurls p (by simp)) _
    | some old =>
      have hold := ih (fun q hq => hurls q (mem_append_left _ hq)) hps
      exact hold.merge p.2

theorem email_collected {p : ℕ × EmailCandidate} {ps : List (ℕ × EmailCandidate)}
    (h : Dict.collected firstSeen (fun old p => mergeCandidate old p.2) (p :: ps) = some m) :
    m.email = p.2.email := by
  rw [← Option.some.inj h]
  exact List.foldlRecOn (motive := fun old : EmailCandidate => old.email = p.2.email) ps _ rfl
    fun _ hold _ _ => hold

def mergedFor (e : Str) (perPage : List (List EmailCandidate)) : Option EmailCandidate :=
  Dict.get? e (mergedByEmail perPage)

def UrlsOnce (perPage : List (List EmailCandidate)) : Prop :=
  ∀ page ∈ perPage, ∀ c ∈ page, c.sourceUrls.Nodup

theorem mergedFor_eq (e : Str) (perPage : List (List EmailCandidate)) :
    mergedFor e perPage = Dict.collected firstSeen (fun old p => mergeCandidate old p.2)
      ((indexed perPage).filter fun p => decide (p.2.email = e)) :=
  Dict.get?_collect ..

theorem mergedFor_eq_none : mergedFor e perPage = none ↔ occurrences e perPage = [] := by
  rw [mergedFor_eq, ← indexed_occurrences, map_eq_nil_iff]
  cases (indexed perPage).filter fun p => decide (p.2.email = e) with
  | nil | cons p ps => simp [Dict.collected]

theorem email_of_mergedFor (h : mergedFor e perPage = some m) : m.email = e := by
  rw [mergedFor_eq] at h
  cases hps : (indexed perPage).filter fun p => decide (p.2.email = e) with
  | nil =>
    rw [hps] at h
    cases h
  | cons p ps =>
    have hp : p ∈ (indexed perPage).filter fun p => decide (p.2.email = e) := by
      rw [hps]
      exact mem_cons_self
    rw [hps] at h
    rw [email_collected h]
    exact of_decide_eq_true (mem_filter.mp hp).2

theorem summarises_of_mergedFor (hurls : UrlsOnce perPage) (h : mergedFor e perPage = some m) :
    Summarises (occurrences e perPage) m := by
  rw [mergedFor_eq] at h
  rw [← indexed_occurrences]
  refine collected_summarises (fun p hp => ?_) h
  have hmem := mem_map_of_mem (f := Prod.snd) hp
  rw [indexed_occurrences, occurrences, mem_filter, mem_flatten] at hmem
  obtain ⟨⟨page, hpage, hc⟩, -⟩ := hmem
  exact hurls page hpage p.2 hc

/-! ## What is returned -/

theorem map_email_mergedByEmail (perPage : List (List EmailCandidate)) :
    (mergedByEmail perPage).map (fun item => item.2.email) =
      (mergedByEmail perPage).map Prod.fst := by
  refine map_congr_left fun item hitem => ?_
  exact email_of_mergedFor (Dict.get?_of_mem (Dict.nodup_keys_collect ..) hitem)

theorem mergePages_perm (perPage : List (List EmailCandidate)) :
    (mergePages perPage).Perm ((mergedByEmail perPage).map Prod.snd) := by
  rw [mergePages_eq]
  exact mergeSort_perm _ _

theorem nodup_email_mergePages (perPage : List (List EmailCandidate)) :
    ((mergePages perPage).map EmailCandidate.email).Nodup := by
  rw [((mergePages_perm perPage).map EmailCandidate.email).nodup_iff, map_map]
  exact (map_email_mergedByEmail perPage).symm ▸ Dict.nodup_keys_collect ..

theorem mem_mergePages : m ∈ mergePages perPage ↔ mergedFor m.email perPage = some m := by
  rw [(mergePages_perm perPage).mem_iff, mem_map]
  constructor
  · rintro ⟨⟨e, m⟩, hitem, rfl⟩
    have hget := Dict.get?_of_mem (Dict.nodup_keys_collect ..) hitem
    rwa [← email_of_mergedFor hget] at hget
  · exact fun h => ⟨(m.email, m), Dict.mem_of_get? h, rfl⟩

theorem occurrences_mergePages (e : Str) (perPage : List (List EmailCandidate)) :
    occurrences e [mergePages perPage] = (mergedFor e perPage).toList := by
  have hfilter : occurrences e [mergePages perPage] =
      (mergePages perPage).filter fun c => decide (c.email = e) := by
    simp [occurrences]
  rw [hfilter]
  cases hmerged : mergedFor e perPage with
  | none =>
    refine filter_eq_nil_iff.mpr fun c hc hemail => ?_
    rw [← of_decide_eq_true hemail, mem_mergePages.mp hc] at hmerged
    cases hmerged
  | some m =>
    have hemail := email_of_mergedFor hmerged
    have hm : m ∈ mergePages perPage := mem_mergePages.mpr (hemail ▸ hmerged)
    have hnodup := (List.Nodup.of_map _ (nodup_email_mergePages perPage)).filter
      fun c => decide (c.email = e)
    refine perm_singleton.mp ((perm_ext_iff_of_nodup hnodup
      (nodup_singleton m)).mpr fun c => ?_)
    rw [mem_filter, mem_singleton, decide_eq_true_eq]
    constructor
    · rintro ⟨hc, rfl⟩
      exact Option.some.inj ((mem_mergePages.mp hc).symm.trans hmerged)
    · rintro rfl
      exact ⟨hm, hemail⟩

/-! ## Groups of pages -/

theorem find?_contexts {groups : List (EmailCandidate × List EmailCandidate)}
    (h : ∀ g ∈ groups, Summarises g.2 g.1) :
    (((groups.map Prod.fst).map EmailCandidate.context).find? (· ≠ [])).getD [] =
      (((groups.flatMap Prod.snd).map EmailCandidate.context).find? (· ≠ [])).getD [] := by
  induction groups with
  | nil => rfl
  | cons g groups ih =>
    have hg := (h g mem_cons_self).context
    have ih := ih fun g' hg' => h g' (mem_cons_of_mem g hg')
    rw [map_cons, map_cons, flatMap_cons, map_append, List.find?_append]
    cases hfind : (g.2.map EmailCandidate.context).find? (· ≠ []) with
    | none =>
      rw [hfind] at hg
      rw [List.find?_cons_of_neg (by simp [hg]), ih]
      rfl
    | some context =>
      rw [hfind] at hg
      have hne : context ≠ [] := by simpa using List.find?_some hfind
      rw [List.find?_cons_of_pos (by simpa [hg] using hne), hg]
      rfl

theorem Summarises.regroup {groups : List (EmailCandidate × List EmailCandidate)}
    (hgroups : ∀ g ∈ groups, Summarises g.2 g.1) (h : Summarises (groups.map Prod.fst) m) :
    Summarises (groups.flatMap Prod.snd) m where
  method_mem := by
    obtain ⟨_, hc, hmethod⟩ := mem_map.mp h.method_mem
    obtain ⟨g, hg, rfl⟩ := mem_map.mp hc
    obtain ⟨c, hc, hmethod'⟩ := mem_map.mp (hgroups g hg).method_mem
    exact mem_map.mpr
      ⟨c, mem_flatMap.mpr ⟨g, hg, hc⟩, hmethod'.trans hmethod⟩
  method_le := by
    intro c hc
    obtain ⟨g, hg, hc⟩ := mem_flatMap.mp hc
    exact (h.method_le g.1 (mem_map_of_mem hg)).trans ((hgroups g hg).method_le c hc)
  sources := by
    have hsources : (groups.map Prod.fst).flatMap EmailCandidate.sourceUrls =
        groups.flatMap fun g => (g.2.flatMap EmailCandidate.sourceUrls).eraseDups := by
      rw [flatMap_map]
      exact flatMap_congr fun g hg => (hgroups g hg).sources
    rw [h.sources, hsources, Distinct.eraseDups_flatMap_eraseDups, flatMap_assoc]
  context := by
    rw [h.context, find?_contexts hgroups]

/-- The groups that have the address, with its merged candidate. -/
def groupsWith (e : Str) (groups : List (List (List EmailCandidate))) :
    List (EmailCandidate × List EmailCandidate) :=
  groups.flatMap fun g => (mergedFor e g).toList.map fun m => (m, occurrences e g)

theorem map_fst_groupsWith (e : Str) (groups : List (List (List EmailCandidate))) :
    (groupsWith e groups).map Prod.fst = occurrences e (groups.map mergePages) := by
  induction groups with
  | nil => rfl
  | cons g groups ih =>
    rw [map_cons, ← singleton_append (l := groups.map mergePages),
      occurrences_append, occurrences_mergePages, ← ih, groupsWith, groupsWith, flatMap_cons,
      map_append, map_map]
    simp [Function.comp_def]

theorem flatMap_snd_groupsWith (e : Str) (groups : List (List (List EmailCandidate))) :
    (groupsWith e groups).flatMap Prod.snd = occurrences e groups.flatten := by
  induction groups with
  | nil => rfl
  | cons g groups ih =>
    rw [flatten_cons, occurrences_append, ← ih, groupsWith, groupsWith,
      flatMap_cons, flatMap_append]
    congr 1
    cases hmerged : mergedFor e g with
    | none => simp [mergedFor_eq_none.mp hmerged]
    | some m => simp

theorem urlsOnce_groups {groups : List (List (List EmailCandidate))}
    (hurls : UrlsOnce groups.flatten) : UrlsOnce (groups.map mergePages) := by
  intro page hpage c hc
  obtain ⟨g, hg, rfl⟩ := mem_map.mp hpage
  have hg' : UrlsOnce g := fun page hpage => hurls page (mem_flatten_of_mem hg hpage)
  rw [(summarises_of_mergedFor hg' (mem_mergePages.mp hc)).sources]
  exact Distinct.nodup_eraseDups _

theorem summarises_regrouped (groups : List (List (List EmailCandidate)))
    (hurls : UrlsOnce groups.flatten) (hm : m ∈ mergePages (groups.map mergePages)) :
    Summarises (occurrences m.email groups.flatten) m := by
  have hsummary := summarises_of_mergedFor (urlsOnce_groups hurls) (mem_mergePages.mp hm)
  rw [← map_fst_groupsWith] at hsummary
  rw [← flatMap_snd_groupsWith]
  refine Summarises.regroup (fun g hg => ?_) hsummary
  obtain ⟨pages, hpages, hg⟩ := mem_flatMap.mp hg
  obtain ⟨m', hm', rfl⟩ := mem_map.mp hg
  have hpages' : UrlsOnce pages := fun page hpage =>
    hurls page (mem_flatten_of_mem hpages hpage)
  exact summarises_of_mergedFor hpages' (Option.mem_toList.mp hm')

theorem mem_emails_mergePages :
    e ∈ (mergePages perPage).map EmailCandidate.email ↔
      ∃ page ∈ perPage, ∃ c ∈ page, c.email = e := by
  rw [← occurrences_ne_nil, ne_eq, ← mergedFor_eq_none, ← ne_eq, Option.ne_none_iff_exists',
    mem_map]
  constructor
  · rintro ⟨m, hm, rfl⟩
    exact ⟨m, mem_mergePages.mp hm⟩
  · rintro ⟨m, hm⟩
    have hemail := email_of_mergedFor hm
    exact ⟨m, mem_mergePages.mpr (hemail ▸ hm), hemail⟩

theorem mem_emails_regrouped (groups : List (List (List EmailCandidate))) :
    e ∈ (mergePages (groups.map mergePages)).map EmailCandidate.email ↔
      e ∈ (mergePages groups.flatten).map EmailCandidate.email := by
  rw [mem_emails_mergePages, mem_emails_mergePages]
  constructor
  · rintro ⟨page, hpage, c, hc, rfl⟩
    obtain ⟨g, hg, rfl⟩ := mem_map.mp hpage
    obtain ⟨page, hpage, hfound⟩ :=
      mem_emails_mergePages.mp (mem_map_of_mem (f := EmailCandidate.email) hc)
    exact ⟨page, mem_flatten_of_mem hg hpage, hfound⟩
  · rintro ⟨page, hpage, hfound⟩
    obtain ⟨g, hg, hpage⟩ := mem_flatten.mp hpage
    obtain ⟨m, hm, hemail⟩ := mem_map.mp (mem_emails_mergePages.mpr ⟨page, hpage, hfound⟩)
    exact ⟨mergePages g, mem_map_of_mem hg, m, hm, hemail⟩

/-- One candidate for each address of the pages, with the best method, all URLs in the
order they were first met, and the first context; merging two consecutive groups of pages
first gives the same addresses, methods and URLs. -/
theorem mergePages_keeps_evidence (perPage : List (List EmailCandidate))
    (hurls : UrlsOnce perPage) :
    ((mergePages perPage).map EmailCandidate.email).Nodup ∧
      (∀ e, e ∈ (mergePages perPage).map EmailCandidate.email ↔
        ∃ page ∈ perPage, ∃ c ∈ page, c.email = e) ∧
      (∀ m ∈ mergePages perPage, Summarises (occurrences m.email perPage) m) ∧
      ∀ first second, perPage = first ++ second →
        (∀ e, e ∈ (mergePages [mergePages first, mergePages second]).map EmailCandidate.email ↔
          e ∈ (mergePages perPage).map EmailCandidate.email) ∧
        ∀ m ∈ mergePages perPage, ∀ m' ∈ mergePages [mergePages first, mergePages second],
          m'.email = m.email → m'.method = m.method ∧ m'.sourceUrls = m.sourceUrls := by
  have hsummary : ∀ m ∈ mergePages perPage, Summarises (occurrences m.email perPage) m :=
    fun m hm => summarises_of_mergedFor hurls (mem_mergePages.mp hm)
  refine ⟨nodup_email_mergePages perPage, fun e => mem_emails_mergePages, hsummary, ?_⟩
  rintro first second rfl
  have hflatten : [first, second].flatten = first ++ second := by simp
  refine ⟨fun e => ?_, fun m hm m' hm' hemail => ?_⟩
  · rw [← hflatten]
    exact mem_emails_regrouped (e := e) [first, second]
  · have hregrouped := summarises_regrouped [first, second] (hflatten ▸ hurls) hm'
    rw [hflatten, hemail] at hregrouped
    exact (hsummary m hm).unique hregrouped

def twoPages : List (List EmailCandidate) :=
  [[{ email := "info@acme.com".toList, method := .text, sourceUrls := ["/".toList] }],
    [{ email := "info@acme.com".toList, method := .mailto, sourceUrls := ["/contact".toList],
       context := "Write to us".toList }]]

theorem twoPages_merged : UrlsOnce twoPages ∧
    ∃ m ∈ mergePages twoPages, m.email = "info@acme.com".toList ∧ m.method = .mailto ∧
      m.sourceUrls = ["/".toList, "/contact".toList] ∧ m.context = "Write to us".toList := by
  have hurls : UrlsOnce twoPages := by simp [UrlsOnce, twoPages]
  obtain ⟨-, hemails, hsummary, -⟩ := mergePages_keeps_evidence twoPages hurls
  obtain ⟨m, hm, hemail⟩ := mem_map.mp
    ((hemails "info@acme.com".toList).mpr ⟨_, mem_cons_self, _, mem_cons_self, rfl⟩)
  have hocc : occurrences "info@acme.com".toList twoPages = twoPages.flatten := by decide
  have h := hsummary m hm
  rw [hemail, hocc] at h
  have hmethod : m.method.precedence ≤ ExtractionMethod.mailto.precedence :=
    h.method_le _ (mem_cons_of_mem _ mem_cons_self)
  refine ⟨hurls, m, hm, hemail, ExtractionMethod.precedence_injective ?_, ?_, ?_⟩
  · exact Nat.eq_zero_of_le_zero hmethod
  · rw [h.sources]
    decide
  · rw [h.context]
    decide

end Pipeline

end EmailExtractor
