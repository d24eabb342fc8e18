import Mathlib.Tactic.MkIffOfInductiveProp
import EmailExtractor.Discovery.Discover
import EmailExtractor.Library.Except

/-!
# When discovery returns

Discovery raises when one of the parses it makes outside the guard of `extract_links`
raises. What it parses depends on how far it gets: it looks at `Sitemap:` lines up to
the fifth it accepts, at sitemaps only if the links do not settle the selection, at
entries until enough pages are read, and at the fixed paths only if too little is found.
-/

namespace EmailExtractor

namespace Discovery

open Url Normalize List
open Except (isOk_ok isOk_iff isOk_bind)

variable (W : Web)

def Splits (url : Str) : Prop := (urlsplit W.unicode url).isOk = true

def Scores (url anchor : Str) : Prop := (scoreUrl W.unicode url anchor).isOk = true

instance (url : Str) : Decidable (Splits W url) := by
  unfold Splits
  infer_instance

instance (url anchor : Str) : Decidable (Scores W url anchor) := by
  unfold Scores
  infer_instance

variable {W} {own base url : Str}

theorem hostOf_ok_iff {host : Str} :
    hostOf W url = .ok host ↔ ∃ parts, urlsplit W.unicode url = .ok parts ∧
      W.unicode.lower (parts.hostname W.unicode) = host := by
  unfold hostOf
  cases urlsplit W.unicode url with
  | error e => simp [bind, Except.bind]
  | ok parts => simp [bind, Except.bind, pure, Except.pure]

theorem splits_iff_hostOf : Splits W url ↔ ∃ host, hostOf W url = .ok host := by
  unfold Splits
  rw [isOk_iff]
  constructor
  · intro h
    obtain ⟨parts, hparts⟩ := h
    exact ⟨_, hostOf_ok_iff.mpr ⟨parts, hparts, rfl⟩⟩
  · intro h
    obtain ⟨host, hhost⟩ := h
    obtain ⟨parts, hparts, -⟩ := hostOf_ok_iff.mp hhost
    exact ⟨parts, hparts⟩

theorem sameSite_of_hostOf {host : Str} (h : hostOf W url = .ok host) :
    sameSite W own url = .ok (host ≠ [] && registrable W.extract host = own) := by
  rw [sameSite, h]
  rfl

theorem splits_iff_sameSite (own : Str) : Splits W url ↔ ∃ b, sameSite W own url = .ok b := by
  rw [splits_iff_hostOf]
  constructor
  · intro h
    obtain ⟨host, hhost⟩ := h
    exact ⟨_, sameSite_of_hostOf hhost⟩
  · intro h
    obtain ⟨b, hb⟩ := h
    cases hhost : hostOf W url with
    | ok host => exact ⟨host, rfl⟩
    | error e =>
      rw [sameSite, hhost] at hb
      cases hb

/-! ## Links -/

def LinkSplits (W : Web) (base : Str) (node : Anchor) : Prop :=
  ∀ href ∈ linkHref W node, ∀ u ∈ (resolve W base href).toOption, Splits W u

instance (node : Anchor) : Decidable (LinkSplits W base node) := by
  unfold LinkSplits
  infer_instance

theorem readLink_returns_iff (own : Str) {node : Anchor} :
    (readLink W own base node).isOk = true ↔ LinkSplits W base node := by
  unfold readLink LinkSplits
  cases linkHref W node with
  | none => simp
  | some href =>
    cases hu : resolve W base href with
    | error e => simp [hu, Except.toOption]
    | ok u =>
      have hlink : (∀ href' ∈ some href, ∀ u' ∈ (resolve W base href').toOption,
          Splits W u') ↔ Splits W u := by
        simp [hu, Except.toOption]
      rw [hlink, Splits]
      simp only [hu]
      cases urlsplit W.unicode u with
      | error e => simp [bind, Except.bind]
      | ok parts =>
        simp only [bind, Except.bind, pure, Except.pure]
        split_ifs <;> simp

theorem linkLoop_returns_iff {nodes : List Anchor} (out : List (Str × Str)) :
    (linkLoop W own base out nodes).isOk = true ↔ ∀ n ∈ nodes, LinkSplits W base n := by
  induction nodes generalizing out with
  | nil => simp [linkLoop]
  | cons node nodes ih =>
    rw [linkLoop, isOk_bind, forall_mem_cons, ← readLink_returns_iff own, isOk_iff]
    constructor
    · intro h
      obtain ⟨link, hlink, hrest⟩ := h
      refine ⟨⟨link, hlink⟩, ?_⟩
      cases link with
      | none => exact (ih _).mp hrest
      | some link =>
        dsimp only at hrest
        split at hrest
        · exact (ih _).mp hrest
        · exact (ih _).mp hrest
    · intro h
      obtain ⟨⟨link, hlink⟩, hrest⟩ := h
      refine ⟨link, hlink, ?_⟩
      cases link with
      | none => exact (ih _).mpr hrest
      | some link =>
        dsimp only
        split
        · exact (ih _).mpr hrest
        · exact (ih _).mpr hrest

theorem scoreAll_returns_iff {us : List (Str × Str)} :
    (scoreAll W us).isOk = true ↔ ∀ u ∈ us, Scores W u.1 u.2 := by
  induction us with
  | nil => simp [scoreAll]
  | cons u us ih =>
    rw [forall_mem_cons, ← ih, Scores]
    cases hs : scoreUrl W.unicode u.1 u.2 with
    | error e => simp [scoreAll, hs, bind, Except.bind]
    | ok s =>
      cases hrest : scoreAll W us with
      | error e => simp [scoreAll, hs, hrest, bind, Except.bind]
      | ok rest =>
        simp [scoreAll, hs, hrest, bind, Except.bind, pure, Except.pure]

/-! ## robots.txt -/

def lineLooks (W : Web) (own : Str) (limit : ℕ) (out : List Str) : List Str → List Str
  | [] => []
  | url :: urls =>
    if isHttp W.unicode url then
      url ::
        match hostOf W url with
        | .error _ => []
        | .ok host =>
          if host = [] ∨ registrable W.extract host ≠ own then
            lineLooks W own limit out urls
          else
            let out := if out.contains url then out else out ++ [url]
            if limit ≤ out.length then [] else lineLooks W own limit out urls
    else lineLooks W own limit out urls

def LineSkipped (W : Web) (own url : Str) : Prop :=
  isHttp W.unicode url = false ∨
    ∃ host, hostOf W url = .ok host ∧ (host = [] ∨ registrable W.extract host ≠ own)

def LineTaken (W : Web) (own url : Str) : Prop :=
  isHttp W.unicode url = true ∧
    ∃ host, hostOf W url = .ok host ∧ ¬ (host = [] ∨ registrable W.extract host ≠ own)

def addLine (out : List Str) (url : Str) : List Str :=
  if out.contains url then out else out ++ [url]

theorem mem_addLine {out : List Str} {u v : Str} : v ∈ addLine out u ↔ v ∈ out ∨ v = u := by
  unfold addLine
  split
  · rename_i hmem
    rw [contains_iff_mem] at hmem
    constructor
    · exact .inl
    · intro hv
      rcases hv with hv | rfl
      · exact hv
      · exact hmem
  · rw [mem_append, mem_singleton]

theorem sitemapLoop_of_skipped {u : Str} (h : LineSkipped W own u) (limit : ℕ)
    (out urls : List Str) :
    sitemapLoop W own limit out (u :: urls) = sitemapLoop W own limit out urls := by
  rw [sitemapLoop]
  rcases h with hhttp | ⟨host, hhost, hoff⟩
  · rw [if_neg (by rw [hhttp]; exact Bool.false_ne_true)]
  · split
    · simp only [hhost, bind, Except.bind, if_pos hoff]
    · rfl

theorem sitemapLoop_of_taken {u : Str} (h : LineTaken W own u) (limit : ℕ) (out urls : List Str) :
    sitemapLoop W own limit out (u :: urls) =
      if limit ≤ (addLine out u).length then .ok (addLine out u)
      else sitemapLoop W own limit (addLine out u) urls := by
  obtain ⟨hhttp, host, hhost, hon⟩ := h
  rw [sitemapLoop, if_pos hhttp]
  simp only [hhost, bind, Except.bind, if_neg hon]
  rfl

theorem line_cases (W : Web) (own url : Str) :
    LineSkipped W own url ∨ LineTaken W own url ∨
      isHttp W.unicode url = true ∧ ∃ e, hostOf W url = .error e := by
  cases hhttp : isHttp W.unicode url with
  | false => exact .inl (.inl hhttp)
  | true =>
    cases hhost : hostOf W url with
    | error e => exact .inr (.inr ⟨rfl, e, rfl⟩)
    | ok host =>
      by_cases hoff : host = [] ∨ registrable W.extract host ≠ own
      · exact .inl (.inr ⟨host, hhost, hoff⟩)
      · exact .inr (.inl ⟨hhttp, host, hhost, hoff⟩)

theorem sitemapLoop_cons_cases {limit : ℕ} {out urls seeds : List Str} {u : Str}
    (h : sitemapLoop W own limit out (u :: urls) = .ok seeds) :
    (LineSkipped W own u ∧ sitemapLoop W own limit out urls = .ok seeds) ∨
      LineTaken W own u ∧
        (limit ≤ (addLine out u).length ∧ seeds = addLine out u ∨
          ¬ limit ≤ (addLine out u).length ∧
            sitemapLoop W own limit (addLine out u) urls = .ok seeds) := by
  rcases line_cases W own u with hskipped | htaken | ⟨hhttp, e, herror⟩
  · rw [sitemapLoop_of_skipped hskipped] at h
    exact .inl ⟨hskipped, h⟩
  · rw [sitemapLoop_of_taken htaken] at h
    refine .inr ⟨htaken, ?_⟩
    split at h
    · rename_i hlimit
      exact .inl ⟨hlimit, (Except.ok.inj h).symm⟩
    · rename_i hlimit
      exact .inr ⟨hlimit, h⟩
  · rw [sitemapLoop, if_pos hhttp, herror] at h
    cases h

theorem sitemapLoop_returns_iff (limit : ℕ) (out urls : List Str) :
    (sitemapLoop W own limit out urls).isOk = true ↔
      ∀ u ∈ lineLooks W own limit out urls, Splits W u := by
  induction urls generalizing out with
  | nil => simp [sitemapLoop, lineLooks]
  | cons u urls ih =>
    unfold sitemapLoop lineLooks
    split
    · rw [forall_mem_cons, splits_iff_hostOf]
      cases hhost : hostOf W u with
      | error e => simp [bind, Except.bind]
      | ok host =>
        simp only [bind, Except.bind, Except.ok.injEq, exists_eq', true_and]
        split
        · exact ih out
        · generalize (if out.contains u then out else out ++ [u]) = next
          split
          · simp [pure, Except.pure]
          · exact ih next
    · exact ih out

/-! ## Sitemaps -/

def pageLooks (W : Web) (own : Str) : ℕ → List Str → List Str
  | _, [] => []
  | n, u :: us =>
    let n := if sameSite W own u = .ok true then n + 1 else n
    u :: if maxUrls ≤ n then [] else pageLooks W own n us

theorem addPages_returns_iff (w : Walk) (us : List Str) :
    (addPages W own w us).isOk = true ↔
      ∀ u ∈ pageLooks W own w.pages.length us, Splits W u := by
  induction us generalizing w with
  | nil => simp [addPages, pageLooks]
  | cons u us ih =>
    unfold addPages pageLooks
    dsimp only
    rw [forall_mem_cons, splits_iff_sameSite own]
    cases hsame : sameSite W own u with
    | error e => simp [bind, Except.bind]
    | ok same =>
      have hlength : (if (Except.ok same : Except ValueError Bool) = .ok true
          then w.pages.length + 1 else w.pages.length) =
          (if same then w.pages ++ [u] else w.pages).length := by
        cases same <;> simp
      rw [hlength]
      simp only [bind, Except.bind, Except.ok.injEq, exists_eq', true_and]
      generalize (if same then w.pages ++ [u] else w.pages) = pages
      split
      · simp [pure, Except.pure]
      · exact ih { w with pages := pages }

variable {us : List Str} {w : Walk} {final : SplitResult}

theorem filterOk_returns_iff {p : Str → Except ValueError Bool} :
    (filterOk p us).isOk = true ↔ ∀ u ∈ us, ∃ b, p u = .ok b := by
  induction us with
  | nil => simp [filterOk]
  | cons u us ih =>
    rw [forall_mem_cons, ← ih]
    cases hu : p u with
    | error e => simp [filterOk, hu, bind, Except.bind]
    | ok b =>
      cases hrest : filterOk p us with
      | error e => simp [filterOk, hu, hrest, bind, Except.bind]
      | ok rest =>
        simp [filterOk, hu, hrest, bind, Except.bind, pure, Except.pure]

def onSite (W : Web) (own url : Str) : Bool := sameSite W own url = .ok true

theorem sameSite_of_splits (h : Splits W url) : sameSite W own url = .ok (onSite W own url) := by
  obtain ⟨b, hb⟩ := (splits_iff_sameSite own).mp h
  rw [onSite, hb]
  cases b <;> simp

theorem filterOk_eq {p : Str → Except ValueError Bool} {q : Str → Bool}
    (h : ∀ u ∈ us, p u = .ok (q u)) : filterOk p us = .ok (us.filter q) := by
  induction us with
  | nil => rfl
  | cons u us ih =>
    rw [filterOk, h u (mem_cons_self ..), ih fun v hv => h v (mem_cons_of_mem _ hv),
      filter_cons]
    rfl

def childTokens (W : Web) (url : Str) : List Str := (lastSegmentTokens W url).toOption.getD []

def childOrder (W : Web) (us : List Str) : List Str :=
  let keep := us.filter fun u => !(childTokens W u).any excludeChildTokens.contains
  (keep.filter fun u => (childTokens W u).contains preferChildToken) ++
    keep.filter fun u => !(childTokens W u).contains preferChildToken

theorem lastSegmentTokens_of_splits (h : Splits W url) :
    lastSegmentTokens W url = .ok (childTokens W url) := by
  obtain ⟨parts, hparts⟩ := isOk_iff.mp h
  unfold childTokens lastSegmentTokens
  simp only [hparts, bind, Except.bind, pure, Except.pure]
  split <;> rfl

theorem orderChildren_eq (h : ∀ u ∈ us, Splits W u) :
    orderChildren W us = .ok (childOrder W us) := by
  have hkeep : filterOk (fun u => do return !(← childIsExcluded W u)) us =
      .ok (us.filter fun u => !(childTokens W u).any excludeChildTokens.contains) := by
    refine filterOk_eq fun u hu => ?_
    simp only [childIsExcluded, lastSegmentTokens_of_splits (h u hu), bind, Except.bind, pure,
      Except.pure]
  have hpreferred : ∀ keep, (∀ u ∈ keep, Splits W u) →
      filterOk (fun u => do return (← lastSegmentTokens W u).contains preferChildToken) keep =
        .ok (keep.filter fun u => (childTokens W u).contains preferChildToken) := by
    intro keep hsplit
    refine filterOk_eq fun u hu => ?_
    simp only [lastSegmentTokens_of_splits (hsplit u hu), bind, Except.bind, pure, Except.pure]
  unfold orderChildren childOrder
  rw [hkeep]
  generalize hkeep' : us.filter (fun u => !(childTokens W u).any excludeChildTokens.contains) = keep
  have hsplit : ∀ u ∈ keep, Splits W u := by
    intro u hu
    rw [← hkeep'] at hu
    exact h u (mem_of_mem_filter hu)
  change (filterOk _ keep >>= _) = _
  rw [hpreferred keep hsplit]
  refine congrArg (fun l => Except.ok (_ ++ l)) (filter_congr fun u hu => ?_)
  rw [Bool.eq_iff_iff]
  simp [hu]

def queuedChildren (W : Web) (own : Str) (us : List Str) (depth : ℕ) : List (Str × ℕ) :=
  ((childOrder W (us.filter (onSite W own))).take maxChildren).map fun c => (c, depth + 1)

theorem readIndex_eq {depth : ℕ} (hdepth : ¬ maxDepth ≤ depth) (h : ∀ u ∈ us, Splits W u) :
    readEntries W own w us true depth =
      .ok { w with queue := w.queue ++ queuedChildren W own us depth } := by
  have hsame : filterOk (sameSite W own) us = .ok (us.filter (onSite W own)) :=
    filterOk_eq fun u hu => sameSite_of_splits (h u hu)
  have horder : orderChildren W (us.filter (onSite W own)) =
      .ok (childOrder W (us.filter (onSite W own))) :=
    orderChildren_eq fun u hu => h u (mem_of_mem_filter hu)
  simp only [readEntries, if_true, if_neg hdepth, hsame, horder, bind, Except.bind, pure,
    Except.pure, queuedChildren]

def entryLooks (W : Web) (own : Str) (n : ℕ) (us : List Str) (isIndex : Bool) (depth : ℕ) :
    List Str :=
  if isIndex then if maxDepth ≤ depth then [] else us else pageLooks W own n us

theorem readEntries_returns_iff (w : Walk) (us : List Str) (isIndex : Bool) (depth : ℕ) :
    (readEntries W own w us isIndex depth).isOk = true ↔
      ∀ u ∈ entryLooks W own w.pages.length us isIndex depth, Splits W u := by
  cases isIndex with
  | false => exact addPages_returns_iff w us
  | true =>
    unfold entryLooks
    rw [if_pos rfl]
    by_cases hdepth : maxDepth ≤ depth
    · simp [readEntries, hdepth]
    · rw [if_neg hdepth]
      constructor
      · intro h u hu
        unfold readEntries at h
        rw [if_pos rfl, if_neg hdepth, isOk_bind] at h
        obtain ⟨same, hsame, -⟩ := h
        exact (splits_iff_sameSite own).mpr
          (filterOk_returns_iff.mp (isOk_iff.mpr ⟨same, hsame⟩) u hu)
      · intro h
        rw [readIndex_eq hdepth h]
        rfl

theorem addPages_cons_cases {v : Walk} {u : Str} (h : addPages W own w (u :: us) = .ok v) :
    ∃ same pages, sameSite W own u = .ok same ∧
      pages = (if same then w.pages ++ [u] else w.pages) ∧
      ((maxUrls ≤ pages.length ∧ v = { w with pages := pages, full := true }) ∨
        (pages.length < maxUrls ∧ addPages W own { w with pages := pages } us = .ok v)) := by
  rw [addPages] at h
  cases hsame : sameSite W own u with
  | error e => simp [hsame, bind, Except.bind] at h
  | ok same =>
    simp only [hsame, bind, Except.bind] at h
    refine ⟨same, _, rfl, rfl, ?_⟩
    generalize (if same then w.pages ++ [u] else w.pages) = pages at h ⊢
    split at h
    · rename_i hlength
      cases h
      exact .inl ⟨hlength, rfl⟩
    · rename_i hlength
      exact .inr ⟨not_le.mp hlength, h⟩

theorem addPages_queue {w' : Walk} (h : addPages W own w us = .ok w') : w'.queue = w.queue := by
  induction us generalizing w with
  | nil =>
    cases h
    rfl
  | cons u us ih =>
    obtain ⟨_, pages, _, _, ⟨_, rfl⟩ | ⟨_, hrest⟩⟩ := addPages_cons_cases h
    · rfl
    · exact ih (w := { w with pages := pages }) hrest

theorem readEntries_cases {w' : Walk} {isIndex : Bool} {depth : ℕ}
    (h : readEntries W own w us isIndex depth = .ok w') :
    (isIndex = false ∧ addPages W own w us = .ok w') ∨
    (isIndex = true ∧ maxDepth ≤ depth ∧ w' = w) ∨
    (isIndex = true ∧ ¬ maxDepth ≤ depth ∧ (∀ u ∈ us, Splits W u) ∧
      w' = { w with queue := w.queue ++ queuedChildren W own us depth }) := by
  have hlooks := (readEntries_returns_iff w us isIndex depth).mp (isOk_iff.mpr ⟨w', h⟩)
  cases isIndex with
  | false => exact .inl ⟨rfl, h⟩
  | true =>
    by_cases hdepth : maxDepth ≤ depth
    · simp only [readEntries, if_true, if_pos hdepth, Except.ok.injEq] at h
      exact .inr (.inl ⟨rfl, hdepth, h.symm⟩)
    · rw [entryLooks, if_pos rfl, if_neg hdepth] at hlooks
      rw [readIndex_eq hdepth hlooks, Except.ok.injEq] at h
      exact .inr (.inr ⟨rfl, hdepth, hlooks, h.symm⟩)

theorem readEntries_queue {w' : Walk} {isIndex : Bool} {depth : ℕ}
    (hq : ∀ d ∈ w.queue, Splits W d.1) (h : readEntries W own w us isIndex depth = .ok w') :
    ∀ d ∈ w'.queue, Splits W d.1 := by
  rcases readEntries_cases h with ⟨-, hpages⟩ | ⟨-, -, rfl⟩ | ⟨-, -, hsplits, rfl⟩
  · rw [addPages_queue hpages]
    exact hq
  · exact hq
  · intro d hd
    rcases mem_append.mp hd with hd | hd
    · exact hq d hd
    · obtain ⟨c, hc, rfl⟩ := mem_map.mp hd
      have hc := mem_of_mem_take hc
      simp only [childOrder, mem_append, mem_filter] at hc
      exact hsplits c (by tauto)

/-! ## The walk over the sitemaps -/

structure Reading where
  walk : Walk
  text : Str
  depth : ℕ

namespace Reading

def read (W : Web) (own : Str) (x : Reading) : Except ValueError Walk :=
  readDoc W own x.walk x.text x.depth

def looks (W : Web) (own : Str) (x : Reading) : List Str :=
  entryLooks W own x.walk.pages.length (extractUrls W x.text).1 (extractUrls W x.text).2 x.depth

theorem read_returns_iff {x : Reading} :
    (x.read W own).isOk = true ↔ ∀ u ∈ x.looks W own, Splits W u :=
  readEntries_returns_iff x.walk _ _ x.depth

end Reading

def Reading.andThen (W : Web) (own : Str) (x : Reading) (next : Walk → List Reading) :
    List Reading :=
  x ::
    match x.read W own with
    | .error _ => []
    | .ok w => if w.full then [] else next w

/-- The documents that the loop of `collect_sitemap_urls` fetches and reads. -/
def fetchReadings (W : Web) (own : Str) (docs : Str → Str) : ℕ → List Str → Walk → List Reading
  | 0, _, _ => []
  | budget + 1, seen, w =>
    match nextDoc W own seen w.queue with
    | .ok (some ((url, depth), queue)) =>
      Reading.andThen W own ⟨{ w with queue := queue }, docs url, depth⟩
        (fetchReadings W own docs budget (url :: seen))
    | _ => []

theorem nextDoc_returns (own : Str) (seen : List Str) {queue : List (Str × ℕ)}
    (h : ∀ d ∈ queue, Splits W d.1) :
    ∃ next, nextDoc W own seen queue = .ok next ∧ ∀ n ∈ next, ∀ d ∈ n.2, d ∈ queue := by
  induction queue with
  | nil => exact ⟨none, rfl, by simp⟩
  | cons doc queue ih =>
    obtain ⟨next, hnext, hmem⟩ := ih fun d hd => h d (mem_cons_of_mem _ hd)
    have hmem' : ∀ n ∈ next, ∀ d ∈ n.2, d ∈ doc :: queue :=
      fun n hn d hd => mem_cons_of_mem _ (hmem n hn d hd)
    have hsplits := h doc (mem_cons_self ..)
    unfold nextDoc
    split
    · exact ⟨next, hnext, hmem'⟩
    · simp only [sameSite_of_splits hsplits, bind, Except.bind]
      split
      · refine ⟨_, rfl, fun n hn d hd => ?_⟩
        cases hn
        exact mem_cons_of_mem _ hd
      · exact ⟨next, hnext, hmem'⟩

theorem readDoc_nil (w : Walk) (depth : ℕ) : readDoc W own w [] depth = .ok w := rfl

theorem run_fetchDocs_succ (docs : Str → Str) (budget : ℕ) (seen : List Str)
    (hfull : w.full = false) :
    (fetchDocs W own (budget + 1) seen w).run docs =
      (nextDoc W own seen w.queue >>= fun
        | none => .ok w.pages
        | some ((u, depth), queue) =>
          readDoc W own { w with queue := queue } (docs u) depth >>= fun w' =>
            if w'.full then .ok w'.pages
            else (fetchDocs W own budget (u :: seen) w').run docs) := by
  rw [fetchDocs, Coroutine.run_bind, Coroutine.run_lift]
  congr 1
  funext next
  match next with
  | none => rfl
  | some ((u, depth), queue) =>
    dsimp only [Coroutine.run]
    split
    · rename_i hblank
      rw [hblank, readDoc_nil]
      simp [bind, Except.bind, hfull]
    · rw [Coroutine.run_bind, Coroutine.run_lift]
      congr 1
      funext w'
      split
      · rfl
      · rfl

theorem run_fetchDocs_cases {docs : Str → Str} {budget : ℕ} {seen : List Str}
    (hfull : w.full = false) {pages : List Str}
    (h : (fetchDocs W own (budget + 1) seen w).run docs = .ok pages) :
    (nextDoc W own seen w.queue = .ok none ∧ pages = w.pages) ∨
    ∃ u depth queue v, nextDoc W own seen w.queue = .ok (some ((u, depth), queue)) ∧
      readDoc W own ⟨w.pages, queue, w.full⟩ (docs u) depth = .ok v ∧
      (v.full = true ∧ pages = v.pages ∨
        v.full = false ∧ (fetchDocs W own budget (u :: seen) v).run docs = .ok pages) := by
  rw [run_fetchDocs_succ docs budget seen hfull] at h
  cases hnext : nextDoc W own seen w.queue with
  | error e => simp [hnext, bind, Except.bind] at h
  | ok next =>
    rw [hnext] at h
    match next, h with
    | none, h =>
      cases h
      exact .inl ⟨rfl, rfl⟩
    | some ((u, depth), queue), h =>
      cases hread : readDoc W own { w with queue := queue } (docs u) depth with
      | error e => simp [hread, bind, Except.bind] at h
      | ok v =>
        simp only [hread, bind, Except.bind] at h
        refine .inr ⟨u, depth, queue, v, rfl, hread, ?_⟩
        cases hv : v.full with
        | true =>
          rw [hv] at h
          cases h
          exact .inl ⟨rfl, rfl⟩
        | false =>
          rw [hv] at h
          exact .inr ⟨rfl, h⟩

theorem andThen_returns_iff {x : Reading} {rest : Walk → Except ValueError (List Str)}
    {next : Walk → List Reading}
    (hrest : ∀ w, x.read W own = .ok w → w.full = false →
      ((rest w).isOk = true ↔ ∀ y ∈ next w, ∀ u ∈ y.looks W own, Splits W u)) :
    (x.read W own >>= fun w => if w.full then .ok w.pages else rest w).isOk = true ↔
      ∀ y ∈ x.andThen W own next, ∀ u ∈ y.looks W own, Splits W u := by
  rw [Reading.andThen, forall_mem_cons, ← Reading.read_returns_iff]
  cases hread : x.read W own with
  | error e => simp [bind, Except.bind]
  | ok w =>
    simp only [bind, Except.bind, isOk_ok, true_and]
    cases hfull : w.full with
    | true => simp
    | false => simpa using hrest w hread hfull

theorem run_fetchDocs_returns_iff {docs : Str → Str} (budget : ℕ) (seen : List Str)
    (hq : ∀ d ∈ w.queue, Splits W d.1) (hfull : w.full = false) :
    ((fetchDocs W own budget seen w).run docs).isOk = true ↔
      ∀ x ∈ fetchReadings W own docs budget seen w, ∀ u ∈ x.looks W own, Splits W u := by
  induction budget generalizing seen w with
  | zero => simp [fetchDocs, fetchReadings, Coroutine.run]
  | succ budget ih =>
    rw [run_fetchDocs_succ docs budget seen hfull, fetchReadings]
    obtain ⟨next, hnext, hmem⟩ := nextDoc_returns own seen hq
    rw [hnext]
    match next with
    | none => simp [bind, Except.bind]
    | some ((u, depth), queue) =>
      refine andThen_returns_iff (x := ⟨{ w with queue := queue }, docs u, depth⟩)
        fun w' hread hfull' => ih (u :: seen) ?_ hfull'
      exact readEntries_queue (fun d hd => hq d (hmem _ rfl d hd)) hread

/-! ## Discovery -/

/-- What `discover_pages` is given, and what the fetches of sitemaps return. -/
structure Site where
  finalUrl : Str
  html : Str
  robots : Str
  rootSitemap : Str
  docs : Str → Str
  limit : ℕ

def scoreFixed (W : Web) (final : SplitResult) (path : Str) :
    Except ValueError (Option ScoredUrl) :=
  fallbackUrl W final path >>= fun u => scoreUrl W.unicode u []

def short (candidates : List ScoredUrl) (limit : ℕ) : Bool :=
  ((select candidates limit).filter fun c => c.tier.isSome).length < minScoredBeforeFallback

def settled (candidates : List ScoredUrl) : Bool :=
  hasTier candidates .contact && hasTier candidates .about

namespace Site

def discover (W : Web) (S : Site) : Except ValueError (List ScoredUrl × Diag) :=
  (discoverPages W S.finalUrl S.html S.robots S.rootSitemap S.limit).run S.docs

def ownDomain (W : Web) (final : SplitResult) : Str :=
  registrable W.extract (W.unicode.lower (final.hostname W.unicode))

variable (W : Web) (S : Site)

def links : List (Str × Str) := (extractLinks W S.html S.finalUrl).toOption.getD []

def candidates : List ScoredUrl := (scoreAll W (S.links W)).toOption.getD []

def lineLooks (own : Str) : List Str :=
  Discovery.lineLooks W (registrable W.extract own) maxSitemaps [] (sitemapLines W S.robots)

def firstWalk (own : Str) : Walk :=
  ⟨[], ((parseSitemaps W S.robots own).toOption.getD []).map (·, 0), false⟩

def readings (own : Str) : List Reading :=
  Reading.andThen W own ⟨S.firstWalk W own, S.rootSitemap, 0⟩
    (fetchReadings W own S.docs maxSitemapDocs [])

def sitemapPages (own : Str) : Except ValueError (List Str) :=
  parseSitemaps W S.robots own >>= fun seedUrls =>
    (collectSitemapUrls W own [S.rootSitemap] seedUrls).run S.docs

def pages (own : Str) : List Str := (S.sitemapPages W own).toOption.getD []

def found (own : Str) : List ScoredUrl :=
  S.candidates W ++ (scoreAll W ((S.pages W own).map (·, []))).toOption.getD []

/-- Every parse that discovery makes outside the guard of `extract_links` returns. -/
@[mk_iff] structure Reads (final : SplitResult) : Prop where
  split : urlsplit W.unicode S.finalUrl = .ok final
  links : ∀ n ∈ linkNodes W S.html, LinkSplits W S.finalUrl n
  scored : ∀ l ∈ S.links W, Scores W l.1 l.2
  lines : settled (S.candidates W) = false → ∀ u ∈ S.lineLooks W (ownDomain W final), Splits W u
  entries : settled (S.candidates W) = false → ∀ x ∈ S.readings W (ownDomain W final),
    ∀ u ∈ x.looks W (ownDomain W final), Splits W u
  pages : settled (S.candidates W) = false → ∀ u ∈ S.pages W (ownDomain W final), Scores W u []
  fixed : settled (S.candidates W) = false →
    short (S.found W (ownDomain W final)) S.limit = true →
      ∀ path ∈ fixedFallbackPaths, (scoreFixed W final path).isOk = true

instance (final : SplitResult) : Decidable (S.Reads W final) :=
  decidable_of_iff _ (reads_iff W S final).symm

end Site

theorem toOption_getD_of_eq {α : Type} {x : Except ValueError (List α)} {a : List α}
    (h : x = .ok a) : x.toOption.getD [] = a := by
  rw [h]
  rfl

theorem extractLinks_eq (h : urlsplit W.unicode base = .ok final) (html : Str) :
    extractLinks W html base =
      linkLoop W (Site.ownDomain W final) base [] (linkNodes W html) := by
  have hhost : hostOf W base = .ok (W.unicode.lower (final.hostname W.unicode)) :=
    hostOf_ok_iff.mpr ⟨final, h, rfl⟩
  unfold extractLinks linkNodes
  split
  · rfl
  · rw [hhost]
    rfl

theorem readSeeds_root (w : Walk) (root : Str) :
    readSeeds W own w ([root].filter (· ≠ [])) = readDoc W own w root 0 := by
  by_cases hroot : root = []
  · rw [hroot, readDoc_nil]
    rfl
  · rw [filter_cons_of_pos (by simpa using hroot), filter_nil]
    unfold readSeeds
    cases readDoc W own w root 0 with
    | error e => rfl
    | ok w =>
      simp only [bind, Except.bind]
      split <;> rfl

theorem run_collectSitemapUrls (docs : Str → Str) (root : Str) (seedUrls : List Str) :
    (collectSitemapUrls W own [root] seedUrls).run docs =
      (readDoc W own ⟨[], seedUrls.map (·, 0), false⟩ root 0 >>= fun w =>
        if w.full then .ok w.pages else (fetchDocs W own maxSitemapDocs [] w).run docs) := by
  rw [collectSitemapUrls, Coroutine.run_bind, Coroutine.run_lift, readSeeds_root]
  congr 1
  funext w
  split <;> rfl

theorem sitemapLoop_splits {limit : ℕ} {out urls seeds : List Str}
    (hout : ∀ u ∈ out, Splits W u) (h : sitemapLoop W own limit out urls = .ok seeds) :
    ∀ u ∈ seeds, Splits W u := by
  induction urls generalizing out with
  | nil =>
    cases h
    exact hout
  | cons u urls ih =>
    rcases sitemapLoop_cons_cases h with ⟨-, hrest⟩ | ⟨⟨-, host, hhost, -⟩, hcases⟩
    · exact ih hout hrest
    · have hnext : ∀ v ∈ addLine out u, Splits W v := by
        intro v hv
        rcases mem_addLine.mp hv with hv | rfl
        · exact hout v hv
        · exact splits_iff_hostOf.mpr ⟨host, hhost⟩
      rcases hcases with ⟨-, rfl⟩ | ⟨-, hrest⟩
      · exact hnext
      · exact ih hnext hrest

theorem scoreFallbacks_returns_iff {paths : List Str} :
    (scoreFallbacks W final paths).isOk = true ↔
      ∀ path ∈ paths, (scoreFixed W final path).isOk = true := by
  induction paths with
  | nil => simp [scoreFallbacks]
  | cons path paths ih =>
    rw [forall_mem_cons, ← ih, scoreFixed, scoreFallbacks]
    cases fallbackUrl W final path with
    | error e => simp [bind, Except.bind]
    | ok u =>
      cases hs : scoreUrl W.unicode u [] with
      | error e => simp [hs, bind, Except.bind]
      | ok s =>
        cases hrest : scoreFallbacks W final paths with
        | error e => simp [hs, bind, Except.bind]
        | ok rest => simp [hs, bind, Except.bind, pure, Except.pure]

theorem chooseFrom_returns_iff {limit : ℕ} {candidates : List ScoredUrl} {pages : List Str} :
    (chooseFrom W final limit candidates pages).isOk = true ↔
      (∀ u ∈ pages, Scores W u []) ∧
        (short (candidates ++ (scoreAll W (pages.map (·, []))).toOption.getD []) limit = true →
          ∀ path ∈ fixedFallbackPaths, (scoreFixed W final path).isOk = true) := by
  have hpages : (∀ u ∈ pages, Scores W u []) ↔ (scoreAll W (pages.map (·, []))).isOk = true := by
    rw [scoreAll_returns_iff, forall_mem_map]
  rw [hpages, ← scoreFallbacks_returns_iff, chooseFrom]
  cases hscored : scoreAll W (pages.map (·, [])) with
  | error e => simp [bind, Except.bind]
  | ok scored =>
    simp only [bind, Except.bind, isOk_ok, true_and, Except.toOption, Option.getD_some,
      short]
    split
    · rename_i hshort
      cases scoreFallbacks W final fixedFallbackPaths <;> simp [hshort, pure, Except.pure]
    · rename_i hshort
      simp [hshort, pure, Except.pure]

namespace Site

variable {S : Site} {final : SplitResult}

theorem sitemapPages_returns_iff (own : Str) :
    (S.sitemapPages W own).isOk = true ↔ (∀ u ∈ S.lineLooks W own, Splits W u) ∧
      ∀ x ∈ S.readings W own, ∀ u ∈ x.looks W own, Splits W u := by
  have hlines : (∀ u ∈ S.lineLooks W own, Splits W u) ↔
      (parseSitemaps W S.robots own).isOk = true :=
    (sitemapLoop_returns_iff maxSitemaps [] _).symm
  rw [hlines, sitemapPages, readings, firstWalk]
  cases hseeds : parseSitemaps W S.robots own with
  | error e => simp [bind, Except.bind]
  | ok seeds =>
    have hq : ∀ d ∈ seeds.map fun u => (u, 0), Splits W d.1 := by
      intro d hd
      obtain ⟨u, hu, rfl⟩ := mem_map.mp hd
      exact sitemapLoop_splits (by simp) hseeds u hu
    simp only [bind, Except.bind, isOk_ok, true_and, run_collectSitemapUrls, Except.toOption,
      Option.getD_some]
    refine andThen_returns_iff (x := ⟨⟨[], seeds.map (·, 0), false⟩, S.rootSitemap, 0⟩)
      fun w hread hfull => ?_
    exact run_fetchDocs_returns_iff maxSitemapDocs [] (readEntries_queue hq hread) hfull

section

variable (h : urlsplit W.unicode S.finalUrl = .ok final)

include h

theorem discover_eq :
    S.discover W = (extractLinks W S.html S.finalUrl >>= fun links => scoreAll W links >>=
      fun candidates =>
        if settled candidates then
          .ok (select candidates S.limit,
            { shortcut := true, fromLinks := candidates.length })
        else
          S.sitemapPages W (ownDomain W final) >>= chooseFrom W final S.limit candidates) := by
  unfold discover discoverPages
  rw [Coroutine.run_bind, Coroutine.run_lift, h]
  simp only [bind, Except.bind, pure, Except.pure]
  cases extractLinks W S.html S.finalUrl with
  | error e => rfl
  | ok links =>
    dsimp only
    cases scoreAll W links with
    | error e => rfl
    | ok candidates =>
      dsimp only
      change Coroutine.run S.docs (if settled candidates then _ else _) = _
      cases settled candidates with
      | true => rfl
      | false =>
        simp only [Bool.false_eq_true, if_false, Coroutine.run_bind, Coroutine.run_lift,
          sitemapPages, ownDomain, bind, Except.bind]
        cases parseSitemaps W S.robots _ <;> rfl

theorem discover_of_links (hlinks : ∀ n ∈ linkNodes W S.html, LinkSplits W S.finalUrl n)
    (hscored : ∀ l ∈ S.links W, Scores W l.1 l.2) :
    S.discover W =
      if settled (S.candidates W) then
        .ok (select (S.candidates W) S.limit,
          { shortcut := true, fromLinks := (S.candidates W).length })
      else
        S.sitemapPages W (ownDomain W final) >>=
          chooseFrom W final S.limit (S.candidates W) := by
  obtain ⟨links, hread⟩ := isOk_iff.mp ((linkLoop_returns_iff []).mpr hlinks)
  rw [← extractLinks_eq h] at hread
  obtain rfl : S.links W = links := toOption_getD_of_eq hread
  obtain ⟨candidates, hscore⟩ := isOk_iff.mp (scoreAll_returns_iff.mpr hscored)
  obtain rfl : S.candidates W = candidates := toOption_getD_of_eq hscore
  rw [discover_eq h, hread]
  simp only [bind, Except.bind, hscore]

theorem links_of_discover (hok : (S.discover W).isOk = true) :
    (∀ n ∈ linkNodes W S.html, LinkSplits W S.finalUrl n) ∧
      ∀ l ∈ S.links W, Scores W l.1 l.2 := by
  rw [discover_eq h, isOk_bind] at hok
  obtain ⟨links, hlinks, hok⟩ := hok
  obtain ⟨candidates, hcandidates, -⟩ := isOk_bind.mp hok
  constructor
  · rw [extractLinks_eq h] at hlinks
    exact (linkLoop_returns_iff []).mp (isOk_iff.mpr ⟨links, hlinks⟩)
  · rw [Site.links, toOption_getD_of_eq hlinks]
    exact scoreAll_returns_iff.mp (isOk_iff.mpr ⟨candidates, hcandidates⟩)

end

theorem choose_returns_iff (S : Site) (final : SplitResult) :
    (S.sitemapPages W (ownDomain W final) >>=
        chooseFrom W final S.limit (S.candidates W)).isOk = true ↔
      (∀ u ∈ S.lineLooks W (ownDomain W final), Splits W u) ∧
      (∀ x ∈ S.readings W (ownDomain W final), ∀ u ∈ x.looks W (ownDomain W final),
        Splits W u) ∧
      (∀ u ∈ S.pages W (ownDomain W final), Scores W u []) ∧
      (short (S.found W (ownDomain W final)) S.limit = true →
        ∀ path ∈ fixedFallbackPaths, (scoreFixed W final path).isOk = true) := by
  rw [← and_assoc, ← sitemapPages_returns_iff, isOk_bind, isOk_iff, found, Site.pages]
  constructor
  · intro h
    obtain ⟨pages, hpages, hchoose⟩ := h
    rw [toOption_getD_of_eq hpages]
    exact ⟨⟨pages, hpages⟩, chooseFrom_returns_iff.mp hchoose⟩
  · intro h
    obtain ⟨⟨pages, hpages⟩, hchoose⟩ := h
    rw [toOption_getD_of_eq hpages] at hchoose
    exact ⟨pages, hpages, chooseFrom_returns_iff.mpr hchoose⟩

theorem discover_returns_iff :
    (S.discover W).isOk = true ↔ ∃ final, S.Reads W final := by
  constructor
  · intro h
    obtain ⟨final, hsplit⟩ : ∃ final, urlsplit W.unicode S.finalUrl = .ok final := by
      cases hsplit : urlsplit W.unicode S.finalUrl with
      | ok final => exact ⟨final, rfl⟩
      | error e =>
        simp [discover, discoverPages, hsplit, bind, Except.bind, Coroutine.bind,
          Coroutine.lift, Coroutine.run] at h
    obtain ⟨hlinks, hscored⟩ := links_of_discover hsplit h
    rw [discover_of_links hsplit hlinks hscored] at h
    have hrest : settled (S.candidates W) = false → _ := fun hsettled =>
      (choose_returns_iff S final).mp (by rwa [hsettled] at h)
    exact ⟨final, hsplit, hlinks, hscored, fun hs => (hrest hs).1, fun hs => (hrest hs).2.1,
      fun hs => (hrest hs).2.2.1, fun hs => (hrest hs).2.2.2⟩
  · intro h
    obtain ⟨final, h⟩ := h
    rw [discover_of_links h.split h.links h.scored]
    cases hsettled : settled (S.candidates W) with
    | true => rfl
    | false =>
      exact (choose_returns_iff S final).mpr
        ⟨h.lines hsettled, h.entries hsettled, h.pages hsettled, h.fixed hsettled⟩

end Site

end Discovery

end EmailExtractor
