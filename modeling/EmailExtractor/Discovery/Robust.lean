import EmailExtractor.Discovery.Returns
import EmailExtractor.Library.Without

/-!
# Discovery and URLs that cannot be parsed

A site publishes URLs in its links, in robots.txt and in its sitemaps. A URL cannot
be parsed when `urlsplit` raises on it or when its port is not a decimal number in
range. Some of the parses of discovery are guarded and some are not, so such a URL
may be passed over or may end the whole discovery. Where discovery returns, such a URL
leaves no trace unless it is fetched as a document, it is one of as many pages as the walk
reads at most, or a line that raises is read in its place.
-/

namespace EmailExtractor

namespace Discovery

open Url Normalize List
open Except (isOk_iff)

def parses (W : Web) (url : Str) : Bool :=
  match urlsplit W.unicode url with
  | .error _ => false
  | .ok parts => parts.port.isOk

def Unparseable (W : Web) (url : Str) : Prop := parses W url = false

variable {W : Web} {own base url : Str}

theorem Unparseable.not_parses (h : Unparseable W url) : ¬ parses W url = true := by
  rw [show parses W url = false from h]
  exact Bool.false_ne_true

theorem scoreUrl_of_unparseable {anchor : Str} (hbad : Unparseable W url)
    (h : Scores W url anchor) : scoreUrl W.unicode url anchor = .ok none := by
  unfold Unparseable parses at hbad
  unfold Scores scoreUrl at h
  unfold scoreUrl
  cases hparts : urlsplit W.unicode url with
  | error e => simp [hparts, bind, Except.bind] at h
  | ok parts =>
    rw [hparts] at hbad
    cases hport : parts.port with
    | ok port => simp [hport] at hbad
    | error e =>
      have hcanon : canonical W.unicode url = .error e := by
        simp [canonical, hparts, hport, bind, Except.bind]
      simp only [hparts, hcanon, bind, Except.bind, pure, Except.pure] at h ⊢
      generalize (if parts.path = [] then ['/'] else parts.path) = path at h ⊢
      generalize (if anchorMatches W.unicode anchor then anchorBonus else 0) = bonus at h ⊢
      split_ifs at h ⊢
      · rfl
      · rfl
      · simp at h

theorem scoreAll_filter {us : List (Str × Str)}
    (h : ∀ u ∈ us, Unparseable W u.1 → Scores W u.1 u.2) :
    scoreAll W (us.filter fun u => parses W u.1) = scoreAll W us := by
  induction us with
  | nil => rfl
  | cons u us ih =>
    have hrest := ih fun v hv => h v (mem_cons_of_mem _ hv)
    cases hu : parses W u.1 with
    | true => simp only [filter_cons, hu, if_true, scoreAll, hrest]
    | false =>
      simp only [filter_cons, hu, Bool.false_eq_true, if_false, hrest, scoreAll,
        scoreUrl_of_unparseable hu (h u (mem_cons_self ..) hu)]
      cases scoreAll W us <;> rfl

/-! ## Homepage links -/

def LinkBad (W : Web) (base : Str) (node : Anchor) : Prop :=
  ∃ href, linkHref W node = some href ∧ ∀ u, resolve W base href = .ok u → Unparseable W u

def keptLink (W : Web) (own base : Str) (node : Anchor) : Option (Str × Str) :=
  (readLink W own base node).toOption.join

theorem readLink_of_splits {node : Anchor} (h : LinkSplits W base node) :
    readLink W own base node = .ok (keptLink W own base node) := by
  obtain ⟨link, hlink⟩ := isOk_iff.mp ((readLink_returns_iff own).mpr h)
  rw [keptLink, hlink]
  rfl

theorem keptLink_of_bad {node : Anchor} (hbad : LinkBad W base node) :
    ∀ l ∈ keptLink W own base node, Unparseable W l.1 := by
  intro l hl
  obtain ⟨href, hhref, hbad⟩ := hbad
  unfold keptLink readLink at hl
  rw [hhref] at hl
  cases hu : resolve W base href with
  | error e => simp [hu, Except.toOption] at hl
  | ok u =>
    cases hs : urlsplit W.unicode u with
    | error e => simp [hu, hs, bind, Except.bind, Except.toOption] at hl
    | ok parts =>
      simp only [hu, hs, bind, Except.bind, pure, Except.pure] at hl
      split at hl
      · cases hl
      · split at hl
        · cases hl
        · cases hl
          exact hbad u hu

def addLink (out : List (Str × Str)) (l : Str × Str) : List (Str × Str) :=
  if (out.map Prod.fst).contains l.1 then out else out ++ [l]

theorem linkLoop_eq {nodes : List Anchor} (h : ∀ n ∈ nodes, LinkSplits W base n)
    (out : List (Str × Str)) :
    linkLoop W own base out nodes =
      .ok ((nodes.filterMap (keptLink W own base)).foldl addLink out) := by
  induction nodes generalizing out with
  | nil => rfl
  | cons node nodes ih =>
    obtain ⟨hnode, hrest⟩ := forall_mem_cons.mp h
    rw [linkLoop, readLink_of_splits hnode, filterMap_cons]
    cases keptLink W own base node with
    | none => exact ih hrest out
    | some l =>
      dsimp only [bind, Except.bind]
      rw [foldl_cons, ← ih hrest, addLink]
      split <;> rfl

def goodLinks (W : Web) (out : List (Str × Str)) : List (Str × Str) :=
  out.filter fun l => parses W l.1

theorem goodLinks_addLink (out : List (Str × Str)) (l : Str × Str) :
    goodLinks W (addLink out l) =
      if parses W l.1 then addLink (goodLinks W out) l else goodLinks W out := by
  refine filter_ite_append fun hl => ?_
  rw [Bool.eq_iff_iff]
  simp only [contains_iff_mem, mem_map, goodLinks, mem_filter]
  constructor
  · rintro ⟨x, ⟨hx, -⟩, hxl⟩
    exact ⟨x, hx, hxl⟩
  · rintro ⟨x, hx, hxl⟩
    exact ⟨x, ⟨hx, by rw [hxl]; exact hl⟩, hxl⟩

theorem goodLinks_foldl (ls out : List (Str × Str)) :
    goodLinks W (ls.foldl addLink out) = (goodLinks W ls).foldl addLink (goodLinks W out) := by
  induction ls generalizing out with
  | nil => rfl
  | cons l ls ih =>
    rw [foldl_cons, ih, goodLinks_addLink]
    unfold goodLinks
    rw [filter_cons]
    split <;> rfl

theorem goodLinks_without (own : Str) {nodes nodes' : List Anchor}
    (hw : Without (LinkBad W base) nodes nodes') :
    goodLinks W (nodes'.filterMap (keptLink W own base)) =
      goodLinks W (nodes.filterMap (keptLink W own base)) := by
  unfold goodLinks
  induction hw with
  | nil => rfl
  | keep node _ ih =>
    rw [filterMap_cons, filterMap_cons]
    cases keptLink W own base node with
    | none => exact ih
    | some l => rw [filter_cons, filter_cons, ih]
  | @drop node _ _ hbad _ ih =>
    rw [filterMap_cons]
    cases hl : keptLink W own base node with
    | none => exact ih
    | some l => rw [filter_cons, if_neg (keptLink_of_bad hbad l hl).not_parses, ih]

theorem mem_foldl_addLink {ls out : List (Str × Str)} {l : Str × Str}
    (h : l ∈ ls.foldl addLink out) : l ∈ out ∨ l ∈ ls := by
  induction ls generalizing out with
  | nil => exact .inl h
  | cons l' ls ih =>
    rcases ih h with h | h
    · unfold addLink at h
      split at h
      · exact .inl h
      · refine (mem_append.mp h).imp_right fun h => ?_
        rw [mem_singleton.mp h]
        exact mem_cons_self ..
    · exact .inr (mem_cons_of_mem _ h)

theorem linkLoop_mem {nodes : List Anchor} (h : ∀ n ∈ nodes, LinkSplits W base n)
    {ls : List (Str × Str)} (hloop : linkLoop W own base [] nodes = .ok ls) :
    ∀ l ∈ ls, ∃ n ∈ nodes, keptLink W own base n = some l := by
  rw [linkLoop_eq h] at hloop
  obtain rfl := Except.ok.inj hloop
  exact fun l hl => mem_filterMap.mp ((mem_foldl_addLink hl).resolve_left not_mem_nil)

/-! ## robots.txt -/

theorem prefix_addLine (out : List Str) (u : Str) : out <+: addLine out u := by
  unfold addLine
  split
  · exact prefix_rfl
  · exact prefix_append _ _

theorem sitemapLoop_extends {limit : ℕ} {out urls seeds : List Str}
    (h : sitemapLoop W own limit out urls = .ok seeds) : out <+: seeds := by
  induction urls generalizing out with
  | nil =>
    cases h
    exact prefix_rfl
  | cons v urls ih =>
    rcases sitemapLoop_cons_cases h with ⟨-, hrest⟩ | ⟨-, ⟨-, rfl⟩ | ⟨-, hrest⟩⟩
    · exact ih hrest
    · exact prefix_addLine out v
    · exact (prefix_addLine out v).trans (ih hrest)

theorem sitemapLoop_taken {limit : ℕ} {out urls seeds : List Str}
    (h : sitemapLoop W own limit out urls = .ok seeds) :
    ∀ u ∈ seeds, u ∈ out ∨ LineTaken W own u := by
  induction urls generalizing out with
  | nil =>
    cases h
    exact fun u hu => .inl hu
  | cons v urls ih =>
    rcases sitemapLoop_cons_cases h with ⟨-, hrest⟩ | ⟨htaken, hcases⟩
    · exact ih hrest
    · have hadded : ∀ u ∈ addLine out v, u ∈ out ∨ LineTaken W own u := by
        intro u hu
        rcases mem_addLine.mp hu with hu | rfl
        · exact .inl hu
        · exact .inr htaken
      rcases hcases with ⟨-, rfl⟩ | ⟨-, hrest⟩
      · exact hadded
      · exact fun u hu => (ih hrest u hu).elim (hadded u) .inr

/-- Without some of the lines that cannot be parsed the same lines are taken up to one of
these. -/
theorem sitemapLoop_parts {limit : ℕ} {urls urls' : List Str}
    (hw : Without (Unparseable W) urls urls') {out seeds seeds' : List Str}
    (hroom : out.length < limit) (h : sitemapLoop W own limit out urls = .ok seeds)
    (h' : sitemapLoop W own limit out urls' = .ok seeds') :
    Parts (Unparseable W) seeds seeds' := by
  induction hw generalizing out with
  | nil => exact .inl (Except.ok.inj (h'.symm.trans h))
  | keep u _ ih =>
    rcases sitemapLoop_cons_cases h with
      ⟨hskipped, hrest⟩ | ⟨htaken, ⟨hlimit, rfl⟩ | ⟨hlimit, hrest⟩⟩
    · rw [sitemapLoop_of_skipped hskipped] at h'
      exact ih hroom hrest h'
    · rw [sitemapLoop_of_taken htaken, if_pos hlimit] at h'
      exact .inl (Except.ok.inj h').symm
    · rw [sitemapLoop_of_taken htaken, if_neg hlimit] at h'
      exact ih (Nat.lt_of_not_le hlimit) hrest h'
  | @drop u _ _ hbad _ ih =>
    rcases sitemapLoop_cons_cases h with ⟨-, hrest⟩ | ⟨-, hcases⟩
    · exact ih hroom hrest h'
    · by_cases hmem : u ∈ out
      · have hsame : addLine out u = out := if_pos (contains_iff_mem.mpr hmem)
        rw [hsame] at hcases
        rcases hcases with ⟨hlimit, -⟩ | ⟨-, hrest⟩
        · exact absurd hlimit (Nat.not_le.mpr hroom)
        · exact ih hroom hrest h'
      · -- from here on the two differ
        have hmore : addLine out u = out ++ [u] := if_neg (by simpa using hmem)
        have hprefix : out ++ [u] <+: seeds := by
          rw [hmore] at hcases
          rcases hcases with ⟨-, rfl⟩ | ⟨-, hrest⟩
          · exact prefix_rfl
          · exact sitemapLoop_extends hrest
        obtain ⟨r, rfl⟩ := hprefix
        obtain ⟨r', rfl⟩ := sitemapLoop_extends h'
        exact .inr ⟨out, u, r, r', by simp, rfl, hbad⟩

/-- The URL does not split, or its port can be read. -/
def readsPort (W : Web) (url : Str) : Bool :=
  match urlsplit W.unicode url with
  | .error _ => true
  | .ok parts => parts.port.isOk

theorem readsPort_of_hostOf {host : Str} (h : hostOf W url = .ok host) :
    readsPort W url = parses W url := by
  obtain ⟨parts, hparts, -⟩ := hostOf_ok_iff.mp h
  rw [readsPort, parses, hparts]

theorem filter_addLine (out : List Str) (u : Str) :
    (addLine out u).filter (parses W) =
      if parses W u then addLine (out.filter (parses W)) u else out.filter (parses W) := by
  refine filter_ite_append fun hu => ?_
  rw [Bool.eq_iff_iff, contains_iff_mem, contains_iff_mem, mem_filter]
  exact and_iff_left hu

/-- The reading returns without any of the lines that cannot be parsed, if it does without
those whose port cannot be read. -/
theorem sitemapLoop_without_returns {limit : ℕ} {urls urls' : List Str}
    (hw : Without (Unparseable W) urls urls') {out : List Str}
    (h : (sitemapLoop W own limit (out.filter (parses W)) (urls.filter (readsPort W))).isOk =
      true) : (sitemapLoop W own limit out urls').isOk = true := by
  induction hw generalizing out with
  | nil => rfl
  | keep u _ ih =>
    rw [filter_cons] at h
    rcases line_cases W own u with hskipped | htaken | ⟨hhttp, e, herror⟩
    · rw [sitemapLoop_of_skipped hskipped]
      split at h
      · rw [sitemapLoop_of_skipped hskipped] at h
        exact ih h
      · exact ih h
    · rw [sitemapLoop_of_taken htaken]
      split
      · rfl
      · rename_i hroom
        have ⟨_, host, hhost, _⟩ := htaken
        refine ih ?_
        rw [filter_addLine]
        rw [readsPort_of_hostOf hhost] at h
        split at h
        · rename_i hparses
          have hless : ((addLine out u).filter (parses W)).length < limit :=
            Nat.lt_of_le_of_lt (length_filter_le ..) (Nat.lt_of_not_le hroom)
          rw [filter_addLine, if_pos hparses] at hless
          rw [sitemapLoop_of_taken htaken, if_neg (Nat.not_le.mpr hless)] at h
          rwa [if_pos hparses]
        · rename_i hparses
          rwa [if_neg hparses]
    · have hport : readsPort W u = true := by
        unfold readsPort
        cases hparts : urlsplit W.unicode u with
        | error e => rfl
        | ok parts =>
          rw [hostOf_ok_iff.mpr ⟨parts, hparts, rfl⟩] at herror
          cases herror
      rw [if_pos hport, sitemapLoop, if_pos hhttp, herror] at h
      cases h
  | @drop u _ _ hbad _ ih =>
    rw [filter_cons] at h
    split at h
    · rename_i hport
      rcases line_cases W own u with hskipped | ⟨-, host, hhost, -⟩ | ⟨hhttp, e, herror⟩
      · rw [sitemapLoop_of_skipped hskipped] at h
        exact ih h
      · exact absurd (readsPort_of_hostOf hhost ▸ hport) hbad.not_parses
      · rw [sitemapLoop, if_pos hhttp, herror] at h
        cases h
    · exact ih h

/-! ## The walk over the sitemaps -/

/-- Fewer pages than the walk reads at most, or only pages that can be parsed. -/
def Fits (W : Web) (pages : List Str) : Prop :=
  maxUrls ≤ pages.length → ∀ u ∈ pages, parses W u = true

variable {pages us : List Str} {w : Walk} {depth : ℕ}

theorem Fits.of_extends {pages' : List Str} (h : Fits W pages') (hp : pages <+: pages') :
    Fits W pages := by
  intro hlength u hu
  exact h (hlength.trans hp.length_le) u (hp.subset hu)

/-- The documents of the queue that are not passed over as those of another site. -/
def live (W : Web) (own : Str) (queue : List (Str × ℕ)) : List (Str × ℕ) :=
  queue.filter fun d => onSite W own d.1

def BadDoc (W : Web) (d : Str × ℕ) : Prop := Unparseable W d.1

/-- `w'` has the pages of `w` without some that cannot be parsed, and the same queue up to a
document that cannot be. -/
structure Walk.Lacks (W : Web) (own : Str) (w w' : Walk) : Prop where
  pages : Without (Unparseable W) w.pages w'.pages
  queue : Parts (BadDoc W) (live W own w.queue) (live W own w'.queue)
  full : w'.full = w.full
  splits : ∀ d ∈ w'.queue, Splits W d.1

theorem live_append (queue more : List (Str × ℕ)) :
    live W own (queue ++ more) = live W own queue ++ live W own more :=
  filter_append ..

theorem addPages_extends {v : Walk} (h : addPages W own w us = .ok v) : w.pages <+: v.pages := by
  induction us generalizing w with
  | nil =>
    cases h
    exact prefix_rfl
  | cons u us ih =>
    obtain ⟨same, pages, _, hpages, hcases⟩ := addPages_cons_cases h
    have hgrow : w.pages <+: pages := by
      rw [hpages]
      cases same with
      | true => exact prefix_append _ _
      | false => exact prefix_rfl
    rcases hcases with ⟨_, rfl⟩ | ⟨_, hrest⟩
    · exact hgrow
    · exact hgrow.trans (ih hrest)

theorem addPages_room {v : Walk} (hroom : w.pages.length < maxUrls)
    (h : addPages W own w us = .ok v) (hfull : v.full = false) : v.pages.length < maxUrls := by
  induction us generalizing w with
  | nil =>
    cases h
    exact hroom
  | cons u us ih =>
    obtain ⟨_, pages, _, _, ⟨_, rfl⟩ | ⟨hlength, hrest⟩⟩ := addPages_cons_cases h
    · cases hfull
    · exact ih (w := { w with pages := pages }) hlength hrest

theorem addPages_without {us' : List Str} (hw : Without (Unparseable W) us us') {w' v : Walk}
    (hroom : w.pages.length < maxUrls) (hlacks : w.Lacks W own w')
    (h : addPages W own w us = .ok v) (hfits : Fits W v.pages) :
    ∃ v', addPages W own w' us' = .ok v' ∧ v.Lacks W own v' := by
  induction hw generalizing w w' with
  | nil =>
    cases h
    exact ⟨w', rfl, hlacks⟩
  | keep u _ ih =>
    obtain ⟨same, pages, hsame, hpages, hcases⟩ := addPages_cons_cases h
    have hlacking : Without (Unparseable W) pages
        (if same then w'.pages ++ [u] else w'.pages) := by
      rw [hpages]
      cases same with
      | true => exact hlacks.pages.append (.refl [u])
      | false => exact hlacks.pages
    rw [addPages]
    simp only [hsame, bind, Except.bind]
    generalize (if same then w'.pages ++ [u] else w'.pages) = pages' at hlacking ⊢
    rcases hcases with ⟨hlength, rfl⟩ | ⟨hlength, hrest⟩
    · -- the walk is full, so nothing is lacking
      have hgood : ∀ x ∈ pages, ¬ Unparseable W x := by
        exact fun x hx hbad => hbad.not_parses (hfits hlength x hx)
      obtain rfl := hlacking.eq_of_forall_not hgood
      rw [if_pos hlength]
      exact ⟨_, rfl, .refl _, hlacks.queue, rfl, hlacks.splits⟩
    · rw [if_neg (not_le.mpr (hlacking.length_le.trans_lt hlength))]
      exact ih (w := { w with pages := pages }) hlength
        ⟨hlacking, hlacks.queue, hlacks.full, hlacks.splits⟩ hrest
  | @drop u _ _ hbad _ ih =>
    obtain ⟨same, pages, _, hpages, hcases⟩ := addPages_cons_cases h
    have hlacking : Without (Unparseable W) pages w'.pages := by
      rw [hpages]
      cases same with
      | true => simpa using hlacks.pages.append (.drop hbad .nil)
      | false => exact hlacks.pages
    rcases hcases with ⟨hlength, rfl⟩ | ⟨hlength, hrest⟩
    · have hmem : u ∈ pages := by
        rw [hpages] at hlength ⊢
        cases same with
        | true => simp
        | false => exact absurd hlength (not_le.mpr hroom)
      exact absurd (hfits hlength u hmem) hbad.not_parses
    · exact ih (w := { w with pages := pages }) hlength
        ⟨hlacking, hlacks.queue, hlacks.full, hlacks.splits⟩ hrest

theorem childOrder_without {us' : List Str} (hw : Without (Unparseable W) us us') :
    Without (Unparseable W) (childOrder W us) (childOrder W us') :=
  ((hw.filter _).filter _).append ((hw.filter _).filter _)

theorem onSite_of_mem_queuedChildren {us : List Str} {depth : ℕ} {d : Str × ℕ}
    (h : d ∈ queuedChildren W own us depth) : onSite W own d.1 = true := by
  obtain ⟨c, hc, rfl⟩ := mem_map.mp h
  have hc := mem_of_mem_take hc
  simp only [childOrder, mem_append, mem_filter] at hc
  tauto

theorem live_queuedChildren (own : Str) (us : List Str) (depth : ℕ) :
    live W own (queuedChildren W own us depth) = queuedChildren W own us depth :=
  filter_eq_self.mpr fun _ hd => onSite_of_mem_queuedChildren hd

theorem queuedChildren_parts (own : Str) {us' : List Str} (hw : Without (Unparseable W) us us')
    (depth : ℕ) :
    Parts (BadDoc W) (queuedChildren W own us depth) (queuedChildren W own us' depth) :=
  ((childOrder_without (hw.filter _)).take_parts maxChildren).map _ fun _ hbad => hbad

/-- `t'` publishes the entries of the sitemap text `t` without some that cannot be
parsed. -/
def DocWithout (W : Web) (t t' : Str) : Prop :=
  Without (Unparseable W) (extractUrls W t).1 (extractUrls W t').1 ∧
    ((extractUrls W t').2 = (extractUrls W t).2 ∨ (extractUrls W t').1 = [])

theorem readEntries_nil (w : Walk) (isIndex : Bool) (depth : ℕ) :
    readEntries W own w [] isIndex depth = .ok w := by
  unfold readEntries
  cases isIndex with
  | false => rfl
  | true =>
    rw [if_pos rfl]
    split
    · rfl
    · change Except.ok ({ w with queue := w.queue ++ [] } : Walk) = .ok w
      rw [append_nil]

theorem readDoc_without {t t' : Str} (hdoc : DocWithout W t t') (w w' : Walk) {v : Walk}
    (hroom : w.pages.length < maxUrls) (hlacks : w.Lacks W own w')
    (h : readDoc W own w t depth = .ok v) (hfits : Fits W v.pages) :
    ∃ v', readDoc W own w' t' depth = .ok v' ∧ v.Lacks W own v' := by
  obtain ⟨hw, hindex⟩ := hdoc
  unfold readDoc at h ⊢
  -- a document without entries is read the same as an index and as a list of pages
  have hsame : readEntries W own w' (extractUrls W t').1 (extractUrls W t').2 depth =
      readEntries W own w' (extractUrls W t').1 (extractUrls W t).2 depth := by
    rcases hindex with hindex | hnil
    · rw [hindex]
    · rw [hnil, readEntries_nil, readEntries_nil]
  rw [hsame]
  rcases readEntries_cases h with
    ⟨hisIndex, h⟩ | ⟨hisIndex, hdepth, rfl⟩ | ⟨hisIndex, hdepth, hsplits, rfl⟩
  · rw [hisIndex]
    exact addPages_without hw hroom hlacks h hfits
  · rw [hisIndex, readEntries, if_pos rfl, if_pos hdepth]
    exact ⟨w', rfl, hlacks⟩
  · have hread : readEntries W own w' (extractUrls W t').1 true depth = .ok _ :=
      readIndex_eq hdepth fun u hu => hsplits u (hw.subset u hu)
    rw [hisIndex, hread]
    refine ⟨_, rfl, hlacks.pages, ?_, hlacks.full, readEntries_queue hlacks.splits hread⟩
    rw [live_append, live_append, live_queuedChildren, live_queuedChildren]
    exact hlacks.queue.append (queuedChildren_parts own hw depth)

theorem readDoc_extends {v : Walk} {t : Str} (h : readDoc W own w t depth = .ok v) :
    w.pages <+: v.pages := by
  rcases readEntries_cases h with ⟨-, h⟩ | ⟨-, -, rfl⟩ | ⟨-, -, -, rfl⟩
  · exact addPages_extends h
  · exact prefix_rfl
  · exact prefix_rfl

theorem readDoc_room {v : Walk} {t : Str} (hroom : w.pages.length < maxUrls)
    (h : readDoc W own w t depth = .ok v) (hfull : v.full = false) : v.pages.length < maxUrls := by
  rcases readEntries_cases h with ⟨-, h⟩ | ⟨-, -, rfl⟩ | ⟨-, -, -, rfl⟩
  · exact addPages_room hroom h hfull
  · exact hroom
  · exact hroom

theorem run_fetchDocs_extends {docs : Str → Str} {budget : ℕ} {seen : List Str}
    (hfull : w.full = false) (h : (fetchDocs W own budget seen w).run docs = .ok pages) :
    w.pages <+: pages := by
  induction budget generalizing seen w with
  | zero =>
    cases h
    exact prefix_rfl
  | succ budget ih =>
    rcases run_fetchDocs_cases hfull h with
      ⟨-, rfl⟩ | ⟨u, depth, queue, v, -, hread, ⟨-, rfl⟩ | ⟨hv, h⟩⟩
    · exact prefix_rfl
    · exact readDoc_extends (w := ⟨w.pages, queue, w.full⟩) hread
    · exact (readDoc_extends (w := ⟨w.pages, queue, w.full⟩) hread).trans (ih hv h)

theorem live_seeds {own' : Str} {seeds : List Str} (h : ∀ u ∈ seeds, LineTaken W own' u) :
    live W own (seeds.map (·, 0)) = if own' = own then seeds.map (·, 0) else [] := by
  have hon : ∀ d ∈ seeds.map fun u => (u, 0), onSite W own d.1 = decide (own' = own) := by
    refine forall_mem_map.mpr fun u hu => ?_
    obtain ⟨-, host, hhost, hdomain⟩ := h u hu
    obtain ⟨hne, hown⟩ := not_or.mp hdomain
    rw [onSite, sameSite_of_hostOf hhost]
    simp [hne, not_ne_iff.mp hown]
  unfold live
  split
  · rename_i hsame
    exact filter_eq_self.mpr fun d hd => (hon d hd).trans (decide_eq_true hsame)
  · rename_i hother
    refine filter_eq_nil_iff.mpr fun d hd => ?_
    rw [hon d hd, decide_eq_false hother]
    exact Bool.false_ne_true

theorem live_seeds_parts {own' : Str} {limit : ℕ} {urls urls' seeds seeds' : List Str}
    (hw : Without (Unparseable W) urls urls')
    (h : sitemapLoop W own' (limit + 1) [] urls = .ok seeds)
    (h' : sitemapLoop W own' (limit + 1) [] urls' = .ok seeds') :
    Parts (BadDoc W) (live W own (seeds.map (·, 0))) (live W own (seeds'.map (·, 0))) := by
  have htaken : ∀ {urls seeds : List Str}, sitemapLoop W own' (limit + 1) [] urls = .ok seeds →
      ∀ u ∈ seeds, LineTaken W own' u :=
    fun h u hu => (sitemapLoop_taken h u hu).resolve_left not_mem_nil
  rw [live_seeds (htaken h), live_seeds (htaken h')]
  split
  · exact (sitemapLoop_parts hw (Nat.succ_pos limit) h h').map _ fun _ hbad => hbad
  · exact .inl rfl

theorem nextDoc_live {seen : List Str} {queue : List (Str × ℕ)}
    {next : Option ((Str × ℕ) × List (Str × ℕ))} (hq : ∀ d ∈ queue, Splits W d.1)
    (h : nextDoc W own seen queue = .ok next) :
    (live W own queue).dropWhile (fun d => seen.contains d.1) =
      next.elim [] fun n => n.1 :: live W own n.2 := by
  induction queue with
  | nil =>
    cases h
    rfl
  | cons d queue ih =>
    have hrest := ih fun d hd => hq d (mem_cons_of_mem _ hd)
    rw [nextDoc] at h
    unfold live at hrest ⊢
    rw [filter_cons]
    split at h
    · rename_i hseen
      split
      · rw [dropWhile_cons, if_pos hseen]
        exact hrest h
      · exact hrest h
    · rename_i hnew
      simp only [sameSite_of_splits (hq d (mem_cons_self ..)), bind, Except.bind] at h
      split at h
      · rename_i hon
        cases h
        rw [if_pos hon, dropWhile_cons, if_neg hnew]
        rfl
      · rename_i hoff
        rw [if_neg hoff]
        exact hrest h

theorem nextDoc_parts {seen : List Str} {queue queue' : List (Str × ℕ)}
    (hparts : Parts (BadDoc W) (live W own queue) (live W own queue'))
    (hq : ∀ d ∈ queue, Splits W d.1) (hq' : ∀ d ∈ queue', Splits W d.1)
    (hseen : ∀ u ∈ seen, parses W u = true) {next : Option ((Str × ℕ) × List (Str × ℕ))}
    (h : nextDoc W own seen queue = .ok next) (hnext : ∀ n ∈ next, parses W n.1.1 = true) :
    ∃ next', nextDoc W own seen queue' = .ok next' ∧
      (next = none ∧ next' = none ∨ ∃ d rest rest', next = some (d, rest) ∧
        next' = some (d, rest') ∧ Parts (BadDoc W) (live W own rest) (live W own rest') ∧
        ∀ d ∈ rest', Splits W d.1) := by
  have hnew : ∀ d : Str × ℕ, BadDoc W d → seen.contains d.1 = false := by
    intro d hbad
    rw [← Bool.not_eq_true, contains_iff_mem]
    exact fun hmem => hbad.not_parses (hseen d.1 hmem)
  have hlive := nextDoc_live hq h
  obtain ⟨next', h', hrest'⟩ := nextDoc_returns own seen hq'
  have hlive' := nextDoc_live hq' h'
  refine ⟨next', h', ?_⟩
  cases next with
  | none =>
    rw [hparts.dropWhile_eq_nil hnew hlive] at hlive'
    cases next' with
    | none => exact .inl ⟨rfl, rfl⟩
    | some n => cases hlive'
  | some n =>
    have hgood : ¬ BadDoc W n.1 := fun hbad => hbad.not_parses (hnext n rfl)
    obtain ⟨t', ht', hmore⟩ := hparts.dropWhile hnew hlive hgood
    rw [ht'] at hlive'
    cases next' with
    | none => cases hlive'
    | some n' =>
      obtain ⟨hhead, rfl⟩ := List.cons.inj hlive'
      refine .inr ⟨n.1, n.2, n'.2, rfl, ?_, hmore, fun d hd => hq' d (hrest' n' rfl d hd)⟩
      rw [hhead]

theorem asked_fetchDocs {docs : Str → Str} {budget : ℕ} {seen : List Str} {u : Str}
    {queue : List (Str × ℕ)} {v : Walk} (hfull : w.full = false)
    (hnext : nextDoc W own seen w.queue = .ok (some ((u, depth), queue)))
    (hread : readDoc W own ⟨w.pages, queue, w.full⟩ (docs u) depth = .ok v) :
    (fetchDocs W own (budget + 1) seen w).asked docs =
      u :: if v.full then [] else (fetchDocs W own budget (u :: seen) v).asked docs := by
  rw [fetchDocs, hnext]
  by_cases htext : docs u = []
  · rw [htext, readDoc_nil] at hread
    cases hread
    simp [Coroutine.bind, Coroutine.lift, Coroutine.asked, htext, hfull]
  · simp only [Coroutine.bind, Coroutine.lift, Coroutine.asked, htext, if_false, hread]
    split
    · rfl
    · rfl

theorem run_fetchDocs_without {docs docs' : Str → Str}
    (hdocs : ∀ d, DocWithout W (docs d) (docs' d)) {budget : ℕ} {seen : List Str} {w' : Walk}
    (hfull : w.full = false) (hroom : w.pages.length < maxUrls) (hlacks : w.Lacks W own w')
    (hq : ∀ d ∈ w.queue, Splits W d.1) (hseen : ∀ u ∈ seen, parses W u = true)
    (hfetched : ∀ u ∈ (fetchDocs W own budget seen w).asked docs, parses W u = true)
    (h : (fetchDocs W own budget seen w).run docs = .ok pages) (hfits : Fits W pages) :
    ∃ pages', (fetchDocs W own budget seen w').run docs' = .ok pages' ∧
      Without (Unparseable W) pages pages' := by
  induction budget generalizing seen w w' with
  | zero =>
    cases h
    exact ⟨w'.pages, rfl, hlacks.pages⟩
  | succ budget ih =>
    rw [run_fetchDocs_succ docs' budget seen (hlacks.full.trans hfull)]
    rcases run_fetchDocs_cases hfull h with ⟨hnext, rfl⟩ | ⟨u, depth, queue, v, hnext, hread, h⟩
    · obtain ⟨next', hnext', ⟨-, rfl⟩ | ⟨_, _, _, hsome, -⟩⟩ :=
        nextDoc_parts hlacks.queue hq hlacks.splits hseen hnext (by simp)
      · rw [hnext']
        exact ⟨w'.pages, rfl, hlacks.pages⟩
      · cases hsome
    · rw [asked_fetchDocs hfull hnext hread] at hfetched
      obtain ⟨hparses, hrest⟩ := forall_mem_cons.mp hfetched
      obtain ⟨next', hnext', ⟨hnone, -⟩ | ⟨d, rest, rest', hsome, rfl, hmore, hsplits⟩⟩ :=
        nextDoc_parts hlacks.queue hq hlacks.splits hseen hnext (by simpa using hparses)
      · cases hnone
      · obtain ⟨rfl, rfl⟩ := Prod.mk.inj (Option.some.inj hsome)
        rw [hnext']
        have hextends : v.pages <+: pages := by
          rcases h with ⟨-, rfl⟩ | ⟨hv, h⟩
          · exact prefix_rfl
          · exact run_fetchDocs_extends hv h
        obtain ⟨v', hv', hlacks'⟩ := readDoc_without (hdocs u) ⟨w.pages, queue, w.full⟩
          { w' with queue := rest' } hroom ⟨hlacks.pages, hmore, hlacks.full, hsplits⟩ hread
          (hfits.of_extends hextends)
        simp only [bind, Except.bind, hv', hlacks'.full]
        rcases h with ⟨hv, rfl⟩ | ⟨hv, h⟩
        · rw [hv]
          exact ⟨v'.pages, rfl, hlacks'.pages⟩
        · rw [hv] at hrest ⊢
          have hqueue : ∀ d ∈ queue, Splits W d.1 := by
            obtain ⟨next, hreturned, hmem⟩ := nextDoc_returns own seen hq
            rw [hnext] at hreturned
            obtain rfl := Except.ok.inj hreturned
            exact fun d hd => hq d (hmem _ rfl d hd)
          have hq' := readEntries_queue (w := ⟨w.pages, queue, w.full⟩) hqueue hread
          exact ih hv (readDoc_room (w := ⟨w.pages, queue, w.full⟩) hroom hread hv) hlacks' hq'
            (forall_mem_cons.mpr ⟨hparses, hseen⟩) hrest h

/-! ## Discovery -/

/-- `S'` is the site without some of its links, `Sitemap:` lines and sitemap entries
whose URL cannot be parsed. -/
structure SiteWithout (W : Web) (S S' : Site) : Prop where
  finalUrl : S'.finalUrl = S.finalUrl
  limit : S'.limit = S.limit
  links : Without (LinkBad W S.finalUrl) (linkNodes W S.html) (linkNodes W S'.html)
  lines : Without (Unparseable W) (sitemapLines W S.robots) (sitemapLines W S'.robots)
  root : DocWithout W S.rootSitemap S'.rootSitemap
  docs : ∀ d, DocWithout W (S.docs d) (S'.docs d)

namespace Site

/-- Discovery returns, and what it selects is what it selects without the entries that
cannot be parsed. -/
def Ignores (W : Web) (S : Site) : Prop :=
  ∃ r, S.discover W = .ok r ∧
    ∀ S', SiteWithout W S S' → ∃ r', S'.discover W = .ok r' ∧ r'.1 = r.1

/-- The URLs of the documents that are fetched. -/
def fetched (W : Web) (S : Site) (own : Str) : List Str :=
  (collectSitemapUrls W own [S.rootSitemap]
    ((parseSitemaps W S.robots own).toOption.getD [])).asked S.docs

/-- robots.txt read without the lines whose port cannot be read. -/
def portlessLines (W : Web) (S : Site) (own : Str) : Except ValueError (List Str) :=
  sitemapLoop W (registrable W.extract own) maxSitemaps []
    ((sitemapLines W S.robots).filter (readsPort W))

/-- Nothing that cannot be parsed is followed: scoring drops such a link wherever it
stands, no such document is fetched, and no such page counts towards the limit of pages.
And the lines that are read in place of those whose port cannot be read raise nothing. -/
@[mk_iff] structure Unfollowed (W : Web) (S : Site) (final : SplitResult) : Prop where
  links : ∀ n ∈ linkNodes W S.html, ∀ l ∈ keptLink W (ownDomain W final) S.finalUrl n,
    parses W l.1 = false → Scores W l.1 l.2
  lines : settled (S.candidates W) = false →
    (S.portlessLines W (ownDomain W final)).isOk = true
  fetched : settled (S.candidates W) = false → ∀ u ∈ S.fetched W (ownDomain W final),
    parses W u = true
  pages : settled (S.candidates W) = false → maxUrls ≤ (S.pages W (ownDomain W final)).length →
    ∀ u ∈ S.pages W (ownDomain W final), parses W u = true

instance (W : Web) (S : Site) (final : SplitResult) : Decidable (S.Unfollowed W final) :=
  decidable_of_iff _ (unfollowed_iff W S final).symm

variable {S S' : Site} {final : SplitResult}

section

variable (hw : SiteWithout W S S') (h : S.Reads W final) (hu : S.Unfollowed W final)

include hw h hu

theorem links_without :
    goodLinks W (S'.links W) = goodLinks W (S.links W) ∧
      ∀ l ∈ S'.links W, Unparseable W l.1 → Scores W l.1 l.2 := by
  have hsplits' : ∀ n ∈ linkNodes W S'.html, LinkSplits W S.finalUrl n :=
    fun n hn => h.links n (hw.links.subset n hn)
  have hls := @linkLoop_eq _ (ownDomain W final) _ _ h.links []
  have hls' := @linkLoop_eq _ (ownDomain W final) _ _ hsplits' []
  have hmem := linkLoop_mem hsplits' hls'
  rw [← extractLinks_eq h.split] at hls hls'
  have hlinks := toOption_getD_of_eq hls
  have hlinks' := toOption_getD_of_eq hls'
  rw [← hw.finalUrl] at hlinks'
  rw [links, links, hlinks, hlinks', goodLinks_foldl, goodLinks_foldl, hw.finalUrl,
    goodLinks_without _ hw.links]
  refine ⟨rfl, fun l hl hbad => ?_⟩
  obtain ⟨n, hn, hl⟩ := hmem l hl
  exact hu.links n (hw.links.subset n hn) l hl hbad

theorem reads_links_without :
    S'.candidates W = S.candidates W ∧ ∀ l ∈ S'.links W, Scores W l.1 l.2 := by
  obtain ⟨hgood, hscores'⟩ := links_without hw h hu
  have hfilter : scoreAll W (goodLinks W (S.links W)) = scoreAll W (S.links W) :=
    scoreAll_filter fun l hl _ => h.scored l hl
  have hfilter' : scoreAll W (goodLinks W (S'.links W)) = scoreAll W (S'.links W) :=
    scoreAll_filter hscores'
  have hsame : scoreAll W (S'.links W) = scoreAll W (S.links W) := by
    rw [← hfilter', hgood, hfilter]
  refine ⟨by rw [candidates, candidates, hsame], ?_⟩
  rw [← scoreAll_returns_iff, hsame, scoreAll_returns_iff]
  exact h.scored

theorem sitemapPages_without (hsettled : settled (S.candidates W) = false) :
    ∃ pages, S.sitemapPages W (ownDomain W final) = .ok pages ∧
      ∃ pages', S'.sitemapPages W (ownDomain W final) = .ok pages' ∧
        Without (Unparseable W) pages pages' := by
  obtain ⟨pages, hpages⟩ := isOk_iff.mp
    ((sitemapPages_returns_iff _).mpr ⟨h.lines hsettled, h.entries hsettled⟩)
  have hfits : Fits W pages := by
    have hfits := hu.pages hsettled
    rwa [Site.pages, toOption_getD_of_eq hpages] at hfits
  refine ⟨pages, hpages, ?_⟩
  have hfetched := hu.fetched hsettled
  unfold sitemapPages at hpages ⊢
  unfold Site.fetched at hfetched
  have hlines : (sitemapLoop W (registrable W.extract (ownDomain W final)) maxSitemaps []
      (sitemapLines W S'.robots)).isOk = true :=
    @sitemapLoop_without_returns _ _ _ _ _ hw.lines [] (hu.lines hsettled)
  obtain ⟨seeds', hseeds'⟩ := isOk_iff.mp hlines
  obtain ⟨seeds, hseeds, hpages⟩ := Except.bind_eq_ok.mp hpages
  rw [hseeds] at hfetched
  rw [run_collectSitemapUrls, Except.bind_eq_ok] at hpages
  obtain ⟨v, hread, hpages⟩ := hpages
  have hsplits : ∀ d ∈ seeds.map fun u => (u, 0), Splits W d.1 :=
    forall_mem_map.mpr (sitemapLoop_splits (by simp) hseeds)
  have hsplits' : ∀ d ∈ seeds'.map fun u => (u, 0), Splits W d.1 :=
    forall_mem_map.mpr (sitemapLoop_splits (by simp) hseeds')
  have hroom : ([] : List Str).length < maxUrls := Nat.zero_lt_succ _
  have hextends : v.pages <+: pages := by
    split at hpages
    · cases hpages
      exact prefix_rfl
    · rename_i hv
      exact run_fetchDocs_extends (by simpa using hv) hpages
  have hlacks : Walk.Lacks W (ownDomain W final) ⟨[], seeds.map (·, 0), false⟩
      ⟨[], seeds'.map (·, 0), false⟩ :=
    ⟨.nil, live_seeds_parts hw.lines hseeds hseeds', rfl, hsplits'⟩
  obtain ⟨v', hv', hlacks'⟩ := readDoc_without hw.root _ _ hroom hlacks hread
    (hfits.of_extends hextends)
  have hreturned : parseSitemaps W S'.robots (ownDomain W final) = .ok seeds' := hseeds'
  simp only [hreturned, bind, Except.bind, run_collectSitemapUrls, hv', hlacks'.full]
  cases hv : v.full with
  | true =>
    rw [hv] at hpages
    cases hpages
    exact ⟨v'.pages, rfl, hlacks'.pages⟩
  | false =>
    rw [hv] at hpages
    have hasked : (collectSitemapUrls W (ownDomain W final) [S.rootSitemap] seeds).asked S.docs =
        (fetchDocs W (ownDomain W final) maxSitemapDocs [] v).asked S.docs := by
      rw [collectSitemapUrls, readSeeds_root, hread]
      simp [Coroutine.bind, Coroutine.lift, hv]
    rw [Except.toOption, Option.getD_some, hasked] at hfetched
    exact run_fetchDocs_without hw.docs hv (readDoc_room hroom hread hv) hlacks'
      (readEntries_queue hsplits hread) (by simp) hfetched hpages hfits

end

theorem chooseFrom_without {limit : ℕ} {candidates : List ScoredUrl} {pages' : List Str}
    (hw : Without (Unparseable W) pages pages') (h : ∀ u ∈ pages, Scores W u []) :
    chooseFrom W final limit candidates pages' = chooseFrom W final limit candidates pages := by
  have hfilter : ∀ ps : List Str, (∀ u ∈ ps, Scores W u []) →
      scoreAll W ((ps.filter (parses W)).map (·, [])) = scoreAll W (ps.map (·, [])) := by
    intro ps hps
    have hscores : ∀ u ∈ ps.map (·, ([] : Str)), Unparseable W u.1 → Scores W u.1 u.2 := by
      intro u hu _
      obtain ⟨v, hv, rfl⟩ := mem_map.mp hu
      exact hps v hv
    rw [← scoreAll_filter hscores, filter_map]
    rfl
  have hsame : scoreAll W (pages'.map (·, [])) = scoreAll W (pages.map (·, [])) := by
    rw [← hfilter pages h, ← hfilter pages' fun u hu => h u (hw.subset u hu),
      hw.filter_eq fun u _ hbad => hbad]
  unfold chooseFrom
  rw [hsame]

end Site

/-- Where discovery ignores the entries that cannot be parsed, every parse it makes outside
the guard returns. That is enough when nothing that cannot be parsed is followed. -/
theorem discovery_ignores_unparseable (W : Web) (S : Site) :
    (S.Ignores W → ∃ final, S.Reads W final) ∧
      ∀ final, S.Reads W final → S.Unfollowed W final → S.Ignores W := by
  constructor
  · intro h
    obtain ⟨r, hr, -⟩ := h
    exact Site.discover_returns_iff.mp (isOk_iff.mpr ⟨r, hr⟩)
  · intro final h hu
    obtain ⟨r, hr⟩ := isOk_iff.mp (Site.discover_returns_iff.mpr ⟨final, h⟩)
    refine ⟨r, hr, fun S' hw => ⟨r, ?_, rfl⟩⟩
    obtain ⟨hcandidates, hscored'⟩ := Site.reads_links_without hw h hu
    have hsplit' : urlsplit W.unicode S'.finalUrl = .ok final := by rw [hw.finalUrl, h.split]
    have hlinks' : ∀ n ∈ linkNodes W S'.html, LinkSplits W S'.finalUrl n := by
      rw [hw.finalUrl]
      exact fun n hn => h.links n (hw.links.subset n hn)
    rw [Site.discover_of_links h.split h.links h.scored] at hr
    rw [Site.discover_of_links hsplit' hlinks' hscored', hcandidates, hw.limit]
    cases hsettled : settled (S.candidates W) with
    | true =>
      rw [hsettled] at hr
      exact hr
    | false =>
      rw [hsettled] at hr
      obtain ⟨pages, hpages, pages', hpages', hwithout⟩ :=
        Site.sitemapPages_without hw h hu hsettled
      have hscores := h.pages hsettled
      rw [Site.pages, toOption_getD_of_eq hpages] at hscores
      simp only [hpages, bind, Except.bind] at hr
      simp only [hpages', bind, Except.bind]
      rw [Site.chooseFrom_without hwithout hscores]
      exact hr

/-! ## Runs -/

section Example

def oneLabelSuffix (host : Str) : ExtractResult :=
  match (host.splitOn '.').reverse with
  | suffix :: domain :: sub => ⟨Str.join ['.'] sub.reverse, domain, suffix⟩
  | _ => ⟨[], host, []⟩

def exampleWeb (anchors : Str → List Anchor) : Web where
  unicode := .ascii
  extract := oneLabelSuffix
  anchors := anchors
  unescape := id

def exampleLinks : Str → List Anchor := fun html =>
  if html = "port".toList then [⟨"http://acme.com:abc/contact".toList, "Contact".toList⟩]
  else if html = "foreign".toList then
    [⟨"http://[bad".toList, "Contact".toList⟩,
      ⟨"http://other.com:abc/contact".toList, "Contact".toList⟩,
      ⟨"http://acme.com:abc/shop".toList, "Shop".toList⟩,
      ⟨"/contact".toList, "Contact".toList⟩]
  else []

def exampleSite (html robots root : String) (doc : String) : Site where
  finalUrl := "https://acme.com/".toList
  html := html.toList
  robots := robots.toList
  rootSitemap := root.toList
  docs _ := doc.toList
  limit := 4

/-- A link with a port that is no number, a `Sitemap:` line and a `<loc>` with an open
bracket, and a `<loc>` of a fetched sitemap with a port out of range each end the
discovery of a site that without the entry is discovered. -/
theorem unparseable_url_ends_discovery :
    (exampleSite "port" "" "" "").discover (exampleWeb exampleLinks) = .error .valueError ∧
    (exampleSite "" "Sitemap: http://[bad/s.xml" "" "").discover (exampleWeb exampleLinks) =
      .error .valueError ∧
    (exampleSite "" "" "<loc>http://[bad/</loc>" "").discover (exampleWeb exampleLinks) =
      .error .valueError ∧
    (exampleSite "" "Sitemap: https://acme.com/s.xml" ""
      "<loc>https://acme.com:99999/about</loc>").discover (exampleWeb exampleLinks) =
      .error .valueError ∧
    ((exampleSite "" "" "" "").discover (exampleWeb exampleLinks)).isOk := by
  decide +kernel

def exampleFinal : SplitResult := ⟨"https".toList, "acme.com".toList, ['/'], [], []⟩

/-- The homepage has a link the guard catches, a link to another site with a port that is no
number and a link on the site with such a port that gets no score, and robots.txt a fifth
line with such a port. -/
def foreignSite : Site :=
  exampleSite "foreign" ("Sitemap: https://acme.com/1.xml\nSitemap: https://acme.com/2.xml\n" ++
    "Sitemap: https://acme.com/3.xml\nSitemap: https://acme.com/4.xml\n" ++
    "Sitemap: https://acme.com:abc/5.xml") "" ""

theorem foreignSite_reads : foreignSite.Reads (exampleWeb exampleLinks) exampleFinal := by
  decide +kernel

theorem foreignSite_unfollowed :
    foreignSite.Unfollowed (exampleWeb exampleLinks) exampleFinal := by
  decide +kernel

/-- What cannot be parsed does not disturb the discovery of the example: the fifth line is
taken, but only four documents are fetched. -/
theorem foreign_links_ignored :
    foreignSite.Reads (exampleWeb exampleLinks) exampleFinal ∧
      foreignSite.Unfollowed (exampleWeb exampleLinks) exampleFinal ∧
      (parseSitemaps (exampleWeb exampleLinks) foreignSite.robots "acme.com".toList).toOption.map
        List.length = some maxSitemaps ∧
      foreignSite.Ignores (exampleWeb exampleLinks) :=
  ⟨foreignSite_reads, foreignSite_unfollowed, by decide +kernel,
    (discovery_ignores_unparseable (exampleWeb exampleLinks) foreignSite).2 exampleFinal
      foreignSite_reads foreignSite_unfollowed⟩

end Example

end Discovery

end EmailExtractor
