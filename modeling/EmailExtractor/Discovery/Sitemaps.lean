import EmailExtractor.Discovery.SameSite

/-!
# The bounds of the walk over the sitemaps

The loop of `collect_sitemap_urls` as it is written runs over two lists that grow while it
runs. Each of its rounds takes an entry from one of them; a text adds at most three
documents to the queue, and only as many are fetched as the budget allows, so the loop ends.
The documents fetched are the ones marked as seen, and each queued document carries the
number of indexes between it and a seed.
-/

namespace EmailExtractor

namespace Discovery

open Url Normalize List

structure Collecting where
  pages : List Str
  seen : List Str
  budget : ℕ
  queue : List (Str × ℕ)
  texts : List (Str × ℕ)

namespace Collecting

variable (W : Web) (own : Str)

def start (seedTexts seedUrls : List Str) : Collecting where
  pages := []
  seen := []
  budget := maxSitemapDocs
  queue := seedUrls.map (·, 0)
  texts := (seedTexts.filter (· ≠ [])).map (·, 0)

def read (s : Collecting) (text : Str) (depth : ℕ) :
    Except ValueError (List Str ⊕ Collecting) := do
  let w ← readDoc W own ⟨s.pages, s.queue, false⟩ text depth
  return if w.full then .inl w.pages else .inr { s with pages := w.pages, queue := w.queue }

def fetching (s : Collecting) (url : Str) (queue : List (Str × ℕ)) : Collecting :=
  { s with seen := url :: s.seen, budget := s.budget - 1, queue := queue }

def receive (s : Collecting) (text : Str) (depth : ℕ) :
    Except ValueError (List Str ⊕ Collecting) :=
  if text = [] then .ok (.inr s) else s.read W own text depth

/-- A round of the loop: the pages when it is left, and otherwise the variables after it. -/
def round (s : Collecting) : Fetching (List Str ⊕ Collecting) :=
  match s.texts, s.queue with
  | (text, depth) :: texts, _ => .lift (read W own { s with texts := texts } text depth)
  | [], [] => .ret (.inl s.pages)
  | [], (url, depth) :: queue =>
    if s.budget = 0 then .ret (.inl s.pages)
    else if s.seen.contains url then .ret (.inr { s with queue := queue })
    else
      .bind (.lift (sameSite W own url)) fun same =>
        if same then
          .ask url fun text => .lift ((s.fetching url queue).receive W own text depth)
        else .ret (.inr { s with queue := queue })

end Collecting

/-! ## Reading a text -/

section Read

variable {W : Web} {own : Str}

theorem addPages_spec {w v : Walk} {us : List Str} (hfew : w.pages.length < maxUrls)
    (hfull : w.full = false) (h : addPages W own w us = .ok v) :
    v.queue = w.queue ∧ v.pages.length ≤ maxUrls ∧
      (v.full = false → v.pages.length < maxUrls) ∧
      ∃ added, v.pages = w.pages ++ added ∧ ∀ u ∈ added, u ∈ us ∧ HasDomain W own u := by
  induction us generalizing w with
  | nil =>
    cases h
    exact ⟨rfl, Nat.le_of_lt hfew, fun _ => hfew, [], (append_nil _).symm, by simp⟩
  | cons u us ih =>
    obtain ⟨same, pages, hsame, hpages, hcases⟩ := addPages_cons_cases h
    have hnew : ∃ new, pages = w.pages ++ new ∧ new.length ≤ 1 ∧
        ∀ p ∈ new, p = u ∧ HasDomain W own p := by
      cases same with
      | false => exact ⟨[], by simpa using hpages, Nat.zero_le _, by simp⟩
      | true =>
        refine ⟨[u], by simpa using hpages, Nat.le_refl _, fun p hp => ?_⟩
        rw [mem_singleton.mp hp]
        exact ⟨rfl, hasDomain_of_sameSite hsame⟩
    obtain ⟨new, rfl, hlength, hnew⟩ := hnew
    rcases hcases with ⟨-, rfl⟩ | ⟨hroom, hrest⟩
    · refine ⟨rfl, ?_, ?_, new, rfl, fun p hp => ?_⟩
      · rw [length_append]
        exact Nat.le_trans (Nat.add_le_add_left hlength _) hfew
      · intro hno
        cases hno
      · obtain ⟨rfl, hdomain⟩ := hnew p hp
        exact ⟨mem_cons_self, hdomain⟩
    · obtain ⟨hqueue, hle, hlt, added, hadded, hmem⟩ :=
        ih (w := { w with pages := w.pages ++ new }) hroom hfull hrest
      refine ⟨hqueue, hle, hlt, new ++ added, ?_, fun p hp => ?_⟩
      · rw [hadded, append_assoc]
      · rcases mem_append.mp hp with hp | hp
        · obtain ⟨rfl, hdomain⟩ := hnew p hp
          exact ⟨mem_cons_self, hdomain⟩
        · exact ⟨mem_cons_of_mem _ (hmem p hp).1, (hmem p hp).2⟩

/-- The documents an index adds are entries of it, at most three, one step further away. -/
theorem queuedChildren_spec (W : Web) (own : Str) (us : List Str) (depth : ℕ) :
    (queuedChildren W own us depth).length ≤ maxChildren ∧
      ∀ d ∈ queuedChildren W own us depth, d.1 ∈ us ∧ d.2 = depth + 1 := by
  constructor
  · rw [queuedChildren, length_map]
    exact length_take_le _ _
  · intro d hd
    obtain ⟨c, hc, rfl⟩ := mem_map.mp hd
    have hc := mem_of_mem_take hc
    simp only [childOrder, mem_append, mem_filter] at hc
    exact ⟨by tauto, rfl⟩

inductive ReadCase (W : Web) (own : Str) (s : Collecting) (text : Str) (depth : ℕ) :
    Except ValueError (List Str ⊕ Collecting) → Prop
  | unparseable (e : ValueError) {u : Str} (hu : u ∈ (extractUrls W text).1)
      (hsplit : ¬ Splits W u) : ReadCase W own s text depth (.error e)
  | full {added : List Str} (hindex : (extractUrls W text).2 = false)
      (hlength : (s.pages ++ added).length ≤ maxUrls)
      (hadded : ∀ u ∈ added, u ∈ (extractUrls W text).1 ∧ HasDomain W own u) :
      ReadCase W own s text depth (.ok (.inl (s.pages ++ added)))
  | pages {added : List Str} (hindex : (extractUrls W text).2 = false)
      (hlength : (s.pages ++ added).length < maxUrls)
      (hadded : ∀ u ∈ added, u ∈ (extractUrls W text).1 ∧ HasDomain W own u) :
      ReadCase W own s text depth (.ok (.inr { s with pages := s.pages ++ added }))
  | deep : ReadCase W own s text depth (.ok (.inr s))
  | index {children : List (Str × ℕ)} (hindex : (extractUrls W text).2 = true)
      (hdepth : depth < maxDepth) (hlength : children.length ≤ maxChildren)
      (hchildren : ∀ d ∈ children,
        d.1 ∈ (extractUrls W text).1 ∧ d.2 = depth + 1 ∧ Splits W d.1) :
      ReadCase W own s text depth (.ok (.inr { s with queue := s.queue ++ children }))

theorem pageLooks_subset (n : ℕ) (us : List Str) : pageLooks W own n us ⊆ us := by
  induction us generalizing n with
  | nil => exact List.Subset.refl _
  | cons u us ih =>
    unfold pageLooks
    dsimp only
    refine cons_subset_cons u ?_
    generalize (if sameSite W own u = .ok true then n + 1 else n) = m
    split
    · exact nil_subset _
    · exact ih _

theorem entryLooks_subset {n : ℕ} {us : List Str} {isIndex : Bool} {depth : ℕ} :
    entryLooks W own n us isIndex depth ⊆ us := by
  unfold entryLooks
  split
  · split
    · exact nil_subset _
    · exact List.Subset.refl _
  · exact pageLooks_subset n us

theorem read_cases {s : Collecting} (hfew : s.pages.length < maxUrls) (text : Str) (depth : ℕ) :
    ReadCase W own s text depth (s.read W own text depth) := by
  unfold Collecting.read
  cases hread : readDoc W own ⟨s.pages, s.queue, false⟩ text depth with
  | error e =>
    have hlooks : ¬ ∀ u ∈ (extractUrls W text).1, Splits W u := by
      intro hall
      have hok : (readDoc W own ⟨s.pages, s.queue, false⟩ text depth).isOk = true :=
        (readEntries_returns_iff _ _ _ depth).mpr fun u hu => hall u (entryLooks_subset hu)
      rw [hread] at hok
      cases hok
    obtain ⟨u, hu⟩ := not_forall.mp hlooks
    obtain ⟨hu, hsplit⟩ := Classical.not_imp.mp hu
    exact .unparseable e hu hsplit
  | ok w =>
    change ReadCase W own s text depth (.ok (if w.full then .inl w.pages else
      .inr { s with pages := w.pages, queue := w.queue }))
    rcases readEntries_cases hread with
      ⟨hindex, hpages⟩ | ⟨-, -, rfl⟩ | ⟨hindex, hdepth, hsplits, rfl⟩
    · obtain ⟨hqueue, hle, hlt, added, hadded, hmem⟩ := addPages_spec hfew rfl hpages
      dsimp only at hqueue hadded
      rw [hadded] at hle hlt
      rw [hadded, hqueue]
      cases hfull : w.full with
      | true => exact .full hindex hle hmem
      | false => exact .pages hindex (hlt hfull) hmem
    · exact .deep
    · have hspec := queuedChildren_spec W own (extractUrls W text).1 depth
      refine .index hindex (Nat.lt_of_not_le hdepth) hspec.1 fun d hd => ?_
      exact ⟨(hspec.2 d hd).1, (hspec.2 d hd).2, hsplits d.1 (hspec.2 d hd).1⟩

end Read

/-! ## The loop ends -/

namespace Collecting

variable {W : Web} {own : Str}

def size (s : Collecting) : ℕ :=
  (maxChildren + 1) * s.texts.length + s.queue.length + maxChildren * s.budget

theorem read_size {s s' : Collecting} {text : Str} {depth : ℕ}
    (h : s.read W own text depth = .ok (.inr s')) : s'.size ≤ s.size + maxChildren := by
  unfold read at h
  obtain ⟨w, hread, h⟩ := Except.bind_eq_ok.mp h
  have hqueue : w.queue.length ≤ s.queue.length + maxChildren := by
    rcases readEntries_cases hread with ⟨-, hpages⟩ | ⟨-, -, rfl⟩ | ⟨-, -, -, rfl⟩
    · rw [addPages_queue hpages]
      exact Nat.le_add_right _ _
    · exact Nat.le_add_right _ _
    · rw [length_append]
      exact Nat.add_le_add_left (queuedChildren_spec W own _ depth).1 _
  cases hfull : w.full with
  | true =>
    rw [hfull] at h
    cases h
  | false =>
    rw [hfull] at h
    cases h
    dsimp only [size]
    omega

theorem receive_size {s s' : Collecting} {text : Str} {depth : ℕ}
    (h : s.receive W own text depth = .ok (.inr s')) : s'.size ≤ s.size + maxChildren := by
  unfold receive at h
  split at h
  · cases h
    exact Nat.le_add_right _ _
  · exact read_size h

theorem falls (s : Collecting) : Coroutine.All (Coroutine.Falls size s) (s.round W own) := by
  unfold round
  split
  · rename_i text depth texts htexts
    refine Coroutine.all_lift.mpr fun next hnext => ?_
    cases next with
    | inl pages => trivial
    | inr s' =>
      have hsize := read_size hnext
      refine Nat.lt_of_le_of_lt hsize ?_
      simp only [size, htexts, length_cons, maxChildren]
      omega
  · trivial
  · rename_i url depth queue _ hqueue
    have hskip : size { s with queue := queue } < s.size := by
      simp only [size, hqueue, length_cons]
      omega
    split
    · trivial
    · rename_i hbudget
      have hfetch : size (s.fetching url queue) + maxChildren < s.size := by
        simp only [size, fetching, hqueue, length_cons, maxChildren]
        omega
      split
      · exact hskip
      · refine Coroutine.all_bind.mpr (Coroutine.all_lift.mpr fun same _ => ?_)
        split
        · intro text
          refine Coroutine.all_lift.mpr fun next hnext => ?_
          cases next with
          | inl pages => trivial
          | inr s' => exact Nat.lt_of_le_of_lt (receive_size hnext) hfetch
        · exact hskip

def readTexts (W : Web) (own : Str) (w : Walk) : List (Str × ℕ) → Except ValueError Walk
  | [] => .ok w
  | (text, depth) :: texts => do
      let w ← readDoc W own w text depth
      if w.full then return w
      readTexts W own w texts

theorem readSeeds_eq (w : Walk) (texts : List Str) :
    readSeeds W own w texts = readTexts W own w (texts.map (·, 0)) := by
  induction texts generalizing w with
  | nil => rfl
  | cons text texts ih =>
    rw [map_cons, readSeeds, readTexts]
    simp only [ih]

/-- What `collect_sitemap_urls` does from some variables on. -/
def rest (W : Web) (own : Str) (s : Collecting) : Fetching (List Str) :=
  .bind (.lift (readTexts W own ⟨s.pages, s.queue, false⟩ s.texts)) fun w =>
    if w.full then .ret w.pages else fetchDocs W own s.budget s.seen w

theorem rest_start (seedTexts seedUrls : List Str) :
    rest W own (start seedTexts seedUrls) = collectSitemapUrls W own seedTexts seedUrls := by
  rw [collectSitemapUrls, readSeeds_eq]
  rfl

theorem walk_eta {w : Walk} (h : w.full = false) : (⟨w.pages, w.queue, false⟩ : Walk) = w := by
  rw [← h]

theorem read_rest (s : Collecting) (text : Str) (depth : ℕ) :
    Coroutine.bind (.lift (s.read W own text depth)) (Coroutine.next (rest W own) id) =
      Coroutine.bind (.lift (readDoc W own ⟨s.pages, s.queue, false⟩ text depth)) fun w =>
        if w.full then .ret w.pages
        else rest W own { s with pages := w.pages, queue := w.queue } := by
  unfold read
  cases readDoc W own ⟨s.pages, s.queue, false⟩ text depth with
  | error e => rfl
  | ok w =>
    change Coroutine.next (rest W own) id (if w.full then _ else _) = if w.full then _ else _
    cases w.full <;> rfl

theorem rest_of_no_texts (pages seen : List Str) (budget : ℕ) (queue : List (Str × ℕ)) :
    rest W own ⟨pages, seen, budget, queue, []⟩ =
      fetchDocs W own budget seen ⟨pages, queue, false⟩ := rfl

theorem fetchDocs_skip {pages seen : List Str} {doc : Str × ℕ} {queue : List (Str × ℕ)}
    (h : nextDoc W own seen (doc :: queue) = nextDoc W own seen queue) (budget : ℕ) :
    fetchDocs W own (budget + 1) seen ⟨pages, doc :: queue, false⟩ =
      fetchDocs W own (budget + 1) seen ⟨pages, queue, false⟩ := by
  rw [fetchDocs, fetchDocs]
  dsimp only
  rw [h]

theorem rest_text (pages seen : List Str) (budget : ℕ) (queue texts : List (Str × ℕ))
    (text : Str) (depth : ℕ) :
    rest W own ⟨pages, seen, budget, queue, (text, depth) :: texts⟩ =
      Coroutine.bind (.lift (read W own ⟨pages, seen, budget, queue, texts⟩ text depth))
        (Coroutine.next (rest W own) id) := by
  rw [read_rest, rest, readTexts]
  dsimp only
  cases readDoc W own ⟨pages, queue, false⟩ text depth with
  | error e => rfl
  | ok w =>
    change Coroutine.bind (.lift (if w.full then .ok w else readTexts W own w texts)) _ =
      if w.full then _ else _
    cases hfull : w.full with
    | true => simp [Coroutine.lift, Coroutine.bind, hfull]
    | false => rw [if_neg (by decide), if_neg (by decide), rest, walk_eta hfull]

theorem rest_receive (pages seen : List Str) (budget : ℕ) (queue : List (Str × ℕ)) (text : Str)
    (depth : ℕ) :
    (if text = [] then fetchDocs W own budget seen ⟨pages, queue, false⟩
      else Coroutine.bind (.lift (readDoc W own ⟨pages, queue, false⟩ text depth)) fun w =>
        if w.full then .ret w.pages else fetchDocs W own budget seen w) =
      Coroutine.bind (.lift (receive W own ⟨pages, seen, budget, queue, []⟩ text depth))
        (Coroutine.next (rest W own) id) := by
  unfold receive
  split
  · rfl
  · rw [read_rest]
    refine congrArg (Coroutine.bind _) (funext fun w => ?_)
    cases hfull : w.full with
    | true => rfl
    | false => rw [if_neg (by decide), if_neg (by decide), rest_of_no_texts, walk_eta hfull]

theorem rest_doc (pages seen : List Str) (budget : ℕ) (queue : List (Str × ℕ)) (url : Str)
    (depth : ℕ) :
    rest W own ⟨pages, seen, budget + 1, (url, depth) :: queue, []⟩ =
      Coroutine.bind (round W own ⟨pages, seen, budget + 1, (url, depth) :: queue, []⟩)
        (Coroutine.next (rest W own) id) := by
  rw [rest_of_no_texts]
  unfold round
  dsimp only
  rw [if_neg (Nat.succ_ne_zero _)]
  by_cases hseen : seen.contains url = true
  · rw [if_pos hseen]
    refine (fetchDocs_skip ?_ budget).trans (rest_of_no_texts ..).symm
    rw [nextDoc, if_pos hseen]
  · rw [if_neg hseen]
    cases hsame : sameSite W own url with
    | error e =>
      rw [fetchDocs]
      dsimp only
      rw [nextDoc, if_neg hseen, hsame]
      rfl
    | ok same =>
      cases same with
      | false =>
        refine (fetchDocs_skip ?_ budget).trans (rest_of_no_texts ..).symm
        rw [nextDoc, if_neg hseen, hsame]
        rfl
      | true =>
        rw [fetchDocs]
        dsimp only
        rw [nextDoc, if_neg hseen, hsame]
        exact congrArg (Coroutine.ask url) (funext fun text => rest_receive ..)

theorem rest_eq (s : Collecting) :
    rest W own s = Coroutine.bind (s.round W own) (Coroutine.next (rest W own) id) := by
  obtain ⟨pages, seen, budget, queue, texts⟩ := s
  cases texts with
  | cons first texts => exact rest_text pages seen budget queue texts first.1 first.2
  | nil =>
    cases queue with
    | nil => cases budget <;> rfl
    | cons doc queue =>
      cases budget with
      | zero => rfl
      | succ budget => exact rest_doc pages seen budget queue doc.1 doc.2

/-- The loop as it is written ends after at most so many rounds, and then it has done what
`collectSitemapUrls` does. -/
theorem loop_eq (W : Web) (own : Str) (seedTexts seedUrls : List Str) {n : ℕ}
    (hn : (start seedTexts seedUrls).size < n) :
    Coroutine.loop (round W own) n (start seedTexts seedUrls) =
      Coroutine.bind (collectSitemapUrls W own seedTexts seedUrls) fun pages =>
        .ret (some pages) := by
  rw [← rest_start]
  exact Coroutine.loop_eq size falls rest_eq hn

end Collecting

/-! ## What is fetched -/

section Bounds

variable (W : Web) (docs : Str → Str) (seedTexts seedUrls : List Str)

/-- A document `n` indexes away from the seeds: a seed text that is an index is one away
from its entries. -/
inductive IndexSteps : Str → ℕ → Prop
  | seed {u : Str} (h : u ∈ seedUrls) : IndexSteps u 0
  | text {t u : Str} (ht : t ∈ seedTexts) (hindex : (extractUrls W t).2 = true)
      (hu : u ∈ (extractUrls W t).1) : IndexSteps u 1
  | entry {v u : Str} {n : ℕ} (hv : IndexSteps v n) (hindex : (extractUrls W (docs v)).2 = true)
      (hu : u ∈ (extractUrls W (docs v)).1) : IndexSteps u (n + 1)

/-- The texts that are read when some documents are fetched. -/
def Served (fetched : List Str) (text : Str) : Prop :=
  text ∈ seedTexts ∨ ∃ u ∈ fetched, text = docs u

structure Fetched (own : Str) (fetched : List Str) : Prop where
  length : fetched.length ≤ maxSitemapDocs
  once : fetched.Nodup
  onSite : ∀ u ∈ fetched, HasDomain W own u
  depth : ∀ u ∈ fetched, ∃ n ≤ maxDepth, IndexSteps W docs seedTexts seedUrls u n

/-- The pages are on the site, and entries of texts that are no indexes. -/
def Collected (own : Str) (fetched pages : List Str) : Prop :=
  ∀ p ∈ pages, HasDomain W own p ∧ ∃ text, Served docs seedTexts fetched text ∧
    (extractUrls W text).2 = false ∧ p ∈ (extractUrls W text).1

structure Within (own : Str) (fetched : List Str) (s : Collecting) : Prop where
  bounds : Fetched W docs seedTexts seedUrls own fetched
  seen : ∀ u, u ∈ s.seen ↔ u ∈ fetched
  budget : fetched.length + s.budget = maxSitemapDocs
  texts : ∀ t ∈ s.texts, t.1 ∈ seedTexts ∧ t.2 = 0
  queue : ∀ d ∈ s.queue, d.2 ≤ maxDepth ∧ IndexSteps W docs seedTexts seedUrls d.1 d.2 ∧
    (Splits W d.1 ∨ d.1 ∈ seedUrls)
  few : s.pages.length < maxUrls
  pages : Collected W docs seedTexts own fetched s.pages

/-- What holds when the loop is left: with pages, or by an exception that some URL causes. -/
def Leaves (own : Str) (fetched : List Str) : Except ValueError (List Str) → Prop
  | .ok pages => Fetched W docs seedTexts seedUrls own fetched ∧ pages.length ≤ maxUrls ∧
      Collected W docs seedTexts own fetched pages
  | .error _ => Fetched W docs seedTexts seedUrls own fetched ∧
      ((∃ u ∈ seedUrls, ¬ Splits W u) ∨ ∃ text, Served docs seedTexts fetched text ∧
        ∃ u ∈ (extractUrls W text).1, ¬ Splits W u)

end Bounds

section Invariant

variable {W : Web} {own : Str} {docs : Str → Str} {seedTexts seedUrls fetched : List Str}
  {s : Collecting}

theorem Collected.append {pages added : List Str} {text : Str}
    (h : Collected W docs seedTexts own fetched pages)
    (htext : Served docs seedTexts fetched text) (hindex : (extractUrls W text).2 = false)
    (hadded : ∀ u ∈ added, u ∈ (extractUrls W text).1 ∧ HasDomain W own u) :
    Collected W docs seedTexts own fetched (pages ++ added) := by
  intro p hp
  rcases mem_append.mp hp with hp | hp
  · exact h p hp
  · exact ⟨(hadded p hp).2, text, htext, hindex, (hadded p hp).1⟩

/-- Reading a text that is served keeps the invariant; its entries are one index further
away than the text. -/
theorem Within.read (h : Within W docs seedTexts seedUrls own fetched s) {text : Str} {depth : ℕ}
    (htext : Served docs seedTexts fetched text)
    (hsteps : (extractUrls W text).2 = true → ∀ u ∈ (extractUrls W text).1,
      IndexSteps W docs seedTexts seedUrls u (depth + 1)) :
    Coroutine.Keeps (Within W docs seedTexts seedUrls own)
      (Leaves W docs seedTexts seedUrls own) fetched (s.read W own text depth) := by
  have hcase : ReadCase W own s text depth (s.read W own text depth) :=
    read_cases h.few text depth
  generalize s.read W own text depth = out at hcase
  cases hcase with
  | unparseable e hu hsplit => exact ⟨h.bounds, .inr ⟨text, htext, _, hu, hsplit⟩⟩
  | full hindex hlength hadded =>
    exact ⟨h.bounds, hlength, h.pages.append htext hindex hadded⟩
  | pages hindex hlength hadded =>
    exact ⟨h.bounds, h.seen, h.budget, h.texts, h.queue, hlength,
      h.pages.append htext hindex hadded⟩
  | deep => exact h
  | index hindex hdepth hlength hchildren =>
    refine ⟨h.bounds, h.seen, h.budget, h.texts, fun d hd => ?_, h.few, h.pages⟩
    rcases mem_append.mp hd with hd | hd
    · exact h.queue d hd
    · obtain ⟨hu, hd2, hsplit⟩ := hchildren d hd
      rw [hd2]
      exact ⟨hdepth, hsteps hindex d.1 hu, .inl hsplit⟩

theorem Served.mono {more : List Str} {text : Str} (h : Served docs seedTexts fetched text) :
    Served docs seedTexts (fetched ++ more) text :=
  h.imp id fun ⟨u, hu, heq⟩ => ⟨u, mem_append_left _ hu, heq⟩

section

variable (h : Within W docs seedTexts seedUrls own fetched s)

include h

theorem Within.fetching {url : Str} {depth : ℕ} {queue : List (Str × ℕ)}
    (hqueue : s.queue = (url, depth) :: queue) (hbudget : s.budget ≠ 0) (hseen : url ∉ s.seen)
    (hsame : sameSite W own url = .ok true) :
    Within W docs seedTexts seedUrls own (fetched ++ [url]) (s.fetching url queue) := by
  have hnew : url ∉ fetched := fun hmem => hseen ((h.seen url).mpr hmem)
  obtain ⟨hdepth, hsteps, -⟩ := h.queue (url, depth) (by rw [hqueue]; exact mem_cons_self)
  have hbounds : Fetched W docs seedTexts seedUrls own (fetched ++ [url]) := by
    refine ⟨?_, ?_, ?_, ?_⟩
    · have hleft := h.budget
      rw [length_append, length_singleton]
      omega
    · rw [nodup_append]
      refine ⟨h.bounds.once, nodup_singleton _, ?_⟩
      rintro a ha b hb rfl
      rw [mem_singleton.mp hb] at ha
      exact hnew ha
    · intro u hu
      rcases mem_append.mp hu with hu | hu
      · exact h.bounds.onSite u hu
      · rw [mem_singleton.mp hu]
        exact hasDomain_of_sameSite hsame
    · intro u hu
      rcases mem_append.mp hu with hu | hu
      · exact h.bounds.depth u hu
      · rw [mem_singleton.mp hu]
        exact ⟨depth, hdepth, hsteps⟩
  refine ⟨hbounds, fun u => ?_, ?_, h.texts, fun d hd => h.queue d ?_, h.few, fun p hp => ?_⟩
  · rw [mem_append, mem_singleton, ← h.seen u, or_comm]
    exact mem_cons
  · have hleft := h.budget
    rw [length_append, length_singleton]
    change fetched.length + 1 + (s.budget - 1) = maxSitemapDocs
    omega
  · rw [hqueue]
    exact mem_cons_of_mem _ hd
  · obtain ⟨hdomain, text, htext, hentry⟩ := h.pages p hp
    exact ⟨hdomain, text, htext.mono, hentry⟩

theorem Within.leaves : Leaves W docs seedTexts seedUrls own (fetched ++ []) (.ok s.pages) := by
  rw [append_nil]
  exact ⟨h.bounds, Nat.le_of_lt h.few, h.pages⟩

theorem Within.skip {doc : Str × ℕ} {queue : List (Str × ℕ)} (hqueue : s.queue = doc :: queue) :
    Within W docs seedTexts seedUrls own (fetched ++ []) { s with queue := queue } := by
  rw [append_nil]
  refine ⟨h.bounds, h.seen, h.budget, h.texts, fun d hd => h.queue d ?_, h.few, h.pages⟩
  rw [hqueue]
  exact mem_cons_of_mem _ hd

theorem Within.read_text {text : Str} {depth : ℕ} {texts : List (Str × ℕ)}
    (htexts : s.texts = (text, depth) :: texts) :
    Coroutine.Keeps (Within W docs seedTexts seedUrls own)
      (Leaves W docs seedTexts seedUrls own) fetched
      (Collecting.read W own { s with texts := texts } text depth) := by
  obtain ⟨ht, hdepth⟩ := h.texts (text, depth) (by rw [htexts]; exact mem_cons_self)
  dsimp only at ht hdepth
  subst hdepth
  have hs : Within W docs seedTexts seedUrls own fetched { s with texts := texts } :=
    ⟨h.bounds, h.seen, h.budget,
      fun t ht => h.texts t (by rw [htexts]; exact mem_cons_of_mem _ ht),
      h.queue, h.few, h.pages⟩
  exact hs.read (.inl ht) fun hindex u hu => .text ht hindex hu

theorem Within.unparseable {url : Str} {depth : ℕ} {e : ValueError}
    (hmem : (url, depth) ∈ s.queue) (hsame : sameSite W own url = .error e) :
    Leaves W docs seedTexts seedUrls own (fetched ++ []) (.error e) := by
  rw [append_nil]
  have hnot : ¬ Splits W url := by
    intro hsplit
    rw [sameSite_of_splits hsplit] at hsame
    cases hsame
  obtain ⟨-, -, hsplits⟩ := h.queue _ hmem
  exact ⟨h.bounds, .inl ⟨url, hsplits.resolve_left hnot, hnot⟩⟩

end

theorem Within.receive {url : Str} {depth : ℕ}
    (h : Within W docs seedTexts seedUrls own (fetched ++ [url]) s)
    (hsteps : IndexSteps W docs seedTexts seedUrls url depth) :
    Coroutine.Keeps (Within W docs seedTexts seedUrls own)
      (Leaves W docs seedTexts seedUrls own) (fetched ++ [url])
      (Collecting.receive W own s (docs url) depth) := by
  have hserved : Served docs seedTexts (fetched ++ [url]) (docs url) :=
    .inr ⟨url, mem_append_right _ (mem_singleton_self _), rfl⟩
  unfold Collecting.receive
  split
  · exact h
  · exact h.read hserved fun hindex u hu => .entry hsteps hindex hu

theorem Within.round (h : Within W docs seedTexts seedUrls own fetched s) :
    Coroutine.Keeps (Within W docs seedTexts seedUrls own)
      (Leaves W docs seedTexts seedUrls own)
      (fetched ++ Coroutine.asked docs (s.round W own)) (Coroutine.run docs (s.round W own)) := by
  unfold Collecting.round
  split
  · rename_i text depth texts htexts
    rw [Coroutine.asked_lift, Coroutine.run_lift, append_nil]
    exact h.read_text htexts
  · exact h.leaves
  · rename_i url depth queue _ hqueue
    have hmem : (url, depth) ∈ s.queue := by
      rw [hqueue]
      exact mem_cons_self
    split
    · exact h.leaves
    · rename_i hbudget
      split
      · exact h.skip hqueue
      · rename_i hseen
        cases hsame : sameSite W own url with
        | error e => exact h.unparseable hmem hsame
        | ok same =>
          cases same with
          | false => exact h.skip hqueue
          | true =>
            have hs := h.fetching hqueue hbudget (by simpa using hseen) hsame
            obtain ⟨-, hsteps, -⟩ := h.queue _ hmem
            change Coroutine.Keeps _ _
              (fetched ++ url :: Coroutine.asked docs (.lift (Collecting.receive W own ..)))
              (Coroutine.run docs (.lift (Collecting.receive W own ..)))
            rw [Coroutine.asked_lift, Coroutine.run_lift]
            exact hs.receive hsteps

theorem within_start (W : Web) (own : Str) (docs : Str → Str) (seedTexts seedUrls : List Str) :
    Within W docs seedTexts seedUrls own [] (.start seedTexts seedUrls) where
  bounds := ⟨Nat.zero_le _, nodup_nil, by simp, by simp⟩
  seen _ := Iff.rfl
  budget := Nat.zero_add _
  texts := by
    intro t ht
    obtain ⟨text, htext, rfl⟩ := mem_map.mp ht
    exact ⟨mem_of_mem_filter htext, rfl⟩
  queue := by
    intro d hd
    obtain ⟨u, hu, rfl⟩ := mem_map.mp hd
    exact ⟨Nat.zero_le _, .seed hu, .inr hu⟩
  few := (by decide : 0 < maxUrls)
  pages := by
    intro p hp
    cases hp

theorem leaves_collectSitemapUrls (W : Web) (own : Str) (docs : Str → Str)
    (seedTexts seedUrls : List Str) :
    Leaves W docs seedTexts seedUrls own
      ((collectSitemapUrls W own seedTexts seedUrls).asked docs)
      ((collectSitemapUrls W own seedTexts seedUrls).run docs) := by
  generalize hout : (collectSitemapUrls W own seedTexts seedUrls).run docs = out
  have hloop := Collecting.loop_eq W own seedTexts seedUrls (Nat.lt_succ_self _)
  have hrun : Coroutine.run docs (Coroutine.loop (Collecting.round W own)
      ((Collecting.start seedTexts seedUrls).size + 1) (.start seedTexts seedUrls)) =
        out.map some := by
    rw [hloop, Coroutine.run_bind, hout]
    cases out <;> rfl
  have hleaves := Coroutine.loop_invariant (fun _ _ h => h.round) _
    (within_start W own docs seedTexts seedUrls) hrun
  rw [hloop, nil_append] at hleaves
  cases out with
  | error e => rwa [Coroutine.asked_bind_of_error hout] at hleaves
  | ok pages =>
    rw [Coroutine.asked_bind_of_ok hout] at hleaves
    rwa [← append_nil (Coroutine.asked docs (collectSitemapUrls W own seedTexts seedUrls))]

end Invariant

/-- Whatever the site serves, the loop of `collect_sitemap_urls` ends. It fetches few
documents, each once, on the site and near a seed, and returns few pages, each on the site
and listed by a text that is no index. It returns if the URLs it is given and reads can be
parsed. -/
theorem sitemap_collection_bounded (W : Web) (own : Str) (docs : Str → Str)
    (seedTexts seedUrls : List Str) :
    (∀ n, (Collecting.start seedTexts seedUrls).size < n →
      Coroutine.loop (Collecting.round W own) n (.start seedTexts seedUrls) =
        .bind (collectSitemapUrls W own seedTexts seedUrls) fun pages => .ret (some pages)) ∧
    let fetched := (collectSitemapUrls W own seedTexts seedUrls).asked docs
    let outcome := (collectSitemapUrls W own seedTexts seedUrls).run docs
    Fetched W docs seedTexts seedUrls own fetched ∧
    (∀ pages, outcome = .ok pages →
      pages.length ≤ maxUrls ∧ Collected W docs seedTexts own fetched pages) ∧
    ((∀ text, Served docs seedTexts fetched text → ∀ u ∈ (extractUrls W text).1, Splits W u) →
      (∀ u ∈ seedUrls, Splits W u) → ∃ pages, outcome = .ok pages) := by
  refine ⟨fun n hn => Collecting.loop_eq W own seedTexts seedUrls hn, ?_⟩
  intro fetched outcome
  have hleaves : Leaves W docs seedTexts seedUrls own fetched outcome :=
    leaves_collectSitemapUrls W own docs seedTexts seedUrls
  cases hout : outcome with
  | ok pages =>
    rw [hout] at hleaves
    obtain ⟨hfetched, hlength, hpages⟩ := hleaves
    refine ⟨hfetched, fun pages' hpages' => ?_, fun _ _ => ⟨pages, rfl⟩⟩
    cases hpages'
    exact ⟨hlength, hpages⟩
  | error e =>
    rw [hout] at hleaves
    obtain ⟨hfetched, hcause⟩ := hleaves
    refine ⟨hfetched, fun pages hpages => ?_, fun htexts hseeds => ?_⟩
    · cases hpages
    · rcases hcause with ⟨u, hu, hsplit⟩ | ⟨text, htext, u, hu, hsplit⟩
      · exact absurd (hseeds u hu) hsplit
      · exact absurd (htexts text htext u hu) hsplit

/-! ## An index that names itself -/

/-- An index that names itself and a sitemap with one page. -/
def loopingDocs : Str → Str := fun url =>
  if url = "https://acme.com/s.xml".toList then
    "<sitemapindex ><loc>https://acme.com/s.xml</loc><loc>https://acme.com/p.xml</loc>".toList
  else "<loc>https://acme.com/team</loc>".toList

theorem looping_index_is_bounded :
    let fetched := (collectSitemapUrls (exampleWeb exampleLinks) "acme.com".toList []
      ["https://acme.com/s.xml".toList]).asked loopingDocs
    fetched = ["https://acme.com/s.xml", "https://acme.com/p.xml"].map String.toList ∧
      Fetched (exampleWeb exampleLinks) loopingDocs [] ["https://acme.com/s.xml".toList]
        "acme.com".toList fetched ∧
      ∃ pages, (collectSitemapUrls (exampleWeb exampleLinks) "acme.com".toList []
        ["https://acme.com/s.xml".toList]).run loopingDocs = .ok pages := by
  have hfetched : (collectSitemapUrls (exampleWeb exampleLinks) "acme.com".toList []
      ["https://acme.com/s.xml".toList]).asked loopingDocs =
        ["https://acme.com/s.xml", "https://acme.com/p.xml"].map String.toList := by
    decide +kernel
  obtain ⟨-, hbounds, -, hreturns⟩ := sitemap_collection_bounded (exampleWeb exampleLinks)
    "acme.com".toList loopingDocs [] ["https://acme.com/s.xml".toList]
  refine ⟨hfetched, hbounds, hreturns ?_ (by decide +kernel)⟩
  rintro text (htext | ⟨u, hu, rfl⟩)
  · cases htext
  · have hsplits : ∀ u ∈ ["https://acme.com/s.xml", "https://acme.com/p.xml"].map String.toList,
        ∀ v ∈ (extractUrls (exampleWeb exampleLinks) (loopingDocs u)).1,
          Splits (exampleWeb exampleLinks) v := by
      decide +kernel
    rw [hfetched] at hu
    exact hsplits u hu

/-- A seed URL that cannot be parsed ends the collection, though no text has a URL in it. -/
theorem unparseable_seed_raises :
    (collectSitemapUrls (exampleWeb exampleLinks) "acme.com".toList []
      ["http://[bad/s.xml".toList]).run (fun _ => []) = .error .valueError ∧
    ∀ text, Served (fun _ => []) [] ((collectSitemapUrls (exampleWeb exampleLinks)
      "acme.com".toList [] ["http://[bad/s.xml".toList]).asked fun _ => []) text →
        ∀ u ∈ (extractUrls (exampleWeb exampleLinks) text).1,
          Splits (exampleWeb exampleLinks) u := by
  refine ⟨by decide +kernel, ?_⟩
  rintro text (htext | ⟨u, -, rfl⟩)
  · cases htext
  · have hblank : ∀ u ∈ (extractUrls (exampleWeb exampleLinks) []).1,
        Splits (exampleWeb exampleLinks) u := by
      decide +kernel
    exact hblank

end Discovery

end EmailExtractor
