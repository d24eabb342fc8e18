import EmailExtractor.Discovery.Score
import EmailExtractor.Library.Case
import EmailExtractor.Library.Except
import EmailExtractor.Library.RegexMatch
import EmailExtractor.Library.Trim

/-!
# What the canonical URL determines

The tier of a URL is computed from its path as it is published, and the candidates are
told apart by their canonical URLs. The canonical URL still has the segments of the path
in lower case, but for a trailing index file, which has no keyword in it; so it determines
the tier, as it does the depth.
-/

namespace EmailExtractor

namespace Discovery

open Url List

/-! ## Segments -/

section Segments

variable {U : Unicode}

theorem segments_append_slash (a b : Str) :
    segments (a ++ '/' :: b) = segments a ++ segments b := by
  rw [segments, splitOn_append_cons_self, filter_append]
  rfl

theorem segments_slash_cons (s : Str) : segments ('/' :: s) = segments s :=
  segments_append_slash [] s

theorem segments_of_notMem {s : Str} (hs : '/' ∉ s) (hne : s ≠ []) : segments s = [s] := by
  rw [segments, splitOn_eq_singleton hs]
  simp [hne]

theorem segments_lower (hU : U.LowersParts) (s : Str) :
    segments (U.lower s) = (segments s).map U.lower := by
  rw [segments, segments, hU.splitOn_lower, filter_map]
  refine congrArg _ (filter_congr fun part _ => ?_)
  simp [hU.each.lower_eq_nil_iff]

theorem segments_rstrip (s : Str) : segments (Str.rstripChars ['/'] s) = segments s := by
  have hsplit := takeWhile_append_dropWhile (p := (['/'].contains ·)) (l := s.reverse)
  have hs : s = Str.rstripChars ['/'] s ++ (s.reverse.takeWhile (['/'].contains ·)).reverse := by
    rw [Str.rstripChars, ← reverse_append, hsplit, reverse_reverse]
  have hslashes : ∀ t : Str, (∀ c ∈ t, c = '/') → ∀ a, segments (a ++ t) = segments a := by
    intro t
    induction t with
    | nil =>
      intro _ a
      rw [append_nil]
    | cons c t ih =>
      intro ht a
      obtain ⟨rfl, hrest⟩ := forall_mem_cons.mp ht
      rw [segments_append_slash, ← nil_append t, ih hrest]
      exact append_nil _
  conv_rhs => rw [hs]
  refine (hslashes _ (fun c hc => ?_) _).symm
  have hmem := all_eq_true.mp all_takeWhile c (mem_reverse.mp hc)
  simpa using hmem

end Segments

/-! ## The index file -/

section Index

variable {U : Unicode}

def indexEndings (U : Unicode) : List Regex :=
  [.seq (.lit U.sameCase "htm".toList) (.opt (.lit U.sameCase "l".toList)),
    .lit U.sameCase "php".toList,
    .seq (.lit U.sameCase "asp".toList) (.opt (.lit U.sameCase "x".toList)),
    .lit U.sameCase "jsp".toList, .lit U.sameCase "cfm".toList, .lit U.sameCase "shtml".toList]

theorem indexEndings_avoid (hU : U.FoldsCase) {c : Char} (hc : c.val < 128)
    (halpha : ¬ c.isAlpha = true) : Regex.Avoids c (.any (indexEndings U)) := by
  have hlit : ∀ s : Str, s.all (fun a => decide (a.val < 128) && a.isAlpha) = true →
      Regex.Avoids c (.lit U.sameCase s) := by
    intro s hs
    refine Regex.avoids_lit fun a ha => ?_
    obtain ⟨hval, hletter⟩ := Bool.and_eq_true_iff.mp (all_eq_true.mp hs a ha)
    refine hU.not_sameCase (of_decide_eq_true hval) hc halpha ?_
    rintro rfl
    exact halpha hletter
  refine Regex.avoids_any fun r hr => ?_
  simp only [indexEndings, mem_cons, not_mem_nil, or_false] at hr
  rcases hr with rfl | rfl | rfl | rfl | rfl | rfl
  · exact ⟨hlit _ (by decide), hlit _ (by decide), trivial⟩
  · exact hlit _ (by decide)
  · exact ⟨hlit _ (by decide), hlit _ (by decide), trivial⟩
  · exact hlit _ (by decide)
  · exact hlit _ (by decide)
  · exact hlit _ (by decide)

theorem slash_index : "/index.".toList = '/' :: "index.".toList := by decide

theorem index_ascii {a : Char} (h : a ∈ "index.".toList) : a.val < 128 := by
  have hall : "index.".toList.all (fun a => decide (a.val < 128)) = true := by decide
  exact of_decide_eq_true (all_eq_true.mp hall a h)

/-- The characters that separate segments and tokens are no letters, and not in the name. -/
theorem no_letter_of_mem {c : Char} (h : c ∈ "/-_".toList) :
    c.val < 128 ∧ ¬ c.isAlpha = true ∧ c ∉ "index.".toList := by
  have hall : "/-_".toList.all (fun c => decide (c.val < 128) &&
      (!c.isAlpha && !"index.".toList.contains c)) = true := by
    decide
  simpa using all_eq_true.mp hall c h

/-- An index file is the last segment of the path: it has a dot in it, and no slash, hyphen
or underscore. -/
theorem reads_index (hU : U.FoldsCase) {prev : Option Char} {w after : Str}
    (h : (indexPattern U).Reads prev w after) :
    (after = [] ∨ after = ['\n']) ∧ ∃ file, w = '/' :: file ∧ '.' ∈ file ∧
      file.Disjoint "/-_".toList := by
  obtain ⟨name, rest, rfl, hname, ending, tail, rfl, hending, hfinish⟩ :
      ∃ name rest, w = name ++ rest ∧
        (Regex.lit U.sameCase "/index.".toList).Reads prev name (rest ++ after) ∧
        ∃ ending tail, rest = ending ++ tail ∧
          (Regex.any (indexEndings U)).Reads (Regex.lastOr prev name) ending (tail ++ after) ∧
          Regex.finish.Reads (Regex.lastOr (Regex.lastOr prev name) ending) tail after := h
  obtain ⟨hafter, rfl⟩ := hfinish
  have hletters := Regex.reads_lit.mp hname
  rw [slash_index, List.forall₂_cons_left_iff] at hletters
  obtain ⟨slash, index, hslash, hindex, rfl⟩ := hletters
  obtain rfl := hU.eq_of_not_isAlpha (by decide) (by decide) hslash
  refine ⟨by simpa using hafter, index ++ ending, by simp, ?_, ?_⟩
  · have hmem : '.' ∈ "index.".toList := by decide
    obtain ⟨c, hc, hsame⟩ := Regex.exists_of_forall₂ hindex hmem
    rw [hU.eq_of_not_isAlpha (by decide) (by decide) hsame] at hc
    exact mem_append_left _ hc
  · intro c hc hbad
    obtain ⟨hval, halpha, hnot⟩ := no_letter_of_mem hbad
    rcases mem_append.mp hc with hc | hc
    · obtain ⟨a, ha, hsame⟩ := Regex.exists_of_forall₂ hindex.flip hc
      have hne : a ≠ c := fun heq => hnot (heq ▸ ha)
      rw [hU.not_sameCase (index_ascii ha) hval halpha hne] at hsame
      exact Bool.false_ne_true hsame
    · exact Regex.notMem_of_reads (indexEndings_avoid hU hval halpha) hending hc

theorem sub_index (hU : U.FoldsCase) {path : Str} (hline : '\n' ∉ path) :
    (indexPattern U).sub ['/'] path = path ∨ ∃ before file, path = before ++ '/' :: file ∧
      '.' ∈ file ∧ file.Disjoint "/-_".toList ∧
      (indexPattern U).sub ['/'] path = before ++ ['/'] := by
  have hcases := Regex.sub_of_anchored (r := indexPattern U)
    (fun prev hempty => by
      obtain ⟨-, file, hfile, -⟩ := reads_index hU hempty
      cases hfile)
    (fun before w after (hpath : path = before ++ (w ++ after)) hreads => by
      rcases (reads_index hU hreads).1 with hnil | hline'
      · exact hnil
      · refine absurd ?_ hline
        rw [hpath, hline']
        simp)
    ['/']
  rcases hcases with hsame | ⟨before, w, hpath, hreads, hsub⟩
  · exact .inl hsame
  · obtain ⟨-, file, rfl, hdot, hfree⟩ := reads_index hU hreads
    exact .inr ⟨before, file, hpath, hdot, hfree, hsub⟩

end Index

/-! ## Tiers -/

def tierOf (segs : List Str) : Option Tier × ℕ :=
  let toks := segs.flatMap tokens
  match tiers.find? fun t => t.2.2.any fun k => segs.contains k || toks.contains k with
  | some (name, score, _) => (some name, score)
  | none => (none, 0)

theorem tierFor_eq (U : Unicode) (path : Str) :
    tierFor U path = tierOf ((segments path).map U.lower) := rfl

theorem tierOf_append_file (segs : List Str) {file : Str} (hdot : '.' ∈ file)
    (hfree : file.Disjoint "-_".toList) : tierOf (segs ++ [file]) = tierOf segs := by
  have htokens : tokens file = [file] := by
    have hnot : tokenSplit.found file = false := by
      rw [← Bool.not_eq_true, Regex.found_iff]
      rintro ⟨before, w, after, hfile, hreads⟩
      obtain ⟨hne, hall⟩ := Regex.reads_plus_char.mp hreads
      obtain ⟨c, hc⟩ := exists_mem_of_ne_nil w hne
      refine hfree (a := c) ?_ ?_
      · rw [hfile]
        exact mem_append_right _ (mem_append_left _ hc)
      · simpa using hall c hc
    rw [tokens, Regex.split_of_not_found hnot]
    simp [ne_nil_of_mem hdot]
  have hkeywords : ∀ t ∈ tiers, ∀ k ∈ t.2.2, k ≠ file := by
    have hall : tiers.all (fun t => t.2.2.all fun k => !k.contains '.') = true := by decide
    rintro t ht k hk rfl
    have hno := all_eq_true.mp (all_eq_true.mp hall t ht) k hk
    simp [hdot] at hno
  have hfind : ∀ l ⊆ tiers,
      (l.find? fun t => t.2.2.any fun k => (segs ++ [file]).contains k ||
        ((segs ++ [file]).flatMap tokens).contains k) =
      l.find? fun t => t.2.2.any fun k => segs.contains k || (segs.flatMap tokens).contains k := by
    intro l hl
    induction l with
    | nil => rfl
    | cons t l ih =>
        have htest : (t.2.2.any fun k => (segs ++ [file]).contains k ||
              ((segs ++ [file]).flatMap tokens).contains k) =
            t.2.2.any fun k => segs.contains k || (segs.flatMap tokens).contains k := by
          rw [Bool.eq_iff_iff, any_eq_true, any_eq_true]
          refine exists_congr fun k => and_congr_right fun hk => ?_
          have hne := hkeywords t (hl mem_cons_self) k hk
          rw [flatMap_append, flatMap_singleton, htokens]
          simp [hne]
        rw [List.find?_cons, List.find?_cons, htest,
          ih fun t ht => hl (mem_cons_of_mem _ ht)]
  rw [tierOf, tierOf, hfind tiers (List.Subset.refl _)]

/-! ## The canonical URL -/

section Canonical

variable {U : Unicode} {url anchor canon path : Str} {parts : SplitResult} {c : ScoredUrl}

def rawPath (parts : SplitResult) : Str := if parts.path = [] then ['/'] else parts.path

def canonHost (U : Unicode) (parts : SplitResult) (port : Option ℕ) : Str :=
  let host := U.lower (parts.hostname U)
  let host := if Str.startsWith host "www.".toList then host.drop 4 else host
  match port with
  | none => host
  | some p => if p ≠ 0 ∧ p ≠ 80 ∧ p ≠ 443 then host ++ ':' :: (Nat.repr p).toList else host

def canonPath (U : Unicode) (path : Str) : Str :=
  let path := U.lower ((indexPattern U).sub ['/'] path)
  if 1 < path.length then
    if Str.rstripChars ['/'] path = [] then ['/'] else Str.rstripChars ['/'] path
  else path

theorem canonical_cases (h : canonical U url = .ok canon) :
    ∃ parts port, urlsplit U url = .ok parts ∧ parts.port = .ok port ∧
      canon = urlunsplit ⟨"https".toList, canonHost U parts port, canonPath U (rawPath parts),
        [], []⟩ := by
  rw [canonical, Except.bind_eq_ok] at h
  obtain ⟨parts, hparts, h⟩ := h
  obtain ⟨port, hport, h⟩ := Except.bind_eq_ok.mp h
  exact ⟨parts, port, hparts, hport, (Except.ok.inj h).symm⟩

theorem scoreUrl_cases (h : scoreUrl U url anchor = .ok (some c)) :
    ∃ parts canonParts, urlsplit U url = .ok parts ∧ canonical U url = .ok c.url ∧
      urlsplit U c.url = .ok canonParts ∧ isExcluded U (rawPath parts) = false ∧
      c.tier = (tierFor U (rawPath parts)).1 ∧
      c.score = (tierFor U (rawPath parts)).2 +
        (if anchorMatches U anchor then anchorBonus else 0) ∧ c.score ≠ 0 ∧
      c.depth = (segments canonParts.path).length ∧ c.anchor = anchor ∧
      c.fetchUrl = urlunsplit { parts with fragment := [] } := by
  rw [scoreUrl, Except.bind_eq_ok] at h
  obtain ⟨parts, hparts, h⟩ := h
  refine ⟨parts, ?_⟩
  dsimp only at h
  generalize hraw : (if parts.path = [] then ['/'] else parts.path) = path at h
  rw [show rawPath parts = path from hraw]
  split at h
  · cases h
  rename_i hexcluded
  generalize hbonus : (if anchorMatches U anchor then anchorBonus else 0) = bonus at h ⊢
  split at h
  · cases h
  rename_i hscore
  obtain ⟨canon, hcanon, h⟩ := Except.bind_eq_ok.mp h
  obtain ⟨canonParts, hcanonParts, h⟩ := Except.bind_eq_ok.mp h
  cases h
  exact ⟨canonParts, hparts, hcanon, hcanonParts, by simpa using hexcluded, rfl, rfl, hscore, rfl,
    rfl, rfl⟩

theorem hostinfo_subset (netloc : Str) : (hostinfo netloc).1 ⊆ netloc := by
  intro c hc
  refine Str.mem_of_mem_afterLast (a := '@') ?_
  unfold hostinfo at hc
  dsimp only at hc
  split at hc
  · exact (suffix_partition_snd '[' _).subset ((prefix_partition_fst ']' _).subset hc)
  · exact (prefix_partition_fst ':' _).subset hc

theorem slash_notMem_canonHost (hU : U.LowersEach) (hnetloc : '/' ∉ parts.netloc)
    (port : Option ℕ) : '/' ∉ canonHost U parts port := by
  have hlower := hU.mem_lower (b := '/') (by decide) (by decide)
  have hhost : '/' ∉ parts.hostname U := by
    intro hmem
    have hinfo : '/' ∉ (hostinfo parts.netloc).1 := fun hmem => hnetloc (hostinfo_subset _ hmem)
    unfold SplitResult.hostname at hmem
    dsimp only at hmem
    rcases mem_append.mp hmem with hmem | hmem
    · rw [hlower] at hmem
      exact hinfo ((prefix_partition_fst '%' _).subset hmem)
    · split at hmem
      · rcases mem_cons.mp hmem with hmem | hmem
        · exact absurd hmem (by decide)
        · exact hinfo ((suffix_partition_snd '%' _).subset hmem)
      · cases hmem
  have hbare : '/' ∉ U.lower (parts.hostname U) := by
    rwa [hlower]
  unfold canonHost
  dsimp only
  generalize U.lower (parts.hostname U) = host at hbare
  have hcut : '/' ∉ if Str.startsWith host "www.".toList then host.drop 4 else host := by
    split
    · exact fun hmem => hbare (mem_of_mem_drop hmem)
    · exact hbare
  cases port with
  | none => exact hcut
  | some p =>
      dsimp only
      split
      · intro hmem
        rcases mem_append.mp hmem with hmem | hmem
        · exact hcut hmem
        · rcases mem_cons.mp hmem with hmem | hmem
          · exact absurd hmem (by decide)
          · rw [Nat.toList_repr] at hmem
            exact absurd (Nat.isDigit_of_mem_toDigits (by decide) (by decide) hmem) (by decide)
      · exact hcut

theorem segments_canonPath (U : Unicode) (path : Str) :
    segments (canonPath U path) = segments (U.lower ((indexPattern U).sub ['/'] path)) := by
  unfold canonPath
  generalize U.lower ((indexPattern U).sub ['/'] path) = path
  dsimp only
  split
  · split
    · rename_i hnil
      rw [← segments_rstrip path, hnil]
      rfl
    · exact segments_rstrip path
  · rfl

/-- The index file apart, the canonical path has the segments of the path, so both have one
tier. -/
theorem tierFor_canonPath (hU : U.LowersParts) (hF : U.FoldsCase) (hline : '\n' ∉ path) :
    tierOf (segments (canonPath U path)) = tierFor U path := by
  rw [segments_canonPath, segments_lower hU, tierFor_eq]
  rcases sub_index hF hline with hsame | ⟨before, file, hpath, hdot, hfree, hsub⟩
  · rw [hsame]
  · have hslash : '/' ∉ file := fun hmem => hfree hmem (by decide)
    have hfile : segments file = [file] := segments_of_notMem hslash (ne_nil_of_mem hdot)
    have hbefore : segments (before ++ ['/']) = segments before := by
      rw [segments_append_slash]
      exact append_nil _
    rw [hsub, hbefore, hpath, segments_append_slash, hfile, map_append]
    refine (tierOf_append_file _ ?_ ?_).symm
    · rwa [hU.each.mem_lower (by decide) (by decide)]
    · have hlower : ∀ b ∈ "-_".toList, b ∈ U.lower file ↔ b ∈ file := by
        intro b hb
        have hall : "-_".toList.all (fun b => decide (b.val < 128) && !b.isAlpha) = true := by
          decide
        obtain ⟨hval, halpha⟩ := Bool.and_eq_true_iff.mp (all_eq_true.mp hall b hb)
        exact hU.each.mem_lower (of_decide_eq_true hval) (by simpa using halpha) file
      intro b hb hmem
      have hsubset : "-_".toList ⊆ "/-_".toList := by decide
      exact hfree ((hlower b hmem).mp hb) (hsubset hmem)

/-- The segments of the path of a canonical URL: the text behind the first slash after the
scheme. -/
def canonSegments (canon : Str) : List Str := segments (Str.partition '/' (canon.drop 8)).2.2

theorem canonSegments_urlunsplit {host : Str} (hhost : '/' ∉ host) (path : Str) :
    canonSegments (urlunsplit ⟨"https".toList, host, path, [], []⟩) = segments path := by
  have huses : ['h', 't', 't', 'p', 's'] ∈ usesNetloc := by decide
  have hurl : (urlunsplit ⟨"https".toList, host, path, [], []⟩).drop 8 =
      host ++ if path ≠ [] && path.head? ≠ some '/' then '/' :: path else path := by
    rw [urlunsplit]
    simp [huses]
  rw [canonSegments, hurl]
  cases path with
  | nil =>
      rw [if_neg (by simp), append_nil, Str.partition_of_notMem hhost]
  | cons c s =>
      by_cases hc : c = '/'
      · subst hc
        rw [if_neg (by simp), Str.partition_append_cons hhost, segments_slash_cons]
      · rw [if_pos (by simpa using hc), Str.partition_append_cons hhost]

theorem tierFor_of_canonical (hU : U.LowersParts) (hF : U.FoldsCase)
    (hparts : urlsplit U url = .ok parts) (hcanon : canonical U url = .ok canon) :
    tierFor U (rawPath parts) = tierOf (canonSegments canon) := by
  obtain ⟨parts', port, hparts', -, rfl⟩ := canonical_cases hcanon
  obtain rfl : parts = parts' := by
    rw [hparts] at hparts'
    exact Except.ok.inj hparts'
  have hnetloc : '/' ∉ parts.netloc := fun hmem => netloc_of_urlsplit hparts hmem (by decide)
  have hline : '\n' ∉ rawPath parts := by
    unfold rawPath
    split
    · decide
    · exact fun hmem => path_of_urlsplit hparts hmem (by decide)
  rw [canonSegments_urlunsplit (slash_notMem_canonHost hU.each hnetloc port),
    tierFor_canonPath hU hF hline]

/-- The candidates of `score_url`: the tier and the depth are those of the canonical URL. -/
def Scored (U : Unicode) (c : ScoredUrl) : Prop :=
  ∃ url anchor, scoreUrl U url anchor = .ok (some c)

theorem Scored.tier_eq (hU : U.LowersParts) (hF : U.FoldsCase) (h : Scored U c) :
    c.tier = (tierOf (canonSegments c.url)).1 := by
  obtain ⟨url, anchor, h⟩ := h
  obtain ⟨parts, _, hparts, hcanon, -, -, htier, -⟩ := scoreUrl_cases h
  rw [htier, tierFor_of_canonical hU hF hparts hcanon]

theorem Scored.depth_eq {c' : ScoredUrl} (h : Scored U c) (h' : Scored U c')
    (hurl : c.url = c'.url) : c.depth = c'.depth := by
  obtain ⟨_, _, h⟩ := h
  obtain ⟨_, _, h'⟩ := h'
  obtain ⟨_, canonParts, -, -, hcanon, -, -, -, -, hdepth, -⟩ := scoreUrl_cases h
  obtain ⟨_, canonParts', -, -, hcanon', -, -, -, -, hdepth', -⟩ := scoreUrl_cases h'
  rw [← hurl, hcanon] at hcanon'
  rw [hdepth, hdepth', Except.ok.inj hcanon']

end Canonical

end Discovery

end EmailExtractor
