import EmailExtractor.Ingest.Keys

/-!
# The key of a host

A cell that holds nothing but a host is decided by the host itself, if the host has a key
at all. The key of the cell and the key that the later stages compute from the host then
agree, but for the `www` spelling of a host under a platform: the cell drops the label,
and `registrable` keeps it.
-/

namespace EmailExtractor

namespace Ingest

open Normalize Url List

structure SiteHost (host : Str) : Prop extends CleanHost host where
  valid : validHost host = true
  dot : '.' ∈ host

/-- What is assumed of the text tables on ASCII: lower-casing is lawful, no printable
character is white space, and the dot is no digit. -/
structure AsciiText (U : Unicode) : Prop where
  lower : U.LawfulLower
  space : ∀ c : Char, 0x20 < c.val → c.val < 0x7f → U.isSpace c = false
  dot : U.isDigit '.' = false

/-- What is assumed of the public suffix list: a registrable domain is an aligned end of
the host and that of every name between the two, and the `www` label in front of a host that
has one does not change it. -/
structure Normalizer.Aligned (N : Normalizer) : Prop where
  root : ∀ host, (N.extract host).registeredDomain = [] ∨
    isUnder host (N.extract host).registeredDomain = true
  between : ∀ host part, isUnder host part = true →
    isUnder part (N.extract host).registeredDomain = true →
    (N.extract part).registeredDomain = (N.extract host).registeredDomain
  www : ∀ host, (N.extract (stripWww N.unicode host)).registeredDomain ≠ [] →
    (N.extract host).registeredDomain =
      (N.extract (stripWww N.unicode host)).registeredDomain

/-! ## Reading a host -/

section Read

variable {U : Unicode} {host path : Str}

theorem HostChars.printable (h : HostChars host) : ∀ c ∈ host, 0x20 < c.val ∧ c.val < 0x7f := by
  intro c hc
  have hchar := h c hc
  simp only [hostChar, Bool.or_eq_true, Bool.and_eq_true, decide_eq_true_eq] at hchar
  rcases hchar with ((⟨hlow, hhigh⟩ | hdigit) | rfl) | rfl
  · exact ⟨UInt32.lt_of_lt_of_le (by decide) hlow, UInt32.lt_of_le_of_lt hhigh (by decide)⟩
  · obtain ⟨hlow, hhigh⟩ := isDigit_iff.mp hdigit
    exact ⟨UInt32.lt_of_lt_of_le (by decide) hlow, UInt32.lt_of_le_of_lt hhigh (by decide)⟩
  · exact ⟨by decide, by decide⟩
  · exact ⟨by decide, by decide⟩

theorem HostChars.isAscii (h : HostChars host) : Str.isAscii host = true := by
  refine all_eq_true.mpr fun c hc => decide_eq_true ?_
  exact UInt32.lt_of_lt_of_le (h.printable c hc).2 (by decide)

theorem HostChars.not_isUpper (h : HostChars host) : ∀ c ∈ host, ¬ c.isUpper = true := by
  intro c hc hupper
  obtain ⟨hlow, hhigh⟩ := isUpper_iff.mp hupper
  have hchar := h c hc
  simp only [hostChar, Bool.or_eq_true, Bool.and_eq_true, decide_eq_true_eq] at hchar
  rcases hchar with ((⟨hle, -⟩ | hdigit) | rfl) | rfl
  · exact absurd (UInt32.le_trans hle hhigh) (by decide)
  · exact absurd (UInt32.le_trans hlow (isDigit_iff.mp hdigit).2) (by decide)
  · exact absurd hlow (by decide)
  · exact absurd hlow (by decide)

theorem HostChars.lower_eq (hU : AsciiText U) (h : HostChars host) : U.lower host = host := by
  refine hU.lower.eq_self host fun c hc => ?_
  have hval := UInt32.lt_of_lt_of_le (h.printable c hc).2 (by decide : (0x7f : UInt32) ≤ 128)
  rw [hU.lower.ascii c hval, toLower_of_not_isUpper (h.not_isUpper c hc)]

theorem HostChars.strip_eq (hU : AsciiText U) (h : HostChars host) : U.strip host = host := by
  rw [Str.strip_eq_trim, Str.trim_eq_self]
  refine Str.bare_of_forall fun c hc => ?_
  exact hU.space c (h.printable c hc).1 (h.printable c hc).2

theorem CleanHost.no_dots (h : CleanHost host) : Str.hasSub "..".toList host = false := by
  rw [← Bool.not_eq_true, Str.hasSub_iff]
  rintro ⟨a, b, hdots⟩
  have hsplit : host = a ++ '.' :: ('.' :: b) := by
    rw [← hdots, append_assoc]
    rfl
  have hlabels : host.splitOn '.' = a.splitOn '.' ++ ([] :: b.splitOn '.') := by
    rw [hsplit, splitOn_append_cons_self]
    exact congrArg _ (splitOn_append_cons_self [] b)
  refine h.labels [] ?_ rfl
  rw [hlabels]
  exact mem_append_right _ mem_cons_self

theorem HostChars.hostname_eq (hU : AsciiText U) (h : HostChars host) (scheme path query fragment) :
    (SplitResult.mk scheme host path query fragment).hostname U = host := by
  have hmarks : host.Disjoint "@[:%".toList := h.disjoint (by decide)
  have hinfo : hostinfo host = (host, none) := by
    rw [hostinfo, Str.afterLast_of_notMem fun hmem => hmarks hmem (by decide),
      Str.partition_of_notMem fun hmem => hmarks hmem (by decide),
      Str.partition_of_notMem fun hmem => hmarks hmem (by decide)]
    rfl
  rw [SplitResult.hostname, hinfo, Str.partition_of_notMem fun hmem => hmarks hmem (by decide)]
  change U.lower host ++ [] = host
  rw [append_nil, h.lower_eq hU]

theorem HostChars.passesChecks (h : HostChars host) : PassesChecks U host where
  brackets := by
    have hbrackets : host.Disjoint "[]".toList := h.disjoint (by decide)
    rw [bracketsOk, Str.contains_eq_false fun hmem => hbrackets hmem (by decide),
      Str.contains_eq_false fun hmem => hbrackets hmem (by decide)]
    rfl
  check := by
    rw [checkNetloc, h.isAscii]
    simp

theorem getLast_validHost (h : validHost host = true) :
    ∀ c ∈ host.getLast?, ['.'].contains c = false := by
  intro c hc
  obtain ⟨hends, -⟩ := Bool.and_eq_true_iff.mp h
  obtain ⟨-, hlast⟩ := Bool.and_eq_true_iff.mp hends
  rw [hc] at hlast
  rw [← Bool.not_eq_true, contains_iff_mem, mem_singleton]
  rintro rfl
  exact absurd hlast (by decide)

/-- A host, and at most one slash with a segment behind it. -/
def OneSegment (rest : Str) : Prop := rest = [] ∨ ∃ segment, rest = '/' :: segment ∧ '/' ∉ segment

theorem count_slash {rest : Str} (h : HostChars host) (hrest : OneSegment rest) :
    (host ++ rest).count '/' ≤ 1 := by
  rw [count_append, count_eq_zero_of_not_mem h.slash_notMem, Nat.zero_add]
  rcases hrest with rfl | ⟨segment, rfl, hsegment⟩
  · exact Nat.zero_le 1
  · simp [count_eq_zero_of_not_mem hsegment]

theorem no_slashes {s : Str} (hone : s.count '/' ≤ 1) : Str.hasSub "//".toList s = false := by
  rw [← Bool.not_eq_true, Str.hasSub_iff]
  rintro ⟨a, b, hsub⟩
  have htwo : (a ++ "//".toList ++ b).count '/' = a.count '/' + 2 + b.count '/' := by
    rw [count_append, count_append]
    rfl
  rw [hsub] at htwo
  omega

/-- What is read out of host characters and a segment: the host without final dots, if it is
one, and the path. -/
theorem hostAndPath_iff (hU : AsciiText U) (h : HostChars host) {rest name : Str}
    (hrest : OneSegment rest) (hne : host = [] → rest = []) :
    hostAndPath U (host ++ rest) = some (name, path) ↔
      name = Str.rstripChars ['.'] host ∧ SiteHost name ∧ path = pathOf rest := by
  have hfront : (host ++ rest).dropWhile (· = '/') = host ++ rest :=
    Str.dropWhile_eq_self fun c hc => by
      rw [decide_eq_false_iff_not]
      rintro rfl
      cases hhost : host with
      | nil =>
        rw [hne hhost, hhost] at hc
        cases hc
      | cons d s =>
        rw [hhost] at hc
        exact h.slash_notMem (by rw [hhost]; exact mem_of_mem_head? hc)
  obtain ⟨query, fragment, hsplit⟩ := urlsplit_location (U := U) isScheme_http
    (h.disjoint (by decide)) (hrest.imp_right fun ⟨s, hs, _⟩ => ⟨s, hs⟩) h.passesChecks
  change urlsplit U ("http://".toList ++ (host ++ rest)) = _ at hsplit
  simp only [hostAndPath, no_slashes (count_slash h hrest), hfront, Bool.false_eq_true, if_false,
    hsplit, h.hostname_eq hU, h.strip_eq hU, h.lower_eq hU]
  have hname : HostChars (Str.rstripChars ['.'] host) :=
    fun c hc => h c ((Str.rstripChars_sublist _ _).subset hc)
  constructor
  · intro hread
    split_ifs at hread with hempty hvalid hlabels
    obtain ⟨rfl, rfl⟩ := Prod.mk.inj (Option.some.inj hread)
    simp only [Bool.or_eq_true, Bool.not_eq_true', not_or, Bool.not_eq_false] at hempty hvalid
    refine ⟨rfl, ⟨⟨hname, fun label hlabel hnil => hlabels ?_⟩, hvalid.1, ?_⟩, rfl⟩
    · exact any_eq_true.mpr ⟨label, hlabel, by simpa using hnil⟩
    · exact contains_iff_mem.mp hempty.2
  · rintro ⟨rfl, hsite, rfl⟩
    rw [if_neg, if_neg, if_neg]
    · rw [Bool.not_eq_true, any_eq_false]
      exact fun label hlabel => by simpa using hsite.labels label hlabel
    · rw [hsite.valid, hsite.no_dots]
      exact Bool.false_ne_true
    · simp [ne_nil_of_mem hsite.dot, hsite.dot]

theorem SiteHost.rstrip_eq (h : SiteHost host) : Str.rstripChars ['.'] host = host :=
  Str.rstripChars_eq_self (getLast_validHost h.valid)

def quotes : Str := " \t\"'`()[]\x7b\x7d<>".toList

/-- A path behind a host that is read back as it is: one segment at most, without the
characters that part the cell or the URL, with nothing at its end that would be taken off,
and with nothing in it that would be taken for an address. -/
structure PlainPath (U : Unicode) (path : Str) : Prop where
  segment : path = [] ∨ ∃ segment, path = '/' :: segment ∧ segment ≠ [] ∧ '/' ∉ segment
  chars : path.Disjoint "?#,;|\t\r\n".toList
  last : ∀ c ∈ path.getLast?, U.isSpace c = false ∧ c ∉ quotes
  mail : '@' ∈ path → '.' ∉ Str.afterLast '@' path

theorem plainPath_nil (U : Unicode) : PlainPath U [] where
  segment := .inl rfl
  chars := disjoint_nil_left _
  last := fun _ h => nomatch h
  mail := fun h => nomatch h

theorem PlainPath.oneSegment (h : PlainPath U path) : OneSegment path :=
  h.segment.imp_right fun ⟨segment, hpath, _, hslash⟩ => ⟨segment, hpath, hslash⟩

theorem bare_site {p : Char → Bool} (h : SiteHost host) (hhost : ∀ c ∈ host, p c = false)
    (hlast : ∀ c ∈ path.getLast?, p c = false) : Str.Bare p (host ++ path) where
  head := by
    rw [List.head?_append_of_ne_nil _ (ne_nil_of_mem h.dot)]
    exact fun c hc => hhost c (mem_of_mem_head? hc)
  last := by
    rw [List.getLast?_append]
    intro c hc
    cases hpath : path.getLast? with
    | none =>
      rw [hpath] at hc
      exact hhost c (mem_of_mem_getLast? hc)
    | some d =>
      rw [hpath] at hc
      cases hc
      exact hlast _ hpath

section Site

variable (hU : AsciiText U) (h : SiteHost host) (hpath : PlainPath U path)

include h hpath

include hU in
theorem hostAndPath_site : hostAndPath U (host ++ path) = some (host, path) :=
  (hostAndPath_iff hU h.chars hpath.oneSegment
    fun hnil => absurd hnil (ne_nil_of_mem h.dot)).mpr
    ⟨h.rstrip_eq.symm, h, (pathOf_eq_self (disjoint_of_subset_right (by decide) hpath.chars)).symm⟩

theorem eq_host_of_slash {before after : Str} (heq : host ++ path = before ++ '/' :: after) :
    before = host := by
  have hslash : '/' ∉ host := h.chars.slash_notMem
  rcases hpath.segment with rfl | ⟨segment, rfl, -, hsegment⟩
  · refine absurd ?_ hslash
    rw [← append_nil host, heq]
    exact mem_append_right _ mem_cons_self
  · rcases append_eq_append_iff.mp heq with ⟨q, hbefore, hq⟩ | ⟨q, hhost, hq⟩
    · cases q with
      | nil => rw [hbefore, append_nil]
      | cons d q =>
        refine absurd ?_ hsegment
        rw [(List.cons.inj hq).2]
        exact mem_append_right _ mem_cons_self
    · cases q with
      | nil => rw [hhost, append_nil]
      | cons d q =>
        refine absurd ?_ hslash
        rw [hhost, ← (List.cons.inj hq).1]
        exact mem_append_right _ mem_cons_self

include hU in
theorem not_found_separators : Regex.found (separators U) (host ++ path) = false := by
  rw [← Bool.not_eq_true, Regex.found_iff]
  rintro ⟨before, w, after, htext, hreads⟩
  have hseps : (host ++ path).Disjoint ",;|\n\r\t".toList :=
    disjoint_append_left.mpr
      ⟨h.chars.disjoint (by decide), disjoint_of_subset_right (by decide) hpath.chars⟩
  rcases hreads with hreads | hreads
  · obtain ⟨hne, hall⟩ := Regex.reads_plus_char.mp hreads
    obtain ⟨c, hc⟩ := exists_mem_of_ne_nil w hne
    refine hseps ?_ (contains_iff_mem.mp (hall c hc))
    rw [htext]
    exact mem_append_right _ (mem_append_left _ hc)
  · obtain ⟨u, v, rfl, hu, hv⟩ := (Regex.reads_all_cons _).mp hreads
    obtain ⟨v₁, v₂, rfl, ⟨c, hslash, rfl⟩, -⟩ := (Regex.reads_all_cons _).mp hv
    obtain rfl : c = '/' := of_decide_eq_true hslash
    have hhost : before ++ u = host := by
      have hslashed : host ++ path = (before ++ u) ++ '/' :: (v₂ ++ after) := by
        rw [htext]
        simp
      exact eq_host_of_slash h hpath hslashed
    obtain ⟨hne, hall⟩ := Regex.reads_plus_char.mp hu
    obtain ⟨c, hc⟩ := exists_mem_of_ne_nil u hne
    have hprint := h.chars.printable c (hhost ▸ mem_append_right _ hc)
    exact absurd (hall c hc) (by rw [hU.space c hprint.1 hprint.2]; exact Bool.false_ne_true)

include hU in
theorem strip_site : U.strip (host ++ path) = host ++ path := by
  rw [Str.strip_eq_trim, Str.trim_eq_self]
  refine bare_site h (fun c hc => ?_) fun c hc => (hpath.last c hc).1
  exact hU.space c (h.chars.printable c hc).1 (h.chars.printable c hc).2

include hU in
theorem fragments_site : fragments U (host ++ path) = [host ++ path] := by
  have hne := ne_nil_of_mem h.dot
  rw [fragments, Regex.split_of_not_found (not_found_separators hU h hpath)]
  simp [strip_site hU h hpath, hne]

theorem tokens_site :
    tokens (host ++ path) = (host ++ path) :: hostish.findAll (host ++ path) := by
  have hquotes : host.Disjoint quotes := h.chars.disjoint (by decide)
  have hcleaned : Str.stripChars quotes (host ++ path) = host ++ path := by
    rw [Str.stripChars_eq_trim, Str.trim_eq_self]
    refine bare_site h (fun c hc => ?_) fun c hc => ?_
    · exact Str.contains_eq_false fun hmem => hquotes hc hmem
    · exact Str.contains_eq_false (hpath.last c hc).2
  have hne : host ++ path ≠ [] := append_ne_nil_of_left_ne_nil (ne_nil_of_mem h.dot) _
  unfold tokens
  dsimp only
  rw [show " \t\"'`()[]\x7b\x7d<>".toList = quotes from rfl, hcleaned, if_pos hne]
  rfl

theorem mailRest_site {N : Normalizer} : mailRest N (host ++ path) = none := by
  have hmarks : host.Disjoint "@".toList := h.chars.disjoint (by decide)
  have hat : '@' ∉ host := fun hmem => hmarks hmem (by decide)
  unfold mailRest
  dsimp only
  by_cases hmem : '@' ∈ path
  · have hrest : (Str.afterLast '@' (host ++ path)).contains '.' = false := by
      rw [Str.afterLast_append_of_mem hmem]
      exact Str.contains_eq_false (hpath.mail hmem)
    rw [hrest]
    simp
  · have hnot : (host ++ path).contains '@' = false :=
      Str.contains_eq_false fun hin => (mem_append.mp hin).elim hat hmem
    rw [hnot]
    simp

end Site

end Read

/-! ## Platforms and the `www` label -/

section Www

variable {U : Unicode} {host : Str}

theorem stripWww_siteBuilder {b : Str} (hb : b ∈ siteBuilderSuffixes) : stripWww U b = b := by
  have hno : siteBuilderSuffixes.all (fun b => !Str.startsWith b "www".toList) = true := by
    decide
  have hb' := all_eq_true.mp hno b hb
  rw [stripWww, if_neg]
  rw [Bool.not_eq_true]
  simpa using hb'

theorem isUnder_of_label {label bare b : Str} (hlabel : '.' ∉ label)
    (h : isUnder (label ++ '.' :: bare) b = true) (hne : label ++ '.' :: bare ≠ b) :
    isUnder bare b = true := by
  obtain ⟨p, hp⟩ := (isUnder_iff.mp h).resolve_left hne
  rw [isUnder_iff]
  rcases append_eq_append_iff.mp hp with ⟨q, -, hq⟩ | ⟨q, hq, hb⟩
  · cases q with
    | nil => exact .inl (List.cons.inj hq).2
    | cons d q => exact .inr ⟨q, (List.cons.inj hq).2⟩
  · cases q with
    | nil => exact .inl (List.cons.inj hb).2.symm
    | cons d q =>
      obtain ⟨rfl, -⟩ := List.cons.inj hb
      refine absurd ?_ hlabel
      rw [hq]
      exact mem_append_right _ mem_cons_self

theorem isUnder_stripWww (hdot : U.isDigit '.' = false) (host : Str) :
    isUnder host (stripWww U host) = true := by
  rcases stripWww_cases hdot host with hsame | ⟨label, -, hhost⟩
  · exact isUnder_iff.mpr (.inl hsame.symm)
  · exact isUnder_iff.mpr (.inr ⟨label, hhost⟩)

theorem isUnder_stripWww_iff (hdot : U.isDigit '.' = false) (host : Str) {b : Str}
    (hb : b ∈ siteBuilderSuffixes) :
    isUnder (stripWww U host) b = true ↔ isUnder host b = true := by
  rcases stripWww_cases hdot host with hsame | ⟨label, hlabel, hhost⟩
  · rw [hsame]
  · constructor
    · intro h
      exact isUnder_trans (isUnder_stripWww hdot host) h
    · intro h
      by_cases heq : host = b
      · rw [heq, stripWww_siteBuilder hb]
        exact isUnder_iff.mpr (.inl rfl)
      · rw [hhost] at h heq
        exact isUnder_of_label hlabel h heq

theorem siteBuilderSuffix_stripWww (hdot : U.isDigit '.' = false) (host : Str) :
    siteBuilderSuffix (stripWww U host) = siteBuilderSuffix host := by
  unfold siteBuilderSuffix
  have hcongr : ∀ l ⊆ siteBuilderSuffixes,
      l.find? (isUnder (stripWww U host)) = l.find? (isUnder host) := by
    intro l hl
    induction l with
    | nil => rfl
    | cons b l ih =>
      have hb := isUnder_stripWww_iff hdot host (hl mem_cons_self)
      rw [List.find?_cons, List.find?_cons, Bool.eq_iff_iff.mpr hb,
        ih fun b hb => hl (mem_cons_of_mem _ hb)]
  exact hcongr _ (List.Subset.refl _)

end Www

/-! ## The two computations of a key -/

section Agree

variable {N : Normalizer} {host : Str}

theorem HostChars.stripWww (h : HostChars host) (U : Unicode) : HostChars (stripWww U host) :=
  fun c hc => h c (stripWww_subset U host hc)

theorem toPunycode_host (h : HostChars host) :
    toPunycode N (stripWww N.unicode host) = some (stripWww N.unicode host) :=
  if_pos (h.stripWww N.unicode).isAscii

theorem sublist_of_mem_findAll {s token : Str} (h : token ∈ hostish.findAll s) :
    token.Sublist s := by
  obtain ⟨before, _, after, htext, -⟩ := Regex.reads_of_mem_findAll h
  rw [htext]
  exact (sublist_append_left _ _).trans (sublist_append_right _ _)

/-- What decides a cell that holds nothing but a host: the host, or a name in it if the host
has no key. -/
theorem normalizeInput_host (hU : AsciiText N.unicode) (h : SiteHost host)
    (hok : (normalizeInput N host).ok = true) : ∃ display notes,
      tryHost N .website display notes host [] = some (normalizeInput N host) ∨
      tryHost N .website display notes host [] = none ∧ ∃ token ∈ hostish.findAll host,
        tryToken N .website display notes token = some (normalizeInput N host) := by
  have hpath := plainPath_nil N.unicode
  have hfragments := fragments_site hU h hpath
  have hread := hostAndPath_site hU h hpath
  have htokens := tokens_site h hpath
  have hmail := mailRest_site (N := N) h hpath
  rw [append_nil] at hfragments hread htokens hmail
  rcases normalizeInput_cases N host with
    ⟨-, hrefused⟩ | ⟨notes, ⟨fragment, hfragment, hdecides⟩ | ⟨-, hrefused⟩⟩
  · exact absurd (hok.symm.trans hrefused) (by decide)
  · rw [h.chars.strip_eq hU] at hfragment hdecides
    rw [hfragments, mem_singleton] at hfragment
    subst hfragment
    rw [normalizeFragment, hmail, htokens] at hdecides
    dsimp only at hdecides
    rw [List.findSome?_cons, tryToken, hread, Option.bind_some] at hdecides
    refine ⟨fragment, notes, ?_⟩
    cases htry : tryHost N .website fragment notes fragment [] with
    | some n =>
      rw [htry] at hdecides
      exact .inl hdecides
    | none =>
      rw [htry] at hdecides
      exact .inr ⟨rfl, exists_of_findSome?_eq_some hdecides⟩
  · exact absurd (hok.symm.trans hrefused) (by decide)

theorem KeyOf.isUnder (hroot : ∀ host, (N.extract host).registeredDomain = [] ∨
      Normalize.isUnder host (N.extract host).registeredDomain = true) {encoded path key : Str}
    (h : KeyOf N encoded path key) (hslash : '/' ∉ encoded) (hdot : '.' ∈ encoded) :
    Normalize.isUnder encoded (hostOfKey key) = true ∧ '.' ∈ hostOfKey key := by
  cases h with
  | builder =>
    rw [hostOfKey_builderKey, hostOfKey_of_notMem hslash]
    exact ⟨isUnder_iff.mpr (.inl rfl), hdot⟩
  | root hsuffix hne =>
    have hunder := (hroot encoded).resolve_left hne
    rw [hostOfKey_of_notMem fun hmem => hslash (subset_of_isUnder hunder hmem)]
    refine ⟨hunder, ?_⟩
    unfold ExtractResult.registeredDomain at hne ⊢
    split at hne
    · rename_i hparts
      rw [if_pos hparts]
      simp
    · exact absurd rfl hne

theorem sublist_of_isUnder {key : Str} (h : isUnder host key = true) : key.Sublist host := by
  rcases isUnder_iff.mp h with rfl | ⟨p, rfl⟩
  · exact List.Sublist.refl _
  · exact (sublist_cons_self _ _).trans (sublist_append_right _ _)

/-- A host that has a registrable domain other than itself has one without its `www` label
too, so that the host decides. -/
theorem eq_host_of_passed (hU : AsciiText N.unicode) (hN : N.Aligned) (h : SiteHost host)
    {display : Str} {notes : List Str} (hpassed : tryHost N .website display notes host [] = none)
    (hkey : '.' ∈ registrable N.extract host) : registrable N.extract host = host := by
  have hnot : ∀ {bare : Str}, toPunycode N (stripWww N.unicode host) = some bare → '.' ∈ bare →
      registrable N.extract bare = [] := by
    intro bare hbare hdot
    by_contra hne
    have hdecided : (tryHost N .website display notes host []).isSome = true :=
      tryHost_isSome_iff.mpr (.inr ⟨_, hbare, hdot, .inr hne⟩)
    rw [hpassed] at hdecided
    cases hdecided
  have hcode := toPunycode_host (N := N) h.chars
  have hplatform := siteBuilderSuffix_stripWww hU.dot host
  unfold registrable at hkey ⊢
  split
  · rfl
  · rename_i hsuffix
    rw [if_neg hsuffix] at hkey
    have hunder := (hN.root host).resolve_left (ne_nil_of_mem hkey)
    rcases stripWww_cases hU.dot host with hsame | ⟨label, hlabel, hhost⟩
    · have hnone := hnot hcode (by rw [hsame]; exact h.dot)
      rw [hsame, registrable, if_neg hsuffix] at hnone
      rw [hnone] at hkey
      cases hkey
    · by_contra hne
      have hbare : isUnder (stripWww N.unicode host) (N.extract host).registeredDomain = true :=
        isUnder_of_label hlabel (by rwa [← hhost]) (by rw [← hhost]; exact Ne.symm hne)
      have hroot := hN.between host _ (isUnder_stripWww hU.dot host) hbare
      have hnone := hnot hcode (subset_of_isUnder hbare hkey)
      rw [registrable, hplatform, if_neg hsuffix, hroot] at hnone
      rw [hnone] at hkey
      cases hkey

/-- The key of a cell that holds a host is the key of the host exactly when the host has a
key without its `www` label, and has no such label or is under no platform. -/
theorem host_key_agrees_iff (hU : AsciiText N.unicode) (hN : N.Aligned) (h : SiteHost host)
    (hok : (normalizeInput N host).ok = true) :
    ∃ key, (normalizeInput N host).domain = some key ∧
      (hostOfKey key = registrable N.extract host ↔
        '.' ∈ stripWww N.unicode host ∧ registrable N.extract (stripWww N.unicode host) ≠ [] ∧
          (stripWww N.unicode host = host ∨
            siteBuilderSuffix (stripWww N.unicode host) = none)) := by
  obtain ⟨key, hdomain⟩ := Option.isSome_iff_exists.mp (Bool.and_eq_true_iff.mp hok).1
  have hplatform := siteBuilderSuffix_stripWww hU.dot host
  have hcode := toPunycode_host (N := N) h.chars
  have hslash := (h.chars.stripWww N.unicode).slash_notMem
  refine ⟨key, hdomain, ?_⟩
  obtain ⟨display, notes, hdecides | ⟨hnone, token, htoken, hdecides⟩⟩ :=
    normalizeInput_host hU h hok
  · obtain ⟨-, encoded, hencoded, hdot, -, hkeyOf⟩ := tryHost_accepts hdecides hdomain
    obtain rfl := Option.some.inj (hcode.symm.trans hencoded)
    cases hkeyOf with
    | builder hsuffix =>
      rw [hostOfKey_builderKey, hostOfKey_of_notMem hslash, registrable, registrable, ← hplatform,
        hsuffix, if_pos Option.isSome_some, if_pos Option.isSome_some]
      simp [hdot, ne_nil_of_mem hdot]
    | root hsuffix hroot =>
      have hunder := (hN.root _).resolve_left hroot
      rw [hostOfKey_of_notMem fun hmem => hslash (subset_of_isUnder hunder hmem), registrable,
        registrable, ← hplatform, hsuffix, if_neg (by simp), if_neg (by simp), hN.www host hroot]
      simp [hdot, hroot]
  · obtain ⟨⟨name, path⟩, hread, hhost⟩ := Option.bind_eq_some_iff.mp hdecides
    have hsub := sublist_of_mem_findAll htoken
    rw [← append_nil token] at hread
    obtain ⟨rfl, hsite, rfl⟩ := (hostAndPath_iff hU (fun c hc => h.chars c (hsub.mem hc))
      (.inl rfl) fun _ => rfl).mp hread
    obtain ⟨-, encoded, hencoded, hdot, -, hkeyOf⟩ := tryHost_accepts hhost hdomain
    obtain rfl := Option.some.inj ((toPunycode_host hsite.chars).symm.trans hencoded)
    obtain ⟨hunder, hdotted⟩ := hkeyOf.isUnder hN.root
      (hsite.chars.stripWww N.unicode).slash_notMem hdot
    refine iff_of_false (fun hagree => ?_) fun hown => ?_
    · -- the key would be the whole host, and the name it was read from too
      have hself := eq_host_of_passed hU hN h hnone (hagree ▸ hdotted)
      have hpart := (sublist_of_isUnder (isUnder_trans (isUnder_stripWww hU.dot _) hunder))
      rw [hagree, hself] at hpart
      have hname : Str.rstripChars ['.'] token = host :=
        ((Str.rstripChars_sublist _ _).trans hsub).antisymm hpart
      rw [hname] at hhost
      cases hnone.symm.trans hhost
    · have hdecided : (tryHost N .website display notes host []).isSome = true :=
        tryHost_isSome_iff.mpr (.inr ⟨_, hcode, hown.1, .inr hown.2.1⟩)
      rw [hnone] at hdecided
      cases hdecided

end Agree

section Example

theorem asciiText_ascii : AsciiText .ascii where
  lower := Unicode.lawfulLower_ascii
  space := fun _ hlow _ => Unicode.not_isSpace_of_lt hlow
  dot := by decide

theorem acmeNormalizer_aligned : acmeNormalizer.Aligned where
  root := fun host => (acmeNormalizer_suffixed.root host).imp id And.left
  between := by
    intro host part hpart hroot
    change isUnder part (acmeExtract host).registeredDomain = true at hroot
    change (acmeExtract part).registeredDomain = (acmeExtract host).registeredDomain
    rw [acmeExtract_registeredDomain host] at hroot ⊢
    split at hroot
    · rename_i hhost
      rw [acmeExtract_registeredDomain, if_pos hroot, if_pos hhost]
    · rename_i hhost
      rw [acmeExtract_registeredDomain, if_neg fun h => hhost (isUnder_trans hpart h), if_neg hhost]
  www := by
    intro host hroot
    change (acmeExtract (stripWww .ascii host)).registeredDomain ≠ [] at hroot
    change (acmeExtract host).registeredDomain =
      (acmeExtract (stripWww .ascii host)).registeredDomain
    rw [acmeExtract_registeredDomain] at hroot ⊢
    have hbare : isUnder (stripWww .ascii host) "acme.com".toList = true := by
      by_contra hnot
      exact hroot (if_neg hnot)
    have hhost := isUnder_trans (isUnder_stripWww (U := .ascii) (by decide) host) hbare
    rw [acmeExtract_registeredDomain, if_pos hhost, if_pos hbare]

theorem siteHost_of_tests {host : Str} (hchars : host.all hostChar = true)
    (hlabels : (host.splitOn '.').all (fun label => !label.isEmpty) = true)
    (hvalid : validHost host = true) (hdot : '.' ∈ host) : SiteHost host where
  chars := all_eq_true.mp hchars
  labels := by
    intro label hlabel
    simpa using all_eq_true.mp hlabels label hlabel
  valid := hvalid
  dot := hdot

theorem siteHost_www_acme : SiteHost "www.acme.com".toList :=
  siteHost_of_tests (by decide) (by decide) (by decide) (by decide)

theorem siteHost_www_bob : SiteHost "www.bob.wixsite.com".toList :=
  siteHost_of_tests (by decide) (by decide) (by decide) (by decide)

/-- The `www` spelling of a host under a platform has one key as a cell and another as a
host; a host without a key of its own can give the cell the key of a part of it. -/
theorem www_platform_key_differs :
    ((normalizeInput acmeNormalizer "www.bob.wixsite.com".toList).domain.map hostOfKey,
        registrable acmeExtract "www.bob.wixsite.com".toList) =
      (some "bob.wixsite.com".toList, "www.bob.wixsite.com".toList) ∧
    ((normalizeInput acmeNormalizer "acme.com.123".toList).domain.map hostOfKey,
        registrable acmeExtract "acme.com.123".toList) = (some "acme.com".toList, []) := by
  decide +kernel

/-- The `www` spelling of a host of its own has one key, the `www` spelling of a host under
a platform another one than the host. -/
theorem www_acme_key_agrees :
    (∃ key, (normalizeInput acmeNormalizer "www.acme.com".toList).domain = some key ∧
      hostOfKey key = registrable acmeNormalizer.extract "www.acme.com".toList) ∧
    ∃ key, (normalizeInput acmeNormalizer "www.bob.wixsite.com".toList).domain = some key ∧
      hostOfKey key ≠ registrable acmeNormalizer.extract "www.bob.wixsite.com".toList := by
  obtain ⟨key, hkey, hagree⟩ := host_key_agrees_iff asciiText_ascii acmeNormalizer_aligned
    siteHost_www_acme (by decide +kernel)
  obtain ⟨key', hkey', hdiffer⟩ := host_key_agrees_iff asciiText_ascii acmeNormalizer_aligned
    siteHost_www_bob (by decide +kernel)
  exact ⟨⟨key, hkey, hagree.mpr (by decide +kernel)⟩,
    key', hkey', fun heq => absurd (hdiffer.mp heq) (by decide +kernel)⟩

end Example

end Ingest

end EmailExtractor
