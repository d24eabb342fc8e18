import EmailExtractor.Ingest.HostKeys

/-!
# Crawl keys as cells

A crawl key that is submitted as a cell again. The host of the key is read as before, and so
is a path segment behind it, if the key holds nothing that the first steps take off or take
for something else: a `www` label in front, which a host with two of them keeps after the
first pass, a quote or a bracket at the end of the segment, an `@` with a dot behind it. No
step adds a character, so a key that holds such a thing comes back shorter.
-/

namespace EmailExtractor

namespace Ingest

open Normalize Url List

/-- What is assumed of the public suffix list and the encoding of names: a registrable domain
is an aligned end of the host and its own registrable domain, and an encoded name has the
characters of a lower-case ASCII host. -/
structure Normalizer.Rooted (N : Normalizer) : Prop where
  root : ∀ host, (N.extract host).registeredDomain = [] ∨
    isUnder host (N.extract host).registeredDomain = true
  idem : ∀ host, (N.extract host).registeredDomain ≠ [] →
    (N.extract (N.extract host).registeredDomain).registeredDomain =
      (N.extract host).registeredDomain
  idna : ∀ host encoded, N.idna host = some encoded → HostChars encoded

/-- The key is read back as its host and its path. -/
structure Stable (N : Normalizer) (key : Str) : Prop where
  site : SiteHost (hostOfKey key)
  www : stripWww N.unicode (hostOfKey key) = hostOfKey key
  address : ipv4 N.unicode (hostOfKey key) = false
  path : ∀ path, key = hostOfKey key ++ path → PlainPath N.unicode path

variable {N : Normalizer} {host path key : Str}

/-! ## Reading a host and a path as a cell -/

/-- Lower-casing keeps the host, and no word for an empty cell has a host in it. -/
theorem not_null_site (hlower : N.unicode.LowersWithin) (h : SiteHost host) (path : Str) :
    nullTokens.contains (N.unicode.lower (host ++ path)) = false := by
  have hascii : ∀ c ∈ host, c.val < 128 := Str.val_lt_of_isAscii h.chars.isAscii
  obtain ⟨before, after, hlowered, -⟩ := hlower [] host path hascii
  have hkeeps : ∀ c ∈ host, c ∈ N.unicode.lower (host ++ path) := by
    intro c hc
    rw [← nil_append (host ++ path), hlowered]
    refine mem_append_right _ (mem_append_left _ (mem_map.mpr ⟨c, hc, ?_⟩))
    exact toLower_of_not_isUpper (h.chars.not_isUpper c hc)
  have hdotted : nullTokens.all (fun t => !t.contains '.' || t = ['.']) = true := by decide
  rw [← Bool.not_eq_true, contains_iff_mem]
  intro hnull
  have htoken := all_eq_true.mp hdotted _ hnull
  rw [contains_iff_mem.mpr (hkeeps '.' h.dot), Bool.not_true, Bool.false_or,
    decide_eq_true_eq] at htoken
  -- a host begins with a letter or a digit
  obtain ⟨hends, -⟩ := Bool.and_eq_true_iff.mp h.valid
  have hfirst := (Bool.and_eq_true_iff.mp hends).1
  cases hc : host.head? with
  | none =>
    rw [hc] at hfirst
    cases hfirst
  | some c =>
    have hmem := hkeeps c (mem_of_mem_head? hc)
    rw [htoken, mem_singleton] at hmem
    rw [hc, hmem] at hfirst
    exact absurd hfirst (by decide)

theorem normalizeInput_site (hU : AsciiText N.unicode) (hlower : N.unicode.LowersWithin)
    (h : SiteHost host) (hpath : PlainPath N.unicode path) {n : NormalizedInput}
    (hn : tryHost N .website (host ++ path) [] host path = some n) :
    normalizeInput N (host ++ path) = n := by
  have hfragment : normalizeFragment N (host ++ path) (host ++ path) [] = some n := by
    rw [normalizeFragment, mailRest_site h hpath, tokens_site h hpath]
    dsimp only
    rw [List.findSome?_cons, tryToken, hostAndPath_site hU h hpath, Option.bind_some, hn]
  unfold normalizeInput
  dsimp only
  rw [strip_site hU h hpath, not_null_site hlower h path, fragments_site hU h hpath]
  simp [hfragment]

/-! ## The key of a key -/

theorem not_social_nil {host path : Str} (h : isSocial host path = false) :
    isSocial host [] = false := by
  unfold isSocial at h ⊢
  rw [(Bool.or_eq_false_iff.mp h).1, Bool.false_or, any_eq_false]
  have hnone : socialPathHosts.all (fun h => !h.2.any (Str.startsWith [])) = true := by decide
  intro entry hentry
  have hstart := all_eq_true.mp hnone entry hentry
  rw [Bool.not_eq_true'] at hstart
  rw [hstart, Bool.and_false]
  exact Bool.false_ne_true

theorem not_social_scoped {host path suffix : Str} (h : isSocial host path = false)
    (hscoped : pathScopedSuffixes.contains suffix = true) (hunder : isUnder host suffix = true)
    (path' : Str) : isSocial host path' = false := by
  unfold isSocial at h ⊢
  rw [(Bool.or_eq_false_iff.mp h).1, Bool.false_or, any_eq_false]
  have happart : pathScopedSuffixes.all (fun s => socialPathHosts.all fun h =>
      !isUnder s h.1 && !isUnder h.1 s) = true := by
    decide
  intro entry hentry hsocial
  have hpair := all_eq_true.mp
    (all_eq_true.mp happart suffix (contains_iff_mem.mp hscoped)) entry hentry
  rw [Bool.and_eq_true, Bool.not_eq_true', Bool.not_eq_true'] at hpair
  rcases isUnder_or_isUnder hunder (Bool.and_eq_true_iff.mp hsocial).1 with hle | hge
  · exact Bool.false_ne_true (hpair.1.symm.trans hle)
  · exact Bool.false_ne_true (hpair.2.symm.trans hge)

theorem not_social_of_isUnder {host root : Str} (hunder : isUnder host root = true)
    (h : isSocial host [] = false) : isSocial root [] = false := by
  rw [← Bool.not_eq_true] at h ⊢
  intro hsocial
  refine h ?_
  unfold isSocial at hsocial ⊢
  rcases Bool.or_eq_true_iff.mp hsocial with hany | hany
  · obtain ⟨g, hg, hroot⟩ := any_eq_true.mp hany
    exact Bool.or_eq_true_iff.mpr (.inl (any_eq_true.mpr ⟨g, hg, isUnder_trans hunder hroot⟩))
  · obtain ⟨g, hg, hroot⟩ := any_eq_true.mp hany
    obtain ⟨hroot, hstart⟩ := Bool.and_eq_true_iff.mp hroot
    refine Bool.or_eq_true_iff.mpr (.inr (any_eq_true.mpr ⟨g, hg, ?_⟩))
    exact Bool.and_eq_true_iff.mpr ⟨isUnder_trans hunder hroot, hstart⟩

theorem builderKey_cases (host suffix path : Str) :
    builderKey host suffix path = host ∨ pathScopedSuffixes.contains suffix = true ∧
      ∃ segment ∈ path.splitOn '/', segment ≠ [] ∧
        builderKey host suffix path = host ++ '/' :: segment := by
  unfold builderKey
  split
  · rename_i hscoped
    split
    · rename_i first hfirst
      have htest := List.find?_some hfirst
      exact .inr ⟨hscoped, first, mem_of_find?_eq_some hfirst, of_decide_eq_true htest, rfl⟩
    · exact .inl rfl
  · exact .inl rfl

theorem builderKey_nil (host suffix : Str) : builderKey host suffix [] = host := by
  unfold builderKey
  split
  · rfl
  · rfl

theorem builderKey_segment {host suffix segment : Str}
    (hscoped : pathScopedSuffixes.contains suffix = true) (hne : segment ≠ [])
    (hslash : '/' ∉ segment) :
    builderKey host suffix ('/' :: segment) = host ++ '/' :: segment := by
  have hsplit : ('/' :: segment).splitOn '/' = [[], segment] := by
    rw [← nil_append ('/' :: segment), splitOn_append_cons_self,
      splitOn_eq_singleton hslash]
    rfl
  rw [builderKey, if_pos hscoped, hsplit]
  simp [hne]

theorem KeyOf.again (hN : N.Rooted) {encoded : Str} (h : KeyOf N encoded path key)
    (hslash : '/' ∉ encoded) (hsocial : isSocial encoded path = false) :
    ∃ path', key = hostOfKey key ++ path' ∧ isSocial (hostOfKey key) path' = false ∧
      KeyOf N (hostOfKey key) path' key := by
  cases h with
  | @builder suffix hsuffix hne =>
    obtain ⟨-, hunder⟩ := siteBuilderSuffix_spec hsuffix
    rw [hostOfKey_builderKey, hostOfKey_of_notMem hslash]
    rcases builderKey_cases encoded suffix path with
      hkey | ⟨hscoped, segment, hsegment, hsegment_ne, hkey⟩
    · rw [hkey]
      refine ⟨[], (append_nil _).symm, not_social_nil hsocial, ?_⟩
      have hagain : KeyOf N encoded [] (builderKey encoded suffix []) := .builder hsuffix hne
      rwa [builderKey_nil] at hagain
    · rw [hkey]
      refine ⟨'/' :: segment, rfl, not_social_scoped hsocial hscoped hunder _, ?_⟩
      have hagain : KeyOf N encoded ('/' :: segment)
          (builderKey encoded suffix ('/' :: segment)) := .builder hsuffix hne
      rwa [builderKey_segment hscoped hsegment_ne (Str.notMem_of_mem_splitOn hsegment)] at hagain
  | root hsuffix hroot =>
    have hunder := (hN.root encoded).resolve_left hroot
    have hidem := hN.idem encoded hroot
    rw [hostOfKey_of_notMem fun hmem => hslash (subset_of_isUnder hunder hmem)]
    refine ⟨[], (append_nil _).symm, ?_, ?_⟩
    · exact not_social_of_isUnder hunder (not_social_nil hsocial)
    · have hplatform : siteBuilderSuffix (N.extract encoded).registeredDomain = none := by
        rw [siteBuilderSuffix_eq_none_iff] at hsuffix ⊢
        intro b hb
        rw [← Bool.not_eq_true]
        intro hrootUnder
        exact Bool.false_ne_true ((hsuffix b hb).symm.trans (isUnder_trans hunder hrootUnder))
      have hagain : KeyOf N (N.extract encoded).registeredDomain []
          (N.extract (N.extract encoded).registeredDomain).registeredDomain :=
        .root hplatform (by rwa [hidem])
      rwa [hidem] at hagain

theorem tryHost_keyOf (h : HostChars host) (hdot : '.' ∈ host)
    (hwww : stripWww N.unicode host = host) (haddress : ipv4 N.unicode host = false)
    (hsocial : isSocial host path = false) (hkey : KeyOf N host path key)
    (source : DomainSource) (display : Str) (notes : List Str) :
    tryHost N source display notes host path =
      some { domain := some key, display := display, domainSource := source, notes := notes } := by
  have hcode : toPunycode N host = some host := if_pos h.isAscii
  have hkeep : (decide (host = []) || !host.contains '.') = false := by
    simp [hdot, ne_nil_of_mem hdot]
  unfold tryHost
  simp only [haddress, hwww, hcode, hkeep, hsocial, Bool.false_eq_true, if_false]
  cases hkey with
  | builder hsuffix hne => simp only [hsuffix, if_neg hne]
  | root hsuffix hroot => simp only [hsuffix, if_pos hroot]

/-! ## No step adds a character -/

theorem hostChar_of_validHost (hvalid : validHost host = true) {c : Char} (hc : c ∈ host)
    (hlow : c.val < 128) : hostChar c = true := by
  have hletter := all_eq_true.mp (Bool.and_eq_true_iff.mp hvalid).2 c hc
  have hnarrow : isWide c = false := by
    rw [isWide, Bool.and_eq_false_iff, decide_eq_false_iff_not, UInt32.not_le]
    exact .inl (UInt32.lt_trans hlow (by decide))
  simp only [isHostLetter, hnarrow, Bool.or_false, Bool.or_eq_true] at hletter
  simp only [hostChar, Bool.or_eq_true]
  tauto

theorem hostChars_of_hostOf (hN : N.Rooted) {token encoded : Str}
    (hparsed : hostAndPath N.unicode token = some (host, path))
    (hencoded : toPunycode N (stripWww N.unicode host) = some encoded) : HostChars encoded := by
  unfold toPunycode at hencoded
  split at hencoded
  · rename_i hascii
    cases hencoded
    exact fun c hc => hostChar_of_validHost (hostAndPath_cases hparsed).1
      (stripWww_subset _ _ hc) (Str.val_lt_of_isAscii hascii c hc)
  · exact hN.idna _ _ hencoded

/-- The host of a key stands at the end of the encoded host, and a segment behind it is one
of the path. -/
theorem KeyOf.parts (hN : N.Rooted) {encoded : Str} (h : KeyOf N encoded path key)
    (hchars : HostChars encoded) : (hostOfKey key).Sublist encoded ∧
      (key = hostOfKey key ∨ ∃ segment ∈ path.splitOn '/', segment ≠ [] ∧
        key = hostOfKey key ++ '/' :: segment) := by
  cases h with
  | @builder suffix =>
    rw [hostOfKey_builderKey, hostOfKey_of_notMem hchars.slash_notMem]
    exact ⟨List.Sublist.refl _, (builderKey_cases encoded suffix path).imp_right And.right⟩
  | root hsuffix hroot =>
    have hunder := (hN.root encoded).resolve_left hroot
    rw [hostOfKey_of_notMem fun hmem => hchars.slash_notMem (subset_of_isUnder hunder hmem)]
    exact ⟨sublist_of_isUnder hunder, .inl rfl⟩

theorem tokens_sublist {s token : Str} (h : token ∈ tokens s) : token.Sublist s := by
  rcases mem_append.mp h with hcleaned | hfound
  · split at hcleaned
    · rw [mem_singleton.mp hcleaned, Str.stripChars_eq_trim]
      exact Str.trim_sublist _ _
    · cases hcleaned
  · exact sublist_of_mem_findAll hfound

theorem mailRest_sublist (N : Normalizer) (fragment : Str) :
    ((mailRest N fragment).getD fragment).Sublist fragment := by
  unfold mailRest
  dsimp only
  split
  · exact Str.afterLast_sublist _ _
  · exact List.Sublist.refl _

theorem not_reads_separators {U : Unicode} (prev : Option Char) (after : Str) :
    ¬ (separators U).Reads prev [] after := by
  rintro (h | h)
  · exact (Regex.reads_plus_char.mp h).1 rfl
  · obtain ⟨u, v, hnil, hu, -⟩ := (Regex.reads_all_cons _).mp h
    rw [nil_eq, append_eq_nil_iff] at hnil
    exact (Regex.reads_plus_char.mp hu).1 hnil.1

theorem fragments_sublist {U : Unicode} {value fragment : Str}
    (h : fragment ∈ fragments U value) : fragment.Sublist value := by
  unfold fragments at h
  dsimp only at h
  split at h
  · obtain ⟨piece, hpiece, rfl⟩ := mem_map.mp (mem_filter.mp h).1
    refine (Str.trim_sublist _ _).trans ?_
    rcases Regex.mem_split_cases not_reads_separators hpiece with ⟨rfl, -⟩ | ⟨hsub, -⟩
    · exact List.Sublist.refl _
    · exact hsub
  · split at h
    · rw [mem_singleton.mp h]
      exact Str.trim_sublist _ _
    · cases h

theorem DecidedBy.sublist {raw token : Str} (h : DecidedBy N raw token) : token.Sublist raw := by
  obtain ⟨fragment, hfragment, htoken, -⟩ := h
  exact (tokens_sublist htoken).trans ((mailRest_sublist N fragment).trans
    ((fragments_sublist hfragment).trans (Str.trim_sublist _ _)))

/-- A cell that is its own token is left as it is by every step before. -/
theorem DecidedBy.self {raw : Str} (h : DecidedBy N raw raw) :
    N.unicode.strip raw = raw ∧ raw ∈ fragments N.unicode raw ∧ mailRest N raw = none ∧
      raw ∈ tokens raw := by
  obtain ⟨fragment, hfragment, htoken, -⟩ := h
  have hstrip := Str.trim_sublist N.unicode.isSpace raw
  have hpart := fragments_sublist hfragment
  have hrest := mailRest_sublist N fragment
  have hcleaned := tokens_sublist htoken
  have hraw : N.unicode.strip raw = raw :=
    hstrip.antisymm (hcleaned.trans (hrest.trans hpart))
  rw [hraw] at hfragment hpart
  obtain rfl : fragment = raw := hpart.antisymm (hcleaned.trans hrest)
  have hsame : (mailRest N fragment).getD fragment = fragment := hrest.antisymm hcleaned
  rw [hsame] at htoken
  refine ⟨hraw, hfragment, ?_, htoken⟩
  unfold mailRest at hsame ⊢
  dsimp only at hsame ⊢
  split at hsame
  · rename_i hmail
    have hat : '@' ∈ fragment := by
      simp only [Bool.and_eq_true] at hmail
      exact contains_iff_mem.mp hmail.1.1.1
    rw [Option.getD_some] at hsame
    rw [← hsame] at hat
    exact absurd hat Str.notMem_afterLast
  · rename_i hmail
    exact if_neg hmail

theorem path_of_hostAndPath {token : Str} (hone : token.count '/' ≤ 1)
    (hslash : '/' ∉ token.dropWhile (· = '/'))
    (h : hostAndPath N.unicode token = some (host, path)) : path = [] := by
  simp only [hostAndPath, no_slashes hone, Bool.false_eq_true, if_false] at h
  split at h
  · cases h
  · rename_i parts hparts
    split_ifs at h
    obtain ⟨-, rfl⟩ := Prod.mk.inj (Option.some.inj h)
    exact path_of_slashless hslash hparts

/-- A key that is read back out of a part of itself is that part, and its host is read as it
is: what a step reads is never longer than what it is given. -/
theorem eq_of_keyOf (hU : AsciiText N.unicode) (hN : N.Rooted) {rest token encoded : Str}
    (hkey : key = hostOfKey key ++ rest) (hchars : HostChars (hostOfKey key))
    (hrest : OneSegment rest) (hsub : token.Sublist key)
    (hparsed : hostAndPath N.unicode token = some (host, path))
    (hencoded : toPunycode N (stripWww N.unicode host) = some encoded)
    (hkeyOf : KeyOf N encoded path key) :
    token = key ∧ host = hostOfKey key ∧ SiteHost host ∧ stripWww N.unicode host = host := by
  have hone : token.count '/' ≤ 1 := by
    refine Nat.le_trans (hsub.count_le _) ?_
    rw [hkey]
    exact count_slash hchars hrest
  obtain ⟨hhost, hsegment⟩ := hkeyOf.parts hN (hostChars_of_hostOf hN hparsed hencoded)
  -- without a slash behind the host no path is read, and the key has none
  have hbare : '/' ∉ token.dropWhile (· = '/') → rest = [] := by
    intro hslash
    obtain rfl := path_of_hostAndPath hone hslash hparsed
    rcases hsegment with hsame | ⟨segment, hmem, hne, -⟩
    · rw [hsame, hostOfKey_of_notMem hchars.slash_notMem] at hkey
      simpa using hkey
    · exact absurd (mem_singleton.mp hmem) hne
  rw [hkey] at hsub
  obtain ⟨front, back, rfl, hfront, hback⟩ := sublist_append_iff.mp hsub
  have hfrontChars : HostChars front := fun c hc => hchars c (hfront.mem hc)
  have hshape : OneSegment back ∧ (front = [] → back = []) := by
    rcases hrest with rfl | ⟨segment, rfl, hslash⟩
    · rw [sublist_nil] at hback
      exact ⟨.inl hback, fun _ => hback⟩
    · have hnot : ∀ s : Str, s.Sublist segment → '/' ∉ s := fun s hs hmem => hslash (hs.mem hmem)
      rcases sublist_cons_iff.mp hback with hback | ⟨part, rfl, hpart⟩
      · refine absurd (hbare fun hmem => ?_) (cons_ne_nil _ _)
        rcases mem_append.mp ((dropWhile_sublist _).mem hmem) with hmem | hmem
        · exact hfrontChars.slash_notMem hmem
        · exact hnot back hback hmem
      · refine ⟨.inr ⟨part, rfl, hnot part hpart⟩, ?_⟩
        rintro rfl
        refine absurd (hbare fun hmem => hnot part hpart ?_) (cons_ne_nil _ _)
        rw [nil_append, dropWhile_cons_of_pos (by decide)] at hmem
        exact (dropWhile_sublist _).mem hmem
  obtain ⟨rfl, hsite, rfl⟩ := (hostAndPath_iff hU hfrontChars hshape.1 hshape.2).mp hparsed
  obtain rfl := Option.some.inj ((toPunycode_host hsite.chars).symm.trans hencoded)
  have hwww := sublist_of_isUnder (isUnder_stripWww hU.dot (Str.rstripChars ['.'] front))
  have hdots := Str.rstripChars_sublist ['.'] front
  have hall : front = hostOfKey key := hfront.antisymm (hhost.trans (hwww.trans hdots))
  have hname : Str.rstripChars ['.'] front = front :=
    hdots.antisymm (hfront.trans (hhost.trans hwww))
  refine ⟨?_, hname.trans hall, hsite, hwww.antisymm (hdots.trans (hfront.trans hhost))⟩
  -- the segment of the key was read out of what stands behind the host
  have hrest_sub : rest.Sublist back := by
    rcases hrest with rfl | ⟨segment, rfl, hslash⟩
    · exact nil_sublist _
    rcases hsegment with hsame | ⟨segment', hmem, hne, hagain⟩
    · rw [hsame, hostOfKey_of_notMem hchars.slash_notMem] at hkey
      simp at hkey
    · rw [hagain, hostOfKey_append, hostOfKey_of_notMem hchars.slash_notMem] at hkey
      obtain rfl := (List.cons.inj (append_cancel_left hkey)).2
      have hread := (Str.sublist_of_mem_splitOn hmem).trans (pathOf_sublist back)
      rcases hshape.1 with rfl | ⟨part, rfl, -⟩
      · exact absurd (sublist_nil.mp hread) hne
      · rcases sublist_cons_iff.mp hread with hread | ⟨_, rfl, -⟩
        · exact hread.cons_cons _
        · exact absurd mem_cons_self hslash
  conv_rhs => rw [hkey, ← hall, ← hback.antisymm hrest_sub]

theorem disjoint_of_not_found {U : Unicode} {s : Str} (h : Regex.found (separators U) s = false) :
    s.Disjoint ",;|\n\r\t".toList := by
  intro c hc hmem
  rw [← Bool.not_eq_true, Regex.found_iff] at h
  obtain ⟨before, after, rfl⟩ := append_of_mem hc
  refine h ⟨before, [c], after, rfl, .inl (Regex.reads_plus_char.mpr ⟨cons_ne_nil _ _, ?_⟩)⟩
  intro d hd
  rw [mem_singleton.mp hd]
  exact contains_iff_mem.mpr hmem

theorem SiteHost.exists_head (h : SiteHost host) :
    ∃ c s, host = c :: s ∧ 0x20 < c.val ∧ c.val < 0x7f := by
  obtain ⟨c, s, rfl⟩ := exists_cons_of_ne_nil (ne_nil_of_mem h.dot)
  exact ⟨c, s, rfl, h.chars.printable c mem_cons_self⟩

/-- The first separator stands behind the host, so that a text with one is no fragment of
itself. -/
theorem not_found_of_mem_fragments (hU : AsciiText N.unicode) (h : SiteHost host) {rest : Str}
    (hmem : host ++ rest ∈ fragments N.unicode (host ++ rest)) :
    Regex.found (separators N.unicode) (host ++ rest) = false := by
  unfold fragments at hmem
  dsimp only at hmem
  split at hmem
  · obtain ⟨piece, hpiece, hstrip⟩ := mem_map.mp (mem_filter.mp hmem).1
    have hsub := Str.trim_sublist N.unicode.isSpace piece
    rw [← Str.strip_eq_trim, hstrip] at hsub
    rcases Regex.mem_split_cases not_reads_separators hpiece with ⟨-, hnot⟩ | ⟨-, hshort⟩
    · exact hnot
    · exact absurd hsub.length_le (Nat.not_le_of_lt hshort)
  · rename_i hparts
    rw [not_not, filter_eq_nil_iff] at hparts
    obtain ⟨c, s, rfl, hlow, hhigh⟩ := h.exists_head
    have hspace := hU.space c hlow hhigh
    rw [← Bool.not_eq_true]
    intro hfound
    obtain ⟨m, hm⟩ := Option.isSome_iff_exists.mp hfound
    obtain ⟨w, htext, hw, -⟩ := Regex.search_sound hm
    have hbefore := Regex.before_mem_split (by simp) hm
    have hempty : N.unicode.strip m.before = [] := by
      simpa using hparts _ (mem_map_of_mem hbefore)
    cases hb : m.before with
    | cons d b =>
      rw [hb] at htext hempty
      obtain rfl : c = d := (List.cons.inj htext).1
      exact Str.trim_ne_nil mem_cons_self hspace hempty
    | nil =>
      rw [hb, nil_append] at htext
      rw [hb] at hw
      cases w with
      | nil => exact not_reads_separators _ _ hw
      | cons d w =>
        obtain rfl : c = d := (List.cons.inj htext).1
        rcases hw with hw | hw
        · have hsep := (Regex.reads_plus_char.mp hw).2 c mem_cons_self
          have hapart := h.chars.disjoint (show ",;|\n\r\t".toList.any hostChar = false by decide)
          exact hapart mem_cons_self (contains_iff_mem.mp hsep)
        · obtain ⟨u, v, hsplit, hu, -⟩ := (Regex.reads_all_cons _).mp hw
          obtain ⟨hne, hall⟩ := Regex.reads_plus_char.mp hu
          obtain ⟨e, u', rfl⟩ := exists_cons_of_ne_nil hne
          obtain rfl : c = e := (List.cons.inj hsplit).1
          exact Bool.false_ne_true (hspace.symm.trans (hall c mem_cons_self))

theorem mailRest_of_site (hlower : N.unicode.LowersWithin) (h : SiteHost host) {rest : Str}
    (hmail : mailRest N (host ++ rest) = none) (hat : '@' ∈ rest) :
    '.' ∉ Str.afterLast '@' rest := by
  intro hdot
  obtain ⟨front, back, rfl, hback⟩ := Str.exists_last hat
  obtain ⟨before, after, hlowered, hbefore, -⟩ := hlower [] host (front ++ '@' :: back)
    (Str.val_lt_of_isAscii h.chars.isAscii)
  -- no scheme is read: a host has a dot and no colon
  have hscheme : ∀ scheme : Str, '.' ∉ scheme → ':' ∈ scheme →
      Str.startsWith (N.unicode.lower (host ++ (front ++ '@' :: back))) scheme = false := by
    intro scheme hnodot hcolon
    rw [nil_append, hbefore rfl, nil_append] at hlowered
    have hsame : host.map Char.toLower = host := by
      rw [map_congr_left fun c hc => toLower_of_not_isUpper (h.chars.not_isUpper c hc)]
      exact map_id' host
    rw [hlowered, hsame, ← Bool.not_eq_true, Str.startsWith, List.isPrefixOf_iff_prefix]
    rintro ⟨after', happend⟩
    rcases append_eq_append_iff.mp happend with ⟨r, hr, -⟩ | ⟨r, hr, -⟩
    · have hmem : ':' ∈ host := by
        rw [hr]
        exact mem_append_left _ hcolon
      exact absurd (h.chars ':' hmem) (by decide)
    · exact hnodot (by rw [hr]; exact mem_append_left _ h.dot)
  have hafter : Str.afterLast '@' (host ++ (front ++ '@' :: back)) = back := by
    rw [← append_assoc, Str.afterLast_append_cons hback]
  have hbeforeLast : Str.beforeLast '@' (host ++ (front ++ '@' :: back)) = host ++ front := by
    rw [← append_assoc, Str.beforeLast_append_cons hback]
  rw [Str.afterLast_append_cons hback] at hdot
  unfold mailRest at hmail
  dsimp only at hmail
  rw [hafter, hbeforeLast, hscheme _ (by decide) (by decide), hscheme _ (by decide) (by decide),
    if_pos] at hmail
  · cases hmail
  · simp [hdot, ne_nil_of_mem h.dot]

theorem plainPath_of_decidedBy (hU : AsciiText N.unicode) (hlower : N.unicode.LowersWithin)
    {segment : Str} (h : SiteHost host) (hne : segment ≠ []) (hslash : '/' ∉ segment)
    (hmarks : segment.Disjoint "?#\t\r\n".toList)
    (hdecides : DecidedBy N (host ++ '/' :: segment) (host ++ '/' :: segment)) :
    PlainPath N.unicode ('/' :: segment) := by
  obtain ⟨hstrip, hfragment, hmail, htoken⟩ := hdecides.self
  have hseparators := disjoint_of_not_found (not_found_of_mem_fragments hU h hfragment)
  have hlast : (host ++ '/' :: segment).getLast? = ('/' :: segment).getLast? :=
    List.getLast?_append_of_ne_nil _ (cons_ne_nil _ _)
  have hcleaned : Str.stripChars quotes (host ++ '/' :: segment) = host ++ '/' :: segment := by
    rcases mem_append.mp htoken with hcleaned | hfound
    · split at hcleaned
      · exact (mem_singleton.mp hcleaned).symm
      · cases hcleaned
    · obtain ⟨_, _, _, -, hreads⟩ := Regex.reads_of_mem_findAll hfound
      have htail : Regex.Avoids '/' (.char fun c => c.isAlpha || isWide c) := by
        change ('/'.isAlpha || isWide '/') = false
        decide
      have havoids : Regex.Avoids '/' hostish :=
        ⟨rfl, ⟨⟨rfl, rfl⟩, trivial⟩, rfl, rfl, rfl, Regex.avoids_upTo htail 22⟩
      exact absurd (by simp) (Regex.notMem_of_reads havoids hreads)
  refine ⟨.inr ⟨segment, rfl, hne, hslash⟩, ?_, fun c hc => ⟨?_, ?_⟩,
    mailRest_of_site hlower h hmail⟩
  · intro c hc hmem
    rcases mem_cons.mp hc with rfl | hc
    · exact absurd hmem (by decide)
    · have hsplit : c ∈ "?#\t\r\n".toList ∨ c ∈ ",;|\n\r\t".toList := by
        revert hmem
        simp
        tauto
      exact hsplit.elim (hmarks hc) (hseparators (mem_append_right _ (mem_cons_of_mem _ hc)))
  · rw [← hlast, ← hstrip] at hc
    exact Str.not_of_getLast?_trim hc
  · rw [← hlast, ← hcleaned, Str.stripChars_eq_trim] at hc
    rw [← contains_iff_mem, Bool.not_eq_true]
    exact Str.not_of_getLast?_trim hc

section Example

theorem acmeNormalizer_rooted : acmeNormalizer.Rooted where
  root := acmeNormalizer_aligned.root
  idem := by
    intro host hroot
    change (acmeExtract host).registeredDomain ≠ [] at hroot
    change (acmeExtract (acmeExtract host).registeredDomain).registeredDomain =
      (acmeExtract host).registeredDomain
    rw [acmeExtract_registeredDomain host] at hroot ⊢
    split
    · decide
    · rename_i hnot
      exact absurd (if_neg hnot) hroot
  idna := fun _ _ h => nomatch h

theorem siteHost_bob : SiteHost "bob.wixsite.com".toList :=
  siteHost_of_tests (by decide) (by decide) (by decide) (by decide)

theorem plainPath_site : PlainPath .ascii "/My-Site".toList where
  segment := .inr ⟨"My-Site".toList, rfl, by decide, by decide⟩
  chars := by
    have hall : "/My-Site".toList.all (fun c => !"?#,;|\t\r\n".toList.contains c) = true := by
      decide
    intro c hc hmem
    have hchar := all_eq_true.mp hall c hc
    rw [contains_iff_mem.mpr hmem] at hchar
    cases hchar
  last := by
    rintro c ⟨rfl⟩
    exact ⟨by decide, by decide⟩
  mail := fun h => absurd h (by decide)

theorem stable_bob : Stable acmeNormalizer "bob.wixsite.com/My-Site".toList where
  site := siteHost_bob
  www := by decide
  address := by decide
  path := by
    intro path hpath
    have hparts : "bob.wixsite.com".toList ++ "/My-Site".toList =
        "bob.wixsite.com".toList ++ path := hpath
    rw [← append_cancel_left hparts]
    exact plainPath_site

end Example

end Ingest

end EmailExtractor
