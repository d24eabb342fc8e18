import EmailExtractor.Library.Except
import EmailExtractor.Library.Url

/-!
# Putting a split URL together

`urlsplit` undoes `urlunsplit` on parts that have no character in the wrong place and an
authority in front of the path. The parts that `urlsplit` returns for a URL with a network
location are such parts.
-/

namespace Url

open Str

structure IsScheme (scheme : Str) : Prop where
  alpha : ∃ c s, scheme = c :: s ∧ c.isAlpha = true
  chars : ∀ c ∈ scheme, isSchemeChar c = true
  lower : scheme.map Char.toLower = scheme

/-- Parts with no character in the wrong place, and an authority in front of the path. -/
structure SplitResult.Placed (r : SplitResult) : Prop where
  scheme : r.scheme = [] ∨ IsScheme r.scheme
  netloc : r.netloc.Disjoint "/?#\t\r\n".toList
  path : r.path = [] ∨ r.path.head? = some '/'
  pathChars : r.path.Disjoint "?#\t\r\n".toList
  queryChars : r.query.Disjoint "#\t\r\n".toList
  fragment : r.fragment = []
  authority : r.netloc ≠ [] ∨ r.scheme ≠ [] ∧ r.scheme ∈ usesNetloc

structure PassesChecks (U : Unicode) (netloc : Str) : Prop where
  brackets : bracketsOk netloc = true
  check : checkNetloc U netloc = true

section

variable {U : Unicode} {r : SplitResult} {scheme netloc rest : Str}

/-! ## Splitting what has been put together -/

theorem isUpper_iff {c : Char} : c.isUpper = true ↔ c.val ≥ 'A'.val ∧ c.val ≤ 'Z'.val :=
  decide_eq_true_iff

theorem isLower_iff {c : Char} : c.isLower = true ↔ c.val ≥ 'a'.val ∧ c.val ≤ 'z'.val :=
  Bool.and_eq_true_iff.trans (and_congr decide_eq_true_iff decide_eq_true_iff)

theorem isDigit_iff {c : Char} : c.isDigit = true ↔ c.val ≥ '0'.val ∧ c.val ≤ '9'.val :=
  Bool.and_eq_true_iff.trans (and_congr decide_eq_true_iff decide_eq_true_iff)

theorem isAlpha_iff {c : Char} : c.isAlpha = true ↔ c.isUpper = true ∨ c.isLower = true :=
  Bool.or_eq_true_iff

theorem val_of_isAlpha {c : Char} (h : c.isAlpha = true) : 0x20 < c.val := by
  rcases isAlpha_iff.mp h with hupper | hlower
  · exact UInt32.lt_of_lt_of_le (by decide) (isUpper_iff.mp hupper).1
  · exact UInt32.lt_of_lt_of_le (by decide) (isLower_iff.mp hlower).1

theorem not_isDigit_of_isAlpha {c : Char} (h : c.isAlpha = true) : c.isDigit = false := by
  rw [← Bool.not_eq_true, isDigit_iff]
  rintro ⟨-, hle⟩
  rcases isAlpha_iff.mp h with hupper | hlower
  · exact absurd (UInt32.le_trans (isUpper_iff.mp hupper).1 hle) (by decide)
  · exact absurd (UInt32.le_trans (isLower_iff.mp hlower).1 hle) (by decide)

theorem IsScheme.disjoint (h : IsScheme scheme) {bad : Str}
    (hbad : bad.any isSchemeChar = false) : scheme.Disjoint bad := by
  intro c hc hmem
  exact List.any_eq_false.mp hbad c hmem (h.chars c hc)

theorem not_contains_of_disjoint {s bad : Str} (h : s.Disjoint bad) :
    ∀ c ∈ s, (!bad.contains c) = true := by
  intro c hc
  rw [Bool.not_eq_true', ← Bool.not_eq_true, List.contains_iff_mem]
  exact fun hmem => h hc hmem

theorem filter_of_disjoint {s : Str} (h : s.Disjoint "\t\r\n".toList) :
    s.filter (fun c => !"\t\r\n".toList.contains c) = s :=
  List.filter_eq_self.mpr (not_contains_of_disjoint h)

theorem splitScheme_of_isScheme (h : IsScheme scheme) (rest dflt : Str) :
    splitScheme (scheme ++ ':' :: rest) dflt = (scheme, rest) := by
  obtain ⟨c, s, rfl, halpha⟩ := h.alpha
  have hcolon : ':' ∉ c :: s := fun hmem => absurd (h.chars ':' hmem) (by decide)
  have hall : (c :: s).all isSchemeChar = true := List.all_eq_true.mpr h.chars
  rw [splitScheme, partition_append_cons hcolon]
  simp only [halpha, hall, Bool.and_self, if_true, h.lower]

theorem splitScheme_slash (rest dflt : Str) :
    splitScheme ('/' :: rest) dflt = (dflt, '/' :: rest) := by
  rw [splitScheme, partition, if_neg (by decide)]
  simp

theorem splitNetloc_append (hnetloc : netloc.Disjoint "/?#".toList)
    (hrest : ∀ c ∈ rest.head?, c ∈ "/?#".toList) :
    splitNetloc ('/' :: '/' :: (netloc ++ rest)) = (netloc, rest) := by
  have hin := not_contains_of_disjoint hnetloc
  have hstop : rest.takeWhile (fun c => !"/?#".toList.contains c) = [] := by
    cases rest with
    | nil => rfl
    | cons c rest =>
      refine List.takeWhile_cons_of_neg ?_
      rw [Bool.not_eq_true', Bool.not_eq_false, List.contains_iff_mem]
      exact hrest c rfl
  have hdrop : rest.dropWhile (fun c => !"/?#".toList.contains c) = rest := by
    have hsplit := List.takeWhile_append_dropWhile (p := fun c => !"/?#".toList.contains c)
      (l := rest)
    rwa [hstop, List.nil_append] at hsplit
  rw [splitNetloc, List.takeWhile_append_of_pos hin, List.dropWhile_append_of_pos hin, hstop,
    hdrop, List.append_nil]

namespace SplitResult

def schemePart (r : SplitResult) : Str := if r.scheme ≠ [] then r.scheme ++ [':'] else []

def queryPart (r : SplitResult) : Str := if r.query ≠ [] then '?' :: r.query else []

end SplitResult

theorem urlunsplit_of_placed (h : r.Placed) :
    urlunsplit r = r.schemePart ++ '/' :: '/' :: (r.netloc ++ (r.path ++ r.queryPart)) := by
  have hnetloc : (r.netloc ≠ [] || (r.scheme ≠ [] && usesNetloc.contains r.scheme) ||
      startsWith r.path ['/', '/']) = true := by
    rcases h.authority with hnet | ⟨hscheme, huses⟩
    · simp [hnet]
    · simp [hscheme, huses]
  have hpath : (r.path ≠ [] && r.path.head? ≠ some '/') = false := by
    rcases h.path with hpath | hpath <;> simp [hpath]
  simp only [urlunsplit, hnetloc, hpath, h.fragment, if_true, Bool.false_eq_true, if_false,
    ne_eq, not_true_eq_false, List.append_nil, SplitResult.schemePart, SplitResult.queryPart,
    List.append_assoc, List.cons_append]

theorem urlunsplit_ne_nil (h : r.Placed) : urlunsplit r ≠ [] := by
  rw [urlunsplit_of_placed h]
  simp

namespace SplitResult.Placed

section

variable (h : r.Placed)

include h

theorem schemePart_disjoint : r.schemePart.Disjoint "\t\r\n".toList := by
  unfold schemePart
  split
  · rename_i hne
    rw [List.disjoint_append_left, List.singleton_disjoint]
    exact ⟨(h.scheme.resolve_left hne).disjoint (by decide), by decide⟩
  · exact List.disjoint_nil_left _

theorem queryPart_disjoint : r.queryPart.Disjoint "#\t\r\n".toList := by
  unfold queryPart
  split
  · rw [List.disjoint_cons_left]
    exact ⟨by decide, h.queryChars⟩
  · exact List.disjoint_nil_left _

theorem urlunsplit_disjoint : (urlunsplit r).Disjoint "\t\r\n".toList := by
  rw [urlunsplit_of_placed h]
  simp only [List.disjoint_append_left, List.disjoint_cons_left]
  refine ⟨h.schemePart_disjoint, by decide, by decide, ?_, ?_, ?_⟩
  · exact List.disjoint_of_subset_right (by decide) h.netloc
  · exact List.disjoint_of_subset_right (by decide) h.pathChars
  · exact List.disjoint_of_subset_right (by decide) h.queryPart_disjoint

theorem head_urlunsplit : ∃ c s, urlunsplit r = c :: s ∧ 0x20 < c.val := by
  rw [urlunsplit_of_placed h, schemePart]
  rcases h.scheme with hnil | hscheme
  · rw [hnil]
    exact ⟨'/', _, rfl, by decide⟩
  · obtain ⟨c, s, heq, halpha⟩ := hscheme.alpha
    rw [heq]
    exact ⟨c, _, rfl, val_of_isAlpha halpha⟩

theorem clean_urlunsplit :
    ((urlunsplit r).dropWhile fun c => c.val ≤ 0x20).filter
      (fun c => !"\t\r\n".toList.contains c) = urlunsplit r := by
  have hfilter := filter_of_disjoint h.urlunsplit_disjoint
  obtain ⟨c, s, heq, hval⟩ := h.head_urlunsplit
  rw [heq] at hfilter ⊢
  rw [List.dropWhile_cons_of_neg (by simpa using hval), hfilter]

theorem splitScheme_urlunsplit :
    splitScheme (urlunsplit r) [] =
    (r.scheme, '/' :: '/' :: (r.netloc ++ (r.path ++ r.queryPart))) := by
  rw [urlunsplit_of_placed h, schemePart]
  rcases h.scheme with hnil | hscheme
  · rw [hnil]
    exact splitScheme_slash _ _
  · have hne : r.scheme ≠ [] := by
      obtain ⟨c, s, heq, -⟩ := hscheme.alpha
      simp [heq]
    rw [if_pos hne, List.append_assoc]
    exact splitScheme_of_isScheme hscheme _ _

theorem head_after_netloc : ∀ c ∈ (r.path ++ r.queryPart).head?, c ∈ "/?#".toList := by
  intro c hc
  rcases h.path with hpath | hpath
  · rw [hpath, List.nil_append, queryPart] at hc
    split at hc
    · cases hc
      decide
    · cases hc
  · rw [List.head?_append_of_ne_nil, hpath] at hc
    · cases hc
      decide
    · intro hnil
      simp [hnil] at hpath

theorem partition_query :
    (partition '?' (r.path ++ r.queryPart)).1 = r.path ∧
      (partition '?' (r.path ++ r.queryPart)).2.2 = r.query := by
  have hmark : '?' ∉ r.path := fun hmem => h.pathChars hmem (by decide)
  unfold queryPart
  split
  · rw [partition_append_cons hmark]
    exact ⟨rfl, rfl⟩
  · rename_i hquery
    rw [List.append_nil, partition_of_notMem hmark]
    exact ⟨rfl, (not_not.mp hquery).symm⟩

end

end SplitResult.Placed

/-- Parts put together are split at the same places, and then their network location is
checked. -/
theorem urlsplit_of_placed (h : r.Placed) :
    urlsplit U (urlunsplit r) =
      if !bracketsOk r.netloc then .error .valueError
      else if !checkNetloc U r.netloc then .error .valueError else .ok r := by
  have hhash : '#' ∉ r.path ++ r.queryPart := by
    rw [List.mem_append, not_or]
    exact ⟨fun hmem => h.pathChars hmem (by decide),
      fun hmem => h.queryPart_disjoint hmem (by decide)⟩
  have hnetloc : r.netloc.Disjoint "/?#".toList :=
    List.disjoint_of_subset_right (by decide) h.netloc
  obtain ⟨hpath, hquery⟩ := h.partition_query
  have hparts : SplitResult.mk r.scheme r.netloc r.path r.query [] = r := by
    rw [← h.fragment]
  unfold urlsplit urlsplitWith
  simp only [h.clean_urlunsplit, h.splitScheme_urlunsplit,
    splitNetloc_append hnetloc h.head_after_netloc, partition_of_notMem hhash, hpath, hquery,
    hparts]

theorem urlsplit_urlunsplit (h : r.Placed) (hchecks : PassesChecks U r.netloc) :
    urlsplit U (urlunsplit r) = .ok r := by
  rw [urlsplit_of_placed h, hchecks.brackets, hchecks.check]
  rfl

theorem isScheme_http : IsScheme "http".toList where
  alpha := ⟨'h', "ttp".toList, rfl, by decide⟩
  chars := List.all_eq_true.mp (by decide)
  lower := by decide

theorem prefix_partition_fst (c : Char) (s : Str) : (partition c s).1 <+: s := by
  induction s with
  | nil => exact List.prefix_rfl
  | cons a s ih =>
    rw [partition]
    split
    · exact List.nil_prefix
    · exact List.cons_prefix_cons.mpr ⟨rfl, ih⟩

/-- The path in front of a query and a fragment, without the characters that are left out. -/
def pathOf (rest : Str) : Str :=
  (partition '?' (partition '#' (rest.filter fun c => !"\t\r\n".toList.contains c)).1).1

theorem pathOf_eq_self {rest : Str} (h : rest.Disjoint "?#\t\r\n".toList) : pathOf rest = rest := by
  rw [pathOf, filter_of_disjoint (List.disjoint_of_subset_right (by decide) h),
    partition_of_notMem fun hmem => h hmem (by decide),
    partition_of_notMem fun hmem => h hmem (by decide)]

theorem pathOf_sublist (rest : Str) : (pathOf rest).Sublist rest :=
  (prefix_partition_fst _ _).sublist.trans
    ((prefix_partition_fst _ _).sublist.trans List.filter_sublist)

theorem urlsplit_append (hscheme : IsScheme scheme) (s : Str) :
    urlsplit U (scheme ++ "://".toList ++ s) =
      let (netloc, rest) :=
        splitNetloc ('/' :: '/' :: s.filter fun c => !"\t\r\n".toList.contains c)
      if !bracketsOk netloc then .error .valueError
      else
        let (url, _, fragment) := partition '#' rest
        let (path, _, query) := partition '?' url
        if !checkNetloc U netloc then .error .valueError
        else .ok ⟨scheme, netloc, path, query, fragment⟩ := by
  have hdrop : (scheme ++ "://".toList ++ s).dropWhile (fun c => c.val ≤ 0x20) =
      scheme ++ "://".toList ++ s := by
    obtain ⟨c, t, rfl, halpha⟩ := hscheme.alpha
    exact List.dropWhile_cons_of_neg (by simpa using val_of_isAlpha halpha)
  have hurl : ∀ s : Str, scheme ++ "://".toList ++ s = scheme ++ ':' :: '/' :: '/' :: s :=
    fun _ => List.append_assoc ..
  have hkeep : (scheme ++ "://".toList).Disjoint "\t\r\n".toList :=
    List.disjoint_append_left.mpr ⟨hscheme.disjoint (by decide), by simp⟩
  unfold urlsplit urlsplitWith
  dsimp only
  rw [hdrop, List.filter_append, filter_of_disjoint hkeep, hurl, splitScheme_of_isScheme hscheme]

theorem urlsplit_location (hscheme : IsScheme scheme)
    (hnetloc : netloc.Disjoint "/?#\t\r\n".toList)
    (hrest : rest = [] ∨ ∃ s, rest = '/' :: s) (hchecks : PassesChecks U netloc) :
    ∃ query fragment, urlsplit U (scheme ++ "://".toList ++ (netloc ++ rest)) =
      .ok ⟨scheme, netloc, pathOf rest, query, fragment⟩ := by
  have hfilter := filter_of_disjoint (List.disjoint_of_subset_right (by decide) hnetloc)
  have hhead : ∀ c ∈ (rest.filter fun c => !"\t\r\n".toList.contains c).head?,
      c ∈ "/?#".toList := by
    intro c hc
    rcases hrest with rfl | ⟨s, rfl⟩
    · cases hc
    · cases hc
      decide
  rw [urlsplit_append hscheme, List.filter_append, hfilter,
    splitNetloc_append (List.disjoint_of_subset_right (by decide) hnetloc) hhead]
  dsimp only
  rw [hchecks.brackets, hchecks.check]
  exact ⟨_, _, rfl⟩

theorem path_of_slashless {s : Str} (hslash : '/' ∉ s)
    (h : urlsplit U ("http://".toList ++ s) = .ok r) : r.path = [] := by
  have hsplit : ∀ s : Str, splitNetloc ('/' :: '/' :: s) =
      (s.takeWhile fun c => !"/?#".toList.contains c,
        s.dropWhile fun c => !"/?#".toList.contains c) := fun _ => rfl
  change urlsplit U ("http".toList ++ "://".toList ++ s) = _ at h
  rw [urlsplit_append isScheme_http, hsplit] at h
  dsimp only at h
  split at h
  · cases h
  split at h
  · cases h
  rw [← Except.ok.inj h]
  dsimp only
  -- behind the location there is a mark or nothing
  have hmark := List.head?_dropWhile_not (fun c => !"/?#".toList.contains c)
    (s.filter fun c => !"\t\r\n".toList.contains c)
  have hsub := (List.dropWhile_sublist (fun c => !"/?#".toList.contains c)
    (l := s.filter fun c => !"\t\r\n".toList.contains c)).trans List.filter_sublist
  cases hrest : (s.filter fun c => !"\t\r\n".toList.contains c).dropWhile
      fun c => !"/?#".toList.contains c with
  | nil => rfl
  | cons c rest =>
    rw [hrest] at hmark hsub
    have hc : c ≠ '/' := by
      rintro rfl
      exact hslash (hsub.mem List.mem_cons_self)
    have hcases : c = '?' ∨ c = '#' := or_iff_not_imp_left.mpr (by simpa [hc] using hmark)
    rcases hcases with rfl | rfl
    · rw [partition, if_neg (by decide), partition, if_pos rfl]
    · rw [partition, if_pos rfl]
      rfl

theorem eq_of_urlsplit_urlunsplit {r' : SplitResult} (h : r.Placed)
    (hok : urlsplit U (urlunsplit r) = .ok r') : r' = r := by
  rw [urlsplit_of_placed h] at hok
  split at hok
  · cases hok
  · split at hok
    · cases hok
    · exact (Except.ok.inj hok).symm

/-! ## What splitting returns -/

theorem notMem_partition_fst (c : Char) (s : Str) : c ∉ (partition c s).1 := by
  induction s with
  | nil => exact List.not_mem_nil
  | cons a s ih =>
    rw [partition]
    split
    · exact List.not_mem_nil
    · rename_i ha
      rw [List.mem_cons, not_or]
      exact ⟨Ne.symm ha, ih⟩

theorem suffix_partition_snd (c : Char) (s : Str) : (partition c s).2.2 <:+ s := by
  induction s with
  | nil => exact List.suffix_rfl
  | cons a s ih =>
    rw [partition]
    split
    · exact List.suffix_cons a s
    · exact ih.trans (List.suffix_cons a s)

theorem isLower_toLower {c : Char} (h : c.isUpper = true) : c.toLower.isLower = true := by
  rw [isUpper_iff] at h
  have hval : c.toLower.val = c.val + ('a'.val - 'A'.val) := congrArg Char.val (dif_pos h)
  rw [isLower_iff, hval]
  simp only [UInt32.le_iff_toNat_le, ge_iff_le, UInt32.toNat_add] at h ⊢
  simp only [Char.reduceVal, UInt32.reduceToNat, UInt32.reduceSub] at h ⊢
  omega

theorem toLower_of_not_isUpper {c : Char} (h : ¬ c.isUpper = true) : c.toLower = c :=
  dif_neg fun hupper => h (isUpper_iff.mpr hupper)

theorem isAlpha_toLower {c : Char} (h : c.isAlpha = true) : c.toLower.isAlpha = true := by
  by_cases hupper : c.isUpper = true
  · exact isAlpha_iff.mpr (.inr (isLower_toLower hupper))
  · rwa [toLower_of_not_isUpper hupper]

theorem isSchemeChar_toLower {c : Char} (h : isSchemeChar c = true) :
    isSchemeChar c.toLower = true := by
  by_cases hupper : c.isUpper = true
  · have halpha : c.toLower.isAlpha = true := isAlpha_iff.mpr (.inr (isLower_toLower hupper))
    have halnum : c.toLower.isAlphanum = true := Bool.or_eq_true_iff.mpr (.inl halpha)
    rw [isSchemeChar, halnum]
    rfl
  · rwa [toLower_of_not_isUpper hupper]

theorem splitScheme_scheme (url : Str) :
    (splitScheme url []).1 = [] ∨ IsScheme (splitScheme url []).1 := by
  unfold splitScheme
  generalize partition ':' url = parts
  obtain ⟨head, found, rest⟩ := parts
  cases head with
  | nil => exact .inl rfl
  | cons c s =>
    dsimp only
    split
    · rename_i h
      simp only [Bool.and_eq_true, List.all_eq_true] at h
      obtain ⟨⟨-, halpha⟩, hchars⟩ := h
      refine .inr ⟨⟨c.toLower, s.map Char.toLower, rfl, isAlpha_toLower halpha⟩, ?_, ?_⟩
      · intro d hd
        obtain ⟨e, he, rfl⟩ := List.mem_map.mp hd
        exact isSchemeChar_toLower (hchars e he)
      · rw [List.map_map]
        exact List.map_congr_left fun d _ => Unicode.toLower_idem d
    · exact .inl rfl

theorem suffix_splitScheme_rest (url dflt : Str) : (splitScheme url dflt).2 <:+ url := by
  have hrest := suffix_partition_snd ':' url
  unfold splitScheme
  generalize partition ':' url = parts at hrest
  obtain ⟨head, found, rest⟩ := parts
  cases head with
  | nil => exact List.suffix_rfl
  | cons c s =>
    dsimp only
    split
    · exact hrest
    · exact List.suffix_rfl

theorem splitNetloc_spec {s netloc tail : Str} (h : splitNetloc s = (netloc, tail)) :
    netloc.Disjoint "/?#".toList ∧ netloc ⊆ s ∧ tail ⊆ s ∧
      (netloc ≠ [] → ∀ c ∈ tail.head?, c ∈ "/?#".toList) := by
  unfold splitNetloc at h
  split at h
  · rename_i s
    cases h
    refine ⟨?_, ?_, ?_, ?_⟩
    · intro c hc hmem
      have hout := List.all_eq_true.mp List.all_takeWhile c hc
      rw [Bool.not_eq_true', ← Bool.not_eq_true, List.contains_iff_mem] at hout
      exact hout hmem
    · exact fun c hc => List.mem_cons_of_mem _ (List.mem_cons_of_mem _
        ((List.takeWhile_sublist _).mem hc))
    · exact fun c hc => List.mem_cons_of_mem _ (List.mem_cons_of_mem _
        ((List.dropWhile_sublist _).mem hc))
    · intro _ c hc
      have hin := List.head?_dropWhile_not (fun c => !"/?#".toList.contains c) s
      rw [Option.mem_def.mp hc] at hin
      change (!"/?#".toList.contains c) = false at hin
      rwa [Bool.not_eq_false', List.contains_iff_mem] at hin
  · cases h
    exact ⟨List.disjoint_nil_left _, List.nil_subset _, List.Subset.refl _,
      fun hne => absurd rfl hne⟩

/-- What `urlsplit` does when it returns; `rest` is the text after the scheme. -/
theorem urlsplit_cases {url : Str} (h : urlsplit U url = .ok r) :
    ∃ rest tail, (r.scheme = [] ∨ IsScheme r.scheme) ∧ rest.Disjoint "\t\r\n".toList ∧
      splitNetloc rest = (r.netloc, tail) ∧ PassesChecks U r.netloc ∧
      r.path = (partition '?' (partition '#' tail).1).1 ∧
      r.query = (partition '?' (partition '#' tail).1).2.2 := by
  unfold urlsplit urlsplitWith at h
  dsimp only at h
  generalize htext : (url.dropWhile fun c => c.val ≤ 0x20).filter
    (fun c => !"\t\r\n".toList.contains c) = text at h
  have hclean : text.Disjoint "\t\r\n".toList := by
    intro c hc hmem
    rw [← htext] at hc
    have hkept := (List.mem_filter.mp hc).2
    rw [Bool.not_eq_true', ← Bool.not_eq_true, List.contains_iff_mem] at hkept
    exact hkept hmem
  have hrest := List.disjoint_of_subset_left (suffix_splitScheme_rest text []).subset hclean
  split at h
  · cases h
  · rename_i hbrackets
    split at h
    · cases h
    · rename_i hcheck
      cases h
      exact ⟨_, _, splitScheme_scheme text, hrest, rfl,
        ⟨by simpa using hbrackets, by simpa using hcheck⟩, rfl, rfl⟩

section

variable {url : Str} (h : urlsplit U url = .ok r)

include h

theorem scheme_of_urlsplit : r.scheme = [] ∨ IsScheme r.scheme := by
  obtain ⟨_, _, hscheme, _⟩ := urlsplit_cases h
  exact hscheme

theorem checks_of_urlsplit : PassesChecks U r.netloc := by
  obtain ⟨_, _, _, _, _, hchecks, _⟩ := urlsplit_cases h
  exact hchecks

theorem netloc_of_urlsplit : r.netloc.Disjoint "/?#\t\r\n".toList := by
  obtain ⟨rest, tail, -, hblank, hnetloc, -⟩ := urlsplit_cases h
  obtain ⟨hdelims, hsubset, -⟩ := splitNetloc_spec hnetloc
  have hblank := List.disjoint_of_subset_left hsubset hblank
  exact List.disjoint_of_subset_right (by decide)
    (List.disjoint_append_right.mpr ⟨hdelims, hblank⟩)

theorem target_of_urlsplit : ∃ target : Str, target.Disjoint "#\t\r\n".toList ∧
    r.path = (partition '?' target).1 ∧ r.query = (partition '?' target).2.2 := by
  obtain ⟨rest, tail, -, hblank, hnetloc, -, hparts⟩ := urlsplit_cases h
  obtain ⟨-, -, hsubset, -⟩ := splitNetloc_spec hnetloc
  exact ⟨_, List.disjoint_cons_right.mpr ⟨notMem_partition_fst '#' tail,
    List.disjoint_of_subset_left
      (List.Subset.trans (prefix_partition_fst '#' tail).subset hsubset) hblank⟩, hparts⟩

theorem path_of_urlsplit : r.path.Disjoint "?#\t\r\n".toList := by
  obtain ⟨target, htarget, hpath, -⟩ := target_of_urlsplit h
  rw [hpath]
  exact List.disjoint_cons_right.mpr ⟨notMem_partition_fst _ _,
    List.disjoint_of_subset_left (prefix_partition_fst _ _).subset htarget⟩

theorem query_of_urlsplit : r.query.Disjoint "#\t\r\n".toList := by
  obtain ⟨target, htarget, -, hquery⟩ := target_of_urlsplit h
  rw [hquery]
  exact List.disjoint_of_subset_left (suffix_partition_snd _ _).subset htarget

theorem head_path_of_urlsplit (hne : r.netloc ≠ []) : r.path = [] ∨ r.path.head? = some '/' := by
  have hchars := path_of_urlsplit h
  obtain ⟨rest, tail, -, -, hnetloc, -, hpath, -⟩ := urlsplit_cases h
  obtain ⟨-, -, -, hhead⟩ := splitNetloc_spec hnetloc
  have hprefix : r.path <+: tail := by
    rw [hpath]
    exact (prefix_partition_fst _ _).trans (prefix_partition_fst _ _)
  cases hcons : r.path with
  | nil => exact .inl rfl
  | cons c s =>
    rw [hcons] at hprefix hchars
    obtain ⟨more, rfl⟩ := hprefix
    have hc : c ∈ "/?#".toList := hhead hne c rfl
    have hcases : c = '/' ∨ c = '?' ∨ c = '#' := by simpa using hc
    rcases hcases with rfl | rfl | rfl
    · exact .inr rfl
    · exact absurd (hchars (List.mem_cons_self ..)) (by decide)
    · exact absurd (hchars (List.mem_cons_self ..)) (by decide)

theorem placed_of_urlsplit (hne : r.netloc ≠ []) :
    SplitResult.Placed { r with fragment := [] } := by
  have hscheme := scheme_of_urlsplit h
  have hnetloc := netloc_of_urlsplit h
  have hhead := head_path_of_urlsplit h hne
  have hpath := path_of_urlsplit h
  have hquery := query_of_urlsplit h
  exact ⟨hscheme, hnetloc, hhead, hpath, hquery, rfl, .inl hne⟩

theorem placed_with_path {path : Str} (hscheme : r.scheme ≠ []) (huses : r.scheme ∈ usesNetloc)
    (hpath : path.head? = some '/') (hchars : path.Disjoint "?#\t\r\n".toList) :
    SplitResult.Placed ⟨r.scheme, r.netloc, path, [], []⟩ := by
  have hname := scheme_of_urlsplit h
  have hnetloc := netloc_of_urlsplit h
  exact ⟨hname, hnetloc, .inr hpath, hchars, List.disjoint_nil_left _, rfl,
    .inr ⟨hscheme, huses⟩⟩

end

/-! ## Joining a path to a site -/

theorem urlparse_of_urlsplitWith {url dflt : Str} (h : urlsplitWith U url dflt = .ok r)
    (hparams : ';' ∉ r.path) : urlparse U url dflt = .ok (r, []) := by
  have hno : (usesParams.contains r.scheme && r.path.contains ';') = false := by
    rw [Bool.and_eq_false_imp]
    intro _
    rwa [← Bool.not_eq_true, List.contains_iff_mem]
  rw [urlparse, h]
  simp only [bind, Except.bind, hno, Bool.false_eq_true, if_false, pure, Except.pure]

/-- A reference that is a path only is resolved against the path of the base, or left as it is. -/
theorem urljoin_of_urlparse {base path bparams : Str} (hne : base ≠ []) (hpath : path ≠ [])
    (hparams : ';' ∉ path) (hbase : urlparse U base [] = .ok (r, bparams))
    (hsplit : urlsplitWith U path r.scheme = .ok ⟨r.scheme, [], path, [], []⟩) :
    urljoin U base path = .ok (if r.scheme ∈ usesRelative then
      urlunsplit ⟨r.scheme, if r.scheme ∈ usesNetloc then r.netloc else [],
        joinPath r.path path, [], []⟩ else path) := by
  rw [urljoin, if_neg hne, if_neg hpath, hbase]
  simp only [bind, Except.bind, urlparse_of_urlsplitWith hsplit hparams, pure, Except.pure,
    urlunparse]
  by_cases hrelative : r.scheme ∈ usesRelative <;> simp [hrelative, hpath]

theorem urljoin_path (h : r.Placed) (hchecks : PassesChecks U r.netloc)
    (hparams : ';' ∉ r.path) (hrelative : r.scheme ∈ usesRelative)
    (hnetloc : r.scheme ∈ usesNetloc) {path : Str} (hpath : path ≠ []) (hparams' : ';' ∉ path)
    (hsplit : urlsplitWith U path r.scheme = .ok ⟨r.scheme, [], path, [], []⟩) :
    urljoin U (urlunsplit r) path =
      .ok (urlunsplit ⟨r.scheme, r.netloc, joinPath r.path path, [], []⟩) := by
  have hbase := urlparse_of_urlsplitWith (urlsplit_urlunsplit h hchecks) hparams
  rw [urljoin_of_urlparse (urlunsplit_ne_nil h) hpath hparams' hbase hsplit, if_pos hrelative,
    if_pos hnetloc]

/-! ## Joining a path to what has no scheme -/

/-- A text that starts with a colon is a path. -/
theorem urlsplit_colon (s : Str) : ∃ query fragment,
    urlsplit U (':' :: s) = .ok ⟨[], [], ':' :: pathOf s, query, fragment⟩ := by
  have hpath : pathOf (':' :: s) = ':' :: pathOf s := by
    rw [pathOf, List.filter_cons_of_pos (by decide), partition, if_neg (by decide), partition,
      if_neg (by decide)]
    rfl
  rw [← hpath]
  exact ⟨_, _, rfl⟩

theorem urlunsplit_path {path : Str} (hhead : path.head? ≠ some '/') (query : Str) :
    urlunsplit ⟨[], [], path, query, []⟩ = path ++ if query ≠ [] then '?' :: query else [] := by
  have hslashes : startsWith path ['/', '/'] = false := by
    cases path with
    | nil => rfl
    | cons c s =>
      have hc : ('/' == c) = false := beq_eq_false_iff_ne.mpr fun h => hhead (by rw [← h]; rfl)
      simp [startsWith, List.isPrefixOf, hc]
  simp [urlunsplit, hslashes]

theorem splitOn_colon (hslash : '/' ∉ netloc) :
    (':' :: '/' :: '/' :: (netloc ++ ['/'])).splitOn '/' = [":".toList, [], netloc, []] := by
  have hparts : ∀ part ∈ [":".toList, [], netloc, []], '/' ∉ part := by simp [hslash]
  simpa using List.splitOn_intercalate '/' hparts (by simp)

theorem urlparse_colon (hnetloc : netloc.Disjoint "/?#\t\r\n".toList) :
    ∃ query fragment, urlparse U (':' :: '/' :: '/' :: (netloc ++ ['/'])) [] =
      .ok (⟨[], [], ':' :: '/' :: '/' :: (netloc ++ ['/']), query, fragment⟩, []) := by
  obtain ⟨query, fragment, hsplit⟩ := urlsplit_colon (U := U) ('/' :: '/' :: (netloc ++ ['/']))
  have hkept : pathOf ('/' :: '/' :: (netloc ++ ['/'])) = '/' :: '/' :: (netloc ++ ['/']) := by
    have hchars : netloc.Disjoint "?#\t\r\n".toList :=
      List.disjoint_of_subset_right (by decide) hnetloc
    exact pathOf_eq_self (by simpa using hchars)
  rw [hkept] at hsplit
  generalize hbase : ':' :: '/' :: '/' :: (netloc ++ ['/']) = base at hsplit ⊢
  have hparams : splitParams base = (base, []) := by
    have hlast : afterLast '/' base = [] := by simp [← hbase, afterLast]
    simp [splitParams, hlast, partition]
  refine ⟨query, fragment, ?_⟩
  rw [urlparse, show urlsplitWith U base [] = _ from hsplit]
  simp only [bind, Except.bind, hparams, pure, Except.pure, ite_self]

/-- Without a scheme, the base in front of a path is itself a path. -/
theorem urljoin_of_colon {path : Str} (hnetloc : netloc.Disjoint "/?#\t\r\n".toList)
    (hpath : path ≠ []) (hslash : '/' ∉ path) (hdots : path ≠ ".".toList ∧ path ≠ "..".toList)
    (hparams : ';' ∉ path) (hsplit : urlsplitWith U path [] = .ok ⟨[], [], path, [], []⟩) :
    urljoin U (':' :: '/' :: '/' :: (netloc ++ ['/'])) path = .ok path ∨
      ∃ s, urljoin U (':' :: '/' :: '/' :: (netloc ++ ['/'])) path = .ok (':' :: s) := by
  obtain ⟨query, fragment, hparse⟩ := urlparse_colon (U := U) hnetloc
  have hhead : path.head? ≠ some '/' := fun hhead => hslash (List.mem_of_mem_head? hhead)
  have hjoin : joinPath (':' :: '/' :: '/' :: (netloc ++ ['/'])) path = path ∨
      ∃ s, joinPath (':' :: '/' :: '/' :: (netloc ++ ['/'])) path = ':' :: s := by
    have hsingle : path.splitOn '/' = [path] := by
      have hparts : ∀ part ∈ [path], '/' ∉ part := by simpa using hslash
      simpa using List.splitOn_intercalate '/' hparts (by simp)
    have hlow : path ≠ ['.'] ∧ path ≠ ['.', '.'] := hdots
    unfold joinPath
    simp only [splitOn_colon fun hmem => hnetloc hmem (by decide), hsingle, hhead, if_false,
      List.getLastD_cons]
    by_cases hup : netloc = ['.', '.']
    · simp [hup, resolveSegments, hlow, join, hpath]
    by_cases hdot : netloc = ['.']
    · simp [hdot, resolveSegments, hlow, join]
    by_cases hnil : netloc = []
    · simp [hnil, resolveSegments, hlow, join]
    · simp [hnil, hup, hdot, resolveSegments, hlow, join]
  rw [urljoin_of_urlparse (by simp) hpath hparams hparse hsplit, ite_self,
    if_pos (show [] ∈ usesRelative by decide)]
  rcases hjoin with hjoin | ⟨s, hjoin⟩
  · rw [hjoin, urlunsplit_path hhead]
    exact .inl (congrArg _ (List.append_nil _))
  · rw [hjoin, urlunsplit_path (by simp)]
    exact .inr ⟨_, rfl⟩

end

end Url
