import EmailExtractor.Pipeline.Patterns

/-!
# Acceptance only trims

`_accept` takes a sentence off a text, strips and lower-cases what is left, and cuts letters
off its last label. What it returns stands in the lower-cased text: before it are spaces and
punctuation only, and behind it besides them at most the sentence or the letters that were
glued to it. Accepting the result again changes nothing.
-/

namespace EmailExtractor

namespace Pipeline

open List

variable {U : Unicode} {isAlpha : Char → Bool} {extract : Str → ExtractResult} {raw e s : Str}

/-! ## Spaces and punctuation -/

/-- A space, or a punctuation mark that `clean` strips. -/
def Trimmable (U : Unicode) (c : Char) : Prop := U.isSpace c = true ∨ c ∈ trimPunctuation

/-- The text without the spaces and then the punctuation around it. -/
def core (U : Unicode) (raw : Str) : Str := Str.stripChars trimPunctuation (U.strip raw)

theorem clean_eq (U : Unicode) (raw : Str) : clean U raw = U.lower (core U raw) := rfl

theorem unglueSentence_eq (U : Unicode) (P : Patterns) (raw : Str) :
    unglueSentence U P raw = (P.gluedSentence (core U raw)).getD raw := rfl

theorem exists_core (U : Unicode) (raw : Str) :
    ∃ p r, raw = p ++ (core U raw ++ r) ∧ (∀ c ∈ p, Trimmable U c) ∧
      ∀ c ∈ r, Trimmable U c := by
  obtain ⟨a, b, hraw, ha, hb⟩ := Str.exists_trim U.isSpace raw
  obtain ⟨a', b', hstrip, ha', hb'⟩ :=
    Str.exists_trim (trimPunctuation.contains ·) (Str.trim U.isSpace raw)
  refine ⟨a ++ a', b' ++ b, ?_, fun c hc => ?_, fun c hc => ?_⟩
  · rw [core, Str.stripChars_eq_trim, Str.strip_eq_trim]
    conv_lhs => rw [hraw, hstrip]
    simp only [append_assoc]
  · rcases mem_append.mp hc with hc | hc
    · exact .inl (ha c hc)
    · exact .inr (contains_iff_mem.mp (ha' c hc))
  · rcases mem_append.mp hc with hc | hc
    · exact .inr (contains_iff_mem.mp (hb' c hc))
    · exact .inl (hb c hc)

theorem core_isInfix (U : Unicode) (raw : Str) : core U raw <:+: raw := by
  obtain ⟨p, r, hraw, -⟩ := exists_core U raw
  exact ⟨p, r, by rw [append_assoc]; exact hraw.symm⟩

theorem core_eq_self (hhead : ∀ c ∈ s.head?, ¬ Trimmable U c)
    (hlast : ∀ c ∈ s.getLast?, ¬ Trimmable U c) : core U s = s := by
  have hspace : Str.Bare U.isSpace s :=
    ⟨fun c hc => Bool.eq_false_iff.mpr fun h => hhead c hc (.inl h),
      fun c hc => Bool.eq_false_iff.mpr fun h => hlast c hc (.inl h)⟩
  have hmarks : Str.Bare (trimPunctuation.contains ·) s :=
    ⟨fun c hc => Str.contains_eq_false fun h => hhead c hc (.inr h),
      fun c hc => Str.contains_eq_false fun h => hlast c hc (.inr h)⟩
  rw [core, Str.strip_eq_trim, Str.trim_eq_self hspace, Str.stripChars_eq_trim,
    Str.trim_eq_self hmarks]

section Laws

variable (hU : U.LowersText) (hF : U.FoldsCase) (hS : U.PlainSpaces)

include hU hS in
theorem lower_of_trimmable (h : ∀ c ∈ s, Trimmable U c) : U.lower s = s := by
  refine hU.lawful.eq_self s fun c hc => ?_
  rcases h c hc with hspace | hmark
  · exact hS.lower c hspace
  · have hall : trimPunctuation.all (fun c => decide (c.val < 128) && decide (c.toLower = c)) =
        true := by
      decide
    obtain ⟨hval, hlower⟩ := Bool.and_eq_true_iff.mp (all_eq_true.mp hall c hmark)
    rw [hU.lawful.ascii c (of_decide_eq_true hval), of_decide_eq_true hlower]

include hS in
theorem sigma_notMem_of_trimmable (h : ∀ c ∈ s, Trimmable U c) : 'Σ' ∉ s := by
  intro hmem
  rcases h 'Σ' hmem with hspace | hmark
  · rw [hS.visible 'Σ' (.inr (.inl rfl))] at hspace
    cases hspace
  · exact absurd hmark (by decide)

include hU hS in
theorem lower_around {p r : Str} (hp : ∀ c ∈ p, Trimmable U c) (hr : ∀ c ∈ r, Trimmable U c)
    (hs : 'Σ' ∉ s) : U.lower (p ++ (s ++ r)) = p ++ (U.lower s ++ r) := by
  have hpSigma := sigma_notMem_of_trimmable hS hp
  have hrSigma := sigma_notMem_of_trimmable hS hr
  have hrest : 'Σ' ∉ s ++ r := fun h => (mem_append.mp h).elim hs hrSigma
  rw [hU.lower_append hpSigma hrest, hU.lower_append hs hrSigma, lower_of_trimmable hU hS hp,
    lower_of_trimmable hU hS hr]

include hF in
theorem alnum_cases {c : Char} (h : inClass U alnums c = true) :
    c.isAlphanum = true ∨ c ∈ Unicode.foldedLetters := by
  refine (inClass_cases hF (by decide) h).imp_left ?_
  rintro ⟨-, a, ha, hlower⟩
  have hall : alnums.all (fun a => a.isAlphanum && decide (a.toLower = a)) = true := by decide
  obtain ⟨halnum, hself⟩ := Bool.and_eq_true_iff.mp (all_eq_true.mp hall a ha)
  by_cases halpha : c.isAlpha = true
  · exact Bool.or_eq_true_iff.mpr (.inl halpha)
  · rw [of_decide_eq_true hself] at hlower
    rw [(Unicode.toLower_eq_of_not_isAlpha halpha).mpr rfl] at hlower
    rwa [← hlower]

include hS in
theorem not_trimmable {c : Char} (h : c.isAlphanum = true ∨ c ∈ Unicode.foldedLetters) :
    ¬ Trimmable U c := by
  rintro (hspace | hmark)
  · rw [hS.visible c (h.imp_right .inr)] at hspace
    cases hspace
  · have hall : trimPunctuation.all (fun c => !c.isAlphanum &&
        !Unicode.foldedLetters.contains c) = true := by
      decide
    have hnot := all_eq_true.mp hall c hmark
    rcases h with hc | hc
    · simp [hc] at hnot
    · simp [hc] at hnot

include hF hS in
theorem not_trimmable_of_alnum {c : Char} (h : inClass U alnums c = true) : ¬ Trimmable U c :=
  not_trimmable hS (alnum_cases hF h)

/-! ## Addresses -/

namespace Address

variable (a : Address U)

theorem head_text : ∃ c t, a.text = c :: t ∧ inClass U alnums c = true := by
  obtain ⟨c, t, hname, hc⟩ := a.isName.head
  exact ⟨c, t ++ '@' :: a.domain, by rw [text, hname]; rfl, hc⟩

theorem last_text {c : Char} (h : c ∈ a.text.getLast?) : inClass U alnums c = true := by
  have htld : a.tld ≠ [] := by
    intro hnil
    have hlen := a.isTld.1
    rw [hnil] at hlen
    exact absurd hlen (by decide)
  have hlast : a.text.getLast? = a.tld.getLast? := by
    rw [text, domain, List.getLast?_append_of_ne_nil _ (cons_ne_nil _ _), ← cons_append,
      List.getLast?_append_of_ne_nil _ htld]
  rw [hlast] at h
  exact inClass_mono (by decide) (a.isTld.2.2 c (mem_of_mem_getLast? h))

include hF hS in
theorem core_text : core U a.text = a.text := by
  refine core_eq_self (fun c hc => ?_) fun c hc => ?_
  · obtain ⟨d, t, htext, hd⟩ := a.head_text
    rw [htext] at hc
    cases hc
    exact not_trimmable_of_alnum hF hS hd
  · exact not_trimmable_of_alnum hF hS (a.last_text hc)

include hU in
theorem kept_of_lower (h : U.lower s = a.text) : ∀ c ∈ a.text, LowerChar U c := by
  rw [← h]
  exact hU.lawful.keeps s

include hU hF in
theorem sigma_notMem (h : U.lower s = a.text) : 'Σ' ∉ s := by
  intro hmem
  obtain ⟨c, hc, hsigma⟩ := hU.sigma s hmem
  rw [h] at hc
  have hall : Unicode.sigmas.all (fun c => !decide (c.val < 128) &&
      !Unicode.foldedLetters.contains c) = true := by
    decide
  have hnot := all_eq_true.mp hall c hsigma
  rcases a.mem_text hF hc with hclass | rfl
  · rcases inClass_cases hF localChars_ascii hclass with ⟨hval, -⟩ | hfolded
    · simp [hval] at hnot
    · simp [hfolded] at hnot
  · exact absurd hsigma (by decide)

end Address

/-! ## The sentence behind an address -/

/-- A capital followed by lower-case letters. -/
def Capitalised (word : Str) : Prop :=
  ∃ c w, word = c :: w ∧ c.isUpper = true ∧ w ≠ [] ∧ ∀ d ∈ w, d.isLower = true

theorem glued_cases {g : Str} (h : gluedPattern.groupOf s = some g) :
    ∃ x target word line, x ≠ [] ∧ target ∈ trimTargets ∧ g = x ++ '.' :: target ∧
      Capitalised word ∧ (line = [] ∨ line = ['\n']) ∧ s = g ++ '.' :: (word ++ line) := by
  obtain ⟨u, v, rest, hs, ⟨-, rfl⟩, hg, hv⟩ := Regex.groupOf_sound (by decide) h
  obtain ⟨x, v', rfl, hx, d, t, rfl, ⟨dot, hdot, rfl⟩, ht⟩ := hg
  obtain ⟨dv, w, rfl, ⟨dot', hdot', rfl⟩, cs, w', rfl, ⟨c, hc, rfl⟩, ws, f, rfl, hws, hf, rfl⟩ := hv
  obtain ⟨r, hr, ht⟩ := (Regex.reads_any _).mp ht
  obtain ⟨target, htarget, rfl⟩ := mem_map.mp hr
  have heq : target = t := by
    refine List.forall₂_eq_eq_eq ▸ (Regex.reads_lit.mp ht).imp fun _ _ h => ?_
    simpa using h
  obtain rfl := of_decide_eq_true hdot
  obtain rfl := of_decide_eq_true hdot'
  subst heq
  obtain ⟨hne, hlower⟩ := Regex.reads_plus_char.mp hws
  refine ⟨x, target, c :: ws, rest, (Regex.reads_plus_char.mp hx).1, htarget, rfl,
    ⟨c, ws, rfl, hc, hne, hlower⟩, by simpa using hf, ?_⟩
  simpa using hs

theorem unglueSentence_of_none (h : gluedPattern.groupOf (core U raw) = none) :
    unglueSentence U (emailPatterns U isAlpha extract) raw = raw := by
  rw [unglueSentence_eq]
  exact (congrArg (Option.getD · raw) h).trans Option.getD_none

include hU in
theorem glued_none (h : ∀ c ∈ s, LowerChar U c) : gluedPattern.groupOf s = none := by
  cases hg : gluedPattern.groupOf s with
  | none => rfl
  | some g =>
    obtain ⟨x, target, word, line, -, -, -, ⟨c, w, rfl, hc, -⟩, -, rfl⟩ := glued_cases hg
    have hkept : U.lower [c] = [c] := h c (by simp)
    have hval : c.val < 128 := UInt32.lt_of_le_of_lt (Url.isUpper_iff.mp hc).2 (by decide)
    rw [hU.lawful.ascii c hval] at hkept
    have hlower := Url.isLower_toLower hc
    rw [head_eq_of_cons_eq hkept] at hlower
    -- no character is both
    exact absurd (UInt32.le_trans (Url.isLower_iff.mp hlower).1 (Url.isUpper_iff.mp hc).2)
      (by decide)

/-! ## Assets -/

def assetNames : List Str :=
  ["png", "jpg", "jpeg", "gif", "webp", "svg", "bmp", "ico", "css", "js", "json", "woff",
    "woff2", "ttf", "eot", "mp4", "webm", "avif", "tif", "tiff"].map String.toList

theorem reads_lit_opt {eq : Char → Char → Bool} {u v w after : Str} {prev : Option Char}
    (h : (Regex.seq (.lit eq u) (.opt (.lit eq v))).Reads prev w after) :
    List.Forall₂ (fun a c => eq a c = true) (u ++ v) w ∨
      List.Forall₂ (fun a c => eq a c = true) u w := by
  obtain ⟨w₁, w₂, rfl, h₁, h₂ | rfl⟩ := h
  · exact .inl (rel_append (Regex.reads_lit.mp h₁) (Regex.reads_lit.mp h₂))
  · rw [append_nil]
    exact .inr (Regex.reads_lit.mp h₁)

/-- The pattern reads names of assets only, up to case. -/
def ReadsAssets (U : Unicode) (r : Regex) : Prop :=
  ∀ prev w after, r.Reads prev w after →
    ∃ name ∈ assetNames, List.Forall₂ (fun a c => U.sameCase a c = true) name w

theorem readsAssets_lit {name : Str} (h : name ∈ assetNames) :
    ReadsAssets U (.lit U.sameCase name) :=
  fun _ _ _ hread => ⟨name, h, Regex.reads_lit.mp hread⟩

theorem readsAssets_lit_opt {name more : Str} (h : name ∈ assetNames)
    (hmore : name ++ more ∈ assetNames) :
    ReadsAssets U (.seq (.lit U.sameCase name) (.opt (.lit U.sameCase more))) := by
  intro prev w after hread
  rcases reads_lit_opt hread with hlong | hshort
  · exact ⟨name ++ more, hmore, hlong⟩
  · exact ⟨name, h, hshort⟩

theorem readsAssets_jpeg : ReadsAssets U (.all [.lit U.sameCase "jp".toList,
    .opt (.lit U.sameCase "e".toList), .lit U.sameCase "g".toList]) := by
  rintro prev w after ⟨w₁, w₂, rfl, h₁, w₃, w₄, rfl, h₃, h₄⟩
  have hjp := Regex.reads_lit.mp h₁
  have hg := Regex.reads_lit.mp h₄
  rcases h₃ with h₃ | rfl
  · refine ⟨"jpeg".toList, by decide, ?_⟩
    exact rel_append hjp (rel_append (Regex.reads_lit.mp h₃) hg)
  · exact ⟨"jpg".toList, by decide, rel_append hjp hg⟩

theorem readsAssets_endings : ∀ r ∈ assetEndings U, ReadsAssets U r := by
  simp only [assetEndings, forall_mem_cons]
  exact ⟨readsAssets_lit (by decide), readsAssets_jpeg, readsAssets_lit (by decide),
    readsAssets_lit (by decide), readsAssets_lit (by decide), readsAssets_lit (by decide),
    readsAssets_lit (by decide), readsAssets_lit (by decide), readsAssets_lit (by decide),
    readsAssets_lit (by decide), readsAssets_lit_opt (by decide) (by decide),
    readsAssets_lit (by decide), readsAssets_lit (by decide), readsAssets_lit (by decide),
    readsAssets_lit (by decide), readsAssets_lit (by decide),
    readsAssets_lit_opt (by decide) (by decide), fun _ h => absurd h not_mem_nil⟩

include hF in
theorem fold_eq_of_sameCase {name w : Str} (hname : ∀ c ∈ name, c.val < 128)
    (hw : ∀ c ∈ w, c.val < 128)
    (h : List.Forall₂ (fun a c => U.sameCase a c = true) name w) :
    name.map Char.toLower = w.map Char.toLower := by
  induction h with
  | nil => rfl
  | @cons a c name w hac _ ih =>
    obtain ⟨ha, hname⟩ := forall_mem_cons.mp hname
    obtain ⟨hc, hw⟩ := forall_mem_cons.mp hw
    rw [map_cons, map_cons, (hF.ascii a c ha hc).mp hac, ih hname hw]

include hF in
theorem assetTail_withTld (a : Address U) {target : Str} (h : target ∈ trimTargets) :
    (assetPattern U).found (a.withTld hF h).domain = false := by
  rw [← Bool.not_eq_true, Regex.found_iff]
  rintro ⟨before, w, after, hdomain, d, ext, rfl, ⟨dot, hdot, rfl⟩, ext', f, rfl, hext, hf, rfl⟩
  obtain rfl := (sameCase_iff hF (by decide) (by decide)).mp hdot
  obtain ⟨r, hr, hext⟩ := (Regex.reads_any _).mp hext
  obtain ⟨name, hname, hsame⟩ := readsAssets_endings r hr _ _ _ hext
  have hnames : assetNames.all (fun name => name.all (fun c => decide (c.val < 128 ∧ c ≠ '.')) &&
      trimTargets.all fun t => decide (name.map Char.toLower ≠ t.map Char.toLower)) = true := by
    decide
  obtain ⟨hchars, hother⟩ := Bool.and_eq_true_iff.mp (all_eq_true.mp hnames name hname)
  have hline : after = [] := by
    rcases (by simpa using hf : after = [] ∨ after = ['\n']) with hnil | hline
    · exact hnil
    · refine absurd ?_ ((a.withTld hF h).newline_notMem_domain hF)
      rw [hdomain, hline]
      simp
  have hdots : '.' ∉ ext' := by
    intro hmem
    obtain ⟨b, hb, hbc⟩ := Regex.exists_of_forall₂ hsame.flip hmem
    have hb := of_decide_eq_true (all_eq_true.mp hchars b hb)
    rw [hF.not_sameCase hb.1 (by decide) (by decide) hb.2] at hbc
    cases hbc
  -- the extension is the last label
  have hsplit := (a.withTld hF h).splitOn_domain hF
  rw [hdomain, hline, append_nil, append_nil, singleton_append,
    splitOn_append_cons_self, splitOn_eq_singleton hdots] at hsplit
  have hlast : ext' = target := singleton_inj.mp (append_inj_right' hsplit rfl)
  have hascii : trimTargets.all (fun t => t.all fun c => decide (c.val < 128)) = true := by decide
  have htarget := all_eq_true.mp (all_eq_true.mp hascii target h)
  rw [hlast] at hsame
  refine of_decide_eq_true (all_eq_true.mp hother target h) ?_
  refine fold_eq_of_sameCase hF (fun c hc => ?_) (fun c hc => ?_) hsame
  · exact (of_decide_eq_true (all_eq_true.mp hchars c hc)).1
  · exact of_decide_eq_true (htarget c hc)

/-! ## Cutting letters off the last label -/

namespace Address

variable (a : Address U)

theorem text_eq : ∃ z, a.text = z ++ '.' :: a.tld := by
  have hlabels := dropLast_concat_getLast a.labels_ne
  refine ⟨a.name ++ '@' :: ((a.labels.dropLast.map (· ++ ['.'])).flatten ++
    a.labels.getLast a.labels_ne), ?_⟩
  rw [text, domain]
  conv_lhs => rw [← hlabels]
  simp

include hF in
theorem versionLike_withTld {target : Str} (h : target ∈ trimTargets) :
    versionLike U (a.withTld hF h).domain = versionLike U a.domain := by
  rw [versionLike, versionLike, splitOn_domain hF, splitOn_domain hF, dropLast_concat,
    dropLast_concat]
  rfl

/-- Nothing is wrong with the domain of the address. -/
structure Sound (extract : Str → ExtractResult) : Prop where
  lower : ∀ c ∈ a.text, LowerChar U c
  asset : (assetPattern U).found a.domain = false
  version : versionLike U a.domain = false
  suffix : (extract a.domain).suffix ≠ []

end Address

include hF in
theorem tail_of_gluedTo (hU : U.LawfulLower) {a : Address U} (hlower : ∀ c ∈ a.text, LowerChar U c)
    {target : Str} (h : gluedTo U (emailPatterns U isAlpha extract) a.domain target = true) :
    ∃ tail, a.tld = target ++ tail ∧ 2 ≤ tail.length ∧ ∀ c ∈ tail, isAlpha c = true := by
  have htld : U.lower a.tld = a.tld := by
    obtain ⟨z, hz⟩ := a.text_eq
    refine hU.eq_self _ fun c hc => hlower c ?_
    rw [hz]
    exact mem_append_right _ (mem_cons_of_mem _ hc)
  unfold gluedTo at h
  rw [a.splitOn_domain hF, getLastD_concat, htld] at h
  dsimp only at h
  simp only [Bool.and_eq_true, decide_eq_true_eq, all_eq_true] at h
  obtain ⟨⟨hstart, hlen⟩, halpha⟩ := h
  obtain ⟨tail, htail⟩ := List.isPrefixOf_iff_prefix.mp hstart
  rw [← htail, drop_left] at hlen halpha
  exact ⟨tail, htail.symm, hlen, halpha⟩

include hF in
theorem fixTld_text (hU : U.LawfulLower) {a : Address U} (hlower : ∀ c ∈ a.text, LowerChar U c)
    (h : fixTld U (emailPatterns U isAlpha extract) a.text = some e) :
    (e = a.text ∧ a.Sound extract) ∨ ∃ (target : Str) (ht : target ∈ trimTargets) (tail : Str),
      a.tld = target ++ tail ∧ 2 ≤ tail.length ∧ (∀ c ∈ tail, isAlpha c = true) ∧
      e = (a.withTld hF ht).text ∧ (a.withTld hF ht).Sound extract := by
  have hlowered : ∀ c ∈ e, LowerChar U c := lowerChar_of_fixTld hU hlower h
  unfold fixTld at h
  rw [a.beforeLast_text hF, a.afterLast_text hF] at h
  dsimp only at h
  split_ifs at h with hparts hbad hsuffix
  · obtain rfl := Option.some.inj h
    have hok : (assetPattern U).found a.domain = false ∧ versionLike U a.domain = false := by
      simpa [emailPatterns] using hbad
    exact .inl ⟨rfl, hlower, hok.1, hok.2, hsuffix⟩
  · obtain ⟨target, hfind, rfl⟩ := Option.map_eq_some_iff.mp h
    have ht := mem_of_find?_eq_some hfind
    have hfound := List.find?_some hfind
    rw [a.trimmedTo_domain hF ht] at hlowered hfound ⊢
    obtain ⟨hglued, hsuffix'⟩ := Bool.and_eq_true_iff.mp hfound
    obtain ⟨tail, htail, hlen, halpha⟩ := tail_of_gluedTo hF hU hlower hglued
    refine .inr ⟨target, ht, tail, htail, hlen, halpha, rfl, hlowered,
      assetTail_withTld hF a ht, ?_, of_decide_eq_true hsuffix'⟩
    rw [a.versionLike_withTld hF ht]
    have hok : (assetPattern U).found a.domain = false ∧ versionLike U a.domain = false := by
      simpa [emailPatterns] using hbad
    exact hok.2

/-! ## Acceptance -/

/-- What `_accept` does with the cleaned text. -/
def checked (U : Unicode) (P : Patterns) (email : Str) : Option Str :=
  if email = [] || !P.emailFull email then none else fixTld U P email

theorem accept_eq (U : Unicode) (P : Patterns) (raw : Str) :
    accept U P raw = checked U P (clean U (unglueSentence U P raw)) := rfl

include hF in
theorem checked_cases (h : checked U (emailPatterns U isAlpha extract) s = some e) :
    ∃ a : Address U, s = a.text ∧ fixTld U (emailPatterns U isAlpha extract) a.text = some e := by
  unfold checked at h
  split_ifs at h with hcheck
  rw [Bool.or_eq_true, not_or] at hcheck
  have hfull : (emailFullPattern U).fullMatches s = true := by
    simpa [emailPatterns] using hcheck.2
  obtain ⟨a, rfl⟩ := (emailFull_iff hF).mp hfull
  exact ⟨a, rfl, h⟩

include hF in
theorem accept_cases (h : accept U (emailPatterns U isAlpha extract) raw = some e) :
    ∃ a : Address U, clean U (unglueSentence U (emailPatterns U isAlpha extract) raw) = a.text ∧
      fixTld U (emailPatterns U isAlpha extract) a.text = some e :=
  checked_cases hF h

include hU hF hS in
theorem accept_text {a : Address U} (ha : a.Sound extract) :
    accept U (emailPatterns U isAlpha extract) a.text = some a.text := by
  have hcore := a.core_text hF hS
  have hglued : gluedPattern.groupOf (core U a.text) = none := by
    rw [hcore]
    exact glued_none hU ha.lower
  have hclean : clean U (unglueSentence U (emailPatterns U isAlpha extract) a.text) = a.text := by
    rw [unglueSentence_of_none hglued, clean_eq, hcore]
    exact hU.lawful.eq_self _ ha.lower
  have hne : a.text ≠ [] := by
    obtain ⟨c, t, htext, -⟩ := a.head_text
    simp [htext]
  have hfull : (emailPatterns U isAlpha extract).emailFull a.text = true :=
    (emailFull_iff hF).mpr ⟨a, rfl⟩
  have hasset : (emailPatterns U isAlpha extract).assetTail a.domain = false := ha.asset
  have hsuffix : ((emailPatterns U isAlpha extract).extract a.domain).suffix ≠ [] := ha.suffix
  unfold accept
  simp only [hclean, hfull, hne, decide_false, Bool.not_true, Bool.or_self, Bool.false_eq_true,
    if_false]
  unfold fixTld
  simp only [a.beforeLast_text hF, a.afterLast_text hF, a.name_ne_nil, a.domain_ne_nil, hasset,
    ha.version, hsuffix, decide_false, Bool.or_self, Bool.false_eq_true, if_false, ne_eq,
    not_false_eq_true, if_true]

/-- What stands behind the accepted address `e`, before the spaces and punctuation `r` at the
end of the text. -/
inductive GluedOn (U : Unicode) (isAlpha : Char → Bool) (raw e r : Str) : Str → Prop
  | nothing : GluedOn U isAlpha raw e r []
  | sentence {before word target : Str} (hraw : raw = before ++ '.' :: (word ++ r))
      (hword : Capitalised word) (htarget : target ∈ trimTargets) (he : '.' :: target <:+ e) :
      GluedOn U isAlpha raw e r ('.' :: U.lower word)
  | letters {target tail : Str} (htarget : target ∈ trimTargets) (he : '.' :: target <:+ e)
      (hlength : 2 ≤ tail.length) (hletters : ∀ c ∈ tail, isAlpha c = true) :
      GluedOn U isAlpha raw e r tail

theorem Capitalised.chars {word : Str} (h : Capitalised word) : ∀ c ∈ word, c.isAlpha = true := by
  obtain ⟨c, w, rfl, hc, -, hw⟩ := h
  intro d hd
  rcases mem_cons.mp hd with rfl | hd
  · exact Url.isAlpha_iff.mpr (.inl hc)
  · exact Url.isAlpha_iff.mpr (.inr (hw d hd))

theorem not_target_append {target target' tail : Str} (h : target ∈ trimTargets)
    (h' : target' ∈ trimTargets) (heq : target' = target ++ tail) (hlen : 2 ≤ tail.length) :
    False := by
  have hall : trimTargets.all (fun t => trimTargets.all fun t' =>
      !(t.isPrefixOf t' && decide (2 ≤ (t'.drop t.length).length))) = true := by
    decide
  have hno := all_eq_true.mp (all_eq_true.mp hall target h) target' h'
  have hbefore : target.isPrefixOf target' = true :=
    List.isPrefixOf_iff_prefix.mpr ⟨tail, heq.symm⟩
  rw [hbefore, heq, drop_left] at hno
  simp [hlen] at hno

include hU hF hS in
theorem glued_of_no_sentence {a : Address U} (ha : U.lower (core U raw) = a.text)
    (h : fixTld U (emailPatterns U isAlpha extract) a.text = some e) :
    ∃ p q r, U.lower raw = p ++ (e ++ (q ++ r)) ∧ (∀ c ∈ p, Trimmable U c) ∧
      (∀ c ∈ r, Trimmable U c) ∧ GluedOn U isAlpha raw e r q := by
  obtain ⟨p, r, hraw, hp, hr⟩ := exists_core U raw
  have hlower : U.lower raw = p ++ (a.text ++ r) := by
    rw [← ha, ← lower_around hU hS hp hr (a.sigma_notMem hU hF ha), ← hraw]
  have hkept := a.kept_of_lower hU ha
  rcases fixTld_text hF hU.lawful hkept h with
    ⟨rfl, -⟩ | ⟨target, ht, tail, htld, hlen, halpha, rfl, -⟩
  · exact ⟨p, [], r, hlower, hp, hr, .nothing⟩
  · have htext : a.text = (a.withTld hF ht).text ++ tail := by
      rw [Address.text, Address.domain, htld]
      simp [Address.text, Address.domain, Address.withTld]
    refine ⟨p, tail, r, ?_, hp, hr, .letters ht ?_ hlen halpha⟩
    · rw [hlower, htext, append_assoc]
    · obtain ⟨z, hz⟩ := (a.withTld hF ht).text_eq
      exact ⟨z, hz.symm⟩

include hF hS in
/-- The group that the sentence was taken off ends in a letter, so nothing is stripped
behind it. -/
theorem exists_core_of_target {g x target : Str} (htarget : target ∈ trimTargets)
    (hg : g = x ++ '.' :: target) : ∃ p, g = p ++ core U g ∧ ∀ c ∈ p, Trimmable U c := by
  obtain ⟨p, r, hcore, hp, hr⟩ := exists_core U g
  have htld := isTld_of_mem_trimTargets hF htarget
  have hr : r = [] := by
    by_contra hne
    have htargetne : target ≠ [] := by
      intro hnil
      rw [hnil] at htld
      exact absurd htld.1 (by decide)
    have hlast : r.getLast? = target.getLast? := by
      rw [← List.getLast?_append_of_ne_nil (core U g) hne,
        ← List.getLast?_append_of_ne_nil p (append_ne_nil_of_right_ne_nil _ hne), ← hcore, hg,
        List.getLast?_append_of_ne_nil _ (cons_ne_nil _ _), ← singleton_append,
        List.getLast?_append_of_ne_nil _ htargetne]
    have hmem := getLast_mem hne
    rw [List.getLast?_eq_some_getLast hne] at hlast
    have hletter := htld.2.2 _ (mem_of_mem_getLast? hlast.symm)
    exact not_trimmable_of_alnum hF hS (inClass_mono (by decide) hletter) (hr _ hmem)
  rw [hr, append_nil] at hcore
  exact ⟨p, hcore, hp⟩

include hU hF hS in
theorem tld_eq_target {a : Address U} {g p x target : Str} (ha : U.lower (core U g) = a.text)
    (htarget : target ∈ trimTargets) (hg : g = x ++ '.' :: target) (hcore : g = p ++ core U g)
    (hp : ∀ c ∈ p, Trimmable U c) : a.tld = target := by
  have hall : trimTargets.all (fun t => !t.contains '.' && !t.contains 'Σ') = true := by decide
  have htargets := Bool.and_eq_true_iff.mp (all_eq_true.mp hall target htarget)
  have hpSigma := sigma_notMem_of_trimmable hS hp
  have hcoreSigma := a.sigma_notMem hU hF ha
  have hxSigma : 'Σ' ∉ x := by
    intro hmem
    have hmem : 'Σ' ∈ p ++ core U g := by
      rw [← hcore, hg]
      exact mem_append_left _ hmem
    exact (mem_append.mp hmem).elim hpSigma hcoreSigma
  have hkept : U.lower ('.' :: target) = '.' :: target := by
    refine hU.lawful.eq_self _ (forall_mem_cons.mpr ⟨?_, ?_⟩)
    · exact hU.lawful.ascii '.' (by decide)
    · exact lowerChar_of_mem_trimTargets hU.lawful htarget
  -- the lower case of the group, as it is stripped and as it is matched
  have hleft : U.lower g = p ++ a.text := by
    conv_lhs => rw [hcore]
    rw [hU.lower_append hpSigma hcoreSigma, lower_of_trimmable hU hS hp, ha]
  have hright : U.lower g = U.lower x ++ '.' :: target := by
    rw [hg, hU.lower_append hxSigma (by simpa using htargets.2), hkept]
  obtain ⟨z, hz⟩ := a.text_eq
  have hafter := congrArg (Str.afterLast '.') (hleft.symm.trans hright)
  rwa [hz, ← append_assoc, Str.afterLast_append_cons (a.dot_notMem_tld hF),
    Str.afterLast_append_cons (by simpa using htargets.1)] at hafter

include hU in
theorem lower_sentence {word : Str} (hword : Capitalised word) (hs : 'Σ' ∉ s) :
    'Σ' ∉ s ++ '.' :: word ∧ U.lower (s ++ '.' :: word) = U.lower s ++ '.' :: U.lower word := by
  have hwordSigma : 'Σ' ∉ word := fun h => absurd (hword.chars 'Σ' h) (by decide)
  have hdotSigma : 'Σ' ∉ '.' :: word := by simp [hwordSigma]
  refine ⟨fun h => (mem_append.mp h).elim hs hdotSigma, ?_⟩
  rw [hU.lower_append hs hdotSigma, ← singleton_append,
    hU.lower_append (by decide) hwordSigma, hU.lawful.ascii '.' (by decide)]
  rfl

include hU hF hS in
theorem glued_of_sentence {a : Address U} {g : Str}
    (hg : gluedPattern.groupOf (core U raw) = some g) (ha : U.lower (core U g) = a.text)
    (h : fixTld U (emailPatterns U isAlpha extract) a.text = some e) :
    ∃ p word r, U.lower raw = p ++ (e ++ ('.' :: U.lower word ++ r)) ∧
      (∀ c ∈ p, Trimmable U c) ∧ (∀ c ∈ r, Trimmable U c) ∧
      GluedOn U isAlpha raw e r ('.' :: U.lower word) := by
  obtain ⟨x, target, word, line, -, htarget, hgx, hword, hline, hcore⟩ := glued_cases hg
  obtain ⟨p, r, hraw, hp, hr⟩ := exists_core U raw
  obtain ⟨p', hg', hp'⟩ := exists_core_of_target hF hS htarget hgx
  obtain rfl : a.tld = target := tld_eq_target hU hF hS ha htarget hgx hg' hp'
  have hlineTrim : ∀ c ∈ line ++ r, Trimmable U c := by
    refine forall_mem_append.mpr ⟨fun c hc => ?_, hr⟩
    rcases hline with rfl | rfl
    · cases hc
    · rw [mem_singleton.mp hc]
      exact .inl hS.newline
  have hplace : raw = (p ++ p') ++ ((core U g ++ '.' :: word) ++ (line ++ r)) := by
    conv_lhs => rw [hraw, hcore, hg']
    simp
  have hlower : U.lower raw = (p ++ p') ++ ((a.text ++ '.' :: U.lower word) ++ (line ++ r)) := by
    have hsentence := lower_sentence hU hword (a.sigma_notMem hU hF ha)
    conv_lhs => rw [hplace]
    rw [lower_around hU hS (forall_mem_append.mpr ⟨hp, hp'⟩) hlineTrim hsentence.1,
      hsentence.2, ha]
  have hkept := a.kept_of_lower hU ha
  rcases fixTld_text hF hU.lawful hkept h with ⟨rfl, -⟩ | ⟨target, ht, tail, htail, hlen, -⟩
  · obtain ⟨z, hz⟩ := a.text_eq
    have hbefore : raw = ((p ++ p') ++ core U g) ++ '.' :: (word ++ (line ++ r)) := by
      conv_lhs => rw [hplace]
      simp
    refine ⟨p ++ p', word, line ++ r, ?_, forall_mem_append.mpr ⟨hp, hp'⟩, hlineTrim,
      .sentence hbefore hword htarget ⟨z, hz.symm⟩⟩
    rw [hlower, append_assoc a.text]
  · exact (not_target_append ht htarget htail hlen).elim

/-! ## What acceptance does -/

include hU hF in
theorem sound_of_accept (h : accept U (emailPatterns U isAlpha extract) raw = some e) :
    ∃ a : Address U, e = a.text ∧ a.Sound extract := by
  obtain ⟨a, ha, hfix⟩ := accept_cases hF h
  have hkept := a.kept_of_lower hU ha
  rcases fixTld_text hF hU.lawful hkept hfix with ⟨rfl, hsound⟩ | ⟨_, ht, _, -, -, -, rfl, hsound⟩
  · exact ⟨a, rfl, hsound⟩
  · exact ⟨a.withTld hF ht, rfl, hsound⟩

include hU hF hS in
theorem placed_of_accept (h : accept U (emailPatterns U isAlpha extract) raw = some e) :
    ∃ p q r, U.lower raw = p ++ (e ++ (q ++ r)) ∧ (∀ c ∈ p, Trimmable U c) ∧
      (∀ c ∈ r, Trimmable U c) ∧ GluedOn U isAlpha raw e r q := by
  obtain ⟨a, ha, hfix⟩ := accept_cases hF h
  rw [unglueSentence_eq] at ha
  cases hg : (emailPatterns U isAlpha extract).gluedSentence (core U raw) with
  | none =>
    rw [hg, Option.getD_none, clean_eq] at ha
    exact glued_of_no_sentence hU hF hS ha hfix
  | some g =>
    rw [hg, Option.getD_some, clean_eq] at ha
    obtain ⟨p, word, r, hglued⟩ := glued_of_sentence hU hF hS hg ha hfix
    exact ⟨p, '.' :: U.lower word, r, hglued⟩

end Laws

/-- Acceptance only trims: the accepted address is one, it stands in the lower-cased text
between spaces and punctuation and what was glued to it, and it is accepted as it is. -/
theorem acceptance_only_trims (hU : U.LowersText) (hF : U.FoldsCase) (hS : U.PlainSpaces)
    (h : accept U (emailPatterns U isAlpha extract) raw = some e) :
    (emailFullPattern U).fullMatches e = true ∧
    (∃ p q r, U.lower raw = p ++ (e ++ (q ++ r)) ∧ (∀ c ∈ p, Trimmable U c) ∧
      (∀ c ∈ r, Trimmable U c) ∧ GluedOn U isAlpha raw e r q) ∧
    accept U (emailPatterns U isAlpha extract) e = some e := by
  obtain ⟨b, hb, hsound⟩ := sound_of_accept hU hF h
  refine ⟨(emailFull_iff hF).mpr ⟨b, hb⟩, placed_of_accept hU hF hS h, ?_⟩
  rw [hb]
  exact accept_text hU hF hS hsound

def suffixOf (known : List Str) (domain : Str) : ExtractResult where
  subdomain := []
  domain := []
  suffix := (known.find? fun suffix => Str.endsWith domain ('.' :: suffix)).getD []

theorem glued_sentence_is_trimmed :
    let P := emailPatterns .dotted Char.isAlpha (suffixOf ["com".toList])
    accept .dotted P " info@acme.com.Call, ".toList = some "info@acme.com".toList ∧
    accept .dotted P "info@acme.com".toList = some "info@acme.com".toList := by
  have h : accept .dotted (emailPatterns .dotted Char.isAlpha (suffixOf ["com".toList]))
      " info@acme.com.Call, ".toList = some "info@acme.com".toList := by
    decide +kernel
  exact ⟨h, (acceptance_only_trims Unicode.lowersText_dotted Unicode.foldsCase_dotted
    Unicode.plainSpaces_dotted h).2.2⟩

end Pipeline

end EmailExtractor
