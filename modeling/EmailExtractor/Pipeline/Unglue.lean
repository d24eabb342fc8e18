import EmailExtractor.Pipeline.Emails
import EmailExtractor.Pipeline.Trimming

/-!
# Capitalised labels

`unglue_sentence` looks at capitals, and `clean` removes them. A text that no sentence is
taken off is accepted like its cleaned form unless cleaning it again makes an address of it,
and a text that one is taken off only if neither is accepted. An address under a public
suffix is accepted as a whole exactly if its last label is not a capitalised word behind a
common top-level domain, and the two readings of a script body that is no JSON give one
candidate for an address that is accepted like its cleaned form.
-/

namespace EmailExtractor

namespace Pipeline

open List

variable {U : Unicode} {isAlpha : Char → Bool} {extract : Str → ExtractResult} {raw e s : Str}

section Laws

variable (hU : U.LowersText) (hF : U.FoldsCase) (hS : U.PlainSpaces)

/-! ## Cleaning before acceptance -/

theorem mem_of_mem_core {c : Char} (h : c ∈ core U s) : c ∈ s := (core_isInfix U s).subset h

theorem unglueSentence_clean (hU : U.LowersText) (raw : Str) :
    unglueSentence U (emailPatterns U isAlpha extract) (clean U raw) = clean U raw :=
  unglueSentence_of_none (glued_none hU fun c hc => hU.lawful.keeps _ c (mem_of_mem_core hc))

include hU in
theorem accept_clean (hglued : gluedPattern.groupOf (core U raw) = none)
    (hclean : clean U (clean U raw) = clean U raw) :
    accept U (emailPatterns U isAlpha extract) (clean U raw) =
      accept U (emailPatterns U isAlpha extract) raw := by
  unfold accept
  rw [unglueSentence_of_none hglued, unglueSentence_clean hU, hclean]

theorem accept_clean_eq (hU : U.LowersText) (raw : Str) :
    accept U (emailPatterns U isAlpha extract) (clean U raw) =
      checked U (emailPatterns U isAlpha extract) (clean U (clean U raw)) := by
  rw [accept_eq, unglueSentence_clean hU]

/-- The text is accepted like its cleaned form: no sentence is taken off it, and cleaning it
again changes nothing or does not make an address of it; or one is taken off, and neither
what is left nor the whole is an address. -/
def Alike (U : Unicode) (P : Patterns) (raw : Str) : Prop :=
  P.gluedSentence (core U raw) = none ∧
      (clean U (clean U raw) = clean U raw ∨ checked U P (clean U (clean U raw)) = none) ∨
    ∃ g ∈ P.gluedSentence (core U raw),
      checked U P (clean U g) = none ∧ checked U P (clean U (clean U raw)) = none

/-! ## Addresses in any letter case -/

namespace Address

variable {a : Address U}

include hU hF hS in
theorem core_of_lower (h : U.lower raw = a.text) : core U raw = raw := by
  obtain ⟨p, r, hraw, hp, hr⟩ := exists_core U raw
  have hsigma : 'Σ' ∉ core U raw := fun hmem => a.sigma_notMem hU hF h (mem_of_mem_core hmem)
  have hlower : a.text = p ++ (U.lower (core U raw) ++ r) := by
    rw [← h, ← lower_around hU hS hp hr hsigma, ← hraw]
  have hp : p = [] := by
    cases p with
    | nil => rfl
    | cons c p =>
      obtain ⟨d, t, htext, hd⟩ := a.head_text
      rw [htext] at hlower
      obtain rfl : d = c := head_eq_of_cons_eq hlower
      exact absurd (hp d (by simp)) (not_trimmable_of_alnum hF hS hd)
  have hr : r = [] := by
    by_contra hne
    have hlast : r.getLast hne ∈ a.text.getLast? := by
      rw [hlower, ← append_assoc, List.getLast?_append_of_ne_nil _ hne,
        List.getLast?_eq_some_getLast hne]
      rfl
    exact not_trimmable_of_alnum hF hS (a.last_text hlast) (hr _ (getLast_mem hne))
  rw [hp, hr, nil_append, append_nil] at hraw
  exact hraw.symm

include hU hF hS in
theorem newline_notMem (h : U.lower raw = a.text) : '\n' ∉ raw := by
  intro hmem
  have hlower : '\n' ∈ a.text := by
    rw [← h, hU.apart raw (a.sigma_notMem hU hF h)]
    refine mem_flatMap.mpr ⟨'\n', hmem, ?_⟩
    rw [hS.lower _ hS.newline]
    exact mem_singleton_self _
  rcases a.mem_text hF hlower with hclass | hat
  · rw [not_inClass hF localChars_ascii (by decide) (by decide) (by decide)] at hclass
    cases hclass
  · exact absurd hat (by decide)

end Address

/-- The last label is a capitalised word, and the one before it a target in lower case. -/
def GluedWord (raw : Str) : Prop :=
  ∃ x target word, x ≠ [] ∧ target ∈ trimTargets ∧ Capitalised word ∧
    raw = x ++ '.' :: (target ++ '.' :: word)

theorem glued_iff (hline : '\n' ∉ s) : gluedPattern.groupOf s = none ↔ ¬ GluedWord s := by
  constructor
  · rintro hnone ⟨x, target, word, hx, htarget, ⟨c, w, rfl, hc, hw, hlower⟩, rfl⟩
    refine Regex.groupOf_eq_none_iff.mp hnone ⟨_, [], (append_nil _).symm, ?_⟩
    have hchars : ∀ d ∈ x, Decidable.decide (d ≠ '\n') = true := by
      intro d hd
      refine decide_eq_true ?_
      rintro rfl
      exact hline (mem_append_left _ hd)
    refine ⟨[], _, rfl, ⟨rfl, rfl⟩, x ++ '.' :: target, '.' :: c :: w, by simp, ?_, ?_⟩
    · refine ⟨x, '.' :: target, rfl, Regex.reads_plus_char.mpr ⟨hx, hchars⟩, ['.'], target, rfl,
        ⟨'.', rfl, rfl⟩, ?_⟩
      refine (Regex.reads_any _).mpr ⟨_, mem_map_of_mem htarget, Regex.reads_lit.mpr ?_⟩
      exact List.forall₂_same.mpr fun d _ => decide_eq_true rfl
    · exact ⟨['.'], c :: w, rfl, ⟨'.', rfl, rfl⟩, [c], w, rfl, ⟨c, hc, rfl⟩, w, [],
        (append_nil w).symm, Regex.reads_plus_char.mpr ⟨hw, hlower⟩, rfl, rfl⟩
  · intro hno
    cases hg : gluedPattern.groupOf s with
    | none => rfl
    | some g =>
      obtain ⟨x, target, word, line, hx, htarget, rfl, hword, hend, rfl⟩ := glued_cases hg
      rcases hend with rfl | rfl
      · exact absurd ⟨x, target, word, hx, htarget, hword, by simp⟩ hno
      · exact absurd (by simp) hline

include hU hF hS in
theorem accept_ne_of_glued {a : Address U} (h : U.lower raw = a.text)
    (hglued : gluedPattern.groupOf raw ≠ none) :
    accept U (emailPatterns U isAlpha extract) raw ≠ some (U.lower raw) := by
  intro haccept
  have hcore := a.core_of_lower hU hF hS h
  obtain ⟨g, hg⟩ := Option.ne_none_iff_exists'.mp hglued
  have hg' : (emailPatterns U isAlpha extract).gluedSentence (core U raw) = some g := by
    rw [hcore]
    exact hg
  obtain ⟨b, hb, hfix⟩ := accept_cases hF haccept
  rw [unglueSentence_eq, hg', Option.getD_some, clean_eq] at hb
  obtain ⟨p, word, r, hlower, -⟩ := glued_of_sentence hU hF hS hg' hb hfix
  have hlen := congrArg List.length hlower
  simp only [length_append, length_cons] at hlen
  omega

include hU hF hS in
theorem accept_of_not_glued {a : Address U} (h : U.lower raw = a.text) (ha : a.Sound extract)
    (hglued : gluedPattern.groupOf raw = none) :
    accept U (emailPatterns U isAlpha extract) raw = some (U.lower raw) := by
  have hcore := a.core_of_lower hU hF hS h
  have hclean : clean U raw = a.text := by
    rw [clean_eq, hcore, h]
  have htwice : clean U (clean U raw) = clean U raw := by
    rw [hclean, clean_eq, a.core_text hF hS]
    exact hU.lawful.eq_self _ ha.lower
  rw [← accept_clean hU (by rwa [hcore]) htwice, hclean, h]
  exact accept_text hU hF hS ha

include hU hF hS in
theorem clean_of_checked (hs : ∀ c ∈ s, LowerChar U c)
    (h : checked U (emailPatterns U isAlpha extract) s = some e) : clean U s = s := by
  obtain ⟨a, rfl, -⟩ := checked_cases hF h
  rw [clean_eq, a.core_text hF hS]
  exact hU.lawful.eq_self _ hs

theorem append_inj_of_trimmable {p p' t t' : Str} {c : Char} (hp : ∀ c ∈ p, Trimmable U c)
    (hp' : ∀ c ∈ p', Trimmable U c) (hc : ¬ Trimmable U c)
    (h : p ++ c :: t = p' ++ c :: t') : p = p' ∧ t = t' := by
  refine Str.append_cons_inj (fun hmem => hc (hp c hmem)) (fun hmem => hc (hp' c hmem)) h

include hU hF hS in
/-- Where a sentence is taken off, the whole text is not accepted as what is left: with the
sentence it has one label more. -/
theorem checked_ne_of_glued {g : Str} (hg : gluedPattern.groupOf (core U raw) = some g)
    (hleft : checked U (emailPatterns U isAlpha extract) (clean U g) = some e)
    (hwhole : checked U (emailPatterns U isAlpha extract) (clean U (clean U raw)) = some e) :
    False := by
  obtain ⟨x, target, word, line, -, htarget, hgx, hword, hline, hcore⟩ := glued_cases hg
  obtain ⟨p, hg', hp⟩ := exists_core_of_target hF hS htarget hgx
  obtain ⟨a, ha, hfix⟩ := checked_cases hF hleft
  obtain ⟨b, hb, hfix'⟩ := checked_cases hF hwhole
  -- what is left is accepted as it is, its last label being a common one
  rw [clean_eq] at ha
  have hlabel := tld_eq_target hU hF hS ha htarget hgx hg' hp
  obtain rfl : e = a.text := by
    rcases fixTld_text hF hU.lawful (a.kept_of_lower hU ha) hfix with
      ⟨he, -⟩ | ⟨target', ht', tail, htld, hlen, -⟩
    · exact he
    · exact (not_target_append ht' htarget (hlabel ▸ htld) hlen).elim
  -- the whole is that text with letters behind it, none of them a dot
  obtain ⟨tail, hwide, hdot⟩ : ∃ tail, b.text = a.text ++ tail ∧ '.' ∉ tail := by
    rcases fixTld_text hF hU.lawful (b.kept_of_lower hU hb) hfix' with
      ⟨he, -⟩ | ⟨target', ht', tail, htld, -, -, he, -⟩
    · exact ⟨[], by rw [he, append_nil], not_mem_nil⟩
    · refine ⟨tail, ?_, fun hmem => b.dot_notMem_tld hF (by rw [htld]; simp [hmem])⟩
      rw [he]
      simp [Address.text, Address.domain, Address.withTld, htld]
  have hline : ∀ c ∈ line, Trimmable U c := by
    rcases hline with rfl | rfl
    · simp
    · simpa using .inl hS.newline
  have hsentence := lower_sentence hU hword (a.sigma_notMem hU hF ha)
  have hclean : clean U raw = p ++ ((a.text ++ '.' :: U.lower word) ++ line) := by
    have hplace : core U raw = p ++ ((core U g ++ '.' :: word) ++ line) := by
      conv_lhs => rw [hcore, hg']
      simp
    rw [clean_eq, hplace, lower_around hU hS hp hline hsentence.1, hsentence.2, ha]
  obtain ⟨q, r, hraw, hq, hr⟩ := exists_core U (clean U raw)
  have hagain : clean U raw = q ++ (b.text ++ r) := by
    have hlower : U.lower (core U (clean U raw)) = b.text := hb
    rw [← hlower, ← lower_around hU hS hq hr (b.sigma_notMem hU hF hlower), ← hraw]
    exact (hU.lawful.eq_self _ (hU.lawful.keeps _)).symm
  obtain ⟨c, t, htext, hc⟩ := a.head_text
  rw [hclean, hwide, htext] at hagain
  simp only [append_assoc, cons_append] at hagain
  have htail := append_cancel_left
    (append_inj_of_trimmable hp hq (not_trimmable_of_alnum hF hS hc) hagain).2
  cases tail with
  | cons d tail => exact hdot (by rw [← (List.cons.inj htail).1]; exact mem_cons_self)
  | nil =>
    have hsigma : 'Σ' ∉ word := fun h => absurd (hword.chars 'Σ' h) (by decide)
    obtain ⟨d, w, rfl, hd, -⟩ := hword
    have hval : d.val < 128 := UInt32.lt_of_le_of_lt (Url.isUpper_iff.mp hd).2 (by decide)
    have hletter : d.toLower ∈ U.lower (d :: w) := by
      rw [hU.apart _ hsigma]
      refine mem_flatMap.mpr ⟨d, mem_cons_self, ?_⟩
      rw [hU.lawful.ascii d hval]
      exact mem_cons_self
    refine not_trimmable hS (c := d.toLower) (.inl ?_) (hr _ ?_)
    · exact Bool.or_eq_true_iff.mpr (.inl (Url.isAlpha_iff.mpr (.inr (Url.isLower_toLower hd))))
    · rw [nil_append] at htail
      rw [← htail]
      exact mem_cons_of_mem _ (mem_append_left _ hletter)

end Laws

/-! ## Addresses under a public suffix -/

def Numeric (U : Unicode) (label : Str) : Prop := label ≠ [] ∧ label.all U.isDigit = true

theorem versionLike_eq_false {domain : Str}
    (h : ∀ label ∈ domain.splitOn '.', ¬ Numeric U label) : versionLike U domain = false := by
  refine Bool.and_eq_false_imp.mpr fun _ => ?_
  rw [← Bool.not_eq_true]
  intro hany
  obtain ⟨label, hlabel, hdigits⟩ := any_eq_true.mp hany
  obtain ⟨hne, hall⟩ := Bool.and_eq_true_iff.mp hdigits
  exact h label ((dropLast_sublist _).subset hlabel) ⟨by simpa using hne, hall⟩

/-- What is assumed of `tldextract`: a domain with something before one of the public
suffixes has a suffix. -/
def Knows (known : Str → Prop) (extract : Str → ExtractResult) : Prop :=
  ∀ before suffix, before ≠ [] → known suffix →
    (extract (before ++ '.' :: suffix)).suffix ≠ []

theorem knows_suffixOf {known : List Str} (h : [] ∉ known) :
    Knows (· ∈ known) (suffixOf known) := by
  intro before suffix _ hsuffix
  have hends : Str.endsWith (before ++ '.' :: suffix) ('.' :: suffix) = true :=
    isSuffixOf_iff_suffix.mpr ⟨before, rfl⟩
  cases hfind : known.find? fun suffix' =>
      Str.endsWith (before ++ '.' :: suffix) ('.' :: suffix') with
  | none => exact absurd hends (List.find?_eq_none.mp hfind suffix hsuffix)
  | some found =>
    rw [suffixOf, hfind, Option.getD_some]
    rintro rfl
    exact h (mem_of_find?_eq_some hfind)

/-- An address under a public suffix is accepted as a whole, in any letter case, exactly if
its last label is no capitalised word behind a common top-level domain. -/
theorem country_address_kept_iff (hU : U.LowersText) (hF : U.FoldsCase) (hS : U.PlainSpaces)
    {known : Str → Prop} (hknown : Knows known extract)
    (hraw : (emailFullPattern U).fullMatches (U.lower raw) = true) {before suffix : Str}
    (hdomain : Str.afterLast '@' (U.lower raw) = before ++ '.' :: suffix) (hbefore : before ≠ [])
    (hsuffix : known suffix)
    (hasset : (assetPattern U).found (Str.afterLast '@' (U.lower raw)) = false)
    (hnumeric : ∀ label ∈ (Str.afterLast '@' (U.lower raw)).splitOn '.', ¬ Numeric U label) :
    accept U (emailPatterns U isAlpha extract) raw = some (U.lower raw) ↔ ¬ GluedWord raw := by
  obtain ⟨a, ha⟩ := (emailFull_iff hF).mp hraw
  have hafter : Str.afterLast '@' (U.lower raw) = a.domain := by
    rw [ha, a.afterLast_text hF]
  rw [← glued_iff (a.newline_notMem hU hF hS ha)]
  constructor
  · intro haccept
    by_contra hglued
    exact accept_ne_of_glued hU hF hS ha hglued haccept
  · refine accept_of_not_glued hU hF hS ha ⟨?_, ?_, ?_, ?_⟩
    · rw [← ha]
      exact hU.lawful.keeps raw
    · rwa [← hafter]
    · rw [← hafter]
      exact versionLike_eq_false hnumeric
    · rw [← hafter, hdomain]
      exact hknown before suffix hbefore hsuffix

def countrySuffixes : List Str := ["com", "co", "com.au", "co.uk"].map String.toList

theorem british_address_kept :
    accept .dotted (emailPatterns .dotted Char.isAlpha (suffixOf countrySuffixes))
      "Bob@Acme.CO.Uk".toList = some "bob@acme.co.uk".toList := by
  have hglued : ¬ GluedWord "Bob@Acme.CO.Uk".toList :=
    (glued_iff (by decide)).mp (by decide +kernel)
  have hdomain : Str.afterLast '@' (Unicode.dotted.lower "Bob@Acme.CO.Uk".toList) =
      "acme".toList ++ '.' :: "co.uk".toList := by
    decide
  have hnumeric : (("acme".toList ++ '.' :: "co.uk".toList).splitOn '.').all
      (fun label => !label.all Unicode.dotted.isDigit) = true := by
    decide
  refine (country_address_kept_iff Unicode.lowersText_dotted Unicode.foldsCase_dotted
    Unicode.plainSpaces_dotted (knows_suffixOf (by decide)) (by decide +kernel) hdomain
    (by decide) (by decide) (by decide +kernel) fun label hlabel hdigits => ?_).mpr hglued
  rw [hdomain] at hlabel
  simpa [hdigits.2] using all_eq_true.mp hnumeric label hlabel

/-- A capitalised country label is taken for a sentence, and the address is cut to another
one. -/
theorem capitalised_country_is_cut :
    let raw := "info@acme.com.Au".toList
    let domain := "acme".toList ++ '.' :: "com.au".toList
    Knows (· ∈ countrySuffixes) (suffixOf countrySuffixes) ∧ "com.au".toList ∈ countrySuffixes ∧
    (emailFullPattern .dotted).fullMatches (Unicode.dotted.lower raw) = true ∧
    Str.afterLast '@' (Unicode.dotted.lower raw) = domain ∧
    (assetPattern .dotted).found domain = false ∧
    (domain.splitOn '.').all (fun label => !label.all Unicode.dotted.isDigit) = true ∧
    accept .dotted (emailPatterns .dotted Char.isAlpha (suffixOf countrySuffixes)) raw =
      some "info@acme.com".toList := by
  exact ⟨knows_suffixOf (by decide), by decide, by decide +kernel, by decide, by decide +kernel,
    by decide, by decide +kernel⟩

/-! ## The candidates of a page -/

def regexEmails (U : Unicode) (text : Str) : List Str :=
  ((emailPattern U).findAll text).map (clean U)

/-- The tools of a page with `EMAIL`, `regex_emails` and `_accept` in place. -/
def emailTools (T : PageTools) (U : Unicode) (isAlpha : Char → Bool)
    (extract : Str → ExtractResult) : PageTools :=
  { T with
    unicode := U
    findEmails := (emailPattern U).findAll
    regexEmails := regexEmails U
    accept := accept U (emailPatterns U isAlpha extract) }

section Page

variable (T : PageTools) (cfEmails : List Str) (url : Str)

/-- What `extract_page` has found after the given sources. -/
def collect (sources : List (Str × ExtractionMethod)) : Found :=
  sources.foldl (fun f source => addFound T cfEmails url f source.1 source.2) {}

def pageCandidates (text : Str) (found : Found) : List EmailCandidate :=
  ((found.candidates.map Prod.snd).mergeSort fun a b => a.order ≤ b.order).map
    fun c => { c with context := T.contextFor text c.email }

theorem extractPage_fst {html : Str} (hne : html ≠ []) :
    (extractPage T html url).1 =
      let normalised := T.normalizeHtml (T.decodeHtml html).1
      let text := T.visibleText normalised
      pageCandidates T text
        (collect T (T.decodeHtml html).2 url (pageSources T normalised text)) := by
  unfold extractPage
  rw [if_neg hne]
  rfl

/-- The inline scripts, the last source that is read. -/
def inlineSources (normalised : Str) : List (Str × ExtractionMethod) :=
  ((T.scriptBodies normalised).flatMap T.findEmails).map (·, .script)

/-- The sources that are read before the inline scripts. -/
def earlierSources (normalised text : Str) : List (Str × ExtractionMethod) :=
  pageSources { T with scriptBodies := fun _ => [] } normalised text

theorem pageSources_eq (normalised text : Str) :
    pageSources T normalised text =
      earlierSources T normalised text ++ inlineSources T normalised := by
  unfold earlierSources pageSources
  exact congrArg (· ++ inlineSources T normalised) (append_nil _).symm

inductive Adds (f : Found) (raw : Str) (method : ExtractionMethod) : Found → Prop
  | refused (h : ∀ e, T.accept raw = some e → e = []) : Adds f raw method f
  | first {e : Str} {c : EmailCandidate} (haccept : T.accept raw = some e) (hne : e ≠ [])
      (hget : Dict.get? e f.candidates = none)
      (hc : c.method = effectiveMethod cfEmails e method) :
      Adds f raw method ⟨Dict.set e c f.candidates, f.counter + 1⟩
  | better {e : Str} {old c : EmailCandidate} (haccept : T.accept raw = some e) (hne : e ≠ [])
      (hget : Dict.get? e f.candidates = some old)
      (hlt : (effectiveMethod cfEmails e method).precedence < old.method.precedence)
      (hc : c.method = effectiveMethod cfEmails e method) :
      Adds f raw method ⟨Dict.set e c f.candidates, f.counter⟩
  | again {e : Str} {old : EmailCandidate} (haccept : T.accept raw = some e) (hne : e ≠ [])
      (hget : Dict.get? e f.candidates = some old)
      (hle : old.method.precedence ≤ (effectiveMethod cfEmails e method).precedence) :
      Adds f raw method f

theorem addFound_adds (f : Found) (raw : Str) (method : ExtractionMethod) :
    Adds T cfEmails f raw method (addFound T cfEmails url f raw method) := by
  unfold addFound
  split
  · rename_i hnone
    refine .refused fun e he => ?_
    simpa [he] using hnone
  · rename_i e he
    obtain ⟨haccept, hne⟩ := Option.filter_eq_some_iff.mp he
    have hne : e ≠ [] := of_decide_eq_true hne
    dsimp only
    split
    · rename_i hget
      exact .first haccept hne hget rfl
    · rename_i old hget
      split
      · rename_i hlt
        exact .better haccept hne hget hlt rfl
      · rename_i hle
        exact .again haccept hne hget (Nat.le_of_not_lt hle)

/-- The address of `raw` has been found, by a method that is no worse. -/
def Covered (f : Found) (raw : Str) (method : ExtractionMethod) : Prop :=
  ∀ e, T.accept raw = some e → e ≠ [] → ∃ c, Dict.get? e f.candidates = some c ∧
    c.method.precedence ≤ (effectiveMethod cfEmails e method).precedence

variable {T cfEmails} {f f' : Found} {raw' : Str} {method method' : ExtractionMethod}

theorem Adds.covered (h : Adds T cfEmails f raw method f') : Covered T cfEmails f' raw method := by
  intro e haccept hne
  cases h with
  | refused hnone => exact absurd (hnone e haccept) hne
  | first haccept' _ _ hc | better haccept' _ _ _ hc =>
    obtain rfl := Option.some.inj (haccept.symm.trans haccept')
    exact ⟨_, Dict.get?_set_self _ _ _, (congrArg _ hc).le⟩
  | again haccept' _ hget hle =>
    obtain rfl := Option.some.inj (haccept.symm.trans haccept')
    exact ⟨_, hget, hle⟩

theorem Covered.of_adds (hcovered : Covered T cfEmails f raw method)
    (h : Adds T cfEmails f raw' method' f') : Covered T cfEmails f' raw method := by
  intro e haccept hne
  obtain ⟨c, hget, hle⟩ := hcovered e haccept hne
  cases h with
  | refused _ => exact ⟨c, hget, hle⟩
  | @first e' _ _ _ hnone _ =>
    have hother : e ≠ e' := by
      rintro rfl
      rw [hnone] at hget
      cases hget
    exact ⟨c, (Dict.get?_set_of_ne hother _ _).trans hget, hle⟩
  | @better e' old c' _ _ hold hlt hc =>
    by_cases he : e = e'
    · subst he
      obtain rfl := Option.some.inj (hget.symm.trans hold)
      refine ⟨c', Dict.get?_set_self _ _ _, le_trans ?_ hle⟩
      rw [hc]
      exact hlt.le
    · exact ⟨c, (Dict.get?_set_of_ne he _ _).trans hget, hle⟩
  | again => exact ⟨c, hget, hle⟩

theorem Covered.eq_of_adds (hcovered : Covered T cfEmails f raw method)
    (h : Adds T cfEmails f raw method f') : f' = f := by
  cases h with
  | refused _ => rfl
  | first haccept hne hnone _ =>
    obtain ⟨c, hget, -⟩ := hcovered _ haccept hne
    rw [hnone] at hget
    cases hget
  | better haccept hne hold hlt _ =>
    obtain ⟨c, hget, hle⟩ := hcovered _ haccept hne
    obtain rfl := Option.some.inj (hget.symm.trans hold)
    exact absurd hlt (Nat.not_lt.mpr hle)
  | again => rfl

variable {sources before after : List (Str × ExtractionMethod)}

theorem collect_append (sources more : List (Str × ExtractionMethod)) :
    collect T cfEmails url (sources ++ more) =
      more.foldl (fun f source => addFound T cfEmails url f source.1 source.2)
        (collect T cfEmails url sources) := foldl_append

theorem Covered.foldl (hcovered : Covered T cfEmails f raw method)
    (sources : List (Str × ExtractionMethod)) :
    Covered T cfEmails (sources.foldl
      (fun f source => addFound T cfEmails url f source.1 source.2) f) raw method := by
  induction sources generalizing f with
  | nil => exact hcovered
  | cons source sources ih => exact ih (hcovered.of_adds (addFound_adds T cfEmails url f _ _))

theorem covered_collect (h : (raw, method) ∈ sources) :
    Covered T cfEmails (collect T cfEmails url sources) raw method := by
  obtain ⟨before, after, rfl⟩ := append_of_mem h
  rw [collect_append, foldl_cons]
  exact (addFound_adds T cfEmails url _ _ _).covered.foldl url after

/-- A source that is accepted like an earlier one may be left out. -/
theorem collect_skip (h : (raw', method) ∈ before) (haccept : T.accept raw' = T.accept raw) :
    collect T cfEmails url (before ++ (raw, method) :: after) =
      collect T cfEmails url (before ++ after) := by
  have hcovered : Covered T cfEmails (collect T cfEmails url before) raw method := by
    intro e he hne
    exact covered_collect url h e (haccept.trans he) hne
  rw [collect_append, collect_append, foldl_cons,
    hcovered.eq_of_adds (addFound_adds T cfEmails url _ _ _)]

end Page

/-! ## The two readings of a script body -/

variable (hU : U.LowersText) (hF : U.FoldsCase) (hS : U.PlainSpaces)

theorem mem_earlierSources {T : PageTools} {normalised text body m : Str}
    (hbody : body ∈ (T.jsonld normalised).2) (hm : m ∈ T.regexEmails body) :
    (m, .script) ∈ earlierSources T normalised text := by
  have hmem : (m, ExtractionMethod.script) ∈
      ((T.jsonld normalised).2.flatMap T.regexEmails).map (·, ExtractionMethod.script) :=
    mem_map_of_mem (mem_flatMap.mpr ⟨body, hbody, hm⟩)
  unfold earlierSources pageSources
  simp only [mem_append]
  exact .inl (.inl (.inl (.inr hmem)))

include hU hF hS in
theorem accept_clean_iff (raw : Str) :
    accept U (emailPatterns U isAlpha extract) (clean U raw) =
        accept U (emailPatterns U isAlpha extract) raw ↔
      Alike U (emailPatterns U isAlpha extract) raw := by
  rw [accept_clean_eq hU, accept_eq, unglueSentence_eq]
  unfold Alike
  cases hg : (emailPatterns U isAlpha extract).gluedSentence (core U raw) with
  | none =>
    simp only [Option.getD_none, true_and, Option.mem_def, reduceCtorEq, false_and,
      exists_false, or_false]
    by_cases hsame : clean U (clean U raw) = clean U raw
    · exact iff_of_true (by rw [hsame]) (.inl hsame)
    · -- what is no longer cleaned is no address
      have hnone : checked U (emailPatterns U isAlpha extract) (clean U raw) = none := by
        by_contra hsome
        obtain ⟨e, he⟩ := Option.ne_none_iff_exists'.mp hsome
        exact hsame (clean_of_checked hU hF hS (hU.lawful.keeps _) he)
      rw [hnone, or_iff_right hsame]
  | some g =>
    simp only [Option.getD_some, reduceCtorEq, false_and, false_or, Option.mem_def,
      Option.some.injEq, exists_eq_left']
    refine ⟨fun heq => ?_, fun ⟨hleft, hwhole⟩ => by rw [hleft, hwhole]⟩
    have hnone : checked U (emailPatterns U isAlpha extract) (clean U g) = none := by
      by_contra hsome
      obtain ⟨e, he⟩ := Option.ne_none_iff_exists'.mp hsome
      exact checked_ne_of_glued hU hF hS hg he (heq.trans he)
    exact ⟨hnone, heq.trans hnone⟩

/-- A page that is one script body, marked as JSON-LD and no JSON. -/
def scriptPage : PageTools where
  unicode := .dotted
  decodeHtml html := (html, [])
  normalizeHtml html := html
  visibleText _ := []
  pageTitle _ := []
  hrefs _ := []
  attributes _ := []
  mailtoAddresses _ := []
  jsonld html := ([], [html])
  regexEmails _ := []
  findEmails _ := []
  scriptBodies html := [html]
  accept _ := none
  contextFor _ _ := []

/-- The script page with the suffixes that `.com` and `.call` are. -/
def scriptTools : PageTools :=
  emailTools scriptPage .dotted Char.isAlpha (suffixOf (["com", "call"].map String.toList))

end Pipeline

end EmailExtractor
