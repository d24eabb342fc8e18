import EmailExtractor.Library.Case
import EmailExtractor.Library.RegexMatch
import EmailExtractor.Library.Trim
import EmailExtractor.Pipeline.Accept

/-!
# The patterns of an address

`EMAIL` and `EMAIL_FULL` of `app/pipeline/extract/patterns.py`, and `_GLUED_SENTENCE` and
`_ASSET_TAIL` of `emails.py`. A text that `EMAIL_FULL` matches is a name, an `@`, labels
with a dot behind each, and a top-level domain; each of these is bounded by characters that
are no punctuation, so the parts are where `fix_tld` looks for them.
-/

namespace EmailExtractor

namespace Pipeline

open List

/-! ## The patterns -/

def letters : Str := "abcdefghijklmnopqrstuvwxyz".toList

def alnums : Str := letters ++ "0123456789".toList

def localChars : Str := alnums ++ "._%+-_".toList

def labelChars : Str := alnums ++ ['-']

section Patterns

variable (U : Unicode)

open Regex

def inClass (members : Str) (c : Char) : Bool := members.any (U.sameCase · c)

/-- `[a-z0-9](?:…[a-z0-9])?`. -/
def framed (inner : Regex) : Regex :=
  seq (char (inClass U alnums)) (opt (seq inner (char (inClass U alnums))))

def namePattern : Regex := framed U (upTo (char (inClass U localChars)) 62)

def labelPattern : Regex :=
  seq (framed U (many (char (inClass U labelChars)))) (char (U.sameCase '.'))

/-- `[a-z]{2,24}`. -/
def tldPattern : Regex :=
  all [char (inClass U letters), char (inClass U letters), upTo (char (inClass U letters)) 22]

/-- What `EMAIL` and `EMAIL_FULL` have in common. -/
def addressPattern : Regex :=
  all [namePattern U, char (U.sameCase '@'), plus (labelPattern U), tldPattern U]

def emailFullPattern : Regex := all [start, addressPattern U, finish]

/-- `EMAIL`; what `findall` returns is the whole match. -/
def emailPattern : Regex :=
  all [look fun prev _ => !prev.any (inClass U (localChars ++ ['@'])),
    group (addressPattern U), look fun _ rest => !rest.head?.any (inClass U labelChars)]

def gluedPattern : Regex :=
  all [start,
    group (all [plus (char (· ≠ '\n')), char (· = '.'), any (trimTargets.map (lit (· = ·)))]),
    char (· = '.'), char Char.isUpper, plus (char Char.isLower), finish]

def assetEndings : List Regex :=
  [lit U.sameCase "png".toList,
    all [lit U.sameCase "jp".toList, opt (lit U.sameCase "e".toList), lit U.sameCase "g".toList],
    lit U.sameCase "gif".toList, lit U.sameCase "webp".toList, lit U.sameCase "svg".toList,
    lit U.sameCase "bmp".toList, lit U.sameCase "ico".toList, lit U.sameCase "css".toList,
    lit U.sameCase "js".toList, lit U.sameCase "json".toList,
    seq (lit U.sameCase "woff".toList) (opt (lit U.sameCase "2".toList)),
    lit U.sameCase "ttf".toList, lit U.sameCase "eot".toList, lit U.sameCase "mp4".toList,
    lit U.sameCase "webm".toList, lit U.sameCase "avif".toList,
    seq (lit U.sameCase "tif".toList) (opt (lit U.sameCase "f".toList))]

def assetPattern : Regex := all [char (U.sameCase '.'), any (assetEndings U), finish]

/-- The patterns as `_accept` uses them. -/
def emailPatterns (isAlpha : Char → Bool) (extract : Str → ExtractResult) : Patterns where
  emailFull := (emailFullPattern U).fullMatches
  gluedSentence := gluedPattern.groupOf
  assetTail := (assetPattern U).found
  isAlpha := isAlpha
  extract := extract

end Patterns

/-! ## What an address is -/

section Address

variable {U : Unicode}

/-- A text that begins and ends with a character of the class `edge`. -/
def Framed (edge : Char → Bool) (inner : Str → Prop) (s : Str) : Prop :=
  ∃ c t, edge c = true ∧ s = c :: t ∧
    (t = [] ∨ ∃ mid d, t = mid ++ [d] ∧ inner mid ∧ edge d = true)

theorem reads_framed (U : Unicode) (inner : Regex) {L : Str → Prop}
    (hinner : ∀ prev w after, inner.Reads prev w after ↔ L w) (prev : Option Char)
    (w after : Str) : (framed U inner).Reads prev w after ↔ Framed (inClass U alnums) L w := by
  constructor
  · rintro ⟨u, v, rfl, ⟨c, hc, rfl⟩, ⟨mid, last, rfl, hmid, d, hd, rfl⟩ | rfl⟩
    · exact ⟨c, mid ++ [d], hc, rfl, .inr ⟨mid, d, rfl, (hinner _ _ _).mp hmid, hd⟩⟩
    · exact ⟨c, [], hc, rfl, .inl rfl⟩
  · rintro ⟨c, t, hc, rfl, rfl | ⟨mid, d, rfl, hmid, hd⟩⟩
    · exact ⟨[c], [], rfl, ⟨c, hc, rfl⟩, .inr rfl⟩
    · exact ⟨[c], mid ++ [d], rfl, ⟨c, hc, rfl⟩,
        .inl ⟨mid, [d], rfl, (hinner _ _ _).mpr hmid, d, hd, rfl⟩⟩

def IsName (U : Unicode) : Str → Prop :=
  Framed (inClass U alnums) fun mid =>
    mid.length ≤ 62 ∧ ∀ c ∈ mid, inClass U localChars c = true

def IsLabel (U : Unicode) : Str → Prop :=
  Framed (inClass U alnums) fun mid => ∀ c ∈ mid, inClass U labelChars c = true

def IsTld (U : Unicode) (tld : Str) : Prop :=
  2 ≤ tld.length ∧ tld.length ≤ 24 ∧ ∀ c ∈ tld, inClass U letters c = true

structure Address (U : Unicode) where
  name : Str
  labels : List Str
  tld : Str
  isName : IsName U name
  labels_ne : labels ≠ []
  isLabel : ∀ label ∈ labels, IsLabel U label
  isTld : IsTld U tld

namespace Address

def domain (a : Address U) : Str := (a.labels.map (· ++ ['.'])).flatten ++ a.tld

def text (a : Address U) : Str := a.name ++ '@' :: a.domain

end Address

theorem reads_tldPattern (prev : Option Char) (w after : Str) :
    (tldPattern U).Reads prev w after ↔ IsTld U w :=
  Regex.reads_two_upTo 22

section

variable (hF : U.FoldsCase)

include hF

theorem sameCase_self {c : Char} (hc : c.val < 128) : U.sameCase c c = true :=
  (hF.ascii c c hc hc).mpr rfl

theorem sameCase_iff {a c : Char} (ha : a.val < 128) (halpha : ¬ a.isAlpha = true) :
    U.sameCase a c = true ↔ c = a := by
  refine ⟨hF.eq_of_not_isAlpha ha halpha, ?_⟩
  rintro rfl
  exact sameCase_self hF ha

theorem reads_labelPattern (prev : Option Char) (w after : Str) :
    (labelPattern U).Reads prev w after ↔ ∃ label, w = label ++ ['.'] ∧ IsLabel U label := by
  have hframed := reads_framed U (.many (.char (inClass U labelChars)))
    fun prev w after => Regex.reads_star_char
  constructor
  · rintro ⟨u, v, rfl, hu, c, hc, rfl⟩
    obtain rfl := (sameCase_iff hF (by decide) (by decide)).mp hc
    exact ⟨u, rfl, (hframed _ _ _).mp hu⟩
  · rintro ⟨label, rfl, hlabel⟩
    exact ⟨label, ['.'], rfl, (hframed _ _ _).mpr hlabel, '.', sameCase_self hF (by decide), rfl⟩

theorem reads_addressPattern (prev : Option Char) (w after : Str) :
    (addressPattern U).Reads prev w after ↔ ∃ a : Address U, w = a.text := by
  have hname := reads_framed U (.upTo (.char (inClass U localChars)) 62)
    fun prev w after => Regex.reads_upTo_char 62
  have hlabels : ∀ prev w after, (Regex.plus (labelPattern U)).Reads prev w after ↔
      ∃ us, us ≠ [] ∧ w = us.flatten ∧ ∀ u ∈ us, ∃ label, u = label ++ ['.'] ∧ IsLabel U label :=
    fun prev w after => Regex.reads_plus (reads_labelPattern hF) (by simp)
  constructor
  · rintro ⟨name, v, rfl, hn, s, v', rfl, ⟨at', hat, rfl⟩, ls, tld, rfl, hls, htld⟩
    obtain rfl := (sameCase_iff hF (by decide) (by decide)).mp hat
    obtain ⟨us, hne, rfl, hus⟩ := (hlabels _ _ _).mp hls
    choose! label hlabel using hus
    refine ⟨⟨name, us.map label, tld, (hname _ _ _).mp hn, ?_, ?_,
      (reads_tldPattern _ _ _).mp htld⟩, ?_⟩
    · simpa using hne
    · intro l hl
      obtain ⟨u, hu, rfl⟩ := mem_map.mp hl
      exact (hlabel u hu).2
    · have hmap : (us.map label).map (· ++ ['.']) = us := by
        rw [map_map]
        refine (map_congr_left fun u hu => ?_).trans (map_id us)
        exact (hlabel u hu).1.symm
      rw [Address.text, Address.domain, hmap]
      rfl
  · rintro ⟨a, rfl⟩
    refine ⟨a.name, '@' :: a.domain, rfl, (hname _ _ _).mpr a.isName, ['@'], a.domain, rfl,
      ⟨'@', sameCase_self hF (by decide), rfl⟩, _, a.tld, rfl, ?_,
      (reads_tldPattern _ _ _).mpr a.isTld⟩
    refine (hlabels _ _ _).mpr ⟨_, ?_, rfl, fun u hu => ?_⟩
    · simpa using a.labels_ne
    · obtain ⟨label, hlabel, rfl⟩ := mem_map.mp hu
      exact ⟨label, rfl, a.isLabel label hlabel⟩

theorem emailFull_iff {s : Str} :
    (emailFullPattern U).fullMatches s = true ↔ ∃ a : Address U, s = a.text := by
  rw [Regex.fullMatches_iff]
  constructor
  · rintro ⟨u, v, rfl, ⟨-, rfl⟩, w, e, rfl, hw, ⟨-, rfl⟩⟩
    rw [nil_append, append_nil]
    exact (reads_addressPattern hF _ _ _).mp hw
  · intro h
    exact ⟨[], s, rfl, ⟨rfl, rfl⟩, s, [], (append_nil s).symm,
      (reads_addressPattern hF _ _ _).mpr h, rfl, rfl⟩

/-! ## The characters of an address -/

theorem inClass_cases {members : Str}
    (hmembers : members.all (fun a => decide (a.val < 128)) = true) {c : Char}
    (h : inClass U members c = true) :
    (c.val < 128 ∧ ∃ a ∈ members, a.toLower = c.toLower) ∨ c ∈ Unicode.foldedLetters := by
  obtain ⟨a, ha, hsame⟩ := any_eq_true.mp h
  have hval := of_decide_eq_true (all_eq_true.mp hmembers a ha)
  by_cases hc : c.val < 128
  · exact .inl ⟨hc, a, ha, (hF.ascii a c hval hc).mp hsame⟩
  · exact .inr (hF.other a c hval hc hsame).2

theorem inClass_of_mem {members : Str} {c : Char} (hc : c.val < 128) (h : c ∈ members) :
    inClass U members c = true :=
  any_eq_true.mpr ⟨c, h, sameCase_self hF hc⟩

end

theorem inClass_mono {members more : Str} (h : members ⊆ more) {c : Char}
    (hc : inClass U members c = true) : inClass U more c = true := by
  obtain ⟨a, ha, hsame⟩ := any_eq_true.mp hc
  exact any_eq_true.mpr ⟨a, h ha, hsame⟩

theorem localChars_ascii : localChars.all (fun a => decide (a.val < 128)) = true := by decide

theorem not_inClass (hF : U.FoldsCase) {members : Str}
    (hmembers : members.all (fun a => decide (a.val < 128)) = true) {b : Char}
    (hb : b.val < 128) (halpha : ¬ b.isAlpha = true) (hnot : b ∉ members) :
    inClass U members b = false := by
  rw [← Bool.not_eq_true]
  intro h
  obtain ⟨a, ha, hsame⟩ := any_eq_true.mp h
  have hval := of_decide_eq_true (all_eq_true.mp hmembers a ha)
  have hne : a ≠ b := by
    rintro rfl
    exact hnot ha
  rw [hF.not_sameCase hval hb halpha hne] at hsame
  cases hsame

section

variable {edge : Char → Bool} {inner : Str → Prop} {s : Str} (h : Framed edge inner s)

include h

theorem Framed.forall_mem {p : Char → Prop} (hedge : ∀ c, edge c = true → p c)
    (hinner : ∀ mid, inner mid → ∀ c ∈ mid, p c) : ∀ c ∈ s, p c := by
  obtain ⟨c, t, hc, rfl, rfl | ⟨mid, d, rfl, hmid, hd⟩⟩ := h
  · simpa using hedge c hc
  · intro x hx
    rcases mem_cons.mp hx with rfl | hx
    · exact hedge _ hc
    · rcases mem_append.mp hx with hx | hx
      · exact hinner mid hmid x hx
      · rw [mem_singleton.mp hx]
        exact hedge d hd

theorem Framed.head : ∃ c t, s = c :: t ∧ edge c = true := by
  obtain ⟨c, t, hc, rfl, -⟩ := h
  exact ⟨c, t, rfl, hc⟩

end

theorem IsName.chars {s : Str} (h : IsName U s) : ∀ c ∈ s, inClass U localChars c = true :=
  h.forall_mem (fun _ => inClass_mono (by decide)) fun _ hmid => hmid.2

theorem IsLabel.chars {s : Str} (h : IsLabel U s) : ∀ c ∈ s, inClass U labelChars c = true :=
  h.forall_mem (fun _ => inClass_mono (by decide)) fun _ hmid => hmid

theorem isTld_of_mem_trimTargets (hF : U.FoldsCase) {target : Str} (h : target ∈ trimTargets) :
    IsTld U target := by
  have hall : trimTargets.all (fun t => decide (2 ≤ t.length) && (decide (t.length ≤ 24) &&
      t.all fun c => decide (c.val < 128) && letters.contains c)) = true := by
    decide
  have ht := all_eq_true.mp hall target h
  simp only [Bool.and_eq_true, decide_eq_true_eq, all_eq_true, contains_iff_mem] at ht
  exact ⟨ht.1, ht.2.1, fun c hc => inClass_of_mem hF (ht.2.2 c hc).1 (ht.2.2 c hc).2⟩

namespace Address

variable (hF : U.FoldsCase) (a : Address U)

theorem mem_domain {c : Char} (h : c ∈ a.domain) : inClass U labelChars c = true ∨ c = '.' := by
  rcases mem_append.mp h with h | h
  · obtain ⟨part, hpart, hc⟩ := mem_flatten.mp h
    obtain ⟨label, hlabel, rfl⟩ := mem_map.mp hpart
    rcases mem_append.mp hc with hc | hc
    · exact .inl ((a.isLabel label hlabel).chars c hc)
    · exact .inr (mem_singleton.mp hc)
  · exact .inl (inClass_mono (by decide) (a.isTld.2.2 c h))

include hF

theorem mem_text {c : Char} (h : c ∈ a.text) : inClass U localChars c = true ∨ c = '@' := by
  rcases mem_append.mp h with h | h
  · exact .inl (a.isName.chars c h)
  · rcases mem_cons.mp h with rfl | h
    · exact .inr rfl
    · rcases a.mem_domain h with h | rfl
      · exact .inl (inClass_mono (by decide) h)
      · exact .inl (inClass_of_mem hF (by decide) (by decide))

theorem notMem_domain {c : Char} (hval : c.val < 128) (halpha : ¬ c.isAlpha = true)
    (hclass : c ∉ labelChars) (hdot : c ≠ '.') : c ∉ a.domain := by
  intro h
  rcases a.mem_domain h with h | h
  · rw [not_inClass hF (by decide) hval halpha hclass] at h
    cases h
  · exact hdot h

theorem at_notMem_domain : '@' ∉ a.domain :=
  a.notMem_domain hF (by decide) (by decide) (by decide) (by decide)

theorem newline_notMem_domain : '\n' ∉ a.domain :=
  a.notMem_domain hF (by decide) (by decide) (by decide) (by decide)

theorem beforeLast_text : Str.beforeLast '@' a.text = a.name :=
  Str.beforeLast_append_cons (a.at_notMem_domain hF) a.name

theorem afterLast_text : Str.afterLast '@' a.text = a.domain :=
  Str.afterLast_append_cons (a.at_notMem_domain hF) a.name

theorem dot_notMem_label {label : Str} (h : label ∈ a.labels) : '.' ∉ label := by
  intro hmem
  have hclass := (a.isLabel label h).chars '.' hmem
  rw [not_inClass hF (by decide) (by decide) (by decide) (by decide)] at hclass
  cases hclass

theorem dot_notMem_tld : '.' ∉ a.tld := by
  intro hmem
  have hclass := a.isTld.2.2 '.' hmem
  rw [not_inClass hF (by decide) (by decide) (by decide) (by decide)] at hclass
  cases hclass

theorem splitOn_domain : a.domain.splitOn '.' = a.labels ++ [a.tld] := by
  have hsplit : ∀ labels : List Str, (∀ label ∈ labels, '.' ∉ label) →
      ((labels.map (· ++ ['.'])).flatten ++ a.tld).splitOn '.' = labels ++ [a.tld] := by
    intro labels hlabels
    induction labels with
    | nil => exact splitOn_eq_singleton (a.dot_notMem_tld hF)
    | cons label labels ih =>
      obtain ⟨hlabel, hlabels⟩ := forall_mem_cons.mp hlabels
      rw [map_cons, flatten_cons, append_assoc, append_assoc,
        singleton_append, splitOn_append_cons_self, splitOn_eq_singleton hlabel,
        ih hlabels]
      rfl
  exact hsplit a.labels fun label h => a.dot_notMem_label hF h

omit hF in
theorem name_ne_nil : a.name ≠ [] := by
  obtain ⟨c, t, hname, -⟩ := a.isName.head
  simp [hname]

omit hF in
theorem domain_ne_nil : a.domain ≠ [] := by
  intro h
  have htld := (append_eq_nil_iff.mp h).2
  have hlen := a.isTld.1
  rw [htld] at hlen
  exact absurd hlen (by decide)

def withTld {target : Str} (h : target ∈ trimTargets) : Address U :=
  { a with tld := target, isTld := isTld_of_mem_trimTargets hF h }

theorem trimmedTo_domain {target : Str} (h : target ∈ trimTargets) :
    trimmedTo a.domain target = (a.withTld hF h).domain := by
  have hjoin : ∀ labels : List Str, Str.join ['.'] (labels ++ [target]) =
      (labels.map (· ++ ['.'])).flatten ++ target := by
    intro labels
    induction labels with
    | nil => exact intercalate_singleton
    | cons label labels ih =>
      have hne : labels ++ [target] ≠ [] := append_ne_nil_of_right_ne_nil _ (by simp)
      obtain ⟨next, rest, hrest⟩ := exists_cons_of_ne_nil hne
      rw [cons_append, map_cons, flatten_cons, append_assoc, ← ih, hrest]
      exact intercalate_cons_cons
  rw [trimmedTo, a.splitOn_domain hF, dropLast_concat, hjoin]
  rfl

end Address

end Address

end Pipeline

end EmailExtractor
