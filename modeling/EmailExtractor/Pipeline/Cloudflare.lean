import EmailExtractor.Library.Hex
import EmailExtractor.Library.RegexLiteral
import EmailExtractor.Pipeline.Patterns
import Mathlib.Data.Finset.Insert
import Mathlib.Data.Int.Bitwise

/-!
# Addresses hidden by Cloudflare

`decode_cf` and `decode_html` of `app/pipeline/extract/cloudflare.py`. A hidden address is
written in hexadecimal digits, a key first and then every character of the address by
exclusive or with the key. Decoding inverts this, and in a page whose only carrier is one
tag the address is inserted behind that tag and nothing else is changed.
-/

namespace EmailExtractor

namespace Pipeline

namespace Cloudflare

open List

/-! ## The decoder -/

/-- `chr(n)`; no surrogate is the exclusive or of two numbers of two digits. -/
def chr (n : ℤ) : Option Char :=
  if n < 0 ∨ 0x10ffff < n then none else some (Char.ofNat n.toNat)

def slices : Str → List Str
  | [] => []
  | [a] => [[a]]
  | a :: b :: s => [a, b] :: slices s

section Decoder

/- `int16` is `int(text, 16)`, which is `none` where it raises `ValueError`. -/
variable (U : Unicode) (int16 : Str → Option ℤ)

open Regex

def decodeCf (hexstr : Str) : Option Str := do
  let key ← int16 (hexstr.take 2)
  let chars ← (slices (hexstr.drop 2)).mapM fun pair =>
    (int16 pair).bind fun n => chr (Int.xor n key)
  let out := U.strip chars
  if (emailFullPattern U).fullMatches out then some (U.lower out) else none

def hexDigits : Str := "0123456789abcdefABCDEF".toList

/-- `(?:[0-9a-fA-F]{2}){5,}`. -/
def hexBytes : Regex :=
  atLeast (seq (char (inClass U hexDigits)) (char (inClass U hexDigits))) 5

/-- `[^<>]*`. -/
def noAngles : Regex := many (char fun c => !inClass U ['<', '>'] c)

def dataCfemail : Str := "data-cfemail".toList

def emailProtection : Str := "email-protection".toList

/-- `_CARRIER` up to its group. -/
def carrierStart : Regex :=
  all [char (U.sameCase '<'), noAngles U, lit U.sameCase dataCfemail, many (char U.isSpace),
    char (U.sameCase '='), many (char U.isSpace), char (U.sameCase '"')]

/-- `_CARRIER` behind its group. -/
def carrierEnd : Regex := all [char (U.sameCase '"'), noAngles U, char (U.sameCase '>')]

def carrierPattern : Regex := seq (carrierStart U) (seq (group (hexBytes U)) (carrierEnd U))

def linkStart : Str := "/cdn-cgi/l/email-protection#".toList

def linkPattern : Regex := seq (lit U.sameCase linkStart) (group (hexBytes U))

def emailOf (g : Str) : Option Str := (decodeCf U int16 g).filter fun email => !email.isEmpty

def carrier (whole g : Str) : Str :=
  match emailOf U int16 g with
  | none => whole
  | some email => whole ++ ' ' :: (email ++ [' '])

def link (whole g : Str) : Str :=
  match emailOf U int16 g with
  | none => whole
  | some email => "mailto:".toList ++ email

def decodeHtml (html : Str) : Str × Finset Str :=
  if html = [] ∨ (¬ Str.hasSub "cfemail".toList (U.lower html) = true ∧
      ¬ Str.hasSub emailProtection (U.lower html) = true) then (html, ∅)
  else
    let out := subWith (carrierPattern U) (carrier U int16) html
    -- `found` collects what the two replacements decode
    let groups := findAll (carrierPattern U) html ++ findAll (linkPattern U) out
    (subWith (linkPattern U) (link U int16) out, (groups.filterMap (emailOf U int16)).toFinset)

end Decoder

/-! ## What is encoded -/

def enc (k : ℕ) (e : Str) : Str := Hex.two k ++ e.flatMap fun c => Hex.two (c.toNat ^^^ k)

def tag (u code v rest : Str) : Str :=
  '<' :: (u ++ ' ' :: (dataCfemail ++ '=' :: '"' :: (code ++ '"' :: (v ++ '>' :: rest))))

/-- Neither of the texts that make a carrier or a link is in `s`, in any case. -/
def Lacks (U : Unicode) (s : Str) : Prop :=
  Regex.found (Regex.lit U.sameCase dataCfemail) s = false ∧
    Regex.found (Regex.lit U.sameCase emailProtection) s = false

def Clear (s : Str) : Prop := '<' ∉ s ∧ '>' ∉ s

/-- What is assumed of the runtime: how case is ignored and changed, that a visible ASCII
character is no space, and that `int` reads digits. -/
structure Lawful (U : Unicode) (int16 : Str → Option ℤ) : Prop where
  folds : U.FoldsCase
  lowers : U.LowersWithin
  space : ∀ c : Char, 0x20 < c.val → c.val < 128 → U.isSpace c = false
  digits : ∀ s n, s ≠ [] → Hex.read 0 s = some n → int16 s = some (n : ℤ)

variable {U : Unicode} {int16 : Str → Option ℤ} {k : ℕ} {e code : Str}

/-! ## Decoding inverts encoding -/

theorem chr_toNat (c : Char) : chr (c.toNat : ℤ) = some c := by
  have hmax : c.toNat < 0x110000 := by
    rcases c.valid with h | ⟨-, h⟩
    · exact Nat.lt_trans h (by decide)
    · exact h
  rw [chr, if_neg (by omega), Int.toNat_natCast, Char.ofNat_toNat]

theorem chr_xor (c : Char) (k : ℕ) : chr (Int.xor ((c.toNat ^^^ k : ℕ) : ℤ) (k : ℤ)) = some c := by
  have hxor : Int.xor ((c.toNat ^^^ k : ℕ) : ℤ) (k : ℤ) = ((c.toNat ^^^ k ^^^ k : ℕ) : ℤ) := rfl
  rw [hxor, Nat.xor_assoc, Nat.xor_self, Nat.xor_zero, chr_toNat]

theorem xor_lt {c : Char} (hc : c.val < 128) (hk : k < 256) : c.toNat ^^^ k < 256 :=
  have hbyte : c.toNat < 2 ^ 8 := Nat.lt_trans (UInt32.lt_iff_toNat_lt.mp hc) (by decide)
  Nat.xor_lt_two_pow hbyte hk

theorem exists_two {n : ℕ} {rest s : Str} (h : s.map Char.toLower = Hex.two n ++ rest) :
    ∃ a b s', s = a :: b :: s' ∧ [a, b].map Char.toLower = Hex.two n ∧
      s'.map Char.toLower = rest := by
  obtain ⟨a, s₁, rfl, ha, h⟩ := map_eq_cons_iff.mp h
  obtain ⟨b, s', rfl, hb, hs'⟩ := map_eq_cons_iff.mp h
  exact ⟨a, b, s', rfl, congrArg₂ (fun x y => [x, y]) ha hb, hs'⟩

theorem mapM_slices (hU : Lawful U int16) (hk : k < 256) (he : ∀ c ∈ e, c.val < 128)
    (h : code.map Char.toLower = e.flatMap fun c => Hex.two (c.toNat ^^^ k)) :
    ((slices code).mapM fun pair => (int16 pair).bind fun n => chr (Int.xor n (k : ℤ))) =
      some e := by
  induction e generalizing code with
  | nil =>
    obtain rfl : code = [] := map_eq_nil_iff.mp h
    rfl
  | cons c e ih =>
    obtain ⟨hc, he⟩ := forall_mem_cons.mp he
    obtain ⟨a, b, code, rfl, hpair, hcode⟩ := exists_two h
    have hread := hU.digits [a, b] _ (cons_ne_nil _ _) (Hex.read_two (xor_lt hc hk) hpair)
    rw [slices, mapM_cons, hread, Option.bind_some, chr_xor, ih he hcode]
    rfl

theorem val_of_address (hF : U.FoldsCase) (a : Address U) {c : Char} (hc : c ∈ a.text)
    (hval : c.val < 128) : 0x20 < c.val := by
  by_contra hlow
  have halpha : ¬ c.isAlpha = true := fun h => hlow (Url.val_of_isAlpha h)
  have hvisible : ('@' :: localChars).all (fun a => decide (0x20 < a.val)) = true := by decide
  have hnot : c ∉ '@' :: localChars := fun h =>
    hlow (of_decide_eq_true (all_eq_true.mp hvisible c h))
  rw [mem_cons, not_or] at hnot
  rcases a.mem_text hF hc with h | h
  · rw [not_inClass hF localChars_ascii hval halpha hnot.2] at h
    cases h
  · exact hnot.1 h

theorem decodeCf_enc (hU : Lawful U int16) (hk : k < 256) (he : ∀ c ∈ e, c.val < 128)
    (hfull : (emailFullPattern U).fullMatches e = true)
    (hcode : code.map Char.toLower = enc k e) : decodeCf U int16 code = some (U.lower e) := by
  obtain ⟨a, b, rest, rfl, hpair, hrest⟩ := exists_two hcode
  have hkey := hU.digits [a, b] k (cons_ne_nil _ _) (Hex.read_two hk hpair)
  have hstrip : U.strip e = e := by
    obtain ⟨address, rfl⟩ := (emailFull_iff hU.folds).mp hfull
    rw [Str.strip_eq_trim, Str.trim_eq_self]
    refine Str.bare_of_forall fun c hc => ?_
    exact hU.space c (val_of_address hU.folds address hc (he c hc)) (he c hc)
  have hchars := mapM_slices hU hk he hrest
  have htake : int16 ((a :: b :: rest).take 2) = some (k : ℤ) := hkey
  have hdrop : (a :: b :: rest).drop 2 = rest := rfl
  rw [decodeCf, htake, hdrop, Option.bind_eq_bind, Option.bind_some, hchars,
    Option.bind_eq_bind, Option.bind_some, hstrip, if_pos hfull]

theorem digit_of_mem (hcode : code.map Char.toLower = enc k e) {c : Char} (hc : c ∈ code) :
    ∃ d < 16, c.toLower = Nat.digitChar d := by
  have htwo : ∀ (n : ℕ) (x : Char), x ∈ Hex.two n → ∃ d < 16, x = Nat.digitChar d := by
    intro n x hx
    rcases mem_cons.mp hx with hx | hx
    · exact ⟨_, Nat.mod_lt _ (by decide), hx⟩
    · exact ⟨_, Nat.mod_lt _ (by decide), mem_singleton.mp hx⟩
  have hmem : c.toLower ∈ enc k e := hcode ▸ mem_map_of_mem hc
  rcases mem_append.mp hmem with h | h
  · exact htwo _ _ h
  · obtain ⟨x, -, hx⟩ := mem_flatMap.mp h
    exact htwo _ _ hx

theorem notMem_code (hcode : code.map Char.toLower = enc k e) {b : Char}
    (hb : ¬ b.isAlpha = true) (hdigit : ∀ d < 16, Nat.digitChar d ≠ b) : b ∉ code := by
  intro hmem
  obtain ⟨d, hd, hlower⟩ := digit_of_mem hcode hmem
  rw [(Unicode.toLower_eq_of_not_isAlpha hb).mpr rfl] at hlower
  exact hdigit d hd hlower.symm

/-! ## What the patterns read -/

section Reads

variable {prev : Option Char} {w after : Str}

theorem reads_mark (hF : U.FoldsCase) {a : Char} (ha : a.val < 128) (halpha : ¬ a.isAlpha = true) :
    Regex.Reads (.char (U.sameCase a)) prev w after ↔ w = [a] := by
  constructor
  · rintro ⟨c, hc, rfl⟩
    rw [(sameCase_iff hF ha halpha).mp hc]
  · rintro rfl
    exact ⟨a, sameCase_self hF ha, rfl⟩

theorem reads_noAngles (hF : U.FoldsCase) :
    Regex.Reads (noAngles U) prev w after ↔ Clear w := by
  have hchar : ∀ c, (!inClass U ['<', '>'] c) = true ↔ c ≠ '<' ∧ c ≠ '>' := by
    intro c
    have hlt : U.sameCase '<' c = true ↔ c = '<' := sameCase_iff hF (by decide) (by decide)
    have hgt : U.sameCase '>' c = true ↔ c = '>' := sameCase_iff hF (by decide) (by decide)
    rw [Bool.not_eq_true', ← Bool.not_eq_true, inClass, any_cons, any_cons,
      any_nil, Bool.or_false, Bool.or_eq_true, hlt, hgt, not_or]
  rw [noAngles, Regex.many, Regex.reads_star_char]
  simp only [hchar]
  constructor
  · intro h
    exact ⟨fun hmem => (h _ hmem).1 rfl, fun hmem => (h _ hmem).2 rfl⟩
  · rintro ⟨hlt, hgt⟩ c hc
    exact ⟨fun h => hlt (h ▸ hc), fun h => hgt (h ▸ hc)⟩

theorem reads_carrierStart (hF : U.FoldsCase) :
    Regex.Reads (carrierStart U) prev w after ↔ ∃ n d s₁ s₂,
      w = '<' :: (n ++ (d ++ (s₁ ++ '=' :: (s₂ ++ ['"'])))) ∧ Clear n ∧
        List.Forall₂ (fun a c => U.sameCase a c = true) dataCfemail d ∧
        (∀ c ∈ s₁, U.isSpace c = true) ∧ ∀ c ∈ s₂, U.isSpace c = true := by
  constructor
  · rintro ⟨o, _, rfl, ho, n, _, rfl, hn, d, _, rfl, hd, s₁, _, rfl, hs₁, q, _, rfl, hq,
      s₂, m, rfl, hs₂, hm⟩
    obtain rfl := (reads_mark hF (by decide) (by decide)).mp ho
    obtain rfl := (reads_mark hF (by decide) (by decide)).mp hq
    obtain rfl := (reads_mark hF (by decide) (by decide)).mp hm
    exact ⟨n, d, s₁, s₂, rfl, (reads_noAngles hF).mp hn, Regex.reads_lit.mp hd,
      Regex.reads_star_char.mp hs₁, Regex.reads_star_char.mp hs₂⟩
  · rintro ⟨n, d, s₁, s₂, rfl, hn, hd, hs₁, hs₂⟩
    have hmark : ∀ {prev after} (a : Char), a.val < 128 → ¬ a.isAlpha = true →
        Regex.Reads (.char (U.sameCase a)) prev [a] after :=
      fun a ha halpha => (reads_mark hF ha halpha).mpr rfl
    exact ⟨['<'], _, rfl, hmark '<' (by decide) (by decide), n, _, rfl, (reads_noAngles hF).mpr hn,
      d, _, rfl, Regex.reads_lit.mpr hd, s₁, _, rfl, Regex.reads_star_char.mpr hs₁, ['='], _, rfl,
      hmark '=' (by decide) (by decide), s₂, _, rfl, Regex.reads_star_char.mpr hs₂,
      hmark '"' (by decide) (by decide)⟩

theorem reads_carrierEnd (hF : U.FoldsCase) :
    Regex.Reads (carrierEnd U) prev w after ↔ ∃ n, w = '"' :: (n ++ ['>']) ∧ Clear n := by
  constructor
  · rintro ⟨o, _, rfl, ho, n, m, rfl, hn, hm⟩
    obtain rfl := (reads_mark hF (by decide) (by decide)).mp ho
    obtain rfl := (reads_mark hF (by decide) (by decide)).mp hm
    exact ⟨n, rfl, (reads_noAngles hF).mp hn⟩
  · rintro ⟨n, rfl, hn⟩
    exact ⟨['"'], _, rfl, (reads_mark hF (by decide) (by decide)).mpr rfl, n, ['>'], rfl,
      (reads_noAngles hF).mpr hn, (reads_mark hF (by decide) (by decide)).mpr rfl⟩

theorem reads_hexBytes : Regex.Reads (hexBytes U) prev w after ↔
    ∃ us : List Str, 5 ≤ us.length ∧ w = us.flatten ∧
      ∀ u ∈ us, ∃ a b, u = [a, b] ∧ inClass U hexDigits a = true ∧
        inClass U hexDigits b = true := by
  refine Regex.reads_atLeast (fun prev u after => ?_) ?_ 5
  · constructor
    · rintro ⟨_, _, rfl, ⟨a, ha, rfl⟩, b, hb, rfl⟩
      exact ⟨a, b, rfl, ha, hb⟩
    · rintro ⟨a, b, rfl, ha, hb⟩
      exact ⟨[a], [b], rfl, ⟨a, ha, rfl⟩, b, hb, rfl⟩
  · rintro ⟨a, b, h, -⟩
    cases h

theorem quote_notMem_of_reads (hF : U.FoldsCase) (h : Regex.Reads (hexBytes U) prev w after) :
    '"' ∉ w := by
  have hquote : inClass U hexDigits '"' = false :=
    not_inClass hF (by decide) (by decide) (by decide) (by decide)
  obtain ⟨us, -, rfl, hus⟩ := reads_hexBytes.mp h
  intro hmem
  obtain ⟨u, hu, hmem⟩ := mem_flatten.mp hmem
  obtain ⟨a, b, rfl, ha, hb⟩ := hus u hu
  rcases mem_cons.mp hmem with rfl | hmem
  · exact Bool.false_ne_true (hquote.symm.trans ha)
  · rw [← mem_singleton.mp hmem] at hb
    exact Bool.false_ne_true (hquote.symm.trans hb)

theorem inClass_of_digit (hF : U.FoldsCase) {c : Char} {d : ℕ} (hd : d < 16)
    (h : c.toLower = Nat.digitChar d) : inClass U hexDigits c = true := by
  have hmem : ∀ d < 16, Nat.digitChar d ∈ hexDigits ∧ (Nat.digitChar d).val < 128 := by decide
  obtain ⟨hdigit, hval⟩ := hmem d hd
  have hc : c.val < 128 := by
    by_contra hc
    rw [Unicode.toLower_eq_self hc] at h
    exact hc (h ▸ hval)
  refine any_eq_true.mpr ⟨_, hdigit, (hF.ascii _ c hval hc).mpr ?_⟩
  rw [← h, Unicode.toLower_idem]

theorem exists_pairs (h : code.map Char.toLower = e.flatMap fun c => Hex.two (c.toNat ^^^ k)) :
    ∃ us : List Str, us.length = e.length ∧ code = us.flatten ∧ ∀ u ∈ us, u.length = 2 := by
  induction e generalizing code with
  | nil => exact ⟨[], rfl, map_eq_nil_iff.mp h, by simp⟩
  | cons c e ih =>
    obtain ⟨a, b, code, rfl, -, hcode⟩ := exists_two h
    obtain ⟨us, hlength, rfl, hus⟩ := ih hcode
    exact ⟨[a, b] :: us, congrArg (· + 1) hlength, rfl, forall_mem_cons.mpr ⟨rfl, hus⟩⟩

theorem reads_code (hF : U.FoldsCase) (hfull : (emailFullPattern U).fullMatches e = true)
    (hcode : code.map Char.toLower = enc k e) : Regex.Reads (hexBytes U) prev code after := by
  obtain ⟨a, b, rest, hab, -, hrest⟩ := exists_two hcode
  obtain ⟨us, hlength, hflatten, hus⟩ := exists_pairs hrest
  refine reads_hexBytes.mpr ⟨[a, b] :: us, ?_, by rw [hab, hflatten]; rfl, fun u hu => ?_⟩
  · obtain ⟨address, rfl⟩ := (emailFull_iff hF).mp hfull
    have hname := length_pos_iff.mpr address.name_ne_nil
    have htld := address.isTld.1
    rw [length_cons, hlength, Address.text, Address.domain, length_append,
      length_cons, length_append]
    omega
  · have htwo : u.length = 2 := by
      rcases mem_cons.mp hu with rfl | hu
      · rfl
      · exact hus u hu
    obtain ⟨x, y, rfl⟩ := length_eq_two.mp htwo
    have hclass : ∀ c ∈ [x, y], inClass U hexDigits c = true := by
      intro c hc
      have hmem : c ∈ code := by
        rw [hab, hflatten]
        exact mem_flatten.mpr ⟨[x, y], hu, hc⟩
      obtain ⟨d, hd, hlower⟩ := digit_of_mem hcode hmem
      exact inClass_of_digit hF hd hlower
    exact ⟨x, y, rfl, hclass x mem_cons_self, hclass y (by simp)⟩

end Reads

/-! ## The page -/

/-- A page with one tag that carries a code: no other part of it has a text that makes a
carrier or a link, and no angle bracket is in the tag. -/
structure OneCarrier (U : Unicode) (A u v B : Str) : Prop where
  front : Lacks U A
  left : Lacks U u
  right : Lacks U v
  back : Lacks U B
  clear_left : Clear u
  clear_right : Clear v

theorem Clear.space {u : Str} (h : Clear u) : Clear (u ++ [' ']) := by
  refine ⟨fun hmem => ?_, fun hmem => ?_⟩
  · exact (mem_append.mp hmem).elim h.1 (by decide)
  · exact (mem_append.mp hmem).elim h.2 (by decide)

theorem tag_append (u code v rest : Str) : tag u code v rest = tag u code v [] ++ rest := by
  simp [tag]

theorem tag_ne_nil (u code v rest : Str) : tag u code v rest ≠ [] := cons_ne_nil _ _

variable {A u v B : Str}

/-- The marks that cut a tag. -/
def cuts : Str := "< =\">".toList

section

variable (hF : U.FoldsCase)

include hF

theorem not_sameCase_of_cut {p : Str} (hascii : p.all (fun a => decide (a.val < 128)) = true)
    (hp : cuts.all (fun c => !p.contains c) = true) {c : Char} (hc : c ∈ cuts) :
    ∀ a ∈ p, U.sameCase a c = false := by
  have hmarks : cuts.all (fun c => decide (c.val < 128) && !c.isAlpha) = true := by decide
  obtain ⟨hval, halpha⟩ := Bool.and_eq_true_iff.mp (all_eq_true.mp hmarks c hc)
  have hnot : c ∉ p := by
    intro hmem
    have hcontains := all_eq_true.mp hp c hc
    rw [contains_iff_mem.mpr hmem] at hcontains
    cases hcontains
  intro a ha
  have hclass := not_inClass hF hascii (of_decide_eq_true hval)
    (Bool.eq_false_iff.mp (Bool.not_eq_true' _ ▸ halpha)) hnot
  exact Bool.eq_false_iff.mpr (any_eq_false.mp hclass a ha)

theorem dataCfemail_cut {c : Char} (hc : c ∈ cuts) : ∀ a ∈ dataCfemail, U.sameCase a c = false :=
  not_sameCase_of_cut hF (by decide) (by decide) hc

theorem linkStart_cut {c : Char} (hc : c ∈ cuts) : ∀ a ∈ linkStart, U.sameCase a c = false :=
  not_sameCase_of_cut hF (by decide) (by decide) hc

theorem not_found_of_notMem {p s : Str} {b : Char} (hb : b ∈ p) (hval : b.val < 128)
    (halpha : ¬ b.isAlpha = true) (hs : b ∉ s) : Regex.found (.lit U.sameCase p) s = false := by
  refine Regex.not_found_of_forall hb fun c hc => ?_
  rw [← Bool.not_eq_true, sameCase_iff hF hval halpha]
  rintro rfl
  exact hs hc

theorem not_found_behind (hpage : OneCarrier U A u v B) (hcode : code.map Char.toLower = enc k e) :
    Regex.found (.lit U.sameCase dataCfemail) ('"' :: (code ++ '"' :: (v ++ '>' :: B))) =
      false := by
  have hempty : Regex.found (.lit U.sameCase dataCfemail) [] = false :=
    Regex.not_found_of_length (by decide)
  have hdigits : Regex.found (.lit U.sameCase dataCfemail) code = false :=
    not_found_of_notMem hF (by decide : '-' ∈ dataCfemail) (by decide) (by decide)
      (notMem_code hcode (by decide) (by decide))
  refine Regex.not_found_append_cons (s := []) (dataCfemail_cut hF (by decide)) hempty ?_
  refine Regex.not_found_append_cons (dataCfemail_cut hF (by decide)) hdigits ?_
  exact Regex.not_found_append_cons (dataCfemail_cut hF (by decide)) hpage.right.1 hpage.back.1

end

section

variable (hU : Lawful U int16)

include hU

theorem value_place {s₁ s₂ g n after : Str} (hs₁ : ∀ c ∈ s₁, U.isSpace c = true)
    (hs₂ : ∀ c ∈ s₂, U.isSpace c = true) (hg : '"' ∉ g) (hcode : '"' ∉ code) (hn : '>' ∉ n)
    (hv : '>' ∉ v)
    (h : s₁ ++ '=' :: (s₂ ++ '"' :: (g ++ '"' :: (n ++ '>' :: after))) =
      '=' :: '"' :: (code ++ '"' :: (v ++ '>' :: B))) : g = code ∧ after = B := by
  have hfirst : ∀ {s t t' : Str} (c : Char), (∀ x ∈ s, U.isSpace x = true) → 0x20 < c.val →
      c.val < 128 → s ++ c :: t = c :: t' → t = t' := by
    intro s t t' c hs hlow hhigh heq
    have hnot : c ∉ s := by
      intro hmem
      have hvisible := hU.space c hlow hhigh
      rw [hs c hmem] at hvisible
      cases hvisible
    exact (Str.append_cons_inj hnot not_mem_nil heq).2
  have hvalue := hfirst '=' hs₁ (by decide) (by decide) h
  have hinner := hfirst '"' hs₂ (by decide) (by decide) hvalue
  obtain ⟨hsame, hclose⟩ := Str.append_cons_inj hg hcode hinner
  exact ⟨hsame, (Str.append_cons_inj hn hv hclose).2⟩

variable (hfull : (emailFullPattern U).fullMatches e = true)
  (hcode : code.map Char.toLower = enc k e)

include hcode

include hfull in
theorem emailOf_enc (hk : k < 256) (he : ∀ c ∈ e, c.val < 128) :
    emailOf U int16 code = some (U.lower e) := by
  have hne : U.lower e ≠ [] := by
    obtain ⟨address, rfl⟩ := (emailFull_iff hU.folds).mp hfull
    rw [hU.lowers.ascii he]
    simp [Address.text]
  rw [emailOf, decodeCf_enc hU hk he hfull hcode]
  simp [hne]

variable (hpage : OneCarrier U A u v B)

include hpage

theorem carrier_place {before n d s₁ s₂ g n' after : Str} (hn : Clear n)
    (hd : List.Forall₂ (fun a c => U.sameCase a c = true) dataCfemail d)
    (hs₁ : ∀ c ∈ s₁, U.isSpace c = true) (hs₂ : ∀ c ∈ s₂, U.isSpace c = true) (hg : '"' ∉ g)
    (hn' : Clear n')
    (heq : A ++ tag u code v B = before ++ '<' :: (n ++ (d ++ (s₁ ++ '=' :: (s₂ ++
      '"' :: (g ++ '"' :: (n' ++ '>' :: after))))))) : before = A ∧ g = code ∧ after = B := by
  have hF := hU.folds
  have hplace : A ++ tag u code v B = (before ++ '<' :: n) ++ (d ++ (s₁ ++ '=' :: (s₂ ++
      '"' :: (g ++ '"' :: (n' ++ '>' :: after))))) := by
    rw [heq, append_assoc]
    rfl
  -- the attribute's name is found in its own place only
  obtain ⟨x₁, hx₁, hinner⟩ :=
    Regex.lit_behind (dataCfemail_cut hF (by decide : '<' ∈ cuts)) hd hpage.front.1 hplace
  obtain ⟨x₂, rfl, hrest⟩ :=
    Regex.lit_behind (dataCfemail_cut hF (by decide : ' ' ∈ cuts)) hd hpage.left.1 hinner
  obtain ⟨y, hy, hname⟩ :=
    Regex.lit_before (dataCfemail_cut hF (by decide : '=' ∈ cuts)) hd
      (not_found_behind hF hpage hcode) hrest
  have hlength := congrArg List.length hname
  rw [length_append, length_append, ← hd.length_eq] at hlength
  obtain rfl : x₂ = [] := length_eq_zero_iff.mp (by omega)
  obtain rfl : y = [] := length_eq_zero_iff.mp (by omega)
  -- what is before it ends with the same tag
  have hbefore : before = A := by
    have hlast := congrArg (Str.beforeLast '<') hx₁
    rwa [Str.beforeLast_append_cons hn.1,
      Str.beforeLast_append_cons hpage.clear_left.space.1] at hlast
  obtain ⟨hcaptured, hafter⟩ := value_place hU hs₁ hs₂ hg
    (notMem_code hcode (by decide) (by decide)) hn'.2 hpage.clear_right.2 hy
  exact ⟨hbefore, hcaptured, hafter⟩

include hfull in
theorem carrier_found :
    ∃ last, Regex.search (carrierPattern U) none (A ++ tag u code v B) =
        some ⟨A, code, last, B⟩ ∧ Regex.search (carrierPattern U) last B = none := by
  have hF := hU.folds
  have hself : List.Forall₂ (fun a c => U.sameCase a c = true) dataCfemail dataCfemail := by
    have hascii : dataCfemail.all (fun a => decide (a.val < 128)) = true := by decide
    refine List.forall₂_same.mpr fun a ha => ?_
    exact sameCase_self hF (of_decide_eq_true (all_eq_true.mp hascii a ha))
  have htag : Regex.Reads (carrierPattern U) (Regex.lastOr none A) (tag u code v []) B := by
    refine ⟨_, _, ?_, (reads_carrierStart hF).mpr
      ⟨u ++ [' '], dataCfemail, [], [], rfl, hpage.clear_left.space, hself, by simp, by simp⟩,
      code, _, rfl, reads_code hF hfull hcode,
      (reads_carrierEnd hF).mpr ⟨v, rfl, hpage.clear_right⟩⟩
    simp [tag]
  have hsome := Regex.search_isSome_of_reads rfl htag
  rw [← tag_append] at hsome
  obtain ⟨m, hm⟩ := Option.isSome_iff_exists.mp hsome
  have hend : (carrierEnd U).groupFree = true := rfl
  obtain ⟨start, back, prev₁, prev₂, prev₃, htext, hstart, hg, hback⟩ := Regex.search_group hend hm
  obtain ⟨n, d, s₁, s₂, rfl, hn, hd, hs₁, hs₂⟩ := (reads_carrierStart hF).mp hstart
  obtain ⟨n', rfl, hn'⟩ := (reads_carrierEnd hF).mp hback
  obtain ⟨hbefore, hcaptured, hafter⟩ := carrier_place hU hcode hpage hn hd hs₁ hs₂
    (quote_notMem_of_reads hF hg) hn' (by simpa using htext)
  refine ⟨m.last, ?_, Regex.search_eq_none ?_⟩
  · rw [hm, ← hbefore, ← hcaptured, ← hafter]
  · rintro x w y rfl ⟨start, rest, rfl, hstart, -⟩
    obtain ⟨n, d, s₁, s₂, rfl, -, hd, -, -⟩ := (reads_carrierStart hF).mp hstart
    have hfound := Regex.found_lit hd (x ++ '<' :: n)
      (s₁ ++ '=' :: (s₂ ++ '"' :: (rest ++ y)))
    have hback := hpage.back.1
    simp only [List.append_assoc, List.cons_append, List.nil_append] at hfound hback
    rw [hfound] at hback
    cases hback

include hfull in
theorem link_not_found (he : ∀ c ∈ e, c.val < 128) :
    Regex.found (linkPattern U) (A ++ tag u code v (' ' :: (U.lower e ++ ' ' :: B))) = false := by
  have hF := hU.folds
  have hcut : ∀ {c : Char}, c ∈ cuts → ∀ a ∈ linkStart, U.sameCase a c = false :=
    fun hc => linkStart_cut hF hc
  have hlacks : ∀ {s : Str}, Lacks U s → Regex.found (.lit U.sameCase linkStart) s = false :=
    fun hs => Regex.not_found_of_infix (by decide) hs.2
  have hslash : ∀ {s : Str}, '/' ∉ s → Regex.found (.lit U.sameCase linkStart) s = false :=
    fun hs => not_found_of_notMem hF (by decide) (by decide) (by decide) hs
  have hdigits := hslash (notMem_code hcode (by decide) (by decide))
  have haddress : '/' ∉ U.lower e := by
    rw [hU.lowers.ascii he]
    intro hmem
    obtain ⟨c, hc, hlower⟩ := List.mem_map.mp hmem
    rw [(Unicode.toLower_eq_of_not_isAlpha (by decide)).mp hlower] at hc
    obtain ⟨address, rfl⟩ := (emailFull_iff hF).mp hfull
    rcases address.mem_text hF hc with h | h
    · rw [not_inClass hF localChars_ascii (by decide) (by decide) (by decide)] at h
      cases h
    · exact absurd h (by decide)
  refine Regex.not_found_seq ?_ _
  refine Regex.not_found_append_cons (hcut (by decide)) (hlacks hpage.front) ?_
  refine Regex.not_found_append_cons (hcut (by decide)) (hlacks hpage.left) ?_
  refine Regex.not_found_append_cons (hcut (by decide)) (hslash (by decide)) ?_
  refine Regex.not_found_append_cons (s := []) (hcut (by decide)) (hslash (by decide)) ?_
  refine Regex.not_found_append_cons (hcut (by decide)) hdigits ?_
  refine Regex.not_found_append_cons (hcut (by decide)) (hlacks hpage.right) ?_
  refine Regex.not_found_append_cons (s := []) (hcut (by decide)) (hslash (by decide)) ?_
  exact Regex.not_found_append_cons (hcut (by decide)) (hslash haddress) (hlacks hpage.back)

end

theorem hasSub_cfemail (hlower : U.LowersWithin) (A u code v B : Str) :
    Str.hasSub "cfemail".toList (U.lower (A ++ tag u code v B)) = true := by
  have hsplit : A ++ tag u code v B = (A ++ '<' :: (u ++ ' ' :: "data-".toList)) ++
      ("cfemail".toList ++ '=' :: '"' :: (code ++ '"' :: (v ++ '>' :: B))) := by
    have hname : dataCfemail = "data-".toList ++ "cfemail".toList := by decide
    rw [tag, hname]
    simp only [List.append_assoc, List.cons_append]
  obtain ⟨before, after, hlowered, -⟩ := hlower (A ++ '<' :: (u ++ ' ' :: "data-".toList))
    "cfemail".toList ('=' :: '"' :: (code ++ '"' :: (v ++ '>' :: B)))
    (Str.val_lt_of_isAscii (by decide))
  rw [Str.hasSub_iff, hsplit, hlowered]
  exact ⟨before, after, by rw [List.append_assoc]; rfl⟩

/-- Decoding inverts encoding: a code gives its address in lower case, and a page with one
tag that carries the code gets the address behind the tag, and nothing else. -/
theorem decode_inverts_enc (hU : Lawful U int16) (e : Str) (he : ∀ c ∈ e, c.val < 128)
    (hfull : (emailFullPattern U).fullMatches e = true) (k : ℕ) (hk : k < 256) (code : Str)
    (hcode : code.map Char.toLower = enc k e) :
    decodeCf U int16 code = some (U.lower e) ∧
      ∀ A u v B, OneCarrier U A u v B → decodeHtml U int16 (A ++ tag u code v B) =
        (A ++ tag u code v (' ' :: (U.lower e ++ ' ' :: B)), {U.lower e}) := by
  refine ⟨decodeCf_enc hU hk he hfull hcode, fun A u v B hpage => ?_⟩
  obtain ⟨last, hsearch, hrest⟩ := carrier_found hU hfull hcode hpage
  have hemail := emailOf_enc hU hfull hcode hk he
  have htext : A ++ tag u code v B = A ++ (tag u code v [] ++ B) := by rw [← tag_append]
  obtain ⟨hgroups, hout⟩ := Regex.single_match hsearch htext (tag_ne_nil _ _ _ _) hrest
    (carrier U int16)
  have hinserted : Regex.subWith (carrierPattern U) (carrier U int16) (A ++ tag u code v B) =
      A ++ tag u code v (' ' :: (U.lower e ++ ' ' :: B)) := by
    rw [hout, carrier, hemail, tag_append u code v (' ' :: _)]
    simp
  have hlink := link_not_found hU hfull hcode hpage he
  have hkept : ¬ (A ++ tag u code v B = [] ∨
      (¬ Str.hasSub "cfemail".toList (U.lower (A ++ tag u code v B)) = true ∧
        ¬ Str.hasSub emailProtection (U.lower (A ++ tag u code v B)) = true)) := by
    rintro (hnil | ⟨hnot, -⟩)
    · exact tag_ne_nil _ _ _ _ (List.append_eq_nil_iff.mp hnil).2
    · exact hnot (hasSub_cfemail hU.lowers A u code v B)
  rw [decodeHtml, if_neg hkept]
  dsimp only
  rw [hinserted, hgroups, Regex.findAll_of_not_found hlink, Regex.subWith_of_not_found hlink]
  simp [hemail]

section Example

def readHex (s : Str) : Option ℤ := if s = [] then none else (Hex.read 0 s).map Int.ofNat

theorem lawful_ascii : Lawful .ascii readHex where
  folds := Unicode.foldsCase_ascii
  lowers := Unicode.lowersWithin_ascii
  space := fun _ hlow _ => Unicode.not_isSpace_of_lt hlow
  digits := by
    intro s n hne hread
    rw [readHex, if_neg hne, hread]
    rfl

theorem bob_decoded : "A5e7caC7e5c4c6C8c08bC6cac8".toList.map Char.toLower =
      enc 0xa5 "Bob@acme.com".toList ∧
    decodeCf .ascii readHex "A5e7caC7e5c4c6C8c08bC6cac8".toList = some "bob@acme.com".toList ∧
    decodeHtml .ascii readHex ("<p>".toList ++ tag "a class=\"x\"".toList
        "A5e7caC7e5c4c6C8c08bC6cac8".toList " href=\"#\"".toList "</a>".toList) =
      ("<p>".toList ++ tag "a class=\"x\"".toList "A5e7caC7e5c4c6C8c08bC6cac8".toList
        " href=\"#\"".toList (' ' :: ("bob@acme.com".toList ++ ' ' :: "</a>".toList)),
        {"bob@acme.com".toList}) := by
  have hcode : "A5e7caC7e5c4c6C8c08bC6cac8".toList.map Char.toLower =
      enc 0xa5 "Bob@acme.com".toList := by decide
  have hlower : Unicode.ascii.lower "Bob@acme.com".toList = "bob@acme.com".toList := by decide
  have hpage : OneCarrier .ascii "<p>".toList "a class=\"x\"".toList " href=\"#\"".toList
      "</a>".toList :=
    ⟨⟨by decide +kernel, by decide +kernel⟩, ⟨by decide +kernel, by decide +kernel⟩,
      ⟨by decide +kernel, by decide +kernel⟩, ⟨by decide +kernel, by decide +kernel⟩,
      ⟨by decide, by decide⟩, ⟨by decide, by decide⟩⟩
  have hdecoded := decode_inverts_enc lawful_ascii "Bob@acme.com".toList
    (Str.val_lt_of_isAscii (by decide)) (by decide +kernel) 0xa5 (by decide) _ hcode
  rw [hlower] at hdecoded
  exact ⟨hcode, hdecoded.1, hdecoded.2 _ _ _ _ hpage⟩

end Example

end Cloudflare

end Pipeline

end EmailExtractor
