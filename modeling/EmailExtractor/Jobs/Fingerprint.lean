import EmailExtractor.Jobs.Output
import EmailExtractor.Library.JsonText

/-!
# What the fingerprint of a request is made of

`_fingerprint` of `app/main.py` hashes the content of a request and then the JSON text of
its parameters, with nothing between the two. The text can be found from the end: it closes
with a bracket, and its strings with a quotation mark whose partner is the last one before
it without a backslash. What is hashed therefore determines the content and the parameters,
up to one thing: a string of Python may hold two surrogates where another one holds the
character they stand for, and JSON writes both alike.
-/

namespace EmailExtractor

namespace Jobs

open JsonText List

/-- A string of Python: any code points, surrogates among them. -/
abbrev PyStr := List (Fin 0x110000)

/-- What `json.dumps` writes as it is by default. -/
def printable (n : ℕ) : Bool := decide (0x20 ≤ n ∧ n ≤ 0x7e)

def unitsOf (s : PyStr) : List ℕ := (s.map Fin.val).flatMap units16

/-- `json.dumps` of a string or of `None`. -/
def dumpsText : Option PyStr → Str
  | none => "null".toList
  | some s => quoted printable (unitsOf s)

/-- `json.dumps([column, bool(fresh), webhook_url])`. -/
def dumpsParams (column : Option PyStr) (fresh : Bool) (webhookUrl : Option PyStr) : Str :=
  ['['] ++ dumpsText column ++ ", ".toList ++ flag fresh ++ ", ".toList ++
    dumpsText webhookUrl ++ [']']

def encodeAscii (s : Str) : List UInt8 := s.map fun c => UInt8.ofNat c.toNat

def preimage (content : List UInt8) (column : Option PyStr) (fresh : Bool)
    (webhookUrl : Option PyStr) : List UInt8 :=
  content ++ encodeAscii (dumpsParams column fresh webhookUrl)

def fingerprint (sha256 : List UInt8 → Str) (content : List UInt8) (column : Option PyStr)
    (fresh : Bool) (webhookUrl : Option PyStr) : Str :=
  sha256 (preimage content column fresh webhookUrl)

section

variable {s t : Str} {v w : Option PyStr}

/-! ## The text from its end -/

theorem writable_printable {n : ℕ} (h : n < 65536) : Writable printable n where
  valid := by
    intro hplain
    have hle := (of_decide_eq_true hplain).2
    exact .inl (by omega)
  small := fun _ => h

theorem writable_unitsOf (x : PyStr) : ∀ n ∈ unitsOf x, Writable printable n := by
  intro n hn
  obtain ⟨m, hm, hn⟩ := mem_flatMap.mp hn
  obtain ⟨c, -, rfl⟩ := mem_map.mp hm
  exact writable_printable (units16_lt c.isLt hn)

/-- A value at the end of a text is found from the end, unless a backslash stands before
it. -/
theorem eq_of_append_dumpsText (hs : s.getLast? ≠ some '\\') (ht : t.getLast? ≠ some '\\')
    (h : s ++ dumpsText v = t ++ dumpsText w) : s = t ∧ dumpsText v = dumpsText w := by
  cases v with
  | none =>
    cases w with
    | none => exact ⟨append_cancel_right h, rfl⟩
    | some y =>
      have hlast := congrArg List.getLast? h
      simp [dumpsText, quoted, List.getLast?_cons] at hlast
  | some x =>
    cases w with
    | none =>
      have hlast := congrArg List.getLast? h
      simp [dumpsText, quoted, List.getLast?_cons] at hlast
    | some y =>
      have hopen : s ++ '"' :: (unitsOf x).flatMap (escape printable) =
          t ++ '"' :: (unitsOf y).flatMap (escape printable) := by
        have hclosed : (s ++ '"' :: (unitsOf x).flatMap (escape printable)) ++ ['"'] =
            (t ++ '"' :: (unitsOf y).flatMap (escape printable)) ++ ['"'] := by
          simpa [dumpsText, quoted] using h
        exact append_cancel_right hclosed
      obtain ⟨hst, hxy⟩ := eq_of_append_quote (guarded_flatMap (writable_unitsOf x))
        (guarded_flatMap (writable_unitsOf y)) hs ht hopen
      exact ⟨hst, by rw [dumpsText, dumpsText, quoted, quoted, hxy]⟩

theorem eq_of_append_flag {b b' : Bool} (h : s ++ flag b = t ++ flag b') : s = t ∧ b = b' := by
  cases b <;> cases b'
  · exact ⟨append_cancel_right h, rfl⟩
  · have hreverse := congrArg List.reverse h
    simp [flag] at hreverse
  · have hreverse := congrArg List.reverse h
    simp [flag] at hreverse
  · exact ⟨append_cancel_right h, rfl⟩

theorem eq_of_append_dumpsParams {column column' webhookUrl webhookUrl' : Option PyStr}
    {fresh fresh' : Bool}
    (h : s ++ dumpsParams column fresh webhookUrl = t ++ dumpsParams column' fresh' webhookUrl') :
    s = t ∧ dumpsText column = dumpsText column' ∧ fresh = fresh' ∧
      dumpsText webhookUrl = dumpsText webhookUrl' := by
  have hlast : ∀ x : Str, (x ++ ", ".toList).getLast? ≠ some '\\' := by simp
  have hbracket : ∀ x : Str, (x ++ ['[']).getLast? ≠ some '\\' := by simp
  simp only [dumpsParams, ← append_assoc] at h
  obtain ⟨h, hurl⟩ := eq_of_append_dumpsText (hlast _) (hlast _) (append_cancel_right h)
  obtain ⟨h, hfresh⟩ := eq_of_append_flag (append_cancel_right h)
  obtain ⟨h, hcolumn⟩ := eq_of_append_dumpsText (hbracket _) (hbracket _)
    (append_cancel_right h)
  exact ⟨append_cancel_right h, hcolumn, hfresh, hurl⟩

/-! ## Strings from their texts -/

/-- No two neighbours in the string are surrogates that make a pair. -/
def NoPairs (v : Option PyStr) : Prop := ∀ x ∈ v, Unpaired (x.map Fin.val)

theorem eq_of_dumpsText (hv : NoPairs v) (hw : NoPairs w) (h : dumpsText v = dumpsText w) :
    v = w := by
  cases v with
  | none =>
    cases w with
    | none => rfl
    | some y => cases h
  | some x =>
    cases w with
    | none => cases h
    | some y =>
      have hlt : ∀ z : PyStr, ∀ n ∈ z.map Fin.val, n < 0x110000 := by
        intro z n hn
        obtain ⟨c, -, rfl⟩ := mem_map.mp hn
        exact c.isLt
      have hunits := quoted_injective (writable_unitsOf x) (writable_unitsOf y) h
      have hpoints : x.map Fin.val = y.map Fin.val := by
        rw [← joinUnits_units16 (hlt x) (hv x rfl), ← joinUnits_units16 (hlt y) (hw y rfl)]
        exact congrArg joinUnits hunits
      rw [map_injective_iff.mpr (fun _ _ => Fin.ext) hpoints]

/-! ## Bytes -/

def ofByte (b : UInt8) : Char := Char.ofNat b.toNat

theorem toNat_ofByte (b : UInt8) : (ofByte b).toNat = b.toNat := by
  have hvalid : b.toNat.isValidChar := .inl (Nat.lt_trans b.toNat_lt (by decide))
  exact congrArg Char.toNat (dif_pos hvalid)

theorem ofByte_injective : Function.Injective ofByte := by
  intro a b h
  have hval := congrArg Char.toNat h
  rw [toNat_ofByte, toNat_ofByte] at hval
  exact UInt8.toNat_inj.mp hval

theorem map_ofByte_encodeAscii (h : ∀ c ∈ s, c.toNat < 128) : (encodeAscii s).map ofByte = s := by
  rw [encodeAscii, map_map]
  refine (map_congr_left fun c hc => ?_).trans (map_id s)
  have hbyte : (UInt8.ofNat c.toNat).toNat = c.toNat :=
    Nat.mod_eq_of_lt (Nat.lt_trans (h c hc) (by decide))
  exact (congrArg Char.ofNat hbyte).trans (Char.ofNat_toNat c)

theorem ascii_dumpsText (v : Option PyStr) : ∀ c ∈ dumpsText v, c.toNat < 128 := by
  cases v with
  | none => exact Str.toNat_lt_of_isAscii (by decide)
  | some x =>
    intro c hc
    rw [dumpsText, quoted, mem_cons, mem_append, mem_singleton] at hc
    rcases hc with rfl | hc | rfl
    · decide
    · obtain ⟨n, -, hc⟩ := mem_flatMap.mp hc
      refine toNat_lt_of_mem_escape (fun n hn => ?_) hc
      have hle := (of_decide_eq_true hn).2
      omega
    · decide

theorem ascii_dumpsParams (column : Option PyStr) (fresh : Bool) (webhookUrl : Option PyStr) :
    ∀ c ∈ dumpsParams column fresh webhookUrl, c.toNat < 128 := by
  have hflag : ∀ c ∈ flag fresh, c.toNat < 128 :=
    Str.toNat_lt_of_isAscii (by cases fresh <;> decide)
  simp only [dumpsParams, forall_mem_append]
  exact ⟨⟨⟨⟨⟨⟨Str.toNat_lt_of_isAscii (by decide), ascii_dumpsText column⟩,
    Str.toNat_lt_of_isAscii (by decide)⟩, hflag⟩, Str.toNat_lt_of_isAscii (by decide)⟩,
    ascii_dumpsText webhookUrl⟩, Str.toNat_lt_of_isAscii (by decide)⟩

/-- Two requests without pairs of surrogates in their strings have one pre-image only if
they are the same. -/
theorem preimage_eq_iff (content content' : List UInt8)
    (column column' webhookUrl webhookUrl' : Option PyStr) (fresh fresh' : Bool)
    (hcolumn : NoPairs column) (hcolumn' : NoPairs column')
    (hurl : NoPairs webhookUrl) (hurl' : NoPairs webhookUrl') :
    preimage content column fresh webhookUrl = preimage content' column' fresh' webhookUrl' ↔
      content = content' ∧ column = column' ∧ fresh = fresh' ∧ webhookUrl = webhookUrl' := by
  constructor
  · intro h
    have htext := congrArg (List.map ofByte) h
    rw [preimage, preimage, map_append, map_append,
      map_ofByte_encodeAscii (ascii_dumpsParams _ _ _),
      map_ofByte_encodeAscii (ascii_dumpsParams _ _ _)] at htext
    obtain ⟨hcontent, hc, hfresh, hu⟩ := eq_of_append_dumpsParams htext
    exact ⟨map_injective_iff.mpr ofByte_injective hcontent,
      eq_of_dumpsText hcolumn hcolumn' hc, hfresh, eq_of_dumpsText hurl hurl' hu⟩
  · rintro ⟨rfl, rfl, rfl, rfl⟩
    rfl

/-- A content that ends like the parameters themselves, and strings with a quotation mark, a
backslash and a surrogate that is alone. -/
theorem preimage_of_lookalike :
    preimage (encodeAscii "a[null, true, null]".toList) (some [0x22, 0xd83d]) true (some [0x5c]) ≠
      preimage (encodeAscii ['a']) (some [0x5c, 0x22, 0xd83d]) true (some [0x5c]) := by
  have hpairs : ∀ x ∈ ([[0x22, 0xd83d], [0x5c, 0x22, 0xd83d], [0x5c]] : List PyStr),
      NoPairs (some x) := by
    rintro x hx _ ⟨⟩
    revert x
    simp only [Unpaired, IsHigh, IsLow]
    decide
  rw [ne_eq, preimage_eq_iff _ _ _ _ _ _ true true (hpairs _ (by decide)) (hpairs _ (by decide))
    (hpairs _ (by decide)) (hpairs _ (by decide))]
  decide

/-- The two halves of a pair and the character they make. -/
theorem preimage_of_surrogates :
    preimage [] (some [0xd83d, 0xde00]) false none = preimage [] (some [0x1f600]) false none ∧
      (some [0xd83d, 0xde00] : Option PyStr) ≠ some [0x1f600] := by
  decide +kernel

end

end Jobs

end EmailExtractor
