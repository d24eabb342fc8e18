import EmailExtractor.Jobs.Prepare
import EmailExtractor.Library.Except

/-!
# The rows of a download

The row-shaping half of `app/jobs.py`. A download repeats the cells of the upload and adds
the columns of the result. The cells of an input row are kept in a dictionary with the
names of the columns as its keys, so of two columns with one name the last is repeated for
both.
-/

namespace EmailExtractor

open List

def Status.text : Status → Str
  | .invalidInput => "invalid_input".toList
  | .fetchFailed => "fetch_failed".toList
  | .parkedOrForSale => "parked_or_for_sale".toList
  | .noBusinessEmail => "no_business_email".toList
  | .found => "found".toList
  | .formOnly => "form_only".toList
  | .noContactInfo => "no_contact_info".toList

def EmailSource.text : EmailSource → Str
  | .typesafe => "typesafe".toList
  | .rules => "rules".toList

def MxProvider.text : MxProvider → Str
  | .google => "google".toList
  | .microsoft => "microsoft".toList
  | .other => "other".toList
  | .none => "none".toList

namespace Jobs

open Ingest

def exPrefix : Str := "ex_".toList

def resultFields : List Str :=
  ["domain", "final_domain", "status", "best_email", "best_email_source", "confidence",
    "needs_review", "business_emails", "all_emails", "phones", "contact_form_url",
    "facebook", "instagram", "linkedin", "x", "youtube", "tiktok", "yelp",
    "mx_provider", "site_status", "pages_fetched", "error_reason",
    "retrying"].map String.toList

def socialFields : List Str :=
  ["facebook", "instagram", "linkedin", "x", "youtube", "tiktok", "yelp"].map String.toList

/-- `"true" if b else "false"`. -/
def flag (b : Bool) : Str := if b then "true".toList else "false".toList

/-- The `ex_*` half of an output row: `result_cells`; `format` is the format `.3f`. -/
def resultCells (format : PyFloat → Str) (result : Option DomainResult)
    (pendingDomain : Option Str) (retrying : Bool) : Dict Str Str :=
  let comma := ", ".toList
  match result with
  | none =>
    [("domain".toList, pendingDomain.getD []), ("status".toList, "pending".toList),
      ("retrying".toList, flag retrying)]
  | some r =>
    let cells : Dict Str Str :=
      [("domain".toList, r.domain), ("final_domain".toList, r.finalDomain.getD []),
        ("status".toList, r.status.text), ("best_email".toList, r.bestEmail.getD []),
        ("best_email_source".toList, (r.bestEmailSource.map EmailSource.text).getD []),
        ("confidence".toList, (r.confidence.map format).getD []),
        ("needs_review".toList, flag r.needsReview),
        ("business_emails".toList, Str.join comma r.businessEmails),
        ("all_emails".toList, Str.join comma (r.allEmails.map EmailCandidateOut.email)),
        ("phones".toList, Str.join comma r.phones),
        ("contact_form_url".toList, r.contactFormUrl.getD []),
        ("mx_provider".toList, (r.mxProvider.map MxProvider.text).getD []),
        ("site_status".toList, r.siteStatus.getD []),
        ("pages_fetched".toList, Str.join comma r.pagesFetched),
        ("error_reason".toList, r.errorReason.getD []), ("retrying".toList, flag retrying)]
    socialFields.foldl (fun cells network =>
      Dict.set network (Dict.getD r.socials network []) cells) cells

/-- `csv_safe`: a text that a spreadsheet would take for a formula is quoted. -/
def csvSafe (value : Str) : Str :=
  match value with
  | c :: _ => if "=+-@\t\r".toList.contains c then '\'' :: value else value
  | [] => value

def outputHeader (sourceColumns : List Str) : List Str :=
  sourceColumns.map csvSafe ++ resultFields.map (exPrefix ++ ·)

def outputRow (format : PyFloat → Str) (sourceColumns : List Str) (rawRow : Dict Str Str)
    (result : Option DomainResult) (pendingDomain : Option Str) (retrying : Bool) : List Str :=
  let cells := resultCells format result pendingDomain retrying
  sourceColumns.map (fun c => csvSafe (Dict.getD rawRow c [])) ++
    resultFields.map fun f => csvSafe (Dict.getD cells f [])

/-! ## The cells of an input row -/

section Cells

variable {N : Normalizer}

theorem get?_foldl_set (f : ℕ → Str) {h : Str} {l : List (Str × ℕ)} (d : Dict Str Str)
    (hmem : ∃ i, (h, i) ∈ l) : ∃ i, (h, i) ∈ l ∧
      Dict.get? h (l.foldl (fun row p => Dict.set p.1 (f p.2) row) d) = some (f i) := by
  induction l using List.reverseRecOn with
  | nil => simp at hmem
  | append_singleton l p ih =>
    rw [foldl_append, foldl_cons, foldl_nil]
    by_cases hp : p.1 = h
    · refine ⟨p.2, ?_, ?_⟩
      · rw [← hp]
        exact mem_append_right _ (mem_singleton_self p)
      · rw [hp, Dict.get?_set_self]
    · obtain ⟨i, hi⟩ := hmem
      have hi' : (h, i) ∈ l := by
        rcases mem_append.mp hi with hi | hi
        · exact hi
        · exact absurd (congrArg Prod.fst (mem_singleton.mp hi)).symm hp
      obtain ⟨k, hk, hget⟩ := ih ⟨i, hi'⟩
      exact ⟨k, mem_append_left _ hk, by rw [Dict.get?_set_of_ne (Ne.symm hp), hget]⟩

theorem toRow_get (headers record : List Str) {j : ℕ} {h : Str} (hj : headers[j]? = some h) :
    ∃ k, headers[k]? = some h ∧ Dict.getD (toRow N headers record) h [] = cell N record k := by
  obtain ⟨k, hk, hget⟩ := get?_foldl_set (cell N record) (l := headers.zipIdx) []
    ⟨j, mem_zipIdx_iff_getElem?.mpr hj⟩
  exact ⟨k, mem_zipIdx_iff_getElem?.mp hk, by rw [Dict.getD, toRow, hget, Option.getD_some]⟩

theorem rows_parseRecords {delimiter encoding : Str} {records : List (List Str)}
    {parsed : ParsedFile} (h : parseRecords N delimiter encoding records = .ok parsed)
    (hheader : parsed.hadHeader = true) :
    parsed.rows = records.tail.map (toRow N parsed.headers) := by
  cases records with
  | nil => cases h
  | cons record records =>
    obtain ⟨_, -, h⟩ := Except.bind_eq_ok.mp h
    dsimp only at h
    split at h
    · split at h
      · cases h
      · rename_i hrows
        rw [← Except.ok.inj h, take_of_length_le (Nat.le_of_not_lt hrows), tail_cons]
    · rename_i hnot
      split at h
      · cases h
      · rw [← Except.ok.inj h] at hheader
        exact absurd hheader hnot

theorem rawRow_eq_toRow {delimiter encoding : Str} {records : List (List Str)}
    {parsed : ParsedFile} (hparse : parseRecords N delimiter encoding records = .ok parsed)
    (hheader : parsed.hadHeader = true) {guess : ColumnGuess} {column : Option Str}
    {items : List PreparedItem} (hitems : prepareItems N parsed guess column = .ok items) (i : ℕ) :
    items[i]?.map PreparedItem.rawRow = records.tail[i]?.map (toRow N parsed.headers) := by
  rw [rawRow_prepareItems hitems, rows_parseRecords hparse hheader, List.getElem?_map]

end Cells

theorem outputRow_getElem? (format : PyFloat → Str) {sourceColumns : List Str}
    (rawRow : Dict Str Str) (result : Option DomainResult) (pendingDomain : Option Str)
    (retrying : Bool) {j : ℕ} {h : Str} (hj : sourceColumns[j]? = some h) :
    (outputRow format sourceColumns rawRow result pendingDomain retrying)[j]? =
      some (csvSafe (Dict.getD rawRow h [])) := by
  obtain ⟨hlt, -⟩ := List.getElem?_eq_some_iff.mp hj
  rw [outputRow, List.getElem?_append_left (by rwa [length_map]), List.getElem?_map, hj]
  rfl

theorem length_outputRow (format : PyFloat → Str) (sourceColumns : List Str)
    (rawRow : Dict Str Str) (result : Option DomainResult) (pendingDomain : Option Str)
    (retrying : Bool) :
    (outputRow format sourceColumns rawRow result pendingDomain retrying).length =
      (outputHeader sourceColumns).length := by
  simp [outputRow, outputHeader]

/-- Every data record has its item and an output row as wide as the header. The row repeats
all cells of the record exactly when, in every record, columns with one name have one text. -/
theorem cells_replayed_iff (N : Normalizer) (format : PyFloat → Str)
    {delimiter encoding : Str} {records : List (List Str)} {parsed : ParsedFile}
    (hparse : parseRecords N delimiter encoding records = .ok parsed)
    (hheader : parsed.hadHeader = true)
    {guess : ColumnGuess} {column : Option Str} {items : List PreparedItem}
    (hitems : prepareItems N parsed guess column = .ok items) :
    (∀ (i : ℕ) record, records.tail[i]? = some record →
        ∃ item : PreparedItem, items[i]? = some item ∧ ∀ result pendingDomain retrying,
          (outputRow format parsed.headers item.rawRow result pendingDomain retrying).length =
            (outputHeader parsed.headers).length) ∧
      ((∀ (i : ℕ) record (item : PreparedItem), records.tail[i]? = some record →
          items[i]? = some item → ∀ j < parsed.headers.length, ∀ result pendingDomain retrying,
            (outputRow format parsed.headers item.rawRow result pendingDomain retrying)[j]? =
              some (csvSafe (cell N record j))) ↔
        ∀ record ∈ records.tail, ∀ j k, j < parsed.headers.length → k < parsed.headers.length →
          parsed.headers[j]? = parsed.headers[k]? →
            csvSafe (cell N record j) = csvSafe (cell N record k)) := by
  have hitem : ∀ (i : ℕ) record, records.tail[i]? = some record → ∃ item : PreparedItem,
      items[i]? = some item ∧ item.rawRow = toRow N parsed.headers record := by
    intro i record hi
    have hrow := rawRow_eq_toRow hparse hheader hitems i
    rw [hi, Option.map_some] at hrow
    exact Option.map_eq_some_iff.mp hrow
  refine ⟨fun i record hi => ?_, fun hreplayed record hrecord j k hj hk hnames => ?_,
    fun hsame i record item hi hitem' j hj result pendingDomain retrying => ?_⟩
  · obtain ⟨item, hitem, -⟩ := hitem i record hi
    exact ⟨item, hitem, fun _ _ _ => length_outputRow ..⟩
  · -- the output depends on the name of the column only
    obtain ⟨i, hi⟩ := mem_iff_getElem?.mp hrecord
    obtain ⟨item, hitem, -⟩ := hitem i record hi
    have hcell := fun l hl => hreplayed i record item hi hitem l hl none none false
    have hj' := List.getElem?_eq_getElem hj
    refine Option.some.inj ((hcell j hj).symm.trans (Eq.trans ?_ (hcell k hk)))
    rw [outputRow_getElem? format item.rawRow none none false hj',
      outputRow_getElem? format item.rawRow none none false (hnames.symm.trans hj')]
  · obtain ⟨item', hitem, hrow⟩ := hitem i record hi
    obtain rfl := Option.some.inj (hitem'.symm.trans hitem)
    have hj' := List.getElem?_eq_getElem hj
    obtain ⟨k, hk, hget⟩ := toRow_get (N := N) parsed.headers record hj'
    rw [outputRow_getElem? format item.rawRow result pendingDomain retrying hj', hrow, hget]
    obtain ⟨hk', -⟩ := List.getElem?_eq_some_iff.mp hk
    exact congrArg some (hsame record (mem_of_getElem? hi) k j hk' hj (hk.trans hj'.symm))

namespace TwoColumns

def normalizer : Normalizer := ⟨.ascii, fun _ => ⟨[], [], []⟩, fun _ => none⟩

def records (a b : Str) : List (List Str) := [[a, b], [" 1 ".toList, "=2".toList]]

def parsed (a b : Str) (row : Dict Str Str) : ParsedFile where
  headers := [a, b]
  rows := [row]
  hadHeader := true
  delimiter := [',']
  encoding := "utf-8".toList

def guess (a : Str) : ColumnGuess := { column := some a, method := .content }

end TwoColumns

/-- A record under two names is repeated as it is. -/
theorem two_names_replayed :
    let parsed := TwoColumns.parsed "a".toList "b".toList
      [("a".toList, ['1']), ("b".toList, "=2".toList)]
    parseRecords TwoColumns.normalizer [','] "utf-8".toList
        (TwoColumns.records "a".toList "b".toList) = .ok parsed ∧
      ∃ items, prepareItems TwoColumns.normalizer parsed (TwoColumns.guess "a".toList) none =
          .ok items ∧ ∃ item ∈ items[0]?, ∀ j < 2, ∀ format result pendingDomain retrying,
        (outputRow format parsed.headers item.rawRow result pendingDomain retrying)[j]? =
          some (csvSafe (cell TwoColumns.normalizer [" 1 ".toList, "=2".toList] j)) := by
  intro parsed
  have hparse : parseRecords TwoColumns.normalizer [','] "utf-8".toList
      (TwoColumns.records "a".toList "b".toList) = .ok parsed := rfl
  obtain ⟨items, hitems⟩ : ∃ items, prepareItems TwoColumns.normalizer parsed
      (TwoColumns.guess "a".toList) none = .ok items := ⟨_, rfl⟩
  have hreplayed := fun format =>
    cells_replayed_iff TwoColumns.normalizer format hparse rfl hitems
  obtain ⟨item, hitem, -⟩ := (hreplayed fun _ => []).1 0 _ rfl
  refine ⟨hparse, items, hitems, item, hitem, fun j hj format result pendingDomain retrying => ?_⟩
  refine (hreplayed format).2.mpr ?_ 0 _ item rfl hitem j hj result pendingDomain retrying
  intro record _ j k hj _ hnames
  rw [(List.getElem?_inj hj (by decide)).mp hnames]

/-- Of two columns with one name the first is repeated with the cell of the second. -/
theorem repeated_name_loses_cell :
    let parsed := TwoColumns.parsed "a".toList "a".toList [("a".toList, "=2".toList)]
    parseRecords TwoColumns.normalizer [','] "utf-8".toList
        (TwoColumns.records "a".toList "a".toList) = .ok parsed ∧
      ∃ items, prepareItems TwoColumns.normalizer parsed (TwoColumns.guess "a".toList) none =
          .ok items ∧ ∃ item ∈ items[0]?, ∀ format result pendingDomain retrying,
        (outputRow format parsed.headers item.rawRow result pendingDomain retrying)[0]? =
            some "'=2".toList ∧
          csvSafe (cell TwoColumns.normalizer [" 1 ".toList, "=2".toList] 0) = ['1'] := by
  intro parsed
  refine ⟨rfl, _, rfl, _, rfl, fun format result pendingDomain retrying => ⟨?_, by decide⟩⟩
  rw [outputRow_getElem? format _ result pendingDomain retrying (h := "a".toList) rfl]
  decide

end Jobs

end EmailExtractor
