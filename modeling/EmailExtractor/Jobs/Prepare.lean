import EmailExtractor.Ingest.Table

/-!
# The rows of an upload

`prepare_items` and `prepare_plain` of `app/jobs.py`: one item for each input row, in the
order of the input, with the row's own cells.
-/

namespace EmailExtractor

namespace Jobs

open Ingest

inductive GuessMethod
  | header
  | content
  | email
  | none
  deriving DecidableEq

/-- What `prepare_items` reads of a `ColumnGuess`. -/
structure ColumnGuess where
  column : Option Str := Option.none
  method : GuessMethod := .none
  emailColumn : Option Str := Option.none
  deriving DecidableEq

def selectedColumn (guess : ColumnGuess) (column : Option Str) : Option Str :=
  [column, guess.column, guess.emailColumn].findSome? fun c => c.filter (· ≠ [])

section

variable (N : Normalizer)

def preparedItem (rowIndex : ℕ) (inputValue : Str) (n : NormalizedInput) (rawRow : Dict Str Str) :
    PreparedItem where
  rowIndex := rowIndex
  inputValue := inputValue
  domain := n.domain
  status := if n.ok then none else some .invalidInput
  reason := n.reason.map Reason.text
  domainSource := n.domainSource.text
  rawRow := rawRow

/-- `prepare_items`; the error is the text of the `ValueError`. -/
def prepareItems (parsed : ParsedFile) (guess : ColumnGuess) (column : Option Str) :
    Except Str (List PreparedItem) :=
  match selectedColumn guess column with
  | none => .error "no website column selected".toList
  | some col =>
    let derive := guess.method = .email && guess.emailColumn = some col
    .ok ((parsed.rows.zip (normalizeColumn N parsed col derive)).mapIdx fun i p =>
      preparedItem i (N.unicode.strip (Dict.getD p.1 col [])) p.2 p.1)

def preparePlain (items : List Str) : List PreparedItem :=
  items.mapIdx fun i raw =>
    preparedItem i (N.unicode.strip raw) (normalizeInput N raw)
      [("website".toList, N.unicode.strip raw)]

variable {N}

theorem rawRow_prepareItems {parsed : ParsedFile} {guess : ColumnGuess} {column : Option Str}
    {items : List PreparedItem} (h : prepareItems N parsed guess column = .ok items) (i : ℕ) :
    items[i]?.map PreparedItem.rawRow = parsed.rows[i]? := by
  unfold prepareItems at h
  split at h
  · cases h
  · rw [← Except.ok.inj h, List.getElem?_mapIdx, List.zip, List.getElem?_zipWith,
      normalizeColumn, ParsedFile.column, List.getElem?_map, List.getElem?_map]
    cases parsed.rows[i]? with
    | none | some row => rfl

/-! ## Items of an upload -/

/-- The items stand at their places, and each has a domain or is invalid. -/
structure Prepared (items : List PreparedItem) : Prop where
  rowIndex : ∀ (i : ℕ) it, items[i]? = some it → it.rowIndex = i
  domain : ∀ it ∈ items, (∃ d, it.domain = some d ∧ d ≠ [] ∧ it.status = none) ∨
    it.domain = none ∧ it.status = some .invalidInput

theorem prepared_mapIdx {α : Type} (value : α → Str) (n : α → NormalizedInput)
    (rawRow : α → Dict Str Str) {l : List α} (hn : ∀ a ∈ l, (n a).WellFormed) :
    Prepared (l.mapIdx fun i a => preparedItem i (value a) (n a) (rawRow a)) where
  rowIndex := by
    intro i it hi
    rw [List.getElem?_mapIdx, Option.map_eq_some_iff] at hi
    obtain ⟨a, -, rfl⟩ := hi
    rfl
  domain := by
    intro it hit
    obtain ⟨i, hi, rfl⟩ := List.mem_mapIdx.mp hit
    rcases hn _ (List.getElem_mem hi) with ⟨key, hkey, hne, hvalid⟩ | ⟨hnone, hinvalid⟩
    · exact .inl ⟨key, hkey, hne, by simp [preparedItem, NormalizedInput.ok, hkey, hvalid]⟩
    · exact .inr ⟨hnone, by simp [preparedItem, NormalizedInput.ok, hnone]⟩

theorem prepared_prepareItems {parsed : ParsedFile} {guess : ColumnGuess} {column : Option Str}
    {items : List PreparedItem} (h : prepareItems N parsed guess column = .ok items) :
    Prepared items := by
  unfold prepareItems at h
  split at h
  · cases h
  · rw [← Except.ok.inj h]
    refine prepared_mapIdx (fun p => N.unicode.strip (Dict.getD p.1 _ [])) Prod.snd Prod.fst ?_
    rintro ⟨row, n⟩ hp
    obtain ⟨v, -, rfl⟩ := List.mem_map.mp (List.of_mem_zip hp).2
    exact normalizeCell_wellFormed N _ v

theorem prepared_preparePlain (N : Normalizer) (cells : List Str) :
    Prepared (preparePlain N cells) :=
  prepared_mapIdx N.unicode.strip (normalizeInput N)
    (fun raw => [("website".toList, N.unicode.strip raw)]) fun raw _ =>
      normalizeInput_wellFormed N raw

end

end Jobs

end EmailExtractor
