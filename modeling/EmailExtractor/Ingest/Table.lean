import EmailExtractor.Ingest.Cell
import EmailExtractor.Jobs.Create

/-!
# Uploaded tables

`app/ingest.py` from the records of the csv reader on: the header, the rows as
dictionaries keyed by it, the limits, and `normalize_column`.
-/

namespace EmailExtractor

namespace Ingest

def maxColumns : ℕ := 500

def maxRows : ℕ := 50000

inductive IngestCode
  | emptyFile
  | tooManyColumns
  | tooManyRows
  deriving DecidableEq

structure IngestError where
  message : Str
  code : IngestCode
  deriving DecidableEq

structure ParsedFile where
  headers : List Str
  rows : List (Dict Str Str)
  hadHeader : Bool
  delimiter : Str
  encoding : Str
  deriving DecidableEq

section

variable (N : Normalizer)

def ParsedFile.column (parsed : ParsedFile) (name : Str) : List Str :=
  parsed.rows.map fun r => N.unicode.strip (Dict.getD r name [])

/-! ## Reading the records -/

def looksLikeHeader (cells : List Str) : Bool :=
  let useful := cells.filter fun c => N.unicode.strip c ≠ []
  useful.isEmpty || !useful.all fun c => (normalizeInput N c).ok

def trimTrailingBlanks (cells : List Str) : List Str :=
  (cells.reverse.dropWhile (· = [])).reverse

def columnName (i : ℕ) : Str := "column_".toList ++ (Nat.repr (i + 1)).toList

def headerNames (first : List Str) : List Str :=
  first.mapIdx fun i h =>
    if N.unicode.strip h ≠ [] then N.unicode.strip h else columnName i

def cell (record : List Str) (i : ℕ) : Str :=
  match record[i]? with
  | some c => N.unicode.strip c
  | none => []

def toRow (headers : List Str) (record : List Str) : Dict Str Str :=
  headers.zipIdx.foldl (fun row h => Dict.set h.1 (cell N record h.2) row) []

def checkWidth (n : ℕ) : Except IngestError Unit :=
  if maxColumns < n then
    .error ⟨Jobs.commas n ++ " columns, limit is ".toList ++ Jobs.commas maxColumns,
      .tooManyColumns⟩
  else .ok ()

def parseRecords (delimiter encoding : Str) : List (List Str) → Except IngestError ParsedFile
  | [] => .error ⟨"file is empty".toList, .emptyFile⟩
  | record :: records => do
      let first := trimTrailingBlanks (record.map N.unicode.strip)
      checkWidth first.length
      let hadHeader := looksLikeHeader N first
      let headers :=
        if hadHeader then headerNames N first else (List.range first.length).map columnName
      let body := if hadHeader then records else record :: records
      let rows := (body.take maxRows).map (toRow N headers)
      if maxRows < body.length then
        .error ⟨Jobs.commas body.length ++ " data rows, limit is ".toList ++ Jobs.commas maxRows,
          .tooManyRows⟩
      else .ok ⟨headers, rows, hadHeader, delimiter, encoding⟩

/-! ## Normalising a column -/

def normalizeCell (deriveFromEmail : Bool) (v : Str) : NormalizedInput :=
  let n := normalizeInput N v
  if deriveFromEmail && !n.ok && v.contains '@' && n.reason ≠ some .freeEmailOnly &&
      n.reason ≠ some .socialOrDirectory then
    let derived := normalizeInput N (Str.afterLast '@' v)
    if derived.ok then { derived with domainSource := .email } else n
  else n

def normalizeColumn (parsed : ParsedFile) (column : Str) (deriveFromEmail : Bool) :
    List NormalizedInput :=
  (parsed.column N column).map (normalizeCell N deriveFromEmail)

theorem normalizeCell_wellFormed (deriveFromEmail : Bool) (v : Str) :
    (normalizeCell N deriveFromEmail v).WellFormed := by
  unfold normalizeCell
  dsimp only
  split
  · split
    · exact normalizeInput_wellFormed N (Str.afterLast '@' v)
    · exact normalizeInput_wellFormed N v
  · exact normalizeInput_wellFormed N v

end

end Ingest

end EmailExtractor
