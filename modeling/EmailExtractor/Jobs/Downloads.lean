import EmailExtractor.Jobs.Output
import EmailExtractor.Library.JsonText

/-!
# The two downloads

`json_line` of `app/jobs.py` beside `output_row`. A row of the CSV download has the cells
of the upload and those of the result in columns of their own; an object of the JSON
download has them under their names, where the fields of a result are written over the
columns of the upload. A column of the upload with the name of such a field therefore
shows the text of the field, or stands where an absent field should read as empty. That is
the only way in which the two differ.
-/

namespace EmailExtractor

namespace Jobs

open JsonText List

/-- What `json.dumps` writes as it is with `ensure_ascii=False`. -/
def notControl (n : ℕ) : Bool := decide (0x20 ≤ n)

section

variable (format : PyFloat → Str) (sourceColumns : List Str) (rawRow : Dict Str Str)
  (result : Option DomainResult) (pendingDomain : Option Str) (retrying : Bool)

def jsonPayload : Dict Str Str :=
  let cells := resultCells format result pendingDomain retrying
  let payload := Dict.update [] (sourceColumns.map fun c => (c, Dict.getD rawRow c []))
  Dict.update payload (cells.map fun cell => (exPrefix ++ cell.1, cell.2))

def jsonLine : Str :=
  object notControl
    (jsonPayload format sourceColumns rawRow result pendingDomain retrying) ++ ['\n']

def fieldText (field : Str) : Str :=
  Dict.getD (resultCells format result pendingDomain retrying) field []

theorem outputRow_eq_map :
    outputRow format sourceColumns rawRow result pendingDomain retrying =
      (sourceColumns.map (fun c => Dict.getD rawRow c []) ++
        resultFields.map (fieldText format result pendingDomain retrying)).map csvSafe := by
  rw [map_append, map_map, map_map]
  rfl

/-! ## The line and its object -/

theorem writesChars_notControl : WritesChars notControl := by
  intro c
  refine ⟨fun _ => c.valid, fun hplain => ?_⟩
  have hlt := of_decide_eq_false hplain
  omega

theorem readObject_jsonLine :
    readObject (jsonLine format sourceColumns rawRow result pendingDomain retrying) =
      some (jsonPayload format sourceColumns rawRow result pendingDomain retrying, ['\n']) :=
  readObject_object writesChars_notControl _ _

/-! ## The cells of a result -/

structure AreFields (cells : Dict Str Str) : Prop where
  nodup : (cells.map Prod.fst).Nodup
  fields : cells.map Prod.fst ⊆ resultFields

theorem AreFields.set {cells : Dict Str Str} (h : AreFields cells) {field : Str}
    (hfield : field ∈ resultFields) (text : Str) : AreFields (Dict.set field text cells) where
  nodup := Dict.nodup_keys_set _ _ h.nodup
  fields := by
    intro k hk
    obtain ⟨cell, hcell, rfl⟩ := mem_map.mp hk
    rcases Dict.mem_of_mem_set hcell with rfl | hcell
    · exact hfield
    · exact h.fields (mem_map_of_mem hcell)

theorem areFields_resultCells :
    AreFields (resultCells format result pendingDomain retrying) := by
  cases result with
  | none =>
    constructor
    · simp only [resultCells, map_cons, map_nil]
      decide
    · simp only [resultCells, map_cons, map_nil]
      decide
  | some r =>
    have hsocial : socialFields ⊆ resultFields := by decide
    unfold resultCells
    refine List.foldlRecOn socialFields _ ?_ fun cells h network hnetwork =>
      h.set (hsocial hnetwork) _
    constructor
    · simp only [map_cons, map_nil]
      decide
    · simp only [map_cons, map_nil]
      decide

theorem exPrefix_injective : Function.Injective (exPrefix ++ ·) :=
  fun _ _ h => append_cancel_left h

/-! ## The object -/

theorem eq_of_key {κ ν : Type*} {items : Dict κ ν} (h : (items.map Prod.fst).Nodup) :
    ∀ a ∈ items, ∀ b ∈ items, a.1 = b.1 → a.2 = b.2 := by
  intro a ha b hb hkey
  rw [inj_on_of_nodup_map h ha hb hkey]

theorem get?_jsonPayload (name : Str) :
    Dict.get? name (jsonPayload format sourceColumns rawRow result pendingDomain retrying) =
      (Dict.get? name ((resultCells format result pendingDomain retrying).map fun cell =>
        (exPrefix ++ cell.1, cell.2))).or
        (if name ∈ sourceColumns then some (Dict.getD rawRow name []) else none) := by
  have hcells := areFields_resultCells format result pendingDomain retrying
  have hsource : ∀ a ∈ sourceColumns.map fun c => (c, Dict.getD rawRow c []),
      ∀ b ∈ sourceColumns.map fun c => (c, Dict.getD rawRow c []), a.1 = b.1 → a.2 = b.2 := by
    intro a ha b hb hkey
    obtain ⟨c, -, rfl⟩ := mem_map.mp ha
    obtain ⟨c', -, rfl⟩ := mem_map.mp hb
    exact congrArg (Dict.getD rawRow · []) hkey
  have hnodup : (((resultCells format result pendingDomain retrying).map fun cell =>
      (exPrefix ++ cell.1, cell.2)).map Prod.fst).Nodup := by
    have hkeys := hcells.nodup.map exPrefix_injective
    rwa [map_map] at hkeys ⊢
  rw [jsonPayload, Dict.get?_update _ _ (eq_of_key hnodup), Dict.get?_update _ _ hsource,
    Dict.get?_map_pair, Dict.get?, Option.or_none]
  by_cases hname : name ∈ sourceColumns
  · rw [if_pos hname, if_pos hname]
  · rw [if_neg hname, if_neg hname]

theorem get?_jsonPayload_field (field : Str) :
    Dict.get? (exPrefix ++ field)
        (jsonPayload format sourceColumns rawRow result pendingDomain retrying) =
      (Dict.get? field (resultCells format result pendingDomain retrying)).or
        (if exPrefix ++ field ∈ sourceColumns then
          some (Dict.getD rawRow (exPrefix ++ field) []) else none) := by
  rw [get?_jsonPayload, Dict.get?_map_key exPrefix_injective]

theorem get?_jsonPayload_column {column : Str} (hcolumn : column ∈ sourceColumns)
    (hfield : ∀ field ∈ resultFields, column ≠ exPrefix ++ field) :
    Dict.get? column (jsonPayload format sourceColumns rawRow result pendingDomain retrying) =
      some (Dict.getD rawRow column []) := by
  have hcells := areFields_resultCells format result pendingDomain retrying
  rw [get?_jsonPayload, if_pos hcolumn]
  cases hget : Dict.get? column ((resultCells format result pendingDomain retrying).map
      fun cell => (exPrefix ++ cell.1, cell.2)) with
  | none => rfl
  | some text =>
    obtain ⟨cell, hcell, heq⟩ := mem_map.mp (Dict.mem_of_get? hget)
    exact absurd (congrArg Prod.fst heq).symm
      (hfield cell.1 (hcells.fields (mem_map_of_mem hcell)))

/-- The object has the cell of every column of the upload, and the text of every field of
the result where an absent one is empty. -/
structure Carries (object : Dict Str Str) : Prop where
  source : ∀ column ∈ sourceColumns,
    Dict.get? column object = some (Dict.getD rawRow column [])
  fields : ∀ field ∈ resultFields, Dict.getD object (exPrefix ++ field) [] =
    fieldText format result pendingDomain retrying field

/-- The CSV row is made of the cells and the texts of the fields, and the JSON line of an
object that has the same, exactly if every column of the upload with the name of a field
has the text of that field as its cell. -/
theorem downloads_agree_iff :
    outputRow format sourceColumns rawRow result pendingDomain retrying =
        (sourceColumns.map (fun c => Dict.getD rawRow c []) ++
          resultFields.map (fieldText format result pendingDomain retrying)).map csvSafe ∧
      ∃ object, readObject (jsonLine format sourceColumns rawRow result pendingDomain retrying) =
          some (object, ['\n']) ∧
        (Carries format sourceColumns rawRow result pendingDomain retrying object ↔
          ∀ field ∈ resultFields, exPrefix ++ field ∈ sourceColumns →
            Dict.getD rawRow (exPrefix ++ field) [] =
              fieldText format result pendingDomain retrying field) := by
  refine ⟨outputRow_eq_map .., _, readObject_jsonLine .., fun h field hfield hcolumn => ?_,
    fun h => ⟨fun column hcolumn => ?_, fun field hfield => ?_⟩⟩
  · have htext := h.fields field hfield
    rwa [Dict.getD, h.source _ hcolumn, Option.getD_some] at htext
  · by_cases hname : ∃ field ∈ resultFields, column = exPrefix ++ field
    · obtain ⟨field, hfield, rfl⟩ := hname
      rw [get?_jsonPayload_field, if_pos hcolumn, h field hfield hcolumn, fieldText, Dict.getD]
      cases Dict.get? field (resultCells format result pendingDomain retrying) with
      | none => rfl
      | some text => rfl
    · refine get?_jsonPayload_column _ _ _ _ _ _ hcolumn fun field hfield heq => ?_
      exact hname ⟨field, hfield, heq⟩
  · have htext : fieldText format result pendingDomain retrying field =
        (Dict.get? field (resultCells format result pendingDomain retrying)).getD [] := rfl
    have hcolumn := h field hfield
    rw [Dict.getD, get?_jsonPayload_field]
    rw [htext] at hcolumn ⊢
    cases hget : Dict.get? field (resultCells format result pendingDomain retrying) with
    | some text => rfl
    | none =>
      rw [hget] at hcolumn
      by_cases hmem : exPrefix ++ field ∈ sourceColumns
      · rw [if_pos hmem, hcolumn hmem]
        rfl
      · rw [if_neg hmem]
        rfl

end

/-- A column of a previous download is lost: its cell is `found`, the object has the status
of the new job. -/
theorem previous_download_is_overwritten :
    let format : PyFloat → Str := fun _ => []
    let columns := ["ex_status".toList]
    let row : Dict Str Str := [("ex_status".toList, "found".toList)]
    ∃ object, readObject (jsonLine format columns row none (some "acme.com".toList) false) =
        some (object, ['\n']) ∧
      Dict.get? "ex_status".toList object = some "pending".toList ∧
      ¬ Carries format columns row none (some "acme.com".toList) false object := by
  intro format columns row
  have hstatus : Dict.get? "ex_status".toList
      (jsonPayload format columns row none (some "acme.com".toList) false) =
        some "pending".toList := rfl
  refine ⟨_, readObject_jsonLine .., hstatus, fun h => ?_⟩
  have hcell := h.source "ex_status".toList (mem_singleton_self _)
  rw [hstatus] at hcell
  exact absurd (Option.some.inj hcell) (by decide)

end Jobs

end EmailExtractor
