import EmailExtractor.Library.Dict
import EmailExtractor.Library.Except
import EmailExtractor.Library.PyFloat
import EmailExtractor.Library.Text

/-!
# JSON values of a dynamically typed program

The values a JSON document decodes to, with the operations a program applies to them
before it knows what they are: truth value, `get` on what may not be a dictionary,
conversion to a float. The conversions of integers and of texts to floats are
parameters.
-/

inductive PyExn
  | attributeError
  | typeError
  | valueError
  | overflowError
  | validationError
  deriving DecidableEq

inductive Json
  | null
  | bool (b : Bool)
  | int (n : ℤ)
  | float (x : PyFloat)
  | str (s : Str)
  | arr (l : List Json)
  | obj (m : List (Str × Json))

/-- The conversions to floats that the runtime provides; an integer too large for a
float and a text that writes no number have none. -/
structure Floats where
  ofInt : ℤ → Option PyFloat
  ofStr : Str → Option PyFloat

namespace Json

/-- `bool(j)`. -/
def truthy : Json → Bool
  | null => false
  | bool b => b
  | int n => n ≠ 0
  | float x => x ≠ .fin 0
  | str s => s ≠ []
  | arr l => !l.isEmpty
  | obj m => !m.isEmpty

/-- `j or d`. -/
def orElse (j d : Json) : Json := if j.truthy then j else d

/-- `j.get(k)`. -/
def get (j : Json) (k : Str) : Except PyExn Json :=
  match j with
  | obj m => .ok ((Dict.get? k m).getD null)
  | _ => .error .attributeError

/-- `j.strip()`. -/
def strip (U : Unicode) : Json → Except PyExn Str
  | str s => .ok (U.strip s)
  | _ => .error .attributeError

/-- `float(j)`. -/
def toFloat (F : Floats) : Json → Except PyExn PyFloat
  | bool b => .ok (.fin (if b then 1 else 0))
  | int n =>
    match F.ofInt n with
    | some x => .ok x
    | none => .error .overflowError
  | float x => .ok x
  | str s =>
    match F.ofStr s with
    | some x => .ok x
    | none => .error .valueError
  | _ => .error .typeError

/-- `j == s` for a text `s`. -/
def isStr (s : Str) : Json → Bool
  | str t => t = s
  | _ => false

/-- The member `k` of an object, absent or null or such that `p`. -/
def Member (j : Json) (k : Str) (p : Json → Prop) : Prop :=
  ∃ v, j.get k = .ok v ∧ (v = null ∨ p v)

def IsText (j : Json) : Prop := ∃ s, j = str s

/-- A number that a float can hold. -/
def IsNumber (F : Floats) (j : Json) : Prop :=
  (∃ x, j = float x) ∨ ∃ n, j = int n ∧ (F.ofInt n).isSome

def IsObject (j : Json) : Prop := ∃ m, j = obj m

/-- `float(j)` returns. -/
def Convertible (F : Floats) : Json → Prop
  | bool _ => True
  | int n => (F.ofInt n).isSome
  | float _ => True
  | str s => (F.ofStr s).isSome
  | _ => False

/-- The value gives way to a default, or is such that `p`. -/
def Yields (p : Json → Prop) (j : Json) : Prop := j.truthy = true → p j

@[simp] theorem orElse_null (d : Json) : null.orElse d = d := rfl

@[simp] theorem get_obj (m : List (Str × Json)) (k : Str) :
    (obj m).get k = .ok ((Dict.get? k m).getD null) := rfl

theorem orElse_cases {p : Json → Prop} {v d : Json} (hv : v = null ∨ p v) (hd : p d) :
    p (v.orElse d) := by
  unfold orElse
  split
  · rcases hv with rfl | hv
    · rename_i h
      exact absurd h (by simp [truthy])
    · exact hv
  · exact hd

theorem orElse_iff (p : Json → Prop) (v : Json) {d : Json} (hd : p d) :
    p (v.orElse d) ↔ v.Yields p := by
  unfold orElse Yields
  split
  · rename_i h
    simp [h]
  · rename_i h
    simp [h, hd]

theorem isOk_strip {U : Unicode} {j : Json} : (j.strip U).isOk = true ↔ j.IsText := by
  cases j <;> simp [strip, IsText]

theorem isOk_toFloat {F : Floats} {j : Json} : (j.toFloat F).isOk = true ↔ j.Convertible F := by
  cases j with
  | int n => cases h : F.ofInt n <;> simp [toFloat, Convertible, h]
  | str s => cases h : F.ofStr s <;> simp [toFloat, Convertible, h]
  | _ => simp [toFloat, Convertible]

theorem member_of_forall {m : List (Str × Json)} {p : Json → Prop} (h : ∀ item ∈ m, p item.2)
    (k : Str) : (obj m).Member k p := by
  refine ⟨_, rfl, ?_⟩
  cases hk : Dict.get? k m with
  | none => exact .inl rfl
  | some v => exact .inr (h _ (Dict.mem_of_get? hk))

theorem toFloat_of_isNumber {F : Floats} {j : Json} (h : IsNumber F j) :
    ∃ x, j.toFloat F = .ok x := by
  rcases h with ⟨x, rfl⟩ | ⟨n, rfl, hn⟩
  · exact ⟨x, rfl⟩
  · obtain ⟨x, hx⟩ := Option.isSome_iff_exists.mp hn
    exact ⟨x, by simp [toFloat, hx]⟩

end Json
