/-!
Static types of values, columns and expressions.
-/
namespace Quarry

inductive DataType where
  /-- Untyped; casting to it keeps the value. -/
  | null
  | boolean
  | int32
  | int64
  | float64
  | char
  | text
  /-- A mapped entity, known by name. -/
  | entity (name : String)
  | record (fields : List (String × DataType))
  | list (element : DataType)
  /-- A composable query over elements. -/
  | query (element : DataType)
  deriving Inhabited

namespace DataType

mutual

def same : DataType → DataType → Bool
  | .null, .null => true
  | .boolean, .boolean => true
  | .int32, .int32 => true
  | .int64, .int64 => true
  | .float64, .float64 => true
  | .char, .char => true
  | .text, .text => true
  | .entity a, .entity b => decide (a = b)
  | .record fs, .record gs => sameFields fs gs
  | .list a, .list b => same a b
  | .query a, .query b => same a b
  | _, _ => false

def sameFields : List (String × DataType) → List (String × DataType) → Bool
  | [], [] => true
  | (n, a) :: fs, (m, b) :: gs => decide (n = m) && same a b && sameFields fs gs
  | _, _ => false

end

mutual

theorem eq_of_same : (a b : DataType) → same a b = true → a = b
  | .null, b, h | .boolean, b, h | .int32, b, h | .int64, b, h | .float64, b, h | .char, b, h
  | .text, b, h | .entity _, b, h => by cases b <;> simp_all [same]
  | .record fs, b, h => by
    cases b <;> simp only [same, Bool.false_eq_true] at h
    rw [eq_of_sameFields fs _ h]
  | .list a, b, h => by
    cases b <;> simp only [same, Bool.false_eq_true] at h
    rw [eq_of_same a _ h]
  | .query a, b, h => by
    cases b <;> simp only [same, Bool.false_eq_true] at h
    rw [eq_of_same a _ h]

theorem eq_of_sameFields : (fs gs : List (String × DataType)) → sameFields fs gs = true → fs = gs
  | [], gs, h => by cases gs <;> simp_all [sameFields]
  | (n, a) :: fs, gs, h => by
    match gs, h with
    | (m, b) :: gs, h =>
      simp only [sameFields, Bool.and_eq_true, decide_eq_true_eq] at h
      rw [h.1.1, eq_of_same a b h.1.2, eq_of_sameFields fs gs h.2]

end

mutual

theorem same_self : (a : DataType) → same a a = true
  | .null | .boolean | .int32 | .int64 | .float64 | .char | .text => rfl
  | .entity _ => by simp [same]
  | .record fs => by simp [same, sameFields_self fs]
  | .list a => by simp [same, same_self a]
  | .query a => by simp [same, same_self a]

theorem sameFields_self : (fs : List (String × DataType)) → sameFields fs fs = true
  | [] => rfl
  | (_, a) :: fs => by simp [sameFields, same_self a, sameFields_self fs]

end

instance : DecidableEq DataType := fun a b =>
  decidable_of_iff (same a b = true) ⟨eq_of_same a b, fun h => h ▸ same_self a⟩

mutual

def display : DataType → String
  | .null => "Null"
  | .boolean => "Boolean"
  | .int32 => "Int32"
  | .int64 => "Int64"
  | .float64 => "Float64"
  | .char => "Char"
  | .text => "Utf8"
  | .entity name => name
  | .record fields => "Record \x7b" ++ ",".intercalate (displayFields fields) ++ " \x7d"
  | .list element => "List<" ++ display element ++ ">"
  | .query element => "Query<" ++ display element ++ ">"

def displayFields : List (String × DataType) → List String
  | [] => []
  | (name, type) :: rest => (" " ++ name ++ ": " ++ display type) :: displayFields rest

end

def isNumeric : DataType → Bool
  | .int32 | .int64 | .float64 => true
  | _ => false

def isText : DataType → Bool
  | .text | .char => true
  | _ => false

/-- The type of the elements of a list or a query. -/
def element? : DataType → Option DataType
  | .list element | .query element => some element
  | _ => none

/-- The numeric type in which two operands are combined. -/
def promote? : DataType → DataType → Option DataType
  | .int32, .int32 => some .int32
  | .int32, .int64 | .int64, .int32 | .int64, .int64 => some .int64
  | .float64, .float64 | .float64, .int32 | .float64, .int64 | .int32, .float64
  | .int64, .float64 => some .float64
  | _, _ => none

end DataType

end Quarry
