import Quarry.DataType
import Quarry.Error
import Quarry.Number.Decimal
/-!
Runtime values: their natural type, their text, and records with ordered fields.
Two values are equal if they have the same form and content, floats if they have the same
bits.
-/
namespace Quarry

inductive Value where
  | null
  | boolean (b : Bool)
  | int32 (n : Int32)
  | int64 (n : Int64)
  | float (x : Binary64)
  | char (c : Char)
  | text (s : String)
  /-- Ordered named fields; a name may stand more than once. -/
  | record (fields : List (String × Value))
  | list (values : List Value)
  deriving Inhabited

/-- The fields of a record; a look-up finds the first of a name. -/
abbrev Record := List (String × Value)

namespace Value

mutual

def same : Value → Value → Bool
  | .null, .null => true
  | .boolean a, .boolean b => decide (a = b)
  | .int32 a, .int32 b => decide (a = b)
  | .int64 a, .int64 b => decide (a = b)
  | .float a, .float b => decide (a = b)
  | .char a, .char b => decide (a = b)
  | .text a, .text b => decide (a = b)
  | .record fs, .record gs => sameFields fs gs
  | .list vs, .list ws => sameList vs ws
  | _, _ => false

def sameFields : List (String × Value) → List (String × Value) → Bool
  | [], [] => true
  | (n, v) :: fs, (m, w) :: gs => decide (n = m) && same v w && sameFields fs gs
  | _, _ => false

def sameList : List Value → List Value → Bool
  | [], [] => true
  | v :: vs, w :: ws => same v w && sameList vs ws
  | _, _ => false

end

mutual

theorem eq_of_same : (v w : Value) → same v w = true → v = w
  | .null, w, h | .boolean _, w, h | .int32 _, w, h | .int64 _, w, h | .float _, w, h
  | .char _, w, h | .text _, w, h => by cases w <;> simp_all [same]
  | .record fs, w, h => by
    cases w <;> simp only [same, Bool.false_eq_true] at h
    rw [eq_of_sameFields fs _ h]
  | .list vs, w, h => by
    cases w <;> simp only [same, Bool.false_eq_true] at h
    rw [eq_of_sameList vs _ h]

theorem eq_of_sameFields : (fs gs : List (String × Value)) → sameFields fs gs = true → fs = gs
  | [], gs, h => by cases gs <;> simp_all [sameFields]
  | (n, v) :: fs, gs, h => by
    match gs, h with
    | (m, w) :: gs, h =>
      simp only [sameFields, Bool.and_eq_true, decide_eq_true_eq] at h
      rw [h.1.1, eq_of_same v w h.1.2, eq_of_sameFields fs gs h.2]

theorem eq_of_sameList : (vs ws : List Value) → sameList vs ws = true → vs = ws
  | [], ws, h => by cases ws <;> simp_all [sameList]
  | v :: vs, ws, h => by
    match ws, h with
    | w :: ws, h =>
      simp only [sameList, Bool.and_eq_true] at h
      rw [eq_of_same v w h.1, eq_of_sameList vs ws h.2]

end

mutual

theorem same_self : (v : Value) → same v v = true
  | .null => rfl
  | .boolean _ | .int32 _ | .int64 _ | .float _ | .char _ | .text _ => by simp [same]
  | .record fs => by simp [same, sameFields_self fs]
  | .list vs => by simp [same, sameList_self vs]

theorem sameFields_self : (fs : List (String × Value)) → sameFields fs fs = true
  | [] => rfl
  | (_, v) :: fs => by simp [sameFields, same_self v, sameFields_self fs]

theorem sameList_self : (vs : List Value) → sameList vs vs = true
  | [] => rfl
  | v :: vs => by simp [sameList, same_self v, sameList_self vs]

end

instance : DecidableEq Value := fun v w =>
  decidable_of_iff (same v w = true) ⟨eq_of_same v w, fun h => h ▸ same_self v⟩

mutual

/-- The natural type; a list takes that of its first element. -/
def dataType : Value → DataType
  | .null => .null
  | .boolean _ => .boolean
  | .int32 _ => .int32
  | .int64 _ => .int64
  | .float _ => .float64
  | .char _ => .char
  | .text _ => .text
  | .record fields => .record (fieldTypes fields)
  | .list [] => .list .null
  | .list (v :: _) => .list (dataType v)

def fieldTypes : List (String × Value) → List (String × DataType)
  | [] => []
  | (name, v) :: rest => (name, dataType v) :: fieldTypes rest

end

mutual

def display : Value → String
  | .null => "NULL"
  | .boolean b => if b then "true" else "false"
  | .int32 n => Decimal.ofInt n.toInt
  | .int64 n => Decimal.ofInt n.toInt
  | .float x => Decimal.ofBinary64 x
  | .char c => String.singleton c
  | .text s => s
  | .record fields => "\x7b" ++ ",".intercalate (displayFields fields) ++ " \x7d"
  | .list values => "[" ++ ", ".intercalate (displayList values) ++ "]"

def displayFields : List (String × Value) → List String
  | [] => []
  | (name, v) :: rest => (" " ++ name ++ ": " ++ display v) :: displayFields rest

def displayList : List Value → List String
  | [] => []
  | v :: rest => display v :: displayList rest

end

def isNull : Value → Bool
  | .null => true
  | _ => false

def cannotConvert (v : Value) (type : DataType) : Error := .cannotConvert v.display type.display

/-- Accepts a boolean only. -/
def asBool : Value → Except Error Bool
  | .boolean b => .ok b
  | v => .error (v.cannotConvert .boolean)

/-- Accepts the integers only. -/
def asInt64 : Value → Except Error Int64
  | .int32 n => .ok n.toInt64
  | .int64 n => .ok n
  | v => .error (v.cannotConvert .int64)

/-- Accepts the numbers only. -/
def asFloat : Value → Except Error Binary64
  | .int32 n => .ok (.ofInt n.toInt)
  | .int64 n => .ok (.ofInt n.toInt)
  | .float x => .ok x
  | v => .error (v.cannotConvert .float64)

/-- Accepts a text only, not a single character. -/
def asText : Value → Except Error String
  | .text s => .ok s
  | v => .error (v.cannotConvert .text)

/-- The 32-bit integer value of a number in range. -/
def int32? (n : Int) : Option Int32 :=
  if Int32.minValue.toInt ≤ n ∧ n ≤ Int32.maxValue.toInt then some (.ofInt n) else none

/-- The 64-bit integer value of a number in range. -/
def int64? (n : Int) : Option Int64 :=
  if Int64.minValue.toInt ≤ n ∧ n ≤ Int64.maxValue.toInt then some (.ofInt n) else none

end Value

end Quarry
