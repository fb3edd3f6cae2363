import Quarry.Text.Blank
import Quarry.Value
/-!
Casts of values to types. Null casts to every type, and a cast to the untyped type changes nothing.
-/
namespace Quarry.Value

def castBoolean (b : Bool) : DataType → Except Error Value
  | .null | .boolean => .ok (.boolean b)
  | .int32 => .ok (.int32 (if b then 1 else 0))
  | .int64 => .ok (.int64 (if b then 1 else 0))
  | .float64 => .ok (.float (.ofInt (if b then 1 else 0)))
  | .text => .ok (.text (display (.boolean b)))
  | t => .error (cannotConvert (.boolean b) t)

def castInt32 (n : Int32) : DataType → Except Error Value
  | .null | .int32 => .ok (.int32 n)
  | .boolean => .ok (.boolean (n ≠ 0))
  | .int64 => .ok (.int64 n.toInt64)
  | .float64 => .ok (.float (.ofInt n.toInt))
  | .text => .ok (.text (display (.int32 n)))
  | t => .error (cannotConvert (.int32 n) t)

/-- Narrows a 64-bit integer; the error tells on which side it is out of range. -/
def narrow (n : Int64) : Except Error Int32 :=
  match int32? n.toInt with
  | some m => .ok m
  | none => .error (if n.toInt < 0 then .integerTooSmall else .integerTooLarge)

def castInt64 (n : Int64) : DataType → Except Error Value
  | .null | .int64 => .ok (.int64 n)
  | .boolean => .ok (.boolean (n ≠ 0))
  | .int32 => (narrow n).map .int32
  | .float64 => .ok (.float (.ofInt n.toInt))
  | .text => .ok (.text (display (.int64 n)))
  | t => .error (cannotConvert (.int64 n) t)

/-- The integer equal to a float. The float `2 ^ 63`, one above the range, gives the greatest
integer. -/
def wholeNumber? (x : Binary64) : Option Int64 := do
  let n ← (← Scaled.ofBinary64? x).toInt?
  if Int64.minValue.toInt ≤ n ∧ n ≤ Int64.maxValue.toInt + 1 then
    some (.ofInt (min n Int64.maxValue.toInt))
  else none

def castFloat (x : Binary64) : DataType → Except Error Value
  | .null | .float64 => .ok (.float x)
  | .boolean => .ok (.boolean (x.toFloat != 0))
  | .int32 =>
    match wholeNumber? x with
    | none => .error (cannotConvert (.float x) .int32)
    | some n =>
      match int32? n.toInt with
      | some m => .ok (.int32 m)
      | none => .error (cannotConvert (.int64 n) .int32)
  | .int64 =>
    match wholeNumber? x with
    | none => .error (cannotConvert (.float x) .int64)
    | some n => .ok (.int64 n)
  | .text => .ok (.text (display (.float x)))
  | t => .error (cannotConvert (.float x) t)

def castChar (c : Char) : DataType → Except Error Value
  | .null | .char => .ok (.char c)
  | .text => .ok (.text (display (.char c)))
  | t => .error (cannotConvert (.char c) t)

/-- The truth value that a word names. -/
def truthOf? : String → Option Bool
  | "1" | "true" | "TRUE" => some true
  | "0" | "false" | "FALSE" => some false
  | _ => none

/-- Reads a text as a value of the given type; blanks around a number or truth value are ignored. -/
def parse? (s : String) : DataType → Option Value
  | .null | .text => some (.text s)
  | .boolean => (truthOf? (String.ofList (Text.trim s.toList))).map .boolean
  | .int32 => ((Decimal.toInt? (Text.trim s.toList)).bind int32?).map .int32
  | .int64 => ((Decimal.toInt? (Text.trim s.toList)).bind int64?).map .int64
  | .float64 => (Decimal.toBinary64? (Text.trim s.toList)).map .float
  | .char => match s.toList with
    | [c] => some (.char c)
    | _ => none
  | _ => none

def castText (s : String) (t : DataType) : Except Error Value :=
  match parse? s t with
  | some v => .ok v
  | none => .error (cannotConvert (.text s) t)

mutual

def cast : Value → DataType → Except Error Value
  | .null, _ => .ok .null
  | .boolean b, t => castBoolean b t
  | .int32 n, t => castInt32 n t
  | .int64 n, t => castInt64 n t
  | .float x, t => castFloat x t
  | .char c, t => castChar c t
  | .text s, t => castText s t
  | .record fields, t =>
    match t with
    | .null | .entity _ => .ok (.record fields)
    | .record types => (castFields types fields).map .record
    | t => .error (cannotConvert (.record fields) t)
  | .list values, t =>
    match t with
    | .null => .ok (.list values)
    | .list element | .query element => (castList element values).map .list
    | t => .error (cannotConvert (.list values) t)

/-- Casts each field to the first type of its name; fields that no type names are kept. -/
def castFields (types : List (String × DataType)) :
    List (String × Value) → Except Error (List (String × Value))
  | [] => .ok []
  | (name, v) :: rest => do
    let v ← match types.lookup name with
      | some t => cast v t
      | none => .ok v
    return (name, v) :: (← castFields types rest)

def castList (element : DataType) : List Value → Except Error (List Value)
  | [] => .ok []
  | v :: rest => do
    let v ← cast v element
    return v :: (← castList element rest)

end

end Quarry.Value
