import Quarry.Value.Cast
/-!
Conversion of values to typed results, and fields taken out of records.
-/
namespace Quarry

/-- Types that a materialized value can be converted to. -/
class OfValue (α : Type) where
  ofValue : Value → Except Error α

/-- Casts to a scalar type and takes the content; null has none. -/
def scalarOf {α : Type} (type : DataType) (content? : Value → Option α) (v : Value) :
    Except Error α := do
  let v ← v.cast type
  match content? v, v with
  | some content, _ => .ok content
  | none, .null => .error (.unexpectedNull type.display)
  | none, v => .error (.unexpectedAfterCast type.display v.display)

instance : OfValue Bool where
  ofValue := scalarOf .boolean fun | .boolean b => some b | _ => none

instance : OfValue Int32 where
  ofValue := scalarOf .int32 fun | .int32 n => some n | _ => none

instance : OfValue Int64 where
  ofValue := scalarOf .int64 fun | .int64 n => some n | _ => none

instance : OfValue Binary64 where
  ofValue := scalarOf .float64 fun | .float x => some x | _ => none

instance : OfValue Char where
  ofValue := scalarOf .char fun | .char c => some c | _ => none

instance : OfValue String where
  ofValue := scalarOf .text fun | .text s => some s | _ => none

instance : OfValue Value where
  ofValue := .ok

/-- Accepts a record only. -/
def Record.ofValue : Value → Except Error Record
  | .record fields => .ok fields
  | v => .error (.expectedRecord v.display)

instance : OfValue Record where
  ofValue := Record.ofValue

/-- Null becomes `none`. -/
instance {α : Type} [OfValue α] : OfValue (Option α) where
  ofValue
    | .null => .ok none
    | v => (OfValue.ofValue v).map some

/-- Accepts a list and converts each element; the first failure is the answer. -/
def listOfValue {α : Type} [OfValue α] : Value → Except Error (List α)
  | .list values => values.mapM OfValue.ofValue
  | v => .error (.expectedList v.display)

instance {α : Type} [OfValue α] : OfValue (List α) where
  ofValue := listOfValue

namespace Record

def get? (r : Record) (name : String) : Option Value := r.lookup name

def push (r : Record) (name : String) (v : Value) : Record := r ++ [(name, v)]

/-- Empties the first field of a name; the answer is what it held. -/
def extract (name : String) : Record → Option (Value × Record)
  | [] => none
  | (field, v) :: rest =>
    if field = name then some (v, (field, .null) :: rest)
    else (extract name rest).map fun (found, rest) => (found, (field, v) :: rest)

/-- Takes a field out and converts it; null stays in its place, also if the conversion fails. -/
def take {α : Type} [OfValue α] (r : Record) (name : String) : Except Error α × Record :=
  match r.extract name with
  | some (v, rest) => (OfValue.ofValue v, rest)
  | none => (.error (.missingField name), r)

end Record

end Quarry
