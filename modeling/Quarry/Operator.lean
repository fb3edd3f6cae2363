import Quarry.Value
/-!
Operators and their application to values. Null spreads through every operator but the logical ones
and the two tests for equality; integers are combined exactly and checked against their width.
-/
namespace Quarry

inductive UnaryOperator where
  | not
  | negate
  deriving DecidableEq, Repr

inductive Logical where
  | and
  | or
  deriving DecidableEq, Repr

inductive Comparison where
  | eq
  | ne
  | lt
  | le
  | gt
  | ge
  deriving DecidableEq, Repr

inductive Arithmetic where
  | add
  | sub
  | mul
  | div
  | mod
  deriving DecidableEq, Repr

inductive BinaryOperator where
  | logical (op : Logical)
  | comparison (op : Comparison)
  | arithmetic (op : Arithmetic)
  deriving DecidableEq, Repr

def UnaryOperator.symbol : UnaryOperator → String
  | .not => "!"
  | .negate => "-"

def Logical.symbol : Logical → String
  | .and => "&&"
  | .or => "||"

def Comparison.symbol : Comparison → String
  | .eq => "=="
  | .ne => "!="
  | .lt => "<"
  | .le => "<="
  | .gt => ">"
  | .ge => ">="

def Arithmetic.symbol : Arithmetic → String
  | .add => "+"
  | .sub => "-"
  | .mul => "*"
  | .div => "/"
  | .mod => "%"

def BinaryOperator.symbol : BinaryOperator → String
  | .logical op => op.symbol
  | .comparison op => op.symbol
  | .arithmetic op => op.symbol

def Logical.holds : Logical → Bool → Bool → Bool
  | .and => (· && ·)
  | .or => (· || ·)

def Comparison.holds : Comparison → Ordering → Bool
  | .eq => Ordering.isEq
  | .ne => Ordering.isNe
  | .lt => Ordering.isLT
  | .le => Ordering.isLE
  | .gt => Ordering.isGT
  | .ge => Ordering.isGE

namespace Value

def isText : Value → Bool
  | .text _ | .char _ => true
  | _ => false

/-- Negates an integer whose width is given by `fit?`. -/
def negateInt {α : Type} (fit? : Int → Option α) (n : Int) : Except Error α :=
  match fit? (-n) with
  | some m => .ok m
  | none => .error .negationOverflow

def applyUnary : UnaryOperator → Value → Except Error Value
  | _, .null => .ok .null
  | .not, .boolean b => .ok (.boolean !b)
  | .negate, .int32 n => (negateInt int32? n.toInt).map .int32
  | .negate, .int64 n => (negateInt int64? n.toInt).map .int64
  | .negate, .float x => .ok (.float (-x))
  | op, v => .error (.unaryMismatch op.symbol v.display)

def compareFloats (x y : Binary64) : Except Error Ordering :=
  if x.toFloat < y.toFloat then .ok .lt
  else if x.toFloat == y.toFloat then .ok .eq
  else if y.toFloat < x.toFloat then .ok .gt
  else .error .notComparableNaN

/-- Orders booleans, numbers and texts among themselves; a float on one side makes both floats. -/
def compare : Value → Value → Except Error Ordering
  | .boolean a, .boolean b => .ok (Ord.compare a b)
  | .float x, w => do compareFloats x (← w.asFloat)
  | v, .float y => do compareFloats (← v.asFloat) y
  | .int32 a, .int32 b => .ok (Ord.compare a.toInt b.toInt)
  | .int32 a, .int64 b => .ok (Ord.compare a.toInt b.toInt)
  | .int64 a, .int32 b => .ok (Ord.compare a.toInt b.toInt)
  | .int64 a, .int64 b => .ok (Ord.compare a.toInt b.toInt)
  | v, w =>
    if v.isText && w.isText then .ok (Ord.compare v.display w.display)
    else .error (.notComparable v.display w.display)

/-- Combines integers of the width given by `fit?`. Where the quotient does not fit, division and
remainder fail as they do for a zero divisor. -/
def combineInts {α : Type} (fit? : Int → Option α) (op : Arithmetic) (a b : Int) : Except Error α :=
  let checked (n : Int) (failure : Error) : Except Error α :=
    match fit? n with
    | some result => .ok result
    | none => .error failure
  match op with
  | .add => checked (a + b) (.integerOverflow op.symbol)
  | .sub => checked (a - b) (.integerOverflow op.symbol)
  | .mul => checked (a * b) (.integerOverflow op.symbol)
  | .div => if b = 0 then .error .divisionByZero else checked (a.tdiv b) .divisionByZero
  | .mod =>
    if b = 0 ∨ (fit? (a.tdiv b)).isNone then .error .divisionByZero
    else checked (a.tmod b) .divisionByZero

def combineFloats : Arithmetic → Binary64 → Binary64 → Binary64
  | .add => (· + ·)
  | .sub => (· - ·)
  | .mul => (· * ·)
  | .div => (· / ·)
  | .mod => (· % ·)

def arithmetic (op : Arithmetic) : Value → Value → Except Error Value
  | .int32 a, .int32 b => (combineInts int32? op a.toInt b.toInt).map .int32
  | .int32 a, .int64 b => (combineInts int64? op a.toInt b.toInt).map .int64
  | .int64 a, .int32 b => (combineInts int64? op a.toInt b.toInt).map .int64
  | .int64 a, .int64 b => (combineInts int64? op a.toInt b.toInt).map .int64
  | .int32 a, .float y => .ok (.float (combineFloats op (.ofInt a.toInt) y))
  | .int64 a, .float y => .ok (.float (combineFloats op (.ofInt a.toInt) y))
  | .float x, w => do return .float (combineFloats op x (← w.asFloat))
  | v, w => .error (.binaryMismatch op.symbol v.display w.display)

/-- Null equals null only. -/
def compareNulls (op : Comparison) (bothNull : Bool) : Value :=
  match op with
  | .eq => .boolean bothNull
  | .ne => .boolean !bothNull
  | _ => .null

def applyBinary (op : BinaryOperator) (left right : Value) : Except Error Value :=
  match op with
  | .logical op => do
    let l ← left.asBool
    let r ← right.asBool
    return .boolean (op.holds l r)
  | .comparison op =>
    if left.isNull || right.isNull then .ok (compareNulls op (left.isNull && right.isNull))
    else do return .boolean (op.holds (← left.compare right))
  | .arithmetic op =>
    if left.isNull || right.isNull then .ok .null
    else if op = .add && (left.isText || right.isText) then
      .ok (.text (left.display ++ right.display))
    else arithmetic op left right

/-- The character at a position counted from zero. -/
def charAt (string index : Value) : Except Error Value :=
  if string.isNull || index.isNull then .ok .null
  else do
    let i ← index.asInt64
    let s ← string.asText
    let found := if i.toInt < 0 then none else s.toList[i.toInt.toNat]?
    match found with
    | some c => return .char c
    | none => throw (.characterIndexOutOfRange (Decimal.ofInt i.toInt) s)

end Value

end Quarry
