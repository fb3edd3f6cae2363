import Quarry.Expr.Display
/-!
Evaluation of expressions that depend on no row, under an assignment of values to parameters.
-/
namespace Quarry

/-- The member of a record value; null has null members. -/
def Value.member (name : String) : Value → Except Error Value
  | .record fields =>
    match fields.lookup name with
    | some v => .ok v
    | none => .error (.missingRecordMember name)
  | .null => .ok .null
  | v => .error (.memberOfNonRecord name v.display)

namespace Expr

def notEvaluable (e : Expr) : Error := .notEvaluable e.kind e.display

variable (values : Parameter → Option Value)

mutual

/-- The value of an expression under an assignment of values to parameters. -/
def evaluateWith : Expr → Except Error Value
  | .constant v _ => .ok v
  | .captured _ v => .ok v
  | .parameter p =>
    match values p with
    | some v => .ok v
    | none => .error (notEvaluable (.parameter p))
  | .member target name => do (← evaluateWith target).member name
  | .unary op e => do Value.applyUnary op (← evaluateWith e)
  | .binary op l r => do
    let left ← evaluateWith l
    let right ← evaluateWith r
    Value.applyBinary op left right
  | .construct _ members => do return .record (← evaluateMembers members)
  | .call .charAt receiver args =>
    match receiver, args with
    | some string, [index] => do
      let s ← evaluateWith string
      let i ← evaluateWith index
      s.charAt i
    | _, _ => .error .characterIndexArity
  | e => .error e.notEvaluable

def evaluateMembers : List (String × Expr) → Except Error (List (String × Value))
  | [] => .ok []
  | (name, e) :: rest => do
    let v ← evaluateWith e
    return (name, v) :: (← evaluateMembers rest)

end

/-- The value of an expression that depends on no parameter and no row. -/
def evaluate : Expr → Except Error Value := evaluateWith fun _ => none

/-- What has a value before binding: all but parameters and what only a query gives a value. -/
def isLocal : Expr → Bool
  | .parameter _ | .collection _ | .lambda .. | .outerRow _ => false
  | _ => true

/-- What has a value inside a query that is about to run, where the bound tree must survive. -/
def isLocalInSubquery (e : Expr) : Bool := !e.isBound && e.isLocal

end Expr

end Quarry
