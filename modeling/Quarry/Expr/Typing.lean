import Quarry.Expr
/-!
Static types of expressions, as far as they are known without the catalog.
-/
namespace Quarry

def Shape.of : Shape → DataType → DataType
  | .queryable => .query
  | .list => .list

def Method.resultType? : Method → Option DataType
  | .charAt => some .char
  | .existence | .absence => some .boolean
  | _ => none

/-- The type of an arithmetic operation; a text on either side of a sum makes it a text. -/
def Arithmetic.resultType? (op : Arithmetic) (left right : DataType) : Option DataType :=
  if op = .add && (left.isText || right.isText) then some .text else left.promote? right

namespace Expr

def staticType? : Expr → Option DataType
  | .constant _ type => some type
  | .captured _ v => some v.dataType
  | .parameter p => some p.type
  | .collection entity => some (.query (.entity entity))
  | .member target name =>
    match staticType? target with
    | some (.record fields) => fields.lookup name
    | _ => none
  | .unary .not _ => some .boolean
  | .unary .negate e => staticType? e
  | .binary (.logical _) _ _ | .binary (.comparison _) _ _ => some .boolean
  | .binary (.arithmetic op) l r => do op.resultType? (← staticType? l) (← staticType? r)
  | .call method .. => method.resultType?
  | .lambda .. => none
  | .construct type _ => some type
  | .outerRow r => some r.type
  | .table t => some (.query (.entity t.entity))
  | .column c => some c.type
  | .select _ | .join .. => none
  | .projection ⟨_, projector, shape⟩ => some (shape.of ((staticType? projector).getD .null))
  | .function f => some f.type
  | .subquery .. => some .boolean

end Expr

end Quarry
