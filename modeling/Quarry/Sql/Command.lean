import Quarry.Folding
import Quarry.Sql.Layout
/-!
Text of the commands that change a table. Their conditions and values read the bare columns of the
table.
-/
namespace Quarry.Sql

variable (style : Style) (t : Table)

/-- Deletes all rows. -/
def clearText : String := "DELETE FROM " ++ style.ident t.name

/-- The parameter and the body of a predicate over the entities of the table. -/
def commandLambda (predicate : Expr) : Except Error (Parameter × Expr) := do
  match ← predicate.foldLocal with
  | .lambda [p] body =>
    if p.type = .entity t.entity then return (p, body)
    else throw (.commandParameter t.name (DataType.entity t.entity).display p.type.display)
  | .lambda params _ => throw (.wrongArity "lambda" 1 params.length)
  | e => throw (.expectedLambda e.kind)

/-- The style in which the members of a parameter are the columns of the table. -/
def bareStyle (p : Parameter) : Style := { style with bare := some ⟨p.id, t⟩ }

def deleteText (predicate : Expr) : Except Error String := do
  let (p, body) ← commandLambda t predicate
  let condition ← predicateText (bareStyle style t p) body
  return clearText style t ++ "\nWHERE " ++ condition

/-- One assignment; the value may read the columns of the row. -/
def assignmentText : String × Expr → Except Error String
  | (name, value) => do
    let member ← t.member name
    let value ← value.foldLocal
    return style.ident member.name ++ " = " ++ (← format style value)

/-- Sets members on the rows that meet the predicate. -/
def updateText (assignments : List (String × Expr)) (predicate : Expr) : Except Error String := do
  let (p, body) ← commandLambda t predicate
  let bare := bareStyle style t p
  let set ← assignments.mapM (assignmentText bare t)
  if set.isEmpty then throw (.emptyUpdate t.name)
  let condition ← predicateText bare body
  return "UPDATE " ++ style.ident t.name ++ "\nSET " ++ ", ".intercalate set ++ "\nWHERE "
    ++ condition

end Quarry.Sql
