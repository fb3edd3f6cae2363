import Quarry.Evaluation
import Quarry.Expr.Typing
import Quarry.Nomination
import Quarry.Value.Cast
/-!
Folding: the largest subtrees that have a value are replaced by it.
-/
namespace Quarry.Expr

/-- The value of a subtree as a constant of its static type, or else of its natural type. -/
def toConstant (e : Expr) : Except Error Expr := do
  let v ← e.evaluate
  let type := e.staticType?.getD v.dataType
  return .constant (← v.cast type) type

/-- Constants stay as they are. -/
def foldNode : Expr → Except Error Expr
  | .constant v t => .ok (.constant v t)
  | e => e.toConstant

/-- Folds every largest subtree whose nodes all meet the predicate. -/
def foldWith (isEvaluable : Expr → Bool) (e : Expr) : Except Error Expr :=
  (Nomination.compute { accepts := isEvaluable } e).replaceTopmost foldNode e

def foldLocal : Expr → Except Error Expr := foldWith isLocal

end Quarry.Expr
