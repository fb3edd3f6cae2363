import Quarry.Expr
/-!
Composed queries as expressions.
-/
namespace Quarry.Query

/-- All entities of a name. -/
def ofEntity (entity : String) : Expr := .collection entity

/-- One result for each element. -/
def select (source selector : Expr) : Expr := .call .select none [source, selector]

/-- The elements that meet a predicate. -/
def filter (source predicate : Expr) : Expr := .call .filter none [source, predicate]

/-- The results of all pairs with equal keys. -/
def join (outer inner outerKey innerKey result : Expr) : Expr :=
  .call .join none [outer, inner, outerKey, innerKey, result]

/-- A query as a nested list. -/
def toList (source : Expr) : Expr := .call .toList none [source]

/-- Whether some element meets a predicate. -/
def existence (source predicate : Expr) : Expr := .call .existence (some source) [predicate]

/-- Whether no element meets a predicate. -/
def absence (source predicate : Expr) : Expr := .call .absence (some source) [predicate]

end Quarry.Query
