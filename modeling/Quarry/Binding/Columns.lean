import Quarry.Expr.Typing
import Quarry.Nomination
/-!
Projection of an expression through a new select: every column that it needs from the sources of
the select becomes an output column, and the expression reads those instead.
-/
namespace Quarry.Binding

/-- The `n`-th name of the sequence `base, base1, base2, …`. -/
def suffixed (base : String) : Nat → String
  | 0 => base
  | n => base ++ toString n

/-- The first name of the sequence that is not used; one of the first `used.length + 1` is free. -/
def freshName (used : List String) (base : String) : String :=
  (((List.range (used.length + 1)).map (suffixed base)).find? (· ∉ used)).getD base

/-- The columns declared so far, where each moved column went, and the number of named results. -/
structure Declarations where
  columns : List (String × Expr) := []
  moved : List (Column × Column) := []
  computed : Nat := 0

namespace Declarations

/-- Declares an output column of the select at `label`; the answer refers to it. -/
def declare (d : Declarations) (label base : String) (type : DataType) (e : Expr) :
    Column × Declarations :=
  let name := freshName (d.columns.map (·.1)) base
  (⟨label, name, d.columns.length, type⟩, { d with columns := d.columns ++ [(name, e)] })

end Declarations

/-- Moves a column of one of the sources into the select, once; other columns are left alone. -/
def moveColumn (label : String) (sources : List String) (c : Column) :
    StateM Declarations Column := fun d =>
  match d.moved.lookup c with
  | some column => (column, d)
  | none =>
    if c.label ∈ sources then
      let (column, d) := d.declare label c.name c.type (.column c)
      (column, { d with moved := d.moved ++ [(c, column)] })
    else (c, d)

/-- Makes a result of the query text an output column of its own. -/
def moveComputed (label : String) (e : Expr) : StateM Declarations Column := fun d =>
  let base := "c" ++ toString d.computed
  { d with computed := d.computed + 1 }.declare label base (e.staticType?.getD .null) e

def moveNode (label : String) (sources : List String) : Expr → StateM Declarations Expr
  | .column c => do return .column (← moveColumn label sources c)
  | e => do return .column (← moveComputed label e)

/-- Columns are moved one by one; functions and existence tests are moved as a whole, but not those
of a nested projection, which belong to its own select. -/
def columnRule : NominationRule where
  accepts
    | .column _ => true
    | _ => false
  always
    | .function _ | .subquery .. => true
    | _ => false
  opensScope
    | .projection _ => true
    | _ => false

/-- The expression over `sources` as one over the columns of a select at `label`; the second
part of the answer lists those columns. -/
def projectColumns (e : Expr) (label : String) (sources : List String) :
    Expr × List (String × Expr) :=
  let (e, d) := ((Nomination.compute columnRule e).replaceTopmost (moveNode label sources) e).run {}
  (e, d.columns)

end Quarry.Binding
