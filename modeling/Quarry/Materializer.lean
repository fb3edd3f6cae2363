import Quarry.Expr.Display
import Quarry.Expr.Traversal
import Quarry.Value.Conversion
/-!
Materializers: projectors compiled to read one row and build one value from it.
-/
namespace Quarry

/-- A computation that may fail; a failure keeps the state reached so far. -/
abbrev Action (σ α : Type) := ExceptT Error (StateM σ) α

/-- What a materializer reads a row through. -/
structure RowAccess (σ : Type) where
  /-- A field of the current row. -/
  field : Nat → Action σ Value
  /-- A field of an enclosing row, by depth and ordinal. -/
  outer : Nat → Nat → Action σ Value
  /-- All values of a nested projection for the current row, as a list. -/
  subquery : Projection Expr → Action σ Value

inductive Materializer where
  | column (ordinal : Nat) (type : DataType)
  | constant (value : Value)
  | record (members : List (String × Materializer))
  | member (target : Materializer) (name : String)
  | unary (op : UnaryOperator) (operand : Materializer)
  | binary (op : BinaryOperator) (left right : Materializer)
  | outer (depth ordinal : Nat) (type : DataType)
  | subquery (p : Projection Expr)
  deriving Inhabited

namespace Materializer

/-! Building -/

/-- A column of the row at `label` becomes a read of the nearest enclosing row, and rows further out
move one level away. -/
def correlateNode (label : String) : Expr → Option Expr
  | .column c => if c.label = label then some (.outerRow ⟨0, c.ordinal, c.type⟩) else none
  | .outerRow r => some (.outerRow { r with depth := r.depth + 1 })
  | _ => none

/-- A nested projection as it is seen from inside, where the current row encloses it. -/
def correlate (label : String) (p : Projection Expr) : Projection Expr :=
  Id.run (Expr.replaceProjectionM (fun e => pure (correlateNode label e)) p)

mutual

/-- Compiles a projector over the rows of the select at `label`. -/
def ofExpr (label : String) : Expr → Except Error Materializer
  | .column c =>
    if c.label = label then .ok (.column c.ordinal c.type)
    else .error (.foreignColumn c.label c.name label)
  | .constant v _ => .ok (.constant v)
  | .construct _ members => do return .record (← ofMembers label members)
  | .member target name => do return .member (← ofExpr label target) name
  | .unary op e => do return .unary op (← ofExpr label e)
  | .binary op l r => do
    let left ← ofExpr label l
    let right ← ofExpr label r
    return .binary op left right
  | .outerRow r => .ok (.outer r.depth r.ordinal r.type)
  | .projection p => .ok (.subquery (correlate label p))
  | e => .error (.notMaterializable e.kind e.display)

def ofMembers (label : String) :
    List (String × Expr) → Except Error (List (String × Materializer))
  | [] => .ok []
  | (name, e) :: rest => do
    let m ← ofExpr label e
    return (name, m) :: (← ofMembers label rest)

end

def build (p : Projection Expr) : Except Error Materializer := ofExpr p.source.label p.projector

/-! Running -/

/-- Takes a member out of a built record; null has null members. -/
def takeMember (name : String) : Value → Except Error Value
  | .record fields => (Record.take fields name).1
  | .null => .ok .null
  | v => .error (.memberOfNonRecord name v.display)

variable {σ : Type}

mutual

def run (row : RowAccess σ) : Materializer → Action σ Value
  | .column ordinal type => do (← row.field ordinal).cast type
  | .constant v => pure v
  | .record members => do return .record (← runMembers row members)
  | .member target name => do takeMember name (← run row target)
  | .unary op e => do Value.applyUnary op (← run row e)
  | .binary op l r => do
    let left ← run row l
    let right ← run row r
    Value.applyBinary op left right
  | .outer depth ordinal type => do (← row.outer depth ordinal).cast type
  | .subquery p => row.subquery p

def runMembers (row : RowAccess σ) :
    List (String × Materializer) → Action σ (List (String × Value))
  | [] => pure []
  | (name, m) :: rest => do
    let v ← run row m
    return (name, v) :: (← runMembers row rest)

end

mutual

/-- How deep the nested projections stand one inside the other. -/
def nesting : Materializer → Nat
  | .column .. | .constant _ | .outer .. => 0
  | .record members => nestingMembers members
  | .member target _ => nesting target
  | .unary _ e => nesting e
  | .binary _ l r => max (nesting l) (nesting r)
  | .subquery p => (Expr.projection p).projectionDepth

def nestingMembers : List (String × Materializer) → Nat
  | [] => 0
  | (_, m) :: rest => max (nesting m) (nestingMembers rest)

end

end Materializer

end Quarry
