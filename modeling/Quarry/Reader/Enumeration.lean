import Quarry.Reader
/-!
Enumeration of readers. A nested projection is run once for each row that encloses it; how a bound
query is started, and what moving and releasing a cursor does, is left to an executor.
-/
namespace Quarry

/-- How bound queries are run. -/
structure Executor (σ : Type) where
  /-- Starts a bound query for the rows that enclose it, the nearest first. -/
  start : Projection Expr → List Row → Action σ Reader
  /-- What happens before a cursor moves to the next row. -/
  beforeRead : Action σ Unit
  /-- Releases a cursor. -/
  release : σ → σ

namespace Executor

variable {σ : Type} (X : Executor σ)

/-- How a nested projection is run for the row that a reader stands on. -/
abbrev Nested (σ : Type) := Reader → Projection Expr → Action σ Value

def rowAccess (nested : Nested σ) (r : Reader) : RowAccess σ where
  field ordinal := r.field ordinal
  outer depth ordinal := r.outerField depth ordinal
  subquery p := nested r p

/-- Moves a cursor on and builds the value of its row; there is none past the last row. -/
def readRow (nested : Nested σ) (r : Reader) (c : Cursor) : Action σ (Option (Value × Reader)) := do
  X.beforeRead
  let c := c.advance
  if c.current.isNone then return none
  else
    let r := { r with cursor := some c }
    let v ← r.materializer.run (rowAccess nested r)
    return some (v, r)

/-- The next item of a reader, if it has one. At the end and after a failure the cursor is
released. -/
def nextWith (nested : Nested σ) (r : Reader) :
    StateM σ (Option (Except Error Value) × Reader) := do
  match r.cursor with
  | none => return (none, r)
  | some c =>
    let finished := { r with cursor := none }
    match ← (X.readRow nested r c).run with
    | .ok (some (v, r)) => return (some (.ok v), r)
    | .ok none =>
      modify X.release
      return (none, finished)
    | .error e =>
      modify X.release
      return (some (.error e), finished)

/-- Releases the cursor of a reader that is given up. -/
def drop (r : Reader) : StateM σ Unit := do
  unless r.isFinished do modify X.release

/-- Converts up to `count` items; the first failure ends it. -/
def collectWith {α : Type} (nested : Nested σ) (convert : Value → Except Error α) :
    Nat → Reader → StateM σ (Except Error (List α))
  | 0, r => do
    X.drop r
    return .ok []
  | count + 1, r => do
    match ← X.nextWith nested r with
    | (none, _) => return .ok []
    | (some item, r) =>
      match item.bind convert with
      | .error e =>
        X.drop r
        return .error e
      | .ok a => return (← collectWith nested convert count r).map (a :: ·)

/-- Runs nested projections that stand at most `depth` deep one inside the other. -/
def nestedTo : Nat → Nested σ
  | 0 => fun _ _ => throw .nestedTooDeep
  | depth + 1 => fun r p => do
    let source ← r.specialize p.source
    let row ← r.snapshot
    let inner ← X.start { p with source } (row :: r.outer)
    let values ← ExceptT.mk (X.collectWith (nestedTo depth) .ok inner.stepsLeft inner)
    return .list values

/-- Runs a nested projection for the row that a reader stands on. -/
def subquery (r : Reader) (p : Projection Expr) : Action σ Value :=
  X.nestedTo (Expr.projection p).projectionDepth r p

/-- The next item of a reader, if it has one. -/
def next (r : Reader) : StateM σ (Option (Except Error Value) × Reader) :=
  X.nextWith (X.nestedTo r.materializer.nesting) r

/-- Reads and converts all items that are left. -/
def collect {α : Type} (convert : Value → Except Error α) (r : Reader) :
    StateM σ (Except Error (List α)) :=
  X.collectWith (X.nestedTo r.materializer.nesting) convert r.stepsLeft r

end Executor

end Quarry
