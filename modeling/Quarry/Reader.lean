import Quarry.Folding
import Quarry.RowSource
/-!
Readers: a cursor whose rows go through a materializer. A reader of a nested projection also knows
the rows that enclose it, the nearest first.
-/
namespace Quarry

structure Reader where
  /-- The cursor, until it has been released. -/
  cursor : Option Cursor
  materializer : Materializer
  outer : List Row := []

namespace Reader

def isFinished (r : Reader) : Bool := r.cursor.isNone

/-- One more than the number of rows left, so that counting down meets the end. -/
def stepsLeft (r : Reader) : Nat := (r.cursor.map (·.rest.length)).getD 0 + 1

def field (r : Reader) (ordinal : Nat) : Except Error Value :=
  match r.cursor with
  | none => .error .readerNotPositioned
  | some c =>
    if ordinal < c.fieldCount then c.field ordinal
    else .error (.ordinalOutOfRange ordinal c.fieldCount)

def outerField (r : Reader) (depth ordinal : Nat) : Except Error Value :=
  match r.outer[depth]? with
  | none => .error (.noEnclosingRow depth)
  | some row =>
    match row[ordinal]? with
    | some v => .ok v
    | none => .error (.ordinalOutOfRange ordinal row.length)

/-- All fields of the current row. -/
def snapshot (r : Reader) : Except Error Row :=
  match r.cursor with
  | none => .error .readerNotPositioned
  | some c => (List.range c.fieldCount).mapM r.field

/-- The field that an outer row reference of a nested projection denotes; for the projection the
current row is the nearest enclosing one. -/
def enclosingField (r : Reader) : OuterRow → Except Error Value
  | ⟨0, ordinal, _⟩ => r.field ordinal
  | ⟨depth + 1, ordinal, _⟩ => r.outerField depth ordinal

/-- The value that takes the place of an outer row reference. -/
def substituteNode (r : Reader) : Expr → Except Error (Option Expr)
  | .outerRow row => do
    let v ← (← r.enclosingField row).cast row.type
    return some (.constant v row.type)
  | _ => .ok none

/-- The select of a nested projection for the current row: outer row references become constants,
and what then has a value is folded. -/
def specialize (r : Reader) (s : Select Expr) : Except Error (Select Expr) := do
  let s ← Expr.replaceSelectM r.substituteNode s
  match ← (Expr.select s).foldWith Expr.isLocalInSubquery with
  | .select s => return s
  | e => throw (.expectedSelect e.kind)

end Reader

end Quarry
