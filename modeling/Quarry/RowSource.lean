import Quarry.Materializer
/-!
Sources of rows: they answer the text of a command with rows, which a cursor walks forward.
-/
namespace Quarry

abbrev Row := List Value

/-- A forward walk over the rows of one command. -/
structure Cursor where
  /-- The number of fields of the first row. -/
  width : Nat
  current : Option Row
  rest : List Row

namespace Cursor

/-- A cursor before the first row. -/
def ofRows (rows : List Row) : Cursor := ⟨(rows.head?.map List.length).getD 0, none, rows⟩

/-- Moves to the next row; past the last there is no current row. -/
def advance (c : Cursor) : Cursor :=
  match c.rest with
  | [] => { c with current := none }
  | row :: rest => { c with current := some row, rest }

def fieldCount (c : Cursor) : Nat :=
  match c.current with
  | some row => row.length
  | none => c.width

def field (c : Cursor) (ordinal : Nat) : Except Error Value :=
  match c.current with
  | none => .error .cursorNotPositioned
  | some row =>
    match row[ordinal]? with
    | some v => .ok v
    | none => .error (.ordinalOutOfRange ordinal row.length)

def isNull (c : Cursor) (ordinal : Nat) : Except Error Bool := (c.field ordinal).map Value.isNull

end Cursor

/-- A source of rows with a state of its own. Every answer is an open cursor until it is closed. -/
structure RowSource (σ : Type) where
  execute : String → Action σ (List Row)
  /-- What a cursor does before it moves to the next row. -/
  beforeRead : Action σ Unit
  close : σ → σ

end Quarry
