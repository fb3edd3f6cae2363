import Quarry.RowSource
/-!
Rows answered from memory. A command is looked up by its exact text first and is then handed to the
fallback. Every command is recorded, and so is the number of open cursors.
-/
namespace Quarry

structure Memory where
  responses : List (String × List Row) := []
  fallback : String → Option (List Row) := fun _ => none
  /-- All commands so far, in order. -/
  executed : List String := []
  openCursors : Nat := 0
  /-- The number of reads so far. -/
  reads : Nat := 0
  /-- The read that fails, counted from zero. -/
  faultAt : Option Nat := none

namespace Memory

def contains (part : List Char) : List Char → Bool
  | [] => part.isEmpty
  | c :: rest => part.isPrefixOf (c :: rest) || contains part rest

/-- The answer of the first rule whose text occurs in the command. -/
def byRules (rules : List (String × Option (List Row))) (command : String) : Option (List Row) :=
  ((rules.find? fun rule => contains rule.1.toList command.toList).map (·.2)).getD none

/-- Sets the answer to a command, in place of an earlier one. -/
def respond (m : Memory) (command : String) (rows : List Row) : Memory :=
  { m with responses := (command, rows) :: m.responses.filter (·.1 ≠ command) }

def answer? (m : Memory) (command : String) : Option (List Row) :=
  (m.responses.lookup command).orElse fun _ => m.fallback command

def execute (command : String) : Action Memory (List Row) := do
  modify fun m => { m with executed := m.executed ++ [command] }
  match (← get).answer? command with
  | some rows =>
    modify fun m => { m with openCursors := m.openCursors + 1 }
    return rows
  | none => throw (.noResponse command)

theorem execute_run (command : String) (m : Memory) :
    (execute command).run.run m =
      let m := { m with executed := m.executed ++ [command] }
      match m.answer? command with
      | some rows => (.ok rows, { m with openCursors := m.openCursors + 1 })
      | none => (.error (.noResponse command), m) := by
  let rest (answer : Option (List Row)) : Action Memory (List Row) := do
    match answer with
    | some rows =>
      modify fun m => { m with openCursors := m.openCursors + 1 }
      return rows
    | none => throw (Error.noResponse command)
  let m' := { m with executed := m.executed ++ [command] }
  show (rest (m'.answer? command)).run.run m' = _
  dsimp only
  cases m'.answer? command <;> rfl

def beforeRead : Action Memory Unit := do
  let m ← get
  set { m with reads := m.reads + 1 }
  if m.faultAt = some m.reads then throw .readFailed

theorem beforeRead_run (m : Memory) :
    beforeRead.run.run m =
      (if m.faultAt = some m.reads then .error .readFailed else .ok (),
        { m with reads := m.reads + 1 }) := by
  show (if m.faultAt = some m.reads then throw Error.readFailed
    else (pure () : Action Memory Unit)).run.run { m with reads := m.reads + 1 } = _
  split <;> rfl

def close (m : Memory) : Memory := { m with openCursors := m.openCursors - 1 }

def source : RowSource Memory := ⟨execute, beforeRead, close⟩

end Memory

end Quarry
