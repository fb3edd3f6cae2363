import Quarry.Sql.Scalar
/-!
Text of selects, one clause a line. A select inside another stands one level deeper, and so does
the condition of a join.
-/
namespace Quarry.Sql

/-- Text that is written at a running depth of nesting. -/
abbrev Layout := StateT Nat (Except Error)

inductive Indentation where
  | same
  | inner
  | outer

def Indentation.apply : Indentation → Nat → Nat
  | .same, depth => depth
  | .inner, depth => depth + 1
  | .outer, depth => depth - 1

variable (style : Style)

/-- Changes the depth and begins a line there. -/
def newline (indentation : Indentation) : Layout String := do
  modify indentation.apply
  return "\n" ++ String.ofList (List.replicate ((← get) * style.indentWidth) ' ')

/-- A column of the same name needs no second one. -/
def declarationText : String × Expr → Except Error String
  | (name, e) => do
    let text ← scalarText style e
    match e with
    | .column c => return if c.name = name then text else text ++ " AS " ++ style.ident name
    | _ => return text ++ " AS " ++ style.ident name

/-- A select without columns still yields a row for each row of its source. -/
def columnsText (columns : List (String × Expr)) : Except Error String := do
  let texts ← columns.mapM (declarationText style)
  return if texts.isEmpty then "NULL" else ", ".intercalate texts

def filterText : Option Expr → Layout String
  | none => pure ""
  | some e => do
    let line ← newline style .same
    return line ++ "WHERE " ++ (← predicateText style e)

/-- The condition's line stands one level deeper. -/
def conditionText : Option Expr → Layout String
  | none => pure ""
  | some e => do
    let line ← newline style .inner
    let condition ← predicateText style e
    modify (· - 1)
    return line ++ "ON " ++ condition

mutual

def selectText : Select Expr → Layout String
  | ⟨_, columns, source, filter⟩ => do
    let columns ← columnsText style columns
    let line ← newline style .same
    let source ← sourceText source
    let filter ← filterText style filter
    return "SELECT " ++ columns ++ line ++ "FROM " ++ source ++ filter

def sourceText : Expr → Layout String
  | .table t => pure (style.ident t.name ++ " " ++ style.ident t.label)
  | .select s => do
    let first ← newline style .inner
    let select ← selectText s
    let last ← newline style .outer
    return "(" ++ first ++ select ++ last ++ ") " ++ style.ident s.label
  | .join kind l r condition => do
    let left ← sourceText l
    let line ← newline style .same
    let right ← sourceText r
    let condition ← conditionText style condition
    return left ++ line ++ kind.name ++ " " ++ right ++ condition
  | e => throw (.unsupportedSource e.kind e.display)

end

/-- The text of a select, of the select of a projection, or of a value. -/
def format : Expr → Except Error String
  | .select s => (selectText style s).run' 0
  | .projection p => (selectText style p.source).run' 0
  | e => scalarText style e

end Quarry.Sql
