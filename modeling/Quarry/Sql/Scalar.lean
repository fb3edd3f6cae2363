import Quarry.Catalog
import Quarry.Expr.Display
import Quarry.Expr.Typing
import Quarry.Settings
import Quarry.Sql.Literal
/-!
Text of values and conditions. A nested operation is put in parentheses. Where a condition is
required, a truth value is compared with one.
-/
namespace Quarry.Sql

/-- A lambda parameter whose members are written as the bare columns of a table. -/
structure BareParameter where
  id : Nat
  table : Table

/-- How query text is written. -/
structure Style where
  identifiers : IdentifierCase := .snakeLower
  indentWidth : Nat := 2
  bare : Option BareParameter := none

namespace Style

def ofSettings (s : Settings) : Style :=
  { identifiers := s.identifierCase, indentWidth := s.indentWidth }

def ident (s : Style) (name : String) : String := s.identifiers.normalize name

end Style

/-- Whether a value or a condition is called for. -/
inductive Position where
  | scalar
  | predicate
  deriving DecidableEq

def wrap (nested : Bool) (text : String) : String := if nested then "(" ++ text ++ ")" else text

def logicalName : Logical → String
  | .and => "AND"
  | .or => "OR"

def comparisonName : Comparison → String
  | .eq => "="
  | .ne => "<>"
  | .lt => "<"
  | .le => "<="
  | .gt => ">"
  | .ge => ">="

def isText (e : Expr) : Bool := e.staticType?.any DataType.isText

/-- A sum of texts is a concatenation. -/
def arithmeticName (op : Arithmetic) (left right : Expr) : String :=
  match op with
  | .add => if isText left || isText right then "||" else "+"
  | .sub => "-"
  | .mul => "*"
  | .div => "/"
  | .mod => "MOD"

def isNullConstant : Expr → Bool
  | .constant v _ => v.isNull
  | _ => false

/-- The test that a comparison with null amounts to. -/
def nullTest? : Comparison → Option String
  | .eq => some " IS NULL"
  | .ne => some " IS NOT NULL"
  | _ => none

def constantText (position : Position) (nested : Bool) (v : Value) : Except Error String :=
  match position, v with
  | .predicate, .boolean true => .ok (wrap nested "1 = 1")
  | .predicate, .boolean false => .ok (wrap nested "1 = 0")
  | _, v => literal v

def columnName (style : Style) (c : Column) : String :=
  if c.label.isEmpty then style.ident c.name
  else style.ident c.label ++ "." ++ style.ident c.name

def columnText (style : Style) (position : Position) (nested : Bool) (c : Column) : String :=
  if position = .predicate ∧ c.type = .boolean then wrap nested (columnName style c ++ " = 1")
  else columnName style c

def notInText (e : Expr) : Error := .unsupportedInText e.kind e.display

/-- A member is written only if it belongs to the bare parameter. -/
def memberText (style : Style) (target : Expr) (name : String) : Except Error String :=
  match style.bare, target with
  | some bare, .parameter p =>
    if p.id = bare.id then do return style.ident (← bare.table.member name).name
    else .error (notInText (.member target name))
  | _, _ => .error (notInText (.member target name))

variable (style : Style)

mutual

def text (position : Position) (nested : Bool) : Expr → Except Error String
  | .constant v _ => constantText position nested v
  | .captured _ v => literal v
  | .column c => .ok (columnText style position nested c)
  | .member target name => memberText style target name
  | .unary .not e => do return "NOT " ++ (← text position true e)
  | .unary .negate e => do return "-" ++ (← text .scalar true e)
  | .binary (.logical op) l r => do
    let left ← text position true l
    let right ← text position true r
    return wrap nested (left ++ " " ++ logicalName op ++ " " ++ right)
  | .binary (.comparison op) l r =>
    match nullTest? op, isNullConstant l, isNullConstant r with
    | some test, _, true => do return wrap nested ((← text .scalar true l) ++ test)
    | some test, true, false => do return wrap nested ((← text .scalar true r) ++ test)
    | _, _, _ => do
      let left ← text .scalar true l
      let right ← text .scalar true r
      return wrap nested (left ++ " " ++ comparisonName op ++ " " ++ right)
  | .binary (.arithmetic .mod) l r => do
    let left ← text .scalar false l
    let right ← text .scalar false r
    return "MOD(" ++ left ++ ", " ++ right ++ ")"
  | .binary (.arithmetic op) l r => do
    let left ← text .scalar true l
    let right ← text .scalar true r
    return wrap nested (left ++ " " ++ arithmeticName op l r ++ " " ++ right)
  | .function ⟨_, name, receiver, args, _⟩ => do
    let first ← textOption receiver
    let rest ← texts .scalar false args
    return name.name ++ "(" ++ ", ".intercalate (first ++ rest) ++ ")"
  | .subquery ⟨_, name, _, args, _⟩ sql => do
    let predicates ← texts .predicate (1 < args.length) args
    let condition := if predicates.isEmpty then "" else " WHERE " ++ " AND ".intercalate predicates
    return name.name ++ " (" ++ sql ++ condition ++ ")"
  | e => .error (notInText e)

def textOption : Option Expr → Except Error (List String)
  | none => .ok []
  | some e => do return [← text .scalar false e]

def texts (position : Position) (nested : Bool) : List Expr → Except Error (List String)
  | [] => .ok []
  | e :: rest => do
    let first ← text position nested e
    return first :: (← texts position nested rest)

end

/-- The text of an expression as a value. -/
def scalarText (e : Expr) : Except Error String := text style .scalar false e

/-- The text of an expression as a condition. -/
def predicateText (e : Expr) : Except Error String := text style .predicate false e

end Quarry.Sql
