import Quarry.Expr
/-!
The text of an expression, as queries and error messages show it.
-/
namespace Quarry.Expr

def displayConstant : Value → String
  | .text s => "'" ++ s ++ "'"
  | .char c => "'" ++ String.singleton c ++ "'"
  | v => v.display

def displayColumn (c : Column) : String :=
  if c.label.isEmpty then c.name else c.label ++ "." ++ c.name

mutual

def display : Expr → String
  | .constant v _ => displayConstant v
  | .captured name _ => name
  | .parameter p => p.name
  | .collection entity => "Collection<" ++ entity ++ ">"
  | .member target name => display target ++ "." ++ name
  | .unary op e => op.symbol ++ "(" ++ display e ++ ")"
  | .binary op l r => "(" ++ display l ++ " " ++ op.symbol ++ " " ++ display r ++ ")"
  | .call method receiver args =>
    String.join ((displayOption receiver).map (· ++ ".")) ++ method.name
      ++ "(" ++ ", ".intercalate (displayList args) ++ ")"
  | .lambda params body =>
    "(" ++ ", ".intercalate (params.map Parameter.name) ++ ") => " ++ display body
  | .construct type members =>
    "new " ++ type.display ++ " \x7b" ++ ",".intercalate (displayMembers members) ++ " \x7d"
  | .outerRow r => "outer" ++ toString r.depth ++ "[" ++ toString r.ordinal ++ "]"
  | .table t => t.name ++ " " ++ t.label
  | .column c => displayColumn c
  | .select s => "Select(" ++ s.label ++ ")"
  | .join kind .. => "Join(" ++ kind.name ++ ")"
  | .projection ⟨source, projector, _⟩ =>
    "Projection(" ++ source.label ++ ", " ++ display projector ++ ")"
  | .function ⟨_, f, receiver, args, _⟩ =>
    f.name ++ "(" ++ ", ".intercalate (displayOption receiver ++ displayList args) ++ ")"
  | .subquery ⟨_, f, _, args, _⟩ sql =>
    f.name ++ "(rawSql(" ++ sql ++ "), " ++ ", ".intercalate (displayList args) ++ ")"

def displayOption : Option Expr → List String
  | none => []
  | some e => [display e]

def displayList : List Expr → List String
  | [] => []
  | e :: rest => display e :: displayList rest

def displayMembers : List (String × Expr) → List String
  | [] => []
  | (name, e) :: rest => (" " ++ name ++ " = " ++ display e) :: displayMembers rest

end

end Quarry.Expr
