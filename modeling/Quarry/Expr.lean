import Quarry.Operator
/-!
Expressions: the operations that a caller composes and the query tree that they are bound to.
Both are one type because a tree that is being bound holds a mix of them, as a projector mixes
columns with plain values.
-/
namespace Quarry

/-- A lambda parameter; binding goes by the number alone. -/
structure Parameter where
  id : Nat
  name : String
  type : DataType
  deriving DecidableEq

/-- The methods of the operation tree. -/
inductive Method where
  /-- One result for each element. -/
  | select
  /-- The elements that meet a predicate. -/
  | filter
  /-- The pairs of two sources with equal keys. -/
  | join
  /-- A nested result as a list. -/
  | toList
  /-- One character of a text. -/
  | charAt
  /-- Whether some element of a collection meets a predicate. -/
  | existence
  /-- Whether no element of a collection meets a predicate. -/
  | absence
  /-- Any other method; none of them can be bound. -/
  | named (name : String)
  deriving DecidableEq, Repr

def Method.name : Method → String
  | .select => "Select"
  | .filter => "Where"
  | .join => "Join"
  | .toList => "ToList"
  | .charAt => "CharAt"
  | .existence => "Exists"
  | .absence => "NotExists"
  | .named name => name

/-- The functions of the query text. -/
inductive Function where
  | substr
  | existence
  | absence
  deriving DecidableEq, Repr

def Function.name : Function → String
  | .substr => "SUBSTR"
  | .existence => "EXISTS"
  | .absence => "NOT EXISTS"

inductive JoinKind where
  | cross
  | inner
  | crossApply
  deriving DecidableEq, Repr

def JoinKind.name : JoinKind → String
  | .cross => "CROSS JOIN"
  | .inner => "INNER JOIN"
  | .crossApply => "CROSS APPLY"

/-- What a projection is handed over as. -/
inductive Shape where
  | queryable
  | list
  deriving DecidableEq, Repr

/-- A read of a row that encloses the one being built; depth 0 is the nearest. -/
structure OuterRow where
  depth : Nat
  ordinal : Nat
  type : DataType
  deriving DecidableEq

/-- A table under a label. -/
structure TableRef where
  name : String
  label : String
  entity : String
  deriving DecidableEq

/-- A column of the table or select with this label; the label is empty for the unlabelled table of
an existence test. -/
structure Column where
  label : String
  name : String
  ordinal : Nat
  type : DataType
  deriving DecidableEq

/-- Named output columns over a source, restricted by a filter. -/
structure Select (ε : Type) where
  label : String
  columns : List (String × ε)
  source : ε
  filter : Option ε

/-- A select with the expression that builds one value from each of its rows. -/
structure Projection (ε : Type) where
  source : Select ε
  projector : ε
  shape : Shape

/-- A function of the query text with the method it stands for. -/
structure FunctionCall (ε : Type) where
  method : Method
  function : Function
  receiver : Option ε
  args : List ε
  type : DataType

inductive Expr where
  | constant (value : Value) (type : DataType)
  /-- A value captured from the caller's scope. -/
  | captured (name : String) (value : Value)
  | parameter (p : Parameter)
  /-- All entities of a mapped table. -/
  | collection (entity : String)
  | member (target : Expr) (name : String)
  | unary (op : UnaryOperator) (operand : Expr)
  | binary (op : BinaryOperator) (left right : Expr)
  | call (method : Method) (receiver : Option Expr) (args : List Expr)
  | lambda (params : List Parameter) (body : Expr)
  /-- A record built from its members. -/
  | construct (type : DataType) (members : List (String × Expr))
  | outerRow (row : OuterRow)
  | table (t : TableRef)
  | column (c : Column)
  | select (s : Select Expr)
  | join (kind : JoinKind) (left right : Expr) (condition : Option Expr)
  | projection (p : Projection Expr)
  | function (f : FunctionCall Expr)
  /-- An existence test over literal query text; the call's arguments are its predicates. -/
  | subquery (call : FunctionCall Expr) (sql : String)
  deriving Inhabited

namespace Expr

/-- The name of a node's form, as error messages give it. -/
def kind : Expr → String
  | .constant .. => "constant"
  | .captured .. => "variable"
  | .parameter .. => "parameter"
  | .collection .. => "collection"
  | .member .. => "member access"
  | .unary .. => "unary operator"
  | .binary .. => "binary operator"
  | .call .. => "method call"
  | .lambda .. => "lambda"
  | .construct .. => "constructor"
  | .outerRow .. => "outer row reference"
  | .table .. => "table"
  | .column .. => "column"
  | .select .. => "select"
  | .join .. => "join"
  | .projection .. => "projection"
  | .function .. => "function call"
  | .subquery .. => "sub-query"

/-- Whether a node belongs to the bound tree. -/
def isBound : Expr → Bool
  | .table .. | .column .. | .select .. | .join .. | .projection .. | .function ..
  | .subquery .. => true
  | _ => false

def null : Expr := .constant .null .null

/-- A constant of its natural type. -/
def literal (v : Value) : Expr := .constant v v.dataType

end Expr

end Quarry
