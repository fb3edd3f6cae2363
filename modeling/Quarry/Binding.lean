import Quarry.Binding.Columns
import Quarry.Catalog
import Quarry.Expr.Display
import Quarry.Identifier
/-!
Binding of composed operations to a projection. A lambda parameter stands for the projector of the
query it ranges over, so that member accesses are resolved to columns; every select and every table
gets a label of its own.
-/
namespace Quarry.Binding

def label (n : Nat) : String := "t" ++ toString n

/-- The number of labels given out, and what each parameter stands for. -/
structure Scope where
  labels : Nat := 0
  bound : List (Nat × Expr) := []

abbrev Binder := StateT Scope (Except Error)

def freshLabel : Binder String :=
  modifyGet fun s => (label s.labels, { s with labels := s.labels + 1 })

def bindParameter (p : Parameter) (e : Expr) : Binder Unit :=
  modify fun s => { s with bound := (p.id, e) :: s.bound.filter (·.1 ≠ p.id) }

def unbindParameter (p : Parameter) : Binder Unit :=
  modify fun s => { s with bound := s.bound.filter (·.1 ≠ p.id) }

/-- A parameter that stands for nothing stays. -/
def resolve (p : Parameter) : Binder Expr := do
  return ((← get).bound.lookup p.id).getD (.parameter p)

/-- The columns of a table under a label, each with its name. -/
def tableColumns (t : Table) (label : String) : List (String × Expr) :=
  t.members.zipIdx.map fun (m, i) => (m.name, .column ⟨label, m.name, i, m.type⟩)

/-- All members of a table, selected as they are. -/
def bindCollection (catalog : Catalog) (entity : String) : Binder Expr := do
  let t ← catalog.table entity
  let inner ← freshLabel
  let outer ← freshLabel
  return .projection
    { source := ⟨outer, tableColumns t inner, .table ⟨t.name, inner, t.entity⟩, none⟩
      projector := .construct (.entity t.entity) (tableColumns t outer)
      shape := .queryable }

def asSource : Expr → Except Error (Projection Expr)
  | .projection p => .ok p
  | e => .error (.expectedQuerySource e.kind e.display)

/-- A new select over `source` that yields what the projector needs. -/
def projectOver (projector : Expr) (sources : List String) (source : Expr) (filter : Option Expr) :
    Binder Expr := do
  let label ← freshLabel
  let (projector, columns) := projectColumns projector label sources
  return .projection { source := ⟨label, columns, source, filter⟩, projector, shape := .queryable }

/-- A member of a constructed record is the expression it was constructed from. -/
def memberOf (target : Expr) (name : String) : Except Error Expr :=
  match target with
  | .construct type members =>
    match members.lookup name with
    | some e => .ok e
    | none =>
      .error ((Error.missingConstructorMember name type.display).withHint
        (Text.mostSimilar? (members.map (·.1)) name))
  | target => .ok (.member target name)

/-- The successor of an index, known at once for a constant. -/
def successor : Expr → Except Error Expr
  | .constant v _ => (Value.applyBinary (.arithmetic .add) v (.int32 1)).map .literal
  | e => .ok (.binary (.arithmetic .add) e (.literal (.int32 1)))

/-- The function for one character; its position counts from one. -/
def substring (string index : Expr) : Except Error Expr := do
  let start ← successor index
  return .function ⟨.charAt, .substr, some string, [start, .literal (.int32 1)], .char⟩

/-- The record of a table's own columns, which need no label in an existence test. -/
def bareRecord (catalog : Catalog) (entity : String) : Except Error Expr := do
  let t ← catalog.table entity
  return .construct t.recordType (tableColumns t "")

def existenceTest (catalog : Catalog) (style : IdentifierCase) (method : Method)
    (function : Function) (entity : String) (predicate : Expr) : Except Error Expr := do
  let t ← catalog.table entity
  return .subquery ⟨method, function, none, [predicate], .boolean⟩
    ("SELECT * FROM " ++ style.normalize t.name)

def existenceEntity (function : Function) : Option Expr → Except Error String
  | some (.collection entity) => .ok entity
  | some e => .error (.existenceInstance function.name e.kind)
  | none => .error (.existenceWithoutInstance function.name)

def methodArity (method : Method) (expected : Nat) (args : List Expr) : Error :=
  .wrongArity ("'" ++ method.name ++ "'") expected args.length

variable (catalog : Catalog) (style : IdentifierCase)

mutual

def visit : Expr → Binder Expr
  | .call .select _ args =>
    match args with
    | [source, selector] => do
      let p ← asSource (← visit source)
      let (_, body) ← visitLambda (pure p.projector) selector
      projectOver body [p.source.label] (.select p.source) none
    | args => throw (methodArity .select 2 args)
  | .call .filter _ args =>
    match args with
    | [source, predicate] => do
      let p ← asSource (← visit source)
      let (_, condition) ← visitLambda (pure p.projector) predicate
      projectOver p.projector [p.source.label] (.select p.source) (some condition)
    | args => throw (methodArity .filter 2 args)
  | .call .join _ args =>
    match args with
    | [left, right, leftKey, rightKey, result] => do
      let l ← asSource (← visit left)
      let r ← asSource (← visit right)
      let (_, leftKey) ← visitLambda (pure l.projector) leftKey
      let (_, rightKey) ← visitLambda (pure r.projector) rightKey
      let body ← visitResult l.projector r.projector result
      let condition := .binary (.comparison .eq) leftKey rightKey
      projectOver body [l.source.label, r.source.label]
        (.join .inner (.select l.source) (.select r.source) (some condition)) none
    | args => throw (methodArity .join 5 args)
  | .call .toList _ args =>
    match args with
    | [source] => do
      let p ← asSource (← visit source)
      return .projection { p with shape := .list }
    | args => throw (methodArity .toList 1 args)
  | .call .charAt receiver args =>
    match receiver, args with
    | some string, [index] => do
      let s ← visit string
      let i ← visit index
      substring s i
    | some string, args => do
      let _ ← visit string
      throw (.wrongArity "character index" 1 args.length)
    | none, _ => throw .characterIndexInstance
  | .call .existence receiver args => do
    visitExistence .existence .existence (← existenceEntity .existence receiver) args
  | .call .absence receiver args => do
    visitExistence .absence .absence (← existenceEntity .absence receiver) args
  | .call (.named name) _ _ => throw (.unsupportedMethod name)
  | .collection entity => bindCollection catalog entity
  | .parameter p => resolve p
  | .member target name => do memberOf (← visit target) name
  | .captured _ v => pure (.literal v)
  | .lambda .. => throw .strayLambda
  | .outerRow _ => throw .strayOuterRow
  | .constant v t => pure (.constant v t)
  | .unary op e => do return .unary op (← visit e)
  | .binary op l r => do return .binary op (← visit l) (← visit r)
  | .construct type members => do return .construct type (← visitMembers members)
  | .table t => pure (.table t)
  | .column c => pure (.column c)
  | .select s => pure (.select s)
  | .join k l r c => pure (.join k l r c)
  | .projection p => pure (.projection p)
  | .function f => pure (.function f)
  | .subquery f sql => pure (.subquery f sql)

def visitMembers : List (String × Expr) → Binder (List (String × Expr))
  | [] => pure []
  | (name, e) :: rest => do
    let e ← visit e
    return (name, e) :: (← visitMembers rest)

/-- Binds the predicate of an existence test, whose parameter is known in the predicate only. -/
def visitExistence (method : Method) (function : Function) (entity : String) :
    List Expr → Binder Expr
  | [predicate] => do
    let (p, body) ← visitLambda (bareRecord catalog entity) predicate
    unbindParameter p
    existenceTest catalog style method function entity body
  | args => throw (.wrongArity "existence predicate" 1 args.length)

/-- Binds the body of a lambda of one parameter, which stands for `subject`. -/
def visitLambda (subject : Except Error Expr) : Expr → Binder (Parameter × Expr)
  | .lambda params body =>
    match params with
    | [p] => do
      bindParameter p (← subject)
      return (p, ← visit body)
    | params => throw (.wrongArity "lambda" 1 params.length)
  | e => throw (.expectedLambda e.kind)

/-- Binds the body of a lambda that combines the two sides of a join. -/
def visitResult (left right : Expr) : Expr → Binder Expr
  | .lambda params body =>
    match params with
    | [p, q] => do
      bindParameter p left
      bindParameter q right
      visit body
    | params => throw (.wrongArity "join result selector" 2 params.length)
  | e => throw (.expectedLambda e.kind)

end

/-- Binds a whole query. -/
def bind (e : Expr) : Except Error (Projection Expr) := do
  match ← (visit catalog style e).run' {} with
  | .projection p => .ok p
  | e => .error (.expectedQuery e.kind e.display)

end Quarry.Binding
