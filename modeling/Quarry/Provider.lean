import Quarry.Binding
import Quarry.Materializer.Cache
import Quarry.Reader.Enumeration
import Quarry.Sql.Command
/-!
Providers: a composed query is folded, bound, written as text and sent to the row source, and the
rows of the answer are read back through the materializer of its projector. A nested projection is
run once for each row that encloses it.
-/
namespace Quarry

structure Provider (σ : Type) where
  catalog : Catalog
  settings : Settings
  source : RowSource σ

/-- What changes while a provider works. -/
structure ProviderState (σ : Type) where
  rows : σ
  cache : MaterializerCache := {}

/-- A query that is ready to run. -/
structure Plan where
  sql : String
  projection : Projection Expr
  materializer : Materializer

namespace Provider

variable {σ : Type} (P : Provider σ)

def style : Sql.Style := .ofSettings P.settings

/-- Runs an action of the row source. -/
def onSource {α : Type} (a : Action σ α) : Action (ProviderState σ) α := ExceptT.mk fun s =>
  let (result, rows) := a.run s.rows
  (result, { s with rows })

def materializer (p : Projection Expr) : Action (ProviderState σ) Materializer := do
  if P.settings.cacheMaterializers then
    let s ← get
    let (compiled, cache) ← s.cache.getOrBuild p
    set { s with cache }
    return compiled.materializer
  else Materializer.build p

/-- Text and materializer of a bound query. -/
def plan (p : Projection Expr) : Action (ProviderState σ) Plan := do
  let sql ← Sql.format P.style (.select p.source)
  let materializer ← P.materializer p
  return ⟨sql, p, materializer⟩

def prepare (e : Expr) : Action (ProviderState σ) Plan := do
  let e ← e.foldLocal
  let p ← Binding.bind P.catalog P.settings.identifierCase e
  P.plan p

/-- Sends a command; a failure also tells its text. -/
def send (sql : String) : Action (ProviderState σ) (List Row) :=
  tryCatch (onSource (P.source.execute sql)) fun e => throw (e.withField "sql" sql)

def start (plan : Plan) (outer : List Row) : Action (ProviderState σ) Reader := do
  let rows ← P.send plan.sql
  return ⟨some (.ofRows rows), plan.materializer, outer⟩

/-- Runs a composed query. -/
def execute (e : Expr) : Action (ProviderState σ) Reader := do
  P.start (← P.prepare e) []

/-- Runs a bound query for the rows that enclose it. -/
def executeProjection (p : Projection Expr) (outer : List Row) :
    Action (ProviderState σ) Reader := do
  P.start (← P.plan p) outer

/-- The provider as it runs bound queries. -/
def executor : Executor (ProviderState σ) where
  start := P.executeProjection
  beforeRead := onSource P.source.beforeRead
  release s := { s with rows := P.source.close s.rows }

/-! Commands -/

/-- Sends a command whose rows, if any, are not read. -/
def command (sql : String) : Action (ProviderState σ) Unit := do
  let _ ← P.send sql
  modify P.executor.release

def clear (entity : String) : Action (ProviderState σ) Unit := do
  let t ← P.catalog.table entity
  P.command (Sql.clearText P.style t)

def delete (entity : String) (predicate : Expr) : Action (ProviderState σ) Unit := do
  let t ← P.catalog.table entity
  P.command (← Sql.deleteText P.style t predicate)

def update (entity : String) (assignments : List (String × Expr)) (predicate : Expr) :
    Action (ProviderState σ) Unit := do
  let t ← P.catalog.table entity
  P.command (← Sql.updateText P.style t assignments predicate)

end Provider

end Quarry
