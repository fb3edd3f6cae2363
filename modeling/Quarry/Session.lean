import Quarry.Provider
import Quarry.Query
import Quarry.RowSource.Memory
/-!
Sessions with a provider over rows in memory: queries, results, readers and cursors are kept under
names, and each step composes, runs or reads one of them.
-/
namespace Quarry

/-- Something kept under a name; typed results are converted to `α`. -/
inductive Handle (α : Type) where
  | query (e : Expr)
  /-- Results of a run; the reader can be taken once. -/
  | results (reader : Option Reader) (convert : Value → Except Error α)
  | iterator (reader : Reader) (convert : Value → Except Error α)
  | reader (r : Reader)
  | cursor (c : Cursor)

structure Session (α : Type) where
  provider : Provider Memory
  state : ProviderState Memory
  handles : List (String × Handle α) := []

namespace Session

variable {α : Type}

inductive Step (α : Type) where
  | prepare (e : Expr)
  | query (name : String) (e : Expr)
  | filter (source name : String) (predicate : Expr)
  | select (source name : String) (selector : Expr)
  | join (outer inner name : String) (outerKey innerKey result : Expr)
  | toList (source name : String)
  | existence (source name : String) (predicate : Expr)
  | absence (source name : String) (predicate : Expr)
  | sql (query : String)
  | collect (query : String) (convert : Value → Except Error α)
  | execute (query name : String) (convert : Value → Except Error α)
  | enumerate (results name : String)
  | next (iterator : String)
  | run (name : String) (e : Expr)
  | runProjection (name : String) (p : Projection Expr)
  | row (reader : String)
  | isFinished (reader : String)
  | field (reader : String) (ordinal : Nat)
  | outerField (reader : String) (depth ordinal : Nat)
  | subquery (reader : String) (p : Projection Expr)
  | openCursor (name command : String)
  | read (cursor : String)
  | fieldCount (cursor : String)
  | isNull (cursor : String) (ordinal : Nat)
  | cursorField (cursor : String) (ordinal : Nat)
  | respond (command : String) (rows : List Row)
  | clearCache
  | settings
  | tableName (entity : String)
  | clear (entity : String)
  | delete (entity : String) (predicate : Expr)
  | update (entity : String) (assignments : List (String × Expr)) (predicate : Expr)
  | drop (name : String)

inductive Answer (α : Type) where
  | done
  | text (s : String)
  | plan (p : Plan)
  | items (items : List α)
  /-- The next item of an iterator, unless it has ended. -/
  | item (item : Option α)
  /-- The next value of a reader, unless it has ended. -/
  | row (value : Option Value)
  | value (v : Value)
  | flag (b : Bool)
  | count (n : Nat)

inductive Failure where
  /-- No handle of the wanted kind has this name. -/
  | noHandle
  | error (e : Error)

abbrev SessionM (α β : Type) := ExceptT Failure (StateM (Session α)) β

/-- Runs a pure part of a step. -/
def ofExcept {β : Type} : Except Error β → SessionM α β
  | .ok b => pure b
  | .error e => throw (.error e)

/-- Runs a part of a step that cannot fail on the provider's state. -/
def onProvider {β : Type} (f : Provider Memory → StateM (ProviderState Memory) β) :
    SessionM α β := do
  let s ← get
  let (b, state) := (f s.provider).run s.state
  set { s with state }
  return b

/-- Runs an action of the provider. -/
def act {β : Type} (f : Provider Memory → Action (ProviderState Memory) β) : SessionM α β := do
  ofExcept (← onProvider fun P => (f P).run)

def find (name : String) : SessionM α (Handle α) := do
  match (← get).handles.lookup name with
  | some h => return h
  | none => throw .noHandle

theorem find_run (name : String) (s : Session α) :
    (find name).run.run s =
      match s.handles.lookup name with
      | some h => (.ok h, s)
      | none => (.error .noHandle, s) := by
  show (match s.handles.lookup name with
    | some h => (return h : SessionM α (Handle α))
    | none => throw Failure.noHandle).run.run s = _
  cases s.handles.lookup name <;> rfl

def findQuery (name : String) : SessionM α Expr := do
  match ← find name with
  | .query e => return e
  | _ => throw .noHandle

def findReader (name : String) : SessionM α Reader := do
  match ← find name with
  | .reader r => return r
  | _ => throw .noHandle

def findCursor (name : String) : SessionM α Cursor := do
  match ← find name with
  | .cursor c => return c
  | _ => throw .noHandle

/-- Gives up what a handle holds open. -/
def releaseHandle (P : Provider Memory) : Handle α → StateM (ProviderState Memory) Unit
  | .query _ | .results none _ => pure ()
  | .results (some r) _ | .iterator r _ | .reader r => P.executor.drop r
  | .cursor _ => modify P.executor.release

def remove (name : String) : SessionM α Unit :=
  modify fun s => { s with handles := s.handles.filter (·.1 ≠ name) }

/-- Keeps a handle in place of one whose content lives on in it. -/
def replace (name : String) (h : Handle α) : SessionM α Unit := do
  remove name
  modify fun s => { s with handles := (name, h) :: s.handles }

/-- Keeps a new handle; an older one of the name is given up. -/
def keep (name : String) (h : Handle α) : SessionM α Unit := do
  match (← get).handles.lookup name with
  | some old => onProvider (releaseHandle · old)
  | none => pure ()
  replace name h

theorem keep_run (name : String) (h : Handle α) (s : Session α) :
    (keep name h).run.run s =
      match s.handles.lookup name with
      | some old => (onProvider (releaseHandle · old) >>= fun _ => replace name h).run.run s
      | none => (replace name h).run.run s := by
  show (match s.handles.lookup name with
    | some old => (do onProvider (releaseHandle · old); replace name h : SessionM α Unit)
    | none => do pure (); replace name h).run.run s = _
  cases s.handles.lookup name <;> rfl

def keepQuery (name : String) (e : Expr) : SessionM α (Answer α) := do
  keep name (.query e)
  return .text e.display

def stepNext (name : String) : SessionM α (Answer α) := do
  match ← find name with
  | .iterator r convert =>
    let (item, r) ← onProvider (·.executor.next r)
    replace name (.iterator r convert)
    match item with
    | none => return .item none
    | some item => return .item (some (← ofExcept (item.bind convert)))
  | _ => throw .noHandle

def stepEnumerate (results name : String) : SessionM α (Answer α) := do
  match ← find results with
  | .results (some r) convert =>
    replace results (.results none convert)
    keep name (.iterator r convert)
    return .done
  | .results none _ => throw (.error .enumeratedTwice)
  | _ => throw .noHandle

def stepRow (name : String) : SessionM α (Answer α) := do
  let r ← findReader name
  let (item, r) ← onProvider (·.executor.next r)
  replace name (.reader r)
  match item with
  | none => return .row none
  | some item => return .row (some (← ofExcept item))

def stepRead (name : String) : SessionM α (Answer α) := do
  let c := (← findCursor name).advance
  replace name (.cursor c)
  return .flag c.current.isSome

def step : Step α → SessionM α (Answer α)
  | .prepare e => do return .plan (← act (·.prepare e))
  | .query name e => keepQuery name e
  | .filter source name predicate => do
    keepQuery name (Query.filter (← findQuery source) predicate)
  | .select source name selector => do
    keepQuery name (Query.select (← findQuery source) selector)
  | .join outer inner name outerKey innerKey result => do
    let o ← findQuery outer
    let i ← findQuery inner
    keepQuery name (Query.join o i outerKey innerKey result)
  | .toList source name => do keepQuery name (Query.toList (← findQuery source))
  | .existence source name predicate => do
    keepQuery name (Query.existence (← findQuery source) predicate)
  | .absence source name predicate => do
    keepQuery name (Query.absence (← findQuery source) predicate)
  | .sql query => do
    let e ← findQuery query
    return .text (← act (·.prepare e)).sql
  | .collect query convert => do
    let e ← findQuery query
    let r ← act (·.execute e)
    return .items (← ofExcept (← onProvider (·.executor.collect convert r)))
  | .execute query name convert => do
    let e ← findQuery query
    let r ← act (·.execute e)
    keep name (.results (some r) convert)
    return .done
  | .enumerate results name => stepEnumerate results name
  | .next iterator => stepNext iterator
  | .run name e => do
    let r ← act (·.execute e)
    keep name (.reader r)
    return .done
  | .runProjection name p => do
    let r ← act (·.executeProjection p [])
    keep name (.reader r)
    return .done
  | .row reader => stepRow reader
  | .isFinished reader => do return .flag (← findReader reader).isFinished
  | .field reader ordinal => do return .value (← ofExcept ((← findReader reader).field ordinal))
  | .outerField reader depth ordinal => do
    return .value (← ofExcept ((← findReader reader).outerField depth ordinal))
  | .subquery reader p => do
    let r ← findReader reader
    return .value (← act (·.executor.subquery r p))
  | .openCursor name command => do
    let rows ← act fun _ => Provider.onSource (Memory.execute command)
    keep name (.cursor (.ofRows rows))
    return .done
  | .read cursor => stepRead cursor
  | .fieldCount cursor => do return .count (← findCursor cursor).fieldCount
  | .isNull cursor ordinal => do
    return .flag (← ofExcept ((← findCursor cursor).isNull ordinal))
  | .cursorField cursor ordinal => do
    return .value (← ofExcept ((← findCursor cursor).field ordinal))
  | .respond command rows => do
    onProvider fun _ => modify fun s => { s with rows := s.rows.respond command rows }
    return .done
  | .clearCache => do
    onProvider fun _ => modify fun s => { s with cache := s.cache.clear }
    return .flag ((← get).state.cache.size = 0)
  | .settings => do return .text (← get).provider.settings.toJson
  | .tableName entity => do
    return .text (← ofExcept ((← get).provider.catalog.table entity)).name
  | .clear entity => do
    act (·.clear entity)
    return .done
  | .delete entity predicate => do
    act (·.delete entity predicate)
    return .done
  | .update entity assignments predicate => do
    act (·.update entity assignments predicate)
    return .done
  | .drop name => do
    let h ← find name
    onProvider (releaseHandle · h)
    remove name
    return .done

/-- The outcomes of steps one after the other, each with the session after it. -/
def run : List (Step α) → Session α → List (Except Failure (Answer α) × Session α)
  | [], _ => []
  | st :: rest, s =>
    let outcome := (step st).run.run s
    outcome :: run rest outcome.2

end Session

end Quarry
