import Quarry.DataType
import Quarry.Error
import Quarry.Text.Jaro
/-!
The catalog: which table holds the entities of a name, and which members they have.
-/
namespace Quarry

structure Member where
  name : String
  type : DataType
  deriving DecidableEq

/-- A mapped table with its members in column order. -/
structure Table where
  entity : String
  name : String
  members : List Member
  deriving DecidableEq

namespace Table

def member (t : Table) (name : String) : Except Error Member :=
  match t.members.find? (·.name = name) with
  | some member => .ok member
  | none =>
    .error ((Error.missingMember name t.entity).withHint
      (Text.mostSimilar? (t.members.map Member.name) name))

/-- The record type with a field for each member. -/
def recordType (t : Table) : DataType := .record (t.members.map fun m => (m.name, m.type))

end Table

/-- The mapped tables in the order of their registration, no two for one entity. -/
structure Catalog where
  tables : List Table := []

namespace Catalog

def find? (c : Catalog) (entity : String) : Option Table := c.tables.find? (·.entity = entity)

def register (c : Catalog) (t : Table) : Except Error Catalog :=
  if (c.find? t.entity).isSome then .error (.duplicateEntity t.entity)
  else .ok { c with tables := c.tables ++ [t] }

/-- Registers the table of a named entity; the table must be that entity's own. -/
def registerEntity (c : Catalog) (name : String) (t : Table) : Except Error Catalog :=
  if t.entity = name then c.register t else .error (.mismatchedEntity name t.entity)

def table (c : Catalog) (entity : String) : Except Error Table :=
  match c.find? entity with
  | some t => .ok t
  | none =>
    .error ((Error.missingTable entity).withHint
      (Text.mostSimilar? (c.tables.map Table.entity) entity))

/-- The table of a type, which must be an entity. -/
def tableOfType (c : Catalog) : DataType → Except Error Table
  | .entity name => c.table name
  | type => .error (.unmappedType type.display)

end Catalog

end Quarry
