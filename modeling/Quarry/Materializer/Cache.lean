import Quarry.Expr.Equality
import Quarry.Materializer
/-!
The cache of compiled materializers. An entry is found by the label of the rows and the projector;
neither the select nor the shape of the result matters to a materializer.
-/
namespace Quarry

/-- A compiled materializer; two with one number come from the same build. -/
structure Compiled where
  number : Nat
  materializer : Materializer

structure MaterializerCache where
  entries : List ((String × Expr) × Compiled) := []
  /-- The number of builds so far. -/
  builds : Nat := 0

namespace MaterializerCache

def keyOf (p : Projection Expr) : String × Expr := (p.source.label, p.projector)

/-- Builds a materializer under the next number. -/
def build (c : MaterializerCache) (p : Projection Expr) :
    Except Error (Compiled × MaterializerCache) := do
  let materializer ← Materializer.build p
  return (⟨c.builds, materializer⟩, { c with builds := c.builds + 1 })

/-- Finds the materializer of a projection, or builds and keeps it. -/
def getOrBuild (c : MaterializerCache) (p : Projection Expr) :
    Except Error (Compiled × MaterializerCache) :=
  match c.entries.lookup (keyOf p) with
  | some compiled => .ok (compiled, c)
  | none => do
    let (compiled, c) ← c.build p
    return (compiled, { c with entries := c.entries ++ [(keyOf p, compiled)] })

def size (c : MaterializerCache) : Nat := c.entries.length

def clear (c : MaterializerCache) : MaterializerCache := { c with entries := [] }

end MaterializerCache

end Quarry
