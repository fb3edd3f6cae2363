import Quarry.Expr.Traversal
/-!
Nomination of the subtrees that may be replaced as a whole. The marks of a tree are kept in a flat
list in the order of `Expr.nodes`, each with the size of its subtree, so that a later walk can step
over a subtree it has replaced.
-/
namespace Quarry

/-- What decides on nomination: `accepts` is asked where nothing below is rejected, `always`
overrules it, but not below a node that opens a scope. -/
structure NominationRule where
  accepts : Expr → Bool
  always : Expr → Bool := fun _ => false
  opensScope : Expr → Bool := fun _ => false

/-- The marks and subtree sizes of the nodes of a tree, each node before its children. -/
structure Nomination where
  nominated : List Bool
  sizes : List Nat

namespace Nomination

/-- The nomination of a subtree, and whether it keeps the nodes above from being accepted. -/
structure Survey where
  marks : Nomination
  blocks : Bool

/-- Surveys a node from the surveys of its children; the flag tells whether a scope is open. -/
def surveyNode (rule : NominationRule) (e : Expr) (parts : List (Bool → Survey)) (inScope : Bool) :
    Survey :=
  let parts := parts.map (· (inScope || rule.opensScope e))
  let below := parts.flatMap (·.marks.nominated)
  let sizes := parts.flatMap (·.marks.sizes)
  let blocked := parts.any (·.blocks)
  let always := !inScope && rule.always e
  let accepted := !blocked && rule.accepts e
  ⟨⟨(always || accepted) :: below, (below.length + 1) :: sizes⟩, blocked || !(always || accepted)⟩

def survey (rule : NominationRule) : Expr → Bool → Survey := Expr.fold (surveyNode rule)

def compute (rule : NominationRule) (e : Expr) : Nomination := (survey rule e false).marks

variable {m : Type → Type} [Monad m]

/-- The replacement of the node that the running index points at, if it is nominated; the index
then steps over the whole subtree. -/
def step (n : Nomination) (f : Expr → m Expr) (e : Expr) : StateT Nat m (Option Expr) := do
  let i ← get
  if n.nominated[i]?.getD false then
    set (i + n.sizes[i]?.getD 1)
    return some (← f e)
  else
    set (i + 1)
    return none

/-- Applies `f` to the first nominated node of every path from the root. -/
def replaceTopmost (n : Nomination) (f : Expr → m Expr) (e : Expr) : m Expr :=
  (Expr.replaceM (n.step f) e).run' 0

end Nomination

end Quarry
