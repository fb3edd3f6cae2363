import Quarry.Expr
/-!
Walks over expressions. Every walk meets the children of a node in the order of `children`: a fold
combines their results, and a replacement descends until a node is replaced.
-/
namespace Quarry

def Select.children {ε : Type} (s : Select ε) : List ε :=
  s.columns.map (·.2) ++ s.source :: s.filter.toList

def Projection.children {ε : Type} (p : Projection ε) : List ε := p.source.children ++ [p.projector]

def FunctionCall.children {ε : Type} (f : FunctionCall ε) : List ε := f.receiver.toList ++ f.args

namespace Expr

/-- The direct parts of an expression, in the order of every walk. -/
def children : Expr → List Expr
  | .constant .. | .captured .. | .parameter .. | .collection .. | .outerRow .. | .table ..
  | .column .. => []
  | .member target _ => [target]
  | .unary _ operand => [operand]
  | .binary _ left right => [left, right]
  | .call _ receiver args => receiver.toList ++ args
  | .lambda _ body => [body]
  | .construct _ members => members.map (·.2)
  | .select s => s.children
  | .join _ left right condition => left :: right :: condition.toList
  | .projection p => p.children
  | .function f => f.children
  | .subquery f _ => f.children

section Fold

variable {α : Type}

mutual

/-- Combines each node with the results for its children. -/
def fold (combine : Expr → List α → α) : Expr → α
  | .constant v t => combine (.constant v t) []
  | .captured n v => combine (.captured n v) []
  | .parameter p => combine (.parameter p) []
  | .collection e => combine (.collection e) []
  | .outerRow r => combine (.outerRow r) []
  | .table t => combine (.table t) []
  | .column c => combine (.column c) []
  | .member target n => combine (.member target n) [fold combine target]
  | .unary op e => combine (.unary op e) [fold combine e]
  | .binary op l r => combine (.binary op l r) [fold combine l, fold combine r]
  | .call m receiver args =>
    combine (.call m receiver args) (foldOption combine receiver ++ foldList combine args)
  | .lambda ps body => combine (.lambda ps body) [fold combine body]
  | .construct t members => combine (.construct t members) (foldMembers combine members)
  | .select s => combine (.select s) (foldSelect combine s)
  | .join k l r condition =>
    combine (.join k l r condition)
      (fold combine l :: fold combine r :: foldOption combine condition)
  | .projection p => combine (.projection p) (foldProjection combine p)
  | .function f => combine (.function f) (foldCall combine f)
  | .subquery f sql => combine (.subquery f sql) (foldCall combine f)

def foldOption (combine : Expr → List α → α) : Option Expr → List α
  | none => []
  | some e => [fold combine e]

def foldList (combine : Expr → List α → α) : List Expr → List α
  | [] => []
  | e :: rest => fold combine e :: foldList combine rest

def foldMembers (combine : Expr → List α → α) : List (String × Expr) → List α
  | [] => []
  | (_, e) :: rest => fold combine e :: foldMembers combine rest

def foldSelect (combine : Expr → List α → α) : Select Expr → List α
  | ⟨_, columns, source, filter⟩ =>
    foldMembers combine columns ++ fold combine source :: foldOption combine filter

def foldProjection (combine : Expr → List α → α) : Projection Expr → List α
  | ⟨source, projector, _⟩ => foldSelect combine source ++ [fold combine projector]

def foldCall (combine : Expr → List α → α) : FunctionCall Expr → List α
  | ⟨_, _, receiver, args, _⟩ => foldOption combine receiver ++ foldList combine args

end

variable (combine : Expr → List α → α)

theorem foldOption_eq (o : Option Expr) : foldOption combine o = o.toList.map (fold combine) := by
  cases o <;> simp [foldOption]

theorem foldList_eq (es : List Expr) : foldList combine es = es.map (fold combine) := by
  induction es with
  | nil => simp [foldList]
  | cons e es ih => simp [foldList, ih]

theorem foldMembers_eq (ms : List (String × Expr)) :
    foldMembers combine ms = (ms.map (·.2)).map (fold combine) := by
  induction ms with
  | nil => simp [foldMembers]
  | cons m ms ih => obtain ⟨n, e⟩ := m; simp [foldMembers, ih]

theorem foldSelect_eq (s : Select Expr) : foldSelect combine s = s.children.map (fold combine) := by
  obtain ⟨_, columns, source, filter⟩ := s
  simp [foldSelect, Select.children, foldMembers_eq, foldOption_eq]

theorem foldCall_eq (f : FunctionCall Expr) :
    foldCall combine f = f.children.map (fold combine) := by
  obtain ⟨_, _, receiver, args, _⟩ := f
  simp [foldCall, FunctionCall.children, foldOption_eq, foldList_eq]

theorem foldProjection_eq (p : Projection Expr) :
    foldProjection combine p = p.children.map (fold combine) := by
  obtain ⟨source, projector, _⟩ := p
  simp [foldProjection, Projection.children, foldSelect_eq]

/-- A fold combines a node with the folds of its children. -/
theorem fold_eq (e : Expr) : fold combine e = combine e (e.children.map (fold combine)) := by
  cases e <;> simp [fold, children, foldOption_eq, foldList_eq, foldMembers_eq, foldSelect_eq,
    foldProjection_eq, foldCall_eq]

end Fold

/-- All nodes of a tree, each before its children. -/
def nodes : Expr → List Expr := fold fun e parts => e :: parts.flatten

/-- How many projections stand one inside the other. -/
def projectionDepth : Expr → Nat :=
  fold fun e depths =>
    let deepest := depths.foldr max 0
    match e with
    | .projection _ => deepest + 1
    | _ => deepest

section Replace

variable {m : Type → Type} [Monad m]

def mapOptionM (f : Expr → m Expr) : Option Expr → m (Option Expr)
  | none => pure none
  | some e => do return some (← f e)

def mapMembersM (f : Expr → m Expr) (members : List (String × Expr)) : m (List (String × Expr)) :=
  members.mapM fun (name, e) => do return (name, ← f e)

def mapSelectM (f : Expr → m Expr) (s : Select Expr) : m (Select Expr) := do
  let columns ← mapMembersM f s.columns
  let source ← f s.source
  let filter ← mapOptionM f s.filter
  return { s with columns, source, filter }

def mapProjectionM (f : Expr → m Expr) (p : Projection Expr) : m (Projection Expr) := do
  let source ← mapSelectM f p.source
  let projector ← f p.projector
  return { p with source, projector }

def mapCallM (f : Expr → m Expr) (call : FunctionCall Expr) : m (FunctionCall Expr) := do
  let receiver ← mapOptionM f call.receiver
  let args ← call.args.mapM f
  return { call with receiver, args }

/-- Replaces every child by its image, in order. -/
def mapChildrenM (f : Expr → m Expr) : Expr → m Expr
  | .constant v t => pure (.constant v t)
  | .captured n v => pure (.captured n v)
  | .parameter p => pure (.parameter p)
  | .collection e => pure (.collection e)
  | .outerRow r => pure (.outerRow r)
  | .table t => pure (.table t)
  | .column c => pure (.column c)
  | .member target n => do return .member (← f target) n
  | .unary op e => do return .unary op (← f e)
  | .binary op l r => do return .binary op (← f l) (← f r)
  | .call k receiver args => do return .call k (← mapOptionM f receiver) (← args.mapM f)
  | .lambda ps body => do return .lambda ps (← f body)
  | .construct t members => do return .construct t (← mapMembersM f members)
  | .select s => do return .select (← mapSelectM f s)
  | .join k l r condition => do return .join k (← f l) (← f r) (← mapOptionM f condition)
  | .projection p => do return .projection (← mapProjectionM f p)
  | .function c => do return .function (← mapCallM f c)
  | .subquery c sql => do return .subquery (← mapCallM f c) sql

mutual

/-- Asks for a replacement of each node from the root down, and descends where there is none. -/
def replaceM (replacement? : Expr → m (Option Expr)) (e : Expr) : m Expr := do
  match ← replacement? e with
  | some e => pure e
  | none =>
    match e with
    | .constant v t => pure (.constant v t)
    | .captured n v => pure (.captured n v)
    | .parameter p => pure (.parameter p)
    | .collection e => pure (.collection e)
    | .outerRow r => pure (.outerRow r)
    | .table t => pure (.table t)
    | .column c => pure (.column c)
    | .member target n => do return .member (← replaceM replacement? target) n
    | .unary op e => do return .unary op (← replaceM replacement? e)
    | .binary op l r => do
      return .binary op (← replaceM replacement? l) (← replaceM replacement? r)
    | .call k receiver args => do
      return .call k (← replaceOptionM replacement? receiver) (← replaceListM replacement? args)
    | .lambda ps body => do return .lambda ps (← replaceM replacement? body)
    | .construct t members => do return .construct t (← replaceMembersM replacement? members)
    | .select s => do return .select (← replaceSelectM replacement? s)
    | .join k l r condition => do
      return .join k (← replaceM replacement? l) (← replaceM replacement? r)
        (← replaceOptionM replacement? condition)
    | .projection p => do return .projection (← replaceProjectionM replacement? p)
    | .function c => do return .function (← replaceCallM replacement? c)
    | .subquery c sql => do return .subquery (← replaceCallM replacement? c) sql

def replaceOptionM (replacement? : Expr → m (Option Expr)) : Option Expr → m (Option Expr)
  | none => pure none
  | some e => do return some (← replaceM replacement? e)

def replaceListM (replacement? : Expr → m (Option Expr)) : List Expr → m (List Expr)
  | [] => pure []
  | e :: rest => do
    return (← replaceM replacement? e) :: (← replaceListM replacement? rest)

def replaceMembersM (replacement? : Expr → m (Option Expr)) :
    List (String × Expr) → m (List (String × Expr))
  | [] => pure []
  | (name, e) :: rest => do
    return (name, ← replaceM replacement? e) :: (← replaceMembersM replacement? rest)

def replaceSelectM (replacement? : Expr → m (Option Expr)) : Select Expr → m (Select Expr)
  | ⟨label, columns, source, filter⟩ => do
    return ⟨label, ← replaceMembersM replacement? columns, ← replaceM replacement? source,
      ← replaceOptionM replacement? filter⟩

def replaceProjectionM (replacement? : Expr → m (Option Expr)) :
    Projection Expr → m (Projection Expr)
  | ⟨source, projector, shape⟩ => do
    return ⟨← replaceSelectM replacement? source, ← replaceM replacement? projector, shape⟩

def replaceCallM (replacement? : Expr → m (Option Expr)) :
    FunctionCall Expr → m (FunctionCall Expr)
  | ⟨method, name, receiver, args, type⟩ => do
    return ⟨method, name, ← replaceOptionM replacement? receiver,
      ← replaceListM replacement? args, type⟩

end

variable [LawfulMonad m] (f : Expr → m (Option Expr))

theorem replaceOptionM_eq (o : Option Expr) : replaceOptionM f o = mapOptionM (replaceM f) o := by
  cases o <;> simp [replaceOptionM, mapOptionM]

theorem replaceListM_eq (es : List Expr) : replaceListM f es = es.mapM (replaceM f) := by
  induction es with
  | nil => simp [replaceListM]
  | cons e es ih => simp [replaceListM, ih]

theorem replaceMembersM_eq (ms : List (String × Expr)) :
    replaceMembersM f ms = mapMembersM (replaceM f) ms := by
  induction ms with
  | nil => simp [replaceMembersM, mapMembersM]
  | cons p ms ih => obtain ⟨n, e⟩ := p; simp_all [replaceMembersM, mapMembersM]

theorem replaceSelectM_eq (s : Select Expr) : replaceSelectM f s = mapSelectM (replaceM f) s := by
  obtain ⟨_, columns, source, filter⟩ := s
  simp [replaceSelectM, mapSelectM, replaceMembersM_eq, replaceOptionM_eq]

theorem replaceProjectionM_eq (p : Projection Expr) :
    replaceProjectionM f p = mapProjectionM (replaceM f) p := by
  obtain ⟨source, projector, _⟩ := p
  simp [replaceProjectionM, mapProjectionM, replaceSelectM_eq]

theorem replaceCallM_eq (c : FunctionCall Expr) : replaceCallM f c = mapCallM (replaceM f) c := by
  obtain ⟨_, _, receiver, args, _⟩ := c
  simp [replaceCallM, mapCallM, replaceOptionM_eq, replaceListM_eq]

/-- A replacement either takes the whole node or goes on in its children. -/
theorem replaceM_eq (e : Expr) :
    replaceM f e = f e >>= fun
      | some e => pure e
      | none => mapChildrenM (replaceM f) e := by
  rw [replaceM.eq_def]
  congr 1
  funext o
  cases o with
  | some e => rfl
  | none =>
    cases e <;> simp [mapChildrenM, replaceOptionM_eq, replaceListM_eq, replaceMembersM_eq,
      replaceSelectM_eq, replaceProjectionM_eq, replaceCallM_eq]

end Replace

end Expr

end Quarry
