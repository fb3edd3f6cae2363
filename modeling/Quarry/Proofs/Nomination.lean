import Quarry.Nomination
import Quarry.Proofs.Traversal
/-!
What the flat marks of a nomination stand for: replacing the topmost nominated nodes by way of the
running index is the plain recursion that asks each node whether it is nominated. The index always
points at the marks of the node that the walk has come to, so no look-up is out of range.
-/
namespace Quarry.Nomination

/-- Whether a subtree keeps the nodes above it from being accepted: a child does, or the node itself
is neither nominated in any case nor accepted. -/
def blocks (rule : NominationRule) : Expr → Bool → Bool :=
  Expr.fold fun e parts inScope =>
    let blocked := parts.any (· (inScope || rule.opensScope e))
    blocked || !((!inScope && rule.always e) || (!blocked && rule.accepts e))

/-- Whether a node is nominated: in any case outside of scopes, or because no child blocks and it is
accepted. -/
def nominates (rule : NominationRule) (e : Expr) (inScope : Bool) : Bool :=
  (!inScope && rule.always e) ||
    (!e.children.any (blocks rule · (inScope || rule.opensScope e)) && rule.accepts e)

theorem blocks_eq (rule : NominationRule) (e : Expr) (inScope : Bool) :
    blocks rule e inScope =
      (e.children.any (blocks rule · (inScope || rule.opensScope e)) ||
        !nominates rule e inScope) := by
  rw [blocks, Expr.fold_eq]
  simp only [List.any_map, Function.comp_def]
  rfl

/-- Replaces the topmost nominated nodes, from left to right. -/
def replaceNominated {m : Type → Type} [Monad m] (rule : NominationRule) (f : Expr → m Expr) :
    Expr → Bool → m Expr :=
  Expr.fold fun e parts inScope =>
    if nominates rule e inScope then f e
    else e.withChildren <$> parts.mapM (· (inScope || rule.opensScope e))

variable {m : Type → Type} [Monad m] [LawfulMonad m]
variable (rule : NominationRule) (f : Expr → m Expr)

theorem replaceNominated_eq (e : Expr) (inScope : Bool) :
    replaceNominated rule f e inScope =
      if nominates rule e inScope then f e
      else e.withChildren <$>
        e.children.mapM (replaceNominated rule f · (inScope || rule.opensScope e)) := by
  rw [replaceNominated, Expr.fold_eq]
  simp only [List.mapM_map, Function.comp_def]

/-! The marks of a subtree -/

theorem survey_eq (e : Expr) (inScope : Bool) :
    survey rule e inScope = surveyNode rule e (e.children.map (survey rule)) inScope := by
  rw [survey, Expr.fold_eq]

theorem survey_blocks (e : Expr) (inScope : Bool) :
    (survey rule e inScope).blocks = blocks rule e inScope := by
  induction e using Expr.children_induction generalizing inScope with
  | step e ih =>
      have hany : ∀ b, e.children.any (fun c => (survey rule c b).blocks) =
          e.children.any (blocks rule · b) := by
        intro b
        rw [Bool.eq_iff_iff, List.any_eq_true, List.any_eq_true]
        exact exists_congr fun c => and_congr_right fun hc => by rw [ih c hc]
      rw [survey_eq, blocks_eq]
      simp only [surveyNode, List.map_map, List.any_map, Function.comp_def, hany]
      rfl

def marksBelow (e : Expr) (inScope : Bool) : List Bool :=
  e.children.flatMap fun c => (survey rule c (inScope || rule.opensScope e)).marks.nominated

theorem survey_nominated (e : Expr) (inScope : Bool) :
    (survey rule e inScope).marks.nominated =
      nominates rule e inScope :: marksBelow rule e inScope := by
  rw [survey_eq]
  simp only [surveyNode, List.map_map, List.flatMap_map, List.any_map, Function.comp_def,
    survey_blocks]
  rfl

theorem survey_sizes (e : Expr) (inScope : Bool) :
    (survey rule e inScope).marks.sizes =
      ((marksBelow rule e inScope).length + 1) ::
        e.children.flatMap fun c => (survey rule c (inScope || rule.opensScope e)).marks.sizes := by
  rw [survey_eq]
  simp only [surveyNode, List.map_map, List.flatMap_map, Function.comp_def]
  rfl

theorem length_survey_sizes (e : Expr) (inScope : Bool) :
    (survey rule e inScope).marks.sizes.length =
      (survey rule e inScope).marks.nominated.length := by
  induction e using Expr.children_induction generalizing inScope with
  | step e ih =>
      rw [survey_nominated, survey_sizes]
      simp only [List.length_cons, marksBelow, List.length_flatMap]
      congr 2
      exact List.map_congr_left fun c hc => ih c hc _

/-! The running index -/

/-- The marks and sizes of a subtree stand in the nomination from index `i` on. -/
structure StandsAt (n : Nomination) (e : Expr) (inScope : Bool) (i : Nat) : Prop where
  nominated : (survey rule e inScope).marks.nominated <+: n.nominated.drop i
  sizes : (survey rule e inScope).marks.sizes <+: n.sizes.drop i

def size (e : Expr) (inScope : Bool) : Nat := (survey rule e inScope).marks.nominated.length

theorem size_eq (e : Expr) (inScope : Bool) :
    size rule e inScope = (marksBelow rule e inScope).length + 1 := by
  rw [size, survey_nominated, List.length_cons]

variable {n : Nomination} {e : Expr} {inScope : Bool} {i : Nat}

/-- A step that goes by the marks: it replaces a nominated node and passes over its subtree, and
from any other node it goes on to the next one. -/
structure GoesBy (n : Nomination) (f : Expr → m Expr)
    (step : Expr → StateT Nat m (Option Expr)) : Prop where
  nominated : ∀ e i k, n.nominated[i]? = some true → n.sizes[i]? = some k →
    (step e).run i = (fun x => (some x, i + k)) <$> f e
  skipped : ∀ e i, n.nominated[i]? = some false → (step e).run i = pure (none, i + 1)

theorem step_goesBy (n : Nomination) : GoesBy n f (n.step f) where
  nominated e i k hn hs := by simp [step, hn, hs]
  skipped e i hn := by simp [step, hn]

variable {f}
variable {walk : Expr → StateT Nat m (Option Expr)}

/-- The walk over a list of siblings, each of which is walked as a subtree of its own. -/
theorem run_mapM_siblings (cs : List Expr) (i : Nat)
    (ih : ∀ c ∈ cs, ∀ i, StandsAt rule n c inScope i →
      (Expr.replaceM walk c).run i =
        (fun x => (x, i + Nomination.size rule c inScope)) <$> replaceNominated rule f c inScope)
    (hn : (cs.flatMap fun c => (survey rule c inScope).marks.nominated) <+: n.nominated.drop i)
    (hs : (cs.flatMap fun c => (survey rule c inScope).marks.sizes) <+: n.sizes.drop i) :
    (cs.mapM (Expr.replaceM walk)).run i =
      (fun xs => (xs, i + (cs.flatMap fun c => (survey rule c inScope).marks.nominated).length)) <$>
        cs.mapM (replaceNominated rule f · inScope) := by
  induction cs generalizing i with
  | nil => simp
  | cons c cs ihcs =>
      rw [List.flatMap_cons] at hn hs
      have hn := prefix_of_append hn
      have hs := prefix_of_append hs
      rw [length_survey_sizes] at hs
      have hhead := ih c List.mem_cons_self i ⟨hn.1, hs.1⟩
      have htail := ihcs (i + Nomination.size rule c inScope)
        (fun c hc => ih c (List.mem_cons_of_mem _ hc)) hn.2 hs.2
      simp only [Nomination.size] at hhead htail
      simp only [List.mapM_cons, List.flatMap_cons, List.length_append, StateT.run_bind,
        StateT.run_pure, hhead, htail, map_eq_pure_bind, bind_assoc, pure_bind, Nat.add_assoc]

/-- The walk by the running index replaces what the recursion replaces, and the index steps over
the whole subtree. -/
theorem run_replaceM_step (hwalk : GoesBy n f walk) (h : StandsAt rule n e inScope i) :
    (Expr.replaceM walk e).run i =
      (fun x => (x, i + Nomination.size rule e inScope)) <$>
        replaceNominated rule f e inScope := by
  induction e using Expr.children_induction generalizing inScope i with
  | step e ih =>
      have hn := getElem?_of_cons_prefix (survey_nominated rule e inScope ▸ h.nominated)
      have hs := getElem?_of_cons_prefix (survey_sizes rule e inScope ▸ h.sizes)
      rw [Expr.replaceM_eq, StateT.run_bind, replaceNominated_eq, size_eq]
      cases hmark : nominates rule e inScope with
      | true =>
          rw [hwalk.nominated e i _ (hmark ▸ hn.1) hs.1]
          simp
      | false =>
          have hbelow := run_mapM_siblings rule e.children (i + 1)
            (fun c hc i hi => ih c hc hi) hn.2 hs.2
          rw [hwalk.skipped e i (hmark ▸ hn.1), pure_bind]
          simp only [Expr.mapChildrenM_eq, StateT.run_map, hbelow, Functor.map_map, marksBelow]
          simp only [Bool.false_eq_true, if_false, Functor.map_map, Nat.add_assoc, Nat.add_comm 1]

theorem run'_replaceM_compute (hwalk : GoesBy (compute rule e) f walk) :
    (Expr.replaceM walk e).run' 0 = replaceNominated rule f e false := by
  have h : StandsAt rule (compute rule e) e false 0 := ⟨List.prefix_rfl, List.prefix_rfl⟩
  rw [StateT.run'_eq, run_replaceM_step rule hwalk h]
  simp

variable (f) in
theorem replaceTopmost_eq (e : Expr) :
    (compute rule e).replaceTopmost f e = replaceNominated rule f e false :=
  run'_replaceM_compute rule (step_goesBy f _)

/-! Look-ups -/

theorem size_eq_length_nodes (e : Expr) (inScope : Bool) :
    size rule e inScope = e.nodes.length := by
  induction e using Expr.children_induction generalizing inScope with
  | step e ih =>
      rw [size_eq, marksBelow, Expr.nodes_eq, List.length_cons, List.length_flatMap,
        List.length_flatMap]
      congr 2
      exact List.map_congr_left fun c hc => ih c hc _

/-- Each node is marked with the size of its subtree, in the order of the nodes. -/
theorem survey_sizes_eq_map (e : Expr) (inScope : Bool) :
    (survey rule e inScope).marks.sizes = e.nodes.map fun x => x.nodes.length := by
  induction e using Expr.children_induction generalizing inScope with
  | step e ih =>
      rw [survey_sizes, ← size_eq, size_eq_length_nodes, Expr.nodes_eq e, List.map_cons,
        ← Expr.nodes_eq, List.map_flatMap]
      congr 1
      exact List.flatMap_congr fun c hc => ih c hc _

/-- The entry at an index; out of range there is no result. -/
def entry {α : Type} (xs : List α) (i : Nat) : OptionT m α := OptionT.mk (pure xs[i]?)

/-- The step with its look-ups checked. -/
def checkedStep (n : Nomination) (f : Expr → m Expr) (e : Expr) :
    StateT Nat (OptionT m) (Option Expr) := do
  let i ← get
  if ← entry (m := m) n.nominated i then
    set (i + (← entry (m := m) n.sizes i))
    return some (← OptionT.lift (f e))
  else
    set (i + 1)
    return none

/-- The replacement of the topmost nominated nodes, with every look-up checked. -/
def replaceChecked (n : Nomination) (f : Expr → m Expr) (e : Expr) : OptionT m Expr :=
  (Expr.replaceM (n.checkedStep f) e).run' 0

omit [LawfulMonad m] in
theorem entry_eq_pure {α : Type} {xs : List α} {i : Nat} {a : α} (h : xs[i]? = some a) :
    (entry xs i : OptionT m α) = pure a := by
  rw [entry, h]
  rfl

theorem checkedStep_goesBy (f : Expr → m Expr) (n : Nomination) :
    GoesBy n (fun e => OptionT.lift (f e)) (n.checkedStep f) where
  nominated e i k hn hs := by simp [checkedStep, entry_eq_pure hn, entry_eq_pure hs]
  skipped e i hn := by simp [checkedStep, entry_eq_pure hn]

theorem replaceNominated_lift (f : Expr → m Expr) (e : Expr) (inScope : Bool) :
    replaceNominated rule (fun e => OptionT.lift (f e)) e inScope =
      OptionT.lift (replaceNominated rule f e inScope) := by
  induction e using Expr.children_induction generalizing inScope with
  | step e ih =>
      rw [replaceNominated_eq, replaceNominated_eq]
      split
      · rfl
      · rw [mapM_congr fun c hc => ih c hc _, mapM_lift, map_lift]

theorem replaceChecked_eq (f : Expr → m Expr) (e : Expr) :
    (compute rule e).replaceChecked f e = OptionT.lift (replaceNominated rule f e false) := by
  rw [← replaceNominated_lift]
  exact run'_replaceM_compute rule (checkedStep_goesBy f _)

/-- Replacing by the running index is the plain recursion over the tree, whatever `f` does: both ask
`f` for the same nodes in the same order and end in the same tree or failure. There is a mark for each
node, with the size of its subtree, and no look-up is out of range. -/
theorem replaceTopmost_structural (rule : NominationRule) (f : Expr → m Expr) (e : Expr) :
    (compute rule e).replaceTopmost f e = replaceNominated rule f e false ∧
      (compute rule e).replaceChecked f e = OptionT.lift (replaceNominated rule f e false) ∧
      (compute rule e).nominated.length = e.nodes.length ∧
      (compute rule e).sizes = e.nodes.map fun x => x.nodes.length :=
  ⟨replaceTopmost_eq rule f e, replaceChecked_eq rule f e, size_eq_length_nodes rule e false,
    survey_sizes_eq_map rule e false⟩

/-- Products are always nominated, but not below a negation; the replacement records what it is asked
for and fails at four. -/
theorem replaceTopmost_structural_of_products :
    let number (n : Int32) : Expr := .constant (.int32 n) .int32
    let product (a b : Int32) : Expr := .binary (.arithmetic .mul) (number a) (number b)
    let e : Expr := .binary (.arithmetic .add) (product 1 2) (.unary .negate (product 3 4))
    let rule : NominationRule :=
      { accepts := Expr.isConstant
        always := fun | .binary (.arithmetic .mul) _ _ => true | _ => false
        opensScope := fun | .unary .. => true | _ => false }
    let f (x : Expr) : ExceptT Error (StateM (List Expr)) Expr := do
      modify (· ++ [x])
      match x with
      | .constant (.int32 4) _ => throw .divisionByZero
      | _ => return .null
    ((compute rule e).replaceTopmost f e).run.run [] =
        (.error .divisionByZero, [product 1 2, number 3, number 4]) ∧
      (replaceNominated rule f e false).run.run [] =
        (.error .divisionByZero, [product 1 2, number 3, number 4]) ∧
      (compute rule e).replaceChecked f e = OptionT.lift (replaceNominated rule f e false) ∧
      (compute rule e).nominated = [false, true, true, true, false, false, true, true] ∧
      (compute rule e).sizes = [8, 3, 1, 1, 4, 3, 1, 1] := by
  intro number product e rule f
  obtain ⟨hreplace, hchecked, -, hsizes⟩ := replaceTopmost_structural rule f e
  have hrun : ((compute rule e).replaceTopmost f e).run.run [] =
      (.error .divisionByZero, [product 1 2, number 3, number 4]) := by cbv
  exact ⟨hrun, hreplace ▸ hrun, hchecked, rfl, hsizes.trans rfl⟩

end Quarry.Nomination
