import Quarry.Proofs.Nomination
import Quarry.Proofs.Typing
/-!
Folding keeps the meaning of scalar expressions: what it yields evaluates like the expression it
was given, and it fails only where every evaluation fails.
-/
namespace Quarry

namespace Nomination

variable (p : Expr → Bool) (e : Expr) (inScope : Bool)

theorem blocks_eq_not_all : blocks { accepts := p } e inScope = !e.nodes.all p := by
  induction e using Expr.children_induction generalizing inScope with
  | step e ih =>
      have hany : ∀ b, e.children.any (blocks { accepts := p } · b) =
          !e.children.all fun c => c.nodes.all p := by
        intro b
        rw [List.not_all_eq_any_not, Bool.eq_iff_iff, List.any_eq_true, List.any_eq_true]
        exact exists_congr fun c => and_congr_right fun hc => by rw [ih c hc]
      rw [blocks_eq, nominates, hany, Expr.nodes_eq, List.all_cons, List.all_flatMap]
      cases e.children.all fun c => c.nodes.all p <;> cases hp : p e <;> simp [hp]

/-- Where nothing overrules it, a node is nominated if all nodes of its subtree are accepted. -/
theorem nominates_eq_all : nominates { accepts := p } e inScope = e.nodes.all p := by
  rw [nominates, Expr.nodes_eq, List.all_cons, List.all_flatMap]
  simp [blocks_eq_not_all, ← List.not_all_eq_any_not, Bool.and_comm]

end Nomination

namespace Expr

/-- Folding takes a subtree as a whole if all its nodes meet the predicate, and goes on in its
children otherwise. -/
theorem foldWith_eq (p : Expr → Bool) (e : Expr) :
    foldWith p e =
      if e.nodes.all p then foldNode e else e.withChildren <$> e.children.mapM (foldWith p) := by
  have hfold : foldWith p = fun e => Nomination.replaceNominated { accepts := p } foldNode e false :=
    funext fun e => Nomination.replaceTopmost_eq _ _ e
  rw [hfold]
  exact (Nomination.replaceNominated_eq _ _ e false).trans
    (by rw [Nomination.nominates_eq_all]; rfl)

/-- What folding makes of a node: the value of the subtree, or a node of the same form. -/
theorem foldWith_cases {p : Expr → Bool} {e e' : Expr} (h : e.foldWith p = .ok e') :
    e.nodes.all p ∧ e.foldNode = .ok e' ∨
      e.nodes.all p = false ∧
        e.Alike (fun c c' => c ∈ e.children ∧ c.foldWith p = .ok c') e' := by
  rw [foldWith_eq] at h
  split at h
  next hall => exact .inl ⟨hall, h⟩
  next hall =>
    obtain ⟨cs, hcs, rfl⟩ := fmap_eq_ok.mp h
    refine .inr ⟨by simpa using hall, alike_withChildren ?_⟩
    exact (List.forall₂_and_left _ _).mpr ⟨fun c hc => hc, mapM_eq_ok.mp hcs⟩

/-- A value that takes the place of a subtree is a constant. -/
theorem foldNode_eq_ok {e e' : Expr} (h : e.foldNode = .ok e') : ∃ v t, e' = .constant v t := by
  have hconstant (h : e.toConstant = .ok e') : ∃ v t, e' = .constant v t := by
    simp only [toConstant, bind_eq_ok, pure_eq_ok] at h
    obtain ⟨v, -, w, -, rfl⟩ := h
    exact ⟨w, _, rfl⟩
  cases e with
  | constant v t => exact ⟨v, t, (Except.ok.inj h).symm⟩
  | _ => exact hconstant h

/-! Evaluation node by node -/

section Evaluation

variable {values values' : Parameter → Option Value}

/-- Evaluation is strict: it needs a value of every child. -/
theorem evaluateWith_child {e c : Expr} {v : Value} (h : evaluateWith values e = .ok v)
    (hc : c ∈ e.children) : ∃ w, evaluateWith values c = .ok w := by
  cases evaluated_of_evaluateWith h with
  | constant | captured | parameter => cases hc
  | member hw | unary hw =>
      rw [children, List.mem_singleton] at hc
      exact ⟨_, hc ▸ hw⟩
  | binary hx hy =>
      rcases List.mem_pair.mp hc with rfl | rfl
      · exact ⟨_, hx⟩
      · exact ⟨_, hy⟩
  | construct hfields =>
      obtain ⟨m, hm, rfl⟩ := List.mem_map.mp hc
      obtain ⟨field, -, -, hvalue⟩ := exists_of_mem_left hfields hm
      exact ⟨field.2, hvalue⟩
  | charAt hs hi =>
      rcases List.mem_pair.mp hc with rfl | rfl
      · exact ⟨_, hs⟩
      · exact ⟨_, hi⟩

theorem evaluateMembers_congr {ms ms' : List (String × Expr)}
    (h : List.Forall₂ (fun m m' => m.1 = m'.1 ∧
      evaluateWith values m.2 = evaluateWith values' m'.2) ms ms') :
    evaluateMembers values ms = evaluateMembers values' ms' := by
  induction h with
  | nil => rfl
  | @cons m m' ms ms' hm _ ih =>
      obtain ⟨name, e⟩ := m
      obtain ⟨name', e'⟩ := m'
      obtain ⟨rfl, he⟩ := hm
      simp only [evaluateMembers, he, ih]

/-- Only the parameters that occur in an expression matter for its value. -/
theorem evaluateWith_congr_values {e : Expr}
    (h : ∀ p, .parameter p ∈ e.nodes → values p = values' p) :
    evaluateWith values e = evaluateWith values' e := by
  induction e using children_induction with
  | step e ih =>
      have hchild : ∀ c ∈ e.children, evaluateWith values c = evaluateWith values' c := by
        intro c hc
        exact ih c hc fun p hp => h p (mem_nodes_of_child hc hp)
      cases e with
      | parameter p => simp only [evaluateWith, h p (self_mem_nodes _)]
      | member target name => simp only [evaluateWith, hchild target (by simp [children])]
      | unary op operand => simp only [evaluateWith, hchild operand (by simp [children])]
      | binary op l r =>
          simp only [evaluateWith, hchild l (by simp [children]), hchild r (by simp [children])]
      | construct t ms =>
          have hms : List.Forall₂ (fun m m' => m.1 = m'.1 ∧
              evaluateWith values m.2 = evaluateWith values' m'.2) ms ms := by
            rw [List.forall₂_same]
            exact fun m hm => ⟨rfl, hchild m.2 (List.mem_map_of_mem hm)⟩
          simp only [evaluateWith, evaluateMembers_congr hms]
      | call method receiver args =>
          cases method with
          | charAt =>
              cases receiver with
              | none => rfl
              | some string =>
                  rcases args with _ | ⟨index, _ | _⟩
                  · rfl
                  · simp only [evaluateWith, hchild string (by simp [children]),
                      hchild index (by simp [children])]
                  · rfl
          | _ => rfl
      | _ => rfl

/-- The forms of a scalar expression, each with constants that inhabit their types and records of
distinct names. -/
def TypedScalar : Expr → Prop
  | .constant v t => v.Inhabits t ∧ v.Inhabits v.dataType
  | .captured _ v => v.Inhabits v.dataType
  | .parameter _ | .member .. | .unary .. | .binary .. => True
  | .construct t members => t.isOpen ∧ (members.map (·.1)).Nodup
  | .call .charAt (some _) [_] => True
  | _ => False

instance : DecidablePred TypedScalar
  | .constant v t => inferInstanceAs (Decidable (v.Inhabits t ∧ v.Inhabits v.dataType))
  | .captured _ v => inferInstanceAs (Decidable (v.Inhabits v.dataType))
  | .parameter _ | .member .. | .unary .. | .binary .. => .isTrue trivial
  | .construct t members =>
    inferInstanceAs (Decidable (t.isOpen ∧ (members.map (·.1)).Nodup))
  | .call .charAt (some _) [_] => .isTrue trivial
  | .call .charAt (some _) [] | .call .charAt (some _) (_ :: _ :: _) | .call .charAt none _
  | .call .select .. | .call .filter .. | .call .join .. | .call .toList .. | .call .existence ..
  | .call .absence .. | .call (.named _) .. | .collection _ | .lambda .. | .outerRow _ | .table _
  | .column _ | .select _ | .join .. | .projection _ | .function _ | .subquery .. => .isFalse id

theorem evaluateWith_congr {e e' : Expr} (hs : e.TypedScalar)
    (h : Alike (fun c c' => evaluateWith values c' = evaluateWith values c) e e') :
    evaluateWith values e' = evaluateWith values e := by
  cases h with
  | leaf => rfl
  | member name h => simp only [evaluateWith, h]
  | unary op h => simp only [evaluateWith, h]
  | binary op hl hr => simp only [evaluateWith, hl, hr]
  | construct t h =>
      have hms := evaluateMembers_congr (h.imp fun m m' hm => ⟨hm.1, hm.2.symm⟩)
      simp only [evaluateWith, hms]
  | @call method receiver receiver' args args' hr ha =>
      cases method with
      | charAt =>
          cases hr with
          | none => cases hs
          | some hr =>
              rcases ha with _ | ⟨hi, _ | _⟩
              · cases hs
              · simp only [evaluateWith, hr, hi]
              · cases hs
      | _ => cases hs
  | _ => cases hs

end Evaluation

variable {e : Expr}

theorem typesHold_of_typedScalar (h : ∀ x ∈ e.nodes, x.TypedScalar) :
    ∀ x ∈ e.nodes, x.TypesHold := by
  intro x hx
  cases x with
  | constant v t => exact .inl (h _ hx).1
  | member target name =>
      cases target with
      | construct t ms =>
          have hmem : construct t ms ∈ e.nodes :=
            mem_nodes_trans hx (mem_nodes_of_child List.mem_cons_self (self_mem_nodes _))
          exact (h _ hmem).1
      | _ => trivial
  | _ => trivial

theorem naturalTypesHold_of_typedScalar {x : Expr} (h : x.TypedScalar) : x.NaturalTypesHold := by
  cases x <;> simp_all [TypedScalar, NaturalTypesHold]

/-- The type that a folded constant is given keeps its value. -/
theorem inhabits_constant_type {v : Value} (h : ∀ x ∈ e.nodes, x.TypedScalar)
    (hv : e.evaluate = .ok v) : v.Inhabits (e.staticType?.getD v.dataType) := by
  have hnatural : v.Inhabits v.dataType := evaluateWith_natural (by simp)
    (fun x hx => naturalTypesHold_of_typedScalar (h x hx)) hv
  cases ht : e.staticType? with
  | none => exact hnatural
  | some t =>
      rcases evaluateWith_static (by simp) (typesHold_of_typedScalar h) hv t ht with
        (hin | rfl) | ⟨u, ms, fields, rfl, rfl⟩
      · exact hin
      · exact hnatural
      · rw [Option.getD_some, ← Option.some.inj ht]
        exact Value.record_inhabits_open (h _ (self_mem_nodes _)).1 fields

/-- A replacement has the value of the expression, and there is no value if there is no
replacement. -/
def KeepsValue (values : Parameter → Option Value) (e : Expr) : Except Error Expr → Prop
  | .ok e' => evaluateWith values e' = evaluateWith values e
  | .error _ => ∃ err, evaluateWith values e = .error err

theorem toConstant_keepsValue (h : ∀ x ∈ e.nodes, x.TypedScalar) (values : Parameter → Option Value)
    (hvalues : evaluateWith values e = e.evaluate) : KeepsValue values e e.toConstant := by
  cases hv : e.evaluate with
  | error err =>
      simp only [toConstant, hv]
      exact ⟨err, hvalues.trans hv⟩
  | ok v =>
      have hcast : v.cast (e.staticType?.getD v.dataType) = .ok v := inhabits_constant_type h hv
      have hresult : e.toConstant = .ok (.constant v (e.staticType?.getD v.dataType)) := by
        simp only [toConstant, hv, bind, Except.bind, hcast]
        rfl
      rw [hresult, KeepsValue, hvalues, hv]
      rfl

/-- A subtree without parameters folds to the constant of its value. -/
theorem foldNode_keepsValue (h : ∀ x ∈ e.nodes, x.TypedScalar) (hl : e.nodes.all isLocal)
    (values : Parameter → Option Value) : KeepsValue values e e.foldNode := by
  have hvalues : evaluateWith values e = e.evaluate := by
    refine evaluateWith_congr_values fun p hp => ?_
    cases List.all_eq_true.mp hl _ hp
  cases e with
  | constant v t => rfl
  | _ => exact toConstant_keepsValue h values hvalues

/-- Replacing the children of a node by what they fold to keeps its value. -/
theorem withChildren_keepsValue {fold : Expr → Except Error Expr}
    {values : Parameter → Option Value} (hs : e.TypedScalar)
    (h : ∀ c ∈ e.children, KeepsValue values c (fold c)) :
    KeepsValue values e (e.withChildren <$> e.children.mapM fold) := by
  cases hfold : e.children.mapM fold with
  | ok cs =>
      have hcs : List.Forall₂ (fun c c' => evaluateWith values c' = evaluateWith values c)
          e.children cs := by
        refine ((List.forall₂_and_left _ _).mpr ⟨h, mapM_eq_ok.mp hfold⟩).imp ?_
        rintro c c' ⟨hkeep, hc'⟩
        rwa [hc'] at hkeep
      exact evaluateWith_congr hs (alike_withChildren hcs)
  | error err =>
      obtain ⟨c, hc, hcf⟩ := exists_of_mapM_eq_error hfold
      have hkeep := h c hc
      rw [hcf] at hkeep
      obtain ⟨err', hc'⟩ := hkeep
      cases he : evaluateWith values e with
      | error err' => exact ⟨err', he⟩
      | ok v =>
          obtain ⟨w, hw⟩ := evaluateWith_child he hc
          cases hw.symm.trans hc'

theorem foldLocal_keepsValue (h : ∀ x ∈ e.nodes, x.TypedScalar)
    (values : Parameter → Option Value) : KeepsValue values e e.foldLocal := by
  induction e using children_induction with
  | step e ih =>
      obtain ⟨hnode, hbelow⟩ := forall_mem_nodes.mp h
      rw [foldLocal, foldWith_eq]
      split
      next hl => exact foldNode_keepsValue h hl values
      next => exact withChildren_keepsValue hnode fun c hc => ih c hc (hbelow c hc)

/-- Folding preserves meaning: under every assignment the folded expression has the same value or
error as the expression itself, and an expression that cannot be folded has no value under any
assignment. -/
theorem foldLocal_preserves_evaluation (e : Expr) (h : ∀ x ∈ e.nodes, x.TypedScalar) :
    (∀ e', e.foldLocal = .ok e' → ∀ values, evaluateWith values e' = evaluateWith values e) ∧
      ∀ err, e.foldLocal = .error err → ∀ values, ∃ err', evaluateWith values e = .error err' := by
  constructor
  · intro e' hfold values
    have hkeep := foldLocal_keepsValue h values
    rwa [hfold] at hkeep
  · intro err hfold values
    have hkeep := foldLocal_keepsValue h values
    rwa [hfold] at hkeep

/-- In a sum of a parameter's member with a captured number and a constant, only the inner sum is
folded. -/
theorem foldLocal_preserves_evaluation_of_sum :
    let p : Parameter := ⟨0, "p", .entity "Person"⟩
    let inner : Expr :=
      .binary (.arithmetic .add) (.captured "k" (.int32 2)) (.constant (.int64 3) .int64)
    let sum (e : Expr) : Expr := .binary (.arithmetic .add) (.member (.parameter p) "age") e
    (∀ x ∈ (sum inner).nodes, x.TypedScalar) ∧
      (sum inner).foldLocal = .ok (sum (.constant (.int64 5) .int64)) ∧
      ∀ values, evaluateWith values (sum (.constant (.int64 5) .int64)) =
        evaluateWith values (sum inner) := by
  intro p inner sum
  have htyped : ∀ x ∈ (sum inner).nodes, x.TypedScalar := by decide
  have hfold : (sum inner).foldLocal = .ok (sum (.constant (.int64 5) .int64)) := by cbv
  exact ⟨htyped, hfold, (foldLocal_preserves_evaluation _ htyped).1 _ hfold⟩

end Expr

end Quarry
