import Quarry.Proofs.Columns
import Quarry.Proofs.Walk
/-!
The labels of the tables and selects in a tree. A new select moves parts of an expression into its
columns; the columns and what is left together have the labels that the expression had.
-/
namespace Quarry

namespace Expr

def label? : Expr → Option String
  | .table t => some t.label
  | .select s => some s.label
  | .projection p => some p.source.label
  | _ => none

/-- The labels that the tables and selects of a tree are given. -/
def labels (e : Expr) : List String := e.nodes.filterMap label?

theorem labels_eq (e : Expr) : e.labels = e.label?.toList ++ e.children.flatMap labels := by
  have hlabels : labels = fun c => c.nodes.filterMap label? := rfl
  rw [labels, nodes_eq, List.filterMap_cons, List.filterMap_flatMap, ← hlabels]
  cases e.label? <;> rfl

theorem label_mem_labels {e : Expr} {l : String} (h : e.label? = some l) : l ∈ e.labels := by
  rw [labels_eq, h]
  exact List.mem_cons_self

theorem labels_sublist {e x : Expr} (h : x ∈ e.nodes) : x.labels.Sublist e.labels :=
  (nodes_sublist h).filterMap _

theorem labels_child {e c : Expr} (hc : c ∈ e.children) : c.labels ⊆ e.labels :=
  (labels_sublist (mem_nodes_of_child hc (self_mem_nodes c))).subset

theorem Alike.label_eq {R : Expr → Expr → Prop} {e e' : Expr} (h : Alike R e e') :
    e'.label? = e.label? := by
  cases h with
  | leaf => rfl
  | select h => exact congrArg some h.label.symm
  | projection shape h => exact congrArg some h.label.symm
  | _ => rfl

theorem fillSelect_label (s : Select Expr) (cs : List Expr) :
    (fillSelect s cs).1.label = s.label := by
  unfold fillSelect
  split <;> rfl

theorem label?_withChildren (e : Expr) (cs : List Expr) :
    (e.withChildren cs).label? = e.label? := by
  unfold withChildren
  split
  case h_7 s => exact congrArg some (fillSelect_label s cs)
  case h_9 p =>
      split
      next source _ h =>
        have hlabel := fillSelect_label p.source cs
        rw [h] at hlabel
        exact congrArg some hlabel
      next => rfl
  all_goals rfl

theorem labels_withChildren {e : Expr} {cs : List Expr} (h : (e.withChildren cs).children = cs) :
    (e.withChildren cs).labels = e.label?.toList ++ cs.flatMap labels := by
  rw [labels_eq, label?_withChildren, h]

theorem labels_select (s : Select Expr) :
    (select s).labels = s.label :: ((s.columns.map (·.2)).flatMap labels ++
      (s.source.labels ++ s.filter.toList.flatMap labels)) := by
  rw [labels_eq, children, Select.children, List.flatMap_append, List.flatMap_cons]
  rfl

theorem labels_projection (p : Projection Expr) :
    (projection p).labels = (select p.source).labels ++ p.projector.labels := by
  rw [labels_eq, labels_eq (select _)]
  simp [label?, children, Projection.children]

theorem mem_labels_source {p : Projection Expr} {l : String} (h : l ∈ (select p.source).labels) :
    l ∈ (projection p).labels := by
  rw [labels_projection]
  exact List.mem_append_left _ h

theorem mem_labels_projector {p : Projection Expr} {l : String} (h : l ∈ p.projector.labels) :
    l ∈ (projection p).labels := by
  rw [labels_projection]
  exact List.mem_append_right _ h

end Expr

namespace Binding

theorem label_injective : Function.Injective label := by
  intro m n h
  exact Nat.repr_injective ((String.append_right_inj "t").mp h)

theorem label_ne_empty (n : Nat) : label n ≠ "" := by
  intro h
  have hlength := congrArg String.length h
  simp [label, String.length_append] at hlength

/-- The function for one character holds the text and the index, or a constant instead of one. -/
theorem substring_cases {x i r : Expr} (h : substring x i = .ok r) :
    ∃ start, r = .function ⟨.charAt, .substr, some x, [start, .literal (.int32 1)], .char⟩ ∧
      ((∃ v t w, i = .constant v t ∧ start = .literal w) ∨
        start = .binary (.arithmetic .add) i (.literal (.int32 1))) := by
  simp only [substring, bind_eq_ok, pure_eq_ok] at h
  obtain ⟨start, hstart, rfl⟩ := h
  refine ⟨start, rfl, ?_⟩
  cases i with
  | constant v t =>
      obtain ⟨w, -, rfl⟩ := map_eq_ok.mp hstart
      exact .inl ⟨v, t, w, rfl, rfl⟩
  | _ => exact .inr (Except.ok.inj hstart).symm

theorem labels_substring {x i r : Expr} (h : substring x i = .ok r) :
    r.labels = x.labels ++ i.labels := by
  obtain ⟨start, rfl, ⟨v, t, w, rfl, rfl⟩ | rfl⟩ := substring_cases h <;>
    simp [Expr.labels_eq, Expr.label?, Expr.children, FunctionCall.children, Expr.literal]

/-- The labels in the columns declared so far. -/
def Declarations.labels (d : Declarations) : List String := d.columns.flatMap (·.2.labels)

variable {label : String} {sources : List String}

theorem declare_labels (d : Declarations) (base : String) (type : DataType) (e : Expr) :
    (d.declare label base type e).2.labels = d.labels ++ e.labels := by
  simp [Declarations.labels, declare_columns]

theorem labels_column (c : Column) : (Expr.column c).labels = [] := rfl

theorem moveColumn_labels (c : Column) (d : Declarations) :
    ((moveColumn label sources c).run d).2.labels = d.labels := by
  have hrun : (moveColumn label sources c).run d = moveColumn label sources c d := rfl
  rw [hrun, moveColumn]
  split
  next => rfl
  next =>
    split
    · have hdeclare : (d.declare label c.name c.type (.column c)).2.labels = d.labels ++ [] :=
        declare_labels d c.name c.type (.column c)
      rw [List.append_nil] at hdeclare
      exact hdeclare
    · rfl

/-- A node that is moved takes its labels into the declared columns. -/
theorem moveNode_labels {e : Expr} {nested : Bool}
    (h : Nomination.nominates columnRule e nested) (d : Declarations) :
    (((moveNode label sources e).run d).2.labels ++ ((moveNode label sources e).run d).1.labels).Perm
      (d.labels ++ e.labels) := by
  have hcomputed : ((moveComputed label e).run d).2.labels = d.labels ++ e.labels :=
    declare_labels { d with computed := d.computed + 1 } _ _ e
  rw [nominates_columnRule] at h
  cases e with
  | column c =>
      show (((moveColumn label sources c).run d).2.labels ++ (Expr.column _).labels).Perm _
      rw [moveColumn_labels, labels_column, labels_column]
  | function f | subquery f sql =>
      show (((moveComputed label _).run d).2.labels ++ (Expr.column _).labels).Perm _
      rw [hcomputed, labels_column, List.append_nil]
  | _ => simp [isComputed] at h

theorem mapM_labels {f : Expr → StateM Declarations Expr} (cs : List Expr)
    (ih : ∀ c ∈ cs, ∀ d, (((f c).run d).2.labels ++ ((f c).run d).1.labels).Perm
      (d.labels ++ c.labels)) (d : Declarations) :
    (((cs.mapM f).run d).2.labels ++ ((cs.mapM f).run d).1.flatMap Expr.labels).Perm
      (d.labels ++ cs.flatMap Expr.labels) := by
  induction cs generalizing d with
  | nil => exact .refl _
  | cons c cs ihcs =>
      have hc := ih c List.mem_cons_self d
      have hcs := ihcs (fun c hc => ih c (List.mem_cons_of_mem _ hc)) ((f c).run d).2
      rw [List.mapM_cons]
      show (((cs.mapM f).run ((f c).run d).2).2.labels ++
        (((f c).run d).1 :: ((cs.mapM f).run ((f c).run d).2).1).flatMap Expr.labels).Perm _
      rw [List.perm_iff_count] at hc hcs ⊢
      intro l
      have hc := hc l
      have hcs := hcs l
      simp only [List.flatMap_cons, List.count_append] at hc hcs ⊢
      omega

/-- Nothing is lost or doubled: moving parts of an expression into columns keeps its labels. -/
theorem replaceNominated_labels (e : Expr) (nested : Bool) (d : Declarations) :
    (((Nomination.replaceNominated columnRule (moveNode label sources) e nested).run d).2.labels ++
      ((Nomination.replaceNominated columnRule (moveNode label sources) e nested).run d).1.labels).Perm
      (d.labels ++ e.labels) := by
  induction e using Expr.children_induction generalizing nested d with
  | step e ih =>
      rw [Nomination.replaceNominated_eq]
      cases h : Nomination.nominates columnRule e nested with
      | true => exact moveNode_labels h d
      | false =>
          let replace (c : Expr) := Nomination.replaceNominated columnRule (moveNode label sources) c
            (nested || columnRule.opensScope e)
          have hparts := mapM_labels e.children (fun c hc d => ih c hc _ d) d (f := replace)
          have hchildren : (e.withChildren ((e.children.mapM replace).run d).1).children =
              ((e.children.mapM replace).run d).1 := by
            have hmap := congrArg (fun x => (x.run d).1) (Expr.children_mapChildrenM replace e)
            rwa [Expr.mapChildrenM_eq] at hmap
          show (((e.children.mapM replace).run d).2.labels ++
            (e.withChildren ((e.children.mapM replace).run d).1).labels).Perm _
          rw [Expr.labels_withChildren hchildren, Expr.labels_eq e]
          rw [List.perm_iff_count] at hparts ⊢
          intro l
          have hparts := hparts l
          simp only [List.count_append] at hparts ⊢
          omega

/-- The columns of a new select and the projector over them have the labels of the projector. -/
theorem projectColumns_labels (e : Expr) (label : String) (sources : List String) :
    ((projectColumns e label sources).2.flatMap (·.2.labels) ++
      (projectColumns e label sources).1.labels).Perm e.labels := by
  simp only [projectColumns, Nomination.replaceTopmost_eq]
  exact replaceNominated_labels e false {}

theorem projection_labels (projector : Expr) (n : Nat) (sources : List String) (source : Expr)
    (filter : Option Expr) :
    (Expr.projection (projection projector n sources source filter)).labels.Perm
      (Binding.label n :: (source.labels ++ (filter.toList.flatMap Expr.labels ++
        projector.labels))) := by
  have hcolumns := projectColumns_labels projector (Binding.label n) sources
  rw [Expr.labels_projection, Expr.labels_select]
  rw [List.perm_iff_count] at hcolumns ⊢
  intro l
  have hcolumns := hcolumns l
  simp only [projection, List.cons_append, List.count_cons, List.count_append,
    List.flatMap_map] at hcolumns ⊢
  omega

end Binding

end Quarry
