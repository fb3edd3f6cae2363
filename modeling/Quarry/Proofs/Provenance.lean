import Quarry.Proofs.Invariants
/-!
Where the parts of a bound expression come from. A parameter stands for an expression, which is
copied to wherever the parameter occurs; all else is new, and carries labels that are given out
meanwhile. What is asked of every label and of every column therefore holds of a bound expression if
it holds of what the expression reads through its parameters.
-/
namespace Quarry.Binding

variable {env : List (Nat × Expr)} {e r x : Expr}

/-! What is asked of labels and columns -/

/-- Something asked of the label of every table and select and of every column; what stands in
existence tests is asked only if `inside`. -/
structure Demand where
  label : String → Prop
  column : Column → Prop
  inside : Bool

namespace Demand

/-- What is asked of one node. -/
def Node (D : Demand) : Expr → Prop
  | .column c => D.column c
  | e => ∀ l ∈ e.label?, D.label l

abbrev Met (D : Demand) (e : Expr) : Prop := e.Everywhere D.inside D.Node

/-- The demand is met by what is new: the labels between two counts, the columns under a label that
meets it, and the columns of a table in an existence test. -/
structure Allows (D : Demand) (n m : Nat) : Prop where
  new : ∀ i, n ≤ i → i < m → D.label (Binding.label i)
  column : ∀ c : Column, D.label c.label → D.column c
  bare : D.inside → ∀ c : Column, c.label = "" → D.column c

variable {D : Demand} {n m : Nat}

theorem node_of_unlabelled (hl : e.label? = none) (hc : ∀ c, e ≠ .column c) : D.Node e := by
  cases e with
  | column c => exact absurd rfl (hc c)
  | _ => simp [Node, hl]

theorem Node.alike {R : Expr → Expr → Prop} {e' : Expr} (h : D.Node e) (hee : Expr.Alike R e e') :
    D.Node e' := by
  have hlabel := hee.label_eq
  cases hee with
  | leaf => exact h
  | _ =>
      simp only [Node, hlabel] at h ⊢
      exact h

theorem met_tableRecord (t : Table) (type : DataType) {l : String}
    (h : ∀ c : Column, c.label = l → D.column c) : D.Met (.construct type (tableColumns t l)) :=
  everywhere_tableRecord (node_of_unlabelled rfl (by simp)) fun _ _ _ => h _ rfl

/-- A demand is a property of nodes that binding keeps, where the labels given out meet it. -/
theorem Allows.nodeInvariant (hD : D.Allows n m) :
    NodeInvariant { label := fun i => D.label (Binding.label i) } D.inside D.Node where
  neutral {e} he := by
    cases e with
    | constant | member | binary | construct | function | subquery =>
        exact node_of_unlabelled rfl (by simp)
    | _ => cases he
  unary _ := node_of_unlabelled rfl (by simp)
  column hn hc := hD.column _ (hc ▸ hn)
  bare hinside hc := hD.bare hinside _ hc
  table hn ht := by
    rintro l ⟨⟩
    exact ht ▸ hn
  projection hn hp := by
    rintro l ⟨⟩
    exact hp ▸ hn
  select h := h
  list h := h
  source _ h hc := hD.column _ (hc ▸ h _ rfl)
  join _ := node_of_unlabelled rfl (by simp [joined])
  moved h halike := h.alike halike

theorem Met.part {v : Expr} (h : D.Met v) (hpart : Part v x) : D.Met x :=
  hpart.holds h fun _ _ _ hz hy => everywhere_memberOf hz hy (node_of_unlabelled rfl (by simp))

/-- Something asked of the labels only, everywhere in a tree. -/
def ofLabels (L : String → Prop) : Demand := ⟨L, fun _ => True, true⟩

theorem met_ofLabels {L : String → Prop} : (ofLabels L).Met e ↔ ∀ l ∈ e.labels, L l := by
  have hnode (x : Expr) : (ofLabels L).Node x ↔ ∀ l ∈ x.label?, L l := by
    cases x <;> simp [Node, ofLabels, Expr.label?]
  rw [Met, show (ofLabels L).inside = true from rfl, Expr.everywhere_true]
  simp only [hnode, Expr.labels, List.mem_filterMap, Option.mem_def]
  constructor
  · rintro h l ⟨x, hx, hl⟩
    exact h x hx l hl
  · intro h x hx l hl
    exact h l ⟨x, hx, hl⟩

/-- Something asked of the columns, where every label is one that was given out. -/
def ofColumns (C : Column → Prop) (inside : Bool) : Demand where
  label l := ∃ i, l = Binding.label i
  column := C
  inside := inside

theorem ofColumns_allows {C : Column → Prop} {inside : Bool}
    (hlabel : ∀ (c : Column) i, c.label = Binding.label i → C c)
    (hbare : inside → ∀ c : Column, c.label = "" → C c) (n m : Nat) :
    (ofColumns C inside).Allows n m := by
  refine ⟨fun i _ _ => ⟨i, rfl⟩, ?_, hbare⟩
  rintro c ⟨i, hi⟩
  exact hlabel c i hi

theorem met_ofColumns {C : Column → Prop} {inside : Bool}
    (hl : ∀ l ∈ e.labels, ∃ i, l = Binding.label i)
    (hc : ∀ c, .column c ∈ e.reached inside → C c) : (ofColumns C inside).Met e := by
  intro x hx
  cases x with
  | column c => exact hc c hx
  | _ => exact fun l h => hl l (List.mem_filterMap.mpr ⟨_, Expr.reached_subset hx, h⟩)

end Demand

/-! Derivations -/

/-- What is bound meets a demand if all that is read through parameters meets it. -/
theorem Binds.met {catalog : Catalog} {style : IdentifierCase} {n m : Nat} {D : Demand}
    (h : Binds catalog style env n e r m) (hD : D.Allows n m)
    (hreads : ∀ x ∈ reads e env, D.Met x) : D.Met r := by
  obtain ⟨_, -, hr⟩ := h.invariant hD.nodeInvariant.invariant (fun _ _ => trivial)
    (fun _ _ => trivial) hD.new (fun _ => []) false [] fun x hx _ => hreads x hx
  exact hr fun hbare => by cases hbare

end Quarry.Binding
