import Quarry.Proofs.Provenance
import Quarry.Proofs.Uniqueness
/-!
Labels on the two sides of a join. A parameter may stand for a query, which is copied with its labels
to wherever the parameter occurs. Nothing else brings a label to both sides: whatever they share was
read through the parameters in sight, on the left and on the right.
-/
namespace Quarry

/-- The labels that occur on both sides of a join. -/
def Expr.sharedLabels : Expr → List String
  | .join _ left right _ => left.labels.filter (· ∈ right.labels)
  | _ => []

namespace Binding

/-! Where labels come from -/

variable {catalog : Catalog} {style : IdentifierCase} {env : List (Nat × Expr)} {n m : Nat}
variable {e r x : Expr} {l : String}

/-- Every label of a bound expression was given out meanwhile or read of the environment. -/
theorem Binds.label_cases (h : Binds catalog style env n e r m) (hl : l ∈ r.labels) :
    (∃ i, n ≤ i ∧ i < m ∧ l = label i) ∨ ∃ x ∈ reads e env, l ∈ x.labels := by
  by_contra hnot
  have hD : (Demand.ofLabels (· ≠ l)).Allows n m := by
    refine ⟨fun i hi hlt heq => ?_, fun _ _ => trivial, fun _ _ _ => trivial⟩
    exact hnot (.inl ⟨i, hi, hlt, heq.symm⟩)
  have hmet : (Demand.ofLabels (· ≠ l)).Met r := by
    refine h.met hD fun x hx => Demand.met_ofLabels.mpr ?_
    rintro _ hl' rfl
    exact hnot (.inr ⟨x, hx, hl'⟩)
  exact Demand.met_ofLabels.mp hmet l hl rfl

/-- Every label in the tree is one of the first `n`. -/
def Older (n : Nat) (e : Expr) : Prop := ∀ l ∈ e.labels, ∃ i < n, l = label i

theorem Older.mono (h : Older n e) (hle : n ≤ m) : Older m e := by
  intro l hl
  obtain ⟨i, hi, rfl⟩ := h l hl
  exact ⟨i, by omega, rfl⟩

/-- What the parameters in sight stand for has no label that is still to be given out. -/
theorem older_handedOn : HandedOn catalog style fun _ => Older where
  mono hle h := h.mono hle
  bare h := h
  member hx h := Demand.met_ofLabels.mp ((Demand.met_ofLabels.mpr h).part (.member .self hx))
  projector h := fun l hl => h l (Expr.mem_labels_projector hl)
  record := by simp [Older, labels_tableRecord]
  binds h hreads := by
    intro l hl
    rcases h.label_cases hl with ⟨i, -, hi, rfl⟩ | ⟨x, hx, hl⟩
    · exact ⟨i, hi, rfl⟩
    · exact (hreads x hx).mono h.le l hl

/-- A label of both sources of a join is read by both, since what is given out is new. -/
theorem reads_of_shared {receiver : Option Expr} {a b y : Expr} {rest : List Expr} {s₁ s₂ : Scope}
    {site : Site} (ha : Walks catalog style site.scope a x s₁) (hb : Walks catalog style s₁ b y s₂)
    (hclosed : (Expr.call .join receiver (a :: b :: rest)).isClosed site.ids)
    (hsite : site.Holds fun _ => Older) (hx : l ∈ x.labels) (hy : l ∈ y.labels) :
    (∃ z ∈ reads a site.scope.bound, l ∈ z.labels) ∧ ∃ z ∈ reads b site.scope.bound, l ∈ z.labels := by
  have hclosed₁ : a.isClosed site.ids := Expr.isClosed_arg hclosed (by simp)
  have hclosed₂ : b.isClosed site.ids := Expr.isClosed_arg hclosed (by simp)
  obtain ⟨hbinds₁, hkeeps⟩ := ha.binds hclosed₁ hsite.agrees
  obtain ⟨hbinds₂, -⟩ := hb.binds hclosed₂ (hsite.agrees.keeps hkeeps)
  have hle := hbinds₁.le
  have laws : HandedOn catalog style fun _ => Older := older_handedOn
  rcases hbinds₁.label_cases hx with ⟨i, hi, hlt, rfl⟩ | hreads
  · rcases hbinds₂.label_cases hy with ⟨j, hj, -, heq⟩ | ⟨z, hz, hl⟩
    · have := label_injective heq
      omega
    · obtain ⟨j, hj, heq⟩ := hsite.of_reads laws hclosed₂ hz _ hl
      have := label_injective heq
      omega
  · rcases hbinds₂.label_cases hy with ⟨j, hj, -, rfl⟩ | hreads'
    · obtain ⟨z, hz, hl⟩ := hreads
      obtain ⟨i, hi, heq⟩ := hsite.of_reads laws hclosed₁ hz _ hl
      have := label_injective heq
      omega
    · exact ⟨hreads, hreads'⟩

/-! What joins share -/

/-- A move adds no label. -/
theorem Moved.labels_subset {label : String} {sources : List String}
    {columns : List (String × Expr)} {nested : Bool} {e' : Expr}
    (h : Moved label sources columns e nested e') : e'.labels ⊆ e.labels := by
  induction h using Moved.induction with
  | taken e nested e' ht h =>
      obtain ⟨i, name, -, rfl⟩ := h
      exact List.nil_subset _
  | kept e nested e' ht _ h =>
      intro l hl
      rw [Expr.labels_eq, h.label_eq] at hl
      rw [Expr.labels_eq]
      refine List.mem_append.mpr ((List.mem_append.mp hl).imp_right fun hl => ?_)
      obtain ⟨c', hc', hl⟩ := List.mem_flatMap.mp hl
      obtain ⟨c, hc, -, hsub⟩ := exists_of_mem_right h.children hc'
      exact List.mem_flatMap.mpr ⟨c, hc, hsub hl⟩

/-- Joins share only labels that are `copied`, if new joins do: a move leaves joins in place, and
their sides share no more than before. -/
theorem sharedLabels_nodeInvariant (copied : String → Prop) :
    NodeInvariant
      { node := fun x => x.isComposed
        join := fun p q =>
          ∀ l ∈ (Expr.select p.source).labels, l ∈ (Expr.select q.source).labels → copied l }
      true fun x => ∀ l ∈ x.sharedLabels, copied l where
  neutral {e} he := by
    cases e with
    | join => cases he
    | _ => exact List.forall_mem_nil _
  unary _ := List.forall_mem_nil _
  column _ _ := List.forall_mem_nil _
  bare _ _ := List.forall_mem_nil _
  table _ _ := List.forall_mem_nil _
  projection _ _ := List.forall_mem_nil _
  select _ := List.forall_mem_nil _
  list _ := List.forall_mem_nil _
  source _ _ _ := List.forall_mem_nil _
  join hshared l hl := by
    obtain ⟨hleft, hright⟩ := List.mem_filter.mp hl
    exact hshared l hleft (by simpa using hright)
  moved hcopied halike l hl := by
    refine hcopied l ?_
    cases halike with
    | leaf => exact hl
    | join kind hleft hright hc =>
        obtain ⟨hl, hr⟩ := List.mem_filter.mp hl
        refine List.mem_filter.mpr ⟨hleft.labels_subset hl, ?_⟩
        simpa using hright.labels_subset (by simpa using hr)
    | _ => cases hl

/-- The label is read through parameters by both sources of a join that the walk comes to. -/
def Copied (catalog : Catalog) (style : IdentifierCase) (site : Site) (e : Expr) (l : String) :
    Prop :=
  ∃ site' receiver a b rest,
    Comes catalog style site e site' (.call .join receiver (a :: b :: rest)) ∧
    (∃ x ∈ reads a site'.scope.bound, l ∈ x.labels) ∧ ∃ y ∈ reads b site'.scope.bound, l ∈ y.labels

/-- Whatever the sides of a join in a bound query share, both sources of a join of the query read
through parameters that stand for queries. -/
theorem shared_labels_copied {P : Projection Expr} (hclosed : e.isClosed [])
    (h : bind catalog style e = .ok P) :
    ∀ x ∈ (Expr.projection P).nodes, ∀ l ∈ x.sharedLabels, Copied catalog style {} e l := by
  obtain ⟨s, hwalks⟩ := walks_of_bind h
  have hjoins : JoinsMeet catalog style (fun p q => ∀ l ∈ (Expr.select p.source).labels,
      l ∈ (Expr.select q.source).labels → Copied catalog style {} e l) {} e := by
    intro site receiver a b rest p q s₁ s₂ hcomes ha hb l hl hl'
    obtain ⟨hsite, hclosed⟩ := hcomes.holds older_handedOn (List.forall_mem_nil _) hclosed
    exact ⟨site, receiver, a, b, rest, hcomes, reads_of_shared ha hb hclosed hsite
      (Expr.mem_labels_source hl) (Expr.mem_labels_source hl')⟩
  exact hwalks.forall_mem_nodes (sharedLabels_nodeInvariant (Copied catalog style {} e))
    (fun _ => trivial) (fun _ => List.forall_mem_nil _)
    (fun _ hbound hfine => absurd hbound (by simp [Expr.isBound_of_isComposed hfine.self])) hjoins
    (Expr.nodes_isComposed hclosed)

/-- The items, once for each owner, joined with themselves. -/
def itemsTwice : Expr :=
  let owner : Parameter := ⟨0, "o", .entity "Owner"⟩
  let items : Parameter := ⟨1, "q", .query (.entity "Item")⟩
  let left : Parameter := ⟨2, "a", .entity "Item"⟩
  let right : Parameter := ⟨3, "b", .entity "Item"⟩
  let pair : List Parameter := [⟨4, "c", .entity "Item"⟩, ⟨5, "d", .entity "Item"⟩]
  .call .select none [.call .select none [.collection "Owner", .lambda [owner] (.collection "Item")],
    .lambda [items] (.call .join none [.parameter items, .parameter items,
      .lambda [left] (.member (.parameter left) "Id"),
      .lambda [right] (.member (.parameter right) "Owner"),
      .lambda pair (.member (.parameter ⟨4, "c", .entity "Item"⟩) "Id")])]

/-- A query that a parameter stands for can be on both sides of one join. -/
theorem itemsTwice_sides_share :
    itemsTwice.isClosed [] ∧ ∃ P, bind ownership .preserve itemsTwice = .ok P ∧
      (Expr.projection P).nodes.flatMap Expr.sharedLabels = ["t3", "t2"] := by
  refine ⟨by decide, _, by cbv, by cbv⟩

theorem shared_labels_copied_of_itemsTwice :
    itemsTwice.isClosed [] ∧ ∃ P, bind ownership .preserve itemsTwice = .ok P ∧
      (∃ x ∈ (Expr.projection P).nodes, "t3" ∈ x.sharedLabels) ∧
      Copied ownership .preserve {} itemsTwice "t3" := by
  have hclosed : itemsTwice.isClosed [] := by decide
  obtain ⟨P, hbind, hshared⟩ : ∃ P, bind ownership .preserve itemsTwice = .ok P ∧
      (Expr.projection P).nodes.flatMap Expr.sharedLabels = ["t3", "t2"] := ⟨_, by cbv, by cbv⟩
  have hmem : "t3" ∈ (Expr.projection P).nodes.flatMap Expr.sharedLabels := by
    rw [hshared]
    exact List.mem_cons_self
  obtain ⟨x, hx, hl⟩ := List.mem_flatMap.mp hmem
  exact ⟨hclosed, P, hbind, ⟨x, hx, hl⟩, shared_labels_copied hclosed hbind x hx "t3" hl⟩

end Binding

end Quarry
