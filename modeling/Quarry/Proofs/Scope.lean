import Quarry.Proofs.Columns
/-!
Scopes of the bound tree: which labels a column may carry where. The columns and the filter of a
select see what its source offers, the condition of a join sees both sides, and a projector sees its
own select; all of them see what encloses them.
-/
namespace Quarry

namespace Expr

/-- The labels that a source of rows offers. -/
def offered : Expr → List String
  | .table t => [t.label]
  | .select s => [s.label]
  | .join _ l r _ => offered l ++ offered r
  | _ => []

def selectExtras (s : Select Expr) : List (List String) :=
  s.columns.map (fun _ => s.source.offered) ++ [] :: s.filter.toList.map fun _ => s.source.offered

/-- For each child of a node, the labels that it sees besides those that the node sees. -/
def extras : Expr → List (List String)
  | .select s => selectExtras s
  | .projection p => selectExtras p.source ++ [[p.source.label]]
  | .join _ l r condition => [] :: [] :: condition.toList.map fun _ => l.offered ++ r.offered
  | e => e.children.map fun _ => []

def isExistenceTest : Expr → Bool
  | .subquery .. => true
  | _ => false

/-- A column names a label that is visible; without a label it stands in an existence test. -/
def isVisible (bare : Bool) (visible : List String) : Expr → Bool
  | .column c => if c.label = "" then bare else decide (c.label ∈ visible)
  | _ => true

/-- Every column of the tree names a label that it can see. -/
def isScoped : Expr → Bool → List String → Bool :=
  fold fun e parts bare visible =>
    e.isVisible bare visible && (parts.zip e.extras).all fun (part, extra) =>
      part (bare || e.isExistenceTest) (visible ++ extra)

theorem length_extras (e : Expr) : e.extras.length = e.children.length := by
  cases e <;> simp [extras, selectExtras, children, Select.children, Projection.children]

variable {bare : Bool} {visible : List String} {e e' : Expr}

theorem isScoped_iff :
    e.isScoped bare visible ↔ e.isVisible bare visible ∧
      List.Forall₂ (fun c extra => c.isScoped (bare || e.isExistenceTest) (visible ++ extra))
        e.children e.extras := by
  rw [isScoped, fold_eq, Bool.and_eq_true, List.forall₂_iff_zip, List.zip_map_left, List.all_map,
    List.all_eq_true]
  constructor
  · rintro ⟨hvisible, hparts⟩
    exact ⟨hvisible, e.length_extras.symm, fun {c extra} h => hparts (c, extra) h⟩
  · rintro ⟨hvisible, -, hparts⟩
    exact ⟨hvisible, fun x hx => hparts hx⟩

theorem isScoped_column {c : Column} :
    (column c).isScoped bare visible ↔ if c.label = "" then bare = true else c.label ∈ visible := by
  rw [isScoped_iff]
  by_cases hc : c.label = "" <;> simp [isVisible, children, extras, hc]

theorem isVisible_mono {bare' : Bool} {visible' : List String} (hb : bare → bare')
    (hv : visible ⊆ visible') (h : e.isVisible bare visible) : e.isVisible bare' visible' := by
  cases e with
  | column c =>
      simp only [isVisible] at h ⊢
      split at h
      next hempty => simpa [hempty] using hb h
      next hempty => simpa [hempty] using hv (by simpa using h)
  | _ => rfl

/-- More labels may be visible. -/
theorem isScoped_mono {bare' : Bool} {visible' : List String} (hb : bare → bare')
    (hv : visible ⊆ visible') (h : e.isScoped bare visible) : e.isScoped bare' visible' := by
  induction e using children_induction generalizing bare bare' visible visible' with
  | step e ih =>
      obtain ⟨hvisible, hchildren⟩ := isScoped_iff.mp h
      refine isScoped_iff.mpr ⟨isVisible_mono hb hv hvisible, ?_⟩
      refine ((List.forall₂_and_left _ _).mpr ⟨fun c hc => hc, hchildren⟩).imp ?_
      rintro c extra ⟨hc, hscoped⟩
      refine ih c hc ?_ ?_ hscoped
      · simpa only [Bool.or_eq_true] using Or.imp_left hb
      · exact List.append_subset.mpr ⟨fun l hl => List.mem_append_left _ (hv hl),
          List.subset_append_right _ _⟩

/-- The parts of a node that opens no scope see what the node sees. -/
theorem isScoped_child {c : Expr} (h : e.isScoped bare visible) (hc : c ∈ e.children)
    (hextras : e.extras = e.children.map fun _ => []) (he : e.isExistenceTest = false) :
    c.isScoped bare visible := by
  obtain ⟨-, hchildren⟩ := isScoped_iff.mp h
  rw [hextras, List.forall₂_map_right_iff, List.forall₂_same] at hchildren
  simpa only [he, Bool.or_false, List.append_nil] using hchildren c hc

theorem isScoped_of_children (hv : e.isVisible bare visible)
    (hextras : e.extras = e.children.map fun _ => []) (he : e.isExistenceTest = false)
    (h : ∀ c ∈ e.children, c.isScoped bare visible) : e.isScoped bare visible := by
  refine isScoped_iff.mpr ⟨hv, ?_⟩
  rw [hextras, List.forall₂_map_right_iff, List.forall₂_same]
  simpa only [he, Bool.or_false, List.append_nil] using h

theorem isScoped_select {s : Select Expr} :
    (select s).isScoped bare visible ↔
      (∀ column ∈ s.columns, column.2.isScoped bare (visible ++ s.source.offered)) ∧
        s.source.isScoped bare visible ∧
        ∀ f ∈ s.filter, f.isScoped bare (visible ++ s.source.offered) := by
  rw [isScoped_iff]
  simp only [isVisible, isExistenceTest, Bool.or_false, true_and, children, Select.children, extras,
    selectExtras]
  rw [forall₂_append_iff (by simp), List.forall₂_cons, List.forall₂_map_left_iff,
    List.forall₂_map_right_iff, List.forall₂_same, List.forall₂_map_right_iff, List.forall₂_same]
  simp

theorem isScoped_join {kind : JoinKind} {l r : Expr} {condition : Option Expr} :
    (join kind l r condition).isScoped bare visible ↔
      l.isScoped bare visible ∧ r.isScoped bare visible ∧
        ∀ c ∈ condition, c.isScoped bare (visible ++ (l.offered ++ r.offered)) := by
  rw [isScoped_iff]
  simp only [isVisible, isExistenceTest, Bool.or_false, true_and, children, extras]
  rw [List.forall₂_cons, List.forall₂_cons, List.forall₂_map_right_iff, List.forall₂_same]
  simp

theorem isScoped_projection {p : Projection Expr} :
    (projection p).isScoped bare visible ↔
      (select p.source).isScoped bare visible ∧
        p.projector.isScoped bare (visible ++ [p.source.label]) := by
  have hlength : p.source.children.length = (selectExtras p.source).length :=
    (length_extras (.select p.source)).symm
  rw [isScoped_iff, isScoped_iff]
  simp only [isVisible, isExistenceTest, Bool.or_false, true_and, children, Projection.children,
    extras]
  rw [forall₂_append_iff hlength]
  simp

/-! Sources and values -/

/-- The sources of rows. -/
def isSource : Expr → Bool
  | .table _ | .select _ | .join .. => true
  | _ => false

/-- Sources of rows stand inside projections only. -/
def isValue : Expr → Bool :=
  fold fun e parts => !e.isSource && (Binding.isProjection e || parts.all id)

theorem isValue_iff :
    e.isValue ↔ e.isSource = false ∧ (Binding.isProjection e ∨ ∀ c ∈ e.children, c.isValue) := by
  rw [isValue, fold_eq]
  simp [List.all_map]

theorem isValue_child {c : Expr} (h : e.isValue) (hp : Binding.isProjection e = false)
    (hc : c ∈ e.children) : c.isValue := by
  rcases (isValue_iff.mp h).2 with hp' | hchildren
  · rw [hp] at hp'
    cases hp'
  · exact hchildren c hc

/-- Only a projection opens a scope among the values, apart from existence tests. -/
theorem extras_of_isValue (h : e.isValue) (hp : Binding.isProjection e = false) :
    e.extras = e.children.map fun _ => [] := by
  have hs := (isValue_iff.mp h).1
  cases e <;> simp_all [Binding.isProjection, extras, isSource]

/-- The type of a node is known from its own content and the types of its children. -/
theorem Alike.staticType_eq {R : Expr → Expr → Prop} (h : Alike R e e')
    (hR : ∀ c c', R c c' → c'.staticType? = c.staticType?) : e'.staticType? = e.staticType? := by
  cases h with
  | leaf => rfl
  | member name h => simp only [staticType?, hR _ _ h]
  | unary op h => cases op <;> simp only [staticType?, hR _ _ h]
  | binary op hl hr => cases op <;> simp only [staticType?, hR _ _ hl, hR _ _ hr]
  | projection shape hs h => simp only [staticType?, hR _ _ h]
  | function h => simp only [staticType?, h.type]
  | _ => rfl

end Expr

namespace Binding

variable {label : String} {sources : List String} {columns : List (String × Expr)}
variable {e e' x : Expr} {nested bare : Bool} {visible visible' : List String}

/-! What a move keeps -/

theorem Reads.staticType_eq (h : Reads label columns e e') (ht : takes sources nested e) :
    e'.staticType? = e.staticType? := by
  obtain ⟨i, name, -, rfl⟩ := h
  cases e <;> simp_all [takes, isComputed, Expr.staticType?]

theorem Moved.staticType_eq (h : Moved label sources columns e nested e') :
    e'.staticType? = e.staticType? := by
  induction h using Moved.induction with
  | taken e nested e' ht h => exact h.staticType_eq ht
  | kept e nested e' ht _ h => exact h.staticType_eq fun _ _ hc => hc.2

theorem Moved.offered_eq (h : Moved label sources columns e nested e') : e'.offered = e.offered := by
  induction h using Moved.induction with
  | taken e nested e' ht h =>
      obtain ⟨i, name, -, rfl⟩ := h
      cases e <;> simp_all [takes, isComputed, Expr.offered]
  | kept e nested e' ht _ h =>
      cases h with
      | leaf => rfl
      | select h => simp only [Expr.offered, h.label]
      | join kind hl hr hc => simp only [Expr.offered, hl.2, hr.2]
      | _ => rfl

theorem selectExtras_congr {R : Expr → Expr → Prop} {s t : Select Expr} (h : s.Alike R t)
    (hR : ∀ c c', R c c' → c'.offered = c.offered) : Expr.selectExtras t = Expr.selectExtras s := by
  have hoffered := hR _ _ h.source
  have hcolumns := h.columns.length_eq
  have hfilter := (Expr.toList_rel h.filter).length_eq
  simp only [Expr.selectExtras, hoffered, List.map_const', hcolumns, hfilter]

theorem extras_congr {R : Expr → Expr → Prop} (h : Expr.Alike R e e')
    (hR : ∀ c c', R c c' → c'.offered = c.offered) : e'.extras = e.extras := by
  have hlength := h.children.length_eq
  cases h with
  | select h => exact selectExtras_congr h hR
  | projection shape h => simp only [Expr.extras, selectExtras_congr h hR, h.label]
  | join kind hl hr hc =>
      simp only [Expr.extras, hR _ _ hl, hR _ _ hr, List.map_const', (Expr.toList_rel hc).length_eq]
  | _ => simp only [Expr.extras, List.map_const', hlength]

theorem Moved.isValue (h : Moved label sources columns e nested e') (hv : e.isValue) :
    e'.isValue := by
  induction h using Moved.induction with
  | taken e nested e' ht h =>
      obtain ⟨i, name, -, rfl⟩ := h
      rfl
  | kept e nested e' ht _ h =>
      have hsource : e'.isSource = e.isSource := by cases h <;> rfl
      have hprojection : isProjection e' = isProjection e := by cases h <;> rfl
      rw [Expr.isValue_iff] at hv ⊢
      rw [hsource, hprojection]
      refine ⟨hv.1, hv.2.imp_right fun hchildren c' hc' => ?_⟩
      obtain ⟨c, hc, -, ih⟩ := exists_of_mem_right h.children hc'
      exact ih (hchildren c hc)

theorem isVisible_of_kept {c : Column} (ht : takes sources nested (.column c) = false)
    (hsub : ∀ l ∈ visible, l ∈ sources ∨ l ∈ visible')
    (h : (Expr.column c).isVisible bare visible) : (Expr.column c).isVisible bare visible' := by
  have hc : c.label ∉ sources := by simpa [takes] using ht
  simp only [Expr.isVisible] at h ⊢
  split at h
  next hempty => simpa [hempty] using h
  next hempty => simpa [hempty] using (hsub c.label (by simpa using h)).resolve_left hc

/-- A moved expression sees the new select in place of the sources. -/
theorem Moved.isScoped (h : Moved label sources columns e nested e') (hl : label ≠ "")
    (hmem : label ∈ visible') (hsub : ∀ l ∈ visible, l ∈ sources ∨ l ∈ visible')
    (hs : e.isScoped bare visible) : e'.isScoped bare visible' := by
  induction h using Moved.induction generalizing bare visible visible' with
  | taken e nested e' ht h =>
      obtain ⟨i, name, -, rfl⟩ := h
      rw [Expr.isScoped_column, if_neg hl]
      exact hmem
  | kept e nested e' ht _ h =>
      have hexists : e'.isExistenceTest = e.isExistenceTest := by cases h <;> rfl
      obtain ⟨hvisible, hchildren⟩ := Expr.isScoped_iff.mp hs
      refine Expr.isScoped_iff.mpr ⟨?_, ?_⟩
      · cases h with
        | @leaf e hleaf =>
            cases e with
            | column c => exact isVisible_of_kept ht hsub hvisible
            | _ => rfl
        | _ => rfl
      · rw [extras_congr h fun c c' hc => hc.1.offered_eq, hexists]
        refine forall₂_of_left ?_ h.children hchildren
        rintro c c' extra ⟨-, ih⟩ hc
        refine ih (List.mem_append_left _ hmem) (fun l hl => ?_) hc
        rcases List.mem_append.mp hl with hl | hl
        · exact (hsub l hl).imp_right (List.mem_append_left _)
        · exact .inr (List.mem_append_right _ hl)

/-! What is taken out -/

theorem taken_cases (h : x ∈ taken sources e nested) :
    (∃ c, x = .column c ∧ c.label ∈ sources) ∨ isComputed x ∧ nested = false := by
  induction e using Expr.children_induction generalizing nested with
  | step e ih =>
      rw [taken_eq] at h
      split at h
      next ht =>
        rw [List.mem_singleton] at h
        subst h
        exact (takes_cases ht).imp_right And.symm
      next =>
        obtain ⟨c, hc, hx⟩ := List.mem_flatMap.mp h
        rcases ih c hc hx with hcolumn | ⟨hcomputed, hnested⟩
        · exact .inl hcolumn
        · exact .inr ⟨hcomputed, (Bool.or_eq_false_iff.mp hnested).1⟩

theorem mem_nodes_of_taken (h : x ∈ taken sources e nested) : x ∈ e.nodes := by
  induction e using Expr.children_induction generalizing nested with
  | step e ih =>
      rw [taken_eq] at h
      split at h
      next => exact List.mem_singleton.mp h ▸ e.self_mem_nodes
      next =>
        obtain ⟨c, hc, hx⟩ := List.mem_flatMap.mp h
        exact Expr.mem_nodes_of_child hc (ih c hc hx)

theorem not_isExistenceTest (h : isComputed e = false) : e.isExistenceTest = false := by
  cases e with
  | subquery f sql => cases h
  | _ => rfl

/-- What is computed stands below nodes that are neither projections nor existence tests, and so it
has whatever these hand on to their children. -/
theorem of_taken {P : Expr → Prop} (h : x ∈ taken sources e false) (hx : isComputed x)
    (hP : ∀ e c, isProjection e = false → e.isExistenceTest = false → c ∈ e.children → P e → P c)
    (he : P e) : P x := by
  induction e using Expr.children_induction with
  | step e ih =>
      rw [taken_eq] at h
      split at h
      next => exact List.mem_singleton.mp h ▸ he
      next ht =>
        obtain ⟨c, hc, hxc⟩ := List.mem_flatMap.mp h
        have hp : isProjection e = false := by
          rcases taken_cases hxc with ⟨_, rfl, -⟩ | ⟨-, hp⟩
          · cases hx
          · exact hp
        have hstays : isComputed e = false := stays_of_takes (Bool.eq_false_of_not_eq_true ht)
        rw [hp] at hxc
        exact ih c hc hxc (hP e c hp (not_isExistenceTest hstays) hc he)

/-- What is computed for a value sees what the value sees. -/
theorem isScoped_of_taken (h : x ∈ taken sources e false) (hx : isComputed x) (hv : e.isValue)
    (hs : e.isScoped bare visible) : x.isScoped bare visible := by
  refine (of_taken (P := fun e => e.isValue ∧ e.isScoped bare visible) h hx ?_ ⟨hv, hs⟩).2
  intro e c hp hexists hc he
  exact ⟨Expr.isValue_child he.1 hp hc,
    Expr.isScoped_child he.2 hc (Expr.extras_of_isValue he.1 hp) hexists⟩

end Binding

end Quarry
