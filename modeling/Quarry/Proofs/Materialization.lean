import Quarry.Proofs.Resolution
import Quarry.Proofs.Specialization
/-!
Every projector of a bound query has a materializer, and so has that of each nested projection once
the rows around it are turned into outer row references.
-/
namespace Quarry

namespace Expr

/-- What a value can be built from without the help of the query text: columns and constants, and
records, members and operators over them. A nested projection counts as a whole, and so does a
result of the query text if `computing`. -/
def isMaterial (computing : Bool) : Expr → Bool :=
  fold fun e parts =>
    match e with
    | .constant .. | .column _ | .outerRow _ | .projection _ => true
    | .function _ | .subquery .. => computing
    | .member .. | .unary .. | .binary .. | .construct .. => parts.all id
    | _ => false

/-- The forms that `isMaterial` looks into. -/
def isComposite : Expr → Bool
  | .member .. | .unary .. | .binary .. | .construct .. => true
  | _ => false

variable {computing : Bool} {e : Expr}

theorem isMaterial_of_isComposite (h : e.isComposite) :
    e.isMaterial computing ↔ ∀ c ∈ e.children, c.isMaterial computing := by
  rw [isMaterial, fold_eq]
  cases e with
  | member | unary | binary | construct => simp [List.all_map]
  | _ => cases h

theorem isMaterial_child {c : Expr} (h : e.isMaterial computing) (he : e.isComposite)
    (hc : c ∈ e.children) : c.isMaterial computing := (isMaterial_of_isComposite he).mp h c hc

/-- A node that stands for a value where `k` rows enclose the query: projectors are material, and an
outer row reference means one of the rows. -/
def isReady (k : Nat) : Expr → Bool
  | .projection p => p.projector.isMaterial false
  | .outerRow row => decide (row.depth < k)
  | .call .. => false
  | _ => true

end Expr

namespace Binding

variable {label : String} {sources : List String} {columns : List (String × Expr)}
variable {e m : Expr} {nested : Bool}

/-- A result of the query text becomes a column, unless it belongs to a nested projection. -/
theorem Moved.isMaterial (h : Moved label sources columns e nested m)
    (he : e.isMaterial (!nested)) : m.isMaterial false := by
  induction h using Moved.induction with
  | taken e nested m ht h =>
      obtain ⟨i, name, -, rfl⟩ := h
      rfl
  | kept e nested m ht _ h =>
      have hcomposite (hce : e.isComposite) (hcm : m.isComposite) : m.isMaterial false := by
        have hscope : (nested || isProjection e) = nested := by
          cases e with
          | projection => cases hce
          | _ => exact Bool.or_false nested
        refine (Expr.isMaterial_of_isComposite hcm).mpr fun c' hc' => ?_
        obtain ⟨c, hc, _, ih⟩ := exists_of_mem_right h.children hc'
        rw [hscope] at ih
        exact ih (Expr.isMaterial_child he hce hc)
      cases h with
      | @leaf e hleaf =>
          cases e with
          | constant | column | outerRow => rfl
          | captured | parameter | collection | table => cases he
          | _ => cases hleaf
      | member | unary | binary | construct => exact hcomposite rfl rfl
      | projection => rfl
      | function | subquery =>
          -- kept only inside a nested projection, where it would not be material
          cases nested with
          | false => cases ht
          | true => cases he
      | _ => cases he

theorem Moved.isReady {k : Nat} (h : Moved label sources columns e nested m)
    (he : ∀ x ∈ e.nodes, x.isReady k) : ∀ x ∈ m.nodes, x.isReady k := by
  rw [← Expr.everywhere_true] at he ⊢
  refine h.everywhere (I := fun _ _ => True) he trivial (fun _ _ _ _ _ => trivial) ?_ ?_
  · rintro e _ ⟨i, name, -, rfl⟩
    rfl
  · intro nested e m _ _ hnode halike
    cases halike with
    | leaf => exact hnode
    | projection shape hs hp =>
        rw [isProjection, Bool.or_true] at hp
        exact hp.isMaterial hnode
    | call => cases hnode
    | _ => rfl

/-- What a part of a query is bound to can be built from rows and the results of the query text. -/
structure Readable (e : Expr) : Prop where
  material : e.isMaterial true
  ready : ∀ x ∈ e.nodes, x.isReady 0

theorem readable_of_children (he : e.isComposite) (h : ∀ c ∈ e.children, Readable c) :
    Readable e where
  material := (Expr.isMaterial_of_isComposite he).mpr fun c hc => (h c hc).material
  ready := by
    refine Expr.forall_mem_nodes.mpr ⟨?_, fun c hc => (h c hc).ready⟩
    cases e <;> first | rfl | cases he

theorem Readable.child {c : Expr} (h : Readable e) (he : e.isComposite) (hc : c ∈ e.children) :
    Readable c :=
  ⟨Expr.isMaterial_child h.material he hc, fun x hx => h.ready x (Expr.mem_nodes_of_child hc hx)⟩

theorem readable_leaf (he : e.children = []) (hm : e.isMaterial true) (hr : e.isReady 0) :
    Readable e := ⟨hm, Expr.forall_mem_nodes.mpr ⟨hr, fun _ hc => by rw [he] at hc; cases hc⟩⟩

theorem readable_constant (v : Value) (t : DataType) : Readable (.constant v t) :=
  readable_leaf rfl rfl rfl

theorem readable_column (c : Column) : Readable (.column c) := readable_leaf rfl rfl rfl

theorem readable_binary {op : BinaryOperator} {a b : Expr} (ha : Readable a) (hb : Readable b) :
    Readable (.binary op a b) := by
  refine readable_of_children rfl fun c hc => ?_
  rcases List.mem_pair.mp hc with rfl | rfl
  · exact ha
  · exact hb

theorem readable_construct {t : DataType} {ms : List (String × Expr)}
    (h : ∀ x ∈ ms, Readable x.2) : Readable (.construct t ms) := by
  refine readable_of_children rfl fun c hc => ?_
  obtain ⟨x, hx, rfl⟩ := List.mem_map.mp hc
  exact h x hx

/-- A result of the query text is read as a whole, whatever it is computed from. -/
theorem readable_computed (he : isComputed e) (h : ∀ c ∈ e.children, Readable c) : Readable e where
  material := by cases e <;> first | rfl | cases he
  ready := by
    refine Expr.forall_mem_nodes.mpr ⟨?_, fun c hc => (h c hc).ready⟩
    cases e <;> first | rfl | cases he

theorem readable_tableColumns (t : Table) (l : String) (type : DataType) :
    Readable (.construct type (tableColumns t l)) := by
  refine readable_construct fun x hx => ?_
  obtain ⟨i, member, -, rfl⟩ := mem_tableColumns hx
  exact readable_column _

theorem isMaterial_mono (h : e.isMaterial false) : e.isMaterial true := by
  induction e using Expr.children_induction with
  | step e ih =>
      cases hc : e.isComposite with
      | true =>
          rw [Expr.isMaterial_of_isComposite hc] at h ⊢
          exact fun c hmem => ih c hmem (h c hmem)
      | false => cases e <;> first | rfl | cases h | cases hc

theorem Readable.projector {p : Projection Expr} (h : Readable (.projection p)) :
    Readable p.projector := by
  obtain ⟨hnode, -, hprojector⟩ := forall_mem_nodes_projection.mp h.ready
  exact ⟨isMaterial_mono hnode, hprojector⟩

theorem Readable.source_ready {p : Projection Expr} (h : Readable (.projection p)) :
    (Expr.select p.source).Everywhere true (·.isReady 0) :=
  (Expr.everywhere_true.mpr h.ready).source fun _ => rfl

theorem projection_readable {projector source : Expr} {filter : Option Expr} {n : Nat}
    (hp : Readable projector) (hs : source.Everywhere true (·.isReady 0))
    (hf : ∀ f ∈ filter, Readable f) :
    Readable (.projection (projection projector n sources source filter)) := by
  have hproj := projectColumns_projected projector (Binding.label n) sources
  refine ⟨rfl, Expr.everywhere_true.mp ?_⟩
  exact everywhere_projection (hproj.moved.isMaterial hp.material) (Expr.everywhere_true.mpr hp.ready)
    hs (fun f hmem => Expr.everywhere_true.mpr (hf f hmem).ready)
    (Expr.everywhere_true.mpr (hproj.moved.isReady hp.ready)) (by simp) fun _ h => h

theorem tableProjection_readable (t : Table) (n : Nat) :
    Readable (.projection (tableProjection t n)) := by
  refine ⟨rfl, Expr.everywhere_true.mp
    (everywhere_tableProjection ?_ rfl rfl fun _ _ _ _ _ _ => rfl)⟩
  refine (Expr.isMaterial_of_isComposite rfl).mpr fun c hc => ?_
  obtain ⟨x, hx, rfl⟩ := List.mem_map.mp hc
  obtain ⟨i, member, -, rfl⟩ := mem_tableColumns hx
  rfl

/-- To be readable is an invariant of binding. -/
theorem readable_invariant {catalog : Catalog} : Invariant catalog {} fun _ => Readable where
  mono _ h := h
  constant _ := readable_constant _ _
  literal := readable_constant _ _
  collection _ _ _ _ := tableProjection_readable _ _
  record _ := readable_tableColumns _ _ _
  member _ h := readable_of_children rfl fun _ hc => List.mem_singleton.mp hc ▸ h
  unary _ h := readable_of_children rfl fun _ hc => List.mem_singleton.mp hc ▸ h
  binary := readable_binary
  construct := ⟨fun h _ hx => h.child rfl (List.mem_map_of_mem hx), readable_construct⟩
  character hx hstart hone := readable_computed rfl
    (by simp [Expr.children, FunctionCall.children, hx, hstart, hone])
  projector h := h.projector
  select _ _ _ hp hb hf hr := hr ▸ projection_readable hb hp.source_ready hf
  join _ _ _ _ hp hq ha hb hc hr := by
    subst hr
    refine projection_readable hc ?_ (by simp)
    exact everywhere_joined rfl hp.source_ready hq.source_ready
      (Expr.everywhere_true.mpr (readable_binary ha hb).ready)
  list _ _ h := ⟨rfl, forall_mem_nodes_projection.mpr (forall_mem_nodes_projection.mp h.ready)⟩
  existence _ _ h := readable_computed rfl fun _ hc => List.mem_singleton.mp hc ▸ h

/-- What is bound is readable where the parameters stand for what is readable. -/
theorem Binds.readable {catalog : Catalog} {style : IdentifierCase} {env : List (Nat × Expr)}
    {n k : Nat} {r : Expr} (h : Binds catalog style env n e r k)
    (henv : ∀ x ∈ env, Readable x.2) : Readable r := by
  obtain ⟨-, -, hr⟩ := h.invariant_of_env readable_invariant (fun _ _ => trivial)
    (fun _ _ => trivial) (fun _ _ _ => trivial) (fun _ => []) false [] henv
  exact hr

end Binding

/-! Depth -/

namespace Expr

theorem projectionDepth_eq (e : Expr) :
    e.projectionDepth = (e.children.map projectionDepth).foldr max 0 +
      (if Binding.isProjection e then 1 else 0) := by
  rw [projectionDepth, fold_eq]
  cases e <;> rfl

theorem projectionDepth_child {e c : Expr} (hc : c ∈ e.children) :
    c.projectionDepth ≤ e.projectionDepth := by
  rw [projectionDepth_eq e]
  exact (List.le_max_of_le (List.mem_map_of_mem hc) le_rfl).trans (Nat.le_add_right _ _)

/-- The projector of a nested projection is less deep than the projection. -/
theorem projectionDepth_projector (p : Projection Expr) :
    p.projector.projectionDepth < (projection p).projectionDepth := by
  have hc : p.projector ∈ (projection p).children := by simp [children, Projection.children]
  rw [projectionDepth_eq (.projection p)]
  exact Nat.lt_succ_of_le (List.le_max_of_le (List.mem_map_of_mem hc) le_rfl)

end Expr

/-! Inside a nested projection -/

section Correlation

open Materializer

variable {label : String} {e : Expr}

/-- Where a row is put in the place of its columns, or not. -/
theorem Materializer.correlateNode_cases (label : String) (e : Expr) :
    (∃ row, correlateNode label e = some (.outerRow row) ∧
      ((∃ c, e = .column c ∧ row.depth = 0) ∨
        ∃ outer, e = .outerRow outer ∧ row.depth = outer.depth + 1)) ∨
    correlateNode label e = none ∧ (∀ c, e = .column c → c.label ≠ label) ∧
      ∀ row, e ≠ .outerRow row := by
  cases e with
  | column c =>
      by_cases hc : c.label = label
      · exact .inl ⟨_, if_pos hc, .inl ⟨c, rfl, rfl⟩⟩
      · refine .inr ⟨if_neg hc, ?_, by simp⟩
        rintro c' ⟨⟩
        exact hc
  | outerRow outer => exact .inl ⟨_, rfl, .inr ⟨outer, rfl, rfl⟩⟩
  | _ => exact .inr ⟨rfl, by simp, by simp⟩

theorem correlated_projectionDepth (label : String) (e : Expr) :
    (e.rewrite (correlateNode label)).projectionDepth = e.projectionDepth := by
  induction e using Expr.children_induction with
  | step e ih =>
      rcases correlateNode_cases label e with ⟨row, hrow, he⟩ | ⟨hnone, -, -⟩
      · rw [Expr.rewrite_some hrow]
        rcases he with ⟨c, rfl, -⟩ | ⟨outer, rfl, -⟩ <;> rfl
      · have halike := Expr.rewrite_none hnone
        have hprojection : Binding.isProjection (e.rewrite (correlateNode label)) =
            Binding.isProjection e := by
          generalize e.rewrite (correlateNode label) = e' at halike
          cases halike <;> rfl
        have hdepths : List.Forall₂ (fun c c' => c'.projectionDepth = c.projectionDepth) e.children
            (e.rewrite (correlateNode label)).children :=
          halike.children.imp fun c c' hc => by rw [hc.2, ih c hc.1]
        have hsame : (e.rewrite (correlateNode label)).children.map Expr.projectionDepth =
            e.children.map Expr.projectionDepth := by
          rw [← List.forall₂_eq_eq_eq, List.forall₂_map_left_iff, List.forall₂_map_right_iff]
          exact hdepths.flip
        rw [Expr.projectionDepth_eq, Expr.projectionDepth_eq e, hsame, hprojection]

theorem correlated_offered (label : String) (e : Expr) :
    (e.rewrite (correlateNode label)).offered = e.offered := by
  induction e using Expr.children_induction with
  | step e ih =>
      rcases correlateNode_cases label e with ⟨row, hrow, he⟩ | ⟨hnone, -, -⟩
      · rw [Expr.rewrite_some hrow]
        rcases he with ⟨c, rfl, -⟩ | ⟨outer, rfl, -⟩ <;> rfl
      · have halike := Expr.rewrite_none hnone
        generalize e.rewrite (correlateNode label) = e' at halike
        cases halike with
        | leaf => rfl
        | select h => simp only [Expr.offered, h.label]
        | join kind hl hr hc =>
            simp only [Expr.offered, hl.2, hr.2, ih _ hl.1, ih _ hr.1]
        | _ => rfl

theorem correlated_isMaterial {computing : Bool} (h : e.isMaterial computing) :
    (e.rewrite (correlateNode label)).isMaterial computing := by
  induction e using Expr.children_induction with
  | step e ih =>
      rcases correlateNode_cases label e with ⟨row, hrow, -⟩ | ⟨hnone, -, -⟩
      · rw [Expr.rewrite_some hrow]
        rfl
      · have halike := Expr.rewrite_none hnone
        generalize e.rewrite (correlateNode label) = e' at halike
        have hcomposite (he : e.isComposite) (he' : e'.isComposite) : e'.isMaterial computing := by
          refine (Expr.isMaterial_of_isComposite he').mpr fun c' hc' => ?_
          obtain ⟨c, hc, -, rfl⟩ := exists_of_mem_right halike.children hc'
          exact ih c hc (Expr.isMaterial_child h he hc)
        cases halike with
        | leaf => exact h
        | member | unary | binary | construct => exact hcomposite rfl rfl
        | projection => rfl
        | function | subquery => exact h
        | _ => cases h

/-- One more row encloses what stands inside a nested projection. -/
theorem correlated_isReady {k : Nat} (h : ∀ x ∈ e.nodes, x.isReady k) :
    ∀ x ∈ (e.rewrite (correlateNode label)).nodes, x.isReady (k + 1) := by
  induction e using Expr.children_induction with
  | step e ih =>
      obtain ⟨hnode, hbelow⟩ := Expr.forall_mem_nodes.mp h
      rcases correlateNode_cases label e with ⟨row, hrow, he⟩ | ⟨hnone, -, houter⟩
      · rw [Expr.rewrite_some hrow]
        refine Expr.forall_mem_nodes.mpr ⟨?_, List.forall_mem_nil _⟩
        rcases he with ⟨c, rfl, hdepth⟩ | ⟨outer, rfl, hdepth⟩
        · simp [Expr.isReady, hdepth]
        · simpa [Expr.isReady, hdepth] using hnode
      · have halike := Expr.rewrite_none hnone
        generalize e.rewrite (correlateNode label) = e' at halike
        refine Expr.forall_mem_nodes.mpr ⟨?_, fun c' hc' => ?_⟩
        · cases halike with
          | @leaf e =>
              cases e with
              | outerRow row => exact absurd rfl (houter row)
              | _ => exact hnode
          | projection shape hs hp =>
              rw [Expr.isReady, hp.2]
              exact correlated_isMaterial hnode
          | call => cases hnode
          | _ => rfl
        · obtain ⟨c, hc, -, rfl⟩ := exists_of_mem_right halike.children hc'
          exact ih c hc (hbelow c hc)

/-- The columns of the row are out of sight. -/
theorem correlated_isScoped {bare : Bool} {visible visible' : List String}
    (hsub : ∀ l ∈ visible, l = label ∨ l ∈ visible') (h : e.isScoped bare visible) :
    (e.rewrite (correlateNode label)).isScoped bare visible' := by
  induction e using Expr.children_induction generalizing bare visible visible' with
  | step e ih =>
      rcases correlateNode_cases label e with ⟨row, hrow, -⟩ | ⟨hnone, hcolumn, -⟩
      · rw [Expr.rewrite_some hrow]
        exact Expr.isScoped_of_children rfl rfl rfl (List.forall_mem_nil _)
      · obtain ⟨hvisible, hchildren⟩ := Expr.isScoped_iff.mp h
        have halike := Expr.rewrite_none hnone
        generalize e.rewrite (correlateNode label) = e' at halike
        have hexists : e'.isExistenceTest = e.isExistenceTest := by cases halike <;> rfl
        have hextras : e'.extras = e.extras :=
          Binding.extras_congr halike fun c c' hc => hc.2 ▸ correlated_offered label c
        refine Expr.isScoped_iff.mpr ⟨?_, ?_⟩
        · cases halike with
          | @leaf e =>
              cases e with
              | column c =>
                  have hne := hcolumn c rfl
                  simp only [Expr.isVisible] at hvisible ⊢
                  split at hvisible
                  next hempty => simpa [hempty] using hvisible
                  next hempty =>
                    simpa [hempty] using (hsub c.label (by simpa using hvisible)).resolve_left hne
              | _ => rfl
          | _ => rfl
        · rw [hextras, hexists]
          refine forall₂_of_left ?_ halike.children hchildren
          rintro c _ extra ⟨hc, rfl⟩ hscoped
          refine ih c hc (fun l hl => ?_) hscoped
          rcases List.mem_append.mp hl with hl | hl
          · exact (hsub l hl).imp_right (List.mem_append_left _)
          · exact .inr (List.mem_append_right _ hl)

end Correlation

/-! Building -/

/-- A projection that can be read where `k` rows enclose it. -/
structure Projection.Ready (k : Nat) (p : Projection Expr) : Prop where
  inScope : (Expr.projection p).isScoped false []
  ready : ∀ x ∈ (Expr.projection p).nodes, x.isReady k

namespace Materializer

/-- A projector over the rows at `label`, where `k` rows enclose these. -/
structure Buildable (k : Nat) (label : String) (e : Expr) : Prop where
  inScope : e.isScoped false [label]
  material : e.isMaterial false
  ready : ∀ x ∈ e.nodes, x.isReady k

variable {k : Nat} {label : String} {e : Expr}

theorem Buildable.child {c : Expr} (h : Buildable k label e) (he : e.isComposite)
    (hc : c ∈ e.children) : Buildable k label c where
  inScope := by
    refine Expr.isScoped_child h.inScope hc ?_ ?_ <;> cases e <;> first | rfl | cases he
  material := Expr.isMaterial_child h.material he hc
  ready x hx := h.ready x (Expr.mem_nodes_of_child hc hx)

theorem ofMembers_ok {ms : List (String × Expr)} (h : ∀ x ∈ ms, ∃ m, ofExpr label x.2 = .ok m) :
    ∃ mats, ofMembers label ms = .ok mats := by
  induction ms with
  | nil => exact ⟨[], rfl⟩
  | cons x ms ih =>
      obtain ⟨name, e⟩ := x
      obtain ⟨m, hm⟩ := h _ List.mem_cons_self
      obtain ⟨mats, hmats⟩ := ih fun x hx => h x (List.mem_cons_of_mem _ hx)
      exact ⟨(name, m) :: mats, by rw [ofMembers, hm, hmats]; rfl⟩

theorem Buildable.ofExpr_ok (h : Buildable k label e) : ∃ m, ofExpr label e = .ok m := by
  induction e using Expr.children_induction with
  | step e ih =>
      have hchild (he : e.isComposite) : ∀ c ∈ e.children, ∃ m, ofExpr label c = .ok m :=
        fun c hc => ih c hc (h.child he hc)
      have hmaterial := h.material
      cases e with
      | constant v t => exact ⟨_, rfl⟩
      | outerRow row => exact ⟨_, rfl⟩
      | projection p => exact ⟨_, rfl⟩
      | column c =>
          have hlabel : c.label = label := by
            have hscoped := Expr.isScoped_column.mp h.inScope
            split at hscoped
            · cases hscoped
            · exact List.mem_singleton.mp hscoped
          exact ⟨_, if_pos hlabel⟩
      | member target name =>
          obtain ⟨m, hm⟩ := hchild rfl target (by simp [Expr.children])
          exact ⟨.member m name, by rw [ofExpr, hm]; rfl⟩
      | unary op a =>
          obtain ⟨m, hm⟩ := hchild rfl a (by simp [Expr.children])
          exact ⟨.unary op m, by rw [ofExpr, hm]; rfl⟩
      | binary op a b =>
          obtain ⟨m, hm⟩ := hchild rfl a (by simp [Expr.children])
          obtain ⟨m', hm'⟩ := hchild rfl b (by simp [Expr.children])
          exact ⟨.binary op m m', by rw [ofExpr, hm, hm']; rfl⟩
      | construct t ms =>
          obtain ⟨mats, hmats⟩ := ofMembers_ok fun x hx => hchild rfl x.2 (List.mem_map_of_mem hx)
          exact ⟨.record mats, by rw [ofExpr, hmats]; rfl⟩
      | _ => cases hmaterial

theorem nestingMembers_le {ms : List (String × Expr)} {mats : List (String × Materializer)}
    {n : Nat}
    (h : ∀ x ∈ ms, ∀ m, ofExpr label x.2 = .ok m → m.nesting ≤ n)
    (hms : ofMembers label ms = .ok mats) : nestingMembers mats ≤ n := by
  induction ms generalizing mats with
  | nil =>
      cases hms
      exact Nat.zero_le n
  | cons x ms ih =>
      obtain ⟨name, e⟩ := x
      simp only [ofMembers, bind_eq_ok, pure_eq_ok] at hms
      obtain ⟨m, hm, mats, hmats, rfl⟩ := hms
      rw [nestingMembers]
      exact max_le (h _ List.mem_cons_self m hm)
        (ih (fun x hx => h x (List.mem_cons_of_mem _ hx)) hmats)

/-- Nested projections of a materializer stand as deep as in the projector. -/
theorem nesting_le {m : Materializer} (h : ofExpr label e = .ok m) :
    m.nesting ≤ e.projectionDepth := by
  induction e using Expr.children_induction generalizing m with
  | step e ih =>
      have hchild : ∀ c ∈ e.children, ∀ m, ofExpr label c = .ok m →
          m.nesting ≤ e.projectionDepth :=
        fun c hc m hm => (ih c hc hm).trans (Expr.projectionDepth_child hc)
      cases e with
      | constant | outerRow =>
          cases h
          exact Nat.zero_le _
      | column c =>
          rw [ofExpr] at h
          split at h
          · cases h
            exact Nat.zero_le _
          · cases h
      | projection p =>
          cases h
          have hdepth := correlated_projectionDepth label (.projection p)
          rw [Expr.rewrite_projection rfl] at hdepth
          exact hdepth.le
      | member target name =>
          obtain ⟨m, hm, hmember⟩ := bind_eq_ok.mp h
          cases hmember
          exact hchild target (by simp [Expr.children]) m hm
      | unary op a =>
          obtain ⟨m, hm, hunary⟩ := bind_eq_ok.mp h
          cases hunary
          exact hchild a (by simp [Expr.children]) m hm
      | binary op a b =>
          obtain ⟨m, hm, hrest⟩ := bind_eq_ok.mp h
          obtain ⟨m', hm', hbinary⟩ := bind_eq_ok.mp hrest
          cases hbinary
          rw [nesting]
          exact max_le (hchild a (by simp [Expr.children]) m hm)
            (hchild b (by simp [Expr.children]) m' hm')
      | construct t ms =>
          obtain ⟨mats, hmats, hrecord⟩ := bind_eq_ok.mp h
          cases hrecord
          rw [nesting]
          exact nestingMembers_le (fun x hx => hchild x.2 (List.mem_map_of_mem hx)) hmats
      | _ => cases h

/-- A nested projection is ready once the current row encloses it. -/
theorem correlate_ready {q : Projection Expr} (h : Buildable k label (.projection q)) :
    (correlate label q).Ready (k + 1) := by
  have hq : (Expr.projection q).rewrite (correlateNode label) = .projection (correlate label q) :=
    Expr.rewrite_projection rfl
  refine ⟨?_, ?_⟩
  · rw [← hq]
    exact correlated_isScoped (fun l hl => .inl (List.mem_singleton.mp hl)) h.inScope
  · rw [← hq]
    exact correlated_isReady h.ready

end Materializer

namespace Projection

variable {k : Nat} {p : Projection Expr}

theorem Ready.buildable (h : p.Ready k) : Materializer.Buildable k p.source.label p.projector := by
  obtain ⟨hnode, -, hprojector⟩ := Binding.forall_mem_nodes_projection.mp h.ready
  exact ⟨(Expr.isScoped_projection.mp h.inScope).2, hnode, hprojector⟩

theorem Ready.source_ready (h : p.Ready k) : ∀ x ∈ (Expr.select p.source).nodes, x.isReady k := by
  obtain ⟨-, hsource, -⟩ := Binding.forall_mem_nodes_projection.mp h.ready
  exact Expr.forall_mem_nodes.mpr ⟨rfl, hsource⟩

end Projection

/-- What a closed query is bound to can be read, with no row around it. -/
theorem Binding.bind_ready {catalog : Catalog} {style : IdentifierCase} {e : Expr}
    {p : Projection Expr} (hclosed : e.isClosed []) (h : bind catalog style e = .ok p) :
    p.Ready 0 := by
  obtain ⟨m, hbinds⟩ := binds_of_bind hclosed h
  have henv : ∀ x ∈ ([] : List (Nat × Expr)),
      Resolved (fun _ _ => True) catalog (fun _ => []) 0 false [] x.2 := List.forall_mem_nil _
  obtain ⟨G, -, hresolved⟩ := hbinds.resolved (fun _ => trivial) (fun _ _ _ => trivial) henv
  exact ⟨hresolved.isScoped, (hbinds.readable (List.forall_mem_nil _)).ready⟩

end Quarry
