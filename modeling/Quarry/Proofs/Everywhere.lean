import Quarry.Proofs.Labels
import Quarry.Proofs.Scope
/-!
What holds of every node of what the binder makes. It makes few forms: records and selects of tables,
functions for single characters, joins, and selects that a projector is moved into. For each of them
it is said once, and for any property of nodes, what there is to show.
-/
namespace Quarry

namespace Expr

/-- The nodes of a tree; those in existence tests only if `inside`. -/
def reached (inside : Bool) : Expr → List Expr :=
  fold fun e parts => e :: if e.isExistenceTest && !inside then [] else parts.flatten

variable {inside : Bool} {e c : Expr}

theorem reached_eq (e : Expr) :
    e.reached inside =
      e :: if e.isExistenceTest && !inside then [] else e.children.flatMap (reached inside) := by
  rw [reached, fold_eq, List.flatMap_def]

theorem reached_true (e : Expr) : e.reached true = e.nodes := by
  simp [reached, nodes]

theorem reached_subset : e.reached inside ⊆ e.nodes := by
  induction e using children_induction with
  | step e ih =>
      rw [reached_eq, nodes_eq]
      refine List.cons_subset_cons _ ?_
      split
      · exact List.nil_subset _
      · intro x hx
        obtain ⟨c, hc, hx⟩ := List.mem_flatMap.mp hx
        exact List.mem_flatMap.mpr ⟨c, hc, ih c hc hx⟩

/-- Every node that is reached meets `N`. -/
def Everywhere (inside : Bool) (N : Expr → Prop) (e : Expr) : Prop := ∀ x ∈ e.reached inside, N x

variable {N N' : Expr → Prop}

theorem everywhere_true : e.Everywhere true N ↔ ∀ x ∈ e.nodes, N x := by
  rw [Everywhere, reached_true]

theorem everywhere_iff :
    e.Everywhere inside N ↔ N e ∧
      ((e.isExistenceTest → inside) → ∀ c ∈ e.children, c.Everywhere inside N) := by
  have hbelow : (∀ x ∈ e.children.flatMap (reached inside), N x) ↔
      ∀ c ∈ e.children, c.Everywhere inside N := by
    simp only [List.mem_flatMap]
    exact ⟨fun h c hc x hx => h x ⟨c, hc, hx⟩, fun h x ⟨c, hc, hx⟩ => h c hc x hx⟩
  rw [Everywhere, reached_eq, List.forall_mem_cons, ← hbelow]
  cases inside <;> cases e.isExistenceTest <;> simp

namespace Everywhere

theorem self (h : e.Everywhere inside N) : N e := (everywhere_iff.mp h).1

theorem child (h : e.Everywhere inside N) (he : e.isExistenceTest = false) (hc : c ∈ e.children) :
    c.Everywhere inside N :=
  (everywhere_iff.mp h).2 (by simp [he]) c hc

theorem of_children (he : N e) (h : ∀ c ∈ e.children, c.Everywhere inside N) :
    e.Everywhere inside N :=
  everywhere_iff.mpr ⟨he, fun _ => h⟩

theorem leaf (he : e.isLeaf) (h : N e) : e.Everywhere inside N := by
  refine of_children h fun c hc => ?_
  cases e with
  | constant | captured | parameter | collection | outerRow | table | column => cases hc
  | _ => cases he

theorem imp (h : e.Everywhere inside N) (hN : ∀ x, N x → N' x) : e.Everywhere inside N' :=
  fun x hx => hN x (h x hx)

variable {p : Projection Expr}

theorem projector (h : (Expr.projection p).Everywhere inside N) :
    p.projector.Everywhere inside N :=
  h.child rfl (List.mem_append_right _ List.mem_cons_self)

/-- The source of a projection, as a select of its own. -/
theorem source (h : (Expr.projection p).Everywhere inside N)
    (hnode : N (.projection p) → N (.select p.source)) :
    (Expr.select p.source).Everywhere inside N :=
  of_children (hnode h.self) fun _ hc => h.child rfl (List.mem_append_left _ hc)

end Everywhere

end Expr

namespace Binding

variable {inside : Bool} {N N' : Expr → Prop} {e x r : Expr} {n : Nat}

theorem forall_mem_nodes_projection {P : Expr → Prop} {p : Projection Expr} :
    (∀ x ∈ (Expr.projection p).nodes, P x) ↔
      P (.projection p) ∧ (∀ c ∈ p.source.children, ∀ x ∈ c.nodes, P x) ∧
        ∀ x ∈ p.projector.nodes, P x := by
  rw [Expr.forall_mem_nodes]
  simp only [Expr.children, Projection.children, List.forall_mem_append, List.forall_mem_singleton]

/-! Members and characters -/

/-- A member is resolved to what a record was constructed from, or it is left to be read. -/
theorem memberOf_cases {name : String} (h : memberOf e name = .ok x) :
    (∃ t ms, e = .construct t ms ∧ ms.lookup name = some x) ∨
      isConstruct e = false ∧ x = .member e name := by
  cases e with
  | construct t ms =>
      simp only [memberOf] at h
      split at h
      next hlookup => exact .inl ⟨t, ms, rfl, Except.ok.inj h ▸ hlookup⟩
      next => cases h
  | _ => exact .inr ⟨rfl, (Except.ok.inj h).symm⟩

theorem memberOf_of_not_isConstruct {name : String} (h : isConstruct e = false) :
    memberOf e name = .ok (.member e name) := by
  cases e <;> first | rfl | cases h

theorem memberOf_mem {name : String} (h : memberOf e name = .ok x) :
    x ∈ e.nodes ∨ x = .member e name := by
  rcases memberOf_cases h with ⟨t, ms, rfl, hlookup⟩ | ⟨-, rfl⟩
  · have hmem := List.mem_map_of_mem (f := (·.2)) (mem_of_lookup hlookup)
    exact .inl (Expr.mem_nodes_of_child hmem (Expr.self_mem_nodes x))
  · exact .inr rfl

theorem everywhere_memberOf {name : String} (h : memberOf e name = .ok x)
    (he : e.Everywhere inside N) (hnode : N (.member e name)) : x.Everywhere inside N := by
  rcases memberOf_cases h with ⟨t, ms, rfl, hlookup⟩ | ⟨-, rfl⟩
  · exact he.child rfl (List.mem_map_of_mem (f := (·.2)) (mem_of_lookup hlookup))
  · exact .of_children hnode (by simpa [Expr.children] using he)

theorem everywhere_construct {t : DataType} {ms : List (String × Expr)}
    (hnode : N (.construct t ms)) :
    (Expr.construct t ms).Everywhere inside N ↔ ∀ m ∈ ms, m.2.Everywhere inside N := by
  constructor
  · intro h m hm
    exact h.child rfl (List.mem_map_of_mem hm)
  · intro h
    refine .of_children hnode fun c hc => ?_
    obtain ⟨m, hm, rfl⟩ := List.mem_map.mp hc
    exact h m hm

/-- The function for one character is made of the text and the index, of constants, and of a sum. -/
theorem substring_of_parts {P : Expr → Prop} {i : Expr} (h : substring x i = .ok r) (hi : P i)
    (hliteral : ∀ v, P (.literal v))
    (hsum : ∀ y z, P y → P z → P (.binary (.arithmetic .add) y z))
    (hfunction : ∀ start one, P start → P one →
      P (.function ⟨.charAt, .substr, some x, [start, one], .char⟩)) : P r := by
  obtain ⟨start, rfl, ⟨v, t, w, -, rfl⟩ | rfl⟩ := substring_cases h
  · exact hfunction _ _ (hliteral w) (hliteral _)
  · exact hfunction _ _ (hsum _ _ hi (hliteral _)) (hliteral _)

/-! Tables -/

section Tables

variable {t : Table} {l : String}

theorem getElem?_tableColumns (t : Table) (l : String) (i : Nat) :
    (tableColumns t l)[i]? =
      t.members[i]?.map fun m => (m.name, .column ⟨l, m.name, i, m.type⟩) := by
  simp only [tableColumns, List.getElem?_map, List.getElem?_zipIdx, Option.map_map]
  cases t.members[i]? with
  | none => rfl
  | some m => simp

theorem mem_tableColumns {x : String × Expr} (h : x ∈ tableColumns t l) :
    ∃ i m, t.members[i]? = some m ∧ x = (m.name, .column ⟨l, m.name, i, m.type⟩) := by
  obtain ⟨i, hi⟩ := List.getElem?_of_mem h
  rw [getElem?_tableColumns] at hi
  obtain ⟨m, hm, rfl⟩ := Option.map_eq_some_iff.mp hi
  exact ⟨i, m, hm, rfl⟩

theorem everywhere_tableRecord {type : DataType} (hrecord : N (.construct type (tableColumns t l)))
    (hcolumn : ∀ i m, t.members[i]? = some m → N (.column ⟨l, m.name, i, m.type⟩)) :
    (Expr.construct type (tableColumns t l)).Everywhere inside N := by
  refine (everywhere_construct hrecord).mpr fun x hx => ?_
  obtain ⟨i, m, hm, rfl⟩ := mem_tableColumns hx
  exact .leaf rfl (hcolumn i m hm)

theorem everywhere_tableProjection (hnode : N (.projection (tableProjection t n)))
    (htable : N (.table ⟨t.name, label n, t.entity⟩)) (hrecord : N (tableProjection t n).projector)
    (hcolumn : ∀ k, n ≤ k → k < n + 2 → ∀ i m, t.members[i]? = some m →
      N (.column ⟨label k, m.name, i, m.type⟩)) :
    (Expr.projection (tableProjection t n)).Everywhere inside N := by
  refine .of_children hnode fun c hc => ?_
  simp only [Expr.children, Projection.children, Select.children, tableProjection,
    List.mem_append, List.mem_cons, List.not_mem_nil, or_false, Option.toList_none] at hc
  rcases hc with (hc | rfl) | rfl
  · obtain ⟨x, hx, rfl⟩ := List.mem_map.mp hc
    obtain ⟨i, m, hm, rfl⟩ := mem_tableColumns hx
    exact .leaf rfl (hcolumn n le_rfl (by omega) i m hm)
  · exact .leaf rfl htable
  · exact everywhere_tableRecord hrecord (hcolumn (n + 1) (by omega) (by omega))

end Tables

/-! Joins -/

/-- The source of a new select that joins two others. -/
def joined (p q : Projection Expr) (a b : Expr) : Expr :=
  .join .inner (.select p.source) (.select q.source) (some (.binary (.comparison .eq) a b))

theorem everywhere_joined {p q : Projection Expr} {a b : Expr} (hnode : N (joined p q a b))
    (hp : (Expr.select p.source).Everywhere inside N)
    (hq : (Expr.select q.source).Everywhere inside N)
    (hcondition : (Expr.binary (.comparison .eq) a b).Everywhere inside N) :
    (joined p q a b).Everywhere inside N := by
  refine .of_children hnode fun c hc => ?_
  simp only [joined, Expr.children, Option.toList_some, List.mem_cons, List.not_mem_nil,
    or_false] at hc
  rcases hc with rfl | rfl | rfl
  · exact hp
  · exact hq
  · exact hcondition

/-! New selects -/

section Moves

variable {l : String} {sources : List String} {columns : List (String × Expr)} {nested : Bool}
  {e' : Expr}

/-- What holds of all nodes before a move, and passes on to the columns that are read instead and to
the nodes that are kept, holds of all nodes after it. `I` is what is known of a part and of whether it
is nested. -/
theorem Moved.everywhere {I : Bool → Expr → Prop} (h : Moved l sources columns e nested e')
    (he : e.Everywhere inside N) (hI : I nested e)
    (hbelow : ∀ nested e c, I nested e → c ∈ e.children → I (nested || isProjection e) c)
    (htaken : ∀ e e', Reads l columns e e' → N' e')
    (hkept : ∀ nested e e', I nested e → takes sources nested e = false → N e →
      Expr.Alike (Moved l sources columns · (nested || isProjection e) ·) e e' → N' e') :
    e'.Everywhere inside N' := by
  induction h using Moved.induction with
  | taken e nested e' ht hreads =>
      have hcolumn := htaken e e' hreads
      obtain ⟨i, name, -, rfl⟩ := hreads
      exact .leaf rfl hcolumn
  | kept e nested e' ht hmoved halike =>
      obtain ⟨hnode, hchildren⟩ := Expr.everywhere_iff.mp he
      have htest : e'.isExistenceTest = e.isExistenceTest := by cases halike <;> rfl
      refine Expr.everywhere_iff.mpr ⟨hkept nested e e' hI ht hnode (hmoved.alike ht), ?_⟩
      intro hinside c' hc'
      obtain ⟨c, hc, -, ih⟩ := exists_of_mem_right halike.children hc'
      exact ih (hchildren (htest ▸ hinside) c hc) (hbelow nested e c hI hc)

end Moves

section Projection

variable {projector source : Expr} {sources : List String} {filter : Option Expr}

/-- What is taken out of an expression is a column of a source, or it does not stand in an existence
test. -/
theorem everywhere_taken (h : e.Everywhere inside N) (hx : x ∈ taken sources e false)
    (hcolumn : inside = false → ∀ c : Column, c.label ∈ sources → N (.column c)) :
    x.Everywhere inside N := by
  cases inside with
  | true =>
      rw [Expr.everywhere_true] at h ⊢
      exact fun y hy => h y (Expr.mem_nodes_trans (mem_nodes_of_taken hx) hy)
  | false =>
      rcases taken_cases hx with ⟨c, rfl, hc⟩ | ⟨hcomputed, -⟩
      · exact .leaf rfl (hcolumn rfl c hc)
      · exact of_taken hx hcomputed (fun e c _ htest hc he => he.child htest hc) h

/-- The nodes of a new select: what is moved into it, its source and its filter keep theirs. -/
theorem everywhere_projection
    (hnode : N' (.projection (projection projector n sources source filter)))
    (hp : projector.Everywhere inside N) (hs : source.Everywhere inside N)
    (hf : ∀ f ∈ filter, f.Everywhere inside N)
    (hmoved : (projection projector n sources source filter).projector.Everywhere inside N')
    (hcolumn : inside = false → ∀ c : Column, c.label ∈ sources → N (.column c))
    (hN : ∀ x, N x → N' x) :
    (Expr.projection (projection projector n sources source filter)).Everywhere inside N' := by
  have hprojected := projectColumns_projected projector (label n) sources
  refine .of_children hnode fun c hc => ?_
  rcases List.mem_append.mp hc with hc | hc
  · refine Expr.Everywhere.imp ?_ hN
    rcases List.mem_append.mp hc with hc | hc
    · obtain ⟨column, hcolumn', rfl⟩ := List.mem_map.mp hc
      exact everywhere_taken hp (hprojected.taken column hcolumn') hcolumn
    · rcases List.mem_cons.mp hc with rfl | hc
      · exact hs
      · exact hf c (Option.mem_toList.mp hc)
  · rw [List.mem_singleton.mp hc]
    exact hmoved

end Projection

end Binding

end Quarry
