import Quarry.Proofs.Columns
import Quarry.Proofs.Typing
import Quarry.Sql.Layout
/-!
What can be written as text, said of the tree alone: a value can if all its constants have literals
and no member access, constructor or query stands in it. Moving the columns of an expression into a
select changes nothing about that, once what the text computes is looked at apart.
-/
namespace Quarry

namespace Expr

/-- A member of a constant, or a member of such a member. -/
def isConstantMember : Expr → Bool
  | .member target _ => target.isConstant || target.isConstantMember
  | _ => false

/-- The forms that the text has values of. -/
def isTextual : Expr → Bool
  | .constant .. | .captured .. | .column _ | .member .. | .unary .. | .binary .. | .function _
  | .subquery .. => true
  | _ => false

/-- Whether a value can be written. If `moved`, what the text computes is taken to be a column, and
if `excused`, members of constants are let pass. -/
def isWritable (excused moved : Bool) : Expr → Bool :=
  fold fun e parts =>
    match e with
    | .constant v _ | .captured _ v => v.isSimple
    | .column _ => true
    | .member .. => excused && e.isConstantMember
    | .unary .. | .binary .. => parts.all id
    | .function _ => moved || parts.all id
    | .subquery f _ => moved || (parts.drop f.receiver.toList.length).all id
    | _ => false

/-- Whether all can be written that the text computes in an expression, nested queries apart. -/
def computesWritable (excused : Bool) : Expr → Bool :=
  fold fun e parts =>
    if Binding.isComputed e then e.isWritable excused false
    else Binding.isProjection e || parts.all id

variable {excused moved : Bool}

@[simp] theorem isWritable_constant {v : Value} {t : DataType} :
    (constant v t).isWritable excused moved = v.isSimple := by
  rw [isWritable, fold_eq]

@[simp] theorem isWritable_captured {name : String} {v : Value} :
    (captured name v).isWritable excused moved = v.isSimple := by
  rw [isWritable, fold_eq]

@[simp] theorem isWritable_column {c : Column} : (column c).isWritable excused moved := by
  rw [isWritable, fold_eq]

@[simp] theorem isWritable_member {target : Expr} {name : String} :
    (member target name).isWritable excused moved =
      (excused && (member target name).isConstantMember) := by
  rw [isWritable, fold_eq]

@[simp] theorem isWritable_unary {op : UnaryOperator} {e : Expr} :
    (unary op e).isWritable excused moved = e.isWritable excused moved := by
  rw [isWritable, fold_eq]
  simp [children]

@[simp] theorem isWritable_binary {op : BinaryOperator} {l r : Expr} :
    (binary op l r).isWritable excused moved =
      (l.isWritable excused moved && r.isWritable excused moved) := by
  rw [isWritable, fold_eq]
  simp [children]

@[simp] theorem isWritable_function {f : FunctionCall Expr} :
    (function f).isWritable excused moved =
      (moved || f.children.all (isWritable excused moved)) := by
  rw [isWritable, fold_eq]
  simp only [List.all_map]
  rfl

@[simp] theorem isWritable_subquery {f : FunctionCall Expr} {sql : String} :
    (subquery f sql).isWritable excused moved =
      (moved || f.args.all (isWritable excused moved)) := by
  rw [isWritable, fold_eq]
  have hdrop : f.children.drop f.receiver.toList.length = f.args := List.drop_left
  simp only [children, ← List.map_drop, hdrop, List.all_map]
  rfl

/-- Queries, constructors and what is never bound are no values of the text. -/
theorem isWritable_eq_false {e : Expr} (h : e.isTextual = false) :
    e.isWritable excused moved = false := by
  rw [isWritable, fold_eq]
  cases e <;> first | rfl | cases h

theorem computesWritable_eq (e : Expr) :
    e.computesWritable excused =
      if Binding.isComputed e then e.isWritable excused false
      else Binding.isProjection e || e.children.all (computesWritable excused) := by
  rw [computesWritable, fold_eq]
  simp only [List.all_map]
  rfl

theorem computesWritable_leaf {e : Expr} (h : e.isLeaf) : e.computesWritable excused := by
  rw [computesWritable_eq]
  cases e <;> first | rfl | cases h

@[simp] theorem computesWritable_member {target : Expr} {name : String} :
    (member target name).computesWritable excused = target.computesWritable excused := by
  rw [computesWritable_eq]
  simp [Binding.isComputed, Binding.isProjection, children]

@[simp] theorem computesWritable_unary {op : UnaryOperator} {e : Expr} :
    (unary op e).computesWritable excused = e.computesWritable excused := by
  rw [computesWritable_eq]
  simp [Binding.isComputed, Binding.isProjection, children]

@[simp] theorem computesWritable_binary {op : BinaryOperator} {l r : Expr} :
    (binary op l r).computesWritable excused =
      (l.computesWritable excused && r.computesWritable excused) := by
  rw [computesWritable_eq]
  simp [Binding.isComputed, Binding.isProjection, children]

@[simp] theorem computesWritable_construct {t : DataType} {ms : List (String × Expr)} :
    (construct t ms).computesWritable excused = ms.all (·.2.computesWritable excused) := by
  rw [computesWritable_eq]
  simp only [Binding.isComputed, Binding.isProjection, children, List.all_map]
  rfl

@[simp] theorem computesWritable_projection {p : Projection Expr} :
    (projection p).computesWritable excused := by
  rw [computesWritable_eq]
  rfl

theorem computesWritable_of_isComputed {e : Expr} (h : Binding.isComputed e) :
    e.computesWritable excused = e.isWritable excused false := by
  rw [computesWritable_eq, if_pos h]

theorem isWritable_of_isConstantMember {e : Expr} (h : e.isConstantMember) :
    e.isWritable true moved := by
  cases e with
  | member => rw [isWritable_member, h]; rfl
  | _ => cases h

theorem computesWritable_of_isConstantMember {e : Expr} (h : e.isConstantMember) :
    e.computesWritable excused := by
  induction e using children_induction with
  | step e ih =>
      cases e with
      | member target name =>
          rw [computesWritable_member]
          rcases Bool.or_eq_true_iff.mp h with h | h
          · cases target with
            | constant => exact computesWritable_leaf rfl
            | _ => cases h
          · exact ih target (by simp [children]) h
      | _ => cases h

/-- A value can be written if it can with columns for all that the text computes, and all that the
text computes can be written. -/
theorem isWritable_eq (e : Expr) :
    e.isWritable excused false = (e.isWritable excused true && e.computesWritable excused) := by
  induction e using children_induction with
  | step e ih =>
      cases e with
      | constant | captured | column =>
          rw [computesWritable_leaf rfl, Bool.and_true]
          simp
      | function f | subquery f sql =>
          rw [computesWritable_of_isComputed rfl]
          simp
      | unary op e => simp [ih e (by simp [children])]
      | binary op l r =>
          simp [ih l (by simp [children]), ih r (by simp [children]), Bool.and_assoc,
            Bool.and_left_comm]
      | member target name =>
          cases h : (member target name).isConstantMember with
          | false => simp [h]
          | true =>
              rw [isWritable_member, isWritable_member, computesWritable_of_isConstantMember h,
                Bool.and_true]
      | _ => rw [isWritable_eq_false rfl, isWritable_eq_false rfl, Bool.false_and]

end Expr

namespace Binding

variable {label : String} {sources : List String} {columns : List (String × Expr)}
variable {e e' : Expr} {nested excused : Bool}

theorem Moved.isConstant (h : Moved label sources columns e nested e') :
    e'.isConstant = e.isConstant := by
  cases ht : takes sources nested e with
  | true =>
      obtain ⟨i, name, -, rfl⟩ := (moved_iff_reads ht).mp h
      cases e with
      | constant => simp [takes, isComputed] at ht
      | _ => rfl
  | false =>
      cases h.alike ht with
      | leaf => rfl
      | _ => rfl

theorem Moved.isConstantMember (h : Moved label sources columns e nested e') :
    e'.isConstantMember = e.isConstantMember := by
  induction h using Moved.induction with
  | taken e nested e' ht h =>
      obtain ⟨i, name, -, rfl⟩ := h
      cases e with
      | member => simp [takes, isComputed] at ht
      | _ => rfl
  | kept e nested e' ht h halike =>
      cases halike with
      | member name hab =>
          obtain ⟨hmoved, ih⟩ := hab
          rw [Expr.isConstantMember, Expr.isConstantMember, hmoved.isConstant, ih]
      | leaf => rfl
      | _ => rfl

/-- Apart from what the text computes, moving columns does not change what can be written. -/
theorem Moved.isWritable_around (h : Moved label sources columns e nested e') :
    e'.isWritable excused true = e.isWritable excused true := by
  induction h using Moved.induction with
  | taken e nested e' ht h =>
      obtain ⟨i, name, -, rfl⟩ := h
      cases e with
      | column | function | subquery => simp
      | _ => simp [takes, isComputed] at ht
  | kept e nested e' ht h halike =>
      cases halike with
      | leaf => rfl
      | member name hab =>
          rw [Expr.isWritable_member, Expr.isWritable_member, h.isConstantMember]
      | unary op hab => rw [Expr.isWritable_unary, Expr.isWritable_unary, hab.2]
      | binary op hl hr => rw [Expr.isWritable_binary, Expr.isWritable_binary, hl.2, hr.2]
      | function | subquery => simp
      | _ => rw [Expr.isWritable_eq_false rfl, Expr.isWritable_eq_false rfl]

/-- Inside a nested query only columns are moved, and nothing changes about what can be written. -/
theorem Moved.isWritable_nested (h : Moved label sources columns e true e') :
    e'.isWritable excused false = e.isWritable excused false := by
  generalize hn : true = nested at h
  induction h using Moved.induction with
  | taken e nested e' ht h =>
      obtain ⟨i, name, -, rfl⟩ := h
      subst hn
      cases e with
      | column => simp
      | _ => simp [takes] at ht
  | kept e nested e' ht h halike =>
      subst hn
      cases halike with
      | leaf => rfl
      | member name hab =>
          rw [Expr.isWritable_member, Expr.isWritable_member, h.isConstantMember]
      | unary op hab => rw [Expr.isWritable_unary, Expr.isWritable_unary, hab.2 rfl]
      | binary op hl hr =>
          rw [Expr.isWritable_binary, Expr.isWritable_binary, hl.2 rfl, hr.2 rfl]
      | function hf =>
          rw [Expr.isWritable_function, Expr.isWritable_function]
          exact all_congr (hf.children.imp fun c c' hc => hc.2 rfl)
      | subquery sql hf =>
          rw [Expr.isWritable_subquery, Expr.isWritable_subquery]
          exact all_congr (hf.args.imp fun c c' hc => hc.2 rfl)
      | _ => rw [Expr.isWritable_eq_false rfl, Expr.isWritable_eq_false rfl]

theorem Moved.computesWritable_nested (h : Moved label sources columns e true e') :
    e'.computesWritable excused = e.computesWritable excused := by
  generalize hn : true = nested at h
  induction h using Moved.induction with
  | taken e nested e' ht h =>
      obtain ⟨i, name, -, rfl⟩ := h
      subst hn
      cases e with
      | column => rw [Expr.computesWritable_leaf rfl, Expr.computesWritable_leaf rfl]
      | _ => simp [takes] at ht
  | kept e nested e' ht h halike =>
      subst hn
      have hchildren : e'.children.all (Expr.computesWritable excused) =
          e.children.all (Expr.computesWritable excused) :=
        all_congr (halike.children.imp fun c c' hc => hc.2 rfl)
      cases halike with
      | leaf => rfl
      | function hf | subquery sql hf =>
          rw [Expr.computesWritable_of_isComputed rfl, Expr.computesWritable_of_isComputed rfl,
            h.isWritable_nested]
      | projection => simp
      | _ =>
          rw [Expr.computesWritable_eq, Expr.computesWritable_eq, hchildren]
          rfl

/-- Moving the columns of an expression takes out all that the text computes. -/
theorem Moved.computesWritable (h : Moved label sources columns e false e') :
    e'.computesWritable excused := by
  generalize hn : false = nested at h
  induction h using Moved.induction with
  | taken e nested e' ht h =>
      obtain ⟨i, name, -, rfl⟩ := h
      exact Expr.computesWritable_leaf rfl
  | kept e nested e' ht h halike =>
      subst hn
      have hchildren (hproj : isProjection e = false) :
          e'.children.all (Expr.computesWritable excused) := by
        rw [List.all_eq_true]
        intro c hc
        obtain ⟨c', -, hmoved, ih⟩ := exists_of_mem_right halike.children hc
        exact ih (by rw [hproj]; rfl)
      cases halike with
      | leaf hleaf => exact Expr.computesWritable_leaf hleaf
      | projection => simp
      | function | subquery => simp [takes, isComputed] at ht
      | _ =>
          rw [Expr.computesWritable_eq, hchildren rfl]
          rfl

/-- What the text computes in an expression is declared by the select that it is moved into. -/
theorem Moved.computesWritable_of_columns (h : Moved label sources columns e false e')
    (hcolumns : ∀ x ∈ columns, x.2.isWritable excused false) : e.computesWritable excused := by
  generalize hn : false = nested at h
  induction h using Moved.induction with
  | taken e nested e' ht h =>
      obtain ⟨i, name, hi, -⟩ := h
      cases e with
      | column => exact Expr.computesWritable_leaf rfl
      | function | subquery =>
          rw [Expr.computesWritable_of_isComputed rfl]
          exact hcolumns _ (List.mem_of_getElem? hi)
      | _ => simp [takes, isComputed] at ht
  | kept e nested e' ht h halike =>
      subst hn
      have hchildren (hproj : isProjection e = false) :
          e.children.all (Expr.computesWritable excused) := by
        rw [List.all_eq_true]
        intro c hc
        obtain ⟨c', -, hmoved, ih⟩ := exists_of_mem_left halike.children hc
        exact ih (by rw [hproj]; rfl)
      cases halike with
      | leaf hleaf => exact Expr.computesWritable_leaf hleaf
      | projection => simp
      | function | subquery => simp [takes, isComputed] at ht
      | _ =>
          rw [Expr.computesWritable_eq, hchildren rfl]
          rfl

/-- Of what is taken out, all can be written if what the text computes can. -/
theorem isWritable_of_taken {x : Expr} (h : nested = false → e.computesWritable excused)
    (hx : x ∈ taken sources e nested) : x.isWritable excused false := by
  induction e using Expr.children_induction generalizing nested with
  | step e ih =>
      rw [taken_eq] at hx
      split at hx
      next ht =>
        obtain rfl := List.mem_singleton.mp hx
        cases x with
        | column => simp
        | function | subquery =>
            have hn : nested = false := by simpa [takes, isComputed] using ht
            rw [← Expr.computesWritable_of_isComputed rfl]
            exact h hn
        | _ => simp [takes, isComputed] at ht
      next ht =>
        obtain ⟨c, hc, hx⟩ := List.mem_flatMap.mp hx
        refine ih c hc (fun hn => ?_) hx
        obtain ⟨rfl, hproj⟩ := Bool.or_eq_false_iff.mp hn
        have hcomputed : isComputed e = false := by
          cases e <;> first | rfl | simp [takes, isComputed] at ht
        have hall := h rfl
        rw [Expr.computesWritable_eq, hcomputed, hproj] at hall
        exact List.all_eq_true.mp hall c hc

end Binding

/-! Selects -/

mutual

/-- Whether a select can be written. -/
def Select.isWritable (excused : Bool) : Select Expr → Bool
  | ⟨_, columns, source, filter⟩ =>
    columns.all (·.2.isWritable excused false) && source.isWritableSource excused &&
      filter.all (Expr.isWritable excused false)

/-- Whether the source of a select can be written. -/
def Expr.isWritableSource (excused : Bool) : Expr → Bool
  | .table _ => true
  | .select s => s.isWritable excused
  | .join _ l r condition =>
    l.isWritableSource excused && r.isWritableSource excused &&
      condition.all (Expr.isWritable excused false)
  | _ => false

end

namespace Binding

variable {label : String} {sources : List String} {columns : List (String × Expr)}
variable {excused : Bool}

theorem option_all_congr {R : Expr → Expr → Prop} {a b : Option Expr} {f g : Expr → Bool}
    (h : Option.Rel R a b) (hR : ∀ x y, R x y → g y = f x) : b.all g = a.all f := by
  cases h with
  | none => rfl
  | some h => exact hR _ _ h

/-- Moving the columns of what encloses a nested query leaves its select as writable as it was. -/
theorem Moved.isWritableSource {e e' : Expr} (h : Moved label sources columns e true e') :
    e'.isWritableSource excused = e.isWritableSource excused := by
  generalize hn : true = nested at h
  induction h using Moved.induction with
  | taken e nested e' ht h =>
      obtain ⟨i, name, hi, rfl⟩ := h
      cases e with
      | column | function | subquery => rfl
      | _ => simp [takes, isComputed] at ht
  | kept e nested e' ht h halike =>
      subst hn
      cases halike with
      | leaf => rfl
      | @select s s' hs =>
          obtain ⟨label, columns, source, filter⟩ := s
          obtain ⟨label', columns', source', filter'⟩ := s'
          simp only [Expr.isWritableSource, Select.isWritable]
          rw [all_congr (hs.columns.imp fun a b hab => hab.2.1.isWritable_nested), hs.source.2 rfl,
            option_all_congr hs.filter fun a b hab => hab.1.isWritable_nested]
      | join kind hl hr hc =>
          simp only [Expr.isWritableSource]
          rw [hl.2 rfl, hr.2 rfl, option_all_congr hc fun a b hab => hab.1.isWritable_nested]
      | _ => rfl

end Binding

/-! Without members of constants there is nothing to excuse. -/

/-- No member of a constant occurs in the expression. -/
def Expr.ReadsNoConstant (e : Expr) : Prop :=
  ∀ v t name, .member (.constant v t) name ∉ e.nodes

namespace Expr

theorem ReadsNoConstant.child {e c : Expr} (h : e.ReadsNoConstant) (hc : c ∈ e.children) :
    c.ReadsNoConstant := fun v t name hm => h v t name (mem_nodes_of_child hc hm)

theorem ReadsNoConstant.isConstantMember {e : Expr} (h : e.ReadsNoConstant) :
    e.isConstantMember = false := by
  induction e using children_induction with
  | step e ih =>
      cases e with
      | member target name =>
          have htarget : target.isConstant = false := by
            cases target with
            | constant v t => exact absurd (self_mem_nodes _) (h v t name)
            | _ => rfl
          have hmem : target ∈ (member target name).children := by simp [children]
          rw [Expr.isConstantMember, htarget, ih target hmem (h.child hmem)]
          rfl
      | _ => rfl

theorem ReadsNoConstant.isWritable {e : Expr} (h : e.ReadsNoConstant) (excused moved : Bool) :
    e.isWritable excused moved = e.isWritable false moved := by
  induction e using children_induction with
  | step e ih =>
      have hall {cs : List Expr} (hcs : cs ⊆ e.children) :
          cs.all (Expr.isWritable excused moved) = cs.all (Expr.isWritable false moved) := by
        apply all_congr
        rw [List.forall₂_same]
        exact fun c hc => ih c (hcs hc) (h.child (hcs hc))
      cases e with
      | member target name => rw [isWritable_member, isWritable_member, h.isConstantMember]; simp
      | unary op e =>
          have he : e ∈ (unary op e).children := by simp [children]
          rw [isWritable_unary, isWritable_unary, ih e he (h.child he)]
      | binary op l r =>
          have hl : l ∈ (binary op l r).children := by simp [children]
          have hr : r ∈ (binary op l r).children := by simp [children]
          rw [isWritable_binary, isWritable_binary, ih l hl (h.child hl), ih r hr (h.child hr)]
      | function f =>
          have hf : f.children ⊆ (function f).children := List.Subset.refl _
          rw [isWritable_function, isWritable_function, hall hf]
      | subquery f sql =>
          rw [isWritable_subquery, isWritable_subquery, hall (List.subset_append_right _ _)]
      | constant | captured | column => simp
      | _ => rw [isWritable_eq_false rfl, isWritable_eq_false rfl]

theorem ReadsNoConstant.option_all {o : Option Expr} {excused : Bool}
    (h : ∀ e ∈ o.toList, e.ReadsNoConstant) :
    o.all (Expr.isWritable excused false) = o.all (Expr.isWritable false false) := by
  cases o with
  | none => rfl
  | some e => exact (h e List.mem_cons_self).isWritable excused false

theorem ReadsNoConstant.isWritableSource {e : Expr} (h : e.ReadsNoConstant) (excused : Bool) :
    e.isWritableSource excused = e.isWritableSource false := by
  induction e using children_induction with
  | step e ih =>
      cases e with
      | select s =>
          obtain ⟨label, columns, source, filter⟩ := s
          have hcolumns : columns.all (·.2.isWritable excused false) =
              columns.all (·.2.isWritable false false) := by
            apply all_congr
            rw [List.forall₂_same]
            intro column hcolumn
            have hmem : column.2 ∈ (select ⟨label, columns, source, filter⟩).children :=
              List.mem_append_left _ (List.mem_map_of_mem hcolumn)
            exact (h.child hmem).isWritable excused false
          have hsource : source ∈ (select ⟨label, columns, source, filter⟩).children := by
            simp [children, Select.children]
          simp only [Expr.isWritableSource, Select.isWritable]
          rw [hcolumns, ih source hsource (h.child hsource), ReadsNoConstant.option_all]
          intro e he
          exact h.child (List.mem_append_right _ (List.mem_cons_of_mem _ he))
      | join kind l r condition =>
          have hl : l ∈ (join kind l r condition).children := by simp [children]
          have hr : r ∈ (join kind l r condition).children := by simp [children]
          simp only [Expr.isWritableSource]
          rw [ih l hl (h.child hl), ih r hr (h.child hr), ReadsNoConstant.option_all]
          intro e he
          exact h.child (List.mem_cons_of_mem _ (List.mem_cons_of_mem _ he))
      | _ => rfl

end Expr

namespace Sql

variable {style : Style}

theorem literal_isOk (v : Value) : (literal v).isOk = v.isSimple := by
  cases v <;> rfl

theorem texts_isOk {es : List Expr} {position : Position} {nested : Bool}
    (ih : ∀ e ∈ es, (text style position nested e).isOk = e.isWritable false false) :
    (texts style position nested es).isOk = es.all (Expr.isWritable false false) := by
  induction es with
  | nil => rfl
  | cons e es ihes =>
      rw [texts, isOk_bind_bind_pure, ih e List.mem_cons_self,
        ihes fun e he => ih e (List.mem_cons_of_mem _ he), List.all_cons]

theorem isWritable_of_isNullConstant {e : Expr} (h : isNullConstant e) :
    e.isWritable false false := by
  cases e with
  | constant v t =>
      cases v with
      | null => rw [Expr.isWritable_constant]; rfl
      | _ => cases h
  | _ => cases h

theorem text_isOk (hbare : style.bare = none) (e : Expr) (position : Position) (nested : Bool) :
    (text style position nested e).isOk = e.isWritable false false := by
  induction e using Expr.children_induction generalizing position nested with
  | step e ih =>
      cases e with
      | constant v t =>
          rw [Expr.isWritable_constant, text]
          cases v with
          | boolean b => cases position <;> cases b <;> rfl
          | _ => cases position <;> rfl
      | captured name v => rw [Expr.isWritable_captured, text, literal_isOk]
      | column => rw [Expr.isWritable_column]; rfl
      | member target name =>
          simp only [Expr.isWritable_member, text, memberText, hbare]
          rfl
      | unary op e =>
          have he := ih e (by simp [Expr.children])
          cases op <;> rw [text, isOk_bind_pure, he, Expr.isWritable_unary]
      | binary op l r =>
          have hl := ih l (by simp [Expr.children])
          have hr := ih r (by simp [Expr.children])
          rw [Expr.isWritable_binary]
          cases op with
          | logical op => rw [text, isOk_bind_bind_pure, hl, hr]
          | arithmetic op => cases op <;> rw [text, isOk_bind_bind_pure, hl, hr] <;> simp
          | comparison op =>
              rw [text]
              -- a null constant on one side is not written, and could be
              split
              next hnull =>
                rw [isOk_bind_pure, hl, isWritable_of_isNullConstant hnull, Bool.and_true]
              next hnull _ =>
                rw [isOk_bind_pure, hr, isWritable_of_isNullConstant hnull, Bool.true_and]
              next => rw [isOk_bind_bind_pure, hl, hr]
      | function f =>
          obtain ⟨method, name, receiver, args, type⟩ := f
          have hargs := texts_isOk fun e (he : e ∈ args) =>
            ih e (List.mem_append_right _ he) .scalar false
          rw [text, isOk_bind_bind_pure, hargs, Expr.isWritable_function, FunctionCall.children,
            List.all_append, Bool.false_or]
          cases receiver with
          | none => rfl
          | some e =>
              have he := ih e (List.mem_append_left _ List.mem_cons_self) .scalar false
              rw [textOption, isOk_bind_pure, he]
              simp
      | subquery f sql =>
          obtain ⟨method, name, receiver, args, type⟩ := f
          have hargs := texts_isOk fun e (he : e ∈ args) =>
            ih e (List.mem_append_right _ he) .predicate (1 < args.length)
          rw [text, isOk_bind_pure, hargs, Expr.isWritable_subquery, Bool.false_or]
      | _ => rw [Expr.isWritable_eq_false rfl]; rfl

theorem declarationText_isOk (hbare : style.bare = none) (column : String × Expr) :
    (declarationText style column).isOk = column.2.isWritable false false := by
  obtain ⟨name, e⟩ := column
  rw [declarationText, ← text_isOk hbare e .scalar false, scalarText]
  cases text style .scalar false e with
  | error err => rfl
  | ok t => cases e <;> rfl

theorem columnsText_isOk (hbare : style.bare = none) (columns : List (String × Expr)) :
    (columnsText style columns).isOk = columns.all (·.2.isWritable false false) := by
  rw [columnsText, isOk_bind_pure, mapM_isOk]
  simp only [declarationText_isOk hbare]

/-- The text is written, or is not, at any depth alike. -/
def Succeeds {α : Type} (x : Layout α) (b : Bool) : Prop := ∀ depth, (x.run depth).isOk = b

namespace Succeeds

variable {α β : Type} {x : Layout α} {f : α → Layout β} {b c : Bool}

theorem pure (a : α) : Succeeds (pure a) true := fun _ => rfl

theorem lift (y : Except Error α) : Succeeds (liftM y) y.isOk := by
  intro depth
  cases y <;> rfl

theorem bind (hx : Succeeds x b) (hf : ∀ a, Succeeds (f a) c) : Succeeds (x >>= f) (b && c) := by
  intro depth
  rw [StateT.run_bind, ← hx depth]
  cases x.run depth with
  | error e => rfl
  | ok r => exact (hf r.1 r.2).trans (Bool.true_and c).symm

end Succeeds

theorem newline_succeeds (style : Style) (indentation : Indentation) :
    Succeeds (newline style indentation) true := fun _ => rfl

theorem predicateText_succeeds (hbare : style.bare = none) (e : Expr) :
    Succeeds (predicateText style e) (e.isWritable false false) := by
  rw [← text_isOk hbare e .predicate false]
  exact .lift _

theorem filterText_succeeds (hbare : style.bare = none) (filter : Option Expr) :
    Succeeds (filterText style filter) (filter.all (Expr.isWritable false false)) := by
  cases filter with
  | none => exact .pure ""
  | some e =>
      have h := (newline_succeeds style .same).bind fun line =>
        (predicateText_succeeds hbare e).bind fun t => .pure (line ++ "WHERE " ++ t)
      rwa [Bool.true_and, Bool.and_true] at h

theorem conditionText_succeeds (hbare : style.bare = none) (condition : Option Expr) :
    Succeeds (conditionText style condition) (condition.all (Expr.isWritable false false)) := by
  cases condition with
  | none => exact .pure ""
  | some e =>
      have hlast (line t : String) : Succeeds (do modify (· - 1); return line ++ "ON " ++ t) true :=
        fun _ => rfl
      have h := (newline_succeeds style .inner).bind fun line =>
        (predicateText_succeeds hbare e).bind fun t => hlast line t
      rwa [Bool.true_and, Bool.and_true] at h

theorem selectText_succeeds (hbare : style.bare = none) {s : Select Expr}
    (hsource : Succeeds (sourceText style s.source) (s.source.isWritableSource false)) :
    Succeeds (selectText style s) (s.isWritable false) := by
  obtain ⟨label, columns, source, filter⟩ := s
  have h := (Succeeds.lift (columnsText style columns)).bind fun cs =>
    (newline_succeeds style .same).bind fun line =>
      hsource.bind fun src => (filterText_succeeds hbare filter).bind fun f =>
        .pure ("SELECT " ++ cs ++ line ++ "FROM " ++ src ++ f)
  rw [columnsText_isOk hbare, Bool.true_and, Bool.and_true, ← Bool.and_assoc] at h
  rwa [selectText]

theorem sourceText_succeeds (hbare : style.bare = none) (e : Expr) :
    Succeeds (sourceText style e) (e.isWritableSource false) := by
  induction e using Expr.children_induction with
  | step e ih =>
      cases e with
      | select s =>
          have hs : Succeeds (selectText style s) (s.isWritable false) :=
            selectText_succeeds hbare (ih s.source (by simp [Expr.children, Select.children]))
          have h := (newline_succeeds style .inner).bind fun first => hs.bind fun t =>
            (newline_succeeds style .outer).bind fun last =>
              .pure ("(" ++ first ++ t ++ last ++ ") " ++ style.ident s.label)
          rw [Bool.true_and, Bool.and_true, Bool.and_true] at h
          rwa [sourceText, Expr.isWritableSource]
      | join kind l r condition =>
          have h := (ih l (by simp [Expr.children])).bind fun left =>
            (newline_succeeds style .same).bind fun line =>
              (ih r (by simp [Expr.children])).bind fun right =>
                (conditionText_succeeds hbare condition).bind fun on =>
                  .pure (left ++ line ++ kind.name ++ " " ++ right ++ on)
          rw [Bool.true_and, Bool.and_true, ← Bool.and_assoc] at h
          rwa [sourceText, Expr.isWritableSource]
      | table => exact .pure _
      | _ => exact fun _ => rfl

/-- A select is written exactly if its tree says so. -/
theorem format_isOk (hbare : style.bare = none) (s : Select Expr) :
    (format style (.select s)).isOk = s.isWritable false := by
  have h := selectText_succeeds hbare (sourceText_succeeds hbare s.source) 0
  rw [format, StateT.run'_eq, ← h]
  cases (selectText style s).run 0 <;> rfl

end Sql

end Quarry
