import Quarry.Proofs.Folding
import Quarry.Proofs.Quoting
import Quarry.Proofs.Resolution
import Quarry.Sql.Command
/-!
A condition over one unlabelled table is written in two places: in a command, where the members of
a parameter are written as they are, and in an existence test, where they are bound to columns
first. Either both can be written or neither can. The texts are the same as long as nothing depends on
the type of a member, which only a column tells.
-/
namespace Quarry

namespace Expr

/-- Conditions over a parameter that ranges over a table; `captures` tells whether captured values
may occur. -/
inductive Condition (t : Table) (p : Parameter) (captures : Bool) : Expr → Prop
  | constant (v type) : Condition t p captures (.constant v type)
  | captured (h : captures) (name v) : Condition t p captures (.captured name v)
  | member {m} (h : m ∈ t.members) : Condition t p captures (.member (.parameter p) m.name)
  | unary (op) {e} (h : Condition t p captures e) : Condition t p captures (.unary op e)
  | binary (op) {l r} (hl : Condition t p captures l) (hr : Condition t p captures r) :
      Condition t p captures (.binary op l r)

/-- The condition with the members of the parameter bound to the bare columns of the table. -/
def withColumns (t : Table) : Expr → Expr
  | .member target name => ((Binding.tableColumns t "").lookup name).getD (.member target name)
  | .unary op e => .unary op (withColumns t e)
  | .binary op l r => .binary op (withColumns t l) (withColumns t r)
  | e => e

variable {t : Table} {p : Parameter} {e e' : Expr}

theorem foldLocal_parameter (p : Parameter) : (parameter p).foldLocal = .ok (.parameter p) := by
  rw [foldLocal, foldWith_eq]
  rfl

theorem foldLocal_lambda_eq (params : List Parameter) (body : Expr) :
    (lambda params body).foldLocal = lambda params <$> body.foldLocal := by
  have hlocal : (lambda params body).nodes.all isLocal = false := by
    rw [nodes_eq, List.all_cons]
    rfl
  rw [foldLocal, foldWith_eq, hlocal]
  simp [children, withChildren]

theorem foldLocal_existence_eq (entity : String) (params : List Parameter) (body : Expr) :
    (call .existence (some (.collection entity)) [.lambda params body]).foldLocal =
      (fun b => call .existence (some (.collection entity)) [.lambda params b]) <$>
        body.foldLocal := by
  have hlocal : (call .existence (some (.collection entity))
      [.lambda params body]).nodes.all isLocal = false := by
    rw [nodes_eq, List.all_cons]
    rfl
  have hcollection : foldWith isLocal (.collection entity) = .ok (.collection entity) := by
    rw [foldWith_eq]
    rfl
  have hlambda := foldLocal_lambda_eq params body
  rw [foldLocal] at hlambda
  rw [foldLocal, foldWith_eq, hlocal]
  simp only [children, Option.toList_some, List.cons_append, List.nil_append, List.mapM_cons,
    List.mapM_nil, hcollection, hlambda, Bool.false_eq_true, if_false]
  cases body.foldWith isLocal <;> rfl

/-- Folding leaves a condition without captured values. -/
theorem Condition.foldLocal (h : Condition t p true e) (hf : e.foldLocal = .ok e') :
    Condition t p false e' := by
  induction h generalizing e' with
  | constant v type =>
      rcases foldWith_cases hf with ⟨-, hnode⟩ | ⟨-, halike⟩
      · obtain ⟨v, type, rfl⟩ := foldNode_eq_ok hnode
        exact .constant v type
      · cases halike with
        | leaf => exact .constant v type
  | captured _ name v =>
      rcases foldWith_cases hf with ⟨-, hnode⟩ | ⟨hall, -⟩
      · obtain ⟨v, type, rfl⟩ := foldNode_eq_ok hnode
        exact .constant v type
      · cases hall
  | member hm =>
      rcases foldWith_cases hf with ⟨-, hnode⟩ | ⟨-, halike⟩
      · obtain ⟨v, type, rfl⟩ := foldNode_eq_ok hnode
        exact .constant v type
      · cases halike with
        | leaf hleaf => cases hleaf
        | member _ htarget =>
            obtain rfl := Except.ok.inj ((foldLocal_parameter p).symm.trans htarget.2)
            exact .member hm
  | unary op h ih =>
      rcases foldWith_cases hf with ⟨-, hnode⟩ | ⟨-, halike⟩
      · obtain ⟨v, type, rfl⟩ := foldNode_eq_ok hnode
        exact .constant v type
      · cases halike with
        | leaf hleaf => cases hleaf
        | unary _ h => exact .unary op (ih h.2)
  | binary op hl hr ihl ihr =>
      rcases foldWith_cases hf with ⟨-, hnode⟩ | ⟨-, halike⟩
      · obtain ⟨v, type, rfl⟩ := foldNode_eq_ok hnode
        exact .constant v type
      · cases halike with
        | leaf hleaf => cases hleaf
        | binary _ hl hr => exact .binary op (ihl hl.2) (ihr hr.2)

/-- A member of the table is found among its columns. -/
theorem lookup_tableColumns {m : Member} (h : m ∈ t.members) (l : String) :
    ∃ c : Column, (Binding.tableColumns t l).lookup m.name = some (.column c) ∧ c.label = l ∧
      c.name = m.name := by
  have hname : m.name ∈ (Binding.tableColumns t l).map (·.1) := by
    rw [Binding.map_fst_tableColumns]
    exact List.mem_map_of_mem h
  cases hx : (Binding.tableColumns t l).lookup m.name with
  | none =>
      obtain ⟨x, hmem, heq⟩ := List.mem_map.mp hname
      exact absurd heq.symm (bne_iff_ne.mp (List.lookup_eq_none_iff.mp hx x hmem))
  | some x =>
      obtain ⟨i, m', -, heq⟩ := Binding.mem_tableColumns (mem_of_lookup hx)
      obtain ⟨hm, rfl⟩ := Prod.mk.inj heq
      exact ⟨_, rfl, rfl, hm.symm⟩

/-- What a type is known to be without the columns it is with them. -/
theorem Condition.staticType (h : Condition t p false e) (hp : p.type = .entity t.entity)
    {τ : DataType} (hτ : e.staticType? = some τ) : (e.withColumns t).staticType? = some τ := by
  induction h generalizing τ with
  | constant => exact hτ
  | captured h => cases h
  | member =>
      simp only [staticType?, hp] at hτ
      cases hτ
  | unary op h ih =>
      cases op with
      | not => exact hτ
      | negate => exact ih hτ
  | binary op hl hr ihl ihr =>
      cases op with
      | arithmetic op =>
          simp only [staticType?, Option.bind_eq_bind, Option.bind_eq_some_iff] at hτ
          obtain ⟨a, ha, b, hb, hab⟩ := hτ
          simp only [withColumns, staticType?, ihl ha, ihr hb]
          exact hab
      | logical => exact hτ
      | comparison => exact hτ

theorem Condition.isText (h : Condition t p false e) (hp : p.type = .entity t.entity)
    (htext : Sql.isText e) : Sql.isText (e.withColumns t) := by
  unfold Sql.isText at htext ⊢
  cases hτ : e.staticType? with
  | none =>
      rw [hτ] at htext
      cases htext
  | some τ => rwa [h.staticType hp hτ, ← hτ]

theorem Condition.isNullConstant (h : Condition t p false e) :
    Sql.isNullConstant (e.withColumns t) = Sql.isNullConstant e := by
  cases h with
  | member hm =>
      obtain ⟨c, hc, -, -⟩ := lookup_tableColumns hm ""
      simp only [withColumns, hc]
      rfl
  | captured h => cases h
  | _ => rfl

end Expr

/-! Binding -/

namespace Binding

variable {catalog : Catalog} {style : IdentifierCase} {t : Table} {p : Parameter} {e : Expr}
  {s : Scope}

/-- Where the parameter stands for the record of the bare columns, its members are bound to them. -/
theorem visit_condition (h : Expr.Condition t p false e)
    (hs : s.bound.lookup p.id = some (.construct t.recordType (tableColumns t ""))) :
    (visit catalog style e).run s = .ok (e.withColumns t, s) := by
  induction h with
  | constant => rfl
  | captured h => cases h
  | member hm =>
      obtain ⟨c, hc, -, -⟩ := Expr.lookup_tableColumns hm ""
      have hresolve : (visit catalog style (.parameter p)).run s =
          .ok (.construct t.recordType (tableColumns t ""), s) := by
        show Except.ok ((s.bound.lookup p.id).getD (.parameter p), s) = _
        rw [hs]
        rfl
      unfold visit
      refine run_bind_eq_ok.mpr ⟨_, _, hresolve, run_lift_eq_ok.mpr ⟨?_, rfl⟩⟩
      simp only [memberOf, Expr.withColumns, hc, Option.getD_some]
  | unary op h ih =>
      unfold visit
      exact run_bind_eq_ok.mpr ⟨_, _, ih, rfl⟩
  | binary op hl hr ihl ihr =>
      unfold visit
      exact run_bind_eq_ok.mpr ⟨_, _, ihl, run_bind_eq_ok.mpr ⟨_, _, ihr, rfl⟩⟩

variable (style s) in
theorem visit_existence_condition (ht : catalog.table t.entity = .ok t)
    (h : Expr.Condition t p false e) :
    ∃ s', (visit catalog style
        (.call .existence (some (.collection t.entity)) [.lambda [p] e])).run s =
      .ok (.subquery ⟨.existence, .existence, none, [e.withColumns t], .boolean⟩
        ("SELECT * FROM " ++ style.normalize t.name), s') := by
  have hbound : (s.withBound p.id (.construct t.recordType (tableColumns t ""))).bound.lookup p.id =
      some (.construct t.recordType (tableColumns t "")) := by
    rw [Scope.withBound, lookup_withBound, if_pos rfl]
  have hbare : bareRecord catalog t.entity = .ok (.construct t.recordType (tableColumns t "")) := by
    rw [bareRecord, ht]
    rfl
  have hlambda : (visitLambda catalog style (bareRecord catalog t.entity) (.lambda [p] e)).run s =
      .ok ((p, e.withColumns t), s.withBound p.id (.construct t.recordType (tableColumns t ""))) := by
    unfold visitLambda
    refine run_bind_eq_ok.mpr ⟨_, _, run_lift_eq_ok.mpr ⟨hbare, rfl⟩, ?_⟩
    refine run_bind_eq_ok.mpr ⟨_, _, rfl, ?_⟩
    exact run_bind_eq_ok.mpr ⟨_, _, visit_condition h hbound, rfl⟩
  have htest : existenceTest catalog style .existence .existence t.entity (e.withColumns t) =
      .ok (.subquery ⟨.existence, .existence, none, [e.withColumns t], .boolean⟩
        ("SELECT * FROM " ++ style.normalize t.name)) := by
    rw [existenceTest, ht]
    rfl
  unfold visit visitExistence
  exact ⟨_, run_bind_eq_ok.mpr ⟨t.entity, _, rfl, run_bind_eq_ok.mpr ⟨_, _, hlambda,
    run_bind_eq_ok.mpr ⟨_, _, rfl, run_lift_eq_ok.mpr ⟨htest, rfl⟩⟩⟩⟩⟩

end Binding

/-! Text -/

namespace Sql

/-- Whether nothing depends on the type of a member: no truth value stands where a condition is called
for, and a sum of texts is known to be one without the columns. -/
def writesAlike (t : Table) : Position → Expr → Bool
  | position, .member target name =>
    position ≠ .predicate || ((Expr.member target name).withColumns t).staticType? ≠ some .boolean
  | position, .unary .not e => writesAlike t position e
  | _, .unary .negate e => writesAlike t .scalar e
  | position, .binary (.logical _) l r => writesAlike t position l && writesAlike t position r
  | _, .binary (.comparison _) l r => writesAlike t .scalar l && writesAlike t .scalar r
  | _, .binary (.arithmetic op) l r =>
    writesAlike t .scalar l && writesAlike t .scalar r &&
      (op ≠ .add || isText l || isText r || !isText (l.withColumns t) && !isText (r.withColumns t))
  | _, _ => true

/-- The second text is at least as long as the first, and longer unless the two are the same. -/
structure Outgrows (same : Bool) (u v : String) : Prop where
  length_le : u.length ≤ v.length
  eq_of_same : same → u = v
  same_of_length : u.length = v.length → same

namespace Outgrows

variable {a b : Bool} {u u' v v' : String}

theorem refl (u : String) : Outgrows true u u := ⟨le_rfl, fun _ => rfl, fun _ => rfl⟩

theorem of_lt (h : u.length < v.length) : Outgrows false u v :=
  ⟨h.le, nofun, fun heq => absurd heq h.ne⟩

theorem eq_iff (h : Outgrows a u v) : u = v ↔ a :=
  ⟨fun heq => h.same_of_length (congrArg _ heq), h.eq_of_same⟩

theorem append (h : Outgrows a u v) (h' : Outgrows b u' v') :
    Outgrows (a && b) (u ++ u') (v ++ v') := by
  have hle := h.length_le
  have hle' := h'.length_le
  constructor
  · rw [String.length_append, String.length_append]
    omega
  · intro hsame
    obtain ⟨ha, hb⟩ := Bool.and_eq_true_iff.mp hsame
    rw [h.eq_of_same ha, h'.eq_of_same hb]
  · intro hlength
    rw [String.length_append, String.length_append] at hlength
    rw [h.same_of_length (by omega), h'.same_of_length (by omega)]
    rfl

theorem wrap (h : Outgrows a u v) (nested : Bool) :
    Outgrows a (wrap nested u) (Sql.wrap nested v) := by
  cases nested with
  | false => exact h
  | true => simpa [Sql.wrap] using ((refl "(").append h).append (refl ")")

theorem operation {c : Bool} {w w' : String} (h : Outgrows a u v) (hw : Outgrows c w w')
    (h' : Outgrows b u' v') :
    Outgrows (a && b && c) (u ++ " " ++ w ++ " " ++ u') (v ++ " " ++ w' ++ " " ++ v') := by
  have happend := (((h.append (refl " ")).append hw).append (refl " ")).append h'
  rw [Bool.and_true, Bool.and_true, Bool.and_right_comm] at happend
  exact happend

end Outgrows

section

variable {style : Style} {t : Table} {p : Parameter} {e l r : Expr}

variable (style t p) in
/-- The text of the condition over the parameter and the text over the bare columns. -/
def WrittenAlike (e : Expr) : Prop :=
  ∀ position nested, Agree (Outgrows (writesAlike t position e))
    (text (bareStyle style t p) position nested e) (text style position nested (e.withColumns t))

theorem agree_self {α : Type} {R : α → α → Prop} (hR : ∀ a, R a a) (x : Except Error α) :
    Agree R x x := by
  cases x with
  | ok a => exact .ok (hR a)
  | error e => exact .error e e

/-- A member is compared with one only if its column is known to be a truth value. -/
theorem writtenAlike_member {m : Member} (hm : m ∈ t.members) :
    WrittenAlike style t p (.member (.parameter p) m.name) := by
  intro position nested
  obtain ⟨c, hc, hlabel, hname⟩ := Expr.lookup_tableColumns hm ""
  have hcolumn : (Expr.member (.parameter p) m.name).withColumns t = .column c := by
    simp only [Expr.withColumns, hc, Option.getD_some]
  have htext : text (bareStyle style t p) position nested (.member (.parameter p) m.name) =
      .ok (style.ident m.name) := by
    obtain ⟨m', hm', hfound⟩ : ∃ m', t.member m.name = .ok m' ∧ m'.name = m.name := by
      unfold Table.member
      cases hfind : t.members.find? (·.name = m.name) with
      | none => simpa using List.find?_eq_none.mp hfind m hm
      | some m' => exact ⟨m', rfl, by simpa using List.find?_some hfind⟩
    simp only [text, memberText, bareStyle, if_pos, hm']
    exact congrArg (Except.ok ∘ style.ident) hfound
  have hbare : columnName style c = style.ident m.name := by
    simp [columnName, hlabel, hname]
  rw [hcolumn, htext]
  simp only [text, columnText, hbare, writesAlike, hcolumn, Expr.staticType?]
  by_cases hcompared : position = .predicate ∧ c.type = .boolean
  · obtain ⟨rfl, hboolean⟩ := hcompared
    rw [if_pos ⟨rfl, hboolean⟩, hboolean]
    have hone : 0 < " = 1".length := by decide
    refine .ok (.of_lt ?_)
    cases nested with
    | false =>
        rw [wrap, if_neg Bool.false_ne_true, String.length_append]
        omega
    | true =>
        rw [wrap, if_pos rfl, String.length_append, String.length_append, String.length_append]
        omega
  · have hsame : (position ≠ .predicate || some c.type ≠ some .boolean) = true := by
      simpa [imp_iff_not_or] using hcompared
    rw [if_neg hcompared, hsame]
    exact .ok (.refl _)

/-- Without the columns a sum is at most taken for a sum of numbers. -/
theorem arithmeticName_outgrows (op : Arithmetic) (hl : isText l → isText (l.withColumns t))
    (hr : isText r → isText (r.withColumns t)) :
    Outgrows (op ≠ .add || isText l || isText r ||
        !isText (l.withColumns t) && !isText (r.withColumns t))
      (arithmeticName op l r) (arithmeticName op (l.withColumns t) (r.withColumns t)) := by
  cases op with
  | add =>
      unfold arithmeticName
      revert hl hr
      generalize isText l = a, isText r = b
      generalize isText (l.withColumns t) = a', isText (r.withColumns t) = b'
      intro hl hr
      have hlt : "+".length < "||".length := by decide
      cases a <;> cases b <;> cases a' <;> cases b' <;>
        first | exact .refl _ | exact .of_lt hlt | simp at hl hr
  | _ => exact .refl _

theorem writesAlike_of_isNullConstant {position : Position} (h : isNullConstant e) :
    writesAlike t position e := by
  cases e with
  | constant => rfl
  | _ => cases h

namespace WrittenAlike

theorem operation (hl : WrittenAlike style t p l) (hr : WrittenAlike style t p r) {a : Bool}
    {u v : String} (h : Outgrows a u v) (position : Position) (nested : Bool) :
    Agree (Outgrows (writesAlike t position l && writesAlike t position r && a))
      (do
        let left ← text (bareStyle style t p) position true l
        let right ← text (bareStyle style t p) position true r
        return wrap nested (left ++ " " ++ u ++ " " ++ right))
      (do
        let left ← text style position true (l.withColumns t)
        let right ← text style position true (r.withColumns t)
        return wrap nested (left ++ " " ++ v ++ " " ++ right)) := by
  refine (hl position true).bind fun x x' hx => ?_
  exact (hr position true).bind fun y y' hy => .ok ((hx.operation h hy).wrap nested)

theorem tested (h : WrittenAlike style t p e) (test : String) (nested : Bool) :
    Agree (Outgrows (writesAlike t .scalar e))
      (do return wrap nested ((← text (bareStyle style t p) .scalar true e) ++ test))
      (do return wrap nested ((← text style .scalar true (e.withColumns t)) ++ test)) := by
  refine (h .scalar true).bind fun u v huv => .ok ?_
  simpa using (huv.append (.refl test)).wrap nested

theorem unary (h : WrittenAlike style t p e) (op : UnaryOperator) :
    WrittenAlike style t p (.unary op e) := by
  intro position nested
  cases op with
  | not =>
      refine (h position true).bind fun u v huv => .ok ?_
      simpa [writesAlike] using (Outgrows.refl "NOT ").append huv
  | negate =>
      refine (h .scalar true).bind fun u v huv => .ok ?_
      simpa [writesAlike] using (Outgrows.refl "-").append huv

theorem logical (hl : WrittenAlike style t p l) (hr : WrittenAlike style t p r) (op : Logical) :
    WrittenAlike style t p (.binary (.logical op) l r) := by
  intro position nested
  have hagree := hl.operation hr (.refl (logicalName op)) position nested
  rw [Bool.and_true] at hagree
  exact hagree

/-- A null constant is not written, and is alike in any case. -/
theorem comparison (hl : WrittenAlike style t p l) (hr : WrittenAlike style t p r)
    (hnull : isNullConstant (l.withColumns t) = isNullConstant l)
    (hnull' : isNullConstant (r.withColumns t) = isNullConstant r) (op : Comparison) :
    WrittenAlike style t p (.binary (.comparison op) l r) := by
  intro position nested
  simp only [text, Expr.withColumns, hnull, hnull']
  split
  next test _ h =>
    have hsame : writesAlike t position (.binary (.comparison op) l r) =
        writesAlike t .scalar l := by
      simp only [writesAlike, writesAlike_of_isNullConstant h, Bool.and_true]
    rw [hsame]
    exact hl.tested test nested
  next test _ h _ =>
    have hsame : writesAlike t position (.binary (.comparison op) l r) =
        writesAlike t .scalar r := by
      simp only [writesAlike, writesAlike_of_isNullConstant h, Bool.true_and]
    rw [hsame]
    exact hr.tested test nested
  next =>
    have hagree := hl.operation hr (.refl (comparisonName op)) .scalar nested
    rw [Bool.and_true] at hagree
    exact hagree

theorem arithmetic (hl : WrittenAlike style t p l) (hr : WrittenAlike style t p r)
    (htext : isText l → isText (l.withColumns t)) (htext' : isText r → isText (r.withColumns t))
    (op : Arithmetic) : WrittenAlike style t p (.binary (.arithmetic op) l r) := by
  intro position nested
  have hname := arithmeticName_outgrows op htext htext'
  cases op with
  | mod =>
      refine (hl .scalar false).bind fun u v huv => ?_
      refine (hr .scalar false).bind fun u' v' huv' => .ok ?_
      have happend := (((Outgrows.refl "MOD(").append huv).append (.refl ", ")).append
        (huv'.append (.refl ")"))
      simpa [writesAlike, String.append_assoc] using happend
  | _ => exact hl.operation hr hname .scalar nested

end WrittenAlike

theorem writtenAlike_condition (h : Expr.Condition t p false e) (hp : p.type = .entity t.entity) :
    WrittenAlike style t p e := by
  induction h with
  | constant v type => exact fun position nested => agree_self Outgrows.refl _
  | captured h => cases h
  | member hm => exact writtenAlike_member hm
  | unary op h ih => exact ih.unary op
  | binary op hl hr ihl ihr =>
      cases op with
      | logical op => exact ihl.logical ihr op
      | comparison op => exact ihl.comparison ihr hl.isNullConstant hr.isNullConstant op
      | arithmetic op => exact ihl.arithmetic ihr (hl.isText hp) (hr.isText hp) op

end

/-! Commands and existence tests -/

/-- The text of an expression that is folded and then bound where parameters stand for something. -/
def boundText (catalog : Catalog) (settings : Settings) (scope : Binding.Scope) (e : Expr) :
    Except Error String := do
  let e ← e.foldLocal
  let bound ← (Binding.visit catalog settings.identifierCase e).run' scope
  format (Style.ofSettings settings) bound

section

variable {catalog : Catalog} {settings : Settings} {scope : Binding.Scope} {t : Table}
  {p : Parameter} {b b' : Expr}

theorem deleteText_eq (style : Style) (hp : p.type = .entity t.entity) (hb : b.foldLocal = .ok b') :
    deleteText style t (.lambda [p] b) = (fun c => clearText style t ++ "\nWHERE " ++ c) <$>
      text (bareStyle style t p) .predicate false b' := by
  have hlambda : commandLambda t (.lambda [p] b) = .ok (p, b') := by
    rw [commandLambda, Expr.foldLocal_lambda_eq, hb]
    show (if p.type = .entity t.entity then _ else _) = _
    rw [if_pos hp]
    rfl
  rw [deleteText, hlambda]
  rfl

theorem scalarText_existence (style : Style) (e : Expr) (sql : String) :
    scalarText style (.subquery ⟨.existence, .existence, none, [e], .boolean⟩ sql) =
      (fun c => "EXISTS (" ++ sql ++ " WHERE " ++ c ++ ")") <$> text style .predicate false e := by
  have hsingle : decide (1 < [e].length) = false := rfl
  simp only [scalarText, text, texts, hsingle]
  cases text style .predicate false e with
  | error => rfl
  | ok c =>
      show Except.ok ("EXISTS" ++ " (" ++ sql ++ (" WHERE " ++ c) ++ ")") = .ok _
      rw [← String.append_assoc]
      rfl

theorem boundText_existence (ht : catalog.table t.entity = .ok t) (hb : b.foldLocal = .ok b')
    (h : Expr.Condition t p false b') :
    boundText catalog settings scope
        (.call .existence (some (.collection t.entity)) [.lambda [p] b]) =
      (fun c => "EXISTS (" ++ ("SELECT * FROM " ++ (Style.ofSettings settings).ident t.name) ++
          " WHERE " ++ c ++ ")") <$>
        text (Style.ofSettings settings) .predicate false (b'.withColumns t) := by
  obtain ⟨s', hvisit⟩ := Binding.visit_existence_condition settings.identifierCase scope ht h
  rw [boundText, Expr.foldLocal_existence_eq, hb]
  show ((Binding.visit _ _ _).run' scope >>= _) = _
  rw [StateT.run'_eq, hvisit]
  exact scalarText_existence _ _ _

variable (settings t b) in
/-- A command and an existence test with the same condition: where it is written in each, and whether
the two texts are the same. -/
def ConditionTexts (command test : String) : Prop :=
  ∃ b' c c', b.foldLocal = .ok b' ∧
    command = clearText (.ofSettings settings) t ++ "\nWHERE " ++ c ∧
    test = "EXISTS (" ++ ("SELECT * FROM " ++ (Style.ofSettings settings).ident t.name) ++
      " WHERE " ++ c' ++ ")" ∧
    (c = c' ↔ writesAlike t .predicate b')

/-- A condition over one table is written both in a command and in an existence test, or in neither,
and the two texts are the same exactly if nothing depends on the type of a member. -/
theorem condition_written_alike (scope : Binding.Scope) (ht : catalog.table t.entity = .ok t)
    (hp : p.type = .entity t.entity) (hb : Expr.Condition t p true b) :
    Agree (ConditionTexts settings t b) (deleteText (.ofSettings settings) t (.lambda [p] b))
      (boundText catalog settings scope
        (.call .existence (some (.collection t.entity)) [.lambda [p] b])) := by
  cases hfold : b.foldLocal with
  | error e =>
      rw [deleteText, commandLambda, Expr.foldLocal_lambda_eq, boundText,
        Expr.foldLocal_existence_eq, hfold]
      exact .error e e
  | ok b' =>
      have hcondition := hb.foldLocal hfold
      rw [deleteText_eq _ hp hfold, boundText_existence ht hfold hcondition]
      refine (writtenAlike_condition hcondition hp .predicate false).map fun c c' h => ?_
      exact ⟨b', c, c', hfold, rfl, rfl, h.eq_iff⟩

end

/-- Flags that are on or off. -/
def flags : Table := ⟨"Flag", "Flags", [⟨"Id", .int32⟩, ⟨"Active", .boolean⟩, ⟨"Name", .text⟩]⟩

def flag : Parameter := ⟨0, "f", .entity "Flag"⟩

/-- The flags of a name, from a number on. -/
def namedFrom : Expr :=
  .binary (.logical .and)
    (.binary (.comparison .ge) (.member (.parameter flag) "Id") (.captured "first" (.int32 7)))
    (.binary (.comparison .eq) (.member (.parameter flag) "Name") (.constant (.text "on") .text))

theorem condition_written_alike_of_namedFrom :
    let settings : Settings := { identifierCase := .preserve }
    Expr.Condition flags flag true namedFrom ∧
      Agree (ConditionTexts settings flags namedFrom)
        (deleteText (.ofSettings settings) flags (.lambda [flag] namedFrom))
        (boundText ⟨[flags]⟩ settings {}
          (.call .existence (some (.collection "Flag")) [.lambda [flag] namedFrom])) ∧
      deleteText (.ofSettings settings) flags (.lambda [flag] namedFrom) =
        .ok "DELETE FROM Flags\nWHERE (Id >= 7) AND (Name = 'on')" := by
  have hcondition : Expr.Condition flags flag true namedFrom :=
    .binary _ (.binary _ (.member (m := ⟨"Id", .int32⟩) (by decide)) (.captured rfl _ _))
      (.binary _ (.member (m := ⟨"Name", .text⟩) (by decide)) (.constant _ _))
  exact ⟨hcondition, condition_written_alike {} rfl rfl hcondition, by cbv⟩

/-- A flag is its own condition in a command, but is compared with one in an existence test; and the
names of flags are added up in a command, but joined in an existence test. -/
theorem condition_written_apart :
    let style : Style := .ofSettings { identifierCase := .preserve }
    let active : Expr := .member (.parameter flag) "Active"
    let name : Expr := .member (.parameter flag) "Name"
    let twice : Expr := .binary (.comparison .eq) (.binary (.arithmetic .add) name name)
      (.constant (.text "onon") .text)
    let test (b : Expr) := boundText ⟨[flags]⟩ { identifierCase := .preserve } {}
      (.call .existence (some (.collection "Flag")) [.lambda [flag] b])
    deleteText style flags (.lambda [flag] active) = .ok "DELETE FROM Flags\nWHERE Active" ∧
      test active = .ok "EXISTS (SELECT * FROM Flags WHERE Active = 1)" ∧
      deleteText style flags (.lambda [flag] twice) =
        .ok "DELETE FROM Flags\nWHERE (Name + Name) = 'onon'" ∧
      test twice = .ok "EXISTS (SELECT * FROM Flags WHERE (Name || Name) = 'onon')" := by
  refine ⟨?_, ?_, ?_, ?_⟩ <;> cbv

end Sql

end Quarry
