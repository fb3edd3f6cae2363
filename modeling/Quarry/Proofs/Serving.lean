import Quarry.Proofs.Computation
import Quarry.Proofs.Writability
/-!
What a folded query may be bound to in the place of the query itself: it has the same members, it is
a query where the other is one, and it can be written where the other can. Each step of the binding
walk keeps this, and a subtree that is folded to a constant meets it.
-/
namespace Quarry.Binding

/-- Neither a constructor nor a query. -/
def isSingle (e : Expr) : Bool := !isConstruct e && !isProjection e

/-- Where the walk of a query bound `r`, the walk of the folded query bound `r'`, which is as good:
it has the members that `r` has, it is a query if `r` is one, and it can be written if `r` can. Only
if `excused`, a constant may stand in the place of a constructor. -/
inductive Serves (excused : Bool) : Expr → Expr → Prop
  | single {r r'} (hr : isSingle r) (hr' : isSingle r')
      (haround : r.isWritable false true → r'.isWritable excused true)
      (hcomputed : r.computesWritable false → r'.computesWritable excused) : Serves excused r r'
  | folded {r r'} (h : excused) (hr : ∀ x ∈ r.nodes, isProjection x = false)
      (hr' : r'.isConstant || r'.isConstantMember)
      (haround : r.isWritable false true → r'.isWritable excused true) : Serves excused r r'
  | recordNil {t} : Serves excused (.construct t []) (.construct t [])
  | recordCons {t name r r' rs rs'} (h : Serves excused r r')
      (hs : Serves excused (.construct t rs) (.construct t rs')) :
      Serves excused (.construct t ((name, r) :: rs)) (.construct t ((name, r') :: rs'))
  | query {p p'} (hsource : p.source.isWritable false → p'.source.isWritable excused)
      (h : Serves excused p.projector p'.projector) :
      Serves excused (.projection p) (.projection p')

namespace Serves

variable {excused : Bool} {r r' : Expr}

theorem around (h : Serves excused r r') (hr : r.isWritable false true) :
    r'.isWritable excused true := by
  cases h with
  | single _ _ haround _ => exact haround hr
  | folded _ _ _ haround => exact haround hr
  | recordNil | recordCons | query =>
      rw [Expr.isWritable_eq_false rfl] at hr
      cases hr

theorem computed (h : Serves excused r r') (hr : r.computesWritable false) :
    r'.computesWritable excused := by
  induction h with
  | single _ _ _ hcomputed => exact hcomputed hr
  | @folded r r' _ _ hr' _ =>
      rcases Bool.or_eq_true_iff.mp hr' with hr' | hr'
      · cases r' with
        | constant => exact Expr.computesWritable_leaf rfl
        | _ => cases hr'
      · exact Expr.computesWritable_of_isConstantMember hr'
  | recordNil => simp
  | recordCons _ _ ih ihs =>
      simp only [Expr.computesWritable_construct, List.all_cons, Bool.and_eq_true] at ihs hr ⊢
      exact ⟨ih hr.1, ihs hr.2⟩
  | query => simp

/-- What serves in the place of a value that can be written can be written. -/
theorem writable (h : Serves excused r r') (hr : r.isWritable false false) :
    r'.isWritable excused false := by
  rw [Expr.isWritable_eq, Bool.and_eq_true] at hr ⊢
  exact ⟨h.around hr.1, h.computed hr.2⟩

/-! Records -/

theorem construct {t : DataType} {rs rs' : List (String × Expr)}
    (h : List.Forall₂ (fun a b => a.1 = b.1 ∧ Serves excused a.2 b.2) rs rs') :
    Serves excused (.construct t rs) (.construct t rs') := by
  induction h with
  | nil => exact .recordNil
  | @cons a b _ _ hab _ ih =>
      obtain ⟨name, r⟩ := a
      obtain ⟨name', r'⟩ := b
      obtain ⟨rfl, hr⟩ := hab
      exact .recordCons hr ih

theorem members {t : DataType} {rs rs' : List (String × Expr)}
    (h : Serves excused (.construct t rs) (.construct t rs')) :
    List.Forall₂ (fun a b => a.1 = b.1 ∧ Serves excused a.2 b.2) rs rs' := by
  induction rs generalizing rs' with
  | nil =>
      cases h with
      | recordNil => exact .nil
      | single hr => cases hr
      | folded _ _ hr' => cases hr'
  | cons _ rs ih =>
      cases h with
      | recordCons h hs => exact .cons ⟨rfl, h⟩ (ih hs)
      | single hr => cases hr
      | folded _ _ hr' => cases hr'

/-- A record is served by a record of the same members, or by a constant. -/
theorem construct_cases {t : DataType} {rs : List (String × Expr)}
    (h : Serves excused (.construct t rs) r') :
    (∃ rs', r' = .construct t rs' ∧
      List.Forall₂ (fun a b => a.1 = b.1 ∧ Serves excused a.2 b.2) rs rs') ∨
    excused ∧ (∀ x ∈ (Expr.construct t rs).nodes, isProjection x = false) ∧
      (r'.isConstant || r'.isConstantMember) := by
  cases h with
  | single hr => cases hr
  | folded hx hr hr' => exact .inr ⟨hx, hr, hr'⟩
  | recordNil => exact .inl ⟨[], rfl, .nil⟩
  | recordCons h hs => exact .inl ⟨_, rfl, (recordCons h hs).members⟩

end Serves

/-! Moving columns -/

section Moves

variable {excused : Bool} {e e' m m' : Expr} {label label' : String} {nested : Bool}
variable {sources sources' : List String} {columns columns' : List (String × Expr)}

theorem Moved.isSingle (h : Moved label sources columns e nested m) :
    isSingle m = isSingle e := by
  rw [Binding.isSingle, Binding.isSingle, h.isConstruct_eq, h.isProjection_eq]

theorem Moved.not_isProjection (h : Moved label sources columns e nested m)
    (he : ∀ x ∈ e.nodes, isProjection x = false) : ∀ x ∈ m.nodes, isProjection x = false := by
  induction h using Moved.induction with
  | taken e nested m ht h =>
      obtain ⟨i, name, -, rfl⟩ := h
      exact Expr.forall_mem_nodes.mpr ⟨rfl, List.forall_mem_nil _⟩
  | kept e nested m ht h halike =>
      obtain ⟨hnode, hbelow⟩ := Expr.forall_mem_nodes.mp he
      refine Expr.forall_mem_nodes.mpr ⟨h.isProjection_eq.trans hnode, fun c hc => ?_⟩
      obtain ⟨c', hc', hmoved, ih⟩ := exists_of_mem_right halike.children hc
      exact ih (hbelow c' hc')

theorem Moved.select_isWritable {s t : Select Expr}
    (h : s.Alike (Moved label sources columns · true ·) t) :
    t.isWritable excused = s.isWritable excused := by
  obtain ⟨_, cs, source, filter⟩ := s
  obtain ⟨_, cs', source', filter'⟩ := t
  simp only [Select.isWritable]
  rw [all_congr (h.columns.imp fun a b hab => hab.2.isWritable_nested), h.source.isWritableSource,
    option_all_congr h.filter fun a b hab => hab.isWritable_nested]

theorem Moved.members {t : DataType} {ms : List (String × Expr)}
    (h : Moved label sources columns (.construct t ms) nested m) : ∃ ms', m = .construct t ms' ∧
      List.Forall₂ (fun a b => a.1 = b.1 ∧ Moved label sources columns a.2 nested b.2) ms ms' := by
  cases h.alike (by simp [takes, isComputed]) with
  | leaf hleaf => cases hleaf
  | construct _ hms =>
      have hscope : (nested || isProjection (.construct t ms)) = nested := Bool.or_false nested
      rw [hscope] at hms
      exact ⟨_, rfl, hms⟩

theorem Moved.query {p : Projection Expr}
    (h : Moved label sources columns (.projection p) nested m) :
    ∃ q, m = .projection q ∧ p.source.Alike (Moved label sources columns · true ·) q.source ∧
      Moved label sources columns p.projector true q.projector := by
  cases h.alike (by simp [takes, isComputed]) with
  | leaf hleaf => cases hleaf
  | projection shape hs hp =>
      rw [isProjection, Bool.or_true] at hs hp
      exact ⟨_, rfl, hs, hp⟩

/-- What serves still does after the columns of both have been moved. -/
theorem Serves.move (h : Serves excused e e') (hm : Moved label sources columns e nested m)
    (hm' : Moved label' sources' columns' e' nested m') : Serves excused m m' := by
  induction h generalizing nested m m' with
  | single hr hr' haround hcomputed =>
      refine .single (hm.isSingle.trans hr) (hm'.isSingle.trans hr') ?_ ?_
      · rw [hm.isWritable_around, hm'.isWritable_around]
        exact haround
      · cases nested with
        | false => exact fun _ => hm'.computesWritable
        | true =>
            rw [hm.computesWritable_nested, hm'.computesWritable_nested]
            exact hcomputed
  | folded hx hr hr' haround =>
      refine .folded hx (hm.not_isProjection hr) ?_ ?_
      · rw [hm'.isConstant, hm'.isConstantMember]
        exact hr'
      · rw [hm.isWritable_around, hm'.isWritable_around]
        exact haround
  | recordNil =>
      obtain ⟨ms, rfl, hms⟩ := hm.members
      obtain ⟨ms', rfl, hms'⟩ := hm'.members
      cases hms
      cases hms'
      exact .recordNil
  | recordCons h hs ih ihs =>
      obtain ⟨ms, rfl, hms⟩ := hm.members
      obtain ⟨ms', rfl, hms'⟩ := hm'.members
      cases hms with
      | @cons _ b _ _ hb hms =>
          cases hms' with
          | @cons _ b' _ _ hb' hms' =>
              obtain ⟨name, x⟩ := b
              obtain ⟨name', x'⟩ := b'
              obtain ⟨rfl, hx⟩ := hb
              obtain ⟨rfl, hx'⟩ := hb'
              exact .recordCons (ih hx hx') (ihs (moved_construct hms) (moved_construct hms'))
  | query hsource h ih =>
      obtain ⟨q, rfl, hs, hp⟩ := hm.query
      obtain ⟨q', rfl, hs', hp'⟩ := hm'.query
      refine .query ?_ (ih hp hp')
      rw [Moved.select_isWritable hs, Moved.select_isWritable hs']
      exact hsource

/-- New selects serve if their projectors, sources and filters do. -/
theorem Serves.projection {n n' : Nat} {source source' : Expr} {filter filter' : Option Expr}
    (h : Serves excused e e')
    (hsource : source.isWritableSource false → source'.isWritableSource excused)
    (hfilter : filter.all (Expr.isWritable false false) →
      filter'.all (Expr.isWritable excused false)) :
    Serves excused (.projection (Binding.projection e n sources source filter))
      (.projection (Binding.projection e' n' sources' source' filter')) := by
  have hproj := projectColumns_projected e (Binding.label n) sources
  have hproj' := projectColumns_projected e' (Binding.label n') sources'
  refine .query ?_ (h.move hproj.moved hproj'.moved)
  simp only [Binding.projection, Select.isWritable, Bool.and_eq_true]
  rintro ⟨⟨hcolumns, hs⟩, hf⟩
  refine ⟨⟨?_, hsource hs⟩, hfilter hf⟩
  -- the columns of a select declare columns, and all that the text computes in the projector
  have hcomputed :=
    h.computed (hproj.moved.computesWritable_of_columns (List.all_eq_true.mp hcolumns))
  rw [List.all_eq_true]
  intro column hcolumn
  exact isWritable_of_taken (fun _ => hcomputed) (hproj'.taken column hcolumn)

end Moves

/-! What the walk does with what is bound -/

section Steps

variable {excused : Bool} {r r' x : Expr}

theorem Serves.not_isConstruct (h : Serves excused r r') (hr : isConstruct r = false) :
    isConstruct r' = false := by
  cases h with
  | single _ hr' =>
      rw [isSingle, Bool.and_eq_true, Bool.not_eq_true'] at hr'
      exact hr'.1
  | folded _ _ hr' => cases r' <;> first | rfl | cases hr'
  | recordNil | recordCons => cases hr
  | query => rfl

theorem Serves.member {name : String} (h : Serves excused r r') (hx : memberOf r name = .ok x) :
    ∃ x', memberOf r' name = .ok x' ∧ Serves excused x x' := by
  rcases memberOf_cases hx with ⟨t, ms, rfl, hlookup⟩ | ⟨hr, rfl⟩
  · rcases h.construct_cases with ⟨ms', rfl, hms⟩ | ⟨hexcused, hnodes, hr'⟩
    · obtain ⟨x', hlookup', hx'⟩ := exists_of_lookup hms hlookup
      exact ⟨x', by simp only [memberOf, hlookup'], hx'⟩
    · -- the constructor was folded, and its member is read from the constant
      have hconstruct : isConstruct r' = false := by cases r' <;> first | rfl | cases hr'
      have hmember : (Expr.member r' name).isConstantMember := hr'
      refine ⟨_, memberOf_of_not_isConstruct hconstruct, .folded hexcused ?_ ?_ fun _ => ?_⟩
      · intro y hy
        have hchild : x ∈ (Expr.construct t ms).children :=
          List.mem_map_of_mem (f := (·.2)) (mem_of_lookup hlookup)
        exact hnodes y (Expr.mem_nodes_of_child hchild hy)
      · rw [hmember, Bool.or_true]
      · rw [hexcused]
        exact Expr.isWritable_of_isConstantMember hmember
  · refine ⟨_, memberOf_of_not_isConstruct (h.not_isConstruct hr), .single rfl rfl ?_ ?_⟩
    · rw [Expr.isWritable_member]
      rintro ⟨⟩
    · rw [Expr.computesWritable_member, Expr.computesWritable_member]
      exact h.computed

theorem Serves.unary {op : UnaryOperator} (h : Serves excused r r') :
    Serves excused (.unary op r) (.unary op r') := by
  refine .single rfl rfl ?_ ?_
  · rw [Expr.isWritable_unary, Expr.isWritable_unary]
    exact h.around
  · rw [Expr.computesWritable_unary, Expr.computesWritable_unary]
    exact h.computed

theorem Serves.binary {op : BinaryOperator} {y y' : Expr} (h : Serves excused r r')
    (hy : Serves excused y y') : Serves excused (.binary op r y) (.binary op r' y') := by
  refine .single rfl rfl ?_ ?_
  · rw [Expr.isWritable_binary, Expr.isWritable_binary, Bool.and_eq_true, Bool.and_eq_true]
    exact fun hw => ⟨h.around hw.1, hy.around hw.2⟩
  · rw [Expr.computesWritable_binary, Expr.computesWritable_binary, Bool.and_eq_true,
      Bool.and_eq_true]
    exact fun hw => ⟨h.computed hw.1, hy.computed hw.2⟩

/-- What the text computes serves if it can be written. -/
theorem serves_computed (hr : isComputed r) (hr' : isComputed r')
    (h : r.isWritable false false → r'.isWritable excused false) : Serves excused r r' := by
  have hsingle {y : Expr} (hy : isComputed y) : isSingle y := by
    cases y <;> first | rfl | cases hy
  have haround {y : Expr} (hy : isComputed y) : y.isWritable excused true := by
    cases y with
    | function | subquery => simp
    | _ => cases hy
  refine .single (hsingle hr) (hsingle hr') (fun _ => haround hr') ?_
  rw [Expr.computesWritable_of_isComputed hr, Expr.computesWritable_of_isComputed hr']
  exact h

theorem isSimple_of_increment {v w : Value}
    (h : Value.applyBinary (.arithmetic .add) v (.int32 1) = .ok w) : v.isSimple := by
  cases v with
  | record fields => cases h
  | list values => cases h
  | _ => rfl

/-- The index is a constant to which one cannot be added. -/
def ShiftError (index : Expr) (err : Error) : Prop :=
  ∃ v t, index = .constant v t ∧ Value.applyBinary (.arithmetic .add) v (.int32 1) = .error err

theorem isWritable_of_successor {i start : Expr} (h : successor i = .ok start)
    (hstart : start.isWritable false false) : i.isWritable false false := by
  cases i with
  | constant v t =>
      obtain ⟨w, hw, -⟩ := map_eq_ok.mp h
      rw [Expr.isWritable_constant]
      exact isSimple_of_increment hw
  | _ =>
      obtain rfl := Except.ok.inj h
      rw [Expr.isWritable_binary, Bool.and_eq_true] at hstart
      exact hstart.1

theorem successor_isWritable {i start : Expr} (h : successor i = .ok start)
    (hi : i.isWritable excused false) : start.isWritable excused false := by
  cases i with
  | constant v t =>
      obtain ⟨w, hw, rfl⟩ := map_eq_ok.mp h
      rw [Expr.literal, Expr.isWritable_constant]
      exact Value.applyBinary_isSimple hw
  | _ =>
      obtain rfl := Except.ok.inj h
      rw [Expr.isWritable_binary, hi]
      simp [Expr.literal, Value.isSimple]

theorem Serves.substring {s s' i i' : Expr} (hs : Serves excused s s') (hi : Serves excused i i')
    (h : substring s i = .ok r) : Yields (ShiftError i') (substring s' i') (Serves excused r) := by
  simp only [Binding.substring, bind_eq_ok, pure_eq_ok] at h ⊢
  obtain ⟨start, hstart, rfl⟩ := h
  cases hstart' : successor i' with
  | error err =>
      cases i' with
      | constant v t => exact ⟨v, t, rfl, map_eq_error.mp hstart'⟩
      | _ => cases hstart'
  | ok start' =>
      apply serves_computed rfl rfl
      simp only [Expr.isWritable_function, FunctionCall.children, Option.toList, List.cons_append,
        List.nil_append, List.all_cons, List.all_nil, Bool.and_true, Bool.false_or,
        Bool.and_eq_true]
      rintro ⟨hws, hwstart, -⟩
      refine ⟨hs.writable hws, ?_, ?_⟩
      · exact successor_isWritable hstart' (hi.writable (isWritable_of_successor hstart hwstart))
      · rfl

end Steps

/-! Folded subtrees -/

section Folded

variable {catalog : Catalog} {style : IdentifierCase} {excused : Bool}

/-- What is known of what a subtree with the value `v` is bound to: a constructor stands for a
record of the same fields, and else it can be written only if the value has a literal. -/
inductive Denotes : Expr → Value → Prop
  | single {r v} (hr : isConstruct r = false) (h : r.isWritable false true → v.isSimple) :
      Denotes r v
  | recordNil {t} : Denotes (.construct t []) (.record [])
  | recordCons {t name r v rs fields} (h : Denotes r v)
      (hs : Denotes (.construct t rs) (.record fields)) :
      Denotes (.construct t ((name, r) :: rs)) (.record ((name, v) :: fields))

theorem Denotes.around {r : Expr} {v : Value} (h : Denotes r v) (hr : r.isWritable false true) :
    v.isSimple := by
  cases h with
  | single _ h => exact h hr
  | recordNil | recordCons =>
      rw [Expr.isWritable_eq_false rfl] at hr
      cases hr

theorem Denotes.fields {t : DataType} {rs : List (String × Expr)} {v : Value}
    (h : Denotes (.construct t rs) v) : ∃ fields, v = .record fields ∧
      List.Forall₂ (fun a b => a.1 = b.1 ∧ Denotes a.2 b.2) rs fields := by
  induction rs generalizing v with
  | nil =>
      cases h with
      | single hr => cases hr
      | recordNil => exact ⟨[], rfl, .nil⟩
  | cons _ rs ih =>
      cases h with
      | single hr => cases hr
      | recordCons h hs =>
          obtain ⟨fields, heq, hfields⟩ := ih hs
          cases heq
          exact ⟨_, rfl, .cons ⟨rfl, h⟩ hfields⟩

/-- What a subtree `e` with the value `v` is bound to: no query occurs in it, and it is a
constructor only if one occurs in the subtree. -/
structure BindsValue (e : Expr) (v : Value) (r : Expr) : Prop where
  denotes : Denotes r v
  noQuery : ∀ x ∈ r.nodes, isProjection x = false
  constructed : isConstruct r → ∃ x ∈ e.nodes, isConstruct x

/-- If `e` has a value, the walk changes nothing and binds `e` to what stands for the value. -/
def VisitDenotes (catalog : Catalog) (style : IdentifierCase) (e : Expr) : Prop :=
  ∀ ⦃v r s s'⦄, e.evaluate = .ok v → (visit catalog style e).run s = .ok (r, s') →
    s' = s ∧ BindsValue e v r

theorem noQuery_of_children {r : Expr} (hr : isProjection r = false)
    (h : ∀ c ∈ r.children, ∀ x ∈ c.nodes, isProjection x = false) :
    ∀ x ∈ r.nodes, isProjection x = false := Expr.forall_mem_nodes.mpr ⟨hr, h⟩

theorem successor_noQuery {i start : Expr} (h : successor i = .ok start)
    (hi : ∀ x ∈ i.nodes, isProjection x = false) : ∀ x ∈ start.nodes, isProjection x = false := by
  have hliteral (v : Value) : ∀ x ∈ (Expr.literal v).nodes, isProjection x = false :=
    noQuery_of_children rfl (List.forall_mem_nil _)
  cases i with
  | constant v t =>
      obtain ⟨w, -, rfl⟩ := map_eq_ok.mp h
      exact hliteral w
  | _ =>
      obtain rfl := Except.ok.inj h
      refine noQuery_of_children rfl fun c hc => ?_
      rcases List.mem_pair.mp hc with rfl | rfl
      · exact hi
      · exact hliteral _

theorem visitMembers_denotes {ms : List (String × Expr)} {fields : List (String × Value)}
    {rs : List (String × Expr)} {s s' : Scope} (ih : ∀ m ∈ ms, VisitDenotes catalog style m.2)
    (hv : List.Forall₂ (fun m field => m.1 = field.1 ∧ m.2.evaluate = .ok field.2) ms fields)
    (hrun : (visitMembers catalog style ms).run s = .ok (rs, s')) (t : DataType) :
    s' = s ∧ Denotes (.construct t rs) (.record fields) ∧
      ∀ m ∈ rs, ∀ x ∈ m.2.nodes, isProjection x = false := by
  induction hv generalizing rs s with
  | nil =>
      unfold visitMembers at hrun
      obtain ⟨rfl, rfl⟩ := run_pure_eq_ok.mp hrun
      exact ⟨rfl, .recordNil, List.forall_mem_nil _⟩
  | @cons m field ms fields hm _ ihms =>
      obtain ⟨name, e⟩ := m
      obtain ⟨name', v⟩ := field
      obtain ⟨rfl, hv⟩ := hm
      unfold visitMembers at hrun
      simp only [run_bind_eq_ok, run_pure_eq_ok] at hrun
      obtain ⟨r, s₁, he, rs', s₂, hms, rfl, rfl⟩ := hrun
      obtain ⟨rfl, hr⟩ := ih _ List.mem_cons_self hv he
      obtain ⟨rfl, hdenotes, hnone⟩ := ihms (fun m hm => ih m (List.mem_cons_of_mem _ hm)) hms
      refine ⟨rfl, .recordCons hr.denotes hdenotes, fun m hm => ?_⟩
      rcases List.mem_cons.mp hm with rfl | hm
      · exact hr.noQuery
      · exact hnone m hm

theorem visit_denotes (catalog : Catalog) (style : IdentifierCase) (e : Expr) :
    VisitDenotes catalog style e := by
  induction e using Expr.children_induction with
  | step e ih =>
      intro v r s s' hv hrun
      cases Expr.evaluated_of_evaluateWith hv with
      | parameter h => cases h
      | constant | captured =>
          obtain ⟨rfl, rfl⟩ := run_pure_eq_ok.mp hrun
          refine ⟨rfl, .single rfl ?_, noQuery_of_children rfl (List.forall_mem_nil _),
            by rintro ⟨⟩⟩
          intro hw
          simpa [Expr.literal] using hw
      | @member target name w _ hw hmember =>
          unfold visit at hrun
          simp only [run_bind_eq_ok, run_lift_eq_ok] at hrun
          obtain ⟨x, t, hx, hr, rfl⟩ := hrun
          have htarget : target ∈ (Expr.member target name).children := by simp [Expr.children]
          obtain ⟨rfl, hdenotes, hnone, hconstructed⟩ := ih target htarget hw hx
          rcases memberOf_cases hr with ⟨ty, ms, rfl, hlookup⟩ | ⟨hplain, rfl⟩
          · obtain ⟨fields, rfl, hfields⟩ := hdenotes.fields
            obtain ⟨y, hy, hry⟩ := exists_of_lookup hfields hlookup
            have hvy : y = v := by simpa [Value.member, hy] using hmember
            have hchild : r ∈ (Expr.construct ty ms).children :=
              List.mem_map_of_mem (f := (·.2)) (mem_of_lookup hlookup)
            refine ⟨rfl, hvy ▸ hry, fun z hz => hnone z (Expr.mem_nodes_of_child hchild hz), ?_⟩
            intro _
            obtain ⟨z, hz, hzc⟩ := hconstructed rfl
            exact ⟨z, Expr.mem_nodes_of_child htarget hz, hzc⟩
          · refine ⟨rfl, .single rfl ?_, noQuery_of_children rfl ?_, by rintro ⟨⟩⟩
            · rw [Expr.isWritable_member]
              rintro ⟨⟩
            · intro c hc
              obtain rfl := List.mem_singleton.mp hc
              exact hnone
      | @unary op operand w _ hw happly =>
          unfold visit at hrun
          simp only [run_bind_eq_ok, run_pure_eq_ok] at hrun
          obtain ⟨x, t, hx, rfl, rfl⟩ := hrun
          obtain ⟨rfl, hoperand⟩ := ih operand (by simp [Expr.children]) hw hx
          refine ⟨rfl, .single rfl fun _ => Value.applyUnary_isSimple happly,
            noQuery_of_children rfl ?_, by rintro ⟨⟩⟩
          intro c hc
          obtain rfl := List.mem_singleton.mp hc
          exact hoperand.noQuery
      | @binary op a b x y _ hx hy happly =>
          unfold visit at hrun
          simp only [run_bind_eq_ok, run_pure_eq_ok] at hrun
          obtain ⟨l, t, hl, r, t', hr, rfl, rfl⟩ := hrun
          obtain ⟨rfl, hleft⟩ := ih a (by simp [Expr.children]) hx hl
          obtain ⟨rfl, hright⟩ := ih b (by simp [Expr.children]) hy hr
          refine ⟨rfl, .single rfl fun _ => Value.applyBinary_isSimple happly,
            noQuery_of_children rfl ?_, by rintro ⟨⟩⟩
          intro c hc
          rcases List.mem_pair.mp hc with rfl | rfl
          · exact hleft.noQuery
          · exact hright.noQuery
      | @construct ty members fields hfields =>
          unfold visit at hrun
          simp only [run_bind_eq_ok, run_pure_eq_ok] at hrun
          obtain ⟨rs, t, hms, rfl, rfl⟩ := hrun
          obtain ⟨rfl, hdenotes, hnone⟩ := visitMembers_denotes
            (fun m hm => ih m.2 (List.mem_map_of_mem hm)) hfields hms ty
          refine ⟨rfl, hdenotes, noQuery_of_children rfl ?_,
            fun _ => ⟨_, Expr.self_mem_nodes _, rfl⟩⟩
          intro c hc
          obtain ⟨m, hm, rfl⟩ := List.mem_map.mp hc
          exact hnone m hm
      | @charAt string index a i _ ha hi hchar =>
          unfold visit at hrun
          simp only [run_bind_eq_ok, run_lift_eq_ok] at hrun
          obtain ⟨x, t, hx, y, t', hy, hr, rfl⟩ := hrun
          obtain ⟨rfl, hstring⟩ := ih string (by simp [Expr.children]) ha hx
          obtain ⟨rfl, hindex⟩ := ih index (by simp [Expr.children]) hi hy
          simp only [substring, bind_eq_ok, pure_eq_ok] at hr
          obtain ⟨start, hstart, rfl⟩ := hr
          refine ⟨rfl, .single rfl fun _ => (Value.charAt_inhabits hchar).2,
            noQuery_of_children rfl ?_, by rintro ⟨⟩⟩
          intro c hc
          simp only [Expr.children, FunctionCall.children, Option.toList, List.cons_append,
            List.nil_append, List.mem_cons, List.not_mem_nil, or_false] at hc
          rcases hc with rfl | rfl | rfl
          · exact hstring.noQuery
          · exact successor_noQuery hstart hindex.noQuery
          · exact noQuery_of_children rfl (List.forall_mem_nil _)

/-- A subtree that was folded is served by the constant. -/
theorem serves_toConstant {e r e' : Expr} {s s' : Scope}
    (hexcused : (∃ x ∈ e.nodes, isConstruct x) → excused) (hfold : e.toConstant = .ok e')
    (hrun : (visit catalog style e).run s = .ok (r, s')) : s' = s ∧ Serves excused r e' := by
  simp only [Expr.toConstant, bind_eq_ok, pure_eq_ok] at hfold
  obtain ⟨v, hv, w, hw, rfl⟩ := hfold
  obtain ⟨rfl, hdenotes, hnone, hconstructed⟩ := visit_denotes catalog style e hv hrun
  have haround (hr : r.isWritable false true) :
      (Expr.constant w (e.staticType?.getD v.dataType)).isWritable excused true := by
    rw [Expr.isWritable_constant]
    exact Value.cast_isSimple (hdenotes.around hr) hw
  refine ⟨rfl, ?_⟩
  cases hr : isConstruct r with
  | true => exact .folded (hexcused (hconstructed hr)) hnone rfl haround
  | false =>
      have hsingle : isSingle r := by
        rw [isSingle, hr, hnone r (Expr.self_mem_nodes r)]
        rfl
      exact .single hsingle rfl haround fun _ => Expr.computesWritable_leaf rfl

end Folded

end Quarry.Binding
