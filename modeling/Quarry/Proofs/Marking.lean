import Quarry.Proofs.Provenance
/-!
Columns under a mark. The record that stands for the parameter of an existence test has columns
without a label. With a mark in the place of the missing label, the walk does the same and keeps the
mark: without it, what is bound is what would have been bound. So the mark tells which of the columns
without a label stand for the parameter.
-/
namespace Quarry

namespace Expr

/-- A column under the mark, without it. -/
def unmarked? (mark : String) : Expr → Option Expr
  | .column c => if c.label = mark then some (.column { c with label := "" }) else none
  | _ => none

/-- The tree with all columns under the mark left without a label. -/
def unmark (mark : String) (e : Expr) : Expr := e.rewrite (unmarked? mark)

def isColumn : Expr → Bool
  | .column _ => true
  | _ => false

variable {mark : String} {e : Expr}

theorem unmark_of_marked {c : Column} (h : c.label = mark) :
    (column c).unmark mark = .column { c with label := "" } :=
  rewrite_some (by simp [unmarked?, h])

theorem unmark_column {c : Column} (h : c.label ≠ mark) : (column c).unmark mark = .column c := by
  rw [unmark, rewrite_eq, unmarked?, if_neg h]
  rfl

theorem unmarked_eq_none (h : e.isColumn = false) : unmarked? mark e = none := by
  cases e <;> first | rfl | cases h

/-- Apart from columns, only the children change. -/
theorem unmark_alike (h : e.isColumn = false) :
    Alike (fun c c' => c ∈ e.children ∧ c' = c.unmark mark) e (e.unmark mark) :=
  rewrite_none (unmarked_eq_none h)

theorem unmark_eq (h : e.isColumn = false) : e.unmark mark = e.mapChildren (unmark mark) := by
  rw [unmark, rewrite_eq, unmarked_eq_none h, Option.getD_none, withChildren_map]
  rfl

/-- A tree without columns under the mark is left as it is. -/
theorem unmark_of_free (h : ∀ c, .column c ∈ e.nodes → c.label ≠ mark) : e.unmark mark = e := by
  refine rewrite_of_none fun x hx => ?_
  cases x with
  | column c => exact if_neg (h c hx)
  | _ => rfl

/-- A column stays one, of the same type, and of any other node only the children change. -/
theorem unmark_cases {P : Expr → Prop} (e : Expr)
    (column : ∀ c c' : Column, e = .column c → c'.type = c.type → P (.column c'))
    (alike : ∀ e', Alike (fun c c' => c ∈ e.children ∧ c' = c.unmark mark) e e' →
      e.isColumn = false → P e') : P (e.unmark mark) := by
  cases hcolumn : e.isColumn with
  | false => exact alike _ (unmark_alike hcolumn) hcolumn
  | true =>
      cases e with
      | column c =>
          by_cases hc : c.label = mark
          · rw [unmark_of_marked hc]
            exact column c _ rfl rfl
          · rw [unmark_column hc]
            exact column c c rfl rfl
      | _ => cases hcolumn

theorem staticType_unmark (e : Expr) : (e.unmark mark).staticType? = e.staticType? := by
  induction e using children_induction with
  | step e ih =>
      refine unmark_cases e ?_ fun e' halike _ => halike.staticType_eq ?_
      · rintro c c' rfl htype
        exact congrArg some htype
      · rintro c _ ⟨hc, rfl⟩
        exact ih c hc

section

variable {m : Type → Type} [Monad m] [LawfulMonad m]

theorem map_mapOptionM (f : Expr → m Expr) (g : Expr → Expr) (o : Option Expr) :
    (fun o => Id.run (mapOptionM (fun c => pure (g c)) o)) <$> mapOptionM f o =
      mapOptionM (fun c => g <$> f c) o := by
  cases o <;> simp [mapOptionM]

theorem map_mapMembersM (f : Expr → m Expr) (g : Expr → Expr) (ms : List (String × Expr)) :
    (fun ms => Id.run (mapMembersM (fun c => pure (g c)) ms)) <$> mapMembersM f ms =
      mapMembersM (fun c => g <$> f c) ms := by
  have hmap := map_mapM (fun p : String × Expr => Prod.mk p.1 <$> f p.2) (fun p => (p.1, g p.2)) ms
  simpa [mapMembersM] using hmap

/-- A map over the children after another is one. -/
theorem mapChildren_mapChildrenM (f : Expr → m Expr) (g : Expr → Expr) (e : Expr) :
    mapChildren g <$> mapChildrenM f e = mapChildrenM (fun c => g <$> f c) e := by
  cases e <;> simp [mapChildren, mapChildrenM, mapSelectM, mapProjectionM, mapCallM,
    ← map_mapOptionM f g, ← map_mapMembersM f g, ← map_mapM f g]

end

theorem unmark_constant (v : Value) (t : DataType) : (constant v t).unmark mark = .constant v t :=
  unmark_eq rfl

theorem unmark_member (e : Expr) (name : String) :
    (member e name).unmark mark = .member (e.unmark mark) name := unmark_eq rfl

theorem unmark_unary (op : UnaryOperator) (e : Expr) :
    (unary op e).unmark mark = .unary op (e.unmark mark) := unmark_eq rfl

theorem unmark_binary (op : BinaryOperator) (a b : Expr) :
    (binary op a b).unmark mark = .binary op (a.unmark mark) (b.unmark mark) := unmark_eq rfl

theorem unmark_construct (t : DataType) (ms : List (String × Expr)) :
    (construct t ms).unmark mark = .construct t (ms.map fun m => (m.1, m.2.unmark mark)) :=
  rewrite_construct rfl

theorem unmark_join (kind : JoinKind) (l r c : Expr) :
    (join kind l r (some c)).unmark mark =
      .join kind (l.unmark mark) (r.unmark mark) (some (c.unmark mark)) := unmark_eq rfl

theorem run_mapOptionM (g : Expr → Expr) (o : Option Expr) :
    Id.run (mapOptionM (fun c => pure (g c)) o) = o.map g := by
  cases o <;> rfl

theorem unmark_function (f : FunctionCall Expr) :
    (function f).unmark mark = .function { f with
      receiver := f.receiver.map (unmark mark), args := f.args.map (unmark mark) } := by
  rw [unmark_eq rfl]
  simp [mapChildren, mapChildrenM, mapCallM, run_mapOptionM]

theorem unmark_subquery (f : FunctionCall Expr) (sql : String) :
    (subquery f sql).unmark mark = .subquery { f with
      receiver := f.receiver.map (unmark mark), args := f.args.map (unmark mark) } sql := by
  rw [unmark_eq rfl]
  simp [mapChildren, mapChildrenM, mapCallM, run_mapOptionM]

end Expr

def Select.unmark (mark : String) (s : Select Expr) : Select Expr where
  label := s.label
  columns := s.columns.map fun x => (x.1, x.2.unmark mark)
  source := s.source.unmark mark
  filter := s.filter.map (Expr.unmark mark)

def Projection.unmark (mark : String) (p : Projection Expr) : Projection Expr where
  source := p.source.unmark mark
  projector := p.projector.unmark mark
  shape := p.shape

namespace Expr

variable {mark : String}

theorem unmark_select (s : Select Expr) :
    (select s).unmark mark = .select (s.unmark mark) := by
  rw [unmark_eq rfl]
  simp [mapChildren, mapChildrenM, mapSelectM, mapMembersM, run_mapOptionM, Select.unmark]

theorem unmark_projection (p : Projection Expr) :
    (projection p).unmark mark = .projection (p.unmark mark) := by
  rw [unmark_eq rfl]
  simp [mapChildren, mapChildrenM, mapProjectionM, mapSelectM, mapMembersM, run_mapOptionM,
    Projection.unmark, Select.unmark]

end Expr

namespace Binding

/-! New selects -/

section Select

variable {mark label : String} {sources : List String} {d : Declarations} {e : Expr}
variable {nested : Bool}

/-- The declarations with all columns under the mark left without a label. -/
def Declarations.unmark (mark : String) (d : Declarations) : Declarations :=
  { d with columns := d.columns.map fun x => (x.1, x.2.unmark mark) }

theorem declare_unmark (base : String) (type : DataType) (e : Expr) :
    (d.unmark mark).declare label base type (e.unmark mark) =
      ((d.declare label base type e).1, (d.declare label base type e).2.unmark mark) := by
  simp [Declarations.declare, Declarations.unmark, Function.comp_def]

theorem lookup_moved (hd : Declared label sources d) {c : Column} (hc : c.label ∉ sources) :
    d.moved.lookup c = none := by
  cases hlookup : d.moved.lookup c with
  | none => rfl
  | some column => exact absurd (hd.moved c column hlookup).1 hc

/-- A column under the mark stays, with the mark and without it; all others are moved alike. -/
theorem moveColumn_unmark (hd : Declared label sources d) (hmark : mark ∉ sources)
    (hempty : "" ∉ sources) (hlabel : label ≠ mark) (c : Column) :
    (moveNode label sources ((Expr.column c).unmark mark)).run (d.unmark mark) =
      (((moveNode label sources (.column c)).run d).1.unmark mark,
        ((moveNode label sources (.column c)).run d).2.unmark mark) := by
  have hrun (c : Column) (d : Declarations) : (moveNode label sources (.column c)).run d =
      (.column (moveColumn label sources c d).1, (moveColumn label sources c d).2) := rfl
  have hmoved : (d.unmark mark).moved = d.moved := rfl
  by_cases hc : c.label = mark
  · have hc' : c.label ∉ sources := hc ▸ hmark
    rw [Expr.unmark_of_marked hc, hrun, hrun, moveColumn, moveColumn, hmoved, lookup_moved hd hc',
      lookup_moved hd hempty]
    simp only [hc', hempty, if_false]
    rw [Expr.unmark_of_marked hc]
  · rw [Expr.unmark_column hc, hrun, hrun, moveColumn, moveColumn, hmoved]
    cases hlookup : d.moved.lookup c with
    | some column =>
        obtain ⟨-, i, name, -, hcolumn⟩ := hd.moved c column hlookup
        have hcolumn' : column.label ≠ mark := by
          cases hcolumn
          exact hlabel
        simp only [Expr.unmark_column hcolumn']
    | none =>
        by_cases hs : c.label ∈ sources
        · have hdeclare : (d.unmark mark).declare label c.name c.type ((Expr.column c).unmark mark) =
              ((d.declare label c.name c.type (.column c)).1,
                (d.declare label c.name c.type (.column c)).2.unmark mark) := declare_unmark _ _ _
          rw [Expr.unmark_column hc] at hdeclare
          simp only [hs, if_true, hdeclare]
          rw [Expr.unmark_column (c := (d.declare label c.name c.type (.column c)).1) hlabel]
          rfl
        · simp only [hs, if_false, Expr.unmark_column hc]

theorem moveComputed_unmark (e : Expr) (d : Declarations) :
    (moveComputed label (e.unmark mark)).run (d.unmark mark) =
      (((moveComputed label e).run d).1, ((moveComputed label e).run d).2.unmark mark) := by
  have hrun (e : Expr) (d : Declarations) : (moveComputed label e).run d =
      { d with computed := d.computed + 1 }.declare label ("c" ++ toString d.computed)
        (e.staticType?.getD .null) e := rfl
  rw [hrun, hrun, Expr.staticType_unmark]
  exact declare_unmark (d := { d with computed := d.computed + 1 }) _ _ e

theorem isComputed_unmark (e : Expr) : isComputed (e.unmark mark) = isComputed e := by
  refine Expr.unmark_cases (P := fun x => isComputed x = isComputed e) e ?_ fun e' halike _ => ?_
  · rintro c c' rfl -
    rfl
  · cases halike <;> rfl

theorem isProjection_unmark (e : Expr) : isProjection (e.unmark mark) = isProjection e := by
  refine Expr.unmark_cases (P := fun x => isProjection x = isProjection e) e ?_ fun e' halike _ => ?_
  · rintro c c' rfl -
    rfl
  · cases halike <;> rfl

theorem nominates_unmark (e : Expr) (nested : Bool) :
    Nomination.nominates columnRule (e.unmark mark) nested =
      Nomination.nominates columnRule e nested := by
  refine Expr.unmark_cases (P := fun x => Nomination.nominates columnRule x nested =
    Nomination.nominates columnRule e nested) e ?_ fun e' halike _ => ?_
  · rintro c c' rfl -
    rw [nominates_columnRule, nominates_columnRule]
  · rw [nominates_columnRule, nominates_columnRule]
    cases halike <;> rfl

theorem moveNode_of_computed (h : isComputed e) : (moveNode label sources e).run d =
    (.column ((moveComputed label e).run d).1, ((moveComputed label e).run d).2) := by
  cases e with
  | function | subquery => rfl
  | _ => cases h

theorem moveNode_unmark (hd : Declared label sources d) (hmark : mark ∉ sources)
    (hempty : "" ∉ sources) (hlabel : label ≠ mark)
    (h : Nomination.nominates columnRule e nested) :
    (moveNode label sources (e.unmark mark)).run (d.unmark mark) =
      (((moveNode label sources e).run d).1.unmark mark,
        ((moveNode label sources e).run d).2.unmark mark) := by
  rw [nominates_columnRule] at h
  cases hcomputed : isComputed e with
  | true =>
      have hcolumn : ((moveComputed label e).run d).1.label ≠ mark := hlabel
      rw [moveNode_of_computed ((isComputed_unmark e).trans hcomputed), moveNode_of_computed hcomputed,
        moveComputed_unmark, Expr.unmark_column hcolumn]
  | false =>
      cases e with
      | column c => exact moveColumn_unmark hd hmark hempty hlabel c
      | _ => simp [hcomputed] at h

/-- The children that are put into a node that is no column can be rid of the mark before. -/
theorem unmark_withChildren (f : Expr → StateM Declarations Expr) (h : e.isColumn = false)
    (d : Declarations) : (e.withChildren ((e.children.mapM f).run d).1).unmark mark =
      e.withChildren (((e.children.mapM f).run d).1.map (Expr.unmark mark)) := by
  have hcolumn : (e.withChildren ((e.children.mapM f).run d).1).isColumn = false := by
    rcases Expr.withChildren_cases e ((e.children.mapM f).run d).1 with heq | ⟨-, hleaf⟩
    · rw [heq, h]
    · generalize e.withChildren _ = e' at hleaf
      cases e' <;> first | rfl | cases hleaf
  have hmap := congrArg (fun x => (x.run d).1) (Expr.mapChildren_mapChildrenM f (Expr.unmark mark) e)
  rw [Expr.mapChildrenM_eq, Expr.mapChildrenM_eq, ← map_mapM] at hmap
  rw [Expr.unmark_eq hcolumn]
  exact hmap

theorem mapM_unmark {f : Expr → StateM Declarations Expr} (cs : List Expr)
    (ih : ∀ c ∈ cs, ∀ d, Declared label sources d →
      Declared label sources ((f c).run d).2 ∧
      (f (c.unmark mark)).run (d.unmark mark) =
        (((f c).run d).1.unmark mark, ((f c).run d).2.unmark mark))
    (hd : Declared label sources d) :
    (cs.mapM fun c => f (c.unmark mark)).run (d.unmark mark) =
      (((cs.mapM f).run d).1.map (Expr.unmark mark), ((cs.mapM f).run d).2.unmark mark) := by
  induction cs generalizing d with
  | nil => rfl
  | cons c cs ihcs =>
      obtain ⟨hdeclared, hc⟩ := ih c List.mem_cons_self d hd
      have hcs := ihcs (fun c hc => ih c (List.mem_cons_of_mem _ hc)) hdeclared
      have hrun {g : Expr → StateM Declarations Expr} (d : Declarations) :
          ((c :: cs).mapM g).run d = (((g c).run d).1 :: ((cs.mapM g).run ((g c).run d).2).1,
            ((cs.mapM g).run ((g c).run d).2).2) := by
        rw [List.mapM_cons]
        rfl
      rw [hrun, hrun, hc, hcs, List.map_cons]

theorem replaceNominated_unmark (e : Expr) (nested : Bool) (hd : Declared label sources d)
    (hmark : mark ∉ sources) (hempty : "" ∉ sources) (hlabel : label ≠ mark) :
    (Nomination.replaceNominated columnRule (moveNode label sources) (e.unmark mark) nested).run
        (d.unmark mark) =
      (((Nomination.replaceNominated columnRule (moveNode label sources) e nested).run d).1.unmark mark,
        ((Nomination.replaceNominated columnRule (moveNode label sources) e nested).run d).2.unmark
          mark) := by
  induction e using Expr.children_induction generalizing nested d with
  | step e ih =>
      rw [Nomination.replaceNominated_eq, Nomination.replaceNominated_eq, nominates_unmark]
      cases h : Nomination.nominates columnRule e nested with
      | true => exact moveNode_unmark hd hmark hempty hlabel h
      | false =>
          have hcolumn : e.isColumn = false := by
            rw [nominates_columnRule] at h
            cases e <;> first | rfl | cases h
          let replace (c : Expr) := Nomination.replaceNominated columnRule (moveNode label sources) c
            (nested || columnRule.opensScope e)
          have hparts := mapM_unmark (f := replace) e.children
            (fun c hc d hd => ⟨(replaceNominated_moves c _ hd).declared, ih c hc _ hd⟩) hd
          have hopens : columnRule.opensScope (e.unmark mark) = columnRule.opensScope e :=
            isProjection_unmark e
          simp only [Bool.false_eq_true, if_false, hopens]
          show ((e.unmark mark).withChildren <$> (e.unmark mark).children.mapM replace).run _ = _
          rw [← Expr.mapChildrenM_eq, Expr.unmark_eq hcolumn, Expr.mapChildrenM_mapChildren,
            Expr.mapChildrenM_eq, StateT.run_map, hparts]
          exact congrArg (·, _) (unmark_withChildren replace hcolumn d).symm

theorem projectColumns_unmark (e : Expr) (hmark : mark ∉ sources) (hempty : "" ∉ sources)
    (hlabel : label ≠ mark) :
    projectColumns (e.unmark mark) label sources =
      ((projectColumns e label sources).1.unmark mark,
        (projectColumns e label sources).2.map fun x => (x.1, x.2.unmark mark)) := by
  have hd : Declared label sources {} := declared_empty
  have hrun := replaceNominated_unmark e false hd hmark hempty hlabel
  have hstart : Declarations.unmark mark {} = {} := rfl
  rw [hstart] at hrun
  simp only [projectColumns, Nomination.replaceTopmost_eq]
  rw [hrun]
  rfl

/-- A new select can be rid of the mark before or after it is made. -/
theorem projection_unmark {n : Nat} (b source : Expr) (filter : Option Expr) (hmark : mark ∉ sources)
    (hempty : "" ∉ sources) (hlabel : Binding.label n ≠ mark) :
    (projection b n sources source filter).unmark mark =
      projection (b.unmark mark) n sources (source.unmark mark) (filter.map (Expr.unmark mark)) := by
  simp only [projection, projectColumns_unmark b hmark hempty hlabel]
  rfl

end Select

/-! What the walk does with what is bound -/

variable {mark : String} {e r x y : Expr}

theorem isConstruct_unmark (e : Expr) : isConstruct (e.unmark mark) = isConstruct e := by
  refine Expr.unmark_cases (P := fun x => isConstruct x = isConstruct e) e ?_ fun e' halike _ => ?_
  · rintro c c' rfl -
    rfl
  · cases halike <;> rfl

theorem isConstant_unmark (e : Expr) : (e.unmark mark).isConstant = e.isConstant := by
  refine Expr.unmark_cases (P := fun x => x.isConstant = e.isConstant) e ?_ fun e' halike _ => ?_
  · rintro c c' rfl -
    rfl
  · cases halike <;> rfl

theorem projection_of_unmark {p : Projection Expr} (h : r.unmark mark = .projection p) :
    ∃ q, r = .projection q ∧ p = q.unmark mark := by
  have hr : isProjection (r.unmark mark) = isProjection r := isProjection_unmark r
  rw [h] at hr
  cases r with
  | projection q =>
      rw [Expr.unmark_projection] at h
      exact ⟨q, rfl, (Expr.projection.inj h).symm⟩
  | _ => cases hr

theorem lookup_unmark (ms : List (String × Expr)) (name : String) :
    (ms.map fun m => (m.1, m.2.unmark mark)).lookup name =
      (ms.lookup name).map (Expr.unmark mark) := by
  induction ms with
  | nil => rfl
  | cons m ms ih =>
      rw [List.map_cons, List.lookup_cons, List.lookup_cons, ih]
      cases name == m.1 <;> rfl

theorem memberOf_unmark {name : String} (h : memberOf (r.unmark mark) name = .ok x) :
    ∃ y, memberOf r name = .ok y ∧ x = y.unmark mark := by
  cases hr : isConstruct r with
  | true =>
      cases r with
      | construct t ms =>
          rw [Expr.unmark_construct, memberOf, lookup_unmark] at h
          cases hlookup : ms.lookup name with
          | some y =>
              rw [hlookup] at h
              exact ⟨y, by simp only [memberOf, hlookup], (Except.ok.inj h).symm⟩
          | none =>
              rw [hlookup] at h
              cases h
      | _ => cases hr
  | false =>
      rw [memberOf_of_not_isConstruct ((isConstruct_unmark r).trans hr)] at h
      refine ⟨_, memberOf_of_not_isConstruct hr, ?_⟩
      rw [Expr.unmark_member, Except.ok.inj h]

theorem successor_unmark {i start : Expr} (h : successor (i.unmark mark) = .ok start) :
    ∃ start', successor i = .ok start' ∧ start = start'.unmark mark := by
  cases hi : i.isConstant with
  | true =>
      cases i with
      | constant v t =>
          rw [Expr.unmark_constant] at h
          refine ⟨start, h, ?_⟩
          obtain ⟨w, -, rfl⟩ := map_eq_ok.mp h
          exact (Expr.unmark_constant _ _).symm
      | _ => cases hi
  | false =>
      have hsuccessor {k : Expr} (hk : k.isConstant = false) :
          successor k = .ok (.binary (.arithmetic .add) k (.literal (.int32 1))) := by
        cases k <;> first | rfl | cases hk
      rw [hsuccessor ((isConstant_unmark i).trans hi)] at h
      refine ⟨_, hsuccessor hi, ?_⟩
      rw [Expr.unmark_binary, Expr.literal, Expr.unmark_constant]
      exact (Except.ok.inj h).symm

theorem substring_unmark {i : Expr} (h : substring (x.unmark mark) (i.unmark mark) = .ok r) :
    ∃ y, substring x i = .ok y ∧ r = y.unmark mark := by
  simp only [substring, bind_eq_ok, pure_eq_ok] at h ⊢
  obtain ⟨start, hstart, rfl⟩ := h
  obtain ⟨start', hstart', rfl⟩ := successor_unmark hstart
  refine ⟨_, ⟨start', hstart', rfl⟩, ?_⟩
  rw [Expr.unmark_function]
  simp [Expr.literal, Expr.unmark_constant]

/-! The walk -/

variable {catalog : Catalog} {style : IdentifierCase} {ids : List Nat} {s s' t t' : Scope}

/-- The first state is the second with the mark, as far as the parameters in sight go; what they
stand for has only labels that were given out. -/
structure Marks (mark : String) (ids : List Nat) (s' s : Scope) : Prop where
  labels : s'.labels = s.labels
  bound : ∀ id ∈ ids, ∃ v, s'.bound.lookup id = some v ∧
    s.bound.lookup id = some (v.unmark mark) ∧ ∀ l ∈ v.labels, ∃ i, l = label i

namespace Marks

theorem agrees (h : Marks mark ids s' s) : Agrees ids s'.bound s' := by
  intro id hid
  obtain ⟨v, hv, -⟩ := h.bound id hid
  exact ⟨v, hv, hv⟩

theorem agrees_right (h : Marks mark ids s' s) : Agrees ids s.bound s := by
  intro id hid
  obtain ⟨v, -, hv, -⟩ := h.bound id hid
  exact ⟨_, hv, hv⟩

theorem after (h : Marks mark ids s' s) (hw' : Walks catalog style s' e y t')
    (hw : Walks catalog style s e r t) (hclosed : e.isClosed ids) (hlabels : t'.labels = t.labels) :
    Marks mark ids t' t := by
  refine ⟨hlabels, fun id hid => ?_⟩
  obtain ⟨v, hv', hv, hproper⟩ := h.bound id hid
  exact ⟨v, ((hw'.binds hclosed h.agrees).2 id hid).trans hv',
    ((hw.binds hclosed h.agrees_right).2 id hid).trans hv, hproper⟩

theorem withBound (h : Marks mark ids s' s) (id : Nat) (hx : ∀ l ∈ x.labels, ∃ i, l = label i) :
    Marks mark (id :: ids) (s'.withBound id x) (s.withBound id (x.unmark mark)) := by
  refine ⟨h.labels, fun k hk => ?_⟩
  rw [Scope.withBound, Scope.withBound, lookup_withBound, lookup_withBound]
  by_cases heq : k = id
  · exact ⟨x, if_pos heq, if_pos heq, hx⟩
  · rw [if_neg heq, if_neg heq]
    exact h.bound k ((List.mem_cons.mp hk).resolve_left heq)

theorem ranging (h : Marks mark ids s' s) (id : Nat) {q : Projection Expr}
    (hq : ∀ l ∈ (Expr.projection q).labels, ∃ i, l = label i) :
    Marks mark (id :: ids) (s'.withBound id q.projector)
      (s.withBound id (q.unmark mark).projector) :=
  h.withBound id fun l hl => hq l (Expr.mem_labels_projector hl)

theorem subset {ids' : List Nat} (h : Marks mark ids s' s) (hsub : ids' ⊆ ids) :
    Marks mark ids' s' s := ⟨h.labels, fun id hid => h.bound id (hsub hid)⟩

/-- What a walk binds has only labels that were given out. -/
theorem proper (h : Marks mark ids s' s) (hw : Walks catalog style s' e r t')
    (hclosed : e.isClosed ids) : ∀ l ∈ r.labels, ∃ i, l = label i := by
  have hD : (Demand.ofLabels fun l => ∃ i, l = label i).Allows s'.labels t'.labels :=
    ⟨fun i _ _ => ⟨i, rfl⟩, fun _ _ => trivial, fun _ _ _ => trivial⟩
  refine Demand.met_ofLabels.mp ((hw.binds hclosed h.agrees).1.met hD fun x hx => ?_)
  obtain ⟨id, hid, -, v, hv, hpart⟩ := reads_closed hx hclosed
  obtain ⟨w, hw, -, hproper⟩ := h.bound id hid
  cases hv.symm.trans hw
  exact (Demand.met_ofLabels.mpr hproper).part hpart

end Marks

theorem construct_of_unmark {t : DataType} {ms : List (String × Expr)}
    (h : r.unmark mark = .construct t ms) :
    ∃ ms', r = .construct t ms' ∧ ms = ms'.map fun m => (m.1, m.2.unmark mark) := by
  have hr : isConstruct (r.unmark mark) = isConstruct r := isConstruct_unmark r
  rw [h] at hr
  cases r with
  | construct t' ms' =>
      rw [Expr.unmark_construct] at h
      obtain ⟨rfl, hms⟩ := Expr.construct.inj h
      exact ⟨ms', rfl, hms.symm⟩
  | _ => cases hr

/-- No column anywhere is under the mark. -/
def Demand.avoiding (mark : String) : Demand := .ofColumns (·.label ≠ mark) true

theorem Demand.avoiding_allows (hempty : "" ≠ mark) (hmark : ∀ i, Binding.label i ≠ mark)
    (n m : Nat) : (avoiding mark).Allows n m := by
  apply ofColumns_allows
  · intro c i hi heq
    exact hmark i (hi.symm.trans heq)
  · intro _ c hc heq
    exact hempty (hc.symm.trans heq)

theorem unmark_of_avoiding (h : (Demand.avoiding mark).Met e) : e.unmark mark = e := by
  refine Expr.unmark_of_free fun c hc => ?_
  rw [← Expr.reached_true] at hc
  exact h _ hc

/-- What is bound from a state is bound, with the mark, from the state with the mark. -/
theorem Walks.marked (hempty : "" ≠ mark) (hmark : ∀ i, label i ≠ mark)
    (h : Walks catalog style s e r t) (hclosed : e.isClosed ids) (hs : Marks mark ids s' s) :
    ∃ r' t', Walks catalog style s' e r' t' ∧ r = r'.unmark mark ∧ t'.labels = t.labels := by
  -- no source has the mark for a label, nor lacks one, so that columns under the mark stay
  have hsource {q : Projection Expr} (h : ∀ l ∈ (Expr.projection q).labels, ∃ i, l = label i) :
      mark ≠ q.source.label ∧ "" ≠ q.source.label := by
    obtain ⟨i, hi⟩ := h _ (Expr.label_mem_labels rfl)
    rw [hi]
    exact ⟨(hmark i).symm, (label_ne_empty i).symm⟩
  induction h generalizing ids s' with
  | constant => exact ⟨_, s', .constant, (Expr.unmark_constant _ _).symm, hs.labels⟩
  | captured => exact ⟨_, s', .captured, (Expr.unmark_constant _ _).symm, hs.labels⟩
  | @parameter s p =>
      obtain ⟨v, hv', hv, -⟩ := hs.bound p.id (Expr.isClosed_parameter.mp hclosed)
      refine ⟨_, s', .parameter, ?_, hs.labels⟩
      rw [hv, hv']
      rfl
  | bound h =>
      cases h.symm.trans (Expr.isBound_of_isComposed (Expr.isComposed_of_isClosed hclosed))
  | @collection s entity t ht =>
      have hmet : (Demand.avoiding mark).Met (.projection (tableProjection t s.labels)) := by
        have hbinds : Binds catalog style [] s.labels (.collection entity) _ _ := .collection ht
        exact hbinds.met (Demand.avoiding_allows hempty hmark _ _) (by simp [reads_nil])
      refine ⟨_, _, .collection ht, ?_, ?_⟩
      · rw [hs.labels, unmark_of_avoiding hmet]
      · rw [Scope.labelled, Scope.labelled, hs.labels]
        rfl
  | member _ h ih =>
      obtain ⟨r', t', hw, rfl, hlabels⟩ :=
        ih (Expr.isClosed_child hclosed (by simp) (by simp [Expr.children])) hs
      obtain ⟨y, hy, rfl⟩ := memberOf_unmark h
      exact ⟨y, t', .member hw hy, rfl, hlabels⟩
  | unary _ ih =>
      obtain ⟨r', t', hw, rfl, hlabels⟩ :=
        ih (Expr.isClosed_child hclosed (by simp) (by simp [Expr.children])) hs
      exact ⟨_, t', .unary hw, (Expr.unmark_unary _ _).symm, hlabels⟩
  | @binary s op a b x y s₁ t ha hb iha ihb =>
      have hclosed₁ : a.isClosed ids :=
        Expr.isClosed_child hclosed (by simp) (by simp [Expr.children])
      obtain ⟨x', s₁', hx, rfl, hlabels₁⟩ := iha hclosed₁ hs
      obtain ⟨y', t', hy, rfl, hlabels⟩ :=
        ihb (Expr.isClosed_child hclosed (by simp) (by simp [Expr.children]))
          (hs.after hx ha hclosed₁ hlabels₁)
      exact ⟨_, t', .binary hx hy, (Expr.unmark_binary _ _ _).symm, hlabels⟩
  | constructNil =>
      refine ⟨_, s', .constructNil, ?_, hs.labels⟩
      rw [Expr.unmark_construct]
      rfl
  | @constructCons s type name e ms r rs s₁ t he hms ihe ihms =>
      have hclosed₁ : e.isClosed ids :=
        Expr.isClosed_child hclosed (by simp) (by simp [Expr.children])
      obtain ⟨r', s₁', hr, rfl, hlabels₁⟩ := ihe hclosed₁ hs
      obtain ⟨record, t', hrs, heq, hlabels⟩ :=
        ihms (Expr.isClosed_tail hclosed) (hs.after hr he hclosed₁ hlabels₁)
      obtain ⟨rs', rfl, rfl⟩ := construct_of_unmark heq.symm
      refine ⟨_, t', .constructCons hr hrs, ?_, hlabels⟩
      rw [Expr.unmark_construct]
      rfl
  | @charAt s string index x i r s₁ t hx hi h ihx ihi =>
      have hclosed₁ : string.isClosed ids :=
        Expr.isClosed_child hclosed (by simp) (by simp [Expr.children])
      obtain ⟨x', s₁', hx', rfl, hlabels₁⟩ := ihx hclosed₁ hs
      obtain ⟨i', t', hi', rfl, hlabels⟩ :=
        ihi (Expr.isClosed_arg hclosed (by simp)) (hs.after hx' hx hclosed₁ hlabels₁)
      obtain ⟨r', hr', rfl⟩ := substring_unmark h
      exact ⟨r', t', .charAt hx' hi' hr', rfl, hlabels⟩
  | @select s receiver source x body p b s₁ t hw hbody ihs ihb =>
      obtain ⟨hclosed₁, -, hclosed₂⟩ := Expr.isClosed_ranging hclosed
      obtain ⟨source', s₁', hw', heq, hlabels₁⟩ := ihs hclosed₁ hs
      obtain ⟨q, rfl, rfl⟩ := projection_of_unmark heq.symm
      have hproper := hs.proper hw' hclosed₁
      have hs₁ := hs.after hw' hw hclosed₁ hlabels₁
      obtain ⟨b', t', hb', rfl, hlabels⟩ := ihb hclosed₂ (hs₁.ranging x.id hproper)
      obtain ⟨hq, hq'⟩ := hsource hproper
      refine ⟨_, _, .select hw' hb', ?_, congrArg (· + 1) hlabels⟩
      rw [Expr.unmark_projection, projection_unmark _ _ _ (by simpa using hq) (by simpa using hq')
        (hmark _), Expr.unmark_select, hlabels]
      rfl
  | @filter s receiver source x body p b s₁ t hw hbody ihs ihb =>
      obtain ⟨hclosed₁, -, hclosed₂⟩ := Expr.isClosed_ranging hclosed
      obtain ⟨source', s₁', hw', heq, hlabels₁⟩ := ihs hclosed₁ hs
      obtain ⟨q, rfl, rfl⟩ := projection_of_unmark heq.symm
      have hproper := hs.proper hw' hclosed₁
      have hs₁ := hs.after hw' hw hclosed₁ hlabels₁
      obtain ⟨b', t', hb', rfl, hlabels⟩ := ihb hclosed₂ (hs₁.ranging x.id hproper)
      obtain ⟨hq, hq'⟩ := hsource hproper
      refine ⟨_, _, .filter hw' hb', ?_, congrArg (· + 1) hlabels⟩
      rw [Expr.unmark_projection, projection_unmark _ _ _ (by simpa using hq) (by simpa using hq')
        (hmark _), Expr.unmark_select, hlabels]
      rfl
  | @join s receiver left right x leftKey y rightKey x' y' result p q a b c s₁ s₂ s₃ s₄ t
      hl hr ha hb hc ihl ihr iha ihb ihc =>
      obtain ⟨hclosed₁, hclosed₂, ⟨-, hclosed₃⟩, ⟨-, hclosed₄⟩, -, -, hclosed₅⟩ :=
        Expr.isClosed_join hclosed
      obtain ⟨left', s₁', hl', heq, hlabels₁⟩ := ihl hclosed₁ hs
      obtain ⟨p, rfl, rfl⟩ := projection_of_unmark heq.symm
      have hp := hs.proper hl' hclosed₁
      have hs₁ := hs.after hl' hl hclosed₁ hlabels₁
      obtain ⟨right', s₂', hr', heq, hlabels₂⟩ := ihr hclosed₂ hs₁
      obtain ⟨q, rfl, rfl⟩ := projection_of_unmark heq.symm
      have hq := hs₁.proper hr' hclosed₂
      have hs₂ := hs₁.after hr' hr hclosed₂ hlabels₂
      have hkey := hs₂.ranging x.id hp
      obtain ⟨a', s₃', ha', rfl, hlabels₃⟩ := iha hclosed₃ hkey
      have hs₃ := (hkey.after ha' ha hclosed₃ hlabels₃).subset (List.subset_cons_self _ _)
      have hkey' := hs₃.ranging y.id hq
      obtain ⟨b', s₄', hb', rfl, hlabels₄⟩ := ihb hclosed₄ hkey'
      have hs₄ := (hkey'.after hb' hb hclosed₄ hlabels₄).subset (List.subset_cons_self _ _)
      have hresult :=
        ((hs₄.ranging x'.id hp).ranging y'.id hq).subset (List.Perm.swap _ _ _).subset
      obtain ⟨c', t', hc', rfl, hlabels⟩ := ihc hclosed₅ hresult
      obtain ⟨hmarkp, hemptyp⟩ := hsource hp
      obtain ⟨hmarkq, hemptyq⟩ := hsource hq
      refine ⟨_, _, .join hl' hr' ha' hb' hc', ?_, congrArg (· + 1) hlabels⟩
      rw [Expr.unmark_projection, projection_unmark _ _ _ (by simp [hmarkp, hmarkq])
        (by simp [hemptyp, hemptyq]) (hmark _), Expr.unmark_join, Expr.unmark_select,
        Expr.unmark_select, Expr.unmark_binary, hlabels]
      rfl
  | toList _ ih =>
      obtain ⟨r', t', hw, heq, hlabels⟩ := ih (Expr.isClosed_arg hclosed (by simp)) hs
      obtain ⟨q, rfl, rfl⟩ := projection_of_unmark heq.symm
      refine ⟨_, t', .toList hw, ?_, hlabels⟩
      rw [Expr.unmark_projection]
      rfl
  | @existence s method function entity table x body b t hm ht _ ih =>
      obtain ⟨-, hclosed₁⟩ := Expr.isClosed_test hclosed
      have hrecord : (Expr.construct table.recordType (tableColumns table "")).unmark mark =
          .construct table.recordType (tableColumns table "") :=
        unmark_of_avoiding (Demand.met_tableRecord table _ fun c hc heq => hempty (hc.symm.trans heq))
      have hbound := hs.withBound x.id (Demand.met_ofLabels.mp
        (Demand.met_tableRecord table table.recordType (l := "") fun _ _ => trivial))
      rw [hrecord] at hbound
      obtain ⟨b', t', hb', rfl, hlabels⟩ := ih hclosed₁ hbound
      refine ⟨_, _, .existence hm ht hb', ?_, hlabels⟩
      rw [Expr.unmark_subquery]
      rfl

end Binding

end Quarry
