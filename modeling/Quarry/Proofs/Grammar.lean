import Quarry.Proofs.Writability
/-!
The language of the query text. Two sets of expressions, one of values and one of sources, are given
by their rules alone, and the writers accept exactly these: what is outside of them is refused, with
an error that says that it is not supported or not mapped.
-/
namespace Quarry.Sql

/-! The grammar -/

/-- The values that can be written: simple constants, columns, members of the bare parameter, and
what is built from these by operators, functions and existence tests. -/
inductive Expressible (style : Style) : Expr → Prop
  | constant {v : Value} (h : v.isSimple) (t : DataType) : Expressible style (.constant v t)
  | captured (name : String) {v : Value} (h : v.isSimple) : Expressible style (.captured name v)
  | column (c : Column) : Expressible style (.column c)
  | member {bare : BareParameter} {p : Parameter} {m : Member} (hbare : style.bare = some bare)
      (hp : p.id = bare.id) (hm : m ∈ bare.table.members) :
      Expressible style (.member (.parameter p) m.name)
  | unary (op : UnaryOperator) {e : Expr} (h : Expressible style e) :
      Expressible style (.unary op e)
  | binary (op : BinaryOperator) {l r : Expr} (hl : Expressible style l)
      (hr : Expressible style r) : Expressible style (.binary op l r)
  | function {f : FunctionCall Expr} (hreceiver : ∀ e ∈ f.receiver, Expressible style e)
      (hargs : ∀ e ∈ f.args, Expressible style e) : Expressible style (.function f)
  | subquery {f : FunctionCall Expr} (hargs : ∀ e ∈ f.args, Expressible style e) (sql : String) :
      Expressible style (.subquery f sql)

/-- The sources that can be written: tables, selects of values from a source, and joins. -/
inductive Selectable (style : Style) : Expr → Prop
  | table (t : TableRef) : Selectable style (.table t)
  | select {s : Select Expr} (hcolumns : ∀ column ∈ s.columns, Expressible style column.2)
      (hsource : Selectable style s.source) (hfilter : ∀ e ∈ s.filter, Expressible style e) :
      Selectable style (.select s)
  | join (kind : JoinKind) {l r : Expr} {condition : Option Expr} (hl : Selectable style l)
      (hr : Selectable style r) (hcondition : ∀ e ∈ condition, Expressible style e) :
      Selectable style (.join kind l r condition)

variable {style : Style}

theorem expressible_unary_iff {op : UnaryOperator} {e : Expr} :
    Expressible style (.unary op e) ↔ Expressible style e := by
  refine ⟨fun h => ?_, .unary op⟩
  cases h with
  | unary _ h => exact h

theorem expressible_binary_iff {op : BinaryOperator} {l r : Expr} :
    Expressible style (.binary op l r) ↔ Expressible style l ∧ Expressible style r := by
  refine ⟨fun h => ?_, fun h => .binary op h.1 h.2⟩
  cases h with
  | binary _ hl hr => exact ⟨hl, hr⟩

theorem expressible_function_iff {f : FunctionCall Expr} :
    Expressible style (.function f) ↔
      (∀ e ∈ f.receiver, Expressible style e) ∧ ∀ e ∈ f.args, Expressible style e := by
  refine ⟨fun h => ?_, fun h => .function h.1 h.2⟩
  cases h with
  | function hreceiver hargs => exact ⟨hreceiver, hargs⟩

theorem expressible_subquery_iff {f : FunctionCall Expr} {sql : String} :
    Expressible style (.subquery f sql) ↔ ∀ e ∈ f.args, Expressible style e := by
  refine ⟨fun h => ?_, fun h => .subquery h sql⟩
  cases h with
  | subquery hargs _ => exact hargs

theorem expressible_of_isNullConstant {e : Expr} (h : isNullConstant e) : Expressible style e := by
  cases e with
  | constant v t =>
      cases v with
      | null => exact .constant rfl t
      | _ => cases h
  | _ => cases h

theorem selectable_select_iff {s : Select Expr} :
    Selectable style (.select s) ↔ (∀ column ∈ s.columns, Expressible style column.2) ∧
      Selectable style s.source ∧ ∀ e ∈ s.filter, Expressible style e := by
  refine ⟨fun h => ?_, fun h => .select h.1 h.2.1 h.2.2⟩
  cases h with
  | select hcolumns hsource hfilter => exact ⟨hcolumns, hsource, hfilter⟩

theorem selectable_join_iff {kind : JoinKind} {l r : Expr} {condition : Option Expr} :
    Selectable style (.join kind l r condition) ↔
      Selectable style l ∧ Selectable style r ∧ ∀ e ∈ condition, Expressible style e := by
  refine ⟨fun h => ?_, fun h => .join kind h.1 h.2.1 h.2.2⟩
  cases h with
  | join _ hl hr hcondition => exact ⟨hl, hr, hcondition⟩

/-! Deciding membership -/

/-- The classes of errors by which an expression is refused. -/
def IsRefusal (err : Error) : Prop := err.kind = .unsupported ∨ err.kind = .missingMapping

/-- Succeeds exactly if `P`, and is a refusal otherwise. -/
def Decides {α : Type} (P : Prop) : Except Error α → Prop
  | .ok _ => P
  | .error err => ¬P ∧ IsRefusal err

namespace Decides

variable {α β γ : Type} {P Q : Prop} {x : Except Error α}

theorem congr (h : Decides P x) (hPQ : P ↔ Q) : Decides Q x := propext hPQ ▸ h

theorem ok_iff (h : Decides P x) : (∃ a, x = .ok a) ↔ P := by
  cases x with
  | ok a => exact iff_of_true ⟨a, rfl⟩ h
  | error err =>
      refine iff_of_false ?_ h.1
      rintro ⟨a, ⟨⟩⟩

theorem refusal {err : Error} (h : Decides P x) (hx : x = .error err) : IsRefusal err := by
  subst hx
  exact h.2

theorem bind {f : α → Except Error β} (h : Decides P x) (hf : ∀ a, Decides Q (f a)) :
    Decides (P ∧ Q) (x >>= f) := by
  cases x with
  | ok a => exact (hf a).congr (and_iff_right h).symm
  | error err => exact ⟨fun hboth => h.1 hboth.1, h.2⟩

/-- What cannot fail decides nothing. -/
theorem andThen {f : α → Except Error β} (h : Decides P x) (hf : ∀ a, Decides True (f a)) :
    Decides P (x >>= f) :=
  (h.bind hf).congr (and_iff_left trivial)

theorem map (h : Decides P x) (f : α → β) : Decides P (x >>= fun a => pure (f a)) :=
  h.andThen fun _ => trivial

theorem map₂ {y : Except Error β} (hx : Decides P x) (hy : Decides Q y) (f : α → β → γ) :
    Decides (P ∧ Q) (x >>= fun a => y >>= fun b => pure (f a b)) :=
  hx.bind fun a => hy.map (f a)

theorem mapM {f : β → Except Error α} {R : β → Prop} {bs : List β}
    (h : ∀ b ∈ bs, Decides (R b) (f b)) : Decides (∀ b ∈ bs, R b) (bs.mapM f) := by
  induction bs with
  | nil => exact fun b hb => by cases hb
  | cons b bs ih =>
      rw [List.mapM_cons, List.forall_mem_cons]
      exact (h b List.mem_cons_self).map₂ (ih fun c hc => h c (List.mem_cons_of_mem _ hc)) _

end Decides

/-! Values -/

theorem decides_literal (v : Value) : Decides v.isSimple (literal v) := by
  cases v with
  | record | list => exact ⟨Bool.false_ne_true, .inl rfl⟩
  | _ => exact rfl

theorem decides_constant (position : Position) (nested : Bool) (v : Value) (t : DataType) :
    Decides (Expressible style (.constant v t)) (constantText position nested v) := by
  have hsimple : Expressible style (.constant v t) ↔ v.isSimple := by
    refine ⟨fun h => ?_, fun h => .constant h t⟩
    cases h with
    | constant h _ => exact h
  refine Decides.congr ?_ hsimple.symm
  unfold constantText
  split
  · exact rfl
  · exact rfl
  · exact decides_literal v

theorem decides_captured (name : String) (v : Value) :
    Decides (Expressible style (.captured name v)) (literal v) := by
  refine (decides_literal v).congr ⟨.captured name, fun h => ?_⟩
  cases h with
  | captured _ h => exact h

theorem isRefusal_missingMember (name entity : String) (hint : Option String) :
    IsRefusal ((Error.missingMember name entity).withHint hint) := by
  cases hint <;> exact .inr rfl

theorem decides_table_member (t : Table) (name : String) :
    Decides (∃ m ∈ t.members, m.name = name) (t.member name) := by
  unfold Table.member
  split
  next m hm =>
    exact ⟨m, List.mem_of_find?_eq_some hm, by simpa using List.find?_some hm⟩
  next hnone =>
    refine ⟨?_, isRefusal_missingMember name t.entity _⟩
    rintro ⟨m, hm, rfl⟩
    simpa using List.find?_eq_none.mp hnone m hm

theorem decides_member (target : Expr) (name : String) :
    Decides (Expressible style (.member target name)) (memberText style target name) := by
  unfold memberText
  split
  next bare p hbare =>
    split
    next hp =>
      refine ((decides_table_member bare.table name).map _).congr ⟨?_, fun h => ?_⟩
      · rintro ⟨m, hm, rfl⟩
        exact .member hbare hp hm
      · cases h with
        | @member bare' _ m hbare' _ hm =>
            obtain rfl : bare = bare' := Option.some.inj (hbare.symm.trans hbare')
            exact ⟨m, hm, rfl⟩
    next hp =>
      refine ⟨fun h => ?_, .inl rfl⟩
      cases h with
      | @member bare' _ m hbare' hp' _ =>
          obtain rfl : bare = bare' := Option.some.inj (hbare.symm.trans hbare')
          exact hp hp'
  next hnone =>
    refine ⟨fun h => ?_, .inl rfl⟩
    cases h with
    | @member bare p m hbare hp hm => exact hnone bare p hbare rfl

theorem decides_texts {es : List Expr} {position : Position} {nested : Bool}
    (ih : ∀ e ∈ es, Decides (Expressible style e) (text style position nested e)) :
    Decides (∀ e ∈ es, Expressible style e) (texts style position nested es) := by
  induction es with
  | nil => exact fun e he => by cases he
  | cons e es ihes =>
      rw [texts, List.forall_mem_cons]
      exact (ih e List.mem_cons_self).map₂ (ihes fun e he => ih e (List.mem_cons_of_mem _ he)) _

theorem decides_textOption {o : Option Expr}
    (ih : ∀ e ∈ o, Decides (Expressible style e) (text style .scalar false e)) :
    Decides (∀ e ∈ o, Expressible style e) (textOption style o) := by
  cases o with
  | none => exact fun e he => by cases he
  | some e =>
      rw [textOption]
      exact ((ih e rfl).map _).congr (by simp)

/-- A value is written in every position, nested or not, exactly if the grammar has it. -/
theorem decides_text (e : Expr) (position : Position) (nested : Bool) :
    Decides (Expressible style e) (text style position nested e) := by
  induction e using Expr.children_induction generalizing position nested with
  | step e ih =>
      cases e with
      | constant v t => exact decides_constant position nested v t
      | captured name v => exact decides_captured name v
      | column c => exact .column c
      | member target name => exact decides_member target name
      | unary op e =>
          have he := ih e (by simp [Expr.children])
          rw [expressible_unary_iff]
          cases op with
          | not => exact (he position true).map _
          | negate => exact (he .scalar true).map _
      | binary op l r =>
          have hl := ih l (by simp [Expr.children])
          have hr := ih r (by simp [Expr.children])
          rw [expressible_binary_iff]
          cases op with
          | logical op => exact (hl position true).map₂ (hr position true) _
          | arithmetic op =>
              cases op with
              | mod => exact (hl .scalar false).map₂ (hr .scalar false) _
              | add | sub | mul | div => exact (hl .scalar true).map₂ (hr .scalar true) _
          | comparison op =>
              rw [text]
              -- a null test does not write its null constant, which could be written
              split
              next hnull =>
                refine ((hl .scalar true).map _).congr (and_iff_left ?_).symm
                exact expressible_of_isNullConstant hnull
              next hnull _ =>
                refine ((hr .scalar true).map _).congr (and_iff_right ?_).symm
                exact expressible_of_isNullConstant hnull
              next => exact (hl .scalar true).map₂ (hr .scalar true) _
      | function f =>
          obtain ⟨method, name, receiver, args, type⟩ := f
          rw [expressible_function_iff, text]
          refine Decides.map₂ (decides_textOption fun e he => ?_) (decides_texts fun e he => ?_) _
          · exact ih e (List.mem_append_left _ (Option.mem_toList.mpr he)) .scalar false
          · exact ih e (List.mem_append_right _ he) .scalar false
      | subquery f sql =>
          obtain ⟨method, name, receiver, args, type⟩ := f
          rw [expressible_subquery_iff, text]
          refine Decides.map (decides_texts fun e he => ?_) _
          exact ih e (List.mem_append_right _ he) .predicate (1 < args.length)
      | _ =>
          refine ⟨fun h => ?_, .inl rfl⟩
          cases h

/-! Sources -/

/-- Decides at every depth alike. -/
def DecidesLayout {α : Type} (P : Prop) (x : Layout α) : Prop := ∀ depth, Decides P (x.run depth)

namespace DecidesLayout

variable {α β : Type} {P Q : Prop} {x : Layout α}

theorem lift {y : Except Error α} (h : Decides P y) : DecidesLayout P (liftM y : Layout α) := by
  intro depth
  cases y with
  | ok a => exact h
  | error err => exact h

theorem bind {f : α → Layout β} (h : DecidesLayout P x) (hf : ∀ a, DecidesLayout Q (f a)) :
    DecidesLayout (P ∧ Q) (x >>= f) := by
  intro depth
  rw [StateT.run_bind]
  exact (h depth).bind fun r => hf r.1 r.2

theorem andThen {f : α → Layout β} (h : DecidesLayout P x)
    (hf : ∀ a, DecidesLayout True (f a)) : DecidesLayout P (x >>= f) := fun depth =>
  (h.bind hf depth).congr (and_iff_left trivial)

theorem map (h : DecidesLayout P x) (f : α → β) : DecidesLayout P (x >>= fun a => pure (f a)) :=
  h.andThen fun _ _ => trivial

/-- What comes after the beginning of a line decides alone. -/
theorem afterLine {f : String → Layout β} (indentation : Indentation)
    (h : ∀ line, DecidesLayout P (f line)) :
    DecidesLayout P (newline style indentation >>= f) := fun depth =>
  h _ (indentation.apply depth)

end DecidesLayout

theorem decides_columnsText (columns : List (String × Expr)) :
    Decides (∀ column ∈ columns, Expressible style column.2) (columnsText style columns) := by
  refine Decides.map (Decides.mapM fun column _ => ?_) _
  obtain ⟨name, e⟩ := column
  refine (decides_text e .scalar false).andThen fun t => ?_
  cases e <;> exact trivial

theorem decides_predicateText (e : Expr) :
    DecidesLayout (Expressible style e) (predicateText style e : Layout String) :=
  .lift (decides_text e .predicate false)

theorem decides_filterText (filter : Option Expr) :
    DecidesLayout (∀ e ∈ filter, Expressible style e) (filterText style filter) := by
  cases filter with
  | none => exact fun depth e he => by cases he
  | some e =>
      simp only [Option.mem_some_iff, forall_eq']
      exact .afterLine .same fun line => (decides_predicateText e).map _

theorem decides_conditionText (condition : Option Expr) :
    DecidesLayout (∀ e ∈ condition, Expressible style e) (conditionText style condition) := by
  cases condition with
  | none => exact fun depth e he => by cases he
  | some e =>
      simp only [Option.mem_some_iff, forall_eq']
      exact .afterLine .inner fun line => (decides_predicateText e).andThen fun t _ => trivial

theorem decides_selectText {s : Select Expr}
    (hsource : DecidesLayout (Selectable style s.source) (sourceText style s.source)) :
    DecidesLayout (Selectable style (.select s)) (selectText style s) := by
  obtain ⟨label, columns, source, filter⟩ := s
  rw [selectable_select_iff, selectText]
  refine DecidesLayout.bind (.lift (decides_columnsText columns)) fun cs => ?_
  refine .afterLine .same fun line => ?_
  exact hsource.bind fun src => (decides_filterText filter).map _

/-- A source is written exactly if the grammar has it. -/
theorem decides_sourceText (e : Expr) :
    DecidesLayout (Selectable style e) (sourceText style e) := by
  induction e using Expr.children_induction with
  | step e ih =>
      cases e with
      | table t => exact fun depth => .table t
      | select s =>
          have hs : DecidesLayout (Selectable style (.select s)) (selectText style s) :=
            decides_selectText (ih s.source (by simp [Expr.children, Select.children]))
          rw [sourceText]
          exact .afterLine .inner fun first => hs.andThen fun t _ => trivial
      | join kind l r condition =>
          rw [selectable_join_iff, sourceText]
          refine (ih l (by simp [Expr.children])).bind fun left => ?_
          refine .afterLine .same fun line => ?_
          exact (ih r (by simp [Expr.children])).bind fun right =>
            (decides_conditionText condition).map _
      | _ =>
          refine fun depth => ⟨fun h => ?_, .inl rfl⟩
          cases h

theorem decides_select (s : Select Expr) :
    Decides (Selectable style (.select s)) ((selectText style s).run' 0) := by
  rw [StateT.run'_eq, map_eq_pure_bind]
  exact (decides_selectText (decides_sourceText s.source) 0).map _

/-- What is written as a whole: a value, a select or the select of a projection. -/
inductive Formattable (style : Style) : Expr → Prop
  | value {e : Expr} (h : Expressible style e) : Formattable style e
  | select {s : Select Expr} (h : Selectable style (.select s)) : Formattable style (.select s)
  | projection {p : Projection Expr} (h : Selectable style (.select p.source)) :
      Formattable style (.projection p)

theorem decides_format (e : Expr) : Decides (Formattable style e) (format style e) := by
  cases e with
  | select s =>
      refine (decides_select s).congr ⟨.select, fun h => ?_⟩
      cases h with
      | value h => cases h
      | select h => exact h
  | projection p =>
      refine (decides_select p.source).congr ⟨.projection, fun h => ?_⟩
      cases h with
      | value h => cases h
      | projection h => exact h
  | _ =>
      refine (decides_text _ .scalar false).congr ⟨.value, fun h => ?_⟩
      cases h with
      | value h => exact h

/-- The writers accept exactly the grammar, and what they do not accept they refuse. -/
theorem grammar_exact (style : Style) (e : Expr) :
    ((∃ t, predicateText style e = .ok t) ↔ Expressible style e) ∧
    ((∃ t, format style e = .ok t) ↔ Formattable style e) ∧
    ∀ err, predicateText style e = .error err ∨ format style e = .error err →
      err.kind = .unsupported ∨ err.kind = .missingMapping := by
  have hpredicate : Decides (Expressible style e) (predicateText style e) :=
    decides_text e .predicate false
  refine ⟨hpredicate.ok_iff, (decides_format e).ok_iff, fun err herr => ?_⟩
  rcases herr with herr | herr
  · exact hpredicate.refusal herr
  · exact (decides_format e).refusal herr

end Quarry.Sql
