import Quarry.Proofs.Literals
import Quarry.Proofs.Traversal
import Quarry.Sql.Layout
/-!
Texts and characters cannot change the structure of the query text. Expressions that differ only in
the payloads of their texts and characters are written alike outside of literals, and the literals
are their payloads in the order of the tree.
-/
namespace Quarry

/-! Payloads -/

/-- What is written as a literal in quotes. -/
def Value.payload : Value → List String
  | .char c => [String.singleton c]
  | .text s => [s]
  | _ => []

/-- Texts, or characters. -/
inductive Value.Rephrased : Value → Value → Prop
  | char (c c' : Char) : Rephrased (.char c) (.char c')
  | text (s s' : String) : Rephrased (.text s) (.text s')

namespace Expr

/-- The payloads of the texts and characters that are written, in order: of an existence test over
literal query text only the predicates are written, and of a projection only the select. -/
def payloads : Expr → List String :=
  fold fun e parts =>
    match e with
    | .constant v _ | .captured _ v => v.payload
    | .projection _ => parts.dropLast.flatten
    | .subquery f _ => (parts.drop f.receiver.toList.length).flatten
    | _ => parts.flatten

/-- The second expression is the first with other payloads of texts and characters. -/
inductive Rephrased : Expr → Expr → Prop
  | constant {v v' : Value} (h : v.Rephrased v') (t : DataType) :
      Rephrased (.constant v t) (.constant v' t)
  | captured (name : String) {v v' : Value} (h : v.Rephrased v') :
      Rephrased (.captured name v) (.captured name v')
  | node {e : Expr} {cs : List Expr} (h : List.Forall₂ Rephrased e.children cs) :
      Rephrased e (e.withChildren cs)

theorem payloads_unary (op : UnaryOperator) (e : Expr) : (unary op e).payloads = e.payloads := by
  simp [payloads, fold]

theorem payloads_binary (op : BinaryOperator) (l r : Expr) :
    (binary op l r).payloads = l.payloads ++ r.payloads := by
  simp [payloads, fold]

theorem payloads_join (kind : JoinKind) (l r : Expr) (condition : Option Expr) :
    (join kind l r condition).payloads =
      l.payloads ++ (r.payloads ++ condition.toList.flatMap payloads) := by
  simp [payloads, fold, foldOption_eq, List.flatMap]

theorem payloads_function (f : FunctionCall Expr) :
    (function f).payloads = f.receiver.toList.flatMap payloads ++ f.args.flatMap payloads := by
  simp [payloads, fold, foldCall_eq, FunctionCall.children, List.flatMap]

theorem payloads_subquery (f : FunctionCall Expr) (sql : String) :
    (subquery f sql).payloads = f.args.flatMap payloads := by
  have hdrop : ((f.receiver.toList ++ f.args).map payloads).drop f.receiver.toList.length =
      f.args.map payloads := by
    rw [← List.map_drop, List.drop_left]
  rw [payloads, fold_eq]
  exact congrArg List.flatten hdrop

theorem payloads_select (s : Select Expr) :
    (select s).payloads = (s.columns.map (·.2)).flatMap payloads ++
      (s.source.payloads ++ s.filter.toList.flatMap payloads) := by
  simp [payloads, fold, foldSelect_eq, Select.children, List.flatMap]

theorem payloads_projection (p : Projection Expr) :
    (projection p).payloads = (select p.source).payloads := by
  simp [payloads, fold, foldProjection_eq, foldSelect_eq, Projection.children]

namespace Rephrased

variable {e e' : Expr}

theorem refl (e : Expr) : Rephrased e e := by
  induction e using children_induction with
  | step e ih =>
      have hsame : e = e.withChildren e.children :=
        (alike_withChildren (List.forall₂_same.mpr fun _ _ => rfl)).eq
      have hnode := Rephrased.node (List.forall₂_same.mpr ih)
      rwa [← hsame] at hnode

theorem binary {a a' b b' : Expr} (op : BinaryOperator) (ha : Rephrased a a')
    (hb : Rephrased b b') : Rephrased (.binary op a b) (.binary op a' b') :=
  .node (e := .binary op a b) (.cons ha (.cons hb .nil))

/-- Induction on the first expression: either a constant is replaced, or the children are. -/
theorem induction {motive : ∀ e e', Rephrased e e' → Prop}
    (constant : ∀ (v v' : Value) t (hv : v.Rephrased v'), motive _ _ (.constant hv t))
    (captured : ∀ name (v v' : Value) (hv : v.Rephrased v'), motive _ _ (.captured name hv))
    (node : ∀ e e' (h : Rephrased e e'),
      e.Alike (fun c c' => c ∈ e.children ∧ ∃ h : Rephrased c c', motive c c' h) e' →
        motive e e' h)
    {e e' : Expr} (h : Rephrased e e') : motive e e' h := by
  induction e using children_induction generalizing e' with
  | step e ih =>
      cases h with
      | constant hv t => exact constant _ _ t hv
      | captured name hv => exact captured name _ _ hv
      | node hcs =>
          refine node _ _ _ (alike_withChildren ?_)
          refine ((List.forall₂_and_left _ _).mpr ⟨fun c hc => hc, hcs⟩).imp ?_
          exact fun c c' hc => ⟨hc.1, hc.2, ih c hc.1 hc.2⟩

theorem staticType_eq (h : Rephrased e e') : e'.staticType? = e.staticType? := by
  induction h using Rephrased.induction with
  | constant => rfl
  | captured name v v' hv => cases hv <;> rfl
  | node e e' _ h =>
      cases h with
      | leaf => rfl
      | member name h => simp only [staticType?, h.2.2]
      | unary op h => cases op <;> simp only [staticType?, h.2.2]
      | binary op hl hr => cases op <;> simp only [staticType?, hl.2.2, hr.2.2]
      | projection shape hs h => simp only [staticType?, h.2.2]
      | function h => simp only [staticType?, h.type]
      | _ => rfl

theorem isText_eq (h : Rephrased e e') : Sql.isText e' = Sql.isText e := by
  rw [Sql.isText, h.staticType_eq, Sql.isText]

theorem isNullConstant_eq (h : Rephrased e e') : Sql.isNullConstant e' = Sql.isNullConstant e := by
  induction h using Rephrased.induction with
  | constant v v' t hv => cases hv <;> rfl
  | captured => rfl
  | node e e' _ h => cases h <;> rfl

end Rephrased

theorem payloads_of_isNullConstant {e : Expr} (h : Sql.isNullConstant e) : e.payloads = [] := by
  cases e with
  | constant v t =>
      cases v with
      | null => rfl
      | _ => cases h
  | _ => cases h

end Expr

theorem rel_imp {R S : Expr → Expr → Prop} {a b : Option Expr} (h : Option.Rel R a b)
    (hRS : ∀ c c', R c c' → S c c') : Option.Rel S a b := by
  cases h with
  | none => exact .none
  | some h => exact .some (hRS _ _ h)

theorem Select.Alike.imp {R S : Expr → Expr → Prop} {s t : Select Expr} (h : s.Alike R t)
    (hRS : ∀ c c', R c c' → S c c') : s.Alike S t where
  label := h.label
  columns := h.columns.imp fun _ _ hc => ⟨hc.1, hRS _ _ hc.2⟩
  source := hRS _ _ h.source
  filter := rel_imp h.filter hRS

/-! Both or neither -/

/-- Both succeed, with results that are related, or both fail. -/
inductive Agree {ε α β : Type} (R : α → β → Prop) : Except ε α → Except ε β → Prop
  | ok {a b} (h : R a b) : Agree R (.ok a) (.ok b)
  | error (e e') : Agree R (.error e) (.error e')

namespace Agree

variable {ε α β γ δ : Type} {R : α → β → Prop} {S : γ → δ → Prop} {x : Except ε α} {y : Except ε β}

theorem bind {f : α → Except ε γ} {g : β → Except ε δ} (h : Agree R x y)
    (hfg : ∀ a b, R a b → Agree S (f a) (g b)) : Agree S (x >>= f) (y >>= g) := by
  cases h with
  | ok h => exact hfg _ _ h
  | error e e' => exact .error e e'

theorem map {f : α → γ} {g : β → δ} (h : Agree R x y) (hfg : ∀ a b, R a b → S (f a) (g b)) :
    Agree S (f <$> x) (g <$> y) := by
  cases h with
  | ok h => exact .ok (hfg _ _ h)
  | error e e' => exact .error e e'

end Agree

namespace Sql

/-- The identifiers and the literal query text of a node, as they are written. -/
def identifiers (style : Style) : Expr → List String
  | .column c => [style.ident c.label, style.ident c.name]
  | .table t => [style.ident t.name, style.ident t.label]
  | .member _ name =>
    style.bare.toList.flatMap fun bare =>
      (bare.table.member name).toOption.toList.map fun m => style.ident m.name
  | .select s => style.ident s.label :: s.columns.map fun column => style.ident column.1
  | .projection p =>
    style.ident p.source.label :: p.source.columns.map fun column => style.ident column.1
  | .subquery _ sql => [sql]
  | _ => []

/-- No quote stands in what is written of the nodes as it is. -/
def Unquoted (style : Style) (e : Expr) : Prop :=
  ∀ x ∈ e.nodes, ∀ s ∈ identifiers style x, Plain s

variable {style : Style} {e e' : Expr}

theorem Unquoted.child {c : Expr} (h : Unquoted style e) (hc : c ∈ e.children) :
    Unquoted style c := fun x hx => h x (Expr.mem_nodes_of_child hc hx)

theorem Unquoted.plain {s : String} (h : Unquoted style e) (hs : s ∈ identifiers style e) :
    Plain s :=
  h e (Expr.self_mem_nodes e) s hs

theorem literal_agree (v : Value) :
    Agree (Parallel v.payload v.payload) (literal v) (literal v) := by
  cases v with
  | null => exact .ok (.plain (by decide))
  | boolean b => cases b <;> exact .ok (.plain (by decide))
  | int32 n => exact .ok (.plain (signed_ofInt _).plain)
  | int64 n => exact .ok (.plain (signed_ofInt _).plain)
  | float x => exact .ok (.plain (signed_ofBinary64 x).plain)
  | char c => exact .ok (.quoted _ _)
  | text s => exact .ok (.quoted _ _)
  | record fields => exact .error _ _
  | list values => exact .error _ _

theorem constantText_agree (position : Position) (nested : Bool) (v : Value) :
    Agree (Parallel v.payload v.payload) (constantText position nested v)
      (constantText position nested v) := by
  unfold constantText
  split
  · exact .ok (.plain (by cases nested <;> decide))
  · exact .ok (.plain (by cases nested <;> decide))
  · exact literal_agree v

theorem plain_columnText {c : Column} (h : Unquoted style (.column c)) (position : Position)
    (nested : Bool) : Plain (columnText style position nested c) := by
  have hlabel : Plain (style.ident c.label) := h.plain (by simp [identifiers])
  have hname : Plain (style.ident c.name) := h.plain (by simp [identifiers])
  have hcolumn : Plain (columnName style c) := by
    unfold columnName
    split
    · exact hname
    · exact (hlabel.append (by decide)).append hname
  unfold columnText
  split
  · cases nested with
    | false => exact hcolumn.append (by decide)
    | true => exact ((by decide : Plain "(").append (hcolumn.append (by decide))).append (by decide)
  · exact hcolumn

theorem memberText_eq_error {target : Expr} (h : ∀ p, target ≠ .parameter p) (name : String) :
    memberText style target name = .error (notInText (.member target name)) := by
  unfold memberText
  split
  next bare p hbare => exact absurd rfl (h p)
  · rfl

theorem memberText_agree {target target' : Expr} {name : String}
    (hplain : Unquoted style (.member target name)) (h : target.Rephrased target') :
    Agree (Parallel (Expr.member target name).payloads (Expr.member target' name).payloads)
      (memberText style target name) (memberText style target' name) := by
  have herror {e e' : Expr} (h : ∀ p, e ≠ .parameter p) (h' : ∀ p, e' ≠ .parameter p) :
      Agree (Parallel (Expr.member e name).payloads (Expr.member e' name).payloads)
        (memberText style e name) (memberText style e' name) := by
    rw [memberText_eq_error h, memberText_eq_error h']
    exact .error _ _
  induction h using Expr.Rephrased.induction with
  | constant | captured => exact herror (by simp) (by simp)
  | node e e' _ h =>
      cases h with
      | @leaf e hleaf =>
          cases e with
          | parameter p =>
              unfold memberText
              cases hbare : style.bare with
              | none => exact .error _ _
              | some bare =>
                  dsimp only
                  split
                  · cases hmember : bare.table.member name with
                    | error err => exact .error _ _
                    | ok m =>
                        refine .ok (Parallel.plain (hplain.plain ?_))
                        simp [identifiers, hbare, hmember, Except.toOption]
                  · exact .error _ _
          | _ => exact herror (by simp) (by simp)
      | _ => exact herror (by simp) (by simp)

theorem texts_agree {es es' : List Expr} (position : Position) (nested : Bool)
    (h : List.Forall₂ (fun e e' => Agree (Parallel e.payloads e'.payloads)
      (text style position nested e) (text style position nested e')) es es') :
    Agree (ParallelAll (es.flatMap Expr.payloads) (es'.flatMap Expr.payloads))
      (texts style position nested es) (texts style position nested es') := by
  induction h with
  | nil => exact .ok .nil
  | cons h _ ih =>
      unfold texts
      refine h.bind fun t t' ht => ?_
      exact ih.bind fun ts ts' hts => .ok (.cons ht hts)

theorem plain_of_nullTest? {op : Comparison} {test : String} (h : nullTest? op = some test) :
    Plain test := by
  cases op <;> cases h <;> decide

/-- Both operands are written, or only one if the other is null. -/
theorem binaryText_agree {a b a' b' : Expr} (op : BinaryOperator) (ha : a.Rephrased a')
    (hb : b.Rephrased b')
    (iha : ∀ position nested, Agree (Parallel a.payloads a'.payloads)
      (text style position nested a) (text style position nested a'))
    (ihb : ∀ position nested, Agree (Parallel b.payloads b'.payloads)
      (text style position nested b) (text style position nested b'))
    (position : Position) (nested : Bool) :
    Agree (Parallel (Expr.binary op a b).payloads (Expr.binary op a' b').payloads)
      (text style position nested (.binary op a b))
      (text style position nested (.binary op a' b')) := by
  rw [Expr.payloads_binary, Expr.payloads_binary]
  have hboth (position : Position) {name : String} (hname : Plain name) :
      Agree (Parallel (a.payloads ++ b.payloads) (a'.payloads ++ b'.payloads))
        (do
          let left ← text style position true a
          let right ← text style position true b
          return wrap nested (left ++ " " ++ name ++ " " ++ right))
        (do
          let left ← text style position true a'
          let right ← text style position true b'
          return wrap nested (left ++ " " ++ name ++ " " ++ right)) := by
    refine (iha position true).bind fun t t' ht => ?_
    exact (ihb position true).bind fun u u' hu => .ok ((ht.operation hu hname).wrap nested)
  cases op with
  | logical op => exact hboth position (by cases op <;> decide)
  | comparison op =>
      unfold text
      rw [ha.isNullConstant_eq, hb.isNullConstant_eq]
      split
      next test htest hnull =>
        have hnone := Expr.payloads_of_isNullConstant hnull
        have hnone' := Expr.payloads_of_isNullConstant (hb.isNullConstant_eq.trans hnull)
        rw [hnone, hnone', List.append_nil, List.append_nil]
        refine (iha .scalar true).bind fun t t' ht => ?_
        exact .ok ((ht.follow (plain_of_nullTest? htest)).wrap nested)
      next test htest hnull _ =>
        have hnone := Expr.payloads_of_isNullConstant hnull
        have hnone' := Expr.payloads_of_isNullConstant (ha.isNullConstant_eq.trans hnull)
        rw [hnone, hnone', List.nil_append, List.nil_append]
        refine (ihb .scalar true).bind fun t t' ht => ?_
        exact .ok ((ht.follow (plain_of_nullTest? htest)).wrap nested)
      · exact hboth .scalar (by cases op <;> decide)
  | arithmetic op =>
      cases op with
      | mod =>
          refine (iha .scalar false).bind fun t t' ht => ?_
          refine (ihb .scalar false).bind fun u u' hu => ?_
          have hargs := (ht.prepend (by decide : Plain "MOD(")).between hu (by decide : Plain ", ")
            (by decide)
          exact .ok (hargs.follow (by decide))
      | add =>
          unfold text
          rw [arithmeticName, arithmeticName, ha.isText_eq, hb.isText_eq]
          exact hboth .scalar (by split <;> decide)
      | sub => exact hboth .scalar (by decide : Plain "-")
      | mul => exact hboth .scalar (by decide : Plain "*")
      | div => exact hboth .scalar (by decide : Plain "/")

theorem functionText_agree {f f' : FunctionCall Expr}
    (h : f.Alike (fun e e' => ∀ position nested, Agree (Parallel e.payloads e'.payloads)
      (text style position nested e) (text style position nested e')) f')
    (position : Position) (nested : Bool) :
    Agree (Parallel (Expr.function f).payloads (Expr.function f').payloads)
      (text style position nested (.function f)) (text style position nested (.function f')) := by
  obtain ⟨method, name, receiver, args, type⟩ := f
  obtain ⟨method', name', receiver', args', type'⟩ := f'
  obtain ⟨rfl, rfl, hreceiver, hargs, rfl⟩ := h
  rw [Expr.payloads_function, Expr.payloads_function]
  unfold text
  have hfirst : Agree (ParallelAll (receiver.toList.flatMap Expr.payloads)
      (receiver'.toList.flatMap Expr.payloads)) (textOption style receiver)
        (textOption style receiver') := by
    cases hreceiver with
    | none => exact .ok .nil
    | some h => exact (h .scalar false).bind fun t t' ht => .ok (.cons ht .nil)
  refine hfirst.bind fun ts ts' hts => ?_
  refine (texts_agree .scalar false (hargs.imp fun _ _ hc => hc _ _)).bind fun us us' hus => ?_
  have hlist := (hts.append hus).intercalate (by decide : Plain ", ") (by decide)
  exact .ok ((hlist.prepend (by cases name <;> decide)).follow (by decide))

theorem subqueryText_agree {f f' : FunctionCall Expr} {sql : String} (hsql : Plain sql)
    (h : List.Forall₂ (fun e e' => ∀ position nested, Agree (Parallel e.payloads e'.payloads)
      (text style position nested e) (text style position nested e')) f.args f'.args)
    (hfunction : f.function = f'.function) (position : Position) (nested : Bool) :
    Agree (Parallel (Expr.subquery f sql).payloads (Expr.subquery f' sql).payloads)
      (text style position nested (.subquery f sql))
      (text style position nested (.subquery f' sql)) := by
  obtain ⟨_, name, _, args, _⟩ := f
  obtain ⟨_, _, _, args', _⟩ := f'
  obtain rfl : name = _ := hfunction
  rw [Expr.payloads_subquery, Expr.payloads_subquery]
  unfold text
  rw [← h.length_eq]
  refine (texts_agree .predicate _ (h.imp fun _ _ hc => hc _ _)).bind fun ts ts' hts => ?_
  have hname : Plain (name.name ++ " (" ++ sql) := .append (by cases name <;> decide) hsql
  have hcondition : Parallel (args.flatMap Expr.payloads) (args'.flatMap Expr.payloads)
      (if ts.isEmpty then "" else " WHERE " ++ " AND ".intercalate ts)
      (if ts'.isEmpty then "" else " WHERE " ++ " AND ".intercalate ts') := by
    have hlist := hts.intercalate (by decide : Plain " AND ") (by decide)
    exact hts.ite (by decide) (hlist.prepend (by decide))
  exact .ok ((hcondition.prepend hname).follow (by decide))

/-- Wherever one of two expressions that differ in payloads is written, the other is written alike
outside of literals. -/
theorem text_agree (hplain : Unquoted style e) (h : e.Rephrased e') (position : Position)
    (nested : Bool) : Agree (Parallel e.payloads e'.payloads) (text style position nested e)
      (text style position nested e') := by
  induction h using Expr.Rephrased.induction generalizing position nested with
  | constant v v' t hv => cases position <;> cases hv <;> exact .ok (Parallel.quoted _ _)
  | captured name v v' hv => cases hv <;> exact .ok (Parallel.quoted _ _)
  | node e e' _ h =>
      cases h with
      | @leaf e hleaf =>
          cases e with
          | constant v t => exact constantText_agree position nested v
          | captured name v => exact literal_agree v
          | column c => exact .ok (.plain (plain_columnText hplain position nested))
          | parameter | collection | outerRow | table => exact .error _ _
          | _ => cases hleaf
      | member name h => exact memberText_agree hplain h.2.1
      | unary op h =>
          have ih := h.2.2 (hplain.child h.1)
          rw [Expr.payloads_unary, Expr.payloads_unary]
          cases op with
          | not => exact (ih position true).bind fun _ _ ht => .ok (ht.prepend (by decide))
          | negate => exact (ih .scalar true).bind fun _ _ ht => .ok (ht.prepend (by decide))
      | binary op hl hr =>
          exact binaryText_agree op hl.2.1 hr.2.1 (hl.2.2 (hplain.child hl.1))
            (hr.2.2 (hplain.child hr.1)) position nested
      | function h =>
          refine functionText_agree ?_ position nested
          exact ⟨h.method, h.function, rel_imp h.receiver fun _ _ hc => hc.2.2 (hplain.child hc.1),
            h.args.imp fun _ _ hc => hc.2.2 (hplain.child hc.1), h.type⟩
      | subquery sql h =>
          refine subqueryText_agree (hplain.plain (by simp [identifiers])) ?_ h.function position
            nested
          exact h.args.imp fun _ _ hc => hc.2.2 (hplain.child hc.1)
      | _ => exact .error _ _

/-- Both are written, from every depth on and up to the same depth, or neither is. -/
def Layout.Agree {α β : Type} (R : α → β → Prop) (x : Layout α) (y : Layout β) : Prop :=
  ∀ depth, Quarry.Agree (fun a b => R a.1 b.1 ∧ a.2 = b.2) (x.run depth) (y.run depth)

namespace Layout.Agree

variable {α β γ δ : Type} {R : α → β → Prop} {S : γ → δ → Prop} {x : Layout α} {y : Layout β}

theorem pure {a : α} {b : β} (h : R a b) : Layout.Agree R (pure a) (pure b) := fun _ =>
  .ok ⟨h, rfl⟩

theorem lift {x : Except Error α} {y : Except Error β} (h : Quarry.Agree R x y) :
    Layout.Agree R (liftM x) (liftM y) := by
  intro depth
  cases h with
  | ok h => exact .ok ⟨h, rfl⟩
  | error e e' => exact .error e e'

theorem bind {f : α → Layout γ} {g : β → Layout δ} (h : Layout.Agree R x y)
    (hfg : ∀ a b, R a b → Layout.Agree S (f a) (g b)) : Layout.Agree S (x >>= f) (y >>= g) := by
  intro depth
  rw [StateT.run_bind, StateT.run_bind]
  refine (h depth).bind fun a b hab => ?_
  rw [hab.2]
  exact hfg _ _ hab.1 _

end Layout.Agree

/-- A line begins in the same way in both texts. -/
theorem newline_agree (indentation : Indentation) :
    Layout.Agree (fun line line' => line = line' ∧ Plain line ∧ line ≠ "")
      (newline style indentation) (newline style indentation) := by
  refine fun depth => .ok ⟨⟨rfl, ?_, ?_⟩, rfl⟩
  · simp [Plain, List.mem_replicate]
  · simp

/-- Parallel texts that may stand right after a literal. -/
structure ParallelAfter (ps ps' : List String) (t t' : String) : Prop where
  parallel : Parallel ps ps' t t'
  head : t.toList.head? ≠ some '\''
  head' : t'.toList.head? ≠ some '\''

theorem ParallelAfter.clause {ps ps' : List String} {line keyword t t' : String}
    (h : Parallel ps ps' t t') (hline : Plain line) (hne : line ≠ "") (hkeyword : Plain keyword) :
    ParallelAfter ps ps' (line ++ keyword ++ t) (line ++ keyword ++ t') where
  parallel := h.prepend (hline.append hkeyword)
  head := by
    rw [String.append_assoc]
    exact hline.head_append hne _
  head' := by
    rw [String.append_assoc]
    exact hline.head_append hne _

theorem rel_unquoted {a b : Option Expr} (h : Option.Rel Expr.Rephrased a b)
    (hplain : ∀ c ∈ a.toList, Unquoted style c) :
    Option.Rel (fun e e' => Unquoted style e ∧ e.Rephrased e') a b := by
  cases h with
  | none => exact .none
  | some h => exact .some ⟨hplain _ (by simp), h⟩

theorem filterText_agree {filter filter' : Option Expr}
    (h : Option.Rel (fun e e' => Unquoted style e ∧ e.Rephrased e') filter filter') :
    Layout.Agree (ParallelAfter (filter.toList.flatMap Expr.payloads)
      (filter'.toList.flatMap Expr.payloads)) (filterText style filter)
        (filterText style filter') := by
  cases h with
  | none => exact .pure ⟨.plain (by decide), by decide, by decide⟩
  | some h =>
      simp only [Option.toList_some, List.flatMap_singleton]
      refine (newline_agree .same).bind ?_
      rintro line _ ⟨rfl, hline, hne⟩
      refine (Layout.Agree.lift (text_agree h.1 h.2 .predicate false)).bind fun t t' ht => ?_
      exact .pure (.clause ht hline hne (by decide))

theorem conditionText_agree {condition condition' : Option Expr}
    (h : Option.Rel (fun e e' => Unquoted style e ∧ e.Rephrased e') condition condition') :
    Layout.Agree (ParallelAfter (condition.toList.flatMap Expr.payloads)
      (condition'.toList.flatMap Expr.payloads)) (conditionText style condition)
        (conditionText style condition') := by
  cases h with
  | none => exact .pure ⟨.plain (by decide), by decide, by decide⟩
  | some h =>
      simp only [Option.toList_some, List.flatMap_singleton]
      refine (newline_agree .inner).bind ?_
      rintro line _ ⟨rfl, hline, hne⟩
      refine (Layout.Agree.lift (text_agree h.1 h.2 .predicate false)).bind fun t t' ht => ?_
      have hback : Layout.Agree (fun _ _ => True) (modify (· - 1) : Layout Unit) (modify (· - 1)) :=
        fun _ => .ok ⟨trivial, rfl⟩
      exact hback.bind fun _ _ _ => .pure (.clause ht hline hne (by decide))

theorem declarationText_agree {name : String} (hname : Plain (style.ident name))
    (hplain : Unquoted style e) (h : e.Rephrased e') :
    Agree (Parallel e.payloads e'.payloads) (declarationText style (name, e))
      (declarationText style (name, e')) := by
  have hsuffix : Plain (" AS " ++ style.ident name) := (by decide : Plain " AS ").append hname
  have hnamed := (text_agree hplain h .scalar false).bind fun t t' ht =>
    (.ok (ht.follow hsuffix) : Agree (Parallel e.payloads e'.payloads) _ _)
  simp only [← String.append_assoc] at hnamed
  induction h using Expr.Rephrased.induction with
  | constant | captured => exact hnamed
  | node e e' _ h =>
      cases h with
      | @leaf e hleaf =>
          cases e with
          | column c =>
              have hcolumn := plain_columnText hplain .scalar false
              refine .ok (Parallel.plain ?_)
              split
              · exact hcolumn
              · exact (hcolumn.append (by decide)).append hname
          | _ => exact hnamed
      | _ => exact hnamed

theorem columnsText_agree {columns columns' : List (String × Expr)}
    (h : List.Forall₂ (fun a b => Plain (style.ident a.1) ∧ a.1 = b.1 ∧ Unquoted style a.2 ∧
      a.2.Rephrased b.2) columns columns') :
    Agree (Parallel ((columns.map (·.2)).flatMap Expr.payloads)
      ((columns'.map (·.2)).flatMap Expr.payloads)) (columnsText style columns)
        (columnsText style columns') := by
  have hall : Agree (ParallelAll ((columns.map (·.2)).flatMap Expr.payloads)
      ((columns'.map (·.2)).flatMap Expr.payloads)) (columns.mapM (declarationText style))
        (columns'.mapM (declarationText style)) := by
    induction h with
    | nil => exact .ok .nil
    | @cons a b _ _ hab _ ih =>
        obtain ⟨name, e⟩ := a
        obtain ⟨_, e'⟩ := b
        obtain ⟨hname, rfl, hplain, he⟩ := hab
        rw [List.mapM_cons, List.mapM_cons]
        refine (declarationText_agree hname hplain he).bind fun t t' ht => ?_
        exact ih.bind fun ts ts' hts => .ok (.cons ht hts)
  refine hall.bind fun ts ts' hts => .ok (hts.ite (by decide) ?_)
  exact hts.intercalate (by decide) (by decide)

theorem Unquoted.select_columns {s t : Select Expr} (hplain : Unquoted style (.select s))
    (h : s.Alike Expr.Rephrased t) :
    List.Forall₂ (fun a b => Plain (style.ident a.1) ∧ a.1 = b.1 ∧ Unquoted style a.2 ∧
      a.2.Rephrased b.2) s.columns t.columns := by
  refine ((List.forall₂_and_left _ _).mpr ⟨fun a ha => ha, h.columns⟩).imp ?_
  rintro a b ⟨ha, hname, hab⟩
  refine ⟨hplain.plain ?_, hname, hplain.child ?_, hab⟩
  · exact List.mem_cons_of_mem _ (List.mem_map_of_mem ha)
  · exact List.mem_append_left _ (List.mem_map_of_mem ha)

theorem selectText_agree {s t : Select Expr} (hplain : Unquoted style (.select s))
    (h : s.Alike Expr.Rephrased t)
    (hsource : Layout.Agree (Parallel s.source.payloads t.source.payloads)
      (sourceText style s.source) (sourceText style t.source)) :
    Layout.Agree (Parallel (Expr.select s).payloads (Expr.select t).payloads) (selectText style s)
      (selectText style t) := by
  have hcolumns := columnsText_agree (hplain.select_columns h)
  have hfilter := rel_unquoted h.filter fun c hc => hplain.child (c := c) <|
    List.mem_append_right _ (List.mem_cons_of_mem _ hc)
  rw [Expr.payloads_select, Expr.payloads_select]
  obtain ⟨_, columns, source, filter⟩ := s
  obtain ⟨_, columns', source', filter'⟩ := t
  unfold selectText
  refine (Layout.Agree.lift hcolumns).bind fun cs cs' hcs => ?_
  refine (newline_agree .same).bind ?_
  rintro line _ ⟨rfl, hline, hne⟩
  refine hsource.bind fun u u' hu => ?_
  refine (filterText_agree hfilter).bind fun v v' hv => .pure ?_
  have htext := (hcs.prepend (by decide : Plain "SELECT ")).between
    (hu.append hv.parallel hv.head hv.head') (hline.append (by decide : Plain "FROM ")) (by simp)
  simpa only [String.append_assoc] using htext

theorem sourceText_agree (hplain : Unquoted style e) (h : e.Rephrased e') :
    Layout.Agree (Parallel e.payloads e'.payloads) (sourceText style e) (sourceText style e') := by
  induction h using Expr.Rephrased.induction with
  | constant | captured => exact fun _ => .error _ _
  | node e e' _ h =>
      cases h with
      | @leaf e hleaf =>
          cases e with
          | table t =>
              have hname : Plain (style.ident t.name) := hplain.plain (by simp [identifiers])
              have hlabel : Plain (style.ident t.label) := hplain.plain (by simp [identifiers])
              exact .pure (Parallel.plain ((hname.append (by decide)).append hlabel))
          | select | join => cases hleaf
          | _ => exact fun _ => .error _ _
      | @select s t h =>
          have hlabel : Plain (style.ident s.label) := hplain.plain (by simp [identifiers])
          have hselect := selectText_agree hplain (h.imp fun _ _ hc => hc.2.1)
            (h.source.2.2 (hplain.child h.source.1))
          unfold sourceText
          rw [← h.label]
          refine (newline_agree .inner).bind ?_
          rintro first _ ⟨rfl, hfirst, -⟩
          refine hselect.bind fun u u' hu => ?_
          refine (newline_agree .outer).bind ?_
          rintro last _ ⟨rfl, hlast, -⟩
          refine .pure ?_
          have htext := (hu.prepend ((by decide : Plain "(").append hfirst)).follow
            ((hlast.append (by decide : Plain ") ")).append hlabel)
          simpa only [String.append_assoc] using htext
      | @join kind a b a' b' condition condition' hl hr hc =>
          have hcondition := rel_unquoted (rel_imp hc fun _ _ hc => hc.2.1) fun c hc =>
            hplain.child (c := c) (List.mem_cons_of_mem _ (List.mem_cons_of_mem _ hc))
          rw [Expr.payloads_join, Expr.payloads_join]
          unfold sourceText
          refine (hl.2.2 (hplain.child hl.1)).bind fun t t' ht => ?_
          refine (newline_agree .same).bind ?_
          rintro line _ ⟨rfl, hline, hne⟩
          refine (hr.2.2 (hplain.child hr.1)).bind fun u u' hu => ?_
          refine (conditionText_agree hcondition).bind fun v v' hv => .pure ?_
          have hkind : Plain (kind.name ++ " ") := by cases kind <;> decide
          have htext := ht.between (hu.append hv.parallel hv.head hv.head') (hline.append hkind)
            (by simp)
          simpa only [String.append_assoc] using htext
      | _ => exact fun _ => .error _ _

theorem Unquoted.source {p : Projection Expr} (h : Unquoted style (.projection p)) :
    Unquoted style (.select p.source) := by
  refine Expr.forall_mem_nodes.mpr ⟨fun _ hs => h.plain hs, fun c hc => ?_⟩
  exact h.child (List.mem_append_left _ hc)

theorem format_agree (hplain : Unquoted style e) (h : e.Rephrased e') :
    Agree (Parallel e.payloads e'.payloads) (format style e) (format style e') := by
  have hselect {s t : Select Expr} (hplain : Unquoted style (.select s))
      (h : s.Alike Expr.Rephrased t) :
      Agree (Parallel (Expr.select s).payloads (Expr.select t).payloads)
        ((selectText style s).run' 0) ((selectText style t).run' 0) := by
    have hchild : s.source ∈ (Expr.select s).children := by simp [Expr.children, Select.children]
    have hsource := sourceText_agree (hplain.child hchild) h.source
    exact (selectText_agree hplain h hsource 0).map fun _ _ hc => hc.1
  have htext := text_agree hplain h .scalar false
  induction h using Expr.Rephrased.induction with
  | constant | captured => exact htext
  | node e e' _ h =>
      cases h with
      | leaf hleaf =>
          cases e with
          | select | projection => cases hleaf
          | _ => exact htext
      | select h => exact hselect hplain (h.imp fun _ _ hc => hc.2.1)
      | projection shape h =>
          rw [Expr.payloads_projection, Expr.payloads_projection]
          exact hselect hplain.source (h.imp fun _ _ hc => hc.2.1)
      | _ => exact htext

/-- Two expressions that differ only in the payloads of texts and characters are both written or
neither is. Where they are written, as a query or as a condition, the texts are the same outside of
literals, and the literals are the payloads, one by one. -/
theorem payloads_confined_to_literals
    (hplain : ∀ x ∈ e.nodes, ∀ s ∈ identifiers style x, '\'' ∉ s.toList) (h : e.Rephrased e') :
    ∀ write ∈ [format style, predicateText style],
      (∃ t t' xs xs', write e = .ok t ∧ write e' = .ok t' ∧ split t = some xs ∧
        split t' = some xs' ∧ outline xs = outline xs' ∧ literals xs = e.payloads ∧
          literals xs' = e'.payloads) ∨
      ∃ err err', write e = .error err ∧ write e' = .error err' := by
  intro write hwrite
  have hagree : Agree (Parallel e.payloads e'.payloads) (write e) (write e') := by
    simp only [List.mem_cons, List.not_mem_nil, or_false] at hwrite
    rcases hwrite with rfl | rfl
    · exact format_agree hplain h
    · exact text_agree hplain h .predicate false
  generalize write e = x at hagree
  generalize write e' = x' at hagree
  cases hagree with
  | ok htexts =>
      obtain ⟨xs, xs', ht, ht', hout, hps, hps'⟩ := htexts
      exact .inl ⟨_, _, xs, xs', rfl, rfl, ht.split, ht'.split, hout, hps, hps'⟩
  | error err err' => exact .inr ⟨err, err', rfl, rfl⟩

/-- The owners of a name, or of a first letter. -/
def ownersCalled (name : String) (letter : Char) : Expr :=
  let column : Expr := .column ⟨"t0", "Name", 1, .text⟩
  let one : Expr := .constant (.int32 1) .int32
  .select ⟨"t1", [("Name", column)], .table ⟨"owners", "t0", "Owner"⟩,
    some (.binary (.logical .or)
      (.binary (.comparison .eq) column (.constant (.text name) .text))
      (.binary (.comparison .eq)
        (.function ⟨.charAt, .substr, some column, [one, one], .char⟩)
        (.captured "letter" (.char letter))))⟩

theorem ownersCalled_rephrased (name name' : String) (letter letter' : Char) :
    (ownersCalled name letter).Rephrased (ownersCalled name' letter') := by
  refine .node (e := ownersCalled name letter) (.cons (.refl _) (.cons (.refl _) (.cons ?_ .nil)))
  apply Expr.Rephrased.binary
  · exact .binary _ (.refl _) (.constant (.text name name') _)
  · exact .binary _ (.refl _) (.captured _ (.char letter letter'))

theorem payloads_confined_to_literals_of_ownersCalled :
    ∃ t t' xs xs', format {} (ownersCalled "O'Brien" '\'') = .ok t ∧
      format {} (ownersCalled "' OR 1 = 1 --" 'x') = .ok t' ∧ split t = some xs ∧
        split t' = some xs' ∧ outline xs = outline xs' ∧ literals xs = ["O'Brien", "'"] ∧
          literals xs' = ["' OR 1 = 1 --", "x"] := by
  have hplain : ∀ x ∈ (ownersCalled "O'Brien" '\'').nodes, ∀ s ∈ identifiers {} x,
      '\'' ∉ s.toList := by
    decide
  have h := ownersCalled_rephrased "O'Brien" "' OR 1 = 1 --" '\'' 'x'
  rcases payloads_confined_to_literals hplain h (format {}) (by simp) with h | ⟨err, _, herr, -⟩
  · exact h
  · have hok : ∃ t, format {} (ownersCalled "O'Brien" '\'') = .ok t := ⟨_, by cbv⟩
    obtain ⟨t, ht⟩ := hok
    cases ht.symm.trans herr

end Sql

end Quarry
