import Quarry.Proofs.Casting
import Quarry.Proofs.Derivation
import Quarry.Provider
/-!
Which computations can fail only for a reason that lies with their input. An error of class internal
tells that an invariant of the library itself is broken.
-/
namespace Quarry

/-- A broken invariant of the library. -/
def Error.IsFault (e : Error) : Prop := e.kind = .internal

theorem Error.withHint_kind (e : Error) (hint : Option String) :
    (e.withHint hint).kind = e.kind := by
  cases hint <;> rfl

/-- Whatever the failure, it is no broken invariant. -/
def Faultless {α : Type} (x : Except Error α) : Prop := Yields (¬ ·.IsFault) x fun _ => True

namespace Faultless

variable {α β : Type} {x : Except Error α}

theorem ok (a : α) : Faultless (.ok a : Except Error α) := trivial

theorem bind {f : α → Except Error β} (h : Faultless x) (hf : ∀ a, Faultless (f a)) :
    Faultless (x >>= f) := Yields.bind h fun a _ => hf a

theorem map {f : α → β} (h : Faultless x) : Faultless (x.map f) :=
  Yields.map h fun _ _ => trivial

theorem mapM {f : α → Except Error β} {as : List α} (h : ∀ a ∈ as, Faultless (f a)) :
    Faultless (as.mapM f) := by
  induction as with
  | nil => exact ok []
  | cons a as ih =>
      rw [List.mapM_cons]
      refine (h a List.mem_cons_self).bind fun b => ?_
      exact (ih fun c hc => h c (List.mem_cons_of_mem _ hc)).bind fun bs => ok _

section State

variable {σ : Type} {s : σ}

theorem run_bind {x : StateT σ (Except Error) α} {f : α → StateT σ (Except Error) β}
    (h : Faultless (x.run s)) (hf : ∀ a t, Faultless ((f a).run t)) :
    Faultless ((x >>= f).run s) := Yields.run_bind h fun a t _ => hf a t

theorem run_lift (h : Faultless x) :
    Faultless ((liftM x : StateT σ (Except Error) α).run s) :=
  (Yields.run_lift h).imp fun _ _ => trivial

end State

end Faultless

namespace Value

theorem Converts.faultless {α : Type} {x : Except Error α} (h : Converts x) : Faultless x := by
  cases x with
  | ok a => trivial
  | error err =>
      intro hfault
      cases Eq.trans (Eq.symm h) hfault

theorem cast_faultless (v : Value) (t : DataType) : Faultless (v.cast t) :=
  (cast_converts v t).faultless

theorem asBool_faultless (v : Value) : Faultless v.asBool := by
  cases v <;> first | trivial | rintro ⟨⟩

theorem asInt64_faultless (v : Value) : Faultless v.asInt64 := by
  cases v <;> first | trivial | rintro ⟨⟩

theorem asFloat_faultless (v : Value) : Faultless v.asFloat := by
  cases v <;> first | trivial | rintro ⟨⟩

theorem asText_faultless (v : Value) : Faultless v.asText := by
  cases v <;> first | trivial | rintro ⟨⟩

theorem negateInt_faultless {α : Type} (fit? : Int → Option α) (n : Int) :
    Faultless (negateInt fit? n) := by
  unfold negateInt
  split
  · trivial
  · rintro ⟨⟩

theorem applyUnary_faultless (op : UnaryOperator) (v : Value) : Faultless (applyUnary op v) := by
  unfold applyUnary
  split
  · trivial
  · trivial
  · exact (negateInt_faultless _ _).map
  · exact (negateInt_faultless _ _).map
  · trivial
  · rintro ⟨⟩

theorem compareFloats_faultless (x y : Binary64) : Faultless (compareFloats x y) := by
  unfold compareFloats
  repeat' split
  all_goals first | trivial | rintro ⟨⟩

theorem compare_faultless (v w : Value) : Faultless (v.compare w) := by
  unfold compare
  repeat' split
  all_goals first
    | trivial
    | exact (asFloat_faultless _).bind fun _ => compareFloats_faultless _ _
    | rintro ⟨⟩

theorem combineInts_faultless {α : Type} (fit? : Int → Option α) (op : Arithmetic) (a b : Int) :
    Faultless (combineInts fit? op a b) := by
  unfold combineInts
  cases op <;> dsimp only <;> repeat' split
  all_goals first | trivial | rintro ⟨⟩

theorem arithmetic_faultless (op : Arithmetic) (v w : Value) : Faultless (arithmetic op v w) := by
  unfold arithmetic
  split
  all_goals first
    | trivial
    | exact (combineInts_faultless _ _ _ _).map
    | exact (asFloat_faultless _).bind fun _ => .ok _
    | rintro ⟨⟩

theorem applyBinary_faultless (op : BinaryOperator) (v w : Value) :
    Faultless (applyBinary op v w) := by
  cases op with
  | logical op => exact (asBool_faultless v).bind fun _ => (asBool_faultless w).bind fun _ => .ok _
  | comparison op =>
      simp only [applyBinary]
      split
      · trivial
      · exact (compare_faultless v w).bind fun _ => .ok _
  | arithmetic op =>
      simp only [applyBinary]
      repeat' split
      · trivial
      · trivial
      · exact arithmetic_faultless op v w

theorem charAt_faultless (v w : Value) : Faultless (v.charAt w) := by
  unfold charAt
  split
  · trivial
  · refine (asInt64_faultless w).bind fun i => (asText_faultless v).bind fun s => ?_
    dsimp only
    repeat' split
    all_goals first | trivial | rintro ⟨⟩

theorem member_faultless (name : String) (v : Value) : Faultless (v.member name) := by
  unfold member
  repeat' split
  all_goals first | trivial | rintro ⟨⟩

end Value

theorem Materializer.takeMember_faultless (name : String) (v : Value) :
    Faultless (takeMember name v) := by
  unfold takeMember
  split
  next fields =>
    unfold Record.take
    split
    · trivial
    · rintro ⟨⟩
  next => trivial
  next => rintro ⟨⟩

namespace Expr

/-- A call for a character has a text to look in and one index. -/
def isIndexed : Expr → Bool
  | .call .charAt receiver args => receiver.isSome && args.length == 1
  | _ => true

theorem evaluateMembers_faultless {values : Parameter → Option Value} {ms : List (String × Expr)}
    (h : ∀ m ∈ ms, Faultless (evaluateWith values m.2)) :
    Faultless (evaluateMembers values ms) := by
  induction ms with
  | nil => exact .ok []
  | cons m ms ih =>
      obtain ⟨name, e⟩ := m
      unfold evaluateMembers
      refine (h _ List.mem_cons_self).bind fun v => ?_
      exact (ih fun m hm => h m (List.mem_cons_of_mem _ hm)).bind fun _ => .ok _

theorem evaluateWith_faultless {values : Parameter → Option Value} {e : Expr}
    (h : ∀ x ∈ e.nodes, x.isIndexed) : Faultless (evaluateWith values e) := by
  induction e using children_induction with
  | step e ih =>
      obtain ⟨hnode, hbelow⟩ := forall_mem_nodes.mp h
      have hchild : ∀ c ∈ e.children, Faultless (evaluateWith values c) :=
        fun c hc => ih c hc (hbelow c hc)
      cases e with
      | constant | captured => exact .ok _
      | parameter p =>
          unfold evaluateWith
          split
          · trivial
          · rintro ⟨⟩
      | member target name =>
          unfold evaluateWith
          exact (hchild target (by simp [children])).bind fun v => v.member_faultless name
      | unary op a =>
          unfold evaluateWith
          exact (hchild a (by simp [children])).bind fun v => v.applyUnary_faultless op
      | binary op a b =>
          unfold evaluateWith
          exact (hchild a (by simp [children])).bind fun v =>
            (hchild b (by simp [children])).bind fun w => v.applyBinary_faultless op w
      | construct t ms =>
          unfold evaluateWith
          refine Faultless.bind ?_ fun _ => .ok _
          exact evaluateMembers_faultless fun m hm => hchild m.2 (List.mem_map_of_mem hm)
      | call method receiver args =>
          cases method with
          | charAt =>
              cases receiver with
              | none => cases hnode
              | some string =>
                  rcases args with _ | ⟨index, _ | _⟩
                  · cases hnode
                  · unfold evaluateWith
                    exact (hchild string (by simp [children])).bind fun s =>
                      (hchild index (by simp [children])).bind fun i => s.charAt_faultless i
                  · cases hnode
          | _ => rintro ⟨⟩
      | _ => rintro ⟨⟩

theorem foldNode_faultless {e : Expr} (h : ∀ x ∈ e.nodes, x.isIndexed) : Faultless e.foldNode := by
  have hconstant : Faultless e.toConstant :=
    (evaluateWith_faultless h).bind fun v => (v.cast_faultless _).bind fun _ => .ok _
  cases e with
  | constant => exact .ok _
  | _ => exact hconstant

theorem foldWith_faultless {p : Expr → Bool} {e : Expr} (h : ∀ x ∈ e.nodes, x.isIndexed) :
    Faultless (e.foldWith p) := by
  induction e using children_induction with
  | step e ih =>
      rw [foldWith_eq]
      split
      · exact foldNode_faultless h
      · refine Faultless.map (Faultless.mapM fun c hc => ih c hc ?_)
        exact (forall_mem_nodes.mp h).2 c hc

end Expr

namespace Sql

variable {style : Style}

theorem literal_faultless (v : Value) : Faultless (literal v) := by
  cases v <;> first | trivial | rintro ⟨⟩

theorem constantText_faultless (position : Position) (nested : Bool) (v : Value) :
    Faultless (constantText position nested v) := by
  unfold constantText
  split
  · trivial
  · trivial
  · exact literal_faultless _

theorem memberText_faultless (target : Expr) (name : String) :
    Faultless (memberText style target name) := by
  unfold memberText
  split
  next bare p _ =>
    split
    · refine Faultless.bind ?_ fun _ => .ok _
      unfold Table.member
      split
      · trivial
      · intro hfault
        rw [Error.IsFault, Error.withHint_kind] at hfault
        cases hfault
    · rintro ⟨⟩
  next => rintro ⟨⟩

theorem texts_faultless {args : List Expr}
    (h : ∀ e ∈ args, ∀ position nested, Faultless (text style position nested e))
    (position : Position) (nested : Bool) : Faultless (texts style position nested args) := by
  induction args with
  | nil => exact .ok []
  | cons e args ih =>
      unfold texts
      refine (h e List.mem_cons_self position nested).bind fun _ => ?_
      exact (ih fun e he => h e (List.mem_cons_of_mem _ he)).bind fun _ => .ok _

theorem text_faultless (e : Expr) (position : Position) (nested : Bool) :
    Faultless (text style position nested e) := by
  induction e using Expr.children_induction generalizing position nested with
  | step e ih =>
      cases e with
      | constant => exact constantText_faultless position nested _
      | captured => exact literal_faultless _
      | column => exact .ok _
      | member target name => exact memberText_faultless target name
      | unary op a =>
          have ha := ih a (by simp [Expr.children])
          cases op with
          | not => exact (ha position true).bind fun _ => .ok _
          | negate => exact (ha .scalar true).bind fun _ => .ok _
      | binary op a b =>
          have ha := ih a (by simp [Expr.children])
          have hb := ih b (by simp [Expr.children])
          have hboth (position : Position) (nested : Bool) (f : String → String → String) :
              Faultless (do
                let left ← text style position nested a
                let right ← text style position nested b
                return f left right) :=
            (ha position nested).bind fun _ => (hb position nested).bind fun _ => .ok _
          cases op with
          | logical op => exact hboth _ _ _
          | comparison op =>
              unfold text
              split
              · exact (ha .scalar true).bind fun _ => .ok _
              · exact (hb .scalar true).bind fun _ => .ok _
              · exact hboth _ _ _
          | arithmetic op => cases op <;> exact hboth _ _ _
      | function f =>
          obtain ⟨method, name, receiver, args, type⟩ := f
          unfold text
          refine Faultless.bind ?_ fun _ => Faultless.bind ?_ fun _ => .ok _
          · cases receiver with
            | none => exact .ok []
            | some e =>
                refine (ih e ?_ _ _).bind fun _ => .ok _
                simp [Expr.children, FunctionCall.children]
          · refine texts_faultless (fun c hc => ih c ?_) _ _
            exact List.mem_append_right _ hc
      | subquery f sql =>
          obtain ⟨method, name, receiver, args, type⟩ := f
          unfold text
          refine Faultless.bind ?_ fun _ => .ok _
          refine texts_faultless (fun c hc => ih c ?_) _ _
          exact List.mem_append_right _ hc
      | _ => rintro ⟨⟩

theorem columnsText_faultless (columns : List (String × Expr)) :
    Faultless (columnsText style columns) := by
  refine Faultless.bind (Faultless.mapM fun column _ => ?_) fun _ => .ok _
  refine (text_faultless column.2 .scalar false).bind fun _ => ?_
  split <;> trivial

theorem filterText_faultless (filter : Option Expr) (depth : Nat) :
    Faultless ((filterText style filter).run depth) := by
  cases filter with
  | none => exact .ok _
  | some e =>
      refine Faultless.run_bind (.ok _) fun _ _ => ?_
      exact (Faultless.run_lift (text_faultless e _ _)).run_bind fun _ _ => .ok _

theorem conditionText_faultless (condition : Option Expr) (depth : Nat) :
    Faultless ((conditionText style condition).run depth) := by
  cases condition with
  | none => exact .ok _
  | some e =>
      refine Faultless.run_bind (.ok _) fun _ _ => ?_
      exact (Faultless.run_lift (text_faultless e _ _)).run_bind fun _ _ =>
        Faultless.run_bind (.ok _) fun _ _ => .ok _

theorem selectText_faultless {s : Select Expr}
    (h : ∀ depth, Faultless ((sourceText style s.source).run depth)) (depth : Nat) :
    Faultless ((selectText style s).run depth) := by
  obtain ⟨_, columns, source, filter⟩ := s
  unfold selectText
  refine (Faultless.run_lift (columnsText_faultless columns)).run_bind fun _ _ => ?_
  refine Faultless.run_bind (.ok _) fun _ _ => (h _).run_bind fun _ _ => ?_
  exact (filterText_faultless filter _).run_bind fun _ _ => .ok _

theorem sourceText_faultless (e : Expr) (depth : Nat) :
    Faultless ((sourceText style e).run depth) := by
  induction e using Expr.children_induction generalizing depth with
  | step e ih =>
      cases e with
      | table => exact .ok _
      | select s =>
          unfold sourceText
          refine Faultless.run_bind (.ok _) fun _ _ => ?_
          refine (selectText_faultless (ih s.source ?_) _).run_bind fun _ _ =>
            Faultless.run_bind (.ok _) fun _ _ => .ok _
          simp [Expr.children, Select.children]
      | join kind l r condition =>
          unfold sourceText
          refine (ih l (by simp [Expr.children]) _).run_bind fun _ _ =>
            Faultless.run_bind (.ok _) fun _ _ =>
            (ih r (by simp [Expr.children]) _).run_bind fun _ _ => ?_
          exact (conditionText_faultless condition _).run_bind fun _ _ => .ok _
      | _ => rintro ⟨⟩

/-- Whatever cannot be written is not supported in query text. -/
theorem format_faultless (e : Expr) : Faultless (format style e) := by
  have hselect (s : Select Expr) : Faultless ((selectText style s).run' 0) :=
    (selectText_faultless (sourceText_faultless s.source) 0).map
  cases e with
  | select s => exact hselect s
  | projection p => exact hselect p.source
  | _ => exact text_faultless _ _ _

end Sql

namespace Binding

variable {catalog : Catalog} {style : IdentifierCase}

theorem table_faultless (entity : String) : Faultless (catalog.table entity) := by
  unfold Catalog.table
  split
  · trivial
  · intro hfault
    rw [Error.IsFault, Error.withHint_kind] at hfault
    cases hfault

theorem asSource_faultless (e : Expr) : Faultless (asSource e) := by
  cases e <;> first | trivial | rintro ⟨⟩

theorem memberOf_faultless (e : Expr) (name : String) : Faultless (memberOf e name) := by
  unfold memberOf
  repeat' split
  · trivial
  · intro hfault
    rw [Error.IsFault, Error.withHint_kind] at hfault
    cases hfault
  · trivial

theorem substring_faultless (s i : Expr) : Faultless (substring s i) := by
  refine Faultless.bind ?_ fun _ => .ok _
  unfold successor
  split
  · exact (Value.applyBinary_faultless _ _ _).map
  · trivial

theorem existenceEntity_faultless (function : Function) (receiver : Option Expr) :
    Faultless (existenceEntity function receiver) := by
  unfold existenceEntity
  split <;> first | trivial | rintro ⟨⟩

variable (catalog style)

/-- The walk of `e`, or of the body of `e` if it is a lambda, breaks no invariant. -/
structure VisitFaultless (e : Expr) : Prop where
  visit : ∀ s, Faultless ((visit catalog style e).run s)
  lambda : ∀ subject s, Faultless subject → Faultless ((visitLambda catalog style subject e).run s)
  result : ∀ left right s, Faultless ((visitResult catalog style left right e).run s)

variable {catalog style} {e : Expr}

theorem visitLambda_faultless (ih : ∀ c ∈ e.children, VisitFaultless catalog style c)
    {subject : Except Error Expr} (hsubject : Faultless subject) (s : Scope) :
    Faultless ((visitLambda catalog style subject e).run s) := by
  cases e with
  | lambda params body =>
      unfold visitLambda
      rcases params with _ | ⟨p, _ | _⟩
      · rintro ⟨⟩
      · refine (Faultless.run_lift hsubject).run_bind fun _ _ => Faultless.run_bind (.ok _) ?_
        intro _ _
        exact ((ih body (by simp [Expr.children])).visit _).run_bind fun _ _ => .ok _
      · rintro ⟨⟩
  | _ => rintro ⟨⟩

theorem visitResult_faultless (ih : ∀ c ∈ e.children, VisitFaultless catalog style c)
    (left right : Expr) (s : Scope) :
    Faultless ((visitResult catalog style left right e).run s) := by
  cases e with
  | lambda params body =>
      unfold visitResult
      rcases params with _ | ⟨p, _ | ⟨q, _ | _⟩⟩
      · rintro ⟨⟩
      · rintro ⟨⟩
      · refine Faultless.run_bind (.ok _) fun _ _ => Faultless.run_bind (.ok _) fun _ _ => ?_
        exact (ih body (by simp [Expr.children])).visit _
      · rintro ⟨⟩
  | _ => rintro ⟨⟩

theorem visitMembers_faultless {ms : List (String × Expr)}
    (ih : ∀ m ∈ ms, VisitFaultless catalog style m.2) (s : Scope) :
    Faultless ((visitMembers catalog style ms).run s) := by
  induction ms generalizing s with
  | nil =>
      unfold visitMembers
      exact .ok _
  | cons m ms ihms =>
      obtain ⟨name, e⟩ := m
      unfold visitMembers
      refine ((ih _ List.mem_cons_self).visit s).run_bind fun _ t => ?_
      exact (ihms (fun m hm => ih m (List.mem_cons_of_mem _ hm)) t).run_bind fun _ _ => .ok _

theorem visitExistence_faultless {args : List Expr} (method : Method) (function : Function)
    (entity : String) (ih : ∀ c ∈ args, VisitFaultless catalog style c) (s : Scope) :
    Faultless ((visitExistence catalog style method function entity args).run s) := by
  unfold visitExistence
  split
  next predicate =>
    have hbare : Faultless (bareRecord catalog entity) :=
      (table_faultless entity).bind fun _ => .ok _
    refine ((ih predicate (by simp)).lambda _ s hbare).run_bind fun _ _ => ?_
    refine Faultless.run_bind (.ok _) fun _ _ => ?_
    exact Faultless.run_lift ((table_faultless entity).bind fun _ => .ok _)
  next => rintro ⟨⟩

theorem visitCall_faultless {method : Method} {receiver : Option Expr} {args : List Expr}
    (ih : ∀ c ∈ receiver.toList ++ args, VisitFaultless catalog style c) (s : Scope) :
    Faultless ((visit catalog style (.call method receiver args)).run s) := by
  have hargs : ∀ c ∈ args, VisitFaultless catalog style c :=
    fun c hc => ih c (List.mem_append_right _ hc)
  have hsource {c : Expr} {α : Type} {f : Projection Expr → Binder α} (hc : c ∈ args)
      (hf : ∀ p t, Faultless ((f p).run t)) (s : Scope) :
      Faultless ((do f (← asSource (← visit catalog style c)) : Binder α).run s) :=
    ((hargs c hc).visit s).run_bind fun r _ =>
      (Faultless.run_lift (asSource_faultless r)).run_bind hf
  cases method with
  | select | filter =>
      unfold visit
      split
      · refine hsource (by simp) (fun p t => ?_) s
        exact ((hargs _ (by simp)).lambda _ t (.ok _)).run_bind fun _ _ => .ok _
      · rintro ⟨⟩
  | join =>
      unfold visit
      split
      · refine hsource (by simp) (fun p _ => hsource (by simp) (fun q t => ?_) _) s
        refine ((hargs _ (by simp)).lambda _ t (.ok _)).run_bind fun _ t => ?_
        refine ((hargs _ (by simp)).lambda _ t (.ok _)).run_bind fun _ t => ?_
        exact ((hargs _ (by simp)).result _ _ t).run_bind fun _ _ => .ok _
      · rintro ⟨⟩
  | toList =>
      unfold visit
      split
      · exact hsource (by simp) (fun p _ => .ok _) s
      · rintro ⟨⟩
  | charAt =>
      unfold visit
      split
      · refine ((ih _ (by simp)).visit s).run_bind fun _ t => ?_
        refine ((ih _ (by simp)).visit t).run_bind fun _ _ => ?_
        exact Faultless.run_lift (substring_faultless _ _)
      · refine ((ih _ (by simp)).visit s).run_bind fun _ _ => ?_
        rintro ⟨⟩
      · rintro ⟨⟩
  | existence | absence =>
      unfold visit
      refine (Faultless.run_lift (existenceEntity_faultless _ receiver)).run_bind fun _ t => ?_
      exact visitExistence_faultless _ _ _ hargs t
  | named name => rintro ⟨⟩

theorem visit_faultless (h : ∀ x ∈ e.nodes, x.isComposed) : VisitFaultless catalog style e := by
  induction e using Expr.children_induction with
  | step e ih =>
      obtain ⟨hnode, hbelow⟩ := Expr.forall_mem_nodes.mp h
      have hchild : ∀ c ∈ e.children, VisitFaultless catalog style c :=
        fun c hc => ih c hc (hbelow c hc)
      refine ⟨fun s => ?_, fun _ s hsubject => visitLambda_faultless hchild hsubject s,
        visitResult_faultless hchild⟩
      cases e with
      | outerRow => cases hnode
      | collection entity =>
          unfold visit
          exact (Faultless.run_lift (table_faultless entity)).run_bind fun _ _ => .ok _
      | member target name =>
          unfold visit
          exact ((hchild target (by simp [Expr.children])).visit s).run_bind fun _ _ =>
            Faultless.run_lift (memberOf_faultless _ name)
      | unary op a =>
          unfold visit
          exact ((hchild a (by simp [Expr.children])).visit s).run_bind fun _ _ => .ok _
      | binary op a b =>
          unfold visit
          exact ((hchild a (by simp [Expr.children])).visit s).run_bind fun _ t =>
            ((hchild b (by simp [Expr.children])).visit t).run_bind fun _ _ => .ok _
      | construct t ms =>
          unfold visit
          refine (visitMembers_faultless (fun m hm => ?_) s).run_bind fun _ _ => .ok _
          exact hchild m.2 (List.mem_map_of_mem hm)
      | call => exact visitCall_faultless hchild s
      | lambda => rintro ⟨⟩
      | _ => exact .ok _

theorem bind_faultless (h : ∀ x ∈ e.nodes, x.isComposed) : Faultless (bind catalog style e) := by
  refine Faultless.bind ((visit_faultless h).visit {}).map fun r => ?_
  cases r <;> first | trivial | rintro ⟨⟩

end Binding

end Quarry
