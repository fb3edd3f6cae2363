import Quarry.Proofs.Outcome
import Quarry.Proofs.Traversal
import Quarry.Proofs.Typing
import Quarry.Sql.Layout
/-!
What can be written as text: an expression is written only if its parts are, and its constants have
literals.
-/
namespace Quarry.Sql

variable {style : Style}

/-- Text can be written for an expression as a value or condition, as a source, or as a whole
select. -/
inductive Written (style : Style) : Expr → Prop
  | value {position nested e t} : text style position nested e = .ok t → Written style e
  | source {e depth r} : (sourceText style e).run depth = .ok r → Written style e
  | select {s depth r} : (selectText style s).run depth = .ok r → Written style (.select s)

theorem isSimple_of_literal {v : Value} {t : String} (h : literal v = .ok t) : v.isSimple := by
  cases v with
  | record | list => cases h
  | _ => rfl

theorem written_of_texts {position : Position} {nested : Bool} {es : List Expr} {ts : List String}
    (h : texts style position nested es = .ok ts) : ∀ e ∈ es, Written style e := by
  induction es generalizing ts with
  | nil => exact fun _ he => nomatch he
  | cons e es ih =>
      simp only [texts, bind_eq_ok] at h
      obtain ⟨t, ht, ts, hts, -⟩ := h
      intro x hx
      rcases List.mem_cons.mp hx with rfl | hx
      · exact .value ht
      · exact ih hts x hx

theorem written_of_isNullConstant {e : Expr} (h : isNullConstant e) : Written style e := by
  cases e with
  | constant v t =>
      cases v with
      | null =>
          have hnull : text style .scalar true (.constant .null t) = .ok "NULL" := rfl
          exact .value hnull
      | _ => cases h
  | _ => cases h

theorem written_of_binary {op : BinaryOperator} {l r : Expr} {position : Position} {nested : Bool}
    {t : String} (h : text style position nested (.binary op l r) = .ok t) :
    Written style l ∧ Written style r := by
  have hboth : ∀ {position nested position' nested' u u'}, text style position nested l = .ok u →
      text style position' nested' r = .ok u' → Written style l ∧ Written style r :=
    fun hl hr => ⟨.value hl, .value hr⟩
  cases op with
  | logical op =>
      simp only [text, bind_eq_ok] at h
      obtain ⟨u, hl, u', hr, -⟩ := h
      exact hboth hl hr
  | comparison op =>
      simp only [text] at h
      split at h
      next hnull =>
        obtain ⟨u, hl, -⟩ := bind_eq_ok.mp h
        exact ⟨.value hl, written_of_isNullConstant hnull⟩
      next hnull _ =>
        obtain ⟨u, hr, -⟩ := bind_eq_ok.mp h
        exact ⟨written_of_isNullConstant hnull, .value hr⟩
      next =>
        simp only [bind_eq_ok] at h
        obtain ⟨u, hl, u', hr, -⟩ := h
        exact hboth hl hr
  | arithmetic op =>
      cases op with
      | _ =>
          simp only [text, bind_eq_ok] at h
          obtain ⟨u, hl, u', hr, -⟩ := h
          exact hboth hl hr

theorem written_of_text {position : Position} {nested : Bool} {e c : Expr} {t : String}
    (hbare : style.bare = none) (h : text style position nested e = .ok t)
    (hreceiver : ∀ f sql, e = .subquery f sql → f.receiver = none) (hc : c ∈ e.children) :
    Written style c := by
  cases e with
  | unary op operand =>
      obtain rfl := List.mem_singleton.mp hc
      cases op with
      | not | negate =>
          simp only [text, bind_eq_ok] at h
          obtain ⟨t, ht, -⟩ := h
          exact .value ht
  | binary op l r =>
      rcases List.mem_pair.mp hc with rfl | rfl
      · exact (written_of_binary h).1
      · exact (written_of_binary h).2
  | function f =>
      simp only [text, bind_eq_ok] at h
      obtain ⟨first, hfirst, rest, hrest, -⟩ := h
      rcases List.mem_append.mp hc with hc | hc
      · rw [Option.mem_toList.mp hc] at hfirst
        simp only [textOption, bind_eq_ok] at hfirst
        obtain ⟨t, ht, -⟩ := hfirst
        exact .value ht
      · exact written_of_texts hrest c hc
  | subquery f sql =>
      simp only [text, bind_eq_ok] at h
      obtain ⟨predicates, hpredicates, -⟩ := h
      rw [Expr.children, FunctionCall.children, hreceiver f sql rfl] at hc
      exact written_of_texts hpredicates c hc
  | member target name =>
      simp only [text, memberText, hbare] at h
      cases h
  | constant | captured | column => cases hc
  | _ => cases h

theorem lift_eq_ok {α : Type} {x : Except Error α} {depth : Nat} {r : α × Nat}
    (h : (liftM x : Layout α).run depth = .ok r) : x = .ok r.1 := by
  cases x with
  | error err => cases h
  | ok a =>
      cases h
      rfl

theorem written_of_filterText {e : Expr} {depth : Nat} {r : String × Nat}
    (h : (filterText style (some e)).run depth = .ok r) : Written style e := by
  simp only [filterText, StateT.run_bind, bind_eq_ok] at h
  obtain ⟨line, -, condition, hcondition, -⟩ := h
  exact .value (lift_eq_ok hcondition)

theorem written_of_conditionText {e : Expr} {depth : Nat} {r : String × Nat}
    (h : (conditionText style (some e)).run depth = .ok r) : Written style e := by
  simp only [conditionText, StateT.run_bind, bind_eq_ok] at h
  obtain ⟨line, -, condition, hcondition, -⟩ := h
  exact .value (lift_eq_ok hcondition)

theorem written_of_columnsText {columns : List (String × Expr)} {t : String}
    (h : columnsText style columns = .ok t) : ∀ column ∈ columns, Written style column.2 := by
  intro column hcolumn
  obtain ⟨ts, hts, -⟩ := bind_eq_ok.mp h
  obtain ⟨t, -, ht⟩ := exists_of_mem_left (mapM_eq_ok.mp hts) hcolumn
  obtain ⟨name, e⟩ := column
  simp only [declarationText, bind_eq_ok] at ht
  obtain ⟨t, ht, -⟩ := ht
  exact .value ht

theorem written_of_selectText {s : Select Expr} {depth : Nat} {r : String × Nat}
    (h : (selectText style s).run depth = .ok r) : ∀ c ∈ s.children, Written style c := by
  obtain ⟨label, columns, source, filter⟩ := s
  simp only [selectText, StateT.run_bind, bind_eq_ok] at h
  obtain ⟨cs, hcolumns, line, -, src, hsource, fs, hfilter, -⟩ := h
  intro c hc
  rcases List.mem_append.mp hc with hc | hc
  · obtain ⟨column, hcolumn, rfl⟩ := List.mem_map.mp hc
    exact written_of_columnsText (lift_eq_ok hcolumns) column hcolumn
  · rcases List.mem_cons.mp hc with rfl | hc
    · exact .source hsource
    · obtain rfl : filter = some c := Option.mem_toList.mp hc
      exact written_of_filterText hfilter

theorem written_of_sourceText {e c : Expr} {depth : Nat} {r : String × Nat}
    (h : (sourceText style e).run depth = .ok r) (hc : c ∈ e.children) : Written style c := by
  cases e with
  | table t => cases hc
  | select s =>
      simp only [sourceText, StateT.run_bind, bind_eq_ok] at h
      obtain ⟨first, -, select, hselect, -⟩ := h
      exact written_of_selectText hselect c hc
  | join kind l r condition =>
      simp only [sourceText, StateT.run_bind, bind_eq_ok] at h
      obtain ⟨left, hleft, line, -, right, hright, on, hcondition, -⟩ := h
      rcases List.mem_cons.mp hc with rfl | hc
      · exact .source hleft
      · rcases List.mem_cons.mp hc with rfl | hc
        · exact .source hright
        · obtain rfl : condition = some c := Option.mem_toList.mp hc
          exact written_of_conditionText hcondition
  | _ => cases h

/-- What is written is written part by part; an existence test writes no receiver. -/
theorem Written.child {e c : Expr} (hbare : style.bare = none) (h : Written style e)
    (hreceiver : ∀ f sql, e = .subquery f sql → f.receiver = none) (hc : c ∈ e.children) :
    Written style c := by
  cases h with
  | value h => exact written_of_text hbare h hreceiver hc
  | source h => exact written_of_sourceText h hc
  | select h => exact written_of_selectText h c hc

theorem Written.isSimple {v : Value} {t : DataType} (h : Written style (.constant v t)) :
    v.isSimple := by
  cases h with
  | value h =>
      simp only [text, constantText] at h
      split at h
      · rfl
      · rfl
      · exact isSimple_of_literal h
  | source h => cases h

theorem written_of_format {s : Select Expr} {t : String} (h : format style (.select s) = .ok t) :
    Written style (.select s) := by
  rw [format, StateT.run'_eq, fmap_eq_ok] at h
  obtain ⟨r, h, -⟩ := h
  exact .select h

end Quarry.Sql
