import Quarry.Proofs.Markers
/-!
Line breaks in the text of values and conditions: the writer adds none, so that a text is one line
unless a name, literal query text or the payload of a literal is not.
-/
namespace Quarry

theorem Expr.mem_payloads_of_writtenPart {e c : Expr} {s : String} (hc : c ∈ e.writtenParts)
    (hs : s ∈ c.payloads) : s ∈ e.payloads := by
  have hmem : s ∈ e.writtenParts.flatMap payloads := List.mem_flatMap.mpr ⟨c, hc, hs⟩
  cases e with
  | constant | captured => cases hc
  | projection p =>
      rw [payloads_projection, payloads_select]
      simpa [writtenParts, Select.children] using hmem
  | subquery f sql =>
      rw [payloads_subquery]
      exact hmem
  | _ =>
      rw [payloads, fold_eq, ← payloads]
      exact hmem

namespace Sql

variable {style : Style} {e : Expr} {t : String}

/-! Pieces of text -/

def OneLine (s : String) : Prop := '\n' ∉ s.toList

instance (s : String) : Decidable (OneLine s) := inferInstanceAs (Decidable (_ ∉ _))

theorem OneLine.append {s : String} (hs : OneLine s) (ht : OneLine t) : OneLine (s ++ t) := by
  simp only [OneLine, String.toList_append, List.mem_append, not_or]
  exact ⟨hs, ht⟩

theorem OneLine.wrap (h : OneLine t) (nested : Bool) : OneLine (wrap nested t) := by
  cases nested with
  | false => exact h
  | true => exact ((by decide : OneLine "(").append h).append (by decide)

theorem OneLine.operation {u name : String} (ht : OneLine t) (hu : OneLine u) (hname : OneLine name)
    (nested : Bool) : OneLine (Sql.wrap nested (t ++ " " ++ name ++ " " ++ u)) := by
  have hspace : OneLine " " := by decide
  exact ((((ht.append hspace).append hname).append hspace).append hu).wrap nested

theorem oneLine_intercalate {s : String} {ts : List String} (hs : OneLine s)
    (hts : ∀ t ∈ ts, OneLine t) : OneLine (s.intercalate ts) := by
  induction ts with
  | nil =>
      rw [String.intercalate_nil]
      decide
  | cons t ts ih =>
      rw [List.forall_mem_cons] at hts
      cases ts with
      | nil => simpa using hts.1
      | cons u us =>
          rw [String.intercalate_cons_cons]
          exact (hts.1.append hs).append (ih hts.2)

theorem mem_of_mem_escape {c : Char} {cs : List Char} (h : c ∈ escape cs) : c ∈ cs := by
  induction cs with
  | nil => exact h
  | cons d cs ih =>
      unfold escape at h
      split at h
      next hd =>
        rcases List.mem_cons.mp h with rfl | h
        · exact hd ▸ List.mem_cons_self
        · exact (List.mem_cons.mp h).elim (fun hc => hc ▸ hd ▸ List.mem_cons_self)
            fun h => List.mem_cons_of_mem _ (ih h)
      next =>
        rcases List.mem_cons.mp h with rfl | h
        · exact List.mem_cons_self
        · exact List.mem_cons_of_mem _ (ih h)

theorem oneLine_quoted (h : OneLine t) : OneLine (quoted t) := by
  have hbody : OneLine (String.ofList (escape t.toList)) := by
    rw [OneLine, String.toList_ofList]
    exact mt mem_of_mem_escape h
  exact ((by decide : OneLine "'").append hbody).append (by decide)

theorem oneLine_ofList {cs : List Char} (negative : Bool) (h : ∀ c ∈ cs, c.isDigit ∨ c = '.') :
    OneLine (String.ofList (if negative then '-' :: cs else cs)) := by
  have hcs : '\n' ∉ cs := fun hc => absurd (h _ hc) (by decide)
  cases negative <;> simpa [OneLine] using hcs

theorem oneLine_ofInt (n : Int) : OneLine (Decimal.ofInt n) := by
  have hdigits (c) (hc : c ∈ Decimal.digits n.natAbs) : c.isDigit ∨ c = '.' :=
    .inl (isDigit_of_mem_digits hc)
  unfold Decimal.ofInt
  split
  · exact oneLine_ofList true hdigits
  · exact oneLine_ofList false hdigits

theorem oneLine_ofBinary64 (x : Binary64) : OneLine (Decimal.ofBinary64 x) := by
  unfold Decimal.ofBinary64
  split
  next s hs =>
    refine oneLine_ofList _ fun c hc => ?_
    split at hc
    · exact .inl (List.mem_singleton.mp hc ▸ rfl)
    · exact mem_positional hc
  next => cases x.isNaN <;> cases x.isNegative <;> decide

theorem literal_oneLine {v : Value} (hv : ∀ s ∈ v.payload, OneLine s) (h : literal v = .ok t) :
    OneLine t := by
  cases v with
  | null =>
      cases h
      decide
  | boolean b => cases b <;> cases h <;> decide
  | int32 n =>
      cases h
      exact oneLine_ofInt _
  | int64 n =>
      cases h
      exact oneLine_ofInt _
  | float x =>
      cases h
      exact oneLine_ofBinary64 x
  | char c =>
      cases h
      exact oneLine_quoted (hv _ List.mem_cons_self)
  | text s =>
      cases h
      exact oneLine_quoted (hv _ List.mem_cons_self)
  | record fields => cases h
  | list values => cases h

/-! Values and conditions -/

/-- No line break stands in what is written of the nodes as it is, or in a literal. -/
structure Unbroken (style : Style) (e : Expr) : Prop where
  names : ∀ x ∈ e.nodes, ∀ s ∈ identifiers style x, OneLine s
  payloads : ∀ s ∈ e.payloads, OneLine s

namespace Unbroken

theorem part {c : Expr} (h : Unbroken style e) (hc : c ∈ e.writtenParts) : Unbroken style c where
  names x hx := h.names x (Expr.mem_nodes_of_child (Expr.child_of_writtenPart hc) hx)
  payloads s hs := h.payloads s (Expr.mem_payloads_of_writtenPart hc hs)

theorem name {s : String} (h : Unbroken style e) (hs : s ∈ identifiers style e) : OneLine s :=
  h.names e e.self_mem_nodes s hs

end Unbroken

theorem columnText_oneLine {c : Column} (h : Unbroken style (.column c)) (position : Position)
    (nested : Bool) : OneLine (columnText style position nested c) := by
  have hlabel : OneLine (style.ident c.label) := h.name (by simp [identifiers])
  have hname : OneLine (style.ident c.name) := h.name (by simp [identifiers])
  have hcolumn : OneLine (columnName style c) := by
    unfold columnName
    split
    · exact hname
    · exact (hlabel.append (by decide)).append hname
  unfold columnText
  split
  · exact (hcolumn.append (by decide)).wrap nested
  · exact hcolumn

theorem binaryText_oneLine {op : BinaryOperator} {l r : Expr} {position : Position} {nested : Bool}
    (ihl : ∀ {position nested u}, text style position nested l = .ok u → OneLine u)
    (ihr : ∀ {position nested u}, text style position nested r = .ok u → OneLine u)
    (h : text style position nested (.binary op l r) = .ok t) : OneLine t := by
  have hboth {position : Position} {name : String} (hname : OneLine name)
      (h : (do
        let left ← text style position true l
        let right ← text style position true r
        return wrap nested (left ++ " " ++ name ++ " " ++ right)) = .ok t) : OneLine t := by
    simp only [bind_eq_ok, pure_eq_ok] at h
    obtain ⟨u, hl, v, hr, rfl⟩ := h
    exact (ihl hl).operation (ihr hr) hname nested
  have htest {op : Comparison} {test : String} (h : nullTest? op = some test) : OneLine test := by
    cases op <;> cases h <;> decide
  cases op with
  | logical op => exact hboth (by cases op <;> decide) h
  | comparison op =>
      unfold text at h
      split at h
      next test hop _ =>
        obtain ⟨u, hl, hu⟩ := bind_eq_ok.mp h
        obtain rfl := pure_eq_ok.mp hu
        exact ((ihl hl).append (htest hop)).wrap nested
      next test hop _ _ =>
        obtain ⟨u, hr, hu⟩ := bind_eq_ok.mp h
        obtain rfl := pure_eq_ok.mp hu
        exact ((ihr hr).append (htest hop)).wrap nested
      next => exact hboth (by cases op <;> decide) h
  | arithmetic op =>
      cases op with
      | mod =>
          simp only [text, bind_eq_ok, pure_eq_ok] at h
          obtain ⟨u, hl, v, hr, rfl⟩ := h
          have hleft := (by decide : OneLine "MOD(").append (ihl hl)
          exact ((hleft.append (by decide)).append (ihr hr)).append (by decide)
      | add => exact hboth (by rw [arithmeticName]; split <;> decide) h
      | sub => exact hboth (by decide : OneLine "-") h
      | mul => exact hboth (by decide : OneLine "*") h
      | div => exact hboth (by decide : OneLine "/") h

theorem texts_oneLine {es : List Expr} {ts : List String} {position : Position} {nested : Bool}
    (ih : ∀ e ∈ es, ∀ t, text style position nested e = .ok t → OneLine t)
    (h : texts style position nested es = .ok ts) : ∀ t ∈ ts, OneLine t := by
  induction es generalizing ts with
  | nil =>
      cases h
      exact List.forall_mem_nil _
  | cons e es ihes =>
      simp only [texts, bind_eq_ok, pure_eq_ok] at h
      obtain ⟨t, ht, ts, hts, rfl⟩ := h
      rw [List.forall_mem_cons] at ih
      exact List.forall_mem_cons.mpr ⟨ih.1 t ht, ihes ih.2 hts⟩

theorem textOption_oneLine {o : Option Expr} {ts : List String}
    (ih : ∀ e ∈ o.toList, ∀ t, text style .scalar false e = .ok t → OneLine t)
    (h : textOption style o = .ok ts) : ∀ t ∈ ts, OneLine t := by
  cases o with
  | none =>
      cases h
      exact List.forall_mem_nil _
  | some e =>
      obtain ⟨t, ht, hts⟩ := bind_eq_ok.mp h
      obtain rfl := pure_eq_ok.mp hts
      exact List.forall_mem_singleton.mpr (ih e List.mem_cons_self t ht)

theorem text_oneLine {position : Position} {nested : Bool} (hwhole : Unbroken style e)
    (h : text style position nested e = .ok t) : OneLine t := by
  induction e using Expr.children_induction generalizing position nested t with
  | step e ih =>
      have ih {c : Expr} (hc : c ∈ e.writtenParts) {position : Position} {nested : Bool}
          {u : String} (hu : text style position nested c = .ok u) : OneLine u :=
        ih c (Expr.child_of_writtenPart hc) (hwhole.part hc) hu
      cases e with
      | constant v type =>
          change constantText position nested v = .ok t at h
          unfold constantText at h
          split at h
          · cases h
            exact (by decide : OneLine "1 = 1").wrap nested
          · cases h
            exact (by decide : OneLine "1 = 0").wrap nested
          · exact literal_oneLine hwhole.payloads h
      | captured name v => exact literal_oneLine (v := v) hwhole.payloads h
      | column c =>
          obtain rfl := Except.ok.inj h
          exact columnText_oneLine hwhole position nested
      | member target name =>
          obtain ⟨-, ht⟩ := memberText_cases h
          exact hwhole.name ht
      | unary op operand =>
          have hoperand {position nested u} (hu : text style position nested operand = .ok u) :
              OneLine u := ih List.mem_cons_self hu
          cases op with
          | not =>
              obtain ⟨u, hu, ht⟩ := bind_eq_ok.mp h
              obtain rfl := pure_eq_ok.mp ht
              exact (by decide : OneLine "NOT ").append (hoperand hu)
          | negate =>
              obtain ⟨u, hu, ht⟩ := bind_eq_ok.mp h
              obtain rfl := pure_eq_ok.mp ht
              exact (by decide : OneLine "-").append (hoperand hu)
      | binary op l r =>
          exact binaryText_oneLine (ih List.mem_cons_self)
            (ih (List.mem_cons_of_mem _ List.mem_cons_self)) h
      | function f =>
          obtain ⟨method, name, receiver, args, type⟩ := f
          simp only [text, bind_eq_ok, pure_eq_ok] at h
          obtain ⟨first, hfirst, rest, hrest, rfl⟩ := h
          have hfirst := textOption_oneLine (fun c hc t => ih (List.mem_append_left _ hc)) hfirst
          have hrest := texts_oneLine (fun c hc t => ih (List.mem_append_right _ hc)) hrest
          have hargs := oneLine_intercalate (by decide : OneLine ", ")
            (List.forall_mem_append.mpr ⟨hfirst, hrest⟩)
          have hname : OneLine (name.name ++ "(") := by cases name <;> decide
          exact (hname.append hargs).append (by decide)
      | subquery f sql =>
          obtain ⟨method, name, receiver, args, type⟩ := f
          simp only [text, bind_eq_ok, pure_eq_ok] at h
          obtain ⟨predicates, hpredicates, rfl⟩ := h
          have hsql : OneLine sql := hwhole.name List.mem_cons_self
          have hall := texts_oneLine (fun c hc t => ih hc) hpredicates
          have hcondition : OneLine
              (if predicates.isEmpty then "" else " WHERE " ++ " AND ".intercalate predicates) := by
            split
            · decide
            · exact OneLine.append (by decide) (oneLine_intercalate (by decide) hall)
          have hname : OneLine (name.name ++ " (") := by cases name <;> decide
          exact ((hname.append hsql).append hcondition).append (by decide)
      | _ => cases h

theorem declarationText_oneLine {name : String} (hname : OneLine (style.ident name))
    (hwhole : Unbroken style e) (h : declarationText style (name, e) = .ok t) : OneLine t := by
  obtain ⟨u, hu, ht⟩ := bind_eq_ok.mp h
  have hvalue := text_oneLine hwhole hu
  have hnamed : OneLine (u ++ " AS " ++ style.ident name) :=
    (hvalue.append (by decide)).append hname
  split at ht
  · obtain rfl := pure_eq_ok.mp ht
    split
    · exact hvalue
    · exact hnamed
  · obtain rfl := pure_eq_ok.mp ht
    exact hnamed

theorem columnsText_oneLine {columns : List (String × Expr)}
    (hnames : ∀ column ∈ columns, OneLine (style.ident column.1))
    (hwhole : ∀ column ∈ columns, Unbroken style column.2)
    (h : columnsText style columns = .ok t) : OneLine t := by
  obtain ⟨ts, hts, ht⟩ := bind_eq_ok.mp h
  obtain rfl := pure_eq_ok.mp ht
  have hall : ∀ t ∈ ts, OneLine t := by
    intro t ht
    obtain ⟨⟨name, e⟩, hc, h⟩ := exists_of_mem_right (mapM_eq_ok.mp hts) ht
    exact declarationText_oneLine (hnames _ hc) (hwhole _ hc) h
  split
  · decide
  · exact oneLine_intercalate (by decide) hall

end Sql

end Quarry
