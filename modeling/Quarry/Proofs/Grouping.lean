import Quarry.Proofs.Precedence
import Quarry.Sql.Layout
/-!
Grouping in the text of a condition. Operations never lose the grouping of their operands: without
negations two conditions with the same text are the same, up to the side on which a null test has
its null. A negation keeps its operand exactly where it does not stand before the first operand of a
comparison, of an arithmetic operation or of a null test.
-/
namespace Quarry.Sql

variable {style : Style}

/-! The scope of a negation -/

def isNegation : Expr → Bool
  | .unary .not _ => true
  | _ => false

/-- A comparison, an arithmetic operation or a null test with a negation written before it, which
takes it in. -/
def isCaptured : Expr → Bool
  | .binary (.comparison op) l r =>
    match amountsTo? op l r with
    | some test => isNegation (test.operand l r)
    | none => isNegation l
  | .binary (.arithmetic .mod) _ _ => false
  | .binary (.arithmetic _) l _ => isNegation l
  | _ => false

theorem negations_regrouped (e : Expr) :
    (regrouped style e).negations = 0 ↔ isNegation e = false := by
  cases e with
  | unary op e => cases op <;> simp [regrouped, isNegation]
  | binary op l r =>
      refine iff_of_true ?_ rfl
      cases op with
      | logical op => rfl
      | comparison op =>
          rw [regrouped]
          split <;> rfl
      | arithmetic op => cases op <;> rfl
  | _ => exact iff_of_true rfl rfl

@[simp] theorem whole_core (tree : Tree) : (Phrase.mk 0 tree).whole = tree := rfl

/-- What binds an operand is read around it alone if no negation stands before the operand;
otherwise the outermost thing that is read is a negation. -/
theorem under_eq_iff {p : Phrase} {f : Tree → Tree} {tree : Tree}
    (htree : ∀ t, .negation t ≠ tree) :
    p.under f = tree ↔ p.negations = 0 ∧ f p.whole = tree := by
  obtain ⟨n, core⟩ := p
  cases n with
  | zero => exact (and_iff_right rfl).symm
  | succ n =>
      refine iff_of_false (htree _) ?_
      rintro ⟨⟨⟩, -⟩

theorem under_eq_operation_iff {p : Phrase} {op : Operation} {l r r' : Tree} :
    p.under (.operation op · r) = .operation op l r' ↔ p.negations = 0 ∧ p.whole = l ∧ r = r' := by
  rw [under_eq_iff (fun t => Tree.noConfusion), Tree.operation.injEq, and_iff_right rfl]

theorem under_eq_nullTest_iff {p : Phrase} {negated : Bool} {t : Tree} :
    p.under (.nullTest negated) = .nullTest negated t ↔ p.negations = 0 ∧ p.whole = t := by
  rw [under_eq_iff (fun t => Tree.noConfusion), Tree.nullTest.injEq, and_iff_right rfl]

theorem intended_arithmetic {op : Arithmetic} (hop : op ≠ .mod) (l r : Expr) :
    intended style (.binary (.arithmetic op) l r) =
      .operation (arithmeticOperation op l r) (intended style l) (intended style r) := by
  rw [intended]
  exact hop

theorem isCaptured_arithmetic {op : Arithmetic} (hop : op ≠ .mod) (l r : Expr) :
    isCaptured (.binary (.arithmetic op) l r) = isNegation l := by
  rw [isCaptured]
  exact hop

/-- A null test is one of a comparison whose other operand is a null constant. -/
theorem isNullConstant_of_amountsTo {op : Comparison} {l r : Expr} {test : NullTest}
    (h : amountsTo? op l r = some test) : isNullConstant (test.operand r l) := by
  unfold amountsTo? at h
  split at h
  next hr => exact Option.some.inj h ▸ hr
  next hl _ => exact Option.some.inj h ▸ hl
  next hr => exact Option.some.inj h ▸ hr
  next hl _ => exact Option.some.inj h ▸ hl
  next => cases h

theorem regrouped_of_isNullConstant {e : Expr} (h : isNullConstant e) :
    (regrouped style e).whole = intended style e := by
  cases e with
  | constant => rfl
  | _ => cases h

/-- No negation takes in more than its operand. -/
def KeepsScopes (e : Expr) : Prop := ∀ x ∈ e.nodes, isCaptured x = false

theorem keepsScopes_not_iff {e : Expr} : KeepsScopes (.unary .not e) ↔ KeepsScopes e := by
  simp only [KeepsScopes, Expr.forall_mem_nodes (e := .unary .not e), Expr.children,
    List.mem_singleton, forall_eq]
  exact and_iff_right rfl

theorem keepsScopes_binary_iff {op : BinaryOperator} {l r : Expr} :
    KeepsScopes (.binary op l r) ↔
      isCaptured (.binary op l r) = false ∧ KeepsScopes l ∧ KeepsScopes r := by
  simp only [KeepsScopes, Expr.forall_mem_nodes (e := .binary op l r), Expr.children,
    List.mem_cons, List.not_mem_nil, or_false, forall_eq_or_imp, forall_eq]

/-- A condition is read back as intended exactly if every negation keeps its scope. -/
theorem regrouped_eq_intended_iff {e : Expr} (he : IsCondition style e) :
    (regrouped style e).whole = intended style e ↔ KeepsScopes e := by
  induction he with
  | column | null | int32 | int64 | text =>
      refine iff_of_true rfl ?_
      rw [KeepsScopes, Expr.forall_mem_nodes]
      exact ⟨rfl, by simp [Expr.children]⟩
  | @not e he ih =>
      have hwhole : (regrouped style (.unary .not e)).whole = .negation (regrouped style e).whole :=
        rfl
      rw [keepsScopes_not_iff, ← ih, hwhole, intended, Tree.negation.injEq]
  | @binary op l r hl hr ihl ihr =>
      rw [keepsScopes_binary_iff, ← ihl, ← ihr]
      cases op with
      | logical op =>
          rw [regrouped, intended, whole_core, Tree.operation.injEq, and_iff_right rfl]
          exact (and_iff_right rfl).symm
      | comparison op =>
          simp only [regrouped, intended, isCaptured]
          cases htest : amountsTo? op l r with
          | none => rw [whole_core, under_eq_operation_iff, negations_regrouped]
          | some test =>
              -- the other operand, null, is read as intended in any case
              have hother : (regrouped style (test.operand r l)).whole = _ :=
                regrouped_of_isNullConstant (isNullConstant_of_amountsTo htest)
              dsimp only
              rw [test.forall_operands fun x => (regrouped style x).whole = intended style x,
                and_iff_left hother, whole_core, ← test.operand_map (regrouped style),
                ← test.operand_map (intended style), under_eq_nullTest_iff, negations_regrouped]
      | arithmetic op =>
          by_cases hop : op = .mod
          · subst hop
            rw [regrouped, intended, whole_core, Tree.modulo.injEq]
            exact (and_iff_right rfl).symm
          · rw [regrouped_arithmetic hop, intended_arithmetic hop, isCaptured_arithmetic hop,
              whole_core, under_eq_operation_iff, negations_regrouped]

/-- Every condition is written and read. A negation before the first operand of a comparison or of
an arithmetic operation, or before the operand of a null test, is read as the negation of it all,
and apart from these every negation is read with the operand that it has. -/
theorem negation_scope {e : Expr} (he : IsCondition style e) :
    ∃ t, predicateText style e = .ok t ∧ read t = some (regrouped style e).whole ∧
      (read t = some (intended style e) ↔ KeepsScopes e) := by
  obtain ⟨t, ht, hreads⟩ := reads_text he .predicate false
  have hread : read t = some (regrouped style e).whole := Clause.read hreads
  refine ⟨t, ht, hread, ?_⟩
  rw [hread, Option.some.injEq]
  exact regrouped_eq_intended_iff he

/-- Identifiers as they are declared. -/
def asDeclared : Style := { identifiers := .preserve }

def itemId : Expr := .column ⟨"t0", "Id", 0, .int32⟩

theorem isCondition_itemId : IsCondition asDeclared itemId := .column (by decide) (by decide)

/-- `NOT (t0.Id = -1) AND NOT t0.Id` -/
def negatedTwice : Expr :=
  .binary (.logical .and) (.unary .not (.binary (.comparison .eq) itemId (.literal (.int32 (-1)))))
    (.unary .not itemId)

theorem negation_scope_of_negatedTwice :
    IsCondition asDeclared negatedTwice ∧
    ∃ t, predicateText asDeclared negatedTwice = .ok t ∧
      read t = some (regrouped asDeclared negatedTwice).whole ∧
      (read t = some (intended asDeclared negatedTwice) ↔ KeepsScopes negatedTwice) := by
  have h : IsCondition asDeclared negatedTwice :=
    .binary _ (.not (.binary _ isCondition_itemId (.int32 _ _))) (.not isCondition_itemId)
  exact ⟨h, negation_scope h⟩

/-- A null test of a negation is read as the negation of a null test. -/
theorem negation_escapes_null_test :
    predicateText asDeclared (.binary (.comparison .eq) (.unary .not itemId) .null) =
      .ok "NOT t0.Id IS NULL" ∧
    read "NOT t0.Id IS NULL" = some (.negation (.nullTest false (.name "t0.Id"))) ∧
    intended asDeclared (.binary (.comparison .eq) (.unary .not itemId) .null) =
      .nullTest false (.negation (.name "t0.Id")) := by
  refine ⟨rfl, ?_, rfl⟩
  decide +kernel

/-! Conditions with the same text -/

/-- A letter, and then letters, digits and underscores. -/
def isIdentifier (s : String) : Bool :=
  match s.toList with
  | [] => false
  | c :: cs => c.isAlpha && cs.all fun c => c.isAlphanum || c = '_'

/-- Null, wide integers and texts. -/
def isBasic : Value → Bool
  | .null | .int64 _ | .text _ => true
  | _ => false

/-- Operations on qualified columns that hold no truth values, and on basic constants. -/
inductive IsFormula : Expr → Prop
  | column {c : Column} (htype : c.type ≠ .boolean) (hlabel : isIdentifier c.label)
      (hname : isIdentifier c.name) : IsFormula (.column c)
  | literal {v : Value} (h : isBasic v) : IsFormula (.literal v)
  | binary (op : BinaryOperator) {l r : Expr} (hl : IsFormula l) (hr : IsFormula r) :
      IsFormula (.binary op l r)

/-- Equal up to the ordinals and types of columns, and to the order of the operands of a comparison
with null that tests for equality. -/
inductive Same : Expr → Expr → Prop
  | column {c d : Column} (hlabel : c.label = d.label) (hname : c.name = d.name) :
      Same (.column c) (.column d)
  | constant (v : Value) (t : DataType) : Same (.constant v t) (.constant v t)
  | binary (op : BinaryOperator) {l l' r r' : Expr} (hl : Same l l') (hr : Same r r') :
      Same (.binary op l r) (.binary op l' r')
  | swapped {op : Comparison} {l l' r r' : Expr} (hop : op = .eq ∨ op = .ne)
      (hnull : isNullConstant l ∨ isNullConstant r) (hl : Same l l') (hr : Same r r') :
      Same (.binary (.comparison op) l r) (.binary (.comparison op) r' l')

theorem mem_identifier {s : String} (h : isIdentifier s) {c : Char} (hc : c ∈ s.toList) :
    c.isAlphanum ∨ c = '_' := by
  unfold isIdentifier at h
  split at h
  next => cases h
  next first rest hcs =>
    rw [hcs, List.mem_cons] at hc
    simp only [Bool.and_eq_true, List.all_eq_true, Bool.or_eq_true, decide_eq_true_eq] at h
    rcases hc with rfl | hc
    · exact .inl (by simp [Char.isAlphanum, h.1])
    · exact h.2 c hc

theorem identifier_ne_empty {s : String} (h : isIdentifier s) : s ≠ "" := by
  rintro rfl
  cases h

theorem point_notMem {s : String} (h : isIdentifier s) : '.' ∉ s.toList := fun hmem =>
  absurd (mem_identifier h hmem) (by decide)

theorem columnName_qualified (hcase : style.identifiers = .preserve) {c : Column}
    (hlabel : isIdentifier c.label) : columnName style c = c.label ++ "." ++ c.name := by
  have hident (s : String) : style.ident s = s := by rw [Style.ident, hcase]; rfl
  have hempty : c.label.isEmpty = false := by simpa using identifier_ne_empty hlabel
  rw [columnName, hempty, if_neg Bool.false_ne_true, hident, hident]

theorem toList_qualified (l n : String) : (l ++ "." ++ n).toList = l.toList ++ '.' :: n.toList := by
  simp

theorem isName_qualified {l n : String} (hl : isIdentifier l) (hn : isIdentifier n) :
    IsName (l ++ "." ++ n) := by
  have hpoint : '.' ∈ (l ++ "." ++ n).toList := by simp
  have hword {s : String} (hs : isIdentifier s) : s.toList.all isWordChar := by
    rw [List.all_eq_true]
    intro c hc
    rcases mem_identifier hs hc with hc | rfl
    · exact isWordChar_of_isAlphanum hc
    · decide
  refine ⟨?_, ?_, ?_⟩
  · intro hempty
    rw [hempty] at hpoint
    cases hpoint
  · rw [toList_qualified, List.all_append, List.all_cons, hword hl, hword hn]
    decide
  -- neither a keyword nor a number has a point in it
  · have hkeyword : keywords.lookup (l ++ "." ++ n) = none := by
      rw [List.lookup_eq_none_iff]
      intro p hp
      rw [bne_iff_ne]
      intro heq
      rw [heq] at hpoint
      have hall : keywords.all fun p => '.' ∉ p.1.toList := by decide
      exact of_decide_eq_true (List.all_eq_true.mp hall p hp) hpoint
    have hdigits : ¬(l ++ "." ++ n).toList.all Char.isDigit := fun hall =>
      absurd (List.all_eq_true.mp hall _ hpoint) (by decide)
    rw [wordToken, hkeyword, Option.getD_none, if_neg hdigits]

theorem IsFormula.isCondition (hcase : style.identifiers = .preserve) {e : Expr}
    (he : IsFormula e) : IsCondition style e := by
  induction he with
  | column htype hlabel hname =>
      exact .column htype (columnName_qualified hcase hlabel ▸ isName_qualified hlabel hname)
  | @literal v h =>
      cases v with
      | null => exact .null _
      | int64 n => exact .int64 n _
      | text s => exact .text s _
      | _ => cases h
  | binary op _ _ ihl ihr => exact .binary op ihl ihr

theorem isCaptured_eq_false {op : BinaryOperator} {l r : Expr} (hl : isNegation l = false)
    (hr : isNegation r = false) : isCaptured (.binary op l r) = false := by
  cases op with
  | logical op => rfl
  | comparison op =>
      rw [isCaptured]
      split
      next test _ =>
        unfold NullTest.operand
        split
        · exact hr
        · exact hl
      next => exact hl
  | arithmetic op =>
      cases op with
      | mod => rfl
      | add | sub | mul | div => exact hl

/-- Without negations all scopes are kept. -/
theorem IsFormula.keepsScopes {e : Expr} (he : IsFormula e) : KeepsScopes e := by
  have hnone {x : Expr} (hx : IsFormula x) : isNegation x = false := by cases hx <;> rfl
  induction he with
  | column | literal =>
      rw [KeepsScopes, Expr.forall_mem_nodes]
      exact ⟨rfl, by simp [Expr.children, Expr.literal]⟩
  | binary op hl hr ihl ihr =>
      exact keepsScopes_binary_iff.mpr ⟨isCaptured_eq_false (hnone hl) (hnone hr), ihl, ihr⟩

/-- The operator that an operation of the text stands for. -/
def Operation.operator : Operation → BinaryOperator
  | .logical op => .logical op
  | .comparison op => .comparison op
  | .arithmetic op => .arithmetic op
  | .concatenation => .arithmetic .add

def NullTest.comparison (test : NullTest) : Comparison := if test.negated then .ne else .eq

/-- What an operator and its operands are meant as. -/
inductive Shape (style : Style) (op : BinaryOperator) (l r : Expr) : Tree → Prop
  | operation {o : Operation} {tl tr : Tree} (hop : o.operator = op) (hl : intended style l = tl)
      (hr : intended style r = tr) : Shape style op l r (.operation o tl tr)
  | modulo {tl tr : Tree} (hop : .arithmetic .mod = op) (hl : intended style l = tl)
      (hr : intended style r = tr) : Shape style op l r (.modulo tl tr)
  | nullTest {negated : Bool} {t : Tree} (test : NullTest) (hnegated : test.negated = negated)
      (hop : .comparison test.comparison = op) (hnull : isNullConstant (test.operand r l))
      (ht : intended style (test.operand l r) = t) : Shape style op l r (.nullTest negated t)

theorem operator_arithmeticOperation (op : Arithmetic) (l r : Expr) :
    (arithmeticOperation op l r).operator = .arithmetic op := by
  unfold arithmeticOperation
  split
  · split <;> rfl
  · rfl

theorem comparison_of_amountsTo {op : Comparison} {l r : Expr} {test : NullTest}
    (h : amountsTo? op l r = some test) : test.comparison = op := by
  unfold amountsTo? at h
  split at h <;> cases h <;> rfl

theorem shape_intended (op : BinaryOperator) (l r : Expr) :
    Shape style op l r (intended style (.binary op l r)) := by
  cases op with
  | logical op => exact .operation rfl rfl rfl
  | comparison op =>
      rw [intended]
      split
      next test htest =>
        exact .nullTest test rfl (congrArg _ (comparison_of_amountsTo htest))
          (isNullConstant_of_amountsTo htest) (test.operand_map (intended style) l r)
      next => exact .operation rfl rfl rfl
  | arithmetic op =>
      by_cases hop : op = .mod
      · subst hop
        exact .modulo rfl rfl rfl
      · rw [intended_arithmetic hop]
        exact .operation (operator_arithmeticOperation op l r) rfl rfl

theorem numberTree_injective {n m : Int} (h : numberTree n = numberTree m) : n = m := by
  have hrepr {a b : Nat} (h : Tree.number a.repr = .number b.repr) : a = b :=
    Nat.repr_injective (Tree.number.inj h)
  unfold numberTree at h
  split at h
  next hn =>
    split at h
    next hm =>
      have habs := hrepr (Tree.negative.inj h)
      omega
    next => cases h
  next hn =>
    split at h
    next => cases h
    next hm =>
      have habs := hrepr h
      omega

theorem literalTree_injective {v w : Value} (hv : isBasic v) (hw : isBasic w)
    (h : literalTree v = literalTree w) : v = w := by
  have hnumber (n : Int) (t : Tree) (ht : ∀ d, t ≠ .number d) (ht' : ∀ u, t ≠ .negative u) :
      numberTree n ≠ t := by
    unfold numberTree
    split
    · exact fun h => ht' _ h.symm
    · exact fun h => ht _ h.symm
  cases v with
  | null =>
      cases w with
      | null => rfl
      | int64 m => exact absurd h.symm (hnumber _ _ (by simp [literalTree]) (by simp [literalTree]))
      | text s => cases h
      | _ => cases hw
  | int64 n =>
      cases w with
      | int64 m => exact congrArg _ (Int64.toInt_inj.mp (numberTree_injective h))
      | null | text => exact absurd h (hnumber _ _ (by simp [literalTree]) (by simp [literalTree]))
      | _ => cases hw
  | text s =>
      cases w with
      | null => cases h
      | int64 m => exact absurd h.symm (hnumber _ _ (by simp [literalTree]) (by simp [literalTree]))
      | text s' => exact congrArg _ (Tree.text.inj h)
      | _ => cases hw
  | _ => cases hv

/-- The trees of columns and constants. -/
def Tree.isAtom : Tree → Bool
  | .operation .. | .modulo .. | .nullTest .. => false
  | _ => true

theorem isAtom_literalTree (v : Value) : (literalTree v).isAtom := by
  have hnumber (n : Int) : (numberTree n).isAtom := by
    unfold numberTree
    split <;> rfl
  cases v with
  | int32 n => exact hnumber _
  | int64 n => exact hnumber _
  | _ => rfl

theorem intended_binary_ne (op : BinaryOperator) (l r : Expr) {t : Tree} (ht : t.isAtom) :
    intended style (.binary op l r) ≠ t := by
  have hshape : Shape style op l r _ := shape_intended op l r
  generalize intended style (.binary op l r) = tree at hshape
  rintro rfl
  cases hshape <;> cases ht

theorem name_ne_literalTree (n : String) (v : Value) : .name n ≠ literalTree v := by
  have hnumber (m : Int) : .name n ≠ numberTree m := by
    unfold numberTree
    split <;> exact Tree.noConfusion
  cases v with
  | int32 m => exact hnumber _
  | int64 m => exact hnumber _
  | _ => exact Tree.noConfusion

theorem literal_of_isNullConstant {e : Expr} (he : IsFormula e) (h : isNullConstant e) :
    e = .literal .null := by
  cases he with
  | @literal v hv =>
      cases v with
      | null => rfl
      | _ => cases h
  | _ => cases h

/-- Null tests of operands that are the same are the same, whichever side has the null. -/
theorem Same.nullTest {test test' : NullTest} {l r l' r' : Expr}
    (hnegated : test.negated = test'.negated) (hnull : isNullConstant (test.operand r l))
    (hoperand : Same (test.operand l r) (test'.operand l' r'))
    (hother : Same (test.operand r l) (test'.operand r' l')) :
    Same (.binary (.comparison test.comparison) l r)
      (.binary (.comparison test'.comparison) l' r') := by
  have hop : test.comparison = .eq ∨ test.comparison = .ne := by
    unfold NullTest.comparison
    split
    · exact .inr rfl
    · exact .inl rfl
  have hsame : test'.comparison = test.comparison := by
    rw [NullTest.comparison, NullTest.comparison, hnegated]
  rw [hsame]
  obtain ⟨negated, ofSecond⟩ := test
  obtain ⟨negated', ofSecond'⟩ := test'
  cases ofSecond <;> cases ofSecond'
  · exact .binary _ hoperand hother
  · exact .swapped hop (.inr hnull) hoperand hother
  · exact .swapped hop (.inl hnull) hother hoperand
  · exact .binary _ hother hoperand

/-- Formulas that are meant alike are the same. -/
theorem same_of_intended (hcase : style.identifiers = .preserve) {e e' : Expr} (he : IsFormula e)
    (he' : IsFormula e') (h : intended style e = intended style e') : Same e e' := by
  induction he generalizing e' with
  | @column c htype hlabel hname =>
      cases he' with
      | @column d htype' hlabel' hname' =>
          have hnames : c.label ++ "." ++ c.name = d.label ++ "." ++ d.name := by
            rw [← columnName_qualified hcase hlabel, ← columnName_qualified hcase hlabel']
            exact Tree.name.inj h
          have hlists := congrArg String.toList hnames
          rw [toList_qualified, toList_qualified,
            List.append_cons_inj_of_notMem (point_notMem hlabel) (point_notMem hname)] at hlists
          exact .column (String.toList_inj.mp hlists.1) (String.toList_inj.mp hlists.2.2)
      | literal hv => exact absurd h (name_ne_literalTree _ _)
      | binary op _ _ => exact absurd h.symm (intended_binary_ne op _ _ rfl)
  | @literal v hv =>
      cases he' with
      | column => exact absurd h.symm (name_ne_literalTree _ _)
      | literal hw =>
          obtain rfl := literalTree_injective hv hw h
          exact .constant _ _
      | binary op _ _ => exact absurd h.symm (intended_binary_ne op _ _ (isAtom_literalTree v))
  | @binary op l r hl hr ihl ihr =>
      cases he' with
      | column => exact absurd h (intended_binary_ne op l r rfl)
      | literal => exact absurd h (intended_binary_ne op l r (isAtom_literalTree _))
      | @binary op' l' r' hl' hr' =>
          have hshape : Shape style op l r _ := shape_intended op l r
          have hshape' : Shape style op' l' r' _ := shape_intended op' l' r'
          rw [h] at hshape
          generalize intended style (.binary op' l' r') = tree at hshape hshape'
          cases hshape with
          | operation hop htl htr =>
              cases hshape' with
              | operation hop' htl' htr' =>
                  obtain rfl := hop.symm.trans hop'
                  exact .binary op (ihl hl' (htl.trans htl'.symm)) (ihr hr' (htr.trans htr'.symm))
          | modulo hop htl htr =>
              cases hshape' with
              | modulo hop' htl' htr' =>
                  obtain rfl := hop.symm.trans hop'
                  exact .binary op (ihl hl' (htl.trans htl'.symm)) (ihr hr' (htr.trans htr'.symm))
          | nullTest test hnegated hop hnull ht =>
              cases hshape' with
              | nullTest test' hnegated' hop' hnull' ht' =>
                  obtain ⟨-, hformula⟩ := (test.forall_operands IsFormula).mp ⟨hl, hr⟩
                  obtain ⟨hformula', hformula''⟩ := (test'.forall_operands IsFormula).mp ⟨hl', hr'⟩
                  have hother := literal_of_isNullConstant hformula hnull
                  have hother' := literal_of_isNullConstant hformula'' hnull'
                  subst hop hop'
                  refine .nullTest (hnegated.trans hnegated'.symm) hnull ?_ ?_
                  · exact ((test.forall_operands fun x => ∀ y, IsFormula y →
                      intended style x = intended style y → Same x y).mp
                      ⟨fun _ => ihl, fun _ => ihr⟩).1 _ hformula' (ht.trans ht'.symm)
                  · rw [hother, hother']
                    exact .constant _ _

/-- The text of a formula determines it. -/
theorem text_determines_formula (hcase : style.identifiers = .preserve) {e e' : Expr}
    (he : IsFormula e) (he' : IsFormula e')
    (h : predicateText style e = predicateText style e' ∨ format style e = format style e') :
    Same e e' := by
  have hread {x : Expr} (hx : IsFormula x) (position : Position) :
      ∃ t, text style position false x = .ok t ∧ read t = some (intended style x) := by
    have hcondition := hx.isCondition hcase
    obtain ⟨t, ht, hreads⟩ := reads_text hcondition position false
    rw [← (regrouped_eq_intended_iff hcondition).mpr hx.keepsScopes]
    exact ⟨t, ht, Clause.read hreads⟩
  have hformat {x : Expr} (hx : IsFormula x) : format style x = text style .scalar false x := by
    cases hx <;> rfl
  obtain ⟨position, htext⟩ :
      ∃ position, text style position false e = text style position false e' := by
    rcases h with h | h
    · exact ⟨.predicate, h⟩
    · rw [hformat he, hformat he'] at h
      exact ⟨.scalar, h⟩
  obtain ⟨t, ht, htree⟩ := hread he position
  obtain ⟨t', ht', htree'⟩ := hread he' position
  have hsame : t = t' := Except.ok.inj (ht.symm.trans (htext.trans ht'))
  subst hsame
  exact same_of_intended hcase he he' (Option.some.inj (htree.symm.trans htree'))

/-- `t0.Id IS NULL`, with the null on one side and on the other. -/
theorem text_determines_formula_of_nullTest :
    predicateText asDeclared (.binary (.comparison .eq) itemId (.literal .null)) =
      predicateText asDeclared
        (.binary (.comparison .eq) (.literal .null) (.column ⟨"t0", "Id", 3, .text⟩)) ∧
    Same (.binary (.comparison .eq) itemId (.literal .null))
      (.binary (.comparison .eq) (.literal .null) (.column ⟨"t0", "Id", 3, .text⟩)) := by
  have hnull : IsFormula (.literal .null) := .literal rfl
  have hfirst : IsFormula itemId := .column (by decide) (by decide) (by decide)
  have hsecond : IsFormula (.column ⟨"t0", "Id", 3, .text⟩) :=
    .column (by decide) (by decide) (by decide)
  have htext : predicateText asDeclared (.binary (.comparison .eq) itemId (.literal .null)) =
      predicateText asDeclared
        (.binary (.comparison .eq) (.literal .null) (.column ⟨"t0", "Id", 3, .text⟩)) := rfl
  exact ⟨htext, text_determines_formula rfl (.binary _ hfirst hnull) (.binary _ hnull hsecond)
    (.inl htext)⟩

end Quarry.Sql
