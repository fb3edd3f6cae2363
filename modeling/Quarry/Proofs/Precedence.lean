import Quarry.Proofs.Tokens
import Quarry.Proofs.Traversal
/-!
Reading of conditions. A text is read by the strength of its operators: parentheses group, a sign
binds tightest, then arithmetic and concatenation, then comparisons and null tests, then negation,
conjunction and disjunction. The parts of a text that are not yet complete are kept on a stack. What
is written of a condition is read part by part, and only a negation may reach further than it
should.
-/
namespace Quarry.Sql

/-! Reading -/

/-- What a condition is read as. -/
inductive Tree where
  | name (n : String)
  | number (digits : String)
  | text (payload : String)
  | null
  | negative (t : Tree)
  | negation (t : Tree)
  | nullTest (negated : Bool) (t : Tree)
  | modulo (l r : Tree)
  | operation (op : Operation) (l r : Tree)
  deriving DecidableEq

def Operation.strength : Operation → Nat
  | .logical .or => 1
  | .logical .and => 2
  | .comparison _ => 4
  | .arithmetic .add | .arithmetic .sub | .concatenation => 5
  | .arithmetic _ => 6

/-- A part that waits for what follows it. -/
inductive Frame where
  | negation
  | negative
  | left (t : Tree) (op : Operation)
  /-- An open parenthesis. -/
  | group
  /-- The first and the second argument of a remainder. -/
  | first
  | second (t : Tree)

/-- How tightly a part binds what follows; an open parenthesis waits to be closed. -/
def Frame.strength? : Frame → Option Nat
  | .negation => some 3
  | .negative => some 7
  | .left _ op => some op.strength
  | _ => none

def Frame.complete : Frame → Tree → Tree
  | .negation, t => .negation t
  | .negative, t => .negative t
  | .left l op, t => .operation op l t
  | _, t => t

/-- Completes the parts that bind at least as tightly as what comes next. -/
def reduce (least : Nat) : List Frame → Tree → List Frame × Tree
  | [], t => ([], t)
  | f :: fs, t =>
    if f.strength?.any (least ≤ ·) then reduce least fs (f.complete t) else (f :: fs, t)

def Token.operand? : Token → Option Tree
  | .name n => some (.name n)
  | .number digits => some (.number digits)
  | .text payload => some (.text payload)
  | .null => some .null
  | _ => none

/-- Reads on after an operand, if there is one. -/
def readFrom : List Frame → Option Tree → List Token → Option Tree
  | _, none, [] => none
  | fs, none, .opening :: ts => readFrom (.group :: fs) none ts
  | fs, none, .modulo :: .opening :: ts => readFrom (.first :: fs) none ts
  | fs, none, .not :: ts => readFrom (.negation :: fs) none ts
  -- a sign binds tightest, so with a number it is complete at once
  | fs, none, .operation (.arithmetic .sub) :: .number digits :: ts =>
    readFrom fs (some (.negative (.number digits))) ts
  | fs, none, .operation (.arithmetic .sub) :: ts => readFrom (.negative :: fs) none ts
  | fs, none, token :: ts => token.operand?.bind fun t => readFrom fs (some t) ts
  | fs, some t, [] =>
    match reduce 0 fs t with
    | ([], t) => some t
    | _ => none
  | fs, some t, .is :: .null :: ts =>
    readFrom (reduce 4 fs t).1 (some (.nullTest false (reduce 4 fs t).2)) ts
  | fs, some t, .is :: .not :: .null :: ts =>
    readFrom (reduce 4 fs t).1 (some (.nullTest true (reduce 4 fs t).2)) ts
  | fs, some t, .closing :: ts =>
    match reduce 0 fs t with
    | (.group :: fs, t) => readFrom fs (some t) ts
    | (.second l :: fs, t) => readFrom fs (some (.modulo l t)) ts
    | _ => none
  | fs, some t, .comma :: ts =>
    match reduce 0 fs t with
    | (.first :: fs, t) => readFrom (.second t :: fs) none ts
    | _ => none
  | fs, some t, .operation op :: ts =>
    readFrom (.left (reduce op.strength fs t).2 op :: (reduce op.strength fs t).1) none ts
  | _, some _, _ => none

/-- Reads the text of a condition. -/
def read (text : String) : Option Tree := (tokens text).bind (readFrom [] none)

/-! Phrases -/

/-- Nothing that waits can be completed yet. -/
def Closed (fs : List Frame) : Prop := fs.head?.all (·.strength?.isNone)

theorem reduce_closed {fs : List Frame} (h : Closed fs) (least : Nat) (t : Tree) :
    reduce least fs t = (fs, t) := by
  cases fs with
  | nil => rfl
  | cons f fs =>
      have hf : f.strength? = none := by simpa [Closed] using h
      rw [reduce, hf]
      rfl

def negations : Nat → Tree → Tree
  | 0, t => t
  | n + 1, t => .negation (negations n t)

theorem negations_succ (n : Nat) (t : Tree) : negations (n + 1) t = negations n (.negation t) := by
  induction n with
  | zero => rfl
  | succ n ih => rw [negations, ih, negations]

/-- Negations are completed by what binds less tightly. -/
theorem reduce_negations {least : Nat} (h : least ≤ 3) (n : Nat) (fs : List Frame) (t : Tree) :
    reduce least (List.replicate n .negation ++ fs) t = reduce least fs (negations n t) := by
  induction n generalizing t with
  | zero => rfl
  | succ n ih =>
      have hstrength : Frame.negation.strength?.any (least ≤ ·) := by
        simpa [Frame.strength?] using h
      rw [List.replicate_succ, List.cons_append, reduce, if_pos hstrength, ih, negations_succ]
      rfl

/-- Negations wait for what binds more tightly. -/
theorem reduce_waiting {least : Nat} (h : 3 < least) (n : Nat) {fs : List Frame} (hfs : Closed fs)
    (t : Tree) :
    reduce least (List.replicate n .negation ++ fs) t = (List.replicate n .negation ++ fs, t) := by
  cases n with
  | zero => exact reduce_closed hfs least t
  | succ n =>
      have hstrength : ¬Frame.negation.strength?.any (least ≤ ·) := by
        simpa [Frame.strength?] using h
      rw [List.replicate_succ, List.cons_append, reduce, if_neg hstrength]

/-- A text that is read as an operand with a number of negations before it. -/
def Operand (t : String) (n : Nat) (tree : Tree) : Prop :=
  ∃ ts, Lexes t ts ∧ ∀ fs rest,
    readFrom fs none (ts ++ rest) = readFrom (List.replicate n .negation ++ fs) (some tree) rest

/-- A text that is read as a whole, once it is known where it ends. -/
def Clause (t : String) (tree : Tree) : Prop :=
  ∃ ts, Lexes t ts ∧ ∀ fs rest, Closed fs → ∃ fs' last,
    readFrom fs none (ts ++ rest) = readFrom fs' (some last) rest ∧ reduce 0 fs' last = (fs, tree)

theorem Clause.read {t : String} {tree : Tree} (h : Clause t tree) : read t = some tree := by
  obtain ⟨ts, hlexes, hreads⟩ := h
  obtain ⟨fs, last, hread, hreduce⟩ := hreads [] [] rfl
  rw [List.append_nil] at hread
  rw [Sql.read, hlexes.tokens, Option.bind_some, hread, readFrom, hreduce]

namespace Operand

variable {s t u : String} {n m : Nat} {tree l r : Tree}

theorem clause (h : Operand t n tree) : Clause t (negations n tree) := by
  obtain ⟨ts, hlexes, hreads⟩ := h
  refine ⟨ts, hlexes, fun fs rest hfs => ⟨_, _, hreads fs rest, ?_⟩⟩
  rw [reduce_negations (by decide), reduce_closed hfs]

theorem token {token : Token} (hlexes : Lexes t [token]) (htoken : token.operand? = some tree) :
    Operand t 0 tree := by
  refine ⟨_, hlexes, fun fs rest => ?_⟩
  cases token with
  | name | number | text | null =>
      cases htoken
      rfl
  | _ => cases htoken

theorem negation (h : Operand t n tree) : Operand ("NOT " ++ t) (n + 1) tree := by
  obtain ⟨ts, hlexes, hreads⟩ := h
  refine ⟨_, hlexes.prepend opens_not, fun fs rest => ?_⟩
  have hreplicate : List.replicate (n + 1) Frame.negation ++ fs =
      List.replicate n .negation ++ .negation :: fs := by
    rw [List.replicate_succ', List.append_assoc]
    rfl
  rw [hreplicate]
  exact hreads (.negation :: fs) rest

/-- A text in parentheses is an operand. -/
theorem wrap (h : Clause t tree) : Operand ("(" ++ t ++ ")") 0 tree := by
  obtain ⟨ts, hlexes, hreads⟩ := h
  have htext := (hlexes.prepend opens_opening).append opens_closing.lexes (by decide)
  refine ⟨_, htext, fun fs rest => ?_⟩
  obtain ⟨fs', last, hread, hreduce⟩ := hreads (.group :: fs) (.closing :: rest) rfl
  rw [List.append_assoc, List.append_assoc]
  refine hread.trans ?_
  rw [readFrom, hreduce]
  rfl

theorem modulo (hl : Clause t l) (hr : Clause u r) :
    Operand ("MOD(" ++ t ++ ", " ++ u ++ ")") 0 (.modulo l r) := by
  obtain ⟨ts, htlexes, htreads⟩ := hl
  obtain ⟨us, hulexes, hureads⟩ := hr
  have hargs := (htlexes.between opens_comma (by decide) hulexes).append opens_closing.lexes
    (by decide)
  have htext := lexes_modulo.append (hargs.prepend opens_opening) (Leads.append (by decide) _)
  have hsame : "MOD" ++ ("(" ++ (t ++ ", " ++ u ++ ")")) = "MOD(" ++ t ++ ", " ++ u ++ ")" := by
    rw [← String.append_assoc, ← String.append_assoc, ← String.append_assoc, ← String.append_assoc]
    rfl
  refine ⟨_, hsame ▸ htext, fun fs rest => ?_⟩
  obtain ⟨fs₁, last₁, hread₁, hreduce₁⟩ :=
    htreads (.first :: fs) (.comma :: (us ++ .closing :: rest)) rfl
  obtain ⟨fs₂, last₂, hread₂, hreduce₂⟩ := hureads (.second l :: fs) (.closing :: rest) rfl
  have htokens : [Token.modulo] ++ ([.opening] ++ (ts ++ ([.comma] ++ us) ++ [.closing])) ++ rest =
      .modulo :: .opening :: (ts ++ .comma :: (us ++ .closing :: rest)) := by simp
  rw [htokens, readFrom, hread₁, readFrom, hreduce₁]
  refine hread₂.trans ?_
  rw [readFrom, hreduce₂]
  rfl

end Operand

namespace Clause

variable {name s t u : String} {n m : Nat} {l r : Tree} {op : Operation}

/-- An operation is read up to its second operand; how far its first operand reaches is a matter of
strength. -/
theorem read_operation (hname : Opens (" " ++ name ++ " ") [.operation op]) (hl : Operand t n l)
    (hr : Operand u m r) : ∃ ts, Lexes (t ++ " " ++ name ++ " " ++ u) ts ∧ ∀ fs rest,
      readFrom fs none (ts ++ rest) = readFrom (List.replicate m .negation ++
        .left (reduce op.strength (List.replicate n .negation ++ fs) l).2 op ::
          (reduce op.strength (List.replicate n .negation ++ fs) l).1) (some r) rest := by
  obtain ⟨ts, htlexes, htreads⟩ := hl
  obtain ⟨us, hulexes, hureads⟩ := hr
  have hlead : Leads (" " ++ name ++ " ") := Leads.append (Leads.append (by decide) name) " "
  have hspaces : t ++ " " ++ name ++ " " ++ u = t ++ (" " ++ name ++ " ") ++ u := by
    simp only [String.append_assoc]
  rw [hspaces]
  refine ⟨_, htlexes.between hname hlead hulexes, fun fs rest => ?_⟩
  rw [List.append_assoc, htreads]
  exact hureads _ rest

/-- An operation that binds less tightly than negation leaves the negations to its operands. -/
theorem weak (hop : op.strength ≤ 3) (hname : Opens (" " ++ name ++ " ") [.operation op])
    (hl : Operand t n l) (hr : Operand u m r) :
    Clause (t ++ " " ++ name ++ " " ++ u) (.operation op (negations n l) (negations m r)) := by
  obtain ⟨ts, hlexes, hreads⟩ := read_operation hname hl hr
  refine ⟨ts, hlexes, fun fs rest hfs => ⟨_, _, hreads fs rest, ?_⟩⟩
  rw [reduce_negations (by decide), reduce_negations hop, reduce_closed hfs]
  exact reduce_closed hfs 0 _

/-- The negations before the first operand of a tighter operation take in the whole operation. -/
theorem strong (hop : 3 < op.strength) (hname : Opens (" " ++ name ++ " ") [.operation op])
    (hl : Operand t n l) (hr : Operand u m r) :
    Clause (t ++ " " ++ name ++ " " ++ u) (negations n (.operation op l (negations m r))) := by
  obtain ⟨ts, hlexes, hreads⟩ := read_operation hname hl hr
  refine ⟨ts, hlexes, fun fs rest hfs => ⟨_, _, hreads fs rest, ?_⟩⟩
  rw [reduce_negations (by decide), reduce_waiting hop n hfs]
  exact (reduce_negations (by decide) n fs _).trans (reduce_closed hfs 0 _)

/-- So do the negations before the operand of a null test. -/
theorem tested {tokens : List Token} {negated : Bool} (hs : Lexes s tokens) (hlead : Leads s)
    (htokens : ∀ fs rest, readFrom fs (some l) (tokens ++ rest) =
      readFrom (reduce 4 fs l).1 (some (.nullTest negated (reduce 4 fs l).2)) rest)
    (hl : Operand t n l) : Clause (t ++ s) (negations n (.nullTest negated l)) := by
  obtain ⟨ts, hlexes, hreads⟩ := hl
  refine ⟨_, hlexes.append hs hlead, fun fs rest hfs => ?_⟩
  refine ⟨_, _, ?_, (reduce_negations (by decide) n fs _).trans (reduce_closed hfs 0 _)⟩
  rw [List.append_assoc, hreads, htokens, reduce_waiting (by decide) n hfs]

end Clause

/-! Conditions -/

/-- A text that is read back as a name. -/
def IsName (s : String) : Prop := s ≠ "" ∧ s.toList.all isWordChar ∧ wordToken s = .name s

instance (s : String) : Decidable (IsName s) := inferInstanceAs (Decidable (_ ∧ _ ∧ _))

/-- Conditions over columns that hold no truth values, null, integers and texts, with the columns
written as names. -/
inductive IsCondition (style : Style) : Expr → Prop
  | column {c : Column} (htype : c.type ≠ .boolean) (hname : IsName (columnName style c)) :
      IsCondition style (.column c)
  | null (t : DataType) : IsCondition style (.constant .null t)
  | int32 (n : Int32) (t : DataType) : IsCondition style (.constant (.int32 n) t)
  | int64 (n : Int64) (t : DataType) : IsCondition style (.constant (.int64 n) t)
  | text (s : String) (t : DataType) : IsCondition style (.constant (.text s) t)
  | not {e : Expr} (h : IsCondition style e) : IsCondition style (.unary .not e)
  | binary (op : BinaryOperator) {l r : Expr} (hl : IsCondition style l)
      (hr : IsCondition style r) : IsCondition style (.binary op l r)

def numberTree (n : Int) : Tree :=
  if n < 0 then .negative (.number n.natAbs.repr) else .number n.natAbs.repr

def literalTree : Value → Tree
  | .int32 n => numberTree n.toInt
  | .int64 n => numberTree n.toInt
  | .text s => .text s
  | _ => .null

/-- An addition of texts is a concatenation. -/
def arithmeticOperation (op : Arithmetic) (l r : Expr) : Operation :=
  match op with
  | .add => if isText l || isText r then .concatenation else .arithmetic .add
  | op => .arithmetic op

/-- A null test, of the first or of the second operand of a comparison. -/
structure NullTest where
  negated : Bool
  ofSecond : Bool

def NullTest.operand {α : Type} (test : NullTest) (l r : α) : α := if test.ofSecond then r else l

theorem NullTest.operand_map {α β : Type} (test : NullTest) (f : α → β) (a b : α) :
    f (test.operand a b) = test.operand (f a) (f b) := by
  unfold NullTest.operand
  split <;> rfl

/-- The operands of a comparison are the one that is tested and the other one. -/
theorem NullTest.forall_operands {α : Type} {a b : α} (test : NullTest) (P : α → Prop) :
    P a ∧ P b ↔ P (test.operand a b) ∧ P (test.operand b a) := by
  unfold NullTest.operand
  split
  · exact and_comm
  · exact Iff.rfl

def NullTest.text (test : NullTest) : String :=
  if test.negated then " IS NOT NULL" else " IS NULL"

theorem Clause.nullTest {t : String} {n : Nat} {l : Tree} (test : NullTest) (hl : Operand t n l) :
    Clause (t ++ test.text) (negations n (.nullTest test.negated l)) := by
  unfold NullTest.text
  split
  next h =>
    rw [h]
    exact .tested lexes_isNotNull (by decide) (fun _ _ => rfl) hl
  next h =>
    rw [Bool.eq_false_iff.mpr h]
    exact .tested lexes_isNull (by decide) (fun _ _ => rfl) hl

/-- The null test that a comparison with a null constant amounts to. -/
def amountsTo? (op : Comparison) (l r : Expr) : Option NullTest :=
  match op, isNullConstant l, isNullConstant r with
  | .eq, _, true => some ⟨false, false⟩
  | .eq, true, false => some ⟨false, true⟩
  | .ne, _, true => some ⟨true, false⟩
  | .ne, true, false => some ⟨true, true⟩
  | _, _, _ => none

/-- The structure of a condition, in which a negation has the operand that it is given. -/
def intended (style : Style) : Expr → Tree
  | .constant v _ => literalTree v
  | .column c => .name (columnName style c)
  | .unary .not e => .negation (intended style e)
  | .binary (.logical op) l r => .operation (.logical op) (intended style l) (intended style r)
  | .binary (.comparison op) l r =>
    match amountsTo? op l r with
    | some test => .nullTest test.negated (test.operand (intended style l) (intended style r))
    | none => .operation (.comparison op) (intended style l) (intended style r)
  | .binary (.arithmetic .mod) l r => .modulo (intended style l) (intended style r)
  | .binary (.arithmetic op) l r =>
    .operation (arithmeticOperation op l r) (intended style l) (intended style r)
  | _ => .null

/-- An operand with the negations that stand before it. -/
structure Phrase where
  negations : Nat
  core : Tree

namespace Phrase

def whole (p : Phrase) : Tree := Sql.negations p.negations p.core

/-- The operand under what binds it more tightly than the negations before it. -/
def under (p : Phrase) (f : Tree → Tree) : Tree := Sql.negations p.negations (f p.core)

end Phrase

/-- What the text of a condition is read as. Negations take in a comparison, an arithmetic operation
or a null test that follows their operand. -/
def regrouped (style : Style) : Expr → Phrase
  | .constant v _ => ⟨0, literalTree v⟩
  | .column c => ⟨0, .name (columnName style c)⟩
  | .unary .not e => ⟨(regrouped style e).negations + 1, (regrouped style e).core⟩
  | .binary (.logical op) l r =>
    ⟨0, .operation (.logical op) (regrouped style l).whole (regrouped style r).whole⟩
  | .binary (.comparison op) l r =>
    match amountsTo? op l r with
    | some test =>
      ⟨0, (test.operand (regrouped style l) (regrouped style r)).under (.nullTest test.negated)⟩
    | none => ⟨0, (regrouped style l).under
        (.operation (.comparison op) · (regrouped style r).whole)⟩
  | .binary (.arithmetic .mod) l r =>
    ⟨0, .modulo (regrouped style l).whole (regrouped style r).whole⟩
  | .binary (.arithmetic op) l r =>
    ⟨0, (regrouped style l).under
      (.operation (arithmeticOperation op l r) · (regrouped style r).whole)⟩
  | _ => ⟨0, .null⟩

/-! What is written is read back -/

theorem wordToken_digits {w : String} (hw : w.toList.all Char.isDigit) :
    wordToken w = .number w := by
  have hkeyword : keywords.lookup w = none := by
    rw [List.lookup_eq_none_iff]
    intro p hp
    rw [bne_iff_ne]
    rintro rfl
    have hall : keywords.all fun p => !p.1.toList.all Char.isDigit := by decide
    simpa [hw] using List.all_eq_true.mp hall p hp
  rw [wordToken, hkeyword, Option.getD_none, if_pos hw]

theorem isWordChar_of_isAlphanum {c : Char} (h : c.isAlphanum) : isWordChar c := by
  have hne {x : Char} (hx : x.isAlphanum = false) : c ≠ x := by
    rintro rfl
    rw [h] at hx
    cases hx
  simp [isWordChar, isBlank, isSymbolic, hne]

theorem lexes_digits (n : Nat) : Lexes n.repr [.number n.repr] := by
  have hdigit : n.repr.toList.all Char.isDigit := by
    rw [List.all_eq_true]
    intro c hc
    exact isDigit_of_mem_digits (n := n) (by simpa [Nat.repr, Decimal.digits] using hc)
  have hword : n.repr.toList.all isWordChar := by
    rw [List.all_eq_true] at hdigit ⊢
    exact fun c hc => isWordChar_of_isAlphanum (by simp [Char.isAlphanum, hdigit c hc])
  have hlexes := lexes_word (w := n.repr) (by simp) hword
  rwa [wordToken_digits hdigit] at hlexes

theorem operand_number (n : Int) : Operand (Decimal.ofInt n) 0 (numberTree n) := by
  have hrepr : n.natAbs.repr = String.ofList (Decimal.digits n.natAbs) := rfl
  unfold Decimal.ofInt numberTree
  split
  · have htext : String.ofList ('-' :: Decimal.digits n.natAbs) = "-" ++ n.natAbs.repr := by
      rw [hrepr, String.ofList_cons]
      rfl
    rw [htext]
    exact ⟨_, (lexes_digits _).prepend opens_dash, fun _ _ => rfl⟩
  · exact .token (lexes_digits _) rfl

theorem opens_arithmetic {op : Arithmetic} (hop : op ≠ .mod) (l r : Expr) :
    Opens (" " ++ arithmeticName op l r ++ " ") [.operation (arithmeticOperation op l r)] := by
  cases op with
  | mod => exact absurd rfl hop
  | add =>
      rw [arithmeticName, arithmeticOperation]
      split <;> exact ⟨by decide, fun _ => rfl⟩
  | sub | mul | div =>
      rw [arithmeticName]
      exact ⟨by decide, fun _ => rfl⟩

theorem strength_arithmeticOperation (op : Arithmetic) (l r : Expr) :
    3 < (arithmeticOperation op l r).strength := by
  unfold arithmeticOperation
  split
  · split <;> decide
  · cases op <;> decide

theorem text_arithmetic {op : Arithmetic} (hop : op ≠ .mod) (style : Style) (position : Position)
    (nested : Bool) (l r : Expr) :
    text style position nested (.binary (.arithmetic op) l r) = (do
      let left ← text style .scalar true l
      let right ← text style .scalar true r
      return wrap nested (left ++ " " ++ arithmeticName op l r ++ " " ++ right)) := by
  rw [text]
  exact hop

theorem regrouped_arithmetic {op : Arithmetic} (hop : op ≠ .mod) (style : Style) (l r : Expr) :
    regrouped style (.binary (.arithmetic op) l r) =
      ⟨0, (regrouped style l).under
        (.operation (arithmeticOperation op l r) · (regrouped style r).whole)⟩ := by
  rw [regrouped]
  exact hop

theorem text_comparison (style : Style) (position : Position) (nested : Bool) (op : Comparison)
    (l r : Expr) :
    text style position nested (.binary (.comparison op) l r) =
      match amountsTo? op l r with
      | some test => do
        return wrap nested ((← text style .scalar true (test.operand l r)) ++ test.text)
      | none => do
        let left ← text style .scalar true l
        let right ← text style .scalar true r
        return wrap nested (left ++ " " ++ comparisonName op ++ " " ++ right) := by
  rw [text]
  unfold amountsTo?
  cases op <;> cases isNullConstant l <;> cases isNullConstant r <;> rfl

/-- A nested text is read as an operand, any other as a whole. -/
def Reads (nested : Bool) (t : String) (p : Phrase) : Prop :=
  if nested then Operand t p.negations p.core else Clause t p.whole

theorem Reads.ofOperand {t : String} {p : Phrase} (h : Operand t p.negations p.core)
    (nested : Bool) : Reads nested t p := by
  cases nested with
  | true => exact h
  | false => exact h.clause

theorem Reads.ofClause {t : String} {tree : Tree} (h : Clause t tree) (nested : Bool) :
    Reads nested (wrap nested t) ⟨0, tree⟩ := by
  cases nested with
  | true => exact .wrap h
  | false => exact h

/-- A condition is written in every position, and read back as its regrouped form. -/
theorem reads_text {style : Style} {e : Expr} (he : IsCondition style e) (position : Position)
    (nested : Bool) :
    ∃ t, text style position nested e = .ok t ∧ Reads nested t (regrouped style e) := by
  induction he generalizing position nested with
  | @column c htype hname =>
      have htext : columnText style position nested c = columnName style c :=
        if_neg fun h => htype h.2
      have hlexes := lexes_word hname.1 hname.2.1
      rw [hname.2.2] at hlexes
      exact ⟨_, congrArg Except.ok htext, .ofOperand (.token hlexes rfl) nested⟩
  | null t => exact ⟨"NULL", by cases position <;> rfl, .ofOperand (.token lexes_null rfl) nested⟩
  | int32 n t =>
      exact ⟨Decimal.ofInt n.toInt, by cases position <;> rfl, .ofOperand (operand_number _) nested⟩
  | int64 n t =>
      exact ⟨Decimal.ofInt n.toInt, by cases position <;> rfl, .ofOperand (operand_number _) nested⟩
  | text s t =>
      exact ⟨quoted s, by cases position <;> rfl, .ofOperand (.token (.quoted s) rfl) nested⟩
  | @not e he ih =>
      obtain ⟨t, ht, hreads⟩ := ih position true
      refine ⟨"NOT " ++ t, ?_, .ofOperand (.negation hreads) nested⟩
      rw [text, ht]
      rfl
  | @binary op l r hl hr ihl ihr =>
      obtain ⟨tl, htl, hreadsl⟩ := ihl .scalar true
      obtain ⟨tr, htr, hreadsr⟩ := ihr .scalar true
      cases op with
      | logical op =>
          obtain ⟨tl, htl, hreadsl⟩ := ihl position true
          obtain ⟨tr, htr, hreadsr⟩ := ihr position true
          have hop : (Operation.logical op).strength ≤ 3 := by cases op <;> decide
          refine ⟨_, ?_, .ofClause (.weak hop (opens_logical op) hreadsl hreadsr) nested⟩
          rw [text, htl, htr]
          rfl
      | comparison op =>
          rw [text_comparison]
          simp only [regrouped]
          cases amountsTo? op l r with
          | none =>
              refine ⟨_, ?_, .ofClause (.strong ?_ (opens_comparison op) hreadsl hreadsr) nested⟩
              · rw [htl, htr]
                rfl
              · exact (by decide : 3 < 4)
          | some test =>
              obtain ⟨⟨t, ht, hreads⟩, -⟩ := (test.forall_operands fun x => ∃ t,
                text style .scalar true x = .ok t ∧ Reads true t (regrouped style x)).mp
                ⟨⟨tl, htl, hreadsl⟩, tr, htr, hreadsr⟩
              rw [test.operand_map (regrouped style)] at hreads
              refine ⟨_, ?_, .ofClause (.nullTest test hreads) nested⟩
              simp only [ht]
              rfl
      | arithmetic op =>
          by_cases hop : op = .mod
          · subst hop
            obtain ⟨tl, htl, hreadsl⟩ := ihl .scalar false
            obtain ⟨tr, htr, hreadsr⟩ := ihr .scalar false
            refine ⟨_, ?_, .ofOperand (.modulo hreadsl hreadsr) nested⟩
            rw [text, htl, htr]
            rfl
          · rw [text_arithmetic hop, regrouped_arithmetic hop, htl, htr]
            exact ⟨_, rfl, .ofClause (.strong (strength_arithmeticOperation op l r)
              (opens_arithmetic hop l r) hreadsl hreadsr) nested⟩

end Quarry.Sql
