import Quarry.Proofs.Quoting
import Quarry.Proofs.Writing
/-!
Comment markers in the query text: two dashes outside of literals. Between two parts of a text there
is always something that is no dash, so a marker can only arise where a negation is written right
before a text that begins with a dash itself.
-/
namespace Quarry

namespace Sql

/-! Markers in texts -/

/-- No two dashes meet outside of literals. -/
def MarkerFree (pieces : List Piece) : Prop := ¬[some '-', some '-'] <:+: outline pieces

instance (pieces : List Piece) : Decidable (MarkerFree pieces) :=
  inferInstanceAs (Decidable (¬_))

/-- A text with neither a quote nor a comment marker. -/
def Clean (s : String) : Prop := Plain s ∧ ¬['-', '-'] <:+: s.toList

instance (s : String) : Decidable (Clean s) := inferInstanceAs (Decidable (_ ∧ _))

theorem markerFree_append {xs ys : List Piece} :
    MarkerFree (xs ++ ys) ↔ MarkerFree xs ∧ MarkerFree ys ∧
      ¬((outline xs).getLast? = some (some '-') ∧ (outline ys).head? = some (some '-')) := by
  simp only [MarkerFree, not_infix_iff, outline_append, List.isChain_append, Option.mem_def]
  refine and_congr_right fun _ => and_congr_right fun _ => ?_
  constructor
  · rintro h ⟨hx, hy⟩
    exact h _ hx _ hy ⟨rfl, rfl⟩
  · rintro h x hx y hy ⟨rfl, rfl⟩
    exact h ⟨hx, hy⟩

theorem outline_outside (cs : List Char) : outline (cs.map .outside) = cs.map some := by
  simp [outline]

theorem Clean.markerFree {s : String} (h : Clean s) : MarkerFree (s.toList.map .outside) := by
  have hchars := not_infix_iff.mp h.2
  rw [MarkerFree, not_infix_iff, outline_outside, List.isChain_map]
  exact hchars.imp fun a b hab hdash => hab ⟨Option.some.inj hdash.1, Option.some.inj hdash.2⟩

/-- An open literal is the first piece of what is split. -/
theorem splitFrom_open {read cs : List Char} {pieces : List Piece}
    (h : splitFrom (some read) cs = some pieces) : ∃ s rest, pieces = .literal s :: rest := by
  generalize hstate : some read = state at h
  fun_induction splitFrom state cs generalizing read with
  | case1 | case2 | case3 => cases hstate
  | case4 => cases h
  | case5 read' rest ih => exact ih rfl h
  | case6 read' rest _ ih =>
      obtain ⟨pieces', -, rfl⟩ := Option.map_eq_some_iff.mp h
      exact ⟨_, _, rfl⟩
  | case7 read' c rest _ _ ih => exact ih rfl h

/-- A text begins with a dash if it does so outside of literals. -/
theorem head_outline {t : String} {pieces : List Piece} (h : split t = some pieces) :
    (outline pieces).head? = some (some '-') ↔ t.toList.head? = some '-' := by
  rw [split] at h
  cases ht : t.toList with
  | nil =>
      rw [ht] at h
      cases h
      simp [outline]
  | cons c cs =>
      rw [ht] at h
      by_cases hc : c = '\''
      · subst hc
        rw [splitFrom] at h
        obtain ⟨s, rest, rfl⟩ := splitFrom_open h
        simp [outline]
      · have hplain : '\'' ∉ [c] := by simpa using Ne.symm hc
        rw [← List.singleton_append, splitFrom_plain hplain, Option.map_eq_some_iff] at h
        obtain ⟨rest, -, rfl⟩ := h
        simp [outline]

/-- A text that keeps what stands before it apart from what follows. -/
structure Barrier (s : String) : Prop where
  clean : Clean s
  nonempty : s ≠ ""
  head : s.toList.head? ≠ some '-'
  last : s.toList.getLast? ≠ some '-'

instance (s : String) : Decidable (Barrier s) :=
  decidable_of_iff (Clean s ∧ s ≠ "" ∧ s.toList.head? ≠ some '-' ∧ s.toList.getLast? ≠ some '-')
    ⟨fun ⟨hc, hn, hh, hl⟩ => ⟨hc, hn, hh, hl⟩, fun ⟨hc, hn, hh, hl⟩ => ⟨hc, hn, hh, hl⟩⟩

theorem barrier_of_notMem {s : String} (hs : Plain s) (hne : s ≠ "") (hdash : '-' ∉ s.toList) :
    Barrier s where
  clean := ⟨hs, fun h => hdash (h.subset List.mem_cons_self)⟩
  nonempty := hne
  head h := hdash (List.mem_of_head? h)
  last h := hdash (List.mem_of_getLast? h)

theorem Barrier.head_append {s : String} (hs : Barrier s) (t : String) :
    (s ++ t).toList.head? ≠ some '-' := by
  have hne : s.toList ≠ [] := by simpa using hs.nonempty
  rw [String.toList_append, List.head?_append_of_ne_nil _ hne]
  exact hs.head

theorem Barrier.append {s t : String} (hs : Barrier s) (ht : Barrier t) : Barrier (s ++ t) where
  clean := by
    refine ⟨hs.clean.1.append ht.clean.1, ?_⟩
    rw [String.toList_append, not_infix_iff, List.isChain_append]
    refine ⟨not_infix_iff.mp hs.clean.2, not_infix_iff.mp ht.clean.2, ?_⟩
    rintro x hx y hy ⟨rfl, rfl⟩
    exact hs.last hx
  nonempty := by simp [hs.nonempty]
  head := hs.head_append t
  last := by
    have hne : t.toList ≠ [] := by simpa using ht.nonempty
    rw [String.toList_append, List.getLast?_append_of_ne_nil _ hne]
    exact ht.last

/-- How a text splits: it is free of markers if and only if `free`. -/
def Marks (free : Prop) (t : String) : Prop := ∃ xs, Splits t xs ∧ (MarkerFree xs ↔ free)

namespace Marks

variable {f g : Prop} {s t u : String}

theorem congr (h : Marks f t) (hfg : f ↔ g) : Marks g t := by
  obtain ⟨xs, hxs, hf⟩ := h
  exact ⟨xs, hxs, hf.trans hfg⟩

theorem plain (hs : Clean s) : Marks True s :=
  ⟨_, .plain hs.1, iff_true_intro hs.markerFree⟩

theorem quoted (s : String) : Marks True (quoted s) :=
  ⟨_, .quoted s, iff_true_intro (by decide : ¬[some '-', some '-'] <:+: [none])⟩

theorem prepend (hs : Barrier s) (h : Marks f t) : Marks f (s ++ t) := by
  obtain ⟨xs, hxs, hf⟩ := h
  refine ⟨_, hxs.prepend hs.clean.1, ?_⟩
  have hlast : (outline (s.toList.map .outside)).getLast? ≠ some (some '-') := by
    rw [outline_outside, List.getLast?_map]
    intro h
    obtain ⟨c, hc, hdash⟩ := Option.map_eq_some_iff.mp h
    exact hs.last (Option.some.inj hdash ▸ hc)
  rw [markerFree_append, hf]
  exact ⟨fun h => h.2.1, fun h => ⟨hs.clean.markerFree, h, fun hdash => hlast hdash.1⟩⟩

theorem append (h : Marks f t) (k : Marks g u) (hquote : u.toList.head? ≠ some '\'')
    (hdash : u.toList.head? ≠ some '-') : Marks (f ∧ g) (t ++ u) := by
  obtain ⟨xs, hxs, hf⟩ := h
  obtain ⟨ys, hys, hg⟩ := k
  refine ⟨_, hxs.append hys hquote, ?_⟩
  have hhead : (outline ys).head? ≠ some (some '-') := fun h =>
    hdash ((head_outline hys.split).mp h)
  rw [markerFree_append, hf, hg]
  exact ⟨fun h => ⟨h.1, h.2.1⟩, fun h => ⟨h.1, h.2, fun hmeet => hhead hmeet.2⟩⟩

/-- Two texts with something between them. -/
theorem between (h : Marks f t) (hs : Barrier s) (k : Marks g u) : Marks (f ∧ g) (t ++ s ++ u) := by
  rw [String.append_assoc]
  exact h.append (k.prepend hs) (hs.clean.1.head_append hs.nonempty u) (hs.head_append u)

theorem follow (h : Marks f t) (hs : Barrier s) : Marks f (t ++ s) := by
  have hempty : Marks True "" := .plain (by decide)
  have hnext := h.between hs hempty
  rw [String.append_empty] at hnext
  exact hnext.congr (and_iff_left trivial)

/-- A dash makes a marker with a dash that follows. -/
theorem dash (h : Marks f t) : Marks (f ∧ t.toList.head? ≠ some '-') ("-" ++ t) := by
  obtain ⟨xs, hxs, hf⟩ := h
  refine ⟨_, hxs.prepend (by decide : Plain "-"), ?_⟩
  have hone : MarkerFree ("-".toList.map .outside) := Clean.markerFree (by decide)
  rw [markerFree_append, hf, head_outline hxs.split]
  constructor
  · rintro ⟨-, hfree, hmeet⟩
    exact ⟨hfree, fun h => hmeet ⟨rfl, h⟩⟩
  · rintro ⟨hfree, hhead⟩
    exact ⟨hone, hfree, fun h => hhead h.2⟩

theorem wrap (h : Marks f t) (nested : Bool) : Marks f (wrap nested t) := by
  cases nested with
  | false => exact h
  | true => exact (h.prepend (by decide : Barrier "(")).follow (by decide)

/-- Texts with a separator between each two of them. -/
theorem intercalate {α : Type} {F : α → Prop} {as : List α} {ts : List String}
    (h : List.Forall₂ (fun a t => Marks (F a) t) as ts) (hs : Barrier s) :
    Marks (∀ a ∈ as, F a) (s.intercalate ts) := by
  induction h with
  | nil => exact (Marks.plain (by decide : Clean "")).congr (by simp)
  | cons ha has ih =>
      cases has with
      | nil => exact ha.congr (by simp)
      | cons hb hbs =>
          rw [String.intercalate_cons_cons]
          exact (ha.between hs ih).congr (by simp)

end Marks

/-- The same for a text that follows another: it is empty, or it begins with a barrier. -/
def MarksAfter (free : Prop) (t : String) : Prop :=
  (t = "" ∧ free) ∨ ∃ s u, t = s ++ u ∧ Barrier s ∧ Marks free u

theorem Marks.andThen {f g : Prop} {t u : String} (h : Marks f t) (k : MarksAfter g u) :
    Marks (f ∧ g) (t ++ u) := by
  rcases k with ⟨rfl, hg⟩ | ⟨s, u, rfl, hs, hu⟩
  · rw [String.append_empty]
    exact h.congr (and_iff_left hg).symm
  · rw [← String.append_assoc]
    exact h.between hs hu

/-! What is written of an expression -/

end Sql

/-- Numbers that are written with a sign. -/
def Value.isNegative : Value → Bool
  | .int32 n => n.toInt < 0
  | .int64 n => n.toInt < 0
  | .float x => x.isNegative && !x.isNaN
  | _ => false

namespace Expr

/-- The children that are written: of an existence test over literal query text only the predicates,
and of a projection only the select. -/
def writtenParts : Expr → List Expr
  | .projection p => p.source.children
  | .subquery f _ => f.args
  | e => e.children

/-- The nodes that are written. -/
def written : Expr → List Expr :=
  fold fun e parts =>
    let parts := match e with
      | .projection _ => parts.dropLast
      | .subquery f _ => parts.drop f.receiver.toList.length
      | _ => parts
    e :: parts.flatten

theorem written_eq (e : Expr) : e.written = e :: e.writtenParts.flatMap written := by
  rw [written, fold_eq, List.flatMap_def]
  cases e with
  | projection p =>
      simp only [writtenParts, children, Projection.children, List.map_append, List.map_singleton,
        List.dropLast_concat]
  | subquery f sql =>
      have hargs : (f.receiver.toList ++ f.args).drop f.receiver.toList.length = f.args :=
        List.drop_left
      simp only [writtenParts, children, FunctionCall.children, ← List.map_drop, hargs]
  | _ => rfl

theorem child_of_writtenPart {e c : Expr} (h : c ∈ e.writtenParts) : c ∈ e.children := by
  cases e with
  | projection p => exact List.mem_append_left _ h
  | subquery f sql => exact List.mem_append_right _ h
  | _ => exact h

theorem mem_nodes_of_written {e x : Expr} (h : x ∈ e.written) : x ∈ e.nodes := by
  induction e using children_induction with
  | step e ih =>
      rw [written_eq] at h
      rcases List.mem_cons.mp h with rfl | h
      · exact self_mem_nodes _
      · obtain ⟨c, hc, hx⟩ := List.mem_flatMap.mp h
        exact mem_nodes_of_child (child_of_writtenPart hc) (ih c (child_of_writtenPart hc) hx)

end Expr

namespace Sql

variable {style : Style} {e : Expr} {t : String}

/-- Whether the text of an operand begins with a dash. -/
def leadsWithDash (style : Style) : Expr → Bool
  | .unary .negate _ => true
  | .constant v _ | .captured _ v => v.isNegative
  | .column c => (columnName style c).toList.head? = some '-'
  | .member target name =>
    (memberText style target name).toOption.any fun text => text.toList.head? = some '-'
  | _ => false

/-- A negation that is written right before another dash. -/
def doublesDash (style : Style) : Expr → Bool
  | .unary .negate e => leadsWithDash style e
  | _ => false

/-- No negation is written right before another dash. -/
def DashFree (style : Style) (e : Expr) : Prop := ∀ x ∈ e.written, doublesDash style x = false

theorem dashFree_iff : DashFree style e ↔
    doublesDash style e = false ∧ ∀ c ∈ e.writtenParts, DashFree style c := by
  simp only [DashFree, Expr.written_eq e, List.forall_mem_cons, List.mem_flatMap]
  refine and_congr_right fun _ => ?_
  exact ⟨fun h c hc x hx => h x ⟨c, hc, hx⟩, fun h x ⟨c, hc, hx⟩ => h c hc x hx⟩

/-- Neither a quote nor a comment marker stands in what is written of the nodes as it is. -/
def CleanNames (style : Style) (e : Expr) : Prop :=
  ∀ x ∈ e.nodes, ∀ s ∈ identifiers style x, Clean s

theorem CleanNames.child {c : Expr} (h : CleanNames style e) (hc : c ∈ e.children) :
    CleanNames style c := fun x hx => h x (Expr.mem_nodes_of_child hc hx)

theorem CleanNames.clean {s : String} (h : CleanNames style e) (hs : s ∈ identifiers style e) :
    Clean s :=
  h e (Expr.self_mem_nodes e) s hs

/-! Literals -/

theorem Signed.clean {negative : Bool} {s : String} (h : Signed negative s) : Clean s := by
  refine ⟨h.plain, fun hinfix => ?_⟩
  obtain ⟨cs, hcs, hs⟩ := h
  have hnone : cs.count '-' = 0 := List.count_eq_zero.mpr fun hc => (hcs _ hc).2 rfl
  have htwo := hinfix.sublist.count_le '-'
  rw [hs] at htwo
  cases negative <;> simp [hnone] at htwo

theorem Signed.head_iff {negative : Bool} {s : String} (h : Signed negative s) :
    s.toList.head? = some '-' ↔ negative := by
  obtain ⟨cs, hcs, hs⟩ := h
  rw [hs]
  cases negative with
  | true => simp
  | false =>
      refine iff_of_false (fun hhead => ?_) Bool.false_ne_true
      exact (hcs _ (List.mem_of_head? hhead)).2 rfl

theorem literal_marks {v : Value} (h : literal v = .ok t) : Marks True t := by
  cases v with
  | null =>
      cases h
      exact .plain (by decide)
  | boolean b => cases b <;> cases h <;> exact .plain (by decide)
  | int32 n | int64 n =>
      cases h
      exact .plain (signed_ofInt _).clean
  | float x =>
      cases h
      exact .plain (signed_ofBinary64 x).clean
  | char c | text s =>
      cases h
      exact .quoted _
  | record fields | list values => cases h

theorem literal_head {v : Value} (h : literal v = .ok t) :
    t.toList.head? = some '-' ↔ v.isNegative := by
  have hquoted (s : String) : (quoted s).toList.head? = some '-' ↔ false := by simp [quoted]
  cases v with
  | null =>
      cases h
      decide
  | boolean b => cases b <;> cases h <;> decide
  | int32 n | int64 n =>
      cases h
      exact (signed_ofInt _).head_iff
  | float x =>
      cases h
      exact (signed_ofBinary64 x).head_iff
  | char c | text s =>
      cases h
      exact hquoted _
  | record fields | list values => cases h

theorem constantText_marks {position : Position} {nested : Bool} {v : Value}
    (h : constantText position nested v = .ok t) : Marks True t := by
  unfold constantText at h
  split at h
  · cases h
    exact (Marks.plain (by decide : Clean "1 = 1")).wrap nested
  · cases h
    exact (Marks.plain (by decide : Clean "1 = 0")).wrap nested
  · exact literal_marks h

/-! Values and conditions -/

theorem columnName_marks {c : Column} (h : CleanNames style (.column c)) :
    Marks True (columnName style c) := by
  have hlabel : Clean (style.ident c.label) := h.clean (by simp [identifiers])
  have hname : Clean (style.ident c.name) := h.clean (by simp [identifiers])
  unfold columnName
  split
  · exact .plain hname
  · exact ((Marks.plain hlabel).between (by decide) (.plain hname)).congr (and_self_iff)

theorem columnText_marks {c : Column} (h : CleanNames style (.column c)) (position : Position)
    (nested : Bool) : Marks True (columnText style position nested c) := by
  have hname := columnName_marks h
  unfold columnText
  split
  · exact (hname.follow (by decide : Barrier " = 1")).wrap nested
  · exact hname

theorem memberText_cases {target : Expr} {name : String}
    (h : memberText style target name = .ok t) :
    (∃ p, target = .parameter p) ∧ t ∈ identifiers style (.member target name) := by
  unfold memberText at h
  split at h
  next bare p hbare =>
    split at h
    next =>
      obtain ⟨m, hm, ht⟩ := bind_eq_ok.mp h
      refine ⟨⟨p, rfl⟩, ?_⟩
      rw [← pure_eq_ok.mp ht]
      simp [identifiers, hbare, hm, Except.toOption]
    next => cases h
  next => cases h

/-- How the text of a binary operation is made: of both operands, or of one if the other is null. -/
inductive BinaryText (style : Style) (nested : Bool) (l r : Expr) : String → Prop
  | both {position name u v} (hl : text style position true l = .ok u)
      (hr : text style position true r = .ok v) (hname : Barrier (" " ++ name ++ " ")) :
      BinaryText style nested l r (wrap nested (u ++ " " ++ name ++ " " ++ v))
  | left {test u} (hl : text style .scalar true l = .ok u) (hr : isNullConstant r)
      (htest : Barrier test) : BinaryText style nested l r (wrap nested (u ++ test))
  | right {test u} (hl : isNullConstant l) (hr : text style .scalar true r = .ok u)
      (htest : Barrier test) : BinaryText style nested l r (wrap nested (u ++ test))
  | modulo {u v} (hl : text style .scalar false l = .ok u)
      (hr : text style .scalar false r = .ok v) :
      BinaryText style nested l r ("MOD(" ++ u ++ ", " ++ v ++ ")")

theorem barrier_of_nullTest? {op : Comparison} {test : String} (h : nullTest? op = some test) :
    Barrier test := by
  cases op <;> cases h <;> decide

theorem binaryText_cases {op : BinaryOperator} {l r : Expr} {position : Position} {nested : Bool}
    (h : text style position nested (.binary op l r) = .ok t) : BinaryText style nested l r t := by
  have hboth {position : Position} {name : String} (hname : Barrier (" " ++ name ++ " "))
      (h : (do
        let left ← text style position true l
        let right ← text style position true r
        return wrap nested (left ++ " " ++ name ++ " " ++ right)) = .ok t) :
      BinaryText style nested l r t := by
    simp only [bind_eq_ok, pure_eq_ok] at h
    obtain ⟨u, hl, v, hr, rfl⟩ := h
    exact .both hl hr hname
  cases op with
  | logical op => exact hboth (by cases op <;> decide) h
  | comparison op =>
      unfold text at h
      split at h
      next test htest hnull =>
        obtain ⟨u, hl, hu⟩ := bind_eq_ok.mp h
        obtain rfl := pure_eq_ok.mp hu
        exact .left hl hnull (barrier_of_nullTest? htest)
      next test htest hnull _ =>
        obtain ⟨u, hr, hu⟩ := bind_eq_ok.mp h
        obtain rfl := pure_eq_ok.mp hu
        exact .right hnull hr (barrier_of_nullTest? htest)
      next => exact hboth (by cases op <;> decide) h
  | arithmetic op =>
      cases op with
      | mod =>
          simp only [text, bind_eq_ok, pure_eq_ok] at h
          obtain ⟨u, hl, v, hr, rfl⟩ := h
          exact .modulo hl hr
      | add => exact hboth (by rw [arithmeticName]; split <;> decide) h
      | sub => exact hboth (by decide : Barrier (" " ++ "-" ++ " ")) h
      | mul => exact hboth (by decide : Barrier (" " ++ "*" ++ " ")) h
      | div => exact hboth (by decide : Barrier (" " ++ "/" ++ " ")) h

/-- Where a value is called for, the text of an operand begins with a dash in these cases only. -/
theorem text_head (h : text style .scalar true e = .ok t) :
    t.toList.head? = some '-' ↔ leadsWithDash style e := by
  have hfalse {s u : String} (hs : Barrier s) : (s ++ u).toList.head? = some '-' ↔ false :=
    iff_of_false (hs.head_append u) Bool.false_ne_true
  have hwrap (u : String) : (wrap true u).toList.head? = some '-' ↔ false := by
    rw [wrap, if_pos rfl, String.append_assoc]
    exact hfalse (by decide)
  cases e with
  | constant v type => exact literal_head (v := v) h
  | captured name v => exact literal_head (v := v) h
  | column c =>
      obtain rfl := Except.ok.inj h
      simp [leadsWithDash, columnText]
  | member target name =>
      have h : memberText style target name = .ok t := h
      simp [leadsWithDash, h, Except.toOption]
  | unary op operand =>
      cases op with
      | not =>
          obtain ⟨u, -, hu⟩ := bind_eq_ok.mp h
          obtain rfl := pure_eq_ok.mp hu
          exact hfalse (by decide)
      | negate =>
          obtain ⟨u, -, hu⟩ := bind_eq_ok.mp h
          obtain rfl := pure_eq_ok.mp hu
          simp [leadsWithDash]
  | binary op l r =>
      cases binaryText_cases h with
      | modulo =>
          simp only [String.append_assoc]
          exact hfalse (by decide)
      | _ => exact hwrap _
  | function f =>
      obtain ⟨method, name, receiver, args, type⟩ := f
      simp only [text, bind_eq_ok, pure_eq_ok] at h
      obtain ⟨first, -, rest, -, rfl⟩ := h
      simp only [String.append_assoc]
      cases name <;> exact hfalse (by decide)
  | subquery f sql =>
      obtain ⟨method, name, receiver, args, type⟩ := f
      simp only [text, bind_eq_ok, pure_eq_ok] at h
      obtain ⟨predicates, -, rfl⟩ := h
      simp only [String.append_assoc]
      cases name <;> exact hfalse (by decide)
  | _ => cases h

theorem dashFree_of_isLeaf (h : e.isLeaf) : DashFree style e := by
  cases e with
  | constant | captured | parameter | collection | outerRow | table | column =>
      exact dashFree_iff.mpr ⟨rfl, List.forall_mem_nil _⟩
  | _ => cases h

theorem dashFree_of_isNullConstant (h : isNullConstant e) : DashFree style e := by
  cases e with
  | constant v type => exact dashFree_of_isLeaf rfl
  | _ => cases h

theorem dashFree_binary {op : BinaryOperator} {l r : Expr} :
    DashFree style (.binary op l r) ↔ DashFree style l ∧ DashFree style r := by
  rw [dashFree_iff]
  simp [doublesDash, Expr.writtenParts, Expr.children]

theorem binaryText_marks {op : BinaryOperator} {l r : Expr} {nested : Bool}
    (ihl : ∀ {position nested u}, text style position nested l = .ok u → Marks (DashFree style l) u)
    (ihr : ∀ {position nested u}, text style position nested r = .ok u → Marks (DashFree style r) u)
    (h : BinaryText style nested l r t) : Marks (DashFree style (.binary op l r)) t := by
  rw [dashFree_binary]
  cases h with
  | both hl hr hname =>
      have hbetween := (ihl hl).between hname (ihr hr)
      simp only [← String.append_assoc] at hbetween
      exact hbetween.wrap nested
  | left hl hr htest =>
      have hnull : DashFree style r := dashFree_of_isNullConstant hr
      exact (((ihl hl).follow htest).wrap nested).congr (and_iff_left hnull).symm
  | right hl hr htest =>
      have hnull : DashFree style l := dashFree_of_isNullConstant hl
      exact (((ihr hr).follow htest).wrap nested).congr (and_iff_right hnull).symm
  | modulo hl hr =>
      have hleft := (ihl hl).prepend (by decide : Barrier "MOD(")
      have hargs := hleft.between (by decide : Barrier ", ") (ihr hr)
      exact hargs.follow (by decide)

theorem texts_marks {es : List Expr} {ts : List String} {position : Position} {nested : Bool}
    (ih : ∀ e ∈ es, ∀ t, text style position nested e = .ok t → Marks (DashFree style e) t)
    (h : texts style position nested es = .ok ts) :
    List.Forall₂ (fun e t => Marks (DashFree style e) t) es ts := by
  induction es generalizing ts with
  | nil =>
      cases h
      exact .nil
  | cons e es ihes =>
      simp only [texts, bind_eq_ok, pure_eq_ok] at h
      obtain ⟨t, ht, ts, hts, rfl⟩ := h
      exact .cons (ih e List.mem_cons_self t ht)
        (ihes (fun e he => ih e (List.mem_cons_of_mem _ he)) hts)

theorem textOption_marks {o : Option Expr} {ts : List String}
    (ih : ∀ e ∈ o.toList, ∀ t, text style .scalar false e = .ok t → Marks (DashFree style e) t)
    (h : textOption style o = .ok ts) :
    List.Forall₂ (fun e t => Marks (DashFree style e) t) o.toList ts := by
  cases o with
  | none =>
      cases h
      exact .nil
  | some e =>
      obtain ⟨t, ht, hts⟩ := bind_eq_ok.mp h
      obtain rfl := pure_eq_ok.mp hts
      exact .cons (ih e List.mem_cons_self t ht) .nil

theorem unaryText_marks {op : UnaryOperator} {operand : Expr} {position : Position} {nested : Bool}
    (ih : ∀ {position nested u}, text style position nested operand = .ok u →
      Marks (DashFree style operand) u)
    (h : text style position nested (.unary op operand) = .ok t) :
    Marks (DashFree style (.unary op operand)) t := by
  have hfree : DashFree style (.unary op operand) ↔
      doublesDash style (.unary op operand) = false ∧ DashFree style operand := by
    rw [dashFree_iff]
    simp [Expr.writtenParts, Expr.children]
  cases op with
  | not =>
      obtain ⟨u, hu, ht⟩ := bind_eq_ok.mp h
      obtain rfl := pure_eq_ok.mp ht
      rw [hfree]
      exact ((ih hu).prepend (by decide : Barrier "NOT ")).congr (and_iff_right rfl).symm
  | negate =>
      obtain ⟨u, hu, ht⟩ := bind_eq_ok.mp h
      obtain rfl := pure_eq_ok.mp ht
      rw [hfree]
      refine (ih hu).dash.congr ?_
      rw [Ne, text_head hu, and_comm, Bool.not_eq_true]
      rfl

theorem functionText_marks {f : FunctionCall Expr} {position : Position} {nested : Bool}
    (ih : ∀ c ∈ f.children, ∀ t, text style .scalar false c = .ok t → Marks (DashFree style c) t)
    (h : text style position nested (.function f) = .ok t) :
    Marks (DashFree style (.function f)) t := by
  obtain ⟨method, name, receiver, args, type⟩ := f
  simp only [text, bind_eq_ok, pure_eq_ok] at h
  obtain ⟨first, hfirst, rest, hrest, rfl⟩ := h
  have hfirst := textOption_marks (fun c hc => ih c (List.mem_append_left _ hc)) hfirst
  have hrest := texts_marks (fun c hc => ih c (List.mem_append_right _ hc)) hrest
  have hlist := Marks.intercalate (List.rel_append hfirst hrest) (by decide : Barrier ", ")
  have hname : Barrier (name.name ++ "(") := by cases name <;> decide
  rw [dashFree_iff]
  exact ((hlist.prepend hname).follow (by decide)).congr (and_iff_right rfl).symm

theorem subqueryText_marks {f : FunctionCall Expr} {sql : String} {position : Position}
    {nested : Bool} (hsql : Clean sql)
    (ih : ∀ c ∈ f.args, ∀ nested t, text style .predicate nested c = .ok t →
      Marks (DashFree style c) t)
    (h : text style position nested (.subquery f sql) = .ok t) :
    Marks (DashFree style (.subquery f sql)) t := by
  obtain ⟨method, name, receiver, args, type⟩ := f
  simp only [text, bind_eq_ok, pure_eq_ok] at h
  obtain ⟨predicates, hpredicates, rfl⟩ := h
  have hall := texts_marks (fun c hc => ih c hc _) hpredicates
  have hcondition : MarksAfter (∀ c ∈ args, DashFree style c)
      (if predicates.isEmpty then "" else " WHERE " ++ " AND ".intercalate predicates) := by
    cases hall with
    | nil => exact .inl ⟨rfl, List.forall_mem_nil _⟩
    | cons hc hcs => exact .inr ⟨_, _, rfl, by decide, .intercalate (.cons hc hcs) (by decide)⟩
  have hname : Barrier (name.name ++ " (") := by cases name <;> decide
  have hopen := ((Marks.plain hsql).prepend hname).andThen hcondition
  have htext := hopen.follow (by decide : Barrier ")")
  rw [dashFree_iff]
  exact htext.congr (and_congr_left' (iff_of_true trivial rfl))

/-- A text holds a marker just where a negation is written right before another dash. -/
theorem text_marks {position : Position} {nested : Bool} (hclean : CleanNames style e)
    (h : text style position nested e = .ok t) : Marks (DashFree style e) t := by
  have hleaf {e : Expr} {t : String} (he : DashFree style e) (ht : Marks True t) :
      Marks (DashFree style e) t := ht.congr (iff_of_true trivial he)
  induction e using Expr.children_induction generalizing position nested t with
  | step e ih =>
      have ih {c : Expr} (hc : c ∈ e.children) {position : Position} {nested : Bool} {u : String}
          (hu : text style position nested c = .ok u) : Marks (DashFree style c) u :=
        ih c hc (hclean.child hc) hu
      cases e with
      | constant v type => exact hleaf (dashFree_of_isLeaf rfl) (constantText_marks h)
      | captured name v => exact hleaf (dashFree_of_isLeaf rfl) (literal_marks h)
      | column c =>
          obtain rfl := Except.ok.inj h
          exact hleaf (dashFree_of_isLeaf rfl) (columnText_marks hclean position nested)
      | member target name =>
          obtain ⟨⟨p, rfl⟩, ht⟩ := memberText_cases h
          refine hleaf (dashFree_iff.mpr ⟨rfl, ?_⟩) (.plain (hclean.clean ht))
          exact List.forall_mem_singleton.mpr (dashFree_of_isLeaf rfl)
      | unary op operand => exact unaryText_marks (ih List.mem_cons_self) h
      | binary op l r =>
          exact binaryText_marks (ih (by simp [Expr.children])) (ih (by simp [Expr.children]))
            (binaryText_cases h)
      | function f => exact functionText_marks (fun c hc t ht => ih hc ht) h
      | subquery f sql =>
          refine subqueryText_marks (hclean.clean List.mem_cons_self) (fun c hc nested t ht => ?_) h
          exact ih (List.mem_append_right _ hc) ht
      | _ => cases h

/-! Selects -/

theorem newline_barrier {indentation : Indentation} {depth : Nat} {r : String × Nat}
    (h : (newline style indentation).run depth = .ok r) : Barrier r.1 := by
  obtain rfl := Except.ok.inj h
  have hdash : '-' ∉ ("\n" ++ String.ofList
      (List.replicate (indentation.apply depth * style.indentWidth) ' ')).toList := by
    simp [List.mem_replicate]
  exact barrier_of_notMem (by simp [Plain, List.mem_replicate]) (by simp) hdash

theorem declarationText_marks {name : String} (hname : Clean (style.ident name))
    (hclean : CleanNames style e) (h : declarationText style (name, e) = .ok t) :
    Marks (DashFree style e) t := by
  obtain ⟨u, hu, ht⟩ := bind_eq_ok.mp h
  have hvalue := text_marks hclean hu
  have hnamed : Marks (DashFree style e) (u ++ " AS " ++ style.ident name) :=
    (hvalue.between (by decide) (.plain hname)).congr (and_iff_left trivial)
  split at ht
  · obtain rfl := pure_eq_ok.mp ht
    split
    · exact hvalue
    · exact hnamed
  · obtain rfl := pure_eq_ok.mp ht
    exact hnamed

theorem columnsText_marks {columns : List (String × Expr)}
    (hnames : ∀ column ∈ columns, Clean (style.ident column.1))
    (hclean : ∀ column ∈ columns, CleanNames style column.2)
    (h : columnsText style columns = .ok t) :
    Marks (∀ column ∈ columns, DashFree style column.2) t := by
  obtain ⟨ts, hts, ht⟩ := bind_eq_ok.mp h
  obtain rfl := pure_eq_ok.mp ht
  have hall : List.Forall₂ (fun column t => Marks (DashFree style column.2) t) columns ts := by
    refine ((List.forall₂_and_left _ _).mpr ⟨fun c hc => hc, mapM_eq_ok.mp hts⟩).imp ?_
    rintro ⟨name, e⟩ t ⟨hc, ht⟩
    exact declarationText_marks (hnames _ hc) (hclean _ hc) ht
  cases hall with
  | nil => exact (Marks.plain (by decide : Clean "NULL")).congr (by simp)
  | cons hc hcs =>
      have hlist := Marks.intercalate (F := fun column : String × Expr => DashFree style column.2)
        (.cons hc hcs) (by decide : Barrier ", ")
      exact hlist

/-- A clause that begins a line of its own. -/
theorem clause_marks {line keyword : String} (hline : Barrier line) (hkeyword : Barrier keyword)
    (h : Marks (DashFree style e) t) : MarksAfter (DashFree style e) (line ++ keyword ++ t) :=
  .inr ⟨_, _, rfl, hline.append hkeyword, h⟩

theorem filterText_marks {filter : Option Expr} {depth : Nat} {r : String × Nat}
    (hclean : ∀ e ∈ filter, CleanNames style e) (h : (filterText style filter).run depth = .ok r) :
    MarksAfter (∀ e ∈ filter, DashFree style e) r.1 := by
  cases filter with
  | none =>
      cases h
      exact .inl ⟨rfl, fun _ he => nomatch he⟩
  | some e =>
      simp only [filterText, StateT.run_bind, bind_eq_ok] at h
      obtain ⟨line, hline, condition, hcondition, h⟩ := h
      cases h
      have hmarks := text_marks (hclean e rfl) (lift_eq_ok hcondition)
      simpa using clause_marks (newline_barrier hline) (by decide : Barrier "WHERE ") hmarks

theorem conditionText_marks {condition : Option Expr} {depth : Nat} {r : String × Nat}
    (hclean : ∀ e ∈ condition, CleanNames style e)
    (h : (conditionText style condition).run depth = .ok r) :
    MarksAfter (∀ e ∈ condition, DashFree style e) r.1 := by
  cases condition with
  | none =>
      cases h
      exact .inl ⟨rfl, fun _ he => nomatch he⟩
  | some e =>
      simp only [conditionText, StateT.run_bind, bind_eq_ok] at h
      obtain ⟨line, hline, condition, hcondition, _, _, h⟩ := h
      cases h
      have hmarks := text_marks (hclean e rfl) (lift_eq_ok hcondition)
      simpa using clause_marks (newline_barrier hline) (by decide : Barrier "ON ") hmarks

theorem dashFree_select {s : Select Expr} : DashFree style (.select s) ↔
    ((∀ column ∈ s.columns, DashFree style column.2) ∧ DashFree style s.source) ∧
      ∀ f ∈ s.filter, DashFree style f := by
  have hparts : (Expr.select s).writtenParts =
      s.columns.map (·.2) ++ s.source :: s.filter.toList := rfl
  rw [dashFree_iff, hparts, List.forall_mem_append, List.forall_mem_cons, List.forall_mem_map]
  simp only [doublesDash, Option.mem_toList, Option.mem_def, true_and, and_assoc]

theorem dashFree_join {kind : JoinKind} {l r : Expr} {condition : Option Expr} :
    DashFree style (.join kind l r condition) ↔
      (DashFree style l ∧ DashFree style r) ∧ ∀ c ∈ condition, DashFree style c := by
  have hparts : (Expr.join kind l r condition).writtenParts = l :: r :: condition.toList := rfl
  rw [dashFree_iff, hparts, List.forall_mem_cons, List.forall_mem_cons]
  simp only [doublesDash, Option.mem_toList, Option.mem_def, true_and, and_assoc]

theorem selectText_marks {s : Select Expr} {depth : Nat} {r : String × Nat}
    (hclean : CleanNames style (.select s))
    (hsource : ∀ {depth r}, (sourceText style s.source).run depth = .ok r →
      Marks (DashFree style s.source) r.1)
    (h : (selectText style s).run depth = .ok r) : Marks (DashFree style (.select s)) r.1 := by
  have hcolumns (column) (hc : column ∈ s.columns) : column.2 ∈ (Expr.select s).children :=
    List.mem_append_left _ (List.mem_map_of_mem hc)
  have hnames : ∀ column ∈ s.columns, Clean (style.ident column.1) := fun column hc =>
    hclean.clean (List.mem_cons_of_mem _ (List.mem_map_of_mem hc))
  have hfilter (f) (hf : f ∈ s.filter) : f ∈ (Expr.select s).children :=
    List.mem_append_right _ (List.mem_cons_of_mem _ (Option.mem_toList.mpr hf))
  rw [dashFree_select]
  obtain ⟨label, columns, source, filter⟩ := s
  simp only [selectText, StateT.run_bind, bind_eq_ok] at h
  obtain ⟨cs, hcs, line, hline, src, hsrc, fs, hfs, h⟩ := h
  cases h
  have hcs := columnsText_marks hnames (fun c hc => hclean.child (hcolumns c hc)) (lift_eq_ok hcs)
  have hfs := filterText_marks (fun f hf => hclean.child (hfilter f hf)) hfs
  have hfrom : Barrier (line.1 ++ "FROM ") := (newline_barrier hline).append (by decide)
  have hcs := hcs.prepend (by decide : Barrier "SELECT ")
  have htext := (hcs.between hfrom (hsource hsrc)).andThen hfs
  simpa only [String.append_assoc] using htext

theorem sourceText_marks {depth : Nat} {r : String × Nat} (hclean : CleanNames style e)
    (h : (sourceText style e).run depth = .ok r) : Marks (DashFree style e) r.1 := by
  induction e using Expr.children_induction generalizing depth r with
  | step e ih =>
      cases e with
      | table t =>
          cases h
          have hname : Clean (style.ident t.name) := hclean.clean (by simp [identifiers])
          have hlabel : Clean (style.ident t.label) := hclean.clean (by simp [identifiers])
          have htext := (Marks.plain hname).between (by decide : Barrier " ") (.plain hlabel)
          exact htext.congr (iff_of_true ⟨trivial, trivial⟩ (dashFree_of_isLeaf rfl))
      | select s =>
          have hlabel : Clean (style.ident s.label) := hclean.clean (by simp [identifiers])
          simp only [sourceText, StateT.run_bind, bind_eq_ok] at h
          obtain ⟨first, hfirst, select, hselect, last, hlast, h⟩ := h
          cases h
          have hsource : s.source ∈ (Expr.select s).children := by
            simp [Expr.children, Select.children]
          have hselect := selectText_marks hclean (ih _ hsource (hclean.child hsource)) hselect
          have hopen : Barrier ("(" ++ first.1) := .append (by decide) (newline_barrier hfirst)
          have hclose : Barrier (last.1 ++ ") ") := (newline_barrier hlast).append (by decide)
          have htext := (hselect.prepend hopen).between hclose (.plain hlabel)
          simp only [← String.append_assoc] at htext ⊢
          exact htext.congr (and_iff_left trivial)
      | join kind l r condition =>
          have hl : l ∈ (Expr.join kind l r condition).children := List.mem_cons_self
          have hr : r ∈ (Expr.join kind l r condition).children := by simp [Expr.children]
          have hcondition (c) (hc : c ∈ condition) : c ∈ (Expr.join kind l r condition).children :=
            List.mem_cons_of_mem _ (List.mem_cons_of_mem _ (Option.mem_toList.mpr hc))
          simp only [sourceText, StateT.run_bind, bind_eq_ok] at h
          obtain ⟨left, hleft, line, hline, right, hright, on, hon, h⟩ := h
          cases h
          have hleft := ih l hl (hclean.child hl) hleft
          have hright := ih r hr (hclean.child hr) hright
          have hon := conditionText_marks (fun c hc => hclean.child (hcondition c hc)) hon
          have hkind : Barrier (kind.name ++ " ") := by cases kind <;> decide
          have htext := (hleft.between ((newline_barrier hline).append hkind) hright).andThen hon
          simp only [← String.append_assoc] at htext ⊢
          rwa [dashFree_join]
      | _ => cases h

theorem CleanNames.source {p : Projection Expr} (h : CleanNames style (.projection p)) :
    CleanNames style (.select p.source) := by
  refine Expr.forall_mem_nodes.mpr ⟨fun _ hs => h.clean hs, fun c hc => ?_⟩
  exact h.child (List.mem_append_left _ hc)

theorem select_marks {s : Select Expr} (hclean : CleanNames style (.select s))
    (h : (selectText style s).run' 0 = .ok t) : Marks (DashFree style (.select s)) t := by
  obtain ⟨r, hr, rfl⟩ := fmap_eq_ok.mp h
  have hsource : s.source ∈ (Expr.select s).children := by simp [Expr.children, Select.children]
  exact selectText_marks hclean (sourceText_marks (hclean.child hsource)) hr

theorem format_marks (hclean : CleanNames style e) (h : format style e = .ok t) :
    Marks (DashFree style e) t := by
  have hvalue (h : scalarText style e = .ok t) : Marks (DashFree style e) t := text_marks hclean h
  cases e with
  | select s => exact select_marks hclean h
  | projection p =>
      have hfree : DashFree style (.projection p) ↔ DashFree style (.select p.source) := by
        rw [dashFree_iff, dashFree_iff (e := .select p.source)]
        rfl
      exact (select_marks hclean.source h).congr hfree.symm
  | _ => exact hvalue h

end Sql

end Quarry
