import Quarry.Proofs.Absorption
import Quarry.Proofs.Folding
import Quarry.Proofs.Writing
import Quarry.Reader

/-!
A nested select made ready for one row: its columns of the enclosing rows become constants, and what
then has a value is folded. Where the result can be written as text, it has by itself the rows that
the nested select has in sight of the enclosing rows.
-/
namespace Quarry

namespace Expr

/-! Columns of enclosing rows -/

/-- A column of an enclosing row as a read of that row; the labels of the enclosing rows are given,
the nearest first. -/
def outerRead (enclosing : List String) : Expr → Option Expr
  | .column c =>
    if c.label ∈ enclosing then
      some (.outerRow ⟨enclosing.idxOf c.label, c.ordinal, c.type⟩)
    else none
  | _ => none

theorem outerRead_column {enclosing : List String} {c : Column} (h : c.label ∈ enclosing) :
    outerRead enclosing (.column c) =
      some (.outerRow ⟨enclosing.idxOf c.label, c.ordinal, c.type⟩) := if_pos h

theorem outerRead_column_of_notMem {enclosing : List String} {c : Column}
    (h : c.label ∉ enclosing) : outerRead enclosing (.column c) = none := if_neg h

theorem outerRead_nil (e : Expr) : outerRead [] e = none := by
  cases e with
  | column c => exact outerRead_column_of_notMem List.not_mem_nil
  | _ => rfl

end Expr

theorem Materializer.correlateNode_withChildren (label : String) (e : Expr) (cs : List Expr) :
    correlateNode label (e.withChildren cs) = correlateNode label e := by
  have hinner : ∀ x : Expr, x.isLeaf = false → correlateNode label x = none := by
    intro x hx
    cases x <;> first | rfl | cases hx
  rcases e.withChildren_cases cs with h | ⟨h, h'⟩
  · rw [h]
  · rw [hinner _ h, hinner _ h']

/-- Inside a nested projection the reads of the rows around it move one level away, and those of the
current row are the nearest. -/
theorem Materializer.correlate_rewrite {label : String} {enclosing : List String}
    {q : Projection Expr} (hlabel : label ∉ enclosing)
    (hq : ∀ r, .outerRow r ∉ (Expr.projection q).nodes) :
    correlate label (q.rewrite (Expr.outerRead enclosing)) =
      q.rewrite (Expr.outerRead (label :: enclosing)) := by
  have hfused := congrArg Id.run (Expr.replaceM_rewrite (m := Id) (e := .projection q)
    (f := fun e => pure (correlateNode label e)) (g := Expr.outerRead enclosing)
    (k := fun e => pure (Expr.outerRead (label :: enclosing) e))
    (fun x cs => congrArg pure (correlateNode_withChildren label x cs)) ?_)
  · rw [Expr.run_replaceM, Expr.run_replaceM, Expr.rewrite_projection rfl,
      Expr.rewrite_projection rfl, Expr.rewrite_projection rfl] at hfused
    exact Expr.projection.inj hfused
  · intro x hx
    cases x with
    | column c =>
        by_cases hc : c.label ∈ enclosing
        · have hne : label ≠ c.label := fun h => hlabel (h ▸ hc)
          refine .inl ⟨_, Expr.outerRead_column hc, ?_⟩
          rw [Expr.outerRead_column (List.mem_cons_of_mem _ hc), List.idxOf_cons_ne _ hne,
            Expr.replaceM_eq]
          rfl
        · refine .inr ⟨Expr.outerRead_column_of_notMem hc, congrArg pure ?_⟩
          by_cases hhead : c.label = label
          · rw [Expr.outerRead_column (hhead ▸ List.mem_cons_self), ← hhead, List.idxOf_cons_self]
            exact (if_pos rfl).symm
          · rw [Expr.outerRead_column_of_notMem (by simp [hhead, hc])]
            exact (if_neg hhead).symm
    | outerRow r => exact absurd hx (hq r)
    | _ => exact .inr ⟨rfl, rfl⟩

theorem Frame.lookup_idxOf {env : Frame} {l : String} (h : l ∈ env.map Prod.fst) :
    ∃ row, env[(env.map Prod.fst).idxOf l]? = some (l, row) ∧ env.lookup l = some row := by
  induction env with
  | nil => cases h
  | cons x env ih =>
      obtain ⟨l', row⟩ := x
      by_cases hl : l' = l
      · subst hl
        exact ⟨row, by simp, by simp⟩
      · obtain ⟨row', hrow, hlookup⟩ := ih (List.mem_of_ne_of_mem (Ne.symm hl) h)
        refine ⟨row', ?_, ?_⟩
        · rw [List.map_cons, List.idxOf_cons_ne _ hl]
          exact hrow
        · rw [List.lookup_cons, beq_false_of_ne (Ne.symm hl)]
          exact hlookup

/-! Putting in the enclosing rows -/

theorem Expr.replaceM_cases {ε : Type} {k : Expr → Except ε (Option Expr)} {e e' : Expr}
    (h : replaceM k e = .ok e') : k e = .ok (some e') ∨
      k e = .ok none ∧ ∃ cs, e' = e.withChildren cs ∧
        List.Forall₂ (fun c c' => c ∈ e.children ∧ replaceM k c = .ok c') e.children cs := by
  rw [replaceM_eq, bind_eq_ok] at h
  obtain ⟨o, ho, h⟩ := h
  cases o with
  | some x =>
      obtain rfl := Except.ok.inj h
      exact .inl ho
  | none =>
      rw [mapChildrenM_eq, fmap_eq_ok] at h
      obtain ⟨cs, hcs, rfl⟩ := h
      refine .inr ⟨ho, cs, rfl, ?_⟩
      exact (List.forall₂_and_left _ _).mpr ⟨fun c hc => hc, mapM_eq_ok.mp hcs⟩

theorem FunctionCall.Alike.receiver_none {R : Expr → Expr → Prop} {f g : FunctionCall Expr}
    (h : f.Alike R g) (hf : f.receiver = none) : g.receiver = none := by
  have hrel := h.receiver
  rw [hf] at hrel
  generalize g.receiver = o at hrel
  cases hrel
  rfl

namespace Reader

theorem substituteNode_withChildren (r : Reader) (e : Expr) (cs : List Expr) :
    r.substituteNode (e.withChildren cs) = r.substituteNode e := by
  have hinner : ∀ x : Expr, x.isLeaf = false → r.substituteNode x = .ok none := by
    intro x hx
    cases x <;> first | rfl | cases hx
  rcases e.withChildren_cases cs with h | ⟨h, h'⟩
  · rw [h]
  · rw [hinner _ h, hinner _ h']

/-- The value that takes the place of a column of an enclosing row. -/
def columnValue (r : Reader) (enclosing : List String) (e : Expr) : Except Error (Option Expr) :=
  match Expr.outerRead enclosing e with
  | some read => r.substituteNode read
  | none => .ok none

theorem replaceM_substituteNode {r : Reader} {enclosing : List String} {e : Expr}
    (he : ∀ row, .outerRow row ∉ e.nodes) :
    Expr.replaceM r.substituteNode (e.rewrite (Expr.outerRead enclosing)) =
      Expr.replaceM (r.columnValue enclosing) e := by
  refine Expr.replaceM_rewrite r.substituteNode_withChildren fun x hx => ?_
  cases x with
  | column c =>
      by_cases hc : c.label ∈ enclosing
      · refine .inl ⟨_, Expr.outerRead_column hc, ?_⟩
        simp [columnValue, Expr.outerRead_column hc, Expr.replaceM_eq, substituteNode]
      · have hnone := Expr.outerRead_column_of_notMem hc
        exact .inr ⟨hnone, by rw [columnValue, hnone]; rfl⟩
  | outerRow row => exact absurd hx (he row)
  | _ => exact .inr ⟨rfl, rfl⟩

/-- The reader stands on the first of the rows, and the others enclose it. -/
def StandsOn (r : Reader) : Frame → Prop
  | [] => False
  | (_, row) :: outer =>
    (∃ c, r.cursor = some c ∧ c.current = some (row.map (·.2))) ∧
      r.outer = outer.map fun x => x.2.map (·.2)

theorem field_of_current {r : Reader} {c : Cursor} {row : Row} {ordinal : Nat} {v : Value}
    (hr : r.cursor = some c) (hc : c.current = some row) (hv : row[ordinal]? = some v) :
    r.field ordinal = .ok v := by
  have hlt : ordinal < row.length := (List.getElem?_eq_some_iff.mp hv).1
  simp only [field, hr, Cursor.fieldCount, hc, if_pos hlt, Cursor.field, hv]

/-- A snapshot of a reader that stands on a row is the row. -/
theorem snapshot_of_current {r : Reader} {c : Cursor} {row values : Row}
    (hcursor : r.cursor = some c) (hcurrent : c.current = some row)
    (hvalues : r.snapshot = .ok values) : values = row := by
  simp only [snapshot, hcursor] at hvalues
  have hcount : c.fieldCount = row.length := by simp only [Cursor.fieldCount, hcurrent]
  rw [hcount, mapM_eq_ok] at hvalues
  refine List.right_unique_forall₂' (fun _ _ _ hv hw => Except.ok.inj (hv.symm.trans hw)) hvalues
    (forall₂_of_getElem? List.length_range fun i ordinal v hordinal hv => ?_)
  obtain rfl : i = ordinal := by
    simpa [List.getElem?_range'] using (List.getElem?_eq_some_iff.mp hordinal).2
  exact field_of_current hcursor hcurrent hv

theorem StandsOn.enclosingField {r : Reader} {env : Frame} {i ordinal : Nat} {x : String × Record}
    {f : String × Value} (h : r.StandsOn env) (hx : env[i]? = some x)
    (hf : x.2[ordinal]? = some f) (t : DataType) : r.enclosingField ⟨i, ordinal, t⟩ = .ok f.2 := by
  have hv : (x.2.map (·.2))[ordinal]? = some f.2 := by rw [List.getElem?_map, hf]; rfl
  cases env with
  | nil => cases h
  | cons y outer =>
      obtain ⟨⟨c, hcursor, hcurrent⟩, houter⟩ := h
      cases i with
      | zero =>
          obtain rfl := Option.some.inj hx
          exact field_of_current hcursor hcurrent hv
      | succ i =>
          have hrow : r.outer[i]? = some (x.2.map (·.2)) := by
            rw [houter, List.getElem?_map]
            exact congrArg _ hx
          simp only [Reader.enclosingField, outerField, hrow, hv]

variable {find : Finder} {r : Reader} {env : Frame} {G : Nat → Signature} {n : Nat}

/-- A column of a row in sight is read from the reader's rows by position, with the value that it has
under its label. -/
theorem StandsOn.read {c : Column} (h : r.StandsOn env) (henv : env.IsTyped find G)
    (hbare : "" ∉ env.map Prod.fst) (hc : Binding.KnownColumn G n c)
    (hl : c.label ∈ env.map Prod.fst) :
    ∃ v, r.enclosingField ⟨(env.map Prod.fst).idxOf c.label, c.ordinal, c.type⟩ = .ok v ∧
      v.Inhabits c.type ∧ (env.lookup c.label).bind (find · c) = some v := by
  obtain ⟨row, hrow, hlookup⟩ := Frame.lookup_idxOf hl
  have hne : c.label ≠ "" := fun heq => hbare (heq ▸ hl)
  obtain ⟨v, hv, hfound, hinhabits⟩ := henv.lookup hc hne hlookup
  exact ⟨v, h.enclosingField hrow hv c.type, hinhabits, by rw [hlookup]; exact hfound⟩

theorem StandsOn.columnValue {c : Column} (h : r.StandsOn env) (henv : env.IsTyped find G)
    (hbare : "" ∉ env.map Prod.fst) (hc : Binding.KnownColumn G n c)
    (hl : c.label ∈ env.map Prod.fst) :
    ∃ v, r.columnValue (env.map Prod.fst) (.column c) = .ok (some (.constant v c.type)) ∧
      v.Inhabits c.type ∧ (env.lookup c.label).bind (find · c) = some v := by
  obtain ⟨v, hv, hinhabits, hfound⟩ := h.read henv hbare hc hl
  refine ⟨v, ?_, hinhabits, hfound⟩
  have hcast : v.cast c.type = .ok v := hinhabits
  simp only [Reader.columnValue, Expr.outerRead_column hl, substituteNode, hv, bind, Except.bind,
    hcast]
  rfl

end Reader

namespace Database

variable {db : Database} {find : Finder} {r : Reader} {env : Frame} {G : Nat → Signature} {n : Nat}
variable {K : Value → DataType → Prop}

theorem replaced_cases {e e' : Expr} (h : r.StandsOn env) (henv : env.IsTyped find G)
    (hbare : "" ∉ env.map Prod.fst) (hnode : Binding.NodeOk K db.catalog G n e)
    (he : Expr.replaceM (r.columnValue (env.map Prod.fst)) e = .ok e') :
    (∃ c v, e = .column c ∧ c.label ∈ env.map Prod.fst ∧ e' = .constant v c.type ∧
        v.Inhabits c.type ∧ (env.lookup c.label).bind (find · c) = some v) ∨
      (∀ c, e = .column c → c.label ∉ env.map Prod.fst) ∧ ∃ cs, e' = e.withChildren cs ∧
        List.Forall₂ (fun c c' => c ∈ e.children ∧
          Expr.replaceM (r.columnValue (env.map Prod.fst)) c = .ok c') e.children cs := by
  by_cases hin : ∃ c, e = .column c ∧ c.label ∈ env.map Prod.fst
  · obtain ⟨c, rfl, hl⟩ := hin
    obtain ⟨v, hv, hinhabits, hfound⟩ := h.columnValue henv hbare hnode hl
    rw [Expr.replaceM_eq, hv] at he
    exact .inl ⟨c, v, rfl, hl, (Except.ok.inj he).symm, hinhabits, hfound⟩
  · have hout : ∀ c, e = .column c → c.label ∉ env.map Prod.fst := fun c hc hl => hin ⟨c, hc, hl⟩
    have hnone : r.columnValue (env.map Prod.fst) e = .ok none := by
      cases e with
      | column c => rw [Reader.columnValue, Expr.outerRead_column_of_notMem (hout c rfl)]
      | _ => rfl
    rcases Expr.replaceM_cases he with hsome | ⟨-, hchildren⟩
    · cases hnone.symm.trans hsome
    · exact .inr ⟨hout, hchildren⟩

/-- Where the columns of the enclosing rows are replaced by their values, the rows are absorbed. -/
theorem absorbs_of_replaceM {e e' : Expr} (h : r.StandsOn env) (henv : env.IsTyped find G)
    (hbare : "" ∉ env.map Prod.fst) (hnodes : ∀ x ∈ e.nodes, Binding.NodeOk K db.catalog G n x)
    (hlabels : List.Disjoint e.labels (env.map Prod.fst))
    (he : Expr.replaceM (r.columnValue (env.map Prod.fst)) e = .ok e') :
    Absorbs db find env e e' := by
  induction e using Expr.children_induction generalizing e' with
  | step e ih =>
      obtain ⟨hnode, hbelow⟩ := Expr.forall_mem_nodes.mp hnodes
      rcases replaced_cases h henv hbare hnode he with
        ⟨c, v, rfl, hl, rfl, -, hfound⟩ | ⟨hcolumn, cs, rfl, hcs⟩
      · refine ⟨rfl, fun inner hinner => ?_, fun _ _ => rfl⟩
        have hnone : inner.lookup c.label = none := Frame.lookup_eq_none fun hin => hinner hin hl
        simp only [scalar, List.lookup_append, hnone, Option.none_or, hfound]
      · refine absorbs_of_alike (Expr.alike_withChildren (hcs.imp ?_)) hlabels hbare hcolumn
        rintro c c' ⟨hc, hc'⟩
        have hdisjoint := List.disjoint_of_subset_left (Expr.labels_child hc) hlabels
        exact ih c hc (hbelow c hc) hdisjoint hc'

end Database

namespace Expr

/-- A node once the enclosing rows are put in: constants have their types, records are not taken
apart, and nothing is left of the query that was bound. -/
def Settled : Expr → Prop
  | .constant v t => v.HasType t
  | .member target _ => Binding.isConstruct target = false
  | .captured .. | .call .. => False
  | .subquery f _ => f.receiver = none
  | _ => True

end Expr

namespace Database

variable {db : Database} {find : Finder} {r : Reader} {env : Frame} {G : Nat → Signature} {n : Nat}
variable {K : Value → DataType → Prop}

theorem isConstruct_withChildren (e : Expr) (cs : List Expr) :
    Binding.isConstruct (e.withChildren cs) = Binding.isConstruct e := by
  unfold Expr.withChildren
  split
  case h_9 => split <;> rfl
  all_goals rfl

theorem isConstruct_of_replaceM {e e' : Expr} (h : r.StandsOn env) (henv : env.IsTyped find G)
    (hbare : "" ∉ env.map Prod.fst) (hnode : Binding.NodeOk K db.catalog G n e)
    (he : Expr.replaceM (r.columnValue (env.map Prod.fst)) e = .ok e') :
    Binding.isConstruct e' = Binding.isConstruct e := by
  rcases replaced_cases h henv hbare hnode he with ⟨c, v, rfl, -, rfl, -⟩ | ⟨-, cs, rfl, -⟩
  · rfl
  · exact isConstruct_withChildren e cs

theorem settled_of_replaceM {e e' : Expr} (h : r.StandsOn env) (henv : env.IsTyped find G)
    (hbare : "" ∉ env.map Prod.fst)
    (hnodes : ∀ x ∈ e.nodes, Binding.NodeOk Value.HasType db.catalog G n x)
    (he : Expr.replaceM (r.columnValue (env.map Prod.fst)) e = .ok e') :
    ∀ x ∈ e'.nodes, x.Settled := by
  induction e using Expr.children_induction generalizing e' with
  | step e ih =>
      obtain ⟨hnode, hbelow⟩ := Expr.forall_mem_nodes.mp hnodes
      rcases replaced_cases h henv hbare hnode he with
        ⟨c, v, rfl, hl, rfl, hv, -⟩ | ⟨hcolumn, cs, rfl, hcs⟩
      · intro x hx
        obtain rfl : x = .constant v c.type := by simpa [Expr.nodes_eq, Expr.children] using hx
        exact .inl hv
      · have halike := Expr.alike_withChildren hcs
        generalize e.withChildren cs = e' at halike
        refine Expr.forall_mem_nodes.mpr ⟨?_, fun c' hc' => ?_⟩
        · cases halike with
          | leaf => cases e <;> first | exact hnode | trivial
          | member name hc =>
              have hsame := isConstruct_of_replaceM h henv hbare
                (hbelow _ hc.1 _ (Expr.self_mem_nodes _)) hc.2
              exact hsame.trans hnode
          | subquery sql hf => exact hf.receiver_none hnode.1
          | call => exact hnode
          | _ => trivial
        · obtain ⟨c, hc, -, hreplace⟩ := exists_of_mem_right halike.children hc'
          exact ih c hc (hbelow c hc) hreplace

/-! Folding -/

theorem isSimple_of_cast {v w : Value} {t : DataType} (h : v.cast t = .ok w) (hw : w.isSimple) :
    v.isSimple := by
  cases v with
  | record fields =>
      cases t <;> simp only [Value.cast, map_eq_ok, Except.ok.injEq, reduceCtorEq] at h
      case record => obtain ⟨fields', -, rfl⟩ := h; cases hw
      all_goals cases h; cases hw
  | list values =>
      cases t <;> simp only [Value.cast, map_eq_ok, Except.ok.injEq, reduceCtorEq] at h
      case null => cases h; cases hw
      all_goals obtain ⟨values', -, rfl⟩ := h; cases hw
  | _ => rfl

theorem typesHold_of_settled {x : Expr} (h : x.Settled) : x.TypesHold := by
  cases x with
  | constant v t => exact h
  | member target name =>
      cases target with
      | construct t ms => cases h
      | _ => trivial
  | _ => trivial

/-- What folding makes of a subtree that has a value is that value, if it has a literal. -/
theorem toConstant_value {e e' : Expr} (hs : ∀ x ∈ e.nodes, x.Settled) (h : e.toConstant = .ok e') :
    ∃ v t, e' = .constant v t ∧ (v.isSimple → e.evaluate = .ok v) := by
  simp only [Expr.toConstant, bind_eq_ok, pure_eq_ok] at h
  obtain ⟨v, hv, w, hw, rfl⟩ := h
  refine ⟨w, _, rfl, fun hsimple => ?_⟩
  have hvs := isSimple_of_cast hw hsimple
  have hinhabits : v.Inhabits (e.staticType?.getD v.dataType) := by
    cases ht : e.staticType? with
    | none => exact Value.inhabits_dataType hvs
    | some t =>
        have htypes : ∀ x ∈ e.nodes, x.TypesHold := fun x hx => typesHold_of_settled (hs x hx)
        rcases Expr.evaluateWith_static (by simp) htypes hv t ht with
          htype | ⟨u, ms, fields, rfl, rfl⟩
        · exact htype.inhabits hvs
        · cases hvs
  rw [hv, Except.ok.inj (hinhabits.symm.trans hw)]

theorem fields_eq_evaluateMembers {ms : List (String × Expr)}
    (h : ∀ m ∈ ms, db.scalar find env m.2 = m.2.evaluate) :
    db.fields find env ms = Expr.evaluateMembers (fun _ => none) ms := by
  induction ms with
  | nil => rfl
  | cons m ms ih =>
      obtain ⟨name, e⟩ := m
      have hhead : db.scalar find env e = e.evaluateWith fun _ => none := h _ List.mem_cons_self
      simp only [fields, Expr.evaluateMembers, hhead, ih fun m hm => h m (List.mem_cons_of_mem _ hm)]

theorem scalar_eq_evaluate {e : Expr} (hl : ∀ x ∈ e.nodes, x.isLocalInSubquery)
    (hs : ∀ x ∈ e.nodes, x.Settled) : db.scalar find env e = e.evaluate := by
  induction e using Expr.children_induction with
  | step e ih =>
      obtain ⟨hlnode, hlbelow⟩ := Expr.forall_mem_nodes.mp hl
      obtain ⟨hsnode, hsbelow⟩ := Expr.forall_mem_nodes.mp hs
      have hchild : ∀ c ∈ e.children, db.scalar find env c = c.evaluate :=
        fun c hc => ih c hc (hlbelow c hc) (hsbelow c hc)
      cases e with
      | constant v t => rfl
      | member target name =>
          simp only [scalar, hchild target (by simp [Expr.children]), Expr.evaluate, Expr.evaluateWith]
      | unary op operand =>
          simp only [scalar, hchild operand (by simp [Expr.children]), Expr.evaluate,
            Expr.evaluateWith]
      | binary op l r =>
          simp only [scalar, hchild l (by simp [Expr.children]), hchild r (by simp [Expr.children]),
            Expr.evaluate, Expr.evaluateWith]
      | construct t ms =>
          have hms := fields_eq_evaluateMembers fun m hm => hchild m.2 (List.mem_map_of_mem hm)
          simp only [scalar, hms, Expr.evaluate, Expr.evaluateWith]
      | captured | call => cases hsnode
      | _ => cases hlnode

/-- A subtree that has a value folds to a constant with the meaning of the subtree. -/
theorem absorbs_of_foldNode {style : Sql.Style} {e e' : Expr} (hs : ∀ x ∈ e.nodes, x.Settled)
    (hl : ∀ x ∈ e.nodes, x.isLocalInSubquery) (h : e.foldNode = .ok e')
    (hw : Sql.Written style e') : Absorbs db find [] e e' := by
  have hcases : e' = e ∨ e.toConstant = .ok e' := by
    cases e with
    | constant v t => exact .inl (Except.ok.inj h).symm
    | _ => exact .inr h
  rcases hcases with rfl | h
  · exact ⟨rfl, fun inner _ => by rw [List.append_nil], fun inner _ => by rw [List.append_nil]⟩
  · obtain ⟨v, t, rfl, hv⟩ := toConstant_value hs h
    have hnode := hl e (Expr.self_mem_nodes e)
    constructor
    · cases e <;> first | rfl | cases hnode
    · intro inner _
      rw [scalar_eq_evaluate hl hs, hv hw.isSimple]
      rfl
    · intro inner _
      cases e <;> first | rfl | cases hnode

theorem absorbs_of_foldWith {style : Sql.Style} {e e' : Expr} (hbare : style.bare = none)
    (hs : ∀ x ∈ e.nodes, x.Settled) (h : e.foldWith Expr.isLocalInSubquery = .ok e')
    (hw : Sql.Written style e') : Absorbs db find [] e e' := by
  induction e using Expr.children_induction generalizing e' with
  | step e ih =>
      obtain ⟨hnode, hbelow⟩ := Expr.forall_mem_nodes.mp hs
      rw [Expr.foldWith_eq] at h
      split at h
      next hl => exact absorbs_of_foldNode hs (List.all_eq_true.mp hl) h hw
      next =>
        obtain ⟨cs, hcs, rfl⟩ := fmap_eq_ok.mp h
        have hfolds := mapM_eq_ok.mp hcs
        have halike := Expr.alike_withChildren hfolds
        have hreceiver : ∀ f sql, e.withChildren cs = .subquery f sql → f.receiver = none := by
          intro f sql hf
          rw [hf] at halike
          cases halike with
          | leaf hleaf => cases hleaf
          | subquery sql hcall => exact hcall.receiver_none hnode
        have hchildren : (e.withChildren cs).children = cs := by
          refine List.right_unique_forall₂' ?_ halike.children hfolds
          exact fun _ _ _ hc hc' => Except.ok.inj (hc.symm.trans hc')
        have hwritten : ∀ c' ∈ cs, Sql.Written style c' :=
          fun c' hc' => hw.child hbare hreceiver (by rwa [hchildren])
        have hparts := ((List.forall₂_and_left _ _).mpr ⟨hwritten, hfolds.flip⟩).flip
        refine absorbs_of_alike (Expr.alike_withChildren ?_) (by simp) (by simp) (by simp)
        refine ((List.forall₂_and_left _ _).mpr ⟨fun c hc => hc, hparts⟩).imp ?_
        rintro c c' ⟨hc, hw', hfold⟩
        exact ih c hc (hbelow c hc) hfold hw'

theorem selectRows_eq_of_sourceRows {env' : Frame} {s s' : Select Expr} (hl : s'.label = s.label)
    (h : db.sourceRows find env' (.select s') = db.sourceRows find env (.select s)) :
    db.selectRows find env' s' = db.selectRows find env s := by
  have hinjective : Function.Injective (List.map fun row : Record => [(s.label, row)]) :=
    List.map_injective_iff.mpr fun _ _ hrow => by simpa using hrow
  simp only [sourceRows, hl] at h
  generalize db.selectRows find env' s' = found' at h ⊢
  generalize db.selectRows find env s = found at h ⊢
  cases found' with
  | error err =>
      cases found with
      | error err' => exact congrArg Except.error (Except.error.inj h)
      | ok rows => cases h
  | ok rows' =>
      cases found with
      | error err => cases h
      | ok rows => exact congrArg Except.ok (hinjective (Except.ok.inj h))

/-- A nested select that is made ready for a row and can be written has the rows of the nested select
in sight of that row and of those around it. -/
theorem specialize_rows {style : Sql.Style} {s s' : Select Expr} {t : String}
    (hstyle : style.bare = none) (h : r.StandsOn env) (henv : env.IsTyped find G)
    (hbare : "" ∉ env.map Prod.fst)
    (hnodes : ∀ x ∈ (Expr.select s).nodes, Binding.NodeOk Value.HasType db.catalog G n x)
    (hlabels : List.Disjoint (Expr.select s).labels (env.map Prod.fst))
    (hs : r.specialize (s.rewrite (Expr.outerRead (env.map Prod.fst))) = .ok s')
    (ht : Sql.format style (.select s') = .ok t) :
    s'.label = s.label ∧ db.selectRows find [] s' = db.selectRows find env s := by
  simp only [Reader.specialize, bind_eq_ok] at hs
  obtain ⟨s₁, hreplace, e, hfold, he⟩ := hs
  obtain rfl : e = .select s' := by
    split at he
    · exact congrArg _ (Except.ok.inj he)
    · cases he
  have houter : ∀ row, .outerRow row ∉ (Expr.select s).nodes := fun row hrow => hnodes _ hrow
  have hput : Expr.replaceM (r.columnValue (env.map Prod.fst)) (.select s) = .ok (.select s₁) := by
    rw [← Reader.replaceM_substituteNode houter, Expr.rewrite_select rfl, Expr.replaceM]
    simp only [Reader.substituteNode, hreplace]
    rfl
  have hsettled := settled_of_replaceM h henv hbare hnodes hput
  have habsorb : Absorbs db find env (.select s) (.select s₁) :=
    absorbs_of_replaceM h henv hbare hnodes hlabels hput
  have hsame : Absorbs db find [] (.select s₁) (.select s') :=
    absorbs_of_foldWith hstyle hsettled hfold (Sql.written_of_format ht)
  have hlabel : s'.label = s.label := Option.some.inj (hsame.label.trans habsorb.label)
  refine ⟨hlabel, selectRows_eq_of_sourceRows hlabel ?_⟩
  rw [hsame.sourceRows [] (by simp), List.append_nil, habsorb.sourceRows [] (by simp), List.nil_append]

end Database

end Quarry
