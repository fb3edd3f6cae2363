import Quarry.Proofs.Invariants
import Quarry.Proofs.Markers
import Quarry.Proofs.Resolution
import Quarry.Proofs.Starting
/-!
Comment markers in what a provider sends. Folding and binding make no negation of their own, so a
query or a command without one is sent without a marker; with one, there is a marker just where two
dashes are written in a row.
-/
namespace Quarry

namespace Expr

def isNegation : Expr → Bool
  | .unary op _ => op = .negate
  | _ => false

def NegationFree (e : Expr) : Prop := ∀ x ∈ e.nodes, x.isNegation = false

variable {e e' c : Expr}

theorem negationFree_iff :
    NegationFree e ↔ e.isNegation = false ∧ ∀ c ∈ e.children, NegationFree c := forall_mem_nodes

theorem NegationFree.child (h : NegationFree e) (hc : c ∈ e.children) : NegationFree c :=
  (negationFree_iff.mp h).2 c hc

theorem negationFree_of_isLeaf (h : e.isLeaf) : NegationFree e := by
  cases e with
  | constant | captured | parameter | collection | outerRow | table | column =>
      exact negationFree_iff.mpr ⟨rfl, List.forall_mem_nil _⟩
  | _ => cases h

theorem isNegation_of_alike {R : Expr → Expr → Prop} (h : Alike R e e') :
    e'.isNegation = e.isNegation := by
  cases h <;> rfl

theorem NegationFree.of_alike {R : Expr → Expr → Prop} (h : NegationFree e) (halike : Alike R e e')
    (hc : ∀ c c', c ∈ e.children → R c c' → NegationFree c') : NegationFree e' := by
  refine negationFree_iff.mpr ⟨(isNegation_of_alike halike).trans (negationFree_iff.mp h).1, ?_⟩
  intro c' hc'
  obtain ⟨c, hmem, hR⟩ := exists_of_mem_right halike.children hc'
  exact hc c c' hmem hR

/-- Folding puts constants in the place of parts, and leaves the rest as it was. -/
theorem NegationFree.foldLocal (h : NegationFree e) (hfold : e.foldLocal = .ok e') :
    NegationFree e' := by
  induction e using children_induction generalizing e' with
  | step e ih =>
      rcases foldWith_cases hfold with ⟨-, hnode⟩ | ⟨-, halike⟩
      · obtain ⟨v, t, rfl⟩ := foldNode_eq_ok hnode
        exact negationFree_of_isLeaf rfl
      · exact h.of_alike halike fun c c' _ hc => ih c hc.1 (h.child hc.1) hc.2

end Expr

namespace Binding

/-- Binding makes no negation. -/
theorem negationFree_nodeInvariant :
    NodeInvariant { node := fun x => x.isNegation = false } true fun x => x.isNegation = false where
  neutral {e} he := by
    cases e with
    | unary => cases he
    | _ => rfl
  unary h := h
  column _ _ := rfl
  bare _ _ := rfl
  table _ _ := rfl
  projection _ _ := rfl
  select _ := rfl
  list _ := rfl
  source _ _ _ := rfl
  join _ := rfl
  moved h halike := (Expr.isNegation_of_alike halike).trans h

/-- What a query is bound to holds only the negations of the query. -/
theorem Walks.negationFree {catalog : Catalog} {style : IdentifierCase} {e r : Expr} {s : Scope}
    (h : Walks catalog style {} e r s) (he : e.NegationFree) : r.NegationFree :=
  h.forall_mem_nodes negationFree_nodeInvariant (fun _ => trivial) (fun _ => rfl)
    (fun _ _ hfine => hfine) (joinsMeet_of_forall (fun _ _ => trivial) _ _) he

end Binding

/-- A text that is sent, with all that goes into it. -/
structure Statement where
  style : Sql.Style
  /-- The expressions that the text is written from. -/
  parts : List Expr
  /-- The names that are written apart from them. -/
  names : List String
  /-- What the caller has asked for. -/
  request : List Expr
  text : String

namespace Provider

variable {σ : Type} {P : Provider σ}

/-- What a provider sends: a query, a nested query for the rows that enclose it, or a command. -/
inductive Sends (P : Provider σ) : Statement → Prop
  | query {e s s' plan} (h : (P.prepare e).run.run s = (.ok plan, s')) :
      Sends P ⟨P.style, [.select plan.projection.source], [], [e], plan.sql⟩
  | nested {p s s' plan} (h : (P.plan p).run.run s = (.ok plan, s')) :
      Sends P ⟨P.style, [.select p.source], [], [.select p.source], plan.sql⟩
  | clear (t) : Sends P ⟨P.style, [], [t.name], [], Sql.clearText P.style t⟩
  | delete {t predicate p body sql} (hp : Sql.commandLambda t predicate = .ok (p, body))
      (h : Sql.deleteText P.style t predicate = .ok sql) :
      Sends P ⟨Sql.bareStyle P.style t p, [body], [t.name], [predicate], sql⟩
  | update {t assignments predicate p body values sql}
      (hp : Sql.commandLambda t predicate = .ok (p, body))
      (hvalues : assignments.mapM (fun a : String × Expr => a.2.foldLocal) = .ok values)
      (h : Sql.updateText P.style t assignments predicate = .ok sql) :
      Sends P ⟨Sql.bareStyle P.style t p, body :: values, t.name :: assignments.map (·.1),
        predicate :: assignments.map (·.2), sql⟩

theorem negationFree_of_bindsTo {e : Expr} {p : Projection Expr} (h : P.BindsTo e p)
    (he : e.NegationFree) : (Expr.select p.source).NegationFree := by
  obtain ⟨e', hfold, hbind⟩ := h
  obtain ⟨s, hwalks⟩ := Binding.walks_of_bind hbind
  have hresult := hwalks.negationFree (he.foldLocal hfold)
  exact Expr.negationFree_iff.mpr ⟨rfl, fun _ hc => hresult.child (List.mem_append_left _ hc)⟩

end Provider

namespace Sql

variable {style : Style} {t : Table} {predicate body : Expr} {p : Parameter} {sql : String}

theorem dashFree_of_negationFree {e : Expr} (h : e.NegationFree) : DashFree style e := by
  intro x hx
  have hnode := h x (Expr.mem_nodes_of_written hx)
  cases x with
  | unary op operand =>
      cases op with
      | not => rfl
      | negate => cases hnode
  | _ => rfl

theorem negationFree_of_commandLambda (h : commandLambda t predicate = .ok (p, body))
    (hpredicate : predicate.NegationFree) : body.NegationFree := by
  obtain ⟨e, hfold, he⟩ := bind_eq_ok.mp h
  split at he
  next q body' =>
    split at he
    next =>
      cases he
      exact (hpredicate.foldLocal hfold).child List.mem_cons_self
    next => cases he
  next => cases he
  next => cases he

theorem clearText_marks (hname : Clean (style.ident t.name)) : Marks True (clearText style t) :=
  (Marks.plain hname).prepend (by decide)

theorem deleteText_marks (hp : commandLambda t predicate = .ok (p, body))
    (hname : Clean (style.ident t.name)) (hbody : CleanNames (bareStyle style t p) body)
    (h : deleteText style t predicate = .ok sql) :
    Marks (DashFree (bareStyle style t p) body) sql := by
  rw [deleteText] at h
  obtain ⟨_, hp', h⟩ := bind_eq_ok.mp h
  cases hp.symm.trans hp'
  obtain ⟨condition, hcondition, h⟩ := bind_eq_ok.mp h
  obtain rfl := pure_eq_ok.mp h
  have htext := (clearText_marks hname).between (by decide : Barrier "\nWHERE ")
    (text_marks hbody hcondition)
  exact htext.congr (and_iff_right trivial)

theorem member_name {m : Member} {name : String} (h : t.member name = .ok m) : m.name = name := by
  unfold Table.member at h
  split at h
  next hfind =>
    cases h
    simpa using List.find?_some hfind
  next => cases h

theorem assignmentText_marks {a : String × Expr} {value : Expr} (hname : Clean (style.ident a.1))
    (hfold : a.2.foldLocal = .ok value) (hvalue : CleanNames style value)
    (h : assignmentText style t a = .ok sql) : Marks (DashFree style value) sql := by
  obtain ⟨name, e⟩ := a
  have hfold : e.foldLocal = .ok value := hfold
  simp only [assignmentText, bind_eq_ok, pure_eq_ok, hfold] at h
  obtain ⟨m, hm, value', hvalue', text, htext, rfl⟩ := h
  cases hvalue'
  rw [member_name hm]
  exact ((Marks.plain hname).between (by decide : Barrier " = ") (format_marks hvalue htext)).congr
    (and_iff_right trivial)

theorem updateText_marks {assignments : List (String × Expr)} {values : List Expr}
    (hp : commandLambda t predicate = .ok (p, body))
    (hvalues : assignments.mapM (fun a : String × Expr => a.2.foldLocal) = .ok values)
    (hname : Clean (style.ident t.name))
    (hnames : ∀ a ∈ assignments, Clean (style.ident a.1))
    (hclean : ∀ e ∈ body :: values, CleanNames (bareStyle style t p) e)
    (h : updateText style t assignments predicate = .ok sql) :
    Marks (∀ e ∈ body :: values, DashFree (bareStyle style t p) e) sql := by
  rw [updateText] at h
  obtain ⟨_, hp', h⟩ := bind_eq_ok.mp h
  cases hp.symm.trans hp'
  obtain ⟨set, hset, h⟩ := bind_eq_ok.mp h
  have hmarks :
      List.Forall₂ (fun e s => Marks (DashFree (bareStyle style t p) e) s) values set := by
    have hfold := (List.forall₂_and_left _ _).mpr ⟨fun a ha => ha, mapM_eq_ok.mp hvalues⟩
    have hpairs := forall₂_of_left (T := fun e s => ∃ a ∈ assignments,
      a.2.foldLocal = .ok e ∧ assignmentText (bareStyle style t p) t a = .ok s)
      (fun a e s ha hs => ⟨a, ha.1, ha.2, hs⟩) hfold (mapM_eq_ok.mp hset)
    refine ((List.forall₂_and_left _ _).mpr ⟨fun e he => he, hpairs⟩).imp ?_
    rintro e s ⟨he, a, ha, hfold, hs⟩
    exact assignmentText_marks (hnames a ha) hfold (hclean e (List.mem_cons_of_mem _ he)) hs
  split at h
  next => cases h
  next =>
    obtain ⟨condition, hcondition, h⟩ := bind_eq_ok.mp h
    obtain rfl := pure_eq_ok.mp h
    have hbody := text_marks (hclean body List.mem_cons_self) hcondition
    have hset := Marks.intercalate hmarks (by decide : Barrier ", ")
    have hlead := ((Marks.plain hname).prepend (by decide : Barrier "UPDATE ")).between
      (by decide : Barrier "\nSET ") hset
    refine (hlead.between (by decide : Barrier "\nWHERE ") hbody).congr ?_
    rw [List.forall_mem_cons, true_and, and_comm]

end Sql

namespace Provider

variable {σ : Type} {P : Provider σ}

theorem plan_sql {p : Projection Expr} {s s' : ProviderState σ} {plan : Plan}
    (h : (P.plan p).run.run s = (.ok plan, s')) :
    Sql.format P.style (.select p.source) = .ok plan.sql ∧ plan.projection = p := by
  rcases plan_cases h with ⟨err, hx, -⟩ | ⟨sql, m, cache, hsql, -, hx, -⟩
  · cases hx
  · cases hx
    exact ⟨hsql, rfl⟩

theorem prepare_sql {e : Expr} {s s' : ProviderState σ} {plan : Plan}
    (h : (P.prepare e).run.run s = (.ok plan, s')) : P.BindsTo e plan.projection ∧
      Sql.format P.style (.select plan.projection.source) = .ok plan.sql := by
  rcases prepare_cases h with ⟨err, hx, -⟩ | ⟨p, hbinds, hplan⟩
  · cases hx
  · obtain ⟨hsql, hprojection⟩ := plan_sql hplan
    rw [hprojection]
    exact ⟨hbinds, hsql⟩

variable {st : Statement}

theorem Sends.marks (h : P.Sends st) (hnames : ∀ name ∈ st.names, Sql.Clean (st.style.ident name))
    (hparts : ∀ e ∈ st.parts, Sql.CleanNames st.style e) :
    Sql.Marks (∀ e ∈ st.parts, Sql.DashFree st.style e) st.text := by
  cases h with
  | query h =>
      have hmarks := Sql.format_marks (hparts _ List.mem_cons_self) (prepare_sql h).2
      exact hmarks.congr List.forall_mem_singleton.symm
  | nested h =>
      have hmarks := Sql.format_marks (hparts _ List.mem_cons_self) (plan_sql h).1
      exact hmarks.congr List.forall_mem_singleton.symm
  | clear t =>
      have hmarks := Sql.clearText_marks (hnames t.name List.mem_cons_self)
      exact hmarks.congr (iff_of_true trivial (List.forall_mem_nil _))
  | delete hp h =>
      have hmarks := Sql.deleteText_marks hp (hnames _ List.mem_cons_self)
        (hparts _ List.mem_cons_self) h
      exact hmarks.congr List.forall_mem_singleton.symm
  | update hp hvalues h =>
      refine Sql.updateText_marks hp hvalues (hnames _ List.mem_cons_self) (fun a ha => ?_) hparts h
      exact hnames a.1 (List.mem_cons_of_mem _ (List.mem_map_of_mem ha))

/-- What is written holds no negation if the caller has asked for none. -/
theorem Sends.negationFree (h : P.Sends st) (hrequest : ∀ e ∈ st.request, e.NegationFree) :
    ∀ e ∈ st.parts, e.NegationFree := by
  cases h with
  | query h =>
      refine List.forall_mem_singleton.mpr ?_
      exact negationFree_of_bindsTo (prepare_sql h).1 (hrequest _ List.mem_cons_self)
  | nested h => exact hrequest
  | clear t => exact List.forall_mem_nil _
  | delete hp h =>
      refine List.forall_mem_singleton.mpr ?_
      exact Sql.negationFree_of_commandLambda hp (hrequest _ List.mem_cons_self)
  | @update t assignments predicate p body values sql hp hvalues h =>
      refine List.forall_mem_cons.mpr
        ⟨Sql.negationFree_of_commandLambda hp (hrequest _ List.mem_cons_self), fun e he => ?_⟩
      obtain ⟨a, ha, hfold⟩ := exists_of_mem_right (mapM_eq_ok.mp hvalues) he
      have hvalue := hrequest a.2 (List.mem_cons_of_mem _ (List.mem_map_of_mem ha))
      exact hvalue.foldLocal hfold

/-- Every text that is sent holds a comment marker just where a negation is written right before
another dash, and none if the caller has asked for no negation. -/
theorem comment_markers (P : Provider σ) (st : Statement) (h : P.Sends st)
    (hnames : ∀ name ∈ st.names, Sql.Clean (st.style.ident name))
    (hparts : ∀ e ∈ st.parts, ∀ x ∈ e.nodes, ∀ s ∈ Sql.identifiers st.style x, Sql.Clean s) :
    ∃ pieces, Sql.split st.text = some pieces ∧
      (Sql.MarkerFree pieces ↔
        ∀ e ∈ st.parts, ∀ x ∈ e.written, Sql.doublesDash st.style x = false) ∧
      ((∀ e ∈ st.request, ∀ x ∈ e.nodes, x.isNegation = false) → Sql.MarkerFree pieces) := by
  obtain ⟨pieces, hsplits, hfree⟩ := h.marks hnames hparts
  refine ⟨pieces, hsplits.split, hfree, fun hrequest => hfree.mpr fun e he => ?_⟩
  exact Sql.dashFree_of_negationFree (h.negationFree hrequest e he)

/-- A provider over the tables of the examples whose row source has no rows. -/
def ofOwnership : Provider Unit := ⟨Binding.ownership, {}, ⟨fun _ => pure [], pure (), id⟩⟩

def owners : Table := ⟨"Owner", "owners", [⟨"Id", .int32⟩, ⟨"Name", .text⟩]⟩

/-- The owners for whose id a value is one. -/
def ownersWhere (value : Expr → Expr) : Expr :=
  let owner : Parameter := ⟨0, "o", .entity "Owner"⟩
  .lambda [owner] (.binary (.comparison .eq) (value (.member (.parameter owner) "Id"))
    (.constant (.int32 1) .int32))

/-- The id less a negative number, and the id negated twice. -/
theorem comment_markers_of_owners :
    let less := ownersWhere fun id => .binary (.arithmetic .sub) id (.constant (.int32 (-5)) .int32)
    let twice := ownersWhere fun id => .unary .negate (.unary .negate id)
    Sql.deleteText {} owners less = .ok "DELETE FROM owners\nWHERE (id - -5) = 1" ∧
      (∃ pieces, Sql.split "DELETE FROM owners\nWHERE (id - -5) = 1" = some pieces ∧
        Sql.MarkerFree pieces) ∧
      Sql.deleteText {} owners twice = .ok "DELETE FROM owners\nWHERE --id = 1" ∧
      ∃ pieces, Sql.split "DELETE FROM owners\nWHERE --id = 1" = some pieces ∧
        ¬Sql.MarkerFree pieces := by
  intro less twice
  have hless : Sql.deleteText {} owners less = .ok "DELETE FROM owners\nWHERE (id - -5) = 1" := by
    cbv
  have htwice : Sql.deleteText {} owners twice = .ok "DELETE FROM owners\nWHERE --id = 1" := by cbv
  have hname : ∀ name ∈ ["owners"], Sql.Clean (ofOwnership.style.ident name) := by decide
  obtain ⟨xs, hxs, -, hfree⟩ :=
    comment_markers ofOwnership _ (.delete (by cbv) hless) hname (by decide)
  obtain ⟨ys, hys, hiff, -⟩ :=
    comment_markers ofOwnership _ (.delete (by cbv) htwice) hname (by decide)
  refine ⟨hless, ⟨xs, hxs, hfree (by decide)⟩, htwice, ys, hys, fun h => ?_⟩
  exact absurd (hiff.mp h) (by decide)

/-- The names of a query are all of plain letters, and yet a negation of a negation begins a
comment. -/
theorem negated_negation_begins_comment :
    let twice (e : Expr) : Expr := .unary .negate (.unary .negate e)
    let bound : Select Expr := ⟨"t2", Binding.tableColumns owners "t1",
      .select ⟨"t1", Binding.tableColumns owners "t0", .table ⟨"owners", "t0", "Owner"⟩, none⟩,
      some (.binary (.comparison .eq) (twice (.column ⟨"t1", "Id", 0, .int32⟩))
        (.constant (.int32 1) .int32))⟩
    let sql := "SELECT t1.id, t1.name\nFROM (\n  SELECT t0.id, t0.name\n  FROM owners t0\n) t1\n" ++
      "WHERE --t1.id = 1"
    (∃ plan s, (ofOwnership.prepare (.call .filter none
        [.collection "Owner", ownersWhere twice])).run.run ⟨(), {}⟩ = (.ok plan, s) ∧
      plan.projection.source = bound ∧ plan.sql = sql) ∧
      (∀ x ∈ (Expr.select bound).nodes, ∀ s ∈ Sql.identifiers ofOwnership.style x, Sql.Clean s) ∧
      ∃ pieces, Sql.split sql = some pieces ∧ ¬Sql.MarkerFree pieces := by
  intro twice bound sql
  have hclean : ∀ x ∈ (Expr.select bound).nodes, ∀ s ∈ Sql.identifiers ofOwnership.style x,
      Sql.Clean s := by decide +kernel
  have hsql : Sql.format ofOwnership.style (.select bound) = .ok sql := by cbv
  have hdash : ¬∀ x ∈ (Expr.select bound).written,
      Sql.doublesDash ofOwnership.style x = false := by decide +kernel
  obtain ⟨pieces, hsplits, hfree⟩ := Sql.format_marks hclean hsql
  exact ⟨⟨_, _, by cbv, rfl, rfl⟩, hclean, pieces, hsplits.split, fun h => hdash (hfree.mp h)⟩

end Provider

end Quarry
