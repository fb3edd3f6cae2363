import Quarry.Proofs.Reading
/-!
Two ways to the value of a projector: its materializer, run over a row, and the evaluation of the
projector once all that it reads of the row has been put in. They agree on the value, and on the
class of the error if there is none.
-/
namespace Quarry

/-! Outcomes of actions -/

section Outcomes

variable {σ α β : Type} {a : Action σ α} {f : α → Action σ β} {s s₁ s₂ : σ}

/-- From `s` the action has the given outcome: it returns the value and leaves `s'`, or it fails
with an error of the same class. -/
def EndsIn (a : Action σ α) (s s' : σ) : Except Error α → Prop
  | .ok v => a.run.run s = (.ok v, s')
  | .error err => ∃ err' s'', a.run.run s = (.error err', s'') ∧ err'.kind = err.kind

/-- The outcome of a run, up to the wording of an error. -/
def IsOutcome (s' : σ) : Except Error α → Except Error α → σ → Prop
  | .ok v, y, t => y = .ok v ∧ t = s'
  | .error err, y, _ => ∃ err', y = .error err' ∧ err'.kind = err.kind

theorem endsIn_iff {x : Except Error α} :
    EndsIn a s s₁ x ↔ Establishes (· = s) a.run (IsOutcome s₁ x) := by
  rw [establishes_from]
  cases x with
  | ok v => exact Prod.ext_iff
  | error err =>
      constructor
      · rintro ⟨err', s', h, hkind⟩
        rw [h]
        exact ⟨err', rfl, hkind⟩
      · rintro ⟨err', h, hkind⟩
        exact ⟨err', _, Prod.ext h rfl, hkind⟩

namespace EndsIn

theorem lift (x : Except Error α) : EndsIn (liftM x : Action σ α) s s x := by
  refine endsIn_iff.mpr (Relates.lift fun t _ ht => ⟨ht.1, ?_⟩)
  cases x with
  | ok v => exact ⟨rfl, ht.2⟩
  | error err => exact ⟨err, rfl, rfl⟩

theorem bind {x : Except Error α} {g : α → Except Error β} (ha : EndsIn a s s₁ x)
    (hf : ∀ v, EndsIn (f v) s₁ s₂ (g v)) : EndsIn (a >>= f) s s₂ (x >>= g) := by
  refine endsIn_iff.mpr (Relates.andThen (endsIn_iff.mp ha) (fun v => ?_) ?_)
  · rintro t _ ⟨rfl, hv⟩
    cases x with
    | ok w =>
        obtain ⟨hw, rfl⟩ := hv
        cases hw
        exact endsIn_iff.mp (hf v) t t ⟨rfl, rfl⟩
    | error err =>
        obtain ⟨_, herr, -⟩ := hv
        cases herr
  · rintro err' t _ ⟨rfl, hfailed⟩
    cases x with
    | ok w => cases hfailed.1
    | error err =>
        obtain ⟨_, herr, hkind⟩ := hfailed
        cases herr
        exact ⟨rfl, err', rfl, hkind⟩

/-- What is computed from the result without the state. -/
theorem bind_lift {x : Except Error α} {g : α → Except Error β} (ha : EndsIn a s s₁ x) :
    EndsIn (a >>= fun v => liftM (g v)) s s₁ (x >>= g) := ha.bind fun v => lift (g v)

end EndsIn

/-- From every state the action returns a value. -/
def Succeeds (a : Action σ α) : Prop := ∀ s, ∃ v s', a.run.run s = (.ok v, s')

theorem succeeds_iff :
    Succeeds a ↔ Establishes (fun _ => True) a.run fun x _ => ∃ v, x = .ok v := by
  rw [establishes_iff]
  constructor
  · intro h s x s' _ hrun
    obtain ⟨v, t, hv⟩ := h s
    exact ⟨v, congrArg Prod.fst (hrun.symm.trans hv)⟩
  · intro h s
    obtain ⟨v, hv⟩ := h s _ _ trivial rfl
    exact ⟨v, _, Prod.ext hv rfl⟩

namespace Succeeds

theorem pure (v : α) : Succeeds (Pure.pure v : Action σ α) :=
  succeeds_iff.mpr (Relates.pure fun _ _ hst => ⟨hst.1, v, rfl⟩)

theorem bind (ha : Succeeds a) (hf : ∀ v, Succeeds (f v)) : Succeeds (a >>= f) := by
  refine succeeds_iff.mpr (Relates.andThen (succeeds_iff.mp ha) (fun v s t hst => ?_) ?_)
  · exact succeeds_iff.mp (hf v) s t ⟨hst.1, trivial⟩
  · rintro err s _ ⟨rfl, v, hv⟩
    cases hv

theorem mapM {as : List α} (h : ∀ a ∈ as, Succeeds (f a)) : Succeeds (as.mapM f) := by
  induction as with
  | nil => exact .pure []
  | cons a as ih =>
      rw [List.mapM_cons]
      refine (h a List.mem_cons_self).bind fun b => ?_
      exact (ih fun a ha => h a (List.mem_cons_of_mem _ ha)).bind fun bs => .pure _

end Succeeds

end Outcomes

/-! Reads of a row -/

/-- The forms of a projector over the rows at `label` that runs no nested projection. -/
def Expr.isRowScalar (label : String) : Expr → Bool
  | .column c => c.label = label
  | .outerRow _ | .constant .. | .construct .. | .member .. | .unary .. | .binary .. => true
  | _ => false

namespace RowAccess

variable {σ : Type} (row : RowAccess σ)

/-- The constant that takes the place of a read: what is read, cast to its type. -/
def constant? : Expr → Action σ (Option Expr)
  | .column c => do
    let v ← row.field c.ordinal
    return some (.constant (← v.cast c.type) c.type)
  | .outerRow r => do
    let v ← row.outer r.depth r.ordinal
    return some (.constant (← v.cast r.type) r.type)
  | _ => return none

/-- The expression with every read replaced by its constant, from left to right. -/
def fill (e : Expr) : Action σ Expr := e.replaceM row.constant?

variable {row}

theorem fill_eq (e : Expr) : row.fill e = row.constant? e >>= fun
    | some e => pure e
    | none => e.mapChildrenM row.fill := Expr.replaceM_eq _ e

theorem fill_of_none {e : Expr} (h : row.constant? e = pure none) :
    row.fill e = e.mapChildrenM row.fill := by
  rw [fill_eq, h, pure_bind]

/-- All columns and outer rows that the expression refers to can be read and cast to their types. -/
structure CanRead (row : RowAccess σ) (e : Expr) : Prop where
  column : ∀ c, .column c ∈ e.nodes → Succeeds (do (← row.field c.ordinal).cast c.type)
  outerRow : ∀ r, .outerRow r ∈ e.nodes → Succeeds (do (← row.outer r.depth r.ordinal).cast r.type)

theorem constant?_succeeds {e : Expr} (h : row.CanRead e) : Succeeds (row.constant? e) := by
  cases e with
  | column c =>
      have hread := (h.column c (Expr.self_mem_nodes _)).bind
        fun v => .pure (some (Expr.constant v c.type))
      simpa only [constant?, bind_assoc] using hread
  | outerRow r =>
      have hread := (h.outerRow r (Expr.self_mem_nodes _)).bind
        fun v => .pure (some (Expr.constant v r.type))
      simpa only [constant?, bind_assoc] using hread
  | _ => exact .pure none

/-- What can be read can be put in. -/
theorem fill_succeeds {e : Expr} (h : row.CanRead e) : Succeeds (row.fill e) := by
  induction e using Expr.children_induction with
  | step e ih =>
      have hchild : ∀ c ∈ e.children, Succeeds (row.fill c) := by
        intro c hc
        refine ih c hc ⟨fun x hx => ?_, fun x hx => ?_⟩
        · exact h.column x (Expr.mem_nodes_of_child hc hx)
        · exact h.outerRow x (Expr.mem_nodes_of_child hc hx)
      rw [fill_eq]
      refine (constant?_succeeds h).bind fun o => ?_
      cases o with
      | some e => exact .pure e
      | none =>
          rw [Expr.mapChildrenM_eq, map_eq_pure_bind]
          exact (Succeeds.mapM hchild).bind fun cs => .pure _

variable {s s' : σ} {e e' : Expr}

/-- What is put in for a read is the constant of what is read. -/
theorem fill_read {read : Action σ Value} {t : DataType}
    (h : row.constant? e = do
      let v ← read
      return some (.constant (← v.cast t) t))
    (hfill : (row.fill e).run.run s = (.ok e', s')) :
    EndsIn (do (← read).cast t) s s' e'.evaluate := by
  rw [fill_eq, h] at hfill
  obtain ⟨o, s₁, hconstant, hresult⟩ := run_bind_ok hfill
  obtain ⟨v, s₂, hread, hrest⟩ := run_bind_ok hconstant
  obtain ⟨w, s₃, hcast, hsome⟩ := run_bind_ok hrest
  cases hsome
  cases hresult
  obtain ⟨hw, rfl⟩ := run_lift_eq hcast
  have hvalue : EndsIn read s s₂ (.ok v) := hread
  have hevaluate : (Expr.constant w t).evaluate = .ok v >>= (·.cast t) := hw.symm
  rw [hevaluate]
  exact hvalue.bind_lift

end RowAccess

namespace Materializer

variable {σ : Type}

/-- Taking a member out of a built record is reading it, up to the wording of the error. -/
theorem takeMember_endsIn {s : σ} (name : String) (w : Value) :
    EndsIn (liftM (takeMember name w) : Action σ Value) s s (w.member name) := by
  cases w with
  | record fields =>
      have hextract := Record.fst_extract name fields
      rw [takeMember, Value.member, Record.take, ← hextract]
      cases Record.extract name fields with
      | none => exact ⟨_, s, rfl, rfl⟩
      | some found => rfl
  | _ => exact .lift _

variable (σ) in
/-- The materializer has the outcome of evaluating the projector with what it reads put in. -/
def Interprets (e : Expr) (m : Materializer) : Prop :=
  ∀ (row : RowAccess σ) (s s' : σ) (e' : Expr), (row.fill e).run.run s = (.ok e', s') →
    EndsIn (m.run row) s s' e'.evaluate

variable {label : String}

/-- The members are built and evaluated one after the other, and the first failure ends both. -/
theorem ofMembers_interprets {ms : List (String × Expr)}
    (h : ∀ x ∈ ms, ∃ m, ofExpr label x.2 = .ok m ∧ Interprets σ x.2 m) :
    ∃ mats, ofMembers label ms = .ok mats ∧ ∀ (row : RowAccess σ) (s s' : σ) ms',
      (Expr.mapMembersM row.fill ms).run.run s = (.ok ms', s') →
        EndsIn (runMembers row mats) s s' (Expr.evaluateMembers (fun _ => none) ms') := by
  induction ms with
  | nil =>
      refine ⟨[], rfl, fun row s s' ms' hfill => ?_⟩
      cases hfill
      rfl
  | cons x ms ih =>
      obtain ⟨name, e⟩ := x
      obtain ⟨m, hm, hinterprets⟩ := h _ List.mem_cons_self
      obtain ⟨mats, hmats, hrest⟩ := ih fun x hx => h x (List.mem_cons_of_mem _ hx)
      refine ⟨(name, m) :: mats, by rw [ofMembers, hm, hmats]; rfl, fun row s s' ms' hfill => ?_⟩
      rw [Expr.mapMembersM, List.mapM_cons] at hfill
      obtain ⟨x', s₁, hx, hfill⟩ := run_bind_ok hfill
      obtain ⟨e', s₂, he, hx⟩ := run_bind_ok hx
      obtain ⟨ms'', s₃, hms, hfill⟩ := run_bind_ok hfill
      cases hx
      cases hfill
      rw [runMembers, Expr.evaluateMembers]
      exact (hinterprets row s s₁ e' he).bind fun v =>
        (hrest row s₁ s' ms'' hms).bind fun fields => .lift (.ok _)

/-- A projector that runs no nested projection has a materializer, which interprets it. -/
theorem ofExpr_interprets {e : Expr} (h : ∀ x ∈ e.nodes, x.isRowScalar label) :
    ∃ m, ofExpr label e = .ok m ∧ Interprets σ e m := by
  induction e using Expr.children_induction with
  | step e ih =>
      obtain ⟨hnode, hbelow⟩ := Expr.forall_mem_nodes.mp h
      cases e with
      | constant v t =>
          refine ⟨.constant v, rfl, fun row s s' e' hfill => ?_⟩
          rw [RowAccess.fill_of_none rfl] at hfill
          cases hfill
          rfl
      | column c =>
          have hlabel : c.label = label := by simpa [Expr.isRowScalar] using hnode
          have hm : ofExpr label (.column c) = .ok (.column c.ordinal c.type) := by
            rw [ofExpr, if_pos hlabel]
          refine ⟨.column c.ordinal c.type, hm, fun row s s' e' hfill => ?_⟩
          rw [run]
          exact RowAccess.fill_read rfl hfill
      | outerRow r =>
          refine ⟨.outer r.depth r.ordinal r.type, rfl, fun row s s' e' hfill => ?_⟩
          rw [run]
          exact RowAccess.fill_read rfl hfill
      | member target name =>
          have hc : target ∈ (Expr.member target name).children := by simp [Expr.children]
          obtain ⟨m, hm, hinterprets⟩ := ih target hc (hbelow target hc)
          refine ⟨.member m name, by rw [ofExpr, hm]; rfl, fun row s s' e' hfill => ?_⟩
          rw [RowAccess.fill_of_none rfl, Expr.mapChildrenM] at hfill
          obtain ⟨target', s₁, htarget, hfill⟩ := run_bind_ok hfill
          cases hfill
          rw [run]
          exact (hinterprets row s s' target' htarget).bind (takeMember_endsIn name)
      | unary op operand =>
          have hc : operand ∈ (Expr.unary op operand).children := by simp [Expr.children]
          obtain ⟨m, hm, hinterprets⟩ := ih operand hc (hbelow operand hc)
          refine ⟨.unary op m, by rw [ofExpr, hm]; rfl, fun row s s' e' hfill => ?_⟩
          rw [RowAccess.fill_of_none rfl, Expr.mapChildrenM] at hfill
          obtain ⟨operand', s₁, hoperand, hfill⟩ := run_bind_ok hfill
          cases hfill
          rw [run]
          exact (hinterprets row s s' operand' hoperand).bind_lift
      | binary op left right =>
          have hl : left ∈ (Expr.binary op left right).children := by simp [Expr.children]
          have hr : right ∈ (Expr.binary op left right).children := by simp [Expr.children]
          obtain ⟨m, hm, hinterprets⟩ := ih left hl (hbelow left hl)
          obtain ⟨m', hm', hinterprets'⟩ := ih right hr (hbelow right hr)
          refine ⟨.binary op m m', by rw [ofExpr, hm, hm']; rfl, fun row s s' e' hfill => ?_⟩
          rw [RowAccess.fill_of_none rfl, Expr.mapChildrenM] at hfill
          obtain ⟨left', s₁, hleft, hfill⟩ := run_bind_ok hfill
          obtain ⟨right', s₂, hright, hfill⟩ := run_bind_ok hfill
          cases hfill
          rw [run]
          exact (hinterprets row s s₁ left' hleft).bind fun v =>
            (hinterprets' row s₁ s' right' hright).bind_lift
      | construct t ms =>
          obtain ⟨mats, hmats, hinterprets⟩ := ofMembers_interprets (σ := σ) fun x hx =>
            ih x.2 (List.mem_map_of_mem hx) (hbelow x.2 (List.mem_map_of_mem hx))
          refine ⟨.record mats, by rw [ofExpr, hmats]; rfl, fun row s s' e' hfill => ?_⟩
          rw [RowAccess.fill_of_none rfl, Expr.mapChildrenM] at hfill
          obtain ⟨ms', s₁, hms, hfill⟩ := run_bind_ok hfill
          cases hfill
          rw [run]
          exact (hinterprets row s s' ms' hms).bind fun fields => .lift (.ok _)
      | _ => cases hnode

/-- A materializer agrees with the evaluation of its projector. A projector of columns of its row,
reads of enclosing rows, constants, members, operators and records has a materializer. If all that
the projector reads can be read and cast to its type, it can be put in as constants, and then the
materializer returns the value of the projector, or fails with an error of the class that its
evaluation fails with. -/
theorem run_agrees_with_evaluation {σ : Type} (p : Projection Expr)
    (h : ∀ x ∈ p.projector.nodes, x.isRowScalar p.source.label) :
    ∃ m, build p = .ok m ∧ ∀ row : RowAccess σ,
      (row.CanRead p.projector → ∀ s, ∃ e' s', (row.fill p.projector).run.run s = (.ok e', s')) ∧
        ∀ s e' s', (row.fill p.projector).run.run s = (.ok e', s') →
          EndsIn (m.run row) s s' e'.evaluate := by
  obtain ⟨m, hm, hinterprets⟩ := ofExpr_interprets (σ := σ) h
  refine ⟨m, hm, fun row => ⟨RowAccess.fill_succeeds, fun s e' s' hfill => ?_⟩⟩
  exact hinterprets row s s' e' hfill

/-- An accessor that counts its reads. Of two fields of one name the first is taken, and one that
the record lacks is missing in both ways. -/
theorem run_agrees_with_evaluation_of_titles :
    let row : RowAccess Nat :=
      { field := fun n => do
          modify (· + 1)
          return ([.text "Math", .int64 4] : Row)[n]?.getD .null
        outer := fun _ _ => do
          modify (· + 1)
          return .text "Ann"
        subquery := fun _ => throw .nestedTooDeep }
    let id : Expr := .column ⟨"t1", "Id", 1, .int32⟩
    let title : Expr := .binary (.arithmetic .add) (.column ⟨"t1", "Title", 0, .text⟩)
      (.outerRow ⟨0, 1, .text⟩)
    let pair : Expr := .construct .null [("a", title), ("a", id)]
    let projecting (e : Expr) : Projection Expr :=
      ⟨⟨"t1", [], .table ⟨"Books", "t0", "Book"⟩, none⟩, e, .queryable⟩
    (∃ m, build (projecting (.member pair "a")) = .ok m ∧
      (m.run row).run.run 0 = (.ok (.text "MathAnn"), 3)) ∧
      ∃ m err s, build (projecting (.member pair "b")) = .ok m ∧
        (m.run row).run.run 0 = (.error err, s) ∧ err.kind = .missingMapping := by
  intro row id title pair projecting
  have hscalar (name : String) : ∀ x ∈ (Expr.member pair name).nodes, x.isRowScalar "t1" := by
    simp [Expr.nodes_eq, Expr.children, pair, title, id, Expr.isRowScalar]
  have hfill (name : String) : (row.fill (.member pair name)).run.run 0 =
      (.ok (.member (.construct .null
        [("a", .binary (.arithmetic .add) (.constant (.text "Math") .text)
            (.constant (.text "Ann") .text)),
          ("a", .constant (.int32 4) .int32)]) name), 3) := by cbv
  obtain ⟨m, hm, hfound⟩ :=
    run_agrees_with_evaluation (σ := Nat) (projecting (.member pair "a")) (hscalar "a")
  obtain ⟨m', hm', hmissing⟩ :=
    run_agrees_with_evaluation (σ := Nat) (projecting (.member pair "b")) (hscalar "b")
  obtain ⟨err, s, hrun, hkind⟩ := (hmissing row).2 0 _ 3 (hfill "b")
  exact ⟨⟨m, hm, (hfound row).2 0 _ 3 (hfill "a")⟩, m', err, s, hm', hrun, hkind⟩

end Materializer

end Quarry
