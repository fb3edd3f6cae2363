import Quarry.Proofs.Items
import Quarry.Proofs.Safety
/-!
What reading does to the state, said once for every executor: a row runs the nested projections of
its projector one after the other, and a nested projection is a run of its own that is read to the
end. An invariant that follows the cursors held open is kept by all of it.
-/
namespace Quarry

/-! The nested projections of a row -/

namespace Materializer

mutual

/-- The nested projections that a materializer runs, in order. -/
def subqueries : Materializer → List (Projection Expr)
  | .column .. | .constant _ | .outer .. => []
  | .record members => subqueriesMembers members
  | .member target _ => subqueries target
  | .unary _ e => subqueries e
  | .binary _ l r => subqueries l ++ subqueries r
  | .subquery p => [p]

def subqueriesMembers : List (String × Materializer) → List (Projection Expr)
  | [] => []
  | (_, m) :: rest => subqueries m ++ subqueriesMembers rest

end

end Materializer

/-- The outermost projections of an expression, from left to right. -/
def Expr.outermost : Expr → List (Projection Expr) :=
  fold fun e parts =>
    match e with
    | .projection p => [p]
    | _ => parts.flatten

/-- The nested projections of a row, as they are seen from inside. -/
def Projection.nested (p : Projection Expr) : List (Projection Expr) :=
  p.projector.outermost.map (Materializer.correlate p.source.label)

namespace Expr

theorem outermost_projection (p : Projection Expr) : (Expr.projection p).outermost = [p] := by
  rw [outermost, fold_eq]

theorem outermost_eq {e : Expr} (h : Binding.isProjection e = false) :
    e.outermost = e.children.flatMap outermost := by
  rw [outermost, fold_eq]
  cases e with
  | projection p => cases h
  | _ => rfl

end Expr

namespace Materializer

variable {label : String} {e : Expr}

theorem subqueriesMembers_of_ofMembers {ms : List (String × Expr)}
    {mats : List (String × Materializer)}
    (h : ∀ x ∈ ms, ∀ m, ofExpr label x.2 = .ok m →
      m.subqueries = x.2.outermost.map (correlate label))
    (hms : ofMembers label ms = .ok mats) :
    subqueriesMembers mats = ((ms.map (·.2)).flatMap Expr.outermost).map (correlate label) := by
  induction ms generalizing mats with
  | nil =>
      cases hms
      rfl
  | cons x ms ih =>
      obtain ⟨name, e⟩ := x
      simp only [ofMembers, bind_eq_ok, pure_eq_ok] at hms
      obtain ⟨m, hm, mats, hmats, rfl⟩ := hms
      rw [subqueriesMembers, h _ List.mem_cons_self m hm,
        ih (fun x hx => h x (List.mem_cons_of_mem _ hx)) hmats, List.map_cons, List.flatMap_cons,
        List.map_append]

/-- A materializer runs the outermost projections of its projector, in order. -/
theorem subqueries_of_ofExpr {m : Materializer} (h : ofExpr label e = .ok m) :
    m.subqueries = e.outermost.map (correlate label) := by
  induction e using Expr.children_induction generalizing m with
  | step e ih =>
      cases e with
      | constant | outerRow =>
          cases h
          rfl
      | column c =>
          rw [ofExpr] at h
          split at h
          · cases h
            rfl
          · cases h
      | projection p =>
          cases h
          rw [Expr.outermost_projection]
          rfl
      | member target name =>
          obtain ⟨m, hm, hmember⟩ := bind_eq_ok.mp h
          cases hmember
          rw [subqueries, ih target (by simp [Expr.children]) hm,
            Expr.outermost_eq (e := .member target name) rfl]
          simp [Expr.children]
      | unary op a =>
          obtain ⟨m, hm, hunary⟩ := bind_eq_ok.mp h
          cases hunary
          rw [subqueries, ih a (by simp [Expr.children]) hm,
            Expr.outermost_eq (e := .unary op a) rfl]
          simp [Expr.children]
      | binary op a b =>
          obtain ⟨m, hm, hrest⟩ := bind_eq_ok.mp h
          obtain ⟨m', hm', hbinary⟩ := bind_eq_ok.mp hrest
          cases hbinary
          rw [subqueries, ih a (by simp [Expr.children]) hm, ih b (by simp [Expr.children]) hm',
            Expr.outermost_eq (e := .binary op a b) rfl]
          simp [Expr.children]
      | construct t ms =>
          obtain ⟨mats, hmats, hrecord⟩ := bind_eq_ok.mp h
          cases hrecord
          rw [subqueries, Expr.outermost_eq rfl]
          exact subqueriesMembers_of_ofMembers
            (fun x hx m => ih x.2 (List.mem_map_of_mem hx)) hmats
      | _ => cases h

theorem subqueries_of_build {p : Projection Expr} {m : Materializer} (h : build p = .ok m) :
    m.subqueries = p.nested := subqueries_of_ofExpr h

end Materializer

/-- Runs projections one after the other. The run may stop after any of them; it is complete if all
of them have succeeded. -/
inductive Calls {σ : Type} (call : Projection Expr → Action σ Value) :
    List (Projection Expr) → σ → Bool → σ → Prop
  | done {s} : Calls call [] s true s
  | stopped {qs s} : Calls call qs s false s
  | failed {q qs s e s'} (h : (call q).run.run s = (.error e, s')) : Calls call (q :: qs) s false s'
  | called {q qs s v s₁ complete s₂} (h : (call q).run.run s = (.ok v, s₁))
      (hs : Calls call qs s₁ complete s₂) : Calls call (q :: qs) s complete s₂

namespace Calls

variable {σ : Type} {call : Projection Expr → Action σ Value} {qs qs' : List (Projection Expr)}
variable {s s₁ s₂ : σ} {complete : Bool}

theorem append (h : Calls call qs s true s₁) (h' : Calls call qs' s₁ complete s₂) :
    Calls call (qs ++ qs') s complete s₂ := by
  generalize hc : true = c at h
  induction h with
  | done => exact h'
  | stopped => cases hc
  | failed => cases hc
  | called hcall _ ih => exact .called hcall (ih h' hc)

theorem incomplete (h : Calls call qs s false s₁) : Calls call (qs ++ qs') s false s₁ := by
  generalize hc : false = c at h
  induction h with
  | done => cases hc
  | stopped => exact .stopped
  | failed hcall => exact .failed hcall
  | called hcall _ ih => exact .called hcall (ih hc)

/-- What each of the projections keeps is kept by the whole run. -/
theorem keeps {Inv : σ → Prop} (h : Calls call qs s complete s₁) (hs : Inv s)
    (hcall : ∀ q ∈ qs, ∀ t x t', (call q).run.run t = (x, t') → Inv t → Inv t') : Inv s₁ := by
  induction h with
  | done => exact hs
  | stopped => exact hs
  | failed h => exact hcall _ List.mem_cons_self _ _ _ h hs
  | called h _ ih =>
      apply ih (hcall _ List.mem_cons_self _ _ _ h hs)
      intro q hq
      exact hcall q (List.mem_cons_of_mem _ hq)

end Calls

/-- Whatever the action returns, it runs these projections in order and touches the state in no other
way. It returns a value only if all of them have succeeded. -/
def RunsOnly {σ α : Type} (call : Projection Expr → Action σ Value) (qs : List (Projection Expr))
    (a : Action σ α) : Prop :=
  ∀ s x s', a.run.run s = (x, s') → Calls call qs s x.isOk s'

namespace RunsOnly

variable {σ α β : Type} {call : Projection Expr → Action σ Value} {qs qs' : List (Projection Expr)}

theorem lift (y : Except Error α) : RunsOnly call [] (liftM y) := by
  intro s x s' h
  cases y with
  | error e =>
      cases h
      exact .stopped
  | ok v =>
      cases h
      exact .done

theorem pure (v : α) : RunsOnly call [] (Pure.pure v) := lift (.ok v)

theorem bind {a : Action σ α} {f : α → Action σ β} (ha : RunsOnly call qs a)
    (hf : ∀ v, RunsOnly call qs' (f v)) : RunsOnly call (qs ++ qs') (a >>= f) := by
  intro s x s' h
  rcases run_bind_cases h with ⟨e, hrun, rfl⟩ | ⟨v, s₁, hrun, hrest⟩
  · exact (ha s _ s' hrun).incomplete
  · exact (ha s _ s₁ hrun).append (hf v s₁ x s' hrest)

/-- What follows runs no projection. -/
theorem followed {a : Action σ α} {f : α → Action σ β} (ha : RunsOnly call qs a)
    (hf : ∀ v, RunsOnly call [] (f v)) : RunsOnly call qs (a >>= f) := by
  have h := ha.bind hf
  rw [List.append_nil] at h
  exact h

end RunsOnly

namespace Executor

variable {σ : Type} {nested : Nested σ} {r : Reader}

mutual

/-- Building the value of a row runs the nested projections of the materializer, and nothing else
touches the state. -/
theorem run_runsOnly : (m : Materializer) →
    RunsOnly (nested r) m.subqueries (m.run (rowAccess nested r))
  | .column ordinal type => (RunsOnly.lift (r.field ordinal)).followed fun v => .lift (v.cast type)
  | .outer depth ordinal type =>
    (RunsOnly.lift (r.outerField depth ordinal)).followed fun v => .lift (v.cast type)
  | .constant v => .pure v
  | .record members => (runMembers_runsOnly members).followed fun fields =>
    .pure (Value.record fields)
  | .member target name =>
    (run_runsOnly target).followed fun v => .lift (Materializer.takeMember name v)
  | .unary op e => (run_runsOnly e).followed fun v => .lift (Value.applyUnary op v)
  | .binary op a b =>
    (run_runsOnly a).bind fun v => (run_runsOnly b).followed fun w => .lift (Value.applyBinary op v w)
  | .subquery p => by
      intro s x s' h
      cases x with
      | error e => exact .failed h
      | ok v => exact .called h .done

theorem runMembers_runsOnly : (members : List (String × Materializer)) →
    RunsOnly (nested r) (Materializer.subqueriesMembers members)
      (Materializer.runMembers (rowAccess nested r) members)
  | [] => .pure []
  | (name, m) :: rest =>
    (run_runsOnly m).bind fun v =>
      (runMembers_runsOnly rest).followed fun fields => .pure ((name, v) :: fields)

end

end Executor

/-! Invariants -/

/-- A nested select that is made ready for a row keeps its label. -/
theorem Reader.specialize_label {r : Reader} {s s' : Select Expr} (h : r.specialize s = .ok s') :
    s'.label = s.label := by
  obtain ⟨label, columns, source, filter⟩ := s
  simp only [specialize, Expr.replaceSelectM, bind_eq_ok, pure_eq_ok] at h
  obtain ⟨s₁, ⟨columns', -, source', -, filter', -, rfl⟩, e, he, h⟩ := h
  obtain ⟨s₂, rfl, hlabel⟩ := Expr.foldWith_select he
  cases h
  exact hlabel

/-- The number of cursors that a reader holds open. -/
def Reader.held (r : Reader) : Nat := if r.isFinished then 0 else 1

namespace Executor

variable {σ : Type}

/-- An invariant that is told how many cursors are held open. Every start of a projection that `Good`
admits opens one more, and a release closes one; the nested projections of what is started are
admitted again. -/
structure Keeps (X : Executor σ) (Good : Projection Expr → Prop) (Inv : Nat → σ → Prop) : Prop where
  start : ∀ q, Good q → ∀ source outer, source.label = q.source.label → ∀ k s x s', Inv k s →
    (X.start { q with source } outer).run.run s = (x, s') →
      Yields (fun _ => Inv k s') x fun inner =>
        Inv (k + 1) s' ∧ inner.held = 1 ∧ ∀ q' ∈ inner.materializer.subqueries, Good q'
  beforeRead : ∀ k s x s', Inv k s → X.beforeRead.run.run s = (x, s') → Inv k s'
  release : ∀ k s, Inv (k + 1) s → Inv k (X.release s)

variable {X : Executor σ} {Good : Projection Expr → Prop} {Inv : Nat → σ → Prop}
variable {nested : Nested σ} {r r' : Reader} {k : Nat} {s s' : σ}

/-- Running a nested projection leaves no cursor open. -/
def NestedKeeps (nested : Nested σ) (Good : Projection Expr → Prop) (Inv : Nat → σ → Prop) : Prop :=
  ∀ r q, Good q → ∀ k s x s', (nested r q).run.run s = (x, s') → Inv k s → Inv k s'

theorem nextWith_keeps {item : Option (Except Error Value)} (hX : X.Keeps Good Inv)
    (hnested : NestedKeeps nested Good Inv) (hr : ∀ q ∈ r.materializer.subqueries, Good q)
    (h : (X.nextWith nested r).run s = ((item, r'), s')) (hs : Inv (k + r.held) s) :
    Inv (k + r'.held) s' := by
  cases hc : r.cursor with
  | none =>
      have hfinished : r.isFinished := by simp [Reader.isFinished, hc]
      rw [nextWith_finished hfinished] at h
      cases h
      exact hs
  | some c =>
      have hheld : r.held = 1 := by simp [Reader.held, Reader.isFinished, hc]
      rw [hheld] at hs
      cases nextWith_advances hc h with
      | unread hread => exact hX.release _ _ (hX.beforeRead _ _ _ _ hs hread)
      | ended hread => exact hX.release _ _ (hX.beforeRead _ _ _ _ hs hread)
      | unbuilt hread hrest hrun =>
          have hcalls := run_runsOnly r.materializer _ _ _ hrun
          apply hX.release
          exact hcalls.keeps (hX.beforeRead _ _ _ _ hs hread) fun q hq => hnested _ q (hr q hq) _
      | built hread hrest hrun =>
          have hcalls := run_runsOnly r.materializer _ _ _ hrun
          exact hcalls.keeps (hX.beforeRead _ _ _ _ hs hread) fun q hq => hnested _ q (hr q hq) _

theorem drop_keeps (hX : X.Keeps Good Inv) (r : Reader) (hs : Inv (k + r.held) s) :
    Inv k ((X.drop r).run s).2 := by
  unfold drop
  unfold Reader.held at hs
  cases hr : r.isFinished with
  | true =>
      rw [hr] at hs
      exact hs
  | false =>
      rw [hr] at hs
      exact hX.release _ _ hs

/-- However many items are read, the reader's cursor is closed at the end. -/
theorem collectWith_keeps {α : Type} {convert : Value → Except Error α} {count : Nat}
    {x : Except Error (List α)} (hX : X.Keeps Good Inv) (hnested : NestedKeeps nested Good Inv)
    (hr : ∀ q ∈ r.materializer.subqueries, Good q)
    (h : (X.collectWith nested convert count r).run s = (x, s')) (hs : Inv (k + r.held) s) :
    Inv k s' := by
  induction count generalizing r s x with
  | zero =>
      rw [collectWith, StateT.run_bind] at h
      cases h
      exact drop_keeps hX r hs
  | succ count ih =>
      rcases collectWith_cases h with ⟨r₁, hnext, -⟩ | ⟨item, r₁, s₁, e, hnext, -, rfl⟩ |
        ⟨v, a, r₁, s₁, y, hnext, -, hrest, -⟩
      · have hfinished : r₁.isFinished := (nextWith_isFinished hnext).mpr (by simp)
        have hs' := nextWith_keeps hX hnested hr hnext hs
        rwa [Reader.held, if_pos hfinished] at hs'
      · exact drop_keeps hX r₁ (nextWith_keeps hX hnested hr hnext hs)
      · have hs₁ := nextWith_keeps hX hnested hr hnext hs
        rw [← nextWith_materializer hnext] at hr
        exact ih hr hrest hs₁

/-- However deep projections are nested, running one leaves no cursor open. -/
theorem nestedTo_keeps (hX : X.Keeps Good Inv) (depth : Nat) :
    NestedKeeps (X.nestedTo depth) Good Inv := by
  induction depth with
  | zero =>
      intro r q _ k s x s' h hs
      cases h
      exact hs
  | succ depth ih =>
      intro r q hq k s x s' h hs
      rw [nestedTo] at h
      rcases run_bind_cases h with ⟨e, hsource, rfl⟩ | ⟨source, s₁, hsource, h⟩
      · obtain ⟨-, rfl⟩ := run_lift_eq hsource
        exact hs
      obtain ⟨hspecialize, rfl⟩ := run_lift_eq hsource
      rcases run_bind_cases h with ⟨e, hrow, rfl⟩ | ⟨row, s₂, hrow, h⟩
      · obtain ⟨-, rfl⟩ := run_lift_eq hrow
        exact hs
      obtain ⟨-, rfl⟩ := run_lift_eq hrow
      have hlabel := Reader.specialize_label hspecialize
      rcases run_bind_cases h with ⟨e, hstart, rfl⟩ | ⟨inner, s₃, hstart, h⟩
      · exact hX.start q hq source _ hlabel k _ _ _ hs hstart
      obtain ⟨hs₃, hheld, hinner⟩ := hX.start q hq source _ hlabel k _ _ _ hs hstart
      rw [← hheld] at hs₃
      rcases run_bind_cases h with ⟨e, hcollect, rfl⟩ | ⟨values, s₄, hcollect, h⟩
      · exact collectWith_keeps hX ih hinner hcollect hs₃
      · cases h
        exact collectWith_keeps hX ih hinner hcollect hs₃

/-- The next item of a reader. -/
theorem next_keeps {item : Option (Except Error Value)} (hX : X.Keeps Good Inv)
    (hr : ∀ q ∈ r.materializer.subqueries, Good q)
    (h : (X.next r).run s = ((item, r'), s')) (hs : Inv (k + r.held) s) :
    Inv (k + r'.held) s' :=
  nextWith_keeps hX (nestedTo_keeps hX _) hr h hs

/-- All items that are left of a reader. -/
theorem collect_keeps {α : Type} {convert : Value → Except Error α} {x : Except Error (List α)}
    (hX : X.Keeps Good Inv) (hr : ∀ q ∈ r.materializer.subqueries, Good q)
    (h : (X.collect convert r).run s = (x, s')) (hs : Inv (k + r.held) s) : Inv k s' :=
  collectWith_keeps hX (nestedTo_keeps hX _) hr h hs

end Executor

end Quarry
