import Quarry.Binding
import Quarry.Proofs.Outcome
import Quarry.Proofs.Traversal
/-!
The walk of the binder as a derivation over its state. Nothing is asked of the expression: a
parameter stands for what was last bound to its number, also after the lambda that bound it.
-/
namespace Quarry.Binding

/-- All members of a table, selected under two labels. -/
def tableProjection (t : Table) (n : Nat) : Projection Expr where
  source := ⟨label (n + 1), tableColumns t (label n), .table ⟨t.name, label n, t.entity⟩, none⟩
  projector := .construct (.entity t.entity) (tableColumns t (label (n + 1)))
  shape := .queryable

/-- A new select with the label of number `n`, and the projector over it. -/
def projection (projector : Expr) (n : Nat) (sources : List String) (source : Expr)
    (filter : Option Expr) : Projection Expr where
  source := ⟨label n, (projectColumns projector (label n) sources).2, source, filter⟩
  projector := (projectColumns projector (label n) sources).1
  shape := .queryable

/-- A method that asks for existence, with the function it is written as. -/
inductive IsExistence : Method → Function → Prop
  | existence : IsExistence .existence .existence
  | absence : IsExistence .absence .absence

/-- The state after a parameter has been bound. -/
def Scope.withBound (s : Scope) (id : Nat) (e : Expr) : Scope :=
  { s with bound := (id, e) :: s.bound.filter (·.1 ≠ id) }

/-- The state after one more label has been given out. -/
def Scope.labelled (s : Scope) : Scope := { s with labels := s.labels + 1 }

/-- The state after a parameter has been taken out. -/
def Scope.without (s : Scope) (id : Nat) : Scope :=
  { s with bound := s.bound.filter (·.1 ≠ id) }

/-- `Walks s e r s'`: from the state `s` the walk binds `e` to `r` and comes to the state `s'`. -/
inductive Walks (catalog : Catalog) (style : IdentifierCase) : Scope → Expr → Expr → Scope → Prop
  | constant {s v t} : Walks catalog style s (.constant v t) (.constant v t) s
  | captured {s name v} : Walks catalog style s (.captured name v) (.literal v) s
  | parameter {s p} :
      Walks catalog style s (.parameter p) ((s.bound.lookup p.id).getD (.parameter p)) s
  | bound {s e} (h : e.isBound) : Walks catalog style s e e s
  | collection {s entity t} (h : catalog.table entity = .ok t) :
      Walks catalog style s (.collection entity) (.projection (tableProjection t s.labels))
        s.labelled.labelled
  | member {s target name r x s'} (ht : Walks catalog style s target r s')
      (h : memberOf r name = .ok x) : Walks catalog style s (.member target name) x s'
  | unary {s op e r s'} (h : Walks catalog style s e r s') :
      Walks catalog style s (.unary op e) (.unary op r) s'
  | binary {s op a b x y s₁ s'} (ha : Walks catalog style s a x s₁)
      (hb : Walks catalog style s₁ b y s') :
      Walks catalog style s (.binary op a b) (.binary op x y) s'
  | constructNil {s t} : Walks catalog style s (.construct t []) (.construct t []) s
  | constructCons {s t name e ms r rs s₁ s'} (he : Walks catalog style s e r s₁)
      (hms : Walks catalog style s₁ (.construct t ms) (.construct t rs) s') :
      Walks catalog style s (.construct t ((name, e) :: ms)) (.construct t ((name, r) :: rs)) s'
  | charAt {s string index x i r s₁ s'} (hs : Walks catalog style s string x s₁)
      (hi : Walks catalog style s₁ index i s') (h : substring x i = .ok r) :
      Walks catalog style s (.call .charAt (some string) [index]) r s'
  | select {s receiver source x body p b s₁ s'}
      (hs : Walks catalog style s source (.projection p) s₁)
      (hb : Walks catalog style (s₁.withBound x.id p.projector) body b s') :
      Walks catalog style s (.call .select receiver [source, .lambda [x] body])
        (.projection (projection b s'.labels [p.source.label] (.select p.source) none)) s'.labelled
  | filter {s receiver source x body p b s₁ s'}
      (hs : Walks catalog style s source (.projection p) s₁)
      (hb : Walks catalog style (s₁.withBound x.id p.projector) body b s') :
      Walks catalog style s (.call .filter receiver [source, .lambda [x] body])
        (.projection
          (projection p.projector s'.labels [p.source.label] (.select p.source) (some b)))
        s'.labelled
  | join {s receiver left right x leftKey y rightKey x' y' result p q a b c s₁ s₂ s₃ s₄ s'}
      (hl : Walks catalog style s left (.projection p) s₁)
      (hr : Walks catalog style s₁ right (.projection q) s₂)
      (ha : Walks catalog style (s₂.withBound x.id p.projector) leftKey a s₃)
      (hb : Walks catalog style (s₃.withBound y.id q.projector) rightKey b s₄)
      (hc : Walks catalog style ((s₄.withBound x'.id p.projector).withBound y'.id q.projector)
        result c s') :
      Walks catalog style s
        (.call .join receiver
          [left, right, .lambda [x] leftKey, .lambda [y] rightKey, .lambda [x', y'] result])
        (.projection (projection c s'.labels [p.source.label, q.source.label]
          (.join .inner (.select p.source) (.select q.source)
            (some (.binary (.comparison .eq) a b))) none)) s'.labelled
  | toList {s receiver source p s'} (h : Walks catalog style s source (.projection p) s') :
      Walks catalog style s (.call .toList receiver [source])
        (.projection { p with shape := .list }) s'
  | existence {s method function entity t x body b s'} (hm : IsExistence method function)
      (ht : catalog.table entity = .ok t)
      (hb : Walks catalog style (s.withBound x.id (.construct t.recordType (tableColumns t "")))
        body b s') :
      Walks catalog style s (.call method (some (.collection entity)) [.lambda [x] body])
        (.subquery ⟨method, function, none, [b], .boolean⟩
          ("SELECT * FROM " ++ style.normalize t.name)) (s'.without x.id)

/-! The state of the walk -/

section Run

variable {α β : Type} {s s' : Scope}

theorem run_bind_eq_ok {x : Binder α} {f : α → Binder β} {r : β × Scope} :
    (x >>= f).run s = .ok r ↔ ∃ a t, x.run s = .ok (a, t) ∧ (f a).run t = .ok r := by
  rw [StateT.run_bind, bind_eq_ok, Prod.exists]

theorem run_pure_eq_ok {a b : α} : (pure a : Binder α).run s = .ok (b, s') ↔ b = a ∧ s' = s := by
  rw [StateT.run_pure, pure_eq_ok, Prod.mk.injEq, eq_comm, @eq_comm _ s]

theorem run_lift_eq_ok {x : Except Error α} {a : α} :
    (liftM x : Binder α).run s = .ok (a, s') ↔ x = .ok a ∧ s' = s := by
  have hrun : (liftM x : Binder α).run s = x >>= fun a => pure (a, s) := rfl
  simp only [hrun, bind_eq_ok, pure_eq_ok, Prod.mk.injEq]
  constructor
  · rintro ⟨_, hx, rfl, rfl⟩
    exact ⟨hx, rfl⟩
  · rintro ⟨hx, rfl⟩
    exact ⟨a, hx, rfl, rfl⟩

end Run

section

variable {s : Scope}

theorem run_bindParameter (p : Parameter) (e : Expr) :
    (bindParameter p e).run s = .ok ((), s.withBound p.id e) := rfl

theorem run_projectOver (projector : Expr) (sources : List String) (source : Expr)
    (filter : Option Expr) :
    (projectOver projector sources source filter).run s =
      .ok (.projection (projection projector s.labels sources source filter),
        { s with labels := s.labels + 1 }) := rfl

theorem asSource_eq_ok {e : Expr} {p : Projection Expr} : asSource e = .ok p ↔ e = .projection p := by
  cases e <;> simp [asSource]

theorem receiver_of_existenceEntity {function : Function} {receiver : Option Expr}
    {entity : String}
    (h : existenceEntity function receiver = .ok entity) :
    receiver = some (.collection entity) := by
  cases receiver with
  | none => cases h
  | some e =>
      cases e with
      | collection => exact congrArg (some ∘ Expr.collection) (Except.ok.inj h)
      | _ => cases h

end

/-! The walk -/

variable (catalog : Catalog) (style : IdentifierCase)

/-- A walk of `e` that succeeds is a derivation. -/
def VisitWalks (e : Expr) : Prop :=
  ∀ ⦃s r s'⦄, (visit catalog style e).run s = .ok (r, s') → Walks catalog style s e r s'

/-- The same for the body of `e`, if it is a lambda of one parameter. -/
def VisitLambdaWalks (e : Expr) : Prop :=
  ∀ ⦃s subject p r s'⦄, (visitLambda catalog style subject e).run s = .ok ((p, r), s') →
    ∃ body x, e = .lambda [p] body ∧ subject = .ok x ∧
      Walks catalog style (s.withBound p.id x) body r s'

/-- The same for the body of `e`, if it is a lambda of two parameters. -/
def VisitResultWalks (e : Expr) : Prop :=
  ∀ ⦃s left right r s'⦄, (visitResult catalog style left right e).run s = .ok (r, s') →
    ∃ body p q, e = .lambda [p, q] body ∧
      Walks catalog style ((s.withBound p.id left).withBound q.id right) body r s'

variable {catalog style} {e : Expr}

theorem visitLambda_walks (ih : ∀ c ∈ e.children, VisitWalks catalog style c) :
    VisitLambdaWalks catalog style e := by
  intro s subject p r s' hrun
  cases e with
  | lambda params body =>
      unfold visitLambda at hrun
      match params with
      | [q] =>
          simp only [run_bind_eq_ok, run_lift_eq_ok, run_bindParameter, run_pure_eq_ok,
            Prod.mk.injEq] at hrun
          obtain ⟨x, _, ⟨hx, rfl⟩, _, _, hbound, b, t, hvisit, ⟨rfl, rfl⟩, rfl⟩ := hrun
          cases hbound
          exact ⟨body, x, rfl, hx, ih body (by simp [Expr.children]) hvisit⟩
      | [] => cases hrun
      | _ :: _ :: _ => cases hrun
  | _ => cases hrun

theorem visitResult_walks (ih : ∀ c ∈ e.children, VisitWalks catalog style c) :
    VisitResultWalks catalog style e := by
  intro s left right r s' hrun
  cases e with
  | lambda params body =>
      unfold visitResult at hrun
      match params with
      | [p, q] =>
          simp only [run_bind_eq_ok, run_bindParameter] at hrun
          obtain ⟨_, _, hp, _, _, hq, hvisit⟩ := hrun
          cases hp
          cases hq
          exact ⟨body, p, q, rfl, ih body (by simp [Expr.children]) hvisit⟩
      | [] => cases hrun
      | [_] => cases hrun
      | _ :: _ :: _ :: _ => cases hrun
  | _ => cases hrun

theorem visitMembers_walks {t : DataType} {ms rs : List (String × Expr)} {s s' : Scope}
    (ih : ∀ m ∈ ms, VisitWalks catalog style m.2)
    (hrun : (visitMembers catalog style ms).run s = .ok (rs, s')) :
    Walks catalog style s (.construct t ms) (.construct t rs) s' := by
  induction ms generalizing s rs with
  | nil =>
      obtain ⟨rfl, rfl⟩ := run_pure_eq_ok.mp hrun
      exact .constructNil
  | cons m ms ihms =>
      obtain ⟨name, e⟩ := m
      unfold visitMembers at hrun
      simp only [run_bind_eq_ok, run_pure_eq_ok] at hrun
      obtain ⟨x, s₁, hx, rest, s₂, hrest, rfl, rfl⟩ := hrun
      have hmembers := ihms (fun m hm => ih m (List.mem_cons_of_mem _ hm)) hrest
      exact .constructCons (ih _ List.mem_cons_self hx) hmembers

/-! Calls -/

-- Named ahead of its uses: the equation takes long to derive, and every lemma on calls needs it.
alias visit_eq := visit.eq_def

section Calls

variable {args : List Expr} {receiver : Option Expr}

variable (catalog style) in
/-- What is known of the parts of a call. -/
def PartsWalk (cs : List Expr) : Prop :=
  ∀ c ∈ cs, VisitWalks catalog style c ∧ VisitLambdaWalks catalog style c ∧
    VisitResultWalks catalog style c

theorem visit_select_walks (ih : PartsWalk catalog style args) :
    VisitWalks catalog style (.call .select receiver args) := by
  intro s r s' hrun
  unfold visit at hrun
  split at hrun
  next source selector =>
    simp only [run_bind_eq_ok, run_lift_eq_ok, asSource_eq_ok, run_projectOver] at hrun
    obtain ⟨_, s₁, hsource, p, _, ⟨rfl, rfl⟩, ⟨x, b⟩, s₂, hlambda, hout⟩ := hrun
    cases hout
    obtain ⟨body, _, rfl, hx, hbody⟩ := (ih selector (by simp)).2.1 hlambda
    cases hx
    exact .select ((ih source (by simp)).1 hsource) hbody
  next => cases hrun

theorem visit_filter_walks (ih : PartsWalk catalog style args) :
    VisitWalks catalog style (.call .filter receiver args) := by
  intro s r s' hrun
  unfold visit at hrun
  split at hrun
  next source predicate =>
    simp only [run_bind_eq_ok, run_lift_eq_ok, asSource_eq_ok, run_projectOver] at hrun
    obtain ⟨_, s₁, hsource, p, _, ⟨rfl, rfl⟩, ⟨x, b⟩, s₂, hlambda, hout⟩ := hrun
    cases hout
    obtain ⟨body, _, rfl, hx, hbody⟩ := (ih predicate (by simp)).2.1 hlambda
    cases hx
    exact .filter ((ih source (by simp)).1 hsource) hbody
  next => cases hrun

theorem visit_join_walks (ih : PartsWalk catalog style args) :
    VisitWalks catalog style (.call .join receiver args) := by
  intro s r s' hrun
  unfold visit at hrun
  split at hrun
  next left right leftKey rightKey result =>
    simp only [run_bind_eq_ok, run_lift_eq_ok, asSource_eq_ok, run_projectOver] at hrun
    obtain ⟨_, s₁, hleft, p, _, ⟨rfl, rfl⟩, _, s₂, hright, q, _, ⟨rfl, rfl⟩, ⟨x, a⟩, s₃, hx,
      ⟨y, b⟩, s₄, hy, c, s₅, hresult, hout⟩ := hrun
    cases hout
    obtain ⟨_, _, rfl, hp, ha⟩ := (ih leftKey (by simp)).2.1 hx
    cases hp
    obtain ⟨_, _, rfl, hq, hb⟩ := (ih rightKey (by simp)).2.1 hy
    cases hq
    obtain ⟨_, _, _, rfl, hc⟩ := (ih result (by simp)).2.2 hresult
    exact .join ((ih left (by simp)).1 hleft) ((ih right (by simp)).1 hright) ha hb hc
  next => cases hrun

theorem visit_toList_walks (ih : PartsWalk catalog style args) :
    VisitWalks catalog style (.call .toList receiver args) := by
  intro s r s' hrun
  unfold visit at hrun
  split at hrun
  next source =>
    simp only [run_bind_eq_ok, run_lift_eq_ok, asSource_eq_ok, run_pure_eq_ok] at hrun
    obtain ⟨_, s₁, hsource, p, _, ⟨rfl, rfl⟩, rfl, rfl⟩ := hrun
    exact .toList ((ih source (by simp)).1 hsource)
  next => cases hrun

theorem visit_charAt_walks (ih : PartsWalk catalog style (receiver.toList ++ args)) :
    VisitWalks catalog style (.call .charAt receiver args) := by
  intro s r s' hrun
  unfold visit at hrun
  split at hrun
  next string index =>
    simp only [run_bind_eq_ok, run_lift_eq_ok] at hrun
    obtain ⟨x, s₁, hstring, y, s₂, hindex, h, rfl⟩ := hrun
    exact .charAt ((ih string (by simp)).1 hstring) ((ih index (by simp)).1 hindex) h
  next =>
    simp only [run_bind_eq_ok] at hrun
    obtain ⟨_, _, -, h⟩ := hrun
    cases h
  next => cases hrun

theorem visitExistence_walks {method : Method} {function : Function} {entity : String} {r : Expr}
    {s s' : Scope} (hm : IsExistence method function) (ih : PartsWalk catalog style args)
    (hrun : (visitExistence catalog style method function entity args).run s = .ok (r, s')) :
    Walks catalog style s (.call method (some (.collection entity)) args) r s' := by
  unfold visitExistence at hrun
  split at hrun
  next predicate =>
    simp only [run_bind_eq_ok, run_lift_eq_ok] at hrun
    obtain ⟨⟨x, b⟩, s₁, hlambda, _, s₂, hunbind, h, rfl⟩ := hrun
    obtain ⟨body, y, rfl, hbare, hbody⟩ := (ih predicate (by simp)).2.1 hlambda
    simp only [bareRecord, bind_eq_ok, pure_eq_ok] at hbare
    obtain ⟨t, ht, rfl⟩ := hbare
    simp only [existenceTest, ht, bind_eq_ok, pure_eq_ok, Except.ok.injEq, exists_eq_left'] at h
    subst h
    cases hunbind
    exact .existence hm ht hbody
  next => cases hrun

theorem visit_existence_walks {method : Method} {function : Function}
    (hm : IsExistence method function) (ih : PartsWalk catalog style args) :
    VisitWalks catalog style (.call method receiver args) := by
  intro s r s' hrun
  have hvisit : (visit catalog style (.call method receiver args)).run s =
      (do visitExistence catalog style method function (← existenceEntity function receiver) args :
        Binder Expr).run s := by
    cases hm <;> rw [visit_eq]
  rw [hvisit] at hrun
  simp only [run_bind_eq_ok, run_lift_eq_ok] at hrun
  obtain ⟨entity, _, ⟨hentity, rfl⟩, hrun⟩ := hrun
  rw [receiver_of_existenceEntity hentity]
  exact visitExistence_walks hm ih hrun

end Calls

theorem visit_walks (catalog : Catalog) (style : IdentifierCase) (e : Expr) :
    VisitWalks catalog style e ∧ VisitLambdaWalks catalog style e ∧
      VisitResultWalks catalog style e := by
  induction e using Expr.children_induction with
  | step e ih =>
      have hvisit : ∀ c ∈ e.children, VisitWalks catalog style c := fun c hc => (ih c hc).1
      refine ⟨?_, visitLambda_walks hvisit, visitResult_walks hvisit⟩
      intro s r s' hrun
      cases e with
      | constant v t =>
          obtain ⟨rfl, rfl⟩ := run_pure_eq_ok.mp hrun
          exact .constant
      | captured name v =>
          obtain ⟨rfl, rfl⟩ := run_pure_eq_ok.mp hrun
          exact .captured
      | parameter p =>
          have hr : .ok ((s.bound.lookup p.id).getD (.parameter p), s) = Except.ok (r, s') := hrun
          cases hr
          exact .parameter
      | collection entity =>
          unfold visit bindCollection at hrun
          simp only [run_bind_eq_ok, run_lift_eq_ok, run_pure_eq_ok] at hrun
          obtain ⟨t, _, ⟨ht, rfl⟩, _, _, hinner, _, _, houter, rfl, rfl⟩ := hrun
          cases hinner
          cases houter
          exact .collection ht
      | member target name =>
          unfold visit at hrun
          simp only [run_bind_eq_ok, run_lift_eq_ok] at hrun
          obtain ⟨x, t, hx, hmember, rfl⟩ := hrun
          exact .member (hvisit target (by simp [Expr.children]) hx) hmember
      | unary op e =>
          unfold visit at hrun
          simp only [run_bind_eq_ok, run_pure_eq_ok] at hrun
          obtain ⟨x, t, hx, rfl, rfl⟩ := hrun
          exact .unary (hvisit e (by simp [Expr.children]) hx)
      | binary op a b =>
          unfold visit at hrun
          simp only [run_bind_eq_ok, run_pure_eq_ok] at hrun
          obtain ⟨x, t, hx, y, t', hy, rfl, rfl⟩ := hrun
          exact .binary (hvisit a (by simp [Expr.children]) hx) (hvisit b (by simp [Expr.children]) hy)
      | construct t ms =>
          unfold visit at hrun
          simp only [run_bind_eq_ok, run_pure_eq_ok] at hrun
          obtain ⟨rs, t', hms, rfl, rfl⟩ := hrun
          exact visitMembers_walks (fun m hm => hvisit m.2 (List.mem_map_of_mem hm)) hms
      | call method receiver args =>
          have hargs : PartsWalk catalog style args := fun c hc => ih c (List.mem_append_right _ hc)
          cases method with
          | select => exact visit_select_walks hargs hrun
          | filter => exact visit_filter_walks hargs hrun
          | join => exact visit_join_walks hargs hrun
          | toList => exact visit_toList_walks hargs hrun
          | charAt => exact visit_charAt_walks ih hrun
          | existence => exact visit_existence_walks .existence hargs hrun
          | absence => exact visit_existence_walks .absence hargs hrun
          | named => cases hrun
      | lambda => cases hrun
      | outerRow => cases hrun
      | _ =>
          obtain ⟨rfl, rfl⟩ := run_pure_eq_ok.mp hrun
          exact .bound rfl

theorem visitLambda_run {subject : Except Error Expr} {x : Expr} {p : Parameter} {body b : Expr}
    {s s' : Scope} (hx : subject = .ok x)
    (h : (visit catalog style body).run (s.withBound p.id x) = .ok (b, s')) :
    (visitLambda catalog style subject (.lambda [p] body)).run s = .ok ((p, b), s') := by
  unfold visitLambda
  exact run_bind_eq_ok.mpr ⟨x, s, run_lift_eq_ok.mpr ⟨hx, rfl⟩,
    run_bind_eq_ok.mpr ⟨_, _, rfl, run_bind_eq_ok.mpr ⟨b, s', h, rfl⟩⟩⟩

/-- What is derived is what the walk does. -/
theorem Walks.run {s s' : Scope} {r : Expr} (h : Walks catalog style s e r s') :
    (visit catalog style e).run s = .ok (r, s') := by
  induction h with
  | constant => rfl
  | captured => rfl
  | parameter => rfl
  | @bound s e h =>
      cases e with
      | table | column | select | join | projection | function | subquery => rfl
      | _ => cases h
  | collection h =>
      unfold visit bindCollection
      exact run_bind_eq_ok.mpr ⟨_, _, run_lift_eq_ok.mpr ⟨h, rfl⟩, rfl⟩
  | member _ h ih =>
      unfold visit
      exact run_bind_eq_ok.mpr ⟨_, _, ih, run_lift_eq_ok.mpr ⟨h, rfl⟩⟩
  | unary _ ih =>
      unfold visit
      exact run_bind_eq_ok.mpr ⟨_, _, ih, rfl⟩
  | binary _ _ iha ihb =>
      unfold visit
      exact run_bind_eq_ok.mpr ⟨_, _, iha, run_bind_eq_ok.mpr ⟨_, _, ihb, rfl⟩⟩
  | constructNil =>
      unfold visit visitMembers
      rfl
  | @constructCons s t name e ms r rs s₁ s' _ _ ihe ihms =>
      unfold visit at ihms ⊢
      unfold visitMembers
      obtain ⟨rs', s₂, hms, hr⟩ := run_bind_eq_ok.mp ihms
      cases hr
      exact run_bind_eq_ok.mpr ⟨_, _, run_bind_eq_ok.mpr ⟨_, _, ihe,
        run_bind_eq_ok.mpr ⟨_, _, hms, rfl⟩⟩, rfl⟩
  | charAt _ _ h ihs ihi =>
      unfold visit
      exact run_bind_eq_ok.mpr ⟨_, _, ihs, run_bind_eq_ok.mpr ⟨_, _, ihi,
        run_lift_eq_ok.mpr ⟨h, rfl⟩⟩⟩
  | select _ _ ihs ihb =>
      unfold visit
      exact run_bind_eq_ok.mpr ⟨_, _, ihs, run_bind_eq_ok.mpr ⟨_, _, rfl,
        run_bind_eq_ok.mpr ⟨_, _, visitLambda_run rfl ihb, rfl⟩⟩⟩
  | filter _ _ ihs ihb =>
      unfold visit
      exact run_bind_eq_ok.mpr ⟨_, _, ihs, run_bind_eq_ok.mpr ⟨_, _, rfl,
        run_bind_eq_ok.mpr ⟨_, _, visitLambda_run rfl ihb, rfl⟩⟩⟩
  | join _ _ _ _ _ ihl ihr iha ihb ihc =>
      unfold visit visitResult
      refine run_bind_eq_ok.mpr ⟨_, _, ihl, run_bind_eq_ok.mpr ⟨_, _, rfl, ?_⟩⟩
      refine run_bind_eq_ok.mpr ⟨_, _, ihr, run_bind_eq_ok.mpr ⟨_, _, rfl, ?_⟩⟩
      refine run_bind_eq_ok.mpr ⟨_, _, visitLambda_run rfl iha, ?_⟩
      refine run_bind_eq_ok.mpr ⟨_, _, visitLambda_run rfl ihb, ?_⟩
      exact run_bind_eq_ok.mpr ⟨_, _, run_bind_eq_ok.mpr ⟨_, _, rfl,
        run_bind_eq_ok.mpr ⟨_, _, rfl, ihc⟩⟩, rfl⟩
  | toList _ ih =>
      unfold visit
      exact run_bind_eq_ok.mpr ⟨_, _, ih, rfl⟩
  | @existence s method function entity t x body b s' hm ht _ ih =>
      have hbare : bareRecord catalog entity = .ok (.construct t.recordType (tableColumns t "")) := by
        rw [bareRecord, ht]
        rfl
      have htest : existenceTest catalog style method function entity b =
          .ok (.subquery ⟨method, function, none, [b], .boolean⟩
            ("SELECT * FROM " ++ style.normalize t.name)) := by
        rw [existenceTest, ht]
        rfl
      have hcall : (visitExistence catalog style method function entity [.lambda [x] body]).run s =
          .ok (.subquery ⟨method, function, none, [b], .boolean⟩
            ("SELECT * FROM " ++ style.normalize t.name), s'.without x.id) := by
        unfold visitExistence
        exact run_bind_eq_ok.mpr ⟨_, _, visitLambda_run hbare ih,
          run_bind_eq_ok.mpr ⟨_, _, rfl, run_lift_eq_ok.mpr ⟨htest, rfl⟩⟩⟩
      cases hm <;>
        (rw [visit_eq]; exact run_bind_eq_ok.mpr ⟨entity, s, rfl, hcall⟩)

theorem walks_iff {s s' : Scope} {r : Expr} :
    Walks catalog style s e r s' ↔ (visit catalog style e).run s = .ok (r, s') :=
  ⟨Walks.run, fun h => (visit_walks catalog style e).1 h⟩

/-- Binding a whole query derives its projection from the empty state. -/
theorem walks_of_bind {P : Projection Expr} (h : bind catalog style e = .ok P) :
    ∃ s, Walks catalog style {} e (.projection P) s := by
  simp only [bind, StateT.run'_eq, bind_eq_ok, fmap_eq_ok] at h
  obtain ⟨_, ⟨⟨r, s⟩, hrun, rfl⟩, h⟩ := h
  cases r with
  | projection p =>
      obtain rfl := Except.ok.inj h
      exact ⟨s, (visit_walks catalog style e).1 hrun⟩
  | _ => cases h

end Quarry.Binding
