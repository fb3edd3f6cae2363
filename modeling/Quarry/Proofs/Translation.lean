import Quarry.Proofs.Safety
import Quarry.Proofs.Serving
import Quarry.Proofs.Sites
/-!
Folding before binding. A query that can be bound and written can be bound after folding, unless
an index has become a constant that has no successor; and it can be written, unless a constructor
was folded whose members the text then reads.
-/
namespace Quarry.Binding

/-! Where an index has no successor -/

section Failing

variable (catalog : Catalog) (style : IdentifierCase)

/-- The walk of `e` from the site comes to a call for a character, whose index it binds to a
constant; and `err` is the failure to add one to the constant. -/
def IndexFails (site : Site) (e : Expr) (err : Error) : Prop :=
  ∃ site' string index x s v t s',
    Comes catalog style site e site' (.call .charAt (some string) [index]) ∧
    (visit catalog style string).run site'.scope = .ok (x, s) ∧
    (visit catalog style index).run s = .ok (.constant v t, s') ∧
    Value.applyBinary (.arithmetic .add) v (.int32 1) = .error err

/-- The same for the walk of `e` in a state, whichever parameters are in sight. -/
def FailsIn (s : Scope) (e : Expr) (err : Error) : Prop :=
  ∀ site : Site, site.scope = s → IndexFails catalog style site e err

/-- The same for the body of `e`, if it is a lambda whose parameter stands for `subject`. -/
def LambdaFailsIn (s : Scope) (subject : Except Error Expr) (e : Expr) (err : Error) : Prop :=
  ∃ p body x, e = .lambda [p] body ∧ subject = .ok x ∧
    FailsIn catalog style (s.withBound p.id x) body err

/-- The same for the body of `e`, if it is a lambda of two parameters. -/
def ResultFailsIn (s : Scope) (x y : Expr) (e : Expr) (err : Error) : Prop :=
  ∃ p q body, e = .lambda [p, q] body ∧
    FailsIn catalog style ((s.withBound p.id x).withBound q.id y) body err

variable {catalog style} {site site' : Site} {s s₁ s₂ s₃ s₄ : Scope} {e c r : Expr} {err : Error}

theorem IndexFails.of_comes (h : IndexFails catalog style site' c err)
    (hcomes : ∀ site'' receiver args, Comes catalog style site' c site'' (.call .charAt receiver args) →
      Comes catalog style site e site'' (.call .charAt receiver args)) :
    IndexFails catalog style site e err := by
  obtain ⟨site'', string, index, x, s, v, t, s', h, hx, hi, herr⟩ := h
  exact ⟨site'', string, index, x, s, v, t, s', hcomes _ _ _ h, hx, hi, herr⟩

namespace FailsIn

variable {after : List Expr}

theorem index {string index x i : Expr} (hx : (visit catalog style string).run s = .ok (x, s₁))
    (hi : (visit catalog style index).run s₁ = .ok (i, s₂)) (h : ShiftError i err) :
    FailsIn catalog style s (.call .charAt (some string) [index]) err := by
  obtain ⟨v, t, rfl, herr⟩ := h
  rintro site rfl
  exact ⟨site, string, index, x, s₁, v, t, s₂, .here, hx, hi, herr⟩

theorem first (h : FailsIn catalog style s c err) (hparts : e.visited = [] ++ c :: after) :
    FailsIn catalog style s e err := by
  intro site hsite
  exact (h site hsite).of_comes fun _ _ _ h => .first hparts h

theorem second {b : Expr} (h : FailsIn catalog style s₁ c err)
    (hparts : e.visited = [b] ++ c :: after)
    (hb : (visit catalog style b).run s = .ok (r, s₁)) : FailsIn catalog style s e err := by
  rintro site rfl
  exact (h (site.after s₁) rfl).of_comes fun _ _ _ h => .second hparts (walks_iff.mpr hb) h

/-- The later members of a record. -/
theorem later {t : DataType} {name : String} {ms : List (String × Expr)}
    (h : FailsIn catalog style s₁ (.construct t ms) err)
    (he : (visit catalog style e).run s = .ok (r, s₁)) :
    FailsIn catalog style s (.construct t ((name, e) :: ms)) err := by
  rintro site rfl
  exact (h (site.after s₁) rfl).of_comes fun _ _ _ h => .later (walks_iff.mpr he) h (by simp)

end FailsIn

variable {receiver : Option Expr} {source left right key key' combine a b : Expr}
  {p q : Projection Expr} {x y : Parameter}

theorem LambdaFailsIn.element {method : Method}
    (h : LambdaFailsIn catalog style s₁ (pure p.projector) key err)
    (hm : method = .select ∨ method = .filter)
    (hs : (visit catalog style source).run s = .ok (.projection p, s₁)) :
    FailsIn catalog style s (.call method receiver [source, key]) err := by
  obtain ⟨x, body, _, rfl, hx, h⟩ := h
  obtain rfl := Except.ok.inj hx
  rintro site rfl
  exact (h ((site.after s₁).inside x p.projector _) rfl).of_comes fun _ _ _ h => .element hm hs h

theorem LambdaFailsIn.leftKey (h : LambdaFailsIn catalog style s₂ (pure p.projector) key err)
    (hl : (visit catalog style left).run s = .ok (.projection p, s₁))
    (hr : (visit catalog style right).run s₁ = .ok (.projection q, s₂)) :
    FailsIn catalog style s (.call .join receiver [left, right, key, key', combine]) err := by
  obtain ⟨x, body, _, rfl, hx, h⟩ := h
  obtain rfl := Except.ok.inj hx
  rintro site rfl
  exact (h ((site.after s₂).inside x p.projector _) rfl).of_comes fun _ _ _ h => .leftKey hl hr h

theorem LambdaFailsIn.rightKey (h : LambdaFailsIn catalog style s₃ (pure q.projector) key' err)
    (hl : (visit catalog style left).run s = .ok (.projection p, s₁))
    (hr : (visit catalog style right).run s₁ = .ok (.projection q, s₂))
    (ha : (visitLambda catalog style (pure p.projector) key).run s₂ = .ok ((x, a), s₃)) :
    FailsIn catalog style s (.call .join receiver [left, right, key, key', combine]) err := by
  obtain ⟨y, body, _, rfl, hy, h⟩ := h
  obtain rfl := Except.ok.inj hy
  obtain ⟨_, _, rfl, hx, ha⟩ := (visit_walks catalog style key).2.1 ha
  obtain rfl := Except.ok.inj hx
  rintro site rfl
  exact (h ((site.after s₃).inside y q.projector _) rfl).of_comes
    fun _ _ _ h => .rightKey hl hr ha.run h

theorem ResultFailsIn.result
    (h : ResultFailsIn catalog style s₄ p.projector q.projector combine err)
    (hl : (visit catalog style left).run s = .ok (.projection p, s₁))
    (hr : (visit catalog style right).run s₁ = .ok (.projection q, s₂))
    (ha : (visitLambda catalog style (pure p.projector) key).run s₂ = .ok ((x, a), s₃))
    (hb : (visitLambda catalog style (pure q.projector) key').run s₃ = .ok ((y, b), s₄)) :
    FailsIn catalog style s (.call .join receiver [left, right, key, key', combine]) err := by
  obtain ⟨x', y', body, rfl, h⟩ := h
  obtain ⟨_, _, rfl, hx, ha⟩ := (visit_walks catalog style key).2.1 ha
  obtain ⟨_, _, rfl, hy, hb⟩ := (visit_walks catalog style key').2.1 hb
  obtain rfl := Except.ok.inj hx
  obtain rfl := Except.ok.inj hy
  rintro site rfl
  exact (h (((site.after s₄).inside x' p.projector _).inside y' q.projector _) rfl).of_comes
    fun _ _ _ h => .result hl hr ha.run hb.run h

theorem LambdaFailsIn.test {method : Method} {function : Function} {entity : String}
    (h : LambdaFailsIn catalog style s (bareRecord catalog entity) key err)
    (hm : IsExistence method function) :
    FailsIn catalog style s (.call method (some (.collection entity)) [key]) err := by
  obtain ⟨x, body, _, rfl, hx, h⟩ := h
  simp only [bareRecord, bind_eq_ok, pure_eq_ok] at hx
  obtain ⟨t, ht, rfl⟩ := hx
  rintro site rfl
  exact (h (site.inside x _ true) rfl).of_comes fun _ _ _ h => .test hm ht h

end Failing

/-! The two walks -/

section Walk

variable {catalog : Catalog} {style : IdentifierCase} {excused : Bool}

/-- The entries for each parameter serve. -/
def ScopeServes (excused : Bool) (s s' : Scope) : Prop :=
  List.Forall₂ (fun a b => a.1 = b.1 ∧ Serves excused a.2 b.2) s.bound s'.bound

/-- Only composed forms occur; whether a constructor is folded is no secret. -/
structure Admits (excused : Bool) (e : Expr) : Prop where
  composed : ∀ x ∈ e.nodes, x.isComposed
  folds : ∀ x ∈ e.nodes, isConstruct x → x.nodes.all Expr.isLocal → excused

theorem Admits.child {e c : Expr} (h : Admits excused e) (hc : c ∈ e.children) :
    Admits excused c where
  composed x hx := h.composed x (Expr.mem_nodes_of_child hc hx)
  folds x hx := h.folds x (Expr.mem_nodes_of_child hc hx)

theorem Admits.arg {method : Method} {receiver : Option Expr} {args : List Expr} {c : Expr}
    (h : Admits excused (.call method receiver args)) (hc : c ∈ args) :
    Admits excused c := h.child (List.mem_append_right _ hc)

variable (catalog style excused)

/-- Where the walk of `e` succeeds, the walk of the folded `e` does, and its result serves; or it
fails at an index that has no successor. -/
def VisitServes (e : Expr) : Prop :=
  ∀ ⦃e' s s' r t⦄, Admits excused e → e.foldLocal = .ok e' → ScopeServes excused s s' →
    (visit catalog style e).run s = .ok (r, t) →
    Yields (FailsIn catalog style s' e') ((visit catalog style e').run s') fun p =>
      Serves excused r p.1 ∧ ScopeServes excused t p.2

/-- The same for the body of `e`, if it is a lambda of one parameter. -/
def LambdaServes (e : Expr) : Prop :=
  ∀ ⦃e' s s' subject subject' p r t⦄, Admits excused e → e.foldLocal = .ok e' →
    ScopeServes excused s s' →
    (∀ x, subject = .ok x → ∃ x', subject' = .ok x' ∧ Serves excused x x') →
    (visitLambda catalog style subject e).run s = .ok ((p, r), t) →
    Yields (LambdaFailsIn catalog style s' subject' e')
      ((visitLambda catalog style subject' e').run s') fun q =>
        q.1.1 = p ∧ Serves excused r q.1.2 ∧ ScopeServes excused t q.2

/-- The same for the body of `e`, if it is a lambda of two parameters. -/
def ResultServes (e : Expr) : Prop :=
  ∀ ⦃e' s s' x x' y y' r t⦄, Admits excused e → e.foldLocal = .ok e' →
    ScopeServes excused s s' → Serves excused x x' → Serves excused y y' →
    (visitResult catalog style x y e).run s = .ok (r, t) →
    Yields (ResultFailsIn catalog style s' x' y' e') ((visitResult catalog style x' y' e').run s')
      fun p => Serves excused r p.1 ∧ ScopeServes excused t p.2

variable {catalog style excused} {e : Expr} {s s' : Scope}

theorem serves_without {as bs : List (Nat × Expr)} (id : Nat)
    (h : List.Forall₂ (fun a b => a.1 = b.1 ∧ Serves excused a.2 b.2) as bs) :
    List.Forall₂ (fun a b => a.1 = b.1 ∧ Serves excused a.2 b.2)
      (as.filter (·.1 ≠ id)) (bs.filter (·.1 ≠ id)) := by
  induction h with
  | nil => exact .nil
  | @cons a b _ _ hab _ ih =>
      by_cases hid : a.1 = id
      · rw [List.filter_cons_of_neg (by simpa using hid),
          List.filter_cons_of_neg (by simpa [← hab.1] using hid)]
        exact ih
      · rw [List.filter_cons_of_pos (by simpa using hid),
          List.filter_cons_of_pos (by simpa [← hab.1] using hid)]
        exact .cons hab ih

theorem ScopeServes.withBound {x x' : Expr} (h : ScopeServes excused s s') (id : Nat)
    (hx : Serves excused x x') : ScopeServes excused (s.withBound id x) (s'.withBound id x') :=
  .cons ⟨rfl, hx⟩ (serves_without id h)

/-- A lambda is folded in its body. -/
theorem foldLocal_lambda {params : List Parameter} {body e' : Expr}
    (h : (Expr.lambda params body).foldLocal = .ok e') :
    ∃ body', e' = .lambda params body' ∧ body.foldLocal = .ok body' := by
  rcases Expr.foldWith_cases h with ⟨hall, -⟩ | ⟨-, halike⟩
  · cases List.all_eq_true.mp hall _ (Expr.self_mem_nodes _)
  · cases halike with
    | leaf hleaf => cases hleaf
    | lambda _ hbody => exact ⟨_, rfl, hbody.2⟩

theorem visitLambda_serves (ih : ∀ c ∈ e.children, VisitServes catalog style excused c) :
    LambdaServes catalog style excused e := by
  intro e' s s' subject subject' p r t hadmits hfold hscope hsubject hrun
  cases e with
  | lambda params body =>
      obtain ⟨body', rfl, hbody⟩ := foldLocal_lambda hfold
      unfold visitLambda at hrun ⊢
      rcases params with _ | ⟨q, _ | _⟩
      · cases hrun
      · simp only [run_bind_eq_ok, run_lift_eq_ok, run_bindParameter, run_pure_eq_ok,
          Prod.mk.injEq] at hrun
        obtain ⟨y, _, ⟨hy, rfl⟩, _, _, hbound, b, t, hvisit, ⟨rfl, rfl⟩, rfl⟩ := hrun
        obtain ⟨x', rfl, hx⟩ := hsubject y hy
        cases hbound
        have hmem : body ∈ (Expr.lambda [p] body).children := by simp [Expr.children]
        show Yields _ ((do return (p, ← visit catalog style body') :
          Binder (Parameter × Expr)).run (s'.withBound p.id x')) _
        have hserves := ih body hmem (hadmits.child hmem) hbody (hscope.withBound p.id hx) hvisit
        apply Yields.run_bind (hserves.tolerate fun err h => ⟨p, body', x', rfl, rfl, h⟩)
        intro b' t' hb
        exact ⟨rfl, hb⟩
      · cases hrun
  | _ => cases hrun

theorem visitResult_serves (ih : ∀ c ∈ e.children, VisitServes catalog style excused c) :
    ResultServes catalog style excused e := by
  intro e' s s' x x' y y' r t hadmits hfold hscope hx hy hrun
  cases e with
  | lambda params body =>
      obtain ⟨body', rfl, hbody⟩ := foldLocal_lambda hfold
      unfold visitResult at hrun ⊢
      rcases params with _ | ⟨p, _ | ⟨q, _ | _⟩⟩
      · cases hrun
      · cases hrun
      · simp only [run_bind_eq_ok, run_bindParameter] at hrun
        obtain ⟨_, _, hp, _, _, hq, hvisit⟩ := hrun
        cases hp
        cases hq
        have hmem : body ∈ (Expr.lambda [p, q] body).children := by simp [Expr.children]
        have hserves := ih body hmem (hadmits.child hmem) hbody
          ((hscope.withBound p.id hx).withBound q.id hy) hvisit
        exact hserves.tolerate fun err h => ⟨p, q, body', rfl, h⟩
      · cases hrun
  | _ => cases hrun

/-- What is known of the parts of a node while the node itself is walked. -/
def PartsServe (catalog : Catalog) (style : IdentifierCase) (excused : Bool)
    (args : List Expr) : Prop :=
  ∀ c ∈ args, VisitServes catalog style excused c ∧
    LambdaServes catalog style excused c ∧ ResultServes catalog style excused c

/-- A part that has to be a query is walked first. -/
theorem visitSource_serves {α : Type} {e' : Expr} {P : α × Scope → Prop} {tolerated : Error → Prop}
    {f : Projection Expr → Binder α} {p : Projection Expr} {t : Scope}
    (ih : VisitServes catalog style excused e) (hadmits : Admits excused e)
    (hfold : e.foldLocal = .ok e') (hscope : ScopeServes excused s s')
    (hrun : (visit catalog style e).run s = .ok (.projection p, t))
    (hfails : ∀ err, FailsIn catalog style s' e' err → tolerated err)
    (h : ∀ p' t', (visit catalog style e').run s' = .ok (.projection p', t') →
      ScopeServes excused t t' → (p.source.isWritable false → p'.source.isWritable excused) →
      Serves excused p.projector p'.projector → Yields tolerated ((f p').run t') P) :
    Yields tolerated ((do f (← asSource (← visit catalog style e')) : Binder α).run s') P := by
  apply Yields.run_bind ((ih hadmits hfold hscope hrun).tolerate hfails).result
  rintro r t' ⟨hrun', hserves, hscope'⟩
  cases hserves with
  | query hsource hprojector => exact h _ t' hrun' hscope' hsource hprojector
  | single hr => cases hr
  | folded _ hr => cases hr _ (Expr.self_mem_nodes _)

/-- A call other than for a character is folded in its parts, unless this fails. -/
theorem foldLocal_call {method : Method} {receiver : Option Expr} {args : List Expr} {e' : Expr}
    (hmethod : method ≠ .charAt) (h : (Expr.call method receiver args).foldLocal = .ok e') :
    ∃ receiver' args', e' = .call method receiver' args' ∧
      Option.Rel (fun c c' => c.foldLocal = .ok c') receiver receiver' ∧
      List.Forall₂ (fun c c' => c.foldLocal = .ok c') args args' := by
  rcases Expr.foldWith_cases h with ⟨-, hnode⟩ | ⟨-, halike⟩
  · obtain ⟨v, hv, -⟩ := bind_eq_ok.mp hnode
    cases Expr.evaluated_of_evaluateWith hv with
    | charAt => exact absurd rfl hmethod
  · cases halike with
    | leaf hleaf => cases hleaf
    | call _ hr has =>
        refine ⟨_, _, rfl, ?_, has.imp fun _ _ h => h.2⟩
        cases hr with
        | none => exact .none
        | some hc => exact .some hc.2

theorem serves_pure {x x' : Expr} (h : Serves excused x x') (y : Expr)
    (hy : (pure x : Except Error Expr) = .ok y) :
    ∃ y', (pure x' : Except Error Expr) = .ok y' ∧ Serves excused y y' :=
  ⟨x', rfl, Except.ok.inj hy ▸ h⟩

section Calls

variable {receiver : Option Expr} {args : List Expr}

theorem visit_select_serves (ih : PartsServe catalog style excused args) :
    VisitServes catalog style excused (.call .select receiver args) := by
  intro e' s s' r t hadmits hfold hscope hrun
  obtain ⟨receiver', args', rfl, -, hargs⟩ := foldLocal_call (by simp) hfold
  unfold visit at hrun ⊢
  split at hrun
  next source selector =>
    simp only [run_bind_eq_ok, run_lift_eq_ok, asSource_eq_ok, run_projectOver] at hrun
    obtain ⟨_, s₁, hsource, p, _, ⟨rfl, rfl⟩, ⟨x, b⟩, s₂, hlambda, hr⟩ := hrun
    cases hr
    obtain _ | ⟨hfold₁, _ | ⟨hfold₂, _ | _⟩⟩ := hargs
    apply visitSource_serves (ih source (by simp)).1 (hadmits.arg (by simp)) hfold₁ hscope hsource
      fun _ h => h.first rfl
    intro p' t₁ hsource' hscope₁ hselect hprojector
    have hserves := (ih selector (by simp)).2.1 (hadmits.arg (by simp)) hfold₂ hscope₁
      (serves_pure hprojector) hlambda
    apply Yields.run_bind (hserves.tolerate fun _ h => h.element (.inl rfl) hsource')
    rintro ⟨x', b'⟩ t₂ ⟨-, hbody, hscope₂⟩
    exact ⟨hbody.projection hselect fun _ => rfl, hscope₂⟩
  next => cases hrun

theorem visit_filter_serves (ih : PartsServe catalog style excused args) :
    VisitServes catalog style excused (.call .filter receiver args) := by
  intro e' s s' r t hadmits hfold hscope hrun
  obtain ⟨receiver', args', rfl, -, hargs⟩ := foldLocal_call (by simp) hfold
  unfold visit at hrun ⊢
  split at hrun
  next source predicate =>
    simp only [run_bind_eq_ok, run_lift_eq_ok, asSource_eq_ok, run_projectOver] at hrun
    obtain ⟨_, s₁, hsource, p, _, ⟨rfl, rfl⟩, ⟨x, b⟩, s₂, hlambda, hr⟩ := hrun
    cases hr
    obtain _ | ⟨hfold₁, _ | ⟨hfold₂, _ | _⟩⟩ := hargs
    apply visitSource_serves (ih source (by simp)).1 (hadmits.arg (by simp)) hfold₁ hscope hsource
      fun _ h => h.first rfl
    intro p' t₁ hsource' hscope₁ hselect hprojector
    have hserves := (ih predicate (by simp)).2.1 (hadmits.arg (by simp)) hfold₂ hscope₁
      (serves_pure hprojector) hlambda
    apply Yields.run_bind (hserves.tolerate fun _ h => h.element (.inr rfl) hsource')
    rintro ⟨x', b'⟩ t₂ ⟨-, hbody, hscope₂⟩
    exact ⟨hprojector.projection hselect hbody.writable, hscope₂⟩
  next => cases hrun

theorem visit_join_serves (ih : PartsServe catalog style excused args) :
    VisitServes catalog style excused (.call .join receiver args) := by
  intro e' s s' r t hadmits hfold hscope hrun
  obtain ⟨receiver', args', rfl, -, hargs⟩ := foldLocal_call (by simp) hfold
  unfold visit at hrun ⊢
  split at hrun
  next left right leftKey rightKey result =>
    simp only [run_bind_eq_ok, run_lift_eq_ok, asSource_eq_ok, run_projectOver] at hrun
    obtain ⟨_, s₁, hleft, p, _, ⟨rfl, rfl⟩, _, s₂, hright, q, _, ⟨rfl, rfl⟩, ⟨x, a⟩, s₃, hx,
      ⟨y, b⟩, s₄, hy, c, s₅, hresult, hr⟩ := hrun
    cases hr
    obtain _ | ⟨hfold₁, _ | ⟨hfold₂, _ | ⟨hfold₃, _ | ⟨hfold₄, _ | ⟨hfold₅, _ | _⟩⟩⟩⟩⟩ := hargs
    apply visitSource_serves (ih left (by simp)).1 (hadmits.arg (by simp)) hfold₁ hscope hleft
      fun _ h => h.first rfl
    intro p' t₁ hleft' hscope₁ hselect₁ hprojector₁
    apply visitSource_serves (ih right (by simp)).1 (hadmits.arg (by simp)) hfold₂ hscope₁ hright
      fun _ h => h.second rfl hleft'
    intro q' t₂ hright' hscope₂ hselect₂ hprojector₂
    have hserves₃ := (ih leftKey (by simp)).2.1 (hadmits.arg (by simp)) hfold₃ hscope₂
      (serves_pure hprojector₁) hx
    apply Yields.run_bind (hserves₃.tolerate fun _ h => h.leftKey hleft' hright').result
    rintro ⟨x', a'⟩ t₃ ⟨hx', -, ha, hscope₃⟩
    have hserves₄ := (ih rightKey (by simp)).2.1 (hadmits.arg (by simp)) hfold₄ hscope₃
      (serves_pure hprojector₂) hy
    apply Yields.run_bind (hserves₄.tolerate fun _ h => h.rightKey hleft' hright' hx').result
    rintro ⟨y', b'⟩ t₄ ⟨hy', -, hb, hscope₄⟩
    have hserves₅ := (ih result (by simp)).2.2 (hadmits.arg (by simp)) hfold₅ hscope₄
      hprojector₁ hprojector₂ hresult
    apply Yields.run_bind (hserves₅.tolerate fun _ h => h.result hleft' hright' hx' hy')
    rintro c' t₅ ⟨hc, hscope₅⟩
    refine ⟨hc.projection ?_ fun _ => rfl, hscope₅⟩
    simp only [Expr.isWritableSource, Bool.and_eq_true]
    rintro ⟨⟨hp, hq⟩, hcondition⟩
    have hkeys : Serves excused (.binary (.comparison .eq) a b) (.binary (.comparison .eq) a' b') :=
      ha.binary hb
    exact ⟨⟨hselect₁ hp, hselect₂ hq⟩, hkeys.writable hcondition⟩
  next => cases hrun

theorem visit_toList_serves (ih : PartsServe catalog style excused args) :
    VisitServes catalog style excused (.call .toList receiver args) := by
  intro e' s s' r t hadmits hfold hscope hrun
  obtain ⟨receiver', args', rfl, -, hargs⟩ := foldLocal_call (by simp) hfold
  unfold visit at hrun ⊢
  split at hrun
  next source =>
    simp only [run_bind_eq_ok, run_lift_eq_ok, asSource_eq_ok, run_pure_eq_ok] at hrun
    obtain ⟨_, s₁, hsource, p, _, ⟨rfl, rfl⟩, rfl, rfl⟩ := hrun
    obtain _ | ⟨hfold₁, _ | _⟩ := hargs
    apply visitSource_serves (ih source (by simp)).1 (hadmits.arg (by simp)) hfold₁ hscope hsource
      fun _ h => h.first rfl
    intro p' t₁ _ hscope₁ hselect hprojector
    exact ⟨.query hselect hprojector, hscope₁⟩
  next => cases hrun

theorem foldLocal_collection {entity : String} {e' : Expr}
    (h : (Expr.collection entity).foldLocal = .ok e') : e' = .collection entity := by
  rcases Expr.foldWith_cases h with ⟨hall, -⟩ | ⟨-, halike⟩
  · cases List.all_eq_true.mp hall _ (Expr.self_mem_nodes _)
  · cases halike with
    | leaf => rfl

theorem serves_tableColumns (table : Table) (label label' : String) (t : DataType) :
    Serves excused (.construct t (tableColumns table label))
      (.construct t (tableColumns table label')) := by
  apply Serves.construct
  rw [tableColumns, tableColumns, List.forall₂_map_left_iff, List.forall₂_map_right_iff,
    List.forall₂_same]
  intro x _
  exact ⟨rfl, .single rfl rfl (by simp) fun _ => Expr.computesWritable_leaf rfl⟩

theorem serves_bareRecord {entity : String} (x : Expr) (h : bareRecord catalog entity = .ok x) :
    ∃ x', bareRecord catalog entity = .ok x' ∧ Serves excused x x' := by
  obtain ⟨table, -, hx⟩ := bind_eq_ok.mp h
  refine ⟨x, h, ?_⟩
  rw [← pure_eq_ok.mp hx]
  exact serves_tableColumns table "" "" _

/-- A call for a character that is not folded itself. -/
theorem visit_charAt_serves {e' r : Expr} {t : Scope}
    (ih : ∀ c ∈ (Expr.call .charAt receiver args).children,
      VisitServes catalog style excused c)
    (hadmits : Admits excused (.call .charAt receiver args))
    (halike : (Expr.call .charAt receiver args).Alike
      (fun c c' => c ∈ (Expr.call .charAt receiver args).children ∧ c.foldLocal = .ok c') e')
    (hscope : ScopeServes excused s s')
    (hrun : (visit catalog style (.call .charAt receiver args)).run s = .ok (r, t)) :
    Yields (FailsIn catalog style s' e') ((visit catalog style e').run s') fun p =>
      Serves excused r p.1 ∧ ScopeServes excused t p.2 := by
  unfold visit at hrun
  split at hrun
  next string index =>
    simp only [run_bind_eq_ok, run_lift_eq_ok] at hrun
    obtain ⟨x, s₁, hx, y, s₂, hy, hsubstring, rfl⟩ := hrun
    cases halike with
    | leaf hleaf => cases hleaf
    | call _ hreceiver hargs =>
        obtain _ | ⟨hindex, _ | _⟩ := hargs
        cases hreceiver with
        | some hstring =>
            unfold visit
            have hserves := ih string hstring.1 (hadmits.child hstring.1) hstring.2 hscope hx
            apply Yields.run_bind (hserves.tolerate fun _ h => h.first rfl).result
            rintro x' t₁ ⟨hx', hserves₁, hscope₁⟩
            have hserves := ih index hindex.1 (hadmits.child hindex.1) hindex.2 hscope₁ hy
            apply Yields.run_bind (hserves.tolerate fun _ h => h.second rfl hx').result
            rintro y' t₂ ⟨hy', hserves₂, hscope₂⟩
            have hchar := hserves₁.substring hserves₂ hsubstring
            refine (Yields.run_lift (hchar.tolerate fun _ h => .index hx' hy' h)).imp ?_
            rintro ⟨r', _⟩ ⟨hr, rfl⟩
            exact ⟨hr, hscope₂⟩
  next =>
    simp only [run_bind_eq_ok] at hrun
    obtain ⟨_, _, -, h⟩ := hrun
    cases h
  next => cases hrun

theorem visitExistence_serves {method : Method} {function : Function} {entity : String} {r : Expr}
    {args' : List Expr} {t : Scope} (hm : IsExistence method function)
    (ih : PartsServe catalog style excused args)
    (hadmits : ∀ c ∈ args, Admits excused c)
    (hargs : List.Forall₂ (fun c c' => c.foldLocal = .ok c') args args')
    (hscope : ScopeServes excused s s')
    (hrun : (visitExistence catalog style method function entity args).run s = .ok (r, t)) :
    Yields (FailsIn catalog style s' (.call method (some (.collection entity)) args'))
      ((visitExistence catalog style method function entity args').run s') fun p =>
        Serves excused r p.1 ∧ ScopeServes excused t p.2 := by
  unfold visitExistence at hrun ⊢
  split at hrun
  next predicate =>
    simp only [run_bind_eq_ok, run_lift_eq_ok] at hrun
    obtain ⟨⟨x, b⟩, s₁, hlambda, _, s₂, hunbind, htest, rfl⟩ := hrun
    cases hunbind
    obtain _ | ⟨hfold, _ | _⟩ := hargs
    have hserves := (ih predicate (by simp)).2.1 (hadmits _ (by simp)) hfold hscope
      serves_bareRecord hlambda
    apply Yields.run_bind (hserves.tolerate fun _ h => h.test hm)
    rintro ⟨x', b'⟩ t₁ ⟨rfl, hbody, hscope₁⟩
    cases htable : catalog.table entity with
    | error err => rw [existenceTest, htable] at htest; cases htest
    | ok table =>
        rw [existenceTest, htable] at htest
        obtain rfl := Except.ok.inj htest
        show Yields _ ((liftM (existenceTest catalog style method function entity b') :
          Binder Expr).run _) _
        rw [existenceTest, htable]
        refine ⟨serves_computed rfl rfl ?_, serves_without _ hscope₁⟩
        simp only [Expr.isWritable_subquery, List.all_cons, List.all_nil, Bool.and_true,
          Bool.false_or]
        exact hbody.writable
  next => cases hrun

theorem visit_existence_serves {method : Method} {function : Function}
    (hm : IsExistence method function) (ih : PartsServe catalog style excused args) :
    VisitServes catalog style excused (.call method receiver args) := by
  intro e' s s' r t hadmits hfold hscope hrun
  have hmethod : method ≠ .charAt := by cases hm <;> simp
  obtain ⟨receiver', args', rfl, hreceiver, hargs⟩ := foldLocal_call hmethod hfold
  have hvisit (receiver : Option Expr) (args : List Expr) (s : Scope) :
      (visit catalog style (.call method receiver args)).run s =
        (do
          let entity ← existenceEntity function receiver
          visitExistence catalog style method function entity args : Binder Expr).run s := by
    cases hm <;> (unfold visit; rfl)
  rw [hvisit] at hrun ⊢
  simp only [run_bind_eq_ok, run_lift_eq_ok] at hrun
  obtain ⟨entity, _, ⟨hentity, rfl⟩, hrun⟩ := hrun
  obtain rfl := receiver_of_existenceEntity hentity
  cases hreceiver with
  | some hcollection =>
      obtain rfl := foldLocal_collection hcollection
      rw [hentity]
      exact visitExistence_serves hm ih (fun c hc => hadmits.arg hc) hargs hscope hrun

end Calls

theorem visit_collection_serves (entity : String) :
    VisitServes catalog style excused (.collection entity) := by
  intro e' s s' r t _ hfold hscope hrun
  obtain rfl := foldLocal_collection hfold
  unfold visit bindCollection at hrun ⊢
  simp only [run_bind_eq_ok, run_lift_eq_ok, run_pure_eq_ok] at hrun
  obtain ⟨table, _, ⟨htable, rfl⟩, _, _, hinner, _, _, houter, rfl, rfl⟩ := hrun
  cases hinner
  cases houter
  rw [htable]
  refine ⟨.query (fun _ => ?_) (serves_tableColumns table _ _ _), hscope⟩
  simp [Select.isWritable, Expr.isWritableSource, tableColumns]

theorem visit_parameter_serves (p : Parameter) :
    VisitServes catalog style excused (.parameter p) := by
  intro e' s s' r t _ hfold hscope hrun
  have he' : e' = .parameter p := by
    rcases Expr.foldWith_cases hfold with ⟨hall, -⟩ | ⟨-, halike⟩
    · cases List.all_eq_true.mp hall _ (Expr.self_mem_nodes _)
    · cases halike with
      | leaf => rfl
  have hr : Except.ok ((s.bound.lookup p.id).getD (.parameter p), s) =
      (Except.ok (r, t) : Except Error _) := hrun
  cases hr
  subst he'
  refine ⟨?_, hscope⟩
  have hrel := lookup_rel (k := p.id) hscope
  show Serves excused _ ((s'.bound.lookup p.id).getD (.parameter p))
  generalize s.bound.lookup p.id = x at hrel ⊢
  generalize s'.bound.lookup p.id = x' at hrel ⊢
  cases hrel with
  | none =>
      refine .single rfl rfl ?_ fun _ => Expr.computesWritable_leaf rfl
      rw [Expr.isWritable_eq_false rfl]
      rintro ⟨⟩
  | some hserves => exact hserves

theorem visitMembers_serves {ms ms' rs : List (String × Expr)} {t : Scope} (type : DataType)
    (ih : ∀ m ∈ ms, VisitServes catalog style excused m.2)
    (hadmits : ∀ m ∈ ms, Admits excused m.2)
    (hms : List.Forall₂ (fun a b => a.1 = b.1 ∧ a.2.foldLocal = .ok b.2) ms ms')
    (hscope : ScopeServes excused s s')
    (hrun : (visitMembers catalog style ms).run s = .ok (rs, t)) :
    Yields (FailsIn catalog style s' (.construct type ms'))
      ((visitMembers catalog style ms').run s') fun p =>
        Serves excused (.construct type rs) (.construct type p.1) ∧ ScopeServes excused t p.2 := by
  induction hms generalizing s s' rs with
  | nil =>
      unfold visitMembers at hrun ⊢
      obtain ⟨rfl, rfl⟩ := run_pure_eq_ok.mp hrun
      exact ⟨.recordNil, hscope⟩
  | @cons a b _ _ hab _ ihms =>
      obtain ⟨name, e⟩ := a
      obtain ⟨name', e'⟩ := b
      obtain ⟨rfl, hfold⟩ := hab
      unfold visitMembers at hrun ⊢
      simp only [run_bind_eq_ok, run_pure_eq_ok] at hrun
      obtain ⟨r, s₁, hr, rs', s₂, hrs, rfl, rfl⟩ := hrun
      have hhead := ih _ List.mem_cons_self (hadmits _ List.mem_cons_self) hfold hscope hr
      apply Yields.run_bind (hhead.tolerate fun _ h => h.first rfl).result
      rintro r' t₁ ⟨hr', hserves, hscope₁⟩
      have hrest := ihms (fun m hm => ih m (List.mem_cons_of_mem _ hm))
        (fun m hm => hadmits m (List.mem_cons_of_mem _ hm)) hscope₁ hrs
      apply Yields.run_bind (hrest.tolerate fun _ h => h.later hr')
      rintro rs'' t₂ ⟨hrecord, hscope₂⟩
      exact ⟨.recordCons hserves hrecord, hscope₂⟩

/-- A subtree that was folded as a whole is served by its value. -/
theorem visit_folded_serves {e' r : Expr} {t : Scope} (hadmits : Admits excused e)
    (hall : e.nodes.all Expr.isLocal) (hfold : e.foldNode = .ok e')
    (hscope : ScopeServes excused s s') (hrun : (visit catalog style e).run s = .ok (r, t)) :
    Yields (FailsIn catalog style s' e') ((visit catalog style e').run s') fun p =>
      Serves excused r p.1 ∧ ScopeServes excused t p.2 := by
  have hexcused : (∃ x ∈ e.nodes, isConstruct x) → excused := by
    rintro ⟨x, hx, hconstruct⟩
    refine hadmits.folds x hx hconstruct (List.all_eq_true.mpr fun y hy => ?_)
    exact List.all_eq_true.mp hall y (Expr.mem_nodes_trans hx hy)
  have hconstant (hfold : e.toConstant = .ok e') :
      Yields (FailsIn catalog style s' e') ((visit catalog style e').run s') fun p =>
        Serves excused r p.1 ∧ ScopeServes excused t p.2 := by
    obtain ⟨rfl, hserves⟩ := serves_toConstant hexcused hfold hrun
    simp only [Expr.toConstant, bind_eq_ok, pure_eq_ok] at hfold
    obtain ⟨v, -, w, -, rfl⟩ := hfold
    exact ⟨hserves, hscope⟩
  cases e with
  | constant v ty =>
      cases hfold
      cases hrun
      refine ⟨.single rfl rfl ?_ fun _ => Expr.computesWritable_leaf rfl, hscope⟩
      rw [Expr.isWritable_constant, Expr.isWritable_constant]
      exact id
  | _ => exact hconstant hfold

theorem visit_serves (catalog : Catalog) (style : IdentifierCase) (excused : Bool) (e : Expr) :
    VisitServes catalog style excused e ∧ LambdaServes catalog style excused e ∧
      ResultServes catalog style excused e := by
  induction e using Expr.children_induction with
  | step e ih =>
      have hvisit : ∀ c ∈ e.children, VisitServes catalog style excused c :=
        fun c hc => (ih c hc).1
      refine ⟨?_, visitLambda_serves hvisit, visitResult_serves hvisit⟩
      intro e' s s' r t hadmits hfold hscope hrun
      rcases Expr.foldWith_cases hfold with ⟨hall, hnode⟩ | ⟨hnot, halike⟩
      · exact visit_folded_serves hadmits hall hnode hscope hrun
      cases e with
      | constant | captured =>
          rw [Expr.nodes_eq] at hnot
          cases hnot
      | parameter p => exact visit_parameter_serves p hadmits hfold hscope hrun
      | collection entity => exact visit_collection_serves entity hadmits hfold hscope hrun
      | member target name =>
          unfold visit at hrun
          simp only [run_bind_eq_ok, run_lift_eq_ok] at hrun
          obtain ⟨x, t, hx, hmember, rfl⟩ := hrun
          cases halike with
          | leaf hleaf => cases hleaf
          | member _ ha =>
              unfold visit
              have hserves := hvisit target ha.1 (hadmits.child ha.1) ha.2 hscope hx
              apply Yields.run_bind (hserves.tolerate fun _ h => h.first rfl)
              rintro x' t' ⟨hserves, hscope'⟩
              obtain ⟨y, hy, hserves'⟩ := hserves.member hmember
              rw [hy]
              exact ⟨hserves', hscope'⟩
      | unary op a =>
          unfold visit at hrun
          simp only [run_bind_eq_ok, run_pure_eq_ok] at hrun
          obtain ⟨x, t, hx, rfl, rfl⟩ := hrun
          cases halike with
          | leaf hleaf => cases hleaf
          | unary _ ha =>
              unfold visit
              have hserves := hvisit a ha.1 (hadmits.child ha.1) ha.2 hscope hx
              apply Yields.run_bind (hserves.tolerate fun _ h => h.first rfl)
              rintro x' t' ⟨hserves, hscope'⟩
              exact ⟨hserves.unary, hscope'⟩
      | binary op a b =>
          unfold visit at hrun
          simp only [run_bind_eq_ok, run_pure_eq_ok] at hrun
          obtain ⟨x, t, hx, y, t', hy, rfl, rfl⟩ := hrun
          cases halike with
          | leaf hleaf => cases hleaf
          | binary _ ha hb =>
              unfold visit
              have hserves := hvisit a ha.1 (hadmits.child ha.1) ha.2 hscope hx
              apply Yields.run_bind (hserves.tolerate fun _ h => h.first rfl).result
              rintro x' t₁ ⟨hx', hserves₁, hscope₁⟩
              have hserves := hvisit b hb.1 (hadmits.child hb.1) hb.2 hscope₁ hy
              apply Yields.run_bind (hserves.tolerate fun _ h => h.second rfl hx')
              rintro y' t₂ ⟨hserves₂, hscope₂⟩
              exact ⟨hserves₁.binary hserves₂, hscope₂⟩
      | construct ty ms =>
          unfold visit at hrun
          simp only [run_bind_eq_ok, run_pure_eq_ok] at hrun
          obtain ⟨rs, t, hms, rfl, rfl⟩ := hrun
          cases halike with
          | leaf hleaf => cases hleaf
          | construct _ hfolds =>
              unfold visit
              apply Yields.run_bind (visitMembers_serves ty
                (fun m hm => hvisit m.2 (List.mem_map_of_mem hm))
                (fun m hm => hadmits.child (List.mem_map_of_mem hm))
                (hfolds.imp fun _ _ h => ⟨h.1, h.2.2⟩) hscope hms)
              intro rs' t' h
              exact h
      | call method receiver args =>
          have hargs : PartsServe catalog style excused args :=
            fun c hc => ih c (List.mem_append_right _ hc)
          cases method with
          | select => exact visit_select_serves hargs hadmits hfold hscope hrun
          | filter => exact visit_filter_serves hargs hadmits hfold hscope hrun
          | join => exact visit_join_serves hargs hadmits hfold hscope hrun
          | toList => exact visit_toList_serves hargs hadmits hfold hscope hrun
          | charAt => exact visit_charAt_serves hvisit hadmits halike hscope hrun
          | existence => exact visit_existence_serves .existence hargs hadmits hfold hscope hrun
          | absence => exact visit_existence_serves .absence hargs hadmits hfold hscope hrun
          | named name => cases hrun
      | lambda => cases hrun
      | outerRow => cases hrun
      | _ => cases hadmits.composed _ (Expr.self_mem_nodes _)

end Walk

/-- Where a query is bound, the folded one is bound to a query that can be written if the first
can. -/
theorem bind_serves {catalog : Catalog} {style : IdentifierCase} {excused : Bool}
    {e e' : Expr} {p : Projection Expr} (hadmits : Admits excused e)
    (hfold : e.foldLocal = .ok e') (hbind : bind catalog style e = .ok p) :
    Yields (IndexFails catalog style {} e') (bind catalog style e') fun p' =>
      p.source.isWritable false → p'.source.isWritable excused := by
  simp only [bind, StateT.run'_eq, bind_eq_ok, fmap_eq_ok] at hbind
  obtain ⟨_, ⟨⟨r, t⟩, hrun, rfl⟩, hp⟩ := hbind
  obtain rfl : r = .projection p := by
    cases r with
    | projection => exact congrArg _ (Except.ok.inj hp)
    | _ => cases hp
  have hnone : ScopeServes excused {} {} := .nil
  have hvisit := (visit_serves catalog style excused e).1 hadmits hfold hnone hrun
  have hfails := hvisit.tolerate fun err h => h {} rfl
  rw [bind, StateT.run'_eq]
  refine Yields.bind (Yields.map hfails fun q hq => hq.1) fun r' hr' => ?_
  cases hr' with
  | query hsource _ => exact hsource
  | single hr => cases hr
  | folded _ hr => cases hr _ (Expr.self_mem_nodes _)

end Quarry.Binding

namespace Quarry

/-- A constructor all of whose parts have a value, which folding replaces by a constant. -/
def Expr.isKnownRecord (e : Expr) : Bool := Binding.isConstruct e && e.nodes.all Expr.isLocal

namespace Provider

variable {σ : Type} {P : Provider σ}

theorem prepare_ok {e e' : Expr} {p : Projection Expr} {text : String}
    (hfold : e.foldLocal = .ok e')
    (hbind : Binding.bind P.catalog P.settings.identifierCase e' = .ok p)
    (htext : Sql.format P.style (.select p.source) = .ok text)
    (hbuild : ∃ m, Materializer.build p = .ok m) (s : ProviderState σ) :
    ∃ plan t, (P.prepare e).run.run s = (.ok plan, t) := by
  obtain ⟨m, t, hm, -⟩ := materializer_ok (P := P) hbuild s
  refine ⟨⟨text, p, m⟩, t, ?_⟩
  rw [prepare, hfold]
  show ((do
    let p ← Binding.bind P.catalog P.settings.identifierCase e'
    P.plan p : Action (ProviderState σ) Plan)).run.run s = _
  rw [hbind]
  show (P.plan p).run.run s = _
  rw [plan, htext]
  show (P.materializer p >>= fun m => pure (⟨text, p, m⟩ : Plan)).run.run s = _
  rw [ExceptT.run_bind, StateT.run_bind, hm]
  rfl

/-- A query that can be bound and written as it is can be bound and written after folding, too, and
then it can be prepared. There are two exceptions: the walk of the folded query comes to the index
of a character and binds it to a constant to which one cannot be added, and then this is the error;
or a record that is known was folded, and the text would have to read a member of a constant. -/
theorem folding_keeps_translation {e e' : Expr} {p : Projection Expr} {text : String}
    (hcomposed : ∀ x ∈ e.nodes, x.isComposed) (hfold : e.foldLocal = .ok e')
    (hbind : Binding.bind P.catalog P.settings.identifierCase e = .ok p)
    (htext : Sql.format P.style (.select p.source) = .ok text) :
    (∃ p', Binding.bind P.catalog P.settings.identifierCase e' = .ok p' ∧
      ((∃ text', Sql.format P.style (.select p'.source) = .ok text' ∧
          (e.isClosed [] → ∀ s, ∃ plan t, (P.prepare e).run.run s = (.ok plan, t))) ∨
        (∃ x ∈ e.nodes, x.isKnownRecord) ∧
          ∃ v t name, .member (.constant v t) name ∈ (Expr.select p'.source).nodes)) ∨
    ∃ err, Binding.IndexFails P.catalog P.settings.identifierCase {} e' err ∧
      Binding.bind P.catalog P.settings.identifierCase e' = .error err := by
  have hadmits : Binding.Admits (e.nodes.any Expr.isKnownRecord) e := by
    refine ⟨hcomposed, fun x hx hconstruct hlocal => ?_⟩
    rw [List.any_eq_true]
    exact ⟨x, hx, by rw [Expr.isKnownRecord, hconstruct, hlocal]; rfl⟩
  have hserves := Binding.bind_serves hadmits hfold hbind
  have hbare : P.style.bare = none := rfl
  have hwritable : p.source.isWritable false := by
    rw [← Sql.format_isOk hbare, htext]
    rfl
  cases hbind' : Binding.bind P.catalog P.settings.identifierCase e' with
  | error err =>
      rw [hbind'] at hserves
      exact .inr ⟨err, hserves, rfl⟩
  | ok p' =>
      rw [hbind'] at hserves
      refine .inl ⟨p', rfl, ?_⟩
      have hwritten (h : p'.source.isWritable false) :
          ∃ text', Sql.format P.style (.select p'.source) = .ok text' ∧
            (e.isClosed [] → ∀ s, ∃ plan t, (P.prepare e).run.run s = (.ok plan, t)) := by
        rw [← Sql.format_isOk hbare] at h
        cases htext' : Sql.format P.style (.select p'.source) with
        | error err =>
            rw [htext'] at h
            cases h
        | ok text' =>
            refine ⟨text', rfl, fun hclosed => ?_⟩
            have hready := Binding.bind_ready (Expr.foldLocal_isClosed hclosed hfold) hbind'
            exact prepare_ok hfold hbind' htext' hready.buildable.ofExpr_ok
      have hexcused := hserves hwritable
      cases hknown : e.nodes.any Expr.isKnownRecord with
      | false =>
          rw [hknown] at hexcused
          exact .inl (hwritten hexcused)
      | true =>
          by_cases hreads : (Expr.select p'.source).ReadsNoConstant
          · have hsame := hreads.isWritableSource (e.nodes.any Expr.isKnownRecord)
            exact .inl (hwritten (hsame.symm.trans hexcused))
          · simp only [Expr.ReadsNoConstant, not_forall, not_not] at hreads
            exact .inr ⟨by simpa using hknown, hreads⟩

/-- Owners above a captured bound, each with one letter of the name and the owner's items. -/
def ownersAbove : Expr :=
  let owner : Parameter := ⟨0, "o", .entity "Owner"⟩
  let item : Parameter := ⟨1, "i", .entity "Item"⟩
  let bound (op : Arithmetic) (n : Int32) : Expr :=
    .binary (.arithmetic op) (.captured "bound" (.int32 1)) (.constant (.int32 n) .int32)
  let owners := .call .filter none [.collection "Owner", .lambda [owner]
    (.binary (.comparison .gt) (.member (.parameter owner) "Id") (bound .add 2))]
  .call .select none [owners, .lambda [owner] (.construct .null
    [("Letter", .call .charAt (some (.member (.parameter owner) "Name")) [bound .sub 1]),
      ("Items", .call .toList none [.call .filter none [.collection "Item", .lambda [item]
        (.binary (.comparison .eq) (.member (.parameter item) "Owner")
          (.member (.parameter owner) "Id"))]])])]

/-- The owners whose name has an `a` at an index. -/
def ownersByLetterAt (index : Expr) : Expr :=
  let owner : Parameter := ⟨0, "o", .entity "Owner"⟩
  .call .filter none [.collection "Owner", .lambda [owner] (.binary (.comparison .eq)
    (.call .charAt (some (.member (.parameter owner) "Name")) [index])
    (.constant (.char 'a') .char))]

theorem folding_keeps_translation_of_letters :
    let P : Provider Unit := ⟨Binding.ownership, {}, always []⟩
    let sum : Expr := .binary (.arithmetic .add) (.constant (.int32 2147483646) .int32)
      (.constant (.int32 1) .int32)
    let greatest : Expr := .constant (.int32 2147483647) .int32
    (∃ e' p' text', ownersAbove.foldLocal = .ok e' ∧
      Binding.bind P.catalog P.settings.identifierCase e' = .ok p' ∧
        Sql.format P.style (.select p'.source) = .ok text' ∧
          ∃ plan t, (P.prepare ownersAbove).run.run ⟨(), {}⟩ = (.ok plan, t)) ∧
    (ownersByLetterAt sum).foldLocal = .ok (ownersByLetterAt greatest) ∧
      Binding.IndexFails P.catalog P.settings.identifierCase {} (ownersByLetterAt greatest)
        (.integerOverflow "+") := by
  intro P sum greatest
  constructor
  · have hclosed : ownersAbove.isClosed [] := by decide
    have hknown : ¬ ∃ x ∈ ownersAbove.nodes, x.isKnownRecord := by decide
    obtain ⟨e', hfold, _, hbind'⟩ : ∃ e', ownersAbove.foldLocal = .ok e' ∧
        ∃ p', Binding.bind P.catalog P.settings.identifierCase e' = .ok p' :=
      ⟨_, by cbv, _, by cbv⟩
    obtain ⟨p, hbind, text, htext⟩ : ∃ p,
        Binding.bind P.catalog P.settings.identifierCase ownersAbove = .ok p ∧
          ∃ text, Sql.format P.style (.select p.source) = .ok text := ⟨_, by cbv, _, by cbv⟩
    rcases folding_keeps_translation (Expr.nodes_isComposed hclosed) hfold hbind htext with
      ⟨p', hp', ⟨text', htext', hprepare⟩ | ⟨hrecord, -⟩⟩ | ⟨err, -, herr⟩
    · exact ⟨e', p', text', hfold, hp', htext', hprepare hclosed _⟩
    · exact absurd hrecord hknown
    · cases hbind'.symm.trans herr
  · have hclosed : (ownersByLetterAt sum).isClosed [] := by decide
    have hfold : (ownersByLetterAt sum).foldLocal = .ok (ownersByLetterAt greatest) := by cbv
    have hfails : Binding.bind P.catalog P.settings.identifierCase (ownersByLetterAt greatest) =
        .error (.integerOverflow "+") := rfl
    obtain ⟨p, hbind, text, htext⟩ : ∃ p,
        Binding.bind P.catalog P.settings.identifierCase (ownersByLetterAt sum) = .ok p ∧
          ∃ text, Sql.format P.style (.select p.source) = .ok text := ⟨_, by cbv, _, by cbv⟩
    rcases folding_keeps_translation (Expr.nodes_isComposed hclosed) hfold hbind htext with
      ⟨p', hp', -⟩ | ⟨err, hindex, herr⟩
    · cases hfails.symm.trans hp'
    · obtain rfl := Except.error.inj (hfails.symm.trans herr)
      exact ⟨hfold, hindex⟩

/-- A record for each owner, and a condition on the record's member. -/
def ownersAs (record : Expr) : Expr :=
  let owner : Parameter := ⟨0, "o", .entity "Owner"⟩
  let one : Parameter := ⟨1, "x", .null⟩
  .call .filter none [.call .select none [.collection "Owner", .lambda [owner] record],
    .lambda [one] (.binary (.comparison .eq) (.member (.parameter one) "a")
      (.constant (.int32 1) .int32))]

/-- Each owner with the owners of all items, where both functions have the same parameter. -/
def ownersShadowed : Expr :=
  let owner : Parameter := ⟨0, "o", .entity "Owner"⟩
  let item : Parameter := ⟨0, "i", .entity "Item"⟩
  .call .select none [.collection "Owner", .lambda [owner] (.construct .null
    [("Owners", .call .toList none [.call .select none [.collection "Item",
      .lambda [item] (.member (.parameter item) "Owner")]]),
      ("Id", .member (.parameter owner) "Id")])]

/-- Both exceptions occur: a query that can be bound and written cannot be bound once its index is
the greatest integer, and another cannot be written once its record is a constant. A third, where a
parameter stands for two things, folding leaves as it is, and it cannot be prepared. -/
theorem folding_loses_translation :
    let P : Provider Unit := ⟨Binding.ownership, {}, always []⟩
    let bind := Binding.bind P.catalog P.settings.identifierCase
    let translates (e : Expr) :=
      ∃ p text, bind e = .ok p ∧ Sql.format P.style (.select p.source) = .ok text
    let sum : Expr := .binary (.arithmetic .add) (.constant (.int32 2147483646) .int32)
      (.constant (.int32 1) .int32)
    let greatest : Expr := .constant (.int32 2147483647) .int32
    let one : Expr := .construct .null [("a", .constant (.int32 1) .int32)]
    let known : Expr := .constant (.record [("a", .int32 1)]) .null
    ((ownersByLetterAt sum).isClosed [] ∧
      (ownersByLetterAt sum).foldLocal = .ok (ownersByLetterAt greatest) ∧
        translates (ownersByLetterAt sum) ∧
          bind (ownersByLetterAt greatest) = .error (.integerOverflow "+")) ∧
    ((ownersAs one).isClosed [] ∧ (ownersAs one).foldLocal = .ok (ownersAs known) ∧
      translates (ownersAs one) ∧
        ∃ p err, bind (ownersAs known) = .ok p ∧
          Sql.format P.style (.select p.source) = .error err) ∧
    ownersShadowed.foldLocal = .ok ownersShadowed ∧ translates ownersShadowed ∧
      ((P.prepare ownersShadowed).run.run ⟨(), {}⟩).1.isOk = false := by
  refine ⟨⟨by decide, by cbv, ?_, rfl⟩, ⟨by decide, by cbv, ?_, ?_⟩, by cbv, ?_, by decide +kernel⟩
  · exact ⟨_, _, by cbv, by cbv⟩
  · exact ⟨_, _, by cbv, by cbv⟩
  · exact ⟨_, _, by cbv, by cbv⟩
  · exact ⟨_, _, by cbv, by cbv⟩

end Provider

end Quarry
