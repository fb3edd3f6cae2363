import Quarry.Proofs.Resolution
/-!
Parameters are resolved lexically. The binder threads one table of parameters through the whole walk;
entries of finished lambdas stay in it, or are taken out by number. On closed expressions it gives the
answer, or the error, of a walk that passes an environment down and takes nothing back.
-/
namespace Quarry.Binding

namespace Lexical

/-- A walk that only counts the labels given out. -/
abbrev Walk := StateT Nat (Except Error)

/-- Gives out labels and returns the number of the first. -/
def takeLabels (count : Nat) : Walk Nat := modifyGet fun n => (n, n + count)

def bindCollection (catalog : Catalog) (entity : String) : Walk Expr := do
  let t ← catalog.table entity
  return .projection (tableProjection t (← takeLabels 2))

def projectOver (projector : Expr) (sources : List String) (source : Expr) (filter : Option Expr) :
    Walk Expr := do
  return .projection (projection projector (← takeLabels 1) sources source filter)

variable (catalog : Catalog) (style : IdentifierCase)

mutual

/-- Binds an expression where the parameters stand for `env`. -/
def visit (env : List (Nat × Expr)) : Expr → Walk Expr
  | .call .select _ args =>
    match args with
    | [source, selector] => do
      let p ← asSource (← visit env source)
      let body ← visitLambda env (pure p.projector) selector
      projectOver body [p.source.label] (.select p.source) none
    | args => throw (methodArity .select 2 args)
  | .call .filter _ args =>
    match args with
    | [source, predicate] => do
      let p ← asSource (← visit env source)
      let condition ← visitLambda env (pure p.projector) predicate
      projectOver p.projector [p.source.label] (.select p.source) (some condition)
    | args => throw (methodArity .filter 2 args)
  | .call .join _ args =>
    match args with
    | [left, right, leftKey, rightKey, result] => do
      let l ← asSource (← visit env left)
      let r ← asSource (← visit env right)
      let leftKey ← visitLambda env (pure l.projector) leftKey
      let rightKey ← visitLambda env (pure r.projector) rightKey
      let body ← visitResult env l.projector r.projector result
      projectOver body [l.source.label, r.source.label]
        (.join .inner (.select l.source) (.select r.source)
          (some (.binary (.comparison .eq) leftKey rightKey))) none
    | args => throw (methodArity .join 5 args)
  | .call .toList _ args =>
    match args with
    | [source] => do
      let p ← asSource (← visit env source)
      return .projection { p with shape := .list }
    | args => throw (methodArity .toList 1 args)
  | .call .charAt receiver args =>
    match receiver, args with
    | some string, [index] => do
      let s ← visit env string
      let i ← visit env index
      substring s i
    | some string, args => do
      let _ ← visit env string
      throw (.wrongArity "character index" 1 args.length)
    | none, _ => throw .characterIndexInstance
  | .call .existence receiver args => do
    visitExistence env .existence .existence (← existenceEntity .existence receiver) args
  | .call .absence receiver args => do
    visitExistence env .absence .absence (← existenceEntity .absence receiver) args
  | .call (.named name) _ _ => throw (.unsupportedMethod name)
  | .collection entity => bindCollection catalog entity
  | .parameter p => pure ((env.lookup p.id).getD (.parameter p))
  | .member target name => do memberOf (← visit env target) name
  | .captured _ v => pure (.literal v)
  | .lambda .. => throw .strayLambda
  | .outerRow _ => throw .strayOuterRow
  | .unary op e => do return .unary op (← visit env e)
  | .binary op l r => do return .binary op (← visit env l) (← visit env r)
  | .construct type members => do return .construct type (← visitMembers env members)
  | e => pure e

def visitMembers (env : List (Nat × Expr)) : List (String × Expr) → Walk (List (String × Expr))
  | [] => pure []
  | (name, e) :: rest => do
    let e ← visit env e
    return (name, e) :: (← visitMembers env rest)

def visitExistence (env : List (Nat × Expr)) (method : Method) (function : Function)
    (entity : String) : List Expr → Walk Expr
  | [predicate] => do
    let body ← visitLambda env (bareRecord catalog entity) predicate
    existenceTest catalog style method function entity body
  | args => throw (.wrongArity "existence predicate" 1 args.length)

/-- Binds the body of a lambda; only there the parameter stands for `subject`. -/
def visitLambda (env : List (Nat × Expr)) (subject : Except Error Expr) : Expr → Walk Expr
  | .lambda params body =>
    match params with
    | [p] => do
      let x ← subject
      visit ((p.id, x) :: env) body
    | params => throw (.wrongArity "lambda" 1 params.length)
  | e => throw (.expectedLambda e.kind)

def visitResult (env : List (Nat × Expr)) (left right : Expr) : Expr → Walk Expr
  | .lambda params body =>
    match params with
    | [p, q] => visit ((q.id, right) :: (p.id, left) :: env) body
    | params => throw (.wrongArity "join result selector" 2 params.length)
  | e => throw (.expectedLambda e.kind)

end

/-- Binds a whole query. -/
def bind (e : Expr) : Except Error (Projection Expr) := do
  match ← (visit catalog style [] e).run' 0 with
  | .projection p => .ok p
  | e => .error (.expectedQuery e.kind e.display)

end Lexical

/-! The two walks side by side -/

/-- From `s` the binder and the lexical walk fail alike, or give related results and the same number
of labels, and the binder keeps its entries for `ids`. -/
inductive Follows {α β : Type} (ids : List Nat) (R : α → β → Prop) (s : Scope) (x : Binder α)
    (y : Lexical.Walk β) : Prop
  | ok {a b s'} (hx : x.run s = .ok (a, s')) (hy : y.run s.labels = .ok (b, s'.labels))
      (hr : R a b) (hk : Keeps ids s s')
  | error {err} (hx : x.run s = .error err) (hy : y.run s.labels = .error err)

namespace Follows

variable {α β γ δ : Type} {ids : List Nat} {R : α → β → Prop} {Q : γ → δ → Prop} {s : Scope}
variable {x : Binder α} {y : Lexical.Walk β}

theorem pure {a : α} {b : β} (h : R a b) : Follows ids R s (pure a) (pure b) :=
  .ok rfl rfl h fun _ _ => rfl

theorem throw {e : Error} : Follows ids R s (throw e) (throw e) := .error rfl rfl

theorem lift (z : Except Error α) : Follows ids Eq s (liftM z) (liftM z) := by
  cases z with
  | ok a => exact .ok rfl rfl rfl fun _ _ => rfl
  | error e => exact .error rfl rfl

theorem bind {f : α → Binder γ} {g : β → Lexical.Walk δ} (h : Follows ids R s x y)
    (hf : ∀ a b s', R a b → Keeps ids s s' → Follows ids Q s' (f a) (g b)) :
    Follows ids Q s (x >>= f) (y >>= g) := by
  cases h with
  | error hx hy => exact .error (by rw [StateT.run_bind, hx]; rfl) (by rw [StateT.run_bind, hy]; rfl)
  | @ok a b s' hx hy hr hk =>
      have hxrun : (x >>= f).run s = (f a).run s' := by rw [StateT.run_bind, hx]; rfl
      have hyrun : (y >>= g).run s.labels = (g b).run s'.labels := by rw [StateT.run_bind, hy]; rfl
      cases hf a b s' hr hk with
      | error hx' hy' => exact .error (hxrun.trans hx') (hyrun.trans hy')
      | ok hx' hy' hr' hk' => exact .ok (hxrun.trans hx') (hyrun.trans hy') hr' (hk.trans hk')

theorem map {f : α → γ} {Q : γ → β → Prop} (h : Follows ids R s x y)
    (hf : ∀ a b, R a b → Q (f a) b) : Follows ids Q s (x >>= fun a => Pure.pure (f a)) y := by
  cases h with
  | error hx hy => exact .error (by rw [StateT.run_bind, hx]; rfl) hy
  | ok hx hy hr hk => exact .ok (by rw [StateT.run_bind, hx]; rfl) hy (hf _ _ hr) hk

theorem subset {ids' : List Nat} (h : Follows ids R s x y) (hsub : ids' ⊆ ids) :
    Follows ids' R s x y := by
  cases h with
  | error hx hy => exact .error hx hy
  | ok hx hy hr hk => exact .ok hx hy hr (hk.subset hsub)

end Follows

theorem follows_projectOver {ids : List Nat} {s : Scope} (projector : Expr) (sources : List String)
    (source : Expr) (filter : Option Expr) :
    Follows ids Eq s (projectOver projector sources source filter)
      (Lexical.projectOver projector sources source filter) :=
  .ok rfl rfl rfl fun _ _ => rfl

theorem follows_bindCollection {ids : List Nat} {s : Scope} (catalog : Catalog) (entity : String) :
    Follows ids Eq s (bindCollection catalog entity) (Lexical.bindCollection catalog entity) := by
  apply (Follows.lift _).bind
  rintro t _ s' rfl -
  exact .ok rfl rfl rfl fun _ _ => rfl

variable (catalog : Catalog) (style : IdentifierCase)

/-- Wherever `e` is closed, the binder follows the lexical walk of `e`. -/
def VisitFollows (e : Expr) : Prop :=
  ∀ ⦃ids env s⦄, e.isClosed ids → Agrees ids env s →
    Follows ids Eq s (visit catalog style e) (Lexical.visit catalog style env e)

/-- The same for the body of `e`, if it is a lambda of one parameter; its number is then none of the
enclosing ones. -/
def LambdaFollows (e : Expr) : Prop :=
  ∀ ⦃ids env s subject⦄, e.isClosed ids → Agrees ids env s →
    Follows ids (fun a b => a.2 = b ∧ a.1.id ∉ ids) s (visitLambda catalog style subject e)
      (Lexical.visitLambda catalog style env subject e)

/-- The same for the body of `e`, if it is a lambda of two parameters. -/
def ResultFollows (e : Expr) : Prop :=
  ∀ ⦃ids env s left right⦄, e.isClosed ids → Agrees ids env s →
    Follows ids Eq s (visitResult catalog style left right e)
      (Lexical.visitResult catalog style env left right e)

variable {catalog style} {ids : List Nat} {env : List (Nat × Expr)} {s : Scope} {e : Expr}

theorem keeps_withBound {id : Nat} {a : Expr} (hid : id ∉ ids) : Keeps ids s (s.withBound id a) := by
  intro k hk
  have hne : k ≠ id := fun heq => hid (heq ▸ hk)
  rw [Scope.withBound, lookup_withBound, if_neg hne]

/-- Binding a parameter first leaves the entries for other numbers alone. -/
theorem Follows.withBound {α β : Type} {R : α → β → Prop} {x : Binder α} {y : Lexical.Walk β}
    {p : Parameter} {a : Expr} (hid : p.id ∉ ids) (h : Follows ids R (s.withBound p.id a) x y) :
    Follows ids R s (bindParameter p a >>= fun _ => x) y := by
  have hrun : (bindParameter p a >>= fun _ => x).run s = x.run (s.withBound p.id a) := rfl
  cases h with
  | error hx hy => exact .error (hrun.trans hx) hy
  | ok hx hy hr hk => exact .ok (hrun.trans hx) hy hr ((keeps_withBound hid).trans hk)

/-- So does taking a parameter out first. -/
theorem Follows.withoutBound {α β : Type} {R : α → β → Prop} {x : Binder α} {y : Lexical.Walk β}
    {p : Parameter} (hid : p.id ∉ ids)
    (h : Follows ids R { s with bound := s.bound.filter (·.1 ≠ p.id) } x y) :
    Follows ids R s (unbindParameter p >>= fun _ => x) y := by
  have hkeeps : Keeps ids s { s with bound := s.bound.filter (·.1 ≠ p.id) } := by
    intro k hk
    exact lookup_filter_ne fun heq => hid (heq ▸ hk)
  cases h with
  | error hx hy => exact .error hx hy
  | ok hx hy hr hk => exact .ok hx hy hr (hkeeps.trans hk)

theorem visitLambda_follows (ih : ∀ c ∈ e.children, VisitFollows catalog style c) :
    LambdaFollows catalog style e := by
  intro ids env s subject hclosed hagrees
  cases e with
  | lambda params body =>
      unfold visitLambda Lexical.visitLambda
      rcases params with _ | ⟨p, _ | _⟩
      · exact .throw
      · obtain ⟨hfresh, hbody⟩ := Expr.isClosed_lambda.mp hclosed
        have hid : p.id ∉ ids := hfresh p List.mem_cons_self
        apply (Follows.lift subject).bind
        rintro x _ s' rfl hk
        apply Follows.withBound hid
        apply Follows.map (R := Eq) _ fun b _ heq => ⟨heq, hid⟩
        exact (ih body (by simp [Expr.children]) hbody (hagrees.keeps hk).withBound).subset
          (List.subset_cons_self _ _)
      · exact .throw
  | _ => exact .throw

theorem visitResult_follows (ih : ∀ c ∈ e.children, VisitFollows catalog style c) :
    ResultFollows catalog style e := by
  intro ids env s left right hclosed hagrees
  cases e with
  | lambda params body =>
      unfold visitResult Lexical.visitResult
      rcases params with _ | ⟨p, _ | ⟨q, _ | _⟩⟩
      · exact .throw
      · exact .throw
      · obtain ⟨hfresh, hbody⟩ := Expr.isClosed_lambda.mp hclosed
        have hids : [p.id, q.id] ++ ids ⊆ q.id :: p.id :: ids := by
          intro id hid
          simpa [or_left_comm] using hid
        apply Follows.withBound (hfresh p (by simp))
        apply Follows.withBound (hfresh q (by simp))
        exact (ih body (by simp [Expr.children]) hbody
          (hagrees.withBound.withBound.subset hids)).subset (List.subset_append_right _ _)
      · exact .throw
  | _ => exact .throw

theorem visitMembers_follows {ms : List (String × Expr)}
    (ih : ∀ m ∈ ms, VisitFollows catalog style m.2) (hclosed : ∀ m ∈ ms, m.2.isClosed ids)
    (hagrees : Agrees ids env s) :
    Follows ids Eq s (visitMembers catalog style ms) (Lexical.visitMembers catalog style env ms) := by
  induction ms generalizing s with
  | nil =>
      unfold visitMembers Lexical.visitMembers
      exact .pure rfl
  | cons m ms ihms =>
      obtain ⟨name, e⟩ := m
      unfold visitMembers Lexical.visitMembers
      apply (ih _ List.mem_cons_self (hclosed _ List.mem_cons_self) hagrees).bind
      rintro r _ s₁ rfl hk
      apply (ihms (fun m hm => ih m (List.mem_cons_of_mem _ hm))
        (fun m hm => hclosed m (List.mem_cons_of_mem _ hm)) (hagrees.keeps hk)).bind
      rintro rs _ s₂ rfl -
      exact .pure rfl

/-- What is known of the parts of a node while the node itself is walked. -/
def PartsFollow (catalog : Catalog) (style : IdentifierCase) (args : List Expr) : Prop :=
  ∀ c ∈ args, VisitFollows catalog style c ∧ LambdaFollows catalog style c ∧
    ResultFollows catalog style c

section Calls

alias Lexical.visit_eq := Lexical.visit.eq_def

variable {receiver : Option Expr} {args : List Expr}

/-- A part that has to be a query is walked first. -/
theorem visitSource_follows {α : Type} {f : Projection Expr → Binder α}
    {g : Projection Expr → Lexical.Walk α} (ih : VisitFollows catalog style e)
    (hclosed : e.isClosed ids) (hagrees : Agrees ids env s)
    (h : ∀ p s', Agrees ids env s' → Follows ids Eq s' (f p) (g p)) :
    Follows ids Eq s (do f (← asSource (← visit catalog style e)))
      (do g (← asSource (← Lexical.visit catalog style env e))) := by
  apply (ih hclosed hagrees).bind
  rintro r _ s₁ rfl hk
  apply (Follows.lift (asSource r)).bind
  rintro p _ s₂ rfl hk₂
  exact h p s₂ ((hagrees.keeps hk).keeps hk₂)

theorem visit_select_follows (ih : PartsFollow catalog style args) :
    VisitFollows catalog style (.call .select receiver args) := by
  intro ids env s hclosed hagrees
  have hargs : ∀ c ∈ args, c.isClosed ids := fun c hc => Expr.isClosed_arg hclosed hc
  unfold visit Lexical.visit
  rcases args with _ | ⟨source, _ | ⟨selector, _ | _⟩⟩
  · exact .throw
  · exact .throw
  · apply visitSource_follows (ih source (by simp)).1 (hargs _ (by simp)) hagrees
    intro p s₁ hagrees₁
    apply ((ih selector (by simp)).2.1 (hargs _ (by simp)) hagrees₁).bind
    rintro ⟨x, b⟩ _ s₂ ⟨rfl, -⟩ -
    exact follows_projectOver _ _ _ _
  · exact .throw

theorem visit_filter_follows (ih : PartsFollow catalog style args) :
    VisitFollows catalog style (.call .filter receiver args) := by
  intro ids env s hclosed hagrees
  have hargs : ∀ c ∈ args, c.isClosed ids := fun c hc => Expr.isClosed_arg hclosed hc
  unfold visit Lexical.visit
  rcases args with _ | ⟨source, _ | ⟨predicate, _ | _⟩⟩
  · exact .throw
  · exact .throw
  · apply visitSource_follows (ih source (by simp)).1 (hargs _ (by simp)) hagrees
    intro p s₁ hagrees₁
    apply ((ih predicate (by simp)).2.1 (hargs _ (by simp)) hagrees₁).bind
    rintro ⟨x, b⟩ _ s₂ ⟨rfl, -⟩ -
    exact follows_projectOver _ _ _ _
  · exact .throw

theorem visit_join_follows (ih : PartsFollow catalog style args) :
    VisitFollows catalog style (.call .join receiver args) := by
  intro ids env s hclosed hagrees
  have hargs : ∀ c ∈ args, c.isClosed ids := fun c hc => Expr.isClosed_arg hclosed hc
  unfold visit Lexical.visit
  rcases args with _ | ⟨left, _ | ⟨right, _ | ⟨leftKey, _ | ⟨rightKey, _ | ⟨result, _ | _⟩⟩⟩⟩⟩
  · exact .throw
  · exact .throw
  · exact .throw
  · exact .throw
  · exact .throw
  · apply visitSource_follows (ih left (by simp)).1 (hargs _ (by simp)) hagrees
    intro p s₁ hagrees₁
    apply visitSource_follows (ih right (by simp)).1 (hargs _ (by simp)) hagrees₁
    intro q s₂ hagrees₂
    -- the keys are walked one after the other, so the right one meets the entry of the left one
    apply ((ih leftKey (by simp)).2.1 (hargs _ (by simp)) hagrees₂).bind
    rintro ⟨x, a⟩ _ s₃ ⟨rfl, -⟩ hk₃
    have hagrees₃ := hagrees₂.keeps hk₃
    apply ((ih rightKey (by simp)).2.1 (hargs _ (by simp)) hagrees₃).bind
    rintro ⟨y, b⟩ _ s₄ ⟨rfl, -⟩ hk₄
    apply ((ih result (by simp)).2.2 (hargs _ (by simp)) (hagrees₃.keeps hk₄)).bind
    rintro c _ s₅ rfl -
    exact follows_projectOver _ _ _ _
  · exact .throw

theorem visit_toList_follows (ih : PartsFollow catalog style args) :
    VisitFollows catalog style (.call .toList receiver args) := by
  intro ids env s hclosed hagrees
  have hargs : ∀ c ∈ args, c.isClosed ids := fun c hc => Expr.isClosed_arg hclosed hc
  unfold visit Lexical.visit
  rcases args with _ | ⟨source, _ | _⟩
  · exact .throw
  · apply visitSource_follows (ih source (by simp)).1 (hargs _ (by simp)) hagrees
    intro p s₁ _
    exact .pure rfl
  · exact .throw

theorem visit_charAt_follows (ih : PartsFollow catalog style (receiver.toList ++ args)) :
    VisitFollows catalog style (.call .charAt receiver args) := by
  intro ids env s hclosed hagrees
  cases receiver with
  | none => exact .throw
  | some string =>
      have hstring := (ih string (by simp)).1
        (Expr.isClosed_child hclosed (by simp) (by simp [Expr.children])) hagrees
      unfold visit Lexical.visit
      rcases args with _ | ⟨index, _ | _⟩
      · apply hstring.bind
        rintro a _ s₁ rfl -
        exact .throw
      · apply hstring.bind
        rintro a _ s₁ rfl hk
        apply ((ih index (by simp)).1 (Expr.isClosed_arg hclosed (by simp)) (hagrees.keeps hk)).bind
        rintro b _ s₂ rfl -
        exact .lift _
      · apply hstring.bind
        rintro a _ s₁ rfl -
        exact .throw

theorem visitExistence_follows {method : Method} {function : Function} {entity : String}
    (ih : PartsFollow catalog style args) (hclosed : ∀ c ∈ args, c.isClosed ids)
    (hagrees : Agrees ids env s) :
    Follows ids Eq s (visitExistence catalog style method function entity args)
      (Lexical.visitExistence catalog style env method function entity args) := by
  unfold visitExistence Lexical.visitExistence
  rcases args with _ | ⟨predicate, _ | _⟩
  · exact .throw
  · apply ((ih predicate (by simp)).2.1 (hclosed _ (by simp)) hagrees).bind
    rintro ⟨p, b⟩ _ s₁ ⟨rfl, hid⟩ -
    apply Follows.withoutBound hid
    exact .lift _
  · exact .throw

theorem visit_existence_follows {method : Method} {function : Function}
    (hm : IsExistence method function) (ih : PartsFollow catalog style args) :
    VisitFollows catalog style (.call method receiver args) := by
  intro ids env s hclosed hagrees
  have hargs : ∀ c ∈ args, c.isClosed ids := fun c hc => Expr.isClosed_arg hclosed hc
  have hentity : Follows ids Eq s
      (do visitExistence catalog style method function (← existenceEntity function receiver) args)
      (do
        let entity ← existenceEntity function receiver
        Lexical.visitExistence catalog style env method function entity args) := by
    apply (Follows.lift (existenceEntity function receiver)).bind
    rintro entity _ s₁ rfl hk
    exact visitExistence_follows ih hargs (hagrees.keeps hk)
  cases hm <;> (rw [visit_eq, Lexical.visit_eq]; exact hentity)

end Calls

theorem visit_follows (catalog : Catalog) (style : IdentifierCase) (e : Expr) :
    VisitFollows catalog style e ∧ LambdaFollows catalog style e ∧ ResultFollows catalog style e := by
  induction e using Expr.children_induction with
  | step e ih =>
      have hvisit : ∀ c ∈ e.children, VisitFollows catalog style c := fun c hc => (ih c hc).1
      refine ⟨?_, visitLambda_follows hvisit, visitResult_follows hvisit⟩
      intro ids env s hclosed hagrees
      cases e with
      | constant | captured => exact .pure rfl
      | lambda | outerRow => exact .throw
      | parameter p =>
          obtain ⟨x, henv, hs⟩ := hagrees p.id (Expr.isClosed_parameter.mp hclosed)
          have hresolve : (visit catalog style (.parameter p)).run s = .ok (x, s) := by
            show Except.ok ((s.bound.lookup p.id).getD (.parameter p), s) = _
            rw [hs, Option.getD_some]
          have hlexical : (Lexical.visit catalog style env (.parameter p)).run s.labels =
              .ok (x, s.labels) := by
            show Except.ok ((env.lookup p.id).getD (.parameter p), s.labels) = _
            rw [henv, Option.getD_some]
          exact .ok hresolve hlexical rfl fun _ _ => rfl
      | collection entity =>
          unfold visit Lexical.visit
          exact follows_bindCollection catalog entity
      | member target name =>
          unfold visit Lexical.visit
          apply (hvisit target (by simp [Expr.children])
            (Expr.isClosed_child hclosed (by simp) (by simp [Expr.children])) hagrees).bind
          rintro r _ s₁ rfl -
          exact .lift _
      | unary op e =>
          unfold visit Lexical.visit
          apply (hvisit e (by simp [Expr.children])
            (Expr.isClosed_child hclosed (by simp) (by simp [Expr.children])) hagrees).bind
          rintro r _ s₁ rfl -
          exact .pure rfl
      | binary op a b =>
          unfold visit Lexical.visit
          apply (hvisit a (by simp [Expr.children])
            (Expr.isClosed_child hclosed (by simp) (by simp [Expr.children])) hagrees).bind
          rintro x _ s₁ rfl hk
          apply (hvisit b (by simp [Expr.children])
            (Expr.isClosed_child hclosed (by simp) (by simp [Expr.children])) (hagrees.keeps hk)).bind
          rintro y _ s₂ rfl -
          exact .pure rfl
      | construct t ms =>
          unfold visit Lexical.visit
          apply (visitMembers_follows (fun m hm => hvisit m.2 (List.mem_map_of_mem hm))
            (fun m hm => Expr.isClosed_child hclosed (by simp) (List.mem_map_of_mem hm)) hagrees).bind
          rintro rs _ s₁ rfl -
          exact .pure rfl
      | call method receiver args =>
          have hargs : PartsFollow catalog style args := fun c hc => ih c (List.mem_append_right _ hc)
          cases method with
          | select => exact visit_select_follows hargs hclosed hagrees
          | filter => exact visit_filter_follows hargs hclosed hagrees
          | join => exact visit_join_follows hargs hclosed hagrees
          | toList => exact visit_toList_follows hargs hclosed hagrees
          | charAt => exact visit_charAt_follows ih hclosed hagrees
          | existence => exact visit_existence_follows .existence hargs hclosed hagrees
          | absence => exact visit_existence_follows .absence hargs hclosed hagrees
          | named => exact .throw
      | _ => cases Expr.isComposed_of_isClosed hclosed

/-- Parameters are resolved lexically: on a closed query the binder gives the projection, or the
error, of the walk that passes an environment down. -/
theorem bind_eq_lexical (hclosed : e.isClosed []) :
    bind catalog style e = Lexical.bind catalog style e := by
  have hagrees : Agrees [] [] {} := fun _ hid => nomatch hid
  unfold bind Lexical.bind
  rw [StateT.run'_eq, StateT.run'_eq]
  cases (visit_follows catalog style e).1 hclosed hagrees with
  | error hx hy =>
      have hy : (Lexical.visit catalog style [] e).run 0 = _ := hy
      rw [hx, hy]
      rfl
  | ok hx hy hr =>
      have hy : (Lexical.visit catalog style [] e).run 0 = _ := hy
      rw [hx, hy, hr]
      rfl

/-- One number serves the filter and the selector here, and an existence test stands between. -/
theorem bind_eq_lexical_of_ownedItems :
    ownedItems.isClosed [] ∧
      bind ownership .preserve ownedItems = Lexical.bind ownership .preserve ownedItems :=
  ⟨by decide, bind_eq_lexical (by decide)⟩

end Quarry.Binding
