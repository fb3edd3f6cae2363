import Quarry.Proofs.Walk
/-!
Binding as a derivation over a lexical environment. The binder keeps one table of parameters for the
whole walk; for a closed expression, whose lambdas declare no number twice along a path, the table
always holds what the enclosing lambdas bound, and so a walk that succeeds is a derivation.
-/
namespace Quarry

namespace Expr

/-- The forms that a caller composes. -/
def isComposed (e : Expr) : Bool :=
  match e with
  | .outerRow _ => false
  | e => !e.isBound

theorem isBound_of_isComposed {e : Expr} (h : e.isComposed) : e.isBound = false := by
  cases e <;> first | rfl | cases h

/-- Only composed forms occur, every parameter is declared by an enclosing lambda or is one of
`ids`, and no lambda declares a number again. -/
def isClosed : Expr → List Nat → Bool :=
  fold fun e parts ids =>
    match e with
    | .parameter p => decide (p.id ∈ ids)
    | .lambda params _ =>
      params.all (fun p => decide (p.id ∉ ids)) && parts.all (· (params.map (·.id) ++ ids))
    | e => e.isComposed && parts.all (· ids)

theorem isClosed_parameter {p : Parameter} {ids : List Nat} :
    (parameter p).isClosed ids ↔ p.id ∈ ids := by
  simp [isClosed, fold]

theorem isClosed_lambda {params : List Parameter} {body : Expr} {ids : List Nat} :
    (lambda params body).isClosed ids ↔
      (∀ p ∈ params, p.id ∉ ids) ∧ body.isClosed (params.map (·.id) ++ ids) := by
  rw [isClosed, fold_eq]
  simp [children]

theorem isClosed_lambda_one {x : Parameter} {body : Expr} {ids : List Nat} :
    (lambda [x] body).isClosed ids ↔ x.id ∉ ids ∧ body.isClosed (x.id :: ids) := by
  simp [isClosed_lambda]

theorem isClosed_lambda_two {x y : Parameter} {body : Expr} {ids : List Nat} :
    (lambda [x, y] body).isClosed ids ↔
      x.id ∉ ids ∧ y.id ∉ ids ∧ body.isClosed (x.id :: y.id :: ids) := by
  simp [isClosed_lambda, and_assoc]

/-- Every child of a closed node other than a lambda is closed. -/
theorem isClosed_child {e c : Expr} {ids : List Nat} (h : e.isClosed ids)
    (hl : ∀ params body, e ≠ .lambda params body) (hc : c ∈ e.children) : c.isClosed ids := by
  rw [isClosed, fold_eq] at h
  cases e with
  | parameter => cases hc
  | lambda params body => exact absurd rfl (hl params body)
  | _ =>
      simp only [Bool.and_eq_true, List.all_map, List.all_eq_true] at h
      exact h.2 c hc

theorem isClosed_arg {method : Method} {receiver : Option Expr} {args : List Expr} {c : Expr}
    {ids : List Nat} (h : (call method receiver args).isClosed ids) (hc : c ∈ args) :
    c.isClosed ids :=
  isClosed_child h (by simp) (List.mem_append_right _ hc)

section Call

variable {method : Method} {receiver : Option Expr} {source body left right a b c : Expr}
  {x y x' y' : Parameter} {ids : List Nat}

theorem isClosed_test (h : (call method receiver [.lambda [x] body]).isClosed ids) :
    x.id ∉ ids ∧ body.isClosed (x.id :: ids) :=
  isClosed_lambda_one.mp (isClosed_arg h List.mem_cons_self)

theorem isClosed_ranging (h : (call method receiver [source, .lambda [x] body]).isClosed ids) :
    source.isClosed ids ∧ x.id ∉ ids ∧ body.isClosed (x.id :: ids) :=
  ⟨isClosed_arg h List.mem_cons_self, isClosed_lambda_one.mp (isClosed_arg h (by simp))⟩

theorem isClosed_join
    (h : (call method receiver
      [left, right, .lambda [x] a, .lambda [y] b, .lambda [x', y'] c]).isClosed ids) :
    left.isClosed ids ∧ right.isClosed ids ∧ (x.id ∉ ids ∧ a.isClosed (x.id :: ids)) ∧
      (y.id ∉ ids ∧ b.isClosed (y.id :: ids)) ∧
      x'.id ∉ ids ∧ y'.id ∉ ids ∧ c.isClosed (x'.id :: y'.id :: ids) :=
  ⟨isClosed_arg h (by simp), isClosed_arg h (by simp),
    isClosed_lambda_one.mp (isClosed_arg h (by simp)),
    isClosed_lambda_one.mp (isClosed_arg h (by simp)),
    isClosed_lambda_two.mp (isClosed_arg h (by simp))⟩

end Call

theorem isComposed_of_isClosed {e : Expr} {ids : List Nat} (h : e.isClosed ids) : e.isComposed := by
  rw [isClosed, fold_eq] at h
  cases e with
  | parameter | lambda => rfl
  | _ => exact (Bool.and_eq_true_iff.mp h).1

/-- A node that is neither a parameter nor a lambda is closed if its children are. -/
theorem isClosed_of_children {e : Expr} {ids : List Nat} (hp : ∀ p, e ≠ .parameter p)
    (hl : ∀ params body, e ≠ .lambda params body) (he : e.isComposed)
    (h : ∀ c ∈ e.children, c.isClosed ids) : e.isClosed ids := by
  rw [isClosed, fold_eq]
  cases e with
  | parameter p => exact absurd rfl (hp p)
  | lambda params body => exact absurd rfl (hl params body)
  | _ =>
      simp only [Bool.and_eq_true, List.all_map, List.all_eq_true]
      exact ⟨he, h⟩

theorem isClosed_tail {t : DataType} {m : String × Expr} {ms : List (String × Expr)}
    {ids : List Nat} (h : (construct t (m :: ms)).isClosed ids) : (construct t ms).isClosed ids := by
  refine isClosed_of_children (by simp) (by simp) rfl fun c hc => ?_
  exact isClosed_child h (by simp) (List.mem_cons_of_mem _ hc)

/-- Only which numbers are in sight matters. -/
theorem isClosed_of_mem_iff {e : Expr} {ids ids' : List Nat} (h : e.isClosed ids)
    (hids : ∀ id, id ∈ ids ↔ id ∈ ids') : e.isClosed ids' := by
  induction e using children_induction generalizing ids ids' with
  | step e ih =>
      cases e with
      | parameter p => exact isClosed_parameter.mpr ((hids p.id).mp (isClosed_parameter.mp h))
      | lambda params body =>
          obtain ⟨hparams, hbody⟩ := isClosed_lambda.mp h
          refine isClosed_lambda.mpr ⟨fun p hp hmem => hparams p hp ((hids p.id).mpr hmem), ?_⟩
          exact ih body List.mem_cons_self hbody fun id => by simp [hids]
      | _ =>
          refine isClosed_of_children (by simp) (by simp) (isComposed_of_isClosed h) fun c hc => ?_
          exact ih c hc (isClosed_child h (by simp) hc) hids

theorem nodes_isComposed {e : Expr} {ids : List Nat} (h : e.isClosed ids) :
    ∀ x ∈ e.nodes, x.isComposed := by
  induction e using children_induction generalizing ids with
  | step e ih =>
      refine forall_mem_nodes.mpr ⟨isComposed_of_isClosed h, fun c hc => ?_⟩
      cases e with
      | lambda params body =>
          obtain rfl := List.mem_singleton.mp hc
          exact ih _ hc (isClosed_lambda.mp h).2
      | _ => exact ih c hc (isClosed_child h (by simp) hc)

end Expr

namespace Binding

/-- `Binds env n e r m`: where the parameters stand for `env` and `n` labels are given out, `e` is
bound to `r`, and then `m` labels are given out. -/
inductive Binds (catalog : Catalog) (style : IdentifierCase) :
    List (Nat × Expr) → Nat → Expr → Expr → Nat → Prop
  | constant {env n v t} : Binds catalog style env n (.constant v t) (.constant v t) n
  | captured {env n name v} : Binds catalog style env n (.captured name v) (.literal v) n
  | parameter {env n p r} (h : env.lookup p.id = some r) :
      Binds catalog style env n (.parameter p) r n
  | collection {env n entity t} (h : catalog.table entity = .ok t) :
      Binds catalog style env n (.collection entity) (.projection (tableProjection t n)) (n + 2)
  | member {env n target name r x m} (ht : Binds catalog style env n target r m)
      (h : memberOf r name = .ok x) : Binds catalog style env n (.member target name) x m
  | unary {env n op e r m} (h : Binds catalog style env n e r m) :
      Binds catalog style env n (.unary op e) (.unary op r) m
  | binary {env n op a b x y k m} (ha : Binds catalog style env n a x k)
      (hb : Binds catalog style env k b y m) :
      Binds catalog style env n (.binary op a b) (.binary op x y) m
  | constructNil {env n t} : Binds catalog style env n (.construct t []) (.construct t []) n
  | constructCons {env n t name e ms r rs k m} (he : Binds catalog style env n e r k)
      (hms : Binds catalog style env k (.construct t ms) (.construct t rs) m) :
      Binds catalog style env n (.construct t ((name, e) :: ms)) (.construct t ((name, r) :: rs)) m
  | charAt {env n string index s i r k m} (hs : Binds catalog style env n string s k)
      (hi : Binds catalog style env k index i m) (h : substring s i = .ok r) :
      Binds catalog style env n (.call .charAt (some string) [index]) r m
  | select {env n receiver source x body p b k m}
      (hs : Binds catalog style env n source (.projection p) k)
      (hb : Binds catalog style ((x.id, p.projector) :: env) k body b m) :
      Binds catalog style env n (.call .select receiver [source, .lambda [x] body])
        (.projection (projection b m [p.source.label] (.select p.source) none)) (m + 1)
  | filter {env n receiver source x body p b k m}
      (hs : Binds catalog style env n source (.projection p) k)
      (hb : Binds catalog style ((x.id, p.projector) :: env) k body b m) :
      Binds catalog style env n (.call .filter receiver [source, .lambda [x] body])
        (.projection (projection p.projector m [p.source.label] (.select p.source) (some b)))
        (m + 1)
  | join {env n receiver left right x leftKey y rightKey x' y' result p q a b c n₁ n₂ n₃ n₄ m}
      (hl : Binds catalog style env n left (.projection p) n₁)
      (hr : Binds catalog style env n₁ right (.projection q) n₂)
      (ha : Binds catalog style ((x.id, p.projector) :: env) n₂ leftKey a n₃)
      (hb : Binds catalog style ((y.id, q.projector) :: env) n₃ rightKey b n₄)
      (hc : Binds catalog style ((y'.id, q.projector) :: (x'.id, p.projector) :: env) n₄ result c m) :
      Binds catalog style env n
        (.call .join receiver
          [left, right, .lambda [x] leftKey, .lambda [y] rightKey, .lambda [x', y'] result])
        (.projection (projection c m [p.source.label, q.source.label]
          (.join .inner (.select p.source) (.select q.source)
            (some (.binary (.comparison .eq) a b))) none)) (m + 1)
  | toList {env n receiver source p m} (h : Binds catalog style env n source (.projection p) m) :
      Binds catalog style env n (.call .toList receiver [source])
        (.projection { p with shape := .list }) m
  | existence {env n method function entity t x body b m} (hm : IsExistence method function)
      (ht : catalog.table entity = .ok t)
      (hb : Binds catalog style ((x.id, .construct t.recordType (tableColumns t "")) :: env) n
        body b m) :
      Binds catalog style env n (.call method (some (.collection entity)) [.lambda [x] body])
        (.subquery ⟨method, function, none, [b], .boolean⟩ ("SELECT * FROM " ++ style.normalize t.name)) m

theorem Binds.le {catalog : Catalog} {style : IdentifierCase} {env : List (Nat × Expr)} {n m : Nat}
    {e r : Expr} (h : Binds catalog style env n e r m) : n ≤ m := by
  induction h with
  | constant | captured | parameter | constructNil => exact le_rfl
  | collection => omega
  | member _ _ ih | unary _ ih | toList _ ih | existence _ _ _ ih => exact ih
  | binary _ _ iha ihb | constructCons _ _ iha ihb | charAt _ _ _ iha ihb => exact iha.trans ihb
  | select _ _ ihs ihb | filter _ _ ihs ihb => omega
  | join _ _ _ _ _ ihl ihr iha ihb ihc => omega

/-! The table of parameters -/

/-- The table has an entry for each of the numbers, and it is the one of the environment. -/
def Agrees (ids : List Nat) (env : List (Nat × Expr)) (s : Scope) : Prop :=
  ∀ id ∈ ids, ∃ r, env.lookup id = some r ∧ s.bound.lookup id = some r

/-- The entries for the numbers are the same. -/
def Keeps (ids : List Nat) (s s' : Scope) : Prop :=
  ∀ id ∈ ids, s'.bound.lookup id = s.bound.lookup id

variable {ids : List Nat} {env : List (Nat × Expr)} {s s' s'' : Scope}

theorem Agrees.keeps (h : Agrees ids env s) (hk : Keeps ids s s') : Agrees ids env s' := by
  intro id hid
  obtain ⟨r, henv, hs⟩ := h id hid
  exact ⟨r, henv, (hk id hid).trans hs⟩

theorem Agrees.subset {ids' : List Nat} (h : Agrees ids env s) (hsub : ids' ⊆ ids) :
    Agrees ids' env s := fun id hid => h id (hsub hid)

theorem Keeps.subset {ids' : List Nat} (h : Keeps ids s s') (hsub : ids' ⊆ ids) : Keeps ids' s s' :=
  fun id hid => h id (hsub hid)

theorem Keeps.trans (h : Keeps ids s s') (h' : Keeps ids s' s'') : Keeps ids s s'' :=
  fun id hid => (h' id hid).trans (h id hid)

theorem lookup_withBound {l : List (Nat × Expr)} {id k : Nat} {e : Expr} :
    ((id, e) :: l.filter (·.1 ≠ id)).lookup k = if k = id then some e else l.lookup k := by
  rw [List.lookup_cons]
  by_cases h : k = id
  · simp [h]
  · have hk : (k == id) = false := by simpa using h
    simp only [hk, if_neg h, lookup_filter_ne h]

theorem Agrees.withBound {id : Nat} {e : Expr} (h : Agrees ids env s) :
    Agrees (id :: ids) ((id, e) :: env) (s.withBound id e) := by
  intro k hk
  rw [Scope.withBound, lookup_withBound]
  by_cases heq : k = id
  · exact ⟨e, by simp [heq], by simp [heq]⟩
  · obtain ⟨r, henv, hs⟩ := h k ((List.mem_cons.mp hk).resolve_left heq)
    have hne : (k == id) = false := by simpa using heq
    exact ⟨r, by rw [List.lookup_cons, hne, henv], by rw [if_neg heq, hs]⟩

theorem Keeps.withBound {id : Nat} {e : Expr} (hid : id ∉ ids)
    (h : Keeps (id :: ids) (s.withBound id e) s') : Keeps ids s s' := by
  intro k hk
  have hne : k ≠ id := fun heq => hid (heq ▸ hk)
  rw [h k (List.mem_cons_of_mem _ hk), Scope.withBound, lookup_withBound, if_neg hne]

theorem Keeps.withBound_two {x y : Nat} {a b : Expr} (hx : x ∉ ids) (hy : y ∉ ids)
    (h : Keeps (x :: y :: ids) ((s.withBound x a).withBound y b) s') : Keeps ids s s' := by
  intro k hk
  have hne : k ≠ x := fun heq => hx (heq ▸ hk)
  have hne' : k ≠ y := fun heq => hy (heq ▸ hk)
  rw [h k (by simp [hk])]
  simp only [Scope.withBound, lookup_withBound, if_neg hne, if_neg hne']

theorem Keeps.without {id : Nat} (hid : id ∉ ids) (h : Keeps ids s s') :
    Keeps ids s (s'.without id) := by
  intro k hk
  have hne : k ≠ id := fun heq => hid (heq ▸ hk)
  rw [Scope.without, lookup_filter_ne hne, h k hk]

/-! The walk -/

variable {catalog : Catalog} {style : IdentifierCase} {e r : Expr}

/-- The walk of a closed expression is a derivation, and keeps the table for what encloses it. -/
theorem Walks.binds (h : Walks catalog style s e r s') (hclosed : e.isClosed ids)
    (hagrees : Agrees ids env s) :
    Binds catalog style env s.labels e r s'.labels ∧ Keeps ids s s' := by
  induction h generalizing ids env with
  | constant => exact ⟨.constant, fun _ _ => rfl⟩
  | captured => exact ⟨.captured, fun _ _ => rfl⟩
  | @parameter s p =>
      obtain ⟨x, henv, hs⟩ := hagrees p.id (Expr.isClosed_parameter.mp hclosed)
      rw [hs]
      exact ⟨.parameter henv, fun _ _ => rfl⟩
  | @bound s e h =>
      cases h.symm.trans (Expr.isBound_of_isComposed (Expr.isComposed_of_isClosed hclosed))
  | collection h => exact ⟨.collection h, fun _ _ => rfl⟩
  | member _ h ih =>
      obtain ⟨ht, hkeeps⟩ := ih (Expr.isClosed_child hclosed (by simp) (by simp [Expr.children])) hagrees
      exact ⟨.member ht h, hkeeps⟩
  | unary _ ih =>
      obtain ⟨he, hkeeps⟩ := ih (Expr.isClosed_child hclosed (by simp) (by simp [Expr.children])) hagrees
      exact ⟨.unary he, hkeeps⟩
  | binary _ _ iha ihb =>
      obtain ⟨ha, hkeeps⟩ := iha
        (Expr.isClosed_child hclosed (by simp) (by simp [Expr.children])) hagrees
      obtain ⟨hb, hkeeps'⟩ := ihb
        (Expr.isClosed_child hclosed (by simp) (by simp [Expr.children])) (hagrees.keeps hkeeps)
      exact ⟨.binary ha hb, hkeeps.trans hkeeps'⟩
  | constructNil => exact ⟨.constructNil, fun _ _ => rfl⟩
  | constructCons _ _ ihe ihms =>
      obtain ⟨he, hkeeps⟩ := ihe
        (Expr.isClosed_child hclosed (by simp) (by simp [Expr.children])) hagrees
      obtain ⟨hms, hkeeps'⟩ := ihms (Expr.isClosed_tail hclosed) (hagrees.keeps hkeeps)
      exact ⟨.constructCons he hms, hkeeps.trans hkeeps'⟩
  | charAt _ _ h ihs ihi =>
      obtain ⟨hs, hkeeps⟩ := ihs
        (Expr.isClosed_child hclosed (by simp) (by simp [Expr.children])) hagrees
      obtain ⟨hi, hkeeps'⟩ := ihi (Expr.isClosed_arg hclosed (by simp)) (hagrees.keeps hkeeps)
      exact ⟨.charAt hs hi h, hkeeps.trans hkeeps'⟩
  | select _ _ ihs ihb =>
      obtain ⟨hsource, hid, hbody⟩ := Expr.isClosed_ranging hclosed
      obtain ⟨hs, hkeeps⟩ := ihs hsource hagrees
      obtain ⟨hb, hkeeps'⟩ := ihb hbody (hagrees.keeps hkeeps).withBound
      exact ⟨.select hs hb, hkeeps.trans (hkeeps'.withBound hid)⟩
  | filter _ _ ihs ihb =>
      obtain ⟨hsource, hid, hbody⟩ := Expr.isClosed_ranging hclosed
      obtain ⟨hs, hkeeps⟩ := ihs hsource hagrees
      obtain ⟨hb, hkeeps'⟩ := ihb hbody (hagrees.keeps hkeeps).withBound
      exact ⟨.filter hs hb, hkeeps.trans (hkeeps'.withBound hid)⟩
  | join _ _ _ _ _ ihl ihr iha ihb ihc =>
      obtain ⟨hleft, hright, hkey, hkey', hx', hy', hresult⟩ := Expr.isClosed_join hclosed
      obtain ⟨hl, hkeeps₁⟩ := ihl hleft hagrees
      have hagrees₁ := hagrees.keeps hkeeps₁
      obtain ⟨hr, hkeeps₂⟩ := ihr hright hagrees₁
      have hagrees₂ := hagrees₁.keeps hkeeps₂
      obtain ⟨ha, hkeeps₃⟩ := iha hkey.2 hagrees₂.withBound
      have hagrees₃ := hagrees₂.keeps (hkeeps₃.withBound hkey.1)
      obtain ⟨hb, hkeeps₄⟩ := ihb hkey'.2 hagrees₃.withBound
      have hagrees₄ := hagrees₃.keeps (hkeeps₄.withBound hkey'.1)
      obtain ⟨hc, hkeeps₅⟩ := ihc hresult
        (hagrees₄.withBound.withBound.subset (List.Perm.swap _ _ _).subset)
      exact ⟨.join hl hr ha hb hc, hkeeps₁.trans (hkeeps₂.trans ((hkeeps₃.withBound hkey.1).trans
        ((hkeeps₄.withBound hkey'.1).trans (hkeeps₅.withBound_two hx' hy'))))⟩
  | toList _ ih =>
      obtain ⟨hs, hkeeps⟩ := ih (Expr.isClosed_arg hclosed (by simp)) hagrees
      exact ⟨.toList hs, hkeeps⟩
  | existence hm ht _ ih =>
      obtain ⟨hid, hbody⟩ := Expr.isClosed_test hclosed
      obtain ⟨hb, hkeeps⟩ := ih hbody hagrees.withBound
      exact ⟨.existence hm ht hb, (hkeeps.withBound hid).without hid⟩

/-- Binding a closed query derives its projection from the empty environment. -/
theorem binds_of_bind {P : Projection Expr} (hclosed : e.isClosed [])
    (h : bind catalog style e = .ok P) : ∃ m, Binds catalog style [] 0 e (.projection P) m := by
  obtain ⟨s, hwalks⟩ := walks_of_bind h
  have hagrees : Agrees [] [] {} := fun _ hid => nomatch hid
  exact ⟨s.labels, (hwalks.binds hclosed hagrees).1⟩

end Binding

end Quarry
