import Quarry.Proofs.Labels
import Quarry.Proofs.Resolution
/-!
No label is given out twice. A lambda parameter stands for a projector, which is copied to wherever
the parameter occurs; as long as no source nests a query in one of its lambdas, no projector that is
copied holds a table or a select, and so each of them stays where it was bound.
-/
namespace Quarry

namespace Expr

/-! Queries in lambdas -/

/-- Whether a query occurs, other than as what an existence test ranges over. -/
def holdsQuery : Expr → Bool :=
  fold fun e parts =>
    e.isQuery || match e with
      | .call .existence receiver _ | .call .absence receiver _ =>
        (parts.drop receiver.toList.length).any id
      | _ => parts.any id

/-- Whether a query occurs in the body of a lambda. -/
def nestsQuery (e : Expr) : Bool :=
  e.nodes.any fun
    | .lambda _ body => body.holdsQuery
    | _ => false

/-- The queries that a call ranges over. -/
def sourceArgs : Expr → List Expr
  | .call .select _ args | .call .filter _ args => args.take 1
  | .call .join _ args => args.take 2
  | _ => []

/-- Whether no call ranges over a query that nests another in a lambda. -/
def sourcesFlat (e : Expr) : Bool := e.nodes.all fun x => x.sourceArgs.all fun c => !c.nestsQuery

variable {e c r : Expr}

/-- A query is looked for in all children, but not in what an existence test ranges over. -/
theorem holdsQuery_eq (e : Expr) :
    e.holdsQuery = (e.isQuery || match e with
      | .call .existence _ args | .call .absence _ args => args.any holdsQuery
      | _ => e.children.any holdsQuery) := by
  have hargs (receiver : Option Expr) (args : List Expr) :
      (((receiver.toList ++ args).map holdsQuery).drop receiver.toList.length).any id =
        args.any holdsQuery := by
    rw [← List.map_drop, List.drop_left, List.any_map]
    rfl
  have hchildren : (e.children.map holdsQuery).any id = e.children.any holdsQuery := by
    rw [List.any_map]
    rfl
  rw [holdsQuery, fold_eq]
  congr 1
  split
  next => exact hargs _ _
  next => exact hargs _ _
  next => exact hchildren

theorem holdsQuery_of_isQuery (h : e.isQuery) : e.holdsQuery := by
  rw [holdsQuery_eq, h, Bool.true_or]

theorem holdsQuery_member (target : Expr) (name : String) :
    (member target name).holdsQuery = target.holdsQuery :=
  (holdsQuery_eq _).trans (Bool.or_false _)

theorem holdsQuery_unary (op : UnaryOperator) (e : Expr) :
    (unary op e).holdsQuery = e.holdsQuery :=
  (holdsQuery_eq _).trans (Bool.or_false _)

theorem holdsQuery_binary (op : BinaryOperator) (a b : Expr) :
    (binary op a b).holdsQuery = (a.holdsQuery || b.holdsQuery) :=
  (holdsQuery_eq _).trans (congrArg (a.holdsQuery || ·) (Bool.or_false _))

theorem holdsQuery_construct_cons (t : DataType) (name : String) (e : Expr)
    (ms : List (String × Expr)) :
    (construct t ((name, e) :: ms)).holdsQuery = (e.holdsQuery || (construct t ms).holdsQuery) := by
  rw [holdsQuery_eq, holdsQuery_eq (construct t ms)]
  rfl

theorem holdsQuery_charAt (string index : Expr) :
    (call .charAt (some string) [index]).holdsQuery = (string.holdsQuery || index.holdsQuery) :=
  (holdsQuery_eq _).trans (congrArg (string.holdsQuery || ·) (Bool.or_false _))

theorem holdsQuery_existence {method : Method} {function : Function} {entity : String}
    {params : List Parameter} {body : Expr} (hm : Binding.IsExistence method function) :
    (call method (some (.collection entity)) [.lambda params body]).holdsQuery =
      body.holdsQuery := by
  have hlambda : (lambda params body).holdsQuery = body.holdsQuery :=
    (holdsQuery_eq _).trans (Bool.or_false _)
  cases hm <;> exact (holdsQuery_eq _).trans ((Bool.or_false _).trans hlambda)

theorem nestsQuery_eq_false :
    e.nestsQuery = false ↔ ∀ params body, .lambda params body ∈ e.nodes → body.holdsQuery = false := by
  simp only [nestsQuery, List.any_eq_false]
  constructor
  · intro h params body hmem
    simpa using h _ hmem
  · intro h x hx
    cases x with
    | lambda params body => simpa using h params body hx
    | _ => simp

theorem nestsQuery_child (h : e.nestsQuery = false) (hc : c ∈ e.children) : c.nestsQuery = false :=
  nestsQuery_eq_false.mpr fun params body hmem =>
    nestsQuery_eq_false.mp h params body (mem_nodes_of_child hc hmem)

theorem nestsQuery_tail {t : DataType} {m : String × Expr} {ms : List (String × Expr)}
    (h : (construct t (m :: ms)).nestsQuery = false) : (construct t ms).nestsQuery = false := by
  refine nestsQuery_eq_false.mpr fun params body hmem => ?_
  rcases mem_nodes_tail hmem with heq | hmem
  · cases heq
  · exact nestsQuery_eq_false.mp h params body hmem

/-- The bodies of the lambdas that are given to a call hold no query, if the call nests none. -/
theorem holdsQuery_lambda {method : Method} {receiver : Option Expr} {args : List Expr}
    {params : List Parameter} {body : Expr} (h : (call method receiver args).nestsQuery = false)
    (hc : .lambda params body ∈ args) : body.holdsQuery = false :=
  nestsQuery_eq_false.mp h params body
    (mem_nodes_of_child (List.mem_append_right _ hc) (self_mem_nodes _))

/-- Only composed forms occur, and no call ranges over a query that nests another. -/
def Flat (e : Expr) : Prop :=
  ∀ x ∈ e.nodes, x.isComposed ∧ ∀ c ∈ x.sourceArgs, c.nestsQuery = false

theorem flat_iff : e.Flat ↔ (∀ x ∈ e.nodes, x.isComposed) ∧ e.sourcesFlat := by
  simp [Flat, sourcesFlat, forall_and]

theorem Flat.child (h : e.Flat) (hc : c ∈ e.children) : c.Flat :=
  fun x hx => h x (mem_nodes_of_child hc hx)

theorem Flat.arg {method : Method} {receiver : Option Expr} {args : List Expr}
    (h : (call method receiver args).Flat) (hc : c ∈ args) : c.Flat :=
  h.child (List.mem_append_right _ hc)

theorem Flat.lambda {method : Method} {receiver : Option Expr} {args : List Expr}
    {params : List Parameter} {body : Expr} (h : (call method receiver args).Flat)
    (hc : .lambda params body ∈ args) : body.Flat :=
  (h.arg hc).child List.mem_cons_self

theorem Flat.tail {t : DataType} {m : String × Expr} {ms : List (String × Expr)}
    (h : (construct t (m :: ms)).Flat) : (construct t ms).Flat := by
  intro x hx
  rcases mem_nodes_tail hx with rfl | hx
  · exact ⟨rfl, List.forall_mem_nil _⟩
  · exact h x hx

theorem Flat.source (h : e.Flat) (hc : c ∈ e.sourceArgs) : c.nestsQuery = false :=
  (h e (self_mem_nodes e)).2 c hc

/-! Projectors without tables and selects -/

/-- If it is a projection, its projector holds neither a table nor a select. -/
def HasPlainProjector (e : Expr) : Prop := ∀ p, e = .projection p → p.projector.labels = []

abbrev PlainProjectors (e : Expr) : Prop := e.Everywhere true HasPlainProjector

theorem hasPlainProjector (h : Binding.isProjection e = false) : e.HasPlainProjector := by
  rintro p rfl
  cases h

theorem plainProjectors_of_labels (h : r.labels = []) : r.PlainProjectors := by
  rintro _ hp p rfl
  have hlabel : p.source.label ∈ r.labels :=
    (labels_sublist (reached_subset hp)).subset (label_mem_labels rfl)
  rw [h] at hlabel
  cases hlabel

theorem plainProjectors_of_children (hr : Binding.isProjection r = false)
    (h : ∀ c ∈ r.children, c.PlainProjectors) : r.PlainProjectors :=
  .of_children (hasPlainProjector hr) h

theorem PlainProjectors.select {p : Projection Expr} (h : (projection p).PlainProjectors) :
    (Expr.select p.source).PlainProjectors :=
  Everywhere.source h fun _ => hasPlainProjector rfl

theorem PlainProjectors.reshape {p : Projection Expr} (h : (projection p).PlainProjectors)
    (shape : Shape) : (projection { p with shape }).PlainProjectors := by
  refine .of_children ?_ fun c hc => Everywhere.child h rfl hc
  rintro _ ⟨⟩
  exact Everywhere.self h p rfl

end Expr

namespace Binding

variable {catalog : Catalog} {style : IdentifierCase} {n k m : Nat} {ls ls' : List String}

/-! Ranges of labels -/

/-- The labels are given out between the counts `n` and `m`, each once. -/
structure Span (n m : Nat) (ls : List String) : Prop where
  le : n ≤ m
  nodup : ls.Nodup
  given : ∀ l ∈ ls, ∃ i, n ≤ i ∧ i < m ∧ l = label i

namespace Span

theorem nil (h : n ≤ m) : Span n m [] := ⟨h, List.nodup_nil, List.forall_mem_nil _⟩

theorem append (h : Span n k ls) (h' : Span k m ls') : Span n m (ls ++ ls') := by
  have hle := h.le
  have hle' := h'.le
  constructor
  · omega
  · refine List.nodup_append.mpr ⟨h.nodup, h'.nodup, ?_⟩
    intro l hl l' hl' heq
    obtain ⟨i, -, hi, rfl⟩ := h.given l hl
    obtain ⟨j, hj, -, rfl⟩ := h'.given l' hl'
    have := label_injective heq
    omega
  · intro l hl
    rcases List.mem_append.mp hl with hl | hl
    · obtain ⟨i, hi, hlt, rfl⟩ := h.given l hl
      exact ⟨i, hi, by omega, rfl⟩
    · obtain ⟨i, hi, hlt, rfl⟩ := h'.given l hl
      exact ⟨i, by omega, hlt, rfl⟩

theorem sublist (h : Span n m ls) (hsub : ls'.Sublist ls) : Span n m ls' :=
  ⟨h.le, h.nodup.sublist hsub, fun l hl => h.given l (hsub.subset hl)⟩

theorem perm (h : Span n m ls) (hperm : ls'.Perm ls) : Span n m ls' :=
  ⟨h.le, hperm.nodup_iff.mpr h.nodup, fun l hl => h.given l (hperm.subset hl)⟩

theorem cons (h : Span n m ls) : Span n (m + 1) (label m :: ls) := by
  have hle := h.le
  have hlast : Span m (m + 1) [label m] := by
    refine ⟨by omega, List.nodup_singleton _, fun l hl => ?_⟩
    exact ⟨m, le_rfl, by omega, List.mem_singleton.mp hl⟩
  exact (h.append hlast).perm (List.perm_append_singleton _ _).symm

end Span

/-! The walk -/

/-- Nothing that a parameter stands for holds a table or a select. -/
abbrev Scope.IsPlain (s : Scope) : Prop := s.Has (fun _ _ e => e.labels = []) fun _ => []

/-- What the walk of `e` to `r` does with labels. -/
structure Labels (s : Scope) (e r : Expr) (s' : Scope) : Prop where
  scope : s'.IsPlain
  span : Span s.labels s'.labels r.labels
  labels : e.holdsQuery = false → r.labels = []
  projectors : e.nestsQuery = false → r.PlainProjectors

variable {s s' : Scope} {e r : Expr}

theorem labels_tableColumns (t : Table) (l : String) :
    ((tableColumns t l).map (·.2)).flatMap Expr.labels = [] := by
  refine List.flatMap_eq_nil_iff.mpr fun c hc => ?_
  obtain ⟨x, hx, rfl⟩ := List.mem_map.mp hc
  obtain ⟨i, m, -, rfl⟩ := mem_tableColumns hx
  rfl

theorem labels_tableRecord (t : Table) (type : DataType) (l : String) :
    (Expr.construct type (tableColumns t l)).labels = [] := by
  rw [Expr.labels_eq]
  exact labels_tableColumns t l

theorem labels_tableProjection (t : Table) (n : Nat) :
    (Expr.projection (tableProjection t n)).labels = [label (n + 1), label n] := by
  rw [Expr.labels_projection, Expr.labels_select]
  simp only [tableProjection, labels_tableColumns, labels_tableRecord]
  rfl

/-- The labels of a member of a record are among those of the record. -/
theorem labels_memberOf {name : String} {x : Expr} (h : memberOf e name = .ok x) :
    x.labels.Sublist e.labels := by
  rcases memberOf_mem h with hx | rfl
  · exact Expr.labels_sublist hx
  · simp [Expr.labels_eq (.member e name), Expr.label?, Expr.children]

theorem labels_joined (p q : Projection Expr) (a b : Expr) :
    (joined p q a b).labels = (Expr.select p.source).labels ++ ((Expr.select q.source).labels ++
      (a.labels ++ b.labels)) := by
  simp [joined, Expr.labels_eq (.join ..), Expr.labels_eq (.binary ..), Expr.label?, Expr.children]

theorem joined_plain {p q : Projection Expr} {a b : Expr}
    (hp : (Expr.projection p).PlainProjectors) (hq : (Expr.projection q).PlainProjectors)
    (ha : a.labels = []) (hb : b.labels = []) : (joined p q a b).PlainProjectors := by
  have hcondition : (Expr.binary (.comparison .eq) a b).labels = [] := by
    simp [Expr.labels_eq (.binary ..), Expr.label?, Expr.children, ha, hb]
  exact everywhere_joined (Expr.hasPlainProjector rfl) hp.select hq.select
    (Expr.plainProjectors_of_labels hcondition)

/-- A new select over plain parts has a plain projector. -/
theorem projection_plain {projector source : Expr} {sources : List String} {filter : Option Expr}
    (hp : projector.labels = []) (hs : source.PlainProjectors)
    (hf : ∀ f ∈ filter, f.PlainProjectors) :
    (Expr.projection (projection projector n sources source filter)).PlainProjectors := by
  have hperm := projectColumns_labels projector (label n) sources
  rw [hp] at hperm
  obtain ⟨-, hprojector⟩ := List.append_eq_nil_iff.mp hperm.eq_nil
  refine everywhere_projection ?_ (Expr.plainProjectors_of_labels hp) hs hf
    (Expr.plainProjectors_of_labels hprojector) (by simp) fun _ h => h
  rintro _ ⟨⟩
  exact hprojector

theorem tableProjection_plain (t : Table) (n : Nat) :
    (Expr.projection (tableProjection t n)).PlainProjectors := by
  refine everywhere_tableProjection ?_ (Expr.hasPlainProjector rfl) (Expr.hasPlainProjector rfl)
    fun _ _ _ _ _ _ => Expr.hasPlainProjector rfl
  rintro _ ⟨⟩
  exact labels_tableRecord t _ _

theorem substring_plain {x i : Expr} (h : substring x i = .ok r) (hx : x.PlainProjectors)
    (hi : i.PlainProjectors) : r.PlainProjectors := by
  refine substring_of_parts h hi (fun v => Expr.plainProjectors_of_labels rfl) ?_ ?_
  · intro y z hy hz
    exact Expr.plainProjectors_of_children rfl (by simp [Expr.children, hy, hz])
  · intro start one hstart hone
    refine Expr.plainProjectors_of_children rfl ?_
    simp [Expr.children, FunctionCall.children, hx, hstart, hone]

theorem Labels.of_plain (hs : s.IsPlain) (hr : r.labels = []) : Labels s e r s where
  scope := hs
  span := hr ▸ .nil le_rfl
  labels _ := hr
  projectors _ := Expr.plainProjectors_of_labels hr

theorem Labels.member {target x : Expr} {name : String} (h : Labels s target r s')
    (hx : memberOf r name = .ok x) : Labels s (.member target name) x s' where
  scope := h.scope
  span := h.span.sublist (labels_memberOf hx)
  labels hq := by
    rw [Expr.holdsQuery_member] at hq
    have hsub := labels_memberOf hx
    rw [h.labels hq] at hsub
    exact List.sublist_nil.mp hsub
  projectors hq := by
    have hplain := h.projectors (Expr.nestsQuery_child hq (by simp [Expr.children]))
    exact everywhere_memberOf hx hplain (Expr.hasPlainProjector rfl)

theorem Labels.unary {op : UnaryOperator} (h : Labels s e r s') :
    Labels s (.unary op e) (.unary op r) s' := by
  have hlabels : (Expr.unary op r).labels = r.labels := by
    simp [Expr.labels_eq (.unary op r), Expr.label?, Expr.children]
  refine ⟨h.scope, hlabels ▸ h.span, fun hq => ?_, fun hq => ?_⟩
  · rw [Expr.holdsQuery_unary] at hq
    rw [hlabels, h.labels hq]
  · have hplain := h.projectors (Expr.nestsQuery_child hq (by simp [Expr.children]))
    exact Expr.plainProjectors_of_children rfl (by simpa [Expr.children] using hplain)

/-- What is bound from two parts, one after the other. -/
theorem Labels.pair {a b x y : Expr} {s₁ : Scope} (ha : Labels s a x s₁) (hb : Labels s₁ b y s')
    (hlabels : r.labels = x.labels ++ y.labels)
    (hquery : e.holdsQuery = (a.holdsQuery || b.holdsQuery))
    (hnests : e.nestsQuery = false → a.nestsQuery = false ∧ b.nestsQuery = false)
    (hplain : x.PlainProjectors → y.PlainProjectors → r.PlainProjectors) : Labels s e r s' where
  scope := hb.scope
  span := hlabels ▸ ha.span.append hb.span
  labels hq := by
    rw [hquery, Bool.or_eq_false_iff] at hq
    rw [hlabels, ha.labels hq.1, hb.labels hq.2, List.append_nil]
  projectors hq := hplain (ha.projectors (hnests hq).1) (hb.projectors (hnests hq).2)

/-- What is bound to a new select over parts that have been bound before. -/
theorem Labels.project {b source : Expr} {sources : List String} {filter : Option Expr}
    (hs : s'.IsPlain) (hquery : e.isQuery)
    (hspan : Span s.labels s'.labels
      (source.labels ++ (filter.toList.flatMap Expr.labels ++ b.labels)))
    (hplain : e.nestsQuery = false →
      b.labels = [] ∧ source.PlainProjectors ∧ ∀ f ∈ filter, f.PlainProjectors) :
    Labels s e (.projection (projection b s'.labels sources source filter)) s'.labelled where
  scope := hs
  span := hspan.cons.perm (projection_labels b s'.labels sources source filter)
  labels hq := by
    rw [Expr.holdsQuery_of_isQuery hquery] at hq
    cases hq
  projectors hq := projection_plain (hplain hq).1 (hplain hq).2.1 (hplain hq).2.2

theorem Span.select {p : Projection Expr} (h : Span n m (Expr.projection p).labels) :
    Span n m (Expr.select p.source).labels := by
  rw [Expr.labels_projection] at h
  exact h.sublist (List.sublist_append_left _ _)

/-- The walk of an expression over flat sources gives out each of its labels once. -/
theorem Walks.labels (h : Walks catalog style s e r s') (hflat : e.Flat) (hs : s.IsPlain) :
    Labels s e r s' := by
  induction h with
  | constant => exact .of_plain hs rfl
  | captured => exact .of_plain hs rfl
  | @parameter s p =>
      refine .of_plain hs ?_
      cases hlookup : s.bound.lookup p.id with
      | none => rfl
      | some x => exact hs _ (mem_of_lookup hlookup)
  | bound h =>
      cases h.symm.trans (Expr.isBound_of_isComposed (hflat _ (Expr.self_mem_nodes _)).1)
  | @collection s entity t ht =>
      refine ⟨hs, ?_, fun h => ?_, fun _ => ?_⟩
      · rw [labels_tableProjection]
        exact (Span.nil le_rfl).cons.cons
      · rw [Expr.holdsQuery_of_isQuery rfl] at h
        cases h
      · exact tableProjection_plain t s.labels
  | member _ hx ih => exact (ih (hflat.child (by simp [Expr.children])) hs).member hx
  | unary _ ih => exact (ih (hflat.child (by simp [Expr.children])) hs).unary
  | @binary s op a b x y s₁ s' _ _ iha ihb =>
      have ha := iha (hflat.child (by simp [Expr.children])) hs
      have hb := ihb (hflat.child (by simp [Expr.children])) ha.scope
      refine ha.pair hb ?_ (Expr.holdsQuery_binary op a b) ?_ ?_
      · simp [Expr.labels_eq (.binary op x y), Expr.label?, Expr.children]
      · intro h
        exact ⟨Expr.nestsQuery_child h (by simp [Expr.children]),
          Expr.nestsQuery_child h (by simp [Expr.children])⟩
      · intro hx hy
        exact Expr.plainProjectors_of_children rfl (by simp [Expr.children, hx, hy])
  | constructNil => exact .of_plain hs rfl
  | @constructCons s t name e ms r rs s₁ s' _ _ ihe ihms =>
      have he := ihe (hflat.child (by simp [Expr.children])) hs
      have hms := ihms hflat.tail he.scope
      refine he.pair hms ?_ (Expr.holdsQuery_construct_cons t name e ms) ?_ ?_
      · simp [Expr.labels_eq (.construct t _), Expr.label?, Expr.children]
      · intro h
        exact ⟨Expr.nestsQuery_child h (by simp [Expr.children]), Expr.nestsQuery_tail h⟩
      · intro hr hrs
        refine Expr.plainProjectors_of_children rfl fun c hc => ?_
        rcases List.mem_cons.mp hc with rfl | hc
        · exact hr
        · exact hrs.child rfl hc
  | @charAt s string index x i r s₁ s' _ _ h ihx ihi =>
      have hx := ihx (hflat.child (by simp [Expr.children])) hs
      have hi := ihi (hflat.child (by simp [Expr.children])) hx.scope
      refine hx.pair hi (labels_substring h) (Expr.holdsQuery_charAt string index) ?_ ?_
      · intro h
        exact ⟨Expr.nestsQuery_child h (by simp [Expr.children]),
          Expr.nestsQuery_child h (by simp [Expr.children])⟩
      · exact substring_plain h
  | @select s receiver source x body p b s₁ s' _ _ ihs ihb =>
      have hsource := ihs (hflat.arg (by simp)) hs
      have hplain := hsource.projectors (hflat.source (by simp [Expr.sourceArgs]))
      have hbody := ihb (hflat.lambda (List.mem_cons_of_mem _ List.mem_cons_self))
        (hsource.scope.withBound x.id (hplain.self p rfl))
      refine .project hbody.scope rfl (hsource.span.select.append hbody.span) fun h => ?_
      have hquery := Expr.holdsQuery_lambda h (List.mem_cons_of_mem _ List.mem_cons_self)
      exact ⟨hbody.labels hquery, hplain.select, by simp⟩
  | @filter s receiver source x body p b s₁ s' _ _ ihs ihb =>
      have hsource := ihs (hflat.arg (by simp)) hs
      have hplain := hsource.projectors (hflat.source (by simp [Expr.sourceArgs]))
      have hprojector := hplain.self p rfl
      have hbody := ihb (hflat.lambda (List.mem_cons_of_mem _ List.mem_cons_self))
        (hsource.scope.withBound x.id hprojector)
      refine .project hbody.scope rfl ?_ fun h => ?_
      · simpa [hprojector] using hsource.span.select.append hbody.span
      · have hquery := Expr.holdsQuery_lambda h (List.mem_cons_of_mem _ List.mem_cons_self)
        refine ⟨hprojector, hplain.select, fun f hf => ?_⟩
        obtain rfl := Option.some.inj hf
        exact Expr.plainProjectors_of_labels (hbody.labels hquery)
  | @join s receiver left right x leftKey y rightKey x' y' result p q a b c s₁ s₂ s₃ s₄ s' _ _ _ _ _
      ihl ihr iha ihb ihc =>
      have hkey : Expr.lambda [x] leftKey ∈ [left, right, .lambda [x] leftKey,
        .lambda [y] rightKey, .lambda [x', y'] result] := by simp
      have hkey' : Expr.lambda [y] rightKey ∈ [left, right, .lambda [x] leftKey,
        .lambda [y] rightKey, .lambda [x', y'] result] := by simp
      have hresult : Expr.lambda [x', y'] result ∈ [left, right, .lambda [x] leftKey,
        .lambda [y] rightKey, .lambda [x', y'] result] := by simp
      have hl := ihl (hflat.arg (by simp)) hs
      have hr := ihr (hflat.arg (by simp)) hl.scope
      have hplain := hl.projectors (hflat.source (by simp [Expr.sourceArgs]))
      have hplain' := hr.projectors (hflat.source (by simp [Expr.sourceArgs]))
      have hp := hplain.self p rfl
      have hq := hplain'.self q rfl
      have ha := iha (hflat.lambda hkey) (hr.scope.withBound x.id hp)
      have hb := ihb (hflat.lambda hkey') (ha.scope.withBound y.id hq)
      have hc := ihc (hflat.lambda hresult) ((hb.scope.withBound x'.id hp).withBound y'.id hq)
      have hspan : Span s.labels s'.labels ((joined p q a b).labels ++ c.labels) := by
        have hsources := hl.span.select.append hr.span.select
        have hall := hsources.append ((ha.span.append hb.span).append hc.span)
        simpa [labels_joined, List.append_assoc] using hall
      refine .project hc.scope rfl hspan fun h => ?_
      have hla := ha.labels (Expr.holdsQuery_lambda h hkey)
      have hlb := hb.labels (Expr.holdsQuery_lambda h hkey')
      exact ⟨hc.labels (Expr.holdsQuery_lambda h hresult), joined_plain hplain hplain' hla hlb,
        by simp⟩
  | @toList s receiver source p s' _ ih =>
      have hsource := ih (hflat.arg (by simp)) hs
      refine ⟨hsource.scope, ?_, fun h => ?_, fun h => ?_⟩
      · simpa [Expr.labels_projection] using hsource.span
      · rw [Expr.holdsQuery_of_isQuery rfl] at h
        cases h
      · exact (hsource.projectors (Expr.nestsQuery_child h (by simp [Expr.children]))).reshape .list
  | @existence s method function entity t x body b s' hm ht _ ih =>
      have hbody := ih (hflat.lambda List.mem_cons_self)
        (hs.withBound x.id (labels_tableRecord t _ _))
      have hlabels : (Expr.subquery ⟨method, function, none, [b], .boolean⟩
          ("SELECT * FROM " ++ style.normalize t.name)).labels = b.labels := by
        simp [Expr.labels_eq (.subquery ..), Expr.label?, Expr.children, FunctionCall.children]
      refine ⟨hbody.scope.without x.id, hlabels ▸ hbody.span, fun h => ?_, fun h => ?_⟩
      · rw [Expr.holdsQuery_existence hm] at h
        rw [hlabels, hbody.labels h]
      · have hquery := Expr.holdsQuery_lambda h List.mem_cons_self
        exact Expr.plainProjectors_of_labels (hlabels.trans (hbody.labels hquery))

/-- No two tables or selects of a bound query have the same label, and every label is one that was
given out, if no source nests a query in a lambda. -/
theorem bind_labels_distinct {P : Projection Expr} (hcomposed : ∀ x ∈ e.nodes, x.isComposed)
    (hflat : e.sourcesFlat) (h : bind catalog style e = .ok P) :
    (Expr.projection P).labels.Nodup ∧
      ∀ l ∈ (Expr.projection P).labels, ∃ n, l = label n := by
  obtain ⟨s, hwalks⟩ := walks_of_bind h
  have hspan := (hwalks.labels (Expr.flat_iff.mpr ⟨hcomposed, hflat⟩) (List.forall_mem_nil _)).span
  refine ⟨hspan.nodup, fun l hl => ?_⟩
  obtain ⟨n, -, -, heq⟩ := hspan.given l hl
  exact ⟨n, heq⟩

theorem bind_labels_distinct_of_ownedItems :
    (∀ x ∈ ownedItems.nodes, x.isComposed) ∧ ownedItems.sourcesFlat ∧
      ∃ P, bind ownership .preserve ownedItems = .ok P ∧
        (Expr.projection P).labels = ["t6", "t2", "t1", "t0", "t5", "t4", "t3"] ∧
        (Expr.projection P).labels.Nodup ∧
        ∀ l ∈ (Expr.projection P).labels, ∃ n, l = label n := by
  have hcomposed : ∀ x ∈ ownedItems.nodes, x.isComposed := by decide
  have hflat : ownedItems.sourcesFlat := by decide
  obtain ⟨P, hbind, hlabels⟩ : ∃ P, bind ownership .preserve ownedItems = .ok P ∧
      (Expr.projection P).labels = ["t6", "t2", "t1", "t0", "t5", "t4", "t3"] := ⟨_, by cbv, by cbv⟩
  exact ⟨hcomposed, hflat, P, hbind, hlabels, bind_labels_distinct hcomposed hflat hbind⟩

end Binding

end Quarry
