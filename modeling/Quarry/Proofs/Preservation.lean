import Quarry.Proofs.Computation
/-!
Binding preserves the meaning of flat queries, whose lambdas are scalars: the rows of the bound
query, read through its materializer, are the values of the query itself. The one way to fail is an
index of a character to which one cannot be added.
-/
namespace Quarry

namespace Expr

/-- The forms of a scalar that a caller composes. -/
def isScalar : Expr → Bool
  | .constant .. | .captured .. | .parameter _ | .member .. | .unary .. | .binary .. | .construct ..
  | .call .charAt .. => true
  | _ => false

/-- The value of a lambda's body where its parameters have the assigned values. -/
def evaluateAt (assigned : List (Nat × Value)) (body : Expr) : Except Error Value :=
  body.evaluateWith fun p => assigned.lookup p.id

/-- Queries whose lambdas are scalars. -/
inductive FlatQuery : Expr → Prop
  | collection (entity : String) : FlatQuery (.collection entity)
  | filter {receiver source x body} (hs : FlatQuery source) (hb : ∀ e ∈ body.nodes, e.isScalar) :
      FlatQuery (.call .filter receiver [source, .lambda [x] body])
  | select {receiver source x body} (hs : FlatQuery source) (hb : ∀ e ∈ body.nodes, e.isScalar) :
      FlatQuery (.call .select receiver [source, .lambda [x] body])
  | join {receiver left right x leftKey y rightKey x' y' result} (hl : FlatQuery left)
      (hr : FlatQuery right) (ha : ∀ e ∈ leftKey.nodes, e.isScalar)
      (hb : ∀ e ∈ rightKey.nodes, e.isScalar) (hc : ∀ e ∈ result.nodes, e.isScalar) :
      FlatQuery (.call .join receiver
        [left, right, .lambda [x] leftKey, .lambda [y] rightKey, .lambda [x', y'] result])
  | toList {receiver source} (hs : FlatQuery source) : FlatQuery (.call .toList receiver [source])

end Expr

/-- The values of a query, element by element. -/
def Database.queryValues (db : Database) : Expr → Except Error (List Value)
  | .collection entity => do
    let t ← db.catalog.table entity
    return (db.rows entity).map fun row => .record (t.record row)
  | .call .filter _ [source, .lambda [x] body] => do
    keepM (fun v => do return (← body.evaluateAt [(x.id, v)]) = .boolean true)
      (← queryValues db source)
  | .call .select _ [source, .lambda [x] body] => do
    (← queryValues db source).mapM fun v => body.evaluateAt [(x.id, v)]
  | .call .join _
      [left, right, .lambda [x] leftKey, .lambda [y] rightKey, .lambda [x', y'] result] => do
    let ls ← queryValues db left
    let rs ← queryValues db right
    let pairs ← keepM (fun pair => do
        let a ← leftKey.evaluateAt [(x.id, pair.1)]
        let b ← rightKey.evaluateAt [(y.id, pair.2)]
        return (← Value.applyBinary (.comparison .eq) a b) = .boolean true)
      (ls.flatMap fun l => rs.map fun r => (l, r))
    pairs.mapM fun pair => result.evaluateAt [(y'.id, pair.2), (x'.id, pair.1)]
  | .call .toList _ [source] => queryValues db source
  | e => .error e.notEvaluable

namespace Database

/-- A value of each of two queries. -/
def Pairs (db : Database) (left right : Expr) (u v : Value) : Prop :=
  ∃ ls rs, db.queryValues left = .ok ls ∧ db.queryValues right = .ok rs ∧ u ∈ ls ∧ v ∈ rs

theorem pairs_of_mem {db : Database} {left right : Expr} {ls rs : List Value} {u v : Value}
    (hls : db.queryValues left = .ok ls) (hrs : db.queryValues right = .ok rs)
    (h : (u, v) ∈ ls.flatMap fun l => rs.map fun r => (l, r)) : db.Pairs left right u v := by
  obtain ⟨l, hl, h⟩ := List.mem_flatMap.mp h
  obtain ⟨r, hr, heq⟩ := List.mem_map.mp h
  cases heq
  exact ⟨ls, rs, hls, hrs, hl, hr⟩

/-- The body of a lambda of a query that is evaluated for the values of the query, with the values
that its parameters have there. -/
inductive Applies (db : Database) : Expr → Expr → List (Nat × Value) → Prop
  | filter {receiver source x body us u} (hus : db.queryValues source = .ok us) (hu : u ∈ us) :
      Applies db (.call .filter receiver [source, .lambda [x] body]) body [(x.id, u)]
  | select {receiver source x body us u} (hus : db.queryValues source = .ok us) (hu : u ∈ us) :
      Applies db (.call .select receiver [source, .lambda [x] body]) body [(x.id, u)]
  | leftKey {receiver left right x leftKey y rightKey x' y' result u v}
      (hpair : db.Pairs left right u v) :
      Applies db (.call .join receiver
        [left, right, .lambda [x] leftKey, .lambda [y] rightKey, .lambda [x', y'] result])
        leftKey [(x.id, u)]
  | rightKey {receiver left right x leftKey y rightKey x' y' result u v}
      (hpair : db.Pairs left right u v) :
      Applies db (.call .join receiver
        [left, right, .lambda [x] leftKey, .lambda [y] rightKey, .lambda [x', y'] result])
        rightKey [(y.id, v)]
  | result {receiver left right x leftKey y rightKey x' y' result u v a b}
      (hpair : db.Pairs left right u v) (ha : leftKey.evaluateAt [(x.id, u)] = .ok a)
      (hb : rightKey.evaluateAt [(y.id, v)] = .ok b)
      (hmatch : Value.applyBinary (.comparison .eq) a b = .ok (.boolean true)) :
      Applies db (.call .join receiver
        [left, right, .lambda [x] leftKey, .lambda [y] rightKey, .lambda [x', y'] result])
        result [(y'.id, v), (x'.id, u)]
  | source {method receiver args c body assigned} (hc : c ∈ args) (h : Applies db c body assigned) :
      Applies db (.call method receiver args) body assigned

/-- The values of the indices at which characters are read for the values of a query. -/
def Indexes (db : Database) (e : Expr) (i : Value) : Prop :=
  ∃ body assigned, db.Applies e body assigned ∧ body.Indexes (fun p => assigned.lookup p.id) i

theorem Indexes.arg {db : Database} {method : Method} {receiver : Option Expr} {args : List Expr}
    {c : Expr} {i : Value} (h : db.Indexes c i) (hc : c ∈ args) :
    db.Indexes (.call method receiver args) i := by
  obtain ⟨body, assigned, happlies, hi⟩ := h
  exact ⟨body, assigned, .source hc happlies, hi⟩

end Database

namespace Binding

/-! Projectors of flat queries -/

/-- What the projector of a flat query is made of, over the columns of the given labels. -/
def isPlain (labels : List String) : Expr → Bool
  | .constant .. | .member .. | .unary .. | .binary .. | .construct .. => true
  | .column c => decide (c.label ∈ labels)
  | _ => false

variable {catalog : Catalog} {style : IdentifierCase} {bound : List (Nat × Expr)} {n m : Nat}
variable {labels : List String} {e r : Expr}

theorem isPlain_mono {labels' : List String} (h : labels ⊆ labels') (he : isPlain labels e) :
    isPlain labels' e := by
  cases e with
  | column c => simpa [isPlain] using h (by simpa [isPlain] using he)
  | _ => exact he

/-- A node of a bound scalar: the text computes it, or a projector may hold it. -/
abbrev IsScalarNode (labels : List String) (y : Expr) : Prop := isPlain labels y ∨ isComputed y

theorem isQuery_of_isScalar (h : e.isScalar) : e.isQuery = false := by
  cases e with
  | call method => cases method <;> first | rfl | cases h
  | collection => cases h
  | _ => rfl

/-- Outside of existence tests, scalars are bound to plain nodes and functions. -/
theorem scalarNode_invariant (labels : List String) :
    Invariant catalog { node := fun x => x.isScalar } fun w r =>
      w.bare = false → r.Everywhere true (IsScalarNode labels) where
  mono hle h hbare := h (by simpa using mt hle.bare (by simp [hbare]))
  constant _ _ := .leaf rfl (.inl rfl)
  literal _ := .leaf rfl (.inl rfl)
  collection h := by cases h
  record hbare hw := by cases hbare.symm.trans hw
  member _ h hbare := .of_children (.inl rfl) (by simpa [Expr.children] using h hbare)
  unary _ h hbare := .of_children (.inl rfl) (by simpa [Expr.children] using h hbare)
  binary ha hb hbare := .of_children (.inl rfl) (by simp [Expr.children, ha hbare, hb hbare])
  construct := by
    intro w t ms
    constructor
    · intro h x hx hbare
      exact (everywhere_construct (.inl rfl)).mp (h hbare) x hx
    · intro h hbare
      exact (everywhere_construct (.inl rfl)).mpr fun x hx => h x hx hbare
  character hx hstart hone hbare := .of_children (.inr rfl)
    (by simp [Expr.children, FunctionCall.children, hx hbare, hstart hbare, hone hbare])
  projector h hbare := (h hbare).projector
  select hq hquery := by cases (isQuery_of_isScalar hq).symm.trans hquery
  join hq hquery := by cases (isQuery_of_isScalar hq).symm.trans hquery
  list hq hquery := by cases (isQuery_of_isScalar hq).symm.trans hquery
  existence hq hm := by cases hm <;> cases hq

/-- A scalar over plain projectors is bound to plain nodes and functions. -/
theorem Binds.plain (h : Binds catalog style bound n e r m) (he : ∀ x ∈ e.nodes, x.isScalar)
    (hbound : ∀ x ∈ bound, ∀ y ∈ x.2.nodes, isPlain labels y) :
    ∀ y ∈ r.nodes, isPlain labels y ∨ isComputed y := by
  have henv : ∀ x ∈ bound, false = false → x.2.Everywhere true (IsScalarNode labels) :=
    fun x hx _ => Expr.everywhere_true.mpr fun y hy => .inl (hbound x hx y hy)
  obtain ⟨_, -, hr⟩ := h.invariant_of_env (scalarNode_invariant labels) (fun _ _ => trivial) he
    (fun _ _ _ => trivial) (fun _ => []) false [] henv
  exact Expr.everywhere_true.mp (hr rfl)

theorem isPlain_of_alike {R : Expr → Expr → Prop} {l : String} {sources : List String}
    {e' : Expr} (h : e.Alike R e') (he : isPlain sources e) (hc : ∀ c, e ≠ .column c) :
    isPlain [l] e' := by
  cases h with
  | leaf =>
      cases e with
      | constant | member | unary | binary | construct => rfl
      | column c => exact absurd rfl (hc c)
      | _ => cases he
  | member | unary | binary | construct => rfl
  | _ => cases he

/-- Through a select plain nodes and functions become plain. -/
theorem Moved.plain {l : String} {sources : List String} {columns : List (String × Expr)}
    {nested : Bool} {e' : Expr} (h : Moved l sources columns e nested e') (hn : nested = false)
    (he : ∀ y ∈ e.nodes, isPlain sources y ∨ isComputed y) : ∀ y ∈ e'.nodes, isPlain [l] y := by
  rw [← Expr.everywhere_true] at he ⊢
  -- no query is nested in what is moved
  refine h.everywhere (N := IsScalarNode sources)
    (I := fun nested e => nested = false ∧ e.Everywhere true (IsScalarNode sources)) he ⟨hn, he⟩
    ?_ ?_ ?_
  · rintro nested e c ⟨rfl, he⟩ hc
    have hproj : isProjection e = false := by
      cases e with
      | projection => rcases he.self with h | h <;> cases h
      | _ => rfl
    have htest : e.isExistenceTest → true := fun _ => rfl
    exact ⟨hproj, (Expr.everywhere_iff.mp he).2 htest c hc⟩
  · rintro e _ ⟨i, name, -, rfl⟩
    simp [isPlain]
  · rintro nested e e' ⟨rfl, -⟩ ht hnode halike
    have hplain : isPlain sources e := by
      refine hnode.resolve_right fun hcomputed => ?_
      cases e with
      | function | subquery => cases ht
      | _ => cases hcomputed
    refine isPlain_of_alike halike hplain ?_
    rintro c rfl
    cases ht.symm.trans hplain

/-! Rows of flat queries -/

section Rows

variable {db : Database} {indexed : Value → Prop} {projector : Expr} {vs : List Value}

/-- The frame of one row at a label, over which the projector computes the value. -/
def Shows (indexed : Value → Prop) (l : String) (projector : Expr) (frame : Frame) (v : Value) : Prop :=
  (∃ row, frame = [(l, row)]) ∧ Computes .byName indexed frame projector v

theorem fields_yields {find : Finder} {frame : Frame} {columns : List (String × Expr)}
    (h : ∀ column ∈ columns, ∃ w, Computes find indexed frame column.2 w) :
    Yields (PositionError indexed) (db.fields find frame columns) fun _ => True := by
  induction columns with
  | nil => exact trivial
  | cons column columns ih =>
      obtain ⟨w, hw⟩ := h column List.mem_cons_self
      rw [Database.fields]
      refine hw.scalar_yields.bind fun _ _ => ?_
      exact (ih fun c hc => h c (List.mem_cons_of_mem _ hc)).bind fun _ _ => trivial

/-- A select over frames that compute the values of a projector yields rows that do so. -/
theorem projection_yields {sources : List String} {source : Expr} {filter : Option Expr}
    (h : Yields (PositionError indexed) (db.sourceRows .byName [] source) fun frames =>
      Yields (PositionError indexed)
        (keepM (fun frame => db.holds .byName (frame ++ []) filter) frames) fun kept =>
          List.Forall₂ (fun frame v => frame.map (·.1) = sources ∧
            Computes .byName indexed frame projector v) kept vs) :
    Yields (PositionError indexed)
      (db.selectRows .byName [] (projection projector m sources source filter).source) fun rows =>
        List.Forall₂ (fun row v => Computes .byName indexed [(label m, row)]
          (projection projector m sources source filter).projector v) rows vs := by
  have hproj := projectColumns_projected projector (label m) sources
  rw [projection, Database.selectRows]
  refine h.bind fun frames hframes => hframes.bind fun kept hkept => Yields.mapM hkept ?_
  rintro frame v ⟨hlabels, hv⟩
  have hcolumns : ∀ column ∈ (projectColumns projector (label m) sources).2,
      ∃ w, Computes .byName indexed frame column.2 w :=
    fun column hcolumn => hv.taken (hproj.taken column hcolumn)
  rw [List.append_nil]
  refine (fields_yields hcolumns).result.imp ?_
  rintro row ⟨hrow, -⟩
  have hnames : (row.map (·.1)).Nodup := Database.map_fst_fields hrow ▸ hproj.names
  refine hproj.moved.computes hv (fun l row hl => ?_) hrow (Finder.byName_finds hnames)
  exact hlabels ▸ List.mem_map_of_mem (f := Prod.fst) (mem_of_lookup hl)

theorem computes_construct {find : Finder} {env : Frame} {t : DataType}
    {ms : List (String × Expr)} {fs : Record}
    (h : List.Forall₂ (fun m f => m.1 = f.1 ∧ Computes find indexed env m.2 f.2) ms fs) :
    Computes find indexed env (.construct t ms) (.record fs) := by
  induction h with
  | nil => exact .constructNil
  | @cons m f ms fs hm _ ih =>
      obtain ⟨name, e⟩ := m
      obtain ⟨field, v⟩ := f
      obtain ⟨rfl, hv⟩ := hm
      exact .constructCons hv ih

/-- The columns of a table compute the fields of its rows. -/
theorem tableColumns_computes {t : Table} {row : Row} (l : String)
    (hrow : List.Forall₂ (fun m v => Value.Inhabits v m.type) t.members row)
    (hnames : (t.members.map Member.name).Nodup) :
    List.Forall₂ (fun m f => m.1 = f.1 ∧ Computes .byName indexed [(l, t.record row)] m.2 f.2)
      (tableColumns t l) (t.record row) := by
  have hfinds : Finder.byName.Finds (t.record row) :=
    Finder.byName_finds (Database.map_fst_record hrow ▸ hnames)
  have hlength : (tableColumns t l).length = (t.record row).length := by
    rw [tableColumns, Table.record, List.length_map, List.length_zipIdx, List.length_zip,
      List.length_map, hrow.length_eq, min_self]
  refine forall₂_of_getElem? hlength fun i column field hcolumn hfield => ?_
  rw [getElem?_tableColumns] at hcolumn
  obtain ⟨m, hm, rfl⟩ := Option.map_eq_some_iff.mp hcolumn
  have hname := (List.getElem?_zip_eq_some.mp hfield).1
  rw [List.getElem?_map, hm, Option.map_some, Option.some.injEq] at hname
  obtain ⟨name, v⟩ := field
  obtain rfl : m.name = name := hname
  exact ⟨rfl, .column List.lookup_cons_self (hfinds _ v hfield)⟩

theorem sourceRows_yields {p : Projection Expr}
    (h : Yields (PositionError indexed) (db.selectRows .byName [] p.source) fun rows =>
      List.Forall₂ (fun row v => Computes .byName indexed [(p.source.label, row)] p.projector v)
        rows vs) :
    Yields (PositionError indexed) (db.sourceRows .byName [] (.select p.source)) fun frames =>
      List.Forall₂ (Shows indexed p.source.label p.projector) frames vs := by
  rw [Database.sourceRows]
  refine h.bind fun rows hrows => ?_
  refine List.forall₂_map_left_iff.mpr (hrows.imp fun row v hv => ⟨⟨row, rfl⟩, hv⟩)

/-- What the body of a lambda is bound to computes its value. -/
theorem Binds.computes_at {find : Finder} {env : Frame} {assigned : List (Nat × Value)} {v : Value}
    (h : Binds catalog style bound n e r m)
    (hi : ∀ i, e.Indexes (fun p => assigned.lookup p.id) i → indexed i)
    (hbound : List.Forall₂ (fun b a => b.1 = a.1 ∧ Computes find indexed env b.2 a.2) bound assigned)
    (hv : e.evaluateAt assigned = .ok v) : Computes find indexed env r v :=
  h.computes hi (fun _ _ hx => exists_of_lookup hbound hx) hv

/-- What is known of the projection that a flat query is bound to. -/
structure Simulates (db : Database) (indexed : Value → Prop) (n m : Nat) (e : Expr) (p : Projection Expr) :
    Prop where
  label : ∃ j, n ≤ j ∧ j < m ∧ p.source.label = label j
  plain : ∀ x ∈ p.projector.nodes, isPlain [p.source.label] x
  rows : ∀ vs, db.queryValues e = .ok vs →
    Yields (PositionError indexed) (db.selectRows .byName [] p.source) fun rows =>
      List.Forall₂ (fun row v => Computes .byName indexed [(p.source.label, row)] p.projector v)
        rows vs

theorem tableProjection_simulates {entity : String} {t : Table} (hd : db.catalog.isDistinct)
    (hdb : db.IsTyped) (ht : db.catalog.table entity = .ok t) :
    Simulates db indexed n (n + 2) (.collection entity) (tableProjection t n) := by
  obtain ⟨hmem, rfl⟩ := table_mem ht
  have hnames : (t.members.map Member.name).Nodup := by
    simpa using List.all_eq_true.mp hd t hmem
  refine ⟨⟨n + 1, by omega, by omega, rfl⟩, ?_, ?_⟩
  · refine Expr.forall_mem_nodes.mpr ⟨rfl, fun c hc => ?_⟩
    obtain ⟨x, hx, rfl⟩ := List.mem_map.mp hc
    obtain ⟨i, m, -, rfl⟩ := mem_tableColumns hx
    refine Expr.forall_mem_nodes.mpr ⟨?_, fun _ hc => nomatch hc⟩
    simp [isPlain, tableProjection]
  · intro vs hvs
    rw [Database.queryValues, ht] at hvs
    obtain rfl := Except.ok.inj hvs
    have hrows : db.selectRows .byName [] (tableProjection t n).source =
        .ok ((db.rows t.entity).map t.record) := by
      refine Database.selectRows_eq_ok.mpr
        ⟨(db.rows t.entity).map fun row => [(Binding.label n, t.record row)], ?_, _,
          keepM_all fun _ _ => rfl, ?_⟩
      · rw [tableProjection, Database.sourceRows, ht]
        rfl
      · rw [List.forall₂_map_left_iff, List.forall₂_map_right_iff, List.forall₂_same]
        intro row hrow
        have hcolumns : List.Forall₂ (fun m f => m.1 = f.1 ∧
            Computes .byName (fun _ => False) [(Binding.label n, t.record row)] m.2 f.2)
            (tableColumns t (Binding.label n)) (t.record row) :=
          tableColumns_computes _ (hdb t hmem row hrow) hnames
        exact Database.fields_eq_ok.mpr (hcolumns.imp fun _ _ h => ⟨h.1, h.2.scalar_eq_ok⟩)
    rw [hrows]
    show List.Forall₂ _ _ _
    rw [List.forall₂_map_left_iff, List.forall₂_map_right_iff, List.forall₂_same]
    exact fun row hrow => computes_construct (tableColumns_computes _ (hdb t hmem row hrow) hnames)

theorem select_simulates {receiver : Option Expr} {source body b : Expr} {p : Projection Expr}
    {x : Parameter} {k : Nat} (hp : Simulates db indexed n k source p)
    (hb : Binds db.catalog style [(x.id, p.projector)] k body b m)
    (hbody : ∀ e ∈ body.nodes, e.isScalar)
    (hi : ∀ i, db.Indexes (.call .select receiver [source, .lambda [x] body]) i → indexed i) :
    Simulates db indexed n (m + 1) (.call .select receiver [source, .lambda [x] body])
      (projection b m [p.source.label] (.select p.source) none) := by
  obtain ⟨j, hnj, hjk, hlabel⟩ := hp.label
  have hk := hb.le
  refine ⟨⟨m, by omega, Nat.lt_succ_self m, rfl⟩, ?_, ?_⟩
  · refine (projectColumns_projected _ _ _).moved.plain rfl (hb.plain hbody fun x hx => ?_)
    exact List.mem_singleton.mp hx ▸ hp.plain
  · intro vs hvs
    simp only [Database.queryValues, bind_eq_ok, mapM_eq_ok] at hvs
    obtain ⟨us, hus, hvs⟩ := hvs
    refine projection_yields ((sourceRows_yields (hp.rows us hus)).imp fun frames hframes => ?_)
    rw [keepM_all (fun _ _ => by rw [Database.holds])]
    refine (forall₂_comp (forall₂_mem_right hframes) hvs).imp ?_
    rintro frame v ⟨u, ⟨hmem, ⟨row, rfl⟩, hu⟩, hv⟩
    have happlies : db.Applies (.call .select receiver [source, .lambda [x] body]) body [(x.id, u)] :=
      .select hus hmem
    exact ⟨rfl, hb.computes_at (fun i h => hi i ⟨body, _, happlies, h⟩) (.cons ⟨rfl, hu⟩ .nil) hv⟩

theorem filter_simulates {receiver : Option Expr} {source body b : Expr} {p : Projection Expr}
    {x : Parameter} {k : Nat} (hp : Simulates db indexed n k source p)
    (hb : Binds db.catalog style [(x.id, p.projector)] k body b m)
    (hi : ∀ i, db.Indexes (.call .filter receiver [source, .lambda [x] body]) i → indexed i) :
    Simulates db indexed n (m + 1) (.call .filter receiver [source, .lambda [x] body])
      (projection p.projector m [p.source.label] (.select p.source) (some b)) := by
  obtain ⟨j, hnj, hjk, hlabel⟩ := hp.label
  have hk := hb.le
  refine ⟨⟨m, by omega, Nat.lt_succ_self m, rfl⟩, ?_, ?_⟩
  · exact (projectColumns_projected _ _ _).moved.plain rfl fun x hx => .inl (hp.plain x hx)
  · intro vs hvs
    simp only [Database.queryValues, bind_eq_ok] at hvs
    obtain ⟨us, hus, hvs⟩ := hvs
    refine projection_yields ((sourceRows_yields (hp.rows us hus)).imp fun frames hframes => ?_)
    refine (keepM_yields (forall₂_mem_right hframes) hvs ?_).imp fun kept hkept => hkept.imp ?_
    · rintro frame u ⟨hmem, -, hu⟩ c hc
      simp only [bind_eq_ok, pure_eq_ok] at hc
      obtain ⟨v, hv, rfl⟩ := hc
      have happlies : db.Applies (.call .filter receiver [source, .lambda [x] body]) body
          [(x.id, u)] := .filter hus hmem
      have hcomputes := hb.computes_at (fun i h => hi i ⟨body, _, happlies, h⟩)
        (.cons ⟨rfl, hu⟩ .nil) hv
      rw [Database.holds, List.append_nil]
      refine hcomputes.scalar_yields.bind ?_
      rintro v rfl
      exact rfl
    · rintro frame v ⟨-, ⟨row, rfl⟩, hv⟩
      exact ⟨rfl, hv⟩

/-- A frame of two rows, over which the two projectors compute a pair of values. -/
def ShowsPair (indexed : Value → Prop) (p q : Projection Expr) (frame : Frame) (pair : Value × Value) :
    Prop :=
  frame.map (·.1) = [p.source.label, q.source.label] ∧
    Computes .byName indexed frame p.projector pair.1 ∧
    Computes .byName indexed frame q.projector pair.2

theorem Shows.pair {p q : Projection Expr} {a b : Frame} {u v : Value}
    (hne : p.source.label ≠ q.source.label) (ha : Shows indexed p.source.label p.projector a u)
    (hb : Shows indexed q.source.label q.projector b v) :
    ShowsPair indexed p q (a ++ b) (u, v) := by
  obtain ⟨⟨row, rfl⟩, hu⟩ := ha
  obtain ⟨⟨row', rfl⟩, hv⟩ := hb
  refine ⟨rfl, hu.mono fun l r hl => ?_, hv.mono fun l r hl => ?_⟩
  · rw [List.lookup_append, hl, Option.some_or]
  · obtain ⟨rfl, rfl⟩ := Prod.mk.inj (List.mem_singleton.mp (mem_of_lookup hl))
    have hne' : (q.source.label == p.source.label) = false := beq_eq_false_iff_ne.mpr hne.symm
    rw [List.singleton_append, List.lookup_cons, hne', hl]

theorem join_simulates {receiver : Option Expr} {left right leftKey rightKey result a b c : Expr}
    {p q : Projection Expr} {x y x' y' : Parameter} {n₁ n₂ n₃ n₄ : Nat}
    (hp : Simulates db indexed n n₁ left p) (hq : Simulates db indexed n₁ n₂ right q)
    (ha : Binds db.catalog style [(x.id, p.projector)] n₂ leftKey a n₃)
    (hb : Binds db.catalog style [(y.id, q.projector)] n₃ rightKey b n₄)
    (hc : Binds db.catalog style [(y'.id, q.projector), (x'.id, p.projector)] n₄ result c m)
    (hresult : ∀ e ∈ result.nodes, e.isScalar)
    (hi : ∀ i, db.Indexes (.call .join receiver
      [left, right, .lambda [x] leftKey, .lambda [y] rightKey, .lambda [x', y'] result]) i →
        indexed i) :
    Simulates db indexed n (m + 1)
      (.call .join receiver
        [left, right, .lambda [x] leftKey, .lambda [y] rightKey, .lambda [x', y'] result])
      (projection c m [p.source.label, q.source.label]
        (.join .inner (.select p.source) (.select q.source)
          (some (.binary (.comparison .eq) a b))) none) := by
  obtain ⟨j, hnj, hjn, hlabel⟩ := hp.label
  obtain ⟨k, hnk, hkn, hlabel'⟩ := hq.label
  have hne : p.source.label ≠ q.source.label := by
    rw [hlabel, hlabel']
    exact fun h => absurd (label_injective h) (by omega)
  have hle := (ha.le.trans hb.le).trans hc.le
  have happlies : ∀ {body assigned}, db.Applies (.call .join receiver
      [left, right, .lambda [x] leftKey, .lambda [y] rightKey, .lambda [x', y'] result])
        body assigned → ∀ i, body.Indexes (fun p => assigned.lookup p.id) i → indexed i :=
    fun h i hindex => hi i ⟨_, _, h, hindex⟩
  refine ⟨⟨m, by omega, Nat.lt_succ_self m, rfl⟩, ?_, ?_⟩
  · refine (projectColumns_projected _ _ _).moved.plain rfl (hc.plain hresult fun z hz y hy => ?_)
    rcases List.mem_pair.mp hz with rfl | rfl
    · exact isPlain_mono (by simp) (hq.plain y hy)
    · exact isPlain_mono (by simp) (hp.plain y hy)
  · intro vs hvs
    simp only [Database.queryValues, bind_eq_ok, mapM_eq_ok] at hvs
    obtain ⟨ls, hls, rs, hrs, pairs, hpairs, hvs⟩ := hvs
    refine projection_yields ?_
    rw [Database.sourceRows]
    refine (sourceRows_yields (hp.rows ls hls)).bind fun lefts hlefts => ?_
    refine (sourceRows_yields (hq.rows rs hrs)).bind fun rights hrights => ?_
    have hframes : List.Forall₂ (ShowsPair indexed p q)
        (lefts.flatMap fun l => rights.map fun r => l ++ r)
        (ls.flatMap fun l => rs.map fun r => (l, r)) := by
      refine List.rel_flatMap hlefts fun l u hu => ?_
      rw [List.forall₂_map_left_iff, List.forall₂_map_right_iff]
      exact hrights.imp fun r v hv => hu.pair hne hv
    refine (keepM_yields (forall₂_mem_right hframes) hpairs ?_).imp fun kept hkept => ?_
    · rintro frame ⟨u, v⟩ ⟨hmem, -, hu, hv⟩ d hd
      have hpair := Database.pairs_of_mem hls hrs hmem
      simp only [bind_eq_ok, pure_eq_ok] at hd
      obtain ⟨lk, hlk, rk, hrk, w, hw, rfl⟩ := hd
      rw [Database.holds, List.append_nil]
      have hcondition : Computes .byName indexed frame (.binary (.comparison .eq) a b) w :=
        .binary (ha.computes_at (happlies (.leftKey hpair)) (.cons ⟨rfl, hu⟩ .nil) hlk)
          (hb.computes_at (happlies (.rightKey hpair)) (.cons ⟨rfl, hv⟩ .nil) hrk) hw
      refine hcondition.scalar_yields.bind ?_
      rintro w rfl
      exact rfl
    · rw [keepM_all (fun _ _ => by rw [Database.holds])]
      refine (forall₂_comp (forall₂_mem_right hkept) hvs).imp ?_
      rintro frame w ⟨⟨u, v⟩, ⟨hmem, -, hlabels, hu, hv⟩, hw⟩
      have hpair := Database.pairs_of_mem hls hrs (mem_of_keepM hpairs hmem)
      have htest := test_of_keepM hpairs hmem
      simp only [bind_eq_ok, pure_eq_ok, decide_eq_true_eq] at htest
      obtain ⟨lk, hlk, rk, hrk, _, hmatch, rfl⟩ := htest
      exact ⟨hlabels, hc.computes_at (happlies (.result hpair hlk hrk hmatch))
        (.cons ⟨rfl, hv⟩ (.cons ⟨rfl, hu⟩ .nil)) hw⟩

/-- A flat query is bound to a projection whose rows compute its values. -/
theorem flatQuery_simulates (hq : e.FlatQuery) (hd : db.catalog.isDistinct) (hdb : db.IsTyped)
    (hi : ∀ i, db.Indexes e i → indexed i) (h : Binds db.catalog style [] n e r m) :
    ∃ p, r = .projection p ∧ Simulates db indexed n m e p := by
  have harg : ∀ {method : Method} {receiver : Option Expr} {args : List Expr} {c : Expr},
      (∀ i, db.Indexes (.call method receiver args) i → indexed i) → c ∈ args →
      ∀ i, db.Indexes c i → indexed i := fun hi hc i h => hi i (h.arg hc)
  induction hq generalizing n r m with
  | collection entity =>
      cases h with
      | collection ht => exact ⟨_, rfl, tableProjection_simulates hd hdb ht⟩
  | select hs hbody ih =>
      cases h with
      | select hsource hb =>
          obtain ⟨p, hp, hsim⟩ := ih (harg hi (by simp)) hsource
          cases hp
          exact ⟨_, rfl, select_simulates hsim hb hbody hi⟩
  | filter hs hbody ih =>
      cases h with
      | filter hsource hb =>
          obtain ⟨p, hp, hsim⟩ := ih (harg hi (by simp)) hsource
          cases hp
          exact ⟨_, rfl, filter_simulates hsim hb hi⟩
  | join _ _ _ _ hresult ihl ihr =>
      cases h with
      | join hl hr ha hb hc =>
          obtain ⟨p, hp, hleft⟩ := ihl (harg hi (by simp)) hl
          obtain ⟨q, hq, hright⟩ := ihr (harg hi (by simp)) hr
          cases hp
          cases hq
          exact ⟨_, rfl, join_simulates hleft hright ha hb hc hresult hi⟩
  | toList hs ih =>
      cases h with
      | existence hm => cases hm
      | toList hsource =>
          obtain ⟨p, hp, hsim⟩ := ih (harg hi (by simp)) hsource
          cases hp
          refine ⟨_, rfl, ⟨hsim.label, hsim.plain, fun vs hvs => hsim.rows vs ?_⟩⟩
          rwa [Database.queryValues] at hvs

end Rows

end Binding

/-! Materializers -/

namespace Materializer

variable {σ : Type} {find : Finder} {indexed : Value → Prop} {l : String}

/-- The materializer builds from a row what the projector computes over it, if the columns of the
projector read what they find. -/
def Builds (find : Finder) (indexed : Value → Prop) (σ : Type) (l : String) (e : Expr) (m : Materializer) :
    Prop :=
  ∀ (access : RowAccess σ) (row : Record) (v : Value),
    (∀ c w, .column c ∈ e.nodes → find row c = some w →
      run access (.column c.ordinal c.type) = pure w) →
    Computes find indexed [(l, row)] e v → run access m = pure v

theorem ofMembers_builds {t : DataType} {ms : List (String × Expr)}
    (h : ∀ x ∈ ms, ∃ m, ofExpr l x.2 = .ok m ∧ Builds find indexed σ l x.2 m) :
    ∃ mats, ofMembers l ms = .ok mats ∧ ∀ (access : RowAccess σ) (row fs : Record),
      (∀ c w, .column c ∈ (Expr.construct t ms).nodes → find row c = some w →
        run access (.column c.ordinal c.type) = pure w) →
      Computes find indexed [(l, row)] (.construct t ms) (.record fs) →
        runMembers access mats = pure fs := by
  induction ms with
  | nil =>
      refine ⟨[], rfl, fun access row fs _ hfs => ?_⟩
      cases hfs
      rfl
  | cons x ms ih =>
      obtain ⟨name, e⟩ := x
      obtain ⟨m, hm, hbuild⟩ := h _ List.mem_cons_self
      obtain ⟨mats, hmats, hbuilds⟩ := ih fun x hx => h x (List.mem_cons_of_mem _ hx)
      refine ⟨(name, m) :: mats, by rw [ofMembers, hm, hmats]; rfl, fun access row fs hread hfs => ?_⟩
      cases hfs with
      | @constructCons _ _ _ w _ fs hw hrest =>
          have hhead : run access m = pure w := hbuild access row w
            (fun c u hc => hread c u (Expr.mem_nodes_of_child (by simp [Expr.children]) hc)) hw
          have htail : runMembers access mats = pure fs := hbuilds access row fs
            (fun c u hc => hread c u ((Expr.mem_nodes_tail hc).resolve_left (by simp))) hrest
          rw [runMembers, hhead, pure_bind, htail, pure_bind]

/-- A plain projector has a materializer. -/
theorem ofExpr_builds {e : Expr} (he : ∀ x ∈ e.nodes, Binding.isPlain [l] x) :
    ∃ m, ofExpr l e = .ok m ∧ Builds find indexed σ l e m := by
  induction e using Expr.children_induction with
  | step e ih =>
      obtain ⟨hnode, hbelow⟩ := Expr.forall_mem_nodes.mp he
      cases e with
      | constant w t =>
          refine ⟨.constant w, rfl, fun access row v _ hv => ?_⟩
          cases hv
          rfl
      | column c =>
          have hlabel : c.label = l := by simpa [Binding.isPlain] using hnode
          refine ⟨.column c.ordinal c.type, by rw [ofExpr, if_pos hlabel],
            fun access row v hread hv => ?_⟩
          cases hv with
          | column hrow hfound =>
              obtain ⟨-, rfl⟩ := Prod.mk.inj (List.mem_singleton.mp (mem_of_lookup hrow))
              exact hread c v (Expr.self_mem_nodes _) hfound
      | member target name =>
          have hc : target ∈ (Expr.member target name).children := by simp [Expr.children]
          obtain ⟨m, hm, hbuild⟩ := ih target hc (hbelow target hc)
          refine ⟨.member m name, by rw [ofExpr, hm]; rfl, fun access row v hread hv => ?_⟩
          cases hv with
          | member hw hv =>
              rw [run, hbuild access row _ (fun c u h => hread c u (Expr.mem_nodes_of_child hc h)) hw,
                pure_bind, takeMember_eq_ok.mpr hv]
              rfl
      | unary op operand =>
          have hc : operand ∈ (Expr.unary op operand).children := by simp [Expr.children]
          obtain ⟨m, hm, hbuild⟩ := ih operand hc (hbelow operand hc)
          refine ⟨.unary op m, by rw [ofExpr, hm]; rfl, fun access row v hread hv => ?_⟩
          cases hv with
          | unary hw hv =>
              rw [run, hbuild access row _ (fun c u h => hread c u (Expr.mem_nodes_of_child hc h)) hw,
                pure_bind, hv]
              rfl
      | binary op left right =>
          have hl : left ∈ (Expr.binary op left right).children := by simp [Expr.children]
          have hr : right ∈ (Expr.binary op left right).children := by simp [Expr.children]
          obtain ⟨m, hm, hbuild⟩ := ih left hl (hbelow left hl)
          obtain ⟨m', hm', hbuild'⟩ := ih right hr (hbelow right hr)
          refine ⟨.binary op m m', by rw [ofExpr, hm, hm']; rfl, fun access row v hread hv => ?_⟩
          cases hv with
          | binary hx hy hv =>
              rw [run, hbuild access row _ (fun c u h => hread c u (Expr.mem_nodes_of_child hl h)) hx,
                pure_bind,
                hbuild' access row _ (fun c u h => hread c u (Expr.mem_nodes_of_child hr h)) hy,
                pure_bind, hv]
              rfl
      | construct t ms =>
          obtain ⟨mats, hmats, hbuilds⟩ := ofMembers_builds (t := t) fun x hx =>
            ih x.2 (List.mem_map_of_mem hx) (hbelow x.2 (List.mem_map_of_mem hx))
          refine ⟨.record mats, by rw [ofExpr, hmats]; rfl, fun access row v hread hv => ?_⟩
          obtain ⟨fs, rfl⟩ : ∃ fs, v = .record fs := by cases hv <;> exact ⟨_, rfl⟩
          rw [run, hbuilds access row fs hread hv, pure_bind]
      | _ => cases hnode

end Materializer

/-- Access to a row that nothing encloses. -/
def RowAccess.ofRow (row : Row) : RowAccess Unit where
  field ordinal :=
    match row[ordinal]? with
    | some v => pure v
    | none => throw (.ordinalOutOfRange ordinal row.length)
  outer depth _ := throw (.noEnclosingRow depth)
  subquery _ := throw .nestedTooDeep

/-- The value that a materializer builds from a row. -/
def Materializer.read (m : Materializer) (row : Row) : Except Error Value :=
  ((m.run (.ofRow row)).run ()).1

/-- The values that a materializer builds from the rows of a select. -/
def Database.materialize (db : Database) (m : Materializer) (s : Select Expr) :
    Except Error (List Value) := do
  let rows ← db.selectRows .byName [] s
  rows.mapM fun row => m.read (row.map (·.2))

theorem RowAccess.run_column {row : Record} {c : Column} {v : Value}
    (h : row[c.ordinal]? = some (c.name, v)) (hv : v.Inhabits c.type) :
    Materializer.run (.ofRow (row.map (·.2))) (.column c.ordinal c.type) = pure v := by
  have hfield : (RowAccess.ofRow (row.map (·.2))).field c.ordinal = pure v := by
    simp only [RowAccess.ofRow, List.getElem?_map, h, Option.map_some]
  have hcast : v.cast c.type = .ok v := hv
  rw [Materializer.run, hfield, pure_bind, hcast]
  rfl

namespace Binding

variable {db : Database} {style : IdentifierCase} {e : Expr} {p : Projection Expr}

/-- The columns of the projector of a bound query read from a typed row what they find. -/
theorem run_column_of_resolved {G : Nat → Signature} {n : Nat} {row : Record} {c : Column}
    {w : Value} (h : Resolved (fun _ _ => True) db.catalog G n false [] (.projection p))
    (hplain : ∀ x ∈ p.projector.nodes, isPlain [p.source.label] x)
    (hrow : Frame.IsTyped .byName G [(p.source.label, row)]) (hc : .column c ∈ p.projector.nodes)
    (hw : Finder.byName row c = some w) :
    Materializer.run (.ofRow (row.map (·.2))) (.column c.ordinal c.type) = pure w := by
  have hlabel : c.label = p.source.label := by simpa [isPlain] using hplain _ hc
  have hne : c.label ≠ "" := hlabel ▸ h.label_ne_empty
  have hlookup : List.lookup c.label [(p.source.label, row)] = some row := by
    rw [hlabel, List.lookup_cons_self]
  obtain ⟨x, hx, hfound, hinhabits⟩ := hrow.lookup (h.projector.nodes _ hc) hne hlookup
  obtain rfl : x = w := Option.some.inj (hfound.symm.trans hw)
  exact RowAccess.run_column hx hinhabits

/-- Binding preserves the meaning of flat queries: the rows of the bound query, read through its
materializer, are the values of the query, in order. They fail only as adding one does to the value
of an index at which the query reads a character. -/
theorem bind_preserves_values (hd : db.catalog.isDistinct) (hdb : db.IsTyped) (hq : e.FlatQuery)
    (hclosed : e.isClosed []) (h : bind db.catalog style e = .ok p) :
    ∃ m, Materializer.build p = .ok m ∧ ∀ vs, db.queryValues e = .ok vs →
      db.materialize m p.source = .ok vs ∨
        ∃ i err, db.Indexes e i ∧
          Value.applyBinary (.arithmetic .add) i (.int32 1) = .error err ∧
          db.materialize m p.source = .error err := by
  obtain ⟨n, hbinds⟩ := binds_of_bind hclosed h
  obtain ⟨p', hp', hsim⟩ := flatQuery_simulates hq hd hdb (fun _ hi => hi) hbinds
  cases hp'
  have henv : ∀ x ∈ ([] : List (Nat × Expr)),
      Resolved (fun _ _ => True) db.catalog (fun _ => []) 0 false [] x.2 := fun _ hx => nomatch hx
  obtain ⟨G, -, hresolved⟩ := hbinds.resolved (fun _ => trivial) (fun _ _ _ => trivial) henv
  obtain ⟨m, hm, hbuild⟩ := Materializer.ofExpr_builds hsim.plain
  refine ⟨m, hm, fun vs hvs => ?_⟩
  have hyields : Yields (PositionError (db.Indexes e)) (db.materialize m p.source) (· = vs) := by
    refine (hsim.rows vs hvs).result.bind ?_
    rintro rows ⟨hrows, hcomputes⟩
    have htyped := Database.selectRows_typed hdb (Finder.byName_suits hd) hresolved.source.2 .nil hrows
    have hread : List.Forall₂ (fun row v => m.read (row.map (·.2)) = .ok v) rows vs := by
      refine ((List.forall₂_and_left _ _).mpr ⟨htyped, hcomputes⟩).imp ?_
      rintro row v ⟨hrow, hv⟩
      have hrun := hbuild (.ofRow (row.map (·.2))) row v
        (fun c w => run_column_of_resolved hresolved hsim.plain hrow) hv
      rw [Materializer.read, hrun]
      rfl
    rw [mapM_eq_ok.mpr hread]
    exact rfl
  cases hresult : db.materialize m p.source with
  | ok ws =>
      rw [hresult] at hyields
      exact .inl (congrArg Except.ok hyields)
  | error err =>
      rw [hresult] at hyields
      obtain ⟨i, hi, herr⟩ := hyields
      exact .inr ⟨i, err, hi, herr, rfl⟩

/-- An owner without a name, under the greatest number. -/
def nameless : Database where
  catalog := ownership
  rows
    | "Owner" => [[.int32 2147483647, .null]]
    | _ => []
  literal _ := []

/-- The letter of each owner's name at the index that is the owner's number. -/
def letterAtNumber : Expr :=
  let owner : Parameter := ⟨0, "o", .entity "Owner"⟩
  .call .select none [.collection "Owner", .lambda [owner]
    (.call .charAt (some (.member (.parameter owner) "Name"))
      [.member (.parameter owner) "Id"])]

/-- A text that is null has no letter at the greatest index either, but the bound query fails to
compute the position after the index. -/
theorem bind_loses_missing_letter :
    nameless.catalog.isDistinct ∧ nameless.IsTyped ∧ letterAtNumber.FlatQuery ∧
      letterAtNumber.isClosed [] ∧ nameless.queryValues letterAtNumber = .ok [.null] ∧
      ∃ p m, bind nameless.catalog .preserve letterAtNumber = .ok p ∧ Materializer.build p = .ok m ∧
        nameless.materialize m p.source = .error (.integerOverflow "+") := by
  have hq : letterAtNumber.FlatQuery := .select (.collection _) (by decide)
  refine ⟨by decide, by decide, hq, by decide, rfl, _, .column 0 .char, by cbv, rfl, ?_⟩
  rfl

/-- One letter of the owner's name for each item, but no `A`. -/
def ownerLetters : Expr :=
  let owner : Parameter := ⟨0, "o", .entity "Owner"⟩
  let item : Parameter := ⟨1, "i", .entity "Item"⟩
  let letter : Parameter := ⟨2, "l", .char⟩
  let index := .binary (.arithmetic .div) (.member (.parameter item) "Id") (.literal (.int32 20))
  let letters := .call .join none [.collection "Owner", .collection "Item",
    .lambda [owner] (.member (.parameter owner) "Id"),
    .lambda [item] (.member (.parameter item) "Owner"),
    .lambda [owner, item] (.call .charAt (some (.member (.parameter owner) "Name")) [index])]
  .call .filter none [letters,
    .lambda [letter] (.binary (.comparison .ne) (.parameter letter) (.literal (.char 'A')))]

/-- The indices are `0` and `1`. -/
theorem indexes_ownerLetters {i : Value} (h : owned.Indexes ownerLetters i) :
    i = .int32 0 ∨ i = .int32 1 := by
  obtain ⟨body, assigned, happlies, string, index, hmem, hi⟩ := h
  cases happlies with
  | filter =>
      change _ ∈ [_, _, _] at hmem
      simp at hmem
  | source hc h =>
      simp only [List.mem_cons, List.not_mem_nil, or_false] at hc
      rcases hc with rfl | rfl
      · cases h with
        | leftKey | rightKey =>
            change _ ∈ [_, _] at hmem
            simp at hmem
        | @result _ _ _ _ _ _ _ _ _ _ _ v _ _ hpair =>
            obtain ⟨ls, rs, -, hrs, -, hv⟩ := hpair
            change _ ∈ [_, _, _, _, _, _, _] at hmem
            obtain ⟨-, rfl⟩ : string = _ ∧ index = _ := by simpa using hmem
            obtain rfl := Except.ok.inj hrs
            change v ∈ [_, _, _] at hv
            simp only [List.mem_cons, List.not_mem_nil, or_false] at hv
            rcases hv with rfl | rfl | rfl
            · exact .inl (Except.ok.inj hi).symm
            · exact .inr (Except.ok.inj hi).symm
            · exact .inr (Except.ok.inj hi).symm
        | source hc h =>
            simp only [List.mem_cons, List.not_mem_nil, or_false] at hc
            rcases hc with rfl | rfl | rfl | rfl | rfl <;> cases h
      · cases h

theorem bind_preserves_values_of_ownerLetters :
    ∃ p m, bind ownership .preserve ownerLetters = .ok p ∧ Materializer.build p = .ok m ∧
      owned.materialize m p.source = .ok [.char 'd', .char 'o'] := by
  have hd : owned.catalog.isDistinct := by decide
  have hdb : owned.IsTyped := by decide
  have hq : ownerLetters.FlatQuery :=
    .filter (.join (.collection _) (.collection _) (by decide) (by decide) (by decide)) (by decide)
  have hclosed : ownerLetters.isClosed [] := by decide
  obtain ⟨p, hp⟩ : ∃ p, bind owned.catalog .preserve ownerLetters = .ok p := ⟨_, by cbv⟩
  have hvalues : owned.queryValues ownerLetters = .ok [.char 'd', .char 'o'] := by cbv
  obtain ⟨m, hm, hread⟩ := bind_preserves_values hd hdb hq hclosed hp
  refine ⟨p, m, hp, hm, (hread _ hvalues).resolve_right ?_⟩
  rintro ⟨i, err, hi, herr, -⟩
  rcases indexes_ownerLetters hi with rfl | rfl <;> cases herr

end Binding

end Quarry
