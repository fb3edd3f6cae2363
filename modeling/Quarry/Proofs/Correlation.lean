import Quarry.Proofs.Items
import Quarry.Proofs.Specialization
/-!
Nested projections are read faithfully at every depth: what a reader collects, running each nested
projection once for the row that encloses it, are the values that the projection has where every
enclosing row is in sight under its label.
-/
namespace Quarry

/-- A run of the action from some state has the result. -/
def Returns {σ α : Type} (a : Action σ α) (v : α) : Prop := ∃ s s', a.run.run s = (.ok v, s')

namespace Returns

variable {σ α β : Type} {a : Action σ α} {f : α → Action σ β} {v w : α} {b : β}

theorem bind (h : Returns (a >>= f) b) : ∃ v, Returns a v ∧ Returns (f v) b := by
  obtain ⟨s, s', h⟩ := h
  obtain ⟨v, s₁, ha, hf⟩ := run_bind_ok h
  exact ⟨v, ⟨s, s₁, ha⟩, ⟨s₁, s', hf⟩⟩

theorem lift {x : Except Error α} (h : Returns (liftM x : Action σ α) v) : x = .ok v := by
  obtain ⟨s, s', h⟩ := h
  exact (run_lift_eq h).1

theorem pure (h : Returns (Pure.pure v : Action σ α) w) : v = w :=
  Except.ok.inj (lift (x := .ok v) h)

theorem throw {e : Error} (h : Returns (MonadExcept.throw e : Action σ α) v) : False := by
  cases lift (x := .error e) h

end Returns

namespace Executor

variable {σ : Type} {X : Executor σ} {nested : Nested σ} {r : Reader} {c : Cursor}

/-- All items of a reader: one for each row that is left, in order. -/
theorem collectWith_run {count : Nat} {vs : List Value} {s s' : σ} (hr : r.cursor = some c)
    (hcount : c.rest.length < count)
    (h : (X.collectWith nested .ok count r).run s = (.ok vs, s')) :
    List.Forall₂ (fun row v => ∃ c' : Cursor, c'.current = some row ∧
      Returns (r.materializer.run (rowAccess nested { r with cursor := some c' })) v) c.rest vs := by
  induction count generalizing r c vs s with
  | zero => exact absurd hcount (Nat.not_lt_zero _)
  | succ count ih =>
      rcases collectWith_cases h with ⟨r₁, hnext, hvs⟩ | ⟨item, r₁, s₁, e, -, hvs, -⟩ |
        ⟨v, _, r₁, s₁, y, hnext, hv, hcollect, hvs⟩
      · cases hvs
        cases nextWith_advances hr hnext with
        | ended _ hrest =>
            rw [hrest]
            exact .nil
      · cases hvs
      · cases hv
        obtain ⟨ws, rfl, rfl⟩ := map_eq_ok.mp hvs.symm
        cases nextWith_advances hr hnext with
        | @built row rest _ s₂ _ _ hrest hrun =>
            have hlength : rest.length < count := by
              rw [hrest, List.length_cons] at hcount
              omega
            have htail := ih (r := onRow r c row rest) (c := { c with current := some row, rest })
              rfl hlength hcollect
            rw [hrest]
            exact .cons ⟨_, rfl, s₂, s₁, hrun⟩ htail

/-! One row -/

variable {db : Database} {find : Finder} {G : Nat → Signature} {n : Nat}
variable {l : String} {row : Record} {env : Frame}

theorem scalar_of_read {c : Column} {field : Except Error Value} {v : Value}
    (h : ∃ w, field = .ok w ∧ w.Inhabits c.type ∧ (env.lookup c.label).bind (find · c) = some w)
    (hv : Returns (do Value.cast (← (liftM field : Action σ Value)) c.type : Action σ Value) v) :
    db.scalar find env (.column c) = .ok v := by
  obtain ⟨w, hfield, hinhabits, hfound⟩ := h
  obtain ⟨x, hx, hv⟩ := hv.bind
  obtain rfl : w = x := Except.ok.inj (hfield.symm.trans hx.lift)
  obtain rfl : w = v := Except.ok.inj (Eq.trans hinhabits.symm hv.lift)
  simp only [Database.scalar, hfound]

theorem fields_of_runMembers {ms : List (String × Expr)} {mats : List (String × Materializer)}
    {fs : List (String × Value)} {g : Expr → Option Expr} {access : RowAccess σ}
    (h : ∀ x ∈ ms, ∀ m v, Materializer.ofExpr l (x.2.rewrite g) = .ok m →
      Returns (m.run access) v → db.scalar find env x.2 = .ok v)
    (hms : Materializer.ofMembers l (ms.map fun x => (x.1, x.2.rewrite g)) = .ok mats)
    (hfs : Returns (Materializer.runMembers access mats) fs) : db.fields find env ms = .ok fs := by
  induction ms generalizing mats fs with
  | nil =>
      cases hms
      rw [Materializer.runMembers] at hfs
      exact congrArg Except.ok hfs.pure
  | cons x ms ih =>
      obtain ⟨name, e⟩ := x
      simp only [List.map_cons, Materializer.ofMembers, bind_eq_ok, pure_eq_ok] at hms
      obtain ⟨m, hm, mats, hmats, rfl⟩ := hms
      rw [Materializer.runMembers] at hfs
      obtain ⟨v, hv, hfs⟩ := hfs.bind
      obtain ⟨fs, hfs, hresult⟩ := hfs.bind
      have hhead := h _ List.mem_cons_self m v hm hv
      have htail := ih (fun x hx => h x (List.mem_cons_of_mem _ hx)) hmats hfs
      simp only [Database.fields, hhead, htail]
      exact congrArg Except.ok hresult.pure

/-- A projector read through its materializer has the value that it has in sight of the rows that the
reader stands on, if nested projections have. -/
theorem scalar_of_run {e : Expr} {m : Materializer} {v : Value}
    (hr : r.StandsOn ((l, row) :: env)) (henv : Frame.IsTyped find G ((l, row) :: env))
    (hbare : "" ∉ l :: env.map Prod.fst) (hl : l ∉ env.map Prod.fst)
    (hnodes : ∀ x ∈ e.nodes, Binding.NodeOk Value.HasType db.catalog G n x)
    (hnested : ∀ q w, .projection q ∈ e.nodes →
      Returns (nested r (q.rewrite (Expr.outerRead (l :: env.map Prod.fst)))) w →
        db.scalar find ((l, row) :: env) (.projection q) = .ok w)
    (hm : Materializer.ofExpr l (e.rewrite (Expr.outerRead (env.map Prod.fst))) = .ok m)
    (hv : Returns (m.run (rowAccess nested r)) v) : db.scalar find ((l, row) :: env) e = .ok v := by
  induction e using Expr.children_induction generalizing m v with
  | step e ih =>
      obtain ⟨hnode, hbelow⟩ := Expr.forall_mem_nodes.mp hnodes
      have hchild : ∀ c ∈ e.children, ∀ m v,
          Materializer.ofExpr l (c.rewrite (Expr.outerRead (env.map Prod.fst))) = .ok m →
            Returns (m.run (rowAccess nested r)) v → db.scalar find ((l, row) :: env) c = .ok v :=
        fun c hc m v => ih c hc (hbelow c hc) fun q w hq =>
          hnested q w (Expr.mem_nodes_of_child hc hq)
      cases e with
      | column c =>
          have hread := hr.read henv hbare hnode
          by_cases hout : c.label ∈ env.map Prod.fst
          · have hne : l ≠ c.label := fun heq => hl (heq ▸ hout)
            have hw := hread (List.mem_cons_of_mem _ hout)
            rw [List.map_cons, List.idxOf_cons_ne _ hne] at hw
            rw [Expr.rewrite_some (Expr.outerRead_column hout)] at hm
            cases hm
            exact scalar_of_read hw hv
          · have hsame : (Expr.column c).rewrite (Expr.outerRead (env.map Prod.fst)) = .column c := by
              rw [Expr.rewrite_eq, Expr.outerRead_column_of_notMem hout]
              rfl
            rw [hsame, Materializer.ofExpr] at hm
            split at hm
            next hlabel =>
              cases hm
              subst hlabel
              have hw := hread List.mem_cons_self
              rw [List.map_cons, List.idxOf_cons_self] at hw
              exact scalar_of_read hw hv
            next => cases hm
      | projection q =>
          rw [Expr.rewrite_projection rfl] at hm
          cases hm
          rw [Materializer.run, Materializer.correlate_rewrite hl fun row hrow => hnodes _ hrow] at hv
          exact hnested q v (Expr.self_mem_nodes _) hv
      | constant w t =>
          cases hm
          rw [Materializer.run] at hv
          exact congrArg Except.ok hv.pure
      | member target name =>
          obtain ⟨m, hbuild, hmember⟩ := bind_eq_ok.mp hm
          cases hmember
          rw [Materializer.run] at hv
          obtain ⟨w, hw, hv⟩ := hv.bind
          rw [Database.scalar, hchild target (by simp [Expr.children]) m w hbuild hw]
          exact Materializer.takeMember_eq_ok.mp hv.lift
      | unary op operand =>
          obtain ⟨m, hbuild, hunary⟩ := bind_eq_ok.mp hm
          cases hunary
          rw [Materializer.run] at hv
          obtain ⟨w, hw, hv⟩ := hv.bind
          rw [Database.scalar, hchild operand (by simp [Expr.children]) m w hbuild hw]
          exact hv.lift
      | binary op left right =>
          obtain ⟨m, hbuild, hrest⟩ := bind_eq_ok.mp hm
          obtain ⟨m', hbuild', hbinary⟩ := bind_eq_ok.mp hrest
          cases hbinary
          rw [Materializer.run] at hv
          obtain ⟨x, hx, hv⟩ := hv.bind
          obtain ⟨y, hy, hv⟩ := hv.bind
          rw [Database.scalar, hchild left (by simp [Expr.children]) m x hbuild hx,
            hchild right (by simp [Expr.children]) m' y hbuild' hy]
          exact hv.lift
      | construct t ms =>
          rw [Expr.rewrite_construct rfl] at hm
          obtain ⟨mats, hmats, hrecord⟩ := bind_eq_ok.mp hm
          cases hrecord
          rw [Materializer.run] at hv
          obtain ⟨fs, hfs, hv⟩ := hv.bind
          have hfields := fields_of_runMembers
            (fun x hx => hchild x.2 (List.mem_map_of_mem hx)) hmats hfs
          rw [Database.scalar, hfields]
          exact congrArg Except.ok hv.pure
      | outerRow => cases hnode
      | _ => cases hm

end Executor

theorem Reader.StandsOn.snapshot {r : Reader} {env : Frame} {values : Row} (h : r.StandsOn env)
    (hvalues : r.snapshot = .ok values) :
    values :: r.outer = env.map fun x => x.2.map (·.2) := by
  cases env with
  | nil => cases h
  | cons x outer =>
      obtain ⟨⟨c, hcursor, hcurrent⟩, houter⟩ := h
      rw [houter, Reader.snapshot_of_current hcursor hcurrent hvalues]
      rfl

/-- A nested projection of a bound query, where rows are in sight. -/
structure Placed (db : Database) (find : Finder) (G : Nat → Signature) (n : Nat) (env : Frame)
    (q : Projection Expr) : Prop where
  typed : env.IsTyped find G
  bare : "" ∉ env.map Prod.fst
  nodes : ∀ x ∈ (Expr.projection q).nodes, Binding.NodeOk Value.HasType db.catalog G n x
  distinct : (Expr.projection q).labels.Nodup
  apart : List.Disjoint (Expr.projection q).labels (env.map Prod.fst)

namespace Placed

variable {db : Database} {find : Finder} {G : Nat → Signature} {n : Nat} {env : Frame}
variable {q : Projection Expr}

theorem select_nodes (h : Placed db find G n env q) :
    ∀ x ∈ (Expr.select q.source).nodes, Binding.NodeOk Value.HasType db.catalog G n x := by
  obtain ⟨hnode, hsource, -⟩ := Binding.forall_mem_nodes_projection.mp h.nodes
  exact Expr.forall_mem_nodes.mpr ⟨hnode.1, hsource⟩

theorem projector_nodes (h : Placed db find G n env q) :
    ∀ x ∈ q.projector.nodes, Binding.NodeOk Value.HasType db.catalog G n x :=
  (Binding.forall_mem_nodes_projection.mp h.nodes).2.2

theorem labels_eq : (Expr.projection q).labels =
    (Expr.select q.source).labels ++ q.projector.labels := by
  rw [Expr.labels_eq, Expr.labels_eq (.select q.source)]
  simp [Expr.label?, Expr.children, Projection.children]

theorem select_apart (h : Placed db find G n env q) :
    List.Disjoint (Expr.select q.source).labels (env.map Prod.fst) := by
  have hapart := h.apart
  rw [labels_eq, List.disjoint_append_left] at hapart
  exact hapart.1

theorem label_ne_empty (h : Placed db find G n env q) : q.source.label ≠ "" := by
  obtain ⟨i, -, hlabel, -⟩ := (h.nodes _ (Expr.self_mem_nodes _)).1.known
  exact hlabel ▸ Binding.label_ne_empty i

theorem bare_inside (h : Placed db find G n env q) : "" ∉ q.source.label :: env.map Prod.fst := by
  rw [List.mem_cons, not_or]
  exact ⟨h.label_ne_empty.symm, h.bare⟩

theorem label_mem : q.source.label ∈ (Expr.select q.source).labels := Expr.label_mem_labels rfl

/-- A projection inside the projector stands where a row of the source is in sight, too. -/
theorem inside (h : Placed db find G n env q) {row : Record} {q' : Projection Expr}
    (hrow : Frame.IsTyped find G [(q.source.label, row)]) (hq' : .projection q' ∈ q.projector.nodes) :
    Placed db find G n ((q.source.label, row) :: env) q' := by
  have hdistinct := h.distinct
  have hapart := h.apart
  rw [labels_eq, List.nodup_append'] at hdistinct
  rw [labels_eq, List.disjoint_append_left] at hapart
  have hsub := Expr.labels_sublist hq'
  constructor
  · exact hrow.append h.typed
  · exact h.bare_inside
  · exact fun x hx => h.projector_nodes x (Expr.mem_nodes_trans hq' hx)
  · exact hsub.nodup hdistinct.2.1
  · rw [List.map_cons, List.disjoint_cons_right]
    exact ⟨fun hl => hdistinct.2.2 label_mem (hsub.subset hl),
      List.disjoint_of_subset_left hsub.subset hapart.2⟩

end Placed

namespace Executor

variable {σ : Type} {X : Executor σ} {nested : Nested σ} {r : Reader}
variable {db : Database} {find : Finder} {G : Nat → Signature} {n : Nat} {env : Frame}
variable {q : Projection Expr}

/-- Whatever rows are in sight, a nested projection is run to the values that it has there. -/
def Faithful (nested : Nested σ) (db : Database) (find : Finder) (G : Nat → Signature) (n : Nat) :
    Prop :=
  ∀ env q r v, r.StandsOn env → Placed db find G n env q →
    Returns (nested r (q.rewrite (Expr.outerRead (env.map Prod.fst)))) v →
      db.scalar find env (.projection q) = .ok v

/-- The reader that a projection is started with. -/
def readerOf (rows : List Record) (m : Materializer) (env : Frame) : Reader :=
  ⟨some (.ofRows (rows.map fun row => row.map (·.2))), m, env.map fun x => x.2.map (·.2)⟩

theorem values_of_collect {rows : List Record} {m : Materializer} {vs : List Value} {s s' : σ}
    (hdb : db.IsTyped) (hfind : find.Suits db.catalog) (hnested : Faithful nested db find G n)
    (hq : Placed db find G n env q) (hrows : db.selectRows find env q.source = .ok rows)
    (hm : Materializer.ofExpr q.source.label
      (q.projector.rewrite (Expr.outerRead (env.map Prod.fst))) = .ok m)
    (h : (X.collectWith nested .ok (readerOf rows m env).stepsLeft (readerOf rows m env)).run s =
      (.ok vs, s')) : db.values find env q = .ok vs := by
  have htyped := Database.selectRows_typed hdb hfind hq.select_nodes hq.typed hrows
  have hreads := collectWith_run rfl (Nat.lt_succ_self _) h
  have hreads : List.Forall₂ (fun row v => db.scalar find ((q.source.label, row) :: env) q.projector =
      .ok v) rows vs := by
    refine ((List.forall₂_and_left _ _).mpr
      ⟨htyped, List.forall₂_map_left_iff.mp hreads⟩).imp ?_
    rintro row v ⟨hrow, c, hc, hv⟩
    have hstands : Reader.StandsOn { readerOf rows m env with cursor := some c }
      ((q.source.label, row) :: env) := ⟨⟨c, rfl, hc⟩, rfl⟩
    exact scalar_of_run hstands (hrow.append hq.typed) hq.bare_inside
      (hq.select_apart Placed.label_mem) hq.projector_nodes
      (fun q' w hq' hw => hnested _ q' _ w hstands (hq.inside hrow hq') hw) hm hv
  obtain ⟨source, projector, shape⟩ := q
  simp only [Database.values, hrows]
  exact mapM_eq_ok.mpr hreads

/-- The executor answers a bound query with the rows of its select, once this can be written as
text. -/
def Answers (X : Executor σ) (db : Database) (find : Finder) (settings : Settings) : Prop :=
  ∀ p outer r, Returns (X.start p outer) r → ∃ text m rows,
    Sql.format (.ofSettings settings) (.select p.source) = .ok text ∧ Materializer.build p = .ok m ∧
      db.selectRows find [] p.source = .ok rows ∧
        r = ⟨some (.ofRows (rows.map fun row => row.map (·.2))), m, outer⟩

/-- Answers bound queries from a database. -/
def ofDatabase (db : Database) (find : Finder) (settings : Settings) : Executor Unit where
  start p outer := do
    let _ ← Sql.format (.ofSettings settings) (.select p.source)
    let m ← Materializer.build p
    let rows ← db.selectRows find [] p.source
    return ⟨some (.ofRows (rows.map fun row => row.map (·.2))), m, outer⟩
  beforeRead := pure ()
  release := id

theorem ofDatabase_answers (db : Database) (find : Finder) (settings : Settings) :
    (ofDatabase db find settings).Answers db find settings := by
  intro p outer r h
  obtain ⟨text, htext, h⟩ := h.bind
  obtain ⟨m, hm, h⟩ := h.bind
  obtain ⟨rows, hrows, h⟩ := h.bind
  exact ⟨text, m, rows, htext.lift, hm.lift, hrows.lift, h.pure.symm⟩

variable {settings : Settings}

/-- However deep projections are nested, each is run to the values that it has in sight of the rows
around it. -/
theorem nestedTo_faithful (hX : X.Answers db find settings) (hdb : db.IsTyped)
    (hfind : find.Suits db.catalog) (depth : Nat) : Faithful (X.nestedTo depth) db find G n := by
  induction depth with
  | zero => exact fun env q r v _ _ hv => hv.throw.elim
  | succ depth ih =>
      intro env q r v hr hq hv
      rw [nestedTo, Expr.projection_rewrite] at hv
      obtain ⟨source, hsource, hv⟩ := hv.bind
      obtain ⟨current, hcurrent, hv⟩ := hv.bind
      obtain ⟨inner, hinner, hv⟩ := hv.bind
      obtain ⟨vs, ⟨s, s', hvs⟩, hresult⟩ := hv.bind
      obtain ⟨text, m, rows, htext, hm, hrows, rfl⟩ := hX _ _ _ hinner
      obtain ⟨hlabel, hsame⟩ : source.label = q.source.label ∧
          db.selectRows find [] source = db.selectRows find env q.source :=
        Database.specialize_rows rfl hr hq.typed hq.bare hq.select_nodes hq.select_apart
          hsource.lift htext
      rw [hr.snapshot hcurrent.lift] at hvs
      rw [Materializer.build, hlabel] at hm
      have hvalues := values_of_collect hdb hfind ih hq (hsame ▸ hrows) hm hvs
      rw [Database.scalar, hvalues]
      exact congrArg Except.ok hresult.pure

/-- Reads all values of a bound query. -/
def read (X : Executor σ) (p : Projection Expr) : Action σ (List Value) := do
  let r ← X.start p []
  ExceptT.mk (X.collect .ok r)

/-- What is read are the values of the query. -/
theorem values_of_read {p : Projection Expr} {vs : List Value} (hX : X.Answers db find settings)
    (hdb : db.IsTyped) (hfind : find.Suits db.catalog) (hp : Placed db find G n [] p)
    (h : Returns (X.read p) vs) : db.values find [] p = .ok vs := by
  obtain ⟨r, hr, h⟩ := h.bind
  obtain ⟨s, s', h⟩ := h
  obtain ⟨text, m, rows, -, hm, hrows, rfl⟩ := hX _ _ _ hr
  refine values_of_collect hdb hfind (nestedTo_faithful hX hdb hfind _) hp hrows ?_ h
  rw [List.map_nil, Expr.rewrite_of_none fun x _ => Expr.outerRead_nil x]
  exact hm

/-- Reading a bound query gives the values that it has where each nested projection is evaluated in
place, with every enclosing row in sight under its label. -/
theorem read_faithful {style : IdentifierCase} {e : Expr} {p : Projection Expr} {vs : List Value}
    (hX : X.Answers db find settings) (hdb : db.IsTyped) (hfind : find.Suits db.catalog)
    (hclosed : e.isClosed []) (hconstants : Binding.ConstantsMeet Value.HasType e)
    (hbind : Binding.bind db.catalog style e = .ok p) (hlabels : (Expr.projection p).labels.Nodup)
    (h : Returns (X.read p) vs) : db.values find [] p = .ok vs := by
  obtain ⟨m, hbinds⟩ := Binding.binds_of_bind hclosed hbind
  have hnone : ∀ x ∈ ([] : List (Nat × Expr)), Binding.Resolved Value.HasType db.catalog (fun _ => []) 0
      false [] x.2 := fun _ hx => nomatch hx
  obtain ⟨G, -, hresolved⟩ := hbinds.resolved (fun v => .inr rfl) hconstants hnone
  have hp : Placed db find G m [] p := ⟨.nil, by simp, hresolved.nodes, hlabels, by simp⟩
  exact values_of_read hX hdb hfind hp h

/-- Each owner with the owner's items, and each of these with the items that come after it. An
innermost value is the sum of the ids of all three rows. -/
def itemsInOrder : Expr :=
  let owner : Parameter := ⟨0, "o", .entity "Owner"⟩
  let item : Parameter := ⟨1, "i", .entity "Item"⟩
  let later : Parameter := ⟨2, "j", .entity "Item"⟩
  let ofOwner (x : Parameter) : Expr :=
    .binary (.comparison .eq) (.member (.parameter x) "Owner") (.member (.parameter owner) "Id")
  let after : Expr := .binary (.comparison .gt) (.member (.parameter later) "Id")
    (.member (.parameter item) "Id")
  let following : Expr := .call .select none [.call .filter none [.collection "Item", .lambda [later]
      (.binary (.logical .and) (ofOwner later) after)],
    .lambda [later] (.binary (.arithmetic .add) (.member (.parameter later) "Id")
      (.binary (.arithmetic .add) (.member (.parameter item) "Id") (.member (.parameter owner) "Id")))]
  let items : Expr := .call .select none [.call .filter none [.collection "Item", .lambda [item]
      (ofOwner item)],
    .lambda [item] (.construct .null [("Id", .member (.parameter item) "Id"),
      ("Later", .call .toList none [following])])]
  .call .select none [.collection "Owner", .lambda [owner] (.construct .null
    [("Name", .member (.parameter owner) "Name"), ("Items", .call .toList none [items])])]

theorem read_faithful_of_itemsInOrder :
    let item (id : Int32) (later : List Int32) : Value :=
      .record [("Id", .int32 id), ("Later", .list (later.map .int32))]
    let owners : List Value :=
      [.record [("Name", .text "Ada"), ("Items", .list [item 10 [41], item 30 []])],
        .record [("Name", .text "Bo"), ("Items", .list [item 20 []])]]
    ∃ p, Binding.bind Binding.owned.catalog .preserve itemsInOrder = .ok p ∧
      Binding.owned.values .byName [] p = .ok owners ∧
        Binding.owned.values .byOrdinal [] p = .ok owners := by
  intro item owners
  have hclosed : itemsInOrder.isClosed [] := by decide
  have hdb : Binding.owned.IsTyped := by decide
  have hconstants : Binding.ConstantsMeet Value.HasType itemsInOrder := by decide
  obtain ⟨p, hp, hlabels, hnames, hordinals⟩ : ∃ p,
      Binding.bind Binding.owned.catalog .preserve itemsInOrder = .ok p ∧
        (Expr.projection p).labels.Nodup ∧
          Returns ((ofDatabase Binding.owned .byName { identifierCase := .preserve }).read p) owners ∧
            Returns ((ofDatabase Binding.owned .byOrdinal { identifierCase := .preserve }).read p)
              owners :=
    ⟨_, by cbv, by decide, ⟨(), (), by cbv⟩, (), (), by cbv⟩
  refine ⟨p, hp, ?_, ?_⟩
  · exact read_faithful (ofDatabase_answers Binding.owned .byName { identifierCase := .preserve }) hdb
      (Finder.byName_suits (by decide)) hclosed hconstants hp hlabels hnames
  · exact read_faithful (ofDatabase_answers Binding.owned .byOrdinal { identifierCase := .preserve })
      hdb (Finder.byOrdinal_suits _) hclosed hconstants hp hlabels hordinals

end Executor

end Quarry
