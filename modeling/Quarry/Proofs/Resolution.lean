import Quarry.Proofs.Invariants
import Quarry.Proofs.Typing
/-!
Every column of a bound tree resolves. Each label that the binder gives out stands for a table or a
select with a fixed list of column names and types, which no later step of the binding changes.
-/
namespace Quarry

/-- No table has two members of one name. -/
def Catalog.isDistinct (catalog : Catalog) : Bool :=
  catalog.tables.all fun t => decide ((t.members.map Member.name).Nodup)

namespace Binding

/-- What the columns of a select are declared by. -/
def isOutput : Expr → Bool
  | .column c => decide (c.label ≠ "")
  | .function _ | .subquery .. => true
  | _ => false

variable (K : Value → DataType → Prop) (catalog : Catalog)

/-- The select has one of the first `n` labels, and its columns are those of the label. -/
structure KnownSelect (G : Nat → Signature) (n : Nat) (s : Select Expr) : Prop where
  known : ∃ i < n, s.label = label i ∧ s.signature = G i
  outputs : ∀ column ∈ s.columns, isOutput column.2
  names : catalog.isDistinct → (s.columns.map (·.1)).Nodup

/-- The column is one of an existence test, or one of the label that it names. -/
def KnownColumn (G : Nat → Signature) (n : Nat) (c : Column) : Prop :=
  c.label = "" ∨ ∃ i < n, c.label = label i ∧ (G i)[c.ordinal]? = some (c.name, c.type)

def KnownTable (G : Nat → Signature) (n : Nat) (t : TableRef) : Prop :=
  ∃ i < n, t.label = label i ∧ ∃ table, catalog.table t.entity = .ok table ∧ G i = table.signature

/-- What the nodes of a bound tree look like, where the first `n` labels stand for the signatures
`G` and the constants meet `K`. -/
def NodeOk (G : Nat → Signature) (n : Nat) : Expr → Prop
  | .constant v t => K v t
  | .column c => KnownColumn G n c
  | .member target _ => isConstruct target = false
  | .unary .. | .binary .. | .construct .. => True
  | .table t => KnownTable catalog G n t
  | .select s => KnownSelect catalog G n s
  | .join kind _ _ condition => kind = .inner ∧ condition.isSome
  | .projection p => KnownSelect catalog G n p.source ∧ p.projector.isValue
  | .function f => f.method = .charAt ∧ f.function = .substr ∧ f.receiver.isSome ∧
      f.args.length = 2 ∧ f.type = .char
  | .subquery f _ => f.receiver = none ∧ f.args.length = 1 ∧ f.type = .boolean
  | .captured .. | .parameter _ | .collection _ | .call .. | .lambda .. | .outerRow _ => False

variable {K catalog} {G G' G'' : Nat → Signature} {n m k : Nat}

theorem KnownSelect.extend {s : Select Expr} (h : KnownSelect catalog G n s)
    (hx : Extends G n G' m) : KnownSelect catalog G' m s := by
  obtain ⟨⟨i, hi, hl, hs⟩, houtputs, hnames⟩ := h
  exact ⟨⟨i, hi.trans_le hx.le, hl, hs.trans (hx.agrees i hi).symm⟩, houtputs, hnames⟩

theorem NodeOk.extend {e : Expr} (h : NodeOk K catalog G n e) (hx : Extends G n G' m) :
    NodeOk K catalog G' m e := by
  cases e with
  | column c =>
      rcases h with h | ⟨i, hi, hl, hc⟩
      · exact .inl h
      · exact .inr ⟨i, hi.trans_le hx.le, hl, (hx.agrees i hi).symm ▸ hc⟩
  | table t =>
      obtain ⟨i, hi, hl, table, htable, hs⟩ := h
      exact ⟨i, hi.trans_le hx.le, hl, table, htable, (hx.agrees i hi).trans hs⟩
  | select s => exact KnownSelect.extend h hx
  | projection p => exact ⟨h.1.extend hx, h.2⟩
  | _ => exact h

/-! Moves -/

section Moves

variable {sources : List String} {columns : List (String × Expr)} {e e' : Expr} {nested : Bool}

theorem Moved.isOutput (h : Moved (label n) sources columns e nested e') (he : isOutput e) :
    isOutput e' := by
  induction h using Moved.induction with
  | taken e nested e' ht h =>
      obtain ⟨i, name, -, rfl⟩ := h
      simpa [Binding.isOutput] using label_ne_empty n
  | kept e nested e' ht _ h =>
      cases h with
      | leaf => exact he
      | function | subquery => rfl
      | _ => cases he

theorem signature_congr {R : Expr → Expr → Prop} {s t : Select Expr} (h : s.Alike R t)
    (hR : ∀ c c', R c c' → c'.staticType? = c.staticType?) : t.signature = s.signature := by
  have hcolumns : List.Forall₂ (fun a b => (b.1, b.2.staticType?.getD DataType.null) =
      (a.1, a.2.staticType?.getD DataType.null)) s.columns t.columns :=
    h.columns.imp fun a b hab => by rw [hab.1, hR _ _ hab.2]
  rw [Select.signature, Select.signature, ← List.forall₂_eq_eq_eq, List.forall₂_map_left_iff,
    List.forall₂_map_right_iff]
  exact hcolumns.flip

/-- A moved select has the columns it had. -/
theorem KnownSelect.moved {R : Expr → Expr → Prop} {s t : Select Expr}
    (h : KnownSelect catalog G m s) (hst : s.Alike R t)
    (hR : ∀ c c', R c c' → Moved (label n) sources columns c nested c') :
    KnownSelect catalog G m t := by
  obtain ⟨⟨i, hi, hl, hs⟩, houtputs, hnames⟩ := h
  have hfst : t.columns.map (·.1) = s.columns.map (·.1) := by
    rw [← List.forall₂_eq_eq_eq, List.forall₂_map_left_iff, List.forall₂_map_right_iff]
    exact (hst.columns.imp fun _ _ hab => hab.1.symm).flip
  refine ⟨⟨i, hi, hst.label ▸ hl, ?_⟩, ?_, fun hd => hfst ▸ hnames hd⟩
  · rw [signature_congr hst fun c c' hc => (hR c c' hc).staticType_eq, hs]
  · intro column hcolumn
    obtain ⟨column', hcolumn', -, hmoved⟩ := exists_of_mem_right hst.columns hcolumn
    exact (hR _ _ hmoved).isOutput (houtputs column' hcolumn')

theorem isSome_of_rel {R : Expr → Expr → Prop} {a b : Option Expr} (h : Option.Rel R a b) :
    b.isSome = a.isSome := by
  cases h <;> rfl

theorem NodeOk.moved {R : Expr → Expr → Prop} (h : NodeOk K catalog G n e) (hee : Expr.Alike R e e')
    (hR : ∀ c c', R c c' → Moved (label n) sources columns c nested c')
    (hx : Extends G n G' (n + 1)) : NodeOk K catalog G' (n + 1) e' := by
  cases hee with
  | leaf => exact h.extend hx
  | member name hc => exact (hR _ _ hc).isConstruct_eq.trans h
  | unary | binary | construct => trivial
  | call | lambda => cases h
  | select hs => exact (KnownSelect.moved h hs hR).extend hx
  | projection shape hs hp =>
      exact ⟨(h.1.moved hs hR).extend hx, (hR _ _ hp).isValue h.2⟩
  | join kind hl hr hc => exact ⟨h.1, (isSome_of_rel hc).trans h.2⟩
  | function hf =>
      obtain ⟨hmethod, hfunction, hreceiver, hargs, htype⟩ := h
      exact ⟨hf.method ▸ hmethod, hf.function ▸ hfunction, (isSome_of_rel hf.receiver).trans hreceiver,
        hf.args.length_eq ▸ hargs, hf.type ▸ htype⟩
  | subquery sql hf =>
      obtain ⟨hreceiver, hargs, htype⟩ := h
      have hnone := isSome_of_rel hf.receiver
      rw [hreceiver, Option.isSome_none, Option.isSome_eq_false_iff, Option.isNone_iff_eq_none] at hnone
      exact ⟨hnone, hf.args.length_eq ▸ hargs, hf.type ▸ htype⟩

theorem Moved.nodes_ok (h : Moved (label n) sources columns e nested e')
    (hx : Extends G n G' (n + 1))
    (hsig : G' n = columns.map fun column => (column.1, column.2.staticType?.getD .null))
    (he : ∀ x ∈ e.nodes, NodeOk K catalog G n x) :
    ∀ x ∈ e'.nodes, NodeOk K catalog G' (n + 1) x := by
  rw [← Expr.everywhere_true] at he ⊢
  refine h.everywhere (I := fun _ _ => True) he trivial (fun _ _ _ _ _ => trivial) ?_ ?_
  · rintro e _ ⟨i, name, hi, rfl⟩
    refine .inr ⟨n, Nat.lt_succ_self n, rfl, ?_⟩
    rw [hsig, List.getElem?_map, hi]
    rfl
  · intro nested e e' _ _ hnode halike
    exact hnode.moved halike (fun _ _ hc => hc) hx

end Moves

/-! Derivations -/

/-- A value of the bound tree whose columns resolve where the labels in `visible` can be seen. -/
structure Resolved (K : Value → DataType → Prop) (catalog : Catalog) (G : Nat → Signature) (n : Nat)
    (bare : Bool) (visible : List String) (e : Expr) : Prop where
  isValue : e.isValue
  isScoped : e.isScoped bare visible
  nodes : ∀ x ∈ e.nodes, NodeOk K catalog G n x

section Derivations

variable {bare bare' : Bool} {visible visible' : List String} {e : Expr}

theorem Resolved.mono (h : Resolved K catalog G n bare visible e) (hb : bare → bare')
    (hv : visible ⊆ visible') : Resolved K catalog G n bare' visible' e :=
  ⟨h.isValue, Expr.isScoped_mono hb hv h.isScoped, h.nodes⟩

theorem Resolved.extend (h : Resolved K catalog G n bare visible e) (hx : Extends G n G' m) :
    Resolved K catalog G' m bare visible e :=
  ⟨h.isValue, h.isScoped, fun x hmem => (h.nodes x hmem).extend hx⟩

/-- A node that opens no scope resolves if its children do. -/
theorem resolved_of_children (hs : e.isSource = false)
    (hextras : e.extras = e.children.map fun _ => []) (hx : e.isExistenceTest = false)
    (hv : e.isVisible bare visible) (hnode : NodeOk K catalog G n e)
    (h : ∀ c ∈ e.children, Resolved K catalog G n bare visible c) :
    Resolved K catalog G n bare visible e where
  isValue := Expr.isValue_iff.mpr ⟨hs, .inr fun c hc => (h c hc).isValue⟩
  isScoped := Expr.isScoped_of_children hv hextras hx fun c hc => (h c hc).isScoped
  nodes := Expr.forall_mem_nodes.mpr ⟨hnode, fun c hc => (h c hc).nodes⟩

/-- The projector of a query that resolves sees the query's own select. -/
theorem Resolved.projector {p : Projection Expr}
    (h : Resolved K catalog G n bare visible (.projection p)) :
    Resolved K catalog G n bare (visible ++ [p.source.label]) p.projector := by
  obtain ⟨hnode, -, hprojector⟩ := forall_mem_nodes_projection.mp h.nodes
  exact ⟨hnode.2, (Expr.isScoped_projection.mp h.isScoped).2, hprojector⟩

/-- The source of a query that resolves, as the source of another select. -/
theorem Resolved.source {p : Projection Expr}
    (h : Resolved K catalog G n bare visible (.projection p)) :
    (Expr.select p.source).isScoped bare visible ∧
      ∀ x ∈ (Expr.select p.source).nodes, NodeOk K catalog G n x := by
  obtain ⟨hnode, hsource, -⟩ := forall_mem_nodes_projection.mp h.nodes
  exact ⟨(Expr.isScoped_projection.mp h.isScoped).1,
    Expr.forall_mem_nodes.mpr ⟨hnode.1, hsource⟩⟩

theorem Resolved.label_ne_empty {p : Projection Expr}
    (h : Resolved K catalog G n bare visible (.projection p)) : p.source.label ≠ "" := by
  obtain ⟨⟨⟨i, -, hl, -⟩, -, -⟩, -⟩ := h.nodes _ (Expr.self_mem_nodes _)
  exact hl ▸ Binding.label_ne_empty i

/-- How a query's result is shaped does not matter. -/
theorem Resolved.reshape {p : Projection Expr} (shape : Shape)
    (h : Resolved K catalog G n bare visible (.projection p)) :
    Resolved K catalog G n bare visible (.projection { p with shape }) := by
  have hscoped := Expr.isScoped_projection.mp h.isScoped
  have hnodes := forall_mem_nodes_projection.mp h.nodes
  exact ⟨Expr.isValue_iff.mpr ⟨rfl, .inl rfl⟩, Expr.isScoped_projection.mpr hscoped,
    forall_mem_nodes_projection.mpr hnodes⟩

section Projection

variable {projector source : Expr} {filter : Option Expr} {sources : List String}

/-- The select that a projector is moved into. -/
theorem projection_isScoped (hp : Resolved K catalog G m bare (visible ++ sources) projector)
    (hs : source.isScoped bare visible) (hoffered : source.offered = sources) (hempty : "" ∉ sources)
    (hf : ∀ f ∈ filter, Resolved K catalog G m bare (visible ++ sources) f) :
    (Expr.projection (projection projector m sources source filter)).isScoped bare visible := by
  have hproj := projectColumns_projected projector (label m) sources
  refine Expr.isScoped_projection.mpr ⟨Expr.isScoped_select.mpr ⟨?_, hs, ?_⟩, ?_⟩
  · intro column hcolumn
    show column.2.isScoped bare (visible ++ source.offered)
    rw [hoffered]
    have htaken := hproj.taken column hcolumn
    rcases taken_cases htaken with ⟨c, hc, hl⟩ | ⟨hcomputed, -⟩
    · have hne : c.label ≠ "" := fun h => hempty (h ▸ hl)
      rw [hc, Expr.isScoped_column, if_neg hne]
      exact List.mem_append_right _ hl
    · exact isScoped_of_taken htaken hcomputed hp.isValue hp.isScoped
  · intro f hmem
    show f.isScoped bare (visible ++ source.offered)
    rw [hoffered]
    exact (hf f hmem).isScoped
  · refine hproj.moved.isScoped (Binding.label_ne_empty m)
      (List.mem_append_right _ (List.mem_singleton_self _)) (fun l hl => ?_) hp.isScoped
    rcases List.mem_append.mp hl with hl | hl
    · exact .inr (List.mem_append_left _ hl)
    · exact .inl hl

theorem projection_knownSelect (hempty : "" ∉ sources)
    (hsig : G' m = (projection projector m sources source filter).source.signature) :
    KnownSelect catalog G' (m + 1) (projection projector m sources source filter).source := by
  have hproj := projectColumns_projected projector (label m) sources
  refine ⟨⟨m, Nat.lt_succ_self m, rfl, hsig.symm⟩, fun column hcolumn => ?_, fun _ => hproj.names⟩
  rcases taken_cases (hproj.taken column hcolumn) with ⟨c, hc, hl⟩ | ⟨hcomputed, -⟩
  · have hne : c.label ≠ "" := fun h => hempty (h ▸ hl)
    simpa [hc, isOutput] using hne
  · cases hcolumn' : column.2 <;> simp_all [isComputed, isOutput]

theorem projection_resolved (hp : Resolved K catalog G m bare (visible ++ sources) projector)
    (hs : source.isScoped bare visible) (hnodes : ∀ x ∈ source.nodes, NodeOk K catalog G m x)
    (hoffered : source.offered = sources) (hempty : "" ∉ sources)
    (hf : ∀ f ∈ filter, Resolved K catalog G m bare (visible ++ sources) f)
    (hx : Extends G m G' (m + 1))
    (hsig : G' m = (projection projector m sources source filter).source.signature) :
    Resolved K catalog G' (m + 1) bare visible
      (.projection (projection projector m sources source filter)) := by
  have hproj := projectColumns_projected projector (label m) sources
  have hnode : NodeOk K catalog G' (m + 1)
      (.projection (projection projector m sources source filter)) :=
    ⟨projection_knownSelect hempty hsig, hproj.moved.isValue hp.isValue⟩
  refine ⟨Expr.isValue_iff.mpr ⟨rfl, .inl rfl⟩, projection_isScoped hp hs hoffered hempty hf, ?_⟩
  refine Expr.everywhere_true.mp (everywhere_projection hnode (Expr.everywhere_true.mpr hp.nodes)
    (Expr.everywhere_true.mpr hnodes) (fun f hmem => Expr.everywhere_true.mpr (hf f hmem).nodes)
    (Expr.everywhere_true.mpr (hproj.moved.nodes_ok hx hsig hp.nodes)) (by simp) ?_)
  exact fun _ h => h.extend hx

end Projection

/-! One lemma for each form that a derivation ends in -/

theorem Resolved.child {c : Expr} (h : Resolved K catalog G n bare visible e)
    (hp : isProjection e = false) (hx : e.isExistenceTest = false) (hc : c ∈ e.children) :
    Resolved K catalog G n bare visible c where
  isValue := Expr.isValue_child h.isValue hp hc
  isScoped := Expr.isScoped_child h.isScoped hc (Expr.extras_of_isValue h.isValue hp) hx
  nodes := (Expr.forall_mem_nodes.mp h.nodes).2 c hc

theorem resolved_constant {v : Value} {t : DataType} (h : K v t) :
    Resolved K catalog G n bare visible (.constant v t) :=
  resolved_of_children rfl rfl rfl rfl h fun _ hc => nomatch hc

theorem resolved_binary {op : BinaryOperator} {l r : Expr}
    (hl : Resolved K catalog G n bare visible l) (hr : Resolved K catalog G n bare visible r) :
    Resolved K catalog G n bare visible (.binary op l r) :=
  resolved_of_children rfl rfl rfl rfl trivial (by simp [Expr.children, hl, hr])

theorem resolved_construct {t : DataType} {ms : List (String × Expr)}
    (h : ∀ x ∈ ms, Resolved K catalog G n bare visible x.2) :
    Resolved K catalog G n bare visible (.construct t ms) := by
  refine resolved_of_children rfl rfl rfl rfl trivial fun c hc => ?_
  obtain ⟨x, hx, rfl⟩ := List.mem_map.mp hc
  exact h x hx

theorem resolved_existence {method : Method} {function : Function} {sql : String}
    (h : Resolved K catalog G n true visible e) :
    Resolved K catalog G n bare visible
      (.subquery ⟨method, function, none, [e], .boolean⟩ sql) where
  isValue := Expr.isValue_iff.mpr ⟨rfl, .inr fun c hc => List.mem_singleton.mp hc ▸ h.isValue⟩
  isScoped := by
    refine Expr.isScoped_iff.mpr ⟨rfl, .cons ?_ .nil⟩
    rw [Expr.isExistenceTest, Bool.or_true, List.append_nil]
    exact h.isScoped
  nodes := Expr.forall_mem_nodes.mpr
    ⟨⟨rfl, rfl, rfl⟩, fun c hc => List.mem_singleton.mp hc ▸ h.nodes⟩

theorem resolved_tableColumns {t : Table} {l : String}
    (hl : if l = "" then bare = true else l ∈ visible)
    (hknown : l = "" ∨ ∃ i < n, l = label i ∧ G i = t.signature) :
    ∀ x ∈ tableColumns t l, Resolved K catalog G n bare visible x.2 := by
  intro x hx
  obtain ⟨i, m, hm, rfl⟩ := mem_tableColumns hx
  refine ⟨rfl, Expr.isScoped_column.mpr hl, Expr.forall_mem_nodes.mpr ⟨?_, fun _ hc => nomatch hc⟩⟩
  refine hknown.imp_right ?_
  rintro ⟨k, hk, hlabel, hG⟩
  refine ⟨k, hk, hlabel, ?_⟩
  rw [hG, Table.signature, List.getElem?_map, hm]
  rfl

theorem signature_tableColumns (t : Table) (l : String) :
    (tableColumns t l).map (fun column => (column.1, column.2.staticType?.getD .null)) =
      t.signature := by
  apply List.ext_getElem?
  intro i
  rw [List.getElem?_map, getElem?_tableColumns, Table.signature, List.getElem?_map, Option.map_map]
  rfl

theorem map_fst_tableColumns (t : Table) (l : String) :
    (tableColumns t l).map (·.1) = t.members.map Member.name := by
  have hnames := congrArg (List.map Prod.fst) (signature_tableColumns t l)
  simpa only [List.map_map, Table.signature, Function.comp_def] using hnames

theorem table_mem {entity : String} {t : Table} (h : catalog.table entity = .ok t) :
    t ∈ catalog.tables ∧ t.entity = entity := by
  simp only [Catalog.table, Catalog.find?] at h
  split at h
  next hfind =>
    obtain rfl := Except.ok.inj h
    exact ⟨List.mem_of_find?_eq_some hfind, by simpa using List.find?_some hfind⟩
  next => cases h

theorem tableProjection_resolved {entity : String} {t : Table} (h : catalog.table entity = .ok t)
    (hinner : G n = t.signature) (houter : G (n + 1) = t.signature) :
    Resolved K catalog G (n + 2) bare visible (.projection (tableProjection t n)) := by
  obtain ⟨hmem, hentity⟩ := table_mem h
  have hcolumns : ∀ x ∈ tableColumns t (label n),
      Resolved K catalog G (n + 2) bare (visible ++ [label n]) x.2 :=
    resolved_tableColumns (by rw [if_neg (Binding.label_ne_empty n)]; simp)
      (.inr ⟨n, by omega, rfl, hinner⟩)
  have hprojector : Resolved K catalog G (n + 2) bare (visible ++ [label (n + 1)])
      (tableProjection t n).projector :=
    resolved_construct (resolved_tableColumns
      (by rw [if_neg (Binding.label_ne_empty (n + 1))]; simp) (.inr ⟨n + 1, by omega, rfl, houter⟩))
  have hselect : KnownSelect catalog G (n + 2) (tableProjection t n).source := by
    refine ⟨⟨n + 1, by omega, rfl, ?_⟩, fun column hcolumn => ?_, fun hd => ?_⟩
    · exact (signature_tableColumns t (label n)).trans houter.symm
    · obtain ⟨i, m, -, rfl⟩ := mem_tableColumns hcolumn
      simpa [isOutput] using Binding.label_ne_empty n
    · show ((tableColumns t (label n)).map (·.1)).Nodup
      rw [map_fst_tableColumns]
      simpa using List.all_eq_true.mp hd t hmem
  refine ⟨Expr.isValue_iff.mpr ⟨rfl, .inl rfl⟩, ?_, ?_⟩
  · refine Expr.isScoped_projection.mpr ⟨Expr.isScoped_select.mpr ⟨?_, ?_, ?_⟩, hprojector.isScoped⟩
    · exact fun column hcolumn => (hcolumns column hcolumn).isScoped
    · exact Expr.isScoped_of_children rfl rfl rfl (List.forall_mem_nil _)
    · exact fun _ hf => nomatch hf
  · refine Expr.everywhere_true.mp (everywhere_tableProjection ⟨hselect, hprojector.isValue⟩
      ⟨n, by omega, rfl, t, hentity ▸ h, hinner⟩ trivial fun k hk hlt i m hm => ?_)
    have hG : G k = t.signature := by
      obtain rfl | rfl : k = n ∨ k = n + 1 := by omega
      · exact hinner
      · exact houter
    refine .inr ⟨k, hlt, rfl, ?_⟩
    rw [hG, Table.signature, List.getElem?_map, hm]
    rfl

/-- All constants of the expression meet `K`. -/
def ConstantsMeet (K : Value → DataType → Prop) (e : Expr) : Prop :=
  ∀ v t, .constant v t ∈ e.nodes → K v t

def constant? : Expr → Option (Value × DataType)
  | .constant v t => some (v, t)
  | _ => none

theorem constantsMeet_iff :
    ConstantsMeet K e ↔ ∀ x ∈ e.nodes.filterMap constant?, K x.1 x.2 := by
  constructor
  · rintro h ⟨v, t⟩ hx
    obtain ⟨x, hx, hconstant⟩ := List.mem_filterMap.mp hx
    cases x with
    | constant => cases hconstant; exact h v t hx
    | _ => cases hconstant
  · exact fun h v t hv => h (v, t) (List.mem_filterMap.mpr ⟨_, hv, rfl⟩)

instance [∀ v t, Decidable (K v t)] : Decidable (ConstantsMeet K e) :=
  decidable_of_iff' _ constantsMeet_iff

/-- To resolve is an invariant of binding. -/
theorem resolved_invariant (hK : ∀ v, K v v.dataType) :
    Invariant catalog { node := fun x => ∀ c ∈ constant? x, K c.1 c.2 } fun w =>
      Resolved K catalog w.signatures w.labels w.bare w.visible where
  mono hle h := (h.extend hle.given).mono hle.bare hle.visible
  constant hfine := resolved_constant (hfine _ rfl)
  literal := resolved_constant (hK _)
  collection {w entity t} _ ht _ _ := by
    have hx := ((w.giving t.signature).le_giving t.signature).given
    refine tableProjection_resolved ht ?_ ((w.giving t.signature).giving_signature t.signature)
    exact (hx.agrees w.labels (Nat.lt_succ_self _)).trans (w.giving_signature t.signature)
  record hbare := resolved_construct (resolved_tableColumns (by simpa using hbare) (.inl rfl))
  member he h := resolved_of_children rfl rfl rfl rfl he fun _ hc => List.mem_singleton.mp hc ▸ h
  unary _ h := resolved_of_children rfl rfl rfl rfl trivial fun _ hc => List.mem_singleton.mp hc ▸ h
  binary := resolved_binary
  construct := ⟨fun h _ hx => h.child rfl rfl (List.mem_map_of_mem hx), resolved_construct⟩
  character hx hstart hone := resolved_of_children rfl rfl rfl rfl ⟨rfl, rfl, rfl, rfl, rfl⟩
    (by simp [Expr.children, FunctionCall.children, hx, hstart, hone])
  projector h := h.projector
  select {w _ p b f r} _ _ _ hp hb hf hr := by
    subst hr
    refine projection_resolved hb hp.source.1 hp.source.2 rfl ?_ hf (w.le_giving _).given
      (w.giving_signature _)
    exact fun hmem => hp.label_ne_empty (List.mem_singleton.mp hmem).symm
  join {w _ p q a b c r} _ _ _ _ hp hq ha hb hc hr := by
    subst hr
    have hcondition : Resolved K catalog w.signatures w.labels w.bare
        (w.visible ++ [p.source.label, q.source.label]) (.binary (.comparison .eq) a b) :=
      resolved_binary ha hb
    refine projection_resolved hc ?_ ?_ rfl ?_ (by simp) (w.le_giving _).given (w.giving_signature _)
    · refine Expr.isScoped_join.mpr ⟨hp.source.1, hq.source.1, fun c hmem => ?_⟩
      exact Option.some.inj hmem ▸ hcondition.isScoped
    · exact Expr.everywhere_true.mp (everywhere_joined ⟨rfl, rfl⟩
        (Expr.everywhere_true.mpr hp.source.2) (Expr.everywhere_true.mpr hq.source.2)
        (Expr.everywhere_true.mpr hcondition.nodes))
    · intro hmem
      rcases List.mem_pair.mp hmem with h | h
      · exact hp.label_ne_empty h.symm
      · exact hq.label_ne_empty h.symm
  list _ _ h := h.reshape .list
  existence _ _ h := resolved_existence h

/-- What is bound resolves where the parameters stand for what resolves there. -/
theorem Binds.resolved {style : IdentifierCase} {env : List (Nat × Expr)} {r : Expr}
    (h : Binds catalog style env n e r m) (hK : ∀ v, K v v.dataType) (he : ConstantsMeet K e)
    (henv : ∀ x ∈ env, Resolved K catalog G n bare visible x.2) :
    ∃ G', Extends G n G' m ∧ Resolved K catalog G' m bare visible r := by
  refine h.invariant_of_env (resolved_invariant hK) (fun _ _ => trivial) (fun x hx c hc => ?_)
    (fun _ _ _ => trivial) G bare visible henv
  exact constantsMeet_iff.mp he c (List.mem_filterMap.mpr ⟨x, hx, hc⟩)

end Derivations

end Binding

/-- The selects of a tree, those of its projections among them. -/
def Expr.selects (e : Expr) : List (Select Expr) :=
  e.nodes.filterMap fun
    | .select s => some s
    | .projection p => some p.source
    | _ => none

namespace Binding

variable {catalog : Catalog} {style : IdentifierCase} {e : Expr}

theorem knownSelect_of_mem_selects {K : Value → DataType → Prop} {G : Nat → Signature} {n : Nat}
    (h : ∀ x ∈ e.nodes, NodeOk K catalog G n x) {s : Select Expr} (hs : s ∈ e.selects) :
    KnownSelect catalog G n s := by
  obtain ⟨x, hx, hxs⟩ := List.mem_filterMap.mp hs
  have hnode := h x hx
  split at hxs
  · exact Option.some.inj hxs ▸ hnode
  · exact Option.some.inj hxs ▸ hnode.1
  · cases hxs

/-- A column that names the label of a select is one of the select's columns, at its ordinal. -/
theorem KnownColumn.of_label_eq {G : Nat → Signature} {n : Nat} {c : Column} {s : Select Expr}
    (hc : KnownColumn G n c) (hs : KnownSelect catalog G n s) (h : s.label = c.label) :
    ∃ x, s.columns[c.ordinal]? = some (c.name, x) := by
  obtain ⟨⟨i, -, hlabel, hsignature⟩, -, -⟩ := hs
  rcases hc with hempty | ⟨j, -, hj, hordinal⟩
  · exact absurd (hlabel.symm.trans (h.trans hempty)) (label_ne_empty i)
  · have hij : j = i := label_injective (hj.symm.trans (h.symm.trans hlabel))
    rw [hij, ← hsignature, Select.signature, List.getElem?_map] at hordinal
    obtain ⟨⟨name, x⟩, hcolumn, heq⟩ := Option.map_eq_some_iff.mp hordinal
    have hname : name = c.name := (Prod.mk.inj heq).1
    exact ⟨x, hname ▸ hcolumn⟩

/-- Owners and what they own, for the examples of this theory. -/
def ownership : Catalog :=
  ⟨[⟨"Owner", "owners", [⟨"Id", .int32⟩, ⟨"Name", .text⟩]⟩,
    ⟨"Item", "items", [⟨"Owner", .int32⟩, ⟨"Id", .int32⟩]⟩]⟩

/-- Each owner whose id is that of an item, with the ids of the owner's items. -/
def ownedItems : Expr :=
  let owner : Parameter := ⟨0, "o", .entity "Owner"⟩
  let item : Parameter := ⟨1, "i", .entity "Item"⟩
  let other : Parameter := ⟨2, "j", .entity "Item"⟩
  let owners := .call .filter none [.collection "Owner", .lambda [owner] (.call .existence
    (some (.collection "Item")) [.lambda [other]
      (.binary (.comparison .eq) (.member (.parameter other) "Id") (.member (.parameter owner) "Id"))])]
  .call .select none [owners, .lambda [owner] (.construct .null
    [("Name", .member (.parameter owner) "Name"),
      ("Items", .call .toList none [.call .filter none [.collection "Item", .lambda [item]
        (.binary (.comparison .eq) (.member (.parameter item) "Owner")
          (.member (.parameter owner) "Id"))]])])]

/-- Every column of a bound query resolves: it names a label that it can see, at the top only that
of the query's own select, and the column at its ordinal there has its name. -/
theorem bind_columns_resolve {p : Projection Expr} (hclosed : e.isClosed [])
    (h : bind catalog style e = .ok p) :
    (Expr.projection p).isScoped false [] ∧
      ∀ c, .column c ∈ (Expr.projection p).nodes → ∀ s ∈ (Expr.projection p).selects,
        s.label = c.label → ∃ x, s.columns[c.ordinal]? = some (c.name, x) := by
  obtain ⟨m, hbinds⟩ := binds_of_bind hclosed h
  have henv : ∀ x ∈ ([] : List (Nat × Expr)),
      Resolved (fun _ _ => True) catalog (fun _ => []) 0 false [] x.2 := fun _ hx => nomatch hx
  obtain ⟨G, -, hresolved⟩ := hbinds.resolved (fun _ => trivial) (fun _ _ _ => trivial) henv
  refine ⟨hresolved.isScoped, fun c hc s hs hlabel => ?_⟩
  have hcolumn : KnownColumn G m c := hresolved.nodes _ hc
  exact hcolumn.of_label_eq (knownSelect_of_mem_selects hresolved.nodes hs) hlabel

theorem bind_columns_resolve_of_ownedItems :
    ownedItems.isClosed [] ∧ ∃ p, bind ownership .preserve ownedItems = .ok p ∧
      (Expr.projection p).isScoped false [] ∧
        ∀ c, .column c ∈ (Expr.projection p).nodes → ∀ s ∈ (Expr.projection p).selects,
          s.label = c.label → ∃ x, s.columns[c.ordinal]? = some (c.name, x) := by
  have hclosed : ownedItems.isClosed [] := by decide
  obtain ⟨p, hp⟩ : ∃ p, bind ownership .preserve ownedItems = .ok p := ⟨_, by cbv⟩
  exact ⟨hclosed, p, hp, bind_columns_resolve hclosed hp⟩

end Binding

end Quarry
