import Quarry.Proofs.FreshNames
import Quarry.Proofs.Resolution
/-!
The names of output columns. Within a select no name is declared twice, but text holds names that
were brought to a case, and these can coincide. They do not where each column is one of the table's
own members, and they do not where the stems of all names that a select draws on are told apart.
-/
namespace Quarry

/-! What a select draws on -/

namespace Expr

open Binding

/-- Whether rows come from a join, or hold results that are computed on the way. -/
def isMixed : Expr → Bool
  | .select ⟨_, columns, source, _⟩ => columns.any (isComputed ·.2) || source.isMixed
  | .join .. => true
  | _ => false

/-- The stems of the names that the columns of a source can have. -/
def stems (catalog : Catalog) : Expr → List String
  | .table t => ((catalog.find? t.entity).map (·.members.map (stem ·.name))).getD []
  | .select ⟨_, columns, source, _⟩ =>
    (if columns.any (isComputed ·.2) then ["c"] else []) ++ source.stems catalog
  | .join _ l r _ => l.stems catalog ++ r.stems catalog
  | _ => []

theorem isMixed_select (s : Select Expr) :
    (select s).isMixed = (s.columns.any (isComputed ·.2) || s.source.isMixed) := rfl

theorem stems_select (catalog : Catalog) (s : Select Expr) :
    (select s).stems catalog =
      (if s.columns.any (isComputed ·.2) then ["c"] else []) ++ s.source.stems catalog := rfl

end Expr

namespace Binding

section Moves

variable {label : String} {sources : List String} {columns : List (String × Expr)} {e e' : Expr}
  {s t : Select Expr}

/-- Only columns are taken out of a nested query. -/
theorem Moved.nested_cases (h : Moved label sources columns e true e') :
    (∃ c c', e = .column c ∧ e' = .column c') ∨
      Expr.Alike (Moved label sources columns · true ·) e e' := by
  cases ht : takes sources true e with
  | true =>
      obtain ⟨c, rfl, -⟩ | ⟨h, -⟩ := takes_cases ht
      · obtain ⟨i, name, -, rfl⟩ := (moved_iff_reads ht).mp h
        exact .inl ⟨_, _, rfl, rfl⟩
      · cases h
  | false => exact .inr (h.alike ht)

theorem Moved.isComputed_eq (h : Moved label sources columns e true e') :
    isComputed e' = isComputed e := by
  rcases h.nested_cases with ⟨c, c', rfl, rfl⟩ | halike
  · rfl
  · cases halike <;> rfl

theorem any_isComputed_eq {xs ys : List (String × Expr)}
    (h : List.Forall₂ (fun a b => a.1 = b.1 ∧ Moved label sources columns a.2 true b.2) xs ys) :
    ys.any (isComputed ·.2) = xs.any (isComputed ·.2) := by
  induction h with
  | nil => rfl
  | cons hx _ ih => rw [List.any_cons, List.any_cons, hx.2.isComputed_eq, ih]

theorem Moved.isMixed_eq (h : Moved label sources columns e true e') : e'.isMixed = e.isMixed := by
  induction e using Expr.children_induction generalizing e' with
  | step e ih =>
      rcases h.nested_cases with ⟨c, c', rfl, rfl⟩ | halike
      · rfl
      · cases halike with
        | select hs =>
            rw [Expr.isMixed_select, Expr.isMixed_select, any_isComputed_eq hs.columns,
              ih _ (by simp [Expr.children, Select.children]) hs.source]
        | _ => rfl

theorem Moved.stems_eq (catalog : Catalog) (h : Moved label sources columns e true e') :
    e'.stems catalog = e.stems catalog := by
  induction e using Expr.children_induction generalizing e' with
  | step e ih =>
      rcases h.nested_cases with ⟨c, c', rfl, rfl⟩ | halike
      · rfl
      · cases halike with
        | select hs =>
            rw [Expr.stems_select, Expr.stems_select, any_isComputed_eq hs.columns,
              ih _ (by simp [Expr.children, Select.children]) hs.source]
        | join kind hl hr _ =>
            rw [Expr.stems, Expr.stems, ih _ (by simp [Expr.children]) hl,
              ih _ (by simp [Expr.children]) hr]
        | _ => rfl

end Moves

/-! Selects -/

end Binding

/-- The names of a select's columns as they are written. -/
def Select.outputs (style : IdentifierCase) (s : Select Expr) : List String :=
  (s.columns.map (·.1)).map style.normalize

/-- No table has two members that are written alike. -/
def Catalog.isDistinctAs (catalog : Catalog) (style : IdentifierCase) : Bool :=
  catalog.tables.all fun t => decide ((t.members.map Member.name).map style.normalize).Nodup

theorem Catalog.isDistinct_of_isDistinctAs {catalog : Catalog} {style : IdentifierCase}
    (h : catalog.isDistinctAs style) : catalog.isDistinct := by
  refine List.all_eq_true.mpr fun t ht => decide_eq_true ?_
  exact (of_decide_eq_true (List.all_eq_true.mp h t ht)).of_map

namespace Binding

variable (catalog : Catalog) (style : IdentifierCase)

/-- A select with the columns that its label stands for, whose names are drawn from its sources;
they are written apart unless the select mixes rows. -/
structure WellNamed (G : Nat → Signature) (n : Nat) (s : Select Expr) : Prop where
  known : KnownSelect catalog G n s
  stems : ∀ x ∈ s.columns, stem x.1 ∈ (Expr.select s).stems catalog
  apart : (Expr.select s).isMixed = false → (s.outputs style).Nodup

/-- What the nodes of a bound tree look like, where the first `n` labels stand for `G`. -/
def NodeNamed (G : Nat → Signature) (n : Nat) : Expr → Prop
  | .column c => KnownColumn G n c
  | .select s => WellNamed catalog style G n s
  | .projection p => WellNamed catalog style G n p.source ∧ p.projector.isValue
  | _ => True

/-- A value of the bound tree in which all selects are well named. -/
structure TreeNamed (G : Nat → Signature) (n : Nat) (e : Expr) : Prop where
  isValue : e.isValue
  nodes : ∀ x ∈ e.nodes, NodeNamed catalog style G n x

variable {catalog style} {G G' G'' : Nat → Signature} {n m k : Nat} {e e' : Expr}

theorem NodeNamed.extend (h : NodeNamed catalog style G n e) (hx : Extends G n G' m) :
    NodeNamed catalog style G' m e := by
  cases e with
  | column c =>
      rcases h with h | ⟨i, hi, hl, hc⟩
      · exact .inl h
      · exact .inr ⟨i, hi.trans_le hx.le, hl, (hx.agrees i hi).symm ▸ hc⟩
  | select s => exact ⟨h.known.extend hx, h.stems, h.apart⟩
  | projection p => exact ⟨⟨h.1.known.extend hx, h.1.stems, h.1.apart⟩, h.2⟩
  | _ => trivial

theorem TreeNamed.extend (h : TreeNamed catalog style G n e) (hx : Extends G n G' m) :
    TreeNamed catalog style G' m e :=
  ⟨h.isValue, fun x hmem => (h.nodes x hmem).extend hx⟩

section Moves

variable {sources : List String} {columns : List (String × Expr)} {nested : Bool}

theorem WellNamed.moved {s t : Select Expr} (h : WellNamed catalog style G m s)
    (hst : s.Alike (Moved (label n) sources columns · true ·) t) :
    WellNamed catalog style G m t := by
  have hnames : t.columns.map (·.1) = s.columns.map (·.1) := by
    rw [← List.forall₂_eq_eq_eq, List.forall₂_map_left_iff, List.forall₂_map_right_iff]
    exact (hst.columns.imp fun _ _ hab => hab.1.symm).flip
  refine ⟨h.known.moved hst fun _ _ hc => hc, fun x hx => ?_, fun hmixed => ?_⟩
  · have hname : x.1 ∈ s.columns.map (·.1) := hnames ▸ List.mem_map_of_mem hx
    obtain ⟨y, hy, hxy⟩ := List.mem_map.mp hname
    rw [Expr.stems_select, any_isComputed_eq hst.columns, hst.source.stems_eq, ← hxy]
    exact h.stems y hy
  · rw [Expr.isMixed_select, any_isComputed_eq hst.columns, hst.source.isMixed_eq] at hmixed
    rw [Select.outputs, hnames]
    exact h.apart hmixed

theorem NodeNamed.moved (h : NodeNamed catalog style G n e)
    (hee : Expr.Alike (Moved (label n) sources columns · true ·) e e')
    (hx : Extends G n G' (n + 1)) : NodeNamed catalog style G' (n + 1) e' := by
  cases hee with
  | leaf => exact h.extend hx
  | select hs => exact NodeNamed.extend (e := .select _) (h.moved hs) hx
  | projection shape hs hp =>
      exact ⟨NodeNamed.extend (e := .select _) (h.1.moved hs) hx, hp.isValue h.2⟩
  | _ => trivial

theorem Moved.nodes_named (h : Moved (label n) sources columns e nested e')
    (hx : Extends G n G' (n + 1))
    (hsig : G' n = columns.map fun column => (column.1, column.2.staticType?.getD .null))
    (hvalue : nested = false → e.isValue)
    (he : ∀ x ∈ e.nodes, NodeNamed catalog style G n x) :
    ∀ x ∈ e'.nodes, NodeNamed catalog style G' (n + 1) x := by
  rw [← Expr.everywhere_true] at he ⊢
  refine h.everywhere (I := fun nested e => nested = false → e.isValue) he hvalue ?_ ?_ ?_
  · intro nested e c hvalue hc hn
    obtain ⟨hnested, hproj⟩ := Bool.or_eq_false_iff.mp hn
    exact Expr.isValue_child (hvalue hnested) hproj hc
  · rintro e _ ⟨i, name, hi, rfl⟩
    refine .inr ⟨n, Nat.lt_succ_self n, rfl, ?_⟩
    rw [hsig, List.getElem?_map, hi]
    rfl
  · intro nested e e' hvalue _ hnode halike
    cases hn : nested || isProjection e with
    | true => exact hnode.moved (hn ▸ halike) hx
    | false =>
        -- outside of nested queries a value holds no select
        obtain ⟨hnested, hproj⟩ := Bool.or_eq_false_iff.mp hn
        have hsource := (Expr.isValue_iff.mp (hvalue hnested)).1
        cases halike with
        | leaf => exact hnode.extend hx
        | select => cases hsource
        | projection => cases hproj
        | _ => trivial

end Moves

/-! New selects -/

/-- No column is declared twice. -/
theorem nodup_declareOnce {xs : List Expr}
    (h : ∀ x ∈ xs.foldl declareOnce [], ∃ c, x = .column c) :
    (xs.foldl declareOnce []).Nodup := by
  rw [List.nodup_iff_count_le_one]
  intro x
  by_cases hx : x ∈ xs.foldl declareOnce []
  · obtain ⟨c, rfl⟩ := h x hx
    rw [count_foldl_declareOnce, if_neg List.not_mem_nil]
    split <;> omega
  · rw [List.count_eq_zero_of_not_mem hx]
    omega

section Projection

variable {projector source : Expr} {filter : Option Expr} {sources : List String}

/-- The select that a projector is moved into is well named, if its columns are named by what the
source draws on, and are told from each other where the source mixes nothing. -/
theorem projection_wellNamed (hp : TreeNamed catalog style G m projector) (hempty : "" ∉ sources)
    (hstems : ∀ c, KnownColumn G m c → c.label ∈ sources → stem c.name ∈ source.stems catalog)
    (hapart : source.isMixed = false → ∀ c c', KnownColumn G m c → KnownColumn G m c' →
      c.label ∈ sources → c'.label ∈ sources →
      style.normalize c.name = style.normalize c'.name → c = c')
    (hsig : G' m = (projection projector m sources source filter).source.signature) :
    WellNamed catalog style G' (m + 1) (projection projector m sources source filter).source := by
  have hproj := projectColumns_projected projector (label m) sources
  have hnamed := projectColumns_named projector (label m) sources
  have hdeclared : ∀ x ∈ (projectColumns projector (label m) sources).2,
      (∃ c, x.2 = .column c ∧ c.label ∈ sources ∧ KnownColumn G m c) ∨ isComputed x.2 := by
    intro x hx
    have htaken := hproj.taken x hx
    rcases taken_cases htaken with ⟨c, hc, hl⟩ | ⟨hcomputed, -⟩
    · have hnode : NodeNamed catalog style G m (.column c) :=
        hp.nodes _ (hc ▸ mem_nodes_of_taken htaken)
      exact .inl ⟨c, hc, hl, hnode⟩
    · exact .inr hcomputed
  refine ⟨projection_knownSelect hempty hsig, hnamed.stem_mem fun x hx => ?_, fun hmixed => ?_⟩
  · rcases hdeclared x hx with ⟨c, hc, hl, hknown⟩ | hcomputed
    · exact .inl ⟨c, hc, hstems c hknown hl⟩
    · exact .inr hcomputed
  · obtain ⟨hplain, hsource⟩ := Bool.or_eq_false_iff.mp hmixed
    have hmoved : ∀ x ∈ (projectColumns projector (label m) sources).2,
        ∃ c, x.2 = .column c ∧ c.label ∈ sources ∧ KnownColumn G m c :=
      fun x hx => (hdeclared x hx).resolve_right (List.any_eq_false.mp hplain x hx)
    have hcolumn : ∀ c, .column c ∈ (projectColumns projector (label m) sources).2.map (·.2) →
        c.label ∈ sources ∧ KnownColumn G m c := by
      intro c hc
      obtain ⟨x, hx, hxc⟩ := List.mem_map.mp hc
      obtain ⟨c', hc', h⟩ := hmoved x hx
      cases hxc.symm.trans hc'
      exact h
    refine hnamed.written_nodup (fun x hx => (hmoved x hx).imp fun _ hc => hc.1) ?_ ?_
    · rw [hproj.new]
      refine nodup_declareOnce fun x hx => ?_
      rw [← hproj.new] at hx
      obtain ⟨y, hy, rfl⟩ := List.mem_map.mp hx
      exact (hmoved y hy).imp fun _ hc => hc.1
    · intro c c' hc hc'
      obtain ⟨hl, hknown⟩ := hcolumn c hc
      obtain ⟨hl', hknown'⟩ := hcolumn c' hc'
      exact hapart hsource c c' hknown hknown' hl hl'

theorem projection_treeNamed (hp : TreeNamed catalog style G m projector)
    (hs : ∀ x ∈ source.nodes, NodeNamed catalog style G m x)
    (hf : ∀ f ∈ filter, TreeNamed catalog style G m f) (hempty : "" ∉ sources)
    (hstems : ∀ c, KnownColumn G m c → c.label ∈ sources → stem c.name ∈ source.stems catalog)
    (hapart : source.isMixed = false → ∀ c c', KnownColumn G m c → KnownColumn G m c' →
      c.label ∈ sources → c'.label ∈ sources →
      style.normalize c.name = style.normalize c'.name → c = c')
    (hx : Extends G m G' (m + 1))
    (hsig : G' m = (projection projector m sources source filter).source.signature) :
    TreeNamed catalog style G' (m + 1)
      (.projection (projection projector m sources source filter)) := by
  have hproj := projectColumns_projected projector (label m) sources
  have hnode : NodeNamed catalog style G' (m + 1)
      (.projection (projection projector m sources source filter)) :=
    ⟨projection_wellNamed hp hempty hstems hapart hsig, hproj.moved.isValue hp.isValue⟩
  have hmoved := hproj.moved.nodes_named hx hsig (fun _ => hp.isValue) hp.nodes
  refine ⟨Expr.isValue_iff.mpr ⟨rfl, .inl rfl⟩, Expr.everywhere_true.mp (everywhere_projection hnode
    (Expr.everywhere_true.mpr hp.nodes) (Expr.everywhere_true.mpr hs)
    (fun f hmem => Expr.everywhere_true.mpr (hf f hmem).nodes) (Expr.everywhere_true.mpr hmoved)
    (by simp) ?_)⟩
  exact fun _ h => h.extend hx

end Projection

theorem TreeNamed.projector {p : Projection Expr}
    (h : TreeNamed catalog style G n (.projection p)) :
    TreeNamed catalog style G n p.projector := by
  obtain ⟨hnode, -, hprojector⟩ := forall_mem_nodes_projection.mp h.nodes
  exact ⟨hnode.2, hprojector⟩

theorem TreeNamed.source {p : Projection Expr} (h : TreeNamed catalog style G n (.projection p)) :
    WellNamed catalog style G n p.source ∧
      ∀ x ∈ (Expr.select p.source).nodes, NodeNamed catalog style G n x := by
  obtain ⟨hnode, hsource, -⟩ := forall_mem_nodes_projection.mp h.nodes
  exact ⟨hnode.1, Expr.forall_mem_nodes.mpr ⟨hnode.1, hsource⟩⟩

theorem TreeNamed.reshape {p : Projection Expr} (shape : Shape)
    (h : TreeNamed catalog style G n (.projection p)) :
    TreeNamed catalog style G n (.projection { p with shape }) := by
  have hnodes := forall_mem_nodes_projection.mp h.nodes
  exact ⟨Expr.isValue_iff.mpr ⟨rfl, .inl rfl⟩, forall_mem_nodes_projection.mpr hnodes⟩

section Sources

variable {s : Select Expr} {c c' : Column}

theorem KnownColumn.signature_eq (hc : KnownColumn G n c) (hs : KnownSelect catalog G n s)
    (h : c.label = s.label) : s.signature[c.ordinal]? = some (c.name, c.type) := by
  obtain ⟨i, -, hlabel, hsignature⟩ := hs.known
  rcases hc with hempty | ⟨j, -, hj, hordinal⟩
  · exact absurd (hlabel.symm.trans (h.symm.trans hempty)) (label_ne_empty i)
  · obtain rfl : j = i := label_injective (hj.symm.trans (h.trans hlabel))
    rw [hsignature, hordinal]

theorem outputs_eq (style : IdentifierCase) (s : Select Expr) :
    s.outputs style = s.signature.map fun x => style.normalize x.1 := by
  simp only [Select.outputs, Select.signature, List.map_map, Function.comp_def]

theorem KnownColumn.outputs_eq (hc : KnownColumn G n c) (style : IdentifierCase)
    (hs : KnownSelect catalog G n s) (h : c.label = s.label) :
    (s.outputs style)[c.ordinal]? = some (style.normalize c.name) := by
  rw [Binding.outputs_eq, List.getElem?_map, hc.signature_eq hs h]
  rfl

/-- Where the columns of a select are written apart, so are all columns that name them. -/
theorem KnownColumn.eq_of_written (hc : KnownColumn G n c) (hc' : KnownColumn G n c')
    (hs : KnownSelect catalog G n s) (hnodup : (s.outputs style).Nodup) (h : c.label = s.label)
    (h' : c'.label = s.label) (heq : style.normalize c.name = style.normalize c'.name) :
    c = c' := by
  have houtput := hc.outputs_eq style hs h
  have houtput' := hc'.outputs_eq style hs h'
  have hordinal : c.ordinal = c'.ordinal := by
    refine (List.getElem?_inj (List.getElem?_eq_some_iff.mp houtput).1 hnodup).mp ?_
    rw [houtput, houtput', heq]
  have hsame := hc.signature_eq hs h
  rw [hordinal, hc'.signature_eq hs h'] at hsame
  obtain ⟨hname, htype⟩ := Prod.mk.inj (Option.some.inj hsame)
  cases c
  cases c'
  exact Column.mk.injEq .. |>.mpr ⟨h.trans h'.symm, hname.symm, hordinal, htype.symm⟩

theorem WellNamed.stem_mem (hs : WellNamed catalog style G n s) (hc : KnownColumn G n c)
    (h : c.label = s.label) : stem c.name ∈ (Expr.select s).stems catalog := by
  obtain ⟨x, hx⟩ := hc.of_label_eq hs.known h.symm
  exact hs.stems (c.name, x) (List.mem_of_getElem? hx)

theorem WellNamed.label_ne_empty (hs : WellNamed catalog style G n s) : s.label ≠ "" := by
  obtain ⟨i, -, hlabel, -⟩ := hs.known.known
  exact hlabel ▸ Binding.label_ne_empty i

end Sources

theorem treeNamed_of_children (hs : e.isSource = false) (hnode : NodeNamed catalog style G n e)
    (h : ∀ c ∈ e.children, TreeNamed catalog style G n c) : TreeNamed catalog style G n e :=
  ⟨Expr.isValue_iff.mpr ⟨hs, .inr fun c hc => (h c hc).isValue⟩,
    Expr.forall_mem_nodes.mpr ⟨hnode, fun c hc => (h c hc).nodes⟩⟩

theorem treeNamed_construct {t : DataType} {ms : List (String × Expr)}
    (h : ∀ x ∈ ms, TreeNamed catalog style G n x.2) :
    TreeNamed catalog style G n (.construct t ms) := by
  refine treeNamed_of_children rfl trivial fun c hc => ?_
  obtain ⟨x, hx, rfl⟩ := List.mem_map.mp hc
  exact h x hx

theorem TreeNamed.child {c : Expr} (h : TreeNamed catalog style G n e)
    (hp : isProjection e = false) (hc : c ∈ e.children) : TreeNamed catalog style G n c :=
  ⟨Expr.isValue_child h.isValue hp hc, (Expr.forall_mem_nodes.mp h.nodes).2 c hc⟩

theorem treeNamed_binary {a b : Expr} (op : BinaryOperator) (ha : TreeNamed catalog style G n a)
    (hb : TreeNamed catalog style G n b) : TreeNamed catalog style G n (.binary op a b) :=
  treeNamed_of_children rfl trivial (by simp [Expr.children, ha, hb])

section Tables

variable {t : Table} {l : String}

theorem treeNamed_tableColumns (h : l = "" ∨ ∃ i < n, l = label i ∧ G i = t.signature) :
    ∀ x ∈ tableColumns t l, TreeNamed catalog style G n x.2 := by
  have hresolved : ∀ x ∈ tableColumns t l, Resolved (fun _ _ => True) catalog G n true [l] x.2 :=
    resolved_tableColumns (by split <;> simp) h
  intro x hx
  have hnode := (hresolved x hx).nodes x.2 (Expr.self_mem_nodes _)
  obtain ⟨i, m, -, rfl⟩ := mem_tableColumns hx
  exact treeNamed_of_children rfl hnode (List.forall_mem_nil _)

theorem find?_of_table {entity : String} (h : catalog.table entity = .ok t) :
    catalog.find? t.entity = some t := by
  rw [(table_mem h).2]
  unfold Catalog.table at h
  split at h
  next hfind => exact Except.ok.inj h ▸ hfind
  next => cases h

theorem tableSelect_wellNamed {entity : String} (hmembers : catalog.isDistinctAs style)
    (h : catalog.table entity = .ok t) (hG : G (n + 1) = t.signature) :
    WellNamed catalog style G (n + 2) (tableProjection t n).source := by
  obtain ⟨hmem, hentity⟩ := table_mem h
  have hnames : (tableProjection t n).source.columns.map (·.1) = t.members.map Member.name :=
    map_fst_tableColumns t (label n)
  refine ⟨⟨⟨n + 1, by omega, rfl, ?_⟩, fun x hx => ?_, fun hd => ?_⟩, fun x hx => ?_, fun _ => ?_⟩
  · exact (signature_tableColumns t (label n)).trans hG.symm
  · obtain ⟨i, m, -, rfl⟩ := mem_tableColumns hx
    simpa [isOutput] using label_ne_empty n
  · rw [hnames]
    exact of_decide_eq_true (List.all_eq_true.mp hd t hmem)
  · rw [Expr.stems_select]
    refine List.mem_append_right _ ?_
    have hstems : (tableProjection t n).source.source.stems catalog =
        t.members.map (stem ·.name) := by
      show ((catalog.find? t.entity).map _).getD [] = _
      rw [find?_of_table h]
      rfl
    obtain ⟨i, m, hm, rfl⟩ := mem_tableColumns hx
    rw [hstems]
    exact List.mem_map.mpr ⟨m, List.mem_of_getElem? hm, rfl⟩
  · rw [Select.outputs, hnames]
    exact of_decide_eq_true (List.all_eq_true.mp hmembers t hmem)

/-- All members of a table, selected as they are. -/
theorem tableProjection_treeNamed {entity : String} (hmembers : catalog.isDistinctAs style)
    (h : catalog.table entity = .ok t) (hinner : G n = t.signature)
    (houter : G (n + 1) = t.signature) :
    TreeNamed catalog style G (n + 2) (.projection (tableProjection t n)) := by
  have hsig (k : Nat) (hk : n ≤ k ∧ k < n + 2) : G k = t.signature := by
    obtain rfl | rfl : k = n ∨ k = n + 1 := by omega
    · exact hinner
    · exact houter
  have hprojector : TreeNamed catalog style G (n + 2) (tableProjection t n).projector :=
    treeNamed_construct (treeNamed_tableColumns (.inr ⟨n + 1, by omega, rfl, houter⟩))
  refine ⟨Expr.isValue_iff.mpr ⟨rfl, .inl rfl⟩, Expr.everywhere_true.mp
    (everywhere_tableProjection ⟨tableSelect_wellNamed hmembers h houter, hprojector.isValue⟩ trivial
      trivial fun k hk hlt i m hm => ?_)⟩
  refine .inr ⟨k, hlt, rfl, ?_⟩
  rw [hsig k ⟨hk, hlt⟩, Table.signature, List.getElem?_map, hm]
  rfl

end Tables

/-! The walk -/

/-- To be well named is an invariant of binding. -/
theorem treeNamed_invariant (hmembers : catalog.isDistinctAs style) :
    Invariant catalog { node := fun x => x.isComposed } fun w =>
      TreeNamed catalog style w.signatures w.labels where
  mono hle h := h.extend hle.given
  constant _ := treeNamed_of_children rfl trivial (List.forall_mem_nil _)
  literal := treeNamed_of_children rfl trivial (List.forall_mem_nil _)
  collection {w entity t} _ ht _ _ := by
    have hx := ((w.giving t.signature).le_giving t.signature).given
    refine tableProjection_treeNamed hmembers ht ?_
      ((w.giving t.signature).giving_signature t.signature)
    exact (hx.agrees w.labels (Nat.lt_succ_self _)).trans (w.giving_signature t.signature)
  record _ := treeNamed_construct (treeNamed_tableColumns (.inl rfl))
  member _ h := treeNamed_of_children rfl trivial (by simpa [Expr.children] using h)
  unary _ h := treeNamed_of_children rfl trivial (by simpa [Expr.children] using h)
  binary := treeNamed_binary _
  construct := ⟨fun h _ hx => h.child rfl (List.mem_map_of_mem hx), treeNamed_construct⟩
  character hx hstart hone := treeNamed_of_children rfl trivial
    (by simp [Expr.children, FunctionCall.children, hx, hstart, hone])
  projector h := h.projector
  select {w _ p b f r} _ _ _ hp hb hf hr := by
    subst hr
    obtain ⟨hsource, hnodes⟩ := hp.source
    refine projection_treeNamed hb hnodes hf ?_ ?_ ?_ (w.le_giving _).given (w.giving_signature _)
    · exact fun hmem => hsource.label_ne_empty (List.mem_singleton.mp hmem).symm
    · exact fun c hc hl => hsource.stem_mem hc (List.mem_singleton.mp hl)
    · intro hmixed c c' hc hc' hl hl' heq
      exact hc.eq_of_written hc' hsource.known (hsource.apart hmixed) (List.mem_singleton.mp hl)
        (List.mem_singleton.mp hl') heq
  join {w _ p q a b c r} _ _ _ _ hp hq ha hb hc hr := by
    subst hr
    have hcondition := treeNamed_binary (.comparison .eq) ha hb
    refine projection_treeNamed hc ?_ (by simp) ?_ ?_ (by simp [Expr.isMixed, joined])
      (w.le_giving _).given (w.giving_signature _)
    · exact Expr.everywhere_true.mp (everywhere_joined trivial (Expr.everywhere_true.mpr hp.source.2)
        (Expr.everywhere_true.mpr hq.source.2) (Expr.everywhere_true.mpr hcondition.nodes))
    · intro hmem
      rcases List.mem_pair.mp hmem with h | h
      · exact hp.source.1.label_ne_empty h.symm
      · exact hq.source.1.label_ne_empty h.symm
    · intro c hc hmem
      rw [joined, Expr.stems]
      rcases List.mem_pair.mp hmem with h | h
      · exact List.mem_append_left _ (hp.source.1.stem_mem hc h)
      · exact List.mem_append_right _ (hq.source.1.stem_mem hc h)
  list _ _ h := h.reshape .list
  existence _ _ h := treeNamed_of_children rfl trivial fun _ hc => List.mem_singleton.mp hc ▸ h

/-- Binding makes well named trees. -/
theorem Walks.named {s : Scope} {r : Expr} (h : Walks catalog style {} e r s)
    (hmembers : catalog.isDistinctAs style) (hcomposed : ∀ x ∈ e.nodes, x.isComposed) :
    ∃ G, TreeNamed catalog style G s.labels r := by
  obtain ⟨G, -, hr, -⟩ := h.invariant (G := fun _ => []) (treeNamed_invariant hmembers)
    (fun _ => trivial) (fun _ _ _ => treeNamed_of_children rfl trivial (List.forall_mem_nil _))
    (fun _ _ _ hbound hfine => absurd hbound (by simp [Expr.isBound_of_isComposed hfine.self]))
    {} rfl (joinsMeet_of_forall (fun _ _ => trivial) _ _) hcomposed (List.forall_mem_nil _)
  exact ⟨G, hr⟩

theorem wellNamed_of_mem_selects (h : TreeNamed catalog style G n e) {q : Select Expr}
    (hq : q ∈ e.selects) : WellNamed catalog style G n q := by
  obtain ⟨x, hx, hxq⟩ := List.mem_filterMap.mp hq
  have hnode := h.nodes x hx
  split at hxq
  · exact Option.some.inj hxq ▸ hnode
  · exact Option.some.inj hxq ▸ hnode.1
  · cases hxq

/-- Within each select of a bound query no name is declared twice; the columns are also written
apart if the select mixes no rows, or if the stems that it draws on are told apart. Then a column
that names the select is written like one of its columns only. -/
theorem bind_names_apart {P : Projection Expr} (hmembers : catalog.isDistinctAs style)
    (hcomposed : ∀ x ∈ e.nodes, x.isComposed) (h : bind catalog style e = .ok P) :
    ∀ q ∈ (Expr.projection P).selects,
      (q.columns.map (·.1)).Nodup ∧
      ((Expr.select q).isMixed = false ∨ style.TellsApart ((Expr.select q).stems catalog) →
        (q.outputs style).Nodup ∧
        ∀ c, .column c ∈ (Expr.projection P).nodes → c.label = q.label →
          ∀ i, (q.outputs style)[i]? = some (style.normalize c.name) ↔ i = c.ordinal) := by
  obtain ⟨s, hwalks⟩ := walks_of_bind h
  obtain ⟨G, hnamed⟩ := hwalks.named hmembers hcomposed
  intro q hq
  have hwell := wellNamed_of_mem_selects hnamed hq
  have hnames := hwell.known.names (Catalog.isDistinct_of_isDistinctAs hmembers)
  refine ⟨hnames, fun hq => ?_⟩
  -- names that are written alike have stems that are written alike, and then they are the same
  have hnodup : (q.outputs style).Nodup := by
    rcases hq with hmixed | happart
    · exact hwell.apart hmixed
    · refine hnames.map_on fun a ha b hb heq => ?_
      obtain ⟨x, hx, rfl⟩ := List.mem_map.mp ha
      obtain ⟨y, hy, rfl⟩ := List.mem_map.mp hb
      exact happart.normalize_inj (hwell.stems x hx) (hwell.stems y hy) heq
  refine ⟨hnodup, fun c hc hlabel i => ?_⟩
  have hcolumn : NodeNamed catalog style G s.labels (.column c) := hnamed.nodes _ hc
  have hordinal := KnownColumn.outputs_eq hcolumn style hwell.known hlabel
  constructor
  · intro hi
    refine (List.getElem?_inj (List.getElem?_eq_some_iff.mp hi).1 hnodup).mp ?_
    rw [hi, hordinal]
  · rintro rfl
    exact hordinal

/-- The items of each owner, with the owner's initial. -/
def initialedItems : Expr :=
  let owner : Parameter := ⟨0, "o", .entity "Owner"⟩
  let item : Parameter := ⟨1, "i", .entity "Item"⟩
  .call .join none [.collection "Owner", .collection "Item",
    .lambda [owner] (.member (.parameter owner) "Id"),
    .lambda [item] (.member (.parameter item) "Owner"),
    .lambda [owner, item] (.construct .null
      [("owner", .member (.parameter owner) "Id"), ("item", .member (.parameter item) "Id"),
        ("initial", .call .charAt (some (.member (.parameter owner) "Name"))
          [.literal (.int32 0)])])]

/-- Two columns of one name and a computed one. -/
theorem bind_names_apart_of_initialedItems :
    ownership.isDistinctAs .snakeLower ∧ (∀ x ∈ initialedItems.nodes, x.isComposed) ∧
    ∃ P, bind ownership .snakeLower initialedItems = .ok P ∧
      P.source ∈ (Expr.projection P).selects ∧ (Expr.select P.source).isMixed ∧
      IdentifierCase.snakeLower.TellsApart ((Expr.select P.source).stems ownership) ∧
      P.source.outputs .snakeLower = ["id", "id1", "c0"] ∧
      (P.source.outputs .snakeLower).Nodup ∧
      ∀ c, .column c ∈ (Expr.projection P).nodes → c.label = P.source.label →
        ∀ i, (P.source.outputs .snakeLower)[i]? =
          some (IdentifierCase.snakeLower.normalize c.name) ↔ i = c.ordinal := by
  have hmembers : ownership.isDistinctAs .snakeLower := by decide +kernel
  have hcomposed : ∀ x ∈ initialedItems.nodes, x.isComposed := by decide
  obtain ⟨P, hbind, houtputs, hmixed, happart⟩ :
      ∃ P, bind ownership .snakeLower initialedItems = .ok P ∧
        P.source.outputs .snakeLower = ["id", "id1", "c0"] ∧ (Expr.select P.source).isMixed ∧
        IdentifierCase.snakeLower.TellsApart ((Expr.select P.source).stems ownership) :=
    ⟨_, rfl, by decide +kernel, by decide +kernel, by decide +kernel⟩
  have hselect : P.source ∈ (Expr.projection P).selects := by
    rw [Expr.selects, Expr.nodes_eq]
    exact List.mem_cons_self
  obtain ⟨-, hnames⟩ := bind_names_apart hmembers hcomposed hbind P.source hselect
  exact ⟨hmembers, hcomposed, P, hbind, hselect, hmixed, happart, houtputs, hnames (.inr happart)⟩

/-- The codes with their initials. -/
def initialedCodes : Expr :=
  let code : Parameter := ⟨0, "x", .entity "Code"⟩
  .call .select none [.collection "Code", .lambda [code] (.construct .null
    [("code", .member (.parameter code) "C0"),
      ("initial", .call .charAt (some (.member (.parameter code) "Name"))
        [.literal (.int32 0)])])]

/-- A computed result is written like a member, though the names that are declared differ. -/
theorem computed_written_like_member :
    let catalog : Catalog := ⟨[⟨"Code", "codes", [⟨"C0", .int32⟩, ⟨"Name", .text⟩]⟩]⟩
    catalog.isDistinctAs .snakeLower ∧ (∀ x ∈ initialedCodes.nodes, x.isComposed) ∧
    ∃ P, bind catalog .snakeLower initialedCodes = .ok P ∧
      P.source.columns.map (·.1) = ["C0", "c0"] ∧ P.source.outputs .snakeLower = ["c0", "c0"] :=
  ⟨by decide +kernel, by decide, _, rfl, by decide +kernel, by decide +kernel⟩

end Binding

end Quarry
