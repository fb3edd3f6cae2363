import Quarry.Proofs.Marking
import Quarry.Proofs.Resolution
/-!
The columns in the predicate of an existence test. Those of the test's own table have no label, and
those of what the parameters around it stand for have one, with one exception: the parameter of a
test around this one stands for columns without a label too, and so may a parameter that ranges over
a query in which such a parameter occurs.
-/
namespace Quarry

namespace Expr

def column? : Expr → Option Column
  | .column c => some c
  | _ => none

/-- The columns of a tree outside its existence tests. -/
def exposedColumns (e : Expr) : List Column := (e.reached false).filterMap column?

theorem mem_exposedColumns {e : Expr} {c : Column} :
    c ∈ e.exposedColumns ↔ .column c ∈ e.reached false := by
  rw [exposedColumns, List.mem_filterMap]
  constructor
  · rintro ⟨x, hx, hc⟩
    cases x with
    | column c' =>
        cases hc
        exact hx
    | _ => cases hc
  · intro h
    exact ⟨_, h, rfl⟩

end Expr

/-- Whether the column is that of a member of the table, whatever its label. -/
def Table.declares (t : Table) (c : Column) : Bool := t.members[c.ordinal]? = some ⟨c.name, c.type⟩

namespace Binding

variable {catalog : Catalog} {style : IdentifierCase} {s : Scope} {site site' : Site}
variable {e r c v : Expr} {mark : String}

/-! What the parameters in sight stand for -/

namespace Demand

/-- Every column has a label that was given out, or none. -/
def proper : Demand := ofColumns (fun c => c.label = "" ∨ ∃ i, c.label = Binding.label i) true

/-- Outside of existence tests, every column has a label. -/
def labelled : Demand := ofColumns (·.label ≠ "") false

theorem proper_allows (n m : Nat) : proper.Allows n m :=
  ofColumns_allows (fun _ i hi => .inr ⟨i, hi⟩) (fun _ _ hc => .inl hc) n m

theorem labelled_allows (n m : Nat) : labelled.Allows n m := by
  apply ofColumns_allows
  · intro c i hi hempty
    exact label_ne_empty i (hi.symm.trans hempty)
  · intro h
    cases h

theorem Met.labels (h : proper.Met v) : ∀ l ∈ v.labels, ∃ i, l = Binding.label i := by
  intro l hl
  obtain ⟨x, hx, hl⟩ := List.mem_filterMap.mp hl
  rw [← Expr.reached_true] at hx
  have hnode := h x hx
  cases x with
  | column => cases hl
  | _ => exact hnode l hl

theorem Met.label_ne (h : proper.Met v) (hempty : "" ≠ mark)
    (hmark : ∀ i, Binding.label i ≠ mark) {c : Column} (hc : .column c ∈ v.nodes) :
    c.label ≠ mark := by
  rw [← Expr.reached_true] at hc
  rcases h _ hc with hlabel | ⟨i, hi⟩
  · rw [hlabel]
    exact hempty
  · rw [hi]
    exact hmark i

end Demand

/-- Every column has a label that was given out or none, and one if it is not `bare`. -/
def Sound (bare : Bool) (_ : Nat) (v : Expr) : Prop :=
  Demand.proper.Met v ∧ (bare = false → Demand.labelled.Met v)

theorem sound_handedOn : HandedOn catalog style Sound where
  mono _ h := h
  bare h := ⟨h.1, fun hbare => by cases hbare⟩
  member hx h := ⟨h.1.part (.member .self hx), fun hbare => (h.2 hbare).part (.member .self hx)⟩
  projector h := ⟨h.1.projector, fun hbare => (h.2 hbare).projector⟩
  record := ⟨Demand.met_tableRecord _ _ fun _ hc => .inl hc, fun hbare => by cases hbare⟩
  binds h hreads := ⟨h.met (Demand.proper_allows _ _) fun x hx => (hreads x hx).1,
    fun hbare => h.met (Demand.labelled_allows _ _) fun x hx => (hreads x hx).2 hbare⟩

/-- The parameters in sight stand for columns with labels, those in `bare` apart. -/
abbrev Site.IsSound (site : Site) : Prop := site.Holds Sound

/-! The predicate of a test -/

/-- What the columns of a bound predicate stand for. The predicate is the body of a test of table `t`
at a place, with the parameter `x`. -/
structure TestColumns (catalog : Catalog) (style : IdentifierCase) (site : Site) (x : Parameter)
    (body : Expr) (t : Table) (b : Expr) : Prop where
  /-- With a mark on the columns that stand for the parameter, the same is bound. These are columns
  of members of the table. A column without a label, all the same, belongs to what a parameter in
  `bare` stands for that occurs in the predicate. -/
  own : ∀ mark, "" ≠ mark → (∀ i, label i ≠ mark) → ∃ b' s',
    (visit catalog style body).run
      (site.scope.withBound x.id (.construct t.recordType (tableColumns t mark))) = .ok (b', s') ∧
    b = b'.unmark mark ∧ (∀ c ∈ b'.exposedColumns, c.label = mark → t.declares c) ∧
    ∀ c ∈ b'.exposedColumns, c.label = "" → ∃ id ∈ site.bare, body.mentions [id] ∧
      ∃ v, site.scope.bound.lookup id = some v ∧ c ∈ v.exposedColumns
  /-- Every other parameter in sight stands for columns with labels. -/
  others : ∀ id ∈ site.ids, id ∉ site.bare →
    ∃ v, site.scope.bound.lookup id = some v ∧ ∀ c ∈ v.exposedColumns, c.label ≠ ""

theorem unmark_markedRecord (t : Table) (mark : String) :
    (Expr.construct t.recordType (tableColumns t mark)).unmark mark =
      .construct t.recordType (tableColumns t "") := by
  rw [Expr.unmark_construct]
  simp [tableColumns, Expr.unmark_of_marked]

/-- Only what stands for the parameter is marked. -/
theorem Site.IsSound.marks (h : site.IsSound) (hempty : "" ≠ mark) (hmark : ∀ i, label i ≠ mark)
    (x : Parameter) (t : Table) :
    Marks mark (x.id :: site.ids)
      (site.scope.withBound x.id (.construct t.recordType (tableColumns t mark)))
      (site.scope.withBound x.id (.construct t.recordType (tableColumns t ""))) := by
  have hsite : Marks mark site.ids site.scope site.scope := by
    refine ⟨rfl, fun id hid => ?_⟩
    obtain ⟨v, hv, hproper, -⟩ := h id hid
    refine ⟨v, hv, ?_, hproper.labels⟩
    rw [Expr.unmark_of_free fun c hc => hproper.label_ne hempty hmark hc, hv]
  have hbound := hsite.withBound x.id (Demand.met_ofLabels.mp
    (Demand.met_tableRecord t t.recordType (l := mark) fun _ _ => trivial))
  rwa [unmark_markedRecord] at hbound

/-- The predicate meets a demand if what its parameters stand for does. -/
theorem Site.IsSound.predicate (h : site.IsSound) {x : Parameter} {body b : Expr} {D : Demand}
    (hw : Walks catalog style (site.scope.withBound x.id v) body b s)
    (hclosed : body.isClosed (x.id :: site.ids)) (hD : ∀ n m, D.Allows n m) (hv : D.Met v)
    (hothers : ∀ id ∈ site.ids, body.mentions [id] →
      ∀ w, site.scope.bound.lookup id = some w → D.Met w) : D.Met b := by
  have hagrees : Agrees (x.id :: site.ids) ((x.id, v) :: site.scope.bound)
      (site.scope.withBound x.id v) := h.agrees.withBound
  refine (hw.binds hclosed hagrees).1.met (hD _ _) fun y hy => ?_
  obtain ⟨id, hid, hmentions, w, hw, hpart⟩ := reads_closed hy hclosed
  refine Demand.Met.part ?_ hpart
  by_cases heq : id = x.id
  · rw [List.lookup_cons, beq_iff_eq.mpr heq] at hw
    exact Option.some.inj hw ▸ hv
  · have hne : (id == x.id) = false := by simpa using heq
    rw [List.lookup_cons, hne] at hw
    exact hothers id ((List.mem_cons.mp hid).resolve_left heq) hmentions w hw

section Predicate

variable {x : Parameter} {body b : Expr} {t : Table}

/-- The columns under the mark are those of members of the test's table. -/
theorem Site.IsSound.own_columns (h : site.IsSound) (hempty : "" ≠ mark)
    (hmark : ∀ i, label i ≠ mark) (hclosed : body.isClosed (x.id :: site.ids))
    (hw : Walks catalog style
      (site.scope.withBound x.id (.construct t.recordType (tableColumns t mark))) body b s) :
    ∀ c ∈ b.exposedColumns, c.label = mark → t.declares c := by
  have hD (n m : Nat) :
      (Demand.ofColumns (fun c => c.label = mark → t.declares c) false).Allows n m := by
    apply Demand.ofColumns_allows
    · intro c i hi heq
      exact absurd (hi.symm.trans heq) (hmark i)
    · intro h
      cases h
  intro c hc
  refine h.predicate hw hclosed hD ?_ ?_ _ (Expr.mem_exposedColumns.mp hc)
  · refine everywhere_tableRecord (Demand.node_of_unlabelled rfl (by simp)) fun i m hm _ => ?_
    simp [Table.declares, hm]
  · intro id hid _ v hv
    obtain ⟨w, hw, hproper, -⟩ := h id hid
    cases hv.symm.trans hw
    refine Demand.met_ofColumns hproper.labels fun c hc heq => ?_
    exact absurd heq (hproper.label_ne hempty hmark (Expr.reached_subset hc))

/-- A column without a label belongs to what a parameter in `bare` stands for. -/
theorem Site.IsSound.bare_columns (h : site.IsSound) (hempty : "" ≠ mark)
    (hclosed : body.isClosed (x.id :: site.ids))
    (hw : Walks catalog style
      (site.scope.withBound x.id (.construct t.recordType (tableColumns t mark))) body b s) :
    ∀ c ∈ b.exposedColumns, c.label = "" → ∃ id ∈ site.bare, body.mentions [id] ∧
      ∃ v, site.scope.bound.lookup id = some v ∧ c ∈ v.exposedColumns := by
  intro c hc hlabel
  by_contra hnone
  have hD (n m : Nat) : (Demand.ofColumns (· ≠ c) false).Allows n m := by
    apply Demand.ofColumns_allows
    · rintro c' i hi rfl
      exact label_ne_empty i (hi.symm.trans hlabel)
    · intro h
      cases h
  refine h.predicate hw hclosed hD ?_ ?_ _ (Expr.mem_exposedColumns.mp hc) rfl
  · refine Demand.met_tableRecord t _ ?_
    rintro c' hc' rfl
    exact hempty (hlabel.symm.trans hc')
  · intro id hid hmentions v hv
    obtain ⟨w, hw, hproper, hlabelled⟩ := h id hid
    cases hv.symm.trans hw
    refine Demand.met_ofColumns hproper.labels ?_
    rintro c' hc' rfl
    by_cases hbare : id ∈ site.bare
    · exact hnone ⟨id, hbare, hmentions, v, hv, Expr.mem_exposedColumns.mpr hc'⟩
    · exact hlabelled (decide_eq_false hbare) _ hc' hlabel

end Predicate

/-- The walk of a closed query comes to each of its existence tests. Wherever it does, the columns
without a label that stand for the test's parameter are told apart in the bound predicate, and all
others without one come from the parameters in `bare`. -/
theorem existence_columns {P : Projection Expr} {method : Method} {function : Function}
    {entity : String} {x : Parameter} {body : Expr} (hclosed : e.isClosed [])
    (h : bind catalog style e = .ok P) (hm : IsExistence method function)
    (hcall : .call method (some (.collection entity)) [.lambda [x] body] ∈ e.walked) :
    (∃ site, Comes catalog style {} e site
      (.call method (some (.collection entity)) [.lambda [x] body])) ∧
    ∀ site, Comes catalog style {} e site
        (.call method (some (.collection entity)) [.lambda [x] body]) →
      ∃ t b s, catalog.table entity = .ok t ∧
        (visit catalog style (.call method (some (.collection entity)) [.lambda [x] body])).run
          site.scope = .ok (.subquery ⟨method, function, none, [b], .boolean⟩
            ("SELECT * FROM " ++ style.normalize t.name), s) ∧
        TestColumns catalog style site x body t b := by
  obtain ⟨s₀, hwalks⟩ := walks_of_bind h
  refine ⟨hwalks.comes {} rfl hcall, fun site hcomes => ?_⟩
  obtain ⟨hsite, hclosed'⟩ : site.IsSound ∧ _ :=
    hcomes.holds sound_handedOn (List.forall_mem_nil _) hclosed
  obtain ⟨-, hbody⟩ := Expr.isClosed_test hclosed'
  obtain ⟨r, s₁, hw⟩ := hcomes.walks hwalks
  cases hw with
  | bound h => cases hm <;> cases h
  | charAt => cases hm
  | toList => cases hm
  | @existence _ _ _ _ t _ _ b s' _ ht hb =>
      refine ⟨t, b, _, ht, (Walks.existence hm ht hb).run, fun mark hempty hmark => ?_,
        fun id hid hnot => ?_⟩
      · obtain ⟨b', t', hb', hunmark, -⟩ :=
          hb.marked hempty hmark hbody (hsite.marks hempty hmark x t)
        exact ⟨b', t', hb'.run, hunmark, hsite.own_columns hempty hmark hbody hb',
          hsite.bare_columns hempty hbody hb'⟩
      · obtain ⟨v, hv, -, hlabelled⟩ := hsite id hid
        exact ⟨v, hv, fun c hc =>
          hlabelled (decide_eq_false hnot) _ (Expr.mem_exposedColumns.mp hc)⟩

theorem existence_columns_of_ownedItems :
    let owner : Parameter := ⟨0, "o", .entity "Owner"⟩
    let other : Parameter := ⟨2, "j", .entity "Item"⟩
    let body : Expr := .binary (.comparison .eq) (.member (.parameter other) "Id")
      (.member (.parameter owner) "Id")
    let test : Expr := .call .existence (some (.collection "Item")) [.lambda [other] body]
    ownedItems.isClosed [] ∧ (∃ P, bind ownership .preserve ownedItems = .ok P) ∧
      test ∈ ownedItems.walked ∧ ∃ site, Comes ownership .preserve {} ownedItems site test ∧
        site.ids = [0] ∧ site.bare = [] ∧
        ∃ t b s, ownership.table "Item" = .ok t ∧
          (visit ownership .preserve test).run site.scope =
            .ok (.subquery ⟨.existence, .existence, none, [b], .boolean⟩ "SELECT * FROM items", s) ∧
          TestColumns ownership .preserve site other body t b := by
  intro owner other body test
  have hclosed : ownedItems.isClosed [] := by decide
  have hcall : test ∈ ownedItems.walked := List.mem_of_getElem? (i := 4) rfl
  obtain ⟨P, hbind⟩ : ∃ P, bind ownership .preserve ownedItems = .ok P := ⟨_, by cbv⟩
  obtain ⟨t, ht⟩ : ∃ t, ownership.table "Owner" = .ok t := ⟨_, rfl⟩
  have hsource : (visit ownership .preserve (.collection "Owner")).run {} =
      .ok (.projection (tableProjection t 0), _) := (Walks.collection ht).run
  obtain ⟨site, hcomes, hids, hbare⟩ : ∃ site, Comes ownership .preserve {} ownedItems site test ∧
      site.ids = [0] ∧ site.bare = [] :=
    ⟨_, .first rfl (.element (.inr rfl) hsource .here), rfl, rfl⟩
  obtain ⟨u, b, s, hu, hrun, hcolumns⟩ :=
    (existence_columns hclosed hbind .existence hcall).2 site hcomes
  cases hu
  exact ⟨hclosed, ⟨P, hbind⟩, hcall, site, hcomes, hids, hbare, _, b, s, rfl, hrun, hcolumns⟩

/-- The owners, if an owner has an item. -/
def ownersIfOwned : Expr :=
  let owner : Parameter := ⟨0, "o", .entity "Owner"⟩
  let other : Parameter := ⟨1, "h", .entity "Owner"⟩
  let item : Parameter := ⟨2, "i", .entity "Item"⟩
  .call .filter none [.collection "Owner", .lambda [owner]
    (.call .existence (some (.collection "Owner")) [.lambda [other]
      (.call .existence (some (.collection "Item")) [.lambda [item]
        (.binary (.comparison .eq) (.member (.parameter item) "Owner")
          (.member (.parameter other) "Id"))])])]

/-- The columns in the predicate of a test, outside the tests in it. -/
def testColumns? : Expr → Option (List Column)
  | .subquery f _ => some (f.args.flatMap Expr.exposedColumns)
  | _ => none

/-- In a test inside another, the parameter of the other test stands for a column without a label,
which the table of the inner test does not have. -/
theorem nested_test_reads_bare_column :
    ownersIfOwned.isClosed [] ∧ ∃ P, bind ownership .preserve ownersIfOwned = .ok P ∧
      (Expr.projection P).nodes.filterMap testColumns? =
        [[], [⟨"", "Owner", 0, .int32⟩, ⟨"", "Id", 0, .int32⟩]] ∧
      ∃ t, ownership.table "Item" = .ok t ∧ t.declares ⟨"", "Owner", 0, .int32⟩ ∧
        t.declares ⟨"", "Id", 0, .int32⟩ = false := by
  refine ⟨by decide, _, by cbv, by cbv, _, rfl, by decide, by decide⟩

end Binding

end Quarry
