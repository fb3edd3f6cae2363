import Quarry.Proofs.Everywhere
import Quarry.Proofs.Sites
/-!
Properties that binding keeps. An expression is bound to one of few forms, made of what its parts are
bound to. A property that each form has if the parts have it is an invariant, and whatever is bound
has it; the induction over the binding is made here, once over derivations and once over walks.
-/
namespace Quarry

/-- Names and types of the columns of a table or select. -/
abbrev Signature := List (String × DataType)

def Table.signature (t : Table) : Signature := t.members.map fun m => (m.name, m.type)

def Select.signature (s : Select Expr) : Signature :=
  s.columns.map fun column => (column.1, column.2.staticType?.getD .null)

/-- Collections, and the calls that make a query of others. -/
def Expr.isQuery : Expr → Bool
  | .collection _ => true
  | .call .select .. | .call .filter .. | .call .join .. | .call .toList .. => true
  | _ => false

namespace Binding

/-- More labels are given out, and those given out before keep their signatures. -/
structure Extends (G : Nat → Signature) (n : Nat) (G' : Nat → Signature) (m : Nat) : Prop where
  le : n ≤ m
  agrees : ∀ i < n, G' i = G i

section Extends

variable {G G' G'' : Nat → Signature} {n m k : Nat}

theorem Extends.refl (G : Nat → Signature) (n : Nat) : Extends G n G n := ⟨le_rfl, fun _ _ => rfl⟩

theorem Extends.trans (h : Extends G n G' m) (h' : Extends G' m G'' k) : Extends G n G'' k := by
  refine ⟨h.le.trans h'.le, fun i hi => ?_⟩
  rw [h'.agrees i (hi.trans_le h.le), h.agrees i hi]

theorem extends_update (G : Nat → Signature) (n : Nat) (s : Signature) :
    Extends G n (Function.update G n s) (n + 1) :=
  ⟨Nat.le_succ n, fun _ hi => Function.update_of_ne (Nat.ne_of_lt hi) _ _⟩

end Extends

/-- Where an expression is bound: what the labels given out so far stand for, whether columns without
a label are in sight, and which labels are. -/
structure Context where
  signatures : Nat → Signature
  labels : Nat
  bare : Bool
  visible : List String

namespace Context

/-- Nothing is in sight. -/
def outermost (G : Nat → Signature) (n : Nat) : Context := ⟨G, n, false, []⟩

/-- More labels are given out, and more is in sight. -/
structure Le (w w' : Context) : Prop where
  given : Extends w.signatures w.labels w'.signatures w'.labels
  bare : w.bare → w'.bare
  visible : w.visible ⊆ w'.visible

/-- The next label is given to a select with the signature. -/
def giving (w : Context) (s : Signature) : Context :=
  { w with signatures := Function.update w.signatures w.labels s, labels := w.labels + 1 }

/-- The labels are in sight as well. -/
def under (w : Context) (ls : List String) : Context := { w with visible := w.visible ++ ls }

/-- Inside an existence test. -/
def testing (w : Context) : Context := { w with bare := true }

theorem le_giving (w : Context) (s : Signature) : w.Le (w.giving s) :=
  ⟨extends_update w.signatures w.labels s, id, List.Subset.refl _⟩

theorem giving_signature (w : Context) (s : Signature) : (w.giving s).signatures w.labels = s :=
  Function.update_self _ _ _

theorem le_testing (w : Context) : w.Le w.testing :=
  ⟨.refl _ _, fun _ => rfl, List.Subset.refl _⟩

end Context

section

variable {G G' : Nat → Signature} {n m : Nat}

theorem Extends.le_outermost (h : Extends G n G' m) :
    (Context.outermost G n).Le (Context.outermost G' m) := ⟨h, id, List.Subset.refl _⟩

theorem Extends.le_under (h : Extends G n G' m) (bare : Bool) (visible ls : List String) :
    Context.Le ⟨G, n, bare, visible⟩ ⟨G', m, bare, visible ++ ls⟩ :=
  ⟨h, id, List.subset_append_left _ _⟩

end

/-- What is asked of the nodes of the expression that is bound, of the labels that are given out, and
of the two sides of each join. -/
structure Conditions where
  node : Expr → Prop := fun _ => True
  label : Nat → Prop := fun _ => True
  join : Projection Expr → Projection Expr → Prop := fun _ _ => True
  /-- A record is asked for nothing that its later members do not have. -/
  tail : ∀ t m ms, node (.construct t (m :: ms)) → node (.construct t ms) := by exact fun _ _ _ h => h

/-- Every form that an expression is bound to has the property, if what it is made of has it. -/
structure Invariant (catalog : Catalog) (C : Conditions) (Good : Context → Expr → Prop) : Prop where
  mono {w w' : Context} {e} : w.Le w' → Good w e → Good w' e
  constant {w v t} : C.node (.constant v t) → Good w (.constant v t)
  literal {w v} : Good w (.literal v)
  collection {w : Context} {entity t} : C.node (.collection entity) →
    catalog.table entity = .ok t → C.label w.labels → C.label (w.labels + 1) →
    Good ((w.giving t.signature).giving t.signature) (.projection (tableProjection t w.labels))
  record {w : Context} {t : Table} : w.bare → Good w (.construct t.recordType (tableColumns t ""))
  member {w e name} : isConstruct e = false → Good w e → Good w (.member e name)
  unary {w op e r} : C.node (.unary op e) → Good w r → Good w (.unary op r)
  binary {w op a b} : Good w a → Good w b → Good w (.binary op a b)
  construct {w t ms} : Good w (.construct t ms) ↔ ∀ x ∈ ms, Good w x.2
  character {w x start one} : Good w x → Good w start → Good w one →
    Good w (.function ⟨.charAt, .substr, some x, [start, one], .char⟩)
  projector {w : Context} {p} : Good w (.projection p) →
    Good (w.under [p.source.label]) p.projector
  select {w : Context} {q p b} {f : Option Expr} {r} : C.node q → q.isQuery → C.label w.labels →
    Good w (.projection p) → Good (w.under [p.source.label]) b →
    (∀ c ∈ f, Good (w.under [p.source.label]) c) →
    r = projection b w.labels [p.source.label] (.select p.source) f →
    Good (w.giving r.source.signature) (.projection r)
  join {w : Context} {e p q a b c r} : C.node e → e.isQuery → C.label w.labels → C.join p q →
    Good w (.projection p) → Good w (.projection q) →
    Good (w.under [p.source.label, q.source.label]) a →
    Good (w.under [p.source.label, q.source.label]) b →
    Good (w.under [p.source.label, q.source.label]) c →
    r = projection c w.labels [p.source.label, q.source.label] (joined p q a b) none →
    Good (w.giving r.source.signature) (.projection r)
  list {w q p} : C.node q → q.isQuery → Good w (.projection p) →
    Good w (.projection { p with shape := .list })
  existence {w : Context} {method function receiver args b sql} :
    C.node (.call method receiver args) → IsExistence method function → Good w.testing b →
    Good w (.subquery ⟨method, function, none, [b], .boolean⟩ sql)

variable {catalog : Catalog} {style : IdentifierCase} {C : Conditions}
variable {e r x : Expr} {n m : Nat}

namespace Invariant

variable {Good Good' : Context → Expr → Prop}

theorem congr (h : Invariant catalog C Good) (hGood : ∀ w e, Good w e ↔ Good' w e) :
    Invariant catalog C Good' := by
  have heq : Good = Good' := by
    funext w e
    exact propext (hGood w e)
  exact heq ▸ h

section Laws

variable (laws : Invariant catalog C Good) {w : Context}
include laws

theorem memberOf {name : String} (h : Binding.memberOf e name = .ok x) (he : Good w e) :
    Good w x := by
  rcases memberOf_cases h with ⟨t, ms, rfl, hlookup⟩ | ⟨hconstruct, rfl⟩
  · exact laws.construct.mp he _ (mem_of_lookup hlookup)
  · exact laws.member hconstruct he

theorem substring {i : Expr} (h : Binding.substring x i = .ok r) (hx : Good w x) (hi : Good w i) :
    Good w r :=
  substring_of_parts h hi (fun _ => laws.literal) (fun _ _ => laws.binary)
    fun _ _ => laws.character hx

theorem cons {t : DataType} {name : String} {ms : List (String × Expr)} (he : Good w e)
    (hms : Good w (.construct t ms)) : Good w (.construct t ((name, e) :: ms)) := by
  refine laws.construct.mpr fun x hx => ?_
  rcases List.mem_cons.mp hx with rfl | hx
  · exact he
  · exact laws.construct.mp hms x hx

theorem projector_under {p : Projection Expr} {ls : List String} (h : Good w (.projection p))
    (hl : p.source.label ∈ ls) : Good (w.under ls) p.projector := by
  have hle : (w.under [p.source.label]).Le (w.under ls) := by
    refine ⟨.refl _ _, id, List.append_subset.mpr ⟨List.subset_append_left _ _, ?_⟩⟩
    exact List.cons_subset.mpr ⟨List.mem_append_right _ hl, List.nil_subset _⟩
  exact laws.mono hle (laws.projector h)

variable {G G' : Nat → Signature} {bare : Bool} {visible : List String}

theorem extend (h : Good ⟨G, n, bare, visible⟩ e) (hG : Extends G n G' m) :
    Good ⟨G', m, bare, visible⟩ e := by
  have hle : Context.Le ⟨G, n, bare, visible⟩ ⟨G', m, bare, visible⟩ :=
    ⟨hG, id, List.Subset.refl _⟩
  exact laws.mono hle h

end Laws

end Invariant

/-! The expression that is bound -/

section Nodes

variable {c : Expr} {method : Method} {receiver : Option Expr} {args : List Expr}

/-- All nodes meet what is asked of them. -/
def Conditions.Met (C : Conditions) (e : Expr) : Prop := ∀ x ∈ e.nodes, C.node x

namespace Conditions.Met

theorem self (h : C.Met e) : C.node e := h e (Expr.self_mem_nodes e)

theorem child (h : C.Met e) (hc : c ∈ e.children) : C.Met c :=
  fun x hx => h x (Expr.mem_nodes_of_child hc hx)

theorem arg (h : C.Met (.call method receiver args)) (hc : c ∈ args) : C.Met c :=
  h.child (List.mem_append_right _ hc)

theorem body (h : C.Met (.call method receiver args)) (params : List Parameter) {body : Expr}
    (hc : .lambda params body ∈ args) : C.Met body :=
  (h.arg hc).child List.mem_cons_self

theorem tail {t : DataType} {m : String × Expr} {ms : List (String × Expr)}
    (h : C.Met (.construct t (m :: ms))) : C.Met (.construct t ms) := by
  intro x hx
  rcases Expr.mem_nodes.mp hx with rfl | ⟨c, hc, hx⟩
  · exact C.tail t m ms h.self
  · exact h x (Expr.mem_nodes_of_child (List.mem_cons_of_mem _ hc) hx)

end Conditions.Met

end Nodes

/-! Derivations -/

section Derivations

variable {Good : Context → Expr → Prop} {env : List (Nat × Expr)}

/-- In the body of a lambda, what its parameters stand for is read as well. -/
theorem Invariant.reads_body (laws : Invariant catalog C Good) {method : Method}
    {receiver : Option Expr} {args : List Expr} {body : Expr} {w w' : Context} (hw : w.Le w')
    (params : List Parameter) (bindings : List (Nat × Expr))
    (h : ∀ x ∈ reads (.call method receiver args) env, Good w x)
    (hids : ∀ id, id ∈ params.map (·.id) ↔ id ∈ bindings.map (·.1))
    (harg : .lambda params body ∈ args) (hbound : ∀ b ∈ bindings, Good w' b.2) :
    ∀ x ∈ reads body (bindings ++ env), Good w' x := by
  intro x hx
  rcases Binding.reads_body hids hx with hx | ⟨b, hb, hpart⟩
  · exact laws.mono hw (h x (arg_reads harg hx))
  · exact hpart.holds (hbound b hb) fun _ _ _ => laws.memberOf

/-- What is bound has an invariant, if all that is read through parameters has it. -/
theorem Binds.invariant (h : Binds catalog style env n e r m) (laws : Invariant catalog C Good)
    (hjoin : ∀ p q, C.join p q) (hfine : C.Met e) (hlabel : ∀ i, n ≤ i → i < m → C.label i)
    (G : Nat → Signature) (bare : Bool) (visible : List String)
    (hreads : ∀ x ∈ reads e env, Good ⟨G, n, bare, visible⟩ x) :
    ∃ G', Extends G n G' m ∧ Good ⟨G', m, bare, visible⟩ r := by
  induction h generalizing G bare visible with
  | constant => exact ⟨G, .refl G _, laws.constant hfine.self⟩
  | captured => exact ⟨G, .refl G _, laws.literal⟩
  | constructNil => exact ⟨G, .refl G _, laws.construct.mpr (List.forall_mem_nil _)⟩
  | @parameter env n p r h =>
      have hpath : path? env (.parameter p) = some r := h
      exact ⟨G, .refl G n, hreads r (by rw [reads_of_path hpath]; exact List.mem_cons_self)⟩
  | @collection env n entity t h =>
      let w : Context := ⟨G, n, bare, visible⟩
      have hG := (w.le_giving t.signature).given.trans
        ((w.giving t.signature).le_giving t.signature).given
      exact ⟨_, hG, laws.collection (w := w) hfine.self h (hlabel n le_rfl (by omega))
        (hlabel (n + 1) (by omega) (by omega))⟩
  | @member env n target name r x m ht h ih =>
      cases hpath : path? env (.member target name) with
      | some y =>
          obtain ⟨rfl, rfl⟩ := (Binds.member ht h).path_eq hpath
          exact ⟨G, .refl G _, hreads x (by rw [reads_of_path hpath]; exact List.mem_cons_self)⟩
      | none =>
          have hsub := reads_child hpath (by simp) (c := target) (by simp [Expr.children])
          obtain ⟨G', hG, hr⟩ := ih (hfine.child (by simp [Expr.children])) hlabel _ _ _
            fun y hy => hreads y (hsub hy)
          exact ⟨G', hG, laws.memberOf h hr⟩
  | unary _ ih =>
      obtain ⟨G', hG, hr⟩ := ih (hfine.child (by simp [Expr.children])) hlabel _ _ _ fun y hy =>
        hreads y (reads_child rfl (by simp) (by simp [Expr.children]) hy)
      exact ⟨G', hG, laws.unary hfine.self hr⟩
  | binary ha hb iha ihb =>
      have hle := ha.le
      have hle' := hb.le
      obtain ⟨G₁, hG₁, hx⟩ := iha (hfine.child (by simp [Expr.children]))
        (fun i hi hlt => hlabel i hi (by omega)) _ _ _ fun y hy =>
          hreads y (reads_child rfl (by simp) (by simp [Expr.children]) hy)
      obtain ⟨G₂, hG₂, hy⟩ := ihb (hfine.child (by simp [Expr.children]))
        (fun i hi => hlabel i (by omega)) _ _ _ fun y hy => laws.extend
          (hreads y (reads_child rfl (by simp) (by simp [Expr.children]) hy)) hG₁
      exact ⟨G₂, hG₁.trans hG₂, laws.binary (laws.extend hx hG₂) hy⟩
  | @constructCons env n t name e ms r rs k m he hms ihe ihms =>
      have hle := he.le
      have hle' := hms.le
      have htail : reads (.construct t ms) env ⊆ reads (.construct t ((name, e) :: ms)) env := by
        rw [reads_of_children rfl (by simp), reads_of_children rfl (by simp)]
        exact List.subset_append_right _ _
      obtain ⟨G₁, hG₁, hr⟩ := ihe (hfine.child (by simp [Expr.children]))
        (fun i hi hlt => hlabel i hi (by omega)) _ _ _ fun y hy =>
          hreads y (reads_child rfl (by simp) (by simp [Expr.children]) hy)
      obtain ⟨G₂, hG₂, hrs⟩ := ihms hfine.tail (fun i hi => hlabel i (by omega)) _ _ _ fun y hy =>
        laws.extend (hreads y (htail hy)) hG₁
      exact ⟨G₂, hG₁.trans hG₂, laws.cons (laws.extend hr hG₂) hrs⟩
  | charAt hs hi h ihs ihi =>
      have hle := hs.le
      have hle' := hi.le
      obtain ⟨G₁, hG₁, hx⟩ := ihs (hfine.child (by simp [Expr.children]))
        (fun i hi hlt => hlabel i hi (by omega)) _ _ _ fun y hy =>
          hreads y (reads_child rfl (by simp) (by simp [Expr.children]) hy)
      obtain ⟨G₂, hG₂, hi⟩ := ihi (hfine.arg (by simp)) (fun i hi => hlabel i (by omega))
        _ _ _ fun y hy => laws.extend (hreads y (arg_reads (by simp) hy)) hG₁
      exact ⟨G₂, hG₁.trans hG₂, laws.substring h (laws.extend hx hG₂) hi⟩
  | @select env n receiver source x body p b k m hs hb ihs ihb =>
      have hle := hs.le
      have hle' := hb.le
      obtain ⟨G₁, hG₁, hp⟩ := ihs (hfine.arg (by simp)) (fun i hi hlt => hlabel i hi (by omega))
        _ _ _ fun y hy => hreads y (arg_reads (by simp) hy)
      have hprojector : Good ⟨G₁, k, bare, visible ++ [p.source.label]⟩ p.projector :=
        laws.projector hp
      obtain ⟨G₂, hG₂, hbody⟩ := ihb (hfine.body [x] (by simp))
        (fun i hi hlt => hlabel i (by omega) (by omega)) _ _ _
        (laws.reads_body (hG₁.le_under _ _ _) [x] [(x.id, p.projector)] hreads (by simp) (by simp)
          (by simpa using hprojector))
      have hr := laws.select (w := ⟨G₂, m, bare, visible⟩) (f := none) hfine.self rfl
        (hlabel m (by omega) (by omega)) (laws.extend hp hG₂) hbody (by simp) rfl
      exact ⟨_, (hG₁.trans hG₂).trans (extends_update _ _ _), hr⟩
  | @filter env n receiver source x body p b k m hs hb ihs ihb =>
      have hle := hs.le
      have hle' := hb.le
      obtain ⟨G₁, hG₁, hp⟩ := ihs (hfine.arg (by simp)) (fun i hi hlt => hlabel i hi (by omega))
        _ _ _ fun y hy => hreads y (arg_reads (by simp) hy)
      have hprojector : Good ⟨G₁, k, bare, visible ++ [p.source.label]⟩ p.projector :=
        laws.projector hp
      obtain ⟨G₂, hG₂, hbody⟩ := ihb (hfine.body [x] (by simp))
        (fun i hi hlt => hlabel i (by omega) (by omega)) _ _ _
        (laws.reads_body (hG₁.le_under _ _ _) [x] [(x.id, p.projector)] hreads (by simp) (by simp)
          (by simpa using hprojector))
      have hr := laws.select (w := ⟨G₂, m, bare, visible⟩) (f := some b) hfine.self rfl
        (hlabel m (by omega) (by omega)) (laws.extend hp hG₂) (laws.extend hprojector hG₂)
        (fun f hf => Option.some.inj hf ▸ hbody) rfl
      exact ⟨_, (hG₁.trans hG₂).trans (extends_update _ _ _), hr⟩
  | @join env n receiver left right x leftKey y rightKey x' y' result p q a b c n₁ n₂ n₃ n₄ m
      hl hr ha hb hc ihl ihr iha ihb ihc =>
      have hle₁ := hl.le
      have hle₂ := hr.le
      have hle₃ := ha.le
      have hle₄ := hb.le
      have hle₅ := hc.le
      obtain ⟨G₁, hG₁, hp⟩ := ihl (hfine.arg (by simp)) (fun i hi hlt => hlabel i hi (by omega))
        _ _ _ fun z hz => hreads z (arg_reads (by simp) hz)
      obtain ⟨G₂, hG₂, hq⟩ := ihr (hfine.arg (by simp))
        (fun i hi hlt => hlabel i (by omega) (by omega)) _ _ _
        fun z hz => laws.extend (hreads z (arg_reads (by simp) hz)) hG₁
      have hG₁₂ := hG₁.trans hG₂
      -- the keys and the result see both sides
      have hleft : Good ⟨G₂, n₂, bare, visible ++ [p.source.label, q.source.label]⟩ p.projector :=
        laws.projector_under (laws.extend hp hG₂) (by simp)
      have hright : Good ⟨G₂, n₂, bare, visible ++ [p.source.label, q.source.label]⟩ q.projector :=
        laws.projector_under hq (by simp)
      obtain ⟨G₃, hG₃, hkey⟩ := iha (hfine.body [x] (by simp))
        (fun i hi hlt => hlabel i (by omega) (by omega)) _ _ _
        (laws.reads_body (hG₁₂.le_under _ _ _) [x] [(x.id, p.projector)] hreads (by simp) (by simp)
          (by simpa using hleft))
      obtain ⟨G₄, hG₄, hkey'⟩ := ihb (hfine.body [y] (by simp))
        (fun i hi hlt => hlabel i (by omega) (by omega)) _ _ _
        (laws.reads_body ((hG₁₂.trans hG₃).le_under _ _ _) [y] [(y.id, q.projector)] hreads
          (by simp) (by simp) (by simpa using laws.extend hright hG₃))
      have hG₃₄ := hG₃.trans hG₄
      obtain ⟨G₅, hG₅, hresult⟩ := ihc (hfine.body [x', y'] (by simp))
        (fun i hi hlt => hlabel i (by omega) (by omega)) _ _ _
        (laws.reads_body ((hG₁₂.trans hG₃₄).le_under _ _ _) [x', y']
          [(y'.id, q.projector), (x'.id, p.projector)] hreads (by simp [or_comm]) (by simp)
          (by simpa using ⟨laws.extend hright hG₃₄, laws.extend hleft hG₃₄⟩))
      have hG₂₅ := hG₃₄.trans hG₅
      have hr := laws.join (w := ⟨G₅, m, bare, visible⟩) hfine.self rfl (hlabel m (by omega) (by omega))
        (hjoin p q) (laws.extend hp (hG₂.trans hG₂₅)) (laws.extend hq hG₂₅)
        (laws.extend hkey (hG₄.trans hG₅)) (laws.extend hkey' hG₅) hresult rfl
      exact ⟨_, (hG₁₂.trans hG₂₅).trans (extends_update _ _ _), hr⟩
  | toList _ ih =>
      obtain ⟨G', hG, hp⟩ := ih (hfine.arg (by simp)) hlabel _ _ _
        fun y hy => hreads y (arg_reads (by simp) hy)
      exact ⟨G', hG, laws.list hfine.self rfl hp⟩
  | @existence env n method function entity t x body b m hm ht hb ih =>
      let w : Context := ⟨G, n, bare, visible⟩
      have hrecord : Good w.testing (.construct t.recordType (tableColumns t "")) :=
        laws.record rfl
      obtain ⟨G', hG, hb⟩ := ih (hfine.body [x] (by simp)) hlabel _ _ _
        (laws.reads_body w.le_testing [x] [(x.id, _)] hreads (by simp) List.mem_cons_self
          (by simpa using hrecord))
      exact ⟨G', hG, laws.existence (w := ⟨G', m, bare, visible⟩) hfine.self hm hb⟩

/-- What is bound has an invariant, if all that the parameters stand for has it. -/
theorem Binds.invariant_of_env (h : Binds catalog style env n e r m)
    (laws : Invariant catalog C Good) (hjoin : ∀ p q, C.join p q) (hfine : C.Met e)
    (hlabel : ∀ i, n ≤ i → i < m → C.label i) (G : Nat → Signature) (bare : Bool)
    (visible : List String) (henv : ∀ x ∈ env, Good ⟨G, n, bare, visible⟩ x.2) :
    ∃ G', Extends G n G' m ∧ Good ⟨G', m, bare, visible⟩ r := by
  refine h.invariant laws hjoin hfine hlabel G bare visible fun x hx => ?_
  obtain ⟨id, v, hv, hpart⟩ := part_of_reads hx
  exact hpart.holds (henv _ (mem_of_lookup hv)) fun _ _ _ => laws.memberOf

end Derivations

/-! Walks -/

section Walks

variable {Good : (Nat → Signature) → Nat → Expr → Prop} {G G' : Nat → Signature} {s s' : Scope}

/-- All that parameters stand for has the property. -/
def Scope.Has (Good : (Nat → Signature) → Nat → Expr → Prop) (G : Nat → Signature) (s : Scope) :
    Prop :=
  ∀ x ∈ s.bound, Good G s.labels x.2

theorem Scope.Has.without (h : s.Has Good G) (id : Nat) : (s.without id).Has Good G :=
  fun x hx => h x (List.mem_of_mem_filter hx)

theorem Scope.Has.withBound (h : s.Has Good G) (id : Nat) (he : Good G s.labels e) :
    (s.withBound id e).Has Good G := by
  intro x hx
  rcases List.mem_cons.mp hx with rfl | hx
  · exact he
  · exact h x (List.mem_of_mem_filter hx)

/-- What a walk binds has an invariant that does not depend on what is in sight, if all that the
parameters stand for has it. -/
theorem Walks.invariant (h : Walks catalog style s e r s')
    (laws : Invariant catalog C fun w => Good w.signatures w.labels) (hlabel : ∀ i, C.label i)
    (hfree : ∀ G n p, Good G n (.parameter p))
    (hbound : ∀ G n e, e.isBound → C.Met e → Good G n e) (site : Site) (hsite : site.scope = s)
    (hjoins : JoinsMeet catalog style C.join site e) (hfine : C.Met e) (hs : s.Has Good G) :
    ∃ G', Extends G s.labels G' s'.labels ∧ Good G' s'.labels r ∧ s'.Has Good G' := by
  have hextend {G G' : Nat → Signature} {n m : Nat} {e : Expr} (he : Good G n e)
      (hG : Extends G n G' m) : Good G' m e :=
    laws.mono hG.le_outermost he
  have hprojector {G : Nat → Signature} {n : Nat} {p : Projection Expr}
      (hp : Good G n (.projection p)) : Good G n p.projector :=
    laws.projector (w := .outermost G n) hp
  induction h generalizing G site with
  | constant => exact ⟨G, .refl G _, laws.constant (w := .outermost G _) hfine.self, hs⟩
  | captured => exact ⟨G, .refl G _, laws.literal (w := .outermost G _), hs⟩
  | constructNil =>
      exact ⟨G, .refl G _, (laws.construct (w := .outermost G _)).mpr (List.forall_mem_nil _), hs⟩
  | @parameter s p =>
      refine ⟨G, .refl G _, ?_, hs⟩
      cases hlookup : s.bound.lookup p.id with
      | none => exact hfree G _ p
      | some x => exact hs _ (mem_of_lookup hlookup)
  | bound h => exact ⟨G, .refl G _, hbound G _ _ h hfine, hs⟩
  | @collection s entity t ht =>
      let w := Context.outermost G s.labels
      have hG := (w.le_giving t.signature).given.trans
        ((w.giving t.signature).le_giving t.signature).given
      exact ⟨_, hG, laws.collection (w := w) hfine.self ht (hlabel _) (hlabel _),
        fun x hx => hextend (hs x hx) hG⟩
  | @member s target name r x s' _ hx ih =>
      obtain ⟨G', hG, hr, hs'⟩ := ih site hsite (hjoins.lift fun _ _ _ => .first rfl)
        (hfine.child (by simp [Expr.children])) hs
      exact ⟨G', hG, laws.memberOf (w := .outermost G' _) hx hr, hs'⟩
  | @unary s op e r s' _ ih =>
      obtain ⟨G', hG, hr, hs'⟩ := ih site hsite (hjoins.lift fun _ _ _ => .first rfl)
        (hfine.child (by simp [Expr.children])) hs
      exact ⟨G', hG, laws.unary (w := .outermost G' _) hfine.self hr, hs'⟩
  | @binary s op a b x y s₁ s' ha _ iha ihb =>
      subst hsite
      obtain ⟨G₁, hG₁, hx, hs₁⟩ := iha site rfl (hjoins.lift fun _ _ _ => .first rfl)
        (hfine.child (by simp [Expr.children])) hs
      obtain ⟨G₂, hG₂, hy, hs₂⟩ := ihb (site.after s₁) rfl
        (hjoins.lift fun _ _ _ => .second rfl ha) (hfine.child (by simp [Expr.children])) hs₁
      exact ⟨G₂, hG₁.trans hG₂,
        laws.binary (w := .outermost G₂ _) (hextend hx hG₂) hy, hs₂⟩
  | @constructCons s t name e ms r rs s₁ s' he _ ihe ihms =>
      subst hsite
      obtain ⟨G₁, hG₁, hr, hs₁⟩ := ihe site rfl (hjoins.lift fun _ _ _ => .first rfl)
        (hfine.child (by simp [Expr.children])) hs
      obtain ⟨G₂, hG₂, hrs, hs₂⟩ := ihms (site.after s₁) rfl
        (hjoins.lift fun _ _ _ h => h.later he (by simp)) hfine.tail hs₁
      exact ⟨G₂, hG₁.trans hG₂,
        laws.cons (w := .outermost G₂ _) (hextend hr hG₂) hrs, hs₂⟩
  | @charAt s string index x i r s₁ s' hx _ h ihx ihi =>
      subst hsite
      obtain ⟨G₁, hG₁, hx', hs₁⟩ := ihx site rfl (hjoins.lift fun _ _ _ => .first rfl)
        (hfine.child (by simp [Expr.children])) hs
      obtain ⟨G₂, hG₂, hi, hs₂⟩ := ihi (site.after s₁) rfl
        (hjoins.lift fun _ _ _ => .second rfl hx) (hfine.arg (by simp)) hs₁
      exact ⟨G₂, hG₁.trans hG₂,
        laws.substring (w := .outermost G₂ _) h (hextend hx' hG₂) hi, hs₂⟩
  | @select s receiver source x body p b s₁ s' hsource _ ihs ihb =>
      subst hsite
      obtain ⟨G₁, hG₁, hp, hs₁⟩ := ihs site rfl (hjoins.lift fun _ _ _ => .first rfl)
        (hfine.arg (by simp)) hs
      obtain ⟨G₂, hG₂, hb, hs₂⟩ := ihb _ rfl
        (hjoins.lift fun _ _ _ => .element (.inl rfl) hsource.run) (hfine.body [x] (by simp))
        (hs₁.withBound x.id (hprojector hp))
      have hr := laws.select (w := .outermost G₂ _) (f := none) hfine.self rfl (hlabel _)
        (hextend hp hG₂) hb (by simp) rfl
      exact ⟨_, (hG₁.trans hG₂).trans (extends_update _ _ _), hr,
        fun x hx => hextend (hs₂ x hx) (extends_update _ _ _)⟩
  | @filter s receiver source x body p b s₁ s' hsource _ ihs ihb =>
      subst hsite
      obtain ⟨G₁, hG₁, hp, hs₁⟩ := ihs site rfl (hjoins.lift fun _ _ _ => .first rfl)
        (hfine.arg (by simp)) hs
      obtain ⟨G₂, hG₂, hb, hs₂⟩ := ihb _ rfl
        (hjoins.lift fun _ _ _ => .element (.inr rfl) hsource.run) (hfine.body [x] (by simp))
        (hs₁.withBound x.id (hprojector hp))
      have hr := laws.select (w := .outermost G₂ _) (f := some b) hfine.self rfl (hlabel _)
        (hextend hp hG₂) (hextend (hprojector hp) hG₂) (fun f hf => Option.some.inj hf ▸ hb) rfl
      exact ⟨_, (hG₁.trans hG₂).trans (extends_update _ _ _), hr,
        fun x hx => hextend (hs₂ x hx) (extends_update _ _ _)⟩
  | @join s receiver left right x leftKey y rightKey x' y' result p q a b c s₁ s₂ s₃ s₄ s'
      hl hr ha hb _ ihl ihr iha ihb ihc =>
      subst hsite
      have hjoin := hjoins site receiver left right _ p q s₁ s₂ .here hl hr
      obtain ⟨G₁, hG₁, hp, hs₁⟩ := ihl site rfl (hjoins.lift fun _ _ _ => .first rfl)
        (hfine.arg (by simp)) hs
      obtain ⟨G₂, hG₂, hq, hs₂⟩ := ihr (site.after s₁) rfl
        (hjoins.lift fun _ _ _ => .second rfl hl) (hfine.arg (by simp)) hs₁
      have hleft := hprojector (hextend hp hG₂)
      obtain ⟨G₃, hG₃, hkey, hs₃⟩ := iha _ rfl
        (hjoins.lift fun _ _ _ => .leftKey hl.run hr.run) (hfine.body [x] (by simp))
        (hs₂.withBound x.id hleft)
      obtain ⟨G₄, hG₄, hkey', hs₄⟩ := ihb _ rfl
        (hjoins.lift fun _ _ _ => .rightKey hl.run hr.run ha.run) (hfine.body [y] (by simp))
        (hs₃.withBound y.id (hextend (hprojector hq) hG₃))
      have hG₃₄ := hG₃.trans hG₄
      obtain ⟨G₅, hG₅, hresult, hs₅⟩ := ihc _ rfl
        (hjoins.lift fun _ _ _ => .result hl.run hr.run ha.run hb.run)
        (hfine.body [x', y'] (by simp))
        ((hs₄.withBound x'.id (hextend hleft hG₃₄)).withBound y'.id
          (hextend (hprojector hq) hG₃₄))
      have hG₂₅ := hG₃₄.trans hG₅
      have hr' := laws.join (w := .outermost G₅ _) hfine.self rfl (hlabel _) hjoin
        (hextend hp (hG₂.trans hG₂₅)) (hextend hq hG₂₅) (hextend hkey (hG₄.trans hG₅))
        (hextend hkey' hG₅) hresult rfl
      exact ⟨_, ((hG₁.trans hG₂).trans hG₂₅).trans (extends_update _ _ _), hr',
        fun x hx => hextend (hs₅ x hx) (extends_update _ _ _)⟩
  | @toList s receiver source p s' _ ih =>
      obtain ⟨G', hG, hp, hs'⟩ := ih site hsite (hjoins.lift fun _ _ _ => .first rfl)
        (hfine.arg (by simp)) hs
      exact ⟨G', hG, laws.list (w := .outermost G' _) hfine.self rfl hp, hs'⟩
  | @existence s method function entity t x body b s' hm ht _ ih =>
      subst hsite
      let w := (Context.outermost G site.scope.labels).testing
      obtain ⟨G', hG, hb, hs'⟩ := ih _ rfl (hjoins.lift fun _ _ _ => .test hm ht)
        (hfine.body [x] (by simp)) (hs.withBound x.id (laws.record (w := w) rfl))
      exact ⟨G', hG, laws.existence (w := .outermost G' _) hfine.self hm hb, hs'.without x.id⟩

end Walks

/-! Properties of nodes -/

/-- The forms that carry neither a label nor an operator of one side. -/
def isNeutral : Expr → Bool
  | .constant .. | .member .. | .binary .. | .construct .. | .function _ | .subquery .. => true
  | _ => false

/-- What every node of a bound expression has, if each new node has it and a move keeps it; in an
existence test only if `inside`. -/
structure NodeInvariant (C : Conditions) (inside : Bool) (N : Expr → Prop) : Prop where
  neutral {e : Expr} : isNeutral e → N e
  unary {op} {e r : Expr} : C.node (.unary op e) → N (.unary op r)
  column {c : Column} {n : Nat} : C.label n → c.label = label n → N (.column c)
  bare {c : Column} : inside → c.label = "" → N (.column c)
  table {t : TableRef} {n : Nat} : C.label n → t.label = label n → N (.table t)
  projection {p} {n : Nat} : C.label n → p.source.label = label n → N (.projection p)
  select {p} : N (.projection p) → N (.select p.source)
  list {p} : N (.projection p) → N (.projection { p with shape := .list })
  /-- The columns that a projection has, wherever they are named. -/
  source {p} {c : Column} : inside = false → N (.projection p) → c.label = p.source.label →
    N (.column c)
  join {p q a b} : C.join p q → N (joined p q a b)
  moved {l sources columns nested} {e e' : Expr} : N e →
    Expr.Alike (Moved l sources columns · nested ·) e e' → N e'

namespace NodeInvariant

variable {inside : Bool} {N : Expr → Prop} (laws : NodeInvariant C inside N)
include laws

theorem everywhere_neutral (he : isNeutral e) (h : ∀ c ∈ e.children, c.Everywhere inside N) :
    e.Everywhere inside N :=
  .of_children (laws.neutral he) h

/-- A new select over sources whose columns have the property. -/
theorem everywhere_select {projector source : Expr} {sources : List String} {filter : Option Expr}
    (hn : C.label n) (hp : projector.Everywhere inside N) (hs : source.Everywhere inside N)
    (hf : ∀ f ∈ filter, f.Everywhere inside N)
    (hcolumn : inside = false → ∀ c : Column, c.label ∈ sources → N (.column c)) :
    (Expr.projection (Binding.projection projector n sources source filter)).Everywhere inside N := by
  have hprojected := projectColumns_projected projector (label n) sources
  refine everywhere_projection (laws.projection hn rfl) hp hs hf ?_ hcolumn fun _ h => h
  refine hprojected.moved.everywhere (I := fun _ _ => True) hp trivial (fun _ _ _ _ _ => trivial) ?_
    fun _ _ _ _ _ => laws.moved
  rintro e _ ⟨i, name, -, rfl⟩
  exact laws.column hn rfl

/-- A property of nodes makes an invariant; what stands in existence tests is asked only if it is
reached. -/
theorem invariant : Invariant catalog C fun w e => (w.bare → inside) → e.Everywhere inside N where
  mono hle h hinside := h fun hbare => hinside (hle.bare hbare)
  constant _ _ := laws.everywhere_neutral rfl (List.forall_mem_nil _)
  literal _ := laws.everywhere_neutral rfl (List.forall_mem_nil _)
  collection {w entity t} _ _ hn hm _ := by
    refine everywhere_tableProjection (laws.projection hm rfl) (laws.table hn rfl)
      (laws.neutral rfl) fun k hk hlt i m _ => ?_
    obtain rfl | rfl : k = w.labels ∨ k = w.labels + 1 := by omega
    · exact laws.column hn rfl
    · exact laws.column hm rfl
  record hbare hinside :=
    everywhere_tableRecord (laws.neutral rfl) fun _ _ _ => laws.bare (hinside hbare) rfl
  member _ h hinside := laws.everywhere_neutral rfl (by simpa [Expr.children] using h hinside)
  unary hfine h hinside := .of_children (laws.unary hfine) (by simpa [Expr.children] using h hinside)
  binary ha hb hinside :=
    laws.everywhere_neutral rfl (by simp [Expr.children, ha hinside, hb hinside])
  construct := by
    intro w t ms
    constructor
    · intro h x hx hinside
      exact (everywhere_construct (laws.neutral rfl)).mp (h hinside) x hx
    · intro h hinside
      exact (everywhere_construct (laws.neutral rfl)).mpr fun x hx => h x hx hinside
  character hx hstart hone hinside := laws.everywhere_neutral rfl
    (by simp [Expr.children, FunctionCall.children, hx hinside, hstart hinside, hone hinside])
  projector h hinside := (h hinside).projector
  select _ _ hn hp hb hf hr hinside := by
    subst hr
    refine laws.everywhere_select hn (hb hinside) ((hp hinside).source laws.select)
      (fun f hmem => hf f hmem hinside) ?_
    intro hout c hc
    exact laws.source hout (hp hinside).self (List.mem_singleton.mp hc)
  join _ _ hn hjoin hp hq ha hb hc hr hinside := by
    subst hr
    refine laws.everywhere_select hn (hc hinside) ?_ (by simp) ?_
    · refine everywhere_joined (laws.join hjoin) ((hp hinside).source laws.select)
        ((hq hinside).source laws.select) (laws.everywhere_neutral rfl ?_)
      simp [Expr.children, ha hinside, hb hinside]
    · intro hout c hmem
      rcases List.mem_pair.mp hmem with h | h
      · exact laws.source hout (hp hinside).self h
      · exact laws.source hout (hq hinside).self h
  list _ _ h hinside := .of_children (laws.list (h hinside).self) fun _ hc => (h hinside).child rfl hc
  existence _ _ hb _ := by
    refine Expr.everywhere_iff.mpr ⟨laws.neutral rfl, fun hinside => ?_⟩
    simpa [Expr.children, FunctionCall.children] using hb fun _ => hinside rfl

end NodeInvariant

section Nodes

variable {N : Expr → Prop}

/-- The same where all nodes are reached. -/
theorem NodeInvariant.invariant_nodes (laws : NodeInvariant C true N) :
    Invariant catalog C fun _ e => ∀ x ∈ e.nodes, N x := by
  refine laws.invariant.congr fun w e => ?_
  rw [Expr.everywhere_true]
  simp

/-- A property of nodes holds throughout what a whole query is bound to. -/
theorem Walks.forall_mem_nodes {s : Scope} (h : Walks catalog style {} e r s)
    (laws : NodeInvariant C true N) (hlabel : ∀ i, C.label i) (hfree : ∀ p, N (.parameter p))
    (hbound : ∀ e, e.isBound → C.Met e → ∀ x ∈ e.nodes, N x)
    (hjoins : JoinsMeet catalog style C.join {} e) (hfine : C.Met e) : ∀ x ∈ r.nodes, N x := by
  have hlaws : Invariant catalog C fun w =>
      (fun (_ : Nat → Signature) (_ : Nat) (r : Expr) => ∀ x ∈ r.nodes, N x) w.signatures w.labels :=
    laws.invariant_nodes
  have hleaf (p : Parameter) : ∀ x ∈ (Expr.parameter p).nodes, N x :=
    Expr.forall_mem_nodes.mpr ⟨hfree p, List.forall_mem_nil _⟩
  obtain ⟨-, -, hr, -⟩ := h.invariant (G := fun _ => []) hlaws hlabel (fun _ _ => hleaf)
    (fun _ _ => hbound) {} rfl hjoins hfine (List.forall_mem_nil _)
  exact hr

end Nodes

end Binding

end Quarry
