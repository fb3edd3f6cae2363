import Quarry.Proofs.Folding
/-!
Folding reaches a normal form: nothing is left in it that could be folded, what could not be folded
is still where it was, and folding it again changes nothing. This takes a predicate that goes by the
form of a node and accepts constants, as those do that folding is used with.
-/
namespace Quarry.Expr

/-! Predicates on the form of a node -/

/-- Nodes of one form are accepted or rejected together, and constants are accepted. -/
structure DecidesByKind (p : Expr → Bool) : Prop where
  kind : ∀ a b : Expr, a.kind = b.kind → p a = p b
  constant : ∀ v t, p (.constant v t) = true

theorem decidesByKind_of_rejected {p : Expr → Bool} (kinds : List String)
    (hconstant : "constant" ∉ kinds) (h : ∀ e, p e = decide (e.kind ∉ kinds)) :
    DecidesByKind p where
  kind a b hab := by rw [h, h, hab]
  constant v t := (h _).trans (decide_eq_true hconstant)

theorem isLocal_decidesByKind : DecidesByKind isLocal :=
  decidesByKind_of_rejected ["parameter", "collection", "lambda", "outer row reference"] (by decide)
    fun e => by cases e <;> rfl

theorem isLocalInSubquery_decidesByKind : DecidesByKind isLocalInSubquery :=
  decidesByKind_of_rejected ["parameter", "collection", "lambda", "outer row reference", "table",
    "column", "select", "join", "projection", "function call", "sub-query"] (by decide)
    fun e => by cases e <;> rfl

def isCaptured : Expr → Bool
  | .captured .. => true
  | _ => false

theorem isCaptured_eq (e : Expr) : e.isCaptured = decide (e.kind = "variable") := by
  cases e <;> rfl

/-- Captured values may be rejected as well. -/
theorem DecidesByKind.uncaptured {p : Expr → Bool} (hp : DecidesByKind p) :
    DecidesByKind fun e => !e.isCaptured && p e where
  kind a b hab := by rw [isCaptured_eq, isCaptured_eq, hab, hp.kind a b hab]
  constant v t := hp.constant v t

theorem Alike.kind {R : Expr → Expr → Prop} {a b : Expr} (h : Alike R a b) : a.kind = b.kind := by
  cases h <;> rfl

/-! Rejected nodes -/

/-- A node of the tree is rejected. -/
def Blocked (p : Expr → Bool) (e : Expr) : Prop := ∃ x ∈ e.nodes, p x = false

variable {p : Expr → Bool} {e e' x : Expr}

theorem blocked_iff : Blocked p e ↔ e.nodes.all p = false := by
  simp [Blocked]

theorem Blocked.of_mem (h : Blocked p x) (hx : x ∈ e.nodes) : Blocked p e := by
  obtain ⟨y, hy, hrejected⟩ := h
  exact ⟨y, mem_nodes_trans hx hy, hrejected⟩

/-- What folding makes of a tree with a rejected node, and what of any other. -/
theorem foldWith_cases_blocked (h : e.foldWith p = .ok e') :
    (¬ Blocked p e ∧ ∃ v t, e' = .constant v t) ∨
      (Blocked p e ∧ e.Alike (fun c c' => c ∈ e.children ∧ c.foldWith p = .ok c') e') := by
  rcases foldWith_cases h with ⟨hall, hnode⟩ | ⟨hall, halike⟩
  · refine .inl ⟨fun hblocked => ?_, foldNode_eq_ok hnode⟩
    cases hall.symm.trans (blocked_iff.mp hblocked)
  · exact .inr ⟨blocked_iff.mpr hall, halike⟩

/-- Folding keeps a rejected node in the tree. -/
theorem Blocked.foldWith (hp : DecidesByKind p) (hb : Blocked p e) (h : e.foldWith p = .ok e') :
    Blocked p e' := by
  induction e using children_induction generalizing e' with
  | step e ih =>
      rcases foldWith_cases_blocked h with ⟨hfree, -⟩ | ⟨-, halike⟩
      · exact absurd hb hfree
      · obtain ⟨x, hx, hrejected⟩ := hb
        rcases mem_nodes.mp hx with rfl | ⟨c, hc, hx⟩
        · exact ⟨e', self_mem_nodes e', (hp.kind _ _ halike.kind).symm.trans hrejected⟩
        · obtain ⟨c', hc', -, hfold⟩ := exists_of_mem_left halike.children hc
          have hb' : Blocked p c' := ih c hc ⟨x, hx, hrejected⟩ hfold
          exact hb'.of_mem (mem_nodes_of_child hc' (self_mem_nodes c'))

/-! Normal forms -/

/-- Every node but the constants is rejected or has a rejected node below it. -/
def IsNormal (p : Expr → Bool) (e : Expr) : Prop :=
  ∀ x ∈ e.nodes, x.isConstant = false → Blocked p x

theorem foldWith_isNormal (hp : DecidesByKind p) (h : e.foldWith p = .ok e') : IsNormal p e' := by
  induction e using children_induction generalizing e' with
  | step e ih =>
      refine forall_mem_nodes.mpr ?_
      rcases foldWith_cases_blocked h with ⟨-, v, t, rfl⟩ | ⟨hb, halike⟩
      · exact ⟨nofun, List.forall_mem_nil _⟩
      · refine ⟨fun _ => hb.foldWith hp h, fun c' hc' => ?_⟩
        obtain ⟨c, hc, -, hfold⟩ := exists_of_mem_right halike.children hc'
        exact ih c hc hfold

theorem withChildren_children (e : Expr) : e.withChildren e.children = e := by
  have hsame : List.Forall₂ (· = ·) e.children e.children := by
    rw [List.forall₂_same]
    exact fun _ _ => rfl
  exact (alike_withChildren hsame).eq.symm

/-- Nothing can be folded in a normal form. -/
theorem IsNormal.foldWith (h : IsNormal p e) : e.foldWith p = .ok e := by
  induction e using children_induction with
  | step e ih =>
      obtain ⟨hnode, hbelow⟩ := forall_mem_nodes.mp h
      rw [foldWith_eq]
      split
      next hall =>
        cases e with
        | constant v t => rfl
        | _ => cases hall.symm.trans (blocked_iff.mp (hnode rfl))
      next =>
        have hchildren : e.children.mapM (Expr.foldWith p) = .ok e.children := by
          rw [mapM_eq_ok, List.forall₂_same]
          exact fun c hc => ih c hc (hbelow c hc)
        rw [hchildren]
        exact congrArg Except.ok (withChildren_children e)

/-! Positions -/

/-- The node at a position, which is the path of indices among the children from the root down. -/
def at? : Expr → List Nat → Option Expr
  | e, [] => some e
  | e, i :: path => e.children[i]? >>= (at? · path)

theorem mem_nodes_of_at? {path : List Nat} (h : e.at? path = some x) : x ∈ e.nodes := by
  induction path generalizing e with
  | nil =>
      obtain rfl := Option.some.inj h
      exact self_mem_nodes e
  | cons i path ih =>
      obtain ⟨c, hc, hx⟩ := Option.bind_eq_some_iff.mp h
      exact mem_nodes_of_child (List.mem_of_getElem? hc) (ih hx)

/-- At the position of a node that could not be folded stands what folding makes of that node. -/
theorem foldWith_at? {path : List Nat} (h : e.foldWith p = .ok e') (hx : e.at? path = some x)
    (hb : Blocked p x) : ∃ x', e'.at? path = some x' ∧ x.foldWith p = .ok x' := by
  induction path generalizing e e' with
  | nil =>
      obtain rfl := Option.some.inj hx
      exact ⟨e', rfl, h⟩
  | cons i path ih =>
      rcases foldWith_cases_blocked h with ⟨hfree, -⟩ | ⟨-, halike⟩
      · exact absurd (hb.of_mem (mem_nodes_of_at? hx)) hfree
      · obtain ⟨c, hc, hx⟩ := Option.bind_eq_some_iff.mp hx
        obtain ⟨c', hc', -, hfold⟩ := exists_getElem?_left halike.children hc
        obtain ⟨x', hx', hfold'⟩ := ih hfold hx
        exact ⟨x', Option.bind_eq_some_iff.mpr ⟨c', hc', hx'⟩, hfold'⟩

/-- Folding reaches a normal form under every predicate that goes by the form of a node and accepts
constants: in the result every node but the constants is rejected or has a rejected node below it,
every such node of the tree is still at its position with its form, and folding the result changes
nothing. The predicates that folding is used with are of this sort, also with captured values
rejected. -/
theorem foldWith_normalizes (e : Expr) :
    (∀ p, DecidesByKind p → ∀ e', e.foldWith p = .ok e' →
      (∀ x ∈ e'.nodes, x.isConstant = false → ∃ y ∈ x.nodes, p y = false) ∧
        (∀ path x, e.at? path = some x → (∃ y ∈ x.nodes, p y = false) →
          ∃ x', e'.at? path = some x' ∧ x'.kind = x.kind) ∧
        e'.foldWith p = .ok e') ∧
      DecidesByKind isLocal ∧ DecidesByKind isLocalInSubquery ∧
      ∀ p, DecidesByKind p → DecidesByKind fun x => !x.isCaptured && p x := by
  refine ⟨fun p hp e' h => ?_, isLocal_decidesByKind, isLocalInSubquery_decidesByKind,
    fun p hp => hp.uncaptured⟩
  have hnormal : IsNormal p e' := foldWith_isNormal hp h
  refine ⟨hnormal, fun path x hx hb => ?_, hnormal.foldWith⟩
  obtain ⟨x', hx', hfold⟩ := foldWith_at? h hx hb
  rcases foldWith_cases_blocked hfold with ⟨hfree, -⟩ | ⟨-, halike⟩
  · exact absurd hb hfree
  · exact ⟨x', hx', halike.kind.symm⟩

/-- With captured values rejected, only the sum of the two constants is folded. -/
theorem foldWith_normalizes_of_sum :
    let p (x : Expr) : Bool := !x.isCaptured && x.isLocal
    let number (n : Int32) : Expr := .constant (.int32 n) .int32
    let sum (a b : Expr) : Expr := .binary (.arithmetic .add) a b
    let k : Expr := .captured "k" (.int32 2)
    (sum k (sum (number 1) (number 1))).foldWith p = .ok (sum k (number 2)) ∧
      (sum k (number 2)).foldWith p = .ok (sum k (number 2)) ∧
      ∃ x', (sum k (number 2)).at? [0] = some x' ∧ x'.kind = "variable" := by
  intro p number sum k
  have hfold : (sum k (sum (number 1) (number 1))).foldWith p = .ok (sum k (number 2)) := by cbv
  obtain ⟨hnormalizes, hlocal, -, huncaptured⟩ :=
    foldWith_normalizes (sum k (sum (number 1) (number 1)))
  obtain ⟨-, hkept, hagain⟩ := hnormalizes p (huncaptured isLocal hlocal) _ hfold
  exact ⟨hfold, hagain, hkept [0] k rfl ⟨k, self_mem_nodes k, rfl⟩⟩

end Quarry.Expr
