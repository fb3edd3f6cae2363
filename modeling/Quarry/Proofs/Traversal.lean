import Mathlib
import Quarry.Expr.Traversal
import Quarry.Proofs.Lists
/-!
Expressions as nodes with a list of children. Every walk goes through the children of a node, so
what a walk does is said once for all forms of nodes: a node can be taken apart into its children
and filled again with others.
-/
namespace Quarry

namespace Expr

/-! Induction -/

theorem sizeOf_member_lt {ms : List (String × Expr)} {c : Expr} (h : c ∈ ms.map (·.2)) :
    sizeOf c < sizeOf ms := by
  obtain ⟨⟨n, e⟩, hm, rfl⟩ := List.mem_map.mp h
  have := List.sizeOf_lt_of_mem hm
  simp only [Prod.mk.sizeOf_spec] at this
  simp only
  omega

theorem sizeOf_optional_lt {o : Option Expr} {c : Expr} (h : c ∈ o.toList) :
    sizeOf c < sizeOf o := by
  cases o with
  | none => cases h
  | some e =>
      obtain rfl := List.mem_singleton.mp h
      simp only [Option.some.sizeOf_spec]
      omega

theorem sizeOf_select_lt {s : Select Expr} {c : Expr} (h : c ∈ s.children) :
    sizeOf c < sizeOf s := by
  obtain ⟨label, columns, source, filter⟩ := s
  simp only [Select.children, List.mem_append, List.mem_cons] at h
  simp only [Select.mk.sizeOf_spec]
  rcases h with h | rfl | h
  · have := sizeOf_member_lt h
    omega
  · omega
  · have := sizeOf_optional_lt h
    omega

theorem sizeOf_call_lt {f : FunctionCall Expr} {c : Expr} (h : c ∈ f.children) :
    sizeOf c < sizeOf f := by
  obtain ⟨method, function, receiver, args, type⟩ := f
  simp only [FunctionCall.children, List.mem_append] at h
  simp only [FunctionCall.mk.sizeOf_spec]
  rcases h with h | h
  · have := sizeOf_optional_lt h
    omega
  · have := List.sizeOf_lt_of_mem h
    omega

theorem sizeOf_child_lt {e c : Expr} (h : c ∈ e.children) : sizeOf c < sizeOf e := by
  cases e with
  | constant | captured | parameter | collection | outerRow | table | column => cases h
  | member target name | unary op operand | lambda params body =>
      obtain rfl := List.mem_singleton.mp h
      simp only [member.sizeOf_spec, unary.sizeOf_spec, lambda.sizeOf_spec]
      omega
  | binary op left right =>
      simp only [children, List.mem_cons, List.not_mem_nil, or_false] at h
      simp only [binary.sizeOf_spec]
      rcases h with rfl | rfl <;> omega
  | call method receiver args =>
      simp only [children, List.mem_append] at h
      simp only [call.sizeOf_spec]
      rcases h with h | h
      · have := sizeOf_optional_lt h
        omega
      · have := List.sizeOf_lt_of_mem h
        omega
  | construct type members =>
      have := sizeOf_member_lt h
      simp only [construct.sizeOf_spec]
      omega
  | select s =>
      have := sizeOf_select_lt h
      simp only [select.sizeOf_spec]
      omega
  | join kind left right condition =>
      simp only [children, List.mem_cons] at h
      simp only [join.sizeOf_spec]
      rcases h with rfl | rfl | h
      · omega
      · omega
      · have := sizeOf_optional_lt h
        omega
  | projection p =>
      obtain ⟨source, projector, shape⟩ := p
      simp only [children, Projection.children, List.mem_append, List.mem_singleton] at h
      simp only [projection.sizeOf_spec, Projection.mk.sizeOf_spec]
      rcases h with h | rfl
      · have := sizeOf_select_lt h
        omega
      · omega
  | function f =>
      have := sizeOf_call_lt h
      simp only [function.sizeOf_spec]
      omega
  | subquery f sql =>
      have := sizeOf_call_lt h
      simp only [subquery.sizeOf_spec]
      omega

/-- What holds of a node whenever it holds of its children holds of every expression. -/
theorem children_induction {P : Expr → Prop} (step : ∀ e, (∀ c ∈ e.children, P c) → P e)
    (e : Expr) : P e :=
  step e fun c h =>
    have := sizeOf_child_lt h
    children_induction step c
termination_by sizeOf e

/-! Filling a node with other children -/

/-- Puts the first of `cs` in the place of an optional part; the others are left over. -/
def fillOption : Option Expr → List Expr → Option Expr × List Expr
  | some _, c :: cs => (some c, cs)
  | o, cs => (o, cs)

def fillMembers : List (String × Expr) → List Expr → List (String × Expr) × List Expr
  | (name, _) :: ms, c :: cs => ((name, c) :: (fillMembers ms cs).1, (fillMembers ms cs).2)
  | ms, cs => (ms, cs)

def fillSelect (s : Select Expr) (cs : List Expr) : Select Expr × List Expr :=
  match fillMembers s.columns cs with
  | (columns, source :: cs) =>
    ({ s with columns, source, filter := (fillOption s.filter cs).1 }, (fillOption s.filter cs).2)
  | (_, []) => (s, [])

def fillCall (f : FunctionCall Expr) (cs : List Expr) : FunctionCall Expr :=
  { f with receiver := (fillOption f.receiver cs).1, args := (fillOption f.receiver cs).2 }

/-- The node with `cs` in the place of its children. -/
def withChildren : Expr → List Expr → Expr
  | .member _ name, [target] => .member target name
  | .unary op _, [operand] => .unary op operand
  | .binary op _ _, [left, right] => .binary op left right
  | .call method receiver _, cs =>
    .call method (fillOption receiver cs).1 (fillOption receiver cs).2
  | .lambda params _, [body] => .lambda params body
  | .construct type members, cs => .construct type (fillMembers members cs).1
  | .select s, cs => .select (fillSelect s cs).1
  | .join kind _ _ condition, left :: right :: cs =>
    .join kind left right (fillOption condition cs).1
  | .projection p, cs =>
    match fillSelect p.source cs with
    | (source, [projector]) => .projection { p with source, projector }
    | _ => .projection p
  | .function f, cs => .function (fillCall f cs)
  | .subquery f sql, cs => .subquery (fillCall f cs) sql
  | e, _ => e

section Fill

variable {m : Type → Type} [Monad m] [LawfulMonad m] (f : Expr → m Expr)

theorem mapOptionM_bind {β : Type} (o : Option Expr) (k : (List Expr → Option Expr × List Expr) → m β) :
    (o.toList.mapM f >>= fun cs => k fun rest => fillOption o (cs ++ rest)) =
      mapOptionM f o >>= fun o' => k fun rest => (o', rest) := by
  cases o with
  | none => simp [mapOptionM, fillOption]
  | some e => simp [mapOptionM, fillOption]

/-- Filling with the images of the members is mapping them, whatever is filled in afterwards. -/
theorem mapMembersM_bind {β : Type} (ms : List (String × Expr))
    (k : (List Expr → List (String × Expr) × List Expr) → m β) :
    ((ms.map (·.2)).mapM f >>= fun cs => k fun rest => fillMembers ms (cs ++ rest)) =
      mapMembersM f ms >>= fun ms' => k fun rest => (ms', rest) := by
  induction ms generalizing k with
  | nil => simp [mapMembersM, fillMembers]
  | cons p ms ih =>
      obtain ⟨name, e⟩ := p
      simp only [mapMembersM] at ih
      simp only [List.map_cons, List.mapM_cons, bind_assoc, pure_bind, List.cons_append,
        fillMembers, mapMembersM]
      refine bind_congr fun c => ?_
      exact ih fun fill => k fun rest => ((name, c) :: (fill rest).1, (fill rest).2)

theorem mapSelectM_bind {β : Type} (s : Select Expr)
    (k : (List Expr → Select Expr × List Expr) → m β) :
    (s.children.mapM f >>= fun cs => k fun rest => fillSelect s (cs ++ rest)) =
      mapSelectM f s >>= fun s' => k fun rest => (s', rest) := by
  obtain ⟨label, columns, source, filter⟩ := s
  simp only [Select.children, List.mapM_append, List.mapM_cons, bind_assoc, pure_bind, mapSelectM,
    fillSelect, List.append_assoc, List.cons_append]
  refine (mapMembersM_bind f columns fun fill => f source >>= fun y => filter.toList.mapM f >>=
    fun zs => k fun rest => match fill (y :: (zs ++ rest)) with
      | (columns, source :: cs) =>
        (⟨label, columns, source, (fillOption filter cs).1⟩, (fillOption filter cs).2)
      | (_, []) => (⟨label, columns, source, filter⟩, [])).trans ?_
  refine bind_congr fun columns' => bind_congr fun source' => ?_
  exact mapOptionM_bind f filter fun fill =>
    k fun rest => (⟨label, columns', source', (fill rest).1⟩, (fill rest).2)

theorem mapCallM_eq (c : FunctionCall Expr) :
    mapCallM f c = fillCall c <$> c.children.mapM f := by
  obtain ⟨method, function, receiver, args, type⟩ := c
  simp only [FunctionCall.children, List.mapM_append, mapCallM, fillCall, map_bind, map_pure]
  exact (mapOptionM_bind f receiver fun fill => args.mapM f >>= fun as =>
    pure (FunctionCall.mk method function (fill as).1 (fill as).2 type)).symm

/-- Mapping the children of a node is filling it with their images. -/
theorem mapChildrenM_eq (e : Expr) : mapChildrenM f e = e.withChildren <$> e.children.mapM f := by
  cases e with
  | constant | captured | parameter | collection | outerRow | table | column =>
      simp [mapChildrenM, children, withChildren]
  | member | unary | binary | lambda => simp [mapChildrenM, children, withChildren]
  | call method receiver args =>
      simp only [mapChildrenM, children, withChildren, List.mapM_append, map_bind, map_pure]
      exact (mapOptionM_bind f receiver fun fill => args.mapM f >>= fun as =>
        pure (call method (fill as).1 (fill as).2)).symm
  | construct type members =>
      have h := mapMembersM_bind f members fun fill => pure (construct type (fill []).1)
      simpa only [mapChildrenM, children, withChildren, List.append_nil, map_eq_pure_bind] using h.symm
  | select s =>
      have h := mapSelectM_bind f s fun fill => pure (select (fill []).1)
      simpa only [mapChildrenM, children, withChildren, List.append_nil, map_eq_pure_bind] using h.symm
  | join kind left right condition =>
      simp only [mapChildrenM, children, List.mapM_cons, bind_assoc, pure_bind, map_bind, map_pure,
        withChildren]
      refine bind_congr fun l => bind_congr fun r => ?_
      have h := mapOptionM_bind f condition fun fill => pure (join kind l r (fill []).1)
      simpa only [List.append_nil] using h.symm
  | projection p =>
      simp only [mapChildrenM, children, Projection.children, withChildren, List.mapM_append,
        List.mapM_cons, List.mapM_nil, bind_assoc, pure_bind, map_bind, map_pure, mapProjectionM]
      exact (mapSelectM_bind f p.source fun fill => f p.projector >>= fun e => pure <|
        match fill [e] with
        | (source, [projector]) => projection { p with source, projector }
        | _ => projection p).symm
  | function c | subquery c sql =>
      simp only [mapChildrenM, children, mapCallM_eq, map_eq_pure_bind, bind_assoc, pure_bind]
      rfl

theorem toList_mapOptionM (o : Option Expr) :
    Option.toList <$> mapOptionM f o = o.toList.mapM f := by
  cases o <;> simp [mapOptionM]

theorem map_snd_mapMembersM (ms : List (String × Expr)) :
    List.map (·.2) <$> mapMembersM f ms = ms.mapM (f ∘ (·.2)) := by
  induction ms with
  | nil => simp [mapMembersM]
  | cons p ms ih =>
      simp only [mapMembersM] at ih
      simp [mapMembersM, ← ih]

/-- The children of a mapped node are the images of its children. -/
theorem children_mapChildrenM (e : Expr) :
    children <$> mapChildrenM f e = e.children.mapM f := by
  cases e <;> simp [mapChildrenM, children, mapSelectM, mapProjectionM, mapCallM, Select.children,
    Projection.children, FunctionCall.children, ← toList_mapOptionM, ← map_snd_mapMembersM]

end Fill

/-! Nodes that differ in their children only -/

end Expr

variable {R : Expr → Expr → Prop}

/-- Selects of the same label and column names with related parts. -/
structure Select.Alike (R : Expr → Expr → Prop) (s t : Select Expr) : Prop where
  label : s.label = t.label
  columns : List.Forall₂ (fun a b => a.1 = b.1 ∧ R a.2 b.2) s.columns t.columns
  source : R s.source t.source
  filter : Option.Rel R s.filter t.filter

/-- Calls of the same function with related parts. -/
structure FunctionCall.Alike (R : Expr → Expr → Prop) (f g : FunctionCall Expr) : Prop where
  method : f.method = g.method
  function : f.function = g.function
  receiver : Option.Rel R f.receiver g.receiver
  args : List.Forall₂ R f.args g.args
  type : f.type = g.type

namespace Expr

/-- The forms that never have children. -/
def isLeaf : Expr → Bool
  | .constant .. | .captured .. | .parameter .. | .collection .. | .outerRow .. | .table ..
  | .column .. => true
  | _ => false

def isConstant : Expr → Bool
  | .constant .. => true
  | _ => false

/-- Two nodes of the same form and content whose children are related one by one. -/
inductive Alike (R : Expr → Expr → Prop) : Expr → Expr → Prop
  | leaf {e} : e.isLeaf → Alike R e e
  | member {a b} (name) : R a b → Alike R (.member a name) (.member b name)
  | unary (op) {a b} : R a b → Alike R (.unary op a) (.unary op b)
  | binary (op) {a b a' b'} : R a a' → R b b' → Alike R (.binary op a b) (.binary op a' b')
  | call (method) {r r' as as'} : Option.Rel R r r' → List.Forall₂ R as as' →
      Alike R (.call method r as) (.call method r' as')
  | lambda (params) {a b} : R a b → Alike R (.lambda params a) (.lambda params b)
  | construct (type) {ms ms'} : List.Forall₂ (fun a b => a.1 = b.1 ∧ R a.2 b.2) ms ms' →
      Alike R (.construct type ms) (.construct type ms')
  | select {s s'} : s.Alike R s' → Alike R (.select s) (.select s')
  | join (kind) {a b a' b' c c'} : R a a' → R b b' → Option.Rel R c c' →
      Alike R (.join kind a b c) (.join kind a' b' c')
  | projection {s s' a b} (shape) : s.Alike R s' → R a b →
      Alike R (.projection ⟨s, a, shape⟩) (.projection ⟨s', b, shape⟩)
  | function {f f'} : f.Alike R f' → Alike R (.function f) (.function f')
  | subquery {f f'} (sql) : f.Alike R f' → Alike R (.subquery f sql) (.subquery f' sql)

theorem fillOption_rel {o : Option Expr} {cs : List Expr} (h : List.Forall₂ R o.toList cs)
    (rest : List Expr) : ∃ o', fillOption o (cs ++ rest) = (o', rest) ∧ Option.Rel R o o' := by
  cases o with
  | none =>
      cases h
      exact ⟨none, rfl, .none⟩
  | some e =>
      cases h with
      | cons hc h =>
          cases h
          exact ⟨_, rfl, .some hc⟩

theorem fillMembers_rel {ms : List (String × Expr)} {cs : List Expr}
    (h : List.Forall₂ R (ms.map (·.2)) cs) (rest : List Expr) :
    ∃ ms', fillMembers ms (cs ++ rest) = (ms', rest) ∧
      List.Forall₂ (fun a b => a.1 = b.1 ∧ R a.2 b.2) ms ms' := by
  induction ms generalizing cs with
  | nil =>
      cases h
      exact ⟨[], by simp [fillMembers], .nil⟩
  | cons p ms ih =>
      obtain ⟨name, e⟩ := p
      cases h with
      | @cons _ c _ _ hc h =>
          obtain ⟨ms', heq, hrel⟩ := ih h
          refine ⟨(name, c) :: ms', ?_, .cons ⟨rfl, hc⟩ hrel⟩
          rw [List.cons_append, fillMembers, heq]

theorem fillSelect_alike {s : Select Expr} {cs : List Expr} (h : List.Forall₂ R s.children cs)
    (rest : List Expr) : ∃ s', fillSelect s (cs ++ rest) = (s', rest) ∧ s.Alike R s' := by
  obtain ⟨xs, ys, rfl, hx, hy⟩ := forall₂_append_left h
  cases hy with
  | @cons _ y _ ys hsource hfilter =>
      obtain ⟨columns, hcolumns, hrel⟩ := fillMembers_rel hx (y :: (ys ++ rest))
      obtain ⟨filter, hfill, hopt⟩ := fillOption_rel hfilter rest
      refine ⟨⟨s.label, columns, y, filter⟩, ?_, ⟨rfl, hrel, hsource, hopt⟩⟩
      simp only [fillSelect, List.append_assoc, List.cons_append, hcolumns, hfill]

theorem fillCall_alike {f : FunctionCall Expr} {cs : List Expr} (h : List.Forall₂ R f.children cs) :
    f.Alike R (fillCall f cs) := by
  obtain ⟨xs, ys, rfl, hx, hy⟩ := forall₂_append_left h
  obtain ⟨receiver, hfill, hopt⟩ := fillOption_rel hx ys
  refine ⟨rfl, rfl, ?_, ?_, rfl⟩ <;> simpa only [fillCall, hfill]

/-- A node filled with related children is alike. -/
theorem alike_withChildren {e : Expr} {cs : List Expr} (h : List.Forall₂ R e.children cs) :
    e.Alike R (e.withChildren cs) := by
  cases e with
  | constant | captured | parameter | collection | outerRow | table | column => exact .leaf rfl
  | member target name =>
      cases h with | cons hc h => cases h; exact .member name hc
  | unary op operand =>
      cases h with | cons hc h => cases h; exact .unary op hc
  | lambda params body =>
      cases h with | cons hc h => cases h; exact .lambda params hc
  | binary op left right =>
      cases h with
      | cons hl h => cases h with | cons hr h => cases h; exact .binary op hl hr
  | call method receiver args =>
      obtain ⟨xs, ys, rfl, hx, hy⟩ := forall₂_append_left h
      obtain ⟨receiver', hfill, hopt⟩ := fillOption_rel hx ys
      simpa only [withChildren, hfill] using Alike.call method hopt hy
  | construct type members =>
      obtain ⟨members', hfill, hrel⟩ := fillMembers_rel h []
      rw [List.append_nil] at hfill
      simpa only [withChildren, hfill] using Alike.construct type hrel
  | select s =>
      obtain ⟨s', hfill, halike⟩ := fillSelect_alike h []
      rw [List.append_nil] at hfill
      simpa only [withChildren, hfill] using Alike.select halike
  | join kind left right condition =>
      cases h with
      | cons hl h =>
          cases h with
          | @cons _ _ _ ys hr h =>
              obtain ⟨condition', hfill, hopt⟩ := fillOption_rel h []
              rw [List.append_nil] at hfill
              simpa only [withChildren, hfill] using Alike.join kind hl hr hopt
  | projection p =>
      obtain ⟨xs, ys, rfl, hx, hy⟩ := forall₂_append_left h
      cases hy with
      | @cons _ y _ ys hprojector hy =>
          cases hy
          obtain ⟨s', hfill, halike⟩ := fillSelect_alike hx [y]
          simpa only [withChildren, hfill] using Alike.projection p.shape halike hprojector
  | function f => exact .function (fillCall_alike h)
  | subquery f sql => exact .subquery sql (fillCall_alike h)

theorem toList_rel {a b : Option Expr} (h : Option.Rel R a b) :
    List.Forall₂ R a.toList b.toList := by
  cases h with
  | none => exact .nil
  | some h => exact .cons h .nil

theorem map_snd_rel {ms ms' : List (String × Expr)}
    (h : List.Forall₂ (fun a b => a.1 = b.1 ∧ R a.2 b.2) ms ms') :
    List.Forall₂ R (ms.map (·.2)) (ms'.map (·.2)) := by
  simp only [List.forall₂_map_left_iff, List.forall₂_map_right_iff]
  exact h.imp fun _ _ hab => hab.2

end Expr

theorem Select.Alike.children {s t : Select Expr} (h : s.Alike R t) :
    List.Forall₂ R s.children t.children :=
  List.rel_append (Expr.map_snd_rel h.columns) (.cons h.source (Expr.toList_rel h.filter))

theorem FunctionCall.Alike.children {f g : FunctionCall Expr} (h : f.Alike R g) :
    List.Forall₂ R f.children g.children :=
  List.rel_append (Expr.toList_rel h.receiver) h.args

namespace Expr

theorem Alike.children {a b : Expr} (h : Alike R a b) : List.Forall₂ R a.children b.children := by
  cases h with
  | leaf h => cases a <;> first | exact .nil | cases h
  | member name h | unary op h | lambda params h => exact .cons h .nil
  | binary op hl hr => exact .cons hl (.cons hr .nil)
  | call method hr has => exact List.rel_append (toList_rel hr) has
  | construct type h => exact map_snd_rel h
  | select h => exact h.children
  | join kind hl hr hc => exact .cons hl (.cons hr (toList_rel hc))
  | projection shape hs hp => exact List.rel_append hs.children (.cons hp .nil)
  | function h => exact h.children
  | subquery sql h => exact h.children

theorem eq_of_rel_eq {a b : Option Expr} (h : Option.Rel (· = ·) a b) : a = b := by
  cases h with
  | none => rfl
  | some h => rw [h]

theorem members_eq {ms ms' : List (String × Expr)}
    (h : List.Forall₂ (fun a b => a.1 = b.1 ∧ a.2 = b.2) ms ms') : ms = ms' := by
  induction h with
  | nil => rfl
  | cons h _ ih => rw [Prod.ext h.1 h.2, ih]

theorem args_eq {as bs : List Expr} (h : List.Forall₂ (· = ·) as bs) : as = bs := by
  rwa [List.forall₂_eq_eq_eq] at h

theorem select_eq {s t : Select Expr} (h : s.Alike (· = ·) t) : s = t := by
  cases s with | mk label columns source filter =>
  cases t with | mk label' columns' source' filter' =>
  obtain ⟨rfl, hcolumns, rfl, hfilter⟩ := h
  obtain rfl := members_eq hcolumns
  obtain rfl := eq_of_rel_eq hfilter
  rfl

theorem call_eq {f g : FunctionCall Expr} (h : f.Alike (· = ·) g) : f = g := by
  cases f with | mk method function receiver args type =>
  cases g with | mk method' function' receiver' args' type' =>
  obtain ⟨rfl, rfl, hreceiver, hargs, rfl⟩ := h
  obtain rfl := eq_of_rel_eq hreceiver
  obtain rfl := args_eq hargs
  rfl

/-- Nodes that are alike with the same children are the same. -/
theorem Alike.eq {a b : Expr} (h : Alike (· = ·) a b) : a = b := by
  cases h with
  | leaf h => rfl
  | member name h | unary op h | lambda params h => rw [h]
  | binary op hl hr => rw [hl, hr]
  | call method hr has => rw [eq_of_rel_eq hr, args_eq has]
  | construct type h => rw [members_eq h]
  | select h => rw [select_eq h]
  | join kind hl hr hc => rw [hl, hr, eq_of_rel_eq hc]
  | projection shape hs hp => rw [select_eq hs, hp]
  | function h => rw [call_eq h]
  | subquery sql h => rw [call_eq h]

/-! Nodes -/

theorem nodes_eq (e : Expr) : e.nodes = e :: e.children.flatMap nodes := by
  rw [nodes, fold_eq, List.flatMap_def]

theorem mem_nodes {x e : Expr} : x ∈ e.nodes ↔ x = e ∨ ∃ c ∈ e.children, x ∈ c.nodes := by
  rw [nodes_eq, List.mem_cons, List.mem_flatMap]

theorem self_mem_nodes (e : Expr) : e ∈ e.nodes := mem_nodes.mpr (.inl rfl)

theorem mem_nodes_of_child {x c e : Expr} (hc : c ∈ e.children) (hx : x ∈ c.nodes) :
    x ∈ e.nodes := mem_nodes.mpr (.inr ⟨c, hc, hx⟩)

theorem nodes_sublist {e x : Expr} (h : x ∈ e.nodes) : x.nodes.Sublist e.nodes := by
  induction e using children_induction with
  | step e ih =>
      rcases mem_nodes.mp h with rfl | ⟨c, hc, hx⟩
      · exact List.Sublist.refl _
      · rw [nodes_eq e, List.flatMap_def]
        refine (ih c hc hx).trans (List.Sublist.cons _ ?_)
        exact List.sublist_flatten_of_mem (List.mem_map_of_mem hc)

theorem mem_nodes_trans {x y e : Expr} (hy : y ∈ e.nodes) (hx : x ∈ y.nodes) : x ∈ e.nodes :=
  (nodes_sublist hy).subset hx

/-- What holds of all nodes holds of the root and of all nodes of the children. -/
theorem forall_mem_nodes {P : Expr → Prop} {e : Expr} :
    (∀ x ∈ e.nodes, P x) ↔ P e ∧ ∀ c ∈ e.children, ∀ x ∈ c.nodes, P x := by
  constructor
  · intro h
    exact ⟨h e e.self_mem_nodes, fun c hc x hx => h x (mem_nodes_of_child hc hx)⟩
  · rintro ⟨he, hc⟩ x hx
    rcases mem_nodes.mp hx with rfl | ⟨c, h, hx⟩
    · exact he
    · exact hc c h x hx

theorem mem_nodes_tail {t : DataType} {m : String × Expr} {ms : List (String × Expr)} {x : Expr}
    (h : x ∈ (construct t ms).nodes) : x = construct t ms ∨ x ∈ (construct t (m :: ms)).nodes := by
  rcases mem_nodes.mp h with h | ⟨c, hc, hx⟩
  · exact .inl h
  · exact .inr (mem_nodes_of_child (List.mem_cons_of_mem _ hc) hx)

end Expr

/-! Composition -/

section Composition

variable {S T : Expr → Expr → Prop}

theorem option_rel_comp (h : ∀ a b c, R a b → S b c → T a c) {a b c : Option Expr}
    (hab : Option.Rel R a b) (hbc : Option.Rel S b c) : Option.Rel T a c := by
  cases hab with
  | none =>
      cases hbc
      exact .none
  | some hab =>
      cases hbc with
      | some hbc => exact .some (h _ _ _ hab hbc)

theorem args_comp (h : ∀ a b c, R a b → S b c → T a c) {as bs cs : List Expr}
    (hab : List.Forall₂ R as bs) (hbc : List.Forall₂ S bs cs) : List.Forall₂ T as cs :=
  (forall₂_comp hab hbc).imp fun _ _ ⟨_, hab, hbc⟩ => h _ _ _ hab hbc

theorem members_comp (h : ∀ a b c, R a b → S b c → T a c) {as bs cs : List (String × Expr)}
    (hab : List.Forall₂ (fun a b => a.1 = b.1 ∧ R a.2 b.2) as bs)
    (hbc : List.Forall₂ (fun a b => a.1 = b.1 ∧ S a.2 b.2) bs cs) :
    List.Forall₂ (fun a b => a.1 = b.1 ∧ T a.2 b.2) as cs :=
  (forall₂_comp hab hbc).imp fun _ _ ⟨_, hab, hbc⟩ =>
    ⟨hab.1.trans hbc.1, h _ _ _ hab.2 hbc.2⟩

theorem Select.Alike.comp (h : ∀ a b c, R a b → S b c → T a c) {a b c : Select Expr}
    (hab : a.Alike R b) (hbc : b.Alike S c) : a.Alike T c where
  label := hab.label.trans hbc.label
  columns := members_comp h hab.columns hbc.columns
  source := h _ _ _ hab.source hbc.source
  filter := option_rel_comp h hab.filter hbc.filter

theorem FunctionCall.Alike.comp (h : ∀ a b c, R a b → S b c → T a c) {a b c : FunctionCall Expr}
    (hab : a.Alike R b) (hbc : b.Alike S c) : a.Alike T c where
  method := hab.method.trans hbc.method
  function := hab.function.trans hbc.function
  receiver := option_rel_comp h hab.receiver hbc.receiver
  args := args_comp h hab.args hbc.args
  type := hab.type.trans hbc.type

namespace Expr

theorem Alike.comp (h : ∀ a b c, R a b → S b c → T a c) {a b c : Expr} (hab : Alike R a b)
    (hbc : Alike S b c) : Alike T a c := by
  cases hab with
  | leaf ha => cases hbc <;> first | exact .leaf ha | cases ha
  | member name hab => cases hbc with
    | leaf hb => cases hb
    | member _ hbc => exact .member name (h _ _ _ hab hbc)
  | unary op hab => cases hbc with
    | leaf hb => cases hb
    | unary _ hbc => exact .unary op (h _ _ _ hab hbc)
  | binary op hl hr => cases hbc with
    | leaf hb => cases hb
    | binary _ hl' hr' => exact .binary op (h _ _ _ hl hl') (h _ _ _ hr hr')
  | call method hr has => cases hbc with
    | leaf hb => cases hb
    | call _ hr' has' => exact .call method (option_rel_comp h hr hr') (args_comp h has has')
  | lambda params hab => cases hbc with
    | leaf hb => cases hb
    | lambda _ hbc => exact .lambda params (h _ _ _ hab hbc)
  | construct type hms => cases hbc with
    | leaf hb => cases hb
    | construct _ hms' => exact .construct type (members_comp h hms hms')
  | select hs => cases hbc with
    | leaf hb => cases hb
    | select hs' => exact .select (hs.comp h hs')
  | join kind hl hr hc => cases hbc with
    | leaf hb => cases hb
    | join _ hl' hr' hc' =>
        exact .join kind (h _ _ _ hl hl') (h _ _ _ hr hr') (option_rel_comp h hc hc')
  | projection shape hs hp => cases hbc with
    | leaf hb => cases hb
    | projection _ hs' hp' => exact .projection shape (hs.comp h hs') (h _ _ _ hp hp')
  | function hf => cases hbc with
    | leaf hb => cases hb
    | function hf' => exact .function (hf.comp h hf')
  | subquery sql hf => cases hbc with
    | leaf hb => cases hb
    | subquery _ hf' => exact .subquery sql (hf.comp h hf')

end Expr

end Composition

namespace Expr

/-! Replacement -/

/-- Replaces the topmost nodes for which there is a replacement. -/
def rewrite (g : Expr → Option Expr) : Expr → Expr :=
  fold fun e parts => (g e).getD (e.withChildren parts)

theorem rewrite_eq (g : Expr → Option Expr) (e : Expr) :
    e.rewrite g = (g e).getD (e.withChildren (e.children.map (rewrite g))) := by
  rw [rewrite, fold_eq]

theorem rewrite_some {g : Expr → Option Expr} {e x : Expr} (h : g e = some x) :
    e.rewrite g = x := by rw [rewrite_eq, h, Option.getD_some]

/-- Where there is no replacement, only the children are rewritten. -/
theorem rewrite_none {g : Expr → Option Expr} {e : Expr} (h : g e = none) :
    Alike (fun c c' => c ∈ e.children ∧ c' = c.rewrite g) e (e.rewrite g) := by
  rw [rewrite_eq, h, Option.getD_none]
  refine alike_withChildren ?_
  rw [List.forall₂_map_right_iff, List.forall₂_same]
  exact fun c hc => ⟨hc, rfl⟩

/-- A rewriting that undoes what was done to the children undoes it for the node. -/
theorem rewrite_eq_of_alike {g : Expr → Option Expr} {e e' : Expr} (hg : g e' = none)
    (h : Alike (fun c c' => c'.rewrite g = c) e e') : e'.rewrite g = e := by
  have hcomp := h.comp (T := (· = ·)) (fun _ _ _ hab hbc => hab.symm.trans hbc.2.symm)
    (rewrite_none hg)
  exact hcomp.eq.symm

theorem run_replaceM (g : Expr → Option Expr) (e : Expr) :
    Id.run (replaceM (fun e => pure (g e)) e) = e.rewrite g := by
  induction e using children_induction with
  | step e ih =>
      rw [replaceM_eq, rewrite_eq, mapChildrenM_eq]
      cases hg : g e with
      | some x => rfl
      | none =>
          have hmap : (e.children.mapM (m := Id) (replaceM fun e => pure (g e))).run =
              e.children.map (rewrite g) := by
            rw [List.idRun_mapM]
            exact List.map_congr_left ih
          rw [Option.getD_none, ← hmap]
          rfl

section Rewriting

variable {m : Type → Type} [Monad m]

/-- The node with every child replaced by its image. -/
def mapChildren (g : Expr → Expr) (e : Expr) : Expr := Id.run (mapChildrenM (fun c => pure (g c)) e)

theorem withChildren_map (g : Expr → Expr) (e : Expr) :
    e.withChildren (e.children.map g) = e.mapChildren g := by
  rw [mapChildren, mapChildrenM_eq]
  exact congrArg e.withChildren (List.idRun_mapM ..).symm

theorem mapOptionM_map (f : Expr → m Expr) (g : Expr → Expr) (o : Option Expr) :
    mapOptionM f (Id.run (mapOptionM (fun c => pure (g c)) o)) = mapOptionM (fun c => f (g c)) o := by
  cases o <;> rfl

variable [LawfulMonad m]

theorem mapMembersM_map (f : Expr → m Expr) (g : Expr → Expr) (ms : List (String × Expr)) :
    mapMembersM f (Id.run (mapMembersM (fun c => pure (g c)) ms)) =
      mapMembersM (fun c => f (g c)) ms := by
  simp [mapMembersM, Function.comp_def]

theorem mapSelectM_map (f : Expr → m Expr) (g : Expr → Expr) (s : Select Expr) :
    mapSelectM f (Id.run (mapSelectM (fun c => pure (g c)) s)) = mapSelectM (fun c => f (g c)) s := by
  simp [mapSelectM, ← mapMembersM_map f g, ← mapOptionM_map f g]

/-- Two maps over the children are one. -/
theorem mapChildrenM_mapChildren (f : Expr → m Expr) (g : Expr → Expr) (e : Expr) :
    mapChildrenM f (e.mapChildren g) = mapChildrenM (fun c => f (g c)) e := by
  cases e <;> simp [mapChildren, mapChildrenM, mapCallM, mapProjectionM, ← mapMembersM_map f g,
    ← mapOptionM_map f g, ← mapSelectM_map f g, Function.comp_def]

theorem mapChildrenM_congr {f f' : Expr → m Expr} {e : Expr} (h : ∀ c ∈ e.children, f c = f' c) :
    mapChildrenM f e = mapChildrenM f' e := by
  rw [mapChildrenM_eq, mapChildrenM_eq, mapM_congr h]

/-- Filling never makes a leaf nor fills one. -/
theorem withChildren_cases (e : Expr) (cs : List Expr) :
    e.withChildren cs = e ∨ e.isLeaf = false ∧ (e.withChildren cs).isLeaf = false := by
  unfold withChildren
  split
  case h_9 p =>
      refine .inr ⟨rfl, ?_⟩
      split <;> rfl
  case h_12 => exact .inl rfl
  all_goals exact .inr ⟨rfl, rfl⟩

/-- Replacing after a rewriting is one replacement, which answers for each rewritten node with what
replaces its image. -/
theorem replaceM_rewrite {f k : Expr → m (Option Expr)} {g : Expr → Option Expr} {e : Expr}
    (hf : ∀ x cs, f (withChildren x cs) = f x)
    (h : ∀ x ∈ e.nodes, (∃ y, g x = some y ∧ k x = some <$> replaceM f y) ∨
      g x = none ∧ k x = f x) :
    replaceM f (e.rewrite g) = replaceM k e := by
  induction e using children_induction with
  | step e ih =>
      obtain ⟨hnode, hbelow⟩ := forall_mem_nodes.mp h
      rw [replaceM_eq k]
      rcases hnode with ⟨y, hg, hk⟩ | ⟨hg, hk⟩
      · rw [rewrite_some hg, hk, map_eq_pure_bind, bind_assoc]
        simp
      · rw [rewrite_eq, hg, Option.getD_none, replaceM_eq, hf, hk, withChildren_map,
          mapChildrenM_mapChildren, mapChildrenM_congr fun c hc => ih c hc (hbelow c hc)]

end Rewriting

/-- Without a replacement nothing changes. -/
theorem rewrite_of_none {g : Expr → Option Expr} {e : Expr} (h : ∀ x ∈ e.nodes, g x = none) :
    e.rewrite g = e := by
  induction e using children_induction with
  | step e ih =>
      obtain ⟨hnode, hbelow⟩ := forall_mem_nodes.mp h
      have hsame : List.Forall₂ (· = ·) e.children (e.children.map (rewrite g)) := by
        rw [List.forall₂_map_right_iff, List.forall₂_same]
        exact fun c hc => (ih c hc (hbelow c hc)).symm
      rw [rewrite_eq, hnode, Option.getD_none]
      exact (alike_withChildren hsame).eq.symm

end Expr

def Select.rewrite (g : Expr → Option Expr) (s : Select Expr) : Select Expr :=
  Id.run (Expr.replaceSelectM (fun e => pure (g e)) s)

def Projection.rewrite (g : Expr → Option Expr) (p : Projection Expr) : Projection Expr :=
  Id.run (Expr.replaceProjectionM (fun e => pure (g e)) p)

namespace Expr

variable {g : Expr → Option Expr}

theorem rewrite_select {s : Select Expr} (h : g (.select s) = none) :
    (Expr.select s).rewrite g = .select (s.rewrite g) := by
  rw [← run_replaceM, replaceM]
  simp only [h]
  rfl

theorem rewrite_projection {p : Projection Expr} (h : g (.projection p) = none) :
    (Expr.projection p).rewrite g = .projection (p.rewrite g) := by
  rw [← run_replaceM, replaceM]
  simp only [h]
  rfl

theorem rewrite_construct {t : DataType} {ms : List (String × Expr)}
    (h : g (.construct t ms) = none) :
    (construct t ms).rewrite g = .construct t (ms.map fun m => (m.1, m.2.rewrite g)) := by
  rw [rewrite_eq, h, Option.getD_none, withChildren_map]
  simp [mapChildren, mapChildrenM, mapMembersM]

theorem projection_rewrite (p : Projection Expr) :
    p.rewrite g = ⟨p.source.rewrite g, p.projector.rewrite g, p.shape⟩ := by
  obtain ⟨source, projector, shape⟩ := p
  rw [← run_replaceM]
  rfl

end Expr

end Quarry
