import Quarry.Proofs.Derivation
/-!
What an expression reads of an environment. A parameter stands for an expression, and a chain of
members that starts at it stands for a part of the expression; nothing else of the environment comes
into what is bound.
-/
namespace Quarry

namespace Expr

/-- Whether one of the parameters occurs. -/
def mentions (e : Expr) (ids : List Nat) : Bool :=
  e.nodes.any fun
    | .parameter p => p.id ∈ ids
    | _ => false

theorem mentions_iff {e : Expr} {ids : List Nat} :
    e.mentions ids ↔ ∃ p, .parameter p ∈ e.nodes ∧ p.id ∈ ids := by
  rw [mentions, List.any_eq_true]
  constructor
  · rintro ⟨x, hx, hids⟩
    cases x with
    | parameter p => exact ⟨p, hx, by simpa using hids⟩
    | _ => cases hids
  · rintro ⟨p, hp, hids⟩
    exact ⟨_, hp, by simpa using hids⟩

theorem mentions_child {e c : Expr} {ids : List Nat} (h : c.mentions ids) (hc : c ∈ e.children) :
    e.mentions ids := by
  obtain ⟨p, hp, hids⟩ := mentions_iff.mp h
  exact mentions_iff.mpr ⟨p, mem_nodes_of_child hc hp, hids⟩

theorem mentions_mono {e : Expr} {ids ids' : List Nat} (h : e.mentions ids) (hsub : ids ⊆ ids') :
    e.mentions ids' := by
  obtain ⟨p, hp, hids⟩ := mentions_iff.mp h
  exact mentions_iff.mpr ⟨p, hp, hsub hids⟩

end Expr

namespace Binding

/-- What a chain of members that starts at a parameter stands for. -/
def path? (env : List (Nat × Expr)) : Expr → Option Expr
  | .parameter p => env.lookup p.id
  | .member target name => (path? env target).bind fun x => (memberOf x name).toOption
  | _ => none

/-- The environment outside of lambdas that declare the numbers. -/
def hide (ids : List Nat) (env : List (Nat × Expr)) : List (Nat × Expr) :=
  env.filter (·.1 ∉ ids)

/-- What the expression reads of an environment: the longest chains that stand for something. -/
def reads : Expr → List (Nat × Expr) → List Expr :=
  Expr.fold fun e parts env =>
    match path? env e with
    | some x => [x]
    | none =>
      match e with
      | .lambda params _ => parts.flatMap (· (hide (params.map (·.id)) env))
      | _ => parts.flatMap (· env)

variable {env env' : List (Nat × Expr)} {ids : List Nat} {e c r x : Expr}

theorem lookup_hide (id : Nat) :
    (hide ids env).lookup id = if id ∈ ids then none else env.lookup id := by
  induction env with
  | nil => simp [hide]
  | cons b env ih =>
      obtain ⟨k, v⟩ := b
      have hcons : hide ids ((k, v) :: env) =
          if k ∈ ids then hide ids env else (k, v) :: hide ids env := by
        by_cases hk : k ∈ ids <;> simp [hide, hk]
      rw [hcons]
      by_cases hk : k ∈ ids
      · rw [if_pos hk, ih]
        by_cases hid : id ∈ ids
        · simp [hid]
        · have hne : (id == k) = false := by
            simp only [beq_eq_false_iff_ne, ne_eq]
            rintro rfl
            exact hid hk
          simp [hid, List.lookup_cons, hne]
      · rw [if_neg hk, List.lookup_cons, List.lookup_cons, ih]
        by_cases heq : id = k
        · simp [heq, hk]
        · have hne : (id == k) = false := by simpa using heq
          simp [hne]

theorem path_member {target : Expr} {name : String} :
    path? env (.member target name) = some x ↔
      ∃ v, path? env target = some v ∧ memberOf v name = .ok x := by
  rw [path?, Option.bind_eq_some_iff]
  have hok (v : Expr) : (memberOf v name).toOption = some x ↔ memberOf v name = .ok x := by
    cases memberOf v name <;> simp [Except.toOption]
  simp only [hok]

/-- What a chain of members that starts at `v` stands for. -/
inductive Part (v : Expr) : Expr → Prop
  | self : Part v v
  | member {x y name} (h : Part v x) (hy : memberOf x name = .ok y) : Part v y

/-- What holds of the members of whatever it holds of holds of all parts. -/
theorem Part.holds {P : Expr → Prop} {v : Expr} (h : Part v x) (hv : P v)
    (hmember : ∀ x y name, memberOf x name = .ok y → P x → P y) : P x := by
  induction h with
  | self => exact hv
  | member _ hy ih => exact hmember _ _ _ hy ih

theorem reads_of_path (h : path? env e = some x) : reads e env = [x] := by
  rw [reads, Expr.fold_eq, h]

theorem reads_lambda {params : List Parameter} {body : Expr} :
    reads (.lambda params body) env = reads body (hide (params.map (·.id)) env) := by
  rw [reads, Expr.fold_eq]
  simp [path?, Expr.children]

theorem reads_of_children (hpath : path? env e = none)
    (hl : ∀ params body, e ≠ .lambda params body) :
    reads e env = e.children.flatMap (reads · env) := by
  rw [reads, Expr.fold_eq, hpath]
  cases e with
  | lambda params body => exact absurd rfl (hl params body)
  | _ => simp [List.flatMap_map]

theorem reads_child (hpath : path? env e = none) (hl : ∀ params body, e ≠ .lambda params body)
    (hc : c ∈ e.children) : reads c env ⊆ reads e env := by
  rw [reads_of_children hpath hl]
  exact fun x hx => List.mem_flatMap.mpr ⟨c, hc, hx⟩

/-- What a chain stands for, it stands for in every larger environment. -/
theorem path_mono (hsub : ∀ id v, env'.lookup id = some v → env.lookup id = some v)
    (h : path? env' e = some x) : path? env e = some x := by
  induction e using Expr.children_induction generalizing x with
  | step e ih =>
      cases e with
      | parameter p => exact hsub p.id x h
      | member target name =>
          obtain ⟨v, hv, hx⟩ := path_member.mp h
          exact path_member.mpr ⟨v, ih target (by simp [Expr.children]) hv, hx⟩
      | _ => cases h

/-- A chain in a larger environment is one in the smaller, or it starts at what was left out. -/
theorem path_restrict (hsub : ∀ id v, env'.lookup id = some v → env.lookup id = some v)
    (h : path? env e = some x) :
    path? env' e = some x ∨
      ∃ id v, env.lookup id = some v ∧ env'.lookup id = none ∧ Part v x := by
  induction e using Expr.children_induction generalizing x with
  | step e ih =>
      cases e with
      | parameter p =>
          cases hp : env'.lookup p.id with
          | some v =>
              have hv : some x = some v := h.symm.trans (hsub p.id v hp)
              exact .inl (hp.trans hv.symm)
          | none => exact .inr ⟨p.id, x, h, hp, .self⟩
      | member target name =>
          obtain ⟨v, hv, hx⟩ := path_member.mp h
          rcases ih target (by simp [Expr.children]) hv with hv' | ⟨id, w, hw, hout, hpart⟩
          · exact .inl (path_member.mpr ⟨v, hv', hx⟩)
          · exact .inr ⟨id, w, hw, hout, hpart.member hx⟩
      | _ => cases h

/-- What is read of a larger environment is read of the smaller, or belongs to what was left out. -/
theorem reads_restrict (hsub : ∀ id v, env'.lookup id = some v → env.lookup id = some v)
    (h : x ∈ reads e env) :
    x ∈ reads e env' ∨
      ∃ id v, env.lookup id = some v ∧ env'.lookup id = none ∧ Part v x := by
  induction e using Expr.children_induction generalizing env env' with
  | step e ih =>
      cases hpath : path? env e with
      | some y =>
          rw [reads_of_path hpath, List.mem_singleton] at h
          subst h
          refine (path_restrict hsub hpath).imp_left fun hpath' => ?_
          rw [reads_of_path hpath']
          exact List.mem_cons_self
      | none =>
          have hpath' : path? env' e = none :=
            Option.eq_none_iff_forall_ne_some.mpr fun y hy =>
              absurd (path_mono hsub hy) (by simp [hpath])
          cases e with
          | lambda params body =>
              rw [reads_lambda] at h ⊢
              have hsub' : ∀ k v, (hide (params.map (·.id)) env').lookup k = some v →
                  (hide (params.map (·.id)) env).lookup k = some v := by
                intro k v
                simp only [lookup_hide]
                split
                · exact fun h => h
                · exact hsub k v
              rcases ih body (by simp [Expr.children]) hsub' h with hx | ⟨k, v, hv, hout, hpart⟩
              · exact .inl hx
              · rw [lookup_hide] at hv hout
                split at hv
                · cases hv
                next hk =>
                  rw [if_neg hk] at hout
                  exact .inr ⟨k, v, hv, hout, hpart⟩
          | _ =>
              rw [reads_of_children hpath (by simp)] at h
              rw [reads_of_children hpath' (by simp)]
              obtain ⟨c, hc, hx⟩ := List.mem_flatMap.mp h
              refine (ih c hc hsub hx).imp_left fun hx => ?_
              exact List.mem_flatMap.mpr ⟨c, hc, hx⟩

theorem reads_nil (e : Expr) : reads e [] = [] := by
  have hpath (e : Expr) : path? [] e = none := by
    induction e using Expr.children_induction with
    | step e ih =>
        cases e with
        | member target name => rw [path?, ih target List.mem_cons_self, Option.bind_none]
        | _ => rfl
  induction e using Expr.children_induction with
  | step e ih =>
      cases e with
      | lambda params body =>
          rw [reads_lambda]
          exact ih body List.mem_cons_self
      | _ =>
          rw [reads_of_children (hpath _) (by simp)]
          exact List.flatMap_eq_nil_iff.mpr ih

/-- Whatever is read belongs to what a parameter stands for. -/
theorem part_of_reads (h : x ∈ reads e env) : ∃ id v, env.lookup id = some v ∧ Part v x := by
  have hsub : ∀ id v, ([] : List (Nat × Expr)).lookup id = some v → env.lookup id = some v := by simp
  rcases reads_restrict hsub h with hx | ⟨id, v, hv, -, hpart⟩
  · rw [reads_nil] at hx
    cases hx
  · exact ⟨id, v, hv, hpart⟩

/-- What the body of a lambda reads, the lambda reads, or it belongs to what its parameters stand
for. -/
theorem reads_body {bindings : List (Nat × Expr)} {params : List Parameter} {body : Expr}
    (hids : ∀ id, id ∈ params.map (·.id) ↔ id ∈ bindings.map (·.1))
    (h : x ∈ reads body (bindings ++ env)) :
    x ∈ reads (.lambda params body) env ∨ ∃ b ∈ bindings, Part b.2 x := by
  have hnone {id : Nat} (hid : id ∉ params.map (·.id)) : bindings.lookup id = none := by
    rw [List.lookup_eq_none_iff]
    intro b hb
    have hne : id ≠ b.1 := by
      rintro rfl
      exact hid ((hids b.1).mpr (List.mem_map_of_mem hb))
    simpa using hne
  have hsub : ∀ id v, (hide (params.map (·.id)) env).lookup id = some v →
      (bindings ++ env).lookup id = some v := by
    intro id v hv
    rw [lookup_hide] at hv
    split at hv
    · cases hv
    next hid => rw [List.lookup_append, hnone hid, Option.none_or, hv]
  rw [reads_lambda]
  refine (reads_restrict hsub h).imp_right ?_
  rintro ⟨id, v, hv, hout, hpart⟩
  rw [List.lookup_append] at hv
  cases hlookup : bindings.lookup id with
  | some w =>
      rw [hlookup, Option.some_or, Option.some.injEq] at hv
      exact ⟨(id, w), mem_of_lookup hlookup, hv ▸ hpart⟩
  | none =>
      have hid : id ∉ params.map (·.id) := by
        rw [hids]
        intro hmem
        obtain ⟨b, hb, rfl⟩ := List.mem_map.mp hmem
        have := List.lookup_eq_none_iff.mp hlookup b hb
        simp at this
      rw [hlookup, Option.none_or] at hv
      rw [lookup_hide, if_neg hid, hv] at hout
      cases hout

/-- A closed expression reads only of parameters in sight that occur in it. -/
theorem path_closed (h : path? env e = some x) (hclosed : e.isClosed ids) :
    ∃ id ∈ ids, e.mentions [id] ∧ ∃ v, env.lookup id = some v ∧ Part v x := by
  induction e using Expr.children_induction generalizing x with
  | step e ih =>
      cases e with
      | parameter p =>
          refine ⟨p.id, Expr.isClosed_parameter.mp hclosed, ?_, x, h, .self⟩
          exact Expr.mentions_iff.mpr ⟨p, Expr.self_mem_nodes _, List.mem_cons_self⟩
      | member target name =>
          obtain ⟨v, hv, hx⟩ := path_member.mp h
          obtain ⟨id, hid, hmentions, w, hw, hpart⟩ := ih target (by simp [Expr.children]) hv
            (Expr.isClosed_child hclosed (by simp) (by simp [Expr.children]))
          exact ⟨id, hid, Expr.mentions_child hmentions (by simp [Expr.children]), w, hw,
            hpart.member hx⟩
      | _ => cases h

theorem reads_closed (h : x ∈ reads e env) (hclosed : e.isClosed ids) :
    ∃ id ∈ ids, e.mentions [id] ∧ ∃ v, env.lookup id = some v ∧ Part v x := by
  induction e using Expr.children_induction generalizing env ids with
  | step e ih =>
      cases hpath : path? env e with
      | some y =>
          rw [reads_of_path hpath, List.mem_singleton] at h
          exact path_closed (h ▸ hpath) hclosed
      | none =>
          cases e with
          | lambda params body =>
              rw [reads_lambda] at h
              obtain ⟨id, hid, hmentions, v, hv, hpart⟩ := ih body (by simp [Expr.children]) h
                (Expr.isClosed_lambda.mp hclosed).2
              rw [lookup_hide] at hv
              split at hv
              · cases hv
              next hout =>
                exact ⟨id, (List.mem_append.mp hid).resolve_left hout,
                  Expr.mentions_child hmentions (by simp [Expr.children]), v, hv, hpart⟩
          | _ =>
              rw [reads_of_children hpath (by simp)] at h
              obtain ⟨c, hc, hx⟩ := List.mem_flatMap.mp h
              obtain ⟨id, hid, hmentions, v, hv, hpart⟩ :=
                ih c hc hx (Expr.isClosed_child hclosed (by simp) hc)
              exact ⟨id, hid, Expr.mentions_child hmentions hc, v, hv, hpart⟩

variable {catalog : Catalog} {style : IdentifierCase} {n m : Nat}

/-- A chain of members is bound to what it stands for, and no label is given out. -/
theorem Binds.path_eq (h : Binds catalog style env n e r m) (hx : path? env e = some x) :
    r = x ∧ m = n := by
  induction h generalizing x with
  | parameter h => exact ⟨Option.some.inj (h.symm.trans hx), rfl⟩
  | member _ h ih =>
      obtain ⟨v, hv, hmember⟩ := path_member.mp hx
      obtain ⟨rfl, hlabels⟩ := ih hv
      exact ⟨Except.ok.inj (h.symm.trans hmember), hlabels⟩
  | _ => cases hx

theorem arg_reads {method : Method} {receiver : Option Expr} {args : List Expr} (hc : c ∈ args) :
    reads c env ⊆ reads (.call method receiver args) env :=
  reads_child rfl (by simp) (List.mem_append_right _ hc)

end Binding

end Quarry
